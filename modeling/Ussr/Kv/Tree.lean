import Ussr.Kv.Model

/-! Putting and deleting keys. The path to the changed leaf is copied to new pages;
a node too big for its page is split, and an empty one leaves its parent. -/

namespace Ussr.Kv
open Uno

variable {K : Type} [LinearOrder K]
variable {d : Nat} {s : Space}

namespace Body

def keys : Body K → List K
  | .leaf map => map.keys
  | .branch map => map.keys

def first : Body K → Option K
  | .leaf map => map.first
  | .branch map => map.first

def take (n : Nat) : Body K → Body K
  | .leaf map => .leaf (map.take n)
  | .branch map => .branch (map.take n)

def drop (n : Nat) : Body K → Body K
  | .leaf map => .leaf (map.drop n)
  | .branch map => .branch (map.drop n)

end Body

abbrev Placed (K : Type) := Nat × Option (K × Nat)

abbrev nodeRoom : Nat := 4072

variable [KvKey K]

/-- `dkv_fit`. The loop moves the entries from the middle on to the right half. -/
def dkvFit (db : Db K) (node : Node K) : Option (Placed K × Db K) := do
  let text ← dkvNodeText node.body
  if text.length ≤ nodeRoom then return ((node.page, none), db)
  else
    let half := node.body.keys.length / 2
    let sep ← node.body.keys[half]?
    let (right, db) := dkvNodeNew db (node.body.drop half)
    return ((node.page, some (sep, right.page)), db.keep { node with body := node.body.take half })

def dkvReplace (s : Space) : Option Entry → Space
  | some was => dkvDropValue s was
  | none => { s with count := s.count + 1 }

def putChild (map : OrdMap K V) (ck : K) (child : V) (split : Option (K × V)) : OrdMap K V :=
  match split with
  | some (sep, right) => (map.put ck child).put sep right
  | none => map.put ck child

def dkvInsert (registry : Registry) : (fuel : Nat) → Db K → Nat → K → Entry →
    Option (Placed K × Db K)
  | 0, _, _, _, _ => none
  | fuel + 1, db, p, key, x => do
    let (old, db) ← dkvNodeOk registry db p
    let (node, db) := dkvWritable db old
    match node.body with
    | .leaf map =>
      let node := { node with body := .leaf (map.put key x) }
      dkvFit ({ db with space := dkvReplace db.space (map.get key) }.keep node) node
    | .branch map =>
      let (ck, child) ← dkvRoute map key
      let ((np, split), db) ← dkvInsert registry fuel db child key x
      let node := { node with body := .branch (putChild map ck np split) }
      dkvFit (db.keep node) node

def dkvPutRoot (db : Db K) : Nat × Db K :=
  if db.root = 0 then
    let (leaf, db) := dkvNodeNew db (.leaf .empty)
    (leaf.page, db)
  else (db.root, db)

def dkvGrowRoot (registry : Registry) (db : Db K) : Placed K → Option (Db K)
  | (np, none) => some { db with root := np }
  | (np, some (sep, sp)) => do
    let (top, db) := dkvNodeNew db (.branch .empty)
    let (left, db) ← dkvNodeOk registry db np
    let lk ← left.body.first
    let db := db.keep { top with body := .branch ((OrdMap.empty.put lk np).put sep sp) }
    return { db with root := top.page }

def dubnaKvPut (registry : Registry) (db : Db K) (key : K) (value : UnoValue) :
    Option (Int × Db K) :=
  if dkvKeyOk key then
    match value with
    | .null => some (-1, db)
    | _ => do
      let (x, space) ← dkvValueIn db.space value
      let (root, db) := dkvPutRoot { db with space }
      let (placed, db) ← dkvInsert registry db.fuel db root key x
      return (0, ← dkvGrowRoot registry db placed)
  else some (-1, db)

/-- What a removal leaves: the page of the node, whether the key was there, whether the node is
empty now. -/
abbrev Removed := Nat × Bool × Bool

def dkvRemoveEntry (db : Db K) (old : Node K) (map : OrdMap K Entry) (key : K) (was : Entry) :
    Removed × Db K :=
  let (node, db) := dkvWritable db old
  let space := dkvDropValue db.space was
  let map := map.del key
  ((node.page, true, map.len = 0),
    { db with space := { space with count := space.count - 1 } }.keep { node with body := .leaf map })

def dkvRemoveChild (db : Db K) (old : Node K) (map : OrdMap K Nat) (ck : K) (cp : Nat)
    (empty : Bool) : Removed × Db K :=
  let (node, db) := dkvWritable db old
  if empty then
    let map := map.del ck
    ((node.page, true, map.len = 0),
      { db with cache := db.cache.del cp, space := dkvFreeNew db.space cp }.keep
        { node with body := .branch map })
  else
    let map := map.put ck cp
    ((node.page, true, map.len = 0), db.keep { node with body := .branch map })

def dkvRemove (registry : Registry) : (fuel : Nat) → Db K → Nat → K → Option (Removed × Db K)
  | 0, _, _, _ => none
  | fuel + 1, db, p, key => do
    let (old, db) ← dkvNodeOk registry db p
    match old.body with
    | .leaf map =>
      match map.get key with
      | none => return ((p, false, false), db)
      | some was => return dkvRemoveEntry db old map key was
    | .branch map =>
      let (ck, child) ← dkvRoute map key
      let ((cp, gone, empty), db) ← dkvRemove registry fuel db child key
      if gone then return dkvRemoveChild db old map ck cp empty
      else return ((p, false, false), db)

def dkvLeaveRoot (db : Db K) (node : Node K) : Db K :=
  { db with
    cache := db.cache.del db.root
    space := if node.dirty then dkvFreeNew db.space db.root else dkvDrop db.space db.root 1 }

/-- The loop of `dubna_kv_del`: a root branch with one child gives way to it. -/
def dkvShrinkRoot (registry : Registry) : (fuel : Nat) → Db K → Option (Db K)
  | 0, _ => none
  | fuel + 1, db => do
    let (node, db) ← dkvNodeOk registry db db.root
    match node.body with
    | .leaf _ => return db
    | .branch map =>
      if 1 < map.len then return db
      else
        let child ← map.get (← map.first)
        dkvShrinkRoot registry fuel { dkvLeaveRoot db node with root := child }

def dubnaKvDel (registry : Registry) (db : Db K) (key : K) : Option (Bool × Db K) :=
  if dkvKeyOk key ∧ db.root ≠ 0 then do
    let ((np, gone, empty), db) ← dkvRemove registry db.fuel db db.root key
    if empty then
      return (gone, { db with
        cache := db.cache.del np, space := dkvFreeNew db.space np, root := 0 })
    else return (gone, ← dkvShrinkRoot registry db.fuel { db with root := np })
  else some (false, db)

/-! The tree that a store means: its nodes with their children in place of the
children's pages. The operations follow those of the store, with the same use
of the free pages. -/

structure TreeNode (K : Type) [LinearOrder K] (V : Type) where
  page : Nat
  dirty : Bool
  map : OrdMap K V

/-- What a node of height `d` maps its keys to. -/
def Item (K : Type) [LinearOrder K] : Nat → Type
  | 0 => Entry
  | d + 1 => TreeNode K (Item K d)

/-- Trees of height `d`: all leaves lie at the same depth. -/
abbrev Tree (K : Type) [LinearOrder K] (d : Nat) := TreeNode K (Item K d)

variable {K : Type} [LinearOrder K] {V : Type}

def mapBody : {d : Nat} → OrdMap K (Item K d) → Body K
  | 0, map => .leaf map
  | _ + 1, map => .branch (map.map TreeNode.page)

def Tree.node {d : Nat} (t : Tree K d) : Node K :=
  ⟨mapBody t.map, t.page, t.dirty⟩

@[simp] theorem mapBody_keys (map : OrdMap K (Item K d)) :
    (mapBody map).keys = map.keys := by
  cases d with
  | zero => rfl
  | succ d => exact OrdMap.keys_map ..

@[simp] theorem mapBody_first (map : OrdMap K (Item K d)) :
    (mapBody map).first = map.first := by
  cases d with
  | zero => rfl
  | succ d => exact OrdMap.first_map ..

@[simp] theorem mapBody_take (map : OrdMap K (Item K d)) (n : Nat) :
    (mapBody map).take n = mapBody (map.take n) := by
  cases d with
  | zero => rfl
  | succ d => exact congrArg Body.branch (OrdMap.take_map ..)

@[simp] theorem mapBody_drop (map : OrdMap K (Item K d)) (n : Nat) :
    (mapBody map).drop n = mapBody (map.drop n) := by
  cases d with
  | zero => rfl
  | succ d => exact congrArg Body.branch (OrdMap.drop_map ..)

theorem dkvRoute_map {W : Type} (f : V → W) (m : OrdMap K V) (key : K) :
    dkvRoute (m.map f) key = (dkvRoute m key).map fun e => (e.1, f e.2) := by
  simp only [dkvRoute, OrdMap.floor_map, OrdMap.first_map, OrdMap.get_map]
  cases (m.floor key).or m.first with
  | none => rfl
  | some k => cases h : m.get k <;> simp [h]

theorem putChild_map {W : Type} (f : V → W) (m : OrdMap K V) (ck : K) (child : V)
    (split : Option (K × V)) :
    putChild (m.map f) ck (f child) (split.map fun e => (e.1, f e.2)) =
      (putChild m ck child split).map f := by
  cases split <;> simp [putChild]

theorem putChild_get {m : OrdMap K V} {ck k : K} {child c : V}
    {split : Option (K × V)} (h : (putChild m ck child split).get k = some c) :
    c = child ∨ (∃ sep, split = some (sep, c)) ∨ (k ≠ ck ∧ m.get k = some c) := by
  have hput : (m.put ck child).get k = some c → c = child ∨ (k ≠ ck ∧ m.get k = some c) :=
    fun hget => (OrdMap.get_put_cases hget).imp_left And.right
  cases split with
  | none => exact (hput h).imp_right Or.inr
  | some e =>
    obtain ⟨sep, right⟩ := e
    rcases OrdMap.get_put_cases h with ⟨-, rfl⟩ | ⟨-, hget⟩
    · exact Or.inr (Or.inl ⟨sep, rfl⟩)
    · exact (hput hget).imp_right Or.inr

section

abbrev Halves (K : Type) [LinearOrder K] (d : Nat) := Tree K d × Option (K × Tree K d)

def TreeNode.writable (s : Space) (t : TreeNode K V) : TreeNode K V × Space :=
  if t.dirty then (t, s)
  else (⟨(dkvNewPage s).1, true, t.map⟩, dkvDrop (dkvNewPage s).2 t.page 1)

variable [KvKey K]

def Tree.fit {d : Nat} (s : Space) (t : Tree K d) : Option (Halves K d × Space) := do
  let text ← dkvNodeText (mapBody t.map)
  if text.length ≤ nodeRoom then return ((t, none), s)
  else
    let half := t.map.keys.length / 2
    let sep ← t.map.keys[half]?
    let right := ⟨(dkvNewPage s).1, true, t.map.drop half⟩
    return (({ t with map := t.map.take half }, some (sep, right)), (dkvNewPage s).2)

def TreeNode.half (t : TreeNode K V) : Nat :=
  t.map.keys.length / 2

theorem Tree.fit_fits {t : Tree K d} {text : List UInt8}
    (htext : dkvNodeText (mapBody t.map) = some text) (h : text.length ≤ nodeRoom) (s : Space) :
    Tree.fit s t = some ((t, none), s) := by
  simp [Tree.fit, htext, h]

theorem Tree.fit_splits {t : Tree K d} {text : List UInt8} {sep : K}
    (htext : dkvNodeText (mapBody t.map) = some text) (h : nodeRoom < text.length)
    (hsep : t.map.keys[t.half]? = some sep) (s : Space) : Tree.fit s t =
      some (({ t with map := t.map.take t.half },
        some (sep, ⟨(dkvNewPage s).1, true, t.map.drop t.half⟩)), (dkvNewPage s).2) := by
  rw [TreeNode.half] at hsep
  simp [Tree.fit, htext, not_le.mpr h, hsep, TreeNode.half]

theorem Tree.fit_cases {t : Tree K d} {r : Halves K d × Space}
    (h : Tree.fit s t = some r) : ∃ text, dkvNodeText (mapBody t.map) = some text ∧
      ((text.length ≤ nodeRoom ∧ r = ((t, none), s)) ∨
        ∃ sep, nodeRoom < text.length ∧ t.map.keys[t.half]? = some sep ∧
          r = (({ t with map := t.map.take t.half },
            some (sep, ⟨(dkvNewPage s).1, true, t.map.drop t.half⟩)), (dkvNewPage s).2)) := by
  obtain ⟨text, htext, h⟩ := Option.bind_eq_some_iff.mp h
  refine ⟨text, htext, ?_⟩
  split_ifs at h with hfits
  · exact Or.inl ⟨hfits, (Option.some.inj h).symm⟩
  · obtain ⟨sep, hsep, h⟩ := Option.bind_eq_some_iff.mp h
    exact Or.inr ⟨sep, not_le.mp hfits, hsep, (Option.some.inj h).symm⟩

def Tree.insert : {d : Nat} → Space → Tree K d → K → Entry → Option (Halves K d × Space)
  | 0, s, t, key, x =>
    let w := t.writable s
    Tree.fit (d := 0) (dkvReplace w.2 (t.map.get key)) { w.1 with map := t.map.put key x }
  | d + 1, s, t, key, x => do
    let w := t.writable s
    let (ck, child) ← dkvRoute t.map key
    let ((child, split), s) ← Tree.insert (d := d) w.2 child key x
    Tree.fit (d := d + 1) s { w.1 with map := putChild t.map ck child split }

end

structure Remains (K : Type) [LinearOrder K] (d : Nat) where
  tree : Tree K d
  gone : Bool
  empty : Bool

def Tree.removed {d : Nat} (t : Tree K d) (map : OrdMap K (Item K d)) : Remains K d :=
  ⟨{ t with map }, true, map.len = 0⟩

def Tree.removeChild {d : Nat} (s : Space) (t : Tree K (d + 1)) (ck : K) (below : Remains K d) :
    Remains K (d + 1) × Space :=
  let w := t.writable s
  if below.empty then
    (Tree.removed (d := d + 1) w.1 (t.map.del ck), dkvFreeNew w.2 below.tree.page)
  else (Tree.removed (d := d + 1) w.1 (t.map.put ck below.tree), w.2)

theorem Tree.removeChild_empty {t : Tree K (d + 1)} {ck : K}
    {below : Remains K d} (h : below.empty = true) : Tree.removeChild s t ck below =
      (Tree.removed (d := d + 1) (t.writable s).1 (t.map.del ck),
        dkvFreeNew (t.writable s).2 below.tree.page) :=
  if_pos h

theorem Tree.removeChild_left {t : Tree K (d + 1)} {ck : K}
    {below : Remains K d} (h : below.empty = false) : Tree.removeChild s t ck below =
      (Tree.removed (d := d + 1) (t.writable s).1 (t.map.put ck below.tree), (t.writable s).2) :=
  if_neg (by simp [h])

theorem Tree.removeChild_gone (s : Space) (t : Tree K (d + 1)) (ck : K)
    (below : Remains K d) : (Tree.removeChild s t ck below).1.gone = true := by
  cases h : below.empty with
  | true => rw [Tree.removeChild_empty h]; rfl
  | false => rw [Tree.removeChild_left h]; rfl

def Tree.remove : {d : Nat} → Space → Tree K d → K → Option (Remains K d × Space)
  | 0, s, t, key =>
    match t.map.get key with
    | none => some (⟨t, false, false⟩, s)
    | some was =>
      let w := t.writable s
      let s := dkvDropValue w.2 was
      some (Tree.removed (d := 0) w.1 (t.map.del key), { s with count := s.count - 1 })
  | d + 1, s, t, key => do
    let (ck, child) ← dkvRoute t.map key
    let (below, s) ← Tree.remove (d := d) s child key
    if below.gone then return Tree.removeChild s t ck below else return (⟨t, false, false⟩, s)

theorem Tree.remove_branch {s' : Space} {t : Tree K (d + 1)} {key : K}
    {r : Remains K (d + 1)} (h : Tree.remove s t key = some (r, s')) :
    ∃ ck child below sb, dkvRoute t.map key = some (ck, child) ∧
      Tree.remove (d := d) s child key = some (below, sb) ∧
        (r, s') = if below.gone then Tree.removeChild sb t ck below else (⟨t, false, false⟩, sb) := by
  rw [Tree.remove] at h
  obtain ⟨⟨ck, child⟩, hroute, h⟩ := Option.bind_eq_some_iff.mp h
  obtain ⟨⟨below, sb⟩, hbelow, h⟩ := Option.bind_eq_some_iff.mp h
  refine ⟨ck, child, below, sb, hroute, hbelow, ?_⟩
  dsimp only at h
  split_ifs at h ⊢ <;> exact (Option.some.inj h).symm

section

abbrev Root (K : Type) [LinearOrder K] := Option (Σ d, Tree K d)

def Root.plant (s : Space) : Root K → (Σ d, Tree K d) × Space
  | none => (⟨0, ⟨(dkvNewPage s).1, true, OrdMap.empty⟩⟩, (dkvNewPage s).2)
  | some t => (t, s)

def Tree.grow {d : Nat} (s : Space) : Halves K d → Option (Root K × Space)
  | (t, none) => some (some ⟨d, t⟩, s)
  | (t, some (sep, right)) => do
    let lk ← t.map.first
    let map : OrdMap K (Item K (d + 1)) := (OrdMap.empty.put lk t).put sep right
    return (some ⟨d + 1, ⟨(dkvNewPage s).1, true, map⟩⟩, (dkvNewPage s).2)

def TreeNode.leave (s : Space) (t : TreeNode K V) : Space :=
  if t.dirty then dkvFreeNew s t.page else dkvDrop s t.page 1

def Tree.shrink : {d : Nat} → Space → Tree K d → Option (Root K × Space)
  | 0, s, t => some (some ⟨0, t⟩, s)
  | d + 1, s, t =>
    if 1 < t.map.len then some (some ⟨d + 1, t⟩, s)
    else do
      let child ← t.map.get (← t.map.first)
      Tree.shrink (d := d) (t.leave s) child

variable [KvKey K]

def Root.put (s : Space) (root : Root K) (key : K) (x : Entry) : Option (Root K × Space) := do
  let p := root.plant s
  let (halves, s) ← Tree.insert p.2 p.1.2 key x
  Tree.grow s halves

def Root.del (s : Space) (root : Root K) (key : K) : Option ((Bool × Root K) × Space) :=
  match root with
  | none => some ((false, none), s)
  | some t => do
    let (r, s) ← Tree.remove s t.2 key
    if r.empty then return ((r.gone, none), dkvFreeNew s r.tree.page)
    else
      let (root, s) ← Tree.shrink s r.tree
      return ((r.gone, root), s)

end

end Ussr.Kv
