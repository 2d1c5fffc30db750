import Ussr.Kv.Ledger

/-! The store carries out the operations of its tree. What lies outside the tree and
outside the free pages stays as it is, so that the parts of a tree can be
followed one after the other. -/

namespace Ussr.Kv
open Uno

variable {K : Type} [LinearOrder K] [KvKey K] (registry : Registry) (file : KvFile)
variable {db read copied : Db K} {node old : Node K} {p fuel : Nat} {key : K}

abbrev Cache (K : Type) [LinearOrder K] := OrdMap Nat (Node K)

section

def pageNode (cache : Cache K) (p : Nat) : Option (Node K) :=
  match cache.get p with
  | some node => some node
  | none => (dkvReadNode registry file p).join.map fun body => ⟨body, p, false⟩

def ItemHolds (cache : Cache K) : {d : Nat} → Item K d → Prop
  | 0, _ => True
  | _ + 1, t => pageNode registry file cache t.page = some (Tree.node t) ∧
      ∀ k c, t.map.get k = some c → ItemHolds cache c

def Tree.Holds (cache : Cache K) {d : Nat} (t : Tree K d) : Prop :=
  ItemHolds registry file cache (d := d + 1) t

variable {registry file} {cache : Cache K}

theorem pageNode_put (node : Node K) (p q : Nat) :
    pageNode registry file (cache.put p node) q =
      if q = p then some node else pageNode registry file cache q := by
  rw [pageNode, OrdMap.get_put]
  split_ifs <;> rfl

theorem pageNode_del_ne {q : Nat} (h : q ≠ p) :
    pageNode registry file (cache.del p) q = pageNode registry file cache q := by
  rw [pageNode, OrdMap.get_del_ne h]
  rfl

theorem dkvNodeOk_of_pageNode
    (h : pageNode registry db.file db.cache p = some node) :
    ∃ cache, dkvNodeOk registry db p = some (node, { db with cache }) ∧
      pageNode registry db.file cache = pageNode registry db.file db.cache := by
  cases hget : db.cache.get p with
  | some found =>
    rw [pageNode, hget] at h
    cases h
    refine ⟨db.cache, ?_, rfl⟩
    simp [dkvNodeOk, dkvNode, hget]
  | none =>
    have hpage := h
    rw [pageNode, hget] at h
    obtain ⟨body, hbody, rfl⟩ := Option.map_eq_some_iff.mp h
    have hread := Option.join_eq_some_iff.mp hbody
    refine ⟨db.cache.put p ⟨body, p, false⟩, ?_, ?_⟩
    · simp [dkvNodeOk, dkvNode, hget, hread, Db.keep]
    · funext q
      rw [pageNode_put]
      split_ifs with hq
      · rw [hq, hpage]
      · rfl

end

section

variable {registry file} {cache cache' : Cache K} {d : Nat}

theorem item_frame {x : Item K d} (h : ItemHolds registry file cache x)
    (hsame : ∀ q, owns q x ≠ 0 → pageNode registry file cache' q = pageNode registry file cache q) :
    ItemHolds registry file cache' x := by
  induction d with
  | zero => trivial
  | succ d ih =>
    obtain ⟨hnode, hkids⟩ := h
    refine ⟨?_, fun k c hget => ih (hkids k c hget) fun q hq => hsame q ?_⟩
    · rw [hsame, hnode]
      simp [owns, isAt]
    · have := OrdMap.le_sum (owns q) hget
      simp only [owns]
      omega

theorem holds_of_kids {t : Tree K d} (hnode : node = Tree.node t)
    (hkids : ∀ k c, t.map.get k = some c → ItemHolds registry file cache c)
    (hsame : ∀ k c, t.map.get k = some c → ∀ q, owns q c ≠ 0 →
      pageNode registry file cache' q = pageNode registry file cache q)
    (hpage : pageNode registry file cache' t.page = some node) :
    Tree.Holds registry file cache' t :=
  ⟨hnode ▸ hpage, fun k c hget => item_frame (hkids k c hget) (hsame k c hget)⟩

end

section

variable {registry} {d : Nat}

omit [KvKey K] in
theorem dkvNodeNew_eq (db : Db K) (body : Body K) : dkvNodeNew db body =
    (⟨body, (dkvNewPage db.space).1, true⟩,
      { db with
        space := (dkvNewPage db.space).2
        cache := db.cache.put (dkvNewPage db.space).1 ⟨body, (dkvNewPage db.space).1, true⟩ }) := rfl

theorem newPage_ne {s : Space} {q : Nat} (h : s.holds q = 0) : q ≠ (dkvNewPage s).1 := by
  rintro rfl
  have := dkvNewPage_holds (dkvNewPage s).1 s
  simp only [isAt, if_true] at this
  omega

theorem isAt_ne {a : Nat} (h : isAt a p = 0) : a ≠ p := by
  rintro rfl
  simp [isAt] at h

theorem dkvWritable_sim (db : Db K) {t : Tree K d} (hfresh : db.space.holds t.page = 0)
    (hnode : pageNode registry db.file db.cache t.page = some (Tree.node t)) :
    ∃ cache, dkvWritable db (Tree.node t) = (Tree.node (t.writable db.space).1,
        { db with space := (t.writable db.space).2, cache }) ∧
      pageNode registry db.file cache (t.writable db.space).1.page =
        some (Tree.node (t.writable db.space).1) ∧
      ∀ q, isAt q t.page + db.space.holds q = 0 →
        pageNode registry db.file cache q = pageNode registry db.file db.cache q := by
  by_cases hdirty : t.dirty = true
  · have hwrite : t.writable db.space = (t, db.space) := by
      rw [TreeNode.writable, if_pos hdirty]
    rw [hwrite]
    refine ⟨db.cache, ?_, hnode, fun _ _ => rfl⟩
    rw [dkvWritable, if_pos (show (Tree.node t).dirty = true from hdirty)]
  · have hwrite : t.writable db.space =
        (⟨(dkvNewPage db.space).1, true, t.map⟩, dkvDrop (dkvNewPage db.space).2 t.page 1) := by
      rw [TreeNode.writable, if_neg hdirty]
    have hnew : t.page ≠ (dkvNewPage db.space).1 := newPage_ne hfresh
    let new : Tree K d := ⟨(dkvNewPage db.space).1, true, t.map⟩
    rw [hwrite]
    refine ⟨(db.cache.put new.page (Tree.node new)).del t.page, ?_, ?_, fun q hq => ?_⟩
    · rw [dkvWritable, if_neg (show ¬(Tree.node t).dirty = true from hdirty), dkvNodeNew_eq]
      rfl
    · rw [pageNode_del_ne hnew.symm, pageNode_put, if_pos rfl]
    · have hold : q ≠ t.page := isAt_ne (by omega)
      rw [pageNode_del_ne hold, pageNode_put, if_neg (newPage_ne (by omega))]

end

section

variable {registry} {d : Nat}

theorem dkvFit_fits {text : List UInt8}
    (htext : dkvNodeText node.body = some text) (h : text.length ≤ nodeRoom) :
    dkvFit db node = some ((node.page, none), db) := by
  simp [dkvFit, htext, h]

theorem dkvFit_splits {text : List UInt8} {sep : K} {half : Nat}
    (htext : dkvNodeText node.body = some text) (h : nodeRoom < text.length)
    (hhalf : node.body.keys.length / 2 = half) (hsep : node.body.keys[half]? = some sep) :
    dkvFit db node = some ((node.page, some (sep, (dkvNewPage db.space).1)),
      (dkvNodeNew db (node.body.drop half)).2.keep { node with body := node.body.take half }) := by
  simp [dkvFit, htext, not_le.mpr h, hhalf, hsep, dkvNodeNew_eq]

def splitPage (split : Option (K × Tree K d)) : Option (K × Nat) :=
  split.map fun e => (e.1, e.2.page)

def SplitHolds (registry : Registry) (file : KvFile) (cache : Cache K)
    (split : Option (K × Tree K d)) : Prop :=
  ∀ e, split = some e → Tree.Holds registry file cache e.2

variable (registry) in
theorem dkvFit_sim (db : Db K) {t t' : Tree K d} {split : Option (K × Tree K d)} {s' : Space}
    (h : Tree.fit db.space t = some ((t', split), s'))
    (hkids : ∀ k c, t.map.get k = some c → ItemHolds registry db.file db.cache c)
    (hroom : ∀ a, Tree.owns a t + db.space.holds a ≤ 1) :
    ∃ cache, dkvFit (db.keep (Tree.node t)) (Tree.node t) =
        some ((t'.page, splitPage split), { db with space := s', cache }) ∧
      Tree.Holds registry db.file cache t' ∧ SplitHolds registry db.file cache split ∧
      ∀ q, isAt q t.page + db.space.holds q = 0 →
        pageNode registry db.file cache q = pageNode registry db.file db.cache q := by
  have hapart : ∀ k c, t.map.get k = some c → ∀ q, owns q c ≠ 0 →
      q ≠ t.page ∧ db.space.holds q = 0 := by
    intro k c hget q hq
    have hle := OrdMap.le_sum (owns q) hget
    have hone := hroom q
    rw [Tree.owns_eq] at hone
    exact ⟨isAt_ne (by omega), by omega⟩
  have hbody : (Tree.node t).body = mapBody t.map := rfl
  obtain ⟨text, htext, ⟨hfits, hr⟩ | ⟨sep, hroomy, hsep, hr⟩⟩ := Tree.fit_cases h
  · cases hr
    refine ⟨db.cache.put t.page (Tree.node t), dkvFit_fits htext hfits, ?_, ?_, fun q hq => ?_⟩
    · refine holds_of_kids rfl hkids (fun k c hget q hq => ?_) (by rw [pageNode_put, if_pos rfl])
      rw [pageNode_put, if_neg (hapart k c hget q hq).1]
    · rintro e he
      cases he
    · rw [pageNode_put, if_neg (isAt_ne (by omega))]
  · cases hr
    have hpage : db.space.holds t.page = 0 := by
      have := hroom t.page
      simp only [Tree.owns_eq, isAt, if_true] at this
      omega
    have hnew : t.page ≠ (dkvNewPage db.space).1 := newPage_ne hpage
    let left : Tree K d := { t with map := t.map.take t.half }
    let right : Tree K d := ⟨(dkvNewPage db.space).1, true, t.map.drop t.half⟩
    let cache := ((db.cache.put t.page (Tree.node t)).put right.page (Tree.node right)).put t.page
      (Tree.node left)
    have hother : ∀ q, q ≠ t.page → db.space.holds q = 0 →
        pageNode registry db.file cache q = pageNode registry db.file db.cache q := by
      intro q hq hfree
      rw [pageNode_put, if_neg hq, pageNode_put, if_neg (newPage_ne hfree), pageNode_put, if_neg hq]
    refine ⟨cache, ?_, ?_, ?_, fun q hq => hother q (isAt_ne (by omega)) (by omega)⟩
    · have hkeys : (Tree.node t).body.keys = t.map.keys := mapBody_keys t.map
      rw [dkvFit_splits htext hroomy (hkeys ▸ rfl) (hkeys ▸ hsep), dkvNodeNew_eq, hbody,
        mapBody_take, mapBody_drop]
      rfl
    · refine holds_of_kids (t := left) rfl (fun k c hget => hkids k c (OrdMap.get_of_take hget))
        (fun k c hget q hq => ?_) (by rw [pageNode_put, if_pos rfl])
      obtain ⟨hq, hfree⟩ := hapart k c (OrdMap.get_of_take hget) q hq
      exact hother q hq hfree
    · rintro e he
      cases he
      refine holds_of_kids (t := right) rfl (fun k c hget => hkids k c (OrdMap.get_of_drop hget))
        (fun k c hget q hq => ?_) ?_
      · obtain ⟨hq, hfree⟩ := hapart k c (OrdMap.get_of_drop hget) q hq
        exact hother q hq hfree
      · rw [pageNode_put, if_neg hnew.symm, pageNode_put, if_pos rfl]

end

section

variable {registry}

theorem dkvInsert_leaf {x : Entry} {map : OrdMap K Entry} (hread : dkvNodeOk registry db p = some (old, read))
    (hwrite : dkvWritable read old = (node, copied)) (hbody : node.body = .leaf map) :
    dkvInsert registry (fuel + 1) db p key x =
      dkvFit ({ copied with space := dkvReplace copied.space (map.get key) }.keep
        { node with body := .leaf (map.put key x) }) { node with body := .leaf (map.put key x) } := by
  simp [dkvInsert, hread, hwrite, hbody]

theorem dkvInsert_branch {below : Db K} {p ck child : _}
    {x : Entry} {map : OrdMap K Nat} {np : Nat} {split : Option (K × Nat)}
    (hread : dkvNodeOk registry db p = some (old, read))
    (hwrite : dkvWritable read old = (node, copied)) (hbody : node.body = .branch map)
    (hroute : dkvRoute map key = some (ck, child))
    (hbelow : dkvInsert registry fuel copied child key x = some ((np, split), below)) :
    dkvInsert registry (fuel + 1) db p key x =
      dkvFit (below.keep { node with body := .branch (putChild map ck np split) })
        { node with body := .branch (putChild map ck np split) } := by
  simp [dkvInsert, hread, hwrite, hbody, hroute, hbelow]

theorem dkvInsert_sim {d fuel : Nat} (hfuel : d < fuel) (db : Db K) {t t' : Tree K d}
    {split : Option (K × Tree K d)} {s' : Space} {key : K} {x : Entry}
    (h : Tree.insert db.space t key x = some ((t', split), s'))
    (hholds : Tree.Holds registry db.file db.cache t)
    (hroom : ∀ a, Tree.owns a t + db.space.holds a + entryOwns a x ≤ 1) :
    ∃ cache, dkvInsert registry fuel db t.page key x =
        some ((t'.page, splitPage split), { db with space := s', cache }) ∧
      Tree.Holds registry db.file cache t' ∧ SplitHolds registry db.file cache split ∧
      ∀ q, Tree.owns q t + db.space.holds q + entryOwns q x = 0 →
        pageNode registry db.file cache q = pageNode registry db.file db.cache q := by
  obtain ⟨fuel, rfl⟩ := Nat.exists_eq_add_one_of_ne_zero (by omega : fuel ≠ 0)
  obtain ⟨hnode, hkids⟩ := hholds
  have hfresh : db.space.holds t.page = 0 := by
    have := hroom t.page
    simp only [Tree.owns_eq, isAt, if_true] at this
    omega
  obtain ⟨cr, hread, hsame⟩ := dkvNodeOk_of_pageNode hnode
  obtain ⟨cw, hwrite, -, hcopied⟩ := dkvWritable_sim { db with cache := cr } hfresh
    (hsame ▸ hnode)
  have hmap := t.writable_map db.space
  simp only [hsame] at hcopied
  cases d with
  | zero =>
    rw [Tree.insert] at h
    let put : Tree K 0 := { (t.writable db.space).1 with map := t.map.put key x }
    let space := dkvReplace (t.writable db.space).2 (t.map.get key)
    have hput : ∀ a, Tree.owns a put + space.holds a ≤
        Tree.owns a t + db.space.holds a + entryOwns a x := fun a =>
      t.putEntry_owns_le a db.space key x
    obtain ⟨cache, hfit, hleft, hright, hframe⟩ := dkvFit_sim registry
      { db with space, cache := cw } h (fun _ _ _ => trivial) fun a =>
        (hput a).trans (hroom a)
    refine ⟨cache, ?_, hleft, hright, fun q hq => ?_⟩
    · have hbody : (Tree.node (t.writable db.space).1).body = .leaf t.map := by
        rw [Tree.node, hmap]
        rfl
      rw [dkvInsert_leaf hread hwrite hbody]
      exact hfit
    · have hle := hput q
      rw [Tree.owns_eq] at hle
      rw [hframe q (show isAt q put.page + space.holds q = 0 by omega)]
      exact hcopied q (by rw [Tree.owns_eq] at hq; omega)
  | succ d =>
    rw [Tree.insert] at h
    obtain ⟨⟨ck, child⟩, hroute, h⟩ := Option.bind_eq_some_iff.mp h
    obtain ⟨⟨⟨child', below⟩, sb⟩, hbelow, h⟩ := Option.bind_eq_some_iff.mp h
    have hget := dkvRoute_get hroute
    have hshare : ∀ q k c, t.map.get k = some c → owns q c + isAt q t.page ≤ Tree.owns q t := by
      intro q k c hc
      have := OrdMap.le_sum (owns q) hc
      rw [Tree.owns_eq]
      omega
    have hwriteHolds := fun q => t.writable_holds_le q db.space
    have hchildShare := fun q => hshare q ck child hget
    have hkidsCopied : ∀ k c, t.map.get k = some c → ItemHolds registry db.file cw c := by
      refine fun k c hc => item_frame (hkids k c hc) fun q hq => hcopied q ?_
      have := hroom q
      have := hshare q k c hc
      omega
    -- the child, with the pages that are left to it
    obtain ⟨cb, hinsert, hchild, hsplit, hframeBelow⟩ := dkvInsert_sim
      (Nat.lt_of_succ_lt_succ hfuel) { db with space := (t.writable db.space).2, cache := cw }
      hbelow (hkidsCopied ck child hget) fun a => by
        have := hroom a
        have := hwriteHolds a
        have := hchildShare a
        have : owns a (d := d + 1) child = Tree.owns a child := rfl
        dsimp only
        omega
    let put : Tree K (d + 1) := { (t.writable db.space).1 with map := putChild t.map ck child' below }
    have hput : ∀ a, Tree.owns a put + sb.holds a ≤
        Tree.owns a t + db.space.holds a + entryOwns a x := fun a =>
      Tree.putChild_le a hget (Tree.insert_owns_le a hbelow)
    have hkidsPut : ∀ k c, put.map.get k = some c → ItemHolds registry db.file cb c := by
      intro k c hc
      obtain rfl | ⟨sep, rfl⟩ | ⟨hk, hc⟩ := putChild_get hc
      · exact hchild
      · exact hsplit _ rfl
      · refine item_frame (hkidsCopied k c hc) fun q hq => hframeBelow q ?_
        have hsum := OrdMap.add_le_sum (owns q) hget hc hk
        have hroomq := hroom q
        have := hwriteHolds q
        have : owns q (d := d + 1) child = Tree.owns q child := rfl
        rw [Tree.owns_eq] at hroomq
        dsimp only
        omega
    obtain ⟨cache, hfit, hleft, hright, hframe⟩ := dkvFit_sim registry
      { db with space := sb, cache := cb } h hkidsPut fun a => (hput a).trans (hroom a)
    refine ⟨cache, ?_, hleft, hright, fun q hq => ?_⟩
    · have hbody : (Tree.node (t.writable db.space).1).body = .branch (t.map.map TreeNode.page) := by
        rw [Tree.node, hmap]
        rfl
      have hroutePage : dkvRoute (t.map.map TreeNode.page) key = some (ck, child.page) := by
        exact (dkvRoute_map TreeNode.page t.map key).trans (congrArg _ hroute)
      have hputPage : Body.branch (putChild (t.map.map TreeNode.page) ck child'.page
          (splitPage below)) = mapBody put.map :=
        congrArg Body.branch (putChild_map TreeNode.page t.map ck child' below)
      rw [dkvInsert_branch hread hwrite hbody hroutePage hinsert, hputPage]
      exact hfit
    · have hle := hput q
      rw [Tree.owns_eq] at hle
      rw [hframe q (show isAt q put.page + sb.holds q = 0 by omega)]
      have := hwriteHolds q
      have := hchildShare q
      have : owns q (d := d + 1) child = Tree.owns q child := rfl
      rw [Tree.owns_eq] at hq
      rw [hframeBelow q (by dsimp only; rw [Tree.owns_eq] at *; omega)]
      exact hcopied q (by omega)
  termination_by d

end

section

variable {registry}

theorem dkvRemove_absent
    {map : OrdMap K Entry} (hread : dkvNodeOk registry db p = some (old, read))
    (hbody : old.body = .leaf map) (hget : map.get key = none) :
    dkvRemove registry (fuel + 1) db p key = some ((p, false, false), read) := by
  simp [dkvRemove, hread, hbody, hget]

theorem dkvRemove_entry
    {map : OrdMap K Entry} {was : Entry} (hread : dkvNodeOk registry db p = some (old, read))
    (hbody : old.body = .leaf map) (hget : map.get key = some was) :
    dkvRemove registry (fuel + 1) db p key = some (dkvRemoveEntry read old map key was) := by
  simp [dkvRemove, hread, hbody, hget]

theorem dkvRemove_branch {child cp : Nat} {below : Db K} {ck : K} {map : OrdMap K Nat} {gone empty : Bool}
    (hread : dkvNodeOk registry db p = some (old, read)) (hbody : old.body = .branch map)
    (hroute : dkvRoute map key = some (ck, child))
    (hbelow : dkvRemove registry fuel read child key = some ((cp, gone, empty), below)) :
    dkvRemove registry (fuel + 1) db p key =
      some (if gone then dkvRemoveChild below old map ck cp empty
        else ((p, false, false), below)) := by
  cases gone <;> simp [dkvRemove, hread, hbody, hroute, hbelow]

omit [KvKey K] in
theorem dkvRemoveEntry_eq
    (hwrite : dkvWritable db old = (node, copied)) (map : OrdMap K Entry) (key : K) (was : Entry) :
    dkvRemoveEntry db old map key was = ((node.page, true, decide ((map.del key).len = 0)),
      { copied with
        space := { dkvDropValue copied.space was with
          count := (dkvDropValue copied.space was).count - 1 } }.keep
        { node with body := .leaf (map.del key) }) := by
  simp [dkvRemoveEntry, hwrite]

theorem dkvRemoveEntry_sim (db : Db K) (t : Tree K 0) (key : K) (was : Entry)
    (hnode : pageNode registry db.file db.cache t.page = some (Tree.node t))
    (hroom : ∀ a, Tree.owns a t + db.space.holds a ≤ 1) :
    ∃ cache, dkvRemoveEntry db (Tree.node t) t.map key was =
        (((t.writable db.space).1.page, true, decide ((t.map.del key).len = 0)),
          { db with
            space :=
              { dkvDropValue (t.writable db.space).2 was with
                count := (dkvDropValue (t.writable db.space).2 was).count - 1 }
            cache }) ∧
      Tree.Holds registry db.file cache (d := 0)
        { (t.writable db.space).1 with map := t.map.del key } ∧
      ∀ q, isAt q t.page + db.space.holds q = 0 →
        pageNode registry db.file cache q = pageNode registry db.file db.cache q := by
  have hfresh : db.space.holds t.page = 0 := by
    have := hroom t.page
    simp only [Tree.owns_eq, isAt, if_true] at this
    omega
  obtain ⟨cw, hwrite, -, hcopied⟩ := dkvWritable_sim db hfresh hnode
  let left : Tree K 0 := { (t.writable db.space).1 with map := t.map.del key }
  refine ⟨cw.put left.page (Tree.node left), ?_, ⟨?_, fun _ _ _ => trivial⟩, fun q hq => ?_⟩
  · exact (dkvRemoveEntry_eq hwrite t.map key was).trans rfl
  · exact (pageNode_put ..).trans (if_pos rfl)
  · have hwriteHolds := t.writable_holds_le q db.space
    rw [pageNode_put, if_neg (isAt_ne (show isAt q (t.writable db.space).1.page = 0 by omega))]
    exact hcopied q hq

omit [KvKey K] in
theorem dkvRemoveChild_empty
    (hwrite : dkvWritable db old = (node, copied)) (map : OrdMap K Nat) (ck : K) (cp : Nat) :
    dkvRemoveChild db old map ck cp true = ((node.page, true, decide ((map.del ck).len = 0)),
      { copied with cache := copied.cache.del cp, space := dkvFreeNew copied.space cp }.keep
        { node with body := .branch (map.del ck) }) := by
  simp [dkvRemoveChild, hwrite]

omit [KvKey K] in
theorem dkvRemoveChild_left
    (hwrite : dkvWritable db old = (node, copied)) (map : OrdMap K Nat) (ck : K) (cp : Nat) :
    dkvRemoveChild db old map ck cp false = ((node.page, true, decide ((map.put ck cp).len = 0)),
      copied.keep { node with body := .branch (map.put ck cp) }) := by
  simp [dkvRemoveChild, hwrite]

theorem dkvRemoveChild_sim (db : Db K) {d : Nat} (t : Tree K (d + 1)) (ck : K)
    (below : Remains K d) (hnode : pageNode registry db.file db.cache t.page = some (Tree.node t))
    (hkids : ∀ k c, (t.map.put ck below.tree).get k = some c → ItemHolds registry db.file db.cache c)
    (hroom : ∀ a, isAt a t.page + (t.map.put ck below.tree).sum (owns a) + db.space.holds a ≤ 1) :
    ∃ cache, dkvRemoveChild db (Tree.node t) (t.map.map TreeNode.page) ck below.tree.page
          below.empty =
        (((Tree.removeChild db.space t ck below).1.tree.page, true,
          (Tree.removeChild db.space t ck below).1.empty),
          { db with space := (Tree.removeChild db.space t ck below).2, cache }) ∧
      Tree.Holds registry db.file cache (Tree.removeChild db.space t ck below).1.tree ∧
      ∀ q, isAt q t.page + isAt q below.tree.page + db.space.holds q = 0 →
        pageNode registry db.file cache q = pageNode registry db.file db.cache q := by
  have hfresh : db.space.holds t.page = 0 := by
    have := hroom t.page
    simp only [isAt, if_true] at this
    omega
  obtain ⟨cw, hwrite, -, hcopied⟩ := dkvWritable_sim db hfresh hnode
  have hwriteHolds := fun q => t.writable_holds_le q db.space
  have hbelowShare : ∀ q, isAt q below.tree.page ≤ (t.map.put ck below.tree).sum (owns q) := by
    intro q
    have := OrdMap.le_sum (owns q) (OrdMap.get_put_self t.map ck below.tree)
    have : owns q (d := d + 1) below.tree = isAt q below.tree.page + _ := below.tree.owns_eq q
    omega
  have hapart : ∀ k c, (t.map.put ck below.tree).get k = some c → ∀ q, owns q c ≠ 0 →
      isAt q t.page = 0 ∧ db.space.holds q = 0 ∧ isAt q (t.writable db.space).1.page = 0 := by
    intro k c hget q hq
    have := OrdMap.le_sum (owns q) hget
    have := hroom q
    have := hwriteHolds q
    exact ⟨by omega, by omega, by omega⟩
  cases hempty : below.empty with
  | true =>
    let left : Tree K (d + 1) := { (t.writable db.space).1 with map := t.map.del ck }
    have hleft : ∀ k c, left.map.get k = some c →
        k ≠ ck ∧ (t.map.put ck below.tree).get k = some c := by
      intro k c hget
      rw [OrdMap.get_del] at hget
      split_ifs at hget with hk
      exact ⟨hk, (OrdMap.get_put_ne hk).trans hget⟩
    rw [Tree.removeChild_empty hempty]
    refine ⟨(cw.del below.tree.page).put left.page (Tree.node left), ?_,
      holds_of_kids (t := left) rfl (fun k c hget => hkids k c (hleft k c hget).2)
        (fun k c hget q hq => ?_) ((pageNode_put ..).trans (if_pos rfl)), fun q hq => ?_⟩
    · rw [dkvRemoveChild_empty hwrite]
      have hmap : (t.map.map TreeNode.page).del ck = (t.map.del ck).map TreeNode.page :=
        (OrdMap.map_del TreeNode.page t.map ck).symm
      have hlen : ((t.map.del ck).map TreeNode.page).len = (t.map.del ck).len :=
        OrdMap.len_map TreeNode.page (t.map.del ck)
      rw [hmap, hlen]
      rfl
    · obtain ⟨hk, hget⟩ := hleft k c hget
      obtain ⟨hpage, hfree, hnew⟩ := hapart k c hget q hq
      have hsum := OrdMap.add_le_sum (owns q) (OrdMap.get_put_self t.map ck below.tree) hget hk
      have hone := hroom q
      have : owns q (d := d + 1) below.tree = isAt q below.tree.page + _ := below.tree.owns_eq q
      rw [pageNode_put, if_neg (isAt_ne hnew), pageNode_del_ne (isAt_ne (by omega))]
      exact hcopied q (by omega)
    · have := hwriteHolds q
      rw [pageNode_put, if_neg (isAt_ne (show isAt q (t.writable db.space).1.page = 0 by omega)),
        pageNode_del_ne (isAt_ne (by omega))]
      exact hcopied q (by omega)
  | false =>
    let left : Tree K (d + 1) := { (t.writable db.space).1 with map := t.map.put ck below.tree }
    rw [Tree.removeChild_left hempty]
    refine ⟨cw.put left.page (Tree.node left), ?_,
      holds_of_kids (t := left) rfl hkids
        (fun k c hget q hq => ?_) ((pageNode_put ..).trans (if_pos rfl)), fun q hq => ?_⟩
    · rw [dkvRemoveChild_left hwrite]
      have hmap : (t.map.map TreeNode.page).put ck below.tree.page =
          (t.map.put ck below.tree).map TreeNode.page :=
        (OrdMap.map_put TreeNode.page t.map ck below.tree).symm
      have hlen : ((t.map.put ck below.tree).map TreeNode.page).len =
          (t.map.put ck below.tree).len := OrdMap.len_map TreeNode.page (t.map.put ck below.tree)
      rw [hmap, hlen]
      rfl
    · obtain ⟨hpage, hfree, hnew⟩ := hapart k c hget q hq
      rw [pageNode_put, if_neg (isAt_ne hnew)]
      exact hcopied q (by omega)
    · have := hwriteHolds q
      rw [pageNode_put, if_neg (isAt_ne (show isAt q (t.writable db.space).1.page = 0 by omega))]
      exact hcopied q (by omega)

theorem dkvRemove_sim {d fuel : Nat} (hfuel : d < fuel) (db : Db K) {t : Tree K d}
    {r : Remains K d} {s' : Space} {key : K} (h : Tree.remove db.space t key = some (r, s'))
    (hholds : Tree.Holds registry db.file db.cache t)
    (hroom : ∀ a, Tree.owns a t + db.space.holds a ≤ 1) :
    ∃ cache, dkvRemove registry fuel db t.page key =
        some ((r.tree.page, r.gone, r.empty), { db with space := s', cache }) ∧
      Tree.Holds registry db.file cache r.tree ∧
      ∀ q, Tree.owns q t + db.space.holds q = 0 →
        pageNode registry db.file cache q = pageNode registry db.file db.cache q := by
  obtain ⟨fuel, rfl⟩ := Nat.exists_eq_add_one_of_ne_zero (by omega : fuel ≠ 0)
  obtain ⟨hnode, hkids⟩ := hholds
  obtain ⟨cr, hread, hsame⟩ := dkvNodeOk_of_pageNode hnode
  cases d with
  | zero =>
    rw [Tree.remove] at h
    cases hget : t.map.get key with
    | none =>
      rw [hget] at h
      cases h
      exact ⟨cr, dkvRemove_absent hread rfl hget, ⟨hsame ▸ hnode, fun _ _ _ => trivial⟩,
        fun q _ => by rw [hsame]⟩
    | some was =>
      rw [hget] at h
      cases h
      obtain ⟨cache, hentry, hleft, hframe⟩ := dkvRemoveEntry_sim { db with cache := cr }
        t key was (hsame ▸ hnode) hroom
      refine ⟨cache, ?_, hleft, fun q hq => ?_⟩
      · rw [dkvRemove_entry hread rfl hget]
        exact congrArg some hentry
      · rw [hframe q (by rw [Tree.owns_eq] at hq; dsimp only; omega), hsame]
  | succ d =>
    obtain ⟨ck, child, below, sb, hroute, hbelow, hr⟩ := Tree.remove_branch h
    have hget := dkvRoute_get hroute
    have hroutePage : dkvRoute (t.map.map TreeNode.page) key = some (ck, child.page) :=
      (dkvRoute_map TreeNode.page t.map key).trans (congrArg _ hroute)
    have hown : ∀ a, owns a (d := d + 1) child = Tree.owns a child := fun _ => rfl
    have hshare : ∀ a, Tree.owns a child + isAt a t.page ≤ Tree.owns a t := by
      intro a
      have := OrdMap.le_sum (owns a) hget
      rw [t.owns_eq a, ← hown]
      omega
    obtain ⟨cb, hremove, hchildHolds, hframe⟩ := dkvRemove_sim
      (Nat.lt_of_succ_lt_succ hfuel) { db with cache := cr } hbelow
      (item_frame (hkids ck child hget) fun q _ => by rw [hsame]) fun a => by
        have := hshare a
        have := hroom a
        dsimp only
        omega
    simp only [hsame] at hframe
    have hle := fun a => Tree.remove_owns_le a hbelow
    have hnodeBelow : pageNode registry db.file cb t.page = some (Tree.node t) := by
      rw [hframe, hnode]
      have := hshare t.page
      have := hroom t.page
      simp only [isAt, if_true] at *
      omega
    have hothers : ∀ k c, t.map.get k = some c → k ≠ ck → ItemHolds registry db.file cb c := by
      refine fun k c hc hk => item_frame (hkids k c hc) fun q hq => hframe q ?_
      have hsum := OrdMap.add_le_sum (owns q) hget hc hk
      have hone := hroom q
      rw [hown] at hsum
      rw [Tree.owns_eq] at hone
      omega
    cases hgone : below.gone with
    | false =>
      rw [hgone, if_neg Bool.false_ne_true] at hr
      cases hr
      obtain ⟨rfl, rfl⟩ := Tree.remove_absent hbelow hgone
      refine ⟨cb, ?_, ⟨hnodeBelow, fun k c hc => ?_⟩, fun q hq => hframe q ?_⟩
      · rw [dkvRemove_branch hread rfl hroutePage hremove]
        rfl
      · by_cases hk : k = ck
        · subst hk
          obtain rfl := Option.some.inj (hget.symm.trans hc)
          exact hchildHolds
        · exact hothers k c hc hk
      · have := hshare q
        omega
    | true =>
      rw [hgone, if_pos rfl] at hr
      obtain ⟨cache, hchild, hholds, hrest⟩ := dkvRemoveChild_sim
        { db with space := sb, cache := cb } t ck below hnodeBelow
        (fun k c hc => by
          rcases OrdMap.get_put_cases hc with ⟨-, rfl⟩ | ⟨hk, hc⟩
          · exact hchildHolds
          · exact hothers k c hc hk)
        (fun a => by
          have hput := OrdMap.sum_put_of_get (owns a) hget below.tree
          have hnew : owns a (d := d + 1) below.tree = Tree.owns a below.tree := rfl
          have := hle a
          have hone := hroom a
          rw [hown] at hput
          rw [Tree.owns_eq] at hone
          dsimp only
          omega)
      rw [← hr] at hchild hholds
      have hrgone : r.gone = true := (congrArg (·.1.gone) hr).trans (Tree.removeChild_gone ..)
      refine ⟨cache, ?_, hholds, fun q hq => ?_⟩
      · rw [dkvRemove_branch hread rfl hroutePage hremove, hgone, if_pos rfl, hrgone]
        exact congrArg some hchild
      · have := hshare q
        have := hle q
        rw [below.tree.owns_eq q] at this
        rw [hrest q (by dsimp only; omega)]
        exact hframe q (by omega)
  termination_by d

end

end Ussr.Kv
