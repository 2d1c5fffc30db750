import Ussr.Kv.Readback

/-! The store as an ordered map of keys and values. A run of calls answers as the map does
where no key is put before all separators of a branch. -/

namespace Ussr.Kv
open SortedEntries Uno

variable {K : Type} [LinearOrder K]

section

inductive Call (K : Type) where
  | put (key : K) (value : UnoValue)
  | del (key : K)
  | get (key : K)
  | count
  | range (lo hi : Option K) (max : Int)

inductive Answer (K : Type) where
  | status (r : Int)
  | found (b : Bool)
  | value (v : UnoValue)
  | number (n : Int)
  | pairs (ps : List (K × UnoValue))

/-- The first `max` pairs, all of them where it is negative. -/
def firstPairs (max : Int) (ps : List (K × UnoValue)) : List (K × UnoValue) :=
  if 0 ≤ max then ps.take max.toNat else ps

variable [KvKey K]

def Call.meaning (m : OrdMap K UnoValue) : Call K → Answer K × OrdMap K UnoValue
  | .put key value =>
    if dkvKeyOk key then
      match value with
      | .null => (.status (-1), m)
      | _ => (.status 0, m.put key value)
    else (.status (-1), m)
  | .del key => (.found (m.has key), m.del key)
  | .get key => (.value ((m.get key).getD .null), m)
  | .count => (.number m.len, m)
  | .range lo hi max => (.pairs (firstPairs max (m.range lo hi)), m)

def meanings (m : OrdMap K UnoValue) : List (Call K) → List (Answer K)
  | [] => []
  | c :: cs => (c.meaning m).1 :: meanings (c.meaning m).2 cs

def Call.run (registry : Registry) (db : Db K) : Call K → Option (Answer K × Db K)
  | .put key value => (dubnaKvPut registry db key value).map fun r => (.status r.1, r.2)
  | .del key => (dubnaKvDel registry db key).map fun r => (.found r.1, r.2)
  | .get key => (dubnaKvGet registry db key).map fun r => (.value r.1, r.2)
  | .count => some (.number (dubnaKvCount db), db)
  | .range lo hi max =>
    (dubnaKvRange registry db lo hi max).map fun r => (.pairs r.1, r.2)

def runCalls (registry : Registry) : Db K → List (Call K) → Option (List (Answer K) × Db K)
  | db, [] => some ([], db)
  | db, c :: cs => do
    let (a, db) ← c.run registry db
    let (as, db) ← runCalls registry db cs
    return (a :: as, db)

end

section

variable [KvKey K] (registry : Registry)

def dkvRouteClear : (fuel : Nat) → Db K → Nat → K → Bool
  | 0, _, _, _ => true
  | fuel + 1, db, p, key =>
    if p = 0 then true
    else
      match dkvNode registry db p with
      | some (some node, db) =>
        match node.body with
        | .leaf _ => true
        | .branch map =>
          match map.floor key with
          | none => false
          | some k => (map.get k).all fun child => dkvRouteClear fuel db child key
      | _ => true

def Db.routeClear (db : Db K) (key : K) : Bool :=
  dkvRouteClear registry db.fuel db db.root key

def Call.Clear (db : Db K) : Call K → Prop
  | .put key _ => dkvKeyOk key = true → db.routeClear registry key = true
  | _ => True

def ClearRun : Db K → List (Call K) → Prop
  | _, [] => True
  | db, c :: cs =>
    c.Clear registry db ∧ ∀ a db', c.run registry db = some (a, db') → ClearRun db' cs

instance decidableClear (db : Db K) : (c : Call K) → Decidable (c.Clear registry db)
  | .put _ _ => inferInstanceAs (Decidable (_ → _))
  | .get _ | .del _ | .range _ _ _ | .count => .isTrue trivial

instance decidableClearRun : (db : Db K) → (cs : List (Call K)) → Decidable (ClearRun registry db cs)
  | _, [] => .isTrue trivial
  | db, c :: cs =>
    match hrun : c.run registry db with
    | none => decidable_of_iff (c.Clear registry db)
      ⟨fun hclear => ⟨hclear, fun _ _ hrun' => by cases hrun.symm.trans hrun'⟩, fun h => h.1⟩
    | some (a, db') =>
      have := decidableClearRun db' cs
      decidable_of_iff (c.Clear registry db ∧ ClearRun registry db' cs)
        ⟨fun h => ⟨h.1, fun _ _ hrun' => by cases hrun.symm.trans hrun'; exact h.2⟩,
          fun h => ⟨h.1, h.2 a db' hrun⟩⟩

variable {registry} {d : Nat}

theorem dkvRouteClear_tree {d fuel : Nat} (hfuel : d < fuel) (db : Db K) {t : Tree K d}
    (hholds : Tree.Holds registry db.file db.cache t) (hmeta : t.owns 0 = 0) {key : K}
    (h : dkvRouteClear registry fuel db t.page key = true) : t.Clear key := by
  obtain ⟨fuel, rfl⟩ := Nat.exists_eq_add_one_of_ne_zero (by omega : fuel ≠ 0)
  have hne : t.page ≠ 0 := by
    intro hzero
    simp only [t.owns_eq, isAt, hzero, if_true] at hmeta
    omega
  cases d with
  | zero => trivial
  | succ d =>
    obtain ⟨hnode, hkids⟩ := hholds
    obtain ⟨cr, hread, hsame⟩ := dkvNode_of_pageNode hnode
    have hfloor : (t.map.map (TreeNode.page (V := Item K d))).floor key = t.map.floor key :=
      OrdMap.floor_map ..
    rw [dkvRouteClear, if_neg hne, hread] at h
    change (match (t.map.map (TreeNode.page (V := Item K d))).floor key with
      | none => false
      | some k => ((t.map.map (TreeNode.page (V := Item K d))).get k).all
        fun child => dkvRouteClear registry fuel { db with cache := cr } child key) = true at h
    rw [hfloor] at h
    cases hk : t.map.floor key with
    | none =>
      rw [hk] at h
      cases h
    | some ck =>
      obtain ⟨child, as, bs, hentries, -⟩ := OrdMap.floor_eq_some_iff.mp hk
      have hget : t.map.get ck = some child := OrdMap.get_eq_some_iff.mpr (by simp [hentries])
      have hpage : (t.map.map (TreeNode.page (V := Item K d))).get ck =
          some (TreeNode.page (V := Item K d) child) := (OrdMap.get_map ..).trans (congrArg _ hget)
      rw [hk] at h
      dsimp only at h
      rw [hpage, Option.all_some] at h
      refine ⟨ck, child, hk, hget, dkvRouteClear_tree (Nat.lt_of_succ_lt_succ hfuel)
        { db with cache := cr } (t := child) (item_frame (hkids ck child hget) fun q _ => by rw [hsame])
        ?_ h⟩
      have hshare := OrdMap.le_sum (Kv.owns 0) hget
      have hown : Kv.owns 0 (d := d + 1) child = Tree.owns 0 (d := d) child := rfl
      rw [t.owns_eq] at hmeta
      omega
  termination_by d

end

section

variable {registry : Registry} {d : Nat}

theorem entryOwns_run (isUno : Bool) (p n : Nat) : entryOwns p (.run isUno p n) = 1 := by
  have hpages : 0 < dkvPagesFor n := Nat.div_pos (by omega) (by decide)
  exact if_pos ⟨Nat.le_refl p, by omega⟩

theorem dkvValueOut_congr {db db' : Db K} {x : Entry} (hfile : db'.file = db.file)
    (hdata : ∀ p, entryOwns p x ≠ 0 → db'.space.data.get p = db.space.data.get p) :
    dkvValueOut registry db' x = dkvValueOut registry db x := by
  cases x with
  | inline value => rfl
  | run isUno p n =>
    have hp := hdata p (by rw [entryOwns_run]; exact Nat.one_ne_zero)
    rw [dkvValueOut, dkvValueOut, hp, hfile]

theorem dkvValueIn_books {s s' : Space} {value : UnoValue} {x : Entry}
    (h : dkvValueIn s value = some (x, s')) : s'.count = s.count ∧
      ∀ p, entryOwns p x = 0 → s'.data.get p = s.data.get p := by
  have hbig : ∀ isUno text, dkvBigValue s isUno text = (x, s') → s'.count = s.count ∧
      ∀ p, entryOwns p x = 0 → s'.data.get p = s.data.get p := by
    rintro isUno text hrun
    cases hrun
    refine ⟨rfl, fun p hp => OrdMap.get_put_ne ?_⟩
    rintro rfl
    rw [entryOwns_run] at hp
    exact Nat.one_ne_zero hp
  have hinline : some (Entry.inline value, s) = some (x, s') → s'.count = s.count ∧
      ∀ p, entryOwns p x = 0 → s'.data.get p = s.data.get p := by
    rintro hsame
    cases hsame
    exact ⟨rfl, fun _ _ => rfl⟩
  unfold dkvValueIn at h
  split at h
  · split_ifs at h
    · exact hinline h
    · exact hbig _ _ (Option.some.inj h)
  · obtain ⟨text, -, h⟩ := Option.bind_eq_some_iff.mp h
    split_ifs at h
    · exact hbig _ _ (Option.some.inj h)
    · exact hinline h

inductive Plain : UnoValue → Prop
  | integer (n : BitVec 64) : Plain (.integer n)
  | string (s : CString) : Plain (.string s)

theorem dkvValueIn_plain (registry : Registry) {value : UnoValue} (h : Plain value) (db : Db K) :
    ∃ x s, dkvValueIn db.space value = some (x, s) ∧
      dkvValueOut registry { db with space := s } x = some value := by
  cases h with
  | integer n =>
    obtain ⟨text, htext, hlen⟩ := encodes_integer n
    refine ⟨.inline (.integer n), db.space, ?_, rfl⟩
    rw [dkvValueIn, ussrUnoEncode, htext, Option.bind_eq_bind, Option.bind_some,
      if_neg (by omega)]
    exact fun _ h => UnoValue.noConfusion h
  | string s =>
    by_cases hclean : dkvClean s 200 = true
    · exact ⟨.inline (.string s), db.space, by rw [dkvValueIn, if_pos hclean], rfl⟩
    · refine ⟨_, _, by rw [dkvValueIn, if_neg hclean], ?_⟩
      simp only [dkvBigValue, dkvNewRun, dkvValueOut, OrdMap.get_put_self, Option.bind_eq_bind,
        Option.bind_some, CString.ofBytes_self]
      rfl

theorem itemEntries_owns_le (a : Nat) {d : Nat} (k : K) (x : Item K d) :
    ((itemEntries k x).map fun e => entryOwns a e.2).sum ≤ owns a x := by
  induction d generalizing k with
  | zero => exact Nat.le_of_eq (Nat.add_zero _)
  | succ d ih =>
    have hsum : ∀ es : List (K × Item K d),
        ((mapEntries es).map fun e => entryOwns a e.2).sum ≤ (es.map fun e => owns a e.2).sum := by
      intro es
      induction es with
      | nil => exact Nat.le_refl _
      | cons e es ihs =>
        rw [mapEntries_cons, List.map_append, List.sum_append, List.map_cons, List.sum_cons]
        exact Nat.add_le_add (ih e.1 e.2) ihs
    exact (hsum x.map.entries).trans (Nat.le_add_left _ _)

end

section

variable {P : K → Prop} {E : Entry → Prop} {root root' : Root K} {key q : K} {x y : Entry}

theorem itemEntries_sound {d : Nat} {k : K} {x : Item K d} (hk : P k) (hx : ItemSound P E x) :
    ∀ e ∈ itemEntries k x, P e.1 ∧ E e.2 := by
  induction d generalizing k with
  | zero =>
    intro e he
    obtain rfl := List.mem_singleton.mp he
    exact ⟨hk, hx⟩
  | succ d ih =>
    intro e he
    obtain ⟨c, hc, he⟩ := mem_mapEntries.mp he
    obtain ⟨hck, hchild⟩ := hx.2 c.1 c.2 (OrdMap.get_eq_some_iff.mpr hc)
    exact ih hck hchild e he

theorem Root.find_sound (hsound : root.Sound P E) (hordered : root.Ordered)
    (hx : root.find key = some x) : P key ∧ E x := by
  have hmem := (Root.find_eq_some_iff hsound hordered).mp hx
  cases root with
  | none => cases hmem
  | some t =>
    obtain ⟨c, hc, he⟩ := mem_mapEntries.mp hmem
    obtain ⟨hck, hchild⟩ := hsound.2 c.1 c.2 (OrdMap.get_eq_some_iff.mpr hc)
    exact itemEntries_sound hck hchild _ he

theorem Root.find_put (hsound : root.Sound P E) (hordered : root.Ordered)
    (hsound' : root'.Sound P E) (hordered' : root'.Ordered)
    (h : root'.entries = SortedEntries.put key x root.entries) (q : K) :
    root'.find q = if q = key then some x else root.find q := by
  refine Option.ext fun y => ?_
  rw [Root.find_eq_some_iff hsound' hordered', h, mem_put (root.sorted hordered)]
  split_ifs with hq
  · simp [hq, eq_comm]
  · simp [hq, Root.find_eq_some_iff hsound hordered]

theorem Root.find_erase (hsound : root.Sound P E) (hordered : root.Ordered)
    (hsound' : root'.Sound P E) (hordered' : root'.Ordered)
    (h : root'.entries = erase key root.entries) (q : K) :
    root'.find q = if q = key then none else root.find q := by
  refine Option.ext fun y => ?_
  rw [Root.find_eq_some_iff hsound' hordered', h, mem_erase]
  split_ifs with hq
  · simp [hq]
  · simp [hq, Root.find_eq_some_iff hsound hordered]

theorem Root.find_apart (hsound : root.Sound P E) (hordered : root.Ordered) (hne : q ≠ key)
    (hx : root.find key = some x) (hy : root.find q = some y) (a : Nat) :
    entryOwns a x + entryOwns a y ≤ root.owns a := by
  let m : OrdMap K Entry := ⟨root.entries, root.sorted hordered⟩
  have hget : ∀ {k : K} {z : Entry}, root.find k = some z → m.get k = some z := fun hz =>
    OrdMap.get_eq_some_iff.mpr ((Root.find_eq_some_iff hsound hordered).mp hz)
  have hle : m.sum (entryOwns a) ≤ root.owns a := by
    cases root with
    | none => exact Nat.le_refl _
    | some t => exact itemEntries_owns_le a (d := t.1 + 1) q t.2
  exact (OrdMap.add_le_sum (entryOwns a) (hget hx) (hget hy) hne).trans hle

theorem Root.find_owns_le (hsound : root.Sound P E) (hordered : root.Ordered)
    (hx : root.find key = some x) (a : Nat) : entryOwns a x ≤ root.owns a := by
  let m : OrdMap K Entry := ⟨root.entries, root.sorted hordered⟩
  have hget : m.get key = some x :=
    OrdMap.get_eq_some_iff.mpr ((Root.find_eq_some_iff hsound hordered).mp hx)
  have hle : m.sum (entryOwns a) ≤ root.owns a := by
    cases root with
    | none => exact Nat.le_refl _
    | some t => exact itemEntries_owns_le a (d := t.1 + 1) key t.2
  exact (OrdMap.le_sum (entryOwns a) hget).trans hle

theorem dropBooks_get {b : Int × OrdMap Nat Job} {p : Nat} (h : entryOwns p x = 0) :
    (dropBooks x b).2.get p = b.2.get p := by
  cases x with
  | inline value => rfl
  | run isUno r n =>
    refine OrdMap.get_del_ne ?_
    rintro rfl
    rw [entryOwns_run] at h
    exact Nat.one_ne_zero h

theorem dropBooks_fst (x : Entry) (b : Int × OrdMap Nat Job) : (dropBooks x b).1 = b.1 := by
  cases x <;> rfl

end

section

variable [KvKey K] (registry : Registry)

structure Serves (db : Db K) (root : Root K) (m : OrdMap K UnoValue) : Prop where
  stands : Stands registry db root
  sound : root.Sound (fun k => dkvKeyOk k = true) EntryFits
  ordered : root.Ordered
  count : db.space.count = m.len
  values : ∀ k, (root.find k).map (dkvValueOut registry db) = (m.get k).map some

variable {registry} {db : Db K} {root : Root K} {m : OrdMap K UnoValue}

theorem Serves.get_eq_none (h : Serves registry db root m) {k : K} :
    root.find k = none ↔ m.get k = none := by
  have hvalue := h.values k
  constructor
  · intro hnone
    rw [hnone] at hvalue
    simpa using hvalue.symm
  · intro hnone
    rw [hnone] at hvalue
    simpa using hvalue

theorem Serves.find_eq_some (h : Serves registry db root m) {k : K} {v : UnoValue}
    (hget : m.get k = some v) : ∃ x, root.find k = some x ∧ dkvValueOut registry db x = some v := by
  have hvalue := h.values k
  rw [hget] at hvalue
  obtain ⟨x, hx, hout⟩ := Option.map_eq_some_iff.mp hvalue
  exact ⟨x, hx, hout⟩

theorem Serves.get_of_find (h : Serves registry db root m) {k : K} {x : Entry}
    (hx : root.find k = some x) : ∃ v, m.get k = some v := by
  cases hget : m.get k with
  | none =>
    rw [h.get_eq_none.mpr hget] at hx
    cases hx
  | some v => exact ⟨v, rfl⟩

theorem Serves.cached (h : Serves registry db root m) {cache : Cache K}
    (hstands : Stands registry { db with cache } root) : Serves registry { db with cache } root m :=
  ⟨hstands, h.sound, h.ordered, h.count, h.values⟩

theorem Serves.get (h : Serves registry db root m) {key : K} (hkey : dkvKeyOk key = true) :
    ∃ cache, dubnaKvGet registry db key = some ((m.get key).getD .null, { db with cache }) ∧
      Serves registry { db with cache } root m := by
  obtain ⟨cache, hget, hstands⟩ := dubnaKvGet_sim h.stands h.sound hkey
  refine ⟨cache, ?_, h.cached hstands⟩
  rw [hget, h.values key]
  cases m.get key <;> rfl

theorem Serves.get_bad (h : Serves registry db root m) {key : K} (hkey : dkvKeyOk key = false) :
    m.get key = none := by
  rw [← h.get_eq_none, Option.eq_none_iff_forall_not_mem]
  intro x hx
  have hok := (Root.find_sound h.sound h.ordered hx).1
  rw [hkey] at hok
  cases hok

omit [KvKey K] in
theorem dkvCollectPairs_eq {max : Int} {xs : List (K × Entry)} {out : List (K × UnoValue)}
    {value : Entry → UnoValue} (h : ∀ e ∈ xs, dkvValueOut registry db e.2 = some (value e.2)) :
    dkvCollectPairs registry db max xs out = some (if 0 ≤ max
      then out ++ (xs.map fun e => (e.1, value e.2)).take (max.toNat - out.length)
      else out ++ xs.map fun e => (e.1, value e.2)) := by
  induction xs generalizing out with
  | nil => simp [dkvCollectPairs]
  | cons e xs ih =>
    rw [dkvCollectPairs]
    split_ifs with hfull hmax hmax
    · rw [show max.toNat - out.length = 0 by omega, List.take_zero, List.append_nil]
    · omega
    · have hroom : max.toNat - out.length = (max.toNat - (out.length + 1)) + 1 := by omega
      rw [h e List.mem_cons_self, Option.bind_eq_bind, Option.bind_some,
        ih fun e he => h e (List.mem_cons_of_mem _ he), if_pos hmax, List.map_cons, hroom,
        List.take_succ_cons, List.append_assoc, List.length_append]
      rfl
    · rw [h e List.mem_cons_self, Option.bind_eq_bind, Option.bind_some,
        ih fun e he => h e (List.mem_cons_of_mem _ he), if_neg hmax, List.map_cons,
        List.append_assoc]
      rfl

theorem Serves.contents (h : Serves registry db root m) :
    m = OrdMap.map (fun x => (dkvValueOut registry db x).getD .null)
      ⟨root.entries, root.sorted h.ordered⟩ := by
  refine OrdMap.ext_get (funext fun k => ?_)
  let c : OrdMap K Entry := ⟨root.entries, root.sorted h.ordered⟩
  have hfind : c.get k = root.find k := Option.ext fun x => by
    rw [OrdMap.get_eq_some_iff, Root.find_eq_some_iff h.sound h.ordered]
  rw [OrdMap.get_map, hfind]
  have hvalue := h.values k
  cases hx : root.find k with
  | none =>
    rw [h.get_eq_none.mp hx]
    rfl
  | some x =>
    rw [hx, Option.map_some] at hvalue
    rw [Option.map_some]
    cases hget : m.get k with
    | none => rw [hget] at hvalue; cases hvalue
    | some v =>
      rw [hget, Option.map_some] at hvalue
      rw [Option.some.inj hvalue]
      rfl

theorem Serves.range (h : Serves registry db root m) (lo hi : Option K) (max : Int) :
    ∃ cache, dubnaKvRange registry db lo hi max =
        some (firstPairs max (m.range lo hi), { db with cache }) ∧
      Serves registry { db with cache } root m := by
  obtain ⟨cache, hrange, hstands⟩ := dubnaKvRange_sim h.stands h.sound lo hi max
  refine ⟨cache, ?_, h.cached hstands⟩
  let value := fun x => (dkvValueOut registry db x).getD .null
  have hout : ∀ e ∈ root.range lo hi, dkvValueOut registry db e.2 = some (value e.2) := by
    intro e he
    rw [Root.range_eq h.ordered] at he
    have hfind := (Root.find_eq_some_iff h.sound h.ordered).mpr (List.mem_of_mem_filter he)
    have hvalue := h.values e.1
    rw [hfind, Option.map_some] at hvalue
    obtain ⟨v, -, hv⟩ := Option.map_eq_some_iff.mp hvalue.symm
    simp only [value, ← hv, Option.getD_some]
  have hpairs : m.range lo hi = (root.range lo hi).map fun e => (e.1, value e.2) := by
    rw [Root.range_eq h.ordered, h.contents]
    exact OrdMap.range_map value _ lo hi
  rw [hrange, dkvCollectPairs_eq hout, hpairs, firstPairs]
  rfl

end

section

variable [KvKey K] {registry : Registry} {db : Db K} {root : Root K} {m : OrdMap K UnoValue}

theorem Db.routeClear_root (h : Serves registry db root m) {key : K}
    (hclear : db.routeClear registry key = true) : root.Clear key := by
  cases root with
  | none => trivial
  | some t =>
    rw [Db.routeClear, ← show t.2.page = db.root from h.stands.page] at hclear
    exact dkvRouteClear_tree (h.stands.depth h.sound) db (h.stands.holds t rfl)
      h.stands.owns_zero hclear

theorem Serves.put (hkeys : ∀ k : K, dkvKeyOk k = true → KeyFits k) (h : Serves registry db root m)
    {key : K} (hkey : dkvKeyOk key = true) {value : UnoValue} (hplain : Plain value)
    (hclear : db.routeClear registry key = true) :
    ∃ root' db', dubnaKvPut registry db key value = some (0, db') ∧
      Serves registry db' root' (m.put key value) := by
  have hvalue : value ≠ .null := by
    rintro rfl
    cases hplain
  obtain ⟨x, s, hin, hout⟩ := dkvValueIn_plain registry hplain db
  have hfits := dkvValueIn_fits hin
  obtain ⟨root', s', cache, hput, hrun, hsound, hstands⟩ := dubnaKvPut_sim hkeys (fun _ h => h)
    h.stands h.sound hkey hkey hvalue hin hfits
  obtain ⟨hentries, hordered⟩ := Root.put_ordered hkeys (fun _ h => h) h.sound h.ordered hkey hfits
    (Db.routeClear_root h hclear) hput
  have hfind := Root.find_put h.sound h.ordered hsound hordered hentries
  have hbooks := Root.put_books hput
  obtain ⟨hcount, hdata⟩ := dkvValueIn_books hin
  have hheld := fun a => dkvValueIn_holds a hin
  have hdata' : ∀ p, (∀ was, root.find key = some was → entryOwns p was = 0) →
      s'.data.get p = s.data.get p := by
    intro p hp
    rw [show s'.data = (replaceBooks (root.find key) s.books).2 from congrArg Prod.snd hbooks]
    cases hx : root.find key with
    | none => rfl
    | some was => exact dropBooks_get (hp was hx)
  refine ⟨root', _, hrun, hstands, hsound, hordered, ?_, fun q => ?_⟩
  · have hold := h.count
    rw [show s'.count = (replaceBooks (root.find key) s.books).1 from congrArg Prod.fst hbooks]
    cases hx : root.find key with
    | none =>
      rw [OrdMap.len_put_of_none (h.get_eq_none.mp hx)]
      simp only [replaceBooks, Space.books]
      omega
    | some was =>
      obtain ⟨v, hv⟩ := h.get_of_find hx
      rw [OrdMap.len_put_of_get hv, replaceBooks, dropBooks_fst]
      exact hcount.trans hold
  · rw [hfind, OrdMap.get_put]
    split_ifs with hq
    · rw [Option.map_some, Option.map_some, ← hout]
      refine congrArg some (dkvValueOut_congr rfl fun p hp => hdata' p fun was hwas => ?_)
      have := Root.find_owns_le h.sound h.ordered hwas p
      have := h.stands.room p
      have := hheld p
      omega
    · rw [← h.values q]
      cases hy : root.find q with
      | none => rfl
      | some y =>
        refine congrArg some (dkvValueOut_congr rfl fun p hp => ?_)
        have hown := Root.find_owns_le h.sound h.ordered hy p
        have hroom := h.stands.room p
        have hin := hheld p
        refine (hdata' p fun was hwas => ?_).trans (hdata p (by omega))
        have := Root.find_apart h.sound h.ordered hq hwas hy p
        omega

theorem Serves.del (h : Serves registry db root m) {key : K} (hkey : dkvKeyOk key = true) :
    ∃ root' db', dubnaKvDel registry db key = some (m.has key, db') ∧
      Serves registry db' root' (m.del key) := by
  obtain ⟨gone, root', s', cache, hdel, hrun, hsound, hstands⟩ := dubnaKvDel_sim h.stands h.sound hkey
  obtain ⟨hentries, hordered, hgone⟩ := Root.del_ordered h.sound h.ordered hdel
  have hfind := Root.find_erase h.sound h.ordered hsound hordered hentries
  have hbooks := Root.del_books hdel
  have hgone' : gone = m.has key := by
    have hkeys : key ∈ root.entries.map Prod.fst ↔ ∃ x, root.find key = some x := by
      simp only [List.mem_map, Root.find_eq_some_iff h.sound h.ordered]
      exact ⟨fun ⟨e, he, hek⟩ => ⟨e.2, hek ▸ he⟩, fun ⟨x, hx⟩ => ⟨_, hx, rfl⟩⟩
    rw [Bool.eq_iff_iff, hgone, hkeys, OrdMap.has_iff]
    exact ⟨fun ⟨x, hx⟩ => h.get_of_find hx, fun ⟨v, hv⟩ => (h.find_eq_some hv).imp fun _ hx => hx.1⟩
  have hdata : ∀ p, (∀ was, root.find key = some was → entryOwns p was = 0) →
      s'.data.get p = db.space.data.get p := by
    intro p hp
    rw [show s'.data = (removeBooks (root.find key) db.space.books).2 from congrArg Prod.snd hbooks]
    cases hx : root.find key with
    | none => rfl
    | some was => exact dropBooks_get (hp was hx)
  refine ⟨root', _, hgone' ▸ hrun, hstands, hsound, hordered, ?_, fun q => ?_⟩
  · have hold := h.count
    rw [show s'.count = (removeBooks (root.find key) db.space.books).1 from congrArg Prod.fst hbooks]
    cases hx : root.find key with
    | none =>
      rw [OrdMap.del_of_get_none (h.get_eq_none.mp hx)]
      exact hold
    | some was =>
      obtain ⟨v, hv⟩ := h.get_of_find hx
      have hlen := OrdMap.len_del hv
      rw [removeBooks, dropBooks_fst, Space.books]
      omega
  · rw [hfind, OrdMap.get_del]
    split_ifs with hq
    · rfl
    · rw [← h.values q]
      cases hy : root.find q with
      | none => rfl
      | some y =>
        refine congrArg some (dkvValueOut_congr rfl fun p hp => hdata p fun was hwas => ?_)
        have := Root.find_apart h.sound h.ordered hq hwas hy p
        have := h.stands.room p
        omega

theorem Serves.call (hkeys : ∀ k : K, dkvKeyOk k = true → KeyFits k) (h : Serves registry db root m)
    (c : Call K) (hplain : ∀ key value, c = .put key value → Plain value)
    (hclear : c.Clear registry db) :
    ∃ root' db', c.run registry db = some ((c.meaning m).1, db') ∧
      Serves registry db' root' (c.meaning m).2 := by
  cases c with
  | put key value =>
    have hvalue := hplain key value rfl
    cases hkey : dkvKeyOk key with
    | true =>
      obtain ⟨root', db', hrun, hserves⟩ := h.put hkeys hkey hvalue (hclear hkey)
      have hmeaning : (Call.put key value).meaning m = (.status 0, m.put key value) := by
        cases hvalue <;> simp [Call.meaning, hkey]
      exact ⟨root', db', by rw [Call.run, hrun, hmeaning]; rfl, hmeaning ▸ hserves⟩
    | false =>
      have hmeaning : (Call.put key value).meaning m = (.status (-1), m) := by
        simp [Call.meaning, hkey]
      exact ⟨root, db, by simp [Call.run, dubnaKvPut, hkey, hmeaning], hmeaning ▸ h⟩
  | del key =>
    cases hkey : dkvKeyOk key with
    | true =>
      obtain ⟨root', db', hrun, hserves⟩ := h.del hkey
      exact ⟨root', db', by rw [Call.run, hrun]; rfl, hserves⟩
    | false =>
      have hnone := h.get_bad hkey
      refine ⟨root, db, ?_, ?_⟩
      · rw [Call.run, dubnaKvDel, if_neg (by simp [hkey]), Call.meaning, OrdMap.has, hnone]
        rfl
      · rw [Call.meaning, OrdMap.del_of_get_none hnone]
        exact h
  | get key =>
    cases hkey : dkvKeyOk key with
    | true =>
      obtain ⟨cache, hrun, hserves⟩ := h.get hkey
      exact ⟨root, _, by rw [Call.run, hrun]; rfl, hserves⟩
    | false =>
      refine ⟨root, db, ?_, h⟩
      rw [Call.run, dubnaKvGet, if_neg (by simp [hkey]), Call.meaning, h.get_bad hkey]
      rfl
  | count => exact ⟨root, db, by rw [Call.run, dubnaKvCount, h.count, Call.meaning], h⟩
  | range lo hi max =>
    obtain ⟨cache, hrun, hserves⟩ := h.range lo hi max
    exact ⟨root, _, by rw [Call.run, hrun]; rfl, hserves⟩

theorem Serves.run (hkeys : ∀ k : K, dkvKeyOk k = true → KeyFits k) (cs : List (Call K))
    (hplain : ∀ key value, Call.put key value ∈ cs → Plain value)
    (h : Serves registry db root m) (hclear : ClearRun registry db cs) :
    ∃ db', runCalls registry db cs = some (meanings m cs, db') := by
  induction cs generalizing db root m with
  | nil => exact ⟨db, rfl⟩
  | cons c cs ih =>
    obtain ⟨hc, hrest⟩ := hclear
    obtain ⟨root', db', hrun, hserves⟩ := h.call hkeys c
      (fun key value hput => hplain key value (hput ▸ List.mem_cons_self)) hc
    obtain ⟨db'', hlater⟩ := ih (fun key value hput => hplain key value (List.mem_cons_of_mem c hput))
      hserves (hrest _ _ hrun)
    exact ⟨db'', by simp [runCalls, hrun, hlater, meanings]⟩

end

section

open BTree

instance : LinearOrder integersAndStrings := integersAndStrings_total.linearOrder

instance : DecidablePred (· ∈ integersAndStrings) := fun v =>
  match v with
  | .integer n => .isTrue (Or.inl ⟨n, rfl⟩)
  | .string s => .isTrue (Or.inr ⟨s, rfl⟩)
  | .null | .real _ | .boolean _ | .vector _ | .instance_ _ | .btree _ => .isFalse (by
      rintro (⟨n, h⟩ | ⟨s, h⟩) <;> cases h)

instance : KvKey integersAndStrings := valueKvKey integersAndStrings integersAndStrings_total

def integerKey (n : BitVec 64) : integersAndStrings := ⟨.integer n, Or.inl ⟨n, rfl⟩⟩

def stringKey (s : CString) : integersAndStrings := ⟨.string s, Or.inr ⟨s, rfl⟩⟩

theorem keyFits_of_ok (k : integersAndStrings) (h : dkvKeyOk k = true) : KeyFits k := by
  obtain ⟨v, ⟨n, rfl⟩ | ⟨s, rfl⟩⟩ := k
  · exact (encodes_integer n).mono (by decide)
  · obtain ⟨hlen, hok⟩ := dkvClean_string (s := s) h
    exact (encodes_string hok).mono (by omega)

theorem serves_blank {registry : Registry} {db : Db integersAndStrings}
    (h : dubnaKvOpen registry KvFile.blank = some (some db)) : Serves registry db none .empty := by
  obtain ⟨_, hopen, hstands, hcount⟩ := dubnaKvOpen_blank (K := integersAndStrings) registry
  rw [h] at hopen
  cases hopen
  exact ⟨hstands, trivial, trivial, hcount, fun _ => rfl⟩

/-- A new store answers any calls as an ordered map does, where no key that is put goes before
all separators of a branch on its way. -/
theorem runCalls_meanings (registry : Registry) (db : Db integersAndStrings)
    (cs : List (Call integersAndStrings)) (hopen : dubnaKvOpen registry KvFile.blank = some (some db))
    (hplain : ∀ key value, Call.put key value ∈ cs → Plain value)
    (hclear : ClearRun registry db cs) :
    ∃ db', runCalls registry db cs = some (meanings .empty cs, db') :=
  (serves_blank hopen).run keyFits_of_ok cs hplain hclear

def longKeys : List (Call integersAndStrings) :=
  let long (b : UInt8) := CString.ofBytes (List.replicate 200 b)
  (List.range 10).map fun i => .put (stringKey (long (UInt8.ofNat (98 + i)))) (.string (long 120))

/-- The root splits, and the keys that follow go behind its first separator. -/
def severalCalls : List (Call integersAndStrings) :=
  longKeys ++ [.put (stringKey (CString.lit "x")) (.integer 1), .get (stringKey (CString.lit "x")),
    .del (stringKey (CString.lit "x")), .range (some (stringKey (CString.lit "c"))) none 3, .count]

theorem runCalls_several : ∃ db db', dubnaKvOpen [] KvFile.blank = some (some db) ∧
    runCalls [] db severalCalls = some (meanings .empty severalCalls, db') := by
  obtain ⟨db, hopen, -⟩ := dubnaKvOpen_blank (K := integersAndStrings) []
  have hplain : ∀ key value, Call.put key value ∈ severalCalls → Plain value := by
    intro key value hin
    obtain hin | hin := List.mem_append.mp hin
    · obtain ⟨i, -, hput⟩ := List.mem_map.mp hin
      cases hput
      exact .string _
    · simp only [List.mem_cons, reduceCtorEq, Call.put.injEq, or_false, List.not_mem_nil] at hin
      rw [hin.2]
      exact .integer 1
  have hclear : (dubnaKvOpen [] KvFile.blank).map (fun opened => opened.map fun db : Db integersAndStrings =>
      decide (ClearRun [] db severalCalls)) = some (some true) := by decide +kernel
  rw [hopen] at hclear
  have hclear' : ClearRun [] db severalCalls :=
    of_decide_eq_true (Option.some.inj (Option.some.inj hclear))
  obtain ⟨db', hrun⟩ := runCalls_meanings [] db severalCalls hopen hplain hclear'
  exact ⟨db, db', hopen, hrun⟩

def manyCalls : List (Call integersAndStrings) :=
  longKeys ++ [.put (stringKey (CString.lit "a")) (.integer 1),
    .range none (some (stringKey (CString.lit "b"))) (-1)]

def Answer.size : Answer K → Nat
  | .pairs ps => ps.length
  | _ => 0

def manySizes : Option (List Nat) := do
  let db ← dubnaKvOpen (K := integersAndStrings) [] KvFile.blank
  let (answers, _) ← runCalls [] (← db) manyCalls
  return answers.map Answer.size

theorem runCalls_misses : ¬ ∀ (registry : Registry) (db : Db integersAndStrings)
    (cs : List (Call integersAndStrings)), dubnaKvOpen registry KvFile.blank = some (some db) →
      (∀ key value, Call.put key value ∈ cs → Plain value) →
        ∃ db', runCalls registry db cs = some (meanings .empty cs, db') := by
  intro hclaim
  obtain ⟨db, hopen, -⟩ := dubnaKvOpen_blank (K := integersAndStrings) []
  have hplain : ∀ key value, Call.put key value ∈ manyCalls → Plain value := by
    intro key value hin
    rcases List.mem_append.mp hin with hin | hin
    · obtain ⟨i, -, hput⟩ := List.mem_map.mp hin
      cases hput
      exact .string _
    · simp only [List.mem_cons, reduceCtorEq, Call.put.injEq, or_false, List.not_mem_nil] at hin
      rw [hin.2]
      exact .integer 1
  obtain ⟨db', hrun⟩ := hclaim [] db manyCalls hopen hplain
  have hsizes : manySizes = some ((meanings .empty manyCalls).map Answer.size) := by
    rw [manySizes, hopen, Option.bind_eq_bind, Option.bind_some, Option.bind_eq_bind,
      Option.bind_some, hrun]
    rfl
  revert hsizes
  decide +kernel

end

end Ussr.Kv
