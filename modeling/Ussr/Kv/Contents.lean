import Ussr.Kv.Order

/-! What the operations of a tree do to its entries, to the number of keys and to the
big values that wait for the commit. -/

namespace Ussr.Kv
open SortedEntries

def Space.books (s : Space) : Int × OrdMap Nat Job :=
  (s.count, s.data)

def dropBooks : Entry → Int × OrdMap Nat Job → Int × OrdMap Nat Job
  | .inline _, b => b
  | .run _ p _, b => (b.1, b.2.del p)

def replaceBooks : Option Entry → Int × OrdMap Nat Job → Int × OrdMap Nat Job
  | some was, b => dropBooks was b
  | none, b => (b.1 + 1, b.2)

@[simp] theorem dkvNewPage_books (s : Space) : (dkvNewPage s).2.books = s.books := by
  unfold dkvNewPage
  cases s.free.first <;> rfl

@[simp] theorem dkvDrop_books (s : Space) (page count : Nat) :
    (dkvDrop s page count).books = s.books := rfl

@[simp] theorem dkvFreeNew_books (s : Space) (p : Nat) : (dkvFreeNew s p).books = s.books := rfl

theorem dkvDropValue_books (s : Space) (x : Entry) :
    (dkvDropValue s x).books = dropBooks x s.books := by
  cases x with
  | inline value => rfl
  | run isUno p n =>
    rw [dkvDropValue]
    split_ifs with hpending
    · rfl
    · have hnone : s.data.get p = none := by
        rwa [OrdMap.has, Bool.not_eq_true, Option.isSome_eq_false_iff, Option.isNone_iff_eq_none]
          at hpending
      rw [dkvDrop_books, dropBooks, show s.books.2.del p = s.books.2 from
        OrdMap.del_of_get_none hnone]

theorem dkvReplace_books (s : Space) (was : Option Entry) :
    (dkvReplace s was).books = replaceBooks was s.books := by
  cases was with
  | none => rfl
  | some was => exact dkvDropValue_books s was

variable {K : Type} [LinearOrder K] {V : Type} {d : Nat}
variable {s s' : Space} {root root' : Root K} {t : Tree K d} {key : K} {x : Entry}

theorem TreeNode.writable_books (s : Space) (t : TreeNode K V) :
    (t.writable s).2.books = s.books := by
  unfold TreeNode.writable
  split_ifs
  · rfl
  · exact (dkvDrop_books ..).trans (dkvNewPage_books s)

theorem TreeNode.leave_books (s : Space) (t : TreeNode K V) : (t.leave s).books = s.books := by
  unfold TreeNode.leave
  split_ifs <;> rfl

theorem Tree.fit_books [KvKey K] {r : Halves K d}
    (h : Tree.fit s t = some (r, s')) : s'.books = s.books := by
  obtain ⟨_, -, ⟨-, hr⟩ | ⟨_, -, -, hr⟩⟩ := Tree.fit_cases h
  · cases hr
    rfl
  · cases hr
    exact dkvNewPage_books s

theorem Tree.insert_books [KvKey K] {r : Halves K d} (h : Tree.insert s t key x = some (r, s')) :
    s'.books = replaceBooks (t.find key) s.books := by
  induction d generalizing s s' with
  | zero =>
    rw [Tree.insert] at h
    have hreplace := dkvReplace_books (t.writable s).2 (t.map.get key)
    rw [TreeNode.writable_books] at hreplace
    exact (Tree.fit_books h).trans hreplace
  | succ d ih =>
    rw [Tree.insert] at h
    obtain ⟨⟨ck, child⟩, hroute, h⟩ := Option.bind_eq_some_iff.mp h
    obtain ⟨⟨⟨child', below⟩, sb⟩, hbelow, h⟩ := Option.bind_eq_some_iff.mp h
    rw [Tree.fit_books h, ih (t := child) hbelow, TreeNode.writable_books, Tree.find, hroute]
    rfl

def removeBooks : Option Entry → Int × OrdMap Nat Job → Int × OrdMap Nat Job
  | some was, b => ((dropBooks was b).1 - 1, (dropBooks was b).2)
  | none, b => b

theorem Tree.removeChild_books (s : Space) (t : Tree K (d + 1)) (ck : K) (below : Remains K d) :
    (Tree.removeChild s t ck below).2.books = s.books := by
  cases h : below.empty with
  | true =>
    rw [Tree.removeChild_empty h]
    exact TreeNode.writable_books s t
  | false =>
    rw [Tree.removeChild_left h]
    exact TreeNode.writable_books s t

theorem Tree.remove_books {r : Remains K d}
    (h : Tree.remove s t key = some (r, s')) : s'.books = removeBooks (t.find key) s.books := by
  induction d generalizing s s' with
  | zero =>
    rw [Tree.remove] at h
    cases hget : t.map.get key with
    | none =>
      rw [hget] at h
      cases h
      rw [Tree.find, hget]
      rfl
    | some was =>
      rw [hget] at h
      cases h
      have hdrop := dkvDropValue_books (t.writable s).2 was
      rw [TreeNode.writable_books] at hdrop
      rw [Tree.find, hget]
      exact congrArg (fun b => (b.1 - 1, b.2)) hdrop
  | succ d ih =>
    obtain ⟨ck, child, below, sb, hroute, hbelow, hr⟩ := Tree.remove_branch h
    have hfind : t.find key = Tree.find (d := d) child key := by
      rw [Tree.find, hroute]
      rfl
    rw [hfind, ← ih (t := child) hbelow]
    split_ifs at hr with hgone
    · rw [show s' = (Tree.removeChild sb t ck below).2 from congrArg Prod.snd hr]
      exact Tree.removeChild_books sb t ck below
    · cases hr
      rfl

theorem Tree.grow_books {r : Halves K d}
    (h : Tree.grow s r = some (root, s')) : s'.books = s.books := by
  obtain ⟨t, _ | ⟨sep, right⟩⟩ := r
  · cases h
    rfl
  · obtain ⟨lk, -, h⟩ := Option.bind_eq_some_iff.mp h
    cases h
    exact dkvNewPage_books s

theorem Tree.shrink_books
    (h : Tree.shrink s t = some (root, s')) : s'.books = s.books := by
  induction d generalizing s with
  | zero =>
    cases h
    rfl
  | succ d ih =>
    rw [Tree.shrink] at h
    split_ifs at h
    · cases h
      rfl
    · obtain ⟨k, -, h⟩ := Option.bind_eq_some_iff.mp h
      obtain ⟨child, -, h⟩ := Option.bind_eq_some_iff.mp h
      exact (ih h).trans (TreeNode.leave_books s t)

section

theorem Tree.Ordered.mono {R R' : K → Prop} (h : ∀ q, R q → R' q)
    (ht : t.Ordered R) : ItemOrdered (d := d + 1) R' t :=
  ItemOrdered.mono (d := d + 1) h ht

variable {P : K → Prop} {E : Entry → Prop}

def Root.entries : Root K → List (K × Entry)
  | none => []
  | some t => t.2.entries

def Root.Ordered : Root K → Prop
  | none => True
  | some t => t.2.Ordered fun _ => True

def Root.Clear (key : K) : Root K → Prop
  | none => True
  | some t => t.2.Clear key

def Root.find (root : Root K) (key : K) : Option Entry :=
  root.bind fun t => t.2.find key

def Root.range (lo hi : Option K) : Root K → List (K × Entry)
  | none => []
  | some t => t.2.range lo hi

theorem Root.sorted (h : root.Ordered) : Sorted root.entries := by
  cases root with
  | none => exact List.Pairwise.nil
  | some t => exact sorted_mapEntries (R := fun _ => True) h

theorem Root.find_eq_some_iff (hsound : root.Sound P E) (h : root.Ordered) : root.find key = some x ↔ (key, x) ∈ root.entries := by
  cases root with
  | none => exact iff_of_false nofun List.not_mem_nil
  | some t => exact Tree.find_eq_some_iff (R := fun _ => True) hsound h

theorem Root.range_eq (h : root.Ordered) (lo hi : Option K) :
    root.range lo hi = root.entries.filter (within lo hi) := by
  cases root with
  | none => rfl
  | some t => exact Tree.range_eq (R := fun _ => True) lo hi h

theorem MapOrdered.from_first {R : K → Prop} {map : OrdMap K (Item K d)} (h : MapOrdered R map)
    {k : K} (hfirst : map.first = some k) : R k ∧ MapOrdered (fun q => R q ∧ k ≤ q) map := by
  obtain ⟨v, es, hentries⟩ := OrdMap.get_first hfirst
  have haround := OrdMap.around_of_entries (show map.entries = [] ++ (k, v) :: es from hentries)
  have hle : ∀ e ∈ map.entries, k ≤ e.1 := by
    intro e he
    rw [hentries] at he
    rcases List.mem_cons.mp he with rfl | he
    · exact le_refl _
    · exact (haround.behind e he).le
  refine ⟨(h (k, v) (by simp [hentries])).1, fun e he => ?_⟩
  exact ⟨⟨(h e he).1, hle e he⟩,
    (h e he).2.mono fun q hq => ⟨hq.1, hq.2.1, hq.2.2, (hle e he).trans hq.1⟩⟩

theorem Tree.grow_ordered {split : Option (K × Tree K d)}
    (hhalves : HalvesOrdered (fun _ => True) t split)
    (h : Tree.grow s (t, split) = some (root, s')) :
    root.entries = t.entries ++ splitEntries split ∧ root.Ordered := by
  cases split with
  | none =>
    cases h
    exact ⟨(List.append_nil _).symm, hhalves⟩
  | some e =>
    obtain ⟨sep, right⟩ := e
    obtain ⟨lk, hlk, h⟩ := Option.bind_eq_some_iff.mp h
    cases h
    obtain ⟨-, hleft, hright⟩ := hhalves
    obtain ⟨⟨-, hlt⟩, hfrom⟩ := hleft.from_first hlk
    let left : Item K (d + 1) := t
    let map : OrdMap K (Item K (d + 1)) := (OrdMap.empty.put lk left).put sep right
    have hmap : map.entries = [(lk, left), (sep, right)] := by
      have hone : (OrdMap.empty.put lk left).entries = [(lk, left)] ++ [] := rfl
      refine OrdMap.put_of_around hone ⟨?_, nofun⟩ right
      rintro a ha
      obtain rfl := List.mem_singleton.mp ha
      exact hlt
    constructor
    · refine (congrArg mapEntries hmap).trans ?_
      rw [mapEntries_cons, mapEntries_cons]
      exact congrArg (t.entries ++ ·) (List.append_nil _)
    · have hkeys : ∀ {k q : K}, (k < lk → q < lk) → (k < sep → q < sep) →
          ∀ e ∈ map.entries, k < e.1 → q < e.1 := by
        intro k q hl hr e he
        rw [hmap] at he
        rcases List.mem_cons.mp he with rfl | he
        · exact hl
        · obtain rfl := List.mem_singleton.mp he
          exact hr
      intro e he
      refine ⟨trivial, ?_⟩
      rcases List.mem_cons.mp (hmap ▸ he) with rfl | hs
      · refine Tree.Ordered.mono (fun q hq => ?_) hfrom
        exact ⟨hq.2, hkeys (fun h => absurd h (lt_irrefl _)) (fun _ => hq.1.2), trivial⟩
      · obtain rfl := List.mem_singleton.mp hs
        refine Tree.Ordered.mono (fun q hq => ?_) hright
        exact ⟨hq.2, hkeys (fun h => absurd (hlt.trans h) (lt_irrefl _))
          (fun h => absurd h (lt_irrefl _)), trivial⟩

theorem Tree.shrink_ordered {R : K → Prop} (ht : t.Ordered R) (h : Tree.shrink s t = some (root, s')) :
    root.entries = t.entries ∧ root.Ordered := by
  induction d generalizing R s with
  | zero =>
    cases h
    exact ⟨rfl, Tree.Ordered.mono (fun _ _ => trivial) ht⟩
  | succ d ih =>
    rw [Tree.shrink] at h
    split_ifs at h with hlen
    · cases h
      exact ⟨rfl, Tree.Ordered.mono (fun _ _ => trivial) ht⟩
    · obtain ⟨k, hk, h⟩ := Option.bind_eq_some_iff.mp h
      obtain ⟨child, hget, h⟩ := Option.bind_eq_some_iff.mp h
      obtain ⟨v, es, hentries⟩ := OrdMap.get_first hk
      have hnil : es = [] := by
        rw [OrdMap.len, hentries, List.length_cons] at hlen
        exact List.length_eq_zero_iff.mp (by omega)
      obtain rfl : child = v := by
        rw [OrdMap.get_eq_some_iff.mpr (show (k, v) ∈ t.map.entries by simp [hentries])] at hget
        exact (Option.some.inj hget).symm
      obtain ⟨hroot, hordered⟩ := ih (t := child) (ht (k, child) (by simp [hentries])).2 h
      have hall : t.entries = mapEntries [(k, child)] := by
        rw [Tree.entries, hentries, hnil]
      rw [hall, hroot]
      exact ⟨(List.append_nil _).symm, hordered⟩

end

section

variable {P : K → Prop} {E : Entry → Prop}

theorem Root.plant_books (s : Space) (root : Root K) : (root.plant s).2.books = s.books := by
  cases root with
  | none => exact dkvNewPage_books s
  | some t => rfl

theorem Root.plant_find (s : Space) (root : Root K) (key : K) :
    (root.plant s).1.2.find key = root.find key := by
  cases root <;> rfl

theorem Root.put_books [KvKey K]
    (h : Root.put s root key x = some (root', s')) :
    s'.books = replaceBooks (root.find key) s.books := by
  obtain ⟨⟨halves, si⟩, hinsert, h⟩ := Option.bind_eq_some_iff.mp h
  rw [Tree.grow_books h, Tree.insert_books hinsert, Root.plant_books, Root.plant_find]

theorem Root.put_ordered [KvKey K] (hP : ∀ k, P k → KeyFits k) (hE : ∀ x, E x → EntryFits x) (hsound : root.Sound P E) (hroot : root.Ordered)
    (hkey : P key) (hx : E x) (hclear : root.Clear key)
    (h : Root.put s root key x = some (root', s')) :
    root'.entries = SortedEntries.put key x root.entries ∧ root'.Ordered := by
  obtain ⟨⟨⟨t, split⟩, si⟩, hinsert, h⟩ := Option.bind_eq_some_iff.mp h
  have hhalves : t.entries ++ splitEntries split = SortedEntries.put key x root.entries ∧
      HalvesOrdered (fun _ => True) t split := by
    cases root with
    | none =>
      have hsound : MapSound P E (K := K) (d := 0) OrdMap.empty := nofun
      have hordered : MapOrdered (fun _ => True) (K := K) (d := 0) OrdMap.empty := nofun
      exact Tree.insert_ordered (d := 0) hP hE (fun hd => absurd rfl hd) hsound hordered hkey hx
        trivial trivial hinsert
    | some p =>
      exact Tree.insert_ordered (R := fun _ => True) hP hE (fun _ => hsound.1) hsound.2 hroot hkey hx
        trivial hclear hinsert
  obtain ⟨hentries, hordered⟩ := Tree.grow_ordered hhalves.2 h
  exact ⟨hentries.trans hhalves.1, hordered⟩

theorem Root.del_books {gone : Bool}
    (h : Root.del s root key = some ((gone, root'), s')) :
    s'.books = removeBooks (root.find key) s.books := by
  cases root with
  | none =>
    cases h
    rfl
  | some t =>
    obtain ⟨⟨r, sr⟩, hremove, h⟩ := Option.bind_eq_some_iff.mp h
    have hbooks := Tree.remove_books hremove
    dsimp only at h
    split_ifs at h with hempty
    · cases h
      exact hbooks
    · obtain ⟨⟨root, ss⟩, hshrink, h⟩ := Option.bind_eq_some_iff.mp h
      cases h
      exact (Tree.shrink_books hshrink).trans hbooks

theorem Root.del_ordered (hsound : root.Sound P E) (hroot : root.Ordered) {gone : Bool}
    (h : Root.del s root key = some ((gone, root'), s')) :
    root'.entries = erase key root.entries ∧ root'.Ordered ∧
      (gone = true ↔ key ∈ root.entries.map Prod.fst) := by
  cases root with
  | none =>
    cases h
    exact ⟨rfl, trivial, by simp [Root.entries]⟩
  | some t =>
    obtain ⟨⟨r, sr⟩, hremove, h⟩ := Option.bind_eq_some_iff.mp h
    obtain ⟨_, _, hsame, hleft⟩ := Tree.remove_sound hsound s key
    rw [hremove] at hsame
    cases hsame
    obtain ⟨herase, hordered, hgone⟩ :=
      Tree.remove_ordered (R := fun _ => True) hsound hroot hremove
    dsimp only at h
    split_ifs at h with hempty
    · cases h
      have hnil : r.tree.entries = [] := by
        rw [Tree.entries, (hleft.empty hempty).2]
        rfl
      exact ⟨hnil.symm.trans herase, trivial, hgone⟩
    · obtain ⟨⟨root, ss⟩, hshrink, h⟩ := Option.bind_eq_some_iff.mp h
      cases h
      obtain ⟨hentries, hroot'⟩ := Tree.shrink_ordered hordered hshrink
      exact ⟨hentries.trans herase, hroot', hgone⟩

end

end Ussr.Kv
