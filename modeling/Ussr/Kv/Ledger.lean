import Ussr.Kv.Tree

/-! Who holds a page: nodes and data runs of the tree, the sets of free pages, and
the pages past the end. No operation lets a page have more holders. -/

namespace Ussr.Kv

variable {K : Type} [LinearOrder K] {V : Type}
variable {d : Nat} {s s' : Space} {key ck : K} {root : Root K}

def isAt (a p : Nat) : Nat :=
  if p = a then 1 else 0

def inRun (a page count : Nat) : Nat :=
  if page ≤ a ∧ a < page + count then 1 else 0

def past (a pages : Nat) : Nat :=
  if pages ≤ a then 1 else 0

def entryOwns (a : Nat) : Entry → Nat
  | .inline _ => 0
  | .run _ p n => inRun a p (dkvPagesFor n)

def owns (a : Nat) : {d : Nat} → Item K d → Nat
  | 0, x => entryOwns a x
  | _ + 1, t => isAt a t.page + t.map.sum (owns a)

def Tree.owns (a : Nat) {d : Nat} (t : Tree K d) : Nat :=
  Kv.owns a (d := d + 1) t

def splitOwns (a : Nat) {d : Nat} : Option (K × Tree K d) → Nat
  | none => 0
  | some (_, r) => r.owns a

def Space.holds (s : Space) (a : Nat) : Nat :=
  (s.free.has a).toNat + (s.soon.has a).toNat + (s.freed.has a).toNat + past a s.pages

theorem Tree.owns_eq (a : Nat) (t : Tree K d) :
    t.owns a = isAt a t.page + t.map.sum (Kv.owns a) := rfl

section

variable (a : Nat)

theorem past_succ (n : Nat) : past a (n + 1) + isAt a n = past a n := by
  unfold past isAt
  split_ifs <;> omega

theorem past_add (n count : Nat) : past a (n + count) + inRun a n count = past a n := by
  unfold past inRun
  split_ifs <;> omega

theorem inRun_one (p : Nat) : inRun a p 1 = isAt a p := by
  unfold inRun isAt
  split_ifs <;> omega

theorem has_put {V : Type} (m : OrdMap Nat V) (p : Nat) (v : V) :
    (m.put p v).has a = (decide (a = p) || m.has a) := by
  rw [OrdMap.has, OrdMap.get_put]
  by_cases h : a = p <;> simp [h, OrdMap.has]

theorem has_del {V : Type} (m : OrdMap Nat V) (p : Nat) :
    (m.del p).has a = (decide (a ≠ p) && m.has a) := by
  rw [OrdMap.has, OrdMap.get_del]
  by_cases h : a = p <;> simp [h, OrdMap.has]

theorem has_putRange (m : OrdMap Nat Bool) (page count : Nat) :
    ((List.range' page count).foldl (fun m p => m.put p true) m).has a =
      (decide (page ≤ a ∧ a < page + count) || m.has a) := by
  induction count generalizing page m with
  | zero => simp
  | succ count ih =>
    rw [List.range'_succ, List.foldl_cons, ih, has_put, ← Bool.or_assoc, ← Bool.decide_or]
    congr 2
    exact propext (by omega)

theorem has_put_le {V : Type} (m : OrdMap Nat V) (p : Nat) (v : V) :
    ((m.put p v).has a).toNat ≤ (m.has a).toNat + isAt a p := by
  rw [has_put, isAt]
  by_cases h : a = p
  · simp [h]
  · simp [h]

theorem has_del_eq {V : Type} {m : OrdMap Nat V} {p : Nat} (hp : m.has p = true) :
    ((m.del p).has a).toNat + isAt a p = (m.has a).toNat := by
  rw [has_del, isAt]
  by_cases h : a = p
  · simp [h, hp]
  · simp [h, Ne.symm h]

theorem has_putRange_le (m : OrdMap Nat Bool) (page count : Nat) :
    (((List.range' page count).foldl (fun m p => m.put p true) m).has a).toNat ≤
      (m.has a).toNat + inRun a page count := by
  rw [has_putRange, inRun]
  by_cases h : page ≤ a ∧ a < page + count <;> simp [h]

theorem has_of_first {V : Type} {m : OrdMap Nat V} {p : Nat} (h : m.first = some p) :
    m.has p = true := by
  obtain ⟨v, es, hentries⟩ := OrdMap.get_first h
  exact OrdMap.has_iff.mpr ⟨v, OrdMap.get_eq_some_iff.mpr (by simp [hentries])⟩

theorem dkvNewPage_holds (s : Space) :
    (dkvNewPage s).2.holds a + isAt a (dkvNewPage s).1 = s.holds a := by
  unfold dkvNewPage
  cases hfirst : s.free.first with
  | none =>
    have hpast := past_succ a s.pages
    simp only [Space.holds]
    omega
  | some r =>
    have hdel := has_del_eq a (has_of_first hfirst)
    simp only [Space.holds]
    omega

theorem dkvNewRun_holds (s : Space) (count : Nat) :
    (dkvNewRun s count).2.holds a + inRun a (dkvNewRun s count).1 count = s.holds a := by
  have hpast := past_add a s.pages count
  simp only [dkvNewRun, Space.holds]
  omega

theorem dkvDrop_holds_le (s : Space) (page count : Nat) :
    (dkvDrop s page count).holds a ≤ s.holds a + inRun a page count := by
  have hput := has_putRange_le a s.freed page count
  simp only [dkvDrop, Space.holds]
  omega

theorem dkvFreeNew_holds_le (s : Space) (p : Nat) :
    (dkvFreeNew s p).holds a ≤ s.holds a + isAt a p := by
  have hput := has_put_le a s.free p true
  simp only [dkvFreeNew, Space.holds]
  omega

theorem dkvDropValue_holds_le (s : Space) (x : Entry) :
    (dkvDropValue s x).holds a ≤ s.holds a + entryOwns a x := by
  cases x with
  | inline value => exact Nat.le_add_right _ _
  | run isUno p n =>
    simp only [dkvDropValue]
    split_ifs
    · exact Nat.le_add_right _ _
    · exact dkvDrop_holds_le a s p _

theorem dkvReplace_holds_le (s : Space) (was : Option Entry) :
    (dkvReplace s was).holds a ≤ s.holds a + (was.elim 0 (entryOwns a)) := by
  cases was with
  | none => exact Nat.le_refl _
  | some x => exact dkvDropValue_holds_le a s x

theorem dkvValueIn_holds {value : Uno.UnoValue} {x : Entry}
    (h : dkvValueIn s value = some (x, s')) : s'.holds a + entryOwns a x = s.holds a := by
  have hbig : ∀ isUno text, dkvBigValue s isUno text = (x, s') →
      s'.holds a + entryOwns a x = s.holds a := by
    rintro isUno text hrun
    cases hrun
    exact dkvNewRun_holds a s _
  have hsame : some (Entry.inline value, s) = some (x, s') → s'.holds a + entryOwns a x = s.holds a := by
    rintro hinline
    cases hinline
    rfl
  unfold dkvValueIn at h
  split at h
  · split_ifs at h
    · exact hsame h
    · exact hbig _ _ (Option.some.inj h)
  · obtain ⟨text, -, h⟩ := Option.bind_eq_some_iff.mp h
    split_ifs at h
    · exact hbig _ _ (Option.some.inj h)
    · exact hsame h

end

section

variable (a : Nat)

theorem TreeNode.writable_map (s : Space) (t : TreeNode K V) : (t.writable s).1.map = t.map := by
  unfold TreeNode.writable
  split_ifs <;> rfl

theorem TreeNode.writable_holds_le (s : Space) (t : TreeNode K V) :
    (t.writable s).2.holds a + isAt a (t.writable s).1.page ≤
      s.holds a + isAt a t.page := by
  rw [TreeNode.writable]
  split_ifs with hdirty
  · exact Nat.le_refl _
  · have hnew := dkvNewPage_holds a s
    have hdrop := dkvDrop_holds_le a (dkvNewPage s).2 t.page 1
    rw [inRun_one] at hdrop
    dsimp only
    omega

theorem putChild_sum_le {m : OrdMap K V} {child : V} (g : V → Nat)
    (h : m.get ck = some child) (child' : V) (split : Option (K × V)) :
    (putChild m ck child' split).sum g + g child ≤
      m.sum g + g child' + split.elim 0 fun e => g e.2 := by
  have hput := OrdMap.sum_put_of_get g h child'
  cases split with
  | none => exact hput.le
  | some e =>
    obtain ⟨sep, right⟩ := e
    dsimp only [putChild, Option.elim]
    cases hsep : (m.put ck child').get sep with
    | none =>
      have := OrdMap.sum_put_of_none g hsep right
      omega
    | some old =>
      have := OrdMap.sum_put_of_get g hsep right
      omega

theorem splitOwns_eq (split : Option (K × Tree K d)) :
    splitOwns a split = split.elim 0 fun e => e.2.owns a := by
  cases split <;> rfl

theorem putChild_owns_le {m : OrdMap K (Item K (d + 1))} {child : Tree K d}
    (h : m.get ck = some child) (child' : Tree K d) (split : Option (K × Tree K d)) :
    (putChild m ck child' split).sum (owns a) + child.owns a ≤
      m.sum (owns a) + child'.owns a + splitOwns a split := by
  rw [splitOwns_eq]
  exact putChild_sum_le (owns a) h child' split

theorem dkvRoute_get {m : OrdMap K V} {child : V}
    (h : dkvRoute m key = some (ck, child)) : m.get ck = some child := by
  obtain ⟨k, -, h⟩ := Option.bind_eq_some_iff.mp h
  obtain ⟨c, hget, h⟩ := Option.bind_eq_some_iff.mp h
  cases h
  exact hget

variable [KvKey K]

theorem Tree.fit_owns {t t' : Tree K d} {split : Option (K × Tree K d)}
    (h : Tree.fit s t = some ((t', split), s')) :
    t'.owns a + splitOwns a split + s'.holds a = t.owns a + s.holds a := by
  obtain ⟨text, -, ⟨-, hr⟩ | ⟨sep, -, -, hr⟩⟩ := Tree.fit_cases h
  · cases hr
    rfl
  · cases hr
    have hparts := OrdMap.sum_take_drop (Kv.owns a) t.map t.half
    have hnew := dkvNewPage_holds a s
    simp only [splitOwns, Tree.owns_eq]
    omega

omit [KvKey K] in
theorem Tree.putEntry_owns_le (s : Space) (t : Tree K 0) (key : K) (x : Entry) :
    Tree.owns a (d := 0) { (t.writable s).1 with map := t.map.put key x } +
        (dkvReplace (t.writable s).2 (t.map.get key)).holds a ≤
      t.owns a + s.holds a + entryOwns a x := by
  have hwrite := t.writable_holds_le a s
  have hreplace := dkvReplace_holds_le a (t.writable s).2 (t.map.get key)
  have hx : Kv.owns a (K := K) (d := 0) x = entryOwns a x := rfl
  simp only [Tree.owns_eq]
  cases hget : t.map.get key with
  | none =>
    have hput := OrdMap.sum_put_of_none (Kv.owns a) hget x
    simp only [hget, Option.elim] at hreplace
    omega
  | some was =>
    have hput := OrdMap.sum_put_of_get (Kv.owns a) hget x
    have hwas : Kv.owns a (K := K) (d := 0) was = entryOwns a was := rfl
    simp only [hget, Option.elim] at hreplace
    omega

omit [KvKey K] in
theorem Tree.putChild_le {sb : Space} {t : Tree K (d + 1)}
    {child child' : Tree K d} {split : Option (K × Tree K d)} {n : Nat}
    (hget : t.map.get ck = some child)
    (hchild : child'.owns a + splitOwns a split + sb.holds a ≤
      child.owns a + (t.writable s).2.holds a + n) :
    Tree.owns a (d := d + 1) { (t.writable s).1 with map := putChild t.map ck child' split } +
        sb.holds a ≤ t.owns a + s.holds a + n := by
  have hwrite := t.writable_holds_le a s
  have hsum := putChild_owns_le a hget child' split
  simp only [Tree.owns_eq]
  omega

theorem Tree.insert_owns_le {t t' : Tree K d}
    {split : Option (K × Tree K d)} {x : Entry}
    (h : Tree.insert s t key x = some ((t', split), s')) :
    t'.owns a + splitOwns a split + s'.holds a ≤ t.owns a + s.holds a + entryOwns a x := by
  induction d generalizing s s' with
  | zero =>
    rw [Tree.insert] at h
    exact (Tree.fit_owns a h).trans_le (t.putEntry_owns_le a s key x)
  | succ d ih =>
    rw [Tree.insert] at h
    obtain ⟨⟨ck, child⟩, hroute, h⟩ := Option.bind_eq_some_iff.mp h
    obtain ⟨⟨⟨child', below⟩, sb⟩, hbelow, h⟩ := Option.bind_eq_some_iff.mp h
    exact (Tree.fit_owns a h).trans_le (Tree.putChild_le a (dkvRoute_get hroute) (ih hbelow))

end

section

variable (a : Nat)

theorem Tree.removed_owns (t : Tree K d) (map : OrdMap K (Item K d)) :
    (Tree.removed t map).tree.owns a = isAt a t.page + map.sum (Kv.owns a) := rfl

theorem Tree.remove_absent {t : Tree K d} {r : Remains K d}
    (h : Tree.remove s t key = some (r, s')) (hgone : r.gone = false) :
    s' = s ∧ r = ⟨t, false, false⟩ := by
  induction d generalizing s s' with
  | zero =>
    rw [Tree.remove] at h
    cases hget : t.map.get key with
    | none =>
      rw [hget] at h
      cases h
      exact ⟨rfl, rfl⟩
    | some was =>
      rw [hget] at h
      cases h
      cases hgone
  | succ d ih =>
    obtain ⟨ck, child, below, sb, -, hbelow, hr⟩ := Tree.remove_branch h
    split_ifs at hr with hfound
    · have := Tree.removeChild_gone sb t ck below
      rw [← hr, hgone] at this
      cases this
    · cases hr
      exact ⟨(ih hbelow (by simpa using hfound)).1, rfl⟩

theorem Tree.removeChild_owns_le {n : Nat} {t : Tree K (d + 1)}
    {child : Tree K d} {below : Remains K d} {r : Remains K (d + 1)}
    (h : (r, s') = Tree.removeChild s t ck below) (hget : t.map.get ck = some child)
    (hbelow : below.tree.owns a + s.holds a ≤ child.owns a + n) :
    r.tree.owns a + s'.holds a ≤ t.owns a + n := by
  have hwrite := t.writable_holds_le a s
  have hown : Kv.owns a (K := K) (d := d + 1) child = Tree.owns a child := rfl
  rw [t.owns_eq a]
  cases hempty : below.empty with
  | true =>
    rw [Tree.removeChild_empty hempty] at h
    cases h
    have hdel := OrdMap.sum_del (Kv.owns a) hget
    have hfree := dkvFreeNew_holds_le a (t.writable s).2 below.tree.page
    rw [Tree.removed_owns]
    rw [below.tree.owns_eq a] at hbelow
    omega
  | false =>
    rw [Tree.removeChild_left hempty] at h
    cases h
    have hput := OrdMap.sum_put_of_get (Kv.owns a) hget below.tree
    have hnew : Kv.owns a (K := K) (d := d + 1) below.tree = below.tree.owns a := rfl
    rw [Tree.removed_owns]
    omega

theorem Tree.remove_owns_le {t : Tree K d} {r : Remains K d}
    (h : Tree.remove s t key = some (r, s')) :
    r.tree.owns a + s'.holds a ≤ t.owns a + s.holds a := by
  induction d generalizing s s' with
  | zero =>
    rw [Tree.remove] at h
    have hwrite := t.writable_holds_le a s
    cases hget : t.map.get key with
    | none =>
      rw [hget] at h
      cases h
      exact Nat.le_refl _
    | some was =>
      rw [hget] at h
      cases h
      have hdel := OrdMap.sum_del (Kv.owns a) hget
      have hdrop := dkvDropValue_holds_le a (t.writable s).2 was
      have hwas : Kv.owns a (K := K) (d := 0) was = entryOwns a was := rfl
      rw [Tree.removed_owns, Tree.owns_eq]
      simp only [Space.holds] at *
      omega
  | succ d ih =>
    obtain ⟨ck, child, below, sb, hroute, hbelow, hr⟩ := Tree.remove_branch h
    split_ifs at hr with hgone
    · exact Tree.removeChild_owns_le a hr (dkvRoute_get hroute) (ih hbelow)
    · cases hr
      obtain ⟨rfl, rfl⟩ := Tree.remove_absent hbelow (by simpa using hgone)
      exact Nat.le_refl _

end

section

variable (a : Nat)

def Root.owns : Root K → Nat
  | none => 0
  | some t => t.2.owns a

theorem Root.plant_owns (s : Space) (root : Root K) :
    (root.plant s).1.2.owns a + (root.plant s).2.holds a = root.owns a + s.holds a := by
  cases root with
  | none =>
    have hnew := dkvNewPage_holds a s
    simp only [Root.plant, Root.owns, Tree.owns_eq, OrdMap.sum_empty]
    omega
  | some t => rfl

theorem Tree.grow_owns_le {t : Tree K d} {split : Option (K × Tree K d)} (h : Tree.grow s (t, split) = some (root, s')) :
    root.owns a + s'.holds a ≤ t.owns a + splitOwns a split + s.holds a := by
  cases split with
  | none =>
    cases h
    exact Nat.le_refl _
  | some e =>
    obtain ⟨sep, right⟩ := e
    obtain ⟨lk, -, h⟩ := Option.bind_eq_some_iff.mp h
    cases h
    have hnew := dkvNewPage_holds a s
    let g := Kv.owns a (K := K) (d := d + 1)
    have hleft : (OrdMap.empty.put lk t).sum g ≤ Tree.owns a t := by
      exact (OrdMap.sum_put_le g OrdMap.empty lk t).trans (Nat.zero_add _).le
    have hboth : ((OrdMap.empty.put lk t).put sep right).sum g ≤
        (OrdMap.empty.put lk t).sum g + Tree.owns a right := OrdMap.sum_put_le g _ sep right
    show isAt a (dkvNewPage s).1 + ((OrdMap.empty.put lk t).put sep right).sum g +
      (dkvNewPage s).2.holds a ≤ Tree.owns a t + Tree.owns a right + s.holds a
    omega

theorem TreeNode.leave_holds_le (s : Space) (t : TreeNode K V) :
    (t.leave s).holds a ≤ s.holds a + isAt a t.page := by
  unfold TreeNode.leave
  split_ifs
  · exact dkvFreeNew_holds_le a s t.page
  · exact inRun_one a t.page ▸ dkvDrop_holds_le a s t.page 1

theorem Tree.shrink_owns_le {t : Tree K d}
    (h : Tree.shrink s t = some (root, s')) : root.owns a + s'.holds a ≤ t.owns a + s.holds a := by
  induction d generalizing s with
  | zero =>
    cases h
    exact Nat.le_refl _
  | succ d ih =>
    rw [Tree.shrink] at h
    split_ifs at h with hlen
    · cases h
      exact Nat.le_refl _
    · obtain ⟨k, -, h⟩ := Option.bind_eq_some_iff.mp h
      obtain ⟨child, hget, h⟩ := Option.bind_eq_some_iff.mp h
      have hchild := ih h
      have hdel := OrdMap.sum_del (Kv.owns a) hget
      have hown : Kv.owns a (K := K) (d := d + 1) child = Tree.owns a child := rfl
      have hleave := t.leave_holds_le a s
      rw [Tree.owns_eq]
      omega

theorem Root.put_owns_le [KvKey K] {root' : Root K} {x : Entry}
    (h : Root.put s root key x = some (root', s')) :
    root'.owns a + s'.holds a ≤ root.owns a + s.holds a + entryOwns a x := by
  obtain ⟨⟨⟨t, split⟩, si⟩, hinsert, h⟩ := Option.bind_eq_some_iff.mp h
  have hplant := root.plant_owns a s
  have hinsert := Tree.insert_owns_le a hinsert
  have hgrow := Tree.grow_owns_le a h
  omega

theorem Root.del_owns_le {root' : Root K} {gone : Bool}
    (h : Root.del s root key = some ((gone, root'), s')) :
    root'.owns a + s'.holds a ≤ root.owns a + s.holds a := by
  cases root with
  | none =>
    cases h
    exact Nat.le_refl _
  | some t =>
    obtain ⟨⟨r, sr⟩, hremove, h⟩ := Option.bind_eq_some_iff.mp h
    have hremove := Tree.remove_owns_le a hremove
    dsimp only at h
    split_ifs at h with hempty
    · cases h
      have hfree := dkvFreeNew_holds_le a sr r.tree.page
      rw [r.tree.owns_eq a] at hremove
      simp only [Root.owns]
      omega
    · obtain ⟨⟨root, ss⟩, hshrink, h⟩ := Option.bind_eq_some_iff.mp h
      cases h
      have hshrink := Tree.shrink_owns_le a hshrink
      simp only [Root.owns] at *
      omega

end

end Ussr.Kv
