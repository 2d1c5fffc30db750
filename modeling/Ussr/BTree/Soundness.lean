import Ussr.BTree.Runs

/-! The structural invariant in the words of the tree itself: order inside
every node, the range of every child, equal depth of the leaves, occupancy,
the two leaf links and the key count. It holds after any sequence of puts and
deletes with keys on which the comparison is a total order. -/

namespace Ussr.BTree
open SortedEntries SeparatorChain LinkedList

variable {K V : Type}
variable {node root : Node K V} {d m : Nat} {lo hi : Bound K}

namespace Node

def storedKeys (node : Node K V) : List K :=
  node.entries.map Prod.fst

mutual

def nodes : Node K V → List (Node K V)
  | .leaf id es => [.leaf id es]
  | .inner ks kids => .inner ks kids :: nodesAll kids

def nodesAll : List (Node K V) → List (Node K V)
  | [] => []
  | kid :: kids => nodes kid ++ nodesAll kids

end

mutual

def leafDepths : Node K V → List Nat
  | .leaf _ _ => [0]
  | .inner _ kids => leafDepthsAll kids

def leafDepthsAll : List (Node K V) → List Nat
  | [] => []
  | kid :: kids => (leafDepths kid).map (· + 1) ++ leafDepthsAll kids

end

def descendants : Node K V → List (Node K V)
  | .leaf _ _ => []
  | .inner _ kids => nodesAll kids

theorem mem_nodesAll {kids : List (Node K V)} :
    node ∈ nodesAll kids ↔ ∃ kid ∈ kids, node ∈ kid.nodes := by
  induction kids with
  | nil => simp [nodesAll]
  | cons kid kids ih => simp [nodesAll, ih]

theorem mem_nodes :
    node ∈ root.nodes ↔ node = root ∨ node ∈ root.descendants := by
  cases root <;> simp [nodes, descendants]

theorem leafDepthsAll_eq (kids : List (Node K V)) :
    leafDepthsAll kids = kids.flatMap fun kid => kid.leafDepths.map (· + 1) := by
  induction kids with
  | nil => rfl
  | cons kid kids ih => rw [leafDepthsAll, ih, List.flatMap_cons]

end Node

namespace Tree

def storedKeys (t : Tree K V) : List K :=
  t.entries.map Prod.fst

def nodes (t : Tree K V) : List (Node K V) :=
  (t.root.map Node.nodes).getD []

end Tree

/-- A node's child `i` holds exactly the keys of the node from `keys[i - 1]` on and
before `keys[i]`. -/
def Separated (ops : KeyOps K) (ks : List K) (kids : List (Node K V)) : Prop :=
  kids.length = ks.length + 1 ∧
    ∀ i kid, kids[i]? = some kid → ∀ k ∈ (Node.inner ks kids).storedKeys,
      (k ∈ kid.storedKeys ↔
        (∀ j s, i = j + 1 → ks[j]? = some s → ops.compare s k ≠ .gt) ∧
          ∀ s, ks[i]? = some s → ops.compare k s = .lt)

structure Sound (ops : KeyOps K) (t : Tree K V) : Prop where
  sorted : ∀ node ∈ t.nodes, node.keys.Pairwise fun a b => ops.compare a b = .lt
  separated : ∀ ks kids, Node.inner ks kids ∈ t.nodes → Separated ops ks kids
  level : ∀ root, t.root = some root → ∃ d, ∀ x ∈ root.leafDepths, x = d
  room : ∀ node ∈ t.nodes, node.n ≤ btMax
  full : ∀ root, t.root = some root → ∀ node ∈ root.descendants, btMin ≤ node.n
  rootKeys : ∀ ks kids, t.root = some (.inner ks kids) → 1 ≤ ks.length
  nodup : t.leafIds.Nodup
  next : ∀ (i id : Nat), t.leafIds[i]? = some id → t.heap.next id = t.leafIds[i + 1]?
  prev : ∀ (i id : Nat), t.leafIds[i]? = some id →
    t.heap.prev id = if i = 0 then none else t.leafIds[i - 1]?
  count : t.heap.count = t.storedKeys.length
  distinct : t.storedKeys.Nodup

section

variable [LinearOrder K]

theorem Wf.of_mem_nodes
    (hw : Wf d m lo hi root) (hmem : node ∈ root.nodes) :
    node = root ∨ ∃ d' lo' hi', Wf d' btMin lo' hi' node := by
  induction d generalizing m lo hi root with
  | zero =>
    match root, hw with
    | .leaf id es, _ => exact Or.inl (by simpa [Node.nodes] using hmem)
  | succ d ih =>
    match root, hw with
    | .inner ks kids, ⟨_, _, hchain⟩ =>
      rcases Node.mem_nodes.mp hmem with rfl | hbelow
      · exact Or.inl rfl
      obtain ⟨kid, hkid, hin⟩ := Node.mem_nodesAll.mp hbelow
      obtain ⟨x, y, hwk⟩ := hchain.exists_of_mem hkid
      rcases ih hwk hin with rfl | h
      · exact Or.inr ⟨d, x, y, hwk⟩
      · exact Or.inr h

theorem Wf.of_mem_descendants
    (hw : Wf d m lo hi root) (hmem : node ∈ root.descendants) :
    ∃ d' lo' hi', Wf d' btMin lo' hi' node := by
  match d, root, hw with
  | 0, .leaf id es, _ => simp [Node.descendants] at hmem
  | d + 1, .inner ks kids, ⟨_, _, hchain⟩ =>
    obtain ⟨kid, hkid, hin⟩ := Node.mem_nodesAll.mp hmem
    obtain ⟨x, y, hwk⟩ := hchain.exists_of_mem hkid
    rcases hwk.of_mem_nodes hin with rfl | h
    · exact ⟨d, x, y, hwk⟩
    · exact h

theorem Wf.leafDepths
    (hw : Wf d m lo hi root) : ∀ x ∈ root.leafDepths, x = d := by
  induction d generalizing m lo hi root with
  | zero =>
    match root, hw with
    | .leaf id es, _ => simp [Node.leafDepths]
  | succ d ih =>
    match root, hw with
    | .inner ks kids, ⟨_, _, hchain⟩ =>
      intro x hx
      rw [Node.leafDepths, Node.leafDepthsAll_eq] at hx
      obtain ⟨kid, hkid, hx⟩ := List.mem_flatMap.mp hx
      obtain ⟨y, hy, rfl⟩ := List.mem_map.mp hx
      obtain ⟨_, _, hwk⟩ := hchain.exists_of_mem hkid
      rw [ih hwk y hy]

theorem mem_storedKeys_bounds
    (hw : Wf d m lo hi node) {k : K} (hk : k ∈ node.storedKeys) :
    lo ≤ key k ∧ key k < hi := by
  obtain ⟨e, he, rfl⟩ := List.mem_map.mp hk
  exact ⟨hw.within.lower e he, hw.within.upper e he⟩

theorem Wf.separated {ks : List K} {kids : List (Node K V)}
    {ops : KeyOps K} (hops : ∀ a b, ops.compare a b = compare a b)
    (hw : Wf d m lo hi (.inner ks kids)) : Separated ops ks kids := by
  match d, hw with
  | d + 1, ⟨_, _, hchain⟩ =>
    have hsorted := (hchain.bounds Wf.lt).2.2
    refine ⟨hchain.length, fun i kid hkid k hk => ⟨fun hin => ?_, fun ⟨hlo, hhi⟩ => ?_⟩⟩
    · obtain ⟨x, y, hwk, -, hx, hy⟩ := hchain.exists_at hkid
      obtain ⟨hxk, hky⟩ := mem_storedKeys_bounds hwk hin
      constructor
      · intro j s hj hs
        rw [hops, compare_le_iff_le]
        exact key_le_key.mp (hx j s hj hs ▸ hxk)
      · intro s hs
        rw [hops, compare_lt_iff_lt]
        exact key_lt_key.mp (hy s hs ▸ hky)
    · obtain ⟨e, he, rfl⟩ := List.mem_map.mp hk
      rw [Node.entries_inner] at he
      obtain ⟨other, hother, hin⟩ := List.mem_flatMap.mp he
      obtain ⟨j, hj⟩ := List.getElem?_of_mem hother
      have hin' : e.1 ∈ other.storedKeys := List.mem_map_of_mem hin
      obtain ⟨x, y, hwo, -, hx, hy⟩ := hchain.exists_at hj
      obtain ⟨hxk, hky⟩ := mem_storedKeys_bounds hwo hin'
      have hjlt := (List.getElem?_eq_some_iff.mp hj).1
      have hilt := (List.getElem?_eq_some_iff.mp hkid).1
      have hlen := hchain.length
      have hmono : ∀ a b : Nat, a ≤ b → (ha : a < ks.length) → (hb : b < ks.length) →
          ks[a] ≤ ks[b] := by
        intro a b hab ha hb
        rcases hab.lt_or_eq with hlt | rfl
        · exact (List.pairwise_iff_getElem.mp hsorted a b ha hb hlt).le
        · exact le_rfl
      rcases lt_trichotomy i j with hij | rfl | hji
      · obtain ⟨p, rfl⟩ : ∃ p, j = p + 1 := ⟨j - 1, by omega⟩
        have hp : p < ks.length := by omega
        have hi : i < ks.length := by omega
        rw [hx p _ rfl (List.getElem?_eq_getElem hp)] at hxk
        have hki := compare_lt_iff_lt.mp ((hops _ _).symm.trans
          (hhi _ (List.getElem?_eq_getElem hi)))
        exact absurd (hki.trans_le ((hmono i p (by omega) hi hp).trans (key_le_key.mp hxk)))
          (lt_irrefl _)
      · obtain rfl : kid = other := Option.some.inj (hkid.symm.trans hj)
        exact hin'
      · obtain ⟨p, rfl⟩ : ∃ p, i = p + 1 := ⟨i - 1, by omega⟩
        have hp : p < ks.length := by omega
        have hj' : j < ks.length := by omega
        rw [hy _ (List.getElem?_eq_getElem hj')] at hky
        have hle := hlo p _ rfl (List.getElem?_eq_getElem hp)
        rw [hops, compare_le_iff_le] at hle
        exact absurd ((key_lt_key.mp hky).trans_le ((hmono j p (by omega) hj' hp).trans hle))
          (lt_irrefl _)

theorem Invariant.sound {ops : KeyOps K} (hops : ∀ a b, ops.compare a b = compare a b)
    {t : Tree K V} (h : Invariant t) : Sound ops t := by
  have hnodes : ∀ node ∈ t.nodes, ∃ d m lo hi, Wf d m lo hi node := by
    intro node hmem
    unfold Tree.nodes at hmem
    cases hroot : t.root with
    | none => simp [hroot] at hmem
    | some root =>
      obtain ⟨d, hw⟩ := h.shape root hroot
      rcases hw.of_mem_nodes (by simpa [hroot] using hmem) with rfl | ⟨d', lo, hi, hw'⟩
      · exact ⟨d, 1, ⊥, ⊤, hw⟩
      · exact ⟨d', btMin, lo, hi, hw'⟩
  refine ⟨fun node hmem => ?_, fun ks kids hmem => ?_, fun root hroot => ?_,
    fun node hmem => ?_, fun root hroot node hmem => ?_, fun ks kids hroot => ?_,
    h.links.linked.nodup, fun i id hid => h.links.linked.segment.next_getElem hid,
    fun i id hid => h.links.linked.segment.prev_getElem hid, ?_, ?_⟩
  · obtain ⟨d, m, lo, hi, hw⟩ := hnodes node hmem
    exact hw.keys_sorted.imp fun hab => (hops _ _).trans (compare_lt_iff_lt.mpr hab)
  · obtain ⟨d, m, lo, hi, hw⟩ := hnodes _ hmem
    exact hw.separated hops
  · obtain ⟨d, hw⟩ := h.shape root hroot
    exact ⟨d, hw.leafDepths⟩
  · obtain ⟨d, m, lo, hi, hw⟩ := hnodes node hmem
    exact hw.n_le
  · obtain ⟨d, hw⟩ := h.shape root hroot
    obtain ⟨_, _, _, hw'⟩ := hw.of_mem_descendants hmem
    exact hw'.le_n
  · obtain ⟨d, hw⟩ := h.shape _ hroot
    exact hw.le_n
  · rw [h.count, Tree.storedKeys, List.length_map]
  · exact h.sorted.nodup_keys

end

abbrev TotalOrderOn.linearOrder {ops : KeyOps K} {S : Set K} (h : TotalOrderOn ops S) :
    LinearOrder S where
  le a b := ops.compare a b ≠ .gt
  lt a b := ops.compare a b = .lt
  le_refl a := by
    rw [(h.eq_iff a a.2 a a.2).mpr rfl]
    decide
  le_trans a b c hab hbc := by
    rcases hab' : ops.compare a b with _ | _ | _
    · rcases hbc' : ops.compare b c with _ | _ | _
      · rw [h.trans a a.2 b b.2 c c.2 hab' hbc']
        decide
      · rw [← (h.eq_iff b b.2 c c.2).mp hbc', hab']
        decide
      · exact absurd hbc' hbc
    · rwa [(h.eq_iff a a.2 b b.2).mp hab']
    · exact absurd hab' hab
  le_antisymm a b hab hba := by
    rw [h.swap a a.2 b b.2] at hba
    refine Subtype.ext ((h.eq_iff a a.2 b b.2).mp ?_)
    revert hab hba
    cases ops.compare a b <;> simp
  le_total a b := by
    rw [h.swap a a.2 b b.2]
    cases ops.compare a b <;> simp
  lt_iff_le_not_ge a b := by
    rw [h.swap a a.2 b b.2]
    cases ops.compare a b <;> simp
  toDecidableLE a b := inferInstanceAs (Decidable (ops.compare a b ≠ .gt))
  toDecidableLT a b := inferInstanceAs (Decidable (ops.compare a b = .lt))
  toDecidableEq a b := decidable_of_iff (ops.compare a b = .eq)
    ((h.eq_iff a a.2 b b.2).trans Subtype.ext_iff.symm)
  compare a b := ops.compare a b
  compare_eq_compareOfLessAndEq a b := by
    have heq := (h.eq_iff a a.2 b b.2).trans Subtype.ext_iff.symm
    unfold compareOfLessAndEq
    by_cases hlt : ops.compare a b = .lt
    · exact hlt.trans (if_pos hlt).symm
    by_cases hab : a = b
    · exact (heq.mpr hab).trans ((if_neg hlt).trans (if_pos hab)).symm
    · have hgt : ops.compare a b = .gt := by
        have hne := mt heq.mp hab
        revert hlt hne
        cases ops.compare a b <;> simp
      exact hgt.trans ((if_neg hlt).trans (if_neg hab)).symm

/-- After every sequence of puts and deletes, with keys from a set on which the key
comparison is a total order, no array was indexed out of bounds and the tree is sound. -/
theorem runOps_sound (S : Set Value) (hS : TotalOrderOn valueKeys S)
    (l : List (Op S Value)) :
    ∃ t, runOps (valueKeys.restrict S) (create fun _ => true) l = some t ∧
      Sound (valueKeys.restrict S) t := by
  let _ := hS.linearOrder
  have hops : ∀ a b, (valueKeys.restrict S).compare a b = compare a b := fun _ _ => rfl
  obtain ⟨t, hrun, hinv, -⟩ := runOps_create hops (fun a => hS.ok a a.2) l
  exact ⟨t, hrun, hinv.sound hops⟩

theorem runOps_sound_integers :
    ∃ t, runOps (valueKeys.restrict integersAndStrings) (create fun _ => true)
        [.put ⟨.integer 1, Or.inl ⟨1, rfl⟩⟩ Value.null,
          .put ⟨.string (.lit "a"), Or.inr ⟨_, rfl⟩⟩ (Value.boolean true),
          .delete ⟨.integer 1, Or.inl ⟨1, rfl⟩⟩] = some t ∧
      Sound (valueKeys.restrict integersAndStrings) t :=
  runOps_sound integersAndStrings integersAndStrings_total _

end Ussr.BTree
