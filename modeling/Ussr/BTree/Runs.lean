import Ussr.BTree.Delete

/-! Whole runs of puts and deletes. Every call keeps the invariant of the tree
and acts on its entries as the update of an ordered map; no call indexes a
node's arrays out of their bounds. -/

namespace Ussr.BTree
open SortedEntries SeparatorChain LinkedList

variable {K V : Type}
variable {t : Tree K V}

namespace Tree

def entries (t : Tree K V) : List (K × V) :=
  (t.root.map Node.entries).getD []

def leafIds (t : Tree K V) : List Nat :=
  (t.root.map Node.leafIds).getD []

end Tree

def Op.apply [DecidableEq K] (m : K → Option V) : Op K V → K → Option V
  | .put k v => Function.update m k (some v)
  | .delete k => Function.update m k none

def mapOf [DecidableEq K] (l : List (Op K V)) : K → Option V :=
  l.foldl Op.apply fun _ => none

section

variable [LinearOrder K]

structure Invariant (t : Tree K V) : Prop where
  shape : ∀ root, t.root = some root → ∃ d, Wf d 1 ⊥ ⊤ root
  links : LeafLinks t.heap t.leafIds
  count : t.heap.count = t.entries.length
  mem : ∀ i, t.heap.mem i = true

theorem Invariant.sorted (h : Invariant t) : Sorted t.entries := by
  unfold Tree.entries
  cases hroot : t.root with
  | none => exact List.Pairwise.nil
  | some root =>
    obtain ⟨d, hw⟩ := h.shape root hroot
    exact hw.within.sorted

theorem create_invariant : Invariant (create (K := K) (V := V) fun _ => true) where
  shape := by simp [create]
  links := ⟨Linked.nil _ _, by simp [create, Tree.leafIds]⟩
  count := rfl
  mem := fun _ => rfl

theorem growRoot_spec {d m : Nat} {es : List (K × V)} {heap : Heap} {count : Nat}
    {r : Insertion K V} (hspec : InsertSpec d m ⊥ ⊤ es heap count [] [] r)
    (hmem : ∀ i, heap.mem i = true) (hcount : heap.count = count)
    (hkeys : r.right = none → 1 ≤ r.node.n) :
    ∃ t, growRoot r = (true, t) ∧ Invariant t ∧ t.entries = es := by
  have hmem' : ∀ i, r.heap.mem i = true := fun i => hspec.mem ▸ hmem i
  have htotal : r.heap.count = es.length := by
    have := hspec.count
    omega
  have hshape := hspec.shape
  have hentries := hspec.entries
  have hlinks := hspec.links
  unfold growRoot
  simp only [hspec.ok, Bool.not_true, Bool.false_eq_true, if_false, Insertion.parts] at *
  cases hright : r.right with
  | none =>
    simp only [hright, Option.map_none, Option.toList_none, List.flatMap_cons,
      List.flatMap_nil, List.append_nil, List.nil_append] at hshape hentries hlinks
    have hw : Wf d m ⊥ ⊤ r.node := by simpa using hshape
    refine ⟨_, rfl, ⟨?_, hlinks, ?_, hmem'⟩, hentries⟩
    · rintro root hroot
      obtain rfl : r.node = root := by simpa using hroot
      exact ⟨d, hw.withMin (hkeys hright)⟩
    · exact htotal.trans (congrArg List.length hentries.symm)
  | some pair =>
    obtain ⟨sep, right⟩ := pair
    have hchain : Chain (Wf d btMin) ⊥ [sep] [r.node, right] ⊤ := by
      simpa [hright, Insertion.seps, Insertion.parts] using hshape
    have hroot : (Node.inner [sep] [r.node, right]).entries = es := by
      simpa [hright] using hentries
    dsimp only
    rw [if_pos (hmem' _)]
    refine ⟨_, rfl, ⟨?_, ?_, ?_, hmem'⟩, hroot⟩
    · rintro root h
      obtain rfl : Node.inner [sep] [r.node, right] = root := by simpa using h
      exact ⟨d + 1, le_rfl, Nat.le_of_ble_eq_true rfl, hchain⟩
    · simpa [hright, Tree.leafIds] using hlinks.nodeNew
    · exact htotal.trans (congrArg List.length hroot.symm)

theorem shrinkRoot_wf {d : Nat} {node : Node K V} (hw : Wf d 0 ⊥ ⊤ node) :
    (∀ root, shrinkRoot node = some root → ∃ d, Wf d 1 ⊥ ⊤ root) ∧
      ((shrinkRoot node).map Node.entries).getD [] = node.entries ∧
      (((shrinkRoot node).map Node.leafIds).getD [] = node.leafIds ∨ shrinkRoot node = none) := by
  match d, node, hw with
  | 0, .leaf _ [], hw => simp [shrinkRoot]
  | 0, .leaf id (e :: es), ⟨_, hmax, hlt, hes⟩ =>
    refine ⟨?_, rfl, Or.inl rfl⟩
    rintro root h
    obtain rfl : Node.leaf id (e :: es) = root := by simpa [shrinkRoot] using h
    exact ⟨0, by simp, hmax, hlt, hes⟩
  | d + 1, .inner [] [kid], ⟨_, _, hkid⟩ =>
    refine ⟨?_, by simp [shrinkRoot], Or.inl (by simp [shrinkRoot])⟩
    rintro root h
    obtain rfl : kid = root := by simpa [shrinkRoot] using h
    exact ⟨d, Wf.withMin hkid ((show 1 ≤ btMin by decide).trans (Wf.le_n hkid))⟩
  | d + 1, .inner (k :: ks) kids, ⟨_, hmax, hchain⟩ =>
    refine ⟨?_, rfl, Or.inl rfl⟩
    rintro root h
    obtain rfl : Node.inner (k :: ks) kids = root := by simpa [shrinkRoot] using h
    exact ⟨d + 1, by simp, hmax, hchain⟩

variable {ops : KeyOps K}

theorem btPut_spec (hops : ∀ a b, ops.compare a b = compare a b)
    (ht : Invariant t) {k : K} (hok : ops.ok k = true) (v : V) :
    ∃ t', btPut ops t k v = some (true, t') ∧ Invariant t' ∧
      t'.entries = put k v t.entries := by
  have hcount := ht.count
  have hlinks := ht.links
  unfold btPut Tree.entries
  unfold Tree.entries at hcount
  unfold Tree.leafIds at hlinks
  simp only [hok, Bool.not_true, Bool.false_eq_true, if_false]
  cases hroot : t.root with
  | none =>
    have hw : Wf 0 0 ⊥ ⊤ (Node.leaf (K := K) (V := V) t.heap.fresh []) :=
      ⟨le_rfl, Nat.zero_le _, by simp, List.Pairwise.nil, by simp, by simp⟩
    have hleaf : LeafLinks t.heap.nodeNew ([] ++ [t.heap.fresh] ++ []) := by
      refine ⟨⟨List.nodup_singleton _, ?_, ?_, trivial⟩, ?_⟩
      · simp [Heap.nodeNew]
      · simp [Heap.nodeNew]
      · simp [Heap.nodeNew]
    have hmem : ∀ i, t.heap.nodeNew.mem i = true := ht.mem
    obtain ⟨r, hr, hspec⟩ := btInsert_spec (k := k) (v := v) hops hmem hw (by simp) (by simp)
      hleaf
    have hkeys : r.right = none → 1 ≤ r.node.n := by
      intro hnone
      have hentries := hspec.entries
      rcases hspec.shape with ⟨-, hw'⟩ | ⟨hsome, -⟩
      · match hnode : r.node, hw' with
        | .leaf id es, _ =>
          have : es = [(k, v)] := by
            simpa [Insertion.parts, hnone, hnode, put] using hentries
          simp [Node.n, this]
      · simp [hnone] at hsome
    obtain ⟨t', ht', hinv, hes⟩ := growRoot_spec hspec (fun i => ht.mem i)
      (show t.heap.count = 0 by simpa [hroot] using hcount) hkeys
    dsimp only
    rw [if_pos (ht.mem _), hr]
    exact ⟨t', congrArg some ht', hinv, hes⟩
  | some root =>
    obtain ⟨d, hw⟩ := ht.shape root hroot
    have hleaves : LeafLinks t.heap ([] ++ root.leafIds ++ []) := by simpa [hroot] using hlinks
    obtain ⟨r, hr, hspec⟩ := btInsert_spec (k := k) (v := v) hops ht.mem hw (by simp) (by simp)
      hleaves
    have hkeys : r.right = none → 1 ≤ r.node.n := by
      intro hnone
      rcases hspec.shape with ⟨-, hw'⟩ | ⟨hsome, -⟩
      · exact hw'.le_n
      · simp [hnone] at hsome
    obtain ⟨t', ht', hinv, hes⟩ := growRoot_spec hspec ht.mem
      (by simpa [hroot] using hcount) hkeys
    dsimp only
    rw [hr]
    exact ⟨t', congrArg some ht', hinv, hes⟩

theorem btDel_spec (hops : ∀ a b, ops.compare a b = compare a b)
    (ht : Invariant t) {k : K} (hok : ops.ok k = true) :
    ∃ found t', btDel ops t k = some (found, t') ∧ Invariant t' ∧
      t'.entries = erase k t.entries ∧ (found = true ↔ k ∈ t.entries.map Prod.fst) := by
  have hcount := ht.count
  have hlinks := ht.links
  unfold btDel
  cases hroot : t.root with
  | none =>
    have hnil : t.entries = [] := by simp [Tree.entries, hroot]
    exact ⟨false, t, rfl, ht, by rw [hnil]; rfl, by simp [hnil]⟩
  | some root =>
    have hes : t.entries = root.entries := by simp [Tree.entries, hroot]
    have hids : t.leafIds = root.leafIds := by simp [Tree.leafIds, hroot]
    obtain ⟨d, hw⟩ := ht.shape root hroot
    rw [hes] at hcount
    have hleaves : LeafLinks t.heap ([] ++ root.leafIds ++ []) := by simpa [hids] using hlinks
    obtain ⟨r, hr, hspec⟩ := btDelete_spec (k := k) hops Nat.zero_lt_one hw (by simp) (by simp)
      hcount.ge hleaves
    obtain ⟨hshape, hentries, hkept⟩ := shrinkRoot_wf hspec.wf
    dsimp only
    rw [hok, hr, hes]
    by_cases hfound : r.found = true
    · simp only [hfound, Bool.not_true, Bool.false_eq_true, if_false, Option.bind_eq_bind,
        Option.bind_some]
      refine ⟨true, ⟨shrinkRoot r.node, r.heap⟩, rfl,
        ⟨hshape, ?_, ?_, fun i => hspec.mem ▸ ht.mem i⟩, hentries.trans hspec.entries,
        by rw [← hspec.found_iff, hfound]⟩
      · have hnew : LeafLinks r.heap r.node.leafIds := by simpa using hspec.links
        rcases hkept with hkept | hnone
        · exact (congrArg (LeafLinks r.heap) hkept).mpr hnew
        · simp only [Tree.leafIds, hnone, Option.map_none, Option.getD_none]
          exact ⟨Linked.nil _ _, by simp⟩
      · have hlen := hspec.count
        simp only [Tree.entries, hentries]
        omega
    · have hnot : k ∉ root.entries.map Prod.fst := fun hin => hfound (hspec.found_iff.mpr hin)
      have hf : r.found = false := by simpa using hfound
      simp only [hf, Bool.not_false, Bool.not_true, Bool.false_eq_true, if_false, if_true,
        Option.bind_eq_bind, Option.bind_some]
      exact ⟨false, t, rfl, ht, hes.trans (erase_of_notMem hnot).symm, by simpa using hnot⟩

theorem Op.run_spec (hops : ∀ a b, ops.compare a b = compare a b) (hok : ∀ k, ops.ok k = true) {m : K → Option V} (ht : Invariant t) (hm : Represents t.entries m)
    (op : Op K V) :
    ∃ t', op.run ops t = some t' ∧ Invariant t' ∧ Represents t'.entries (op.apply m) := by
  cases op with
  | put k v =>
    obtain ⟨t', hrun, hinv, hes⟩ := btPut_spec hops ht (hok k) v
    exact ⟨t', by simp [Op.run, hrun], hinv, hes ▸ hm.put k v⟩
  | delete k =>
    obtain ⟨found, t', hrun, hinv, hes, -⟩ := btDel_spec hops ht (hok k)
    exact ⟨t', by simp [Op.run, hrun], hinv, hes ▸ hm.erase k⟩

theorem runOps_spec (hops : ∀ a b, ops.compare a b = compare a b) (hok : ∀ k, ops.ok k = true) {m : K → Option V} (ht : Invariant t) (hm : Represents t.entries m)
    (l : List (Op K V)) :
    ∃ t', runOps ops t l = some t' ∧ Invariant t' ∧
      Represents t'.entries (l.foldl Op.apply m) := by
  induction l generalizing t m with
  | nil => exact ⟨t, rfl, ht, hm⟩
  | cons op l ih =>
    obtain ⟨t', hrun, hinv, hrep⟩ := op.run_spec hops hok ht hm
    obtain ⟨t'', hrest, h⟩ := ih hinv hrep
    exact ⟨t'', by rw [runOps, hrun]; exact hrest, h⟩

theorem runOps_create (hops : ∀ a b, ops.compare a b = compare a b)
    (hok : ∀ k, ops.ok k = true) (l : List (Op K V)) :
    ∃ t, runOps ops (create fun _ => true) l = some t ∧ Invariant t ∧
      Represents t.entries (mapOf l) :=
  runOps_spec hops hok create_invariant ⟨List.Pairwise.nil, by simp [Tree.entries, create]⟩ l

end

end Ussr.BTree
