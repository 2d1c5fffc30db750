import Ussr.BTree.Model
import Ussr.Library.LinkedList
import Ussr.Library.SeparatorChain

/-! The representation invariant of the tree. `Wf d m lo hi` holds of a subtree
of height `d` whose keys lie in `[lo, hi)`, whose root has at least `m` keys
and every other node at least `btMin`; `LeafLinks` ties the two leaf links to
the left-to-right order of the leaves. -/

namespace Ussr.BTree
open SortedEntries SeparatorChain LinkedList

variable {K V : Type}
variable {d m : Nat} {lo hi : Bound K} {node : Node K V} {heap : Heap}

namespace Node

mutual

def leaves : Node K V → List (Nat × List (K × V))
  | .leaf id es => [(id, es)]
  | .inner _ kids => leavesAll kids

def leavesAll : List (Node K V) → List (Nat × List (K × V))
  | [] => []
  | kid :: kids => leaves kid ++ leavesAll kids

end

def entries (node : Node K V) : List (K × V) :=
  node.leaves.flatMap Prod.snd

def leafIds (node : Node K V) : List Nat :=
  node.leaves.map Prod.fst

theorem leavesAll_eq (kids : List (Node K V)) : leavesAll kids = kids.flatMap leaves := by
  induction kids with
  | nil => rfl
  | cons kid kids ih => rw [leavesAll, ih, List.flatMap_cons]

@[simp] theorem entries_leaf (id : Nat) (es : List (K × V)) : (leaf id es).entries = es := by
  simp [entries, leaves]

@[simp] theorem leafIds_leaf (id : Nat) (es : List (K × V)) : (leaf id es).leafIds = [id] :=
  rfl

@[simp] theorem entries_inner (ks : List K) (kids : List (Node K V)) :
    (inner ks kids).entries = kids.flatMap entries := by
  rw [entries, leaves, leavesAll_eq, List.flatMap_assoc]
  rfl

@[simp] theorem leafIds_inner (ks : List K) (kids : List (Node K V)) :
    (inner ks kids).leafIds = kids.flatMap leafIds := by
  rw [leafIds, leaves, leavesAll_eq, List.map_flatMap]
  rfl

end Node

section

variable [LinearOrder K]

def Wf : (d m : Nat) → Bound K → Bound K → Node K V → Prop
  | 0, m, lo, hi, .leaf _ es =>
    m ≤ es.length ∧ es.length ≤ btMax ∧ lo < hi ∧ Within lo hi es
  | d + 1, m, lo, hi, .inner ks kids =>
    m ≤ ks.length ∧ ks.length ≤ btMax ∧ Chain (Wf d btMin) lo ks kids hi
  | _, _, _, _, _ => False

theorem Wf.lt (h : Wf d m lo hi node) :
    lo < hi := by
  induction d generalizing m lo hi node with
  | zero =>
    match node, h with
    | .leaf _ _, h => exact h.2.2.1
  | succ d ih =>
    match node, h with
    | .inner _ _, h => exact (h.2.2.bounds ih).1

theorem Wf.within (h : Wf d m lo hi node) :
    Within lo hi node.entries := by
  induction d generalizing m lo hi node with
  | zero =>
    match node, h with
    | .leaf _ _, h => simpa using h.2.2.2
  | succ d ih =>
    match node, h with
    | .inner _ _, h => simpa using h.2.2.within Wf.lt ih

theorem Wf.n_le (h : Wf d m lo hi node) :
    node.n ≤ btMax := by
  match d, node, h with
  | 0, .leaf _ _, h => exact h.2.1
  | _ + 1, .inner _ _, h => exact h.2.1

theorem Wf.le_n (h : Wf d m lo hi node) :
    m ≤ node.n := by
  match d, node, h with
  | 0, .leaf _ _, h => exact h.1
  | _ + 1, .inner _ _, h => exact h.1

theorem Wf.withMin {m' : Nat} (h : Wf d m lo hi node)
    (hm : m' ≤ node.n) : Wf d m' lo hi node := by
  match d, node, h with
  | 0, .leaf _ _, h => exact ⟨hm, h.2⟩
  | _ + 1, .inner _ _, h => exact ⟨hm, h.2⟩

theorem Wf.keys_sorted
    (h : Wf d m lo hi node) : node.keys.Pairwise (· < ·) := by
  match d, node, h with
  | 0, .leaf _ es, h => exact List.pairwise_map.mpr h.2.2.2.sorted
  | _ + 1, .inner _ _, h => exact (h.2.2.bounds Wf.lt).2.2

end

/-- The leaves `ids` are linked in this order and all have been allocated. -/
structure LeafLinks (heap : Heap) (ids : List Nat) : Prop where
  linked : Linked heap.next heap.prev ids
  below : ∀ id ∈ ids, id < heap.fresh

theorem LeafLinks.setCount {ids : List Nat} (h : LeafLinks heap ids) (c : Nat) :
    LeafLinks { heap with count := c } ids :=
  ⟨h.linked, h.below⟩

theorem LeafLinks.nodeNew {ids : List Nat} (h : LeafLinks heap ids) :
    LeafLinks heap.nodeNew ids := by
  have hne : ∀ x ∈ ids, x ≠ heap.fresh := fun x hx => (h.below x hx).ne
  refine ⟨⟨h.linked.nodup, h.linked.segment.congr ?_ ?_⟩, ?_⟩
  · exact fun x hx => Function.update_of_ne (hne x hx) _ _
  · exact fun x hx => Function.update_of_ne (hne x hx) _ _
  · exact fun x hx => (h.below x hx).trans (Nat.lt_succ_self _)

theorem LeafLinks.linkAfter {xs ys : List Nat} {a : Nat}
    (h : LeafLinks heap (xs ++ a :: ys)) :
    LeafLinks (heap.nodeNew.linkAfter a heap.fresh) (xs ++ a :: heap.fresh :: ys) := by
  have hfresh : heap.fresh ∉ xs ++ a :: ys := fun hin => (h.below _ hin).ne rfl
  have ha : a ≠ heap.fresh := (h.below a (by simp)).ne
  have hnew := h.nodeNew
  have hsucc : heap.nodeNew.next a ≠ some heap.fresh := by
    intro hsome
    obtain ⟨i, hi⟩ := List.getElem?_of_mem (show a ∈ xs ++ a :: ys by simp)
    rw [hnew.linked.segment.next_getElem hi] at hsome
    exact hfresh (List.mem_of_getElem? hsome)
  refine ⟨hnew.linked.insertAfter hfresh ?_ ?_ ?_ ?_ ?_, ?_⟩
  · simp [Heap.linkAfter, Function.update_of_ne ha.symm]
  · simp [Heap.linkAfter]
  · intro x hx hxa
    have hxr : x ≠ heap.fresh := fun hxr => hfresh (hxr ▸ hx)
    simp [Heap.linkAfter, Function.update_of_ne hxa, Function.update_of_ne hxr]
  · unfold Heap.linkAfter
    cases hn : heap.nodeNew.next a with
    | none => simp
    | some y =>
      have hy : heap.fresh ≠ y := fun hy => hsucc (hn.trans (congrArg some hy.symm))
      simp [Function.update_of_ne hy]
  · intro x hx
    have hxr : x ≠ heap.fresh := fun hxr => hfresh (hxr ▸ hx)
    unfold Heap.linkAfter
    cases hn : heap.nodeNew.next a with
    | none => simp [Function.update_of_ne hxr]
    | some y =>
      by_cases hxy : x = y
      · simp [hxy]
      · simp [Function.update_of_ne hxy, Function.update_of_ne hxr, Ne.symm hxy]
  · intro x hx
    have hx' : x = heap.fresh ∨ x ∈ xs ++ a :: ys := by
      simp only [List.mem_append, List.mem_cons] at hx ⊢
      tauto
    rcases hx' with rfl | hx'
    · exact Nat.lt_succ_self _
    · exact (h.below x hx').trans (Nat.lt_succ_self _)

theorem LeafLinks.unlinkAfter {xs ys : List Nat} {a b : Nat}
    (h : LeafLinks heap (xs ++ a :: b :: ys)) :
    LeafLinks (heap.unlinkAfter a b) (xs ++ a :: ys) := by
  refine ⟨h.linked.removeAfter ?_ ?_ ?_, ?_⟩
  · simp [Heap.unlinkAfter]
  · intro x hx
    have hxa : x ≠ a := by
      rintro rfl
      have hnodup := h.linked.nodup
      rw [List.nodup_middle] at hnodup
      refine (List.nodup_cons.mp hnodup).1 ?_
      simp only [List.mem_append, List.mem_cons] at hx ⊢
      tauto
    simp [Heap.unlinkAfter, Function.update_of_ne hxa]
  · intro x hx
    unfold Heap.unlinkAfter
    cases hn : heap.next b with
    | none => simp
    | some y =>
      by_cases hxy : x = y
      · simp [hxy]
      · simp [Function.update_of_ne hxy, Ne.symm hxy]
  · intro x hx
    refine h.below x ?_
    simp only [List.mem_append, List.mem_cons] at hx ⊢
    tauto

section

variable [LinearOrder K] {ops : KeyOps K} (hops : ∀ a b, ops.compare a b = compare a b)
include hops

theorem btUpper_split {ks : List K} (h : ks.Pairwise (· < ·)) (k : K) :
    ∃ as bs, ks = as ++ bs ∧ btUpper ops ks k = as.length ∧
      (∀ a ∈ as, a ≤ k) ∧ ∀ b ∈ bs, k < b := by
  have htest : ∀ a, (ops.compare a k != .gt) = true ↔ a ≤ k := by
    intro a
    rw [hops, bne_iff_ne, compare_le_iff_le]
  have hmono : ks.Pairwise fun a b => (ops.compare b k != .gt) → (ops.compare a k != .gt) :=
    h.imp fun hab hb => (htest _).mpr (hab.le.trans ((htest _).mp hb))
  obtain ⟨as, bs, hks, hlen, has, hbs⟩ := Bisection.bisect_split hmono
  exact ⟨as, bs, hks, hlen, fun a ha => (htest a).mp (has a ha),
    fun b hb => not_le.mp fun hle => hbs b hb ((htest b).mpr hle)⟩

theorem btLower_split {ks : List K} (h : ks.Pairwise (· < ·)) (k : K) :
    ∃ as bs, ks = as ++ bs ∧ btLower ops ks k = as.length ∧
      (∀ a ∈ as, a < k) ∧ ∀ b ∈ bs, k ≤ b := by
  have htest : ∀ a, (ops.compare a k == .lt) = true ↔ a < k := by
    intro a
    rw [hops, beq_iff_eq, compare_lt_iff_lt]
  have hmono : ks.Pairwise fun a b => (ops.compare b k == .lt) → (ops.compare a k == .lt) :=
    h.imp fun hab hb => (htest _).mpr (hab.trans ((htest _).mp hb))
  obtain ⟨as, bs, hks, hlen, has, hbs⟩ := Bisection.bisect_split hmono
  exact ⟨as, bs, hks, hlen, fun a ha => (htest a).mp (has a ha),
    fun b hb => not_lt.mp fun hlt => hbs b hb ((htest b).mpr hlt)⟩

theorem btLower_entries {es : List (K × V)} (h : Sorted es) (k : K) :
    ∃ as bs, es = as ++ bs ∧ btLower ops (es.map Prod.fst) k = as.length ∧
      (∀ e ∈ as, e.1 < k) ∧ ∀ e ∈ bs, k ≤ e.1 := by
  obtain ⟨as, bs, hes, hlen, has, hbs⟩ := btLower_split hops (List.pairwise_map.mpr h) k
  obtain ⟨as', bs', rfl, rfl, rfl⟩ := List.map_eq_append_iff.mp hes
  exact ⟨as', bs', rfl, hlen.trans (List.length_map _),
    fun e he => has e.1 (List.mem_map_of_mem he), fun e he => hbs e.1 (List.mem_map_of_mem he)⟩

theorem exists_descent {ks : List K} {kids : List (Node K V)} {k : K}
    (hchain : Chain (Wf d m) lo ks kids hi) (hlo : lo ≤ key k) (hhi : key k < hi) :
    ∃ ks₁ ks₂ as₁ kid as₂ l h, ks = ks₁ ++ ks₂ ∧ kids = as₁ ++ kid :: as₂ ∧
      as₁.length = ks₁.length ∧ as₂.length = ks₂.length ∧
      btUpper ops ks k = ks₁.length ∧ Wf d m l h kid ∧ l ≤ key k ∧ key k < h ∧
      Focus (Wf d m) lo hi l h ks₁ ks₂ as₁ as₂ := by
  obtain ⟨ks₁, ks₂, rfl, hidx, hle, hgt⟩ := btUpper_split hops (hchain.bounds Wf.lt).2.2 k
  have hlength := hchain.length
  rw [List.length_append] at hlength
  have hlt : ks₁.length < kids.length := by omega
  have hcut : kids = kids.take ks₁.length ++ kids[ks₁.length] :: kids.drop (ks₁.length + 1) := by
    rw [← List.drop_eq_getElem_cons hlt, List.take_append_drop]
  have hleft : (kids.take ks₁.length).length = ks₁.length := List.length_take_of_le hlt.le
  have hright : (kids.drop (ks₁.length + 1)).length = ks₂.length := by
    rw [List.length_drop]
    omega
  have hchain' : Chain (Wf d m) lo (ks₁ ++ [] ++ ks₂) (kids.take ks₁.length ++
      [kids[ks₁.length]] ++ kids.drop (ks₁.length + 1)) hi := by simpa using hchain
  obtain ⟨l, h, hkid, hfoc⟩ := Chain.focus Wf.lt hleft rfl hchain'
  obtain ⟨hl, hh⟩ := hfoc.contains hlo hhi hle hgt
  exact ⟨ks₁, ks₂, _, _, _, l, h, rfl, hcut, hleft, hright, hidx, hkid, hl, hh, hfoc⟩

end

end Ussr.BTree
