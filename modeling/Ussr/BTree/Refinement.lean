import Mathlib.Data.Set.Card
import Ussr.BTree.Query
import Ussr.BTree.Soundness

/-! The tree refines an ordered map. A position stands for a cut of the sorted
entry list; the searches find the cut between the entries that pass a test
and those that do not, whatever the separators on the way are called. -/

namespace Ussr.BTree
open SortedEntries SeparatorChain LinkedList

variable {K V : Type}
variable {pre post : List (K × V)} {d : Nat} {lo hi : Bound K} {node : Node K V}

theorem Tree.entries_eq (t : Tree K V) : t.entries = t.leaves.flatMap Prod.snd := by
  unfold Tree.entries Tree.leaves
  cases t.root <;> rfl

theorem Tree.leafIds_eq (t : Tree K V) : t.leafIds = t.leaves.map Prod.fst := by
  unfold Tree.leafIds Tree.leaves
  cases t.root <;> rfl

structure Chained (t : Tree K V) : Prop where
  first : t.root.bind firstLeaf = t.leaves.head?
  links : LeafLinks t.heap t.leafIds

section

variable {t : Tree K V} {as bs : List (Nat × List (K × V))} {id : Nat} {es : List (K × V)}

theorem LeafLinks.leafAt (h : LeafLinks t.heap t.leafIds) (hl : t.leaves = as ++ (id, es) :: bs) :
    t.leafAt id = some es := by
  have hnodup := h.linked.nodup
  rw [Tree.leafIds_eq, hl, List.map_append, List.map_cons] at hnodup
  have has : ∀ leaf ∈ as, ¬ (leaf.1 == id) = true := by
    intro leaf hleaf heq
    exact List.disjoint_of_nodup_append hnodup (List.mem_map_of_mem hleaf)
      (List.mem_cons.mpr (Or.inl (beq_iff_eq.mp heq)))
  have hnone : as.find? (fun leaf => leaf.1 == id) = none := List.find?_eq_none.mpr has
  rw [Tree.leafAt, hl, List.find?_append, hnone, Option.none_or]
  simp

theorem LeafLinks.next_leaf (h : LeafLinks t.heap t.leafIds)
    (hl : t.leaves = as ++ (id, es) :: bs) : t.heap.next id = (bs.map Prod.fst).head? := by
  have hids : t.leafIds = as.map Prod.fst ++ id :: bs.map Prod.fst := by
    rw [Tree.leafIds_eq, hl, List.map_append, List.map_cons]
  have hseg := h.linked.segment
  rw [hids] at hseg
  simpa using (segment_append.mp hseg).2.2.1

end

theorem eachFrom_eq {t : Tree K V} (h : LeafLinks t.heap t.leafIds)
    {as bs : List (Nat × List (K × V))} (hl : t.leaves = as ++ bs) {fuel : Nat}
    (hfuel : bs.length < fuel) :
    eachFrom t fuel (bs.map Prod.fst).head? = some (bs.flatMap Prod.snd |>.map Prod.snd) := by
  induction bs generalizing as fuel with
  | nil =>
    obtain ⟨fuel, rfl⟩ := Nat.exists_eq_add_one_of_ne_zero (Nat.ne_of_gt hfuel)
    rfl
  | cons leaf bs ih =>
    obtain ⟨fuel, rfl⟩ := Nat.exists_eq_add_one_of_ne_zero (by omega : fuel ≠ 0)
    have hsplit : t.leaves = (as ++ [leaf]) ++ bs := by simp [hl]
    have hrest := ih hsplit (Nat.lt_of_succ_lt_succ hfuel)
    rw [List.map_cons, List.head?_cons, eachFrom, h.leafAt hl, h.next_leaf hl, hrest]
    simp

theorem Chained.eachValue_eq {t : Tree K V} (h : Chained t) :
    eachValue t = some (t.entries.map Prod.snd) := by
  have hwalk := eachFrom_eq h.links (List.nil_append t.leaves).symm (Nat.lt_succ_self _)
  rwa [List.head?_map, ← h.first, ← t.entries_eq] at hwalk

section

variable [LinearOrder K]

theorem Wf.leaves_ne_nil {m : Nat}
    (hw : Wf d m lo hi node) (hm : 0 < m) : ∀ leaf ∈ node.leaves, leaf.2 ≠ [] := by
  induction d generalizing m lo hi node with
  | zero =>
    cases node with
    | inner ks kids => exact hw.elim
    | leaf id es =>
      intro leaf hleaf
      have heq : leaf = (id, es) := by simpa [Node.leaves] using hleaf
      subst heq
      exact List.ne_nil_of_length_pos (hm.trans_le hw.1)
  | succ d ih =>
    cases node with
    | leaf id es => exact hw.elim
    | inner ks kids =>
      intro leaf hleaf
      rw [Node.leaves, Node.leavesAll_eq] at hleaf
      obtain ⟨kid, hkid, hin⟩ := List.mem_flatMap.mp hleaf
      obtain ⟨_, _, hwk⟩ := hw.2.2.exists_of_mem hkid
      exact ih hwk (by decide) leaf hin

theorem Invariant.leaves_ne_nil {t : Tree K V} (h : Invariant t) :
    ∀ leaf ∈ t.leaves, leaf.2 ≠ [] := by
  unfold Tree.leaves
  cases hroot : t.root with
  | none => simp
  | some root =>
    obtain ⟨d, hw⟩ := h.shape root hroot
    exact hw.leaves_ne_nil Nat.zero_lt_one

section

variable {t : Tree K V} {as bs : List (Nat × List (K × V))} {id : Nat} {es : List (K × V)}

theorem Invariant.leafAt (h : Invariant t) (hl : t.leaves = as ++ (id, es) :: bs) :
    t.leafAt id = some es :=
  h.links.leafAt hl

theorem Invariant.next_leaf (h : Invariant t) (hl : t.leaves = as ++ (id, es) :: bs) :
    t.heap.next id = (bs.map Prod.fst).head? :=
  h.links.next_leaf hl

theorem Invariant.prev_leaf (h : Invariant t) (hl : t.leaves = as ++ (id, es) :: bs) :
    t.heap.prev id = (as.map Prod.fst).getLast? := by
  have hids : t.leafIds = as.map Prod.fst ++ id :: bs.map Prod.fst := by
    rw [Tree.leafIds_eq, hl, List.map_append, List.map_cons]
  have hseg := h.links.linked.segment
  rw [hids] at hseg
  simpa using (segment_append.mp hseg).2.1

end

/-- The position `p` cuts the entries of `t` into `pre` and a nonempty `post`. -/
def Cut (t : Tree K V) (id i : Nat) (pre post : List (K × V)) : Prop :=
  ∃ as bs es₁ es₂, t.leaves = as ++ (id, es₁ ++ es₂) :: bs ∧ i = es₁.length ∧ es₂ ≠ [] ∧
    pre = as.flatMap Prod.snd ++ es₁ ∧ post = es₂ ++ bs.flatMap Prod.snd

/-- A position before the entries `post`; NULL when there are none. -/
def At (t : Tree K V) (pre post : List (K × V)) : Pos → Prop
  | none => post = []
  | some (id, i) => Cut t id i pre post

theorem At.entryAt {t : Tree K V} (h : Invariant t) {p : Pos}
    (hp : At t pre post p) : entryAt t p = some post.head? := by
  match p, hp with
  | none, hp => rw [show post = [] from hp]; rfl
  | some (id, i), ⟨as, bs, es₁, es₂, hl, hi, hne, _, hpost⟩ =>
    obtain ⟨e, es₂, rfl⟩ := List.exists_cons_of_ne_nil hne
    subst hi hpost
    simp [BTree.entryAt, h.leafAt hl]

section

variable {ops : KeyOps K} (hops : ∀ a b, ops.compare a b = compare a b)
include hops

omit [LinearOrder K] hops in
theorem leafForKid_append (k : K) (as bs : List (Node K V)) (kid : Node K V) :
    leafForKid ops k (as ++ kid :: bs) as.length = leafFor ops k kid := by
  induction as with
  | nil => rfl
  | cons a as ih => exact ih

/-- The leaf that the descent finds: all entries before it are smaller than the key,
all entries after it are greater. -/
theorem leafFor_spec {m : Nat} {k : K}
    (hw : Wf d m lo hi node) (hlo : lo ≤ key k) (hhi : key k < hi) :
    ∃ as id es bs, leafFor ops k node = some (id, es) ∧ node.leaves = as ++ (id, es) :: bs ∧
      Sorted es ∧ (∀ e ∈ as.flatMap Prod.snd, e.1 < k) ∧ ∀ e ∈ bs.flatMap Prod.snd, k < e.1 := by
  induction d generalizing m lo hi node with
  | zero =>
    match node, hw with
    | .leaf id es, hw => exact ⟨[], id, es, [], rfl, rfl, hw.2.2.2.sorted, by simp, by simp⟩
  | succ d ih =>
    match node, hw with
    | .inner ks kids, ⟨_, _, hchain⟩ =>
      obtain ⟨ks₁, ks₂, as₁, kid, as₂, l, h, rfl, rfl, hlen₁, -, hidx, hkid, hl, hh, hfoc⟩ :=
        exists_descent hops hchain hlo hhi
      obtain ⟨as, id, es, bs, hleaf, hleaves, hes, has, hbs⟩ := ih hkid hl hh
      refine ⟨as₁.flatMap Node.leaves ++ as, id, es, bs ++ as₂.flatMap Node.leaves, ?_, ?_, hes,
        ?_, ?_⟩
      · rw [leafFor, hidx, ← hlen₁, leafForKid_append, hleaf]
      · rw [Node.leaves, Node.leavesAll_eq, List.flatMap_append, List.flatMap_cons, hleaves]
        simp
      · intro e he
        rw [List.flatMap_append, List.flatMap_assoc] at he
        rcases List.mem_append.mp he with he | he
        · exact hfoc.lt_left Wf.within hl e he
        · exact has e he
      · intro e he
        rw [List.flatMap_append, List.flatMap_assoc] at he
        rcases List.mem_append.mp he with he | he
        · exact hbs e he
        · exact hfoc.lt_right Wf.within hh e he

theorem Invariant.leafFor {t : Tree K V} (h : Invariant t) (k : K) :
    (t.root.bind (BTree.leafFor ops k) = none ∧ t.leaves = []) ∨
      ∃ as id es bs, t.root.bind (BTree.leafFor ops k) = some (id, es) ∧
        t.leaves = as ++ (id, es) :: bs ∧ Sorted es ∧
        (∀ e ∈ as.flatMap Prod.snd, e.1 < k) ∧ ∀ e ∈ bs.flatMap Prod.snd, k < e.1 := by
  unfold Tree.leaves
  cases hroot : t.root with
  | none => exact Or.inl ⟨rfl, rfl⟩
  | some root =>
    obtain ⟨d, hw⟩ := h.shape root hroot
    exact Or.inr (leafFor_spec hops hw (by simp) (by simp))

theorem leaf_split {es : List (K × V)} (hes : Sorted es) (k : K) (weak : Bool) :
    ∃ es₁ es₂, es = es₁ ++ es₂ ∧
      (if weak then btUpper ops (es.map Prod.fst) k
        else btLower ops (es.map Prod.fst) k) = es₁.length ∧
      (∀ e ∈ es₁, if weak then e.1 ≤ k else e.1 < k) ∧
      ∀ e ∈ es₂, ¬ if weak then e.1 ≤ k else e.1 < k := by
  cases weak with
  | false =>
    obtain ⟨es₁, es₂, h, hi, h₁, h₂⟩ := btLower_entries hops hes k
    exact ⟨es₁, es₂, h, hi, h₁, fun e he => (h₂ e he).not_gt⟩
  | true =>
    obtain ⟨ks₁, ks₂, h, hi, h₁, h₂⟩ := btUpper_split hops (List.pairwise_map.mpr hes) k
    obtain ⟨es₁, es₂, rfl, rfl, rfl⟩ := List.map_eq_append_iff.mp h
    exact ⟨es₁, es₂, rfl, hi.trans (List.length_map _),
      fun e he => h₁ e.1 (List.mem_map_of_mem he),
      fun e he => (h₂ e.1 (List.mem_map_of_mem he)).not_ge⟩

end

structure SplitBy (t : Tree K V) (p : K → Prop) (pre post : List (K × V)) : Prop where
  entries : t.entries = pre ++ post
  pass : ∀ e ∈ pre, p e.1
  fail : ∀ e ∈ post, ¬ p e.1

section

variable {t : Tree K V} (h : Invariant t) {as bs : List (Nat × List (K × V))} {id : Nat}
  {es₁ es₂ : List (K × V)} (hl : t.leaves = as ++ (id, es₁ ++ es₂) :: bs)
include h hl

theorem skipForward_at :
    ∃ p, skipForward t (t.leaves.length + 1) (some id) es₁.length = some p ∧
      At t (as.flatMap Prod.snd ++ es₁) (es₂ ++ bs.flatMap Prod.snd) p := by
  have hfuel : ∃ fuel, t.leaves.length = fuel + 1 :=
    ⟨as.length + bs.length, by rw [hl]; simp; omega⟩
  obtain ⟨fuel, hfuel⟩ := hfuel
  rw [hfuel, skipForward, h.leafAt hl]
  dsimp only [Option.bind_eq_bind, Option.bind_some]
  by_cases hend : es₂ = []
  · subst hend
    rw [if_pos (by simp), h.next_leaf hl]
    cases bs with
    | nil => exact ⟨none, rfl, rfl⟩
    | cons b bs =>
      obtain ⟨id', es'⟩ := b
      have hl' : t.leaves = (as ++ [(id, es₁ ++ [])]) ++ (id', [] ++ es') :: bs := by
        rw [hl]
        simp
      have hne : es' ≠ [] := h.leaves_ne_nil (id', es') (by simp [hl])
      refine ⟨some (id', 0), ?_, ⟨_, bs, [], es', hl', rfl, hne, by simp, by simp⟩⟩
      rw [List.map_cons, List.head?_cons, skipForward, h.leafAt hl']
      dsimp only [Option.bind_eq_bind, Option.bind_some]
      rw [if_neg]
      simpa using hne
  · rw [if_neg]
    · exact ⟨_, rfl, ⟨as, bs, es₁, es₂, hl, rfl, hend, rfl, rfl⟩⟩
    · have := List.length_pos_of_ne_nil hend
      simp only [List.length_append]
      omega

theorem skipBack_at :
    ∃ p, skipBack t (t.leaves.length + 1) (some id) (es₁.length - 1 : Int) = some p ∧
      entryAt t p = some (as.flatMap Prod.snd ++ es₁).getLast? := by
  have hfuel : ∃ fuel, t.leaves.length = fuel + 1 :=
    ⟨as.length + bs.length, by rw [hl]; simp; omega⟩
  obtain ⟨fuel, hfuel⟩ := hfuel
  rw [hfuel, skipBack]
  rcases List.eq_nil_or_concat' es₁ with rfl | ⟨es, e, rfl⟩
  · rw [if_pos (by simp), h.prev_leaf hl]
    rcases List.eq_nil_or_concat' as with rfl | ⟨as, ⟨id', es'⟩, rfl⟩
    · exact ⟨none, rfl, rfl⟩
    · have hl' : t.leaves = as ++ (id', es') :: (id, [] ++ es₂) :: bs := by
        rw [hl]
        simp
      have hne : es' ≠ [] := h.leaves_ne_nil (id', es') (by simp [hl])
      obtain ⟨es, e, rfl⟩ := (List.eq_nil_or_concat' es').resolve_left hne
      refine ⟨some (id', es.length), ?_, ?_⟩
      · simp [h.leafAt hl', skipBack]
      · simp [BTree.entryAt, h.leafAt hl', List.getLast?_append]
  · refine ⟨some (id, es.length), ?_, ?_⟩
    · rw [if_neg (by simp)]
      simp
    · simp [BTree.entryAt, h.leafAt hl, List.getLast?_append]

end

section

variable {ops : KeyOps K} (hops : ∀ a b, ops.compare a b = compare a b)
include hops

theorem seek_spec {t : Tree K V} (h : Invariant t) (k : K) (strict : Bool) :
    ∃ pre post p, seek ops t k strict = some p ∧ At t pre post p ∧
      SplitBy t (fun q => if strict then q ≤ k else q < k) pre post := by
  unfold seek
  rcases h.leafFor hops k with ⟨hnone, hl⟩ | ⟨as, id, es, bs, hleaf, hl, hes, has, hbs⟩
  · rw [hnone]
    exact ⟨[], [], none, rfl, rfl, by simp [t.entries_eq, hl], by simp, by simp⟩
  · obtain ⟨es₁, es₂, rfl, hidx, h₁, h₂⟩ := leaf_split hops hes k strict
    obtain ⟨p, hp, hat⟩ := skipForward_at h hl
    rw [hleaf]
    dsimp only
    rw [hidx]
    refine ⟨_, _, p, hp, hat, ⟨by simp [t.entries_eq, hl], fun e he => ?_, fun e he => ?_⟩⟩
    · rcases List.mem_append.mp he with he | he
      · have := has e he
        split_ifs
        · exact this.le
        · exact this
      · exact h₁ e he
    · rcases List.mem_append.mp he with he | he
      · exact h₂ e he
      · have := hbs e he
        split_ifs
        · exact this.not_ge
        · exact this.not_gt

theorem seekBack_spec {t : Tree K V} (h : Invariant t) (k : K) (strict : Bool) :
    ∃ pre post p, seekBack ops t k strict = some p ∧ entryAt t p = some pre.getLast? ∧
      SplitBy t (fun q => if strict then q < k else q ≤ k) pre post := by
  unfold seekBack
  rcases h.leafFor hops k with ⟨hnone, hl⟩ | ⟨as, id, es, bs, hleaf, hl, hes, has, hbs⟩
  · rw [hnone]
    exact ⟨[], [], none, rfl, rfl, by simp [t.entries_eq, hl], by simp, by simp⟩
  · obtain ⟨es₁, es₂, rfl, hidx, h₁, h₂⟩ := leaf_split hops hes k (!strict)
    have hidx' : (if strict = true then btLower ops ((es₁ ++ es₂).map Prod.fst) k
        else btUpper ops ((es₁ ++ es₂).map Prod.fst) k) = es₁.length := by
      cases strict <;> exact hidx
    obtain ⟨p, hp, hat⟩ := skipBack_at h hl
    rw [hleaf]
    dsimp only
    refine ⟨_, es₂ ++ bs.flatMap Prod.snd, p, ?_, hat, ⟨by simp [t.entries_eq, hl],
      fun e he => ?_, fun e he => ?_⟩⟩
    · rw [← hp, ← hidx']
    · rcases List.mem_append.mp he with he | he
      · have := has e he
        split_ifs
        · exact this
        · exact this.le
      · cases strict <;> exact h₁ e he
    · rcases List.mem_append.mp he with he | he
      · cases strict <;> exact h₂ e he
      · have := hbs e he
        split_ifs
        · exact this.not_gt
        · exact this.not_ge

end

theorem Wf.firstLeaf {m : Nat}
    (hw : Wf d m lo hi node) :
    ∃ id es bs, firstLeaf node = some (id, es) ∧ node.leaves = (id, es) :: bs := by
  induction d generalizing m lo hi node with
  | zero =>
    match node, hw with
    | .leaf id es, _ => exact ⟨id, es, [], rfl, rfl⟩
  | succ d ih =>
    match node, hw with
    | .inner ks [], hw => exact absurd hw.2.2.length (by simp)
    | .inner ks (kid :: kids), hw =>
      obtain ⟨_, _, hwk⟩ := hw.2.2.exists_of_mem List.mem_cons_self
      obtain ⟨id, es, bs, hfirst, hl⟩ := ih hwk
      exact ⟨id, es, bs ++ Node.leavesAll kids, hfirst, by rw [Node.leaves, Node.leavesAll, hl]; rfl⟩

omit [LinearOrder K] in
theorem lastLeafKid_append (as bs : List (Node K V)) (kid : Node K V) :
    lastLeafKid (as ++ kid :: bs) as.length = lastLeaf kid := by
  induction as with
  | nil => rfl
  | cons a as ih => exact ih

theorem Wf.lastLeaf {m : Nat}
    (hw : Wf d m lo hi node) :
    ∃ as id es, lastLeaf node = some (id, es) ∧ node.leaves = as ++ [(id, es)] := by
  induction d generalizing m lo hi node with
  | zero =>
    match node, hw with
    | .leaf id es, _ => exact ⟨[], id, es, rfl, rfl⟩
  | succ d ih =>
    match node, hw with
    | .inner ks kids, hw =>
      have hlen := hw.2.2.length
      obtain ⟨kids, kid, rfl⟩ := List.eq_nil_or_concat' kids |>.resolve_left
        (List.ne_nil_of_length_pos (by omega))
      obtain ⟨_, _, hwk⟩ := hw.2.2.exists_of_mem (a := kid) (by simp)
      obtain ⟨as, id, es, hlast, hl⟩ := ih hwk
      refine ⟨kids.flatMap Node.leaves ++ as, id, es, ?_, ?_⟩
      · have hidx : ks.length = kids.length := by simpa using hlen.symm
        rw [BTree.lastLeaf, hidx, lastLeafKid_append, hlast]
      · rw [Node.leaves, Node.leavesAll_eq, List.flatMap_append, List.flatMap_cons, hl]
        simp

theorem first_at {t : Tree K V} (h : Invariant t) : At t [] t.entries (first t) := by
  unfold first
  rw [t.entries_eq]
  cases hroot : t.root with
  | none => simp [Tree.leaves, hroot, At]
  | some root =>
    obtain ⟨d, hw⟩ := h.shape root hroot
    obtain ⟨id, es, bs, hfirst, hl⟩ := hw.firstLeaf
    have hleaves : t.leaves = (id, es) :: bs := by simp [Tree.leaves, hroot, hl]
    have hne : es ≠ [] := h.leaves_ne_nil (id, es) (by simp [hleaves])
    rw [Option.bind_some, hfirst]
    dsimp only
    rw [if_neg (by simpa using hne)]
    exact ⟨[], bs, [], es, hleaves, rfl, hne, rfl, by rw [hleaves]; rfl⟩

theorem last_entry {t : Tree K V} (h : Invariant t) :
    entryAt t (last t) = some t.entries.getLast? := by
  unfold last
  rw [t.entries_eq]
  cases hroot : t.root with
  | none => simp [Tree.leaves, hroot, entryAt]
  | some root =>
    obtain ⟨d, hw⟩ := h.shape root hroot
    obtain ⟨as, id, es, hlast, hl⟩ := hw.lastLeaf
    have hleaves : t.leaves = as ++ (id, es) :: [] := by simp [Tree.leaves, hroot, hl]
    have hne : es ≠ [] := h.leaves_ne_nil (id, es) (by simp [hleaves])
    obtain ⟨es, e, rfl⟩ := (List.eq_nil_or_concat' es).resolve_left hne
    rw [Option.bind_some, hlast]
    dsimp only
    rw [if_neg (by simp)]
    simp [entryAt, h.leafAt hleaves, hleaves, List.getLast?_append]

theorem Cut.step {t : Tree K V} (h : Invariant t) {id i : Nat} {e : K × V} (hc : Cut t id i pre (e :: post)) :
    ∃ es, t.leafAt id = some es ∧ es[i]? = some e ∧
      At t (pre ++ [e]) post
        (if es.length ≤ i + 1 then (t.heap.next id).map (·, 0) else some (id, i + 1)) := by
  obtain ⟨as, bs, es₁, es₂, hl, rfl, hne, rfl, hpost⟩ := hc
  obtain ⟨e', es₂, rfl⟩ := List.exists_cons_of_ne_nil hne
  obtain ⟨rfl, rfl⟩ := List.cons.inj hpost
  refine ⟨_, h.leafAt hl, by simp, ?_⟩
  by_cases hend : es₂ = []
  · subst hend
    rw [if_pos (by simp), h.next_leaf hl]
    cases bs with
    | nil => rfl
    | cons b bs =>
      obtain ⟨id', es'⟩ := b
      have hne' : es' ≠ [] := h.leaves_ne_nil (id', es') (by simp [hl])
      exact ⟨as ++ [(id, es₁ ++ [e])], bs, [], es', by rw [hl]; simp, rfl, hne', by simp, by simp⟩
  · have := List.length_pos_of_ne_nil hend
    rw [if_neg (by simp only [List.length_append, List.length_cons]; omega)]
    exact ⟨as, bs, es₁ ++ [e], es₂, by rw [hl]; simp, by simp, hend, by simp, rfl⟩

/-- The first `limit` entries counted from `taken`, all of them when `limit` is negative. -/
def upTo {α : Type} (limit : Int) (taken : Nat) (l : List α) : List α :=
  if limit < 0 then l else l.take (limit.toNat - taken)

theorem rangeLoop_spec {ops : KeyOps K} {t : Tree K V} (h : Invariant t) (hi : Option K)
    (limit : Int) {fuel taken : Nat} {p : Pos}
    (hat : At t pre post p) (hfuel : post.length < fuel) :
    rangeLoop ops t hi limit fuel taken p = some (upTo limit taken
      (post.takeWhile fun e => !hi.any fun h => ops.compare e.1 h != .lt)) := by
  induction fuel generalizing taken p pre post with
  | zero => omega
  | succ fuel ih =>
    match p, hat with
    | none, hat =>
      obtain rfl : post = [] := hat
      simp [rangeLoop, upTo]
    | some (id, i), hat =>
      have hne : post ≠ [] := by
        obtain ⟨_, _, _, _, _, _, hne, _, rfl⟩ := hat
        simp [hne]
      obtain ⟨e, post, rfl⟩ := List.exists_cons_of_ne_nil hne
      obtain ⟨es, hes, hget, hnext⟩ := Cut.step h hat
      rw [rangeLoop]
      by_cases hlim : limit < 0 ∨ (taken : Int) < limit
      · rw [if_pos hlim, hes]
        dsimp only [Option.bind_eq_bind, Option.bind_some]
        rw [hget]
        dsimp only [Option.bind_some]
        by_cases hstop : (hi.any fun h => ops.compare e.1 h != .lt) = true
        · rw [if_pos hstop, List.takeWhile_cons_of_neg (by simp [hstop])]
          simp [upTo]
        · rw [if_neg hstop, ih hnext (by simpa using hfuel), Option.bind_some,
            List.takeWhile_cons_of_pos (by simpa using hstop)]
          unfold upTo
          split_ifs with hneg
          · rfl
          · obtain ⟨j, hj⟩ : ∃ j, limit.toNat - taken = j + 1 :=
              ⟨limit.toNat - taken - 1, by omega⟩
            rw [hj, List.take_succ_cons, show limit.toNat - (taken + 1) = j by omega]
      · rw [if_neg hlim, upTo, if_neg (by omega), show limit.toNat - taken = 0 by omega,
          List.take_zero]

end

/-- `r` is the least key with the property `p`, or none if there is no such key. -/
def IsLeastKey (ops : KeyOps K) (p : K → Prop) : Option K → Prop
  | none => ∀ q, ¬ p q
  | some q => p q ∧ ∀ q', p q' → ops.compare q q' ≠ .gt

def IsGreatestKey (ops : KeyOps K) (p : K → Prop) : Option K → Prop
  | none => ∀ q, ¬ p q
  | some q => p q ∧ ∀ q', p q' → ops.compare q' q ≠ .gt

/-- The entries of a map with `lo <= key < hi`, in increasing order. -/
structure IsRange (ops : KeyOps K) (m : K → Option V) (lo hi : Option K)
    (l : List (K × V)) : Prop where
  sorted : l.Pairwise fun a b => ops.compare a.1 b.1 = .lt
  mem_iff : ∀ k v, (k, v) ∈ l ↔ m k = some v ∧
    (∀ a, lo = some a → ops.compare a k ≠ .gt) ∧ ∀ b, hi = some b → ops.compare k b = .lt

/-- Every query of the tree answers as the map `m` does. -/
structure Refines (ops : KeyOps K) (t : Tree K V) (m : K → Option V) : Prop where
  get : ∀ k, btGet ops t k = m k
  has : ∀ k, btHas ops t k = (m k).isSome
  delete : ∀ k, ∃ t', btDel ops t k = some ((m k).isSome, t')
  len : btLen t = {k | (m k).isSome}.ncard
  first : ∃ r, btFirst t = some r ∧ IsLeastKey ops (fun q => (m q).isSome) r
  last : ∃ r, btLast t = some r ∧ IsGreatestKey ops (fun q => (m q).isSome) r
  floor : ∀ k, ∃ r, btFloor ops t k = some r ∧
    IsGreatestKey ops (fun q => (m q).isSome ∧ ops.compare q k ≠ .gt) r
  prev : ∀ k, ∃ r, btPrev ops t k = some r ∧
    IsGreatestKey ops (fun q => (m q).isSome ∧ ops.compare q k = .lt) r
  ceil : ∀ k, ∃ r, btCeil ops t k = some r ∧
    IsLeastKey ops (fun q => (m q).isSome ∧ ops.compare k q ≠ .gt) r
  next : ∀ k, ∃ r, btNext ops t k = some r ∧
    IsLeastKey ops (fun q => (m q).isSome ∧ ops.compare k q = .lt) r
  range : ∀ lo hi limit, ∃ l, IsRange ops m lo hi l ∧
    btRange ops t lo hi limit = some (if limit < 0 then l else l.take limit.toNat) ∧
    btKeys ops t lo hi limit =
      some ((if limit < 0 then l else l.take limit.toNat).map Prod.fst)

section

variable [LinearOrder K] {ops : KeyOps K} {t : Tree K V} {m : K → Option V}

variable (hops : ∀ a b, ops.compare a b = compare a b)
include hops

theorem SplitBy.least {p : K → Prop} (hm : Represents t.entries m)
    (h : SplitBy t p pre post) :
    IsLeastKey ops (fun q => (m q).isSome ∧ ¬ p q) (post.head?.map Prod.fst) := by
  have hmem : ∀ q, (m q).isSome ∧ ¬ p q → ∃ e ∈ post, e.1 = q := by
    rintro q ⟨hq, hp⟩
    obtain ⟨e, he, rfl⟩ := (hm.isSome_iff q).mp hq
    rw [h.entries] at he
    exact ⟨e, (List.mem_append.mp he).resolve_left fun hpre => hp (h.pass e hpre), rfl⟩
  have hsorted := hm.sorted
  rw [h.entries, sorted_append] at hsorted
  cases hpost : post with
  | nil =>
    intro q hq
    obtain ⟨e, he, -⟩ := hmem q hq
    simp [hpost] at he
  | cons e rest =>
    refine ⟨⟨(hm.isSome_iff e.1).mpr ⟨e, by simp [h.entries, hpost], rfl⟩,
      h.fail e (by simp [hpost])⟩, fun q' hq' => ?_⟩
    obtain ⟨e', he', rfl⟩ := hmem q' hq'
    rw [hops, compare_le_iff_le]
    rw [hpost] at he' hsorted
    rcases List.mem_cons.mp he' with rfl | hin
    · exact le_rfl
    · exact ((List.pairwise_cons.mp hsorted.2.1).1 e' hin).le

theorem SplitBy.greatest {p : K → Prop}
    (hm : Represents t.entries m) (h : SplitBy t p pre post) :
    IsGreatestKey ops (fun q => (m q).isSome ∧ p q) (pre.getLast?.map Prod.fst) := by
  have hmem : ∀ q, (m q).isSome ∧ p q → ∃ e ∈ pre, e.1 = q := by
    rintro q ⟨hq, hp⟩
    obtain ⟨e, he, rfl⟩ := (hm.isSome_iff q).mp hq
    rw [h.entries] at he
    exact ⟨e, (List.mem_append.mp he).resolve_right fun hpost => h.fail e hpost hp, rfl⟩
  have hsorted := hm.sorted
  rw [h.entries, sorted_append] at hsorted
  rcases List.eq_nil_or_concat' pre with hpre | ⟨rest, e, hpre⟩
  · rw [hpre]
    intro q hq
    obtain ⟨e, he, -⟩ := hmem q hq
    simp [hpre] at he
  · have hlast : pre.getLast? = some e := by simp [hpre]
    rw [hlast]
    refine ⟨⟨(hm.isSome_iff e.1).mpr ⟨e, by simp [h.entries, hpre], rfl⟩,
      h.pass e (by simp [hpre])⟩, fun q' hq' => ?_⟩
    obtain ⟨e', he', rfl⟩ := hmem q' hq'
    rw [hops, compare_le_iff_le]
    rw [hpre] at he' hsorted
    rcases List.mem_append.mp he' with hin | hin
    · exact ((sorted_append.mp hsorted.1).2.2 e' hin e (by simp)).le
    · rw [List.mem_singleton.mp hin]

theorem btGet_spec (h : Invariant t) (hm : Represents t.entries m) (k : K) :
    btGet ops t k = m k := by
  have habsent : (∀ v, (k, v) ∉ t.entries) → m k = none := by
    intro hnot
    rw [Option.eq_none_iff_forall_not_mem]
    exact fun v hv => hnot v ((hm.mem_iff k v).mpr hv)
  rw [t.entries_eq] at habsent
  unfold btGet
  rcases h.leafFor hops k with ⟨hnone, hl⟩ | ⟨as, id, es, bs, hleaf, hl, hes, has, hbs⟩
  · rw [hnone, habsent (by simp [hl])]
  · obtain ⟨es₁, es₂, rfl, hidx, h₁, h₂⟩ := btLower_entries hops hes k
    have hmiss : (∀ v, (k, v) ∉ es₂) → m k = none := by
      intro hnot
      refine habsent fun v hv => ?_
      rw [hl, List.flatMap_append, List.flatMap_cons] at hv
      simp only [List.mem_append] at hv
      rcases hv with hv | (hv | hv) | hv
      · exact (has _ hv).ne rfl
      · exact (h₁ _ hv).ne rfl
      · exact hnot v hv
      · exact (hbs _ hv).ne rfl
    rw [hleaf]
    dsimp only
    rw [hidx]
    cases es₂ with
    | nil =>
      rw [List.getElem?_eq_none (by simp)]
      exact (hmiss (by simp)).symm
    | cons e es₂ =>
      have hget : (es₁ ++ e :: es₂)[es₁.length]? = some e := by simp
      rw [hget]
      dsimp only
      by_cases heq : ops.compare e.1 k = .eq
      · have hk : e.1 = k := compare_eq_iff_eq.mp ((hops _ _).symm.trans heq)
        rw [if_pos heq]
        refine ((hm.mem_iff k e.2).mp ?_).symm
        rw [t.entries_eq, hl, ← hk]
        simp
      · rw [if_neg heq]
        refine (hmiss fun v hv => ?_).symm
        have hne : e.1 ≠ k := fun hk => heq ((hops _ _).trans (compare_eq_iff_eq.mpr hk))
        have hlt : k < e.1 := lt_of_le_of_ne (h₂ e List.mem_cons_self) hne.symm
        rcases List.mem_cons.mp hv with rfl | hv
        · exact hne rfl
        · exact (hlt.trans ((List.pairwise_cons.mp (sorted_append.mp hes).2.1).1 _ hv)).ne rfl

omit hops in
theorem btLen_spec (h : Invariant t) (hm : Represents t.entries m) :
    btLen t = {k | (m k).isSome}.ncard := by
  have hset : {k | (m k).isSome} = {k | k ∈ t.entries.map Prod.fst} := by
    ext k
    exact (hm.isSome_iff k).trans List.mem_map.symm
  rw [btLen, h.count, hset, ← List.coe_toFinset, Set.ncard_coe_finset,
    List.toFinset_card_of_nodup hm.sorted.nodup_keys, List.length_map]

private theorem takeWhile_sorted {es : List (K × V)} (hes : Sorted es) (hi : Option K)
    (e : K × V) :
    e ∈ es.takeWhile (fun e => !hi.any fun h => ops.compare e.1 h != .lt) ↔
      e ∈ es ∧ ∀ b, hi = some b → ops.compare e.1 b = .lt := by
  have htest : ∀ x : K × V, (!hi.any fun h => ops.compare x.1 h != .lt) = true ↔
      ∀ b, hi = some b → ops.compare x.1 b = .lt := by
    intro x
    cases hi <;> simp
  induction es with
  | nil => simp
  | cons x es ih =>
    obtain ⟨hhead, htail⟩ := List.pairwise_cons.mp hes
    by_cases hx : (!hi.any fun h => ops.compare x.1 h != .lt) = true
    · have hrest := ih htail
      have := (htest x).mp hx
      rw [List.takeWhile_cons, if_pos hx, List.mem_cons, List.mem_cons]
      constructor
      · rintro (rfl | hin)
        · exact ⟨Or.inl rfl, this⟩
        · exact ⟨Or.inr (hrest.mp hin).1, (hrest.mp hin).2⟩
      · rintro ⟨rfl | hin, h⟩
        · exact Or.inl rfl
        · exact Or.inr (hrest.mpr ⟨hin, h⟩)
    · rw [List.takeWhile_cons, if_neg hx]
      refine ⟨by simp, fun ⟨hin, h⟩ => absurd ((htest x).mpr fun b hb => ?_) hx⟩
      have he := h b hb
      rw [hops, compare_lt_iff_lt] at he ⊢
      rcases List.mem_cons.mp hin with rfl | hin
      · exact he
      · exact (hhead e hin).trans he

theorem btRange_spec (h : Invariant t) (hm : Represents t.entries m) (lo hi : Option K)
    (limit : Int) : ∃ l, IsRange ops m lo hi l ∧
      btRange ops t lo hi limit = some (if limit < 0 then l else l.take limit.toNat) := by
  obtain ⟨pre, post, p, hstart, hat, hsplit⟩ : ∃ pre post p,
      rangeStart ops t lo = some p ∧ At t pre post p ∧
        SplitBy t (fun q => ∃ a, lo = some a ∧ q < a) pre post := by
    cases lo with
    | none => exact ⟨[], t.entries, first t, rfl, first_at h, rfl, by simp, by simp⟩
    | some a =>
      obtain ⟨pre, post, p, hp, hat, hsplit⟩ := seek_spec hops h a false
      refine ⟨pre, post, p, hp, hat, hsplit.entries, fun e he => ?_, fun e he => ?_⟩
      · exact ⟨a, rfl, by simpa using hsplit.pass e he⟩
      · rintro ⟨b, hb, hlt⟩
        obtain rfl : a = b := Option.some.inj hb
        exact hsplit.fail e he (by simpa using hlt)
  have hsorted := hm.sorted
  rw [hsplit.entries, sorted_append] at hsorted
  have hfuel : post.length < t.heap.count + 1 := by
    rw [h.count, hsplit.entries, List.length_append]
    omega
  have hlo : ∀ k, (¬ ∃ a, lo = some a ∧ k < a) ↔ ∀ a, lo = some a → ops.compare a k ≠ .gt := by
    intro k
    push Not
    refine forall₂_congr fun a _ => ?_
    rw [hops, compare_le_iff_le]
  refine ⟨post.takeWhile fun e => !hi.any fun h => ops.compare e.1 h != .lt,
    ⟨?_, fun k v => ?_⟩, ?_⟩
  · refine (hsorted.2.1.sublist (List.takeWhile_sublist _)).imp fun hab => ?_
    exact (hops _ _).trans (compare_lt_iff_lt.mpr hab)
  · rw [takeWhile_sorted hops hsorted.2.1, ← hm.mem_iff, hsplit.entries, List.mem_append,
      ← and_assoc, ← hlo]
    refine and_congr_left fun _ => ⟨fun hin => ⟨Or.inr hin, hsplit.fail _ hin⟩, ?_⟩
    rintro ⟨hin | hin, hnot⟩
    · exact absurd (hsplit.pass _ hin) hnot
    · exact hin
  · rw [btRange, hstart, Option.bind_some, rangeLoop_spec h hi limit hat hfuel]
    rfl

theorem Invariant.refines (hok : ∀ k, ops.ok k = true) (h : Invariant t)
    (hm : Represents t.entries m) : Refines ops t m where
  get k := btGet_spec hops h hm k
  has k := by rw [btHas, btGet_spec hops h hm k]
  delete k := by
    obtain ⟨found, t', hrun, -, -, hfound⟩ := btDel_spec hops h (hok k)
    refine ⟨t', hrun.trans ?_⟩
    have hiff : found = true ↔ (m k).isSome = true := by
      rw [hfound, hm.isSome_iff, List.mem_map]
    rw [Bool.eq_iff_iff.mpr hiff]
  len := btLen_spec h hm
  first := by
    refine ⟨t.entries.head?.map Prod.fst, by rw [btFirst, keyOut, (first_at h).entryAt h]; rfl, ?_⟩
    have hsplit : SplitBy t (fun _ => False) [] t.entries := ⟨rfl, by simp, by simp⟩
    simpa using SplitBy.least hops hm hsplit
  last := by
    refine ⟨t.entries.getLast?.map Prod.fst, by rw [btLast, keyOut, last_entry h]; rfl, ?_⟩
    have hsplit : SplitBy t (fun _ => True) t.entries [] := ⟨by simp, by simp, by simp⟩
    simpa using SplitBy.greatest hops hm hsplit
  floor k := by
    obtain ⟨pre, post, p, hp, hentry, hsplit⟩ := seekBack_spec hops h k false
    refine ⟨pre.getLast?.map Prod.fst, by rw [btFloor, hp, Option.bind_some, keyOut, hentry]; rfl, ?_⟩
    simpa [hops, compare_le_iff_le] using SplitBy.greatest hops hm hsplit
  prev k := by
    obtain ⟨pre, post, p, hp, hentry, hsplit⟩ := seekBack_spec hops h k true
    refine ⟨pre.getLast?.map Prod.fst, by rw [btPrev, hp, Option.bind_some, keyOut, hentry]; rfl, ?_⟩
    simpa [hops, compare_lt_iff_lt] using SplitBy.greatest hops hm hsplit
  ceil k := by
    obtain ⟨pre, post, p, hp, hat, hsplit⟩ := seek_spec hops h k false
    refine ⟨post.head?.map Prod.fst,
      by rw [btCeil, hp, Option.bind_some, keyOut, hat.entryAt h]; rfl, ?_⟩
    simpa [hops, compare_le_iff_le] using SplitBy.least hops hm hsplit
  next k := by
    obtain ⟨pre, post, p, hp, hat, hsplit⟩ := seek_spec hops h k true
    refine ⟨post.head?.map Prod.fst,
      by rw [btNext, hp, Option.bind_some, keyOut, hat.entryAt h]; rfl, ?_⟩
    simpa [hops, compare_lt_iff_lt] using SplitBy.least hops hm hsplit
  range lo hi limit := by
    obtain ⟨l, hl, hrun⟩ := btRange_spec hops h hm lo hi limit
    exact ⟨l, hl, hrun, by rw [btKeys, hrun]; rfl⟩

end

open Classical in
/-- After every sequence of puts and deletes the tree answers every query as the map
built by the same calls. -/
theorem runOps_refines (S : Set Value) (hS : TotalOrderOn valueKeys S)
    (l : List (Op S Value)) :
    ∃ t, runOps (valueKeys.restrict S) (create fun _ => true) l = some t ∧
      Refines (valueKeys.restrict S) t (mapOf l) := by
  let _ := hS.linearOrder
  have hops : ∀ a b, (valueKeys.restrict S).compare a b = compare a b := fun _ _ => rfl
  have hok : ∀ k, (valueKeys.restrict S).ok k = true := fun a => hS.ok a a.2
  obtain ⟨t, hrun, hinv, hrep⟩ := runOps_create hops hok l
  refine ⟨t, hrun, ?_⟩
  convert hinv.refines hops hok hrep

/-- Puts that split the root, a put of a key that is there, deletes, and one of a key that is not. -/
def severalOps : List (Op integersAndStrings Value) :=
  let key (n : Nat) : integersAndStrings := ⟨.integer (BitVec.ofNat 64 n), Or.inl ⟨_, rfl⟩⟩
  (List.range 40).map (fun n => .put (key n) (.integer (BitVec.ofNat 64 (n * n)))) ++
    [.put (key 7) .null, .delete (key 20), .delete (key 0), .delete (key 50)]

theorem runOps_refines_integers : ∃ t,
    runOps (valueKeys.restrict integersAndStrings) (create fun _ => true) severalOps = some t ∧
      Refines (valueKeys.restrict integersAndStrings) t (mapOf severalOps) :=
  runOps_refines integersAndStrings integersAndStrings_total _

end Ussr.BTree
