import Mathlib.Data.Finset.Card

/-! Depth-first marking of a graph. Every node is marked before its children are
visited, so that the walk ends on every finite graph, with cycles or without. -/

namespace Ussr

variable {α : Type} [DecidableEq α] (children : α → List α)

/-- Marks what is reachable from `a` through nodes that are not marked; `none` where the fuel, a
bound on the depth, is too small. -/
def markFrom : (fuel : Nat) → Finset α → α → Option (Finset α)
  | 0, _, _ => none
  | fuel + 1, M, a =>
    if a ∈ M then some M else (children a).foldlM (markFrom fuel) (insert a M)

abbrev Leads : α → α → Prop := Relation.ReflTransGen fun a b => b ∈ children a

/-- What marking from the nodes of `start` makes of the marks `M`. -/
structure Marks (start : List α) (M M' : Finset α) : Prop where
  mono : M ⊆ M'
  targets : ∀ a ∈ start, a ∈ M'
  closed : ∀ a ∈ M', a ∉ M → ∀ b ∈ children a, b ∈ M'
  sound : ∀ a ∈ M', a ∉ M → ∃ s ∈ start, Leads children s a

theorem foldlM_ends {σ β : Type} {f : σ → β → Option σ} {I : σ → Prop} {l : List β}
    (hf : ∀ b ∈ l, ∀ s, I s → ∃ s', f s b = some s' ∧ I s') {s : σ} (hs : I s) :
    ∃ s', l.foldlM f s = some s' ∧ I s' := by
  induction l generalizing s with
  | nil => exact ⟨s, rfl, hs⟩
  | cons b l ih =>
    obtain ⟨s₁, hfirst, hs₁⟩ := hf b List.mem_cons_self s hs
    obtain ⟨s', hrest, hs'⟩ := ih (fun c hc => hf c (List.mem_cons_of_mem b hc)) hs₁
    refine ⟨s', ?_, hs'⟩
    rw [List.foldlM_cons, hfirst]
    exact hrest

variable {children}

omit [DecidableEq α] in
theorem Marks.nil (M : Finset α) : Marks children [] M M where
  mono := Finset.Subset.refl M
  targets _ ha := absurd ha List.not_mem_nil
  closed _ ha hnew := absurd ha hnew
  sound _ ha hnew := absurd ha hnew

theorem Marks.cons {a : α} {rest : List α} {M M' M'' : Finset α} (h : Marks children [a] M M')
    (h' : Marks children rest M' M'') : Marks children (a :: rest) M M'' where
  mono := h.mono.trans h'.mono
  targets b hb := by
    rcases List.mem_cons.mp hb with rfl | hrest
    · exact h'.mono (h.targets b List.mem_cons_self)
    · exact h'.targets b hrest
  closed b hb hnew c hc := by
    by_cases hold : b ∈ M'
    · exact h'.mono (h.closed b hold hnew c hc)
    · exact h'.closed b hb hold c hc
  sound b hb hnew := by
    by_cases hold : b ∈ M'
    · obtain ⟨s, hs, hleads⟩ := h.sound b hold hnew
      exact ⟨s, List.mem_cons.mpr (Or.inl (List.mem_singleton.mp hs)), hleads⟩
    · obtain ⟨s, hs, hleads⟩ := h'.sound b hb hold
      exact ⟨s, List.mem_cons_of_mem a hs, hleads⟩

theorem foldlM_marks {f : Finset α → α → Option (Finset α)}
    (hf : ∀ (M : Finset α) (a : α) (M' : Finset α), f M a = some M' → Marks children [a] M M')
    (start : List α) {M M' : Finset α} (h : start.foldlM f M = some M') : Marks children start M M' := by
  induction start generalizing M with
  | nil =>
    cases h
    exact Marks.nil _
  | cons a rest ih =>
    rw [List.foldlM_cons] at h
    obtain ⟨M₁, hfirst, hrest⟩ := Option.bind_eq_some_iff.mp h
    exact (hf M a M₁ hfirst).cons (ih hrest)

theorem markFrom_marks {fuel : Nat} {M M' : Finset α} {a : α}
    (h : markFrom children fuel M a = some M') : Marks children [a] M M' := by
  induction fuel generalizing M M' a with
  | zero => cases h
  | succ fuel ih =>
    unfold markFrom at h
    split_ifs at h with hmarked
    · cases h
      refine ⟨Finset.Subset.refl M, ?_, fun _ hb hnew => absurd hb hnew,
        fun _ hb hnew => absurd hb hnew⟩
      intro b hb
      rwa [List.mem_singleton.mp hb]
    · have hbelow := foldlM_marks (fun _ _ _ => ih) (children a) h
      have hself : a ∈ M' := hbelow.mono (Finset.mem_insert_self a M)
      refine ⟨(Finset.subset_insert a M).trans hbelow.mono, ?_, ?_, ?_⟩
      · intro b hb
        rwa [List.mem_singleton.mp hb]
      · intro b hb hnew c hc
        by_cases heq : b = a
        · exact hbelow.targets c (heq ▸ hc)
        · exact hbelow.closed b hb (by simp [heq, hnew]) c hc
      · intro b hb hnew
        refine ⟨a, List.mem_singleton_self a, ?_⟩
        by_cases heq : b = a
        · exact heq ▸ .refl
        · obtain ⟨s, hs, hleads⟩ := hbelow.sound b hb (by simp [heq, hnew])
          exact .head hs hleads

/-- In a finite set of nodes that is closed under children, the walk ends with fuel for every node
that is not marked. -/
theorem markFrom_ends {U : Finset α} (hclosed : ∀ a ∈ U, ∀ b ∈ children a, b ∈ U) {fuel : Nat}
    {M : Finset α} {a : α} (ha : a ∈ U) (hM : M ⊆ U) (hfuel : (U \ M).card < fuel) :
    ∃ M', markFrom children fuel M a = some M' ∧ M' ⊆ U := by
  induction fuel generalizing M a with
  | zero => exact absurd hfuel (Nat.not_lt_zero _)
  | succ fuel ih =>
    unfold markFrom
    split_ifs with hmarked
    · exact ⟨M, rfl, hM⟩
    · have hless : (U \ insert a M).card < (U \ M).card := by
        refine Finset.card_lt_card (Finset.ssubset_iff_of_subset ?_ |>.mpr ⟨a, ?_, ?_⟩)
        · exact Finset.sdiff_subset_sdiff (Finset.Subset.refl U) (Finset.subset_insert a M)
        · exact Finset.mem_sdiff.mpr ⟨ha, hmarked⟩
        · simp
      have hbelow := foldlM_ends (f := markFrom children fuel) (l := children a)
        (I := fun M₁ => insert a M ⊆ M₁ ∧ M₁ ⊆ U) ?_
        ⟨Finset.Subset.refl _, Finset.insert_subset ha hM⟩
      · obtain ⟨M', hmark, -, hM'⟩ := hbelow
        exact ⟨M', hmark, hM'⟩
      · rintro b hb M₁ ⟨hold, hM₁⟩
        have hsmaller : (U \ M₁).card ≤ (U \ insert a M).card :=
          Finset.card_le_card (Finset.sdiff_subset_sdiff (Finset.Subset.refl U) hold)
        obtain ⟨M₂, hmark, hM₂⟩ := ih (hclosed a ha b hb) hM₁ (by omega)
        exact ⟨M₂, hmark, hold.trans (markFrom_marks hmark).mono, hM₂⟩

theorem markAll_reachable {U : Finset α} (hclosed : ∀ a ∈ U, ∀ b ∈ children a, b ∈ U) {fuel : Nat}
    {roots : List α} (hroots : ∀ a ∈ roots, a ∈ U) (hfuel : U.card < fuel) :
    ∃ M, roots.foldlM (markFrom children fuel) ∅ = some M ∧ M ⊆ U ∧
      ∀ a, a ∈ M ↔ ∃ r ∈ roots, Leads children r a := by
  have hloop := foldlM_ends (f := markFrom children fuel) (l := roots) (I := fun M => M ⊆ U) ?_
    (Finset.empty_subset U)
  swap
  · intro r hr M hM
    exact markFrom_ends hclosed (hroots r hr) hM
      ((Finset.card_le_card Finset.sdiff_subset).trans_lt hfuel)
  obtain ⟨M, hmarked, hM⟩ := hloop
  have hmarks := foldlM_marks (fun _ _ _ => markFrom_marks) roots hmarked
  refine ⟨M, hmarked, hM, fun a => ⟨fun ha => hmarks.sound a ha (Finset.notMem_empty a), ?_⟩⟩
  rintro ⟨r, hr, hleads⟩
  induction hleads with
  | refl => exact hmarks.targets r hr
  | tail _ hchild ih => exact hmarks.closed _ ih (Finset.notMem_empty _) _ hchild

end Ussr
