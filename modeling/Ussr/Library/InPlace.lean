import Mathlib.Algebra.Group.End
import Mathlib.Data.List.Nodup
import Mathlib.Data.List.Perm.Subperm

/-! Sequences whose values are moved around in place, and orders on a range of them. -/

namespace Ussr.InPlace

variable {α β : Type} {lo n : Nat} {a b c : Nat → α}

/-- `b` has the values of `a` in another order in the `n` places from `lo` on, and the same outside. -/
def Rearranged (lo n : Nat) (a b : Nat → α) : Prop :=
  ∃ σ : Equiv.Perm Nat, (∀ k, σ k ≠ k → lo ≤ k ∧ k < lo + n) ∧ b = a ∘ σ

namespace Rearranged

theorem refl (lo n : Nat) (a : Nat → α) : Rearranged lo n a a := ⟨1, fun _ h => absurd rfl h, rfl⟩

theorem trans (hab : Rearranged lo n a b) (hbc : Rearranged lo n b c) : Rearranged lo n a c := by
  obtain ⟨σ, hσ, rfl⟩ := hab
  obtain ⟨τ, hτ, rfl⟩ := hbc
  refine ⟨σ * τ, fun k hk => ?_, rfl⟩
  by_cases hmoved : τ k = k
  · refine hσ k fun hsame => hk ?_
    rw [Equiv.Perm.mul_apply, hmoved, hsame]
  · exact hτ k hmoved

theorem swap {i j : Nat} (hi : lo ≤ i ∧ i < lo + n) (hj : lo ≤ j ∧ j < lo + n) (a : Nat → α) :
    Rearranged lo n a (a ∘ Equiv.swap i j) := by
  refine ⟨Equiv.swap i j, fun k hk => ?_, rfl⟩
  obtain ⟨-, rfl | rfl⟩ := Equiv.swap_apply_ne_self_iff.mp hk
  · exact hi
  · exact hj

theorem mono {lo' n' : Nat} (h : Rearranged lo' n' a b) (hlo : lo ≤ lo') (hhi : lo' + n' ≤ lo + n) :
    Rearranged lo n a b := by
  obtain ⟨σ, hσ, hb⟩ := h
  refine ⟨σ, fun k hk => ?_, hb⟩
  have := hσ k hk
  omega

theorem outside (h : Rearranged lo n a b) {k : Nat} (hk : k < lo ∨ lo + n ≤ k) : b k = a k := by
  obtain ⟨σ, hσ, rfl⟩ := h
  have hfixed : σ k = k := by
    by_contra hmoved
    have := hσ k hmoved
    omega
  exact congrArg a hfixed

theorem inside (h : Rearranged lo n a b) {k : Nat} (hk : lo ≤ k ∧ k < lo + n) :
    ∃ l, (lo ≤ l ∧ l < lo + n) ∧ b k = a l := by
  obtain ⟨σ, hσ, rfl⟩ := h
  by_cases hmoved : σ k = k
  · exact ⟨k, hk, congrArg a hmoved⟩
  · exact ⟨σ k, hσ (σ k) fun h => hmoved (σ.injective h), rfl⟩

theorem forall_range (h : Rearranged lo n a b) {p : α → Prop} (hp : ∀ k, lo ≤ k → k < lo + n → p (a k)) :
    ∀ k, lo ≤ k → k < lo + n → p (b k) := by
  intro k hlo hhi
  obtain ⟨l, hl, hsame⟩ := h.inside ⟨hlo, hhi⟩
  rw [hsame]
  exact hp l hl.1 hl.2

theorem perm (h : Rearranged lo n a b) : ((List.range' lo n).map b).Perm ((List.range' lo n).map a) := by
  obtain ⟨σ, hσ, rfl⟩ := h
  have hinside (k : Nat) (hk : lo ≤ k ∧ k < lo + n) : lo ≤ σ k ∧ σ k < lo + n := by
    by_cases hmoved : σ k = k
    · rwa [hmoved]
    · exact hσ (σ k) fun h => hmoved (σ.injective h)
  have hsub : (List.range' lo n).map σ ⊆ List.range' lo n := by
    intro l hl
    obtain ⟨k, hk, rfl⟩ := List.mem_map.mp hl
    exact List.mem_range'_1.mpr (hinside k (List.mem_range'_1.mp hk))
  have hσperm : ((List.range' lo n).map σ).Perm (List.range' lo n) := by
    have hnodup : ((List.range' lo n).map σ).Nodup := List.Nodup.map σ.injective List.nodup_range'
    exact (hnodup.subperm hsub).perm_of_length_le (by rw [List.length_map])
  rw [← List.map_map]
  exact hσperm.map a

end Rearranged

section

variable {le : α → α → Prop} {i j mid : Nat}

/-- The `n` values from place `lo` on do not go down. -/
def SortedOn (le : α → α → Prop) (lo n : Nat) (a : Nat → α) : Prop :=
  ∀ i j, lo ≤ i → i < j → j < lo + n → le (a i) (a j)

theorem SortedOn.congr (h : SortedOn le lo n a) (heq : ∀ k, lo ≤ k → k < lo + n → b k = a k) : SortedOn le lo n b := by
  intro i j hi hij hj
  rw [heq i hi (by omega), heq j (by omega) hj]
  exact h i j hi hij hj

theorem SortedOn.of_le_one (hn : n ≤ 1) : SortedOn le lo n a := by
  intro i j hi hij hj
  omega

theorem SortedOn.join (htrans : ∀ x y z, le x y → le y z → le x z) (hmid : mid < n)
    (hleft : SortedOn le lo mid a) (hright : SortedOn le (lo + (mid + 1)) (n - (mid + 1)) a)
    (hbelow : ∀ k, lo ≤ k → k < lo + mid → le (a k) (a (lo + mid)))
    (habove : ∀ k, lo + (mid + 1) ≤ k → k < lo + n → le (a (lo + mid)) (a k)) : SortedOn le lo n a := by
  intro i j hi hij hj
  obtain hjmid | rfl | hjmid := Nat.lt_trichotomy j (lo + mid)
  · exact hleft i j hi hij hjmid
  · exact hbelow i hi hij
  · obtain himid | rfl | himid := Nat.lt_trichotomy i (lo + mid)
    · exact htrans _ _ _ (hbelow i hi himid) (habove j hjmid hj)
    · exact habove j hjmid hj
    · exact hright i j himid hij (by omega)

end

section

variable {V : α → Prop} {le : α → α → Prop}

/-- A relation on the values in `V`, with all others at the top. -/
def Within (V : α → Prop) (le : α → α → Prop) (x y : α) : Prop := V y → V x ∧ le x y

theorem within_iff {x y : α} (hx : V x) (hy : V y) : Within V le x y ↔ le x y :=
  ⟨fun h => (h hy).2, fun h _ => ⟨hx, h⟩⟩

theorem within_total (h : ∀ x y, V x → V y → le x y ∨ le y x) (x y : α) : Within V le x y ∨ Within V le y x := by
  by_cases hx : V x
  · by_cases hy : V y
    · exact (h x y hx hy).imp (fun hle _ => ⟨hx, hle⟩) fun hle _ => ⟨hy, hle⟩
    · exact .inl fun hy' => absurd hy' hy
  · exact .inr fun hx' => absurd hx' hx

theorem within_trans (h : ∀ x y z, V x → V y → V z → le x y → le y z → le x z) (x y z : α)
    (hxy : Within V le x y) (hyz : Within V le y z) : Within V le x z := by
  intro hz
  obtain ⟨hy, hyz⟩ := hyz hz
  obtain ⟨hx, hxy⟩ := hxy hy
  exact ⟨hx, h x y z hx hy hz hxy hyz⟩

end

end Ussr.InPlace
