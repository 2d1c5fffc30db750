import Mathlib.Data.List.Basic

/-! Binary search for the end of the initial run of elements that satisfy a
test. On a list where the test never comes back after failing, the halving
loop finds the boundary. -/

namespace Ussr.Bisection

variable {α : Type*}

/-- The loop `while (lo < hi)` on the interval `[lo, hi)`; `fuel` bounds its turns. -/
def bisect (p : α → Bool) (xs : List α) : (fuel lo hi : Nat) → Nat
  | 0, lo, _ => lo
  | fuel + 1, lo, hi =>
    if lo < hi then
      match xs[(lo + hi) / 2]? with
      | some x =>
        if p x then bisect p xs fuel ((lo + hi) / 2 + 1) hi
        else bisect p xs fuel lo ((lo + hi) / 2)
      | none => lo
    else lo

/-- `i` separates the elements that pass `p` from those that do not. -/
structure Boundary (p : α → Bool) (xs : List α) (i : Nat) : Prop where
  le_length : i ≤ xs.length
  pass : ∀ j x, j < i → xs[j]? = some x → p x
  fail : ∀ j x, i ≤ j → xs[j]? = some x → ¬ p x

theorem bisect_boundary {p : α → Bool} {xs : List α}
    (hmono : xs.Pairwise fun a b => p b → p a) (fuel lo hi : Nat)
    (hfuel : hi - lo ≤ fuel) (hlo : lo ≤ hi) (hhi : hi ≤ xs.length)
    (hpass : ∀ j x, j < lo → xs[j]? = some x → p x)
    (hfail : ∀ j x, hi ≤ j → xs[j]? = some x → ¬ p x) :
    Boundary p xs (bisect p xs fuel lo hi) := by
  have hearlier : ∀ (i j : Nat) (x y : α), i ≤ j → xs[i]? = some x → xs[j]? = some y → p y → p x := by
    intro i j x y hij hx hy hpy
    obtain ⟨hi', rfl⟩ := List.getElem?_eq_some_iff.mp hx
    obtain ⟨hj', rfl⟩ := List.getElem?_eq_some_iff.mp hy
    rcases Nat.lt_or_eq_of_le hij with hlt | rfl
    · exact List.pairwise_iff_getElem.mp hmono i j hi' hj' hlt hpy
    · exact hpy
  induction fuel generalizing lo hi with
  | zero =>
    obtain rfl : lo = hi := by omega
    exact ⟨hhi, hpass, hfail⟩
  | succ fuel ih =>
    unfold bisect
    by_cases hlt : lo < hi
    · have hmid : (lo + hi) / 2 < xs.length := by omega
      rw [if_pos hlt, List.getElem?_eq_getElem hmid]
      dsimp only
      have hget : xs[(lo + hi) / 2]? = some xs[(lo + hi) / 2] := List.getElem?_eq_getElem hmid
      by_cases hp : p xs[(lo + hi) / 2]
      · rw [if_pos hp]
        refine ih _ hi (by omega) (by omega) hhi ?_ hfail
        exact fun j x hj hx => hearlier j _ x _ (by omega) hx hget hp
      · rw [if_neg hp]
        refine ih lo _ (by omega) (by omega) (by omega) hpass ?_
        exact fun j x hj hx hpx => hp (hearlier _ j _ x hj hget hx hpx)
    · obtain rfl : lo = hi := by omega
      rw [if_neg hlt]
      exact ⟨hhi, hpass, hfail⟩

theorem bisect_split {p : α → Bool} {xs : List α}
    (hmono : xs.Pairwise fun a b => p b → p a) :
    ∃ as bs, xs = as ++ bs ∧ bisect p xs xs.length 0 xs.length = as.length ∧
      (∀ a ∈ as, p a) ∧ ∀ b ∈ bs, ¬ p b := by
  have hb := bisect_boundary hmono xs.length 0 xs.length (by omega) (by omega) (Nat.le_refl _)
    (by omega) (fun j x hj hx => by simp [List.getElem?_eq_none hj] at hx)
  refine ⟨xs.take _, xs.drop _, (List.take_append_drop _ xs).symm,
    (List.length_take_of_le hb.le_length).symm, ?_, ?_⟩
  · intro a ha
    obtain ⟨j, hj⟩ := List.getElem?_of_mem ha
    rw [List.getElem?_take] at hj
    split_ifs at hj with hlt
    exact hb.pass j a hlt hj
  · intro b hmem
    obtain ⟨j, hj⟩ := List.getElem?_of_mem hmem
    rw [List.getElem?_drop] at hj
    exact hb.fail _ b (Nat.le_add_right _ j) hj

end Ussr.Bisection
