import Ussr.Library.Halting
import Ussr.Library.Rounding

/-! `floor` and `ceil` of the library of the language: a search that doubles its step and then
halves it. An integer has 64 bits and wraps; a real is the number that its double stands for. -/

namespace Ussr.FloorCeil
open Rounding

variable {turns k : Nat} {i : Num}

inductive Num where
  | integer (n : BitVec 64)
  | real (x : ℚ)
deriving DecidableEq

namespace Num

def toReal : Num → ℚ
  | integer n => round 53 n.toInt
  | real x => x

def value : Num → ℚ
  | integer n => n.toInt
  | real x => x

def Finite : Num → Prop
  | integer _ => True
  | real x => Fits 53 x

def add : Num → Num → Num
  | integer m, integer n => integer (m + n)
  | x, y => real (round 53 (x.toReal + y.toReal))

def sub : Num → Num → Num
  | integer m, integer n => integer (m - n)
  | x, y => real (round 53 (x.toReal - y.toReal))

def mul : Num → Num → Num
  | integer m, integer n => integer (m * n)
  | x, y => real (round 53 (x.toReal * y.toReal))

def div (x y : Num) : Num := real (round 53 (x.toReal / y.toReal))

def lt : Num → Num → Bool
  | integer m, integer n => m.slt n
  | x, y => decide (x.toReal < y.toReal)

def le : Num → Num → Bool
  | integer m, integer n => m.sle n
  | x, y => decide (x.toReal ≤ y.toReal)

end Num

open FloorCeil.Num

/-- `while(_): {i + step <= x}` with the turns that it may take -/
def doubling (x : Num) : (turns : Nat) → (i step : Num) → Option (Num × Num)
  | 0, _, _ => none
  | turns + 1, i, step =>
    if le (add i step) x then doubling x turns (add i step) (mul step (integer 2)) else some (i, step)

/-- `while(_): {step >= 1}` -/
def halving (x : Num) : (turns : Nat) → (i step : Num) → Option Num
  | 0, _, _ => none
  | turns + 1, i, step =>
    if le (integer 1) step then
      halving x turns (if le (add i step) x then add i step else i) (div step (integer 2))
    else some i

def search (x : Num) (turns : Nat) : Option Num :=
  (doubling x turns (integer 0) (integer 1)).bind fun found => halving x turns found.1 found.2

def floor (x : Num) (turns : Nat) : Option Num :=
  let neg := lt x (integer 0)
  let x := if neg then sub (integer 0) x else x
  (search x turns).map fun i =>
    if neg then sub (integer 0) (if lt i x then add i (integer 1) else i) else i

def ceil (x : Num) (turns : Nat) : Option Num :=
  let neg := lt x (integer 0)
  let x := if neg then sub (integer 0) x else x
  (search x turns).map fun i =>
    let i := if !neg then (if lt i x then add i (integer 1) else i) else i
    if neg then sub (integer 0) i else i

theorem doubling_persists (x i step : Num) : Persists fun turns => doubling x turns i step := by
  intro turns found h
  induction turns generalizing i step with
  | zero => exact absurd h (by simp [doubling])
  | succ turns ih =>
    dsimp only at h ⊢
    rw [doubling] at h ⊢
    split at h
    · next hle => rw [if_pos hle]; exact ih _ _ h
    · next hgt => rw [if_neg hgt]; exact h

theorem halving_persists (x i step : Num) : Persists fun turns => halving x turns i step := by
  intro turns found h
  induction turns generalizing i step with
  | zero => exact absurd h (by simp [halving])
  | succ turns ih =>
    dsimp only at h ⊢
    rw [halving] at h ⊢
    split at h
    · next hle => rw [if_pos hle]; exact ih _ _ h
    · next hgt => rw [if_neg hgt]; exact h

theorem search_persists (x : Num) : Persists (search x) :=
  (doubling_persists x _ _).bind fun found => halving_persists x found.1 found.2

/-! The halving search on the reals -/

/-- The turns with the steps `2 ^ (turns - 1)`, .., 2, 1. -/
def climb (x : ℚ) : (turns : Nat) → ℚ → ℚ
  | 0, i => i
  | turns + 1, i => climb x turns (if round 53 (i + 2 ^ turns) ≤ x then round 53 (i + 2 ^ turns) else i)

section

variable {x : ℚ}

theorem climb_exact (low turns b : Nat) (hb : b + 2 ^ turns ≤ 2 ^ 53) (hbelow : (b : ℚ) * 2 ^ low ≤ x)
    (habove : x < (b + 2 ^ turns) * 2 ^ low) : ∃ c : Nat, climb x (low + turns) (b * 2 ^ low) = climb x low (c * 2 ^ low) ∧
      (c : ℚ) * 2 ^ low ≤ x ∧ x < (c + 1) * 2 ^ low ∧ c < 2 ^ 53 := by
  induction turns generalizing b with
  | zero => exact ⟨b, rfl, hbelow, by simpa using habove, by omega⟩
  | succ turns ih =>
    have hstep : (b : ℚ) * 2 ^ low + 2 ^ (low + turns) = ((b + 2 ^ turns : Nat) : ℚ) * 2 ^ low := by
      push_cast
      rw [pow_add]
      ring
    have hpower : 0 < 2 ^ turns := Nat.two_pow_pos turns
    rw [pow_succ] at hb
    have hexact : round 53 (((b + 2 ^ turns : Nat) : ℚ) * 2 ^ low) = ((b + 2 ^ turns : Nat) : ℚ) * 2 ^ low := by
      refine round_of_fits ⟨(b + 2 ^ turns : Nat), low, by push_cast; rw [zpow_natCast], ?_⟩
      rw [Nat.abs_cast]
      omega
    rw [← Nat.add_assoc, climb, hstep, hexact]
    split
    next hle =>
      refine ih (b + 2 ^ turns) (by omega) hle ?_
      rw [pow_succ] at habove
      push_cast
      linarith
    next hgt =>
      refine ih b (by omega) hbelow ?_
      push_cast at hgt
      linarith

theorem round_unit {y : ℚ} (j : Nat) {m : Int} (heven : m % 2 = 0) (hlow : 2 ^ (j + 52) ≤ y) (hhigh : y < 2 ^ (j + 53))
    (hbelow : m * 2 ^ j - 2 ^ j / 2 ≤ y) (habove : y ≤ m * 2 ^ j + 2 ^ j / 2) : round 53 y = m * 2 ^ j := by
  have hunit : (2 : ℚ) ^ (((j + 52 : Nat) : Int) + 1 - (53 : Nat)) = 2 ^ j := by
    rw [show ((j + 52 : Nat) : Int) + 1 - (53 : Nat) = j by omega, zpow_natCast]
  have hfirst : (2 : ℚ) ^ ((j + 52 : Nat) : Int) ≤ y := (zpow_natCast 2 (j + 52)).trans_le hlow
  have hdouble : (2 : ℚ) ^ (((j + 52 : Nat) : Int) + 1) = 2 ^ (j + 53) := by
    rw [zpow_add_one₀ (by norm_num), zpow_natCast, ← pow_succ]
  have hlast : y < 2 ^ (((j + 52 : Nat) : Int) + 1) := hhigh.trans_eq hdouble.symm
  rw [← hunit] at hbelow habove ⊢
  exact round_even heven hfirst hlast hbelow habove

theorem round_tie (hlow : 2 ≤ k) (hk : k ≤ 52) : round 53 ((2 : ℚ) ^ 53 - 1 + 2 ^ k) = 2 ^ 53 + 2 ^ k := by
  obtain ⟨j, rfl⟩ : ∃ j, k = j + 2 := ⟨k - 2, by omega⟩
  have hmost : (2 : ℚ) ^ (j + 2) ≤ 2 ^ 52 := pow_le_pow_right₀ (by norm_num) hk
  have hleast : (2 : ℚ) ^ 2 ≤ 2 ^ (j + 2) := pow_le_pow_right₀ (by norm_num) hlow
  have heq : ((2 ^ 52 + 2 * 2 ^ j : Int) : ℚ) * 2 ^ 1 = 2 ^ 53 + 2 ^ (j + 2) := by
    push_cast
    ring
  rw [← heq]
  norm_num at hleast hmost
  exact round_unit 1 (by omega) (by norm_num; linarith) (by norm_num; linarith) (by rw [heq]; linarith) (by rw [heq]; linarith)

theorem round_one (hk : 53 ≤ k) : round 53 ((2 : ℚ) ^ k + 1) = 2 ^ k := by
  obtain ⟨j, rfl⟩ : ∃ j, k = j + 53 := ⟨k - 53, by omega⟩
  have hleast : (2 : ℚ) ≤ 2 ^ (j + 1) := le_self_pow₀ (by norm_num) (by omega)
  have hbig : (2 : ℚ) ^ 53 ≤ 2 ^ (j + 53) := pow_le_pow_right₀ (by norm_num) (by omega)
  have hdouble : (2 : ℚ) ^ (j + 1 + 53) = 2 * 2 ^ (j + 53) := by ring
  have heq : ((2 ^ 52 : Int) : ℚ) * 2 ^ (j + 1) = 2 ^ (j + 53) := by
    rw [Int.cast_pow, Int.cast_ofNat]
    ring
  rw [← heq]
  refine round_unit (j + 1) (by norm_num) ?_ ?_ ?_ ?_
  · rw [heq, show j + 1 + 52 = j + 53 by omega]
    linarith
  · rw [heq, hdouble]
    linarith
  · linarith
  · linarith

theorem round_pred (hk : 54 ≤ k) : round 53 ((2 : ℚ) ^ k - 1) = 2 ^ k := by
  obtain ⟨j, rfl⟩ : ∃ j, k = j + 54 := ⟨k - 54, by omega⟩
  have hleast : (2 : ℚ) ≤ 2 ^ (j + 1) := le_self_pow₀ (by norm_num) (by omega)
  have hbig : (2 : ℚ) ^ 53 ≤ 2 ^ (j + 53) := pow_le_pow_right₀ (by norm_num) (by omega)
  have hdouble : (2 : ℚ) ^ (j + 54) = 2 * 2 ^ (j + 53) := by ring
  have heq : ((2 ^ 53 : Int) : ℚ) * 2 ^ (j + 1) = 2 ^ (j + 54) := by
    rw [Int.cast_pow, Int.cast_ofNat]
    ring
  rw [← heq]
  refine round_unit (j + 1) (by norm_num) ?_ ?_ ?_ ?_
  · rw [heq, hdouble, show j + 1 + 52 = j + 53 by omega]
    linarith
  · rw [heq, show j + 1 + 53 = j + 54 by omega]
    linarith
  · linarith
  · linarith

theorem climb_stays (hfits : Fits 53 x) (hpos : 0 < x) (turns : Nat) : climb x turns x = x := by
  induction turns with
  | zero => rfl
  | succ turns ih =>
    have hstep : (0 : ℚ) < 2 ^ turns := by positivity
    have hmore := round_mono (p := 53) (by omega) hpos (by linarith : x ≤ x + 2 ^ turns)
    rw [round_of_fits hfits] at hmore
    rw [climb]
    split
    next hle => rw [le_antisymm hle hmore, ih]
    next => exact ih

theorem climb_nonneg (turns : Nat) {i : ℚ} (hi : 0 ≤ i) : 0 ≤ climb x turns i := by
  induction turns generalizing i with
  | zero => exact hi
  | succ turns ih =>
    rw [climb]
    split
    · exact ih (round_pos (by omega) (by positivity)).le
    · exact ih hi

theorem climb_floor (hk : k ≤ 52) (hbelow : (2 : ℚ) ^ k - 1 ≤ x) (habove : x < 2 ^ (k + 1) - 1) :
    climb x k (2 ^ k - 1) = ⌊x⌋ ∧ ⌊x⌋ < 2 ^ 53 := by
  have hone : 1 ≤ 2 ^ k := Nat.one_le_two_pow
  have hcast : ((2 ^ k - 1 : Nat) : ℚ) = 2 ^ k - 1 := by push_cast [hone]; rfl
  have hmost : 2 ^ k ≤ 2 ^ 52 := Nat.pow_le_pow_right (by omega) hk
  obtain ⟨c, hclimb, hlow, hhigh, hc⟩ := @climb_exact x 0 k (2 ^ k - 1) (by omega)
    (by rw [hcast, pow_zero, mul_one]; exact hbelow) (by
      rw [hcast, pow_zero, mul_one]
      rw [pow_succ] at habove
      linarith)
  rw [pow_zero, mul_one, Nat.zero_add, hcast] at hclimb
  rw [pow_zero, mul_one] at hlow hhigh
  have hfloor : ⌊x⌋ = c := Int.floor_eq_iff.mpr ⟨by exact_mod_cast hlow, by exact_mod_cast hhigh⟩
  rw [hclimb, hfloor]
  exact ⟨by rw [climb, mul_one, Int.cast_natCast], by exact_mod_cast hc⟩

theorem climb_binade (hk : 52 ≤ k) (hfits : Fits 53 x) (hbelow : (2 : ℚ) ^ k ≤ x)
    (habove : x < 2 ^ (k + 1)) : climb x k (2 ^ k) = x := by
  obtain ⟨low, rfl⟩ := Nat.exists_eq_add_of_le hk
  have hunit : (0 : ℚ) < 2 ^ low := by positivity
  have hfirst : ((2 ^ 52 : Nat) : ℚ) * 2 ^ low = 2 ^ (52 + low) := by
    rw [Nat.cast_pow, Nat.cast_ofNat, ← pow_add]
  have hlast : (((2 ^ 52 : Nat) : ℚ) + 2 ^ 52) * 2 ^ low = 2 ^ (52 + low + 1) := by
    rw [Nat.cast_pow, Nat.cast_ofNat]
    ring
  obtain ⟨c, hclimb, hlow, hhigh, -⟩ :=
    @climb_exact x low 52 (2 ^ 52) (by omega) (by rwa [hfirst]) (by rwa [hlast])
  obtain ⟨n, hn⟩ := hfits.multiple (e := (52 + low : Nat)) (by rw [zpow_natCast]; exact hbelow)
  rw [show ((52 + low : Nat) : Int) + 1 - (53 : Nat) = low by omega, zpow_natCast] at hn
  rw [hn] at hlow hhigh
  have hleast : (c : Int) ≤ n := by exact_mod_cast le_of_mul_le_mul_right hlow hunit
  have hmost : n < (c : Int) + 1 := by exact_mod_cast lt_of_mul_lt_mul_right hhigh hunit.le
  have hc : (c : ℚ) * 2 ^ low = x := by
    rw [hn, show n = (c : Int) by omega, Int.cast_natCast]
  rw [hc, hfirst, Nat.add_comm low 52] at hclimb
  rw [hclimb]
  exact climb_stays hfits (hbelow.trans_lt' (by positivity)) low

/-- The sums from `2 ^ 53 - 1` on are rounded up to those from `2 ^ 53`. -/
theorem climb_tie (hfar : (2 : ℚ) ^ 53 + 4 ≤ x) (hturns : turns ≤ 53) (habove : x < 2 ^ 53 + 2 ^ turns) :
    climb x turns (2 ^ 53 - 1) = climb x turns (2 ^ 53) := by
  induction turns with
  | zero => norm_num at hfar habove; linarith
  | succ turns ih =>
    have hsteps : 2 ≤ turns := by
      by_contra hfew
      have hmost : (2 : ℚ) ^ (turns + 1) ≤ 2 ^ 2 := pow_le_pow_right₀ (by norm_num) (by omega)
      linarith
    have hexact : round 53 ((2 : ℚ) ^ 53 + 2 ^ turns) = 2 ^ 53 + 2 ^ turns := by
      rw [← round_tie hsteps (by omega)]
      refine round_of_fits (round_fits (by omega) ?_)
      have hpower : (0 : ℚ) < 2 ^ turns := by positivity
      norm_num
      linarith
    rw [climb, climb, round_tie hsteps (by omega), hexact]
    split
    next => rfl
    next hgt => exact ih (by omega) (not_le.mp hgt)

theorem climb_near (hnear : x < 2 ^ 53 + 4) (hsteps : 2 ≤ turns) (hturns : turns ≤ 53) :
    climb x turns (2 ^ 53 - 1) = if (2 : ℚ) ^ 53 ≤ x then 2 ^ 53 else 2 ^ 53 - 1 := by
  induction turns, hsteps using Nat.le_induction with
  | base =>
    have hone : round 53 ((2 : ℚ) ^ 53 - 1 + 2 ^ 1) = 2 ^ 53 := by
      rw [show (2 : ℚ) ^ 53 - 1 + 2 ^ 1 = 2 ^ 53 + 1 by norm_num, round_one (le_refl 53)]
    have hlast : round 53 ((2 : ℚ) ^ 53 - 1 + 2 ^ 0) = 2 ^ 53 := by
      rw [show (2 : ℚ) ^ 53 - 1 + 2 ^ 0 = ((1 : Int) : ℚ) * 2 ^ (53 : Int) by norm_num]
      rw [round_of_fits ⟨1, 53, rfl, by norm_num⟩]
      norm_num
    have hagain : round 53 ((2 : ℚ) ^ 53 + 2 ^ 0) = 2 ^ 53 := by rw [pow_zero, round_one (le_refl 53)]
    by_cases hle : (2 : ℚ) ^ 53 ≤ x
    · rw [climb, hone, if_pos hle, climb, hagain, if_pos hle, climb]
    · rw [climb, hone, if_neg hle, climb, hlast, if_neg hle, climb]
  | succ turns hsteps ih =>
    have hlong : (2 : ℚ) ^ 2 ≤ 2 ^ turns := pow_le_pow_right₀ (by norm_num) hsteps
    rw [climb, round_tie hsteps (by omega), if_neg (by linarith), ih (by omega)]

theorem climb_53 (hfits : Fits 53 x) (hbelow : (2 : ℚ) ^ 53 - 1 ≤ x) (habove : x < 2 ^ 54) :
    climb x 53 (2 ^ 53 - 1) = if x = 2 ^ 53 + 2 then 2 ^ 53 else x := by
  by_cases hfar : (2 : ℚ) ^ 53 + 4 ≤ x
  · rw [climb_tie hfar (le_refl 53) (by linarith), if_neg (by rintro rfl; linarith)]
    exact climb_binade (by omega) hfits (by linarith) habove
  · rw [climb_near (not_le.mp hfar) (by omega) (le_refl 53)]
    by_cases hle : (2 : ℚ) ^ 53 ≤ x
    · -- an even number below `2 ^ 53 + 4`
      obtain ⟨n, rfl⟩ := hfits.multiple (e := 53) (by exact_mod_cast hle)
      norm_num at hfar hle ⊢
      have hleast : 4503599627370496 ≤ n := by
        have hscaled : ((4503599627370496 : Int) : ℚ) ≤ n := by push_cast; linarith
        exact_mod_cast hscaled
      have hmost : n < 4503599627370498 := by
        have hscaled : (n : ℚ) < ((4503599627370498 : Int) : ℚ) := by push_cast; linarith
        exact_mod_cast hscaled
      obtain rfl | rfl : n = 4503599627370496 ∨ n = 4503599627370497 := by omega
      · norm_num
      · norm_num
    · obtain ⟨n, rfl⟩ := hfits.multiple (e := 52) (by norm_num at hbelow ⊢; linarith)
      norm_num at hbelow hle ⊢
      have hleast : 9007199254740991 ≤ n := by exact_mod_cast hbelow
      have hmost : n < 9007199254740992 := by exact_mod_cast hle
      obtain rfl : n = 9007199254740991 := by omega
      norm_num

end

/-! The loops on numbers -/

/-- The turns of `climb` on a number; what is not added to stays an integer. -/
def climbNum (x : Num) : (turns : Nat) → Num → Num
  | 0, i => i
  | turns + 1, i => climbNum x turns (if le (add i (real (2 ^ turns))) x then add i (real (2 ^ turns)) else i)

theorem toReal_add_real (i : Num) (s : ℚ) : add i (real s) = real (round 53 (i.toReal + s)) := by
  cases i <;> rfl

theorem le_real (r : ℚ) (x : Num) : le (real r) x = decide (r ≤ x.toReal) := by
  cases x <;> rfl

theorem toReal_climbNum (x : Num) (turns : Nat) (i : Num) :
    (climbNum x turns i).toReal = climb x.toReal turns i.toReal := by
  induction turns generalizing i with
  | zero => rfl
  | succ turns ih =>
    rw [climbNum, climb, ih, toReal_add_real, le_real]
    simp only [decide_eq_true_eq]
    split <;> rfl

theorem climbNum_finite (x : Num) (turns : Nat) (hi : i.Finite) (hpos : 0 ≤ i.toReal) :
    (climbNum x turns i).Finite := by
  induction turns generalizing i with
  | zero => exact hi
  | succ turns ih =>
    have hsum : 0 < i.toReal + 2 ^ turns := by positivity
    rw [climbNum, toReal_add_real]
    split
    · exact ih (round_fits (by omega) hsum) (round_pos (by omega) hsum).le
    · exact ih hi hpos

theorem climbNum_integer {x : Num} {n : BitVec 64} (h : climbNum x (turns + 1) i = integer n) :
    i = integer n ∧ x.toReal < round 53 (i.toReal + 1) := by
  induction turns generalizing i with
  | zero =>
    rw [climbNum, climbNum, toReal_add_real, le_real, pow_zero] at h
    split at h
    · exact absurd h (by simp)
    · next hgt => exact ⟨h, not_le.mp (of_decide_eq_false (Bool.not_eq_true _ ▸ hgt))⟩
  | succ turns ih =>
    rw [climbNum, toReal_add_real] at h
    split at h
    · exact absurd (ih h).1 (by simp)
    · exact ih h

theorem toReal_integer {n : BitVec 64} (h : Fits 53 n.toInt) : toReal (integer n) = n.toInt := round_of_fits h

theorem fits_pow (k : Nat) : Fits 53 (2 ^ k) := ⟨1, k, by rw [Int.cast_one, one_mul, zpow_natCast], by norm_num⟩

theorem fits_half (k : Nat) : Fits 53 (2 ^ k / 2) := by
  have h := (fits_pow k).scale (-1)
  rwa [zpow_neg_one, ← div_eq_mul_inv] at h

theorem toReal_two : toReal (integer 2) = 2 := toReal_integer (fits_pow 1)

theorem halving_real (x i : Num) (turns : Nat) : halving x (turns + 1) i (real (2 ^ turns / 2)) = some (climbNum x turns i) := by
  have hone : toReal (integer 1) = 1 := toReal_integer (by exact_mod_cast fits_pow 0)
  induction turns generalizing i with
  | zero =>
    have hless : le (integer 1) (real (2 ^ 0 / 2)) = false := by
      simp only [le, hone, decide_eq_false_iff_not]
      norm_num [toReal]
    rw [halving, hless]
    rfl
  | succ turns ih =>
    have hstep : (2 : ℚ) ^ (turns + 1) / 2 = 2 ^ turns := by
      rw [pow_succ, mul_div_cancel_right₀ _ (by norm_num)]
    have hmore : le (integer 1) (real (2 ^ turns)) = true := by
      simp only [le, hone, decide_eq_true_eq]
      exact one_le_pow₀ (by norm_num)
    have hnext : div (real (2 ^ turns)) (integer 2) = real (2 ^ turns / 2) := by
      rw [div, toReal_two]
      exact congrArg real (round_of_fits (fits_half turns))
    rw [hstep, halving, if_pos hmore, hnext, ih, climbNum]

/-- `i` and `step` after some turns -/
def ones (turns : Nat) : BitVec 64 := BitVec.ofNat 64 (2 ^ turns - 1)

def power (turns : Nat) : BitVec 64 := BitVec.ofNat 64 (2 ^ turns)

theorem add_ones (turns : Nat) : add (integer (ones turns)) (integer (power turns)) = integer (ones (turns + 1)) := by
  have hone : 1 ≤ 2 ^ turns := Nat.one_le_two_pow
  rw [add, ones, power, ones, ← BitVec.ofNat_add]
  congr 2
  rw [pow_succ]
  omega

theorem mul_power (turns : Nat) : mul (integer (power turns)) (integer 2) = integer (power (turns + 1)) := by
  rw [mul, power, power, pow_succ, BitVec.ofNat_mul]
  rfl

def Doubles (x : Num) (turns : Nat) : Prop := le (integer (ones (turns + 1))) x = true

theorem doubling_ends {x : Num} {first more : Nat} (extra : Nat) (hbefore : ∀ turn < more, Doubles x (first + turn))
    (hlast : ¬Doubles x (first + more)) : doubling x (more + 1 + extra) (integer (ones first)) (integer (power first)) =
      some (integer (ones (first + more)), integer (power (first + more))) := by
  induction more generalizing first with
  | zero =>
    have hstop : ¬le (integer (ones (first + 1))) x = true := hlast
    rw [show 0 + 1 + extra = extra + 1 by omega, doubling, add_ones, if_neg hstop]
    rfl
  | succ more ih =>
    have hfirst : le (integer (ones (first + 1))) x = true := hbefore 0 (by omega)
    rw [show more + 1 + 1 + extra = (more + 1 + extra) + 1 by omega, doubling, add_ones, mul_power, if_pos hfirst,
      show first + (more + 1) = first + 1 + more by omega]
    refine ih (fun turn hturn => ?_) ?_
    · rw [show first + 1 + turn = first + (turn + 1) by omega]
      exact hbefore (turn + 1) (by omega)
    · rwa [show first + 1 + more = first + (more + 1) by omega]

theorem doubling_runs {x : Num} {first : Nat} (turns : Nat) (h : ∀ turn, Doubles x (first + turn)) :
    doubling x turns (integer (ones first)) (integer (power first)) = none := by
  induction turns generalizing first with
  | zero => rfl
  | succ turns ih =>
    have hfirst : le (integer (ones (first + 1))) x = true := h 0
    rw [doubling, add_ones, mul_power, if_pos hfirst]
    refine ih fun turn => ?_
    rw [show first + 1 + turn = first + (turn + 1) by omega]
    exact h (turn + 1)

theorem toInt_word {n : Nat} (h : n < 2 ^ 63) : (BitVec.ofNat 64 n).toInt = n := by
  rw [BitVec.toInt_ofNat', Int.bmod_eq_of_le (by omega) (by omega)]

theorem toInt_ones {turns : Nat} (h : turns ≤ 63) : (ones turns).toInt = 2 ^ turns - 1 := by
  have hone : 1 ≤ 2 ^ turns := Nat.one_le_two_pow
  have hmost : 2 ^ turns ≤ 2 ^ 63 := Nat.pow_le_pow_right (by omega) h
  rw [ones, toInt_word (by omega)]
  push_cast [hone]
  rfl

theorem toInt_power (h : turns ≤ 62) : (power turns).toInt = 2 ^ turns := by
  have hmost : 2 ^ turns ≤ 2 ^ 62 := Nat.pow_le_pow_right (by omega) h
  rw [power, toInt_word (by omega)]
  push_cast
  rfl

/-- The search ends as soon as the doubling does. -/
theorem search_ends {x : Num} (hturns : turns ≤ 62) (hbefore : ∀ turn < turns, Doubles x turn)
    (hlast : ¬Doubles x turns) : search x (turns + 2) = some (climbNum x turns (integer (ones turns))) := by
  have hdoubling := @doubling_ends x 0 turns 1 (by simpa using hbefore) (by simpa using hlast)
  rw [Nat.zero_add] at hdoubling
  have hmore : le (integer 1) (integer (power turns)) = true := by
    have hone : (1 : Int) ≤ 2 ^ turns := one_le_pow₀ (by norm_num)
    rw [le, BitVec.sle_iff_toInt_le, toInt_power hturns]
    exact hone
  have hnext : div (integer (power turns)) (integer 2) = real (2 ^ turns / 2) := by
    have hpower : ((power turns).toInt : ℚ) = 2 ^ turns := by
      rw [toInt_power hturns]
      push_cast
      rfl
    rw [div, toReal_two, toReal_integer (by rw [hpower]; exact fits_pow turns), hpower]
    exact congrArg real (round_of_fits (fits_half turns))
  have hhalving : halving x (turns + 2) (integer (ones turns)) (integer (power turns)) =
      some (climbNum x turns (integer (ones turns))) := by
    have hstop : ¬le (integer (ones (turns + 1))) x = true := hlast
    rw [halving, if_pos hmore, hnext, add_ones, if_neg hstop, halving_real]
  rw [search]
  exact Option.bind_eq_some_iff.mpr ⟨_, hdoubling, hhalving⟩

/-! What the search finds -/

theorem toReal_ones (h : turns ≤ 53) : toReal (integer (ones turns)) = 2 ^ turns - 1 := by
  have hone : (1 : Int) ≤ 2 ^ turns := one_le_pow₀ (by norm_num)
  have hmost : (2 : Int) ^ turns ≤ 2 ^ 53 := pow_le_pow_right₀ (by norm_num) h
  have hint := @toInt_ones turns (by omega)
  rw [toReal_integer (fits_int _ (by rw [hint, abs_of_nonneg (by omega)]; omega)), hint]
  push_cast
  rfl

theorem toReal_ones_large (hlow : 54 ≤ turns) (hhigh : turns ≤ 63) :
    toReal (integer (ones turns)) = 2 ^ turns := by
  rw [toReal, toInt_ones hhigh]
  push_cast
  exact round_pred hlow

theorem doubles_late {x : Num} (hpos : 0 ≤ x.value) (h : 63 ≤ turns) : Doubles x turns := by
  have hall : ones (turns + 1) = -1 := by
    obtain ⟨more, rfl⟩ := Nat.exists_eq_add_of_le h
    apply BitVec.eq_of_toNat_eq
    have hpower : 0 < 2 ^ more := Nat.two_pow_pos more
    have hsum : 2 ^ (63 + more + 1) - 1 = 2 ^ 64 - 1 + 2 ^ 64 * (2 ^ more - 1) := by
      rw [show 63 + more + 1 = 64 + more by omega, pow_add]
      omega
    rw [ones, BitVec.toNat_ofNat, hsum, Nat.add_mul_mod_self_left]
    rfl
  have hone : toReal (integer (-1)) = -1 := toReal_integer (fits_int (-1) (by norm_num))
  rw [Doubles, hall]
  cases x with
  | integer n =>
    have hn : (0 : ℚ) ≤ n.toInt := hpos
    rw [le, BitVec.sle_iff_toInt_le]
    exact le_trans (by decide) (by exact_mod_cast hn : 0 ≤ n.toInt)
  | real r =>
    simp only [le, decide_eq_true_eq, hone]
    exact le_trans (by norm_num) hpos

theorem doubles_integer {n : BitVec 64} (h : turns ≤ 62) :
    Doubles (integer n) turns ↔ (2 : ℚ) ^ (turns + 1) - 1 ≤ n.toInt := by
  rw [Doubles, le, BitVec.sle_iff_toInt_le, toInt_ones (by omega)]
  constructor
  · intro hle
    exact_mod_cast hle
  · intro hle
    exact_mod_cast hle

theorem doubles_real (r : ℚ) (turns : Nat) :
    Doubles (real r) turns ↔ toReal (integer (ones (turns + 1))) ≤ r := by
  simp only [Doubles, le, decide_eq_true_eq]
  rfl

theorem toReal_of_fits {x : Num} (h : Fits 53 x.value) : x.toReal = x.value := by
  cases x with
  | integer n => exact toReal_integer h
  | real r => rfl

theorem fits_small {x : Num} (hx : x.Finite) (hpos : 0 ≤ x.value) (h : x.value < 2 ^ 53) : Fits 53 x.value := by
  cases x with
  | integer n =>
    refine fits_int _ ?_
    have hleast : (0 : ℚ) ≤ n.toInt := hpos
    have hmost : (n.toInt : ℚ) < 2 ^ 53 := h
    rw [abs_of_nonneg (by exact_mod_cast hleast)]
    exact_mod_cast hmost
  | real r => exact hx

theorem floor_of_large {v : ℚ} (hfits : Fits 53 v) (h : 2 ^ 52 ≤ v) : (⌊v⌋ : ℚ) = v := by
  obtain ⟨n, rfl⟩ := hfits.multiple (e := 52) (by exact_mod_cast h)
  norm_num

structure Between (x : Num) (turns : Nat) : Prop where
  least : (2 : ℚ) ^ turns - 1 ≤ x.value
  most : x.value < 2 ^ (turns + 1)
  short : turns ≤ 52 → x.value < 2 ^ (turns + 1) - 1
  long : 54 ≤ turns → 2 ^ turns ≤ x.toReal

theorem between {x : Num} (hpos : 0 ≤ x.value) (hturns : turns ≤ 62)
    (hbefore : ∀ turn < turns, Doubles x turn) (hlast : ¬Doubles x turns) : Between x turns := by
  cases x with
  | integer n =>
    rw [doubles_integer hturns, not_le] at hlast
    have hleast : (2 : ℚ) ^ turns - 1 ≤ n.toInt := by
      cases turns with
      | zero => exact le_trans (by norm_num) hpos
      | succ turns => exact (doubles_integer (by omega)).mp (hbefore turns (by omega))
    refine ⟨hleast, hlast.trans (by linarith), fun _ => hlast, fun hlong => ?_⟩
    have hbig : (2 : ℚ) ^ 54 ≤ 2 ^ turns := pow_le_pow_right₀ (by norm_num) hlong
    have hmono := round_mono (p := 53) (by omega) (by linarith : (0 : ℚ) < 2 ^ turns - 1) hleast
    rwa [round_pred hlong] at hmono
  | real r =>
    rw [doubles_real, not_le] at hlast
    have hleast : turns = 0 ∨ toReal (integer (ones turns)) ≤ r := by
      cases turns with
      | zero => exact .inl rfl
      | succ turns => exact .inr ((doubles_real r turns).mp (hbefore turns (by omega)))
    rcases Nat.lt_or_ge turns 53 with hshort | hlong
    · rw [toReal_ones (by omega)] at hlast
      refine ⟨?_, hlast.trans (by linarith), fun _ => hlast, fun h => absurd h (by omega)⟩
      rcases hleast with rfl | hleast
      · exact le_trans (by norm_num) hpos
      · rwa [toReal_ones (by omega)] at hleast
    · rw [toReal_ones_large (by omega) (by omega)] at hlast
      replace hleast := hleast.resolve_left (by omega)
      refine ⟨?_, hlast, fun h => absurd h (by omega), fun h => ?_⟩
      · rcases hlong.eq_or_lt with rfl | hlong
        · rwa [toReal_ones (le_refl 53)] at hleast
        · rw [toReal_ones_large (by omega) (by omega)] at hleast
          exact le_trans (by linarith) hleast
      · rwa [toReal_ones_large h (by omega)] at hleast

theorem search_runs {x : Num} (h : ∀ turn, Doubles x turn) (turns : Nat) : search x turns = none := by
  have hnone := @doubling_runs x 0 turns (by simpa using h)
  rw [search]
  exact (congrArg (Option.bind · _) hnone).trans rfl

theorem search_cases {x : Num} (hpos : 0 ≤ x.value) :
    (∃ turns ≤ 62, Between x turns ∧ search x (turns + 2) = some (climbNum x turns (integer (ones turns)))) ∨
      (∀ turn, Doubles x turn) ∧ ∀ turns, search x turns = none := by
  by_cases hall : ∀ turn, Doubles x turn
  · exact .inr ⟨hall, search_runs hall⟩
  · classical
    push Not at hall
    have hlast := Nat.find_spec hall
    have hbefore : ∀ turn < Nat.find hall, Doubles x turn := fun turn hlt => not_not.mp (Nat.find_min hall hlt)
    have hturns : Nat.find hall ≤ 62 := by
      by_contra hlate
      exact hlast (doubles_late hpos (by omega))
    exact .inl ⟨_, hturns, between hpos hturns hbefore hlast, search_ends hturns hbefore hlast⟩

def Searched (v : ℚ) : Prop := v < 2 ^ 63 ∧ Fits 53 v ∧ v ≠ 2 ^ 53 + 2

theorem fits_or_large {x : Num} (hx : x.Finite) (hpos : 0 ≤ x.value) :
    Fits 53 x.value ∨ 2 ^ 53 ≤ x.value ∧ x.toReal = round 53 x.value := by
  by_cases hsmall : x.value < 2 ^ 53
  · exact .inl (fits_small hx hpos hsmall)
  · cases x with
    | integer n => exact .inr ⟨not_lt.mp hsmall, rfl⟩
    | real r => exact .inl hx

theorem bad_whole {x : Num} (hx : x.Finite) (h : ¬Searched x.value) : ∃ n : Int, x.value = n := by
  cases x with
  | integer n => exact ⟨n.toInt, rfl⟩
  | real r =>
    by_cases hlarge : (2 : ℚ) ^ 52 ≤ r
    · exact ⟨_, (floor_of_large hx hlarge).symm⟩
    · refine absurd ⟨?_, hx, ?_⟩ h
      · exact (not_le.mp hlarge).trans (by norm_num)
      · rintro heq
        have heq' : r = 2 ^ 53 + 2 := heq
        norm_num at hlarge heq'
        linarith

theorem finite_ones (turns : Nat) : (integer (ones turns)).Finite := trivial

theorem value_climbNum {x : Num} (h : turns ≤ 53) :
    (climbNum x turns (integer (ones turns))).value = (climbNum x turns (integer (ones turns))).toReal := by
  have hstart : toReal (integer (ones turns)) = value (integer (ones turns)) := by
    rw [toReal_ones h, value, toInt_ones (by omega)]
    push_cast
    rfl
  cases hfound : climbNum x turns (integer (ones turns)) with
  | real r => rfl
  | integer n =>
    cases turns with
    | zero => rw [← hfound]; exact hstart.symm
    | succ turns => rw [← (climbNum_integer hfound).1]; exact hstart.symm

theorem climbNum_large {x : Num} {turns : Nat} (hturns : 53 ≤ turns ∧ turns ≤ 62) (hlarge : 2 ^ turns ≤ x.toReal) :
    ∃ r, climbNum x turns (integer (ones turns)) = real r := by
  cases hfound : climbNum x turns (integer (ones turns)) with
  | real r => exact ⟨r, rfl⟩
  | integer n =>
    obtain ⟨before, rfl⟩ : ∃ before, turns = before + 1 := ⟨turns - 1, by omega⟩
    have hless := (climbNum_integer hfound).2
    rcases hturns.1.eq_or_lt with heq | hlt
    · rw [← heq, toReal_ones (le_refl 53), sub_add_cancel, round_of_fits (fits_pow 53)] at hless
      rw [← heq] at hlarge
      exact absurd hless (not_lt.mpr hlarge)
    · rw [toReal_ones_large (by omega) (by omega), round_one (by omega)] at hless
      exact absurd hless (not_lt.mpr hlarge)

theorem search_good {x : Num} (hpos : 0 ≤ x.value) (h : Searched x.value) :
    ∃ turns i, search x turns = some i ∧ i.value = ⌊x.value⌋ ∧ i.toReal = ⌊x.value⌋ ∧
      (⌊x.value⌋ < x.value → ⌊x.value⌋ < (2 : Int) ^ 53) := by
  obtain ⟨hless, hfits, hne⟩ := h
  have hreal := toReal_of_fits hfits
  rcases search_cases hpos with ⟨turns, hturns, hbetween, hsearch⟩ | ⟨hall, -⟩
  · refine ⟨_, _, hsearch, ?_⟩
    have hclimb := toReal_climbNum x turns (integer (ones turns))
    rw [hreal] at hclimb
    rcases Nat.lt_or_ge turns 53 with hshort | hlong
    · obtain ⟨hfloor, hsmall⟩ := climb_floor (x := x.value) (by omega) hbetween.least (hbetween.short (by omega))
      rw [toReal_ones (by omega), hfloor] at hclimb
      exact ⟨(value_climbNum (by omega)).trans hclimb, hclimb, fun _ => hsmall⟩
    · have hlarge : (2 : ℚ) ^ 52 ≤ x.value := by
        have hpower : (2 : ℚ) ^ 53 ≤ 2 ^ turns := pow_le_pow_right₀ (by norm_num) hlong
        have hleast := hbetween.least
        linarith
      have hwhole := floor_of_large hfits hlarge
      rw [hwhole]
      rcases hlong.eq_or_lt with rfl | hlong
      · rw [toReal_ones (le_refl 53), climb_53 hfits hbetween.least hbetween.most, if_neg hne] at hclimb
        exact ⟨(value_climbNum (le_refl 53)).trans hclimb, hclimb, fun hlt => absurd hlt (lt_irrefl _)⟩
      · have hbinade := hbetween.long hlong
        rw [hreal] at hbinade
        rw [toReal_ones_large (by omega) (by omega), climb_binade (by omega) hfits hbinade hbetween.most] at hclimb
        obtain ⟨r, hr⟩ := climbNum_large (x := x) ⟨by omega, hturns⟩ (by rw [hreal]; exact hbinade)
        rw [hr] at hclimb ⊢
        exact ⟨hclimb, hclimb, fun hlt => absurd hlt (lt_irrefl _)⟩
  · have hlast := hall 62
    cases x with
    | integer n =>
      -- the largest integer is no double
      rw [doubles_integer (le_refl 62)] at hlast
      obtain ⟨m, hm⟩ := hfits.multiple (e := 62) (by
        have hvalue : value (integer n) = n.toInt := rfl
        rw [hvalue]
        norm_num at hlast ⊢
        linarith)
      have hn : n.toInt = m * 2 ^ 10 := by
        have hvalue : (n.toInt : ℚ) = ((m * 2 ^ 10 : Int) : ℚ) := hm.trans (by push_cast; norm_num)
        exact_mod_cast hvalue
      have hleast : (2 : Int) ^ 63 - 1 ≤ n.toInt := by exact_mod_cast hlast
      have hmost := BitVec.toInt_lt (x := n)
      omega
    | real r =>
      rw [doubles_real, toReal_ones_large (by omega) (by omega)] at hlast
      exact absurd hless (not_lt.mpr hlast)

theorem not_all_doubles {x : Num} (h : x.value < 2 ^ 62) : ¬Doubles x 62 := by
  intro hlast
  cases x with
  | integer n =>
    rw [doubles_integer (le_refl 62)] at hlast
    rw [value] at h
    norm_num at h hlast
    linarith
  | real r =>
    rw [doubles_real, toReal_ones_large (by omega) (by omega)] at hlast
    rw [value] at h
    norm_num at h hlast
    linarith

/-- Past `2 ^ 53` the last sum is rounded back, so that 2 more are never added. -/
theorem search_short {x : Num} (hvalue : x.value = 2 ^ 53 + 2) : ∃ turns, search x turns = some (real (2 ^ 53)) := by
  have hfits : Fits 53 x.value := ⟨2 ^ 52 + 1, 1, by rw [hvalue]; norm_num, by norm_num⟩
  have hreal := toReal_of_fits hfits
  rcases @search_cases x (by rw [hvalue]; positivity) with ⟨turns, hturns, hbetween, hsearch⟩ | ⟨hall, -⟩
  swap
  · exact absurd (hall 62) (not_all_doubles (by rw [hvalue]; norm_num))
  obtain rfl : turns = 53 := by
    rcases Nat.lt_trichotomy turns 53 with hlt | heq | hgt
    · have hmost : (2 : ℚ) ^ (turns + 1) ≤ 2 ^ 53 := pow_le_pow_right₀ (by norm_num) (by omega)
      have := hbetween.most
      linarith
    · exact heq
    · have hleast : (2 : ℚ) ^ 54 ≤ 2 ^ turns := pow_le_pow_right₀ (by norm_num) hgt
      have := hbetween.least
      norm_num at hvalue hleast this
      linarith
  have hclimb := toReal_climbNum x 53 (integer (ones 53))
  rw [hreal, toReal_ones (le_refl 53), climb_53 hfits hbetween.least (by rw [hvalue]; norm_num), if_pos hvalue] at hclimb
  obtain ⟨r, hr⟩ := @climbNum_large x 53 (by omega) (by rw [hreal, hvalue]; norm_num)
  rw [hr] at hclimb
  obtain rfl : r = 2 ^ 53 := hclimb
  exact ⟨_, hsearch.trans (congrArg some hr)⟩

theorem search_bad {x : Num} (hx : x.Finite) (hpos : 0 ≤ x.value) (h : ¬Searched x.value)
    (hsearch : search x turns = some i) :
    ∃ r, i = real r ∧ Fits 53 r ∧ 0 ≤ r ∧ r ≠ x.value ∧ round 53 (r + 1) ≠ x.value := by
  rcases search_cases hpos with ⟨end_, hend, hbetween, hfound⟩ | ⟨-, hnone⟩
  swap
  · exact absurd (hnone turns) (by rw [hsearch]; exact Option.some_ne_none i)
  by_cases hfits : Fits 53 x.value
  · have hvalue : x.value = 2 ^ 53 + 2 := by
      by_contra hne
      refine h ⟨?_, hfits, hne⟩
      have hmost : (2 : ℚ) ^ (end_ + 1) ≤ 2 ^ 63 := pow_le_pow_right₀ (by norm_num) (by omega)
      exact hbetween.most.trans_le hmost
    obtain ⟨_, hshort⟩ := search_short hvalue
    obtain rfl := (search_persists x).unique hsearch hshort
    exact ⟨_, rfl, fits_pow 53, by positivity, by rw [hvalue]; norm_num, by rw [round_one (le_refl 53), hvalue]; norm_num⟩
  · obtain rfl := (search_persists x).unique hsearch hfound
    obtain ⟨hlarge, hround⟩ := (fits_or_large hx hpos).resolve_left hfits
    have hlong : 53 ≤ end_ := by
      by_contra hshort
      have hmost : (2 : ℚ) ^ (end_ + 1) ≤ 2 ^ 53 := pow_le_pow_right₀ (by norm_num) (by omega)
      have := hbetween.short (by omega)
      linarith
    have hdouble : 2 ^ end_ ≤ x.toReal := by
      rcases hlong.eq_or_lt with rfl | hlong
      · have hmono := round_mono (p := 53) (by omega) (by positivity) hlarge
        rwa [round_of_fits (fits_pow 53), ← hround] at hmono
      · exact hbetween.long hlong
    obtain ⟨r, hr⟩ := climbNum_large (x := x) ⟨hlong, hend⟩ hdouble
    have hstart : 0 ≤ toReal (integer (ones end_)) := by
      rcases hlong.eq_or_lt with rfl | hlong
      · rw [toReal_ones (le_refl 53)]
        norm_num
      · rw [toReal_ones_large (by omega) (by omega)]
        positivity
    have hr0 : 0 ≤ r := by
      have hclimb := toReal_climbNum x end_ (integer (ones end_))
      rw [hr] at hclimb
      exact (climb_nonneg end_ hstart).trans_eq hclimb.symm
    have hrfits : Fits 53 r := by
      have hfinite := climbNum_finite x end_ (finite_ones end_) hstart
      rwa [hr] at hfinite
    refine ⟨r, hr, hrfits, hr0, fun heq => hfits (heq ▸ hrfits), fun heq => hfits (heq ▸ ?_)⟩
    exact round_fits (by omega) (by linarith)

/-! The two functions -/

def Right (f : Num → Nat → Option Num) (target : ℚ → Int) (x : Num) : Prop :=
  ∃ turns r, f x turns = some r ∧ r.value = target x.value

/-- The result where there is something left above `i`. -/
def above (i x : Num) : Num := if lt i x then add i (integer 1) else i

theorem lt_zero (x : Num) : lt x (integer 0) = decide (x.value < 0) := by
  cases x with
  | integer n =>
    rw [lt, Bool.eq_iff_iff, BitVec.slt_iff_toInt_lt, decide_eq_true_eq]
    exact (by exact_mod_cast Iff.rfl : n.toInt < 0 ↔ (n.toInt : ℚ) < 0)
  | real r =>
    have hzero : toReal (integer 0) = 0 := round_zero 53
    simp only [lt, hzero]
    rfl

theorem floor_pos {x : Num} (hpos : 0 ≤ x.value) (turns : Nat) : floor x turns = search x turns := by
  have hneg : lt x (integer 0) = false := by rw [lt_zero]; exact decide_eq_false (not_lt.mpr hpos)
  simp only [floor, hneg, Bool.false_eq_true, if_false, Option.map_id']

theorem ceil_pos {x : Num} (hpos : 0 ≤ x.value) (turns : Nat) :
    ceil x turns = (search x turns).map fun i => above i x := by
  have hneg : lt x (integer 0) = false := by rw [lt_zero]; exact decide_eq_false (not_lt.mpr hpos)
  simp only [ceil, hneg, Bool.false_eq_true, if_false, Bool.not_false, if_true, above]

theorem floor_neg {x : Num} (hneg : x.value < 0) (turns : Nat) : floor x turns =
    (search (sub (integer 0) x) turns).map fun i => sub (integer 0) (above i (sub (integer 0) x)) := by
  have hlt : lt x (integer 0) = true := by rw [lt_zero]; exact decide_eq_true hneg
  simp only [floor, hlt, if_true, above]

theorem ceil_neg {x : Num} (hneg : x.value < 0) (turns : Nat) :
    ceil x turns = (search (sub (integer 0) x) turns).map fun i => sub (integer 0) i := by
  have hlt : lt x (integer 0) = true := by rw [lt_zero]; exact decide_eq_true hneg
  simp only [ceil, hlt, if_true, Bool.not_true, Bool.false_eq_true, if_false]

theorem opposite {x : Num} (hx : x.Finite) (hmin : x.value ≠ -2 ^ 63 ∨ ∃ r, x = real r) :
    (sub (integer 0) x).value = -x.value ∧ (sub (integer 0) x).Finite := by
  cases x with
  | integer n =>
    refine ⟨?_, trivial⟩
    have hne : n.toInt ≠ -2 ^ 63 := by
      rcases hmin with hmin | ⟨r, hr⟩
      · intro heq
        exact hmin (by rw [value, heq]; norm_num)
      · exact absurd hr (by simp)
    have hleast := BitVec.le_toInt n
    have hmost := BitVec.toInt_lt (x := n)
    have hopposite : (0 - n).toInt = -n.toInt := by
      rw [show 0 - n = -n by simp, BitVec.toInt_neg]
      exact Int.bmod_eq_of_le (by omega) (by omega)
    rw [sub, value, hopposite, value]
    push_cast
    rfl
  | real r =>
    have hzero : toReal (integer 0) = 0 := round_zero 53
    have hsub : sub (integer 0) (real r) = real (-r) := by
      rw [sub, hzero, zero_sub, toReal, round_of_fits hx.neg]
      simp
    rw [hsub]
    exact ⟨rfl, hx.neg⟩

theorem lt_iff {x : Num} (hx : Fits 53 x.value) (hi : i.toReal = i.value) : lt i x = true ↔ i.value < x.value := by
  have hreal := toReal_of_fits hx
  cases i with
  | integer m =>
    cases x with
    | integer n =>
      rw [lt, BitVec.slt_iff_toInt_lt, value, value]
      exact_mod_cast Iff.rfl
    | real r => simp only [lt, decide_eq_true_eq, hreal, hi]
  | real s => simp only [lt, decide_eq_true_eq, hreal, hi]

theorem add_one {n : Int} (hvalue : i.value = n) (hreal : i.toReal = n) (hpos : 0 ≤ n) (hn : n < 2 ^ 53) :
    (add i (integer 1)).value = (n + 1 : Int) ∧ (add i (integer 1)).Finite := by
  have hfits : Fits 53 ((n + 1 : Int) : ℚ) := by
    rcases (by omega : n + 1 < 2 ^ 53 ∨ n + 1 = 2 ^ 53) with hlt | heq
    · exact fits_int _ (by rwa [abs_of_nonneg (by omega)])
    · rw [heq, Int.cast_pow]
      exact fits_pow 53
  cases i with
  | integer m =>
    have hm : m.toInt = n := by
      have hcast : (m.toInt : ℚ) = n := hvalue
      exact_mod_cast hcast
    have hsum : (m + 1).toInt = n + 1 := by
      rw [BitVec.toInt_add, hm]
      exact Int.bmod_eq_of_le (by simp; omega) (by simp; omega)
    exact ⟨by rw [add, value, hsum], trivial⟩
  | real r =>
    have hone : toReal (integer 1) = 1 := toReal_integer (by exact_mod_cast fits_pow 0)
    have hsum : add (real r) (integer 1) = real ((n + 1 : Int) : ℚ) := by
      rw [add, hreal, hone]
      · push_cast at hfits ⊢
        rw [round_of_fits hfits]
      · simp
    rw [hsum]
    exact ⟨rfl, hfits⟩

theorem search_both {x : Num} (hpos : 0 ≤ x.value) (h : Searched x.value) :
    ∃ turns i, search x turns = some i ∧ (i.value = ⌊x.value⌋ ∧ i.Finite) ∧
      (above i x).value = ⌈x.value⌉ ∧ (above i x).Finite := by
  obtain ⟨turns, i, hsearch, hvalue, hreal, hsmall⟩ := search_good hpos h
  have hfloor : 0 ≤ ⌊x.value⌋ := Int.floor_nonneg.mpr hpos
  have hfinite : i.Finite := by
    cases i with
    | integer m => trivial
    | real r =>
      obtain rfl : r = ⌊x.value⌋ := hvalue
      rcases (Int.floor_le x.value).lt_or_eq with hlt | heq
      · exact fits_int _ (by rw [abs_of_nonneg hfloor]; exact hsmall hlt)
      · rw [heq]
        exact h.2.1
  refine ⟨turns, i, hsearch, ⟨hvalue, hfinite⟩, ?_⟩
  have hlt := lt_iff h.2.1 (hreal.trans hvalue.symm)
  rw [hvalue] at hlt
  rcases (Int.floor_le x.value).lt_or_eq with hless | heq
  · have hceil : ⌈x.value⌉ = ⌊x.value⌋ + 1 := by
      rw [Int.ceil_eq_iff]
      push_cast
      exact ⟨by linarith, (Int.lt_floor_add_one _).le⟩
    rw [above, if_pos (hlt.mpr hless), hceil]
    exact add_one hvalue hreal hfloor (hsmall hless)
  · have hceil : ⌈x.value⌉ = ⌊x.value⌋ := by
      rw [Int.ceil_eq_iff]
      exact ⟨by linarith, heq.ge⟩
    rw [above, if_neg (fun hyes => absurd (hlt.mp hyes) (by rw [heq]; exact lt_irrefl _)), hceil]
    exact ⟨hvalue, hfinite⟩

theorem search_neither {x : Num} (hx : x.Finite) (hpos : 0 ≤ x.value) (h : ¬Searched x.value)
    (hsearch : search x turns = some i) :
    (i.value ≠ x.value ∧ ∃ r, i = real r ∧ Fits 53 r) ∧
      (above i x).value ≠ x.value ∧ ∃ r, above i x = real r ∧ Fits 53 r := by
  obtain ⟨r, rfl, hfits, hr, hne, hadd⟩ := search_bad hx hpos h hsearch
  refine ⟨⟨hne, r, rfl, hfits⟩, ?_⟩
  have hone : toReal (integer 1) = 1 := toReal_integer (by exact_mod_cast fits_pow 0)
  have hsum : add (real r) (integer 1) = real (round 53 (r + 1)) := by
    rw [add, hone]
    · rfl
    · simp
  rw [above]
  split
  · rw [hsum]
    exact ⟨hadd, _, rfl, round_fits (by omega) (by linarith)⟩
  · exact ⟨hne, r, rfl, hfits⟩

theorem bad_target {x : Num} (hx : x.Finite) (h : ¬Searched x.value) :
    (⌊x.value⌋ : ℚ) = x.value ∧ (⌈x.value⌉ : ℚ) = x.value := by
  obtain ⟨n, hn⟩ := bad_whole hx h
  rw [hn, Int.floor_intCast, Int.ceil_intCast]
  exact ⟨rfl, rfl⟩

theorem right_iff {f : Num → Nat → Option Num} {target : ℚ → Int} {x y : Num} {result : Num → Num}
    (hrun : ∀ turns, f x turns = (search y turns).map result)
    (hgood : Searched y.value → ∃ turns i, search y turns = some i ∧ (result i).value = target x.value)
    (hbad : ¬Searched y.value → ∀ turns i, search y turns = some i → (result i).value ≠ target x.value) :
    Right f target x ↔ Searched y.value := by
  constructor
  · rintro ⟨turns, r, hr, hvalue⟩
    by_contra hno
    rw [hrun] at hr
    obtain ⟨i, hsearch, rfl⟩ := Option.map_eq_some_iff.mp hr
    exact hbad hno turns i hsearch hvalue
  · intro hyes
    obtain ⟨turns, i, hsearch, hvalue⟩ := hgood hyes
    exact ⟨turns, _, by rw [hrun, hsearch, Option.map_some], hvalue⟩

theorem right_pos {x : Num} (hx : x.Finite) (hpos : 0 ≤ x.value) :
    (Right floor Int.floor x ↔ Searched x.value) ∧ (Right ceil Int.ceil x ↔ Searched x.value) := by
  constructor
  · refine right_iff (fun turns => by rw [floor_pos hpos, Option.map_id']) (fun hgood => ?_) fun hbad turns i hsearch => ?_
    · obtain ⟨turns, i, hsearch, ⟨hvalue, -⟩, -⟩ := search_both hpos hgood
      exact ⟨turns, i, hsearch, hvalue⟩
    · rw [(bad_target hx hbad).1]
      exact (search_neither hx hpos hbad hsearch).1.1
  · refine right_iff (ceil_pos hpos) (fun hgood => ?_) fun hbad turns i hsearch => ?_
    · obtain ⟨turns, i, hsearch, -, hvalue, -⟩ := search_both hpos hgood
      exact ⟨turns, i, hsearch, hvalue⟩
    · rw [(bad_target hx hbad).2]
      exact (search_neither hx hpos hbad hsearch).2.1

theorem opposite_value {n : Int} (hi : i.Finite) (hvalue : i.value = n) (hpos : 0 ≤ n) :
    (sub (integer 0) i).value = (-n : Int) := by
  have hne : i.value ≠ -2 ^ 63 := by
    rw [hvalue]
    intro heq
    have hneg : n = -2 ^ 63 := by exact_mod_cast heq
    omega
  rw [(opposite hi (.inl hne)).1, hvalue, Int.cast_neg]

theorem right_neg {x : Num} (hx : x.Finite) (hneg : x.value < 0) (hmin : x.value ≠ -2 ^ 63 ∨ ∃ r, x = real r) :
    (Right floor Int.floor x ↔ Searched (-x.value)) ∧ (Right ceil Int.ceil x ↔ Searched (-x.value)) := by
  obtain ⟨hvalue, hfinite⟩ := opposite hx hmin
  have hpos : 0 ≤ (sub (integer 0) x).value := by rw [hvalue]; linarith
  have htargets : ⌊x.value⌋ = -⌈(sub (integer 0) x).value⌉ ∧ ⌈x.value⌉ = -⌊(sub (integer 0) x).value⌋ := by
    rw [hvalue, Int.ceil_neg, Int.floor_neg, neg_neg, neg_neg]
    exact ⟨rfl, rfl⟩
  have hopposite {r : ℚ} (hr : Fits 53 r) : (sub (integer 0) (real r)).value = -r := (@opposite (real r) hr (.inr ⟨r, rfl⟩)).1
  rw [← hvalue]
  constructor
  · refine right_iff (floor_neg hneg) (fun hgood => ?_) fun hbad turns i hsearch => ?_
    · obtain ⟨turns, i, hsearch, -, hi, hifinite⟩ := search_both hpos hgood
      exact ⟨turns, i, hsearch, by rw [htargets.1]; exact opposite_value hifinite hi (Int.ceil_nonneg hpos)⟩
    · obtain ⟨hne, s, hs, hfits⟩ := (search_neither hfinite hpos hbad hsearch).2
      rw [hs] at hne ⊢
      rw [hopposite hfits, htargets.1, Int.cast_neg, (bad_target hfinite hbad).2, Ne, neg_inj]
      exact hne
  · refine right_iff (ceil_neg hneg) (fun hgood => ?_) fun hbad turns i hsearch => ?_
    · obtain ⟨turns, i, hsearch, ⟨hi, hifinite⟩, -⟩ := search_both hpos hgood
      exact ⟨turns, i, hsearch, by rw [htargets.2]; exact opposite_value hifinite hi (Int.floor_nonneg.mpr hpos)⟩
    · obtain ⟨hne, s, hs, hfits⟩ := (search_neither hfinite hpos hbad hsearch).1
      rw [hs] at hne ⊢
      rw [hopposite hfits, htargets.2, Int.cast_neg, (bad_target hfinite hbad).1, Ne, neg_inj]
      exact hne

theorem search_least (h : search (integer (BitVec.intMin 64)) turns = some i) : i = integer 0 :=
  (search_persists _).unique h (search_ends (Nat.zero_le 62) (fun _ hlt => absurd hlt (Nat.not_lt_zero _)) (by rw [Doubles]; decide))

theorem not_right_least : ¬Right floor Int.floor (integer (BitVec.intMin 64)) ∧
    ¬Right ceil Int.ceil (integer (BitVec.intMin 64)) := by
  have hvalue : value (integer (BitVec.intMin 64)) = ((-2 ^ 63 : Int) : ℚ) := rfl
  have hneg : value (integer (BitVec.intMin 64)) < 0 := by rw [hvalue]; norm_num
  have hsame : sub (integer 0) (integer (BitVec.intMin 64)) = integer (BitVec.intMin 64) := by decide
  have hup : above (integer 0) (integer (BitVec.intMin 64)) = integer 0 := by decide
  have hzero : (sub (integer 0) (integer 0)).value ≠ ((-2 ^ 63 : Int) : ℚ) := by
    rw [show sub (integer 0) (integer 0) = integer 0 by decide, value, show (0 : BitVec 64).toInt = 0 by decide]
    norm_num
  constructor
  · rintro ⟨turns, r, hrun, hr⟩
    rw [floor_neg hneg, hsame] at hrun
    obtain ⟨i, hsearch, rfl⟩ := Option.map_eq_some_iff.mp hrun
    rw [search_least hsearch, hup, hvalue, Int.floor_intCast] at hr
    exact hzero hr
  · rintro ⟨turns, r, hrun, hr⟩
    rw [ceil_neg hneg, hsame] at hrun
    obtain ⟨i, hsearch, rfl⟩ := Option.map_eq_some_iff.mp hrun
    rw [search_least hsearch, hvalue, Int.ceil_intCast] at hr
    exact hzero hr

def Exact (x : Num) : Prop := |x.value| < 2 ^ 63 ∧ Fits 53 x.value ∧ |x.value| ≠ 2 ^ 53 + 2

/-- The functions give the integer below and above a number just where it is a double, smaller than `2 ^ 63` in magnitude,
and not `2 ^ 53 + 2` or its opposite. -/
theorem floor_ceil_right_iff {x : Num} (hx : x.Finite) :
    (Right floor Int.floor x ↔ Exact x) ∧ (Right ceil Int.ceil x ↔ Exact x) := by
  rcases le_or_gt 0 x.value with hpos | hneg
  · have hiff : Exact x ↔ Searched x.value := by rw [Exact, abs_of_nonneg hpos, Searched]
    rw [hiff]
    exact right_pos hx hpos
  · by_cases hmin : x.value ≠ -2 ^ 63 ∨ ∃ r, x = real r
    · have hiff : Exact x ↔ Searched (-x.value) := by
        have hfits : Fits 53 x.value ↔ Fits 53 (-x.value) := ⟨Fits.neg, fun h => by simpa using h.neg⟩
        rw [Exact, abs_of_neg hneg, Searched, hfits]
      rw [hiff]
      exact right_neg hx hneg hmin
    · push Not at hmin
      obtain ⟨hvalue, hinteger⟩ := hmin
      have hiff : ¬Exact x := by
        rintro ⟨hless, -⟩
        rw [hvalue] at hless
        norm_num at hless
      cases x with
      | real r => exact absurd rfl (hinteger r)
      | integer n =>
        obtain rfl : n = BitVec.intMin 64 := by
          apply BitVec.eq_of_toInt_eq
          have hn : (n.toInt : ℚ) = ((-2 ^ 63 : Int) : ℚ) := hvalue.trans (by norm_num)
          rw [BitVec.toInt_intMin]
          exact_mod_cast hn
        exact ⟨iff_of_false not_right_least.1 hiff, iff_of_false not_right_least.2 hiff⟩

theorem floor_ceil_right_half : Right floor Int.floor (real (1 / 2)) ↔ Exact (real (1 / 2)) :=
  (@floor_ceil_right_iff (real (1 / 2)) ⟨1, -1, by norm_num, by norm_num⟩).1

theorem floor_misses : (∃ turns, floor (integer 9007199254740994) turns = some (real 9007199254740992)) ∧
    ¬Right floor Int.floor (integer 9007199254740994) ∧ ∀ turns, floor (integer 9223372036854775807) turns = none := by
  have hvalue : value (integer 9007199254740994) = 2 ^ 53 + 2 := by
    rw [value, show (9007199254740994 : BitVec 64).toInt = 9007199254740994 by decide]
    norm_num
  have hpos : 0 ≤ value (integer 9007199254740994) := by rw [hvalue]; positivity
  refine ⟨?_, fun hright => ((@right_pos (integer 9007199254740994) trivial hpos).1.mp hright).2.2 hvalue, fun turns => ?_⟩
  · obtain ⟨turns, hsearch⟩ := search_short hvalue
    exact ⟨turns, by rw [floor_pos hpos, hsearch]; norm_num⟩
  · have hlargest : (9223372036854775807 : BitVec 64).toInt = 2 ^ 63 - 1 := by decide
    have hnonneg : 0 ≤ value (integer 9223372036854775807) := by rw [value, hlargest]; norm_num
    rw [floor_pos hnonneg]
    refine search_runs (fun turn => ?_) turns
    rcases Nat.lt_or_ge turn 63 with hlt | hge
    · rw [doubles_integer (by omega), hlargest]
      have hmost : (2 : ℚ) ^ (turn + 1) ≤ 2 ^ 63 := pow_le_pow_right₀ (by norm_num) (by omega)
      push_cast
      linarith
    · exact doubles_late hnonneg hge

end Ussr.FloorCeil
