import Mathlib.Data.Int.Log
import Mathlib.Data.Rat.Floor
import Mathlib.Tactic.Positivity

/-! Rounding of rationals to a number of significant binary digits, ties to even, and the numbers
that it keeps. The exponent has no bounds. -/

namespace Ussr.Rounding

/-- The integer nearest to `x`, of two the even one. -/
def nearest (x : ℚ) : Int :=
  if 2 * (x - ⌊x⌋) < 1 then ⌊x⌋
  else if 2 * (x - ⌊x⌋) = 1 ∧ ⌊x⌋ % 2 = 0 then ⌊x⌋
  else ⌊x⌋ + 1

/-- `x` with `p` significant binary digits. -/
def round (p : Nat) (x : ℚ) : ℚ :=
  if x = 0 then 0 else nearest (x / 2 ^ (Int.log 2 |x| + 1 - p)) * 2 ^ (Int.log 2 |x| + 1 - p)

/-- A number with at most `p` significant binary digits. -/
def Fits (p : Nat) (x : ℚ) : Prop := ∃ m k : Int, x = m * 2 ^ k ∧ |m| < 2 ^ p

theorem nearest_int (m : Int) : nearest m = m := by
  unfold nearest
  rw [Int.floor_intCast, sub_self, mul_zero, if_pos one_pos]

theorem round_zero (p : Nat) : round p 0 = 0 := if_pos rfl

theorem round_of_fits {p : Nat} {x : ℚ} (h : Fits p x) : round p x = x := by
  obtain ⟨m, k, rfl, hm⟩ := h
  unfold round
  split
  next hzero => exact hzero.symm
  next hne =>
    have hpos : (0 : ℚ) < |(m : ℚ) * 2 ^ k| := abs_pos.mpr hne
    generalize hlog : Int.log 2 |(m : ℚ) * 2 ^ k| = e
    have hbelow : (2 : ℚ) ^ e ≤ |(m : ℚ) * 2 ^ k| := by
      rw [← hlog]
      exact Int.zpow_log_le_self (by norm_num) hpos
    have habove : |(m : ℚ) * 2 ^ k| < 2 ^ ((p : Int) + k) := by
      rw [abs_mul, abs_of_pos (zpow_pos (by norm_num : (0 : ℚ) < 2) k), zpow_add₀ (by norm_num), zpow_natCast]
      have hm' : |(m : ℚ)| < 2 ^ p := by exact_mod_cast hm
      exact mul_lt_mul_of_pos_right hm' (zpow_pos (by norm_num) k)
    have he : e < p + k := (zpow_lt_zpow_iff_right₀ (by norm_num)).mp (hbelow.trans_lt habove)
    obtain ⟨n, hn⟩ := Int.eq_ofNat_of_zero_le (by omega : 0 ≤ k - (e + 1 - p))
    have hscaled : (m : ℚ) * 2 ^ k / 2 ^ (e + 1 - p) = ((m * 2 ^ n : Int) : ℚ) := by
      rw [mul_div_assoc, ← zpow_sub₀ (by norm_num), hn]
      push_cast
      rw [zpow_natCast]
    rw [hscaled, nearest_int, ← hscaled, div_mul_cancel₀]
    exact (zpow_pos (by norm_num) _).ne'

theorem fits_div {p : Nat} (m : Int) (j : Nat) (hm : |m| < 2 ^ p) : Fits p (m / 2 ^ j) := by
  refine ⟨m, -j, ?_, hm⟩
  rw [zpow_neg, zpow_natCast, div_eq_mul_inv]

theorem fits_int {p : Nat} (m : Int) (hm : |m| < 2 ^ p) : Fits p m :=
  ⟨m, 0, by rw [zpow_zero, mul_one], hm⟩

theorem Fits.scale {p : Nat} {x : ℚ} (h : Fits p x) (j : Int) : Fits p (x * 2 ^ j) := by
  obtain ⟨m, k, rfl, hm⟩ := h
  exact ⟨m, k + j, by rw [mul_assoc, zpow_add₀ (by norm_num)], hm⟩

theorem Fits.neg {p : Nat} {x : ℚ} (h : Fits p x) : Fits p (-x) := by
  obtain ⟨m, k, rfl, hm⟩ := h
  exact ⟨-m, k, by push_cast; ring, by rwa [abs_neg]⟩

theorem nearest_bounds (x : ℚ) : ⌊x⌋ ≤ nearest x ∧ nearest x ≤ ⌊x⌋ + 1 := by
  unfold nearest
  split_ifs <;> omega

theorem nearest_mono {x y : ℚ} (h : x ≤ y) : nearest x ≤ nearest y := by
  have hfloor : ⌊x⌋ ≤ ⌊y⌋ := Int.floor_le_floor h
  rcases hfloor.lt_or_eq with hlt | heq
  · have hx := (nearest_bounds x).2
    have hy := (nearest_bounds y).1
    omega
  · unfold nearest
    rw [heq]
    have hrest : x - ⌊y⌋ ≤ y - ⌊y⌋ := by linarith
    by_cases hy : 2 * (y - ⌊y⌋) < 1
    · rw [if_pos hy, if_pos (by linarith)]
    · rw [if_neg hy]
      by_cases hye : 2 * (y - ⌊y⌋) = 1 ∧ ⌊y⌋ % 2 = 0
      · rw [if_pos hye]
        by_cases hx : 2 * (x - ⌊y⌋) < 1
        · rw [if_pos hx]
        · rw [if_neg hx, if_pos ⟨le_antisymm (by linarith [hye.1]) (not_lt.mp hx), hye.2⟩]
      · rw [if_neg hye]
        split_ifs <;> omega

theorem nearest_even {m : Int} {x : ℚ} (heven : m % 2 = 0) (hlow : m - 1 / 2 ≤ x) (hhigh : x ≤ m + 1 / 2) :
    nearest x = m := by
  unfold nearest
  rcases lt_or_ge x m with hlt | hge
  · have hfloor : ⌊x⌋ = m - 1 := by
      rw [Int.floor_eq_iff]
      push_cast
      constructor <;> linarith
    rw [hfloor, if_neg (by push_cast; linarith), if_neg (by rintro ⟨-, h⟩; omega)]
    omega
  · have hfloor : ⌊x⌋ = m := by
      rw [Int.floor_eq_iff]
      constructor <;> linarith
    rw [hfloor]
    by_cases hless : 2 * (x - m) < 1
    · rw [if_pos hless]
    · rw [if_neg hless, if_pos ⟨by linarith, heven⟩]

section

variable {p : Nat} {x y : ℚ} {e : Int}

theorem two_zpow_pos (e : Int) : (0 : ℚ) < 2 ^ e := zpow_pos (by norm_num) e

theorem log_eq (hx : 0 < x) (hlow : (2 : ℚ) ^ e ≤ x) (hhigh : x < 2 ^ (e + 1)) : Int.log 2 x = e := by
  have hleast : e ≤ Int.log 2 x := (Int.zpow_le_iff_le_log (by norm_num) hx).mp (by exact_mod_cast hlow)
  have hmost : Int.log 2 x < e + 1 := (Int.lt_zpow_iff_log_lt (by norm_num) hx).mp (by exact_mod_cast hhigh)
  omega

theorem round_binade (hlow : 2 ^ e ≤ x) (hhigh : x < 2 ^ (e + 1)) :
    round p x = nearest (x / 2 ^ (e + 1 - p)) * 2 ^ (e + 1 - p) := by
  have hpos : 0 < x := (two_zpow_pos e).trans_le hlow
  rw [round, if_neg hpos.ne', abs_of_pos hpos, log_eq hpos hlow hhigh]

/-- An even multiple of the unit takes what is not more than half a unit away from it. -/
theorem round_even {m : Int} (heven : m % 2 = 0) (hlow : 2 ^ e ≤ x) (hhigh : x < 2 ^ (e + 1))
    (hbelow : m * 2 ^ (e + 1 - p) - 2 ^ (e + 1 - p) / 2 ≤ x)
    (habove : x ≤ m * 2 ^ (e + 1 - p) + 2 ^ (e + 1 - p) / 2) : round p x = m * 2 ^ (e + 1 - p) := by
  have hunit := two_zpow_pos (e + 1 - p)
  rw [round_binade hlow hhigh, nearest_even heven]
  · rw [le_div_iff₀ hunit]
    linarith
  · rw [div_le_iff₀ hunit]
    linarith

theorem unit_mul (hp : 0 < p) (e : Int) : ((2 : Int) ^ (p - 1) : Int) * (2 : ℚ) ^ (e + 1 - p) = 2 ^ e := by
  obtain ⟨q, rfl⟩ : ∃ q, p = q + 1 := ⟨p - 1, by omega⟩
  rw [Nat.add_sub_cancel, Int.cast_pow, Int.cast_ofNat, ← zpow_natCast, ← zpow_add₀ (by norm_num)]
  congr 1
  omega

theorem nearest_binade (hp : 0 < p) (hlow : 2 ^ e ≤ x) (hhigh : x < 2 ^ (e + 1)) :
    2 ^ (p - 1) ≤ nearest (x / 2 ^ (e + 1 - p)) ∧ nearest (x / 2 ^ (e + 1 - p)) ≤ 2 * 2 ^ (p - 1) := by
  have hunit := two_zpow_pos (e + 1 - p)
  have hmul := unit_mul hp e
  constructor
  · have hmono := nearest_mono (x := ((2 ^ (p - 1) : Int) : ℚ)) (y := x / 2 ^ (e + 1 - p)) (by
      rw [le_div_iff₀ hunit, hmul]
      exact hlow)
    rwa [nearest_int] at hmono
  · have hmono := nearest_mono (x := x / 2 ^ (e + 1 - p)) (y := ((2 * 2 ^ (p - 1) : Int) : ℚ)) (by
      rw [div_le_iff₀ hunit, Int.cast_mul, mul_assoc, hmul, Int.cast_ofNat, ← zpow_one_add₀ (by norm_num), add_comm]
      exact hhigh.le)
    rwa [nearest_int] at hmono

theorem round_in_binade (hp : 0 < p) (hlow : 2 ^ e ≤ x) (hhigh : x < 2 ^ (e + 1)) :
    2 ^ e ≤ round p x ∧ round p x ≤ 2 ^ (e + 1) := by
  have hunit := two_zpow_pos (e + 1 - p)
  have hmul := unit_mul hp e
  obtain ⟨hleast, hmost⟩ := nearest_binade hp hlow hhigh
  rw [round_binade hlow hhigh]
  constructor
  · rw [← hmul]
    exact mul_le_mul_of_nonneg_right (by exact_mod_cast hleast) hunit.le
  · have hscaled := mul_le_mul_of_nonneg_right ((@Int.cast_le ℚ _ _ _ _ _ _ _).mpr hmost) hunit.le
    rwa [Int.cast_mul, mul_assoc, hmul, Int.cast_ofNat, ← zpow_one_add₀ (by norm_num), add_comm 1 e] at hscaled

theorem binade (hx : 0 < x) : (2 : ℚ) ^ Int.log 2 x ≤ x ∧ x < 2 ^ (Int.log 2 x + 1) :=
  ⟨by exact_mod_cast Int.zpow_log_le_self (by norm_num) hx, by exact_mod_cast Int.lt_zpow_succ_log_self (by norm_num) x⟩

theorem round_mono (hp : 0 < p) (hx : 0 < x) (h : x ≤ y) : round p x ≤ round p y := by
  obtain ⟨hxlow, hxhigh⟩ := binade hx
  obtain ⟨hylow, hyhigh⟩ := binade (hx.trans_le h)
  rcases (Int.log_mono_right hx h : Int.log 2 x ≤ Int.log 2 y).lt_or_eq with hlt | heq
  · have hstep : (2 : ℚ) ^ (Int.log 2 x + 1) ≤ 2 ^ Int.log 2 y := zpow_le_zpow_right₀ (by norm_num) hlt
    exact (round_in_binade hp hxlow hxhigh).2.trans (hstep.trans (round_in_binade hp hylow hyhigh).1)
  · have hunit := two_zpow_pos (Int.log 2 y + 1 - p)
    rw [heq] at hxlow hxhigh
    rw [round_binade hxlow hxhigh, round_binade hylow hyhigh]
    have hnearest := nearest_mono (div_le_div_of_nonneg_right h hunit.le)
    exact mul_le_mul_of_nonneg_right (by exact_mod_cast hnearest) hunit.le

theorem round_pos (hp : 0 < p) (hx : 0 < x) : 0 < round p x := by
  obtain ⟨hlow, hhigh⟩ := binade hx
  exact (two_zpow_pos _).trans_le (round_in_binade hp hlow hhigh).1

theorem round_fits (hp : 0 < p) (hx : 0 < x) : Fits p (round p x) := by
  obtain ⟨hlow, hhigh⟩ := binade hx
  obtain ⟨hleast, hmost⟩ := nearest_binade hp hlow hhigh
  rw [round_binade hlow hhigh]
  obtain ⟨q, rfl⟩ : ∃ q, p = q + 1 := ⟨p - 1, by omega⟩
  rw [Nat.add_sub_cancel] at hleast hmost
  have hpower : (0 : Int) < 2 ^ q := by positivity
  rcases hmost.lt_or_eq with hlt | heq
  · exact ⟨_, _, rfl, by rw [abs_of_nonneg (by omega), pow_succ]; omega⟩
  · refine ⟨2 ^ q, Int.log 2 x + 1 - (q + 1 : Nat) + 1, ?_, by rw [abs_of_pos hpower, pow_succ]; omega⟩
    rw [heq, zpow_add_one₀ (by norm_num)]
    push_cast
    ring

theorem Fits.multiple (h : Fits p x) (hlow : 2 ^ e ≤ x) : ∃ n : Int, x = n * 2 ^ (e + 1 - p) := by
  obtain ⟨m, k, rfl, hm⟩ := h
  have hless : (m : ℚ) * 2 ^ k < 2 ^ ((p : Int) + k) := by
    rw [zpow_add₀ (by norm_num), zpow_natCast]
    have hm' : (m : ℚ) < 2 ^ p := by exact_mod_cast lt_of_abs_lt hm
    exact mul_lt_mul_of_pos_right hm' (two_zpow_pos k)
  have he : e < p + k := (zpow_lt_zpow_iff_right₀ (by norm_num)).mp (hlow.trans_lt hless)
  obtain ⟨n, hn⟩ := Int.eq_ofNat_of_zero_le (by omega : 0 ≤ k - (e + 1 - p))
  refine ⟨m * 2 ^ n, ?_⟩
  push_cast
  rw [← zpow_natCast, mul_assoc, ← zpow_add₀ (by norm_num), ← hn]
  congr 2
  omega

end

end Ussr.Rounding
