import Ussr.RealText

/-! The texts of doubles are short: `%g` writes six significant digits, a point and
an exponent of few digits. -/

namespace Ussr.Real64
open Decimal

theorem roundRatio_le (num den : Nat) : roundRatio num den ≤ num / den + 1 := by
  unfold roundRatio
  dsimp only
  split_ifs <;> omega

theorem scale_leadingExponent_lt {num den : Nat} (hnum : num ≠ 0) (hden : den ≠ 0) :
    (scale 10 num den (5 - leadingExponent num den)).1 /
      (scale 10 num den (5 - leadingExponent num den)).2 < 10 ^ 6 := by
  unfold leadingExponent
  split_ifs with hle
  · have hlog := Nat.lt_pow_succ_log_self (b := 10) (by decide) (num / den)
    rw [Nat.div_lt_iff_lt_mul (Nat.pos_of_ne_zero hden)] at hlog
    generalize Nat.log 10 (num / den) = l at hlog ⊢
    unfold scale
    split_ifs with hexp
    · rw [Nat.div_lt_iff_lt_mul (Nat.pos_of_ne_zero hden)]
      calc num * 10 ^ (5 - (l : Int)).toNat
          < 10 ^ (l + 1) * den * 10 ^ (5 - (l : Int)).toNat :=
            Nat.mul_lt_mul_of_pos_right hlog (Nat.pow_pos (by decide))
        _ = 10 ^ (l + 1 + (5 - (l : Int)).toNat) * den := by ring
        _ = 10 ^ 6 * den := by rw [show l + 1 + (5 - (l : Int)).toNat = 6 by omega]
    · rw [Nat.div_lt_iff_lt_mul (Nat.mul_pos (Nat.pos_of_ne_zero hden) (Nat.pow_pos (by decide)))]
      calc num < 10 ^ (l + 1) * den := hlog
        _ = 10 ^ (6 + (-(5 - (l : Int))).toNat) * den := by
            rw [show 6 + (-(5 - (l : Int))).toNat = l + 1 by omega]
        _ = 10 ^ 6 * (den * 10 ^ (-(5 - (l : Int))).toNat) := by ring
  · have htwo : 1 < (den + num - 1) / num := by
      rw [Nat.lt_div_iff_mul_lt (Nat.pos_of_ne_zero hnum)]
      omega
    have hclog := Nat.pow_pred_clog_lt_self (b := 10) (by decide) htwo
    have hone : 1 ≤ Nat.clog 10 ((den + num - 1) / num) := Nat.clog_pos (by decide) htwo
    generalize Nat.clog 10 ((den + num - 1) / num) = c at hclog hone ⊢
    have hpow : 10 ^ (c - 1) * num < den := by
      have hmul := (Nat.le_div_iff_mul_le (Nat.pos_of_ne_zero hnum)).mp hclog
      rw [Nat.succ_mul] at hmul
      have := Nat.pos_of_ne_zero hnum
      rw [Nat.pred_eq_sub_one] at hmul
      omega
    rw [scale, if_pos (by omega), Nat.div_lt_iff_lt_mul (Nat.pos_of_ne_zero hden)]
    calc num * 10 ^ (5 - -(c : Int)).toNat
        = 10 ^ 6 * (10 ^ (c - 1) * num) := by
          rw [show (5 - -(c : Int)).toNat = 6 + (c - 1) by omega]
          ring
      _ < 10 ^ 6 * den := Nat.mul_lt_mul_of_pos_left hpow (by decide)

theorem significant_le {num den : Nat} (hnum : num ≠ 0) (hden : den ≠ 0) :
    (significant num den).1 ≤ 10 ^ 6 := by
  have hlt := scale_leadingExponent_lt hnum hden
  have hround := roundRatio_le (scale 10 num den (5 - leadingExponent num den)).1
    (scale 10 num den (5 - leadingExponent num den)).2
  unfold significant
  dsimp only
  split_ifs
  · exact Nat.pow_le_pow_right (by decide) (by decide)
  · dsimp only
    omega

theorem leadingExponent_natAbs_le {num den k : Nat} (hnum : num < 2 ^ k) (hden : den < 2 ^ k)
    (hpos : den ≠ 0) : (leadingExponent num den).natAbs ≤ k + 1 := by
  have hten : 2 ^ (k + 1) ≤ 10 ^ (k + 1) := Nat.pow_le_pow_left (by decide) _
  unfold leadingExponent
  split_ifs with hle
  · have hdiv : num / den ≠ 0 := (Nat.div_pos hle (Nat.pos_of_ne_zero hpos)).ne'
    have hlt : num / den < 10 ^ (k + 1) :=
      (Nat.div_le_self num den).trans_lt (by rw [pow_succ] at hten; omega)
    have := Nat.log_lt_of_lt_pow hdiv hlt
    omega
  · have hceil : (den + num - 1) / num ≤ 10 ^ (k + 1) :=
      (Nat.div_le_self _ num).trans (by rw [pow_succ] at hten; omega)
    have := Nat.clog_le_of_le_pow hceil
    omega

theorem length_stripZeros_le (digits : List UInt8) : (stripZeros digits).length ≤ digits.length := by
  rw [stripZeros, List.length_reverse]
  exact (List.dropWhile_sublist _).length_le.trans_eq List.length_reverse

theorem length_withPoint_le (whole decimals : List UInt8) :
    (withPoint whole decimals).length ≤ whole.length + decimals.length + 1 := by
  unfold withPoint
  split_ifs
  · omega
  · rw [List.length_append, List.length_append, show (ascii ".").length = 1 from rfl]
    omega

theorem length_formatRatio_le {num den : Nat} (hnum : num < 2 ^ 1100) (hden : den < 2 ^ 1100)
    (hne : num ≠ 0) (hpos : den ≠ 0) : (formatRatio num den).length ≤ 30 := by
  have hdigits : (decimal (significant num den).1).length ≤ 7 :=
    decimal_length_le ((significant_le hne hpos).trans_lt (by decide)) (by decide)
  have hexp : ((significant num den).2).natAbs ≤ 1102 := by
    have := leadingExponent_natAbs_le hnum hden hpos
    unfold significant
    dsimp only
    split_ifs <;> dsimp only <;> omega
  have hpower : (decimal ((significant num den).2).natAbs).length ≤ 5 :=
    decimal_length_le (hexp.trans_lt (by decide)) (by decide)
  unfold formatRatio
  dsimp only
  generalize decimal (significant num den).1 = digits at hdigits ⊢
  generalize (significant num den).2 = exponent at hpower ⊢
  by_cases hform : exponent < -4 ∨ 6 ≤ exponent
  · rw [if_pos hform]
    have hfirst := length_withPoint_le (digits.take 1) (stripZeros (digits.drop 1))
    have hrest := length_stripZeros_le (digits.drop 1)
    have hsign : (ascii (if exponent < 0 then "e-" else "e+")).length = 2 := by
      split_ifs <;> rfl
    have hzero : (if (decimal exponent.natAbs).length < 2 then ascii "0" else []).length ≤ 1 := by
      split_ifs <;> decide
    rw [List.length_take] at hfirst
    rw [List.length_drop] at hrest
    simp only [List.length_append, hsign]
    omega
  rw [if_neg hform]
  split_ifs with hneg
  · refine (length_withPoint_le _ _).trans ?_
    have hrest := length_stripZeros_le (List.replicate (-exponent - 1).toNat 48 ++ digits)
    rw [List.length_append, List.length_replicate] at hrest
    rw [show (ascii "0").length = 1 from rfl]
    omega
  · refine (length_withPoint_le _ _).trans ?_
    have hrest := length_stripZeros_le (digits.drop (exponent.toNat + 1))
    rw [List.length_drop] at hrest
    rw [List.length_take]
    omega

theorem scale_two_lt {m : Nat} {k : Int} (hm : m < 2 ^ 53) (hlow : -1074 ≤ k) (hhigh : k ≤ 972) :
    (scale 2 m 1 k).1 < 2 ^ 1100 ∧ (scale 2 m 1 k).2 < 2 ^ 1100 ∧
      (m ≠ 0 → (scale 2 m 1 k).1 ≠ 0) ∧ (scale 2 m 1 k).2 ≠ 0 := by
  have hwide : (2 : Nat) ^ 53 < 2 ^ 1100 := Nat.pow_lt_pow_right (by decide) (by decide)
  unfold scale
  split_ifs with hk
  · refine ⟨?_, Nat.one_lt_two_pow_iff.mpr (by decide), fun hne => Nat.mul_ne_zero hne ?_, Nat.one_ne_zero⟩
    · calc m * 2 ^ k.toNat < 2 ^ 53 * 2 ^ k.toNat :=
            Nat.mul_lt_mul_of_pos_right hm (Nat.two_pow_pos _)
        _ = 2 ^ (53 + k.toNat) := (pow_add ..).symm
        _ ≤ 2 ^ 1100 := Nat.pow_le_pow_right (by decide) (by omega)
    · exact (Nat.two_pow_pos _).ne'
  · refine ⟨hm.trans hwide, ?_, id, ?_⟩
    · rw [Nat.one_mul]
      exact Nat.pow_lt_pow_right (by decide) (by omega)
    · rw [Nat.one_mul]
      exact (Nat.two_pow_pos _).ne'

theorem length_formatG_le (x : BitVec 64) : (formatG x).length ≤ 31 := by
  have hsign : (if x.msb then ascii "-" else []).length ≤ 1 := by
    split_ifs <;> decide
  have hfield : x.toNat / 2 ^ 52 % 2048 < 2048 := Nat.mod_lt _ (by decide)
  have hmantissa : x.toNat % 2 ^ 52 < 2 ^ 52 := Nat.mod_lt _ (by decide)
  unfold formatG
  dsimp only
  generalize x.toNat / 2 ^ 52 % 2048 = field at hfield ⊢
  generalize x.toNat % 2 ^ 52 = mantissa at hmantissa ⊢
  by_cases hspecial : field = 2047
  · have hname : (ascii (if mantissa = 0 then "inf" else "nan")).length = 3 := by
      split_ifs <;> rfl
    rw [if_pos hspecial, List.length_append, hname]
    omega
  rw [if_neg hspecial]
  have hm : (if field = 0 then mantissa else mantissa + 2 ^ 52) < 2 ^ 53 := by
    split_ifs <;> omega
  generalize (if field = 0 then mantissa else mantissa + 2 ^ 52) = m at hm ⊢
  obtain ⟨hnum, hden, hne, hpos⟩ :=
    scale_two_lt (k := ((max field 1 : Nat) : Int) - 1075) hm (by omega) (by omega)
  rw [List.length_append]
  by_cases hzero : m = 0
  · rw [if_pos hzero, show (ascii "0").length = 1 from rfl]
    omega
  · have hratio := length_formatRatio_le hnum hden (hne hzero) hpos
    rw [if_neg hzero]
    omega

end Ussr.Real64
