import Ussr.RealOrder
import Ussr.Strings

/-! The integer part of a quotient of integers, as `str_trunc` finds it. -/

namespace Ussr

variable {y : BitVec 64} {k a j : Nat}
namespace Real64

theorem ofRatio_nat {n d : Nat} (hd : d ≠ 0) (ha : 0 < a ∧ a < 2 ^ 53) (h : (n : ℚ) / d = a) : ofRatio n d = ofPos a := by
  obtain ⟨hlog, hleast, _⟩ := leading_bounds ha.1 ha.2
  have hpattern := ofRatio_pattern hd ha (Nat.zero_le 1000) (h.trans (by rw [pow_zero, div_one]))
  rw [hpattern, ofPos_pattern hlog hleast, Nat.sub_zero]

theorem amount_pos {n : Nat} (hpos : 0 < n) (hn : n < 2 ^ 53) : (magnitude (ofInt (BitVec.ofNat 64 n))).1 ≠ 0 := by
  intro hzero
  have hamount := amount_ofInt hn
  rw [amount, hzero, Nat.cast_zero, zero_div] at hamount
  exact absurd hamount (by exact_mod_cast hpos.ne)

theorem div_small_eq {b : Nat} (ha : a < 2 ^ 53) (hb : 0 < b ∧ b < 2 ^ 53) :
    ∃ n d : Nat, d ≠ 0 ∧ (n : ℚ) / d = a / b ∧
      div (ofInt (BitVec.ofNat 64 a)) (ofInt (BitVec.ofNat 64 b)) = withSign false (ofRatio n d) := by
  have hquotient := div_eq (n := BitVec.ofNat 64 a) (d := BitVec.ofNat 64 b) (by rw [toInt_ofNat_of_lt (by omega)]; omega)
    (by rw [toInt_ofNat_of_lt (by omega)]; omega)
  refine ⟨_, _, mul_ne_zero (magnitude_ne_zero _) (amount_pos hb.1 hb.2), ?_, hquotient⟩
  push_cast
  rw [mul_div_mul_comm, ← inv_div ((magnitude (ofInt (BitVec.ofNat 64 b))).1 : ℚ)]
  change amount _ * (amount _)⁻¹ = _
  rw [amount_ofInt ha, amount_ofInt hb.2, ← div_eq_mul_inv]

theorem toNat_ofInt_small (hpos : 0 < j) (hj : j < 2 ^ 53) : (ofInt (BitVec.ofNat 64 j)).toNat = ofPos j := by
  have hint := toInt_ofNat_of_lt (n := j) (by omega)
  rw [(ofInt_bounds (by rw [hint]; omega)).1, if_neg (by rw [hint]; omega), hint, Int.natAbs_natCast]

theorem le_ratio_iff {n d b : Nat} (hd : d ≠ 0) (hb : 0 < b) (h : (n : ℚ) / d = a / b) (hpos : 0 < j)
    (hj : j * b ≤ 2 ^ 52) : ofPos j ≤ ofRatio n d ↔ j * b ≤ a := by
  have hbq : (0 : ℚ) < b := by exact_mod_cast hb
  have hjb : j ≤ j * b := Nat.le_mul_of_pos_right j hb
  have hown : ofRatio j 1 = ofPos j := ofRatio_nat one_ne_zero ⟨hpos, by omega⟩ (by rw [Nat.cast_one, div_one])
  constructor
  · intro hle
    by_contra hless
    -- The quotient is at most the double below `j`.
    obtain ⟨t, hbt, htb⟩ : ∃ t, b ≤ 2 ^ t ∧ 2 ^ t < 2 * b := by
      refine ⟨Nat.clog 2 b, Nat.le_pow_clog (by decide) b, ?_⟩
      by_cases hone : b = 1
      · subst hone
        decide
      · have hlt := Nat.pow_pred_clog_lt_self (by decide : 1 < 2) (by omega : 1 < b)
        have hclog : 0 < Nat.clog 2 b := Nat.clog_pos (by decide) (by omega)
        calc 2 ^ Nat.clog 2 b = 2 * 2 ^ (Nat.clog 2 b).pred := by
              rw [← Nat.pow_succ', Nat.succ_pred_eq_of_pos hclog]
          _ < 2 * b := by omega
    have ha : a ≠ 0 := by
      rintro rfl
      have hn : n = 0 := by
        have hdq : (d : ℚ) ≠ 0 := by exact_mod_cast hd
        rw [Nat.cast_zero, zero_div, div_eq_zero_iff] at h
        exact_mod_cast h.resolve_right hdq
      rw [hn, ofRatio, if_pos rfl] at hle
      exact absurd (ofPos_pos hpos) (by omega)
    have hbjb : b ≤ j * b := Nat.le_mul_of_pos_left b hpos
    have ht : t < 54 := (Nat.pow_lt_pow_iff_right (by decide : 1 < 2)).mp (by omega)
    have hjt : j * b ≤ j * 2 ^ t := Nat.mul_le_mul_left j hbt
    have hjt' : j * 2 ^ t < 2 ^ 53 := by
      calc j * 2 ^ t < j * (2 * b) := Nat.mul_lt_mul_of_pos_left htb hpos
        _ = 2 * (j * b) := by ring
        _ ≤ 2 ^ 53 := by omega
    have hbelow : ofRatio n d ≤ ofRatio (j * 2 ^ t - 1) (2 ^ t) := by
      have htq : (0 : ℚ) < ((2 ^ t : Nat) : ℚ) := by exact_mod_cast Nat.two_pow_pos t
      refine ofRatio_mono hd (Nat.two_pow_pos t).ne' ?_
      rw [h, div_le_div_iff₀ hbq htq]
      have hcross : a * 2 ^ t ≤ (j * 2 ^ t - 1) * b := by
        calc a * 2 ^ t ≤ (j * b - 1) * 2 ^ t := Nat.mul_le_mul_right _ (by omega)
          _ = j * b * 2 ^ t - 2 ^ t := by rw [Nat.sub_mul, one_mul]
          _ ≤ j * b * 2 ^ t - b := Nat.sub_le_sub_left hbt _
          _ = (j * 2 ^ t - 1) * b := by rw [Nat.sub_mul, one_mul, Nat.mul_right_comm]
      exact_mod_cast hcross
    have hdown : amount (BitVec.ofNat 64 (ofRatio (j * 2 ^ t - 1) (2 ^ t))) < amount (ofInt (BitVec.ofNat 64 j)) := by
      have hvalue := amount_ofRatio (n := j * 2 ^ t - 1) (d := 2 ^ t) (a := j * 2 ^ t - 1) (j := t) (Nat.two_pow_pos t).ne'
        ⟨by omega, by omega⟩ (by omega) (by push_cast; rfl)
      rw [hvalue, amount_ofInt (by omega), div_lt_iff₀ (by positivity)]
      have hless : ((j * 2 ^ t - 1 : Nat) : ℚ) < ((j * 2 ^ t : Nat) : ℚ) := by
        exact_mod_cast Nat.sub_lt (by omega) Nat.one_pos
      push_cast at hless ⊢
      exact hless
    have hpattern := toNat_ofInt_small hpos (by omega : j < 2 ^ 53)
    have hbound := ofRatio_le (j * 2 ^ t - 1) (2 ^ t)
    refine absurd (amount_mono ?_) (not_le.mpr hdown)
    rw [hpattern, BitVec.toNat_ofNat]
    omega
  · intro hle
    rw [← hown]
    refine ofRatio_mono one_ne_zero hd ?_
    rw [Nat.cast_one, div_one, h, le_div_iff₀ hbq]
    exact_mod_cast hle

theorem half_bounds {r : Nat} (hy : Unsigned y r) (hr : r ≤ ofPos (k + 1)) (hk : k < 2 ^ 51) :
    ∃ h, Unsigned (div y (ofInt 2)) h ∧ (∀ p, 0 < p → p < 2 ^ 51 → ofPos (2 * p) ≤ r → ofPos p ≤ h) ∧
      ∀ p, 0 < p → p < 2 ^ 51 → ofPos p ≤ h → 2 * p ≤ k + 1 := by
  have hpatterns (j : Nat) (hpos : 0 < j) (hj : j < 2 ^ 53) := toNat_ofInt_small hpos hj
  have hfinite : r < 0x7ff0000000000000 := hr.trans_lt (ofPos_lt (by omega) (by omega))
  have htwo : magnitude (ofInt 2) = (4503599627370496, 2251799813685248) := by decide +kernel
  have hquotient : div y (ofInt 2) = withSign false (ofRatio ((magnitude y).1 * 2251799813685248)
      ((magnitude y).2 * 4503599627370496)) := by
    have hyinf : isInf y = false := decide_eq_false (by have h := hy.toNat; omega)
    have htinf : isInf (ofInt 2) = false := by decide +kernel
    have htzero : isZero (ofInt 2) = false := by decide +kernel
    have htmsb : (ofInt 2).msb = false := by decide +kernel
    unfold div
    rw [hy.number, isNaN_ofInt, hyinf, htinf, htzero, hy.msb, htmsb, htwo]
    simp only [Bool.and_false, Bool.or_false, Bool.false_eq_true, if_false, bne_self_eq_false]
  have hhalf : (((magnitude y).1 * 2251799813685248 : Nat) : ℚ) / ((magnitude y).2 * 4503599627370496 : Nat) = amount y / 2 := by
    rw [amount]
    push_cast
    rw [mul_div_mul_comm]
    norm_num
    ring
  have hden : (magnitude y).2 * 4503599627370496 ≠ 0 := mul_ne_zero (magnitude_ne_zero y) (by decide)
  refine ⟨_, hquotient ▸ unsigned_withSign (ofRatio_le _ _), fun p hpos hp hle => ?_, fun p hpos hp hle => ?_⟩
  · have hamount : amount (ofInt (BitVec.ofNat 64 (2 * p))) ≤ amount y := by
      refine amount_mono ?_
      rw [hpatterns (2 * p) (by omega) (by omega), hy.toNat]
      omega
    rw [amount_ofInt (by omega)] at hamount
    rw [← ofRatio_nat (n := p) (d := 1) one_ne_zero ⟨hpos, by omega⟩ (by rw [Nat.cast_one, div_one])]
    refine ofRatio_mono one_ne_zero hden ?_
    rw [hhalf, Nat.cast_one, div_one]
    push_cast at hamount
    linarith
  · have hamount : amount y ≤ amount (ofInt (BitVec.ofNat 64 (k + 1))) := by
      refine amount_mono ?_
      have hlt := ofPos_lt (m := k + 1) (by omega) (by omega)
      rw [hpatterns (k + 1) (by omega) (by omega), hy.toNat]
      omega
    rw [amount_ofInt (by omega)] at hamount
    have hmono : ofRatio ((magnitude y).1 * 2251799813685248) ((magnitude y).2 * 4503599627370496) ≤ ofRatio (k + 1) 2 := by
      refine ofRatio_mono hden two_ne_zero ?_
      rw [hhalf]
      push_cast at hamount ⊢
      linarith
    have hexact := (le_ratio_iff (n := k + 1) (d := 2) (a := k + 1) (b := 2) (j := p) two_ne_zero (by decide) rfl hpos
      (by omega)).mp (hle.trans hmono)
    omega

end Real64

open Real64

/-- What the loops of `str_trunc` compare with: a double whose integer part is `k`. -/
structure Truncates (y : BitVec 64) (k : Nat) : Prop where
  small : k < 2 ^ 50
  unsigned : ∃ r, Unsigned y r ∧ r ≤ ofPos (k + 1) ∧ ∀ j, 0 < j → j ≤ 2 * k + 2 → (ofPos j ≤ r ↔ j ≤ k)

theorem le_unsigned {r : Nat} (hy : Unsigned y r) (hpos : 0 < j) (hj : j < 2 ^ 53) :
    (Number.integer (BitVec.ofNat 64 j)).le (.real y) = decide (ofPos j ≤ r) := by
  have hint := toInt_ofNat_of_lt (n := j) (by omega)
  change Real64.le (ofInt (BitVec.ofNat 64 j)) y = _
  unfold Real64.le
  rw [isNaN_ofInt, hy.number, hy.rank, (unsigned_ofInt (by rw [hint]; omega)).rank, toNat_ofInt_small hpos hj]
  simp only [Nat.cast_le, Bool.not_false, Bool.true_and]

theorem Truncates.le (h : Truncates y k) (hpos : 0 < j) (hj : j ≤ 2 * k + 2) :
    (Number.integer (BitVec.ofNat 64 j)).le (.real y) = decide (j ≤ k) := by
  obtain ⟨r, hy, _, hle⟩ := h.unsigned
  have hsmall := h.small
  rw [le_unsigned hy hpos (by omega), decide_eq_decide]
  exact hle j hpos hj

theorem truncPower_eq (h : Truncates y k) (turns e : Nat) (he : 2 ^ e ≤ k + 1)
    (hturns : k + 1 < 2 ^ (e + turns)) :
    ∃ e', truncPower (.real y) turns (BitVec.ofNat 64 (2 ^ e)) = BitVec.ofNat 64 (2 ^ e') ∧ 2 ^ e' ≤ k + 1 ∧
      k < 2 ^ (e' + 1) := by
  obtain ⟨r, hy, hr, hle⟩ := h.unsigned
  have hsmall := h.small
  obtain ⟨half, hunsigned, hup, hdown⟩ := half_bounds hy hr (by omega)
  induction turns generalizing e with
  | zero =>
    have hsame : 2 ^ (e + 0) = 2 ^ e := rfl
    omega
  | succ turns ih =>
    have hpow : 0 < 2 ^ e := Nat.two_pow_pos e
    have hdouble : 2 ^ (e + 1) = 2 * 2 ^ e := Nat.pow_succ'
    have hcompare := le_unsigned hunsigned hpow (by omega)
    rw [truncPower]
    change ∃ e', (if (Number.integer (BitVec.ofNat 64 (2 ^ e))).le (.real (Real64.div y (ofInt 2))) = true then _ else _) = _ ∧ _
    by_cases hhalf : ofPos (2 ^ e) ≤ half
    · rw [hcompare, decide_eq_true hhalf, if_pos rfl]
      have hnext : BitVec.ofNat 64 (2 ^ e) * 2 = BitVec.ofNat 64 (2 ^ (e + 1)) := by
        rw [Nat.pow_succ, BitVec.ofNat_mul]
        rfl
      have hbound := hdown (2 ^ e) hpow (by omega) hhalf
      rw [hnext]
      exact ih (e + 1) (by omega) (by rwa [Nat.add_right_comm])
    · rw [hcompare, decide_eq_false hhalf, if_neg (by decide)]
      refine ⟨e, rfl, he, ?_⟩
      by_contra hlarge
      have hexact := (hle (2 * 2 ^ e) (by omega) (by omega)).mpr (by omega)
      exact hhalf (hup (2 ^ e) hpow (by omega) hexact)

theorem truncLoop_eq (h : Truncates y k) (turns e i : Nat) (he : 2 ^ e ≤ k + 1) (hi : i ≤ k)
    (hk : k < i + 2 ^ (e + 1)) (hturns : e + 1 < turns) :
    truncLoop (.real y) turns (BitVec.ofNat 64 (2 ^ e)) (BitVec.ofNat 64 i) = BitVec.ofNat 64 k := by
  have hsmall := h.small
  induction e generalizing turns i with
  | zero =>
    obtain ⟨turns, rfl⟩ : ∃ rest, turns = rest + 2 := ⟨turns - 2, by omega⟩
    have hone : (1 : BitVec 64).sle (BitVec.ofNat 64 (2 ^ 0)) = true := by decide
    have hzero : (1 : BitVec 64).sle ((BitVec.ofNat 64 (2 ^ 0)).sshiftRight 1) = false := by decide
    rw [truncLoop, if_pos hone, ← BitVec.ofNat_add, h.le (by omega) (by omega), truncLoop, if_neg (by rw [hzero]; decide)]
    simp only [decide_eq_true_eq]
    split
    · congr 1
      omega
    · congr 1
      omega
  | succ e ih =>
    obtain ⟨turns, rfl⟩ : ∃ rest, turns = rest + 1 := ⟨turns - 1, by omega⟩
    have hdouble : 2 ^ (e + 1) = 2 * 2 ^ e := Nat.pow_succ'
    have hpow : 0 < 2 ^ e := Nat.two_pow_pos e
    have hint := toInt_ofNat_of_lt (n := 2 ^ (e + 1)) (by omega)
    have hpositive : (1 : BitVec 64).sle (BitVec.ofNat 64 (2 ^ (e + 1))) = true := by
      rw [BitVec.sle_eq_decide, hint, decide_eq_true_eq]
      change (1 : Int) ≤ _
      omega
    have hhalved : (BitVec.ofNat 64 (2 ^ (e + 1))).sshiftRight 1 = BitVec.ofNat 64 (2 ^ e) := by
      rw [BitVec.sshiftRight_eq_of_msb_false (by rw [BitVec.msb_eq_toInt, hint]; simp)]
      refine BitVec.eq_of_toNat_eq ?_
      rw [BitVec.toNat_ushiftRight, BitVec.toNat_ofNat, BitVec.toNat_ofNat, Nat.shiftRight_eq_div_pow]
      omega
    rw [truncLoop, if_pos hpositive, hhalved, ← BitVec.ofNat_add, h.le (by omega) (by omega)]
    simp only [decide_eq_true_eq]
    split
    · exact ih turns (i + 2 ^ (e + 1)) (by omega) (by omega) (by omega) (by omega)
    · exact ih turns i (by omega) hi (by omega) (by omega)

theorem Real64.Unsigned.not_neg {r : Nat} (hy : Real64.Unsigned y r) : (Number.real y).lt (.integer 0) = false := by
  change Real64.lt y (Real64.ofInt 0) = false
  unfold Real64.lt
  rw [hy.rank, show Real64.rank (Real64.ofInt 0) = 0 from rfl, decide_eq_false (by omega), Bool.and_false]

theorem Truncates.strTrunc (h : Truncates y k) : strTrunc (.real y) = BitVec.ofNat 64 k := by
  obtain ⟨r, hy, hr, _⟩ := h.unsigned
  have hsmall := h.small
  have hsign := hy.not_neg
  have hlimit : (Number.integer 4611686018427387904).lt (.real y) = false := by
    change Real64.lt (Real64.ofInt 4611686018427387904) y = false
    have hrank : Real64.rank (Real64.ofInt 4611686018427387904) = ofPos (2 ^ 62) := by decide +kernel
    have hmono := ofPos_mono (m := k + 1) (n := 2 ^ 62) (by omega) (by omega)
    unfold Real64.lt
    rw [hy.rank, hrank, decide_eq_false (by omega), Bool.and_false]
  obtain ⟨e, hpower, hlow, hhigh⟩ := truncPower_eq h 64 0 (by omega) (by omega)
  have he : e < 63 := (Nat.pow_lt_pow_iff_right (by decide : 1 < 2)).mp (by omega)
  unfold Ussr.strTrunc
  simp only [hsign, hlimit, Bool.false_eq_true, if_false]
  rw [show (1 : BitVec 64) = BitVec.ofNat 64 (2 ^ 0) from rfl, hpower]
  exact truncLoop_eq h 64 e 0 hlow (Nat.zero_le k) (by omega) (by omega)

theorem strTrunc_div {b : Nat} (hb : 0 < b) (hsmall : 2 * (a + b) ≤ 2 ^ 51) :
    strTrunc ((Number.integer (BitVec.ofNat 64 a)).div (.integer (BitVec.ofNat 64 b))) = BitVec.ofNat 64 (a / b) := by
  obtain ⟨n, d, hd, hratio, hdiv⟩ := div_small_eq (a := a) (b := b) (by omega) ⟨hb, by omega⟩
  have hquotient : a / b ≤ a := Nat.div_le_self a b
  have hfloor : a / b * b ≤ a := Nat.div_mul_le_self a b
  have hle {j : Nat} (hpos : 0 < j) (hj : j ≤ 2 * (a / b) + 2) : ofPos j ≤ ofRatio n d ↔ j ≤ a / b := by
    have hjb : j * b ≤ 2 * (a / b * b) + 2 * b := by
      calc j * b ≤ (2 * (a / b) + 2) * b := Nat.mul_le_mul_right b hj
        _ = 2 * (a / b * b) + 2 * b := by ring
    rw [le_ratio_iff hd hb hratio hpos (by omega), Nat.le_div_iff_mul_le hb]
  have hbound : ofRatio n d ≤ ofPos (a / b + 1) := by
    by_contra hlarge
    have habove := (hle (j := a / b + 1) (Nat.succ_pos _) (by omega)).mp (Nat.le_of_lt (not_le.mp hlarge))
    exact absurd habove (Nat.not_succ_le_self _)
  have htruncates : Truncates (Real64.div (ofInt (BitVec.ofNat 64 a)) (ofInt (BitVec.ofNat 64 b))) (a / b) := by
    refine ⟨by omega, ofRatio n d, ?_, hbound, fun j hpos hj => hle hpos hj⟩
    rw [hdiv]
    exact unsigned_withSign (ofRatio_le n d)
  exact htruncates.strTrunc

end Ussr
