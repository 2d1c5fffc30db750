import Ussr.Library.Rounding
import Ussr.RealArithmetic

/-! The rounding of doubles as a rounding of rationals, and quotients in the order of their dividends. -/

namespace Ussr

variable {n den r : Nat} {d x : BitVec 64}

theorem toInt_ofNat_of_lt (hn : n < 2 ^ 63) : (BitVec.ofNat 64 n).toInt = n := by
  have hlt : n % 2 ^ 64 = n := Nat.mod_eq_of_lt (by omega)
  rw [BitVec.toInt_eq_toNat_of_lt (by rw [BitVec.toNat_ofNat, hlt]; omega), BitVec.toNat_ofNat, hlt]

namespace Real64
open Rounding

theorem roundRatio_eq (num : Nat) (hden : den ≠ 0) : (roundRatio num den : Int) = nearest (num / den : ℚ) := by
  have hpos : (0 : ℚ) < den := by exact_mod_cast Nat.pos_of_ne_zero hden
  have hfloor : ⌊(num / den : ℚ)⌋ = ((num / den : Nat) : Int) := by
    have hint := Rat.floor_intCast_div_natCast (num : Int) den
    push_cast at hint ⊢
    exact hint
  have hsplit : (num : ℚ) / den - ((num / den : Nat) : ℚ) = ((num % den : Nat) : ℚ) / den := by
    have hparts : (num : ℚ) = den * ((num / den : Nat) : ℚ) + ((num % den : Nat) : ℚ) := by
      exact_mod_cast (Nat.div_add_mod num den).symm
    rw [eq_div_iff hpos.ne', sub_mul, div_mul_cancel₀ _ hpos.ne']
    linarith
  have hless : 2 * (((num % den : Nat) : ℚ) / den) < 1 ↔ 2 * (num % den) < den := by
    rw [← mul_div_assoc, div_lt_one hpos]
    exact_mod_cast Iff.rfl
  have htie : 2 * (((num % den : Nat) : ℚ) / den) = 1 ↔ 2 * (num % den) = den := by
    rw [← mul_div_assoc, div_eq_one_iff_eq hpos.ne']
    exact_mod_cast Iff.rfl
  unfold roundRatio nearest
  simp only [hfloor, Int.cast_natCast, hsplit, hless, htie]
  split_ifs <;> omega

theorem scale_ratio (num : Nat) (hden : den ≠ 0) (k : Int) :
    ((scale 2 num den k).1 : ℚ) / (scale 2 num den k).2 = num / den * 2 ^ k ∧ (scale 2 num den k).2 ≠ 0 := by
  unfold scale
  split
  next hk =>
    obtain ⟨n, rfl⟩ := Int.eq_ofNat_of_zero_le hk
    refine ⟨?_, hden⟩
    push_cast
    rw [Int.toNat_natCast, zpow_natCast]
    ring
  next hk =>
    obtain ⟨n, hn⟩ := Int.eq_ofNat_of_zero_le (show 0 ≤ -k by omega)
    obtain rfl : k = -n := by omega
    refine ⟨?_, mul_ne_zero hden (pow_ne_zero _ (by decide))⟩
    rw [neg_neg, Int.toNat_natCast, zpow_neg, zpow_natCast]
    push_cast
    rw [div_mul_eq_div_div, div_eq_mul_inv _ ((2 : ℚ) ^ n)]

theorem log_ratio {num : Nat} (hnum : num ≠ 0) (hden : den ≠ 0) :
    Int.log 2 ((num : ℚ) / den) = if (scale 2 num den (-((num.log2 : Int) - den.log2))).1 <
      (scale 2 num den (-((num.log2 : Int) - den.log2))).2 then (num.log2 : Int) - den.log2 - 1 else num.log2 - den.log2 := by
  obtain ⟨hratio, hne⟩ := scale_ratio num hden (-((num.log2 : Int) - den.log2))
  have hnpos : (0 : ℚ) < num := by exact_mod_cast Nat.pos_of_ne_zero hnum
  have hdpos : (0 : ℚ) < den := by exact_mod_cast Nat.pos_of_ne_zero hden
  have hx : (0 : ℚ) < num / den := div_pos hnpos hdpos
  have hnum₁ : (2 : ℚ) ^ (num.log2 : Int) ≤ num := by exact_mod_cast Nat.log2_self_le hnum
  have hnum₂ : (num : ℚ) < 2 ^ ((num.log2 : Int) + 1) := by exact_mod_cast Nat.lt_log2_self (n := num)
  have hden₁ : (2 : ℚ) ^ (den.log2 : Int) ≤ den := by exact_mod_cast Nat.log2_self_le hden
  have hden₂ : (den : ℚ) < 2 ^ ((den.log2 : Int) + 1) := by exact_mod_cast Nat.lt_log2_self (n := den)
  have htwo (k : Int) : (0 : ℚ) < 2 ^ k := zpow_pos (by norm_num) k
  generalize (num.log2 : Int) = a at *
  generalize (den.log2 : Int) = b at *
  have habove : (num : ℚ) / den < 2 ^ (a - b + 1) := by
    rw [div_lt_iff₀ hdpos]
    calc (num : ℚ) < 2 ^ (a + 1) := hnum₂
      _ = 2 ^ (a - b + 1) * 2 ^ b := by rw [← zpow_add₀ (by norm_num)]; congr 1; omega
      _ ≤ 2 ^ (a - b + 1) * den := mul_le_mul_of_nonneg_left hden₁ (htwo _).le
  have hbelow : (2 : ℚ) ^ (a - b - 1) ≤ num / den := by
    rw [le_div_iff₀ hdpos]
    calc (2 : ℚ) ^ (a - b - 1) * den ≤ 2 ^ (a - b - 1) * 2 ^ (b + 1) := mul_le_mul_of_nonneg_left hden₂.le (htwo _).le
      _ = 2 ^ a := by rw [← zpow_add₀ (by norm_num)]; congr 1; omega
      _ ≤ num := hnum₁
  have hcompare : (scale 2 num den (-(a - b))).1 < (scale 2 num den (-(a - b))).2 ↔ (num : ℚ) / den < 2 ^ (a - b) := by
    have hpos : (0 : ℚ) < (scale 2 num den (-(a - b))).2 := by exact_mod_cast Nat.pos_of_ne_zero hne
    have hone : (((scale 2 num den (-(a - b))).1 : ℚ) < (scale 2 num den (-(a - b))).2) ↔ (num : ℚ) / den < 2 ^ (a - b) := by
      rw [← div_lt_one hpos, hratio, zpow_neg, ← div_eq_mul_inv, div_lt_one (htwo _)]
    rw [← hone]
    exact_mod_cast Iff.rfl
  split
  next hless => exact log_eq hx hbelow (by rw [sub_add_cancel]; exact hcompare.mp hless)
  next hless => exact log_eq hx (not_lt.mp (mt hcompare.mpr hless)) habove

def exponent (x : ℚ) : Int := max (Int.log 2 x) (-1022)

theorem ofRatio_eq {num : Nat} (hnum : num ≠ 0) (hden : den ≠ 0) :
    (ofRatio num den : Int) = min ((exponent ((num : ℚ) / den) + 1022) * 2 ^ 52 +
      nearest ((num : ℚ) / den * 2 ^ (52 - exponent ((num : ℚ) / den)))) 0x7ff0000000000000 := by
  have hunfold : ofRatio num den = min ((exponent ((num : ℚ) / den) + 1022).toNat * 2 ^ 52 +
      roundRatio (scale 2 num den (52 - exponent ((num : ℚ) / den))).1
        (scale 2 num den (52 - exponent ((num : ℚ) / den))).2) 0x7ff0000000000000 := by
    unfold exponent
    rw [log_ratio hnum hden]
    exact if_neg hnum
  obtain ⟨hratio, hne⟩ := scale_ratio num hden (52 - exponent ((num : ℚ) / den))
  have hround := roundRatio_eq (scale 2 num den (52 - exponent ((num : ℚ) / den))).1 hne
  rw [hratio] at hround
  have hexponent : -1022 ≤ exponent ((num : ℚ) / den) := le_max_right _ _
  rw [hunfold, Nat.cast_min, Nat.cast_add, Nat.cast_mul, hround, Int.toNat_of_nonneg (by omega)]
  rfl

theorem mantissa_bounds {x : ℚ} (hx : 0 < x) :
    nearest (x * 2 ^ (52 - exponent x)) ≤ 2 ^ 53 ∧
      (exponent x = Int.log 2 x → 2 ^ 52 ≤ nearest (x * 2 ^ (52 - exponent x))) := by
  have htwo (k : Int) : (0 : ℚ) < 2 ^ k := zpow_pos (by norm_num) k
  have hlog : Int.log 2 x ≤ exponent x := le_max_left _ _
  constructor
  · have habove : x < 2 ^ (exponent x + 1) := by
      have hlt := Int.lt_zpow_succ_log_self (b := 2) (by decide) x
      push_cast at hlt
      exact hlt.trans_le (zpow_le_zpow_right₀ (by norm_num) (by omega))
    have hscaled : x * 2 ^ (52 - exponent x) ≤ ((2 ^ 53 : Int) : ℚ) := by
      have heq : (2 : ℚ) ^ (exponent x + 1) * 2 ^ (52 - exponent x) = 2 ^ (53 : Int) := by
        rw [← zpow_add₀ (by norm_num)]
        congr 1
        omega
      have hmul := mul_lt_mul_of_pos_right habove (htwo (52 - exponent x))
      rw [heq] at hmul
      exact_mod_cast hmul.le
    exact (nearest_mono hscaled).trans (nearest_int _).le
  · intro heq
    have hbelow : (2 : ℚ) ^ exponent x ≤ x := by
      have hle := Int.zpow_log_le_self (b := 2) (by decide) hx
      push_cast at hle
      rwa [heq]
    have hscaled : ((2 ^ 52 : Int) : ℚ) ≤ x * 2 ^ (52 - exponent x) := by
      have heq : (2 : ℚ) ^ exponent x * 2 ^ (52 - exponent x) = 2 ^ (52 : Int) := by
        rw [← zpow_add₀ (by norm_num)]
        congr 1
        omega
      have hmul := mul_le_mul_of_nonneg_right hbelow (htwo (52 - exponent x)).le
      rw [heq] at hmul
      exact_mod_cast hmul
    exact (nearest_int _).ge.trans (nearest_mono hscaled)

theorem ofRatio_mono {d n' d' : Nat} (hd : d ≠ 0) (hd' : d' ≠ 0) (h : (n : ℚ) / d ≤ n' / d') :
    ofRatio n d ≤ ofRatio n' d' := by
  by_cases hn : n = 0
  · rw [hn, ofRatio, if_pos rfl]
    exact Nat.zero_le _
  have hx : (0 : ℚ) < n / d := div_pos (by exact_mod_cast Nat.pos_of_ne_zero hn) (by exact_mod_cast Nat.pos_of_ne_zero hd)
  have hn' : n' ≠ 0 := by
    rintro rfl
    rw [Nat.cast_zero, zero_div] at h
    exact absurd (hx.trans_le h) (lt_irrefl _)
  zify
  rw [ofRatio_eq hn hd, ofRatio_eq hn' hd']
  refine min_le_min_right _ ?_
  generalize (n : ℚ) / d = x at *
  generalize (n' : ℚ) / d' = y at *
  have hlog : Int.log 2 x ≤ Int.log 2 y := Int.log_mono_right hx h
  have hexponent : exponent x ≤ exponent y := max_le_max_right _ hlog
  obtain hlt | heq := hexponent.lt_or_eq
  · have hbelow := (mantissa_bounds hx).1
    have habove := (mantissa_bounds (hx.trans_le h)).2 (by unfold exponent at *; omega)
    omega
  · rw [heq]
    have hmantissa := nearest_mono (mul_le_mul_of_nonneg_right h (zpow_pos (by norm_num : (0 : ℚ) < 2) (52 - exponent y)).le)
    omega

def amount (x : BitVec 64) : ℚ := (magnitude x).1 / (magnitude x).2

theorem magnitude_ne_zero (x : BitVec 64) : (magnitude x).2 ≠ 0 := (scale_ratio _ one_ne_zero _).2

theorem amount_eq (x : BitVec 64) : amount x =
    ((if x.toNat / 2 ^ 52 % 2048 = 0 then x.toNat % 2 ^ 52 else x.toNat % 2 ^ 52 + 2 ^ 52 : Nat) : ℚ) *
      2 ^ ((max (x.toNat / 2 ^ 52 % 2048) 1 : Nat) - 1075 : Int) := by
  have hratio := (scale_ratio (if x.toNat / 2 ^ 52 % 2048 = 0 then x.toNat % 2 ^ 52 else x.toNat % 2 ^ 52 + 2 ^ 52)
    one_ne_zero ((max (x.toNat / 2 ^ 52 % 2048) 1 : Nat) - 1075)).1
  rw [Nat.cast_one, div_one] at hratio
  exact hratio

theorem amount_mono {y : BitVec 64} (h : x.toNat % 2 ^ 63 ≤ y.toNat % 2 ^ 63) : amount x ≤ amount y := by
  have htwo (k : Int) : (0 : ℚ) < 2 ^ k := zpow_pos (by norm_num) k
  rw [amount_eq, amount_eq]
  have hx : x.toNat % 2 ^ 63 = x.toNat / 2 ^ 52 % 2048 * 2 ^ 52 + x.toNat % 2 ^ 52 := by omega
  have hy : y.toNat % 2 ^ 63 = y.toNat / 2 ^ 52 % 2048 * 2 ^ 52 + y.toNat % 2 ^ 52 := by omega
  have hmx : x.toNat % 2 ^ 52 < 2 ^ 52 := Nat.mod_lt _ (by decide)
  have hmy : y.toNat % 2 ^ 52 < 2 ^ 52 := Nat.mod_lt _ (by decide)
  rw [hx, hy] at h
  generalize x.toNat / 2 ^ 52 % 2048 = f at *
  generalize y.toNat / 2 ^ 52 % 2048 = g at *
  generalize x.toNat % 2 ^ 52 = a at *
  generalize y.toNat % 2 ^ 52 = b at *
  obtain hfg | rfl := (show f < g ∨ f = g by omega)
  · -- The next exponent is worth more than every mantissa.
    have hb : ((2 ^ 52 : Nat) : ℚ) ≤ ((if g = 0 then b else b + 2 ^ 52 : Nat) : ℚ) := by
      rw [if_neg (by omega)]
      exact_mod_cast Nat.le_add_left _ _
    rw [show max g 1 = g by omega]
    refine le_trans ?_ (mul_le_mul_of_nonneg_right hb (htwo _).le)
    by_cases hf : f = 0
    · rw [if_pos hf, hf]
      have ha : (a : ℚ) ≤ ((2 ^ 52 : Nat) : ℚ) := by exact_mod_cast hmx.le
      exact mul_le_mul ha (zpow_le_zpow_right₀ (by norm_num) (by omega)) (htwo _).le (by positivity)
    · have ha : ((a + 2 ^ 52 : Nat) : ℚ) ≤ ((2 ^ 53 : Nat) : ℚ) := by exact_mod_cast (by omega : a + 2 ^ 52 ≤ 2 ^ 53)
      rw [if_neg hf, show max f 1 = f by omega]
      calc ((a + 2 ^ 52 : Nat) : ℚ) * 2 ^ ((f : Int) - 1075) ≤ ((2 ^ 53 : Nat) : ℚ) * 2 ^ ((f : Int) - 1075) :=
            mul_le_mul_of_nonneg_right ha (htwo _).le
        _ = ((2 ^ 52 : Nat) : ℚ) * 2 ^ ((f : Int) - 1075 + 1) := by
            rw [zpow_add_one₀ (by norm_num)]
            push_cast
            ring
        _ ≤ ((2 ^ 52 : Nat) : ℚ) * 2 ^ ((g : Int) - 1075) :=
            mul_le_mul_of_nonneg_left (zpow_le_zpow_right₀ (by norm_num) (by omega)) (by positivity)
  · refine mul_le_mul_of_nonneg_right ?_ (htwo _).le
    split
    · exact_mod_cast (by omega : a ≤ b)
    · exact_mod_cast (by omega : a + 2 ^ 52 ≤ b + 2 ^ 52)

theorem ofInt_bounds {n : BitVec 64} (hn : 0 ≤ n.toInt) :
    (ofInt n).toNat = (if n.toInt = 0 then 0 else ofPos n.toInt.natAbs) ∧ (ofInt n).toNat < 0x7ff0000000000000 := by
  have habs := natAbs_toInt_le n
  have hnat := toNat_ofInt n
  rw [if_neg (by omega : ¬n.toInt < 0)] at hnat
  refine ⟨hnat, ?_⟩
  rw [hnat]
  split
  · decide
  · exact ofPos_lt (by omega) habs

theorem amount_ofInt_mono {m n : BitVec 64} (hm : 0 ≤ m.toInt) (h : m.toInt ≤ n.toInt) :
    amount (ofInt m) ≤ amount (ofInt n) := by
  obtain ⟨hmnat, hmlt⟩ := ofInt_bounds hm
  obtain ⟨hnnat, hnlt⟩ := ofInt_bounds (hm.trans h)
  refine amount_mono ?_
  rw [Nat.mod_eq_of_lt (by omega), Nat.mod_eq_of_lt (by omega), hmnat, hnnat]
  split
  next => exact Nat.zero_le _
  next hne =>
    rw [if_neg (by omega)]
    exact ofPos_mono (by omega) (by omega)

theorem ofRatio_le (n d : Nat) : ofRatio n d ≤ 0x7ff0000000000000 := by
  unfold ofRatio
  split
  · exact Nat.zero_le _
  · exact min_le_right _ _

structure Unsigned (x : BitVec 64) (r : Nat) : Prop where
  toNat : x.toNat = r
  msb : x.msb = false
  number : isNaN x = false
  rank : rank x = r

theorem unsigned_of_toNat (h : x.toNat = r) (hr : r ≤ 0x7ff0000000000000) : Unsigned x r := by
  have hsign : x.msb = false := BitVec.msb_eq_false_iff_two_mul_lt.mpr (by omega)
  refine ⟨h, hsign, decide_eq_false (by omega), ?_⟩
  unfold Real64.rank
  rw [hsign, h, if_neg (by decide)]
  omega

theorem unsigned_withSign (hr : r ≤ 0x7ff0000000000000) : Unsigned (withSign false r) r := by
  refine unsigned_of_toNat ?_ hr
  rw [withSign, if_neg (by decide), BitVec.toNat_ofNat]
  omega

theorem unsigned_ofInt {n : BitVec 64} (hn : 0 ≤ n.toInt) : Unsigned (ofInt n) (ofInt n).toNat :=
  unsigned_of_toNat rfl (ofInt_bounds hn).2.le

theorem div_eq {n : BitVec 64} (hn : 0 ≤ n.toInt) (hd : 0 < d.toInt) : div (ofInt n) (ofInt d) = withSign false
    (ofRatio ((magnitude (ofInt n)).1 * (magnitude (ofInt d)).2) ((magnitude (ofInt n)).2 * (magnitude (ofInt d)).1)) := by
  obtain ⟨hnnat, hnlt⟩ := ofInt_bounds hn
  obtain ⟨hdnat, hdlt⟩ := ofInt_bounds hd.le
  have hdpos : 0 < (ofInt d).toNat := by
    rw [hdnat, if_neg (by omega)]
    exact ofPos_pos (by omega)
  have hninf : isInf (ofInt n) = false := decide_eq_false (by omega)
  have hdinf : isInf (ofInt d) = false := decide_eq_false (by omega)
  have hdzero : isZero (ofInt d) = false := decide_eq_false (by omega)
  unfold div
  rw [isNaN_ofInt, isNaN_ofInt, hninf, hdinf, hdzero, (unsigned_ofInt hn).msb, (unsigned_ofInt hd.le).msb]
  simp only [Bool.and_false, Bool.or_false, Bool.false_eq_true, if_false, bne_self_eq_false]

theorem div_rank {n : BitVec 64} (hn : 0 ≤ n.toInt) (hd : 0 < d.toInt) :
    isNaN (div (ofInt n) (ofInt d)) = false ∧ rank (div (ofInt n) (ofInt d)) =
      ofRatio ((magnitude (ofInt n)).1 * (magnitude (ofInt d)).2) ((magnitude (ofInt n)).2 * (magnitude (ofInt d)).1) := by
  have hquotient := unsigned_withSign (ofRatio_le ((magnitude (ofInt n)).1 * (magnitude (ofInt d)).2)
    ((magnitude (ofInt n)).2 * (magnitude (ofInt d)).1))
  rw [div_eq hn hd]
  exact ⟨hquotient.number, hquotient.rank⟩

theorem add_eq {y : BitVec 64} {s : Nat} (hx : Unsigned x r) (hy : Unsigned y s) (hr : r < 0x7ff0000000000000)
    (hs : s < 0x7ff0000000000000) : add x y = withSign false (ofRatio
      ((magnitude x).1 * (magnitude y).2 + (magnitude y).1 * (magnitude x).2) ((magnitude x).2 * (magnitude y).2)) := by
  have hxinf : isInf x = false := decide_eq_false (by have h := hx.toNat; omega)
  have hyinf : isInf y = false := decide_eq_false (by have h := hy.toNat; omega)
  unfold add
  rw [hx.number, hy.number, hxinf, hyinf, hx.msb, hy.msb]
  simp only [Bool.or_self, Bool.and_self, Bool.false_and, Bool.false_eq_true, if_false, Bool.or_false]
  have hsum : (0 : Int) ≤ ((magnitude x).1 * (magnitude y).2 : Nat) + ((magnitude y).1 * (magnitude x).2 : Nat) := by omega
  rw [decide_eq_false (by omega)]
  rfl

theorem div_mono {m n : BitVec 64} (hm : 0 ≤ m.toInt) (h : m.toInt ≤ n.toInt) (hd : 0 < d.toInt) :
    rank (div (ofInt m) (ofInt d)) ≤ rank (div (ofInt n) (ofInt d)) := by
  rw [(div_rank hm hd).2, (div_rank (hm.trans h) hd).2]
  have hdamount : (magnitude (ofInt d)).1 ≠ 0 := by
    intro hzero
    have hone : amount (ofInt 1) ≤ amount (ofInt d) := amount_ofInt_mono (by decide) (by change (1 : Int) ≤ _; omega)
    have hpos : (0 : ℚ) < amount (ofInt 1) := by
      rw [amount, show magnitude (ofInt 1) = (4503599627370496, 4503599627370496) by decide +kernel]
      norm_num
    rw [show amount (ofInt d) = 0 by rw [amount, hzero, Nat.cast_zero, zero_div]] at hone
    exact absurd hone (not_le.mpr hpos)
  have hamount := amount_ofInt_mono hm h
  have hmne := magnitude_ne_zero (ofInt m)
  have hnne := magnitude_ne_zero (ofInt n)
  refine Int.ofNat_le.mpr (ofRatio_mono (mul_ne_zero hmne hdamount) (mul_ne_zero hnne hdamount) ?_)
  push_cast
  rw [mul_div_mul_comm, mul_div_mul_comm]
  exact mul_le_mul_of_nonneg_right hamount (by positivity)

theorem le_div_iff_ge {p k : BitVec 64} (hd : 0 < d.toInt) (hk : 0 < k.toInt)
    (hturn : Real64.le (ofInt p) (div (ofInt k) (ofInt d)) = true)
    (hbefore : Real64.le (ofInt p) (div (ofInt (k - 1)) (ofInt d)) = false) {n : BitVec 64} (hn : 0 ≤ n.toInt) :
    Real64.le (ofInt p) (div (ofInt n) (ofInt d)) = decide (k.toInt ≤ n.toInt) := by
  have hrank {x : BitVec 64} (hx : 0 ≤ x.toInt) :
      Real64.le (ofInt p) (div (ofInt x) (ofInt d)) = decide (rank (ofInt p) ≤ rank (div (ofInt x) (ofInt d))) := by
    unfold Real64.le
    rw [isNaN_ofInt, (div_rank hx hd).1]
    rfl
  have hpred : (k - 1).toInt = k.toInt - 1 := by
    have hhigh := k.toInt_lt
    rw [BitVec.toInt_sub, show (1 : BitVec 64).toInt = 1 from rfl]
    exact Int.bmod_eq_of_le (by omega) (by omega)
  rw [hrank hk.le] at hturn
  rw [hrank (by omega)] at hbefore
  rw [hrank hn, decide_eq_decide]
  constructor
  · intro hle
    by_contra hless
    have hmono := div_mono (d := d) hn (n := k - 1) (by omega) hd
    exact of_decide_eq_false hbefore (hle.trans hmono)
  · intro hle
    exact (of_decide_eq_true hturn).trans (div_mono hk.le hle hd)

theorem amount_pattern {e m : Nat} (he : e ≤ 2045) (hm : 2 ^ 52 ≤ m ∧ m < 2 ^ 53) :
    amount (BitVec.ofNat 64 (e * 2 ^ 52 + m)) = m * 2 ^ ((e : Int) - 1074) := by
  have hnat : (BitVec.ofNat 64 (e * 2 ^ 52 + m)).toNat = e * 2 ^ 52 + m := by
    rw [BitVec.toNat_ofNat]
    omega
  have hfield : (e * 2 ^ 52 + m) / 2 ^ 52 % 2048 = e + 1 := by omega
  have hmantissa : (e * 2 ^ 52 + m) % 2 ^ 52 + 2 ^ 52 = m := by omega
  rw [amount_eq, hnat, hfield, if_neg (Nat.succ_ne_zero e), hmantissa, max_eq_left (Nat.le_add_left 1 e)]
  push_cast
  congr 2
  omega

theorem leading_bounds (hpos : 0 < n) (hn : n < 2 ^ 53) :
    n.log2 ≤ 52 ∧ 2 ^ 52 ≤ n * 2 ^ (52 - n.log2) ∧ n * 2 ^ (52 - n.log2) < 2 ^ 53 := by
  have hlow : 2 ^ n.log2 ≤ n := Nat.log2_self_le hpos.ne'
  have hhigh : n < 2 ^ (n.log2 + 1) := Nat.lt_log2_self
  have hlog : n.log2 ≤ 52 := by
    by_contra hlarge
    have hpow : 2 ^ 53 ≤ 2 ^ n.log2 := Nat.pow_le_pow_right (by decide) (by omega)
    omega
  have hexact : 2 ^ n.log2 * 2 ^ (52 - n.log2) = 2 ^ 52 := by
    rw [← Nat.pow_add]
    congr 1
    omega
  have hleast := Nat.mul_le_mul_right (2 ^ (52 - n.log2)) hlow
  have hmost := Nat.mul_lt_mul_of_pos_right hhigh (Nat.two_pow_pos (52 - n.log2))
  rw [Nat.pow_succ, Nat.mul_right_comm, hexact] at hmost
  rw [hexact] at hleast
  exact ⟨hlog, hleast, hmost⟩

theorem ofPos_pattern (hlog : n.log2 ≤ 52) (hleast : 2 ^ 52 ≤ n * 2 ^ (52 - n.log2)) :
    ofPos n = (n.log2 + 1022) * 2 ^ 52 + n * 2 ^ (52 - n.log2) := by
  unfold ofPos
  simp only [if_pos hlog]
  omega

theorem amount_ofInt (hn : n < 2 ^ 53) : amount (ofInt (BitVec.ofNat 64 n)) = n := by
  by_cases hzero : n = 0
  · subst hzero
    rw [show ofInt (BitVec.ofNat 64 0) = 0 from rfl, amount_eq]
    simp
  · have hint : (BitVec.ofNat 64 n).toInt = n := toInt_ofNat_of_lt (by omega)
    obtain ⟨hlog, hleast, hmost⟩ := leading_bounds (Nat.pos_of_ne_zero hzero) hn
    have hofInt : ofInt (BitVec.ofNat 64 n) = BitVec.ofNat 64 (ofPos n) := by
      unfold ofInt
      rw [hint, if_neg (by omega), if_neg (by omega), Int.natAbs_natCast]
    rw [hofInt, ofPos_pattern hlog hleast, amount_pattern (by omega) ⟨hleast, hmost⟩]
    push_cast
    rw [mul_assoc, ← zpow_natCast, ← zpow_add₀ (by norm_num), show ((52 - n.log2 : Nat) : Int) + ((n.log2 : Int) + 1022 - 1074) = 0 by omega,
      zpow_zero, mul_one]

theorem ofRatio_pattern {d a : Nat} {j : Nat} (hd : d ≠ 0) (ha : 0 < a ∧ a < 2 ^ 53) (hj : j ≤ 1000)
    (h : (n : ℚ) / d = a / 2 ^ j) : ofRatio n d = (a.log2 + 1022 - j) * 2 ^ 52 + a * 2 ^ (52 - a.log2) := by
  have hpow : (2 : ℚ) ≠ 0 := by norm_num
  have hapos : (0 : ℚ) < a := by exact_mod_cast ha.1
  have hx : (0 : ℚ) < a / 2 ^ j := by positivity
  have hn : n ≠ 0 := by
    rintro rfl
    rw [Nat.cast_zero, zero_div] at h
    exact absurd h hx.ne
  obtain ⟨hlog, hleast, hmost⟩ := leading_bounds ha.1 ha.2
  have hlow : ((2 ^ a.log2 : Nat) : ℚ) ≤ a := by exact_mod_cast Nat.log2_self_le ha.1.ne'
  have hhigh : (a : ℚ) < ((2 ^ (a.log2 + 1) : Nat) : ℚ) := by exact_mod_cast Nat.lt_log2_self
  have hweight (k : Int) : (2 : ℚ) ^ (k - j) = 2 ^ k / 2 ^ j := by rw [zpow_sub₀ hpow, zpow_natCast]
  have hexponent : exponent (a / 2 ^ j : ℚ) = a.log2 - j := by
    have hbelow : (2 : ℚ) ^ ((a.log2 : Int) - j) ≤ a / 2 ^ j := by
      rw [hweight, zpow_natCast]
      push_cast at hlow
      exact div_le_div_of_nonneg_right hlow (by positivity)
    have habove : (a / 2 ^ j : ℚ) < 2 ^ ((a.log2 : Int) - j + 1) := by
      rw [show (a.log2 : Int) - j + 1 = ((a.log2 + 1 : Nat) : Int) - j by push_cast; omega, hweight, zpow_natCast]
      push_cast at hhigh
      exact div_lt_div_of_pos_right hhigh (by positivity)
    unfold exponent
    rw [log_eq hx hbelow habove]
    omega
  have hscaled : (a / 2 ^ j : ℚ) * 2 ^ (52 - ((a.log2 : Int) - j)) = ((a * 2 ^ (52 - a.log2) : Nat) : Int) := by
    rw [show 52 - ((a.log2 : Int) - j) = ((52 - a.log2 : Nat) : Int) + j by omega, zpow_add₀ hpow, zpow_natCast, zpow_natCast]
    push_cast
    field_simp
  have hratio := ofRatio_eq hn hd
  rw [h, hexponent, hscaled, Rounding.nearest_int] at hratio
  omega

theorem amount_ofRatio {d a : Nat} {j : Nat} (hd : d ≠ 0) (ha : 0 < a ∧ a < 2 ^ 53) (hj : j ≤ 1000)
    (h : (n : ℚ) / d = a / 2 ^ j) : amount (BitVec.ofNat 64 (ofRatio n d)) = a / 2 ^ j := by
  obtain ⟨hlog, hleast, hmost⟩ := leading_bounds ha.1 ha.2
  rw [ofRatio_pattern hd ha hj h, amount_pattern (by omega) ⟨hleast, hmost⟩]
  push_cast
  rw [mul_assoc, ← zpow_natCast, ← zpow_add₀ (by norm_num), show ((52 - a.log2 : Nat) : Int) + (((a.log2 + 1022 - j : Nat) : Int) - 1074) = -j by omega,
    zpow_neg, zpow_natCast]
  rfl

end Real64

end Ussr
