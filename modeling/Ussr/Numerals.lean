import Mathlib.Data.List.TakeWhile
import Ussr.RealOrder
import Ussr.Strings

/-! The numerals of `str_from_int`, whose powers of ten are found by comparing real quotients. -/

namespace Ussr
open Decimal (decimal)

/-- The least number whose tenth is not less than `10 ^ i` among the reals. -/
def powerTurn (i : Nat) : Nat := 10 ^ (i + 1) - if i < 15 then 0 else 8 ^ (i - 15)

theorem not_le_tenth {n : BitVec 64} (hn : 0 ≤ n.toInt) :
    Real64.le (Real64.ofInt (BitVec.ofNat 64 (10 ^ 18))) (Real64.div (Real64.ofInt n) ten) = false := by
  have hten : 0 < (10 : BitVec 64).toInt := by decide
  have hgreatest : Real64.rank (Real64.div (Real64.ofInt (BitVec.intMax 64)) (Real64.ofInt 10)) <
      Real64.rank (Real64.ofInt (BitVec.ofNat 64 (10 ^ 18))) := by decide +kernel
  have hle : n.toInt ≤ (BitVec.intMax 64).toInt := Int.le_of_lt_add_one n.toInt_lt
  have hmono := Real64.div_mono hn hle hten
  unfold Real64.le
  rw [ten, (Real64.div_rank hn hten).1, Real64.isNaN_ofInt]
  exact decide_eq_false (by omega)

theorem le_tenth {i : Nat} (hi : i < 18) {n : BitVec 64} (hn : 0 ≤ n.toInt) :
    Real64.le (Real64.ofInt (BitVec.ofNat 64 (10 ^ i))) (Real64.div (Real64.ofInt n) ten) =
      decide ((powerTurn i : Int) ≤ n.toInt) := by
  have hturns : ∀ i ∈ List.range 18,
      (Real64.le (Real64.ofInt (BitVec.ofNat 64 (10 ^ i)))
          (Real64.div (Real64.ofInt (BitVec.ofNat 64 (powerTurn i))) (Real64.ofInt 10)) = true ∧
        Real64.le (Real64.ofInt (BitVec.ofNat 64 (10 ^ i)))
          (Real64.div (Real64.ofInt (BitVec.ofNat 64 (powerTurn i) - 1)) (Real64.ofInt 10)) = false) ∧
        (BitVec.ofNat 64 (powerTurn i)).toInt = powerTurn i ∧ 0 < powerTurn i := by decide +kernel
  obtain ⟨⟨hturn, hbefore⟩, hint, hpos⟩ := hturns i (List.mem_range.mpr hi)
  rw [← hint]
  exact Real64.le_div_iff_ge (by decide) (by omega) hturn hbefore hn

theorem powerTurn_bounds {i : Nat} (hi : i < 18) : 10 ^ i ≤ powerTurn i ∧ powerTurn i ≤ 10 ^ (i + 1) := by
  have hall : ∀ i ∈ List.range 18, 10 ^ i ≤ powerTurn i ∧ powerTurn i ≤ 10 ^ (i + 1) := by decide +kernel
  exact hall i (List.mem_range.mpr hi)

/-- The powers of ten from the `k`-th down to 1. -/
def powersOfTen : Nat → List (BitVec 64)
  | 0 => [1]
  | k + 1 => BitVec.ofNat 64 (10 ^ (k + 1)) :: powersOfTen k

/-- `n` has `k + 1` digits. -/
structure HasDigits (n k : Nat) : Prop where
  low : k = 0 ∨ 10 ^ k ≤ n
  high : n < 10 ^ (k + 1)

/-- `n` is printed with `k + 1` digits. -/
structure Prints (n k : Nat) : Prop where
  low : ∀ i < k, powerTurn i ≤ n
  high : n < powerTurn k

theorem HasDigits.prints {n k : Nat} (hk : k < 15) (hn : HasDigits n k) : Prints n k := by
  have hturn {i : Nat} (hi : i < 15) : powerTurn i = 10 ^ (i + 1) := by
    rw [powerTurn, if_pos hi, Nat.sub_zero]
  refine ⟨fun i hi => ?_, by rw [hturn hk]; exact hn.high⟩
  have hpow : 10 ^ (i + 1) ≤ 10 ^ k := Nat.pow_le_pow_right (by decide) hi
  rw [hturn (by omega)]
  exact hpow.trans (hn.low.resolve_left (by omega))

theorem prints_some {n : Nat} (hn : n < 2 ^ 63) : ∃ k ≤ 18, Prints n k := by
  have hlast : n < powerTurn 18 := hn.trans (by decide)
  have hexists : ∃ k, n < powerTurn k := ⟨18, hlast⟩
  exact ⟨Nat.find hexists, Nat.find_le hlast, fun i hi => Nat.le_of_not_lt (Nat.find_min hexists hi),
    Nat.find_spec hexists⟩

theorem prints_exists {n : Nat} (hn : n < powerTurn 17) : ∃ k < 18, Prints n k := by
  have hturn : powerTurn 17 < 2 ^ 63 := by decide
  obtain ⟨k, hk, hprints⟩ := prints_some (hn.trans hturn)
  refine ⟨k, ?_, hprints⟩
  by_contra hlast
  have hlow := hprints.low 17 (by omega)
  omega

theorem slt_zero_ofNat {n : Nat} (hn : n < 2 ^ 63) : (BitVec.ofNat 64 n).slt 0 = false := by
  rw [BitVec.slt_eq_decide, toInt_ofNat_of_lt hn]
  exact decide_eq_false (Int.not_lt.mpr (Int.natCast_nonneg n))

theorem tenPowers_eq {n k : Nat} (hsmall : n < 2 ^ 63) (hk : k ≤ 18) (hn : Prints n k) {i turns : Nat}
    (hik : i ≤ k) (hturns : k - i < turns) :
    tenPowers (BitVec.ofNat 64 n) turns (BitVec.ofNat 64 (10 ^ i)) (powersOfTen i) = powersOfTen k := by
  induction turns generalizing i with
  | zero => omega
  | succ turns ih =>
    have hint := toInt_ofNat_of_lt hsmall
    unfold tenPowers
    obtain hlt | rfl := hik.lt_or_eq
    · have hcompare := @le_tenth i (by omega) (BitVec.ofNat 64 n) (by omega)
      rw [hint] at hcompare
      have hle : powerTurn i ≤ n := hn.low i hlt
      have hnext : BitVec.ofNat 64 (10 ^ i) * 10 = BitVec.ofNat 64 (10 ^ (i + 1)) := by
        rw [pow_succ, BitVec.ofNat_mul]
        rfl
      rw [if_pos (by rw [hcompare]; exact decide_eq_true (by exact_mod_cast hle)), hnext]
      exact ih (i := i + 1) hlt (by omega)
    · have hhigh := hn.high
      obtain hlt | rfl := hk.lt_or_eq
      · have hcompare := @le_tenth i hlt (BitVec.ofNat 64 n) (by omega)
        rw [if_neg (by rw [hcompare, hint, decide_eq_true_eq]; omega)]
      · rw [if_neg (by rw [not_le_tenth (by omega)]; decide)]

/-- The numeral of `n` with `k + 1` digits, zeros in front. -/
def numeral : (k : Nat) → Nat → Stalin.Text
  | 0, n => [UInt8.ofNat (48 + n)]
  | k + 1, n => numeral k (n / 10) ++ [UInt8.ofNat (48 + n % 10)]

theorem numeral_succ (k n : Nat) :
    numeral (k + 1) n = UInt8.ofNat (48 + n / 10 ^ (k + 1)) :: numeral k (n % 10 ^ (k + 1)) := by
  induction k generalizing n with
  | zero => rfl
  | succ k ih =>
    have hhead : n / 10 / 10 ^ (k + 1) = n / 10 ^ (k + 2) := by
      rw [Nat.div_div_eq_div_mul, ← Nat.pow_succ']
    have hrest : n / 10 % 10 ^ (k + 1) = n % 10 ^ (k + 2) / 10 := by
      rw [show 10 ^ (k + 2) = 10 * 10 ^ (k + 1) from Nat.pow_succ', Nat.mod_mul_right_div_self]
    have hlast : n % 10 = n % 10 ^ (k + 2) % 10 :=
      (Nat.mod_mod_of_dvd n (dvd_pow_self 10 (Nat.succ_ne_zero (k + 1)))).symm
    calc numeral (k + 2) n = numeral (k + 1) (n / 10) ++ [UInt8.ofNat (48 + n % 10)] := rfl
      _ = _ := by rw [ih, hhead, hrest, hlast]; rfl

theorem intDigits_eq {k n : Nat} (hsmall : n < 2 ^ 63) (hk : k ≤ 18) (hn : n < 10 ^ (k + 1)) :
    intDigits (BitVec.ofNat 64 n) (powersOfTen k) = numeral k n := by
  have hsign := slt_zero_ofNat hsmall
  have hnat : (BitVec.ofNat 64 n).toNat = n := by
    rw [BitVec.toNat_ofNat, Nat.mod_eq_of_lt (by omega)]
  induction k generalizing n with
  | zero =>
    simp only [powersOfTen, intDigits, numeral, hsign, hnat, Bool.false_eq_true, if_false]
    rw [show (1 : BitVec 64).toNat = 1 from rfl, Nat.div_one]
  | succ k ih =>
    have hpower : 10 ^ (k + 1) ≤ 10 ^ 18 := Nat.pow_le_pow_right (by decide) hk
    have hpowerNat : (BitVec.ofNat 64 (10 ^ (k + 1))).toNat = 10 ^ (k + 1) := by
      rw [BitVec.toNat_ofNat, Nat.mod_eq_of_lt (by omega)]
    have hrest : n % 10 ^ (k + 1) < 10 ^ (k + 1) := Nat.mod_lt _ (Nat.pow_pos (by decide))
    have hsub : BitVec.ofNat 64 n - BitVec.ofNat 64 (n / 10 ^ (k + 1)) * BitVec.ofNat 64 (10 ^ (k + 1)) =
        BitVec.ofNat 64 (n % 10 ^ (k + 1)) := by
      have hparts : BitVec.ofNat 64 (n % 10 ^ (k + 1)) + BitVec.ofNat 64 (n / 10 ^ (k + 1) * 10 ^ (k + 1)) =
          BitVec.ofNat 64 n := by rw [← BitVec.ofNat_add, Nat.mul_comm, Nat.mod_add_div]
      rw [← BitVec.ofNat_mul, ← hparts, BitVec.add_sub_cancel]
    rw [numeral_succ, powersOfTen, intDigits]
    simp only [hsign, hnat, hpowerNat, Bool.false_eq_true, if_false, hsub]
    congr 1
    refine ih (by omega) (by omega) hrest (slt_zero_ofNat (by omega)) ?_
    rw [BitVec.toNat_ofNat, Nat.mod_eq_of_lt (by omega)]

theorem numeral_eq_decimal {n k : Nat} (hn : HasDigits n k) : numeral k n = decimal n := by
  induction k generalizing n with
  | zero =>
    have hhigh := hn.high
    unfold numeral Decimal.decimal
    split_ifs with hzero
    · rw [hzero]
      rfl
    · rw [Nat.digits_of_lt 10 n hzero hhigh]
      rfl
  | succ k ih =>
    have hten : 10 ≤ n := by
      have hpow : 10 ^ 1 ≤ 10 ^ (k + 1) := Nat.pow_le_pow_right (by decide) (by omega)
      have := hn.low.resolve_left (Nat.succ_ne_zero k)
      omega
    have hdiv : HasDigits (n / 10) k := by
      refine ⟨Or.inr ?_, ?_⟩
      · rw [Nat.le_div_iff_mul_le (by decide), ← pow_succ]
        exact hn.low.resolve_left (Nat.succ_ne_zero k)
      · rw [Nat.div_lt_iff_lt_mul (by decide), ← pow_succ]
        exact hn.high
    rw [numeral, ih hdiv]
    unfold Decimal.decimal
    rw [if_neg (by omega), if_neg (by omega), Nat.digits_def' (by decide) (by omega : 0 < n), List.reverse_cons,
      List.map_append]
    rfl

theorem hasDigits_exists {n : Nat} (hn : n < 10 ^ 15) : ∃ k < 15, HasDigits n k := by
  by_cases hzero : n = 0
  · exact ⟨0, by decide, Or.inl rfl, by omega⟩
  · refine ⟨Nat.log 10 n, ?_, Or.inr (Nat.pow_log_le_self 10 hzero), Nat.lt_pow_succ_log_self (by decide) n⟩
    exact Nat.log_lt_of_lt_pow hzero hn

theorem powerTurn_le (i : Nat) : powerTurn i ≤ 10 ^ (i + 1) := Nat.sub_le _ _

theorem strFromInt_prints {n k : Nat} (hsmall : n < 2 ^ 63) (hk : k ≤ 18) (hn : Prints n k) :
    strFromInt (BitVec.ofNat 64 n) = numeral k n := by
  have hhigh := hn.high.trans_le (powerTurn_le k)
  have hsign := slt_zero_ofNat hsmall
  unfold strFromInt
  simp only [hsign, Bool.false_eq_true, if_false]
  have hturns : k - 0 < 64 := by omega
  have hpowers := tenPowers_eq hsmall hk hn (Nat.zero_le k) hturns
  rw [pow_zero] at hpowers
  rw [show [(1 : BitVec 64)] = powersOfTen 0 from rfl, show (1 : BitVec 64) = BitVec.ofNat 64 1 from rfl, hpowers,
    intDigits_eq hsmall hk hhigh]

theorem strFromInt_eq {n : Nat} (hn : n < 10 ^ 15) : strFromInt (BitVec.ofNat 64 n) = decimal n := by
  obtain ⟨k, hk, hdigits⟩ := hasDigits_exists hn
  rw [strFromInt_prints (by omega) (by omega) (hdigits.prints hk), numeral_eq_decimal hdigits]

section

open Stalin (Text strTrim strIsBlankByte)

variable {ds : Text} {n : Nat}

theorem numeral_digits {k : Nat} (hn : n < 10 ^ (k + 1)) : ∀ b ∈ numeral k n, isDigit b = true := by
  have hdigit {d : Nat} (hd : d < 10) : isDigit (UInt8.ofNat (48 + d)) = true := by
    unfold isDigit
    rw [UInt8.toNat_ofNat', Nat.mod_eq_of_lt (by omega), Bool.and_eq_true, decide_eq_true_eq, decide_eq_true_eq]
    omega
  induction k generalizing n with
  | zero =>
    intro b hb
    rw [numeral, List.mem_singleton] at hb
    exact hb ▸ hdigit hn
  | succ k ih =>
    intro b hb
    rw [numeral, List.mem_append, List.mem_singleton] at hb
    cases hb with
    | inl hfront => exact ih (by omega) b hfront
    | inr hlast => exact hlast ▸ hdigit (Nat.mod_lt n (by decide))

theorem length_numeral (k n : Nat) : (numeral k n).length = k + 1 := by
  induction k generalizing n with
  | zero => rfl
  | succ k ih => rw [numeral, List.length_append, ih, List.length_singleton]

def readDigits (ds : Text) : BitVec 64 := ds.foldl (fun int b => int * 10 + digitOf b) 0

theorem readDigits_numeral {k : Nat} (hn : n < 10 ^ (k + 1)) : readDigits (numeral k n) = BitVec.ofNat 64 n := by
  have hdigit {d : Nat} (hd : d < 10) : digitOf (UInt8.ofNat (48 + d)) = BitVec.ofNat 64 d := by
    unfold digitOf
    rw [UInt8.toNat_ofNat', Nat.mod_eq_of_lt (by omega), Nat.add_sub_cancel_left]
  induction k generalizing n with
  | zero =>
    rw [numeral, readDigits, List.foldl_cons, List.foldl_nil, hdigit hn]
    simp
  | succ k ih =>
    have hfront := ih (n := n / 10) (by omega)
    have hlast := hdigit (Nat.mod_lt n (by decide : 0 < 10))
    unfold readDigits at hfront ⊢
    rw [numeral, List.foldl_append, hfront, List.foldl_cons, List.foldl_nil, hlast,
      show (10 : BitVec 64) = BitVec.ofNat 64 10 from rfl, ← BitVec.ofNat_mul, ← BitVec.ofNat_add, Nat.div_add_mod']

theorem not_blank_of_isDigit {b : UInt8} (h : isDigit b = true) : strIsBlankByte b = false := by
  unfold isDigit at h
  rw [Bool.and_eq_true, decide_eq_true_eq, decide_eq_true_eq] at h
  have hne (c : UInt8) (hc : c.toNat < 48) : b ≠ c := by
    rintro rfl
    omega
  unfold strIsBlankByte
  simp [hne 32 (by decide), hne 9 (by decide), hne 13 (by decide), hne 10 (by decide)]

theorem strTrim_of_not_blank (h : ∀ b ∈ ds, strIsBlankByte b = false) : strTrim ds = ds := by
  have hdrop (t : Text) (ht : ∀ b ∈ t, strIsBlankByte b = false) : t.dropWhile strIsBlankByte = t := by
    cases t with
    | nil => rfl
    | cons b t => rw [List.dropWhile_cons_of_neg (by rw [ht b List.mem_cons_self]; decide)]
  unfold strTrim
  rw [hdrop ds h, hdrop ds.reverse fun b hb => h b (List.mem_reverse.mp hb), List.reverse_reverse]

theorem strToNumber_digits (hdigits : ∀ b ∈ ds, isDigit b = true) (hne : ds ≠ []) (hlen : ds.length ≤ 18) :
    strToNumber ds = some (.integer (readDigits ds)) ∧
      strToNumber (45 :: ds) = some (.integer (readDigits ds * -1)) := by
  have htake : ds.takeWhile isDigit = ds := List.takeWhile_eq_self_iff.mpr hdigits
  have hdrop : ds.dropWhile isDigit = [] := List.dropWhile_eq_nil_iff.mpr hdigits
  have hsign : scanSign ds = (false, ds) := by
    cases ds with
    | nil => rfl
    | cons b ds =>
      have hb := hdigits b List.mem_cons_self
      unfold scanSign
      split
      · rename_i heq
        cases heq
        exact absurd hb (by decide)
      · rename_i heq
        cases heq
        exact absurd hb (by decide)
      · rfl
  have htrim : strTrim ds = ds := strTrim_of_not_blank fun b hb => not_blank_of_isDigit (hdigits b hb)
  have htrimNegative : strTrim (45 :: ds) = 45 :: ds :=
    strTrim_of_not_blank (List.forall_mem_cons.mpr ⟨rfl, fun b hb => not_blank_of_isDigit (hdigits b hb)⟩)
  have hlength : ds.length ≠ 0 := fun hzero => hne (List.length_eq_zero_iff.mp hzero)
  have hshort : ¬18 < ds.length := Nat.not_lt.mpr hlen
  constructor
  · simp [strToNumber, htrim, hsign, scanInteger, htake, hdrop, scanFraction, scanExponent, hne, hlength, hshort,
      readDigits]
  · simp [strToNumber, htrimNegative, scanSign, scanInteger, htake, hdrop, scanFraction, scanExponent, hlength,
      hshort, readDigits]

def readsReal (s : Text) : Bool :=
  match strToNumber s with
  | some (.real _) => true
  | _ => false

def inNumeral (b : UInt8) : Bool := isDigit b || b = 45

theorem strFromInt_long : ∀ n ∈ List.range' (powerTurn 17) 64,
    (readsReal (strFromInt (BitVec.ofNat 64 n)) = true ∧ readsReal (strFromInt (-BitVec.ofNat 64 n)) = true) ∧
      (strFromInt (BitVec.ofNat 64 n)).all inNumeral = true ∧
      (strFromInt (-BitVec.ofNat 64 n)).all inNumeral = true := by
  decide +kernel

theorem strFromInt_neg {n k : Nat} (hsmall : n < 2 ^ 63) (hk : k ≤ 18) (hn : Prints n k) (hpos : 0 < n) :
    strFromInt (-BitVec.ofNat 64 n) = 45 :: numeral k n := by
  have hprint := strFromInt_prints hsmall hk hn
  have hint := toInt_ofNat_of_lt hsmall
  have hnegInt : (-BitVec.ofNat 64 n).toInt = -(n : Int) := by
    rw [BitVec.toInt_neg, hint]
    exact Int.bmod_eq_of_le (by omega) (by omega)
  have hneg : (-BitVec.ofNat 64 n).slt 0 = true := by
    rw [BitVec.slt_eq_decide, hnegInt]
    exact decide_eq_true (by simp; omega)
  unfold strFromInt at hprint ⊢
  simp only [slt_zero_ofNat (n := n) (by omega), Bool.false_eq_true, if_false] at hprint
  simp only [hneg, if_true, BitVec.neg_neg, hprint]
  rfl

theorem int_cases {n : BitVec 64} (hn : n.toInt.natAbs < 2 ^ 63) :
    n = BitVec.ofNat 64 n.toInt.natAbs ∨ 0 < n.toInt.natAbs ∧ n = -BitVec.ofNat 64 n.toInt.natAbs := by
  generalize hm : n.toInt.natAbs = m at hn ⊢
  have hint := toInt_ofNat_of_lt (n := m) (by omega)
  cases Int.natAbs_eq n.toInt with
  | inl hpos => exact .inl (BitVec.eq_of_toInt_eq (by rw [hint, ← hm]; exact hpos))
  | inr hneg =>
    by_cases hzero : m = 0
    · exact .inl (BitVec.eq_of_toInt_eq (by rw [hint]; omega))
    · refine .inr ⟨by omega, BitVec.eq_of_toInt_eq ?_⟩
      rw [BitVec.toInt_neg, hint, Int.bmod_eq_of_le (by omega) (by omega)]
      omega

/-- Of the integers below `10 ^ 18` all but the greatest are read back as they are printed; those
are read as reals. -/
theorem strFromInt_reads {n : BitVec 64} (hn : n.toInt.natAbs < 10 ^ 18) :
    (strFromInt n).all inNumeral = true ∧
      (n.toInt.natAbs < 10 ^ 18 - 64 → strToNumber (strFromInt n) = some (.integer n)) ∧
      (10 ^ 18 - 64 ≤ n.toInt.natAbs → readsReal (strFromInt n) = true) := by
  have hturn : powerTurn 17 = 10 ^ 18 - 64 := by decide
  have hsigns := int_cases (n := n) (by omega)
  generalize n.toInt.natAbs = m at hn hsigns ⊢
  have hroom : m < 2 ^ 63 := by omega
  by_cases hshort : m < 10 ^ 18 - 64
  · obtain ⟨k, hk, hprints⟩ := prints_exists (hturn.symm ▸ hshort)
    have hhigh := hprints.high.trans_le (powerTurn_bounds hk).2
    have hlength := length_numeral k m
    have hne : numeral k m ≠ [] := fun hnil => by rw [hnil] at hlength; cases hlength
    have hdigits := numeral_digits hhigh
    have hbytes : (numeral k m).all inNumeral = true :=
      List.all_eq_true.mpr fun b hb => by rw [inNumeral, hdigits b hb, Bool.true_or]
    obtain ⟨hread, hreadNeg⟩ := strToNumber_digits hdigits hne (by omega)
    cases hsigns with
    | inl hpos =>
      rw [hpos, strFromInt_prints hroom hk.le hprints]
      exact ⟨hbytes, fun _ => by rw [hread, readDigits_numeral hhigh], fun hlong => by omega⟩
    | inr hneg =>
      rw [hneg.2, strFromInt_neg hroom hk.le hprints hneg.1]
      refine ⟨by rw [List.all_cons, hbytes]; rfl, fun _ => ?_, fun hlong => by omega⟩
      rw [hreadNeg, readDigits_numeral hhigh, BitVec.mul_neg,
        show BitVec.ofNat 64 m * 1 = BitVec.ofNat 64 m from BitVec.mul_one _]
  · have hmem : m ∈ List.range' (powerTurn 17) 64 := List.mem_range'_1.mpr ⟨by omega, by omega⟩
    obtain ⟨⟨hreal, hrealNeg⟩, hbytes, hbytesNeg⟩ := strFromInt_long m hmem
    cases hsigns with
    | inl hpos =>
      rw [hpos]
      exact ⟨hbytes, fun h => absurd h hshort, fun _ => hreal⟩
    | inr hneg =>
      rw [hneg.2]
      exact ⟨hbytesNeg, fun h => absurd h hshort, fun _ => hrealNeg⟩

theorem readDigits_lt (hdigits : ∀ b ∈ ds, isDigit b = true) (hlen : ds.length ≤ 18) :
    ∃ n < 10 ^ ds.length, readDigits ds = BitVec.ofNat 64 n := by
  induction ds using List.reverseRecOn with
  | nil => exact ⟨0, by decide, rfl⟩
  | append_singleton ds b ih =>
    rw [List.length_append, List.length_singleton] at hlen ⊢
    obtain ⟨n, hn, hread⟩ := ih (fun c hc => hdigits c (List.mem_append_left _ hc)) (by omega)
    have hb := hdigits b (by simp)
    unfold isDigit at hb
    rw [Bool.and_eq_true, decide_eq_true_eq, decide_eq_true_eq] at hb
    refine ⟨n * 10 + (b.toNat - 48), by rw [pow_succ]; omega, ?_⟩
    unfold readDigits at hread ⊢
    rw [List.foldl_append, hread, List.foldl_cons, List.foldl_nil, BitVec.ofNat_add, BitVec.ofNat_mul]
    rfl

theorem scanFraction_integer {v : Scan} (h : (scanFraction v).real = false) : scanFraction v = v := by
  unfold scanFraction at h ⊢
  split at h
  · cases h
  · rfl

theorem scanExponent_integer {v : Scan} (h : (scanExponent v).real = false) :
    v.real = false ∧ (scanExponent v).int = v.int ∧ (scanExponent v).digits = v.digits := by
  unfold scanExponent at h ⊢
  split at h
  · split_ifs at h ⊢
    exact ⟨h, rfl, rfl⟩
  · exact ⟨h, rfl, rfl⟩

theorem strToNumber_integer {s : Text} {n : BitVec 64} (h : strToNumber s = some (.integer n)) :
    n.toInt.natAbs < 10 ^ 18 := by
  unfold strToNumber at h
  generalize hsign : scanSign (strTrim s) = signed at h
  obtain ⟨negative, rest⟩ := signed
  dsimp only at h
  generalize hv : scanInteger _ = v at h
  obtain ⟨sign, hnegative⟩ : ∃ sign, sign = if negative = true then (-1 : BitVec 64) else 1 := ⟨_, rfl⟩
  rw [← hnegative] at h
  generalize hw : { scanFraction v with ok := (scanFraction v).ok && decide ((scanFraction v).digits ≠ 0) } = w at h
  split_ifs at h with hok hreal
  · cases h
  · rw [Bool.or_eq_true, not_or, decide_eq_true_eq, Bool.not_eq_true] at hreal
    obtain ⟨hwreal, hwint, hwdigits⟩ := scanExponent_integer hreal.1
    have hfraction : scanFraction v = v := scanFraction_integer (by rw [← hwreal, ← hw])
    have hint : w.int = readDigits (rest.takeWhile isDigit) ∧ w.digits = (rest.takeWhile isDigit).length := by
      rw [← hw, hfraction, ← hv]
      exact ⟨rfl, Nat.zero_add _⟩
    obtain ⟨m, hm, hread⟩ := @readDigits_lt (rest.takeWhile isDigit)
      (fun b hb => List.mem_takeWhile_imp hb) (by omega)
    have hsmall : m < 10 ^ 18 := hm.trans_le (Nat.pow_le_pow_right (by decide) (by omega))
    have hmint := toInt_ofNat_of_lt (n := m) (by omega)
    cases Number.integer.inj (Option.some.inj h)
    rw [hwint, hint.1, hread, hnegative]
    cases negative with
    | false =>
      rw [if_neg Bool.false_ne_true, show BitVec.ofNat 64 m * 1 = BitVec.ofNat 64 m from BitVec.mul_one _, hmint]
      omega
    | true =>
      rw [if_pos rfl, BitVec.mul_neg, show BitVec.ofNat 64 m * 1 = BitVec.ofNat 64 m from BitVec.mul_one _,
        BitVec.toInt_neg, hmint, Int.bmod_eq_of_le (by omega) (by omega)]
      omega

end

end Ussr
