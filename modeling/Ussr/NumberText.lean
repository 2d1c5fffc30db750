import Ussr.Numerals

/-! Which integers `str_from_int` prints as they are written, and which texts `str_to_number`
takes. -/

namespace Ussr
open Decimal (decimal ofDecimal)

variable {t s : Text} {P : Nat → Prop}
open Stalin (Text strTrim strIsBlankByte)

def canonical (n : Int) : Text := if n < 0 then 45 :: decimal n.natAbs else decimal n.natAbs

def RoundsUp (m : Nat) : Prop :=
  ∃ i, 15 ≤ i ∧ i ≤ 17 ∧ 10 ^ (i + 1) - 8 ^ (i - 15) ≤ m ∧ m < 10 ^ (i + 1)

instance : DecidablePred RoundsUp := fun m =>
  decidable_of_iff (∃ i ∈ [15, 16, 17], 10 ^ (i + 1) - 8 ^ (i - 15) ≤ m ∧ m < 10 ^ (i + 1)) (by
    simp only [RoundsUp, List.mem_cons, List.not_mem_nil, or_false]
    exact exists_congr fun i => by omega)

theorem Prints.roundsUp {m k : Nat} (hk : k ≤ 18) (hprints : Prints m k) :
    RoundsUp m ↔ ¬(k = 0 ∨ 10 ^ k ≤ m) := by
  constructor
  · intro ⟨i, hlow, hhigh, hturn, hbelow⟩
    have hbounds := @powerTurn_bounds i (by omega)
    rw [show 10 ^ (i + 1) - 8 ^ (i - 15) = powerTurn i by rw [powerTurn, if_neg (by omega)]] at hturn
    have hik : i < k := by
      by_contra hle
      obtain hlt | rfl := (Nat.le_of_not_lt hle).lt_or_eq
      · have hpow : 10 ^ (k + 1) ≤ 10 ^ i := Nat.pow_le_pow_right (by decide) hlt
        have hprinted := hprints.high.trans_le (powerTurn_le k)
        omega
      · exact absurd hprints.high (Nat.not_lt.mpr hturn)
    have hpow : 10 ^ (i + 1) ≤ 10 ^ k := Nat.pow_le_pow_right (by decide) hik
    omega
  · intro hshort
    obtain ⟨i, rfl⟩ : ∃ i, k = i + 1 := ⟨k - 1, by omega⟩
    have hturn := hprints.low i (Nat.lt_succ_self i)
    unfold powerTurn at hturn
    split_ifs at hturn with hi
    · omega
    · exact ⟨i, by omega, by omega, hturn, by omega⟩

theorem numeral_eq_decimal_iff {m k : Nat} (hm : m < 10 ^ (k + 1)) :
    numeral k m = decimal m ↔ k = 0 ∨ 10 ^ k ≤ m := by
  refine ⟨fun heq => ?_, fun hlow => numeral_eq_decimal ⟨hlow, hm⟩⟩
  by_contra hlow
  have hlength := Decimal.decimal_length_le (n := m) (m := k) (by omega) (by omega)
  rw [← heq, length_numeral] at hlength
  omega

theorem strFromInt_numeral {n : BitVec 64} (hn : n ≠ BitVec.intMin 64) :
    ∃ k ≤ 18, Prints n.toInt.natAbs k ∧
      strFromInt n = (if n.toInt < 0 then [45] else []) ++ numeral k n.toInt.natAbs := by
  have hsmall : n.toInt.natAbs < 2 ^ 63 := by
    have hlow := n.le_toInt
    have hhigh := n.toInt_lt
    have hne : n.toInt ≠ (BitVec.intMin 64).toInt := fun h => hn (BitVec.eq_of_toInt_eq h)
    rw [show (BitVec.intMin 64).toInt = -2 ^ 63 by decide] at hne
    omega
  have hcases := int_cases hsmall
  obtain ⟨k, hk, hprints⟩ := prints_some hsmall
  refine ⟨k, hk, hprints, ?_⟩
  have hint := toInt_ofNat_of_lt hsmall
  cases hcases with
  | inl hpos =>
    rw [if_neg (by rw [hpos]; omega), List.nil_append]
    conv_lhs => rw [hpos]
    exact strFromInt_prints hsmall hk hprints
  | inr hneg =>
    have hsign : n.toInt < 0 := by
      rw [hneg.2, BitVec.toInt_neg, hint, Int.bmod_eq_of_le (by omega) (by omega)]
      omega
    rw [if_pos hsign]
    conv_lhs => rw [hneg.2]
    exact strFromInt_neg hsmall hk hprints hneg.1

theorem canonical_eq (n : Int) : canonical n = (if n < 0 then [45] else []) ++ decimal n.natAbs := by
  unfold canonical
  split_ifs <;> rfl

theorem length_strFromInt {n : BitVec 64} (hn : n ≠ BitVec.intMin 64) :
    (strFromInt n).length = (canonical n.toInt).length + if RoundsUp n.toInt.natAbs then 1 else 0 := by
  obtain ⟨k, hk, hprints, htext⟩ := strFromInt_numeral hn
  have hround := hprints.roundsUp hk
  have hhigh := hprints.high.trans_le (powerTurn_le k)
  rw [htext, canonical_eq, List.length_append, List.length_append, length_numeral, Nat.add_assoc]
  congr 1
  generalize n.toInt.natAbs = m at hprints hround hhigh ⊢
  by_cases hlow : k = 0 ∨ 10 ^ k ≤ m
  · rw [if_neg (by rw [hround, not_not]; exact hlow), ← (numeral_eq_decimal_iff hhigh).mpr hlow, length_numeral]
  · obtain ⟨i, rfl⟩ : ∃ i, k = i + 1 := ⟨k - 1, by omega⟩
    have hturn := (powerTurn_bounds (show i < 18 by omega)).1.trans (hprints.low i (Nat.lt_succ_self i))
    rw [if_pos (hround.mpr hlow), ← (numeral_eq_decimal_iff (k := i) (by omega)).mpr (.inr hturn), length_numeral]

theorem strFromInt_canonical_iff {n : BitVec 64} (hn : n ≠ BitVec.intMin 64) :
    strFromInt n = canonical n.toInt ↔ ¬RoundsUp n.toInt.natAbs := by
  obtain ⟨k, hk, hprints, htext⟩ := strFromInt_numeral hn
  rw [htext, canonical_eq, List.append_cancel_left_eq, hprints.roundsUp hk, not_not,
    numeral_eq_decimal_iff (hprints.high.trans_le (powerTurn_le k))]

theorem strFromInt_least : strFromInt (BitVec.intMin 64) = [45, 48] := by decide +kernel

theorem length_strFromInt_le (n : BitVec 64) : (strFromInt n).length ≤ 20 := by
  by_cases hn : n = BitVec.intMin 64
  · rw [hn, strFromInt_least]
    decide
  · obtain ⟨k, hk, _, htext⟩ := strFromInt_numeral hn
    rw [htext, List.length_append, length_numeral]
    split_ifs <;> simp only [List.length_cons, List.length_nil] <;> omega

theorem ofDecimal_numeral {k m : Nat} (hm : m < 10 ^ (k + 1)) : ofDecimal (numeral k m) = m := by
  have hdigit {d : Nat} (hd : d < 10) : (UInt8.ofNat (48 + d)).toNat - 48 = d := by
    rw [Decimal.toNat_digit hd, Nat.add_sub_cancel_left]
  induction k generalizing m with
  | zero =>
    rw [numeral, ofDecimal, List.foldl_cons, List.foldl_nil, hdigit hm, Nat.mul_zero, Nat.zero_add]
  | succ k ih =>
    have hfront := ih (m := m / 10) (by omega)
    unfold ofDecimal at hfront ⊢
    rw [numeral, List.foldl_append, hfront, List.foldl_cons, List.foldl_nil, hdigit (Nat.mod_lt m (by decide)),
      Nat.div_add_mod]

theorem least_not_canonical : strFromInt (BitVec.intMin 64) ≠ canonical (BitVec.intMin 64).toInt := by
  rw [strFromInt_least, show (BitVec.intMin 64).toInt = -2 ^ 63 by decide]
  intro heq
  have hread := congrArg (fun t => ofDecimal t.tail) heq
  simp only [canonical, List.tail_cons] at hread
  rw [if_pos (by decide), List.tail_cons, Decimal.ofDecimal_decimal] at hread
  revert hread
  decide

/-- An integer is printed as it is written, and one of at most 18 digits read back, if and only
if it is not the least one and none of those that round up. -/
theorem strFromInt_iff (n : BitVec 64) : (strFromInt n = canonical n.toInt ∧
    (n.toInt.natAbs < 10 ^ 18 → strToNumber (strFromInt n) = some (.integer n))) ↔
      n ≠ BitVec.intMin 64 ∧ ¬RoundsUp n.toInt.natAbs := by
  constructor
  · intro ⟨hprinted, _⟩
    have hn : n ≠ BitVec.intMin 64 := by
      intro hleast
      exact least_not_canonical (hleast ▸ hprinted)
    exact ⟨hn, (strFromInt_canonical_iff hn).mp hprinted⟩
  · intro ⟨hn, hround⟩
    refine ⟨(strFromInt_canonical_iff hn).mpr hround, fun hshort => (strFromInt_reads hshort).2.1 ?_⟩
    by_contra hlong
    exact hround ⟨17, by decide, by decide, by omega, hshort⟩

def Sign (t : Text) : Prop := t = [] ∨ t = [43] ∨ t = [45]

def Digits (t : Text) : Prop := ∀ b ∈ t, isDigit b = true

def Mantissa (t : Text) : Prop :=
  ∃ whole, Digits whole ∧ (t = whole ∧ whole ≠ [] ∨
    ∃ fraction, Digits fraction ∧ t = whole ++ 46 :: fraction ∧ whole ++ fraction ≠ [])

/-- An exponent whose digits are a number with `P`. -/
def Exponent (P : Nat → Prop) (t : Text) : Prop :=
  ∃ e sign digits, t = e :: (sign ++ digits) ∧ (e = 101 ∨ e = 69) ∧ Sign sign ∧ Digits digits ∧
    digits ≠ [] ∧ P (ofDecimal digits)

/-- A sign, digits and then `Tail`, with blanks around them. -/
def IsNumeral (Tail : Text → Prop) (s : Text) : Prop :=
  ∃ before sign mantissa tail after, s = before ++ (sign ++ mantissa ++ tail) ++ after ∧
    (∀ b ∈ before, strIsBlankByte b = true) ∧ (∀ b ∈ after, strIsBlankByte b = true) ∧
    Sign sign ∧ Mantissa mantissa ∧ Tail tail

def IsNumber (s : Text) : Prop := IsNumeral (fun tail => tail = [] ∨ Exponent (· ≤ 308) tail) s

def Wraps (s : Text) : Prop :=
  IsNumeral (Exponent fun n => 308 < n ∧ (BitVec.ofNat 64 n).toInt ≤ 308) s

theorem readDigits_eq {ds : Text} : readDigits ds = BitVec.ofNat 64 (ofDecimal ds) := by
  unfold readDigits ofDecimal
  induction ds using List.reverseRecOn with
  | nil => rfl
  | append_singleton ds b ih =>
    rw [List.foldl_append, List.foldl_append, ih, List.foldl_cons, List.foldl_nil, List.foldl_cons, List.foldl_nil,
      BitVec.ofNat_add, BitVec.ofNat_mul, BitVec.mul_comm]
    rfl

theorem strTrim_blanks {before after : Text} (hbefore : ∀ b ∈ before, strIsBlankByte b = true)
    (hafter : ∀ b ∈ after, strIsBlankByte b = true) (ht : ∀ b ∈ t, strIsBlankByte b = false) :
    strTrim (before ++ t ++ after) = t := by
  have hskip {blanks rest : Text} (h : ∀ b ∈ blanks, strIsBlankByte b = true) :
      (blanks ++ rest).dropWhile strIsBlankByte = rest.dropWhile strIsBlankByte := by
    rw [List.dropWhile_append_of_pos h]
  have hkeep {t rest : Text} (h : ∀ b ∈ t, strIsBlankByte b = false) (hne : t ≠ []) :
      (t ++ rest).dropWhile strIsBlankByte = t ++ rest := by
    cases t with
    | nil => exact absurd rfl hne
    | cons b t =>
      rw [List.cons_append, List.dropWhile_cons_of_neg (by rw [h b List.mem_cons_self]; decide)]
  unfold strTrim
  rw [List.append_assoc, hskip hbefore]
  by_cases hne : t = []
  · have hnone := @hskip after [] hafter
    rw [List.append_nil] at hnone
    rw [hne, List.nil_append, hnone]
    rfl
  · have hreverse := @hkeep t.reverse [] (fun b hb => ht b (List.mem_reverse.mp hb)) (by simpa using hne)
    rw [List.append_nil] at hreverse
    rw [hkeep ht hne, List.reverse_append, hskip fun b hb => hafter b (List.mem_reverse.mp hb), hreverse,
      List.reverse_reverse]

theorem strTrim_split (s : Text) : ∃ before after, s = before ++ strTrim s ++ after ∧
    (∀ b ∈ before, strIsBlankByte b = true) ∧ ∀ b ∈ after, strIsBlankByte b = true := by
  refine ⟨s.takeWhile strIsBlankByte,
    ((s.dropWhile strIsBlankByte).reverse.takeWhile strIsBlankByte).reverse, ?_, ?_, ?_⟩
  · unfold strTrim
    rw [List.append_assoc, ← List.reverse_append, List.takeWhile_append_dropWhile, List.reverse_reverse,
      List.takeWhile_append_dropWhile]
  · intro b hb
    exact List.mem_takeWhile_imp hb
  · intro b hb
    exact List.mem_takeWhile_imp (List.mem_reverse.mp hb)

theorem take_digits {ds rest : Text} (hds : Digits ds) (hrest : ∀ b ∈ rest.head?, isDigit b = false) :
    (ds ++ rest).takeWhile isDigit = ds ∧ (ds ++ rest).dropWhile isDigit = rest := by
  have hstop : rest.takeWhile isDigit = [] ∧ rest.dropWhile isDigit = rest := by
    cases rest with
    | nil => exact ⟨rfl, rfl⟩
    | cons b rest =>
      have hb := hrest b rfl
      exact ⟨List.takeWhile_cons_of_neg (by rw [hb]; decide), List.dropWhile_cons_of_neg (by rw [hb]; decide)⟩
  rw [List.takeWhile_append_of_pos hds, List.dropWhile_append_of_pos hds, hstop.1, hstop.2, List.append_nil]
  exact ⟨rfl, rfl⟩

theorem scanSign_append {sign rest : Text} (hsign : Sign sign) (hrest : ∀ b ∈ rest.head?, b ≠ 43 ∧ b ≠ 45) :
    (scanSign (sign ++ rest)).2 = rest := by
  obtain rfl | rfl | rfl := hsign
  · cases rest with
    | nil => rfl
    | cons b rest =>
      have hb := hrest b rfl
      unfold scanSign
      split <;> simp_all
  · rfl
  · rfl

theorem scanSign_split (t : Text) : ∃ sign, Sign sign ∧ t = sign ++ (scanSign t).2 := by
  unfold scanSign
  split
  · exact ⟨[45], .inr (.inr rfl), rfl⟩
  · exact ⟨[43], .inr (.inl rfl), rfl⟩
  · exact ⟨[], .inl rfl, rfl⟩

def scanned (t : Text) : Scan := scanFraction (scanInteger ⟨(scanSign t).2, decide (t ≠ []), false, 0, 0, 0⟩)

def scannedDigits (t : Text) : Scan :=
  { scanned t with ok := (scanned t).ok && decide ((scanned t).digits ≠ 0) }

theorem strToNumber_ne_none (s : Text) : strToNumber s ≠ none ↔
    (scanExponent (scannedDigits (strTrim s))).ok = true ∧
      (scanExponent (scannedDigits (strTrim s))).rest = [] := by
  have hread (v : Scan) (x y : Number) : (if !v.ok || v.rest ≠ [] then none
      else if v.real || 18 < v.digits then some x else some y) ≠ none ↔ v.ok = true ∧ v.rest = [] := by
    split_ifs with hfail
    · simp only [Bool.or_eq_true, Bool.not_eq_true', decide_eq_true_eq] at hfail
      grind
    · simp_all
    · simp_all
  exact hread (scanExponent (scannedDigits (strTrim s))) (.real _) (.integer _)

def Scanned (tail : Text) : Prop := tail = [] ∨ Exponent (fun n => (BitVec.ofNat 64 n).toInt ≤ 308) tail

theorem Exponent.head (h : Exponent P t) : ∃ b ∈ t.head?, b = 101 ∨ b = 69 := by
  obtain ⟨e, sign, digits, rfl, he, _⟩ := h
  exact ⟨e, rfl, he⟩

theorem sign_of_isDigit {b : UInt8} (h : isDigit b = true) : b ≠ 43 ∧ b ≠ 45 ∧ b ≠ 46 ∧ b ≠ 101 ∧ b ≠ 69 := by
  refine ⟨?_, ?_, ?_, ?_, ?_⟩ <;>
  · rintro rfl
    revert h
    decide

theorem scanExponent_iff {v : Scan} (hok : v.ok = true) :
    ((scanExponent v).ok = true ∧ (scanExponent v).rest = []) ↔ Scanned v.rest := by
  unfold scanExponent
  cases hrest : v.rest with
  | nil => simp [hok, hrest, Scanned]
  | cons b rest =>
    dsimp only
    by_cases he : v.ok = true ∧ (b = 101 ∨ b = 69)
    · rw [if_pos he]
      have hslt {x : BitVec 64} : (¬BitVec.slt 308 x = true) ↔ x.toInt ≤ 308 := by
        rw [BitVec.slt_eq_decide, decide_eq_true_eq, Int.not_lt]
        rfl
      dsimp only
      rw [decide_eq_true_eq, hslt]
      constructor
      · intro ⟨⟨hne, hexp⟩, hend⟩
        obtain ⟨sign, hsign, hsplit⟩ := scanSign_split rest
        have hall : (scanSign rest).2.takeWhile isDigit = (scanSign rest).2 := by
          have happend := List.takeWhile_append_dropWhile (p := isDigit) (l := (scanSign rest).2)
          rwa [hend, List.append_nil] at happend
        rw [hall] at hne hexp
        refine .inr ⟨b, sign, (scanSign rest).2, by rw [← hsplit], he.2, hsign,
          List.takeWhile_eq_self_iff.mp hall, hne, ?_⟩
        change (readDigits _).toInt ≤ 308 at hexp
        rwa [readDigits_eq] at hexp
      · intro hscanned
        obtain hnil | ⟨e, sign, digits, heq, _, hsign, hdigits, hne, hexp⟩ := hscanned
        · cases hnil
        · obtain ⟨rfl, rfl⟩ := List.cons.inj heq
          have hdrop := @scanSign_append sign digits hsign (by
            intro c hc
            have hc' := sign_of_isDigit (hdigits c (List.mem_of_mem_head? hc))
            exact ⟨hc'.1, hc'.2.1⟩)
          have htake := @take_digits digits [] hdigits (by simp)
          rw [List.append_nil] at htake
          rw [hdrop, htake.1, htake.2]
          refine ⟨⟨hne, ?_⟩, rfl⟩
          change (readDigits _).toInt ≤ 308
          rwa [readDigits_eq]
    · rw [if_neg he]
      constructor
      · intro ⟨_, hend⟩
        rw [hrest] at hend
        cases hend
      · intro hscanned
        obtain hnil | hexponent := hscanned
        · cases hnil
        · obtain ⟨c, hc, hletter⟩ := hexponent.head
          cases hc
          exact absurd ⟨hok, hletter⟩ he

theorem scanExponent_fails {v : Scan} (hok : v.ok = false) : (scanExponent v).ok = false := by
  unfold scanExponent
  split
  · rw [if_neg (by simp [hok]), hok]
  · exact hok

theorem scannedDigits_ok (t : Text) : (scannedDigits t).ok = true ↔ t ≠ [] ∧ (scanned t).digits ≠ 0 := by
  have hok : (scanned t).ok = decide (t ≠ []) := by
    unfold scanned scanFraction scanInteger
    split <;> rfl
  rw [scannedDigits, hok, Bool.and_eq_true, decide_eq_true_eq, decide_eq_true_eq]

theorem fraction_of_point {rest : Text} {ok : Bool} (hpoint : t.dropWhile isDigit = 46 :: rest) :
    (scanFraction (scanInteger ⟨t, ok, false, 0, 0, 0⟩)).rest = rest.dropWhile isDigit ∧
      (scanFraction (scanInteger ⟨t, ok, false, 0, 0, 0⟩)).digits =
        (t.takeWhile isDigit ++ rest.takeWhile isDigit).length := by
  simp [scanFraction, scanInteger, hpoint]

theorem fraction_of_none {ok : Bool} (hpoint : 46 ∉ (t.dropWhile isDigit).head?) :
    (scanFraction (scanInteger ⟨t, ok, false, 0, 0, 0⟩)).rest = t.dropWhile isDigit ∧
      (scanFraction (scanInteger ⟨t, ok, false, 0, 0, 0⟩)).digits = (t.takeWhile isDigit).length := by
  unfold scanFraction scanInteger
  dsimp only
  split
  · rename_i heq
    rw [heq] at hpoint
    exact absurd rfl hpoint
  · exact ⟨rfl, Nat.zero_add _⟩

theorem scanned_split (hdigits : (scanned t).digits ≠ 0) :
    ∃ sign mantissa, t = sign ++ mantissa ++ (scanned t).rest ∧ Sign sign ∧ Mantissa mantissa := by
  obtain ⟨sign, hsign, hsplit⟩ := scanSign_split t
  unfold scanned at hdigits ⊢
  have happend := List.takeWhile_append_dropWhile (p := isDigit) (l := (scanSign t).2)
  have hwhole : Digits ((scanSign t).2.takeWhile isDigit) := fun b hb => List.mem_takeWhile_imp hb
  by_cases hpoint : 46 ∈ ((scanSign t).2.dropWhile isDigit).head?
  · obtain ⟨rest, hrest⟩ := List.head?_eq_some_iff.mp hpoint
    obtain ⟨hend, hcount⟩ := @fraction_of_point _ _ (decide (t ≠ [])) hrest
    rw [hcount] at hdigits
    refine ⟨sign, (scanSign t).2.takeWhile isDigit ++ 46 :: rest.takeWhile isDigit, ?_, hsign, _, hwhole,
      .inr ⟨rest.takeWhile isDigit, fun b hb => List.mem_takeWhile_imp hb, rfl, ?_⟩⟩
    · rw [hend, List.append_assoc, List.append_assoc, List.cons_append, List.takeWhile_append_dropWhile, ← hrest,
        happend, ← hsplit]
    · intro hnil
      rw [hnil] at hdigits
      exact hdigits rfl
  · obtain ⟨hend, hcount⟩ := @fraction_of_none _ (decide (t ≠ [])) hpoint
    rw [hcount] at hdigits
    refine ⟨sign, (scanSign t).2.takeWhile isDigit, ?_, hsign, _, hwhole, .inl ⟨rfl, ?_⟩⟩
    · rw [hend, List.append_assoc, happend, ← hsplit]
    · intro hnil
      rw [hnil] at hdigits
      exact hdigits rfl

theorem scanned_append {sign mantissa tail : Text} (hsign : Sign sign) (hmantissa : Mantissa mantissa)
    (htail : ∀ b ∈ tail.head?, b = 101 ∨ b = 69) :
    (scanned (sign ++ mantissa ++ tail)).rest = tail ∧ (scanned (sign ++ mantissa ++ tail)).digits ≠ 0 := by
  have hletter : ∀ b ∈ tail.head?, isDigit b = false := by
    intro b hb
    obtain rfl | rfl := htail b hb <;> decide
  unfold scanned
  obtain ⟨whole, hwhole, ⟨rfl, hne⟩ | ⟨fraction, hfraction, rfl, hne⟩⟩ := hmantissa
  · have hdrop := @scanSign_append sign (mantissa ++ tail) hsign (by
      intro b hb
      cases mantissa with
      | nil => exact absurd rfl hne
      | cons c mantissa =>
        cases hb
        have hc := sign_of_isDigit (hwhole b List.mem_cons_self)
        exact ⟨hc.1, hc.2.1⟩)
    obtain ⟨htake, hrest⟩ := take_digits hwhole hletter
    rw [List.append_assoc, hdrop]
    have hnone := @fraction_of_none (mantissa ++ tail) (decide (sign ++ (mantissa ++ tail) ≠ [])) (by
      rw [hrest]
      intro hpoint
      obtain h | h := htail _ hpoint <;> cases h)
    rw [hnone.1, hnone.2, htake, hrest]
    exact ⟨rfl, fun hzero => hne (List.length_eq_zero_iff.mp hzero)⟩
  · have hdrop := @scanSign_append sign (whole ++ 46 :: (fraction ++ tail)) hsign (by
      intro b hb
      cases whole with
      | nil =>
        cases hb
        decide
      | cons c whole =>
        cases hb
        have hc := sign_of_isDigit (hwhole b List.mem_cons_self)
        exact ⟨hc.1, hc.2.1⟩)
    obtain ⟨htake, hrest⟩ := @take_digits whole (46 :: (fraction ++ tail)) hwhole (by
      intro b hb
      cases hb
      decide)
    obtain ⟨htake', hrest'⟩ := take_digits hfraction hletter
    rw [List.append_assoc, List.append_assoc, List.cons_append, hdrop]
    have hpoint := @fraction_of_point _ _ (decide (sign ++ (whole ++ 46 :: (fraction ++ tail)) ≠ [])) hrest
    rw [hpoint.1, hpoint.2, htake, htake', hrest']
    exact ⟨rfl, fun hzero => hne (List.length_eq_zero_iff.mp hzero)⟩

theorem Sign.not_blank (h : Sign t) : ∀ b ∈ t, strIsBlankByte b = false := by
  obtain rfl | rfl | rfl := h
  · exact fun b hb => absurd hb List.not_mem_nil
  · exact List.forall_mem_singleton.mpr rfl
  · exact List.forall_mem_singleton.mpr rfl

theorem Digits.not_blank (h : Digits t) : ∀ b ∈ t, strIsBlankByte b = false :=
  fun b hb => not_blank_of_isDigit (h b hb)

theorem Mantissa.not_blank (h : Mantissa t) : ∀ b ∈ t, strIsBlankByte b = false := by
  obtain ⟨whole, hwhole, ⟨rfl, _⟩ | ⟨fraction, hfraction, rfl, _⟩⟩ := h
  · exact hwhole.not_blank
  · exact List.forall_mem_append.mpr ⟨hwhole.not_blank, List.forall_mem_cons.mpr ⟨rfl, hfraction.not_blank⟩⟩

theorem Exponent.not_blank (h : Exponent P t) : ∀ b ∈ t, strIsBlankByte b = false := by
  obtain ⟨e, sign, digits, rfl, he, hsign, hdigits, _⟩ := h
  refine List.forall_mem_cons.mpr ⟨?_, List.forall_mem_append.mpr ⟨hsign.not_blank, hdigits.not_blank⟩⟩
  obtain rfl | rfl := he <;> rfl

theorem Exponent.weaken {Q : Nat → Prop} (h : Exponent P t) (hPQ : ∀ n, P n → Q n) : Exponent Q t := by
  obtain ⟨e, sign, digits, ht, he, hsign, hdigits, hne, hP⟩ := h
  exact ⟨e, sign, digits, ht, he, hsign, hdigits, hne, hPQ _ hP⟩

theorem Exponent.unique {Q : Nat → Prop} (hP : Exponent P t) (hQ : Exponent Q t) :
    ∃ n, P n ∧ Q n := by
  obtain ⟨e, sign, digits, rfl, _, hsign, hdigits, _, hvalue⟩ := hP
  obtain ⟨e', sign', digits', heq, _, hsign', hdigits', _, hvalue'⟩ := hQ
  have hhead {ds : Text} (h : Digits ds) : ∀ b ∈ ds.head?, b ≠ 43 ∧ b ≠ 45 := by
    intro b hb
    have hb' := sign_of_isDigit (h b (List.mem_of_mem_head? hb))
    exact ⟨hb'.1, hb'.2.1⟩
  have hrest := congrArg (fun t => (scanSign t).2) (List.cons.inj heq).2
  rw [scanSign_append hsign (hhead hdigits), scanSign_append hsign' (hhead hdigits')] at hrest
  exact ⟨_, hvalue, hrest ▸ hvalue'⟩

theorem IsNumeral.mono {T U : Text → Prop} (h : IsNumeral T s) (hTU : ∀ t, T t → U t) :
    IsNumeral U s := by
  obtain ⟨before, sign, mantissa, tail, after, hs, hbefore, hafter, hsign, hmantissa, htail⟩ := h
  exact ⟨before, sign, mantissa, tail, after, hs, hbefore, hafter, hsign, hmantissa, hTU tail htail⟩

theorem IsNumeral.or {T U : Text → Prop} (h : IsNumeral (fun t => T t ∨ U t) s) :
    IsNumeral T s ∨ IsNumeral U s := by
  obtain ⟨before, sign, mantissa, tail, after, hs, hbefore, hafter, hsign, hmantissa, htail⟩ := h
  refine htail.imp ?_ ?_
  · exact fun h => ⟨before, sign, mantissa, tail, after, hs, hbefore, hafter, hsign, hmantissa, h⟩
  · exact fun h => ⟨before, sign, mantissa, tail, after, hs, hbefore, hafter, hsign, hmantissa, h⟩

theorem IsNumeral.scanned {T : Text → Prop} (h : IsNumeral T s)
    (hT : ∀ t, T t → t = [] ∨ Exponent (fun _ => True) t) :
    (scanned (strTrim s)).digits ≠ 0 ∧ T (scanned (strTrim s)).rest := by
  obtain ⟨before, sign, mantissa, tail, after, rfl, hbefore, hafter, hsign, hmantissa, htail⟩ := h
  have hblank : ∀ b ∈ tail, strIsBlankByte b = false := by
    obtain rfl | hexponent := hT tail htail
    · exact fun b hb => absurd hb List.not_mem_nil
    · exact hexponent.not_blank
  have hhead : ∀ b ∈ tail.head?, b = 101 ∨ b = 69 := by
    obtain rfl | hexponent := hT tail htail
    · exact fun b hb => absurd hb (by simp)
    · obtain ⟨c, hc, hletter⟩ := hexponent.head
      intro b hb
      exact Option.mem_unique hb hc ▸ hletter
  obtain ⟨hrest, hdigits⟩ := scanned_append hsign hmantissa hhead
  rw [strTrim_blanks hbefore hafter (List.forall_mem_append.mpr
    ⟨List.forall_mem_append.mpr ⟨hsign.not_blank, hmantissa.not_blank⟩, hblank⟩), hrest]
  exact ⟨hdigits, htail⟩

theorem Scanned.tail (t : Text) (h : Scanned t) : t = [] ∨ Exponent (fun _ => True) t :=
  h.imp_right fun h => h.weaken fun _ _ => trivial

theorem strToNumber_iff (s : Text) : strToNumber s ≠ none ↔ IsNumeral Scanned s := by
  rw [strToNumber_ne_none]
  constructor
  · intro hread
    have hok : (scannedDigits (strTrim s)).ok = true := by
      by_contra hfail
      rw [scanExponent_fails (Bool.not_eq_true _ ▸ hfail)] at hread
      exact Bool.false_ne_true hread.1
    have htail := (scanExponent_iff hok).mp hread
    obtain ⟨sign, mantissa, hsplit, hsign, hmantissa⟩ := scanned_split ((scannedDigits_ok _).mp hok).2
    obtain ⟨before, after, htrim, hbefore, hafter⟩ := strTrim_split s
    refine ⟨before, sign, mantissa, _, after, ?_, hbefore, hafter, hsign, hmantissa, htail⟩
    exact htrim.trans (congrArg (before ++ · ++ after) hsplit)
  · intro hnumeral
    obtain ⟨hdigits, htail⟩ := hnumeral.scanned Scanned.tail
    have hne : strTrim s ≠ [] := by
      intro hnil
      rw [hnil] at hdigits
      exact hdigits rfl
    exact (scanExponent_iff ((scannedDigits_ok _).mpr ⟨hne, hdigits⟩)).mpr htail

theorem IsNumber.accepted (h : IsNumber s) : IsNumeral Scanned s := by
  refine h.mono fun t ht => ht.imp_right fun hexponent => hexponent.weaken fun n hn => ?_
  rw [toInt_ofNat_of_lt (by omega)]
  exact_mod_cast hn

theorem strToNumber_none_iff (s : Text) : (strToNumber s = none ↔ ¬IsNumber s) ↔ ¬Wraps s := by
  have hread : strToNumber s = none ↔ ¬IsNumeral Scanned s := by rw [← strToNumber_iff, not_not]
  rw [hread, not_iff_not]
  constructor
  · intro hsame hwraps
    have hnumber : IsNumber s := hsame.mp (hwraps.mono fun t ht => .inr (ht.weaken fun n hn => hn.2))
    have hexponent := (hwraps.scanned fun t ht => .inr (ht.weaken fun _ _ => trivial)).2
    obtain hnil | hsmall := (hnumber.scanned fun t ht => ht.imp_right fun h => h.weaken fun _ _ => trivial).2
    · obtain ⟨b, hb, _⟩ := hexponent.head
      rw [hnil] at hb
      cases hb
    · obtain ⟨n, hn, hgreat⟩ := hsmall.unique hexponent
      exact absurd hgreat.1 (Nat.not_lt.mpr hn)
  · intro hwraps
    refine ⟨fun hscanned => ?_, IsNumber.accepted⟩
    refine (IsNumeral.or (hscanned.mono fun t ht => ?_)).resolve_right hwraps
    obtain hnil | ⟨e, sign, digits, hsplit, he, hsign, hdigits, hne, hexp⟩ := ht
    · exact .inl (.inl hnil)
    · by_cases hvalue : ofDecimal digits ≤ 308
      · exact .inl (.inr ⟨e, sign, digits, hsplit, he, hsign, hdigits, hne, hvalue⟩)
      · exact .inr ⟨e, sign, digits, hsplit, he, hsign, hdigits, hne, Nat.lt_of_not_le hvalue, hexp⟩

/-- The two halves: what is printed, for every integer, and what is read, for every text. -/
theorem numbers_as_text_iff (n : BitVec 64) (s : Text) :
    ((strFromInt n = canonical n.toInt ∧
      (n.toInt.natAbs < 10 ^ 18 → strToNumber (strFromInt n) = some (.integer n))) ↔
        n ≠ BitVec.intMin 64 ∧ ¬RoundsUp n.toInt.natAbs) ∧
    ((strToNumber s = none ↔ ¬IsNumber s) ↔ ¬Wraps s) :=
  ⟨strFromInt_iff n, strToNumber_none_iff s⟩

/-- `9999999999999999` gets a zero in front, and `1e18446744073709551616` is taken for `1e0`. -/
theorem wrong_numerals :
    strFromInt (BitVec.ofNat 64 9999999999999999) ≠ canonical (BitVec.ofNat 64 9999999999999999).toInt ∧
      ¬(strToNumber (49 :: 101 :: decimal (2 ^ 64)) = none ↔ ¬IsNumber (49 :: 101 :: decimal (2 ^ 64))) := by
  constructor
  · rw [Ne, strFromInt_canonical_iff (by decide), not_not]
    exact ⟨15, by decide⟩
  · rw [strToNumber_none_iff, not_not]
    have hdigits : Digits (decimal (2 ^ 64)) := Decimal.decimal_digits _
    refine ⟨[], [], [49], 101 :: ([] ++ decimal (2 ^ 64)), [], rfl, by simp, by simp, .inl rfl,
      ⟨[49], by simp [Digits, isDigit], .inl ⟨rfl, by simp⟩⟩, 101, [], _, rfl, .inl rfl, .inl rfl, hdigits,
      Decimal.decimal_ne_nil _, ?_⟩
    rw [Decimal.ofDecimal_decimal]
    decide

end Ussr
