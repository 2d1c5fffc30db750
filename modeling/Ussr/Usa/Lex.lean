import Ussr.Usa.Types

/-! The integer constants of a C program: `lx_intval` of usa's lexer, and what C says of their values and
types where `long` has 64 bits. -/

namespace Ussr.Usa.Lex

def lxBase : List UInt8 → Nat × Nat
  | b0 :: b1 :: _ => if b0 = 48 ∧ (b1 = 120 ∨ b1 = 88) then (16, 2) else if b0 = 48 then (8, 1) else (10, 0)
  | _ => (10, 0)

def digitOf (base b : Nat) : Int :=
  if 47 < b ∧ b < 58 then b - 48
  else if base = 16 ∧ 96 < b ∧ b < 103 then b - 87
  else if base = 16 ∧ 64 < b ∧ b < 71 then b - 55
  else -1

def digitsLoop (base : Nat) : (r : BitVec 64) → (big : Bool) → List UInt8 → BitVec 64 × Bool × List UInt8
  | r, big, [] => (r, big, [])
  | r, big, b :: s =>
    let d := digitOf base b.toNat
    if d < 0 ∨ base ≤ d then (r, big, b :: s)
    else
      let big := if (922337203685477579#64).slt r || r.slt 0 then true else big
      digitsLoop base (r * BitVec.ofNat 64 base + BitVec.ofInt 64 d) big s

/-- The loop over the suffix: whether it has a `u` and an `l`, or `none` for an invalid suffix. -/
def suffixLoop : (u l : Bool) → List UInt8 → Option (Bool × Bool)
  | u, l, [] => some (u, l)
  | u, l, b :: s =>
    if b = 117 ∨ b = 85 then suffixLoop true l s
    else if b = 108 ∨ b = 76 then suffixLoop u true s
    else none

/-- The type in `lx_ity`. -/
def lxIty (base : Nat) (r : BitVec 64) (big u l : Bool) : Ty :=
  if big then .ulong
  else if l ∨ (4294967295#64).slt r then if u then .ulong else .long
  else if (2147483647#64).slt r then if u ∨ base ≠ 10 then .uint else .long
  else if u then .uint
  else .int

/-- `lx_intval`, with the type that it leaves in `lx_ity`; `none` where it stops with an error. -/
def lxIntval (s : List UInt8) : Option (BitVec 64 × Ty) := do
  let (base, i) := lxBase s
  let (r, big, rest) := digitsLoop base 0 false (s.drop i)
  let (u, l) ← suffixLoop false false rest
  let big := if r.slt 0 then true else big
  return (r, lxIty base r big u l)

inductive Radix where
  | decimal | octal | hexadecimal
deriving DecidableEq

namespace Radix

def base : Radix → Nat
  | decimal => 10
  | octal => 8
  | hexadecimal => 16

def IsDigit (radix : Radix) (b : UInt8) : Prop :=
  48 ≤ b.toNat ∧ b.toNat < 48 + min radix.base 10 ∨
    radix = hexadecimal ∧ (97 ≤ b.toNat ∧ b.toNat < 103 ∨ 65 ≤ b.toNat ∧ b.toNat < 71)

instance decidableIsDigit (radix : Radix) (b : UInt8) : Decidable (radix.IsDigit b) := inferInstanceAs (Decidable (_ ∨ _))

end Radix

def digitValue (b : UInt8) : Nat := if b.toNat < 58 then b.toNat - 48 else if b.toNat < 71 then b.toNat - 55 else b.toNat - 87

def unsignedSuffixes : List (List UInt8) := [[117], [85]]

def longSuffixes : List (List UInt8) := [[108], [76], [108, 108], [76, 76]]

/-- `u`, `l`, `ll` and their combinations. -/
def suffixes : List (List UInt8) :=
  [] :: unsignedSuffixes ++ longSuffixes ++ (unsignedSuffixes.flatMap fun u => longSuffixes.map fun l => u ++ l) ++
    longSuffixes.flatMap fun l => unsignedSuffixes.map fun u => l ++ u

/-- An integer constant of C: a decimal one does not start with 0, an octal one is 0 and any digits, and
a hexadecimal one `0x` or `0X` and digits. -/
structure Constant where
  radix : Radix
  x : UInt8
  digits : List UInt8
  suffix : List UInt8
  isX : x = 120 ∨ x = 88
  isDigits : ∀ b ∈ digits, radix.IsDigit b
  first : radix = .decimal → digits.head? ≠ none ∧ digits.head? ≠ some 48
  some : radix = .hexadecimal → digits ≠ []
  isSuffix : suffix ∈ suffixes

namespace Constant

variable (c : Constant)

def text : List UInt8 :=
  (match c.radix with
    | .decimal => []
    | .octal => [48]
    | .hexadecimal => [48, c.x]) ++ c.digits ++ c.suffix

def value : Nat := c.digits.foldl (fun r b => r * c.radix.base + digitValue b) 0

def IsUnsigned : Prop := 117 ∈ c.suffix ∨ 85 ∈ c.suffix

def IsLong : Prop := 108 ∈ c.suffix ∨ 76 ∈ c.suffix

instance decidableIsUnsigned : Decidable c.IsUnsigned := inferInstanceAs (Decidable (_ ∨ _))

instance decidableIsLong : Decidable c.IsLong := inferInstanceAs (Decidable (_ ∨ _))

/-- The types that C tries in turn; a decimal constant is not unsigned without a `u`. -/
def types : List Ty :=
  [.int, .uint, .long, .ulong].filter fun t =>
    (c.IsLong → Ty.long.rank ≤ t.rank) ∧ (c.IsUnsigned → t.unsigned) ∧ (t.unsigned → c.IsUnsigned ∨ c.radix ≠ .decimal)

def type : Option Ty := c.types.find? fun t => t.Holds c.value

end Constant

theorem digitOf_isDigit {radix : Radix} {b : UInt8} (h : radix.IsDigit b) :
    digitOf radix.base b.toNat = digitValue b ∧ digitValue b < radix.base := by
  unfold digitOf digitValue
  obtain h | ⟨rfl, h⟩ := h
  · have hdec : b.toNat < 58 := by omega
    rw [if_pos (by omega), if_pos hdec]
    omega
  · have hhex : ¬b.toNat < 58 := by omega
    rw [if_neg (by omega), if_neg hhex]
    simp only [Radix.base, true_and]
    split_ifs <;> omega

theorem digitOf_suffix (base : Nat) {b : UInt8} (h : b ∈ ([117, 85, 108, 76] : List UInt8)) : digitOf base b.toNat = -1 := by
  simp only [List.mem_cons, List.not_mem_nil, or_false] at h
  unfold digitOf
  obtain rfl | rfl | rfl | rfl := h <;> simp

theorem toInt_ofNat_word {a : Nat} (ha : a < 2 ^ 64) : (BitVec.ofNat 64 a).toInt = (a : Int).bmod (2 ^ 64) := by
  rw [BitVec.toInt_eq_toNat_bmod, BitVec.toNat_ofNat, Nat.mod_eq_of_lt ha]

theorem slt_ofNat {limit a : Nat} (hlimit : limit < 2 ^ 63) (ha : a < 2 ^ 64) :
    (BitVec.ofNat 64 limit).slt (BitVec.ofNat 64 a) = decide (limit < a ∧ a < 2 ^ 63) := by
  rw [BitVec.slt_eq_decide, toInt_ofNat_word (by omega), toInt_ofNat_word ha]
  refine decide_eq_decide.mpr ?_
  rw [Int.bmod, Int.bmod]
  omega

theorem ofNat_slt_zero {a : Nat} (ha : a < 2 ^ 64) : (BitVec.ofNat 64 a).slt 0 = decide (2 ^ 63 ≤ a) := by
  have hzero : (0 : BitVec 64).toInt = 0 := by decide
  rw [BitVec.slt_eq_decide, toInt_ofNat_word ha, hzero]
  refine decide_eq_decide.mpr ?_
  rw [Int.bmod]
  omega

theorem slt_big {a : Nat} (ha : a < 2 ^ 64) :
    ((922337203685477579#64).slt (BitVec.ofNat 64 a) || (BitVec.ofNat 64 a).slt 0) = decide (922337203685477580 ≤ a) := by
  rw [slt_ofNat (by decide) ha, ofNat_slt_zero ha, ← Bool.decide_or]
  refine decide_eq_decide.mpr ?_
  omega

theorem foldl_digits_le (base : Nat) (hbase : 0 < base) (ds : List UInt8) (a : Nat) :
    a ≤ ds.foldl (fun r b => r * base + digitValue b) a := by
  induction ds generalizing a with
  | nil => exact Nat.le_refl a
  | cons b ds ih => exact (Nat.le_mul_of_pos_right a hbase).trans ((Nat.le_add_right _ _).trans (ih _))

theorem digitsLoop_spec {radix : Radix} {ds rest : List UInt8} (hds : ∀ b ∈ ds, radix.IsDigit b)
    (hrest : ∀ b ∈ rest, b ∈ ([117, 85, 108, 76] : List UInt8)) (a : Nat) (big : Bool)
    (hv : ds.foldl (fun r b => r * radix.base + digitValue b) a < 2 ^ 64) :
    digitsLoop radix.base (BitVec.ofNat 64 a) big (ds ++ rest) =
      (BitVec.ofNat 64 (ds.foldl (fun r b => r * radix.base + digitValue b) a),
        big || decide (ds ≠ [] ∧ 922337203685477580 ≤ ds.foldl (fun r b => r * radix.base + digitValue b) a / radix.base), rest) := by
  have hbase : 0 < radix.base := by cases radix <;> decide
  induction ds generalizing a big with
  | nil =>
    simp only [List.foldl_nil, List.nil_append, ne_eq, not_true_eq_false, false_and, decide_false, Bool.or_false]
    cases rest with
    | nil => rfl
    | cons b rest => rw [digitsLoop, digitOf_suffix _ (hrest b List.mem_cons_self), if_pos (.inl (by decide))]
  | cons b ds ih =>
    obtain ⟨hdigit, hlt⟩ := digitOf_isDigit (hds b List.mem_cons_self)
    rw [List.foldl_cons] at hv ⊢
    have hle := foldl_digits_le radix.base hbase ds (a * radix.base + digitValue b)
    have hstep : BitVec.ofNat 64 a * BitVec.ofNat 64 radix.base + BitVec.ofInt 64 (digitValue b) =
        BitVec.ofNat 64 (a * radix.base + digitValue b) := by
      rw [BitVec.ofInt_natCast, BitVec.ofNat_add, BitVec.ofNat_mul]
    have hshort : a ≤ (a * radix.base + digitValue b) / radix.base := (Nat.le_div_iff_mul_le hbase).mpr (Nat.le_add_right _ _)
    have ha : a < 2 ^ 64 := by
      have := Nat.le_mul_of_pos_right a hbase
      omega
    rw [List.cons_append, digitsLoop, hdigit, if_neg (by omega)]
    simp only [slt_big ha, hstep]
    rw [ih (fun b hb => hds b (List.mem_cons_of_mem _ hb)) _ _ hv]
    refine congrArg (fun mark : Bool => (BitVec.ofNat 64 (ds.foldl _ _), mark, rest)) ?_
    cases ds with
    | nil =>
      have hlast : (a * radix.base + digitValue b) / radix.base = a := by
        rw [Nat.mul_comm, Nat.mul_add_div hbase, Nat.div_eq_of_lt hlt, Nat.add_zero]
      simp only [List.foldl_nil, hlast, ne_eq, not_true_eq_false, false_and, decide_false, Bool.or_false, reduceCtorEq,
        not_false_eq_true, true_and]
      split_ifs with hbig <;> simp_all
    | cons b' ds =>
      have hmono := Nat.div_le_div_right (c := radix.base) hle
      split_ifs with hbig
      · have hvbig : 922337203685477580 ≤ a := of_decide_eq_true hbig
        have hvlast : decide (b :: b' :: ds ≠ [] ∧ 922337203685477580 ≤
            (b' :: ds).foldl (fun r b => r * radix.base + digitValue b) (a * radix.base + digitValue b) / radix.base) = true :=
          decide_eq_true ⟨List.cons_ne_nil _ _, hvbig.trans (hshort.trans hmono)⟩
        rw [hvlast, Bool.or_true, Bool.true_or]
      · simp

section

theorem suffixLoop_spec : ∀ s ∈ suffixes, (∀ b ∈ s, b ∈ ([117, 85, 108, 76] : List UInt8)) ∧
    suffixLoop false false s = some (decide (117 ∈ s ∨ 85 ∈ s), decide (108 ∈ s ∨ 76 ∈ s)) := by
  decide +kernel

variable {c : Constant}

namespace Constant

theorem suffix_spec (c : Constant) : (∀ b ∈ c.suffix, b ∈ ([117, 85, 108, 76] : List UInt8)) ∧
    suffixLoop false false c.suffix = Option.some (decide c.IsUnsigned, decide c.IsLong) :=
  suffixLoop_spec c.suffix c.isSuffix

theorem lxBase_text (c : Constant) : lxBase c.text = (c.radix.base, c.text.length - (c.digits ++ c.suffix).length) ∨
    c.radix = .octal ∧ c.digits = [] ∧ c.suffix = [] := by
  cases hradix : c.radix with
  | decimal =>
    left
    have htext : c.text = c.digits ++ c.suffix := by
      rw [text, hradix, List.append_assoc]
      rfl
    rw [htext, Nat.sub_self]
    obtain ⟨hsome, hzero⟩ := c.first hradix
    cases hdigits : c.digits with
    | nil => exact absurd (congrArg List.head? hdigits) hsome
    | cons d ds =>
      have hd : d ≠ 48 := fun h => hzero (by rw [hdigits, h]; rfl)
      cases hrest : ds ++ c.suffix with
      | nil =>
        rw [List.cons_append, hrest]
        rfl
      | cons b rest =>
        rw [List.cons_append, hrest, lxBase, if_neg fun h => hd h.1, if_neg hd]
        rfl
  | octal =>
    have htext : c.text = 48 :: (c.digits ++ c.suffix) := by
      rw [text, hradix, List.append_assoc]
      rfl
    cases hrest : c.digits ++ c.suffix with
    | nil => exact .inr ⟨rfl, List.append_eq_nil_iff.mp hrest⟩
    | cons b rest =>
      left
      have hb : ¬(b = 120 ∨ b = 88) := by
        have hmem : b ∈ c.digits ++ c.suffix := hrest ▸ List.mem_cons_self
        obtain hdigit | hsuffix := List.mem_append.mp hmem
        · have hoctal := hradix ▸ c.isDigits b hdigit
          unfold Radix.IsDigit at hoctal
          simp only [Radix.base, reduceCtorEq, false_and, or_false] at hoctal
          rintro (rfl | rfl) <;> simp at hoctal
        · have hletter := c.suffix_spec.1 b hsuffix
          rintro (rfl | rfl) <;> simp at hletter
      rw [htext, hrest, lxBase, if_neg fun h => hb h.2, if_pos rfl, List.length_cons (a := 48), Nat.add_sub_cancel_left]
      rfl
  | hexadecimal =>
    left
    have htext : c.text = 48 :: c.x :: (c.digits ++ c.suffix) := by
      rw [text, hradix, List.append_assoc]
      rfl
    rw [htext, lxBase, if_pos ⟨rfl, c.isX⟩, List.length_cons, List.length_cons]
    exact congrArg (Prod.mk 16) (by omega)

theorem lxIntval_text (c : Constant) (hv : c.value < 2 ^ 64) : lxIntval c.text = Option.some (BitVec.ofNat 64 c.value,
    lxIty c.radix.base (BitVec.ofNat 64 c.value) (decide (922337203685477580 * c.radix.base ≤ c.value ∨ 2 ^ 63 ≤ c.value))
      (decide c.IsUnsigned) (decide c.IsLong)) := by
  obtain hbase | ⟨hradix, hdigits, hsuffix⟩ := c.lxBase_text
  · have hloop := digitsLoop_spec c.isDigits c.suffix_spec.1 0 false hv
    have hdrop : c.text.drop (c.text.length - (c.digits ++ c.suffix).length) = c.digits ++ c.suffix := by
      have htext : ∃ before, c.text = before ++ (c.digits ++ c.suffix) := ⟨_, List.append_assoc _ _ _⟩
      obtain ⟨before, htext⟩ := htext
      rw [htext, List.length_append, Nat.add_sub_cancel, List.drop_left]
    have hbig : (if (BitVec.ofNat 64 c.value).slt 0 then true else (false || decide (c.digits ≠ [] ∧
        922337203685477580 ≤ c.value / c.radix.base))) =
        decide (922337203685477580 * c.radix.base ≤ c.value ∨ 2 ^ 63 ≤ c.value) := by
      have hpos : 0 < c.radix.base := by cases c.radix <;> decide
      have hsome (h : 2 ^ 63 ≤ c.value ∨ 922337203685477580 ≤ c.value / c.radix.base) : c.digits ≠ [] := by
        intro hnil
        have hzero : c.value = 0 := by rw [value, hnil, List.foldl_nil]
        rw [hzero, Nat.zero_div] at h
        omega
      have hshort : 922337203685477580 * c.radix.base ≤ c.value ↔ 922337203685477580 ≤ c.value / c.radix.base :=
        (Nat.le_div_iff_mul_le hpos).symm
      rw [ofNat_slt_zero hv, Bool.false_or]
      split
      next h => exact (decide_eq_true (.inr (of_decide_eq_true h))).symm
      next h =>
        refine decide_eq_decide.mpr ⟨fun h => .inl (hshort.mpr h.2), fun h' => ?_⟩
        have hdigit := hshort.mp (h'.resolve_right fun hlong => h (decide_eq_true hlong))
        exact ⟨hsome (.inr hdigit), hdigit⟩
    rw [lxIntval, hbase]
    simp only [hdrop]
    rw [show (0 : BitVec 64) = BitVec.ofNat 64 0 from rfl, hloop]
    simp only [c.suffix_spec.2, Option.bind_eq_bind, Option.bind_some]
    exact congrArg (fun big => Option.some (BitVec.ofNat 64 c.value, lxIty c.radix.base _ big _ _)) hbig
  · have htext : c.text = [48] := by
      rw [text, hradix, hdigits, hsuffix]
      rfl
    have hvalue : c.value = 0 := by
      rw [value, hdigits]
      rfl
    have hunsigned : ¬c.IsUnsigned := by simp [IsUnsigned, hsuffix]
    have hlong : ¬c.IsLong := by simp [IsLong, hsuffix]
    rw [htext, hvalue, decide_eq_false hunsigned, decide_eq_false hlong, hradix]
    rfl

theorem lxIty_ofNat (base : Nat) {v : Nat} (hv : v < 2 ^ 64) (u l : Bool) (p : Prop) [Decidable p] (hp : 2 ^ 63 ≤ v → p) :
    lxIty base (BitVec.ofNat 64 v) (decide p) u l =
      if p then .ulong
      else if l ∨ 4294967295 < v then if u then .ulong else .long
      else if 2147483647 < v then if u ∨ base ≠ 10 then .uint else .long
      else if u then .uint
      else .int := by
  unfold lxIty
  rw [slt_ofNat (by decide) hv, slt_ofNat (by decide) hv]
  by_cases h : p
  · rw [if_pos (decide_eq_true h), if_pos h]
  · have hsmall : v < 2 ^ 63 := Nat.lt_of_not_le fun hle => h (hp hle)
    simp only [hsmall, and_true, decide_eq_true_eq]

def Agrees (c : Constant) : Prop :=
  ∃ t, lxIntval c.text = Option.some (BitVec.ofNat 64 c.value, t) ∧ ∀ t', c.type = Option.some t' → t = t'

theorem type_eq (c : Constant) : c.type =
    if ¬c.IsLong ∧ ¬c.IsUnsigned ∧ c.value ≤ 2147483647 then Option.some .int
    else if ¬c.IsLong ∧ (c.IsUnsigned ∨ c.radix ≠ .decimal) ∧ c.value ≤ 4294967295 then Option.some .uint
    else if ¬c.IsUnsigned ∧ c.value < 2 ^ 63 then Option.some .long
    else if (c.IsUnsigned ∨ c.radix ≠ .decimal) ∧ c.value < 2 ^ 64 then Option.some .ulong
    else none := by
  have hint : Ty.int.Holds c.value ↔ c.value ≤ 2147483647 := by
    simp only [Ty.Holds, Ty.least, Ty.greatest, Ty.unsigned, Ty.bits, reduceCtorEq, if_false, Bool.false_eq_true]
    omega
  have huint : Ty.uint.Holds c.value ↔ c.value ≤ 4294967295 := by
    simp only [Ty.Holds, Ty.least, Ty.greatest, Ty.unsigned, Ty.bits, reduceCtorEq, if_false, if_true]
    omega
  have hlong : Ty.long.Holds c.value ↔ c.value < 2 ^ 63 := by
    simp only [Ty.Holds, Ty.least, Ty.greatest, Ty.unsigned, Ty.bits, reduceCtorEq, if_false, Bool.false_eq_true]
    omega
  have hulong : Ty.ulong.Holds c.value ↔ c.value < 2 ^ 64 := by
    simp only [Ty.Holds, Ty.least, Ty.greatest, Ty.unsigned, Ty.bits, reduceCtorEq, if_false, if_true]
    omega
  have hfind (q : Ty → Bool) : [Ty.int, .uint, .long, .ulong].find? q =
      if q .int then Option.some .int else if q .uint then Option.some .uint else if q .long then Option.some .long
      else if q .ulong then Option.some .ulong else none := by
    simp only [List.find?]
    cases q .int <;> cases q .uint <;> cases q .long <;> cases q .ulong <;> rfl
  rw [type, types, List.find?_filter, hfind]
  refine if_congr ?_ rfl (if_congr ?_ rfl (if_congr ?_ rfl (if_congr ?_ rfl rfl)))
  · simp [hint, Ty.unsigned, Ty.rank, Ty.kind, and_assoc]
  · simp [huint, Ty.unsigned, Ty.rank, Ty.kind, and_assoc]
  · simp [hlong, Ty.unsigned, Ty.rank, Ty.kind]
  · simp [hulong, Ty.unsigned, Ty.rank, Ty.kind]

/-- `lx_intval` agrees with C but for the constants without a `u` that fit in `long` and are so large
that it takes them for larger ones a digit ahead. -/
theorem lxIntval_agrees_iff (c : Constant) (hv : c.value < 2 ^ 64) :
    c.Agrees ↔ ¬(¬c.IsUnsigned ∧ 922337203685477580 * c.radix.base ≤ c.value ∧ c.value < 2 ^ 63) := by
  have hrun := c.lxIntval_text hv
  have hty := lxIty_ofNat c.radix.base hv (decide c.IsUnsigned) (decide c.IsLong)
    (922337203685477580 * c.radix.base ≤ c.value ∨ 2 ^ 63 ≤ c.value) .inr
  generalize lxIty _ _ _ _ _ = ty at hrun hty
  have hagrees : c.Agrees ↔ ∀ t', c.type = Option.some t' → ty = t' := by
    constructor
    · rintro ⟨t, ht, htype⟩
      cases hrun.symm.trans ht
      exact htype
    · exact fun htype => ⟨ty, hrun, htype⟩
  have hbase : c.radix.base ≠ 10 ↔ c.radix ≠ .decimal := by cases c.radix <;> decide
  have hsize : 8 ≤ c.radix.base ∧ c.radix.base ≤ 16 := by cases c.radix <;> decide
  simp only [hbase, decide_eq_true_eq] at hty
  rw [hagrees, type_eq, hty]
  by_cases hbig : 922337203685477580 * c.radix.base ≤ c.value ∨ 2 ^ 63 ≤ c.value
  · rw [if_pos hbig, if_neg (by omega), if_neg (by omega)]
    by_cases hfits : ¬c.IsUnsigned ∧ c.value < 2 ^ 63
    · rw [if_pos hfits]
      refine iff_of_false (fun h => ?_) fun h => h ⟨hfits.1, hbig.resolve_right (by omega), hfits.2⟩
      cases h .long rfl
    · rw [if_neg hfits]
      refine iff_of_true (fun t' ht' => ?_) fun h => hfits ⟨h.1, h.2.2⟩
      split_ifs at ht'
      exact Option.some.inj ht'
  · rw [if_neg hbig]
    refine iff_of_true (fun t' ht' => ?_) fun h => hbig (.inl h.2.1)
    have hsmall : c.value < 2 ^ 63 := by omega
    by_cases hl : c.IsLong <;> by_cases hu : c.IsUnsigned <;>
      simp only [hl, hu, true_or, false_or, not_true_eq_false, not_false_eq_true, false_and, true_and, if_true,
        if_false, hsmall] at ht' ⊢
    all_goals grind

/-- `0x7fffffffffffffff` -/
def hexLongMax : Constant where
  radix := .hexadecimal
  x := 120
  digits := 55 :: List.replicate 15 102
  suffix := []
  isX := .inl rfl
  isDigits := by decide +kernel
  first := by decide
  some := fun _ => List.cons_ne_nil _ _
  isSuffix := List.mem_cons_self

theorem hexLongMax_agrees : hexLongMax.Agrees := (lxIntval_agrees_iff hexLongMax (by decide)).mpr (by decide)

/-- `9223372036854775807L` -/
def longMax : Constant where
  radix := .decimal
  x := 120
  digits := [57, 50, 50, 51, 51, 55, 50, 48, 51, 54, 56, 53, 52, 55, 55, 53, 56, 48, 55]
  suffix := [76]
  isX := .inl rfl
  isDigits := by decide +kernel
  first := by decide
  some := by decide
  isSuffix := by decide +kernel

theorem longMax_disagrees : longMax.value < 2 ^ 64 ∧ ¬longMax.Agrees := by
  have htype : longMax.type = Option.some .long := by decide
  have hrun : lxIntval longMax.text = Option.some (BitVec.ofNat 64 longMax.value, .ulong) := by decide
  constructor
  · decide
  · rintro ⟨t, ht, h⟩
    cases hrun.symm.trans ht
    exact absurd (h .long htype) (by decide)

end Constant

end

end Ussr.Usa.Lex
