import Ussr.Uno.Text

/-! A written text has no byte 0, so that it can be kept as a string. -/

namespace Ussr.Uno
open Codec Decimal Real64

variable {bs as : List UInt8}

abbrev NoNul (bs : List UInt8) : Prop := 0 ∉ bs

theorem noNul_append : NoNul (as ++ bs) ↔ NoNul as ∧ NoNul bs := by
  simp [NoNul, not_or]

theorem noNul_cons {b : UInt8} : NoNul (b :: bs) ↔ b ≠ 0 ∧ NoNul bs := by
  simp [NoNul, not_or, eq_comm]

theorem noNul_bytes (s : CString) : NoNul s.bytes := fun h => s.noNul 0 h rfl

theorem noNul_ascii (s : String) : NoNul (ascii s) := noNul_bytes (CString.lit s)

theorem noNul_of_subset (h : NoNul bs) (hsub : ∀ b ∈ as, b ∈ bs) : NoNul as :=
  fun hin => h (hsub 0 hin)

theorem noNul_decimal (n : Nat) : NoNul (decimal n) := by
  intro h
  have hdigit := decimal_digits n 0 h
  exact absurd hdigit (by decide)

theorem noNul_formatInt (n : BitVec 64) : NoNul (formatInt n) := by
  unfold formatInt
  split_ifs
  · exact noNul_cons.mpr ⟨by decide, noNul_decimal _⟩
  · exact noNul_decimal _

theorem noNul_stripZeros {digits : List UInt8} (h : NoNul digits) : NoNul (stripZeros digits) := by
  refine noNul_of_subset h fun b hb => ?_
  rw [stripZeros, List.mem_reverse] at hb
  exact List.mem_reverse.mp ((List.dropWhile_sublist _).subset hb)

theorem noNul_withPoint {whole decimals : List UInt8} (hw : NoNul whole) (hd : NoNul decimals) :
    NoNul (withPoint whole decimals) := by
  unfold withPoint
  split_ifs
  · exact hw
  · exact noNul_append.mpr ⟨noNul_append.mpr ⟨hw, noNul_ascii _⟩, hd⟩

theorem noNul_ite {c : Prop} [Decidable c] (ha : NoNul as) (hb : NoNul bs) :
    NoNul (if c then as else bs) := by
  split_ifs
  · exact ha
  · exact hb

theorem NoNul.append (ha : NoNul as) (hb : NoNul bs) : NoNul (as ++ bs) :=
  noNul_append.mpr ⟨ha, hb⟩

theorem noNul_nil : NoNul [] := List.not_mem_nil

theorem noNul_formatRatio (num den : Nat) : NoNul (formatRatio num den) := by
  have htake : ∀ q n, NoNul ((decimal q).take n) := fun q n =>
    noNul_of_subset (noNul_decimal q) fun _ hb => List.mem_of_mem_take hb
  have hdrop : ∀ q n, NoNul (stripZeros ((decimal q).drop n)) := fun q n =>
    noNul_stripZeros (noNul_of_subset (noNul_decimal q) fun _ hb => List.mem_of_mem_drop hb)
  have hzeros : ∀ n, NoNul (List.replicate n (48 : UInt8)) := fun n hin =>
    absurd (List.eq_of_mem_replicate hin) (by decide)
  unfold formatRatio
  refine noNul_ite (((NoNul.append ?_ ?_).append ?_).append (noNul_decimal _)) (noNul_ite ?_ ?_)
  · exact noNul_withPoint (htake _ _) (hdrop _ _)
  · exact noNul_ascii _
  · exact noNul_ite (noNul_ascii _) noNul_nil
  · exact noNul_withPoint (noNul_ascii _) (noNul_stripZeros ((hzeros _).append (noNul_decimal _)))
  · exact noNul_withPoint (htake _ _) (hdrop _ _)

theorem noNul_formatG (x : BitVec 64) : NoNul (formatG x) := by
  have hsign : NoNul (if x.msb then ascii "-" else []) := noNul_ite (noNul_ascii _) noNul_nil
  unfold formatG
  exact noNul_ite (hsign.append (noNul_ascii _))
    (hsign.append (noNul_ite (noNul_ascii _) (noNul_formatRatio _ _)))

theorem noNul_unoEncodeReal (bits : BitVec 64) : NoNul (unoEncodeReal bits) :=
  noNul_ite ((noNul_formatG bits).append (noNul_ascii _)) (noNul_formatG bits)

theorem noNul_comma (first : Bool) : NoNul (comma first) := by
  cases first <;> decide

mutual

theorem noNul_unoEncodeValue (value : UnoValue) {text : List UInt8}
    (h : unoEncodeValue value = some text) : NoNul text := by
  match value, h with
  | .null, h => cases h; exact noNul_ascii _
  | .boolean b, h => cases h; exact noNul_ascii _
  | .integer n, h => cases h; exact noNul_formatInt n
  | .real bits, h => cases h; exact noNul_unoEncodeReal bits
  | .string s, h =>
    rw [unoEncodeValue] at h
    split_ifs at h
    cases h
    exact noNul_cons.mpr ⟨by decide, (noNul_bytes s).append (by decide)⟩
  | .vector items, h =>
    obtain ⟨inner, hinner, htext⟩ := Option.bind_eq_some_iff.mp h
    cases htext
    exact noNul_cons.mpr ⟨by decide, (noNul_unoEncodeItems items hinner).append (by decide)⟩
  | .struct type fields, h =>
    obtain ⟨inner, hinner, htext⟩ := Option.bind_eq_some_iff.mp h
    cases htext
    exact (noNul_bytes type.name).append
      (noNul_cons.mpr ⟨by decide, (noNul_unoEncodeFields _ fields hinner).append (by decide)⟩)
  | .btree pairs, h =>
    obtain ⟨inner, hinner, htext⟩ := Option.bind_eq_some_iff.mp h
    cases htext
    exact noNul_cons.mpr ⟨by decide, (noNul_unoEncodePairs pairs hinner).append (by decide)⟩

theorem noNul_unoEncodeItems (items : List UnoValue) {first : Bool} {text : List UInt8}
    (h : unoEncodeItems first items = some text) : NoNul text := by
  match items, h with
  | [], h => cases h; exact noNul_nil
  | item :: items, h =>
    rw [unoEncodeItems] at h
    obtain ⟨head, hhead, h⟩ := Option.bind_eq_some_iff.mp h
    obtain ⟨rest, hrest, h⟩ := Option.bind_eq_some_iff.mp h
    cases h
    exact (noNul_comma first).append
      ((noNul_unoEncodeValue item hhead).append (noNul_unoEncodeItems items hrest))

theorem noNul_unoEncodeFields (defs : List FieldDef) (values : List UnoValue) {first : Bool}
    {text : List UInt8} (h : unoEncodeFields first defs values = some text) : NoNul text := by
  match defs, values, h with
  | [], [], h => cases h; exact noNul_nil
  | [], _ :: _, h => cases h
  | _ :: _, [], h => cases h
  | field :: defs, value :: values, h =>
    rw [unoEncodeFields] at h
    obtain ⟨head, hhead, h⟩ := Option.bind_eq_some_iff.mp h
    obtain ⟨rest, hrest, h⟩ := Option.bind_eq_some_iff.mp h
    cases h
    exact (noNul_comma first).append ((noNul_bytes field.name).append (noNul_cons.mpr ⟨by decide,
      (noNul_unoEncodeValue value hhead).append (noNul_unoEncodeFields defs values hrest)⟩))

theorem noNul_unoEncodePairs (pairs : List (UnoValue × UnoValue)) {first : Bool}
    {text : List UInt8} (h : unoEncodePairs first pairs = some text) : NoNul text := by
  match pairs, h with
  | [], h => cases h; exact noNul_nil
  | (key, value) :: pairs, h =>
    rw [unoEncodePairs] at h
    obtain ⟨keyText, hkey, h⟩ := Option.bind_eq_some_iff.mp h
    obtain ⟨valueText, hvalue, h⟩ := Option.bind_eq_some_iff.mp h
    obtain ⟨rest, hrest, h⟩ := Option.bind_eq_some_iff.mp h
    cases h
    exact (noNul_comma first).append (noNul_cons.mpr ⟨by decide,
      (noNul_unoEncodeValue key hkey).append (noNul_cons.mpr ⟨by decide,
        (noNul_unoEncodeValue value hvalue).append
          (noNul_cons.mpr ⟨by decide, noNul_unoEncodePairs pairs hrest⟩)⟩)⟩)

end

end Ussr.Uno
