import Mathlib.Data.List.TakeWhile
import Ussr.Uno.Readable

/-! Properties of every run of the reader: what it returns is readable, each value takes
something off the text, and the fuel that is given suffices. -/

namespace Ussr.Uno
open Codec Decimal

theorem isIdentPart_ne_zero {b : UInt8} (h : isIdentPart b = true) : b ≠ 0 := by
  rintro rfl
  exact absurd h (by decide)

theorem ofBytes_bytes {bs : List UInt8} (h : ∀ b ∈ bs, b ≠ 0) : (CString.ofBytes bs).bytes = bs :=
  List.filter_eq_self.mpr fun b hb => by simpa using h b hb

theorem isIdentPart_of_start {b : UInt8} (h : isIdentStart b = true) : isIdentPart b = true := by
  unfold isIdentStart at h
  unfold isIdentPart
  rw [Bool.or_eq_true] at h
  rcases h with h | h
  · rw [h, Bool.true_or, Bool.true_or]
  · rw [h, Bool.or_true]

theorem unoReadIdentifier_ok {bs rest : List UInt8} {name : CString}
    (h : unoReadIdentifier bs = .ok (name, rest)) :
    isIdentifier name = true ∧ bs = name.bytes ++ rest ∧ name.bytes ≠ [] := by
  cases bs with
  | nil => cases h
  | cons b bs =>
    by_cases hb : isIdentStart b = true
    · have hread : unoReadIdentifier (b :: bs) = .ok (CString.ofBytes ((b :: bs).takeWhile isIdentPart),
          (b :: bs).dropWhile isIdentPart) := by
        show ((if (some b).any isIdentStart = true then _ else _) : Reader CString) (b :: bs) = _
        rw [if_pos (by simpa using hb)]
        rfl
      rw [hread] at h
      cases h
      have hpart := isIdentPart_of_start hb
      have hbytes : (CString.ofBytes ((b :: bs).takeWhile isIdentPart)).bytes =
          b :: bs.takeWhile isIdentPart := by
        rw [List.takeWhile_cons_of_pos hpart]
        refine ofBytes_bytes fun c hc => ?_
        rcases List.mem_cons.mp hc with rfl | hc
        · exact isIdentPart_ne_zero hpart
        · exact isIdentPart_ne_zero (List.mem_takeWhile_imp hc)
      refine ⟨?_, ?_, by rw [hbytes]; exact List.cons_ne_nil _ _⟩
      · unfold isIdentifier
        rw [hbytes]
        simp [hb]
      · rw [hbytes, List.dropWhile_cons_of_pos hpart, List.cons_append, List.takeWhile_append_dropWhile]
    · have hread : unoReadIdentifier (b :: bs) = .error "identifier expected" := by
        show ((if (some b).any isIdentStart = true then _ else _) : Reader CString) (b :: bs) = _
        rw [if_neg (by simpa using hb)]
        rfl
      rw [hread] at h
      cases h

theorem unoReadIdentifier_yields :
    Yields unoReadIdentifier fun name => isIdentifier name = true :=
  fun _ _ _ h => (unoReadIdentifier_ok h).1

theorem unoReadDigits_yields (negative : Bool) : Yields (unoReadDigits negative) Readable := by
  refine (Yields.any _).bind fun digits _ => ?_
  split_ifs
  · exact Yields.fail _
  · refine (Yields.any _).bind fun decimals _ => ?_
    cases decimals <;> exact Yields.pure trivial

theorem unoReadNumber_yields : Yields unoReadNumber Readable := by
  refine (Yields.any _).bind fun b _ => ?_
  split_ifs
  · exact (Yields.any _).bind fun _ _ => unoReadDigits_yields true
  · exact unoReadDigits_yields false

theorem unoReadString_yields : Yields unoReadString Readable := by
  refine (Yields.any _).bind fun _ _ => (Yields.any _).bind fun _ _ =>
    (Yields.any _).bind fun _ _ => ?_
  split
  · exact (Yields.any _).bind fun _ _ => Yields.pure trivial
  · exact Yields.fail _

theorem reserved_readable {ident : CString} {value : UnoValue} (h : reserved ident = some value) :
    Readable value := by
  unfold reserved at h
  split_ifs at h <;> cases h <;> trivial

theorem unoReadVector_yields {items : Reader (List UnoValue)}
    (hitems : Yields items fun items => ReadableAll items) :
    Yields (unoReadVector items) Readable := by
  refine (Yields.any _).bind fun _ _ => (Yields.any _).bind fun _ _ =>
    (Yields.any _).bind fun _ _ => ?_
  split_ifs
  · exact (Yields.any _).bind fun _ _ => Yields.pure trivial
  · exact hitems.bind fun items h => Yields.pure h

/-- Fields as an object can have them after `count` others. -/
def FieldsRead (count : Nat) (fields : List (CString × UnoValue)) : Prop :=
  count + fields.length ≤ unoMaxFields ∧
    ∀ field ∈ fields, isIdentifier field.1 = true ∧ Readable field.2

theorem unoCloseObject_yields {registry : Registry} {ident : CString}
    {fields : List (CString × UnoValue)} (hident : isIdentifier ident = true)
    (hreserved : reserved ident = none) (hfields : FieldsRead 0 fields) :
    Yields (unoCloseObject registry ident fields) Readable := by
  refine (Yields.any _).bind fun _ _ => ?_
  cases hvalue : ussrStructInstantiateNamed registry ident fields with
  | error message => exact Yields.fail _
  | ok value =>
    exact Yields.pure (ussrStructInstantiateNamed_readable hvalue hident hreserved
      (Nat.le_trans (Nat.le_add_left _ 0) hfields.1) hfields.2)

theorem unoReadWord_yields {registry : Registry} {fields : Reader (List (CString × UnoValue))}
    (hfields : Yields fields (FieldsRead 0)) : Yields (unoReadWord registry fields) Readable := by
  refine unoReadIdentifier_yields.bind fun ident hident => ?_
  cases hreserved : reserved ident with
  | some value => exact Yields.pure (reserved_readable hreserved)
  | none =>
    refine (Yields.any _).bind fun _ _ => (Yields.any _).bind fun _ _ => ?_
    split_ifs
    · refine (Yields.any _).bind fun _ _ => (Yields.any _).bind fun _ _ =>
        (Yields.any _).bind fun _ _ => ?_
      split_ifs
      · exact unoCloseObject_yields hident hreserved ⟨Nat.zero_le _, by simp⟩
      · exact hfields.bind fun fields h => unoCloseObject_yields hident hreserved h
    · exact Yields.fail _

theorem unoReadValue_yields (registry : Registry) (fuel : Nat) :
    Yields (unoReadValue registry fuel) Readable ∧
      Yields (unoReadItems registry fuel) (fun items => ReadableAll items) ∧
      ∀ count, Yields (unoReadFields registry fuel count) (FieldsRead count) := by
  induction fuel with
  | zero => exact ⟨Yields.fail _, Yields.fail _, fun _ => Yields.fail _⟩
  | succ fuel ih =>
    obtain ⟨ihvalue, ihitems, ihfields⟩ := ih
    refine ⟨?_, ?_, fun count => ?_⟩
    · refine (Yields.any _).bind fun _ _ => (Yields.any _).bind fun b _ => ?_
      cases b with
      | none => exact Yields.fail _
      | some b =>
        dsimp only
        split_ifs
        · exact unoReadVector_yields ihitems
        · exact unoReadString_yields
        · exact unoReadNumber_yields
        · exact unoReadWord_yields (ihfields 0)
        · exact Yields.fail _
    · refine (Yields.any _).bind fun _ _ => ihvalue.bind fun item hitem =>
        (Yields.any _).bind fun _ _ => (Yields.any _).bind fun _ _ => ?_
      split_ifs
      · exact (Yields.any _).bind fun _ _ => ihitems.bind fun items hitems =>
          Yields.pure ⟨hitem, hitems⟩
      · refine (Yields.any _).bind fun _ _ => ?_
        split_ifs
        · exact (Yields.any _).bind fun _ _ => Yields.pure ⟨hitem, trivial⟩
        · exact Yields.fail _
    · unfold unoReadFields
      split_ifs with hmax
      · exact Yields.fail _
      refine (Yields.any _).bind fun _ _ => unoReadIdentifier_yields.bind fun name hname =>
        (Yields.any _).bind fun _ _ => (Yields.any _).bind fun _ _ => ?_
      split_ifs
      · refine (Yields.any _).bind fun _ _ => (Yields.any _).bind fun _ _ =>
          ihvalue.bind fun value hvalue => (Yields.any _).bind fun _ _ =>
          (Yields.any _).bind fun _ _ => ?_
        split_ifs
        · refine (Yields.any _).bind fun _ _ => (ihfields (count + 1)).bind fun fields hfields =>
            Yields.pure ⟨?_, List.forall_mem_cons.mpr ⟨⟨hname, hvalue⟩, hfields.2⟩⟩
          have hcount := hfields.1
          rw [List.length_cons]
          omega
        · refine (Yields.any _).bind fun _ _ => ?_
          split_ifs
          · refine Yields.pure ⟨?_, List.forall_mem_singleton.mpr ⟨hname, hvalue⟩⟩
            rw [List.length_singleton]
            omega
          · exact Yields.fail _
      · exact Yields.fail _

end Ussr.Uno
