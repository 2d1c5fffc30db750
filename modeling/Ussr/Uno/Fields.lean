import Ussr.Uno.RoundTrip

/-! The fields of an instance as a program assigns and reads them. -/

namespace Ussr.Uno

variable {registry : Registry} {type : StructType} {fields args : List UnoValue} {change : CString × UnoValue} {typeName : CString}

def ussrStructGetField (type : StructType) (fields : List UnoValue) (name : CString) : Option UnoValue :=
  (unoFieldLocate type.chain name).bind fun found => fields[found.1]?

/-- What a call of `ussr_struct_set_field` leaves: one that is refused changes nothing. -/
def assignField (type : StructType) (fields : List UnoValue) (change : CString × UnoValue) : List UnoValue :=
  (ussrStructSetField type fields change.1 change.2).toOption.getD fields

def accepts (type : StructType) (change : CString × UnoValue) : Bool :=
  (unoFieldLocate type.chain change.1).any fun found => unoTypeMatches found.2 change.2

def Typed (type : StructType) (fields : List UnoValue) : Prop :=
  List.Forall₂ (fun field value => unoTypeMatches field.typeName value = true) (unoCollectFieldDefs type.chain) fields

theorem typed_set (h : Typed type fields) {i : Nat} {field : FieldDef} {value : UnoValue}
    (hfield : (unoCollectFieldDefs type.chain)[i]? = some field) (hmatches : unoTypeMatches field.typeName value = true) :
    Typed type (fields.set i value) := by
  unfold Typed at *
  generalize unoCollectFieldDefs type.chain = defs at h hfield ⊢
  induction h generalizing i with
  | nil => exact .nil
  | cons hhead htail ih =>
    cases i with
    | zero => exact .cons (Option.some.inj hfield ▸ hmatches) htail
    | succ i => exact .cons hhead (ih hfield)

theorem assignField_cases (type : StructType) (fields : List UnoValue) (change : CString × UnoValue) :
    (∃ i field, unoFieldLocate type.chain change.1 = some (i, field.typeName) ∧ (unoCollectFieldDefs type.chain)[i]? = some field ∧
      field.name = change.1 ∧ unoTypeMatches field.typeName change.2 = true ∧ accepts type change = true ∧
        assignField type fields change = fields.set i change.2) ∨
      accepts type change = false ∧ assignField type fields change = fields := by
  unfold assignField ussrStructSetField accepts
  cases hlocate : unoFieldLocate type.chain change.1 with
  | none => exact .inr ⟨rfl, rfl⟩
  | some found =>
    obtain ⟨field, hfield, hname, htype, -⟩ := unoFieldLocate_some hlocate
    cases hmatches : unoTypeMatches found.2 change.2 with
    | false => exact .inr ⟨hmatches, by simp [hmatches, Except.toOption]⟩
    | true => exact .inl ⟨found.1, field, by rw [htype], hfield, hname, by rw [htype, hmatches], hmatches, by simp [hmatches, Except.toOption]⟩

theorem typed_assignField (h : Typed type fields) : Typed type (assignField type fields change) := by
  obtain ⟨i, field, -, hfield, -, hmatches, -, hset⟩ | ⟨-, hsame⟩ := assignField_cases type fields change
  · exact hset ▸ typed_set h hfield hmatches
  · exact hsame.symm ▸ h

theorem ussrStructGetField_assignField (h : Typed type fields) (name : CString) :
    ussrStructGetField type (assignField type fields change) name =
      if change.1 = name ∧ accepts type change = true then some change.2 else ussrStructGetField type fields name := by
  obtain ⟨i, field, hlocate, hfield, hfieldName, -, haccepts, hset⟩ | ⟨hrefused, hsame⟩ := assignField_cases type fields change
  · rw [hset]
    unfold ussrStructGetField
    split_ifs with hname
    · have hi : i < fields.length := h.length_eq ▸ (List.getElem?_eq_some_iff.mp hfield).1
      rw [← hname.1, hlocate, Option.bind_some, List.getElem?_set_self hi]
    · cases hother : unoFieldLocate type.chain name with
      | none => rfl
      | some found =>
        -- a field has one name, so another name stands for another place
        have hne : i ≠ found.1 := by
          rintro rfl
          obtain ⟨other, hotherField, hotherName, -⟩ := unoFieldLocate_some hother
          rw [hfield] at hotherField
          exact hname ⟨hfieldName.symm.trans (Option.some.inj hotherField ▸ hotherName), haccepts⟩
        rw [Option.bind_some, Option.bind_some, List.getElem?_set_ne hne]
  · rw [hsame, hrefused, if_neg (by simp)]

theorem ussrStructInstantiate_typed (h : ussrStructInstantiate registry typeName args = .ok (.struct type fields)) :
    Typed type fields := by
  unfold ussrStructInstantiate at h
  split at h
  · cases h
  · split_ifs at h with hcount hmatches
    cases h
    rw [totalFieldCount_eq, not_not] at hcount
    exact List.forall₂_iff_zip.mpr ⟨hcount, fun {field value} hpair => List.all_eq_true.mp hmatches _ hpair⟩

/-- Whatever is assigned to a new instance, its fields keep their types, and each has the value last accepted for it. -/
theorem fields_assigned (hnew : ussrStructInstantiate registry typeName args = .ok (.struct type fields))
    (changes : List (CString × UnoValue)) : Typed type (changes.foldl (assignField type) fields) ∧
      ∀ name, ussrStructGetField type (changes.foldl (assignField type) fields) name =
        ((changes.reverse.find? fun change => change.1 = name ∧ accepts type change = true).map Prod.snd).or
          (ussrStructGetField type fields name) := by
  have htyped := ussrStructInstantiate_typed hnew
  clear hnew
  induction changes generalizing fields with
  | nil => exact ⟨htyped, fun _ => rfl⟩
  | cons change rest ih =>
    obtain ⟨hlast, hget⟩ := ih (typed_assignField htyped)
    refine ⟨hlast, fun name => ?_⟩
    rw [List.foldl_cons, hget, ussrStructGetField_assignField htyped, List.reverse_cons, List.find?_append, Option.map_or, Option.or_assoc]
    by_cases haccepted : change.1 = name ∧ accepts type change = true
    · simp [haccepted]
    · simp [haccepted]

/-- A number is assigned, and then a boolean is refused. -/
theorem fields_assigned_point :
    let changes := [(CString.lit "x", .integer 7), (CString.lit "x", .boolean true)]
    ussrStructGetField pointType (changes.foldl (assignField pointType) [.integer 1, .vector []]) (CString.lit "x") = some (.integer 7) :=
  have hnew : ussrStructInstantiate [pointType] (CString.lit "Point") [.integer 1, .vector []] =
    .ok (.struct pointType [.integer 1, .vector []]) := rfl
  ((fields_assigned hnew _).2 _).trans rfl

end Ussr.Uno
