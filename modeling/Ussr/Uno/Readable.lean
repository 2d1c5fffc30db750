import Ussr.Uno.Text

/-! Fields by position and by name. A name is looked up from the oldest ancestor
down, so only the first field of a name can be given a value by name. -/

namespace Ussr.Uno

theorem totalFieldCount_eq (chain : List StructDecl) :
    totalFieldCount chain = (unoCollectFieldDefs chain).length := by
  induction chain with
  | nil => rfl
  | cons decl parents ih =>
    rw [totalFieldCount, unoCollectFieldDefs, List.length_append, ih, Nat.add_comm]

theorem unoFieldLocate_eq (chain : List StructDecl) (name : CString) :
    unoFieldLocate chain name =
      ((unoCollectFieldDefs chain).findIdx? fun field => field.name = name).bind fun i =>
        (unoCollectFieldDefs chain)[i]?.map fun field => (i, field.typeName) := by
  induction chain with
  | nil => rfl
  | cons decl parents ih =>
    rw [unoFieldLocate, unoCollectFieldDefs, ih, List.findIdx?_append, totalFieldCount_eq]
    cases hfound : (unoCollectFieldDefs parents).findIdx? fun field => field.name = name with
    | some i =>
      have hlt := (List.findIdx?_eq_some_iff_getElem.mp hfound).1
      simp [List.getElem?_append_left hlt, List.getElem?_eq_getElem hlt]
    | none =>
      cases hown : decl.fields.findIdx? fun field => field.name = name with
      | none => simp
      | some i => simp [Nat.add_comm i, List.getElem?_append_right]

variable {chain : List StructDecl}
variable {name : CString} {fields : List (CString × UnoValue)}

theorem unoFieldLocate_some {fieldType : CString} {i : Nat}
    (h : unoFieldLocate chain name = some (i, fieldType)) :
    ∃ field, (unoCollectFieldDefs chain)[i]? = some field ∧ field.name = name ∧
      field.typeName = fieldType ∧
      ∀ j < i, ∀ other, (unoCollectFieldDefs chain)[j]? = some other → other.name ≠ name := by
  rw [unoFieldLocate_eq] at h
  obtain ⟨k, hk, hfield⟩ := Option.bind_eq_some_iff.mp h
  obtain ⟨field, hget, hpair⟩ := Option.map_eq_some_iff.mp hfield
  cases hpair
  obtain ⟨hlt, hname, hfirst⟩ := List.findIdx?_eq_some_iff_getElem.mp hk
  rw [List.getElem?_eq_getElem hlt, Option.some_inj] at hget
  refine ⟨field, by rw [List.getElem?_eq_getElem hlt, hget], ?_, rfl, ?_⟩
  · exact hget ▸ of_decide_eq_true hname
  · intro j hj other hother
    obtain ⟨hjlt, rfl⟩ := List.getElem?_eq_some_iff.mp hother
    simpa using hfirst j hj

theorem unoFieldLocate_of_nodup (hnodup : ((unoCollectFieldDefs chain).map FieldDef.name).Nodup)
    {done rest : List FieldDef} {field : FieldDef}
    (h : unoCollectFieldDefs chain = done ++ field :: rest) :
    unoFieldLocate chain field.name = some (done.length, field.typeName) := by
  rw [h, List.map_append, List.map_cons] at hnodup
  have hnone : done.findIdx? (fun other => other.name = field.name) = none := by
    refine List.findIdx?_eq_none_iff.mpr fun other hother => ?_
    have hne : other.name ≠ field.name := fun heq =>
      List.disjoint_of_nodup_append hnodup (List.mem_map_of_mem hother) (by simp [heq])
    simpa using hne
  rw [unoFieldLocate_eq, h, List.findIdx?_append, hnone]
  simp [List.findIdx?_cons]

section

variable {type : StructType}

theorem satisfyFields_length
    {slots slots' : List (Option UnoValue)} (h : satisfyFields type fields slots = .ok slots') :
    slots'.length = slots.length := by
  induction fields generalizing slots with
  | nil =>
    cases h
    rfl
  | cons field fields ih =>
    unfold satisfyFields at h
    split at h
    · cases h
    · split at h
      · rw [ih h, List.length_set]
      · cases h

theorem satisfyFields_some
    {slots slots' : List (Option UnoValue)} (h : satisfyFields type fields slots = .ok slots')
    {i : Nat} {value : UnoValue} (hi : slots'[i]? = some (some value)) :
    slots[i]? = some (some value) ∨ ∃ name fieldType, (name, value) ∈ fields ∧
      unoFieldLocate type.chain name = some (i, fieldType) := by
  induction fields generalizing slots with
  | nil =>
    cases h
    exact Or.inl hi
  | cons field fields ih =>
    obtain ⟨name, first⟩ := field
    unfold satisfyFields at h
    split at h
    · cases h
    · rename_i index fieldType hlocate
      split at h
      · rcases ih h with hset | ⟨later, laterType, hmem, hlater⟩
        · rw [List.getElem?_set] at hset
          split_ifs at hset with heq hlt
          · cases hset
            exact Or.inr ⟨name, fieldType, List.mem_cons_self, heq ▸ hlocate⟩
          · exact Or.inl hset
        · exact Or.inr ⟨later, laterType, List.mem_cons_of_mem _ hmem, hlater⟩
      · cases h

theorem satisfyFields_zip
    (hnodup : ((unoCollectFieldDefs type.chain).map FieldDef.name).Nodup)
    {done rest : List FieldDef} (hdefs : unoCollectFieldDefs type.chain = done ++ rest)
    {before after : List UnoValue} (hbefore : before.length = done.length)
    (hmatches : List.Forall₂ (fun field value => unoTypeMatches field.typeName value) rest after) :
    satisfyFields type ((rest.map FieldDef.name).zip after)
        (before.map some ++ List.replicate rest.length none) =
      .ok ((before ++ after).map some) := by
  induction hmatches generalizing done before with
  | nil => simp [satisfyFields]
  | @cons field value rest after hfield hrest ih =>
    have hlocate := unoFieldLocate_of_nodup hnodup hdefs
    rw [List.map_cons, List.zip_cons_cons, satisfyFields, hlocate]
    dsimp only
    rw [if_pos hfield]
    have hslot : (before.map some ++ List.replicate (field :: rest).length none).set done.length
        (some value) = (before ++ [value]).map some ++ List.replicate rest.length none := by
      rw [← hbefore, List.set_append_right _ _ (by simp), List.map_append]
      simp [List.replicate_succ]
    have hlater : unoCollectFieldDefs type.chain = (done ++ [field]) ++ rest := by simpa using hdefs
    rw [hslot, ih hlater (by simp [hbefore])]
    simp

end

end Ussr.Uno

/-! What the reader can return. The structs among it have types whose names the
notation can write and whose fields can all be given by name. -/

namespace Ussr.Uno
open Codec

def isIdentifier (name : CString) : Bool :=
  match name.bytes with
  | [] => false
  | b :: bs => isIdentStart b && bs.all isIdentPart

structure StructType.Readable (type : StructType) : Prop where
  name : isIdentifier type.name = true
  notReserved : reserved type.name = none
  count : (unoCollectFieldDefs type.chain).length ≤ unoMaxFields
  fieldNames : ∀ field ∈ unoCollectFieldDefs type.chain, isIdentifier field.name = true
  distinct : ((unoCollectFieldDefs type.chain).map FieldDef.name).Nodup

mutual

def Readable : UnoValue → Prop
  | .vector items => ReadableAll items
  | .struct type fields => type.Readable ∧ ReadableAll fields
  | .btree _ => False
  | _ => True

def ReadableAll : List UnoValue → Prop
  | [] => True
  | value :: values => Readable value ∧ ReadableAll values

end

theorem readableAll_iff {values : List UnoValue} :
    ReadableAll values ↔ ∀ value ∈ values, Readable value := by
  induction values with
  | nil => simp [ReadableAll]
  | cons value values ih => simp [ReadableAll, ih]

theorem structType_name {parent : Option StructType} {specs : List CString}
    {type : StructType} (h : structType name parent specs = .ok type) : type.name = name := by
  unfold structType at h
  cases hfields : specs.mapM unoParseFieldSpec with
  | error message =>
    rw [hfields] at h
    cases h
  | ok fields =>
    rw [hfields] at h
    cases h
    rfl

theorem ussrStructTypeFind_name {registry : Registry} {type : StructType}
    (h : ussrStructTypeFind registry name = some type) : type.name = name := by
  unfold ussrStructTypeFind at h
  rcases Option.or_eq_some_iff.mp h with hfound | ⟨-, hbuiltin⟩
  · simpa using List.find?_some hfound
  · obtain ⟨specs, -, hspecs⟩ := Option.bind_eq_some_iff.mp hbuiltin
    cases htype : structType name none specs with
    | error message =>
      rw [htype] at hspecs
      cases hspecs
    | ok found =>
      rw [htype] at hspecs
      cases hspecs
      exact structType_name htype

theorem mapM_id_eq_some {α : Type} {slots : List (Option α)} {values : List α} :
    slots.mapM id = some values ↔ slots = values.map some := by
  induction slots generalizing values with
  | nil => cases values <;> simp
  | cons slot slots ih =>
    rw [List.mapM_cons]
    cases slot with
    | none => cases values <;> simp
    | some value =>
      cases values with
      | nil => simp [Option.bind_eq_some_iff]
      | cons first values =>
        rw [List.map_cons, List.cons.injEq, ← ih]
        simp [Option.bind_eq_some_iff, and_comm]

theorem StructType.readable_of_satisfied {type : StructType}
    {values : List UnoValue}
    (h : satisfyFields type fields (List.replicate (totalFieldCount type.chain) none) =
      .ok (values.map some))
    (hname : isIdentifier type.name = true) (hreserved : reserved type.name = none)
    (hcount : fields.length ≤ unoMaxFields)
    (hfields : ∀ field ∈ fields, isIdentifier field.1 = true) :
    type.Readable ∧ ∀ value ∈ values, value ∈ fields.map Prod.snd := by
  have hlength : values.length = (unoCollectFieldDefs type.chain).length := by
    have := satisfyFields_length h
    rwa [List.length_map, List.length_replicate, totalFieldCount_eq] at this
  have hplaced : ∀ i value, values[i]? = some value → ∃ name fieldType, (name, value) ∈ fields ∧
      unoFieldLocate type.chain name = some (i, fieldType) := by
    intro i value hi
    have hslot : (values.map some)[i]? = some (some value) := by simp [hi]
    rcases satisfyFields_some h hslot with hempty | hfield
    · have hin := List.mem_of_getElem? hempty
      cases (List.mem_replicate.mp hin).2
    · exact hfield
  have hlocated : ∀ (i : Nat) (field : FieldDef), (unoCollectFieldDefs type.chain)[i]? = some field →
      field.name ∈ fields.map Prod.fst ∧ ∀ j < i, ∀ other,
        (unoCollectFieldDefs type.chain)[j]? = some other → other.name ≠ field.name := by
    intro i field hi
    obtain ⟨hlt, -⟩ := List.getElem?_eq_some_iff.mp hi
    obtain ⟨name, fieldType, hmem, hlocate⟩ :=
      hplaced i values[i] (List.getElem?_eq_getElem (hlength ▸ hlt))
    obtain ⟨found, hfound, rfl, -, hfirst⟩ := unoFieldLocate_some hlocate
    rw [hi] at hfound
    cases hfound
    exact ⟨List.mem_map_of_mem hmem, hfirst⟩
  have hdistinct : ((unoCollectFieldDefs type.chain).map FieldDef.name).Nodup := by
    refine List.pairwise_map.mpr (List.pairwise_iff_getElem.mpr fun i j hi hj hij => ?_)
    exact (hlocated j _ (List.getElem?_eq_getElem hj)).2 i hij _ (List.getElem?_eq_getElem hi)
  have hsubset : (unoCollectFieldDefs type.chain).map FieldDef.name ⊆ fields.map Prod.fst := by
    intro name hin
    obtain ⟨field, hfield, rfl⟩ := List.mem_map.mp hin
    obtain ⟨i, hi⟩ := List.mem_iff_getElem?.mp hfield
    exact (hlocated i field hi).1
  refine ⟨⟨hname, hreserved, ?_, ?_, hdistinct⟩, ?_⟩
  · have hle := (List.subperm_of_subset hdistinct hsubset).length_le
    rw [List.length_map, List.length_map] at hle
    exact hle.trans hcount
  · intro field hfield
    obtain ⟨⟨name, value⟩, hmem, hsame⟩ :=
      List.mem_map.mp (hsubset (List.mem_map_of_mem hfield))
    exact hsame ▸ hfields _ hmem
  · intro value hvalue
    obtain ⟨i, hi⟩ := List.mem_iff_getElem?.mp hvalue
    obtain ⟨name, -, hmem, -⟩ := hplaced i value hi
    exact List.mem_map.mpr ⟨_, hmem, rfl⟩

theorem ussrStructInstantiateNamed_readable {registry : Registry} {value : UnoValue}
    (h : ussrStructInstantiateNamed registry name fields = .ok value)
    (hname : isIdentifier name = true) (hreserved : reserved name = none)
    (hcount : fields.length ≤ unoMaxFields)
    (hfields : ∀ field ∈ fields, isIdentifier field.1 = true ∧ Readable field.2) :
    Readable value := by
  unfold ussrStructInstantiateNamed at h
  split at h
  · cases h
  · rename_i type htype
    obtain rfl := ussrStructTypeFind_name htype
    cases hslots : satisfyFields type fields (List.replicate (totalFieldCount type.chain) none) with
    | error message =>
      rw [hslots] at h
      cases h
    | ok slots =>
      rw [hslots] at h
      dsimp only [bind, Except.bind] at h
      split at h
      · cases h
      · rename_i values hvalues
        cases h
        rw [mapM_id_eq_some.mp hvalues] at hslots
        obtain ⟨hreadable, hfrom⟩ := StructType.readable_of_satisfied hslots hname hreserved hcount
          fun field hfield => (hfields field hfield).1
        refine ⟨hreadable, readableAll_iff.mpr fun value hvalue => ?_⟩
        obtain ⟨field, hfield, rfl⟩ := List.mem_map.mp (hfrom value hvalue)
        exact (hfields field hfield).2

end Ussr.Uno
