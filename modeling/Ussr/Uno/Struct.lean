import Ussr.Value

/-! Struct types and instances. A type is its own declaration and those of its
ancestors, nearest first; values are trees, as vectors and instances without
cycles are. -/

namespace Ussr.Uno

structure FieldDef where
  name : CString
  typeName : CString
deriving DecidableEq

structure StructDecl where
  name : CString
  fields : List FieldDef
deriving DecidableEq

structure StructType where
  decl : StructDecl
  ancestors : List StructDecl
deriving DecidableEq

def StructType.name (type : StructType) : CString :=
  type.decl.name

def StructType.chain (type : StructType) : List StructDecl :=
  type.decl :: type.ancestors

inductive UnoValue where
  | null
  | boolean (b : Bool)
  | integer (n : BitVec 64)
  | real (bits : BitVec 64)
  | string (s : CString)
  | vector (items : List UnoValue)
  | struct (type : StructType) (fields : List UnoValue)
  | btree (pairs : List (UnoValue × UnoValue))

abbrev Registry := List StructType

def splitAtColon : List UInt8 → Option (List UInt8 × List UInt8)
  | [] => none
  | b :: bs => if b = 58 then some ([], bs) else (splitAtColon bs).map fun (l, r) => (b :: l, r)

def unoParseFieldSpec (spec : CString) : Except String FieldDef :=
  match splitAtColon spec.bytes with
  | some (name, type) =>
    if name = [] ∨ type = [] then .error "malformed struct field spec (want \"name:type\")"
    else .ok ⟨CString.ofBytes name, CString.ofBytes type⟩
  | none => .error "malformed struct field spec (want \"name:type\")"

def unoBuiltinFields (name : CString) : Option (List CString) :=
  if name = CString.lit "Vec2" then some [CString.lit "x:number", CString.lit "y:number"]
  else if name = CString.lit "Vec3" then
    some [CString.lit "x:number", CString.lit "y:number", CString.lit "z:number"]
  else none

def structType (name : CString) (parent : Option StructType) (specs : List CString) :
    Except String StructType := do
  let fields ← specs.mapM unoParseFieldSpec
  return ⟨⟨name, fields⟩, (parent.map StructType.chain).getD []⟩

/-- `ussr_struct_type_find`. The built-in types are registered when they are first looked up,
so that every lookup finds them. -/
def ussrStructTypeFind (registry : Registry) (name : CString) : Option StructType :=
  (registry.find? fun type => type.name = name).or
    ((unoBuiltinFields name).bind fun specs => (structType name none specs).toOption)

def structParent (registry : Registry) (parentName : Option CString) :
    Except String (Option StructType) :=
  match parentName with
  | none => .ok none
  | some parentName =>
    if parentName = CString.lit "" then .ok none
    else
      match ussrStructTypeFind registry parentName with
      | none => .error "struct extends unknown struct (parent must be declared first)"
      | some parent => .ok (some parent)

def ussrStructRegister (registry : Registry) (name : CString) (parentName : Option CString)
    (specs : List CString) : Except String Registry :=
  if (ussrStructTypeFind registry name).isSome then
    if (parentName = none ∨ parentName = some (CString.lit "")) ∧
        unoBuiltinFields name = some specs then .ok registry
    else .error "struct already defined"
  else do
    let parent ← structParent registry parentName
    return (← structType name parent specs) :: registry

/-- `ussr_struct_total_field_count`. -/
def totalFieldCount : List StructDecl → Nat
  | [] => 0
  | decl :: parents => decl.fields.length + totalFieldCount parents

/-- `ussr_struct_type_is`. -/
def typeIs (chain : List StructDecl) (name : CString) : Bool :=
  chain.any fun decl => decl.name = name

/-- `uno_field_locate`: the parents come first. -/
def unoFieldLocate : List StructDecl → CString → Option (Nat × CString)
  | [], _ => none
  | decl :: parents, name =>
    match unoFieldLocate parents name with
    | some found => some found
    | none =>
      (decl.fields.findIdx? fun field => field.name = name).bind fun i =>
        decl.fields[i]?.map fun field => (totalFieldCount parents + i, field.typeName)

def unoCollectFieldDefs : List StructDecl → List FieldDef
  | [] => []
  | decl :: parents => unoCollectFieldDefs parents ++ decl.fields

def unoTypeMatches (typeName : CString) (value : UnoValue) : Bool :=
  match value with
  | .null => true
  | _ =>
    if typeName = CString.lit "any" then true
    else if typeName = CString.lit "number" then
      match value with
      | .integer _ | .real _ => true
      | _ => false
    else if typeName = CString.lit "string" then
      match value with
      | .string _ => true
      | _ => false
    else if typeName = CString.lit "boolean" then
      match value with
      | .boolean _ => true
      | _ => false
    else if typeName = CString.lit "null" then false
    else if typeName = CString.lit "vector" then
      match value with
      | .vector _ => true
      | _ => false
    else if typeName = CString.lit "btree" then
      match value with
      | .btree _ => true
      | _ => false
    else
      match value with
      | .struct type _ => typeIs type.chain typeName
      | _ => false

def ussrStructInstantiate (registry : Registry) (typeName : CString) (args : List UnoValue) :
    Except String UnoValue :=
  match ussrStructTypeFind registry typeName with
  | none => .error "unknown struct type"
  | some type =>
    if totalFieldCount type.chain ≠ args.length then .error "wrong number of arguments"
    else if ((unoCollectFieldDefs type.chain).zip args).all fun (field, arg) =>
        unoTypeMatches field.typeName arg then .ok (.struct type args)
    else .error "a field expects another type"

def satisfyFields (type : StructType) :
    List (CString × UnoValue) → List (Option UnoValue) → Except String (List (Option UnoValue))
  | [], slots => .ok slots
  | (name, value) :: rest, slots =>
    match unoFieldLocate type.chain name with
    | none => .error "the type has no such field"
    | some (index, fieldType) =>
      if unoTypeMatches fieldType value then
        satisfyFields type rest (slots.set index (some value))
      else .error "a field expects another type"

def ussrStructInstantiateNamed (registry : Registry) (typeName : CString)
    (fields : List (CString × UnoValue)) : Except String UnoValue :=
  match ussrStructTypeFind registry typeName with
  | none => .error "unknown struct type"
  | some type => do
    let slots ← satisfyFields type fields (List.replicate (totalFieldCount type.chain) none)
    match slots.mapM id with
    | none => .error "literal is missing field(s)"
    | some values => return .struct type values

def ussrStructSetField (type : StructType) (fields : List UnoValue) (name : CString)
    (value : UnoValue) : Except String (List UnoValue) :=
  match unoFieldLocate type.chain name with
  | none => .error "the type has no such field"
  | some (index, fieldType) =>
    if unoTypeMatches fieldType value then .ok (fields.set index value)
    else .error "a field expects another type"

end Ussr.Uno
