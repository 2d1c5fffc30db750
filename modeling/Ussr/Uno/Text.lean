import Ussr.Library.Codec
import Ussr.RealText
import Ussr.Uno.Struct

/-! The textual notation of values: its writer, which gives up at a string that
cannot be written, and its recursive descent reader. The end of the text is
the NUL that ends a C string. -/

namespace Ussr.Uno
open Codec Decimal Real64

abbrev byte (c : Char) : UInt8 := UInt8.ofNat c.toNat

/-- `printf` of a 64-bit integer. -/
def formatInt (n : BitVec 64) : List UInt8 :=
  if n.toInt < 0 then byte '-' :: decimal n.toInt.natAbs else decimal n.toInt.natAbs

def unoEncodeReal (bits : BitVec 64) : List UInt8 :=
  let tmp := formatG bits
  if byte '.' ∉ tmp ∧ byte 'e' ∉ tmp ∧ byte 'n' ∉ tmp then tmp ++ ascii ".0" else tmp

def unoStringOk (s : CString) : Bool :=
  decide (byte '`' ∉ s.bytes) && decide (byte '\n' ∉ s.bytes)

def comma (first : Bool) : List UInt8 :=
  if first then [] else [byte ',']

mutual

def unoEncodeValue : UnoValue → Option (List UInt8)
  | .null => some (ascii "null")
  | .integer n => some (formatInt n)
  | .real bits => some (unoEncodeReal bits)
  | .boolean b => some (ascii (if b then "true" else "false"))
  | .string s => if unoStringOk s then some (byte '`' :: (s.bytes ++ [byte '`'])) else none
  | .vector items => do
    let text ← unoEncodeItems true items
    return byte '[' :: (text ++ [byte ']'])
  | .struct type fields => do
    let text ← unoEncodeFields true (unoCollectFieldDefs type.chain) fields
    return type.name.bytes ++ byte '{' :: (text ++ [byte '}'])
  | .btree pairs => do
    let text ← unoEncodePairs true pairs
    return byte '[' :: (text ++ [byte ']'])

/-- The loop of `uno_encode_vector`. -/
def unoEncodeItems (first : Bool) : List UnoValue → Option (List UInt8)
  | [] => some []
  | item :: items => do
    let text ← unoEncodeValue item
    let rest ← unoEncodeItems false items
    return comma first ++ (text ++ rest)

/-- The loop of `uno_encode_struct`; the fields lie parallel to their definitions. -/
def unoEncodeFields (first : Bool) : List FieldDef → List UnoValue → Option (List UInt8)
  | [], [] => some []
  | field :: defs, value :: values => do
    let text ← unoEncodeValue value
    let rest ← unoEncodeFields false defs values
    return comma first ++ (field.name.bytes ++ byte '=' :: (text ++ rest))
  | _, _ => none

/-- `uno_encode_pair` on each entry of a tree. -/
def unoEncodePairs (first : Bool) : List (UnoValue × UnoValue) → Option (List UInt8)
  | [] => some []
  | (key, value) :: pairs => do
    let keyText ← unoEncodeValue key
    let text ← unoEncodeValue value
    let rest ← unoEncodePairs false pairs
    return comma first ++ byte '[' :: (keyText ++ byte ',' :: (text ++ byte ']' :: rest))

end

def ussrUnoEncode (value : UnoValue) : Option (List UInt8) :=
  unoEncodeValue value

def isSpace (b : UInt8) : Bool :=
  b = 32 || (decide (9 ≤ b.toNat) && decide (b.toNat ≤ 13))

def isAlpha (b : UInt8) : Bool :=
  (decide (65 ≤ b.toNat) && decide (b.toNat ≤ 90)) ||
    (decide (97 ≤ b.toNat) && decide (b.toNat ≤ 122))

def isIdentStart (b : UInt8) : Bool :=
  isAlpha b || b = byte '_'

def isIdentPart (b : UInt8) : Bool :=
  isAlpha b || isDigit b || b = byte '_'

def unoSkipWs : Reader Unit := fun bs => .ok ((), bs.dropWhile isSpace)

/-- The character under the cursor, `none` at the end of the text. -/
def peek : Reader (Option UInt8) := fun bs => .ok (bs.head?, bs)

def advance : Reader Unit
  | [] => .error "past the end of the text"
  | _ :: bs => .ok ((), bs)

def takeWhile (p : UInt8 → Bool) : Reader (List UInt8) := fun bs =>
  .ok (bs.takeWhile p, bs.dropWhile p)

def unoReadIdentifier : Reader CString := do
  if (← peek).any isIdentStart then
    return CString.ofBytes (← takeWhile isIdentPart)
  else fail "identifier expected"

/-- `strtoll`, which stops at the ends of the range. -/
def strtoll (negative : Bool) (digits : List UInt8) : BitVec 64 :=
  if negative then BitVec.ofInt 64 (-(min (ofDecimal digits) (2 ^ 63) : Nat))
  else BitVec.ofInt 64 (min (ofDecimal digits) (2 ^ 63 - 1) : Nat)

def unoReadDecimals : Reader (Option (List UInt8)) := fun bs =>
  match bs with
  | point :: digit :: rest =>
    if point = byte '.' ∧ isDigit digit then
      .ok (some ((digit :: rest).takeWhile isDigit), (digit :: rest).dropWhile isDigit)
    else .ok (none, bs)
  | _ => .ok (none, bs)

def unoReadDigits (negative : Bool) : Reader UnoValue := do
  let digits ← takeWhile isDigit
  if digits = [] then fail "digit expected"
  else
    match ← unoReadDecimals with
    | some decimals => return .real (strtod negative digits decimals)
    | none => return .integer (strtoll negative digits)

/-- `uno_read_number`. An exponent that `strtod` would read is left in the text, where it is
refused. -/
def unoReadNumber : Reader UnoValue := do
  if (← peek) = some (byte '-') then
    advance
    unoReadDigits true
  else unoReadDigits false

/-- `uno_read_string`, the opening backquote being under the cursor. -/
def unoReadString : Reader UnoValue := do
  advance
  let text ← takeWhile fun b => b ≠ byte '`' ∧ b ≠ byte '\n'
  if (← peek) = some (byte '`') then
    advance
    return .string (CString.ofBytes text)
  else fail "unterminated UNO string"

abbrev unoMaxFields : Nat := 64

def reserved (ident : CString) : Option UnoValue :=
  if ident = CString.lit "true" then some (.boolean true)
  else if ident = CString.lit "false" then some (.boolean false)
  else if ident = CString.lit "null" then some .null
  else none

/-- `uno_read_vector`; `items` is its loop. -/
def unoReadVector (items : Reader (List UnoValue)) : Reader UnoValue := do
  advance
  unoSkipWs
  if (← peek) = some (byte ']') then
    advance
    return .vector []
  else return .vector (← items)

def unoCloseObject (registry : Registry) (typeName : CString)
    (fields : List (CString × UnoValue)) : Reader UnoValue := do
  advance
  match ussrStructInstantiateNamed registry typeName fields with
  | .ok instance_ => return instance_
  | .error message => fail message

/-- `uno_read_object`; `fields` is its loop. -/
def unoReadObject (registry : Registry) (typeName : CString)
    (fields : Reader (List (CString × UnoValue))) : Reader UnoValue := do
  advance
  unoSkipWs
  if (← peek) = some (byte '}') then unoCloseObject registry typeName []
  else unoCloseObject registry typeName (← fields)

def unoReadWord (registry : Registry) (fields : Reader (List (CString × UnoValue))) :
    Reader UnoValue := do
  let ident ← unoReadIdentifier
  match reserved ident with
  | some value => return value
  | none =>
    unoSkipWs
    if (← peek) = some (byte '{') then unoReadObject registry ident fields
    else fail "expected '\x7b' in UNO text"

abbrev outOfFuel : String := "out of fuel"

mutual

/-- `uno_read_value`. The fuel bounds the calls and loop rounds that are nested. -/
def unoReadValue (registry : Registry) : (fuel : Nat) → Reader UnoValue
  | 0 => fail outOfFuel
  | fuel + 1 => do
    unoSkipWs
    match ← peek with
    | none => fail "unexpected character in UNO text"
    | some b =>
      if b = byte '[' then unoReadVector (unoReadItems registry fuel)
      else if b = byte '`' then unoReadString
      else if b = byte '-' ∨ isDigit b then unoReadNumber
      else if isIdentStart b then unoReadWord registry (unoReadFields registry fuel 0)
      else fail "unexpected character in UNO text"

/-- The loop of `uno_read_vector`, up to the closing bracket. -/
def unoReadItems (registry : Registry) : (fuel : Nat) → Reader (List UnoValue)
  | 0 => fail outOfFuel
  | fuel + 1 => do
    unoSkipWs
    let item ← unoReadValue registry fuel
    unoSkipWs
    if (← peek) = some (byte ',') then
      advance
      return item :: (← unoReadItems registry fuel)
    else if (← peek) = some (byte ']') then
      advance
      return [item]
    else fail "expected ',' or ']' in UNO vector"

/-- The loop of `uno_read_object`, which leaves the closing brace; `count` fields were read. -/
def unoReadFields (registry : Registry) : (fuel count : Nat) → Reader (List (CString × UnoValue))
  | 0, _ => fail outOfFuel
  | fuel + 1, count =>
    if unoMaxFields ≤ count then fail "UNO object exceeds 64 fields"
    else do
      unoSkipWs
      let name ← unoReadIdentifier
      unoSkipWs
      if (← peek) = some (byte '=') then
        advance
        unoSkipWs
        let value ← unoReadValue registry fuel
        unoSkipWs
        if (← peek) = some (byte ',') then
          advance
          return (name, value) :: (← unoReadFields registry fuel (count + 1))
        else if (← peek) = some (byte '}') then return [(name, value)]
        else fail "expected ',' or '\x7d' in UNO object"
      else fail "expected '=' after field name"

end

/-- `ussr_uno_decode`. Each nested call but those right after a loop round takes a character. -/
def ussrUnoDecode (registry : Registry) (text : List UInt8) : Except String UnoValue := do
  let (value, rest) ← unoReadValue registry (2 * text.length + 1) text
  if rest.dropWhile isSpace = [] then return value
  else .error "trailing characters after UNO value"

end Ussr.Uno
