import Ussr.Kv.Frame
import Ussr.Library.Codec
import Ussr.Library.ByteFields

/-! The partition editor's numbers, texts and GUIDs, and the bytes that they take up on
a disk. Texts are their bytes; `null` is `none`. -/

namespace Ussr.Stalin
open ByteFields Codec Real64

abbrev Text := List UInt8

def wrap (n : Int) : Int := n.bmod 18446744073709551616

/-- The first loop of `st_div`: the shift it ends with. -/
def stDivShift (a b : Int) : (turns sh : Nat) → Nat
  | 0, sh => sh
  | turns + 1, sh => if wrap (b * 2 ^ sh) ≤ a / 2 then stDivShift a b turns (sh + 1) else sh

/-- The second loop of `st_div`, for the shifts below `n`. -/
def stDivLoop (b : Int) : (n : Nat) → (rest r : Int) → Int
  | 0, _, r => r
  | n + 1, rest, r =>
    if wrap (b * 2 ^ n) ≤ rest then stDivLoop b n (rest - wrap (b * 2 ^ n)) (r + 2 ^ n)
    else stDivLoop b n rest r

def stDiv (a b : Int) : Int := stDivLoop b (stDivShift a b 62 0 + 1) a 0

def stDivUp (a b : Int) : Int := stDiv (wrap (a + b - 1)) b

def hexDigit (d : Nat) : UInt8 := UInt8.ofNat (if d < 10 then 48 + d else 55 + d)

def stHex (b : Nat) : Text := [hexDigit (b / 16 % 16), hexDigit (b % 16)]

/-- `st_hex_digit`, `none` for -1. -/
def stHexDigit (c : UInt8) : Option Nat :=
  if 48 ≤ c.toNat ∧ c.toNat ≤ 57 then some (c.toNat - 48)
  else if 65 ≤ c.toNat ∧ c.toNat ≤ 70 then some (c.toNat - 55)
  else if 97 ≤ c.toNat ∧ c.toNat ≤ 102 then some (c.toNat - 87)
  else none

/-- `st_parse_hex_byte`, `none` for -1. -/
def stParseHexByte (s : Text) : Option Nat :=
  let digits := if 2 < s.length ∧ (s.take 2 = ascii "0x" ∨ s.take 2 = ascii "0X") then s.drop 2 else s
  if digits.length < 1 ∨ 2 < digits.length then none
  else digits.foldlM (fun v c => (stHexDigit c).map fun d => v * 16 + d) 0

def stZeros (n : Nat) : List UInt8 := List.replicate n 0

/-- `st_le`; eight bytes may be a negative number. -/
def stLe (v : List UInt8) (i n : Nat) : Int := wrap (ofLE (bytesAt v i n))

/-- The bytes that `st_put` writes. -/
def leBytes (n : Nat) (x : Int) : List UInt8 := putLE n (x % 18446744073709551616).toNat

def stPut (v : List UInt8) (i n : Nat) (x : Int) : List UInt8 := putBytes v i (leBytes n x)

def stFill (v : List UInt8) (i n : Nat) (b : UInt8) : List UInt8 :=
  putBytes v i (List.replicate n b)

def strIsBlankByte (b : UInt8) : Bool := b = 32 || b = 9 || b = 13 || b = 10

def strTrim (s : Text) : Text :=
  ((s.dropWhile strIsBlankByte).reverse.dropWhile strIsBlankByte).reverse

def strLower (s : Text) : Text :=
  s.map fun b => if 65 ≤ b.toNat ∧ b.toNat ≤ 90 then b + 32 else b

def stAscii (v : List UInt8) (i n : Nat) : Text :=
  strTrim (((bytesAt v i n).takeWhile (· ≠ 0)).map fun b => if b.toNat < 32 ∨ b = 127 then 63 else b)

/-- `st_crc32`, the builtin `crc32`. -/
def stCrc32 (v : List UInt8) (from_ n : Nat) : Int := (Kv.crc32 (bytesAt v from_ n)).toNat

/-- What `st_utf16_text` makes of a code unit that is not zero. -/
def unitText (u : Nat) : Text :=
  if u < 32 then ascii "?"
  else if u < 128 then [UInt8.ofNat u]
  else if u < 2048 then [UInt8.ofNat (192 + u / 64), UInt8.ofNat (128 + u % 64)]
  else if 55296 ≤ u ∧ u < 57344 then ascii "?"
  else [UInt8.ofNat (224 + u / 4096), UInt8.ofNat (128 + u / 64 % 64), UInt8.ofNat (128 + u % 64)]

def stUtf16Text (v : List UInt8) (i : Nat) : (units : Nat) → Text
  | 0 => []
  | units + 1 =>
    let u := ofLE (bytesAt v i 2)
    if u = 0 then [] else unitText u ++ stUtf16Text v (i + 2) units

def stUtf16Units : Text → List Nat
  | [] => []
  | c :: s =>
    if c.toNat < 128 then c.toNat :: stUtf16Units s
    else if 192 ≤ c.toNat ∧ c.toNat < 224 then
      match s with
      | c2 :: s => (c.toNat % 32 * 64 + c2.toNat % 64) :: stUtf16Units s
      | [] => [63]
    else if 224 ≤ c.toNat ∧ c.toNat < 240 then
      match s with
      | c2 :: c3 :: s =>
        (c.toNat % 16 * 4096 + c2.toNat % 64 * 64 + c3.toNat % 64) :: stUtf16Units s
      | [c2] => 63 :: stUtf16Units [c2]
      | [] => [63]
    else if 240 ≤ c.toNat then
      match s with
      | _ :: _ :: _ :: s => 63 :: stUtf16Units s
      | _ => [63]
    else 63 :: stUtf16Units s

def stGuidOrder : List Nat := [3, 2, 1, 0, 5, 4, 7, 6, 8, 9, 10, 11, 12, 13, 14, 15]

def guidText (bytes : List UInt8) : Text :=
  bytes.zipIdx.flatMap fun (b, k) =>
    stHex b.toNat ++ if k = 3 ∨ k = 5 ∨ k = 7 ∨ k = 9 then ascii "-" else []

def stGuidText (v : List UInt8) (i : Nat) : Text :=
  guidText (stGuidOrder.map fun o => byteAt v (i + o))

/-- The loop of `st_guid_parse` from `i` on. -/
def guidBytes : (i : Nat) → Text → Option (List UInt8)
  | _, [] => some []
  | i, c :: s =>
    if i = 8 ∨ i = 13 ∨ i = 18 ∨ i = 23 then
      if c = 45 then guidBytes (i + 1) s else none
    else
      match s with
      | [] => none
      | c2 :: s => do
        let h ← stHexDigit c
        let l ← stHexDigit c2
        let bytes ← guidBytes (i + 2) s
        return UInt8.ofNat (h * 16 + l) :: bytes

def stGuidParse (text : Text) : Option (List UInt8) :=
  if text.length ≠ 36 then none else guidBytes 0 text

def guidPlaces (v : List UInt8) (i : Nat) (bytes : List UInt8) : List UInt8 :=
  (stGuidOrder.zip bytes).foldl (fun v p => v.set (i + p.1) p.2) v

/-- `st_guid_put`; a text that is no GUID cannot be written. -/
def stGuidPut (v : List UInt8) (i : Nat) (text : Text) : Option (List UInt8) :=
  (stGuidParse text).map (guidPlaces v i)

def stGuidClean (text : Text) : Option Text :=
  (stGuidParse text).map fun bytes => stGuidText (guidPlaces (stZeros 16) 0 bytes) 0

end Ussr.Stalin
