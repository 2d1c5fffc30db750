import Ussr.Number
import Ussr.Stalin.Fields

/-! The text helpers of the library: numbers as texts and texts as numbers. -/

namespace Ussr
open Stalin (Text strTrim)

def isDigit (b : UInt8) : Bool := 48 ≤ b.toNat && b.toNat ≤ 57

def digitOf (b : UInt8) : BitVec 64 := BitVec.ofNat 64 (b.toNat - 48)

/-- The variables of `str_to_number`, with what is left of the text. -/
structure Scan where
  rest : Text
  ok : Bool
  real : Bool
  digits : Nat
  int : BitVec 64
  val : BitVec 64

def scanInteger (v : Scan) : Scan :=
  let digits := v.rest.takeWhile isDigit
  { v with
    rest := v.rest.dropWhile isDigit
    digits := v.digits + digits.length
    int := digits.foldl (fun int b => int * 10 + digitOf b) v.int
    val := digits.foldl (fun val b => Real64.add (Real64.mul val ten) (Real64.ofInt (digitOf b))) v.val }

def scanFraction (v : Scan) : Scan :=
  match v.rest with
  | 46 :: rest =>
    let digits := rest.takeWhile isDigit
    let (val, _) := digits.foldl
      (fun (val, place) b =>
        (Real64.add val (Real64.mul (Real64.ofInt (digitOf b)) place), Real64.div place ten))
      (v.val, BitVec.ofNat 64 (Real64.ofRatio 1 10))
    { v with
      rest := rest.dropWhile isDigit, real := true, digits := v.digits + digits.length, val }
  | _ => v

/-- The sign at the front of a text: whether it is `-`, and what follows it. -/
def scanSign : Text → Bool × Text
  | 45 :: rest => (true, rest)
  | 43 :: rest => (false, rest)
  | rest => (false, rest)

def scale10 (negative : Bool) : (turns : Nat) → BitVec 64 → BitVec 64
  | 0, val => val
  | turns + 1, val => scale10 negative turns (if negative then Real64.div val ten else Real64.mul val ten)

def scanExponent (v : Scan) : Scan :=
  match v.rest with
  | b :: rest =>
    if v.ok ∧ (b = 101 ∨ b = 69) then
      let (negative, rest) := scanSign rest
      let digits := rest.takeWhile isDigit
      let exp := digits.foldl (fun exp b => exp * 10 + digitOf b) (0 : BitVec 64)
      let ok := digits ≠ [] ∧ ¬(308 : BitVec 64).slt exp
      { v with
        rest := rest.dropWhile isDigit, real := true, ok
        val := if ok then scale10 negative exp.toInt.toNat v.val else v.val }
    else v
  | [] => v

/-- `str_to_number`, `none` for `null`. -/
def strToNumber (s : Text) : Option Number :=
  let (negative, rest) := scanSign (strTrim s)
  let v := scanFraction (scanInteger ⟨rest, strTrim s ≠ [], false, 0, 0, 0⟩)
  let v := scanExponent { v with ok := v.ok && v.digits ≠ 0 }
  let sign : BitVec 64 := if negative then -1 else 1
  if !v.ok || v.rest ≠ [] then none
  else if v.real || 18 < v.digits then some (.real (Real64.mul v.val (Real64.ofInt sign)))
  else some (.integer (v.int * sign))

example : strToNumber (Real64.ascii " -42") = some (.integer (-42)) ∧
    strToNumber (Real64.ascii "1.5e1") = some (.real (Real64.ofInt 15)) ∧
    strToNumber (Real64.ascii "1e") = none := by decide +kernel

/-- The powers of ten that `str_from_int` collects, the greatest first: the last of
`powers` is followed by the next while it is at most a tenth of `n`, a real. -/
def tenPowers (n : BitVec 64) : (turns : Nat) → (p : BitVec 64) → (powers : List (BitVec 64)) →
    List (BitVec 64)
  | 0, _, powers => powers
  | turns + 1, p, powers =>
    if Real64.le (Real64.ofInt p) (Real64.div (Real64.ofInt n) ten) then
      tenPowers n turns (p * 10) (p * 10 :: powers)
    else powers

/-- The digits of `n`, each the number of times its power can be taken away. -/
def intDigits : (n : BitVec 64) → List (BitVec 64) → Text
  | _, [] => []
  | n, p :: powers =>
    let d := if n.slt 0 then 0 else n.toNat / p.toNat
    UInt8.ofNat (48 + d) :: intDigits (n - BitVec.ofNat 64 d * p) powers

def strFromInt (n : BitVec 64) : Text :=
  let magnitude := if n.slt 0 then -n else n
  let digits := intDigits magnitude (tenPowers magnitude 64 1 [1])
  if n.slt 0 then Real64.ascii "-" ++ digits else digits

example : strFromInt (-120) = Real64.ascii "-120" ∧
    strFromInt 999999999999999999 = Real64.ascii "0999999999999999999" := by decide +kernel

/-- The greatest power of two that `str_trunc` tries: `p` is doubled while it is at most half
of `x`. -/
def truncPower (x : Number) : (turns : Nat) → (p : BitVec 64) → BitVec 64
  | 0, p => p
  | turns + 1, p =>
    if (Number.integer p).le (.real (Real64.div x.toReal (Real64.ofInt 2))) then truncPower x turns (p * 2)
    else p

/-- The second loop of `str_trunc`: `p` is halved down to 1. -/
def truncLoop (x : Number) : (turns : Nat) → (p i : BitVec 64) → BitVec 64
  | 0, _, i => i
  | turns + 1, p, i =>
    if (1 : BitVec 64).sle p then
      truncLoop x turns (p.sshiftRight 1) (if (Number.integer (i + p)).le x then i + p else i)
    else i

/-- `str_trunc`; what is above `2 ^ 62` becomes 0. -/
def strTrunc (x : Number) : BitVec 64 :=
  let magnitude := if x.lt (.integer 0) then Number.sub (.integer 0) x else x
  let magnitude := if (Number.integer 4611686018427387904).lt magnitude then .integer 0 else magnitude
  let i := truncLoop magnitude 64 (truncPower magnitude 64 1) 0
  if x.lt (.integer 0) then 0 - i else i

/-- The power of ten by which `str_from_number` scales, and its exponent. -/
def numberScale (x : Number) (digits : Nat) : (turns : Nat) → (scale : BitVec 64) → (k : Nat) → BitVec 64 × Nat
  | 0, scale, k => (scale, k)
  | turns + 1, scale, k =>
    if k < digits ∧ (((x.add (.integer 1)).mul (.integer scale)).mul (.real ten)).lt
        (.integer 4611686018427387904) = true then
      numberScale x digits turns (scale * 10) (k + 1)
    else (scale, k)

def strFromNumber (x : Number) (digits : Nat) : Text :=
  let whole := strTrunc x
  if (Number.integer whole).eq x then strFromInt whole
  else
    let negative := x.lt (.integer 0)
    let magnitude := if negative then Number.sub (.integer 0) x else x
    let (scale, k) := numberScale magnitude digits digits 1 0
    let n := strTrunc ((magnitude.mul (.integer scale)).add (.real (BitVec.ofNat 64 (Real64.ofRatio 1 2))))
    let frac := ussrIntMod n scale
    let text := strFromInt (strTrunc ((Number.integer (n - frac)).div (.integer scale)))
    let text :=
      if (0 : BitVec 64).slt frac then
        let ftext := strFromInt frac
        let ftext := List.replicate (k - ftext.length) 48 ++ ftext
        text ++ Real64.ascii "." ++ (ftext.reverse.dropWhile (· = 48)).reverse
      else text
    if negative ∧ (0 : BitVec 64).slt n = true then Real64.ascii "-" ++ text else text

def utf8Len (b : UInt8) : Nat :=
  if 192 ≤ b.toNat ∧ b.toNat < 224 then 2
  else if 224 ≤ b.toNat ∧ b.toNat < 240 then 3
  else if 240 ≤ b.toNat ∧ b.toNat < 248 then 4
  else 1

def isContinuation (b : UInt8) : Bool := 128 ≤ b.toNat && b.toNat < 192

/-- The text after its first character, as far as `utf8_next` goes. -/
def utf8Next : Text → Text
  | [] => []
  | b :: s => s.drop ((s.take (utf8Len b - 1)).takeWhile isContinuation).length

/-- `utf8_count`; `turns` bounds the text. -/
def utf8CountLoop : (turns : Nat) → Text → Nat
  | 0, _ => 0
  | turns + 1, s => if s = [] then 0 else utf8CountLoop turns (utf8Next s) + 1

def utf8Count (s : Text) : Nat := utf8CountLoop s.length s

/-- `str_find`, `none` for -1. -/
def strFind (s needle : Text) (start : Nat) : Option Nat :=
  (List.range' start (s.length + 1 - needle.length - start)).find? fun i =>
    (s.drop i).take needle.length = needle

end Ussr
