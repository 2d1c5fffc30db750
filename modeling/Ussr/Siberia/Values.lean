import Ussr.Strings

/-! The values of cells: numbers, texts, errors, and the operators on them. Texts are their
bytes; an error is a text that starts with byte 1. `none` is a run-time error, and also a
library function that does not return. -/

namespace Ussr.Siberia
open Real64
open Stalin (Text strTrim strLower)

inductive Value where
  | null
  | number (n : Number)
  | text (s : Text)
  | boolean (b : Bool)
  /-- Corners in order: row and column of the first, row and column of the last. -/
  | range (r1 c1 r2 c2 : Nat)
deriving DecidableEq

structure Mathematics where
  floor : Number → Option Number
  sqrt : Number → Option Number
  pow : Number → Number → Option Number

def int (n : Int) : Number := .integer (BitVec.ofInt 64 n)

def sbErr (name : String) : Value := .text (1 :: ascii name)

def sbIsErr : Value → Bool
  | .text (1 :: _) => true
  | _ => false

def sbUpper (s : Text) : Text := s.map fun b => if 97 ≤ b.toNat ∧ b.toNat ≤ 122 then b - 32 else b

def sbCompareText (a b : Text) : Int :=
  match compare (strLower a) (strLower b) with
  | .lt => -1
  | .eq => 0
  | .gt => 1

/-- The loop of `sb_fmt` that brings the magnitude below ten. -/
def fmtDown : (turns : Nat) → (m : Number) → (e : Int) → Number × Int
  | 0, m, e => (m, e)
  | turns + 1, m, e => if (int 10).le m then fmtDown turns (m.div (int 10)) (e + 1) else (m, e)

/-- The loop of `sb_fmt` that brings the magnitude to at least one. -/
def fmtUp : (turns : Nat) → (m : Number) → (e : Int) → Number × Int
  | 0, m, e => (m, e)
  | turns + 1, m, e => if m.lt (int 1) then fmtUp turns (m.mul (int 10)) (e - 1) else (m, e)

/-- The loop of `sb_fmt` that counts the digits before the point. -/
def fmtDigits (ax : Number) : (turns : Nat) → (p : Number) → (k : Int) → Int
  | 0, _, k => k
  | turns + 1, p, k => if p.le ax then fmtDigits ax turns (p.mul (int 10)) (k + 1) else k

def realLiteral (num den : Nat) : Number := .real (BitVec.ofNat 64 (ofRatio num den))

def sbFmt : Number → Text
  | .integer n => strFromInt n
  | .real bits =>
    let x : Number := .real bits
    if !x.eq x || !(x.sub x).eq (realLiteral 0 1) then ascii "#NUM!"
    else
      let ax := if x.lt (int 0) then (int 0).sub x else x
      if ax.eq (int 0) then ascii "0"
      else if (realLiteral 1000000000000000 1).le ax || ax.lt (realLiteral 1 1000000) then
        let (m, e) := fmtDown 400 ax 0
        let (m, e) := fmtUp 400 m e
        let ms := strFromNumber m 9
        let (ms, e) := if ms = ascii "10" then (ascii "1", e + 1) else (ms, e)
        (if x.lt (int 0) then ascii "-" else []) ++ ms ++ ascii "E" ++ strFromInt (BitVec.ofInt 64 e)
      else
        let d := if ax.lt (int 1) then 10 else 10 - fmtDigits ax 400 (.real ten) 1
        strFromNumber x (max d 0).toNat

def sbShowValue : Value → Text
  | .null => []
  | .number n => sbFmt n
  | .boolean b => ascii (if b then "TRUE" else "FALSE")
  | .text (1 :: name) => name
  | .text s => s
  | .range .. => ascii "#VALUE!"

abbrev Result := Number ⊕ Value

/-- `sb_num`: the number of a value, or the error that it is or gives. -/
def sbNum : Value → Result
  | .null => .inl (int 0)
  | .number n => .inl n
  | .boolean b => .inl (int (if b then 1 else 0))
  | .range .. => .inr (sbErr "#VALUE!")
  | .text s =>
    if sbIsErr (.text s) then .inr (.text s)
    else if strTrim s = [] then .inl (int 0)
    else
      match strToNumber (strTrim s) with
      | some n => .inl n
      | none => .inr (sbErr "#VALUE!")

def sbMul : Number → Number → Number
  | .integer a, .integer b =>
    let bound : BitVec 64 := 3037000499
    if bound.slt a || a.slt (-bound) || bound.slt b || b.slt (-bound) then
      ((Number.integer a).mul (realLiteral 1 1)).mul (.integer b)
    else .integer (a * b)
  | a, b => a.mul b

/-- The loop of `sb_pow`. -/
def powLoop : (turns : Nat) → (n : Nat) → (r base : Number) → Number
  | 0, _, r, _ => r
  | turns + 1, n, r, base =>
    if 0 < n then powLoop turns (n / 2) (if n % 2 = 1 then sbMul r base else r) (sbMul base base) else r

def sbPow (math : Mathematics) (x y : Number) : Option Value :=
  let yi := strTrunc y
  if (Number.integer yi).eq y ∧ -1024 ≤ yi.toInt ∧ yi.toInt ≤ 1024 then
    let r := powLoop 11 yi.toInt.natAbs (int 1) x
    if yi.toInt < 0 then
      if r.eq (int 0) then some (sbErr "#DIV/0!") else some (.number ((realLiteral 1 1).div r))
    else some (.number r)
  else if (int 0).lt x then (math.pow x y).map .number
  else if x.eq (int 0) && (int 0).lt y then some (.number (int 0))
  else some (sbErr "#NUM!")

inductive Arith where
  | add | sub | mul | div | pow
deriving DecidableEq

/-- The quotient in `sb_arith`: whole when both numbers are integers and it is exact. -/
def arithDiv (x y : Number) : Number :=
  match x, y with
  | .integer m, .integer n =>
    if ussrIntMod m n = 0 then .integer (strTrunc (x.div y)) else x.div y
  | _, _ => x.div y

def sbArith (math : Mathematics) (a b : Value) (op : Arith) : Option Value :=
  match sbNum a, sbNum b with
  | .inr e, _ => some e
  | _, .inr e => some e
  | .inl x, .inl y =>
    match op with
    | .add => some (.number (x.add y))
    | .sub => some (.number (x.sub y))
    | .mul => some (.number (sbMul x y))
    | .div => if y.eq (int 0) then some (sbErr "#DIV/0!") else some (.number (arithDiv x y))
    | .pow => sbPow math x y

inductive Comparison where
  | eq | ne | lt | gt | le | ge
deriving DecidableEq

def Comparison.decides (c : Int) : Comparison → Bool
  | eq => c = 0
  | ne => c ≠ 0
  | lt => c < 0
  | gt => 0 < c
  | le => c ≤ 0
  | ge => 0 ≤ c

/-- A boolean as the number that `sb_compare_op` compares. -/
def comparable : Value → Value
  | .boolean b => .number (int (if b then 1 else 0))
  | v => v

def comparedNull (other : Value) : Value :=
  match other with
  | .text _ => .text []
  | _ => .number (int 0)

/-- `sb_compare_op`; a range beside a text or a range stops with a run-time error. -/
def sbCompareOp (a b : Value) (op : Comparison) : Option Value :=
  if sbIsErr a then some a
  else if sbIsErr b then some b
  else
    let x := if a = .null then comparedNull b else comparable a
    let y := if b = .null then comparedNull a else comparable b
    let c : Option Int :=
      match x, y with
      | .number m, .number n => some (if m.lt n then -1 else if n.lt m then 1 else 0)
      | .number _, _ => some (-1)
      | _, .number _ => some 1
      | .text s, .text t => some (sbCompareText s t)
      | _, _ => none
    c.map fun c => .boolean (op.decides c)

def sbRound (x : Number) (digits : Nat) : Number :=
  let m := int ((10 : Int) ^ digits)
  let ax := if x.lt (int 0) then (int 0).sub x else x
  if (realLiteral 1000000000000000 1).le (ax.mul m) then x
  else
    -- The nudge rounds 2.345 up, which is a little less as a double.
    let q : Number := .integer (strTrunc (((ax.mul m).mul (realLiteral 1000000000001 1000000000000)).add
      (realLiteral 1 2)))
    let r := if digits = 0 then q else q.div m
    if x.lt (int 0) then (int 0).sub r else r

abbrev sbCols : Nat := 52

abbrev sbRows : Nat := 2000

/-- A `$` in front is skipped. -/
def skipDollar : Text → Text
  | 36 :: s => s
  | s => s

def refRow (letters col : Nat) (s : Text) : Int :=
  let s := skipDollar s
  let digits := (s.take 8).takeWhile isDigit
  let row := digits.foldl (fun row b => row * 10 + (b.toNat - 48)) 0
  if 0 < letters ∧ digits ≠ [] ∧ s.drop digits.length = [] then
    if 1 ≤ row ∧ row ≤ sbRows ∧ col ≤ sbCols then ((row - 1) * sbCols + col - 1 : Nat) else -2
  else -1

def sbRef (s : Text) : Int :=
  let s := skipDollar s
  let letters := ((sbUpper s).take 3).takeWhile fun b => 65 ≤ b.toNat && b.toNat ≤ 90
  let col := letters.foldl (fun col b => col * 26 + (b.toNat - 64)) 0
  refRow letters.length col (s.drop letters.length)

example : sbRef (ascii "$b$3") = 105 ∧ sbRef (ascii "zz1") = -2 ∧ sbRef (ascii "A") = -1 := by
  decide +kernel

end Ussr.Siberia
