import Mathlib.Data.Int.Log
import Ussr.Library.Decimal
import Ussr.Real64
import Ussr.Value

/-! Doubles and their decimal texts: the reading of digits with a decimal point,
and `printf("%g")`. -/

namespace Ussr.Real64
open Decimal

abbrev ascii (s : String) : List UInt8 := (CString.lit s).bytes

theorem mem_ascii_ofList {b : UInt8} {cs : List Char} (h : b ∈ ascii (String.ofList cs)) :
    b ∈ cs.map fun c => UInt8.ofNat c.toNat := by
  have hbytes : ascii (String.ofList cs) =
      ((String.ofList cs).toList.map fun c => UInt8.ofNat c.toNat).filter (· ≠ 0) := rfl
  rw [hbytes, String.toList_ofList] at h
  exact (List.mem_filter.mp h).1

theorem ascii_ofList_ne_nil {c : Char} {cs : List Char} (h : UInt8.ofNat c.toNat ≠ 0) : ascii (String.ofList (c :: cs)) ≠ [] := by
  have hbytes : ascii (String.ofList (c :: cs)) =
      ((String.ofList (c :: cs)).toList.map fun c => UInt8.ofNat c.toNat).filter (· ≠ 0) := rfl
  rw [hbytes, String.toList_ofList, List.map_cons, List.filter_cons, if_pos (decide_eq_true h)]
  exact List.cons_ne_nil _ _

/-- The fraction `num / den * b ^ k`. -/
def scale (b num den : Nat) (k : Int) : Nat × Nat :=
  if 0 ≤ k then (num * b ^ k.toNat, den) else (num, den * b ^ (-k).toNat)

/-- The integer nearest to `num / den`, ties to even. -/
def roundRatio (num den : Nat) : Nat :=
  let q := num / den
  let rest := num % den
  if den < 2 * rest ∨ (2 * rest = den ∧ q % 2 = 1) then q + 1 else q

/-- The pattern of the double nearest to `num / den`. -/
def ofRatio (num den : Nat) : Nat :=
  if num = 0 then 0
  else
    let guess : Int := num.log2 - den.log2
    let (n, d) := scale 2 num den (-guess)
    let e := max (if n < d then guess - 1 else guess) (-1022)
    let (n, d) := scale 2 num den (52 - e)
    min ((e + 1022).toNat * 2 ^ 52 + roundRatio n d) 0x7ff0000000000000

/-- `strtod` of a sign, digits, a point and digits. -/
def strtod (negative : Bool) (whole decimals : List UInt8) : BitVec 64 :=
  let magnitude := ofRatio (ofDecimal (whole ++ decimals)) (10 ^ decimals.length)
  BitVec.ofNat 64 (if negative then 2 ^ 63 + magnitude else magnitude)

def leadingExponent (num den : Nat) : Int :=
  if den ≤ num then Nat.log 10 (num / den) else -(Nat.clog 10 ((den + num - 1) / num) : Int)

/-- The six significant digits of `%g` and the exponent of the first. -/
def significant (num den : Nat) : Nat × Int :=
  let exponent := leadingExponent num den
  let (n, d) := scale 10 num den (5 - exponent)
  let q := roundRatio n d
  if q = 10 ^ 6 then (10 ^ 5, exponent + 1) else (q, exponent)

def stripZeros (digits : List UInt8) : List UInt8 :=
  (digits.reverse.dropWhile (· == 48)).reverse

def withPoint (whole decimals : List UInt8) : List UInt8 :=
  if decimals = [] then whole else whole ++ ascii "." ++ decimals

/-- `%g` of a positive fraction. -/
def formatRatio (num den : Nat) : List UInt8 :=
  let (q, exponent) := significant num den
  let digits := decimal q
  if exponent < -4 ∨ 6 ≤ exponent then
    let power := decimal exponent.natAbs
    withPoint (digits.take 1) (stripZeros (digits.drop 1)) ++
      ascii (if exponent < 0 then "e-" else "e+") ++
      (if power.length < 2 then ascii "0" else []) ++ power
  else if exponent < 0 then
    withPoint (ascii "0") (stripZeros (List.replicate (-exponent - 1).toNat 48 ++ digits))
  else withPoint (digits.take (exponent.toNat + 1)) (stripZeros (digits.drop (exponent.toNat + 1)))

/-- `printf("%g")`. -/
def formatG (x : BitVec 64) : List UInt8 :=
  let sign := if x.msb then ascii "-" else []
  let field := x.toNat / 2 ^ 52 % 2048
  let mantissa := x.toNat % 2 ^ 52
  if field = 2047 then sign ++ ascii (if mantissa = 0 then "inf" else "nan")
  else
    let m := if field = 0 then mantissa else mantissa + 2 ^ 52
    let (num, den) := scale 2 m 1 ((max field 1 : Nat) - 1075)
    sign ++ if m = 0 then ascii "0" else formatRatio num den

example : formatG 0x3fb999999999999a = ascii "0.1" ∧ formatG 0x419d6f34540ca458 = ascii "1.23457e+08" ∧
    formatG 0xc000000000000000 = ascii "-2" ∧ formatG 1 = ascii "4.94066e-324" := by decide +kernel

end Ussr.Real64
