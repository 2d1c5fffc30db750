import Ussr.RealText

/-! The arithmetic of doubles on their patterns: exact results, rounded once. -/

namespace Ussr.Real64

def nan : BitVec 64 := 0x7ff8000000000000

def isInf (x : BitVec 64) : Bool := x.toNat % 2 ^ 63 = 0x7ff0000000000000

def isZero (x : BitVec 64) : Bool := x.toNat % 2 ^ 63 = 0

def magnitude (x : BitVec 64) : Nat × Nat :=
  let field := x.toNat / 2 ^ 52 % 2048
  let mantissa := x.toNat % 2 ^ 52
  scale 2 (if field = 0 then mantissa else mantissa + 2 ^ 52) 1 ((max field 1 : Nat) - 1075)

def withSign (negative : Bool) (pattern : Nat) : BitVec 64 :=
  BitVec.ofNat 64 (if negative then 2 ^ 63 + pattern else pattern)

def infinity (negative : Bool) : BitVec 64 := withSign negative 0x7ff0000000000000

def mul (x y : BitVec 64) : BitVec 64 :=
  let negative := x.msb != y.msb
  if isNaN x || isNaN y then nan
  else if isInf x || isInf y then if isZero x || isZero y then nan else infinity negative
  else
    let (xn, xd) := magnitude x
    let (yn, yd) := magnitude y
    withSign negative (ofRatio (xn * yn) (xd * yd))

def div (x y : BitVec 64) : BitVec 64 :=
  let negative := x.msb != y.msb
  if isNaN x || isNaN y || (isInf x && isInf y) || (isZero x && isZero y) then nan
  else if isInf x || isZero y then infinity negative
  else if isInf y then withSign negative 0
  else
    let (xn, xd) := magnitude x
    let (yn, yd) := magnitude y
    withSign negative (ofRatio (xn * yd) (xd * yn))

def add (x y : BitVec 64) : BitVec 64 :=
  if isNaN x || isNaN y || (isInf x && isInf y && x.msb != y.msb) then nan
  else if isInf x then x
  else if isInf y then y
  else
    let (xn, xd) := magnitude x
    let (yn, yd) := magnitude y
    let signed (negative : Bool) (n : Nat) : Int := if negative then -n else n
    let sum := signed x.msb (xn * yd) + signed y.msb (yn * xd)
    withSign (decide (sum < 0) || (x.msb && y.msb)) (ofRatio sum.natAbs (xd * yd))

def sub (x y : BitVec 64) : BitVec 64 := add x (neg y)

example : add (ofInt 1) (div (ofInt 1) (ofInt 10)) = 0x3ff199999999999a ∧
    mul (ofInt (-3)) (ofInt 5) = ofInt (-15) ∧ sub (ofInt 2) (ofInt 2) = 0 := by decide +kernel

end Ussr.Real64
