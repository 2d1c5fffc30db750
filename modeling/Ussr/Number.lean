import Ussr.RealArithmetic
import Ussr.Vm.Operators

/-! The numbers of the language and their operators. -/

namespace Ussr

inductive Number where
  | integer (n : BitVec 64)
  | real (x : BitVec 64)
deriving DecidableEq

/-- `10.0` -/
def ten : BitVec 64 := Real64.ofInt 10

namespace Number

def toReal : Number → BitVec 64
  | integer n => Real64.ofInt n
  | real x => x

def add : Number → Number → Number
  | integer m, integer n => integer (m + n)
  | x, y => real (Real64.add x.toReal y.toReal)

def sub : Number → Number → Number
  | integer m, integer n => integer (m - n)
  | x, y => real (Real64.sub x.toReal y.toReal)

def mul : Number → Number → Number
  | integer m, integer n => integer (m * n)
  | x, y => real (Real64.mul x.toReal y.toReal)

def div (x y : Number) : Number := real (Real64.div x.toReal y.toReal)

def lt : Number → Number → Bool
  | integer m, integer n => m.slt n
  | x, y => Real64.lt x.toReal y.toReal

def le : Number → Number → Bool
  | integer m, integer n => m.sle n
  | x, y => Real64.le x.toReal y.toReal

def eq : Number → Number → Bool
  | integer m, integer n => m = n
  | x, y => Real64.eq x.toReal y.toReal

end Number

end Ussr
