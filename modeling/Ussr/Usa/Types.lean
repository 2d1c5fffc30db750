import Ussr.Program

/-! The integer types of usa: 64-bit `long`, unsigned `char`. -/

namespace Ussr.Usa

/-- `ty_bool` .. `ty_ullong` -/
inductive Ty where
  | bool | char | schar | uchar | short | ushort | int | uint | long | ulong | llong | ullong
deriving DecidableEq

namespace Ty

/-- `ty_k` -/
def kind : Ty → Nat
  | bool => 1
  | char | schar | uchar => 2
  | short | ushort => 3
  | int | uint => 4
  | long | ulong => 5
  | llong | ullong => 6

/-- `ty_u` -/
def unsigned : Ty → Bool
  | bool | char | uchar | ushort | uint | ulong | ullong => true
  | _ => false

/-- `ty_bits` -/
def bits : Ty → Nat
  | bool | char | schar | uchar => 8
  | short | ushort => 16
  | int | uint => 32
  | _ => 64

/-- `long long` ranks as `long`. -/
def rank (t : Ty) : Nat := if t.kind = 6 then 5 else t.kind

def least (t : Ty) : Int := if t.unsigned then 0 else -2 ^ (t.bits - 1)

def greatest (t : Ty) : Int :=
  if t = bool then 1 else if t.unsigned then 2 ^ t.bits - 1 else 2 ^ (t.bits - 1) - 1

/-- `v` is a value of the type. -/
def Holds (t : Ty) (v : Int) : Prop := t.least ≤ v ∧ v ≤ t.greatest

instance decidableHolds (t : Ty) (v : Int) : Decidable (t.Holds v) := by
  unfold Holds
  exact inferInstance

end Ty

end Ussr.Usa
