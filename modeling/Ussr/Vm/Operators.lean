import Ussr.Program
import Ussr.Real64

/-! Truth and the binary operators of the VM. Arithmetic on doubles, structs
with vector arithmetic, and the lengths of heap objects are the machine's. -/

namespace Ussr

structure Arithmetic (W : Type) where
  vectorLength : (vector : Nat) → W → Nat
  btreeCount : (btree : Nat) → W → Nat
  real : Binary → BitVec 64 → BitVec 64 → BitVec 64
  /-- `vm_vector_binary`: `none` where it leaves the operation to `vm_binary`. -/
  struct : Binary → Value → Value → W → Option (Option (Value × W))

variable {W : Type}

def vmTruthy (arithmetic : Arithmetic W) (w : W) : Value → Bool
  | .null => false
  | .boolean b => b
  | .integer n => n ≠ 0
  | .real x => !Real64.eq x 0
  | .string s => s.bytes ≠ []
  | .vector ref => arithmetic.vectorLength ref w ≠ 0
  | .instance_ _ => true
  | .btree ref => arithmetic.btreeCount ref w ≠ 0

def vmNumeric : Value → Bool
  | .integer _ | .real _ => true
  | _ => false

def vmReal : Value → BitVec 64
  | .real x => x
  | .integer n => Real64.ofInt n
  | _ => 0

def vmEqual : Value → Value → Bool
  | .integer m, .integer n => m = n
  | .integer m, .real y => Real64.eq (Real64.ofInt m) y
  | .real x, .integer n => Real64.eq x (Real64.ofInt n)
  | .real x, .real y => Real64.eq x y
  | a, b => a = b

def ussrIntMod (a b : BitVec 64) : BitVec 64 := if b = -1 then 0 else a.srem b

def vmCompare (operation : Binary) (left right : Value) : Option Bool :=
  match left, right with
  | .integer m, .integer n =>
    match operation with
    | .lt => some (m.slt n)
    | .le => some (m.sle n)
    | .gt => some (n.slt m)
    | _ => some (n.sle m)
  | _, _ =>
    if vmNumeric left && vmNumeric right then
      match operation with
      | .lt => some (Real64.lt (vmReal left) (vmReal right))
      | .le => some (Real64.le (vmReal left) (vmReal right))
      | .gt => some (Real64.lt (vmReal right) (vmReal left))
      | _ => some (Real64.le (vmReal right) (vmReal left))
    else none

def vmArithmetic (arithmetic : Arithmetic W) (operation : Binary) (left right : Value) :
    Option Value :=
  if !vmNumeric left || !vmNumeric right then none
  else if operation = .div && Real64.eq (vmReal right) 0 then none
  else
    match operation, left, right with
    | .add, .integer m, .integer n => some (.integer (m + n))
    | .sub, .integer m, .integer n => some (.integer (m - n))
    | .mul, .integer m, .integer n => some (.integer (m * n))
    | .mod, .integer m, .integer n => if n = 0 then none else some (.integer (ussrIntMod m n))
    | .mod, _, _ => none
    | _, _, _ => some (.real (arithmetic.real operation (vmReal left) (vmReal right)))

def vmBitwise (operation : Binary) (left right : Value) : Option Value :=
  match left, right with
  | .integer m, .integer n =>
    match operation with
    | .xor => some (.integer (m ^^^ n))
    | .band => some (.integer (m &&& n))
    | .bor => some (.integer (m ||| n))
    | .shl => if n.toNat > 63 then none else some (.integer (m <<< n.toNat))
    | _ => if n.toNat > 63 then none else some (.integer (m.sshiftRight n.toNat))
  | _, _ => none

def isStruct : Value → Bool
  | .instance_ _ => true
  | _ => false

/-- `vm_binary` on operands that are not left to the vector arithmetic of structs. -/
def vmBinaryPlain (arithmetic : Arithmetic W) (w : W) (operation : Binary) (left right : Value) :
    Option Value :=
  match operation with
  | .add | .sub | .mul | .div | .mod => vmArithmetic arithmetic operation left right
  | .eq => some (.boolean (vmEqual left right))
  | .ne => some (.boolean (!vmEqual left right))
  | .lt | .le | .gt | .ge => (vmCompare operation left right).map .boolean
  | .land => some (.boolean (vmTruthy arithmetic w left && vmTruthy arithmetic w right))
  | .lor => some (.boolean (vmTruthy arithmetic w left || vmTruthy arithmetic w right))
  | .xor | .band | .bor | .shl | .shr => vmBitwise operation left right

def vmBinary (arithmetic : Arithmetic W) (operation : Binary) (left right : Value) (w : W) :
    Option (Value × W) :=
  let plain := (vmBinaryPlain arithmetic w operation left right).map fun v => (v, w)
  if isStruct left || isStruct right then
    match arithmetic.struct operation left right w with
    | some result => result
    | none => plain
  else plain

/-- The integer cases that `vm_execute` handles before it calls `vm_binary`. -/
def fastBinary (operation : Binary) (left right : Value) : Option Value :=
  match left, right with
  | .integer x, .integer y =>
    match operation with
    | .add => some (.integer (x + y))
    | .sub => some (.integer (x - y))
    | .mul => some (.integer (x * y))
    | .eq => some (.boolean (x = y))
    | .ne => some (.boolean (x != y))
    | .lt => some (.boolean (x.slt y))
    | .le => some (.boolean (x.sle y))
    | .gt => some (.boolean (y.slt x))
    | .ge => some (.boolean (y.sle x))
    | _ => none
  | _, _ => none

theorem fastBinary_eq (arithmetic : Arithmetic W) {operation : Binary} {left right v : Value}
    (h : fastBinary operation left right = some v) (w : W) :
    vmBinary arithmetic operation left right w = some (v, w) := by
  cases left <;> cases right <;> try contradiction
  cases operation <;> try contradiction
  all_goals
    cases h
    rfl

end Ussr
