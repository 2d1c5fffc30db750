import Ussr.Library.Codec
import Ussr.Syntax

/-! Blocks of commands as stored in `.ru` files. The writer returns nothing
where it gives up; the reader stops with the first error it reports. Memory is
always granted. -/

namespace Ussr.Ru
open Codec

abbrev ruNullString : Nat := 0xffffffff

abbrev ruMaxSyntaxDepth : Nat := 64

def putString : Option CString → Option (List UInt8)
  | none => some (putLE 4 ruNullString)
  | some text => do
    guard (text.bytes.length < ruNullString)
    return putLE 4 text.bytes.length ++ text.bytes

def putFlag (b : Bool) : UInt8 := if b then 1 else 0

def putConstant : Value → Option (List UInt8)
  | .null => some [0]
  | .integer n => some (1 :: putLE 8 n.toNat)
  | .real bits => some (2 :: putLE 8 bits.toNat)
  | .string text => do return 3 :: (← putString (some text))
  | .boolean b => some [4, putFlag b]
  | _ => none

def operatorCode : Operator → Nat
  | .add => 0 | .sub => 1 | .mul => 2 | .div => 3 | .mod => 4
  | .gt => 5 | .lt => 6 | .ge => 7 | .le => 8 | .eq => 9 | .ne => 10
  | .logicalAnd => 11 | .logicalOr => 12
  | .shiftLeft => 13 | .shiftRight => 14
  | .bitwiseXor => 15 | .bitwiseAnd => 16 | .bitwiseOr => 17

def putExpression (depth : Nat) : Expression → Option (List UInt8)
  | .value v => do
    guard (depth ≤ ruMaxSyntaxDepth)
    return 0 :: (← putConstant v)
  | .variable name => do
    guard (depth ≤ ruMaxSyntaxDepth)
    return 1 :: (← putString (some name))
  | .binary operator left right => do
    guard (depth ≤ ruMaxSyntaxDepth)
    let left ← putExpression (depth + 1) left
    let right ← putExpression (depth + 1) right
    return 2 :: UInt8.ofNat (operatorCode operator) :: (left ++ right)
  | .unary operator operand => do
    guard (depth ≤ ruMaxSyntaxDepth)
    let operand ← putExpression (depth + 1) operand
    return 3 :: UInt8.ofNat (operatorCode operator) :: operand

mutual

def putNode (depth : Nat) : Argument → Option (List UInt8)
  | .value assignment v => do return 0 :: putFlag assignment :: (← putConstant v)
  | .expression assignment e => do
    return 1 :: putFlag assignment :: (← putExpression depth e)
  | .lookup assignment name => do
    return 2 :: putFlag assignment :: (← putExpression depth (.variable name))
  | .unoLiteral assignment text => do
    return 3 :: putFlag assignment :: (← putString (some text))
  | .commandList assignment list => do
    guard (depth + 1 ≤ ruMaxSyntaxDepth)
    return 4 :: putFlag assignment :: (putLE 4 list.length ++ (← putCommands (depth + 1) list))
  | .advancedList assignment list => do
    guard (depth + 1 ≤ ruMaxSyntaxDepth)
    return 5 :: putFlag assignment :: (putLE 4 list.length ++ (← putCommands (depth + 1) list))

def putNodes (depth : Nat) : List Argument → Option (List UInt8)
  | [] => some []
  | argument :: arguments => do
    return (← putNode depth argument) ++ (← putNodes depth arguments)

def putCommand (depth : Nat) : Command → Option (List UInt8)
  | .mk path name returnName arguments => do
    guard (arguments.length ≤ 255)
    let path ← putString path
    let name ← putString (some name)
    let returnName ← putString returnName
    let nodes ← putNodes depth arguments
    return path ++ (name ++ (returnName ++ (UInt8.ofNat arguments.length :: nodes)))

def putCommands (depth : Nat) : List Command → Option (List UInt8)
  | [] => some []
  | command :: commands => do
    return (← putCommand depth command) ++ (← putCommands depth commands)

end

/-- The count is a 32-bit number: `putLE` keeps its low bits. -/
def putBlock (depth : Nat) (list : List Command) : Option (List UInt8) := do
  guard (depth ≤ ruMaxSyntaxDepth)
  return putLE 4 list.length ++ (← putCommands depth list)

def getU8 : Reader Nat
  | [] => .error "file is truncated"
  | b :: bs => .ok (b.toNat, bs)

def getU32 : Reader Nat := do return ofLE (← take 4 "file is truncated")

def getU64 : Reader (BitVec 64) := do
  return BitVec.ofNat 64 (ofLE (← take 8 "file is truncated"))

/-- A count of records, each at least `minSize` bytes, must fit. -/
def getCount (minSize : Nat) : Reader Nat := do
  let value ← getU32
  let left ← remaining
  if minSize ≠ 0 ∧ value > left / minSize then
    fail "a section count is larger than the file"
  else
    return value

instance decidableNoNul (bytes : List UInt8) : Decidable (∀ b ∈ bytes, b ≠ 0) :=
  List.decidableBAll (fun b => b ≠ 0) bytes

def getString : Reader (Option CString) := do
  let length ← getU32
  if length = ruNullString then
    return none
  else
    let bytes ← take length "a string runs past the end of the file"
    if h : ∀ b ∈ bytes, b ≠ 0 then
      return some ⟨bytes, h⟩
    else
      fail "a string contains a NUL byte"

/-- `ru_get_string` where NULL is not accepted. -/
def getRequiredString : Reader CString := do
  match ← getString with
  | some text => return text
  | none => fail "a required string is missing"

def getConstant : Reader Value := do
  match ← getU8 with
  | 0 => return .null
  | 1 => return .integer (← getU64)
  | 2 => return .real (← getU64)
  | 3 => return .string (← getRequiredString)
  | 4 =>
    let flag ← getU8
    if flag > 1 then
      fail "invalid boolean constant"
    else
      return .boolean (flag == 1)
  | _ => fail "unknown constant type"

def operatorOf : Nat → Option Operator
  | 0 => some .add | 1 => some .sub | 2 => some .mul | 3 => some .div | 4 => some .mod
  | 5 => some .gt | 6 => some .lt | 7 => some .ge | 8 => some .le | 9 => some .eq | 10 => some .ne
  | 11 => some .logicalAnd | 12 => some .logicalOr
  | 13 => some .shiftLeft | 14 => some .shiftRight
  | 15 => some .bitwiseXor | 16 => some .bitwiseAnd | 17 => some .bitwiseOr
  | _ => none

def getOperator : Reader Operator := do
  match operatorOf (← getU8) with
  | some operator => return operator
  | none => fail "unknown operator in a stored block"

/-- `room` is the number of levels still allowed: 65 minus the depth. -/
def getExpression : (room : Nat) → Reader Expression
  | 0 => fail "a stored block is nested too deeply"
  | room + 1 => do
    match ← getU8 with
    | 0 => return .value (← getConstant)
    | 1 => return .variable (← getRequiredString)
    | 2 =>
      let operator ← getOperator
      let left ← getExpression room
      let right ← getExpression room
      return .binary operator left right
    | 3 =>
      let operator ← getOperator
      let operand ← getExpression room
      return .unary operator operand
    | _ => fail "unknown expression in a stored block"

def getNode (room : Nat) (block : Reader (List Command)) : Reader Argument := do
  let kind ← getU8
  let flag ← getU8
  if flag > 1 then
    fail "invalid argument flag in a stored block"
  else
    match kind with
    | 0 => return .value (flag == 1) (← getConstant)
    | 1 => return .expression (flag == 1) (← getExpression room)
    | 2 =>
      match ← getExpression room with
      | .variable name => return .lookup (flag == 1) name
      | _ => fail "a stored ? lookup is not a name"
    | 3 => return .unoLiteral (flag == 1) (← getRequiredString)
    | 4 => return .commandList (flag == 1) (← block)
    | 5 => return .advancedList (flag == 1) (← block)
    | _ => fail "unknown argument kind in a stored block"

def getCommand (node : Reader Argument) : Reader Command := do
  let path ← getString
  let name ← getRequiredString
  let returnName ← getString
  let arguments ← getU8
  return .mk path name returnName (← many arguments node)

def getBlockIn : (room : Nat) → Reader (List Command)
  | 0 => fail "a stored block is nested too deeply"
  | room + 1 => do
    -- path, name, return name and argument count
    let count ← getCount 13
    many count (getCommand (getNode (room + 1) (getBlockIn room)))

def getBlock (depth : Nat) : Reader (List Command) :=
  getBlockIn (ruMaxSyntaxDepth + 1 - depth)

end Ussr.Ru
