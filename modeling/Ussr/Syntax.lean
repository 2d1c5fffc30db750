import Ussr.Value

/-! Parsed programs: expressions, and commands whose arguments may be blocks of
commands. -/

namespace Ussr

inductive Operator where
  | add | sub | mul | div | mod
  | gt | lt | ge | le | eq | ne
  | logicalAnd | logicalOr
  | shiftLeft | shiftRight
  | bitwiseXor | bitwiseAnd | bitwiseOr
deriving DecidableEq

inductive Expression where
  | value (v : Value)
  | variable (name : CString)
  | binary (operator : Operator) (left right : Expression)
  | unary (operator : Operator) (operand : Expression)
deriving DecidableEq

mutual

/-- The flag says whether a `!` follows the argument. -/
inductive Argument where
  | value (assignment : Bool) (v : Value)
  | expression (assignment : Bool) (e : Expression)
  | commandList (assignment : Bool) (list : List Command)
  | advancedList (assignment : Bool) (list : List Command)
  | lookup (assignment : Bool) (name : CString)
  | unoLiteral (assignment : Bool) (text : CString)

inductive Command where
  | mk (path : Option CString) (name : CString) (returnName : Option CString)
    (arguments : List Argument)

end

namespace Command

def path : Command → Option CString
  | mk path _ _ _ => path

def name : Command → CString
  | mk _ name _ _ => name

def returnName : Command → Option CString
  | mk _ _ returnName _ => returnName

def arguments : Command → List Argument
  | mk _ _ _ arguments => arguments

end Command

namespace Argument

/-- The commands of a `[ ... ]` or `{ ... }` argument. -/
def list? : Argument → Option (List Command)
  | commandList _ list => some list
  | advancedList _ list => some list
  | _ => none

end Argument

/-- `Occurs inner list`: `inner` is `list` or a block somewhere inside it. -/
inductive Occurs : List Command → List Command → Prop where
  | here (list : List Command) : Occurs list list
  | inside {inner block list : List Command} {command : Command} {argument : Argument} :
    command ∈ list → argument ∈ command.arguments → argument.list? = some block →
      Occurs inner block → Occurs inner list

/-! Levels of syntax: an expression counts its operators' levels, a block inside
a block is one level deeper. -/

def Expression.nesting : Expression → Nat
  | .value _ => 1
  | .variable _ => 1
  | .binary _ left right => max left.nesting right.nesting + 1
  | .unary _ operand => operand.nesting + 1

mutual

def Argument.nesting : Argument → Nat
  | .expression _ e => e.nesting
  | .commandList _ list => max 1 (commandsNesting list) + 1
  | .advancedList _ list => max 1 (commandsNesting list) + 1
  | _ => 1

def argumentsNesting : List Argument → Nat
  | [] => 0
  | argument :: arguments => max argument.nesting (argumentsNesting arguments)

def Command.nesting : Command → Nat
  | .mk _ _ _ arguments => argumentsNesting arguments

def commandsNesting : List Command → Nat
  | [] => 0
  | command :: commands => max command.nesting (commandsNesting commands)

end

def blockNesting (list : List Command) : Nat :=
  max 1 (commandsNesting list)

theorem argumentsNesting_le {n : Nat} {arguments : List Argument} :
    argumentsNesting arguments ≤ n ↔ ∀ argument ∈ arguments, argument.nesting ≤ n := by
  induction arguments with
  | nil => simp [argumentsNesting]
  | cons argument arguments ih => rw [argumentsNesting, Nat.max_le, ih, List.forall_mem_cons]

theorem commandsNesting_le {n : Nat} {list : List Command} :
    commandsNesting list ≤ n ↔ ∀ command ∈ list, command.nesting ≤ n := by
  induction list with
  | nil => simp [commandsNesting]
  | cons command list ih => rw [commandsNesting, Nat.max_le, ih, List.forall_mem_cons]

end Ussr
