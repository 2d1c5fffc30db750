import Ussr.Value

/-! Variable scopes: a table of globals and a stack of the active calls'
locals. A local that is not assigned yet hides the global of its name. -/

namespace Ussr

abbrev Locals := List (CString × Option Value)

structure Scope where
  vars : List (CString × Value)
  locals : List Locals
deriving DecidableEq

namespace Scope

def empty : Scope := ⟨[], []⟩

/-- `ussr_locals_push` -/
def localsPush (names : List CString) (scope : Scope) : Scope :=
  { scope with locals := (names.map fun name => (name, none)) :: scope.locals }

def localsPop (scope : Scope) : Scope :=
  { scope with locals := scope.locals.tail }

def localsDepth (scope : Scope) : Nat := scope.locals.length

/-- `while (ussr_locals_depth() > depth) ussr_locals_pop();` -/
def localsUnwind (depth : Nat) (scope : Scope) : Scope :=
  { scope with locals := scope.locals.drop (scope.locals.length - depth) }

/-- `ussr_scope_lookup` -/
def lookup (name : CString) (scope : Scope) : Option Value :=
  scope.vars.lookup name

def varsSet (name : CString) (value : Value) : List (CString × Value) → List (CString × Value)
  | [] => [(name, value)]
  | entry :: vars =>
    if entry.1 = name then (name, value) :: vars else entry :: varsSet name value vars

/-- `ussr_scope_set` -/
def set (name : CString) (value : Value) (scope : Scope) : Scope :=
  { scope with vars := varsSet name value scope.vars }

/-- `ussr_locals_for`: the slot of a name that is local to the innermost call. -/
def localsFor (name : CString) (scope : Scope) : Option (Locals × Nat) := do
  let top ← scope.locals.head?
  let slot ← top.findIdx? fun entry => entry.1 = name
  return (top, slot)

def localsStore (slot : Nat) (value : Value) (scope : Scope) : Scope :=
  match scope.locals with
  | [] => scope
  | top :: calls =>
    { scope with locals := top.modify slot (fun entry => (entry.1, some value)) :: calls }

def setVariable (name : Option CString) (value : Value) (scope : Scope) : Option Scope :=
  match name with
  | none => none
  | some name =>
    match scope.localsFor name with
    | some (_, slot) => some (scope.localsStore slot value)
    | none => some (scope.set name value)

def getVariable (name : Option CString) (scope : Scope) : Option Value :=
  match name with
  | none => none
  | some name =>
    match scope.localsFor name with
    | some (top, slot) => (top[slot]?).bind Prod.snd
    | none => scope.lookup name

def getVariableAt (name : Option CString) (place slot : Nat) (scope : Scope) : Option Value :=
  match name with
  | none => none
  | some key =>
    match place, scope.locals with
    | 1, top :: _ =>
      if slot < top.length then (top[slot]?).bind Prod.snd else scope.getVariable name
    | 2, _ => scope.lookup key
    | _, _ => scope.getVariable name

def setVariableAt (name : Option CString) (value : Value) (place slot : Nat) (scope : Scope) :
    Option Scope :=
  match name with
  | none => none
  | some key =>
    match place, scope.locals with
    | 1, top :: _ =>
      if slot < top.length then some (scope.localsStore slot value)
      else scope.setVariable name value
    | 2, _ => some (scope.set key value)
    | _, _ => scope.setVariable name value

/-- `sched_scope_clone`: the child also sees the innermost call's locals, as globals. -/
def clone (scope : Scope) : Scope :=
  let copied := scope.vars.foldl (fun clone entry => clone.set entry.1 entry.2) empty
  match scope.locals with
  | [] => copied
  | top :: _ => top.foldl (fun clone entry =>
      match entry.2 with
      | some value => clone.set entry.1 value
      | none => clone) copied

end Scope

end Ussr
