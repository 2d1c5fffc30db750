import Ussr.Library.Action
import Ussr.Program
import Ussr.Scope

/-! The state of a virtual machine and its calls. An access outside the 32
registers or outside a pool is a fault. -/

namespace Ussr

abbrev vmRegisterCount : Nat := bcMaxRegs
abbrev vmReturnReg : Nat := bcReturnReg
abbrev vmMaxCalls : Nat := 1024
abbrev vmMaxSteps : Nat := 2000000000

abbrev Registers := Vector Value vmRegisterCount

namespace Registers

def empty : Registers := Vector.replicate vmRegisterCount .null

def write (i : Nat) (v : Value) (registers : Registers) : Option Registers :=
  if h : i < vmRegisterCount then some (registers.set i v) else none

theorem write_eq_some {i : Nat} (h : i < vmRegisterCount) (v : Value) (registers : Registers) :
    write i v registers = some (registers.set i v) := dif_pos h

/-- `vm_values_from_registers`, which checks its bounds. -/
def values (base count : Nat) (registers : Registers) : Option (List Value) :=
  if base + count > vmRegisterCount then none
  else some ((registers.toList.drop base).take count)

end Registers

structure Frame where
  returnIp : Nat
  returnRegister : Nat
  functionIndex : Nat
  savedRegisters : Registers
deriving DecidableEq

structure Vm where
  registers : Registers
  ip : Nat
  running : Bool
  exitCode : Int
  steps : Nat
  chainActive : Bool
  chainBuffer : Option CString
  entryFunction : Option Nat
  /-- Innermost call first. -/
  frames : List Frame
  yieldRequest : Bool
  nested : Bool
  resumePending : Bool
  resumeRegister : Nat
  resumeValue : Value
deriving DecidableEq

def vmInit : Vm where
  registers := Registers.empty
  ip := 0
  running := false
  exitCode := 0
  steps := 0
  chainActive := false
  chainBuffer := none
  entryFunction := none
  frames := []
  yieldRequest := false
  nested := false
  resumePending := false
  resumeRegister := 0
  resumeValue := .null

def vmPushFrame (function : Function) (returnRegister functionIndex : Nat) (vm : Vm)
    (scope : Scope) : Except Stop (Vm × Scope) :=
  if vm.frames.length ≥ vmMaxCalls then .error .failed
  else
    .ok ({ vm with
        registers := Registers.empty
        frames := ⟨vm.ip, returnRegister, functionIndex, vm.registers⟩ :: vm.frames },
      scope.localsPush function.locals)

/-- Stores the arguments found in the saved registers from `base` on. -/
def bindParameters (saved : Registers) : (base : Nat) → List CString → Scope → Except Stop Scope
  | _, [], scope => .ok scope
  | base, name :: names, scope =>
    match saved[base]? with
    | none => .error .fault
    | some argument =>
      match scope.setVariable (some name) argument with
      | none => .error .failed
      | some scope => bindParameters saved (base + 1) names scope

def vmCall (program : Program) (a b c functionIndex : Nat) (vm : Vm) (scope : Scope) :
    Except Stop (Vm × Scope) :=
  match program.functions[functionIndex]? with
  | none => .error .failed
  | some function =>
    if b ≠ function.parameters.length then .error .failed
    else if a + b > vmReturnReg then .error .failed
    else do
      let (called, locals) ← vmPushFrame function c functionIndex vm scope
      let scope ← bindParameters vm.registers a function.parameters locals
      return ({ called with ip := function.entry.toNat }, scope)

def vmReturn (program : Program) (vm : Vm) (scope : Scope) : Except Stop (Vm × Scope) :=
  match vm.frames with
  | [] => .error .failed
  | frame :: frames =>
    match program.functions[frame.functionIndex]? with
    | none => .error .failed
    | some function =>
      let result := (scope.getVariable function.returnName).getD .null
      match Registers.write frame.returnRegister result frame.savedRegisters with
      | none => .error .fault
      | some registers =>
        .ok ({ vm with registers := registers, ip := frame.returnIp, frames := frames },
          scope.localsPop)

def loadArguments : (i : Nat) → List Value → Registers → Except Stop Registers
  | _, [], registers => .ok registers
  | i, value :: values, registers =>
    match Registers.write i value registers with
    | none => .error .fault
    | some registers => loadArguments (i + 1) values registers

def vmSpawnCall (program : Program) (functionIndex : Nat) (args : List Value) (vm : Vm)
    (scope : Scope) : Except Stop (Vm × Scope) :=
  match program.functions[functionIndex]? with
  | none => .error .failed
  | some function =>
    if function.parameters.length ≠ args.length then .error .failed
    else if program.code.length = 0 then .error .failed
    else do
      let registers ← loadArguments 0 args vm.registers
      vmCall program 0 (args.length % 256) vmReturnReg functionIndex
        { vm with registers := registers, ip := program.code.length - 1 } scope

end Ussr
