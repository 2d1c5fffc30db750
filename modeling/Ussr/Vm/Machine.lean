import Ussr.Vm.Exec

/-! Runs of `vm_execute`. A machine is the running call of `vm_execute` on top
of the calls whose `try` or `eval` instruction waits for it; the last of these
runs the VM of the process. One step is one turn of the loop. -/

namespace Ussr

variable {W : Type}

inductive Status where
  | done | error | suspended
deriving DecidableEq

/-- A call of `vm_execute`: its VM, program and counter, and how many
instructions it has fetched. -/
structure Activation where
  vm : Vm
  program : Program
  quantum : Nat
  fetched : Nat

structure Machine (W : Type) where
  current : Activation
  callers : List (Activation × Entry)
  scope : Scope
  world : W
  sched : Sched

/-- The end of one turn: the run goes on, the outermost call returns, or an
access has left its bounds. -/
inductive Progress (W : Type) where
  | running (m : Machine W)
  | finished (status : Status) (m : Machine W)
  | fault (m : Machine W)

/-- The check at the head of the loop, on the counter before and after its
decrement; `none` where the call returns SUSPENDED. -/
def quantumCheck (quantum : Nat) : Option Nat :=
  if quantum ≠ 0 then
    if quantum = 0 then none else some (quantum - 1)
  else some quantum

def Signal.apply (vm : Vm) : Signal → Vm
  | .yield => { vm with yieldRequest := true }
  | .block register => { vm with resumeRegister := register, resumePending := false }

def applySignals (signals : List Signal) (vm : Vm) : Vm := signals.foldl Signal.apply vm

namespace Activation

def setVm (vm : Vm) (a : Activation) : Activation := { a with vm := vm }

def signal (signals : List Signal) (a : Activation) : Activation :=
  a.setVm (applySignals signals a.vm)

end Activation

namespace Machine

def signalCallers (signals : List Signal) :
    List (Activation × Entry) → List (Activation × Entry)
  | [] => []
  | [(a, entry)] => [(a.signal signals, entry)]
  | caller :: callers => caller :: signalCallers signals callers

def signal (signals : List Signal) (m : Machine W) : Machine W :=
  match m.callers with
  | [] => { m with current := m.current.signal signals }
  | callers => { m with callers := signalCallers signals callers }

/-- The value that a waiting instruction stores when the nested VM ends, with the
scope it leaves; `none` where the instruction fails. -/
def entryValue (program : Program) (entry : Entry) (status : Status) (scope : Scope) :
    Except Stop (Value × Scope) :=
  match entry with
  | .tryCall _ depth =>
    .ok (.integer (if status = .done then 0 else 1), scope.localsUnwind depth)
  | .evalCall _ immediate =>
    if status ≠ .done then .error .failed
    else
      match program.strings[immediate]? with
      | none => .error .fault
      | some name => .ok ((scope.getVariable name).getD .null, scope)

def entryRegister : Entry → Nat
  | .tryCall register _ => register
  | .evalCall register _ => register

/-- Ends the running call and completes the instruction that waits for it. A
caller whose instruction fails ends too. -/
def leave (status : Status) (m : Machine W) : Progress W :=
  go status m.current m.scope m.callers
where
  go (status : Status) (current : Activation) (scope : Scope) :
      List (Activation × Entry) → Progress W
    | [] => .finished status { m with current := current, callers := [], scope := scope }
    | (caller, entry) :: callers =>
      match entryValue caller.program entry status scope with
      | .error .failed => go .error caller scope callers
      | .error .fault => .fault { m with current := caller, callers := callers, scope := scope }
      | .ok (value, scope) =>
        match caller.vm.registers.write (entryRegister entry) value with
        | none => .fault { m with current := caller, callers := callers, scope := scope }
        | some registers =>
          .running { m with
            current := caller.setVm { caller.vm with registers := registers }
            callers := callers
            scope := scope }

def setVm (vm : Vm) (m : Machine W) : Machine W :=
  { m with current := m.current.setVm vm }

def state (m : Machine W) : State W := ⟨m.current.vm, m.scope, m.world, m.sched, []⟩

def withState (s : State W) (m : Machine W) : Machine W :=
  signal s.signals
    ⟨m.current.setVm s.vm, m.callers, s.scope, s.world, s.sched⟩

def absorb (m : Machine W) : Except Stop Next × State W → Progress W
  | (.ok .step, s) => .running (m.withState s)
  | (.ok .suspend, s) => (m.withState s).leave .suspended
  | (.ok (.enter entry program callee), s) =>
    .running { m.withState s with
      current := ⟨callee, program, 0, 0⟩
      callers := ((m.withState s).current, entry) :: (m.withState s).callers }
  | (.error .failed, s) => (m.withState s).leave .error
  | (.error .fault, s) => .fault (m.withState s)

/-- `vm->resume_pending`: the awaited value goes to the register of the blocked
instruction. -/
def resume (vm : Vm) : Option Vm :=
  if vm.resumePending then
    (vm.registers.write vm.resumeRegister vm.resumeValue).map fun registers =>
      { vm with registers := registers, resumePending := false, resumeValue := .null }
  else some vm

def fetch (m : Machine W) : Machine W :=
  { m with current := { m.current with
      vm := { m.current.vm with ip := m.current.vm.ip + 1 }
      fetched := m.current.fetched + 1 } }

def execute (host : Host W) (ins : Instruction) (m : Machine W) : Progress W :=
  m.fetch.absorb (exec host m.current.program ins m.fetch.state)

/-- `++vm->steps` -/
def countStep (vm : Vm) : Vm := { vm with steps := vm.steps + 1 }

def run (host : Host W) (m : Machine W) : Progress W :=
  match resume m.current.vm with
  | none => .fault m
  | some vm =>
    match m.current.program.code[vm.ip]? with
    | none => (m.setVm vm).leave .error
    | some ins =>
      if (countStep vm).steps > vmMaxSteps then (m.setVm (countStep vm)).leave .error
      else execute host ins (m.setVm (countStep vm))

def turn (host : Host W) (m : Machine W) : Progress W :=
  if m.current.vm.yieldRequest then
    (m.setVm { m.current.vm with yieldRequest := false }).leave .suspended
  else run host m

def step (host : Host W) (m : Machine W) : Progress W :=
  if m.current.vm.running then
    match quantumCheck m.current.quantum with
    | none => m.leave .suspended
    | some quantum => turn host { m with current := { m.current with quantum := quantum } }
  else m.leave .done

def enterAt (program : Program) (index : Nat) (vm : Vm) (scope : Scope) :
    Except Stop (Vm × Scope) :=
  match program.functions[index]? with
  | none => .error .failed
  | some function =>
    if function.parameters.length ≠ 2 then .error .failed
    else if program.code.length = 0 then .error .failed
    else do
      let (vm, scope) ← vmCall program 0 2 vmReturnReg index
        { vm with ip := program.code.length - 1 } scope
      return ({ vm with entryFunction := none }, scope)

/-- `vm_execute` up to its loop: a fresh script calls its entry function first. -/
def enter (program : Program) (vm : Vm) (scope : Scope) : Except Stop (Vm × Scope) :=
  match vm.entryFunction with
  | none => .ok (vm, scope)
  | some index => enterAt program index vm scope

/-- A call `vm_execute(vm, program, quantum)`. -/
def start (program : Program) (quantum : Nat) (vm : Vm) (scope : Scope) (world : W)
    (sched : Sched) : Progress W :=
  match enter program vm scope with
  | .ok (vm, scope) => .running ⟨⟨vm, program, quantum, 0⟩, [], scope, world, sched⟩
  | .error .failed => .finished .error ⟨⟨vm, program, quantum, 0⟩, [], scope, world, sched⟩
  | .error .fault => .fault ⟨⟨vm, program, quantum, 0⟩, [], scope, world, sched⟩

inductive Reaches (host : Host W) : Progress W → Progress W → Prop where
  | refl (p : Progress W) : Reaches host p p
  | step {p : Progress W} {m : Machine W} :
    Reaches host p (.running m) → Reaches host p (m.step host)

end Machine

namespace Progress

def machine : Progress W → Machine W
  | running m => m
  | finished _ m => m
  | fault m => m

end Progress

end Ussr
