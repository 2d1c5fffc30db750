import Ussr.Sched.Model
import Ussr.Vm.Operators

/-! What an instruction acts on, and what the VM asks of the rest of the
interpreter: the heap, the shared hash, builtins, files, children and the clock.
An operation that can fail may still have changed the world. -/

namespace Ussr

structure Host (W : Type) extends Arithmetic W where
  hashGet : CString → W → Option Value
  hashSet : CString → Value → W → Option Unit × W
  unoDecode : CString → W → Option Value × W
  vectorGet : (vector index : Nat) → W → Option Value
  vectorSet : (vector index : Nat) → Value → W → Option Unit × W
  structGetField : (ref : Nat) → CString → W → Option Value
  structTrySetField : (ref : Nat) → CString → Value → W → Option Unit × W
  random64 : W → BitVec 64 × W
  seed64 : BitVec 64 → W → W
  time : W → BitVec 64
  nowMs : W → Nat
  realToLong : BitVec 64 → Option Int
  chdir : CString → W → Option Unit × W
  chainWriteFile : (text filename : CString) → W → Option Unit × W
  printValue : Value → W → W
  scanExecute : CString → Site → Scope → W → Option Unit × Scope × W
  templateExecute : CString → List Value → W → Option Unit × W
  externalExecute : CString → List Value → W → Option Value × W
  externalExecuteIo : CString → List Value → Option CString → W → Option (CString × Value) × W
  externalSpawn : CString → List Value → W → Option Nat × W
  executeCommand : CString → Option CString → List Argument → Scope → W → Int × Scope × W
  oopDispatch : CString → Option CString → List Argument → Scope → W → (Int × Value) × Scope × W
  /-- Parses and compiles the text given to `eval`. -/
  compileText : CString → W → Option Program × W
  /-- `vm_do_load` up to its choice of the entry function, with a fresh empty vector. -/
  loadProgram : List Value → Option Site → W → Option (Program × Nat × Value) × W
  /-- The builtins routed through the scheduler that neither block nor spawn: `gc`,
  `process`, sockets, TLS and the windows. The inner `none`: not handled. -/
  nativeDispatch : CString → List Value → Option Site → W → Option (Option Value) × W

def bareHost : Host Unit where
  vectorLength _ _ := 0
  btreeCount _ _ := 0
  real _ _ _ := 0
  struct _ _ _ _ := none
  hashGet _ _ := none
  hashSet _ _ w := (some (), w)
  unoDecode _ w := (none, w)
  vectorGet _ _ _ := none
  vectorSet _ _ _ w := (none, w)
  structGetField _ _ _ := none
  structTrySetField _ _ _ w := (none, w)
  random64 w := (0, w)
  seed64 _ w := w
  time _ := 0
  nowMs _ := 0
  realToLong _ := none
  chdir _ w := (none, w)
  chainWriteFile _ _ w := (none, w)
  printValue _ w := w
  scanExecute _ _ scope w := (none, scope, w)
  templateExecute _ _ w := (none, w)
  externalExecute _ _ w := (none, w)
  externalExecuteIo _ _ _ w := (none, w)
  externalSpawn _ _ w := (none, w)
  executeCommand _ _ _ scope w := (-1, scope, w)
  oopDispatch _ _ _ scope w := ((0, .null), scope, w)
  compileText _ w := (none, w)
  loadProgram _ _ w := (none, w)
  nativeDispatch _ _ _ w := (some none, w)

/-- The state an instruction runs in. The signals are for the VM of the current
process, which need not be the one that runs. -/
structure State (W : Type) where
  vm : Vm
  scope : Scope
  world : W
  sched : Sched
  signals : List Signal

namespace State

variable {W α : Type}

def readRegister (i : Nat) : Action (State W) Value := fun s =>
  match s.vm.registers[i]? with
  | some v => (.ok v, s)
  | none => (.error .fault, s)

def writeRegister (i : Nat) (v : Value) : Action (State W) Unit := fun s =>
  match s.vm.registers.write i v with
  | some registers => (.ok (), { s with vm := { s.vm with registers := registers } })
  | none => (.error .fault, s)

def modifyVm (f : Vm → Vm) : Action (State W) Unit :=
  Action.modify fun s => { s with vm := f s.vm }

/-- `program->strings[i]`; the entry may be absent. -/
def stringAt (program : Program) (i : Nat) : Action (State W) (Option CString) :=
  Action.access program.strings[i]?

def nameAt (program : Program) (i : Nat) : Action (State W) CString := do
  Action.access (← stringAt program i)

def perform (f : W → Option α × W) : Action (State W) α := fun s =>
  match f s.world with
  | (some a, w) => (.ok a, { s with world := w })
  | (none, w) => (.error .failed, { s with world := w })

def query (f : W → α) : Action (State W) α := fun s => (.ok (f s.world), s)

def transfer (f : Vm → Scope → Except Stop (Vm × Scope)) : Action (State W) Unit := fun s =>
  match f s.vm s.scope with
  | .ok (vm, scope) => (.ok (), { s with vm := vm, scope := scope })
  | .error e => (.error e, s)

def setVariable (f : Scope → Option Scope) : Action (State W) Unit := fun s =>
  match f s.scope with
  | some scope => (.ok (), { s with scope := scope })
  | none => (.error .failed, s)

def signal (signal : Signal) : Action (State W) Unit :=
  Action.modify fun s =>
    if s.sched.current.isSome then { s with signals := s.signals ++ [signal] } else s

end State

end Ussr
