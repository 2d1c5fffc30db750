import Ussr.Vm.Host

/-! What one instruction does, as the switch of `vm_execute` has it. The
instruction pointer already stands behind the instruction. -/

namespace Ussr
open State

variable {W : Type}

inductive Entry where
  | tryCall (register depth : Nat)
  | evalCall (register immediate : Nat)
deriving DecidableEq

inductive Next where
  | step
  | suspend
  | enter (entry : Entry) (program : Program) (callee : Vm)

def bisectSite (sites : List Site) (instruction : Nat) : (fuel low high : Nat) → Option Site
  | 0, _, _ => none
  | fuel + 1, low, high =>
    if low < high then
      let middle := low + (high - low) / 2
      match sites[middle]? with
      | none => none
      | some site =>
        if site.instruction.toNat = instruction then some site
        else if site.instruction.toNat < instruction then
          bisectSite sites instruction fuel (middle + 1) high
        else bisectSite sites instruction fuel low middle
    else none

/-- `vm_find_oop_site` and `vm_find_scan_site` -/
def vmFindSite (sites : List Site) (instruction : Nat) : Option Site :=
  match bisectSite sites instruction sites.length 0 sites.length with
  | some site => some site
  | none => sites.find? fun site => site.instruction.toNat = instruction

inductive Dispatched where
  | unhandled
  | handled (v : Value)
  | blocked

def schedArgName (values : List Value) (index : Nat) (site : Option Site) : Option CString := do
  let fromSource : Option CString := do
    match (← site).arguments[index]? with
    | some (.expression _ (.variable name)) => some name
    | _ => none
  let name ←
    match values[index]? with
    | some (.string s) => if s.bytes = [] then fromSource else some s
    | _ => fromSource
  guard (name.bytes.length < 64)
  return name

def schedArgInteger (host : Host W) (values : List Value) (index : Nat) : Int :=
  match values[index]? with
  | some (.integer n) => n.toInt
  | some (.real x) => (host.realToLong x).getD (-1)
  | _ => -1

def functionIndex (program : Program) (name : CString) : Option Nat :=
  program.functions.findIdx? fun function => function.name = name

def spawn (program : Program) (functionIndex : Nat) (args : List Value) (forkScope : Bool) :
    Action (State W) Value := fun s =>
  let scope := if forkScope then s.scope.clone else Scope.empty
  match s.sched.spawnFunc program functionIndex args scope with
  | (.ok pid, sched) => (.ok (.integer (BitVec.ofNat 64 pid)), { s with sched := sched })
  | (.error e, sched) => (.error e, { s with sched := sched })

def blockCurrent (kind : BlockKind) (waitPid token register : Nat) : Action (State W) Unit := do
  Action.modify fun s => { s with sched := s.sched.blockCurrent kind waitPid token }
  signal (.block register)

def register (add : EventQueue → Nat × EventQueue) : Action (State W) Nat := fun s =>
  (.ok (add s.sched.events).1,
    { s with sched := { s.sched with events := (add s.sched.events).2 } })

def schedDoAsync (values : List Value) (site : Option Site) : Action (State W) Dispatched := do
  Action.require (1 ≤ values.length)
  let name ← Action.some? (schedArgName values 0 site)
  let s ← Action.get
  let proc ← Action.some? s.sched.currentProc
  let index ← Action.some? (functionIndex proc.program name)
  return .handled (← spawn proc.program index values.tail true)

def schedDoAwait (host : Host W) (values : List Value) (a : Nat) :
    Action (State W) Dispatched := do
  Action.require (values.length = 1)
  let pid := schedArgInteger host values 0
  Action.require (0 < pid)
  let s ← Action.get
  let target ← Action.some? (s.sched.find pid.toNat)
  Action.require (s.sched.current ≠ some target.pid)
  if target.state = .zombie then
    return .handled target.result
  else
    blockCurrent .await pid.toNat 0 a
    return .blocked

def schedDoSleep (host : Host W) (values : List Value) (a : Nat) :
    Action (State W) Dispatched := do
  Action.require (values.length = 1)
  let ms := schedArgInteger host values 0
  let s ← Action.get
  let token ← register
    (EventQueue.addTimer (s.sched.current.getD 0) (host.nowMs s.world + ms.toNat))
  blockCurrent .timer 0 token a
  return .blocked

def schedDoWaitFd (host : Host W) (values : List Value) (write : Bool) (a : Nat) :
    Action (State W) Dispatched := do
  Action.require (values.length = 1)
  let fd := schedArgInteger host values 0
  Action.require (1 ≤ fd ∧ fd ≤ 2147483647)
  let s ← Action.get
  let pid ← Action.some? s.sched.current
  let token ← register (EventQueue.addFd pid fd.toNat write)
  blockCurrent .socket 0 token a
  return .blocked

def schedBlockOnChild (child a : Nat) : Action (State W) Unit := do
  let s ← Action.get
  let pid ← Action.some? s.sched.current
  let token ← register (EventQueue.addChild pid child)
  blockCurrent .child 0 token a

def native (host : Host W) (name : CString) (values : List Value) (site : Option Site) :
    Action (State W) Dispatched := do
  match ← perform (host.nativeDispatch name values site) with
  | some v => return .handled v
  | none => return .unhandled

def vmDoLoad (host : Host W) (values : List Value) (site : Option Site) :
    Action (State W) Dispatched := do
  let (program, index, vector) ← perform (host.loadProgram values site)
  let function ← Action.some? program.functions[index]?
  match function.parameters.length with
  | 0 => return .handled (← spawn program index [] false)
  | 2 => return .handled (← spawn program index [.integer 0, vector] false)
  | _ => Action.fail

/-- `ussr_sched_dispatch`, with `load` in front. -/
def schedDispatch (host : Host W) (name : CString) (values : List Value) (site : Option Site)
    (a : Nat) : Action (State W) Dispatched :=
  if name = .lit "load" then vmDoLoad host values site
  else if name = .lit "async" then schedDoAsync values site
  else if name = .lit "await" then schedDoAwait host values a
  else if name = .lit "sleep" then schedDoSleep host values a
  else if name = .lit "yield" then do
    signal .yield
    return .handled (.integer 0)
  else if name = .lit "wait_readable" then schedDoWaitFd host values false a
  else if name = .lit "wait_writable" then schedDoWaitFd host values true a
  else native host name values site

def hasPrefix (start : String) (name : CString) : Bool :=
  (CString.lit start).bytes.isPrefixOf name.bytes

def isSchedName (name : CString) : Bool :=
  name ∈ [CString.lit "load", .lit "async", .lit "await", .lit "sleep", .lit "yield", .lit "gc",
    .lit "process", .lit "wait_readable", .lit "wait_writable"] ||
  hasPrefix "socket_" name || hasPrefix "tls_" name || hasPrefix "petersburg_" name

/-- `byte`, `len` and `slice` on a string, `getf`, `setf`, `at` and `len` on
objects, in place; `none` where the general path has to report. -/
def oopFast (host : Host W) (name : CString) (count : Nat) (registers : Registers) (w : W) :
    Option Value × W :=
  match registers[0] with
  | .string text =>
    let value :=
      match registers[1], registers[2] with
      | .integer i, second =>
        if count = 2 ∧ name = .lit "byte" ∧ 0 ≤ i.toInt ∧ i.toInt < text.bytes.length then
          (text.bytes[i.toNat]?).map fun byte => .integer (BitVec.ofNat 64 byte.toNat)
        else if count = 1 ∧ name = .lit "len" then
          some (.integer (BitVec.ofNat 64 text.bytes.length))
        else
          match second with
          | .integer n =>
            if count = 3 ∧ name = .lit "slice" ∧ 0 ≤ i.toInt ∧ 0 ≤ n.toInt ∧
                i.toInt ≤ 2 ^ 63 - 1 - n.toInt ∧ i.toInt + n.toInt ≤ text.bytes.length then
              some (.string (.ofBytes ((text.bytes.drop i.toNat).take n.toNat)))
            else none
          | _ => none
      | _, _ =>
        if count = 1 ∧ name = .lit "len" then
          some (.integer (BitVec.ofNat 64 text.bytes.length))
        else none
    (value, w)
  | .instance_ ref =>
    match registers[1] with
    | .string field =>
      if count = 2 ∧ name = .lit "getf" then (host.structGetField ref field w, w)
      else if count = 3 ∧ name = .lit "setf" then
        let (done, w) := host.structTrySetField ref field registers[2] w
        (done.map fun _ => .null, w)
      else (none, w)
    | _ => (none, w)
  | .vector ref =>
    if count = 1 ∧ name = .lit "len" then
      (some (.integer (BitVec.ofNat 64 (host.vectorLength ref w))), w)
    else
      match registers[1] with
      | .integer i =>
        if count = 2 ∧ name = .lit "at" ∧ 0 ≤ i.toInt then (host.vectorGet ref i.toNat w, w)
        else (none, w)
      | _ => (none, w)
  | _ => (none, w)

def assignmentOf (site : Option Site) (i : Nat) : Bool :=
  match site.bind fun site => site.arguments[i]? with
  | some (.value assignment _) | some (.expression assignment _) | some (.lookup assignment _)
  | some (.unoLiteral assignment _) | some (.commandList assignment _)
  | some (.advancedList assignment _) => assignment
  | none => false

/-- Register `i` as the `i`-th argument, or the block written in its place. -/
def oopArgument (site : Option Site) (registers : Registers) (i : Nat) : Option Argument :=
  match site.bind fun site => site.arguments[i]? with
  | some (.commandList assignment list) => some (.commandList assignment list)
  | _ => (registers[i]?).map (.value (assignmentOf site i))

def oopArguments (site : Option Site) (registers : Registers) :
    (i count : Nat) → Option (List Argument)
  | _, 0 => some []
  | i, count + 1 => do
    return (← oopArgument site registers i) :: (← oopArguments site registers (i + 1) count)

def tryName : List Argument → Option CString
  | .value _ (.string name) :: _ => some name
  | _ => none

def argumentValues : List Argument → Option (List Value)
  | [] => some []
  | .value _ v :: arguments => (argumentValues arguments).map (v :: ·)
  | _ => none

/-- The call of the tried function in the nested VM; `none` where it fails. -/
def enterTry (program : Program) (index count : Nat) (nested : Vm) :
    Action (State W) (Option Vm) := fun s =>
  match vmCall program 0 count vmReturnReg index nested s.scope with
  | .ok (vm, scope) => (.ok (some vm), { s with scope := scope })
  | .error .failed => (.ok none, s)
  | .error .fault => (.error .fault, s)

/-- `vm_try_call` up to the run of the nested VM: the VM to run, or the value 1
where the call itself failed. -/
def vmTryCall (program : Program) (arguments : List Argument) : Action (State W) (Option Vm) := do
  let name ← Action.some? (tryName arguments)
  let index ← Action.some? (functionIndex program name)
  let function ← Action.some? program.functions[index]?
  let count := arguments.length - 1
  Action.require (function.parameters.length = count ∧ count ≤ vmReturnReg ∧
    program.code.length ≠ 0)
  let values ← Action.some? (argumentValues arguments.tail)
  let registers ← Action.lift (loadArguments 0 values Registers.empty)
  enterTry program index count { vmInit with
    running := true
    nested := true
    registers := registers
    ip := program.code.length - 1 }

def executeCommand (host : Host W) (name : CString) (returnName : Option CString)
    (arguments : List Argument) : Action (State W) Int := fun s =>
  let (status, scope, w) := host.executeCommand name returnName arguments s.scope s.world
  (.ok status, { s with scope := scope, world := w })

def oopDispatch (host : Host W) (name : CString) (returnName : Option CString)
    (arguments : List Argument) : Action (State W) (Int × Value) := fun s =>
  let (result, scope, w) := host.oopDispatch name returnName arguments s.scope s.world
  (.ok result, { s with scope := scope, world := w })

def storedValue (status : Int) (site : Option Site) : Action (State W) Value := fun s =>
  match status, site with
  | 0, some site => (.ok ((s.scope.getVariable site.returnName).getD .null), s)
  | _, _ => (.ok .null, s)

def oopExternal (host : Host W) (ins : Instruction) (name : CString) (site : Option Site) :
    Action (State W) Next := do
  Action.require (∀ source, site = some source → source.arguments.length = ins.rb)
  let s ← Action.get
  let values ← Action.some? (s.vm.registers.values 0 ins.rb)
  if s.vm.chainActive ∨ ins.c ≠ 0 then
    let (output, value) ← perform (host.externalExecuteIo name values
      (if s.vm.chainActive then s.vm.chainBuffer else none))
    modifyVm fun vm => { vm with chainBuffer := some output }
    writeRegister ins.ra value
    return .step
  else if s.sched.current.isSome ∧ ¬ s.vm.nested then
    let child ← perform (host.externalSpawn name values)
    schedBlockOnChild child ins.ra
    return .suspend
  else
    writeRegister ins.ra (← perform (host.externalExecute name values))
    return .step

def oopBuiltin (host : Host W) (program : Program) (ins : Instruction) (name : CString)
    (site : Option Site) (arguments : List Argument) : Action (State W) Next := do
  let returnName := site.bind Site.returnName
  if site.isSome ∧ name = .lit "@" then
    let status ← executeCommand host name returnName arguments
    Action.require (0 ≤ status)
    if status = 0 then
      oopExternal host ins name site
    else
      writeRegister ins.ra .null
      return .step
  else if name = .lit "try" then
    let s ← Action.get
    match ← vmTryCall program arguments with
    | some callee => return .enter (.tryCall ins.ra s.scope.localsDepth) program callee
    | none =>
      Action.modify fun t => { t with scope := t.scope.localsUnwind s.scope.localsDepth }
      writeRegister ins.ra (.integer 1)
      return .step
  else if name ∈ [CString.lit "file_exists", .lit "writefile", .lit "finv_sqrt"] then
    let status ← executeCommand host name returnName arguments
    Action.require (0 ≤ status)
    writeRegister ins.ra (← storedValue status site)
    return .step
  else
    let (status, value) ← oopDispatch host name returnName arguments
    Action.require (0 ≤ status)
    if status = 0 then
      oopExternal host ins name site
    else
      writeRegister ins.ra value
      return .step

def execOop (host : Host W) (program : Program) (ins : Instruction) : Action (State W) Next := do
  Action.require (ins.imm < program.strings.length ∧ ins.rb < vmReturnReg)
  let name ← nameAt program ins.imm
  let s ← Action.get
  match oopFast host name ins.rb s.vm.registers s.world with
  | (some value, w) =>
    Action.modify fun s => { s with world := w }
    writeRegister ins.ra value
    return .step
  | (none, w) =>
    Action.modify fun s => { s with world := w }
    let site := vmFindSite program.oopSites (s.vm.ip - 1)
    let arguments ← Action.access (oopArguments site s.vm.registers 0 ins.rb)
    if isSchedName name then
      let values ← Action.some? (s.vm.registers.values 0 ins.rb)
      match ← schedDispatch host name values site ins.ra with
      | .blocked => return .suspend
      | .handled value =>
        writeRegister ins.ra value
        return .step
      | .unhandled => oopBuiltin host program ins name site arguments
    else oopBuiltin host program ins name site arguments

def concatRegisters : (count : Nat) → Registers → Option CString
  | 0, _ => some (.ofBytes [])
  | count + 1, registers =>
    match concatRegisters count registers, registers[count]? with
    | some text, some (.string s) => some (.ofBytes (text.bytes ++ s.bytes))
    | _, _ => none

def execExternal (host : Host W) (program : Program) (ins : Instruction) :
    Action (State W) Next := do
  Action.require (ins.imm < program.strings.length ∧ ins.rb ≤ vmReturnReg)
  let s ← Action.get
  let args ← Action.some? (s.vm.registers.values 0 ins.rb)
  let name ← nameAt program ins.imm
  if s.sched.current.isSome then
    let child ← perform (host.externalSpawn name args)
    schedBlockOnChild child ins.ra
    return .suspend
  else
    writeRegister ins.ra (← perform (host.externalExecute name args))
    return .step

/-- The text in register 0, compiled for a nested VM. The string at the immediate
is read without a look at the count. -/
def execEval (host : Host W) (program : Program) (ins : Instruction) : Action (State W) Next := do
  Action.require (ins.ra < vmRegisterCount)
  let name ← stringAt program ins.imm
  Action.require (name.isSome)
  match ← readRegister 0 with
  | .string text =>
    let compiled ← perform (host.compileText text)
    return .enter (.evalCall ins.ra ins.imm) compiled { vmInit with running := true, nested := true }
  | _ => Action.fail

def execScan (host : Host W) (format : CString) (command : Site) : Action (State W) Unit := fun s =>
  match host.scanExecute format command s.scope s.world with
  | (some (), scope, w) => (.ok (), { s with scope := scope, world := w })
  | (none, scope, w) => (.error .failed, { s with scope := scope, world := w })

def exec (host : Host W) (program : Program) (ins : Instruction) : Action (State W) Next :=
  match ins.opcode with
  | .nop => pure .step
  | .loadConst => do
    Action.require (ins.ra < vmRegisterCount ∧ ins.imm < program.constants.length)
    writeRegister ins.ra (← Action.access program.constants[ins.imm]?)
    return .step
  | .loadVar => do
    Action.require (ins.ra < vmRegisterCount ∧ ins.imm < program.strings.length)
    let name ← stringAt program ins.imm
    let s ← Action.get
    writeRegister ins.ra ((s.scope.getVariableAt name ins.rb ins.rc).getD .null)
    return .step
  | .storeVar => do
    Action.require (ins.ra < vmRegisterCount ∧ ins.imm < program.strings.length)
    let name ← stringAt program ins.imm
    let value ← readRegister ins.ra
    setVariable (Scope.setVariableAt name value ins.rb ins.rc)
    return .step
  | .loadHash => do
    Action.require (ins.ra < vmRegisterCount ∧ ins.imm < program.strings.length)
    let name ← nameAt program ins.imm
    let value ← Action.some? (← query (host.hashGet name))
    writeRegister ins.ra value
    return .step
  | .storeHash => do
    Action.require (ins.ra < vmRegisterCount ∧ ins.imm < program.strings.length)
    let name ← nameAt program ins.imm
    let value ← readRegister ins.ra
    perform (host.hashSet name value)
    return .step
  | .decodeUno => do
    Action.require (ins.ra < vmRegisterCount ∧ ins.imm < program.strings.length)
    let text ← nameAt program ins.imm
    writeRegister ins.ra (← perform (host.unoDecode text))
    return .step
  | .get => do
    Action.require (ins.imm < program.strings.length ∧ ins.ra < vmRegisterCount)
    let name ← stringAt program ins.imm
    let s ← Action.get
    let value ← Action.some? (s.scope.getVariable name)
    writeRegister ins.ra value
    return .step
  | .vectorGet => do
    Action.require (ins.ra < vmRegisterCount ∧ ins.rb < vmRegisterCount ∧ ins.rc < vmRegisterCount)
    match ← readRegister ins.rb, ← readRegister ins.rc with
    | .vector ref, .integer i =>
      Action.require (0 ≤ i.toInt)
      let value ← Action.some? (← query (host.vectorGet ref i.toNat))
      writeRegister ins.ra value
      return .step
    | _, _ => Action.fail
  | .vectorSet => do
    Action.require (ins.ra < vmRegisterCount ∧ ins.rb < vmRegisterCount ∧ ins.rc < vmRegisterCount)
    match ← readRegister ins.ra, ← readRegister ins.rb with
    | .vector ref, .integer i =>
      Action.require (0 ≤ i.toInt)
      let value ← readRegister ins.rc
      perform (host.vectorSet ref i.toNat value)
      return .step
    | _, _ => Action.fail
  | .neg => do
    Action.require (ins.ra < vmRegisterCount ∧ ins.rb < vmRegisterCount)
    match ← readRegister ins.rb with
    | .integer n => writeRegister ins.ra (.integer (-n))
    | .real x => writeRegister ins.ra (.real (Real64.neg x))
    | _ => Action.fail
    return .step
  | .binary operation => do
    Action.require (ins.ra < vmRegisterCount ∧ ins.rb < vmRegisterCount ∧ ins.rc < vmRegisterCount)
    let left ← readRegister ins.rb
    let right ← readRegister ins.rc
    match fastBinary operation left right with
    | some value => writeRegister ins.ra value
    | none =>
      let (value, w) ← Action.some? (← query (vmBinary host.toArithmetic operation left right))
      Action.modify fun s => { s with world := w }
      writeRegister ins.ra value
    return .step
  | .jmp => do
    Action.require (ins.imm < program.code.length)
    modifyVm fun vm => { vm with ip := ins.imm }
    return .step
  | .jmpTrue => do
    Action.require (ins.imm < program.code.length ∧ ins.ra < vmRegisterCount)
    let value ← readRegister ins.ra
    if ← query fun w => vmTruthy host.toArithmetic w value then
      modifyVm fun vm => { vm with ip := ins.imm }
    return .step
  | .jmpFalse => do
    Action.require (ins.imm < program.code.length ∧ ins.ra < vmRegisterCount)
    let value ← readRegister ins.ra
    if !(← query fun w => vmTruthy host.toArithmetic w value) then
      modifyVm fun vm => { vm with ip := ins.imm }
    return .step
  | .random64 => do
    Action.require (ins.ra < vmRegisterCount)
    let n ← perform fun w => (some (host.random64 w).1, (host.random64 w).2)
    writeRegister ins.ra (.integer n)
    return .step
  | .seed64 => do
    Action.require (ins.ra < vmRegisterCount)
    match ← readRegister 0 with
    | .integer n =>
      Action.modify fun s => { s with world := host.seed64 n s.world }
      writeRegister ins.ra (.integer n)
      return .step
    | _ => Action.fail
  | .time => do
    Action.require (ins.ra < vmRegisterCount)
    writeRegister ins.ra (.integer (← query host.time))
    return .step
  | .chain => do
    modifyVm fun vm => { vm with chainActive := true }
    writeRegister 0 (.integer 0)
    return .step
  | .file => do
    match ← readRegister 0 with
    | .string filename =>
      let s ← Action.get
      Action.require (s.vm.chainActive)
      let text ← Action.some? s.vm.chainBuffer
      perform (host.chainWriteFile text filename)
      modifyVm fun vm => { vm with chainActive := false, chainBuffer := none }
      writeRegister 0 (.integer 0)
      return .step
    | _ => Action.fail
  | .cd => do
    match ← readRegister 0 with
    | .string path =>
      perform (host.chdir path)
      writeRegister 0 (.integer 0)
      return .step
    | _ => Action.fail
  | .scan => do
    let s ← Action.get
    let site := vmFindSite program.scanSites (s.vm.ip - 1)
    Action.require (ins.imm < program.strings.length ∧ ins.ra < vmRegisterCount)
    let command ← Action.some? site
    Action.require (ins.rb + 1 = command.arguments.length)
    let format ← Action.some? (← stringAt program ins.imm)
    execScan host format command
    writeRegister ins.ra (.boolean true)
    return .step
  | .template => do
    Action.require (ins.imm < program.strings.length ∧ ins.ra < vmRegisterCount ∧
      ins.rb ≤ bcReturnReg)
    let s ← Action.get
    let format ← Action.some? (← stringAt program ins.imm)
    perform (host.templateExecute format (s.vm.registers.toList.take ins.rb))
    writeRegister ins.ra (.boolean true)
    return .step
  | .set => do
    Action.require (ins.ra < vmRegisterCount ∧ ins.imm < program.strings.length)
    let name ← stringAt program ins.imm
    let value ← readRegister ins.ra
    setVariable (Scope.setVariable name value)
    return .step
  | .print => do
    Action.require (ins.ra < vmRegisterCount)
    let value ← readRegister ins.ra
    Action.modify fun s => { s with world := host.printValue value s.world }
    return .step
  | .concat => do
    Action.require (ins.ra < vmReturnReg ∧ ins.rc ≤ ins.ra)
    let s ← Action.get
    let text ← Action.some? (concatRegisters ins.rc s.vm.registers)
    writeRegister ins.ra (.string text)
    return .step
  | .call => do
    transfer (vmCall program ins.ra ins.rb ins.rc ins.imm)
    return .step
  | .ret => do
    transfer (vmReturn program)
    return .step
  | .return_ => do
    transfer (vmReturn program)
    return .step
  | .external => execExternal host program ins
  | .oop => execOop host program ins
  | .eval => execEval host program ins
  | .halt => do
    modifyVm fun vm => { vm with running := false, exitCode := 0 }
    return .step

end Ussr
