import Ussr.Ru.ProgramRoundTrip
import Ussr.Vm.ExecRule
import Ussr.Vm.Machine

/-! Which programs keep to their registers and pools. The loader checks most
operands; the register that `OOP` and `EXTERNAL` write, the register that `CALL`
returns to and the string of `EVAL` are checked by nobody. -/

namespace Ussr
open Action State

variable {W : Type}
variable {vm : Vm} {m : Machine W} {scope : Scope}

def OperandsOk (program : Program) (ins : Instruction) : Prop :=
  match ins.opcode with
  | .oop => ins.ra < vmRegisterCount
  | .external => ins.ra < vmRegisterCount
  | .call => ins.rc < vmRegisterCount
  | .eval => ins.ra < vmRegisterCount → ins.imm < program.strings.length
  | _ => True

def OperandsChecked (program : Program) : Prop :=
  ∀ ins ∈ program.code, Ru.operandError program ins = none

structure VmSafe (vm : Vm) : Prop where
  frames : ∀ frame ∈ vm.frames, frame.returnRegister < vmRegisterCount
  resume : vm.resumeRegister < vmRegisterCount

def SignalSafe : Signal → Prop
  | .yield => True
  | .block register => register < vmRegisterCount

structure StateSafe (s : State W) : Prop where
  vm : VmSafe s.vm
  signals : ∀ signal ∈ s.signals, SignalSafe signal

def EntrySafe (program : Program) : Entry → Prop
  | .tryCall register _ => register < vmRegisterCount
  | .evalCall register immediate =>
    register < vmRegisterCount ∧ immediate < program.strings.length

def NextSafe (program : Program) : Next → Prop
  | .step => True
  | .suspend => True
  | .enter entry _ callee => EntrySafe program entry ∧ VmSafe callee

def CallSafe : Except Stop (Vm × Scope) → Prop
  | .ok (vm, _) => VmSafe vm
  | .error e => e = .failed

theorem vmInit_safe : VmSafe vmInit := ⟨by simp [vmInit], by decide⟩

theorem VmSafe.of_eq {vm' : Vm} (h : VmSafe vm) (hframes : vm'.frames = vm.frames)
    (hresume : vm'.resumeRegister = vm.resumeRegister) : VmSafe vm' :=
  ⟨hframes ▸ h.frames, hresume ▸ h.resume⟩

theorem StateSafe.framed : Framed (StateSafe (W := W)) := by
  intro s s' hframe _ hsignals hs
  exact ⟨hs.vm.of_eq hframe.frames hframe.resumeRegister, by rw [hsignals]; exact hs.signals⟩

theorem StateSafe.withSched {s : State W} (hs : StateSafe s) (sched : Sched) :
    StateSafe { s with sched := sched } := ⟨hs.vm, hs.signals⟩

section

theorem vmCall_safe {program : Program} {a b c index : Nat}
    (hc : c < vmRegisterCount) (hvm : VmSafe vm) :
    CallSafe (vmCall program a b c index vm scope) := by
  rcases vmCall_cases program a b c index vm scope with hfail | ⟨ip, frame, scope', hreg, hcall⟩
  · rw [hfail]
    rfl
  · rw [hcall]
    refine ⟨fun other hother => ?_, hvm.resume⟩
    rcases List.mem_cons.mp hother with rfl | hold
    · rw [hreg]
      exact hc
    · exact hvm.frames other hold

theorem vmReturn_safe {program : Program} (hvm : VmSafe vm) :
    CallSafe (vmReturn program vm scope) := by
  unfold vmReturn
  cases hframes : vm.frames with
  | nil => rfl
  | cons frame frames =>
    dsimp only
    cases program.functions[frame.functionIndex]? with
    | none => rfl
    | some function =>
      have hreg := hvm.frames frame (hframes ▸ List.mem_cons_self)
      simp only [Registers.write_eq_some hreg]
      exact ⟨fun other hother => hvm.frames other (hframes ▸ List.mem_cons_of_mem _ hother),
        hvm.resume⟩

theorem TryVm.safe {callee : Vm} (h : TryVm callee) : VmSafe callee := by
  obtain ⟨registers, frame, ip, hreg, rfl⟩ := h
  refine ⟨fun other hother => ?_, vmInit_safe.resume⟩
  obtain rfl := List.mem_singleton.mp hother
  rw [hreg]
  decide

variable {F : Prop}

theorem keeps_transfer {f : Vm → Scope → Except Stop (Vm × Scope)}
    (h : ∀ vm scope, VmSafe vm → CallSafe (f vm scope)) :
    Keeps (StateSafe (W := W)) F (fun _ => True) (transfer f) := by
  intro s hs
  have hspec := h s.vm s.scope hs.vm
  unfold transfer
  cases hrun : f s.vm s.scope with
  | ok result =>
    rw [hrun] at hspec
    exact ⟨⟨hspec, hs.signals⟩, trivial⟩
  | error e =>
    rw [hrun] at hspec
    subst hspec
    exact hs

end

section

variable {F : Prop}

theorem keeps_signal {signal : Signal} (h : SignalSafe signal) :
    Keeps (StateSafe (W := W)) F (fun _ => True) (State.signal signal) := by
  refine Keeps.modify fun s hs => ?_
  split_ifs
  · refine ⟨hs.vm, fun sig hsig => ?_⟩
    rcases List.mem_append.mp hsig with hold | hnew
    · exact hs.signals sig hold
    · obtain rfl := List.mem_singleton.mp hnew
      exact h
  · exact hs

theorem keeps_spawn {program : Program} {index : Nat} {args : List Value} {forkScope : Bool}
    (h : args.length < vmRegisterCount) :
    Keeps (StateSafe (W := W)) F (fun _ => True) (spawn program index args forkScope) := by
  intro s hs
  unfold spawn
  dsimp only
  generalize (if forkScope = true then s.scope.clone else Scope.empty) = scope
  unfold Sched.spawnFunc
  cases program.functions[index]? with
  | none => exact hs.withSched _
  | some function =>
    dsimp only
    split_ifs
    · exact hs.withSched _
    have hspawn : vmSpawnCall program index args { vmInit with running := true } scope ≠
        .error .fault := vmSpawnCall_no_fault h
    cases hrun : vmSpawnCall program index args { vmInit with running := true } scope with
    | ok result => exact ⟨hs.withSched _, trivial⟩
    | error e =>
      cases e with
      | failed => exact hs.withSched _
      | fault => exact absurd hrun hspawn

theorem StateSafe.block {s : State W} (hs : StateSafe s) {a : Nat} (h : a < vmRegisterCount)
    (kind : BlockKind) (waitPid token : Nat) :
    StateSafe (blockCurrent kind waitPid token a s).2 :=
  (keeps_signal (F := False) (show SignalSafe (.block a) from h) _ (hs.withSched _)).1

end

section

variable {program : Program} {ins : Instruction}

theorem checked_name (hchecked : OperandsChecked program) (hins : ins ∈ program.code)
    (hname : namesString ins.opcode) : program.strings[ins.imm]? ≠ some none := by
  have herror := hchecked ins hins
  intro habsent
  simp only [namesString, List.mem_cons, List.not_mem_nil, or_false] at hname
  rcases hname with h | h | h | h | h <;> simp [Ru.operandError, h, habsent] at herror

theorem safe_hooks (host : Host W) (hins : ins ∈ program.code) (hok : OperandsOk program ins) :
    Hooks host program ins StateSafe StateSafe (fun _ => True)
      (fun entry callee => EntrySafe program entry ∧ VmSafe callee) (¬ OperandsChecked program) := by
  have hdestination : ins.opcode = .oop ∨ ins.opcode = .external → ins.ra < vmRegisterCount := by
    rintro (hop | hop)
    · simpa only [OperandsOk, hop] using hok
    · simpa only [OperandsOk, hop] using hok
  have heval : ins.opcode = .eval → ins.ra < vmRegisterCount →
      ins.imm < program.strings.length := by
    intro hop
    simpa only [OperandsOk, hop] using hok
  exact {
    framed := StateSafe.framed
    framedAfter := StateSafe.framed
    weaker := fun _ hs => hs
    absent := fun hname habsent hchecked => checked_name hchecked hins hname habsent
    destination := fun hop hout => absurd (hdestination hop) hout
    call := fun hop => by
      have hc : ins.rc < vmRegisterCount := by simpa only [OperandsOk, hop] using hok
      exact keeps_transfer fun _ _ hvm => vmCall_safe hc hvm
    ret := keeps_transfer fun _ _ hvm => vmReturn_safe hvm
    spawn := fun _ _ _ _ hargs => keeps_spawn hargs
    yield := (keeps_signal (show SignalSafe .yield from trivial)).strengthen fun _ _ hs => hs.1
    await := fun hop s pid target hs _ _ _ =>
      ⟨hs.block (hdestination (Or.inl hop)) _ _ _, trivial⟩
    wait := fun hop s kind add hs _ _ =>
      ⟨(hs.withSched _).block (hdestination hop) _ _ _, trivial⟩
    tryCall := fun hop _ callee hcallee => ⟨hdestination (Or.inl hop), hcallee.safe⟩
    evalString := fun hop hra hout => absurd (heval hop hra) hout
    evalCall := fun hop hra => ⟨⟨hra, heval hop hra⟩, vmInit_safe.of_eq rfl rfl⟩ }

/-- One instruction: it keeps the VM safe, and faults only in a program that has not been
through the loader. -/
theorem exec_keeps (host : Host W) (hins : ins ∈ program.code) (hok : OperandsOk program ins) :
    Keeps StateSafe (¬ OperandsChecked program) (NextSafe program) (exec host program ins) := by
  refine (safe_hooks host hins hok).exec.strengthen fun next s hnext => ⟨hnext.1, ?_⟩
  cases next with
  | step => trivial
  | suspend => trivial
  | enter entry callee_program callee => exact hnext.2

end

namespace Machine

structure Executes (m : Machine W) (ins : Instruction) : Prop where
  running : m.current.vm.running = true
  proceeds : m.current.vm.yieldRequest = false
  fetched : m.current.program.code[m.current.vm.ip]? = some ins
  steps : m.current.vm.steps < vmMaxSteps

structure Safe (m : Machine W) : Prop where
  current : VmSafe m.current.vm
  callers : ∀ caller ∈ m.callers, VmSafe caller.1.vm ∧ EntrySafe caller.1.program caller.2

def ProgressSafe : Progress W → Prop
  | .running m => m.Safe
  | .finished _ _ => True
  | .fault m => ¬ OperandsChecked m.current.program

inductive CheckedRun (host : Host W) : Progress W → Progress W → Prop where
  | refl (p : Progress W) : CheckedRun host p p
  | step {p : Progress W} {m : Machine W} : CheckedRun host p (.running m) →
    (∀ ins, m.Executes ins → OperandsOk m.current.program ins) →
      CheckedRun host p (m.step host)

theorem applySignals_safe {signals : List Signal} (h : ∀ signal ∈ signals, SignalSafe signal) (hvm : VmSafe vm) : VmSafe (applySignals signals vm) := by
  induction signals generalizing vm with
  | nil => exact hvm
  | cons signal signals ih =>
    refine ih (fun s hs => h s (List.mem_cons_of_mem _ hs)) ?_
    cases signal with
    | yield => exact hvm.of_eq rfl rfl
    | block register => exact ⟨hvm.frames, h _ List.mem_cons_self⟩

theorem signalCallers_safe {signals : List Signal} (h : ∀ signal ∈ signals, SignalSafe signal)
    {callers : List (Activation × Entry)}
    (hc : ∀ caller ∈ callers, VmSafe caller.1.vm ∧ EntrySafe caller.1.program caller.2) :
    ∀ caller ∈ signalCallers signals callers,
      VmSafe caller.1.vm ∧ EntrySafe caller.1.program caller.2 := by
  induction callers with
  | nil => simp [signalCallers]
  | cons first callers ih =>
    cases callers with
    | nil =>
      have hfirst := hc first List.mem_cons_self
      intro caller hcaller
      rw [signalCallers, List.mem_singleton] at hcaller
      subst hcaller
      exact ⟨applySignals_safe h hfirst.1, hfirst.2⟩
    | cons second callers =>
      intro caller hcaller
      rw [signalCallers] at hcaller
      rcases List.mem_cons.mp hcaller with rfl | hrest
      · exact hc _ List.mem_cons_self
      · exact ih (fun c hmem => hc c (List.mem_cons_of_mem _ hmem)) caller hrest
      · simp

theorem Safe.signal (hm : m.Safe) {signals : List Signal}
    (h : ∀ signal ∈ signals, SignalSafe signal) : (m.signal signals).Safe := by
  obtain ⟨current, callers, scope, world, sched⟩ := m
  cases callers with
  | nil => exact ⟨applySignals_safe h hm.current, by simp [Machine.signal]⟩
  | cons caller callers => exact ⟨hm.current, signalCallers_safe h hm.callers⟩

theorem leave_go_safe (status : Status) (current : Activation) (scope : Scope)
    (callers : List (Activation × Entry))
    (hc : ∀ caller ∈ callers, VmSafe caller.1.vm ∧ EntrySafe caller.1.program caller.2) :
    ProgressSafe (leave.go m status current scope callers) := by
  induction callers generalizing status current scope with
  | nil => trivial
  | cons caller callers ih =>
    obtain ⟨a, entry⟩ := caller
    have hcaller := hc _ List.mem_cons_self
    have hrest := fun c hmem => hc c (List.mem_cons_of_mem (a, entry) hmem)
    have hregister : entryRegister entry < vmRegisterCount := by
      cases entry with
      | tryCall register depth => exact hcaller.2
      | evalCall register immediate => exact hcaller.2.1
    have hvalue : entryValue a.program entry status scope ≠ .error .fault := by
      cases entry with
      | tryCall register depth => simp [entryValue]
      | evalCall register immediate =>
        have himm := hcaller.2.2
        simp only [entryValue, List.getElem?_eq_getElem himm]
        split_ifs <;> simp
    unfold leave.go
    cases hrun : entryValue a.program entry status scope with
    | error e =>
      cases e with
      | failed => exact ih .error a scope hrest
      | fault => exact absurd hrun hvalue
    | ok result =>
      dsimp only
      rw [Registers.write_eq_some hregister]
      exact ⟨hcaller.1.of_eq rfl rfl, hrest⟩

theorem Safe.leave (hm : m.Safe) (status : Status) :
    ProgressSafe (m.leave status) :=
  leave_go_safe status m.current m.scope m.callers hm.callers

theorem Safe.setVm (hm : m.Safe) (h : VmSafe vm) : (m.setVm vm).Safe :=
  ⟨h, hm.callers⟩

theorem Safe.withState (hm : m.Safe) {s : State W} (hs : StateSafe s) :
    (m.withState s).Safe :=
  Safe.signal (m := ⟨m.current.setVm s.vm, m.callers, s.scope, s.world, s.sched⟩)
    ⟨hs.vm, hm.callers⟩ hs.signals

theorem withState_program (m : Machine W) (s : State W) :
    (m.withState s).current.program = m.current.program := by
  obtain ⟨current, callers, scope, world, sched⟩ := m
  cases callers <;> rfl

theorem absorb_safe (hm : m.Safe) {r : Except Stop Next × State W}
    (h : Meets (fun next s => StateSafe s ∧ NextSafe m.current.program next) StateSafe
      (¬ OperandsChecked m.current.program) r) : ProgressSafe (m.absorb r) := by
  obtain ⟨result, s⟩ := r
  cases result with
  | error e =>
    cases e with
    | failed => exact (hm.withState h).leave .error
    | fault =>
      show ¬ OperandsChecked (m.withState s).current.program
      rw [withState_program]
      exact h
  | ok next =>
    cases next with
    | step => exact hm.withState h.1
    | suspend => exact (hm.withState h.1).leave .suspended
    | enter entry program callee =>
      have hsafe := hm.withState h.1
      refine ⟨h.2.2, fun caller hcaller => ?_⟩
      rcases List.mem_cons.mp hcaller with rfl | hold
      · exact ⟨hsafe.current, (withState_program m s).symm ▸ h.2.1⟩
      · exact hsafe.callers caller hold

theorem resume_safe {vm' : Vm} (hvm : VmSafe vm) (h : resume vm = some vm') :
    VmSafe vm' ∧ vm'.ip = vm.ip ∧ vm'.steps = vm.steps := by
  unfold resume at h
  split_ifs at h
  · obtain ⟨registers, _, rfl⟩ := Option.map_eq_some_iff.mp h
    exact ⟨hvm.of_eq rfl rfl, rfl, rfl⟩
  · cases h
    exact ⟨hvm, rfl, rfl⟩

theorem resume_isSome (hvm : VmSafe vm) : ∃ vm', resume vm = some vm' := by
  unfold resume
  rw [Registers.write_eq_some hvm.resume]
  split_ifs <;> exact ⟨_, rfl⟩

theorem step_safe (host : Host W) (hm : m.Safe)
    (hok : ∀ ins, m.Executes ins → OperandsOk m.current.program ins) :
    ProgressSafe (m.step host) := by
  unfold step
  split_ifs with hrunning
  swap
  · exact hm.leave .done
  cases quantumCheck m.current.quantum with
  | none => exact hm.leave .suspended
  | some quantum =>
    have hm' : Safe { m with current := { m.current with quantum := quantum } } :=
      ⟨hm.current, hm.callers⟩
    dsimp only
    unfold turn
    split_ifs with hyield
    · have hstopped : VmSafe { m.current.vm with yieldRequest := false } :=
        hm.current.of_eq rfl rfl
      exact (hm'.setVm hstopped).leave .suspended
    unfold run
    obtain ⟨vm, hvm⟩ := resume_isSome hm.current
    obtain ⟨hsafe, hip, hsteps⟩ := resume_safe hm.current hvm
    dsimp only
    rw [hvm]
    dsimp only
    cases hfetch : m.current.program.code[vm.ip]? with
    | none => exact (hm'.setVm hsafe).leave .error
    | some ins =>
      have hcount : VmSafe (countStep vm) := hsafe.of_eq rfl rfl
      dsimp only
      split_ifs with hlimit
      · exact (hm'.setVm hcount).leave .error
      · have hexecutes : m.Executes ins := by
          refine ⟨hrunning, by simpa using hyield, hip ▸ hfetch, ?_⟩
          simp only [countStep, hsteps] at hlimit
          omega
        have hstart : (setVm (countStep vm)
            { m with current := { m.current with quantum := quantum } }).fetch.Safe :=
          ⟨hcount.of_eq rfl rfl, hm.callers⟩
        refine absorb_safe hstart (exec_keeps host (List.mem_of_getElem? hfetch)
          (hok ins hexecutes) _ ⟨hcount.of_eq rfl rfl, by simp [state]⟩)

theorem CheckedRun.safe {host : Host W} {p p' : Progress W} (hp : ProgressSafe p)
    (h : CheckedRun host p p') : ProgressSafe p' := by
  induction h with
  | refl => exact hp
  | step _ hok ih => exact step_safe host ih hok

theorem enterAt_safe {program : Program} {index : Nat}
    (hvm : VmSafe vm) : CallSafe (enterAt program index vm scope) := by
  unfold enterAt
  cases program.functions[index]? with
  | none => rfl
  | some function =>
    dsimp only
    split_ifs
    · rfl
    · rfl
    have hcall : CallSafe (vmCall program 0 2 vmReturnReg index
        { vm with ip := program.code.length - 1 } scope) :=
      vmCall_safe (by decide) (hvm.of_eq rfl rfl)
    simp only [bind, Except.bind]
    cases hrun : vmCall program 0 2 vmReturnReg index { vm with ip := program.code.length - 1 }
        scope with
    | error e =>
      rw [hrun] at hcall
      exact hcall
    | ok result =>
      rw [hrun] at hcall
      exact VmSafe.of_eq hcall rfl rfl

theorem enter_safe {program : Program} (hvm : VmSafe vm) :
    CallSafe (enter program vm scope) := by
  unfold enter
  cases vm.entryFunction with
  | none => exact hvm
  | some index => exact enterAt_safe hvm

theorem start_safe {program : Program} {quantum : Nat} {world : W}
    {sched : Sched} (hvm : VmSafe vm) :
    ProgressSafe (start program quantum vm scope world sched) := by
  have henter : CallSafe (enter program vm scope) := enter_safe hvm
  unfold start
  cases hrun : enter program vm scope with
  | ok result =>
    rw [hrun] at henter
    exact ⟨henter, by simp⟩
  | error e =>
    rw [hrun] at henter
    cases henter
    trivial

end Machine

theorem parse_checked {data : List UInt8} {program : Program}
    (h : Ru.parse data = .ok program) : OperandsChecked program :=
  (Ru.parse_loads h).operands

def freshVm (entryFunction : Option Nat) : Vm :=
  { vmInit with running := true, entryFunction := entryFunction }

/-- In every run of an accepted program from a fresh VM, nested calls included, whose executed
instructions have a destination below 32 in `OOP`, `EXTERNAL` and `CALL` and a string of `EVAL`
within the pool, no instruction of the program leaves its registers and pools. -/
theorem loaded_run_safe (host : Host W) (data : List UInt8) (program : Program)
    (hparse : Ru.parse data = .ok program) (quantum : Nat) (entryFunction : Option Nat)
    (scope : Scope) (world : W) (sched : Sched) (p : Progress W)
    (hrun : Machine.CheckedRun host
      (Machine.start program quantum (freshVm entryFunction) scope world sched) p) :
    ∀ m, p = .fault m → m.current.program ≠ program := by
  rintro m rfl hprogram
  have hfresh : VmSafe (freshVm entryFunction) := vmInit_safe.of_eq rfl rfl
  have hunchecked : ¬ OperandsChecked m.current.program :=
    hrun.safe (Machine.start_safe hfresh)
  exact hunchecked (hprogram ▸ parse_checked hparse)

/-- Takes the length of a text into register `register`. -/
def lengthProgram (register : UInt8) : Program where
  code := [{ opcode := .loadConst }, { opcode := .oop, a := register, b := 1 },
    { opcode := .halt }]
  constants := [.string (.lit "x")]
  strings := [some (.lit "len")]
  functions := []
  oopSites := []
  scanSites := []

def lengthFile (register : UInt8) : List UInt8 := (Ru.writeFile (lengthProgram register)).getD []

theorem lengthProgram_loads (register : UInt8) : Ru.Loads (lengthProgram register) where
  nonempty := by simp [lengthProgram]
  size := show 3 ≤ bcMaxCode by decide
  last := rfl
  operands := by
    intro ins hins
    simp only [lengthProgram, List.mem_cons, List.not_mem_nil, or_false] at hins
    rcases hins with rfl | rfl | rfl <;> rfl
  functions := by simp [lengthProgram]
  oopSites := by simp [lengthProgram]
  scanSites := by simp [lengthProgram]

theorem lengthFile_parse {register : UInt8}
    (hwrite : (Ru.writeFile (lengthProgram register)).isSome)
    (hsize : (lengthFile register).length ≤ Ru.ruMaxFileSize) :
    Ru.parse (lengthFile register) = .ok (lengthProgram register) := by
  obtain ⟨data, hdata⟩ := Option.isSome_iff_exists.mp hwrite
  have hfile : lengthFile register = data := by simp [lengthFile, hdata]
  rw [hfile] at hsize ⊢
  exact Ru.parse_written hdata hsize (lengthProgram_loads register)

def lengthMachine (register : UInt8) : Machine Unit :=
  ⟨⟨freshVm none, lengthProgram register, 0, 0⟩, [], Scope.empty, (), Sched.init Scope.empty⟩

/-- The run takes the `OOP`, whose destination the condition is about, and comes to the `HALT`. -/
theorem loaded_run_safe_length :
    Ru.parse (lengthFile 0) = .ok (lengthProgram 0) ∧
      ∃ m₁ m₂, (lengthMachine 0).step bareHost = .running m₁ ∧
        m₁.Executes { opcode := .oop, a := 0, b := 1 } ∧ m₁.step bareHost = .running m₂ ∧
        ∀ m, m₂.step bareHost = .fault m → m.current.program ≠ lengthProgram 0 := by
  have hparse : Ru.parse (lengthFile 0) = .ok (lengthProgram 0) :=
    lengthFile_parse (by decide +kernel) (by decide +kernel)
  have hloaded : ∃ m₁, (lengthMachine 0).step bareHost = .running m₁ ∧
      m₁.Executes { opcode := .oop, a := 0, b := 1 } ∧ ∃ m₂, m₁.step bareHost = .running m₂ ∧
        m₂.Executes { opcode := .halt } :=
    ⟨_, rfl, ⟨rfl, rfl, rfl, by decide⟩, _, rfl, rfl, rfl, rfl, by decide⟩
  obtain ⟨m₁, hfirst, hoop, m₂, hsecond, hhalt⟩ := hloaded
  have hload : (lengthMachine 0).Executes { opcode := .loadConst } := ⟨rfl, rfl, rfl, by decide⟩
  have hrun : Machine.CheckedRun bareHost
      (Machine.start (lengthProgram 0) 0 (freshVm none) Scope.empty () (Sched.init Scope.empty))
      (m₂.step bareHost) := by
    refine .step (hsecond ▸ .step (hfirst ▸ .step (.refl (.running (lengthMachine 0))) ?_) ?_) ?_
    · intro ins hins
      cases hload.fetched.symm.trans hins.fetched
      exact trivial
    · intro ins hins
      cases hoop.fetched.symm.trans hins.fetched
      exact show (0 : Nat) < vmRegisterCount by decide
    · intro ins hins
      cases hhalt.fetched.symm.trans hins.fetched
      exact trivial
  exact ⟨hparse, m₁, m₂, hfirst, hoop, hsecond, loaded_run_safe bareHost (lengthFile 0) (lengthProgram 0) hparse 0
    none Scope.empty () (Sched.init Scope.empty) _ hrun⟩

/-- The loader accepts an `OOP` whose destination is register 200. -/
theorem loaded_run_safe_fails :
    ¬ ∀ (data : List UInt8) (program : Program), Ru.parse data = .ok program →
      ∀ (quantum : Nat) (entryFunction : Option Nat) (scope : Scope) (sched : Sched)
        (p : Progress Unit), Machine.Reaches bareHost
          (Machine.start program quantum (freshVm entryFunction) scope () sched) p →
        ∀ m, p = .fault m → m.current.program ≠ program := by
  intro hsafe
  have hparse : Ru.parse (lengthFile 200) = .ok (lengthProgram 200) :=
    lengthFile_parse (by decide +kernel) (by decide +kernel)
  have hloaded : ∃ m, (lengthMachine 200).step bareHost = .running m ∧
      ∃ m', m.step bareHost = .fault m' ∧ m'.current.program = lengthProgram 200 :=
    ⟨_, rfl, _, rfl, rfl⟩
  obtain ⟨m, hfirst, m', hsecond, hprogram⟩ := hloaded
  have hreach : Machine.Reaches bareHost (.running (lengthMachine 200))
      ((lengthMachine 200).step bareHost) := (Machine.Reaches.refl _).step
  rw [hfirst] at hreach
  exact hsafe (lengthFile 200) (lengthProgram 200) hparse 0 none Scope.empty (Sched.init Scope.empty)
    (m.step bareHost) hreach.step m' hsecond hprogram

end Ussr
