import Ussr.Sched.Operations
import Ussr.Vm.ExecRule
import Ussr.Vm.Machine

/-! Runs of the scheduler, slice by slice. Between slices, processes are spawned,
events are dispatched and the rest of the interpreter changes; a slice runs the
VM of the process at the head of the queue until `vm_execute` returns. -/

namespace Ussr

variable {W : Type}

/-- The scheduler between slices. `blockedAt` is history: for each process, the destination of
the instruction at which its VM last returned SUSPENDED, if it was an instruction that blocks. -/
structure System (W : Type) where
  sched : Sched
  world : W
  blockedAt : Nat → Option Nat

namespace System

def init (globals : Scope) (world : W) : System W := ⟨Sched.init globals, world, fun _ => none⟩

/-- The call of `vm_execute` on a process that was picked. -/
def startSlice (proc : Proc) (sched : Sched) (world : W) : Progress W :=
  Machine.start proc.program schedQuantum proc.vm (proc.scope.getD sched.globals) world sched

def writeBack (pid : Nat) (m : Machine W) : Sched :=
  match m.sched.find pid with
  | none => m.sched
  | some proc =>
    { m.sched.update pid fun proc =>
        { proc with vm := m.current.vm, scope := proc.scope.map fun _ => m.scope } with
      globals := if proc.scope.isNone then m.scope else m.sched.globals }

/-- The end of a slice in `ussr_sched_run`. -/
def endSlice (pid : Nat) (status : Status) (m : Machine W) : Sched :=
  match status with
  | .error => { writeBack pid m with current := none }.zombify pid (-1)
  | .done => { writeBack pid m with current := none }.zombify pid m.current.vm.exitCode
  | .suspended => (writeBack pid m).suspend pid

def destination (m : Machine W) : Option Nat :=
  if m.current.vm.yieldRequest then none
  else (m.current.program.code[m.current.vm.ip]?).map Instruction.ra

def recordEnd (pid : Nat) (status : Status) (last : Machine W) (blockedAt : Nat → Option Nat) :
    Nat → Option Nat :=
  if status = .suspended then fun q => if q = pid then destination last else blockedAt q
  else blockedAt

/-- One event of a run. `allowed` restricts the machines whose last turn suspends a process. -/
inductive Step (host : Host W) (allowed : Machine W → Prop) : System W → System W → Prop where
  | spawnMain (program : Program) (entryFunction : Option Nat) (s : System W) :
    Step host allowed s { s with sched := (s.sched.spawnMain program entryFunction).2 }
  | spawnFunc (program : Program) (index : Nat) (args : List Value) (scope : Scope)
    (s : System W) :
    Step host allowed s { s with sched := (s.sched.spawnFunc program index args scope).2 }
  | dispatch (max : Nat) (poll : Poll) (s : System W) :
    Step host allowed s { s with sched := s.sched.handleEvents max poll }
  | world (world : W) (s : System W) : Step host allowed s { s with world := world }
  | slice {s : System W} {pid : Nat} {sched : Sched} {proc : Proc} {last m : Machine W}
    {status : Status} (hdequeue : s.sched.dequeue = some (pid, sched))
    (hproc : (sched.pick pid).find pid = some proc)
    (hrun : Machine.Reaches host (startSlice proc (sched.pick pid) s.world) (.running last))
    (hend : last.step host = .finished status m) (hallowed : status = .suspended → allowed last) :
    Step host allowed s
      ⟨endSlice pid status m, m.world, recordEnd pid status last s.blockedAt⟩
  | failedSlice {s : System W} {pid : Nat} {sched : Sched} {proc : Proc} {m : Machine W}
    {status : Status} (hdequeue : s.sched.dequeue = some (pid, sched))
    (hproc : (sched.pick pid).find pid = some proc)
    (hend : startSlice proc (sched.pick pid) s.world = .finished status m) :
    Step host allowed s ⟨endSlice pid status m, m.world, s.blockedAt⟩

inductive Reachable (host : Host W) (allowed : Machine W → Prop) (start : System W) :
    System W → Prop where
  | refl : Reachable host allowed start start
  | step {s s' : System W} :
    Reachable host allowed start s → Step host allowed s s' → Reachable host allowed start s'

end System

namespace Machine

def charge (quantum : Nat) (m : Machine W) : Machine W :=
  { m with current := { m.current with quantum := quantum } }

/-- What one turn of the loop does: it returns without an instruction, faults on a pending value,
or executes one instruction in a VM that has taken its pending value. -/
inductive Turn (host : Host W) (m : Machine W) : Progress W → Prop where
  | halted : Turn host m (m.leave .done)
  | yielded (quantum : Nat) (hyield : m.current.vm.yieldRequest = true) :
    Turn host m (((m.charge quantum).setVm { m.current.vm with yieldRequest := false }).leave
      .suspended)
  | fault (quantum : Nat) : Turn host m (.fault (m.charge quantum))
  | failed (quantum : Nat) (vm : Vm) : Turn host m (((m.charge quantum).setVm vm).leave .error)
  | executes (quantum : Nat) (vm : Vm) (ins : Instruction) (hrunning : m.current.vm.running = true)
    (hyield : m.current.vm.yieldRequest = false) (hresume : resume m.current.vm = some vm)
    (hfetch : m.current.program.code[vm.ip]? = some ins) :
    Turn host m (execute host ins ((m.charge quantum).setVm (countStep vm)))

theorem step_turn (host : Host W) (m : Machine W) : Turn host m (m.step host) := by
  unfold step
  split_ifs with hrunning
  · unfold quantumCheck
    split_ifs with hpos
    all_goals
      try (exact absurd ‹m.current.quantum = 0› hpos)
      dsimp only
      unfold turn
      split_ifs with hyield
      · exact .yielded _ hyield
      · unfold run
        cases hresume : resume m.current.vm with
        | none => exact .fault _
        | some vm =>
          dsimp only
          cases hfetch : m.current.program.code[vm.ip]? with
          | none => exact .failed _ vm
          | some ins =>
            dsimp only
            split_ifs
            · exact .failed _ (countStep vm)
            · exact .executes _ vm ins hrunning (by simpa using hyield) hresume hfetch
  · exact .halted

theorem leave_go_kept (m : Machine W) (status : Status) (current : Activation) (scope : Scope)
    (callers : List (Activation × Entry)) :
    (leave.go m status current scope callers).machine.sched = m.sched := by
  induction callers generalizing status current scope with
  | nil => rfl
  | cons caller callers ih =>
    unfold leave.go
    cases entryValue caller.1.program caller.2 status scope with
    | error e =>
      cases e with
      | failed => exact ih .error caller.1 scope
      | fault => rfl
    | ok result =>
      dsimp only
      split <;> rfl

theorem leave_sched (m : Machine W) (status : Status) :
    (m.leave status).machine.sched = m.sched := leave_go_kept m status _ _ _

theorem withState_sched (m : Machine W) (s : State W) : (m.withState s).sched = s.sched := by
  unfold withState Machine.signal
  split <;> rfl

theorem absorb_sched (m : Machine W) (r : Except Stop Next × State W) :
    (m.absorb r).machine.sched = r.2.sched := by
  obtain ⟨result, s⟩ := r
  cases result with
  | ok next =>
    cases next with
    | step => exact withState_sched m s
    | suspend => exact (leave_sched _ _).trans (withState_sched m s)
    | enter entry program callee => exact withState_sched m s
  | error e =>
    cases e with
    | failed => exact (leave_sched _ _).trans (withState_sched m s)
    | fault => exact withState_sched m s

def finish (host : Host W) : (fuel : Nat) → Machine W → Option (Machine W × Status × Machine W)
  | 0, _ => none
  | fuel + 1, m =>
    match m.step host with
    | .running m' => finish host fuel m'
    | .finished status m' => some (m, status, m')
    | .fault _ => none

theorem finish_reaches {host : Host W} {p : Progress W} {last m' : Machine W} {status : Status}
    (fuel : Nat) (m : Machine W) (hreach : Reaches host p (.running m))
    (h : finish host fuel m = some (last, status, m')) :
    Reaches host p (.running last) ∧ last.step host = .finished status m' := by
  induction fuel generalizing m with
  | zero => cases h
  | succ fuel ih =>
    unfold finish at h
    cases hstep : m.step host with
    | running next =>
      rw [hstep] at h
      exact ih next (hstep ▸ .step hreach) h
    | finished status₁ next =>
      rw [hstep] at h
      cases h
      exact ⟨hreach, hstep⟩
    | fault next =>
      rw [hstep] at h
      cases h

end Machine

namespace System

def firstMachine (s : System W) : Option (Nat × Machine W) := do
  let (pid, sched) ← s.sched.dequeue
  let proc ← (sched.pick pid).find pid
  match startSlice proc (sched.pick pid) s.world with
  | .running m => some (pid, m)
  | _ => none

theorem firstMachine_eq_some {s : System W} {pid : Nat} {m : Machine W}
    (h : s.firstMachine = some (pid, m)) :
    ∃ sched proc, s.sched.dequeue = some (pid, sched) ∧ (sched.pick pid).find pid = some proc ∧
      startSlice proc (sched.pick pid) s.world = .running m := by
  unfold firstMachine at h
  obtain ⟨⟨first, sched⟩, hdequeue, h⟩ := Option.bind_eq_some_iff.mp h
  obtain ⟨proc, hproc, h⟩ := Option.bind_eq_some_iff.mp h
  split at h
  · rename_i hstart
    cases h
    exact ⟨sched, proc, hdequeue, hproc, hstart⟩
  · cases h

def runSlice (host : Host W) (fuel : Nat) (s : System W) : Option (Machine W × System W) := do
  let (pid, first) ← s.firstMachine
  let (last, status, m) ← Machine.finish host fuel first
  return (last, ⟨endSlice pid status m, m.world, recordEnd pid status last s.blockedAt⟩)

theorem runSlice_step {host : Host W} {allowed : Machine W → Prop} {fuel : Nat} {s s' : System W}
    {last : Machine W} (h : runSlice host fuel s = some (last, s')) (hallowed : allowed last) :
    Step host allowed s s' := by
  unfold runSlice at h
  obtain ⟨⟨pid, first⟩, hfirst, h⟩ := Option.bind_eq_some_iff.mp h
  obtain ⟨⟨last', status, m⟩, hfinish, h⟩ := Option.bind_eq_some_iff.mp h
  cases h
  obtain ⟨sched, proc, hdequeue, hproc, hstart⟩ := firstMachine_eq_some hfirst
  obtain ⟨hreach, hend⟩ := Machine.finish_reaches fuel first (.refl _) hfinish
  exact .slice hdequeue hproc (hstart ▸ hreach) hend fun _ => hallowed

end System

end Ussr
