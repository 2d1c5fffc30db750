import Ussr.Vm.Machine

/-! The instruction quantum. The counter is compared with zero before its
decrement, where it is known not to be zero, so the check never ends a slice:
after it has counted down to zero it reads as "unlimited". The calls that `try`
and `eval` nest start with 0, which is "unlimited" from the first instruction. -/

namespace Ussr

variable {W : Type}

theorem quantumCheck_isSome (quantum : Nat) : ∃ next, quantumCheck quantum = some next := by
  unfold quantumCheck
  split_ifs
  · exact ⟨_, rfl⟩
  · exact ⟨_, rfl⟩

/-- A change of the calls that neither a signal nor the end of a call sees. -/
structure Activation.Unseen (f : Activation → Activation) : Prop where
  vm : ∀ a, (f a).vm = a.vm
  setVm : ∀ vm a, (f a).setVm vm = f (a.setVm vm)
  strings : ∀ a, (f a).program.strings = a.program.strings

def Machine.mapCalls (f : Activation → Activation) (m : Machine W) : Machine W :=
  { m with current := f m.current, callers := m.callers.map fun caller => (f caller.1, caller.2) }

def Progress.mapCalls (f : Activation → Activation) : Progress W → Progress W
  | running m => running (m.mapCalls f)
  | finished status m => finished status (m.mapCalls f)
  | fault m => fault (m.mapCalls f)

namespace Activation.Unseen

variable {f : Activation → Activation}

theorem signal (h : Unseen f) (signals : List Signal) (a : Activation) : (f a).signal signals = f (a.signal signals) := by
  rw [Activation.signal, h.setVm, h.vm, Activation.signal]

theorem signalCallers (h : Unseen f) (signals : List Signal) (callers : List (Activation × Entry)) :
    Machine.signalCallers signals (callers.map fun caller => (f caller.1, caller.2)) =
      (Machine.signalCallers signals callers).map fun caller => (f caller.1, caller.2) := by
  induction callers with
  | nil => rfl
  | cons caller callers ih =>
    cases callers with
    | nil =>
      simp only [List.map_cons, List.map_nil, Machine.signalCallers]
      rw [h.signal]
    | cons next callers =>
      simp only [List.map_cons, Machine.signalCallers] at ih ⊢
      rw [ih]

theorem signalMachine (h : Unseen f) (signals : List Signal) (m : Machine W) :
    (m.mapCalls f).signal signals = (m.signal signals).mapCalls f := by
  obtain ⟨current, callers, scope, world, sched⟩ := m
  cases callers with
  | nil =>
    simp only [Machine.mapCalls, Machine.signal, List.map_nil]
    rw [h.signal]
  | cons caller callers =>
    have hcallers := h.signalCallers signals (caller :: callers)
    simp only [Machine.mapCalls, Machine.signal, List.map_cons] at hcallers ⊢
    rw [hcallers]

theorem leave_go (h : Unseen f) (status : Status) (current : Activation) (scope : Scope)
    (callers : List (Activation × Entry)) (m m' : Machine W) (hworld : m'.world = m.world) (hsched : m'.sched = m.sched) :
    Machine.leave.go m' status (f current) scope (callers.map fun caller => (f caller.1, caller.2)) =
      (Machine.leave.go m status current scope callers).mapCalls f := by
  induction callers generalizing status current scope with
  | nil => simp [Machine.leave.go, Progress.mapCalls, Machine.mapCalls, hworld, hsched]
  | cons caller callers ih =>
    obtain ⟨a, entry⟩ := caller
    have hvalue : Machine.entryValue (f a).program entry status scope = Machine.entryValue a.program entry status scope := by
      unfold Machine.entryValue
      rw [h.strings]
    simp only [List.map_cons, Machine.leave.go, hvalue]
    cases Machine.entryValue a.program entry status scope with
    | error e =>
      cases e with
      | failed => exact ih .error a scope
      | fault => simp [Progress.mapCalls, Machine.mapCalls, hworld, hsched]
    | ok result =>
      obtain ⟨value, scope⟩ := result
      simp only [h.vm]
      cases a.vm.registers.write (Machine.entryRegister entry) value with
      | none => simp [Progress.mapCalls, Machine.mapCalls, hworld, hsched]
      | some registers => simp [Progress.mapCalls, Machine.mapCalls, hworld, hsched, h.setVm]

theorem leave (h : Unseen f) (status : Status) (m : Machine W) : (m.mapCalls f).leave status = (m.leave status).mapCalls f :=
  h.leave_go status m.current m.scope m.callers m (m.mapCalls f) rfl rfl

theorem withState (h : Unseen f) (s : State W) (m : Machine W) : (m.mapCalls f).withState s = (m.withState s).mapCalls f := by
  unfold Machine.withState
  rw [← h.signalMachine, Machine.mapCalls, Machine.mapCalls, h.setVm]

end Activation.Unseen

namespace Activation

def unlimited (a : Activation) : Activation := { a with quantum := 0 }

end Activation

namespace Machine

def unlimited (m : Machine W) : Machine W :=
  { m with
    current := m.current.unlimited
    callers := m.callers.map fun caller => (caller.1.unlimited, caller.2) }

end Machine

namespace Progress

def unlimited : Progress W → Progress W
  | running m => running m.unlimited
  | finished status m => finished status m.unlimited
  | fault m => fault m.unlimited

end Progress

namespace Machine

def advance (host : Host W) (m : Machine W) : Progress W :=
  if m.current.vm.running then turn host m else m.leave .done

/-- The instruction that a turn of the loop fetches, in whichever call it is. -/
def fetching (m : Machine W) : Option Instruction :=
  if m.current.vm.running ∧ m.current.vm.yieldRequest = false then
    (resume m.current.vm).bind fun vm =>
      if (countStep vm).steps > vmMaxSteps then none else m.current.program.code[vm.ip]?
  else none

def stepFetching (m : Machine W) : Option Instruction :=
  (quantumCheck m.current.quantum).bind fun _ => m.fetching

/-- Turns of the loop in which `n` instructions are fetched, those of the nested calls included. -/
inductive Fetches (next : Machine W → Progress W) (fetching : Machine W → Option Instruction) :
    Progress W → Nat → Progress W → Prop where
  | refl (p : Progress W) : Fetches next fetching p 0 p
  | turn {p : Progress W} {n : Nat} {m : Machine W} : Fetches next fetching p n (.running m) →
    Fetches next fetching p (n + (fetching m).toList.length) (next m)

theorem unlimited_unseen : Activation.Unseen Activation.unlimited := ⟨fun _ => rfl, fun _ _ => rfl, fun _ => rfl⟩

theorem leave_unlimited (status : Status) (m : Machine W) :
    m.unlimited.leave status = (m.leave status).unlimited :=
  unlimited_unseen.leave status m

theorem withState_unlimited (s : State W) (m : Machine W) :
    m.unlimited.withState s = (m.withState s).unlimited :=
  unlimited_unseen.withState s m

theorem absorb_unlimited (m : Machine W) (r : Except Stop Next × State W) :
    m.unlimited.absorb r = (m.absorb r).unlimited := by
  obtain ⟨result, s⟩ := r
  cases result with
  | ok next =>
    cases next with
    | step => simp only [absorb, withState_unlimited, Progress.unlimited]
    | suspend => simp only [absorb, withState_unlimited, leave_unlimited]
    | enter =>
      simp only [absorb, withState_unlimited, Progress.unlimited]
      rfl
  | error e =>
    cases e with
    | failed => simp only [absorb, withState_unlimited, leave_unlimited]
    | fault => simp only [absorb, withState_unlimited, Progress.unlimited]

theorem setVm_unlimited (vm : Vm) (m : Machine W) :
    m.unlimited.setVm vm = (m.setVm vm).unlimited := rfl

theorem run_unlimited (host : Host W) (m : Machine W) :
    run host m.unlimited = (run host m).unlimited := by
  unfold run
  have hvm : m.unlimited.current.vm = m.current.vm := rfl
  have hprogram : m.unlimited.current.program = m.current.program := rfl
  simp only [hvm, hprogram, setVm_unlimited, leave_unlimited]
  cases resume m.current.vm with
  | none => rfl
  | some vm =>
    dsimp only
    cases m.current.program.code[vm.ip]? with
    | none => rfl
    | some ins =>
      dsimp only
      split_ifs
      · rfl
      · exact absorb_unlimited (m.setVm (countStep vm)).fetch _

theorem turn_unlimited (host : Host W) (m : Machine W) :
    turn host m.unlimited = (turn host m).unlimited := by
  unfold turn
  have hvm : m.unlimited.current.vm = m.current.vm := rfl
  rw [hvm, setVm_unlimited, leave_unlimited, run_unlimited]
  split_ifs <;> rfl

theorem step_unlimited (host : Host W) (m : Machine W) :
    (m.step host).unlimited = m.unlimited.advance host := by
  unfold step advance
  have hrunning : m.unlimited.current.vm.running = m.current.vm.running := rfl
  rw [hrunning]
  split_ifs
  · obtain ⟨next, hnext⟩ := quantumCheck_isSome m.current.quantum
    rw [hnext]
    exact (turn_unlimited host _).symm
  · exact (leave_unlimited _ _).symm

theorem stepFetching_unlimited (m : Machine W) : m.stepFetching = m.unlimited.fetching := by
  obtain ⟨next, hnext⟩ := quantumCheck_isSome m.current.quantum
  rw [stepFetching, hnext]
  rfl

theorem Fetches.unlimited {host : Host W} {p p' : Progress W} {n : Nat}
    (h : Fetches (step host) stepFetching p n p') : Fetches (advance host) fetching p.unlimited n p'.unlimited := by
  induction h with
  | refl => exact .refl _
  | turn _ ih =>
    rw [step_unlimited, stepFetching_unlimited]
    exact .turn ih

theorem Fetches.limited {host : Host W} {p q : Progress W} {n : Nat}
    (h : Fetches (advance host) fetching p.unlimited n q) :
    ∃ p', Fetches (step host) stepFetching p n p' ∧ p'.unlimited = q := by
  induction h with
  | refl => exact ⟨p, .refl p, rfl⟩
  | turn _ ih =>
    obtain ⟨p', hreach, heq⟩ := ih
    cases p' with
    | running m =>
      have hm : m.unlimited = _ := Progress.running.inj heq
      rw [← hm, ← stepFetching_unlimited]
      exact ⟨m.step host, .turn hreach, step_unlimited host m⟩
    | finished => cases heq
    | fault => cases heq

theorem start_unlimited (program : Program) (quantum : Nat) (vm : Vm) (scope : Scope) (world : W)
    (sched : Sched) :
    (start program quantum vm scope world sched).unlimited =
      start program 0 vm scope world sched := by
  unfold start
  cases enter program vm scope with
  | ok result => rfl
  | error e => cases e <;> rfl

/-- A call of `vm_execute` with quantum `q > 0` keeps to `q` instructions, its nested calls
counted, exactly where the process, never preempted, halts, fails, yields or blocks by itself
before it fetches another. -/
theorem quantum_bound (host : Host W) (program : Program) (q : Nat) (vm : Vm) (scope : Scope)
    (world : W) (sched : Sched) :
    (∀ n p, Fetches (step host) stepFetching (start program q vm scope world sched) n p → n ≤ q) ↔
      ∀ n p, Fetches (advance host) fetching (start program 0 vm scope world sched) n p → n ≤ q := by
  constructor
  · intro hbound n p hadvances
    rw [← start_unlimited program q] at hadvances
    obtain ⟨p', hreach, -⟩ := hadvances.limited
    exact hbound n p' hreach
  · intro hbound n p hreach
    have hadvances := hreach.unlimited
    rw [start_unlimited] at hadvances
    exact hbound n _ hadvances

/-- `JMP 0` for ever. -/
def spinProgram : Program where
  code := [{ opcode := .jmp, immediate := 0 }, { opcode := .halt }]
  constants := []
  strings := []
  functions := []
  oopSites := []
  scanSites := []

theorem quantum_bound_fails :
    ¬ ∀ (program : Program) (q : Nat) (vm : Vm) (scope : Scope) (sched : Sched), 0 < q →
      ∀ n p, Fetches (step bareHost) stepFetching (start program q vm scope () sched) n p → n ≤ q := by
  intro hbound
  let m : Machine Unit := ⟨⟨{ vmInit with running := true }, spinProgram, 1, 0⟩, [], Scope.empty, (),
    Sched.init Scope.empty⟩
  have hstart : Fetches (step bareHost) stepFetching (start spinProgram 1 { vmInit with running := true }
      Scope.empty () (Sched.init Scope.empty)) 0 (.running m) := .refl _
  have hfirst : ∃ m₁, m.step bareHost = .running m₁ := ⟨_, rfl⟩
  obtain ⟨m₁, hm₁⟩ := hfirst
  have hm : m₁ = (m.step bareHost).machine := by rw [hm₁]; rfl
  have hsecond : (stepFetching m₁).toList.length = 1 := by
    rw [hm]
    rfl
  have hone := hstart.turn
  rw [hm₁] at hone
  have hreach := hone.turn
  have hle := hbound spinProgram 1 { vmInit with running := true } Scope.empty
    (Sched.init Scope.empty) (Nat.succ_pos 0) _ _ hreach
  rw [hsecond] at hle
  exact absurd hle (by decide)

end Machine

end Ussr
