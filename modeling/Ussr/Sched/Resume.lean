import Ussr.Sched.WakeUps

/-! Where the value of a wake-up lands. A nested VM that blocks marks its process
and leaves the outer VM running; if that one yields before it blocks itself, the
wake-up overwrites a register of a VM that only yielded. Otherwise every pending
value goes to the destination of the instruction that blocked. -/

namespace Ussr
open Sched

variable {W : Type}
variable {callers : List (Activation × Entry)} {sched : Sched}
variable {m : Machine W} {proc : Proc} {vm : Vm} {scope : Scope} {status : Status} {host : Host W}

structure RecordFits (blockedAt : Option Nat) (proc : Proc) : Prop where
  yields : proc.vm.yieldRequest = false
  resume : proc.vm.resumePending = true ∨ Blocked proc → blockedAt = some proc.vm.resumeRegister

def RecordsFit (blockedAt : Nat → Option Nat) (except : Nat → Prop) (s : Sched) : Prop :=
  ∀ q proc, ¬ except q → s.find q = some proc → proc.state ≠ .zombie →
    RecordFits (blockedAt q) proc

theorem RecordFits.woken {blockedAt : Option Nat} (h : RecordFits blockedAt proc)
    (hblocked : Blocked proc) (value : Value) :
    RecordFits blockedAt (setState .runnable (woken value proc)) :=
  ⟨h.yields, fun _ => h.resume (Or.inr hblocked)⟩

section

variable {blockedAt : Nat → Option Nat} {except : Nat → Prop} {s : Sched}

theorem Fits.deliver_records {event : Event} {rest : List (Nat × Nat)}
    (h : Fits (event.key :: rest) (fun _ => False) s) (hrecords : RecordsFit blockedAt except s) :
    RecordsFit blockedAt except (s.deliver event) := by
  unfold Sched.deliver
  cases hfound : s.find event.ownerPid with
  | none => exact hrecords
  | some owner =>
    dsimp only
    split_ifs with hzombie htoken
    · exact hrecords
    · exact hrecords
    · have hblocked := h.owner_blocked hfound hzombie (not_not.mp htoken)
      intro q proc hq hproc hlive
      rw [find_wake hfound] at hproc
      split_ifs at hproc with heq
      · subst heq
        cases hproc
        exact (hrecords _ owner hq hfound hzombie).woken hblocked _
      · exact hrecords q proc hq hproc hlive

theorem deliverAll_records {fired : List Event}
    (h : Fits (fired.map Event.key) (fun _ => False) s) (hcurrent : s.current = none)
    (hrecords : RecordsFit blockedAt except s) :
    RecordsFit blockedAt except (fired.foldl Sched.deliver s) := by
  induction fired generalizing s with
  | nil => exact hrecords
  | cons event fired ih =>
    obtain ⟨hfits, hnone⟩ := Fits.deliver h hcurrent
    exact ih hfits hnone (Fits.deliver_records h hrecords)

theorem handleEvents_records (h : Idle s) (hrecords : RecordsFit blockedAt except s) (max : Nat)
    (poll : Poll) : RecordsFit blockedAt except (s.handleEvents max poll) := by
  unfold Sched.handleEvents
  have hfits := h.consistent.dispatched max poll
  exact deliverAll_records hfits h.current hrecords

theorem zombify_records {pid : Nat} (hfound : s.find pid = some proc)
    (hrecords : RecordsFit blockedAt (fun q => except q ∨ q = pid) s) (exitCode : Int) :
    RecordsFit blockedAt except (s.zombify pid exitCode) := by
  unfold Sched.zombify
  rw [hfound]
  dsimp only
  set f : Proc → Proc := fun other =>
    { other with
      state := .zombie, exitCode := exitCode, result := proc.vm.registers[vmReturnReg] } with hf
  have hpids : ∀ other, (f other).pid = other.pid := fun _ => rfl
  intro q other hq hother hlive
  rw [find_wakeAwaiters, find_update hpids] at hother
  split_ifs at hother with heq
  · subst heq
    rw [hfound] at hother
    cases hother
    have hdead : ¬ (q ∈ (s.update q f).procs.map Proc.pid ∧ awaits q (f proc) = true) := by
      simp [awaits, hf]
    dsimp only at hlive
    rw [if_neg hdead] at hlive
    exact absurd rfl hlive
  · obtain ⟨old, hold, rfl⟩ := Option.map_eq_some_iff.mp hother
    have hexcept : ¬ (except q ∨ q = pid) := by
      rintro (h | h)
      · exact hq h
      · exact heq h
    split_ifs at hlive ⊢ with hawaits
    · obtain ⟨hstate, _⟩ := awaits_iff.mp hawaits.2
      exact (hrecords q old hexcept hold (by simp [hstate])).woken (Or.inr hstate) _
    · exact hrecords q old hexcept hold hlive

theorem vmSpawnCall_fresh {program : Program} {index : Nat} {args : List Value} {vm' : Vm}
    {scope' : Scope} (h : vmSpawnCall program index args vm scope = .ok (vm', scope')) :
    vm'.yieldRequest = vm.yieldRequest ∧ vm'.resumePending = vm.resumePending := by
  unfold vmSpawnCall at h
  cases hfunction : program.functions[index]? with
  | none => simp [hfunction] at h
  | some function =>
    simp only [hfunction] at h
    split_ifs at h
    cases hload : loadArguments 0 args vm.registers with
    | error e => simp [hload, bind, Except.bind] at h
    | ok registers =>
      simp only [hload, bind, Except.bind] at h
      rcases vmCall_cases program 0 (args.length % 256) vmReturnReg index
        { vm with registers := registers, ip := program.code.length - 1 } scope with
        hfail | ⟨ip, frame, scope'', _, hcall⟩
      · rw [hfail] at h
        cases h
      · rw [hcall] at h
        cases h
        exact ⟨rfl, rfl⟩

theorem spawnFunc_records (h : Consistent s) (hrecords : RecordsFit blockedAt except s)
    (program : Program) (index : Nat) (args : List Value) (scope : Scope) :
    RecordsFit blockedAt except (s.spawnFunc program index args scope).2 := by
  unfold Sched.spawnFunc
  cases program.functions[index]? with
  | none => exact hrecords
  | some function =>
    dsimp only
    split_ifs
    · exact hrecords
    · cases hcall : vmSpawnCall program index args { vmInit with running := true } scope with
      | error e =>
        intro q proc hq hproc hlive
        have hsame : find q ((s.procCreate program (some scope)).2.procFree s.nextPid) =
            s.find q := by
          rw [find, find, procFree_procs h]
        exact hrecords q proc hq (hsame ▸ hproc) hlive
      | ok result =>
        obtain ⟨hyield, hpending⟩ := vmSpawnCall_fresh hcall
        intro q proc hq hproc hlive
        have hspawned := find_spawned (s := s) program (some scope)
          (f := fun proc => { proc with vm := result.1, scope := some result.2 })
          (fun _ => rfl) s.mainPid q
        have hproc' := hspawned.symm.trans hproc
        split_ifs at hproc' with heq
        · cases hproc'
          refine ⟨hyield, ?_⟩
          rintro (hresume | hblocked)
          · exact absurd (hpending.symm.trans hresume) (by simp [vmInit])
          · rcases hblocked with hstate | hstate <;> cases hstate
        · exact hrecords q proc hq hproc' hlive

theorem spawnMain_records (hrecords : RecordsFit blockedAt except s) (program : Program)
    (entryFunction : Option Nat) :
    RecordsFit blockedAt except (s.spawnMain program entryFunction).2 := by
  intro q proc hq hproc hlive
  have hspawned := find_spawned (s := s) program none (f := fun proc => { proc with
    vm := { proc.vm with running := true, entryFunction := entryFunction } })
    (fun _ => rfl) s.nextPid q
  have hproc' := hspawned.symm.trans hproc
  split_ifs at hproc' with heq
  · cases hproc'
    refine ⟨rfl, ?_⟩
    rintro (hresume | hblocked)
    · cases hresume
    · rcases hblocked with hstate | hstate <;> cases hstate
  · exact hrecords q proc hq hproc' hlive

theorem blockCurrent_records {pid : Nat} (hcurrent : s.current = some pid) (events : EventQueue)
    (kind : BlockKind) (waitPid token : Nat)
    (hrecords : RecordsFit blockedAt (fun q => q = pid) s) :
    RecordsFit blockedAt (fun q => q = pid)
      ({ s with events := events }.blockCurrent kind waitPid token) := by
  rw [blockCurrent_eq (s := { s with events := events }) hcurrent]
  intro q proc hq hproc hlive
  rw [find_update (f := blockedOn kind waitPid token) (fun _ => rfl), if_neg hq] at hproc
  exact hrecords q proc hq hproc hlive

end

namespace Machine

variable {g : Option Nat}

/-- The calls of `vm_execute` that are under way. -/
def activations (m : Machine W) : List Activation := m.current :: m.callers.map Prod.fst

def AllTaken (m : Machine W) : Prop := ∀ a ∈ m.activations, a.vm.resumePending = false

def TakesResume (g : Option Nat) (m : Machine W) : Prop :=
  AllTaken m ∨ m.callers = [] ∧ m.current.vm.yieldRequest = false ∧
    g = some m.current.vm.resumeRegister

/-- The next turn stores the pending value in `register`. -/
structure AppliesResume (m : Machine W) (register : Nat) : Prop where
  running : m.current.vm.running = true
  proceeds : m.current.vm.yieldRequest = false
  pending : m.current.vm.resumePending = true
  register : m.current.vm.resumeRegister = register

theorem TakesResume.applies (h : TakesResume g m) {register : Nat}
    (happlies : m.AppliesResume register) : m.callers = [] ∧ g = some register := by
  rcases h with htaken | ⟨hcallers, _, hg⟩
  · have hfalse := htaken m.current List.mem_cons_self
    rw [happlies.pending] at hfalse
    cases hfalse
  · exact ⟨hcallers, happlies.register ▸ hg⟩

theorem applySignals_taken (signals : List Signal) (h : vm.resumePending = false) :
    (applySignals signals vm).resumePending = false := by
  unfold applySignals
  induction signals generalizing vm with
  | nil => exact h
  | cons signal signals ih =>
    refine ih ?_
    cases signal with
    | yield => exact h
    | block register => rfl

theorem signalCallers_taken (signals : List Signal)
    (h : ∀ caller ∈ callers, caller.1.vm.resumePending = false) :
    ∀ caller ∈ signalCallers signals callers, caller.1.vm.resumePending = false := by
  induction callers with
  | nil => exact h
  | cons caller callers ih =>
    cases callers with
    | nil =>
      intro other hother
      obtain rfl := List.mem_singleton.mp hother
      exact applySignals_taken signals (h caller List.mem_cons_self)
    | cons next callers =>
      intro other hother
      rcases List.mem_cons.mp hother with rfl | hrest
      · exact h _ List.mem_cons_self
      · exact ih (fun x hx => h x (List.mem_cons_of_mem _ hx)) other hrest

theorem allTaken_iff : AllTaken m ↔ m.current.vm.resumePending = false ∧
    ∀ caller ∈ m.callers, caller.1.vm.resumePending = false := by
  simp [AllTaken, activations]

theorem signal_taken (signals : List Signal) (h : AllTaken m) :
    AllTaken (m.signal signals) := by
  obtain ⟨hcurrent, hcallers⟩ := allTaken_iff.mp h
  refine allTaken_iff.mpr ?_
  unfold Machine.signal
  split
  · exact ⟨applySignals_taken signals hcurrent, hcallers⟩
  · exact ⟨hcurrent, signalCallers_taken signals hcallers⟩

theorem leave_go_taken (m : Machine W) (status : Status) (current : Activation) (scope : Scope)
    (h : ∀ caller ∈ callers, caller.1.vm.resumePending = false) (m' : Machine W)
    (hrunning : leave.go m status current scope callers = .running m') : AllTaken m' := by
  induction callers generalizing status current scope with
  | nil => cases hrunning
  | cons caller callers ih =>
    unfold leave.go at hrunning
    have hrest := fun x hx => h x (List.mem_cons_of_mem _ hx)
    cases hvalue : entryValue caller.1.program caller.2 status scope with
    | error e =>
      rw [hvalue] at hrunning
      cases e with
      | failed => exact ih .error caller.1 scope hrest hrunning
      | fault => cases hrunning
    | ok result =>
      rw [hvalue] at hrunning
      dsimp only at hrunning
      split at hrunning
      · cases hrunning
      · cases hrunning
        exact allTaken_iff.mpr ⟨h caller List.mem_cons_self, hrest⟩

theorem withState_base {t : State W} (h : (m.withState t).callers = []) :
    (m.withState t).current.vm = applySignals t.signals t.vm := by
  cases hm : m.callers with
  | nil =>
    simp only [withState, Machine.signal, hm]
    rfl
  | cons caller callers =>
    exfalso
    simp only [withState, Machine.signal, hm] at h
    cases callers <;> simp [signalCallers] at h

theorem leave_go_finished (m : Machine W) {status' : Status} {current : Activation} {m' : Machine W}
    (h : leave.go m status current scope callers = .finished status' m') :
    status' = .error ∨ callers = [] ∧ status' = status ∧ m'.current = current := by
  induction callers generalizing status current scope with
  | nil =>
    cases h
    exact Or.inr ⟨rfl, rfl, rfl⟩
  | cons caller callers ih =>
    unfold leave.go at h
    cases hvalue : entryValue caller.1.program caller.2 status scope with
    | error e =>
      rw [hvalue] at h
      cases e with
      | failed =>
        rcases ih h with herror | ⟨_, herror, _⟩
        · exact Or.inl herror
        · exact Or.inl herror
      | fault => cases h
    | ok result =>
      rw [hvalue] at h
      dsimp only at h
      split at h <;> cases h

end Machine

section

variable {blockedAt : Nat → Option Nat} {pid : Nat}

/-- In a slice of `pid`, behind the first turn. -/
structure SliceState (blockedAt : Nat → Option Nat) (pid : Nat) (s : State W) : Prop where
  taken : s.vm.resumePending = false
  proceeds : s.vm.yieldRequest = false
  slice : InSlice pid s.sched
  records : RecordsFit blockedAt (fun q => q = pid) s.sched

theorem SliceState.of_frame {s s' : State W} (h : SliceState blockedAt pid s)
    (hframe : s.vm.SameFrame s'.vm) (hsched : s'.sched = s.sched) : SliceState blockedAt pid s' :=
  ⟨hframe.resumePending.trans h.taken, hframe.yieldRequest.trans h.proceeds, hsched ▸ h.slice,
    hsched ▸ h.records⟩

theorem SliceState.framed : Framed (SliceState (W := W) blockedAt pid) :=
  fun _ _ hframe hsched _ hs => hs.of_frame hframe hsched

theorem SliceState.framed_before :
    Framed fun s : State W => SliceState blockedAt pid s ∧ s.signals = [] :=
  fun _ _ hframe hsched hsignals hs => ⟨hs.1.of_frame hframe hsched, hsignals.trans hs.2⟩

theorem SliceState.transfer {s : State W} (h : SliceState blockedAt pid s)
    (hpending : vm.resumePending = s.vm.resumePending)
    (hyield : vm.yieldRequest = s.vm.yieldRequest) :
    SliceState blockedAt pid { s with vm := vm, scope := scope } :=
  ⟨hpending.trans h.taken, hyield.trans h.proceeds, h.slice, h.records⟩

theorem SliceState.block {s : State W} (h : SliceState blockedAt pid s) (hsignals : s.signals = [])
    (events : EventQueue) (kind : BlockKind) (waitPid token a : Nat)
    (hconsistent : Consistent ({ s.sched with events := events }.blockCurrent kind waitPid token)) :
    SliceState blockedAt pid (blockCurrent kind waitPid token a
        { s with sched := { s.sched with events := events } }).2 ∧
      (blockCurrent kind waitPid token a
        { s with sched := { s.sched with events := events } }).2.signals = [.block a] := by
  have hsched := blockCurrent_sched kind waitPid token a
    { s with sched := { s.sched with events := events } }
  have hcurrent : ({ s.sched with events := events }.blockCurrent kind waitPid token).current =
      some pid := (blockCurrent_current _ _ _).trans h.slice.current
  have hvm : ∀ s : State W, (blockCurrent kind waitPid token a s).2.vm = s.vm := by
    intro s
    unfold blockCurrent State.signal
    rw [Action.modify_bind_run]
    unfold Action.modify
    dsimp only
    split_ifs <;> rfl
  refine ⟨⟨by rw [hvm]; exact h.taken, by rw [hvm]; exact h.proceeds, ?_, ?_⟩, ?_⟩
  · rw [hsched]
    exact ⟨hconsistent, hcurrent⟩
  · rw [hsched]
    exact blockCurrent_records h.slice.current events kind waitPid token h.records
  · unfold blockCurrent State.signal
    rw [Action.modify_bind_run]
    unfold Action.modify
    dsimp only
    rw [hcurrent, hsignals]
    rfl

theorem resume_hooks (host : Host W) (program : Program) (ins : Instruction) :
    Hooks host program ins (fun s => SliceState blockedAt pid s ∧ s.signals = [])
      (SliceState blockedAt pid) (fun s => s.signals = [.block ins.ra])
      (fun _ callee => callee.resumePending = false) True where
  framed := SliceState.framed_before
  framedAfter := SliceState.framed
  weaker := fun _ hs => hs.1
  absent := fun _ _ => trivial
  destination := fun _ _ => trivial
  call := by
    intro _ s hs
    unfold State.transfer
    rcases vmCall_cases program ins.ra ins.rb ins.rc ins.imm s.vm s.scope with
      hfail | ⟨ip, frame, scope, _, hcall⟩
    · rw [hfail]
      exact hs
    · rw [hcall]
      exact ⟨⟨hs.1.transfer rfl rfl, hs.2⟩, trivial⟩
  ret := by
    intro s hs
    unfold State.transfer vmReturn
    cases s.vm.frames with
    | nil => exact hs
    | cons frame frames =>
      dsimp only
      cases program.functions[frame.functionIndex]? with
      | none => exact hs
      | some function =>
        dsimp only
        cases Registers.write frame.returnRegister
          ((s.scope.getVariable function.returnName).getD .null) frame.savedRegisters with
        | none => trivial
        | some registers => exact ⟨⟨hs.1.transfer rfl rfl, hs.2⟩, trivial⟩
  spawn := by
    intro callee index args forkScope _ s hs
    unfold spawn
    dsimp only
    generalize (if forkScope = true then s.scope.clone else Scope.empty) = scope
    have hslice := hs.1.slice.spawnFunc callee index args scope
    have hrecords := spawnFunc_records hs.1.slice.consistent hs.1.records callee index args scope
    generalize s.sched.spawnFunc callee index args scope = result at hslice hrecords
    obtain ⟨outcome, sched⟩ := result
    have hspawned : SliceState blockedAt pid { s with sched := sched } :=
      ⟨hs.1.taken, hs.1.proceeds, hslice, hrecords⟩
    cases outcome with
    | ok child => exact ⟨⟨hspawned, hs.2⟩, trivial⟩
    | error e =>
      cases e with
      | failed => exact ⟨hspawned, hs.2⟩
      | fault => trivial
  yield := by
    intro s hs
    unfold State.signal Action.modify
    dsimp only
    split_ifs
    · exact ⟨hs.1.taken, hs.1.proceeds, hs.1.slice, hs.1.records⟩
    · exact hs.1
  await := by
    intro _ s waitPid target hs htarget hself hlive
    exact hs.1.block hs.2 s.sched.events .await waitPid 0 ins.ra
      (hs.1.slice.consistent.await hs.1.slice.current htarget hself hlive)
  wait := by
    intro _ s kind add hs hkind hadd
    have hne : kind ≠ .await := by
      cases hkind <;> simp
    rw [hs.1.slice.current] at hadd
    exact hs.1.block hs.2 _ kind 0 _ ins.ra
      (hs.1.slice.consistent.wait hs.1.slice.current hne hadd)
  tryCall := by
    rintro _ _ callee ⟨registers, frame, ip, _, rfl⟩
    rfl
  evalString := fun _ _ _ => trivial
  evalCall := fun _ _ => rfl

end

section

variable {blockedAt : Nat → Option Nat} {pid : Nat}

/-- What a turn of `last` leaves: no pending value, and where it suspends the process, the
destination of the instruction that blocked, unless the process only yielded. -/
def TurnFits (blockedAt : Nat → Option Nat) (pid : Nat) (last : Machine W) : Progress W → Prop
  | .running m => m.AllTaken ∧ RecordsFit blockedAt (fun q => q = pid) m.sched
  | .finished status m => RecordsFit blockedAt (fun q => q = pid) m.sched ∧
      (status = .suspended → m.current.vm.resumePending = false ∧
        m.current.vm.yieldRequest = false ∧
        (last.current.vm.yieldRequest = true ∧ m.sched = last.sched ∨
          System.destination last = some m.current.vm.resumeRegister))
  | .fault _ => True

theorem leave_fits {last : Machine W}
    (hcallers : ∀ caller ∈ m.callers, caller.1.vm.resumePending = false)
    (hrecords : RecordsFit blockedAt (fun q => q = pid) m.sched)
    (hsuspended : status = .suspended → m.callers = [] →
      m.current.vm.resumePending = false ∧ m.current.vm.yieldRequest = false ∧
        (last.current.vm.yieldRequest = true ∧ m.sched = last.sched ∨
          System.destination last = some m.current.vm.resumeRegister)) :
    TurnFits blockedAt pid last (m.leave status) := by
  have hsched := Machine.leave_sched m status
  cases hleave : m.leave status with
  | running m' =>
    rw [hleave] at hsched
    refine ⟨Machine.leave_go_taken m status _ _ hcallers m' hleave, ?_⟩
    exact (show m'.sched = m.sched from hsched) ▸ hrecords
  | finished status' m' =>
    rw [hleave] at hsched
    have hsame : m'.sched = m.sched := hsched
    refine ⟨hsame ▸ hrecords, ?_⟩
    rintro rfl
    rcases Machine.leave_go_finished m hleave with herror | ⟨hnone, rfl, hvm⟩
    · cases herror
    · rw [hvm, hsame]
      exact hsuspended rfl hnone
  | fault m' => trivial

theorem step_resume (host : Host W) (hslice : InSlice pid m.sched)
    (hrecords : RecordsFit blockedAt (fun q => q = pid) m.sched)
    (htakes : m.TakesResume (blockedAt pid)) : TurnFits blockedAt pid m (m.step host) := by
  have hcallers : ∀ caller ∈ m.callers, caller.1.vm.resumePending = false := by
    rcases htakes with htaken | ⟨hnone, _⟩
    · exact (Machine.allTaken_iff.mp htaken).2
    · rw [hnone]
      simp
  have hturn := Machine.step_turn host m
  generalize m.step host = p at hturn
  cases hturn with
  | halted => exact leave_fits hcallers hrecords fun hstatus => by cases hstatus
  | yielded quantum hyield =>
    refine leave_fits hcallers hrecords fun _ _ => ⟨?_, rfl, Or.inl ⟨hyield, rfl⟩⟩
    rcases htakes with htaken | ⟨_, hproceeds, _⟩
    · exact (Machine.allTaken_iff.mp htaken).1
    · rw [hproceeds] at hyield
      cases hyield
  | fault quantum => trivial
  | failed quantum vm => exact leave_fits hcallers hrecords fun hstatus => by cases hstatus
  | executes quantum vm ins hrunning hyield hresume hfetch =>
    have hkept : vm.resumePending = false ∧ vm.yieldRequest = m.current.vm.yieldRequest ∧
        vm.ip = m.current.vm.ip := by
      unfold Machine.resume at hresume
      split_ifs at hresume with hpending
      · obtain ⟨registers, _, rfl⟩ := Option.map_eq_some_iff.mp hresume
        exact ⟨rfl, rfl, rfl⟩
      · cases hresume
        exact ⟨by simpa using hpending, rfl, rfl⟩
    have hdestination : System.destination m = some ins.ra := by
      rw [System.destination, if_neg (by simp [hyield]), ← hkept.2.2, hfetch]
      rfl
    set started := ((m.charge quantum).setVm (Machine.countStep vm)).fetch with hstarted
    have hbefore : SliceState blockedAt pid started.state ∧ started.state.signals = [] :=
      ⟨⟨hkept.1, hkept.2.1.trans hyield, hslice, hrecords⟩, rfl⟩
    have hexec := (resume_hooks host m.current.program ins).exec started.state hbefore
    unfold Machine.execute
    have hprogram : ((m.charge quantum).setVm (Machine.countStep vm)).current.program =
        m.current.program := rfl
    rw [hprogram, ← hstarted]
    generalize exec host m.current.program ins started.state = result at hexec
    obtain ⟨outcome, t⟩ := result
    -- The state behind the instruction, its signals delivered to the outermost call.
    have hdelivered : SliceState blockedAt pid t → (started.withState t).AllTaken ∧
        (started.withState t).sched = t.sched := by
      intro ht
      refine ⟨Machine.signal_taken _ (Machine.allTaken_iff.mpr ⟨ht.taken, hcallers⟩),
        Machine.withState_sched _ _⟩
    cases outcome with
    | ok next =>
      obtain ⟨hstate, hnext⟩ := hexec
      obtain ⟨htaken, hsched⟩ := hdelivered hstate
      have hrecords' : RecordsFit blockedAt (fun q => q = pid) (started.withState t).sched := by
        rw [hsched]
        exact hstate.records
      obtain ⟨hcurrent, hwaiting⟩ := Machine.allTaken_iff.mp htaken
      cases next with
      | step => exact ⟨htaken, hrecords'⟩
      | suspend =>
        refine leave_fits hwaiting hrecords' fun _ hnone => ⟨hcurrent, ?_, Or.inr ?_⟩
        · rw [Machine.withState_base hnone, show t.signals = [.block ins.ra] from hnext]
          exact hstate.proceeds
        · rw [Machine.withState_base hnone, show t.signals = [.block ins.ra] from hnext]
          exact hdestination
      | enter entry program callee =>
        refine ⟨Machine.allTaken_iff.mpr ⟨hnext, fun caller hcaller => ?_⟩, hrecords'⟩
        rcases List.mem_cons.mp hcaller with rfl | hold
        · exact hcurrent
        · exact hwaiting caller hold
    | error e =>
      cases e with
      | failed =>
        obtain ⟨htaken, hsched⟩ := hdelivered hexec.1
        refine leave_fits (Machine.allTaken_iff.mp htaken).2 ?_ fun hstatus => by cases hstatus
        rw [hsched]
        exact hexec.1.records
      | fault => trivial

end

section

variable {blockedAt : Nat → Option Nat} {pid : Nat} {s : Sched}

theorem find_suspend (hfound : s.find pid = some proc) (q : Nat) :
    (s.suspend pid).find q = if q = pid then
      some (if proc.state = .running then setState .runnable proc else proc) else s.find q := by
  unfold Sched.suspend
  rw [hfound]
  dsimp only
  split_ifs with hrunning hq hq
  · rw [find_enqueue (show find pid { s with current := none } = some proc from hfound), if_pos hq]
  · rw [find_enqueue (show find pid { s with current := none } = some proc from hfound), if_neg hq]
    rfl
  · rw [hq]
    exact hfound
  · rfl

theorem enter_kept {program : Program} {vm' : Vm} {scope' : Scope}
    (h : Machine.enter program vm scope = .ok (vm', scope')) :
    vm'.resumePending = vm.resumePending ∧ vm'.yieldRequest = vm.yieldRequest ∧
      vm'.resumeRegister = vm.resumeRegister := by
  unfold Machine.enter at h
  cases hentry : vm.entryFunction with
  | none =>
    rw [hentry] at h
    cases h
    exact ⟨rfl, rfl, rfl⟩
  | some index =>
    rw [hentry] at h
    dsimp only at h
    unfold Machine.enterAt at h
    cases hfunction : program.functions[index]? with
    | none => simp [hfunction] at h
    | some function =>
      simp only [hfunction] at h
      split_ifs at h
      simp only [bind, Except.bind] at h
      rcases vmCall_cases program 0 2 vmReturnReg index
        { vm with ip := program.code.length - 1 } scope with
        hfail | ⟨ip, frame, scope'', _, hcall⟩
      · rw [hfail] at h
        cases h
      · rw [hcall] at h
        cases h
        exact ⟨rfl, rfl, rfl⟩

theorem startSlice_takes {g : Option Nat} (hproc : RecordFits g proc) (world : W) (h : System.startSlice proc s world = .running m) :
    m.TakesResume g ∧ m.sched = s := by
  unfold System.startSlice Machine.start at h
  cases henter : Machine.enter proc.program proc.vm (proc.scope.getD s.globals) with
  | error e =>
    rw [henter] at h
    cases e <;> cases h
  | ok result =>
    obtain ⟨vm, scope⟩ := result
    rw [henter] at h
    cases h
    have hkept := enter_kept henter
    refine ⟨?_, rfl⟩
    cases hpending : vm.resumePending with
    | false => exact Or.inl (Machine.allTaken_iff.mpr ⟨hpending, by simp⟩)
    | true =>
      refine Or.inr ⟨rfl, hkept.2.1.trans hproc.yields, ?_⟩
      rw [hkept.2.2]
      exact hproc.resume (Or.inl (hkept.1.symm.trans hpending))

theorem startSlice_finished {world : W}
    (h : System.startSlice proc s world = .finished status m) :
    status = .error ∧ m.sched = s := by
  unfold System.startSlice Machine.start at h
  cases henter : Machine.enter proc.program proc.vm (proc.scope.getD s.globals) with
  | ok result =>
    rw [henter] at h
    cases h
  | error e =>
    rw [henter] at h
    cases e <;> cases h
    exact ⟨rfl, rfl⟩

theorem find_writeBack (hfound : m.sched.find pid = some proc)
    (q : Nat) : (System.writeBack pid m).find q = if q = pid then
      some { proc with vm := m.current.vm, scope := proc.scope.map fun _ => m.scope }
      else m.sched.find q := by
  unfold System.writeBack
  rw [hfound]
  show (m.sched.update pid fun proc =>
    { proc with vm := m.current.vm, scope := proc.scope.map fun _ => m.scope }).find q = _
  rw [find_update (f := fun proc : Proc =>
    { proc with vm := m.current.vm, scope := proc.scope.map fun _ => m.scope }) (fun _ => rfl),
    hfound]
  rfl

/-- A slice that suspends its process leaves it runnable with nothing pending, or blocked with
the register of the instruction that blocked. -/
theorem endSlice_records {last : Machine W} (hslice : InSlice pid m.sched)
    (hfits : TurnFits blockedAt pid last (.finished status m))
    (hallowed : status = .suspended → last.current.vm.yieldRequest = true →
      ∀ proc, last.sched.find pid = some proc → proc.state = .running) :
    RecordsFit (System.recordEnd pid status last blockedAt) (fun _ => False)
      (System.endSlice pid status m) := by
  obtain ⟨proc, hfound, hstate⟩ := hslice.consistent.active pid hslice.current
  obtain ⟨hrecords, hsuspended⟩ := hfits
  have hfind := find_writeBack hfound
  have hback : (System.writeBack pid m).find pid =
      some { proc with vm := m.current.vm, scope := proc.scope.map fun _ => m.scope } := by
    rw [hfind, if_pos rfl]
  have hothers : RecordsFit blockedAt (fun q => False ∨ q = pid)
      { System.writeBack pid m with current := none } := by
    intro q other hq hother hlive
    have hne : ¬ q = pid := fun heq => hq (Or.inr heq)
    have hother' : (System.writeBack pid m).find q = some other := hother
    rw [hfind, if_neg hne] at hother'
    exact hrecords q other hne hother' hlive
  unfold System.endSlice
  cases status with
  | error =>
    have hsame : System.recordEnd pid .error last blockedAt = blockedAt := if_neg (by simp)
    rw [hsame]
    exact zombify_records (s := { System.writeBack pid m with current := none }) hback hothers (-1)
  | done =>
    have hsame : System.recordEnd pid .done last blockedAt = blockedAt := if_neg (by simp)
    rw [hsame]
    exact zombify_records (s := { System.writeBack pid m with current := none }) hback hothers
      m.current.vm.exitCode
  | suspended =>
    obtain ⟨htaken, hyield, hwhere⟩ := hsuspended rfl
    intro q other _ hother hlive
    dsimp only at hother
    rw [find_suspend hback] at hother
    unfold System.recordEnd
    rw [if_pos rfl]
    split_ifs at hother ⊢ with hq hrunning
    · cases hother
      refine ⟨hyield, ?_⟩
      rintro (hpending | hblocked)
      · exact absurd (htaken.symm.trans hpending) (by simp)
      · rcases hblocked with hs | hs <;> cases hs
    · cases hother
      refine ⟨hyield, ?_⟩
      rintro (hpending | hblocked)
      · exact absurd (htaken.symm.trans hpending) (by simp)
      · rcases hwhere with ⟨hyielded, hsame⟩ | hwhere
        · exact absurd (hallowed rfl hyielded proc (hsame ▸ hfound)) hrunning
        · exact hwhere
    · have hne : ¬ (False ∨ q = pid) := by
        rintro (h | h)
        · exact h
        · exact hq h
      exact hothers q other hne hother hlive

theorem find_pick (h : Consistent s) (hdequeue : s.dequeue = some (pid, sched))
    (q : Nat) : (sched.pick pid).find q =
      if q = pid then (s.find pid).map (setState .running) else s.find q := by
  obtain ⟨_, _, _, _, _, hsched⟩ := h.dequeue hdequeue
  have hsame : ∀ q, sched.find q = s.find q := fun q => by rw [hsched]; rfl
  show (sched.update pid (setState .running)).find q = _
  rw [find_update (setState_pid _), hsame, hsame]

theorem pick_records (h : Consistent s)
    (hdequeue : s.dequeue = some (pid, sched))
    (hrecords : RecordsFit blockedAt (fun _ => False) s) :
    RecordsFit blockedAt (fun q => q = pid) (sched.pick pid) ∧
      ∀ proc, (sched.pick pid).find pid = some proc → RecordFits (blockedAt pid) proc := by
  have hfind := find_pick h hdequeue
  refine ⟨fun q other hq hother hlive => ?_, fun proc hproc => ?_⟩
  · rw [hfind, if_neg hq] at hother
    exact hrecords q other id hother hlive
  · rw [hfind, if_pos rfl] at hproc
    obtain ⟨old, hold, rfl⟩ := Option.map_eq_some_iff.mp hproc
    obtain ⟨found, _, hfound, hrunnable, _⟩ := h.dequeue hdequeue
    rw [hold] at hfound
    cases hfound
    have hfits := hrecords pid old id hold (by simp [hrunnable])
    refine ⟨hfits.yields, ?_⟩
    rintro (hpending | hblocked)
    · exact hfits.resume (Or.inl hpending)
    · rcases hblocked with hs | hs <;> cases hs

structure SliceFits (blockedAt : Nat → Option Nat) (pid : Nat) (m : Machine W) : Prop where
  slice : InSlice pid m.sched
  records : RecordsFit blockedAt (fun q => q = pid) m.sched
  takes : m.TakesResume (blockedAt pid)

theorem reaches_fits {p p' : Progress W}
    (h : ∀ m, p = .running m → SliceFits blockedAt pid m) (hreach : Machine.Reaches host p p') :
    ∀ m, p' = .running m → SliceFits blockedAt pid m := by
  induction hreach with
  | refl => exact h
  | step _ ih =>
    rename_i m _
    intro m' hnext
    have hfits := ih m rfl
    have hturn := step_resume host hfits.slice hfits.records hfits.takes
    rw [hnext] at hturn
    refine ⟨?_, hturn.2, Or.inl hturn.1⟩
    rcases step_inSlice host (m := m) hfits.slice with ⟨m₁, hfault⟩ | hslice
    · rw [hnext] at hfault
      cases hfault
    · rwa [hnext] at hslice

end

namespace System

structure Rested (s : System W) : Prop where
  idle : Idle s.sched
  records : RecordsFit s.blockedAt (fun _ => False) s.sched

/-- A turn at the head of a loop that ends by a yield, or a turn in a process that is not
marked as blocked. -/
def Unmarked (m : Machine W) : Prop :=
  m.current.vm.yieldRequest = true → ∀ proc, m.sched.currentProc = some proc →
    proc.state = .running

theorem Rested.slice {s : System W} (h : Rested s) {pid : Nat} (hdequeue : s.sched.dequeue = some (pid, sched))
    (hproc : (sched.pick pid).find pid = some proc)
    (hrun : Machine.Reaches host (startSlice proc (sched.pick pid) s.world) (.running m)) :
    SliceFits s.blockedAt pid m := by
  have hslice := h.idle.pick hdequeue
  obtain ⟨hrecords, hpicked⟩ := pick_records h.idle.consistent hdequeue h.records
  refine reaches_fits (fun first hfirst => ?_) hrun m rfl
  obtain ⟨htakes, hsched⟩ := startSlice_takes (hpicked proc hproc) s.world hfirst
  exact ⟨hsched ▸ hslice, hsched ▸ hrecords, htakes⟩

theorem Step.rested {s s' : System W} (h : Rested s)
    (hstep : Step host Unmarked s s') : Rested s' := by
  refine ⟨hstep.idle h.idle, ?_⟩
  cases hstep with
  | spawnMain program entryFunction => exact spawnMain_records h.records program entryFunction
  | spawnFunc program index args scope =>
    exact spawnFunc_records h.idle.consistent h.records program index args scope
  | dispatch max poll => exact handleEvents_records h.idle h.records max poll
  | world => exact h.records
  | slice hdequeue hproc hrun hend hallowed =>
    rename_i pid sched proc last m status
    have hfits := h.slice hdequeue hproc hrun
    have hturn := step_resume host hfits.slice hfits.records hfits.takes
    have hslice := reaches_inSlice (startSlice_inSlice (h.idle.pick hdequeue) _) (.step hrun)
    rw [hend] at hturn hslice
    refine endSlice_records hslice hturn fun hstatus hyield found hfound => ?_
    refine hallowed hstatus hyield found ?_
    rw [Sched.currentProc, hfits.slice.current]
    exact hfound
  | failedSlice hdequeue hproc hend =>
    rename_i pid sched proc m status
    have hslice : ProgressInSlice pid (startSlice proc (sched.pick pid) s.world) :=
      startSlice_inSlice (h.idle.pick hdequeue) s.world
    have hfailed := startSlice_finished hend
    rw [hend] at hslice
    have hrecords := (pick_records h.idle.consistent hdequeue h.records).1
    obtain ⟨rfl, hsched⟩ := hfailed
    have herror : recordEnd pid .error m s.blockedAt = s.blockedAt := if_neg (by simp)
    have hfits : TurnFits s.blockedAt pid m (.finished .error m) :=
      ⟨hsched ▸ hrecords, fun hstatus => by cases hstatus⟩
    have hend' := endSlice_records hslice hfits fun hstatus => by cases hstatus
    rw [herror] at hend'
    exact hend'

theorem Reachable.rested {globals : Scope} {world : W} {s : System W}
    (h : Reachable host Unmarked (init globals world) s) : Rested s := by
  induction h with
  | refl =>
    refine ⟨init_consistent globals, fun q proc _ hproc => ?_⟩
    simp [init, Sched.init, Sched.find] at hproc
  | step _ hstep ih => exact hstep.rested ih

end System

def trySleepProgram : Program where
  code := [{ opcode := .loadConst, immediate := 1 }, { opcode := .oop, a := 5, b := 1, immediate := 2 },
    { opcode := .oop, a := 6, immediate := 3 }, { opcode := .halt },
    { opcode := .loadConst }, { opcode := .oop, a := 7, b := 1, immediate := 0 },
    { opcode := .ret }, { opcode := .halt }]
  constants := [.integer 0, .string (.lit "f")]
  strings := [some (.lit "sleep"), some (.lit "f"), some (.lit "try"), some (.lit "yield")]
  functions := [⟨.lit "f", some (.lit "r"), [], 4, [.lit "r"]⟩]
  oopSites := []
  scanSites := []

namespace System

def afterSlice (program : Program) : Option (Machine Unit × System Unit) :=
  runSlice bareHost 20
    ⟨((Sched.init Scope.empty).spawnMain program none).2, (), fun _ => none⟩

def awoken (s : System Unit) : System Unit :=
  { s with sched := s.sched.handleEvents 8 ⟨0, fun _ => none, fun _ => false⟩ }

theorem afterSlice_reachable {program : Program} {last : Machine Unit} {s : System Unit}
    {A : Machine Unit → Prop} (h : afterSlice program = some (last, s)) (hallowed : A last) :
    Reachable bareHost A (init Scope.empty ()) (awoken s) :=
  .step (.step (.step .refl (.spawnMain program none _)) (runSlice_step h hallowed))
    (.dispatch 8 ⟨0, fun _ => none, fun _ => false⟩ s)

theorem firstMachine_applies (host : Host W) {s : System W} {pid register : Nat}
    (h : s.firstMachine.map (fun first => (first.1, first.2.current.vm.running, first.2.current.vm.yieldRequest,
      first.2.current.vm.resumePending, first.2.current.vm.resumeRegister)) = some (pid, true, false, true, register)) :
    ∃ sched proc m, s.sched.dequeue = some (pid, sched) ∧ (sched.pick pid).find pid = some proc ∧
      Machine.Reaches host (startSlice proc (sched.pick pid) s.world) (.running m) ∧ m.AppliesResume register := by
  obtain ⟨⟨first, m⟩, hm, hrecord⟩ := Option.map_eq_some_iff.mp h
  obtain ⟨rfl, hrunning, hproceeds, hpending, hregister⟩ : first = pid ∧ _ := by
    simpa using hrecord
  obtain ⟨sched, proc, hdequeue, hproc, hstart⟩ := firstMachine_eq_some hm
  exact ⟨sched, proc, m, hdequeue, hproc, hstart ▸ .refl _, hrunning, hproceeds, hpending, hregister⟩

end System

/-- In runs whose yields find the process running, a pending value goes to the destination of
the instruction at which the process's VM was blocked when its last slice ended. -/
theorem resume_where_blocked (host : Host W) (globals : Scope) (world : W) (s : System W)
    (h : System.Reachable host System.Unmarked (System.init globals world) s) (pid : Nat)
    (sched : Sched) (proc : Proc) (hdequeue : s.sched.dequeue = some (pid, sched))
    (hproc : (sched.pick pid).find pid = some proc) (m : Machine W)
    (hrun : Machine.Reaches host (System.startSlice proc (sched.pick pid) s.world) (.running m))
    (register : Nat) (happlies : m.AppliesResume register) :
    m.callers = [] ∧ s.blockedAt pid = some register :=
  (h.rested.slice hdequeue hproc hrun).takes.applies happlies

theorem resume_where_blocked_sleep : ∃ s : System Unit,
    System.Reachable bareHost System.Unmarked (System.init Scope.empty ()) s ∧
      s.blockedAt 1 = some 7 := by
  obtain ⟨⟨last, s⟩, hslice⟩ : ∃ r, System.afterSlice sleepProgram = some r :=
    Option.isSome_iff_exists.mp (by decide +kernel)
  have hlast : (System.afterSlice sleepProgram).map (fun r => r.1.current.vm.yieldRequest) =
      some false := by decide +kernel
  have hfirst : (System.afterSlice sleepProgram).map (fun r => (System.awoken r.2).firstMachine.map
      fun first => (first.1, first.2.current.vm.running, first.2.current.vm.yieldRequest,
        first.2.current.vm.resumePending, first.2.current.vm.resumeRegister)) =
      some (some (1, true, false, true, 7)) := by decide +kernel
  rw [hslice] at hlast hfirst
  have hreach := System.afterSlice_reachable (A := System.Unmarked) hslice
    fun hyield => absurd (Option.some.inj hlast) (by simp [hyield])
  obtain ⟨sched, proc, m, hdequeue, hproc, hstart, happlies⟩ := System.firstMachine_applies bareHost (Option.some.inj hfirst)
  exact ⟨_, hreach, (resume_where_blocked bareHost Scope.empty () _ hreach 1 sched proc hdequeue
    hproc m hstart 7 happlies).2⟩

/-- The wake-up of a function that slept under `try` goes to a VM that had only yielded. -/
theorem resume_where_blocked_fails :
    ¬ ∀ (host : Host Unit) (globals : Scope) (world : Unit) (s : System Unit),
      System.Reachable host (fun _ => True) (System.init globals world) s →
      ∀ (pid : Nat) (sched : Sched) (proc : Proc), s.sched.dequeue = some (pid, sched) →
      (sched.pick pid).find pid = some proc → ∀ m : Machine Unit,
      Machine.Reaches host (System.startSlice proc (sched.pick pid) s.world) (.running m) →
      ∀ register : Nat, m.AppliesResume register →
        m.callers = [] ∧ s.blockedAt pid = some register := by
  intro hclaim
  obtain ⟨⟨last, s⟩, hslice⟩ : ∃ r, System.afterSlice trySleepProgram = some r :=
    Option.isSome_iff_exists.mp (by decide +kernel)
  have hblocked : (System.afterSlice trySleepProgram).map (fun r => r.2.blockedAt 1) =
      some none := by decide +kernel
  have hfirst : (System.afterSlice trySleepProgram).map (fun r =>
      (System.awoken r.2).firstMachine.map
      fun first => (first.1, first.2.current.vm.running, first.2.current.vm.yieldRequest,
        first.2.current.vm.resumePending, first.2.current.vm.resumeRegister)) =
      some (some (1, true, false, true, 7)) := by decide +kernel
  rw [hslice] at hblocked hfirst
  have hreach := System.afterSlice_reachable (A := fun _ => True) hslice trivial
  obtain ⟨sched, proc, m, hdequeue, hproc, hstart, happlies⟩ := System.firstMachine_applies bareHost (Option.some.inj hfirst)
  have hwhere := (hclaim bareHost Scope.empty () _ hreach 1 sched proc hdequeue hproc m hstart 7 happlies).2
  have hnone : (System.awoken s).blockedAt 1 = none := Option.some.inj hblocked
  rw [hnone] at hwhere
  cases hwhere

end Ussr
