import Ussr.Sched.System
import Mathlib.Algebra.BigOperators.Fin

/-! No wake-up is lost: between slices every process is queued once, has ended,
has one event of its own in the event queue, or awaits a process that has not
ended. -/

namespace Ussr
open Sched

variable {W : Type}
variable {m : Machine W} {host : Host W} {proc : Proc}

/-- Inside a slice of process `pid`. -/
structure InSlice (pid : Nat) (s : Sched) : Prop where
  consistent : Consistent s
  current : s.current = some pid

section

variable {pid : Nat}

theorem framed_sched (J : Sched → Prop) : Framed fun s : State W => J s.sched := by
  intro s s' _ hsched _ hs
  rw [hsched]
  exact hs

theorem keeps_transfer_sched (J : Sched → Prop) (f : Vm → Scope → Except Stop (Vm × Scope)) :
    Action.Keeps (fun s : State W => J s.sched) True (fun _ => True) (State.transfer f) := by
  intro s hs
  unfold State.transfer
  cases f s.vm s.scope with
  | ok result => exact ⟨hs, trivial⟩
  | error e =>
    cases e with
    | failed => exact hs
    | fault => trivial

theorem InSlice.spawnFunc {s : Sched} (h : InSlice pid s) (program : Program) (index : Nat)
    (args : List Value) (scope : Scope) : InSlice pid (s.spawnFunc program index args scope).2 :=
  ⟨h.consistent.spawnFunc program index args scope, (spawnFunc_current _ _ _ _).trans h.current⟩

theorem blockCurrent_current {s : Sched} (kind : BlockKind) (waitPid token : Nat) :
    (s.blockCurrent kind waitPid token).current = s.current := by
  unfold Sched.blockCurrent
  cases hcurrent : s.current with
  | none => exact hcurrent
  | some pid => exact hcurrent

theorem blockCurrent_sched (kind : BlockKind) (waitPid token a : Nat) (s : State W) :
    (blockCurrent kind waitPid token a s).2.sched = s.sched.blockCurrent kind waitPid token := by
  unfold blockCurrent State.signal
  rw [Action.modify_bind_run]
  unfold Action.modify
  dsimp only
  split_ifs <;> rfl

theorem slice_hooks (host : Host W) (program : Program) (ins : Instruction) :
    Hooks host program ins (fun s => InSlice pid s.sched) (fun s => InSlice pid s.sched)
      (fun _ => True) (fun _ _ => True) True where
  framed := framed_sched _
  framedAfter := framed_sched _
  weaker := fun _ hs => hs
  absent := fun _ _ => trivial
  destination := fun _ _ => trivial
  call := fun _ => keeps_transfer_sched _ _
  ret := keeps_transfer_sched _ _
  spawn := by
    intro callee index args forkScope _ s hs
    unfold spawn
    dsimp only
    generalize (if forkScope = true then s.scope.clone else Scope.empty) = scope
    have hspawned := hs.spawnFunc callee index args scope
    generalize s.sched.spawnFunc callee index args scope = result at hspawned
    obtain ⟨outcome, sched⟩ := result
    cases outcome with
    | ok child => exact ⟨hspawned, trivial⟩
    | error e =>
      cases e with
      | failed => exact hspawned
      | fault => trivial
  yield := by
    intro s hs
    unfold State.signal Action.modify
    dsimp only
    split_ifs
    · exact hs
    · exact hs
  await := by
    intro _ s waitPid target hs htarget hself hlive
    refine ⟨?_, trivial⟩
    rw [blockCurrent_sched]
    exact ⟨hs.consistent.await hs.current htarget hself hlive,
      (blockCurrent_current _ _ _).trans hs.current⟩
  wait := by
    intro _ s kind add hs hkind hadd
    have hne : kind ≠ .await := by
      cases hkind <;> simp
    rw [hs.current] at hadd
    refine ⟨?_, trivial⟩
    unfold waitFor
    rw [blockCurrent_sched]
    exact ⟨hs.consistent.wait hs.current hne hadd,
      (blockCurrent_current _ _ _).trans hs.current⟩
  tryCall := fun _ _ _ _ => trivial
  evalString := fun _ _ _ => trivial
  evalCall := fun _ _ => trivial

theorem step_inSlice (host : Host W) (h : InSlice pid m.sched) :
    (∃ m', m.step host = .fault m') ∨ InSlice pid (m.step host).machine.sched := by
  have hturn := Machine.step_turn host m
  generalize m.step host = p at hturn
  cases hturn with
  | halted =>
    refine Or.inr ?_
    rw [Machine.leave_sched]
    exact h
  | yielded quantum _ =>
    refine Or.inr ?_
    rw [Machine.leave_sched]
    exact h
  | fault quantum => exact Or.inl ⟨_, rfl⟩
  | failed quantum vm =>
    refine Or.inr ?_
    rw [Machine.leave_sched]
    exact h
  | executes quantum vm ins =>
    have hexec := (slice_hooks host m.current.program ins).exec
      ((m.charge quantum).setVm (Machine.countStep vm)).fetch.state h
    unfold Machine.execute
    rw [Machine.absorb_sched]
    generalize hrun : exec host m.current.program ins
      ((m.charge quantum).setVm (Machine.countStep vm)).fetch.state = result at hexec
    have hprogram : ((m.charge quantum).setVm (Machine.countStep vm)).current.program =
        m.current.program := rfl
    rw [hprogram, hrun]
    obtain ⟨outcome, s⟩ := result
    cases outcome with
    | ok next => exact Or.inr hexec.1
    | error e =>
      cases e with
      | failed => exact Or.inr hexec
      | fault => exact Or.inl ⟨_, rfl⟩

end

/-- What `p` says of a slice: a fault ends everything. -/
def ProgressInSlice (pid : Nat) : Progress W → Prop
  | .running m => InSlice pid m.sched
  | .finished _ m => InSlice pid m.sched
  | .fault _ => True

theorem reaches_inSlice {pid : Nat} {p p' : Progress W}
    (h : ProgressInSlice pid p) (hreach : Machine.Reaches host p p') : ProgressInSlice pid p' := by
  induction hreach with
  | refl => exact h
  | step _ ih =>
    rename_i m _
    rcases step_inSlice host (m := m) ih with ⟨m', hfault⟩ | hstep
    · rw [hfault]
      trivial
    · cases hnext : m.step host with
      | running m' => rwa [hnext] at hstep
      | finished status m' => rwa [hnext] at hstep
      | fault m' => trivial

section

variable {s : Sched} {pid : Nat}

theorem startSlice_inSlice (h : InSlice pid s) (world : W) :
    ProgressInSlice pid (System.startSlice proc s world) := by
  unfold System.startSlice Machine.start
  cases Machine.enter proc.program proc.vm (proc.scope.getD s.globals) with
  | ok result => exact h
  | error e =>
    cases e with
    | failed => exact h
    | fault => trivial

theorem InSlice.writeBack (h : InSlice pid m.sched) :
    InSlice pid (System.writeBack pid m) := by
  unfold System.writeBack
  cases hfound : m.sched.find pid with
  | none => exact h
  | some proc =>
    have htouched := h.consistent.touch hfound (f := fun proc =>
      { proc with vm := m.current.vm, scope := proc.scope.map fun _ => m.scope })
      (fun _ => ⟨rfl, rfl, rfl, rfl, rfl, rfl⟩)
      (if proc.scope.isNone then m.scope else m.sched.globals)
    exact ⟨htouched, h.current⟩

structure Idle (s : Sched) : Prop where
  consistent : Consistent s
  current : s.current = none

theorem InSlice.endSlice (h : InSlice pid m.sched) (status : Status) :
    Idle (System.endSlice pid status m) := by
  have hback := h.writeBack
  unfold System.endSlice
  cases status with
  | error =>
    obtain ⟨hconsistent, hcurrent⟩ := hback.consistent.zombify hback.current (-1)
    exact ⟨hconsistent, hcurrent⟩
  | done =>
    obtain ⟨hconsistent, hcurrent⟩ :=
      hback.consistent.zombify hback.current m.current.vm.exitCode
    exact ⟨hconsistent, hcurrent⟩
  | suspended =>
    obtain ⟨hconsistent, hcurrent⟩ := hback.consistent.suspend hback.current
    exact ⟨hconsistent, hcurrent⟩

theorem Idle.pick (h : Idle s) {sched : Sched} (hdequeue : s.dequeue = some (pid, sched)) :
    InSlice pid (sched.pick pid) := ⟨(h.consistent.pick h.current hdequeue).1, rfl⟩

end

namespace System

theorem Step.idle {allowed : Machine W → Prop} {s s' : System W}
    (h : Idle s.sched) (hstep : Step host allowed s s') : Idle s'.sched := by
  cases hstep with
  | spawnMain program entryFunction =>
    refine ⟨h.consistent.spawnMain program entryFunction, ?_⟩
    exact (enqueue_current _).trans h.current
  | spawnFunc program index args scope =>
    exact ⟨h.consistent.spawnFunc program index args scope,
      (spawnFunc_current _ _ _ _).trans h.current⟩
  | dispatch max poll =>
    obtain ⟨hconsistent, hcurrent⟩ := h.consistent.handleEvents h.current max poll
    exact ⟨hconsistent, hcurrent⟩
  | world => exact h
  | slice hdequeue hproc hrun hend hallowed =>
    have hslice := h.pick hdequeue
    have hlast := reaches_inSlice (startSlice_inSlice hslice _) (.step hrun)
    rw [hend] at hlast
    exact InSlice.endSlice hlast _
  | failedSlice hdequeue hproc hend =>
    rename_i pid sched proc m status
    have hslice : ProgressInSlice pid (startSlice proc (sched.pick pid) s.world) :=
      startSlice_inSlice (h.pick hdequeue) s.world
    rw [hend] at hslice
    exact InSlice.endSlice hslice _

theorem init_queue (globals : Scope) (level : Fin schedLevels) :
    (Sched.init globals).queue level = [] := by
  simp [Sched.init, Sched.queue]

theorem init_consistent (globals : Scope) : Idle (Sched.init globals) := by
  refine ⟨⟨⟨by simp [Sched.init], by simp [Sched.init]⟩, ⟨?_, ?_, ?_⟩, ?_, ?_, ?_⟩, rfl⟩
  · intro level
    rw [init_queue]
    simp [Sched.init]
  · intro level
    rw [init_queue]
    exact List.nodup_nil
  · intro level pid
    rw [init_queue]
    simp [Sched.init, Sched.find]
  · exact ⟨Nat.one_pos, by simp [Sched.init, EventQueue.init, EventQueue.entries],
      by simp [Sched.init, EventQueue.init, EventQueue.entries]⟩
  · intro pid proc hproc
    simp [Sched.init, Sched.find] at hproc
  · rintro pid ⟨⟩

theorem Reachable.idle {allowed : Machine W → Prop} {globals : Scope} {world : W}
    {s : System W} (h : Reachable host allowed (init globals world) s) : Idle s.sched := by
  induction h with
  | refl => exact init_consistent globals
  | step _ hstep ih => exact hstep.idle ih

end System

section

variable {s : Sched}

theorem find_wakeAwaiters (dying : Nat) (result : Value) (others : List Nat) (q : Nat) :
    (s.wakeAwaiters dying result others).find q = (s.find q).map fun proc =>
      if q ∈ others ∧ awaits dying proc = true then setState .runnable (woken result proc)
      else proc := by
  induction others generalizing s with
  | nil =>
    unfold wakeAwaiters
    simp
  | cons other others ih =>
    unfold wakeAwaiters
    cases hfound : s.find other with
    | none =>
      dsimp only
      rw [ih]
      cases hq : s.find q with
      | none => rfl
      | some proc =>
        have hne : q ≠ other := by
          rintro rfl
          rw [hfound] at hq
          cases hq
        simp [hne]
    | some proc =>
      dsimp only
      split_ifs with hawaits
      · rw [ih, find_wake hfound]
        split_ifs with hq
        · subst hq
          have hawake : awaits dying (setState .runnable (woken result proc)) = false := by
            simp [awaits, setState]
          simp [hfound, hawaits, hawake]
        · cases s.find q with
          | none => rfl
          | some third => simp [hq]
      · rw [ih]
        cases hq : s.find q with
        | none => rfl
        | some third =>
          by_cases heq : q = other
          · subst heq
            rw [hfound] at hq
            cases hq
            simp [hawaits]
          · simp [heq]

theorem zombify_wakes {target : Proc} (htarget : s.find proc.waitPid = some target)
    (hproc : s.find proc.pid = some proc) (hstate : proc.state = .waiting)
    (hkind : proc.blockKind = .await) (hself : proc.waitPid ≠ proc.pid) (exitCode : Int) :
    ∃ woken, (s.zombify proc.waitPid exitCode).find proc.pid = some woken ∧
      woken.state = .runnable ∧ woken.vm.resumePending = true := by
  unfold zombify
  rw [htarget]
  dsimp only
  set f : Proc → Proc := fun other =>
    { other with
      state := .zombie, exitCode := exitCode, result := target.vm.registers[vmReturnReg] } with hf
  have hpids : ∀ other, (f other).pid = other.pid := fun _ => rfl
  have hmem : proc.pid ∈ (s.update proc.waitPid f).procs.map Proc.pid := by
    rw [update_pids hpids]
    exact List.mem_map_of_mem (find_mem hproc)
  have hawaits : awaits proc.waitPid proc = true := awaits_iff.mpr ⟨hstate, hkind, rfl⟩
  rw [find_wakeAwaiters, find_update hpids, if_neg (Ne.symm hself), hproc, Option.map_some,
    if_pos ⟨hmem, hawaits⟩]
  exact ⟨_, rfl, rfl, rfl⟩

theorem deliver_wakes (hproc : s.find proc.pid = some proc) (hblocked : Blocked proc)
    {event : Event} (hevent : event.key = (proc.pid, proc.blockToken)) :
    ∃ woken, (s.deliver event).find proc.pid = some woken ∧ woken.state = .runnable ∧
      woken.vm.resumePending = true := by
  have howner : event.ownerPid = proc.pid := congrArg Prod.fst hevent
  have htoken : event.token = proc.blockToken := congrArg Prod.snd hevent
  have hlive : proc.state ≠ .zombie := by
    rcases hblocked with hstate | hstate <;> simp [hstate]
  unfold deliver
  rw [howner, hproc]
  dsimp only
  rw [if_neg hlive, if_neg (by simp [htoken]), find_wake hproc, if_pos rfl]
  exact ⟨_, rfl, rfl, rfl⟩

end

inductive Situation where
  | queued | ended | event | await
deriving DecidableEq

def queuePositions (s : Sched) (pid : Nat) : Nat :=
  ∑ level : Fin schedLevels, (s.queue level).count pid

def Situation.Holds (s : Sched) (proc : Proc) : Situation → Prop
  | queued => proc.state = .runnable ∧ queuePositions s proc.pid = 1
  | ended => proc.state = .zombie
  | event => Blocked proc ∧ s.events.entries.count (proc.pid, proc.blockToken) = 1
  | await => proc.state = .waiting ∧ proc.blockKind = .await ∧
      ∃ target, s.find proc.waitPid = some target ∧ target.state ≠ .zombie

section

variable {s : Sched}

theorem queuePositions_eq (h : QueueFits s) (pid : Nat) :
    queuePositions s pid =
      match s.find pid with
      | some proc => if proc.state = .runnable then 1 else 0
      | none => 0 := by
  have hcount : ∀ level : Fin schedLevels, (s.queue level).count pid =
      if pid ∈ s.queue level then 1 else 0 := fun level => (h.once level).count
  unfold queuePositions
  simp only [hcount, h.queued]
  cases hfound : s.find pid with
  | none => simp
  | some proc =>
    by_cases hstate : proc.state = .runnable
    · simp [hstate]
    · simp [hstate]

/-- A blocked process is awaited by one event or waits for one process that runs on. -/
theorem Idle.blocked_situation (h : Idle s) {proc : Proc} (hmem : proc ∈ s.procs) (hblocked : Blocked proc) :
    ∃! situation : Situation, situation.Holds s proc := by
  have hfits := h.consistent.procs proc.pid proc (find_of_mem h.consistent.table.pids hmem)
  have hnil : s.events.entries ++ [] = s.events.entries := List.append_nil _
  have hstate : proc.state ≠ .runnable ∧ proc.state ≠ .zombie := by
    rcases hblocked with hs | hs <;> simp [hs]
  rcases hfits.cause hblocked with ⟨hkind, harmed⟩ | ⟨hwaiting, hkind, htoken, -, target, htarget, hlive⟩
  · rw [hnil] at harmed
    have hcount : s.events.entries.count (proc.pid, proc.blockToken) = 1 := by
      have htokens := h.consistent.events.tokens
      rw [hnil] at htokens
      rw [htokens.of_map.count, if_pos harmed]
    refine ⟨.event, ⟨hblocked, hcount⟩, fun other hother => ?_⟩
    cases other with
    | queued => exact absurd hother.1 hstate.1
    | ended => exact absurd hother hstate.2
    | event => rfl
    | await => exact absurd hother.2.1 hkind
  · have huncounted : s.events.entries.count (proc.pid, proc.blockToken) ≠ 1 := by
      intro hone
      have hentry : (proc.pid, proc.blockToken) ∈ s.events.entries ++ [] := by
        rw [hnil, ← List.count_pos_iff]
        omega
      have hpos := (h.consistent.events.range _ hentry).1
      rw [htoken] at hpos
      exact absurd hpos (Nat.lt_irrefl 0)
    refine ⟨.await, ⟨hwaiting, hkind, target, htarget, hlive.resolve_right id⟩, fun other hother => ?_⟩
    cases other with
    | queued => exact absurd hother.1 hstate.1
    | ended => exact absurd hother hstate.2
    | event => exact absurd hother.2 huncounted
    | await => rfl

theorem Idle.situation (h : Idle s) {proc : Proc} (hmem : proc ∈ s.procs) :
    ∃! situation : Situation, situation.Holds s proc := by
  have hfound := find_of_mem h.consistent.table.pids hmem
  have hfits := h.consistent.procs proc.pid proc hfound
  have hpositions := queuePositions_eq h.consistent.queue proc.pid
  rw [hfound] at hpositions
  dsimp only at hpositions
  cases hstate : proc.state with
  | new => exact absurd hstate hfits.started
  | running =>
    have hcurrent := hfits.running hstate
    rw [h.current] at hcurrent
    cases hcurrent
  | sleeping => exact h.blocked_situation hmem (Or.inl hstate)
  | waiting => exact h.blocked_situation hmem (Or.inr hstate)
  | runnable =>
    rw [if_pos hstate] at hpositions
    refine ⟨.queued, ⟨hstate, hpositions⟩, fun other hother => ?_⟩
    cases other with
    | queued => rfl
    | ended => simp [Situation.Holds, hstate] at hother
    | event => simp [Situation.Holds, Blocked, hstate] at hother
    | await => simp [Situation.Holds, hstate] at hother
  | zombie =>
    refine ⟨.ended, hstate, fun other hother => ?_⟩
    cases other with
    | queued => simp [Situation.Holds, hstate] at hother
    | ended => rfl
    | event => simp [Situation.Holds, Blocked, hstate] at hother
    | await => simp [Situation.Holds, hstate] at hother

theorem Idle.positions_le (h : Idle s) (pid : Nat) : queuePositions s pid ≤ 1 := by
  rw [queuePositions_eq h.consistent.queue]
  split
  · split_ifs <;> omega
  · omega

end

/-- In every state between slices, each process is in exactly one situation and at most once in
the run queue; and what a blocked process waits for makes it runnable. -/
theorem no_lost_wakeups (host : Host W) (globals : Scope) (world : W) (s : System W)
    (h : System.Reachable host (fun _ => True) (System.init globals world) s) :
    (∀ proc ∈ s.sched.procs, ∃! situation : Situation, situation.Holds s.sched proc) ∧
    (∀ pid, queuePositions s.sched pid ≤ 1) ∧
    (∀ proc ∈ s.sched.procs, Situation.event.Holds s.sched proc → ∀ event : Event,
      event.key = (proc.pid, proc.blockToken) →
        ∃ woken, (s.sched.deliver event).find proc.pid = some woken ∧ woken.state = .runnable ∧
          woken.vm.resumePending = true) ∧
    ∀ proc ∈ s.sched.procs, Situation.await.Holds s.sched proc → ∀ exitCode, ∃ woken, 
      (s.sched.zombify proc.waitPid exitCode).find proc.pid = some woken ∧
        woken.state = .runnable ∧ woken.vm.resumePending = true := by
  have hidle := h.idle
  refine ⟨fun proc hmem => hidle.situation hmem, hidle.positions_le, ?_, ?_⟩
  · intro proc hmem hevent event hkey
    exact deliver_wakes (find_of_mem hidle.consistent.table.pids hmem) hevent.1 hkey
  · rintro proc hmem ⟨hstate, hkind, target, htarget, _⟩ exitCode
    have hfound := find_of_mem hidle.consistent.table.pids hmem
    have hself : proc.waitPid ≠ proc.pid := by
      rcases (hidle.consistent.procs _ proc hfound).cause (Or.inr hstate) with
        ⟨hne, _⟩ | ⟨_, _, _, hself, _⟩
      · exact absurd hkind hne
      · exact hself
    exact zombify_wakes htarget hfound hstate hkind hself exitCode

def idleProgram : Program where
  code := [{ opcode := .halt }]
  constants := []
  strings := []
  functions := []
  oopSites := []
  scanSites := []

def sleepProgram : Program where
  code := [{ opcode := .loadConst }, { opcode := .oop, a := 7, b := 1, immediate := 0 },
    { opcode := .halt }]
  constants := [.integer 0]
  strings := [some (.lit "sleep")]
  functions := []
  oopSites := []
  scanSites := []

def awaitProgram : Program where
  code := [{ opcode := .loadConst }, { opcode := .oop, a := 7, b := 1, immediate := 0 },
    { opcode := .halt }]
  constants := [.integer 1]
  strings := [some (.lit "await")]
  functions := []
  oopSites := []
  scanSites := []

def spawnedSystem : System Unit :=
  let first := (Sched.init Scope.empty).spawnMain sleepProgram none
  let second := first.2.spawnMain awaitProgram none
  ⟨(second.2.spawnMain idleProgram none).2, (), fun _ => none⟩

/-- A process sleeps, another one awaits it, a third is still queued. -/
theorem no_lost_wakeups_spawned : ∃ s : System Unit,
    System.Reachable bareHost (fun _ => True) (System.init Scope.empty ()) s ∧
    s.sched.procs.map (fun proc => (proc.pid, proc.state, proc.blockKind)) =
      [(3, .runnable, .none), (2, .waiting, .await), (1, .sleeping, .timer)] ∧
    (∀ proc ∈ s.sched.procs, ∃! situation : Situation, situation.Holds s.sched proc) ∧
    ∀ proc ∈ s.sched.procs, Situation.await.Holds s.sched proc → ∀ exitCode, ∃ woken,
      (s.sched.zombify proc.waitPid exitCode).find proc.pid = some woken ∧
        woken.state = .runnable ∧ woken.vm.resumePending = true := by
  obtain ⟨⟨first, s₁⟩, hfirst⟩ : ∃ r, System.runSlice bareHost 20 spawnedSystem = some r :=
    Option.isSome_iff_exists.mp (by decide +kernel)
  have hstates : ((System.runSlice bareHost 20 spawnedSystem).bind fun r => (System.runSlice bareHost 20 r.2).map
      fun r => r.2.sched.procs.map fun proc => (proc.pid, proc.state, proc.blockKind)) =
      some [(3, .runnable, .none), (2, .waiting, .await), (1, .sleeping, .timer)] := by decide +kernel
  rw [hfirst, Option.bind_some] at hstates
  obtain ⟨⟨second, s₂⟩, hsecond, hprocs⟩ := Option.map_eq_some_iff.mp hstates
  have hspawned : System.Reachable bareHost (fun _ => True) (System.init Scope.empty ()) spawnedSystem :=
    .step (.step (.step .refl (.spawnMain sleepProgram none (System.init Scope.empty ())))
      (.spawnMain awaitProgram none _)) (.spawnMain idleProgram none _)
  have hreach := (hspawned.step (System.runSlice_step hfirst trivial)).step (System.runSlice_step hsecond trivial)
  have hright := no_lost_wakeups bareHost Scope.empty () s₂ hreach
  exact ⟨s₂, hreach, hprocs, hright.1, hright.2.2.2⟩

end Ussr
