import Ussr.Vm.Model

/-! The event queue: registered timers, socket waits and children, each with
the process that owns it and a token of its own. Dispatching moves what has
fired into a bounded batch. Tokens are 64-bit numbers that do not wrap in the
life of a queue. -/

namespace Ussr

structure Timer where
  ownerPid : Nat
  token : Nat
  deadline : Nat
deriving DecidableEq

structure FdWait where
  ownerPid : Nat
  token : Nat
  handle : Nat
  write : Bool
deriving DecidableEq

structure ChildWait where
  ownerPid : Nat
  token : Nat
  child : Nat
deriving DecidableEq

structure EventQueue where
  timers : List Timer
  fds : List FdWait
  children : List ChildWait
  nextToken : Nat
deriving DecidableEq

inductive EventKind where
  | timer | child | readable | writable
deriving DecidableEq

structure Event where
  kind : EventKind
  ownerPid : Nat
  exitCode : Int
  token : Nat
deriving DecidableEq

structure Poll where
  now : Nat
  childExit : Nat → Option Int
  fdReady : Nat → Bool

namespace EventQueue

def init : EventQueue := ⟨[], [], [], 1⟩

def addTimer (ownerPid deadline : Nat) (q : EventQueue) : Nat × EventQueue :=
  (q.nextToken, { q with
    timers := q.timers ++ [⟨ownerPid, q.nextToken, deadline⟩]
    nextToken := q.nextToken + 1 })

def addFd (ownerPid handle : Nat) (write : Bool) (q : EventQueue) : Nat × EventQueue :=
  (q.nextToken, { q with
    fds := q.fds ++ [⟨ownerPid, q.nextToken, handle, write⟩]
    nextToken := q.nextToken + 1 })

def addChild (ownerPid child : Nat) (q : EventQueue) : Nat × EventQueue :=
  (q.nextToken, { q with
    children := q.children ++ [⟨ownerPid, q.nextToken, child⟩]
    nextToken := q.nextToken + 1 })

def pending (q : EventQueue) : Bool :=
  !q.timers.isEmpty || !q.children.isEmpty || !q.fds.isEmpty

def collect {α : Type} (max : Nat) (fires : α → Option Event) :
    List α → List Event → List α × List Event
  | [], fired => ([], fired)
  | entry :: entries, fired =>
    if fired.length < max then
      match fires entry with
      | some event => collect max fires entries (fired ++ [event])
      | none =>
        let rest := collect max fires entries fired
        (entry :: rest.1, rest.2)
    else (entry :: entries, fired)

def timerFires (poll : Poll) (timer : Timer) : Option Event :=
  if timer.deadline ≤ poll.now then some ⟨.timer, timer.ownerPid, 0, timer.token⟩ else none

def childFires (poll : Poll) (entry : ChildWait) : Option Event :=
  (poll.childExit entry.child).map fun code => ⟨.child, entry.ownerPid, code, entry.token⟩

def fdFires (poll : Poll) (entry : FdWait) : Option Event :=
  if poll.fdReady entry.handle then
    some ⟨if entry.write then .writable else .readable, entry.ownerPid, 0, entry.token⟩
  else none

/-- `ussr_eq_dispatch` -/
def dispatch (max : Nat) (poll : Poll) (q : EventQueue) : EventQueue × List Event :=
  let timers := collect max (timerFires poll) q.timers []
  let children := collect max (childFires poll) q.children timers.2
  let fds := collect max (fdFires poll) q.fds children.2
  ({ q with timers := timers.1, children := children.1, fds := fds.1 }, fds.2)

def entries (q : EventQueue) : List (Nat × Nat) :=
  q.timers.map (fun entry => (entry.ownerPid, entry.token)) ++
    (q.children.map (fun entry => (entry.ownerPid, entry.token)) ++
      q.fds.map (fun entry => (entry.ownerPid, entry.token)))

end EventQueue

def Event.key (event : Event) : Nat × Nat := (event.ownerPid, event.token)

/-- The operations that register an entry of `owner`. -/
inductive Adds (owner : Nat) : (EventQueue → Nat × EventQueue) → Prop where
  | timer (deadline : Nat) : Adds owner (EventQueue.addTimer owner deadline)
  | fd (handle : Nat) (write : Bool) : Adds owner (EventQueue.addFd owner handle write)
  | child (child : Nat) : Adds owner (EventQueue.addChild owner child)

namespace EventQueue

theorem Adds.token {owner : Nat} {add : EventQueue → Nat × EventQueue} (h : Adds owner add)
    (q : EventQueue) : (add q).1 = q.nextToken ∧ (add q).2.nextToken = q.nextToken + 1 := by
  cases h <;> exact ⟨rfl, rfl⟩

theorem Adds.entries {owner : Nat} {add : EventQueue → Nat × EventQueue} (h : Adds owner add)
    (q : EventQueue) : (add q).2.entries.Perm ((owner, q.nextToken) :: q.entries) := by
  refine List.perm_iff_count.mpr fun key => ?_
  cases h with
  | timer | fd | child =>
    simp only [EventQueue.entries, addTimer, addFd, addChild, List.map_append, List.map_cons,
      List.map_nil, List.count_append, List.count_cons, List.count_nil]
    omega

theorem collect_perm {α : Type} (max : Nat) (fires : α → Option Event) (key : α → Nat × Nat)
    (hkey : ∀ entry event, fires entry = some event → event.key = key entry)
    (entries : List α) (fired : List Event) :
    ((collect max fires entries fired).1.map key ++
      (collect max fires entries fired).2.map Event.key).Perm
      (entries.map key ++ fired.map Event.key) := by
  induction entries generalizing fired with
  | nil => exact List.Perm.refl _
  | cons entry entries ih =>
    unfold collect
    split_ifs with hroom
    · cases hfires : fires entry with
      | some event =>
        refine (ih (fired ++ [event])).trans ?_
        rw [List.map_append, List.map_cons, List.map_nil, hkey entry event hfires,
          ← List.append_assoc]
        exact List.perm_append_singleton _ _
      | none => exact (ih fired).cons (key entry)
    · exact List.Perm.refl _

theorem dispatch_perm (max : Nat) (poll : Poll) (q : EventQueue) :
    ((q.dispatch max poll).1.entries ++ (q.dispatch max poll).2.map Event.key).Perm q.entries := by
  have htimers := collect_perm max (timerFires poll) (fun entry => (entry.ownerPid, entry.token))
    (fun entry event h => by
      unfold timerFires at h
      split_ifs at h
      cases h
      rfl) q.timers []
  have hchildren := collect_perm max (childFires poll) (fun entry => (entry.ownerPid, entry.token))
    (fun entry event h => by
      obtain ⟨code, _, rfl⟩ := Option.map_eq_some_iff.mp h
      rfl) q.children (collect max (timerFires poll) q.timers []).2
  have hfds := collect_perm max (fdFires poll) (fun entry => (entry.ownerPid, entry.token))
    (fun entry event h => by
      unfold fdFires at h
      split_ifs at h <;> cases h <;> rfl) q.fds (collect max (childFires poll) q.children
        (collect max (timerFires poll) q.timers []).2).2
  refine List.perm_iff_count.mpr fun key => ?_
  have h₁ := htimers.count_eq key
  have h₂ := hchildren.count_eq key
  have h₃ := hfds.count_eq key
  simp only [List.count_append, List.map_nil, List.count_nil] at h₁ h₂ h₃
  simp only [entries, dispatch, List.count_append]
  omega

end EventQueue

/-! The scheduler's process table, its run queue of 64 priority levels with a
bitmap, and what changes a process's state. Processes are named by their pids. -/

abbrev schedLevels : Nat := 64

instance : NeZero schedLevels := ⟨by decide⟩
abbrev schedQuantum : Nat := 10000

inductive ProcState where
  | new | runnable | running | sleeping | waiting | zombie
deriving DecidableEq

inductive BlockKind where
  | none | await | timer | child | socket
deriving DecidableEq

structure Proc where
  pid : Nat
  priority : Fin schedLevels
  state : ProcState
  vm : Vm
  /-- `none`: the process shares the default global scope. -/
  scope : Option Scope
  program : Program
  blockKind : BlockKind
  waitPid : Nat
  blockToken : Nat
  result : Value
  exitCode : Int

structure Sched where
  /-- Newest first. -/
  procs : List Proc
  nextPid : Nat
  mainPid : Nat
  current : Option Nat
  runq : Vector (List Nat) schedLevels
  bitmap : BitVec schedLevels
  events : EventQueue
  globals : Scope

inductive Signal where
  | yield
  | block (register : Nat)
deriving DecidableEq

namespace Sched

def init (globals : Scope) : Sched where
  procs := []
  nextPid := 1
  mainPid := 0
  current := none
  runq := Vector.replicate schedLevels []
  bitmap := 0
  events := .init
  globals := globals

def find (pid : Nat) (s : Sched) : Option Proc :=
  s.procs.find? fun proc => proc.pid = pid

def update (pid : Nat) (f : Proc → Proc) (s : Sched) : Sched :=
  { s with procs := s.procs.map fun proc => if proc.pid = pid then f proc else proc }

def currentProc (s : Sched) : Option Proc := s.current.bind fun pid => s.find pid

def setState (state : ProcState) (proc : Proc) : Proc := { proc with state := state }

def queue (s : Sched) (level : Fin schedLevels) : List Nat := s.runq[level]

/-- The run queues with `pids` at a level. -/
def withQueue (s : Sched) (level : Fin schedLevels) (pids : List Nat) :
    Vector (List Nat) schedLevels :=
  s.runq.set level pids

/-- `sched_enqueue`, at the tail of the process's priority level. -/
def enqueue (pid : Nat) (s : Sched) : Sched :=
  match s.find pid with
  | none => s
  | some proc =>
    { s.update pid (setState .runnable) with
      runq := s.withQueue proc.priority (s.queue proc.priority ++ [pid])
      bitmap := s.bitmap ||| ((1 : BitVec schedLevels) <<< proc.priority.val) }

def firstLevel (bitmap : BitVec schedLevels) : Option (Fin schedLevels) :=
  (List.finRange schedLevels).find? fun level => bitmap.getLsb level

def dequeue (s : Sched) : Option (Nat × Sched) :=
  match firstLevel s.bitmap with
  | none => none
  | some level =>
    match s.queue level with
    | [] => none
    | pid :: rest =>
      some (pid, { s with
        runq := s.withQueue level rest
        bitmap := if rest = [] then s.bitmap &&& ~~~((1 : BitVec schedLevels) <<< level.val) else s.bitmap })

/-- `sched_proc_create` -/
def procCreate (program : Program) (scope : Option Scope) (s : Sched) : Nat × Sched :=
  (s.nextPid, { s with
    nextPid := s.nextPid + 1
    procs :=
      { pid := s.nextPid, priority := 32, state := .new, vm := vmInit, scope := scope,
        program := program, blockKind := .none, waitPid := 0, blockToken := 0, result := .null,
        exitCode := 0 } :: s.procs })

def procFree (pid : Nat) (s : Sched) : Sched :=
  { s with procs := s.procs.filter fun proc => proc.pid ≠ pid }

def spawnMain (program : Program) (entryFunction : Option Nat) (s : Sched) : Nat × Sched :=
  let (pid, s) := s.procCreate program none
  let s := s.update pid fun proc =>
    { proc with vm := { proc.vm with running := true, entryFunction := entryFunction } }
  (pid, enqueue pid { s with mainPid := pid })

/-- `ussr_sched_spawn_func`; `scope` is a copy of the parent's scope or an empty one. -/
def spawnFunc (program : Program) (functionIndex : Nat) (args : List Value) (scope : Scope)
    (s : Sched) : Except Stop Nat × Sched :=
  match program.functions[functionIndex]? with
  | none => (.error .failed, s)
  | some function =>
    if function.parameters.length ≠ args.length then (.error .failed, s)
    else
      let (pid, created) := s.procCreate program (some scope)
      match vmSpawnCall program functionIndex args { vmInit with running := true } scope with
      | .error e => (.error e, created.procFree pid)
      | .ok (vm, scope) =>
        (.ok pid, enqueue pid (created.update pid fun proc =>
          { proc with vm := vm, scope := some scope }))

/-- The part of `sched_block_current` that concerns the process table. -/
def blockCurrent (kind : BlockKind) (waitPid token : Nat) (s : Sched) : Sched :=
  match s.current with
  | none => s
  | some pid => s.update pid fun proc =>
      { proc with
        blockKind := kind
        waitPid := waitPid
        blockToken := token
        state := if kind = .timer then .sleeping else .waiting }

def wake (pid : Nat) (value : Value) (s : Sched) : Sched :=
  enqueue pid (s.update pid fun proc =>
    { proc with
      vm := { proc.vm with resumeValue := value, resumePending := true }
      blockKind := .none })

/-- Whether the process waits on an `await` of `pid`. -/
def awaits (pid : Nat) (proc : Proc) : Bool :=
  proc.state = .waiting && proc.blockKind = .await && proc.waitPid = pid

def wakeAwaiters (pid : Nat) (result : Value) : List Nat → Sched → Sched
  | [], s => s
  | other :: others, s =>
    match s.find other with
    | none => wakeAwaiters pid result others s
    | some proc =>
      if awaits pid proc then wakeAwaiters pid result others (s.wake other result)
      else wakeAwaiters pid result others s

/-- `sched_zombify`: a finished process wakes its awaiters. -/
def zombify (pid : Nat) (exitCode : Int) (s : Sched) : Sched :=
  match s.find pid with
  | none => s
  | some proc =>
    let result := proc.vm.registers[vmReturnReg]
    let s := s.update pid fun proc =>
      { proc with state := .zombie, exitCode := exitCode, result := result }
    wakeAwaiters pid result (s.procs.map Proc.pid) s

def eventValue (event : Event) : Value :=
  match event.kind with
  | .child => .integer (BitVec.ofInt 64 event.exitCode)
  | _ => .integer 0

def deliver (s : Sched) (event : Event) : Sched :=
  match s.find event.ownerPid with
  | none => s
  | some owner =>
    if owner.state = .zombie then s
    else if owner.blockToken ≠ event.token then s
    else s.wake event.ownerPid (eventValue event)

/-- `sched_handle_events`; the batch size is `USSR_EQ_MAX_FIRED`. -/
def handleEvents (max : Nat) (poll : Poll) (s : Sched) : Sched :=
  let (events, fired) := s.events.dispatch max poll
  fired.foldl deliver { s with events := events }

def pick (pid : Nat) (s : Sched) : Sched :=
  { s.update pid (setState .running) with current := some pid }

def suspend (pid : Nat) (s : Sched) : Sched :=
  match s.find pid with
  | none => { s with current := none }
  | some proc =>
    if proc.state = .running then { s with current := none }.enqueue pid
    else { s with current := none }

end Sched

end Ussr
