import Ussr.Vm.Exec

/-! One rule for every instruction. Most instructions change registers, the
instruction pointer, variables and the world; an invariant that does not look at
these (`Framed`) is kept by them. The rest of an instruction's effect is asked
of the invariant in `Hooks`: calls, blocking, the scheduler's commands and the
start of a nested VM. -/

namespace Ussr
open Action State

variable {W : Type}

structure Vm.SameFrame (vm vm' : Vm) : Prop where
  frames : vm'.frames = vm.frames
  yieldRequest : vm'.yieldRequest = vm.yieldRequest
  resumePending : vm'.resumePending = vm.resumePending
  resumeRegister : vm'.resumeRegister = vm.resumeRegister

def Framed (I : State W → Prop) : Prop :=
  ∀ s s' : State W, s.vm.SameFrame s'.vm → s'.sched = s.sched → s'.signals = s.signals → I s → I s'

theorem Vm.SameFrame.refl (vm : Vm) : vm.SameFrame vm := ⟨rfl, rfl, rfl, rfl⟩

theorem bindParameters_no_fault {saved : Registers} {names : List CString} {base : Nat}
    {scope : Scope} (h : base + names.length ≤ vmRegisterCount) :
    bindParameters saved base names scope ≠ .error .fault := by
  induction names generalizing base scope with
  | nil => simp [bindParameters]
  | cons name names ih =>
    have hbase : base < vmRegisterCount := by
      simp only [List.length_cons] at h
      omega
    unfold bindParameters
    rw [Vector.getElem?_eq_getElem hbase]
    dsimp only
    split
    · simp
    · exact ih (by simp only [List.length_cons] at h; omega)

theorem vmCall_cases (program : Program) (a b c index : Nat) (vm : Vm) (scope : Scope) :
    vmCall program a b c index vm scope = .error .failed ∨
      ∃ ip frame scope', frame.returnRegister = c ∧ vmCall program a b c index vm scope =
        .ok ({ vm with registers := Registers.empty, ip := ip, frames := frame :: vm.frames },
          scope') := by
  unfold vmCall
  cases program.functions[index]? with
  | none => exact Or.inl rfl
  | some function =>
    dsimp only
    split_ifs with hb ha
    · exact Or.inl rfl
    · exact Or.inl rfl
    have hle : a + function.parameters.length ≤ vmRegisterCount := by
      have hlt : vmReturnReg < vmRegisterCount := by decide
      omega
    unfold vmPushFrame
    split_ifs with hdepth
    · exact Or.inl rfl
    have hbind : bindParameters vm.registers a function.parameters
        (scope.localsPush function.locals) ≠ .error .fault := bindParameters_no_fault hle
    simp only [bind, Except.bind]
    cases hrun : bindParameters vm.registers a function.parameters
        (scope.localsPush function.locals) with
    | error e =>
      cases e with
      | failed => exact Or.inl rfl
      | fault => exact absurd hrun hbind
    | ok scope' =>
      exact Or.inr ⟨function.entry.toNat, ⟨vm.ip, c, index, vm.registers⟩, scope', rfl, rfl⟩

theorem loadArguments_no_fault {values : List Value} {i : Nat} (registers : Registers)
    (h : i + values.length ≤ vmRegisterCount) :
    ∃ registers', loadArguments i values registers = .ok registers' := by
  induction values generalizing i registers with
  | nil => exact ⟨registers, rfl⟩
  | cons value values ih =>
    simp only [List.length_cons] at h
    unfold loadArguments
    rw [Registers.write_eq_some (show i < vmRegisterCount by omega)]
    exact ih _ (by omega)

theorem vmSpawnCall_no_fault {program : Program} {index : Nat} {args : List Value} {vm : Vm}
    {scope : Scope} (h : args.length < vmRegisterCount) :
    vmSpawnCall program index args vm scope ≠ .error .fault := by
  unfold vmSpawnCall
  cases program.functions[index]? with
  | none => simp
  | some function =>
    dsimp only
    split_ifs
    · simp
    · simp
    obtain ⟨registers, hload⟩ := loadArguments_no_fault vm.registers
      (show 0 + args.length ≤ vmRegisterCount by omega)
    simp only [hload, bind, Except.bind]
    rcases vmCall_cases program 0 (args.length % 256) vmReturnReg index
      { vm with registers := registers, ip := program.code.length - 1 } scope with hfail | hcall
    · rw [hfail]
      simp
    · obtain ⟨ip, frame, scope', _, hcall⟩ := hcall
      rw [hcall]
      simp

theorem values_length {base count : Nat} {registers : Registers} {values : List Value}
    (h : registers.values base count = some values) : values.length ≤ count := by
  unfold Registers.values at h
  split_ifs at h
  cases h
  exact List.length_take_le _ _

theorem argumentValues_length {arguments : List Argument} {values : List Value}
    (h : argumentValues arguments = some values) : values.length = arguments.length := by
  induction arguments generalizing values with
  | nil =>
    cases h
    rfl
  | cons argument arguments ih =>
    cases argument with
    | value assignment v =>
      obtain ⟨rest, hrest, rfl⟩ := Option.map_eq_some_iff.mp h
      rw [List.length_cons, List.length_cons, ih hrest]
    | _ => cases h

theorem oopArguments_isSome (site : Option Site) (registers : Registers) {i count : Nat}
    (h : i + count ≤ vmRegisterCount) : ∃ l, oopArguments site registers i count = some l := by
  induction count generalizing i with
  | zero => exact ⟨[], rfl⟩
  | succ count ih =>
    obtain ⟨rest, hrest⟩ := ih (show i + 1 + count ≤ vmRegisterCount by omega)
    have hone : ∃ argument, oopArgument site registers i = some argument := by
      unfold oopArgument
      split
      · exact ⟨_, rfl⟩
      · rw [Vector.getElem?_eq_getElem (show i < vmRegisterCount by omega)]
        exact ⟨_, rfl⟩
    obtain ⟨argument, hargument⟩ := hone
    exact ⟨argument :: rest, by simp [oopArguments, hargument, hrest]⟩

section

variable {α : Type} {I : State W → Prop} {F : Prop}

theorem keeps_readRegister {i : Nat} (h : i < vmRegisterCount) :
    Keeps I F (fun _ => True) (readRegister i) := by
  intro s hs
  unfold readRegister
  rw [Vector.getElem?_eq_getElem h]
  exact ⟨hs, trivial⟩

theorem keeps_writeRegister {i : Nat} (hI : Framed I) (h : ¬ i < vmRegisterCount → F) (v : Value) :
    Keeps I F (fun _ => True) (writeRegister i v) := by
  intro s hs
  unfold writeRegister Registers.write
  split_ifs with hi
  · exact ⟨hI s _ ⟨rfl, rfl, rfl, rfl⟩ rfl rfl hs, trivial⟩
  · exact h hi

theorem keeps_modifyVm {f : Vm → Vm} (hI : Framed I) (h : ∀ vm : Vm, vm.SameFrame (f vm)) :
    Keeps I F (fun _ => True) (modifyVm f) :=
  Keeps.modify fun s hs => hI s _ (h s.vm) rfl rfl hs

theorem keeps_perform (hI : Framed I) (f : W → Option α × W) :
    Keeps I F (fun _ => True) (perform f) := by
  intro s hs
  unfold perform
  split
  · exact ⟨hI s _ (.refl _) rfl rfl hs, trivial⟩
  · exact hI s _ (.refl _) rfl rfl hs

theorem keeps_query (f : W → α) : Keeps I F (fun _ => True) (query f) := fun _ hs => ⟨hs, trivial⟩

theorem keeps_setVariable (hI : Framed I) (f : Scope → Option Scope) :
    Keeps I F (fun _ => True) (setVariable f) := by
  intro s hs
  unfold setVariable
  split
  · exact ⟨hI s _ (.refl _) rfl rfl hs, trivial⟩
  · exact hs

theorem keeps_worldWrite (hI : Framed I) (f : State W → W) :
    Keeps I F (fun _ => True) (Action.modify fun s => { s with world := f s }) :=
  Keeps.modify fun s hs => hI s _ (.refl _) rfl rfl hs

theorem keeps_stringAt {program : Program} {i : Nat} (h : ¬ i < program.strings.length → F) :
    Keeps I F (fun name => program.strings[i]? = some name) (stringAt program i) := by
  unfold stringAt
  by_cases hi : i < program.strings.length
  · rw [List.getElem?_eq_getElem hi]
    exact Keeps.pure rfl
  · rw [List.getElem?_eq_none (Nat.le_of_not_lt hi)]
    exact fun _ _ => h hi

theorem keeps_nameAt {program : Program} {i : Nat} (h : i < program.strings.length)
    (habsent : program.strings[i]? = some none → F) :
    Keeps I F (fun _ => True) (nameAt program i) := by
  refine (keeps_stringAt fun hout => absurd h hout).bind fun name hget => ?_
  cases name with
  | none => exact fun s _ => habsent hget
  | some name => exact Keeps.pure trivial

theorem keeps_executeCommand (hI : Framed I) (host : Host W) (name : CString)
    (returnName : Option CString) (arguments : List Argument) :
    Keeps I F (fun _ => True) (executeCommand host name returnName arguments) :=
  fun s hs => ⟨hI s _ (.refl _) rfl rfl hs, trivial⟩

theorem keeps_oopDispatch (hI : Framed I) (host : Host W) (name : CString)
    (returnName : Option CString) (arguments : List Argument) :
    Keeps I F (fun _ => True) (oopDispatch host name returnName arguments) :=
  fun s hs => ⟨hI s _ (.refl _) rfl rfl hs, trivial⟩

theorem keeps_storedValue (status : Int) (site : Option Site) :
    Keeps I F (fun _ => True) (storedValue status site) := by
  intro s hs
  unfold storedValue
  split <;> exact ⟨hs, trivial⟩

theorem keeps_execScan (hI : Framed I) (host : Host W) (format : CString) (command : Site) :
    Keeps I F (fun _ => True) (execScan host format command) := by
  intro s hs
  unfold execScan
  split
  · exact ⟨hI s _ (.refl _) rfl rfl hs, trivial⟩
  · exact hI s _ (.refl _) rfl rfl hs

def TryVm (callee : Vm) : Prop :=
  ∃ registers frame ip, frame.returnRegister = vmReturnReg ∧ callee = { vmInit with
    running := true, nested := true, registers := registers, frames := [frame], ip := ip }

theorem keeps_vmTryCall (hI : Framed I) (program : Program) (arguments : List Argument) :
    Keeps I F (fun callee => ∀ vm, callee = some vm → TryVm vm)
      (vmTryCall program arguments) := by
  refine Keeps.some?_bind fun name _ => Keeps.some?_bind fun index _ =>
    Keeps.some?_bind fun function _ => Keeps.require_bind fun hcount =>
      Keeps.some?_bind fun values hvalues => ?_
  have hlength : 0 + values.length ≤ vmRegisterCount := by
    rw [argumentValues_length hvalues, List.length_tail]
    exact (Nat.zero_add _).le.trans (hcount.2.1.trans (by decide))
  obtain ⟨registers, hload⟩ := loadArguments_no_fault Registers.empty hlength
  rw [hload]
  refine fun s hs => ?_
  show Meets _ _ F (enterTry program index (arguments.length - 1) _ s)
  unfold enterTry
  rcases vmCall_cases program 0 (arguments.length - 1) vmReturnReg index
    { vmInit with running := true, nested := true, registers := registers,
                  ip := program.code.length - 1 } s.scope with hfail | hcall
  · rw [hfail]
    exact ⟨hs, by simp⟩
  · obtain ⟨ip, frame, scope, hregister, hcall⟩ := hcall
    rw [hcall]
    refine ⟨hI s _ (.refl _) rfl rfl hs, fun vm hvm => ?_⟩
    cases hvm
    exact ⟨Registers.empty, frame, ip, hregister, rfl⟩

end

/-- What a finished instruction promises: `P` where the process is suspended, `C` of a VM that
is to run next. -/
def NextMeets (P : State W → Prop) (C : Entry → Vm → Prop) : Next → State W → Prop
  | .step, _ => True
  | .suspend, s => P s
  | .enter entry _ callee, _ => C entry callee

def namesString (opcode : Opcode) : Prop :=
  opcode ∈ [Opcode.loadHash, .storeHash, .decodeUno, .oop, .external]

inductive Waits : BlockKind → Prop where
  | timer : Waits .timer
  | child : Waits .child
  | socket : Waits .socket

def waitFor (kind : BlockKind) (add : EventQueue → Nat × EventQueue) (a : Nat) (s : State W) :
    State W :=
  (blockCurrent kind 0 (add s.sched.events).1 a
    { s with sched := { s.sched with events := (add s.sched.events).2 } }).2

/-- The state in which the scheduler's commands leave an instruction: still before its effect,
behind it, or suspended. -/
def DispatchedMeets (I J P : State W → Prop) : Dispatched → State W → Prop
  | .unhandled, s => I s
  | .handled _, s => J s
  | .blocked, s => J s ∧ P s

/-- What is asked of the effects that are more than registers and variables. An instruction has
one such effect at most: `I` holds up to it, the weaker `J` from then on. -/
structure Hooks (host : Host W) (program : Program) (ins : Instruction) (I J P : State W → Prop)
    (C : Entry → Vm → Prop) (F : Prop) : Prop where
  framed : Framed I
  framedAfter : Framed J
  weaker : ∀ s, I s → J s
  absent : namesString ins.opcode → program.strings[ins.imm]? = some none → F
  destination : ins.opcode = .oop ∨ ins.opcode = .external → ¬ ins.ra < vmRegisterCount → F
  call : ins.opcode = .call →
    Keeps I F (fun _ => True) (transfer (vmCall program ins.ra ins.rb ins.rc ins.imm))
  ret : Keeps I F (fun _ => True) (transfer (vmReturn program))
  spawn : ∀ callee index args forkScope, args.length < vmRegisterCount →
    Keeps I F (fun _ => True) (spawn callee index args forkScope)
  yield : Triple I (State.signal .yield) (fun _ => J) I F
  await : ins.opcode = .oop → ∀ s pid target, I s → s.sched.find pid = some target →
    s.sched.current ≠ some target.pid → target.state ≠ .zombie →
      J (blockCurrent .await pid 0 ins.ra s).2 ∧ P (blockCurrent .await pid 0 ins.ra s).2
  wait : ins.opcode = .oop ∨ ins.opcode = .external → ∀ s kind add, I s → Waits kind →
    Adds (s.sched.current.getD 0) add →
      J (waitFor kind add ins.ra s) ∧ P (waitFor kind add ins.ra s)
  tryCall : ins.opcode = .oop → ∀ depth callee, TryVm callee → C (.tryCall ins.ra depth) callee
  evalString : ins.opcode = .eval → ins.ra < vmRegisterCount →
    ¬ ins.imm < program.strings.length → F
  evalCall : ins.opcode = .eval → ins.ra < vmRegisterCount →
    C (.evalCall ins.ra ins.imm) { vmInit with running := true, nested := true }

namespace Hooks

variable {host : Host W} {program : Program} {ins : Instruction} {I J P : State W → Prop}
  {C : Entry → Vm → Prop} {F : Prop}

variable (h : Hooks host program ins I J P C F)
include h

theorem steps {action : Action (State W) Next}
    (hkeeps : Keeps I F (fun next => next = .step) action) :
    Triple I action (fun next s => J s ∧ NextMeets P C next s) I F := by
  refine Triple.strengthen hkeeps ?_
  rintro next s ⟨hs, rfl⟩
  exact ⟨h.weaker s hs, trivial⟩

theorem writeAfter (hop : ins.opcode = .oop ∨ ins.opcode = .external) (v : Value) :
    Triple J (do writeRegister ins.ra v; return Next.step : Action (State W) Next)
      (fun next s => J s ∧ NextMeets P C next s) I F := by
  intro s hs
  rw [bind_run]
  unfold writeRegister Registers.write
  split_ifs with hi
  · exact ⟨h.framedAfter s _ ⟨rfl, rfl, rfl, rfl⟩ rfl rfl hs, trivial⟩
  · exact h.destination hop hi

theorem writeStep (hop : ins.opcode = .oop ∨ ins.opcode = .external) (v : Value) :
    Triple I (do writeRegister ins.ra v; return Next.step : Action (State W) Next)
      (fun next s => J s ∧ NextMeets P C next s) I F :=
  (h.writeAfter hop v).weaken h.weaker

theorem blockOnChild (hop : ins.opcode = .oop ∨ ins.opcode = .external) (child : Nat) :
    Triple I (schedBlockOnChild child ins.ra) (fun _ s => J s ∧ P s) I F := by
  intro s hs
  unfold schedBlockOnChild
  rw [get_bind_run]
  cases hcurrent : s.sched.current with
  | none => exact hs
  | some pid =>
    refine h.wait hop s .child (EventQueue.addChild pid child) hs .child ?_
    rw [hcurrent]
    exact .child child

theorem blockStep (hop : ins.opcode = .oop ∨ ins.opcode = .external) (child : Nat) :
    Triple I (do schedBlockOnChild child ins.ra; return Next.suspend : Action (State W) Next)
      (fun next s => J s ∧ NextMeets P C next s) I F :=
  (h.blockOnChild hop child).bind fun _ => Triple.pure fun _ hs => hs

theorem doWaitFd (hop : ins.opcode = .oop) (values : List Value) (write : Bool) :
    Triple I (schedDoWaitFd host values write ins.ra)
      (DispatchedMeets I J P) I F := by
  refine Keeps.require_bind fun _ => Keeps.require_bind fun _ s hs => ?_
  rw [get_bind_run]
  cases hcurrent : s.sched.current with
  | none => exact hs
  | some pid =>
    rw [some?_some_bind_run]
    have hwait := h.wait (Or.inl hop) s .socket
      (EventQueue.addFd pid (schedArgInteger host values 0).toNat write) hs .socket
      (by rw [hcurrent]; exact .fd _ write)
    exact hwait

theorem doSleep (hop : ins.opcode = .oop) (values : List Value) :
    Triple I (schedDoSleep host values ins.ra)
      (DispatchedMeets I J P) I F := by
  refine Keeps.require_bind fun _ s hs => ?_
  have hwait := h.wait (Or.inl hop) s .timer _ hs .timer
    (.timer (host.nowMs s.world + (schedArgInteger host values 0).toNat))
  exact hwait

theorem doAwait (hop : ins.opcode = .oop) (values : List Value) :
    Triple I (schedDoAwait host values ins.ra)
      (DispatchedMeets I J P) I F := by
  refine Keeps.require_bind fun _ => Keeps.require_bind fun _ s hs => ?_
  rw [get_bind_run]
  cases hfind : s.sched.find (schedArgInteger host values 0).toNat with
  | none => exact hs
  | some target =>
    rw [some?_some_bind_run]
    by_cases hself : s.sched.current ≠ some target.pid
    · rw [require_bind_run hself]
      split_ifs with hzombie
      · exact h.weaker s hs
      · exact h.await hop s _ target hs hfind hself hzombie
    · rw [require_bind_fail hself]
      exact hs

theorem dispatch (hop : ins.opcode = .oop) (name : CString) (values : List Value)
    (site : Option Site) (hvalues : values.length < vmRegisterCount) :
    Triple I (schedDispatch host name values site ins.ra)
      (DispatchedMeets I J P) I F := by
  have hhandled : ∀ v, Triple I (pure (.handled v) : Action (State W) Dispatched)
      (DispatchedMeets I J P) I F := fun v => Triple.pure h.weaker
  have htail : values.tail.length < vmRegisterCount := by
    rw [List.length_tail]
    omega
  unfold schedDispatch
  split_ifs
  · refine (keeps_perform h.framed _).bind fun loaded _ => Keeps.some?_bind fun function _ => ?_
    split
    · exact (h.spawn _ _ _ _ (by decide)).bind fun _ _ => hhandled _
    · have htwo : [Value.integer 0, loaded.2.2].length < vmRegisterCount := by
        rw [List.length_cons, List.length_singleton]
        decide
      exact (h.spawn _ _ _ _ htwo).bind fun _ _ => hhandled _
    · exact Triple.fail fun _ hs => hs
  · exact Keeps.require_bind fun _ => Keeps.some?_bind fun _ _ => Keeps.get_bind fun _ _ =>
      Keeps.some?_bind fun _ _ => Keeps.some?_bind fun _ _ =>
        (h.spawn _ _ _ _ htail).bind fun _ _ => hhandled _
  · exact h.doAwait hop values
  · exact h.doSleep hop values
  · exact h.yield.bind fun _ => Triple.pure fun _ hs => hs
  · exact h.doWaitFd hop values false
  · exact h.doWaitFd hop values true
  · refine (keeps_perform h.framed _).bind fun handled _ => ?_
    split
    · exact hhandled _
    · exact Triple.pure fun _ hs => hs

theorem oopExternal (hop : ins.opcode = .oop) (name : CString) (site : Option Site) :
    Triple I (oopExternal host ins name site) (fun next s => J s ∧ NextMeets P C next s) I F := by
  refine Keeps.require_bind fun _ => Keeps.get_bind fun s _ => Keeps.some?_bind fun values _ => ?_
  by_cases hchain : s.vm.chainActive = true ∨ ins.c ≠ 0
  · rw [if_pos hchain]
    refine (keeps_perform h.framed _).bind ?_
    rintro ⟨output, value⟩ _
    refine (keeps_modifyVm h.framed ?_).bind fun _ _ => h.writeStep (Or.inl hop) value
    exact fun vm => ⟨rfl, rfl, rfl, rfl⟩
  rw [if_neg hchain]
  split_ifs
  · exact (keeps_perform h.framed _).bind fun child _ => h.blockStep (Or.inl hop) child
  · exact (keeps_perform h.framed _).bind fun value _ => h.writeStep (Or.inl hop) value

theorem oopBuiltin (hop : ins.opcode = .oop) (name : CString) (site : Option Site)
    (arguments : List Argument) :
    Triple I (oopBuiltin host program ins name site arguments)
      (fun next s => J s ∧ NextMeets P C next s) I F := by
  unfold Ussr.oopBuiltin
  dsimp only
  split_ifs
  · refine (keeps_executeCommand h.framed _ _ _ _).bind fun status _ =>
      Keeps.require_bind fun _ => ?_
    split_ifs
    · exact h.oopExternal hop name site
    · exact h.writeStep (Or.inl hop) _
  · refine Keeps.get_bind fun s _ => (keeps_vmTryCall h.framed program arguments).bind
      fun callee hcallee => ?_
    cases callee with
    | some callee => exact Triple.pure fun t ht =>
        ⟨h.weaker t ht, h.tryCall hop _ callee (hcallee callee rfl)⟩
    | none =>
      refine Keeps.bind (R := fun _ => True) (Keeps.modify fun t ht => ?_) fun _ _ =>
        h.writeStep (Or.inl hop) _
      exact h.framed t _ (.refl _) rfl rfl ht
  · exact (keeps_executeCommand h.framed _ _ _ _).bind fun status _ => Keeps.require_bind fun _ =>
      (keeps_storedValue _ _).bind fun value _ => h.writeStep (Or.inl hop) value
  · refine (keeps_oopDispatch h.framed _ _ _ _).bind ?_
    rintro ⟨status, value⟩ _
    refine Keeps.require_bind fun _ => ?_
    split_ifs
    · exact h.oopExternal hop name site
    · exact h.writeStep (Or.inl hop) value

theorem execOop (hop : ins.opcode = .oop) :
    Triple I (execOop host program ins) (fun next s => J s ∧ NextMeets P C next s) I F := by
  have hname : namesString ins.opcode := by simp [namesString, hop]
  refine Keeps.require_bind fun hb => (keeps_nameAt hb.1 (h.absent hname)).bind fun name _ =>
    Keeps.get_bind fun s _ => ?_
  generalize oopFast host name ins.rb s.vm.registers s.world = fast
  obtain ⟨value, w⟩ := fast
  cases value with
  | some value =>
    exact (keeps_worldWrite h.framed fun _ => w).bind fun _ _ => h.writeStep (Or.inl hop) value
  | none =>
    refine (keeps_worldWrite h.framed fun _ => w).bind fun _ _ =>
      Keeps.access_bind (fun hnone => ?_) fun arguments _ => ?_
    · have hcount : 0 + ins.rb ≤ vmRegisterCount := by
        have hlt : vmReturnReg ≤ vmRegisterCount := by decide
        omega
      obtain ⟨l, hl⟩ := oopArguments_isSome (vmFindSite program.oopSites (s.vm.ip - 1))
        s.vm.registers hcount
      rw [hl] at hnone
      cases hnone
    split_ifs
    · refine Keeps.some?_bind fun values hvalues => ?_
      have hlength : values.length < vmRegisterCount :=
        (values_length hvalues).trans_lt (hb.2.trans (by decide))
      refine Triple.bind (h.dispatch hop name values _ hlength) fun dispatched => ?_
      cases dispatched with
      | blocked => exact Triple.pure fun _ hs => hs
      | handled value => exact h.writeAfter (Or.inl hop) value
      | unhandled => exact h.oopBuiltin hop name _ arguments
    · exact h.oopBuiltin hop name _ arguments

theorem execExternal (hop : ins.opcode = .external) :
    Triple I (execExternal host program ins) (fun next s => J s ∧ NextMeets P C next s) I F := by
  have hname : namesString ins.opcode := by simp [namesString, hop]
  refine Keeps.require_bind fun hb => Keeps.get_bind fun _ _ => Keeps.some?_bind fun _ _ =>
    (keeps_nameAt hb.1 (h.absent hname)).bind fun name _ => ?_
  split_ifs
  · exact (keeps_perform h.framed _).bind fun child _ => h.blockStep (Or.inr hop) child
  · exact (keeps_perform h.framed _).bind fun value _ => h.writeStep (Or.inr hop) value

theorem execEval (hop : ins.opcode = .eval) :
    Triple I (execEval host program ins) (fun next s => J s ∧ NextMeets P C next s) I F := by
  refine Keeps.require_bind fun hra => (keeps_stringAt (h.evalString hop hra)).bind fun _ _ =>
    Keeps.require_bind fun _ => (keeps_readRegister (by decide)).bind fun text _ => ?_
  split
  · exact (keeps_perform h.framed _).bind fun _ _ =>
      Triple.pure fun s hs => ⟨h.weaker s hs, h.evalCall hop hra⟩
  · exact Triple.fail fun _ hs => hs

theorem exec : Triple I (exec host program ins) (fun next s => J s ∧ NextMeets P C next s) I F := by
  have hI := h.framed
  have hstep : ∀ {i : Nat} (v : Value), i < vmRegisterCount →
      Keeps I F (fun next => next = Next.step) (do writeRegister i v; return Next.step) :=
    fun v hi => (keeps_writeRegister hI (absurd hi) v).bind fun _ _ => Keeps.pure rfl
  have hname : ∀ {opcode}, ins.opcode = opcode → namesString opcode →
      ins.imm < program.strings.length →
        Keeps I F (fun _ => True) (nameAt program ins.imm) := fun hop hnames hi =>
    keeps_nameAt hi (h.absent (hop ▸ hnames))
  have hzero : 0 < vmRegisterCount := by decide
  have hjump : ∀ ip : Nat, Keeps I F (fun _ => True) (modifyVm fun vm => { vm with ip := ip }) :=
    fun ip => keeps_modifyVm hI fun vm => ⟨rfl, rfl, rfl, rfl⟩
  unfold Ussr.exec
  cases hop : ins.opcode with
  | nop => exact Triple.pure fun s hs => ⟨h.weaker s hs, trivial⟩
  | loadConst =>
    refine h.steps (Keeps.require_bind fun hi => Keeps.access_bind (fun hnone => ?_)
      fun v _ => hstep v hi.1)
    rw [List.getElem?_eq_getElem hi.2] at hnone
    cases hnone
  | loadVar =>
    exact h.steps (Keeps.require_bind fun hi => (keeps_stringAt (absurd hi.2)).bind fun _ _ =>
      Keeps.get_bind fun _ _ => hstep _ hi.1)
  | storeVar =>
    exact h.steps (Keeps.require_bind fun hi => (keeps_stringAt (absurd hi.2)).bind fun _ _ =>
      (keeps_readRegister hi.1).bind fun _ _ => (keeps_setVariable hI _).bind fun _ _ =>
        Keeps.pure rfl)
  | loadHash =>
    exact h.steps (Keeps.require_bind fun hi => (hname hop (by simp [namesString]) hi.2).bind
      fun _ _ => (keeps_query _).bind fun _ _ => Keeps.some?_bind fun v _ => hstep v hi.1)
  | storeHash =>
    exact h.steps (Keeps.require_bind fun hi => (hname hop (by simp [namesString]) hi.2).bind
      fun _ _ => (keeps_readRegister hi.1).bind fun _ _ => (keeps_perform hI _).bind fun _ _ =>
        Keeps.pure rfl)
  | decodeUno =>
    exact h.steps (Keeps.require_bind fun hi => (hname hop (by simp [namesString]) hi.2).bind
      fun _ _ => (keeps_perform hI _).bind fun v _ => hstep v hi.1)
  | get =>
    exact h.steps (Keeps.require_bind fun hi => (keeps_stringAt (absurd hi.1)).bind fun _ _ =>
      Keeps.get_bind fun _ _ => Keeps.some?_bind fun v _ => hstep v hi.2)
  | vectorGet =>
    refine h.steps (Keeps.require_bind fun hi => (keeps_readRegister hi.2.1).bind fun vector _ =>
      (keeps_readRegister hi.2.2).bind fun index _ => ?_)
    split
    · exact Keeps.require_bind fun _ => (keeps_query _).bind fun _ _ => Keeps.some?_bind fun v _ =>
        hstep v hi.1
    · exact Keeps.fail
  | vectorSet =>
    refine h.steps (Keeps.require_bind fun hi => (keeps_readRegister hi.1).bind fun vector _ =>
      (keeps_readRegister hi.2.1).bind fun index _ => ?_)
    split
    · exact Keeps.require_bind fun _ => (keeps_readRegister hi.2.2).bind fun _ _ =>
        (keeps_perform hI _).bind fun _ _ => Keeps.pure rfl
    · exact Keeps.fail
  | neg =>
    refine h.steps (Keeps.require_bind fun hi => (keeps_readRegister hi.2).bind fun value _ => ?_)
    split
    · exact hstep _ hi.1
    · exact hstep _ hi.1
    · exact Keeps.fail
  | binary operation =>
    refine h.steps (Keeps.require_bind fun hi => (keeps_readRegister hi.2.1).bind fun left _ =>
      (keeps_readRegister hi.2.2).bind fun right _ => ?_)
    split
    · exact hstep _ hi.1
    · refine (keeps_query _).bind fun result _ => Keeps.some?_bind ?_
      rintro ⟨value, w⟩ _
      exact (keeps_worldWrite hI fun _ => w).bind fun _ _ => hstep _ hi.1
  | jmp =>
    exact h.steps (Keeps.require_bind fun hi => (hjump _).bind fun _ _ => Keeps.pure rfl)
  | jmpTrue =>
    refine h.steps (Keeps.require_bind fun hi => (keeps_readRegister hi.2).bind fun _ _ =>
      (keeps_query _).bind fun _ _ => ?_)
    split_ifs
    · exact (hjump _).bind fun _ _ => Keeps.pure rfl
    · exact Keeps.pure rfl
  | jmpFalse =>
    refine h.steps (Keeps.require_bind fun hi => (keeps_readRegister hi.2).bind fun _ _ =>
      (keeps_query _).bind fun _ _ => ?_)
    split_ifs
    · exact (hjump _).bind fun _ _ => Keeps.pure rfl
    · exact Keeps.pure rfl
  | random64 =>
    exact h.steps (Keeps.require_bind fun hi => (keeps_perform hI _).bind fun _ _ => hstep _ hi)
  | seed64 =>
    refine h.steps (Keeps.require_bind fun hi => (keeps_readRegister hzero).bind fun value _ => ?_)
    split
    · exact (keeps_worldWrite hI _).bind fun _ _ => hstep _ hi
    · exact Keeps.fail
  | time =>
    exact h.steps (Keeps.require_bind fun hi => (keeps_query _).bind fun _ _ => hstep _ hi)
  | chain =>
    refine h.steps ((keeps_modifyVm hI ?_).bind fun _ _ => hstep _ hzero)
    exact fun vm => ⟨rfl, rfl, rfl, rfl⟩
  | file =>
    refine h.steps ((keeps_readRegister hzero).bind fun value _ => ?_)
    split
    · refine Keeps.get_bind fun _ _ => Keeps.require_bind fun _ => Keeps.some?_bind fun _ _ =>
        (keeps_perform hI _).bind fun _ _ => (keeps_modifyVm hI ?_).bind fun _ _ => hstep _ hzero
      exact fun vm => ⟨rfl, rfl, rfl, rfl⟩
    · exact Keeps.fail
  | cd =>
    refine h.steps ((keeps_readRegister hzero).bind fun value _ => ?_)
    split
    · exact (keeps_perform hI _).bind fun _ _ => hstep _ hzero
    · exact Keeps.fail
  | scan =>
    exact h.steps (Keeps.get_bind fun _ _ => Keeps.require_bind fun hi => Keeps.some?_bind fun _ _ =>
      Keeps.require_bind fun _ => (keeps_stringAt (absurd hi.1)).bind fun _ _ =>
        Keeps.some?_bind fun _ _ => (keeps_execScan hI host _ _).bind fun _ _ => hstep _ hi.2)
  | template =>
    exact h.steps (Keeps.require_bind fun hi => Keeps.get_bind fun _ _ =>
      (keeps_stringAt (absurd hi.1)).bind fun _ _ => Keeps.some?_bind fun _ _ =>
        (keeps_perform hI _).bind fun _ _ => hstep _ hi.2.1)
  | set =>
    exact h.steps (Keeps.require_bind fun hi => (keeps_stringAt (absurd hi.2)).bind fun _ _ =>
      (keeps_readRegister hi.1).bind fun _ _ => (keeps_setVariable hI _).bind fun _ _ =>
        Keeps.pure rfl)
  | print =>
    exact h.steps (Keeps.require_bind fun hi => (keeps_readRegister hi).bind fun _ _ =>
      (keeps_worldWrite hI _).bind fun _ _ => Keeps.pure rfl)
  | concat =>
    exact h.steps (Keeps.require_bind fun hi => Keeps.get_bind fun _ _ => Keeps.some?_bind fun _ _ =>
      hstep _ (hi.1.trans (by decide)))
  | call => exact h.steps ((h.call hop).bind fun _ _ => Keeps.pure rfl)
  | ret => exact h.steps (h.ret.bind fun _ _ => Keeps.pure rfl)
  | return_ => exact h.steps (h.ret.bind fun _ _ => Keeps.pure rfl)
  | external => exact h.execExternal hop
  | oop => exact h.execOop hop
  | eval => exact h.execEval hop
  | halt =>
    refine h.steps ((keeps_modifyVm hI ?_).bind fun _ _ => Keeps.pure rfl)
    exact fun vm => ⟨rfl, rfl, rfl, rfl⟩

end Hooks

end Ussr
