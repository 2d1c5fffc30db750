import Ussr.Vm.Quantum
import Ussr.Vm.Safety

/-! A program that was written to a file and loaded runs as the one that was written. Of a call site the file keeps the
blocks, the bare names and the flags, and a run reads nothing else. -/

namespace Ussr
open Action State Ru

variable {W : Type} {host : Host W} {p : Program} {site : Option Site}

/-- What `scan`, `load` and the native builtins read of a call site is kept in a file. -/
structure Host.ReadsStored (host : Host W) : Prop where
  scan : ∀ format site, host.scanExecute format (storedSite site) = host.scanExecute format site
  load : ∀ values site, host.loadProgram values (Option.map storedSite site) = host.loadProgram values site
  native : ∀ name values site, host.nativeDispatch name values (Option.map storedSite site) = host.nativeDispatch name values site

theorem storedArgument_idem (x : Argument) : storedArgument (storedArgument x) = storedArgument x := by
  cases x with
  | expression assignment e => cases e <;> rfl
  | _ => rfl

theorem stored_idem (p : Program) : stored (stored p) = stored p := by
  simp [stored, storedSite, storedArgument_idem]

theorem bisectSite_stored (sites : List Site) (instruction fuel low high : Nat) :
    bisectSite (sites.map storedSite) instruction fuel low high = (bisectSite sites instruction fuel low high).map storedSite := by
  induction fuel generalizing low high with
  | zero => rfl
  | succ fuel ih =>
    simp only [bisectSite, List.getElem?_map, ih]
    cases sites[low + (high - low) / 2]? with
    | none => split_ifs <;> rfl
    | some site => simp only [Option.map_some, storedSite]; split_ifs <;> rfl

theorem vmFindSite_stored (sites : List Site) (instruction : Nat) :
    vmFindSite (sites.map storedSite) instruction = (vmFindSite sites instruction).map storedSite := by
  unfold vmFindSite
  rw [List.length_map, bisectSite_stored, List.find?_map]
  cases bisectSite sites instruction sites.length 0 sites.length <;> rfl

theorem oopArgument_stored (registers : Registers) (i : Nat) :
    oopArgument (site.map storedSite) registers i = oopArgument site registers i := by
  cases site with
  | none => rfl
  | some site =>
    unfold oopArgument assignmentOf
    simp only [Option.map_some, Option.bind_some, storedSite, List.getElem?_map]
    cases site.arguments[i]? with
    | none => rfl
    | some x =>
      cases x with
      | expression assignment e => cases e <;> rfl
      | _ => rfl

theorem oopArguments_stored (registers : Registers) (i count : Nat) :
    oopArguments (site.map storedSite) registers i count = oopArguments site registers i count := by
  induction count generalizing i with
  | zero => rfl
  | succ count ih => rw [oopArguments, oopArguments, oopArgument_stored, ih]

theorem schedArgName_stored (values : List Value) (i : Nat) :
    schedArgName values i (site.map storedSite) = schedArgName values i site := by
  cases site with
  | none => rfl
  | some site =>
    unfold schedArgName
    simp only [Option.map_some, Option.bind_eq_bind, Option.bind_some, storedSite, List.getElem?_map]
    cases site.arguments[i]? with
    | none => rfl
    | some x =>
      cases x with
      | expression assignment e => cases e <;> rfl
      | _ => rfl

theorem schedDispatch_stored (hhost : host.ReadsStored) (name : CString) (values : List Value) (a : Nat) :
    schedDispatch host name values (site.map storedSite) a = schedDispatch host name values site a := by
  unfold schedDispatch vmDoLoad schedDoAsync native
  simp only [hhost.load, hhost.native, schedArgName_stored]

def Next.forget : Next → Next
  | .enter entry program callee => .enter entry (stored program) callee
  | next => next

/-- The same but for what a file does not keep of the program that is entered. -/
def Alike (a b : Action (State W) Next) : Prop := ∀ s, (a s).map (Except.map Next.forget) id = (b s).map (Except.map Next.forget) id

theorem Alike.of_eq {a b : Action (State W) Next} (h : a = b) : Alike a b := fun s => by rw [h]

theorem Alike.bind {α : Type} (a : Action (State W) α) {f g : α → Action (State W) Next} (h : ∀ x, Alike (f x) (g x)) :
    Alike (a >>= f) (a >>= g) := by
  intro s
  rw [bind_run, bind_run]
  obtain ⟨r, s'⟩ := a s
  cases r with
  | ok x => exact h x s'
  | error e => rfl

theorem oopExternal_stored (host : Host W) (ins : Instruction) (name : CString) :
    oopExternal host ins name (site.map storedSite) = oopExternal host ins name site := by
  cases site with
  | none => rfl
  | some site =>
    unfold oopExternal
    refine congrArg (· >>= _) (if_congr ?_ rfl rfl)
    simp [storedSite]

theorem storedValue_stored (status : Int) : storedValue (W := W) status (site.map storedSite) = storedValue status site := by
  cases site with
  | none => rfl
  | some site =>
    cases status with
    | ofNat n => cases n <;> rfl
    | negSucc n => rfl

theorem oopBuiltin_stored (ins : Instruction) (name : CString) (arguments : List Argument) :
    Alike (oopBuiltin host (stored p) ins name (site.map storedSite) arguments) (oopBuiltin host p ins name site arguments) := by
  have hreturn : (site.map storedSite).bind Site.returnName = site.bind Site.returnName := by cases site <;> rfl
  unfold oopBuiltin
  simp only [hreturn, Option.isSome_map, oopExternal_stored, storedValue_stored]
  split_ifs
  · exact .of_eq rfl
  · refine .bind _ fun s => .bind _ fun callee => ?_
    cases callee with
    | none => exact .of_eq rfl
    | some callee => exact fun s => by simp [Pure.pure, Next.forget, stored_idem, Except.map]
  · exact .of_eq rfl
  · exact .of_eq rfl

theorem execOop_stored (hhost : host.ReadsStored) (ins : Instruction) : Alike (execOop host (stored p) ins) (execOop host p ins) := by
  unfold execOop
  refine .bind _ fun _ => .bind _ fun name => .bind _ fun s => ?_
  cases oopFast host name ins.rb s.vm.registers s.world with
  | mk value w =>
    cases value with
    | some value => exact .of_eq rfl
    | none =>
      refine .bind _ fun _ => ?_
      have hsite : vmFindSite (stored p).oopSites (s.vm.ip - 1) = (vmFindSite p.oopSites (s.vm.ip - 1)).map storedSite :=
        vmFindSite_stored _ _
      simp only [hsite, oopArguments_stored, schedDispatch_stored hhost]
      refine .bind _ fun arguments => ?_
      split_ifs
      · refine .bind _ fun values => .bind _ fun dispatched => ?_
        cases dispatched with
        | unhandled => exact oopBuiltin_stored ins name arguments
        | _ => exact .of_eq rfl
      · exact oopBuiltin_stored ins name arguments

theorem exec_stored (hhost : host.ReadsStored) (ins : Instruction) : Alike (exec host (stored p) ins) (exec host p ins) := by
  cases hop : ins.opcode with
  | oop => simpa only [exec, hop] using execOop_stored hhost ins
  | scan =>
    simp only [exec, hop]
    refine .bind _ fun s => .bind _ fun _ => .of_eq ?_
    have hsite : vmFindSite (stored p).scanSites (s.vm.ip - 1) = (vmFindSite p.scanSites (s.vm.ip - 1)).map storedSite :=
      vmFindSite_stored _ _
    rw [hsite]
    cases vmFindSite p.scanSites (s.vm.ip - 1) with
    | none => rfl
    | some site =>
      have hfound (site : Site) (next : Site → Action (State W) Next) : (some? (some site) >>= next) = next site := rfl
      have hlength : (storedSite site).arguments.length = site.arguments.length := List.length_map _
      have hscan format : execScan host format (storedSite site) = execScan host format site := by
        unfold execScan
        rw [hhost.scan]
      simp only [Option.map_some, hfound, hscan]
      exact congrArg (· >>= _) (if_congr (by rw [hlength]) rfl rfl)
  | _ => exact .of_eq (by simp only [exec, hop] <;> rfl)

def Activation.forget (a : Activation) : Activation := { a with program := stored a.program }

theorem forget_unseen : Activation.Unseen Activation.forget := ⟨fun _ => rfl, fun _ _ => rfl, fun _ => rfl⟩

/-- The machine with only that of its programs which a file keeps. -/
def Machine.forget (m : Machine W) : Machine W := m.mapCalls Activation.forget

def Progress.forget (p : Progress W) : Progress W := p.mapCalls Activation.forget

theorem Machine.forget_idem (m : Machine W) : m.forget.forget = m.forget := by
  simp [Machine.forget, Machine.mapCalls, Activation.forget, stored_idem]

theorem Progress.forget_idem (p : Progress W) : p.forget.forget = p.forget := by
  cases p with
  | running m => exact congrArg running m.forget_idem
  | finished status m => exact congrArg (finished status) m.forget_idem
  | fault m => exact congrArg fault m.forget_idem

theorem Machine.absorb_forget (m : Machine W) (r : Except Stop Next × State W) :
    m.forget.absorb (r.map (Except.map Next.forget) id) = (m.absorb r).forget := by
  have hstate (s : State W) : m.forget.withState s = (m.withState s).forget := forget_unseen.withState s m
  have hleave (status : Status) (s : State W) : (m.forget.withState s).leave status = ((m.withState s).leave status).forget := by
    rw [hstate]
    exact forget_unseen.leave status _
  obtain ⟨result, s⟩ := r
  cases result with
  | ok next =>
    cases next with
    | step => exact congrArg Progress.running (hstate s)
    | suspend => exact hleave _ s
    | enter entry program callee =>
      have henter := hstate s
      simp only [Prod.map, id, Except.map, Next.forget, absorb, henter]
      rfl
  | error e =>
    cases e with
    | failed => exact hleave _ s
    | fault => exact congrArg Progress.fault (hstate s)

theorem Machine.leave_forget (status : Status) (m : Machine W) : (m.forget.leave status).forget = (m.leave status).forget :=
  (congrArg Progress.forget (forget_unseen.leave status m)).trans (Progress.forget_idem _)

theorem Machine.run_forget (hhost : host.ReadsStored) (m : Machine W) : (run host m.forget).forget = (run host m).forget := by
  have hvm : m.forget.current.vm = m.current.vm := rfl
  have hcode : m.forget.current.program.code = m.current.program.code := rfl
  have hset (vm : Vm) : m.forget.setVm vm = (m.setVm vm).forget := rfl
  unfold run
  simp only [hvm, hcode, hset]
  cases resume m.current.vm with
  | none => exact congrArg Progress.fault m.forget_idem
  | some vm =>
    dsimp only
    cases m.current.program.code[vm.ip]? with
    | none => exact leave_forget _ _
    | some ins =>
      dsimp only
      split_ifs
      · exact leave_forget _ _
      · have hfetch : (m.setVm (countStep vm)).forget.fetch = (m.setVm (countStep vm)).fetch.forget := rfl
        rw [execute, execute, ← absorb_forget, ← absorb_forget, hfetch, forget_idem]
        exact congrArg _ (exec_stored hhost ins _)

theorem Machine.turn_forget (hhost : host.ReadsStored) (m : Machine W) : (turn host m.forget).forget = (turn host m).forget := by
  have hvm : m.forget.current.vm = m.current.vm := rfl
  unfold turn
  rw [hvm]
  split_ifs
  · exact leave_forget _ (m.setVm { m.current.vm with yieldRequest := false })
  · exact run_forget hhost m

theorem Machine.step_forget (hhost : host.ReadsStored) (m : Machine W) : (m.forget.step host).forget = (m.step host).forget := by
  have hvm : m.forget.current.vm = m.current.vm := rfl
  have hquantum : m.forget.current.quantum = m.current.quantum := rfl
  unfold step
  rw [hvm, hquantum]
  split_ifs
  · cases quantumCheck m.current.quantum with
    | none => exact leave_forget _ m
    | some quantum => exact turn_forget hhost { m with current := { m.current with quantum := quantum } }
  · exact leave_forget _ m

def Progress.next (host : Host W) : Progress W → Progress W
  | running m => m.step host
  | p => p

theorem Progress.next_forget (hhost : host.ReadsStored) (p : Progress W) : (p.forget.next host).forget = (p.next host).forget := by
  cases p with
  | running m => exact m.step_forget hhost
  | finished status m => exact (finished status m).forget_idem
  | fault m => exact (fault m).forget_idem

theorem Progress.run_forget (hhost : host.ReadsStored) {p q : Progress W} (h : p.forget = q.forget) (n : Nat) :
    ((Progress.next host)^[n] p).forget = ((Progress.next host)^[n] q).forget := by
  induction n generalizing p q with
  | zero => exact h
  | succ n ih => exact ih (by rw [← next_forget hhost p, h, next_forget hhost q])

theorem start_forget (p : Program) (quantum : Nat) (vm : Vm) (scope : Scope) (world : W) (sched : Sched) :
    (Machine.start (stored p) quantum vm scope world sched).forget = (Machine.start p quantum vm scope world sched).forget := by
  have henter : Machine.enter (stored p) vm scope = Machine.enter p vm scope := rfl
  unfold Machine.start
  rw [henter]
  cases Machine.enter p vm scope with
  | ok result => simp [Progress.forget, Progress.mapCalls, Machine.mapCalls, Activation.forget, stored_idem]
  | error e => cases e <;> simp [Progress.forget, Progress.mapCalls, Machine.mapCalls, Activation.forget, stored_idem]

/-- A program that the loader accepts runs from its file as it was written: after any number of steps the states are the same
but for what the file did not keep of the call sites. -/
theorem loaded_runs_alike {data : List UInt8} (hwrite : writeFile p = some data) (hsize : data.length ≤ ruMaxFileSize) (hloads : Loads p)
    (hhost : host.ReadsStored) : ∃ q, parse data = .ok q ∧ ∀ (quantum : Nat) (vm : Vm) (scope : Scope) (world : W) (sched : Sched) (n : Nat),
      ((Progress.next host)^[n] (Machine.start q quantum vm scope world sched)).forget =
        ((Progress.next host)^[n] (Machine.start p quantum vm scope world sched)).forget :=
  ⟨stored p, parse_written hwrite hsize hloads, fun quantum vm scope world sched n =>
    Progress.run_forget hhost (start_forget p quantum vm scope world sched) n⟩

/-- A call site with a value, which its file does not keep. -/
def siteProgram : Program := { lengthProgram 0 with oopSites := [⟨1, some (.lit "len"), none, [.value false (.integer 5)]⟩] }

theorem loaded_runs_alike_site : ∃ data q, writeFile siteProgram = some data ∧ parse data = .ok q ∧ ∀ n,
    ((Progress.next bareHost)^[n] (Machine.start q 0 (freshVm none) Scope.empty () (Sched.init Scope.empty))).forget =
      ((Progress.next bareHost)^[n] (Machine.start siteProgram 0 (freshVm none) Scope.empty () (Sched.init Scope.empty))).forget := by
  have hfile : (writeFile siteProgram).isSome ∧ ((writeFile siteProgram).getD []).length ≤ ruMaxFileSize := by decide +kernel
  obtain ⟨data, hdata⟩ := Option.isSome_iff_exists.mp hfile.1
  rw [hdata] at hfile
  have hloads : Loads siteProgram := { lengthProgram_loads 0 with oopSites := fun site hsite => ⟨by rw [List.mem_singleton.mp hsite]; rfl⟩ }
  have hhost : bareHost.ReadsStored := ⟨fun _ _ => rfl, fun _ _ => rfl, fun _ _ _ => rfl⟩
  obtain ⟨q, hq, hruns⟩ := loaded_runs_alike hdata hfile.2 hloads hhost
  exact ⟨data, q, hdata, hq, hruns _ _ _ _ _⟩

end Ussr
