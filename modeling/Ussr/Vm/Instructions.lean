import Ussr.Library.Segment
import Ussr.Vm.Machine
import Ussr.Expression.Evaluate

/-! Runs of instructions inside a range of a program's code, without the checks at
the head of the loop. `Machine.step_of_next` is the way back to the loop. -/

namespace Ussr

variable {W : Type}
variable {i low high : Nat} {v : Value} {t : State W}

def State.fetched (s : State W) : State W :=
  { s with vm := { s.vm with ip := s.vm.ip + 1, steps := s.vm.steps + 1 }, signals := [] }

section

variable (host : Host W) (program : Program)

def CodeNext (s t : State W) : Prop :=
  ∃ ins, program.code[s.vm.ip]? = some ins ∧ exec host program ins s.fetched = (.ok .step, t)

def CodeFails (s : State W) : Prop :=
  ∃ ins t, program.code[s.vm.ip]? = some ins ∧
    exec host program ins s.fetched = (.error .failed, t)

/-- The instruction pointer is in the code from `low` up to `high`. -/
def InCode (low high : Nat) (s : State W) : Prop := low ≤ s.vm.ip ∧ s.vm.ip < high

abbrev RunsCode (low high : Nat) : State W → State W → Prop :=
  Runs (CodeNext host program) (InCode low high)

abbrev EndsCode (low high : Nat) : State W → Option (State W) → Prop :=
  Ends (CodeNext host program) (CodeFails host program) (InCode low high)

end

variable {host : Host W} {program : Program}

theorem codeNext_unique {s t' : State W} (h : CodeNext host program s t)
    (h' : CodeNext host program s t') : t = t' := by
  obtain ⟨ins, hfetch, hexec⟩ := h
  obtain ⟨ins', hfetch', hexec'⟩ := h'
  rw [hfetch] at hfetch'
  cases hfetch'
  rw [hexec] at hexec'
  cases hexec'
  rfl

theorem codeNext_not_fails {s : State W} (h : CodeNext host program s t) :
    ¬ CodeFails host program s := by
  rintro ⟨ins', t', hfetch', hexec'⟩
  obtain ⟨ins, hfetch, hexec⟩ := h
  rw [hfetch] at hfetch'
  cases hfetch'
  rw [hexec] at hexec'
  cases hexec'

theorem endsCode_unique {s : State W} {r r' : Option (State W)}
    (h : EndsCode host program low high s r) (h' : EndsCode host program low high s r') :
    r = r' := by
  refine Ends.unique ?_ ?_ h h'
  · exact fun _ _ _ => codeNext_unique
  · exact fun _ _ => codeNext_not_fails

theorem InCode.mono {low' high' : Nat} (hlow : low' ≤ low) (hhigh : high ≤ high')
    (s : State W) (h : InCode low high s) : InCode low' high' s :=
  ⟨hlow.trans h.1, h.2.trans_le hhigh⟩

end Ussr

/-! What the instructions of expressions and of control flow do in a state that
has what they ask for. -/

namespace Ussr
open State

variable {W : Type} {ins : Instruction} {s : State W}

/-- `s` with `v` in register `i`. -/
def State.store (i : Nat) (v : Value) (s : State W) : State W :=
  match s.vm.registers.write i v with
  | some registers => { s with vm := { s.vm with registers := registers } }
  | none => s

theorem store_eq (h : i < vmRegisterCount) (v : Value) (s : State W) :
    s.store i v = { s with vm := { s.vm with registers := s.vm.registers.set i v } } := by
  unfold State.store
  rw [Registers.write_eq_some h]

theorem store_same (h : i < vmRegisterCount) (v : Value) (s : State W) :
    (s.store i v).vm.registers[i]? = some v := by
  rw [store_eq h]
  simp

theorem store_other {j : Nat} (h : i < vmRegisterCount) (hne : i ≠ j) (v : Value) (s : State W) :
    (s.store i v).vm.registers[j]? = s.vm.registers[j]? := by
  rw [store_eq h]
  exact Vector.getElem?_set_ne h hne

@[simp] theorem store_ip (i : Nat) (v : Value) (s : State W) : (s.store i v).vm.ip = s.vm.ip := by
  unfold State.store
  split <;> rfl

theorem writeRegister_run (h : i < vmRegisterCount) (v : Value) (s : State W) :
    writeRegister i v s = (.ok (), s.store i v) := by
  unfold writeRegister State.store
  rw [Registers.write_eq_some h]

theorem readRegister_run (h : s.vm.registers[i]? = some v) :
    readRegister i s = (.ok v, s) := by
  unfold readRegister
  rw [h]

theorem register_lt {registers : Registers} (h : registers[i]? = some v) :
    i < vmRegisterCount := by
  by_contra hge
  rw [Vector.getElem?_eq_none (by omega)] at h
  cases h

variable (host : Host W) (program : Program)

theorem exec_loadConst (hopcode : ins.opcode = .loadConst) (hra : ins.ra < vmRegisterCount) (hconstant : program.constants[ins.imm]? = some v) :
    exec host program ins s = (.ok .step, s.store ins.ra v) := by
  have hlt : ins.imm < program.constants.length := (List.getElem?_eq_some_iff.mp hconstant).1
  unfold exec
  rw [hopcode]
  dsimp only
  rw [Action.require_bind_run ⟨hra, hlt⟩, hconstant, Action.access_some_bind_run,
    Action.bind_ok (writeRegister_run hra v s)]
  rfl

theorem exec_loadVar (hopcode : ins.opcode = .loadVar) (hra : ins.ra < vmRegisterCount)
    (hplace : ins.rb = varByName) {name : CString}
    (hname : program.strings[ins.imm]? = some (some name)) :
    exec host program ins s =
      (.ok .step, s.store ins.ra ((s.scope.getVariable (some name)).getD .null)) := by
  have hlt : ins.imm < program.strings.length := (List.getElem?_eq_some_iff.mp hname).1
  have hplaced : s.scope.getVariableAt (some name) ins.rb ins.rc =
      s.scope.getVariable (some name) := by
    rw [hplace]
    rfl
  unfold exec stringAt
  rw [hopcode]
  dsimp only
  rw [Action.require_bind_run ⟨hra, hlt⟩, hname, Action.access_some_bind_run,
    Action.get_bind_run, hplaced, Action.bind_ok (writeRegister_run hra _ s)]
  rfl

theorem exec_binary {operation : Binary} (hopcode : ins.opcode = .binary operation)
    (hra : ins.ra < vmRegisterCount) {left right : Value}
    (hleft : s.vm.registers[ins.rb]? = some left) (hright : s.vm.registers[ins.rc]? = some right) :
    exec host program ins s =
      match vmBinary host.toArithmetic operation left right s.world with
      | some (v, w) => (.ok .step, ({ s with world := w } : State W).store ins.ra v)
      | none => (.error .failed, s) := by
  unfold exec
  rw [hopcode]
  dsimp only
  rw [Action.require_bind_run ⟨hra, register_lt hleft, register_lt hright⟩,
    Action.bind_ok (readRegister_run hleft), Action.bind_ok (readRegister_run hright)]
  cases hfast : fastBinary operation left right with
  | some v =>
    dsimp only
    rw [Action.bind_ok (writeRegister_run hra v s), fastBinary_eq host.toArithmetic hfast s.world]
    rfl
  | none =>
    dsimp only
    have hquery : query (vmBinary host.toArithmetic operation left right) s =
        (.ok (vmBinary host.toArithmetic operation left right s.world), s) := rfl
    rw [Action.bind_ok hquery]
    cases hbinary : vmBinary host.toArithmetic operation left right s.world with
    | none => rfl
    | some result =>
      rw [Action.some?_some_bind_run]
      dsimp only
      rw [Action.modify_bind_run, Action.bind_ok (writeRegister_run hra _ _)]
      rfl

theorem exec_neg (hopcode : ins.opcode = .neg) (hra : ins.ra < vmRegisterCount)
    (hvalue : s.vm.registers[ins.rb]? = some v) :
    exec host program ins s =
      match negate v with
      | some v => (.ok .step, s.store ins.ra v)
      | none => (.error .failed, s) := by
  unfold exec
  rw [hopcode]
  dsimp only
  rw [Action.require_bind_run ⟨hra, register_lt hvalue⟩, Action.bind_ok (readRegister_run hvalue)]
  cases v with
  | integer n =>
    dsimp only
    rw [Action.bind_ok (writeRegister_run hra _ s)]
    rfl
  | real x =>
    dsimp only
    rw [Action.bind_ok (writeRegister_run hra _ s)]
    rfl
  | _ => rfl

theorem query_run {α : Type} (f : W → α) (s : State W) : query f s = (.ok (f s.world), s) := rfl

def jumpTo (taken : Bool) (target : Nat) (s : State W) : State W :=
  if taken then { s with vm := { s.vm with ip := target } } else s

theorem exec_jmpTrue (hopcode : ins.opcode = .jmpTrue) (htarget : ins.imm < program.code.length) (hvalue : s.vm.registers[ins.ra]? = some v) :
    exec host program ins s =
      (.ok .step, jumpTo (vmTruthy host.toArithmetic s.world v) ins.imm s) := by
  unfold exec
  rw [hopcode]
  dsimp only
  rw [Action.require_bind_run ⟨htarget, register_lt hvalue⟩,
    Action.bind_ok (readRegister_run hvalue), Action.bind_ok (query_run _ s)]
  cases vmTruthy host.toArithmetic s.world v <;> rfl

theorem exec_jmpFalse (hopcode : ins.opcode = .jmpFalse) (htarget : ins.imm < program.code.length) (hvalue : s.vm.registers[ins.ra]? = some v) :
    exec host program ins s =
      (.ok .step, jumpTo (!vmTruthy host.toArithmetic s.world v) ins.imm s) := by
  unfold exec
  rw [hopcode]
  dsimp only
  rw [Action.require_bind_run ⟨htarget, register_lt hvalue⟩,
    Action.bind_ok (readRegister_run hvalue), Action.bind_ok (query_run _ s)]
  cases vmTruthy host.toArithmetic s.world v <;> rfl

end Ussr
