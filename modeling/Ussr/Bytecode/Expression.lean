import Ussr.Bytecode.Emit
import Ussr.Vm.Instructions

/-! Code for expressions: `bc_compile_expression` and the constant folding in front
of it. The code computes the meaning of the expression in a register and leaves
the lower registers alone. -/

namespace Ussr

variable {W : Type}
variable {name : CString} {short : Bool} {jump : Opcode} {u : State W} {first stop : Nat}
variable {v : Value} {operation : Binary} {low high : Nat}

def isReference : Value → Bool
  | .vector _ | .instance_ _ | .btree _ => true
  | _ => false

def vmFoldBinary (arithmetic : Arithmetic W) (w : W) (operation : Binary) (left right : Value) :
    Option Value :=
  if isReference left || isReference right then none
  else
    match operation, right with
    | .shl, .integer n =>
      if n.toNat > 63 then none else vmBinaryPlain arithmetic w operation left right
    | .shr, .integer n =>
      if n.toNat > 63 then none else vmBinaryPlain arithmetic w operation left right
    | _, _ => vmBinaryPlain arithmetic w operation left right

def bcFold (arithmetic : Arithmetic W) (w : W) : Expression → Option Value
  | .value (.integer n) => some (.integer n)
  | .value (.real x) => some (.real x)
  | .value (.boolean b) => some (.boolean b)
  | .value (.string s) => some (.string s)
  | .value _ => none
  | .«variable» _ => none
  | .unary operator operand =>
    if operator ≠ .sub then none else (bcFold arithmetic w operand).bind negate
  | .binary operator l r =>
    if operator = .logicalAnd ∨ operator = .logicalOr then none
    else do
      let left ← bcFold arithmetic w l
      let right ← bcFold arithmetic w r
      vmFoldBinary arithmetic w operator.toBinary left right

def bcEmitConstant (dst : Nat) (v : Value) (p : Program) : Option Program := do
  let (i, p) ← bcAddConstant v p
  bcEmit { opcode := .loadConst, a := UInt8.ofNat dst, immediate := UInt32.ofNat i } p

def bcEmitVariable (dst : Nat) (name : CString) (p : Program) : Option Program := do
  let (i, p) ← bcAddString name p
  bcEmit { opcode := .loadVar, a := UInt8.ofNat dst, immediate := UInt32.ofNat i } p

def bcEmitBinary (operator : Operator) (dst left right : Nat) (p : Program) : Option Program :=
  bcEmit
    { opcode := .binary operator.toBinary
      a := UInt8.ofNat dst
      b := UInt8.ofNat left
      c := UInt8.ofNat right } p

/-- The code of `&&` and `||`: the right operand is skipped where the left one decides. -/
def bcCompileLogical (jump : Opcode) (dst : Nat) (left right : Program → Option Program)
    (p : Program) : Option Program := do
  let evaluated ← left p
  let jumped ← bcEmit { opcode := jump, a := UInt8.ofNat dst } evaluated
  let p ← right jumped
  bcPatch evaluated.code.length p.code.length p

def logicalJump : Operator → Option Opcode
  | .logicalAnd => some .jmpFalse
  | .logicalOr => some .jmpTrue
  | _ => none

/-- `bc_compile_expression_short` and `bc_compile_expression`; `short` says which of them is
called. -/
def bcCompile (arithmetic : Arithmetic W) (w : W) (short : Bool) (e : Expression) (dst : Nat)
    (p : Program) : Option Program :=
  match e with
  | .value v => if dst ≥ bcReturnReg then none else bcEmitConstant dst v p
  | .«variable» name => if dst ≥ bcReturnReg then none else bcEmitVariable dst name p
  | .unary operator operand =>
    if dst ≥ bcReturnReg then none
    else
      match bcFold arithmetic w (.unary operator operand) with
      | some folded => bcEmitConstant dst folded p
      | none => do
        let p ← bcCompile arithmetic w false operand dst p
        if operator = .sub then
          bcEmit { opcode := .neg, a := UInt8.ofNat dst, b := UInt8.ofNat dst } p
        else none
  | .binary operator l r =>
    match logicalJump operator with
    | some jump =>
      if short = false ∧ dst + 2 ≥ bcReturnReg then none
      else bcCompileLogical jump dst (bcCompile arithmetic w true l dst)
        (bcCompile arithmetic w true r dst) p
    | none =>
      if dst ≥ bcReturnReg then none
      else
        match bcFold arithmetic w (.binary operator l r) with
        | some folded => bcEmitConstant dst folded p
        | none =>
          if dst + 2 ≥ bcReturnReg then none
          else do
            let p ← bcCompile arithmetic w false l (dst + 1) p
            let p ← bcCompile arithmetic w false r (dst + 2) p
            bcEmitBinary operator dst (dst + 1) (dst + 2) p

def bcCompileExpressionShort (arithmetic : Arithmetic W) (w : W) (e : Expression) (dst : Nat)
    (p : Program) : Option Program := bcCompile arithmetic w true e dst p

def bcCompileExpression (arithmetic : Arithmetic W) (w : W) (e : Expression) (dst : Nat)
    (p : Program) : Option Program := bcCompile arithmetic w false e dst p

section

variable {arithmetic : Arithmetic W} {w : W} {scope : Scope}

def Expression.Plain (scope : Scope) : Expression → Prop
  | .value v => v.isPlain = true
  | .«variable» name => ∃ v, scope.getVariable (some name) = some v ∧ v.isPlain = true
  | .unary _ operand => Plain scope operand
  | .binary _ l r => Plain scope l ∧ Plain scope r

theorem negate_isPlain {v' : Value} (h : negate v = some v') : v'.isPlain = true := by
  cases v <;> cases h <;> rfl

theorem vmBinaryPlain_isPlain {left right : Value}
    (h : vmBinaryPlain arithmetic w operation left right = some v) : v.isPlain = true := by
  have harithmetic : ∀ operation, vmArithmetic arithmetic operation left right = some v →
      v.isPlain = true := by
    intro operation h
    unfold vmArithmetic at h
    split_ifs at h
    split at h <;> try split_ifs at h
    all_goals cases h <;> rfl
  have hbitwise : ∀ operation, vmBitwise operation left right = some v → v.isPlain = true := by
    intro operation h
    unfold vmBitwise at h
    split at h
    · split at h <;> try split_ifs at h
      all_goals
        cases h
        rfl
    · cases h
  have hcompare : ∀ operation, (vmCompare operation left right).map Value.boolean = some v →
      v.isPlain = true := by
    intro operation h
    obtain ⟨b, _, rfl⟩ := Option.map_eq_some_iff.mp h
    rfl
  cases operation with
  | add | sub | mul | div | mod => exact harithmetic _ h
  | eq | ne | land | lor =>
    cases h
    rfl
  | lt | le | gt | ge => exact hcompare _ h
  | xor | band | bor | shl | shr =>
    unfold vmBinaryPlain at h
    exact hbitwise _ h

theorem Operator.apply_eq {operator : Operator} (hand : operator ≠ .logicalAnd)
    (hor : operator ≠ .logicalOr) (left right : Value) :
    operator.apply arithmetic w left right =
      vmBinaryPlain arithmetic w operator.toBinary left right := by
  cases operator with
  | logicalAnd => exact absurd rfl hand
  | logicalOr => exact absurd rfl hor
  | _ => rfl

theorem Expression.meaning_isPlain {e : Expression} (h : e.Plain scope)
    (hv : e.meaning arithmetic w scope = some v) : v.isPlain = true := by
  induction e generalizing v with
  | value literal =>
    cases hv
    exact h
  | «variable» name =>
    obtain ⟨value, hvalue, hplain⟩ := h
    cases hvalue.symm.trans hv
    exact hplain
  | unary operator operand ih =>
    obtain ⟨right, _, hright⟩ := Option.bind_eq_some_iff.mp hv
    exact negate_isPlain hright
  | binary operator l r ihl ihr =>
    rw [meaning_binary] at hv
    obtain ⟨left, hleft, hv⟩ := Option.bind_eq_some_iff.mp hv
    split_ifs at hv
    · cases hv
      exact ihl h.1 hleft
    · obtain ⟨right, hright, hv⟩ := Option.bind_eq_some_iff.mp hv
      have hlast := ihr h.2 hright
      by_cases hlogical : operator = .logicalAnd ∨ operator = .logicalOr
      · rcases hlogical with rfl | rfl <;> cases hv <;> exact hlast
      · rw [Operator.apply_eq (fun h => hlogical (Or.inl h)) fun h => hlogical (Or.inr h)] at hv
        exact vmBinaryPlain_isPlain hv

theorem isStruct_of_isPlain (h : v.isPlain = true) : isStruct v = false := by
  cases v with
  | instance_ ref => cases h
  | _ => rfl

theorem vmBinaryPlain_world (hland : operation ≠ .land)
    (hlor : operation ≠ .lor) (left right : Value) (w w' : W) :
    vmBinaryPlain arithmetic w operation left right =
      vmBinaryPlain arithmetic w' operation left right := by
  cases operation with
  | land => exact absurd rfl hland
  | lor => exact absurd rfl hlor
  | _ => rfl

theorem vmFoldBinary_eq {left right : Value}
    (h : vmFoldBinary arithmetic w operation left right = some v) :
    vmBinaryPlain arithmetic w operation left right = some v := by
  unfold vmFoldBinary at h
  split_ifs at h
  split at h <;> try split_ifs at h
  all_goals exact h

theorem bcFold_eq {e : Expression} (h : bcFold arithmetic w e = some v) (w' : W)
    (scope : Scope) : e.meaning arithmetic w' scope = some v := by
  induction e generalizing v with
  | value literal =>
    cases literal <;> cases h <;> rfl
  | «variable» name => cases h
  | unary operator operand ih =>
    unfold bcFold at h
    split_ifs at h
    obtain ⟨right, hright, hv⟩ := Option.bind_eq_some_iff.mp h
    rw [Expression.meaning, ih hright]
    exact hv
  | binary operator l r ihl ihr =>
    unfold bcFold at h
    split_ifs at h with hlogical
    obtain ⟨left, hleft, h⟩ := Option.bind_eq_some_iff.mp h
    obtain ⟨right, hright, h⟩ := Option.bind_eq_some_iff.mp h
    have hv := vmFoldBinary_eq h
    rw [Expression.meaning_binary, ihl hleft, Option.bind_some, ihr hright, Option.bind_some]
    obtain ⟨hand, hor⟩ := not_or.mp hlogical
    have hplain : operator.toBinary ≠ .land ∧ operator.toBinary ≠ .lor := by
      cases operator <;> simp_all [Operator.toBinary]
    rw [Operator.apply_eq hand hor, vmBinaryPlain_world hplain.1 hplain.2 left right w' w, hv,
      if_neg]
    cases operator <;> simp_all [Operator.decides]

theorem bcFold_plain {e : Expression} (h : bcFold arithmetic w e = some v) (scope : Scope) : e.Plain scope := by
  induction e generalizing v with
  | value literal => cases literal <;> cases h <;> rfl
  | «variable» name => cases h
  | unary operator operand ih =>
    unfold bcFold at h
    split_ifs at h
    obtain ⟨right, hright, _⟩ := Option.bind_eq_some_iff.mp h
    exact ih hright
  | binary operator l r ihl ihr =>
    unfold bcFold at h
    split_ifs at h
    obtain ⟨left, hleft, h⟩ := Option.bind_eq_some_iff.mp h
    obtain ⟨right, hright, _⟩ := Option.bind_eq_some_iff.mp h
    exact ⟨ihl hleft, ihr hright⟩

end

section

variable {arithmetic : Arithmetic W} {w : W} {scope : Scope}

def Operator.applied (arithmetic : Arithmetic W) (operator : Operator) (left right : Value) (w : W) :
    Option (Value × W) :=
  match operator with
  | .logicalAnd | .logicalOr => some (right, w)
  | _ => vmBinary arithmetic operator.toBinary left right w

/-- The evaluation from left to right, on any values: a variable without one is null, and the
operators of structs may change the world. -/
def Expression.result (arithmetic : Arithmetic W) (scope : Scope) : Expression → W → Option (Value × W)
  | .value v, w => some (v, w)
  | .«variable» name, w => some ((scope.getVariable (some name)).getD .null, w)
  | .unary _ operand, w => (result arithmetic scope operand w).bind fun r => (negate r.1).map fun v => (v, r.2)
  | .binary operator l r, w =>
    (result arithmetic scope l w).bind fun left =>
      if operator.decides (vmTruthy arithmetic left.2 left.1) then some left
      else
        (result arithmetic scope r left.2).bind fun right => operator.applied arithmetic left.1 right.1 right.2

/-- The evaluation from left to right negates no lowest integer: the minus of C has no value there. -/
def Expression.MinusDefined (arithmetic : Arithmetic W) (scope : Scope) : Expression → W → Prop
  | .value _, _ => True
  | .«variable» _, _ => True
  | .unary _ operand, w => MinusDefined arithmetic scope operand w ∧
    ∀ w', operand.result arithmetic scope w ≠ some (.integer (BitVec.intMin 64), w')
  | .binary operator l r, w => MinusDefined arithmetic scope l w ∧
    ∀ left w', l.result arithmetic scope w = some (left, w') →
      operator.decides (vmTruthy arithmetic w' left) = false → MinusDefined arithmetic scope r w'

theorem vmBinary_plain {left right : Value} (hleft : left.isPlain = true) (hright : right.isPlain = true)
    (w : W) : vmBinary arithmetic operation left right w =
      (vmBinaryPlain arithmetic w operation left right).map fun v => (v, w) := by
  unfold vmBinary
  rw [isStruct_of_isPlain hleft, isStruct_of_isPlain hright]
  rfl

theorem Operator.applied_plain (operator : Operator) {left right : Value} (hleft : left.isPlain = true)
    (hright : right.isPlain = true) (w : W) : operator.applied arithmetic left right w =
      (operator.apply arithmetic w left right).map fun v => (v, w) := by
  cases operator with
  | logicalAnd | logicalOr => rfl
  | _ => exact vmBinary_plain hleft hright w

theorem Expression.result_plain {e : Expression} (h : e.Plain scope) (w : W) :
    e.result arithmetic scope w = (e.meaning arithmetic w scope).map fun v => (v, w) := by
  induction e with
  | value v => rfl
  | «variable» name =>
    obtain ⟨v, hvalue, _⟩ := h
    rw [result, meaning, hvalue]
    rfl
  | unary operator operand ih =>
    rw [result, meaning, ih h]
    cases operand.meaning arithmetic w scope <;> rfl
  | binary operator l r ihl ihr =>
    rw [result, meaning_binary, ihl h.1]
    cases hleft : l.meaning arithmetic w scope with
    | none => rfl
    | some left =>
      rw [Option.map_some, Option.bind_some, Option.bind_some]
      by_cases hdecides : operator.decides (vmTruthy arithmetic w left) = true
      · rw [if_pos hdecides, if_pos hdecides]
        rfl
      · rw [if_neg hdecides, if_neg hdecides, ihr h.2]
        cases hright : r.meaning arithmetic w scope with
        | none => rfl
        | some right => exact operator.applied_plain (meaning_isPlain h.1 hleft) (meaning_isPlain h.2 hright) w

theorem bcFold_result {e : Expression} (h : bcFold arithmetic w e = some v) (scope : Scope) (w' : W) :
    e.result arithmetic scope w' = some (v, w') := by
  rw [Expression.result_plain (bcFold_plain h scope), bcFold_eq h]
  rfl

end

section

variable {arithmetic : Arithmetic W} {w : W} {p p' : Program}

theorem bcEmitConstant_extends {dst : Nat} (h : bcEmitConstant dst v p = some p') :
    p.Extends p' ∧ p'.code.length = p.code.length + 1 := by
  unfold bcEmitConstant at h
  obtain ⟨⟨i, p₁⟩, hconstant, hemit⟩ := Option.bind_eq_some_iff.mp h
  obtain ⟨_, _, rfl⟩ := bcAddConstant_eq_some hconstant
  rw [bcEmit_eq_some hemit]
  refine ⟨⟨List.prefix_append _ _, List.prefix_append _ _, List.prefix_refl _⟩, by simp⟩

theorem bcEmitVariable_extends {dst : Nat}
    (h : bcEmitVariable dst name p = some p') :
    p.Extends p' ∧ p'.code.length = p.code.length + 1 := by
  unfold bcEmitVariable at h
  obtain ⟨⟨i, p₁⟩, hstring, hemit⟩ := Option.bind_eq_some_iff.mp h
  obtain ⟨_, _, rfl⟩ := bcAddString_eq_some hstring
  rw [bcEmit_eq_some hemit]
  refine ⟨⟨List.prefix_append _ _, List.prefix_refl _, List.prefix_append _ _⟩, by simp⟩

theorem bcCompile_unary {operator : Operator} {operand : Expression} {dst : Nat}
    (h : bcCompile arithmetic w short (.unary operator operand) dst p = some p') :
    dst < bcReturnReg ∧
      ((∃ folded, bcFold arithmetic w (.unary operator operand) = some folded ∧
          bcEmitConstant dst folded p = some p') ∨
        ∃ p₁, bcCompile arithmetic w false operand dst p = some p₁ ∧
          bcEmit { opcode := .neg, a := UInt8.ofNat dst, b := UInt8.ofNat dst } p₁ = some p') := by
  unfold bcCompile at h
  by_cases hdst : dst ≥ bcReturnReg
  · rw [if_pos hdst] at h
    cases h
  · rw [if_neg hdst] at h
    refine ⟨Nat.lt_of_not_ge hdst, ?_⟩
    split at h
    · rename_i folded hfold
      exact Or.inl ⟨folded, hfold, h⟩
    · obtain ⟨p₁, hoperand, h⟩ := Option.bind_eq_some_iff.mp h
      by_cases hsub : operator = .sub
      · rw [if_pos hsub] at h
        exact Or.inr ⟨p₁, hoperand, h⟩
      · rw [if_neg hsub] at h
        cases h

theorem bcCompile_binary {operator : Operator} {l r : Expression} {dst : Nat}
    (h : bcCompile arithmetic w short (.binary operator l r) dst p = some p') :
    (∃ jump, logicalJump operator = some jump ∧
      bcCompileLogical jump dst (bcCompile arithmetic w true l dst)
        (bcCompile arithmetic w true r dst) p = some p') ∨
    (logicalJump operator = none ∧ dst < bcReturnReg ∧
      ((∃ folded, bcFold arithmetic w (.binary operator l r) = some folded ∧
          bcEmitConstant dst folded p = some p') ∨
        ∃ p₁ p₂, bcCompile arithmetic w false l (dst + 1) p = some p₁ ∧
          bcCompile arithmetic w false r (dst + 2) p₁ = some p₂ ∧
          bcEmitBinary operator dst (dst + 1) (dst + 2) p₂ = some p')) := by
  unfold bcCompile at h
  cases hjump : logicalJump operator with
  | some jump =>
    rw [hjump] at h
    dsimp only at h
    split_ifs at h
    exact Or.inl ⟨jump, rfl, h⟩
  | none =>
    rw [hjump] at h
    dsimp only at h
    by_cases hdst : dst ≥ bcReturnReg
    · rw [if_pos hdst] at h
      cases h
    rw [if_neg hdst] at h
    refine Or.inr ⟨rfl, Nat.lt_of_not_ge hdst, ?_⟩
    cases hfold : bcFold arithmetic w (.binary operator l r) with
    | some folded =>
      rw [hfold] at h
      exact Or.inl ⟨folded, rfl, h⟩
    | none =>
      rw [hfold] at h
      dsimp only at h
      split_ifs at h
      obtain ⟨p₁, hleft, h⟩ := Option.bind_eq_some_iff.mp h
      obtain ⟨p₂, hright, h⟩ := Option.bind_eq_some_iff.mp h
      exact Or.inr ⟨p₁, p₂, hleft, hright, h⟩

theorem bcCompileLogical_eq_some {dst : Nat}
    {left right : Program → Option Program}
    (h : bcCompileLogical jump dst left right p = some p') :
    ∃ evaluated jumped finished, left p = some evaluated ∧
      bcEmit { opcode := jump, a := UInt8.ofNat dst } evaluated = some jumped ∧
      right jumped = some finished ∧
      bcPatch evaluated.code.length finished.code.length finished = some p' := by
  unfold bcCompileLogical at h
  obtain ⟨evaluated, hevaluated, h⟩ := Option.bind_eq_some_iff.mp h
  obtain ⟨jumped, hjumped, h⟩ := Option.bind_eq_some_iff.mp h
  obtain ⟨finished, hfinished, hpatch⟩ := Option.bind_eq_some_iff.mp h
  exact ⟨evaluated, jumped, finished, hevaluated, hjumped, hfinished, hpatch⟩

theorem bcCompile_lt {e : Expression} {dst : Nat}
    (h : bcCompile arithmetic w short e dst p = some p') : dst < bcReturnReg := by
  induction e generalizing short dst p p' with
  | value v =>
    unfold bcCompile at h
    split_ifs at h with hdst
    exact Nat.lt_of_not_ge hdst
  | «variable» name =>
    unfold bcCompile at h
    split_ifs at h with hdst
    exact Nat.lt_of_not_ge hdst
  | unary operator operand ih => exact (bcCompile_unary h).1
  | binary operator l r ihl ihr =>
    rcases bcCompile_binary h with ⟨jump, _, hlogical⟩ | ⟨_, hdst, _⟩
    · obtain ⟨_, _, _, hleft, _⟩ := bcCompileLogical_eq_some hlogical
      exact ihl hleft
    · exact hdst

end

section

variable {host : Host W} {q p p' : Program} {s t : State W}

def State.frozen (s : State W) : State W :=
  { s with vm := { s.vm with registers := Registers.empty, ip := 0, steps := 0 }, signals := [] }

/-- The registers from `dst` on may have changed, and the place in the code. -/
structure Clobbers (dst : Nat) (s t : State W) : Prop where
  below : ∀ i, i < dst → t.vm.registers[i]? = s.vm.registers[i]?
  frozen : t.frozen = s.frozen

namespace Clobbers

theorem trans {dst : Nat} (h : Clobbers dst s t) (h' : Clobbers dst t u) :
    Clobbers dst s u :=
  ⟨fun i hi => (h'.below i hi).trans (h.below i hi), h'.frozen.trans h.frozen⟩

theorem mono {dst : Nat} (h : Clobbers first s t) (hle : dst ≤ first) : Clobbers dst s t :=
  ⟨fun i hi => h.below i (Nat.lt_of_lt_of_le hi hle), h.frozen⟩

theorem scope {dst : Nat} (h : Clobbers dst s t) : t.scope = s.scope := by
  have hscope : t.frozen.scope = s.frozen.scope := by rw [h.frozen]
  exact hscope

theorem world {dst : Nat} (h : Clobbers dst s t) : t.world = s.world := by
  have hworld : t.frozen.world = s.frozen.world := by rw [h.frozen]
  exact hworld

theorem fetched (dst : Nat) (s : State W) : Clobbers dst s s.fetched := ⟨fun _ _ => rfl, rfl⟩

theorem store {dst : Nat} (hdst : dst < vmRegisterCount) (v : Value) (s : State W) :
    Clobbers dst s (s.store dst v) := by
  refine ⟨fun i hi => store_other hdst (by omega) v s, ?_⟩
  rw [store_eq hdst]
  rfl

theorem jumpTo (dst : Nat) (taken : Bool) (target : Nat) (s : State W) :
    Clobbers dst s (jumpTo taken target s) := by
  cases taken <;> exact ⟨fun _ _ => rfl, rfl⟩

end Clobbers

/-- From `s`, the code has put `v` into register `dst` and stands at `stop`. -/
structure Evaluated (s : State W) (dst : Nat) (v : Value) (stop : Nat) (t : State W) : Prop where
  ip : t.vm.ip = stop
  value : t.vm.registers[dst]? = some v
  clobbers : Clobbers dst s t

/-- What the code for an expression comes to: its value in `dst`, or a failure. -/
def Delivers (s : State W) (dst stop : Nat) : Option Value → Option (State W) → Prop
  | some v, some t => Evaluated s dst v stop t
  | none, none => True
  | _, _ => False

/-- The registers from `dst` on may have changed, the place in the code, and the world to `w`. -/
structure Changes (dst : Nat) (w : W) (s t : State W) : Prop where
  below : ∀ i, i < dst → t.vm.registers[i]? = s.vm.registers[i]?
  frozen : t.frozen = { s.frozen with world := w }

namespace Changes

variable {dst : Nat} {w w' : W}

theorem trans (h : Changes dst w s t) (h' : Changes dst w' t u) : Changes dst w' s u :=
  ⟨fun i hi => (h'.below i hi).trans (h.below i hi), by rw [h'.frozen, h.frozen]⟩

theorem mono (h : Changes first w s t) (hle : dst ≤ first) : Changes dst w s t :=
  ⟨fun i hi => h.below i (Nat.lt_of_lt_of_le hi hle), h.frozen⟩

theorem scope (h : Changes dst w s t) : t.scope = s.scope := by
  have hscope : t.frozen.scope = s.frozen.scope := by rw [h.frozen]
  exact hscope

theorem world (h : Changes dst w s t) : t.world = w := by
  have hworld : t.frozen.world = w := by rw [h.frozen]
  exact hworld

theorem of_clobbers (h : Clobbers dst s t) : Changes dst s.world s t := ⟨h.below, h.frozen⟩

theorem clobbers (h : Changes dst s.world s t) : Clobbers dst s t := ⟨h.below, h.frozen⟩

end Changes

/-- From `s`, the code has put `v` into register `dst`, left the world `w` and stands at `stop`. -/
structure Settles (s : State W) (dst : Nat) (v : Value) (w : W) (stop : Nat) (t : State W) : Prop where
  ip : t.vm.ip = stop
  value : t.vm.registers[dst]? = some v
  changes : Changes dst w s t

def Brings (s : State W) (dst stop : Nat) : Option (Value × W) → Option (State W) → Prop
  | some (v, w), some t => Settles s dst v w stop t
  | none, none => True
  | _, _ => False

theorem settles_store {dst : Nat} (hdst : dst < vmRegisterCount) (v : Value) (w : W) :
    Settles s dst v w (s.vm.ip + 1) (({ s.fetched with world := w } : State W).store dst v) where
  ip := store_ip dst v _
  value := store_same hdst v _
  changes := by
    have hstored := (Clobbers.store hdst v ({ s.fetched with world := w } : State W))
    exact ⟨hstored.below, hstored.frozen⟩

theorem Settles.after {dst : Nat} {w w' : W} (hchanges : Changes dst w s t)
    (h : Settles t dst v w' stop u) : Settles s dst v w' stop u :=
  ⟨h.ip, h.value, hchanges.trans h.changes⟩

theorem Brings.after {dst : Nat} {w : W} {v : Option (Value × W)} {r : Option (State W)}
    (hchanges : Changes dst w s t) (h : Brings t dst stop v r) : Brings s dst stop v r := by
  cases v <;> cases r <;> try exact h
  exact Settles.after hchanges h

theorem Brings.delivers {dst : Nat} {v : Option Value} {r : Option (State W)}
    (h : Brings s dst stop (v.map fun v => (v, s.world)) r) : Delivers s dst stop v r := by
  cases v <;> cases r <;> try exact h
  exact ⟨h.ip, h.value, h.changes.clobbers⟩

/-- `-n` of C, where it is one of the integers. -/
def cNegate (n : BitVec 64) : Option (BitVec 64) :=
  if n = BitVec.intMin 64 then none else some (-n)

/-- The next instruction is a NEG of the lowest integer, which C leaves undefined. -/
def NegUndefined (q : Program) (s : State W) : Prop :=
  ∃ ins, q.code[s.vm.ip]? = some ins ∧ ins.opcode = .neg ∧
    ∃ n, s.vm.registers[ins.rb]? = some (.integer n) ∧ cNegate n = none

theorem not_negUndefined {ins : Instruction} (hfetch : q.code[s.vm.ip]? = some ins)
    (hopcode : ins.opcode ≠ .neg) : ¬ NegUndefined q s := by
  rintro ⟨ins', hfetch', hneg, _⟩
  cases hfetch.symm.trans hfetch'
  exact hopcode hneg

/-- `EndsCode`, where the run comes to no undefined NEG if `safe`. -/
def EndsSafely (host : Host W) (q : Program) (safe : Prop) (low high : Nat) :
    State W → Option (State W) → Prop :=
  Ends (fun s t => CodeNext host q s t ∧ (safe → ¬ NegUndefined q s))
    (fun s => CodeFails host q s ∧ (safe → ¬ NegUndefined q s)) (InCode low high)

namespace EndsSafely

variable {safe safe' : Prop} {r : Option (State W)}

theorem ends (h : EndsSafely host q safe low high s r) : EndsCode host q low high s r :=
  h.imp (fun _ _ hstep => hstep.1) fun _ hstuck => hstuck.1

theorem weaken (h : EndsSafely host q safe low high s r) (himp : safe' → safe) :
    EndsSafely host q safe' low high s r :=
  h.imp (fun _ _ hstep => ⟨hstep.1, fun hsafe => hstep.2 (himp hsafe)⟩)
    fun _ hstuck => ⟨hstuck.1, fun hsafe => hstuck.2 (himp hsafe)⟩

theorem defined (h : EndsSafely host q safe low high s r) (hsafe : safe)
    (hruns : RunsCode host q low high s u) (hin : InCode low high u) : ¬ NegUndefined q u := by
  have hgood : safe → ¬ NegUndefined q u := by
    refine Ends.along (fun s => safe → ¬ NegUndefined q s) ?_ ?_ h hruns hin
    · exact fun _ _ _ => codeNext_unique
    · exact fun _ _ => codeNext_not_fails
  exact hgood hsafe

end EndsSafely

section

variable {safe : Prop} {r : Option (State W)}

theorem ends_store {dst : Nat} {w : W} {ins : Instruction}
    (hfetch : q.code[s.vm.ip]? = some ins) (hin : InCode low high s) (hra : ins.ra = dst)
    (hdst : dst < vmRegisterCount)
    (hexec : exec host q ins s.fetched = (.ok .step, ({ s.fetched with world := w } : State W).store ins.ra v))
    (hhigh : s.vm.ip + 1 = high) (hsafe : safe → ¬ NegUndefined q s) :
    ∃ t, EndsSafely host q safe low high s (some t) ∧ Settles s dst v w high t := by
  rw [hra] at hexec
  have hstored := settles_store (s := s) hdst v w
  rw [hhigh] at hstored
  refine ⟨_, .step hin ⟨⟨ins, hfetch, hexec⟩, hsafe⟩ (.leaves fun hin' => ?_), hstored⟩
  have hlt := hin'.2
  rw [hstored.ip] at hlt
  exact Nat.lt_irrefl _ hlt

theorem toNat_register {dst : Nat} (h : dst < bcReturnReg) :
    (UInt8.ofNat dst).toNat = dst ∧ dst < vmRegisterCount := by
  have hlt : dst < 31 := h
  refine ⟨?_, show dst < 32 by omega⟩
  rw [UInt8.toNat_ofNat']
  exact Nat.mod_eq_of_lt (by omega)

theorem toNat_index {i : Nat} (h : i < 2 ^ 31) : (UInt32.ofNat i).toNat = i := by
  rw [UInt32.toNat_ofNat']
  exact Nat.mod_eq_of_lt (by omega)

theorem bcEmitConstant_ends {dst : Nat} (h : bcEmitConstant dst v p = some p')
    (hdst : dst < bcReturnReg) (hq : q.Holds p p') (hip : s.vm.ip = p.code.length) :
    ∃ t, EndsSafely host q safe p.code.length p'.code.length s (some t) ∧
      Settles s dst v s.world p'.code.length t := by
  have hlength := (bcEmitConstant_extends h).2
  unfold bcEmitConstant at h
  obtain ⟨⟨i, p₁⟩, hconstant, hemit⟩ := Option.bind_eq_some_iff.mp h
  obtain ⟨hi, hindex, rfl⟩ := bcAddConstant_eq_some hconstant
  have hp' := bcEmit_eq_some hemit
  obtain ⟨hra, hlt⟩ := toNat_register hdst
  have hfetch : q.code[s.vm.ip]? =
      some { opcode := .loadConst, a := UInt8.ofNat dst, immediate := UInt32.ofNat i } := by
    rw [hip, hq.code _ (Nat.le_refl _) (by omega), hp']
    simp
  have hvalue : q.constants[i]? = some v := by
    obtain ⟨rest, hrest⟩ := hq.constants
    rw [← hrest, hp', hindex]
    simp
  generalize hins : ({ opcode := .loadConst, a := UInt8.ofNat dst, immediate := UInt32.ofNat i } :
    Instruction) = ins at hfetch
  have hregister : ins.ra = dst := by rw [← hins]; exact hra
  have himmediate : ins.imm = i := by rw [← hins]; exact toNat_index hi
  have hexec : exec host q ins s.fetched = (.ok .step, s.fetched.store ins.ra v) :=
    exec_loadConst host q (by rw [← hins]) (by rwa [hregister]) (by rwa [himmediate])
  refine ends_store hfetch ⟨hip.ge, by omega⟩ hregister hlt hexec (by omega) fun _ => ?_
  exact not_negUndefined hfetch (by simp [← hins])

theorem bcEmitVariable_ends {dst : Nat}
    (h : bcEmitVariable dst name p = some p') (hdst : dst < bcReturnReg) (hq : q.Holds p p')
    (hip : s.vm.ip = p.code.length) :
    ∃ t, EndsSafely host q safe p.code.length p'.code.length s (some t) ∧
      Settles s dst ((s.scope.getVariable (some name)).getD .null) s.world p'.code.length t := by
  have hlength := (bcEmitVariable_extends h).2
  unfold bcEmitVariable at h
  obtain ⟨⟨i, p₁⟩, hstring, hemit⟩ := Option.bind_eq_some_iff.mp h
  obtain ⟨hi, hindex, rfl⟩ := bcAddString_eq_some hstring
  have hp' := bcEmit_eq_some hemit
  obtain ⟨hra, hlt⟩ := toNat_register hdst
  have hfetch : q.code[s.vm.ip]? =
      some { opcode := .loadVar, a := UInt8.ofNat dst, immediate := UInt32.ofNat i } := by
    rw [hip, hq.code _ (Nat.le_refl _) (by omega), hp']
    simp
  have hname : q.strings[i]? = some (some name) := by
    obtain ⟨rest, hrest⟩ := hq.strings
    rw [← hrest, hp', hindex]
    simp
  generalize hins : ({ opcode := .loadVar, a := UInt8.ofNat dst, immediate := UInt32.ofNat i } :
    Instruction) = ins at hfetch
  have hregister : ins.ra = dst := by rw [← hins]; exact hra
  have himmediate : ins.imm = i := by rw [← hins]; exact toNat_index hi
  have hexec := exec_loadVar host q (s := s.fetched)
    (show ins.opcode = .loadVar by rw [← hins]) (by rwa [hregister])
    (show ins.rb = varByName by rw [← hins]; rfl) (by rwa [himmediate])
  refine ends_store hfetch ⟨hip.ge, by omega⟩ hregister hlt hexec (by omega) fun _ => ?_
  exact not_negUndefined hfetch (by simp [← hins])

theorem Brings.widen {low' dst : Nat} {v : Option (Value × W)}
    (h : Brings s dst high v r) (hends : EndsSafely host q safe low high s r) (hlow : low' ≤ low) :
    EndsSafely host q safe low' high s r := by
  refine hends.bind (InCode.mono hlow (Nat.le_refl _)) (fun hnone => hnone) fun t ht => ?_
  subst ht
  cases v with
  | none => cases h
  | some v =>
    refine .leaves fun hin => ?_
    have hout := hin.2
    rw [h.ip] at hout
    exact absurd hout (Nat.lt_irrefl _)

theorem ends_operation {dst : Nat} {v : Option (Value × W)} {ins : Instruction}
    (hfetch : q.code[s.vm.ip]? = some ins) (hin : InCode low high s) (hra : ins.ra = dst)
    (hdst : dst < vmRegisterCount)
    (hexec : exec host q ins s.fetched = match v with
      | some (v, w) => (.ok .step, ({ s.fetched with world := w } : State W).store ins.ra v)
      | none => (.error .failed, s.fetched))
    (hhigh : s.vm.ip + 1 = high) (hsafe : safe → ¬ NegUndefined q s) :
    ∃ r, EndsSafely host q safe low high s r ∧ Brings s dst high v r := by
  cases v with
  | none => exact ⟨none, .fails hin ⟨⟨ins, _, hfetch, hexec⟩, hsafe⟩, trivial⟩
  | some v =>
    obtain ⟨t, hends, ht⟩ := ends_store hfetch hin hra hdst hexec hhigh hsafe
    exact ⟨some t, hends, ht⟩

theorem exec_logicalJump (host : Host W) (q : Program) {operator : Operator}
    (hjump : logicalJump operator = some jump) {ins : Instruction} (hopcode : ins.opcode = jump)
    (htarget : ins.imm < q.code.length) (hvalue : s.vm.registers[ins.ra]? = some v) :
    exec host q ins s = (.ok .step,
      jumpTo (operator.decides (vmTruthy host.toArithmetic s.world v)) ins.imm s) := by
  cases operator with
  | logicalAnd =>
    cases hjump
    exact exec_jmpFalse host q hopcode htarget hvalue
  | logicalOr =>
    cases hjump
    exact exec_jmpTrue host q hopcode htarget hvalue
  | _ => cases hjump

theorem ends_bind {middle dst : Nat} {v v' : Option (Value × W)}
    {start : State W} (hends : EndsSafely host q safe low middle s r) (hmiddle : middle ≤ high)
    (hbrings : Brings s first middle v r) (hfailed : v = none → v' = none)
    (hrest : ∀ value w t, v = some (value, w) → Settles s first value w middle t →
      ∃ r, EndsSafely host q safe low high t r ∧ Brings start dst high v' r) :
    ∃ r, EndsSafely host q safe low high s r ∧ Brings start dst high v' r := by
  have hmono := InCode.mono (W := W) (Nat.le_refl low) hmiddle
  cases v with
  | none =>
    cases r with
    | some t => cases hbrings
    | none =>
      rw [hfailed rfl]
      exact ⟨none, hends.bind hmono (fun _ => rfl) (fun t ht => by cases ht), trivial⟩
  | some value =>
    cases r with
    | none => cases hbrings
    | some t =>
      obtain ⟨r, hr, hlast⟩ := hrest _ _ t rfl hbrings
      exact ⟨r, hends.bind hmono (fun hnone => by cases hnone)
        (fun t' ht' => by cases ht'; exact hr), hlast⟩

end

/-- `compile` emits code that delivers the meaning of `e` in `dst`. -/
structure Emits (host : Host W) (q : Program) (e : Expression) (dst : Nat)
    (compile : Program → Option Program) : Prop where
  extends_ : ∀ p p', compile p = some p' → p.Extends p'
  ends : ∀ p p' (s : State W), compile p = some p' → q.Holds p p' → s.vm.ip = p.code.length →
    e.Plain s.scope → ∃ r, EndsCode host q p.code.length p'.code.length s r ∧
      Delivers s dst p'.code.length (e.meaning host.toArithmetic s.world s.scope) r

/-- `compile` emits code that evaluates `e` into `dst`, whatever the variables are. -/
structure Carries (host : Host W) (q : Program) (e : Expression) (dst : Nat)
    (compile : Program → Option Program) : Prop where
  extends_ : ∀ p p', compile p = some p' → p.Extends p'
  ends : ∀ p p' (s : State W), compile p = some p' → q.Holds p p' → s.vm.ip = p.code.length →
    ∃ r, EndsSafely host q (e.MinusDefined host.toArithmetic s.scope s.world) p.code.length p'.code.length s r ∧
      Brings s dst p'.code.length (e.result host.toArithmetic s.scope s.world) r

section

variable {operator : Operator} {e l r : Expression} {dst : Nat}
  {compile left right : Program → Option Program}

theorem carries_constant (hdst : dst < bcReturnReg)
    (hresult : ∀ scope (w : W), e.result host.toArithmetic scope w = some (v, w)) :
    Carries host q e dst (bcEmitConstant dst v) where
  extends_ _ _ h := (bcEmitConstant_extends h).1
  ends p p' s h hq hip := by
    obtain ⟨t, hends, ht⟩ := bcEmitConstant_ends h hdst hq hip
    rw [hresult]
    exact ⟨some t, hends, ht⟩

theorem carries_variable (hdst : dst < bcReturnReg) :
    Carries host q (.«variable» name) dst (bcEmitVariable dst name) where
  extends_ _ _ h := (bcEmitVariable_extends h).1
  ends p p' s h hq hip := by
    obtain ⟨t, hends, ht⟩ := bcEmitVariable_ends h hdst hq hip
    exact ⟨some t, hends, ht⟩

theorem Carries.unary (h : Carries host q e dst compile) (hdst : dst < bcReturnReg) :
    Carries host q (.unary operator e) dst fun p => do
      let p ← compile p
      bcEmit { opcode := .neg, a := UInt8.ofNat dst, b := UInt8.ofNat dst } p where
  extends_ p p' hcompile := by
    obtain ⟨p₁, hoperand, hneg⟩ := Option.bind_eq_some_iff.mp hcompile
    exact (h.extends_ _ _ hoperand).trans (bcEmit_extends hneg)
  ends p p' s hcompile hq hip := by
    obtain ⟨p₁, hoperand, hneg⟩ := Option.bind_eq_some_iff.mp hcompile
    obtain ⟨hra, hlt⟩ := toNat_register hdst
    have hp' := bcEmit_eq_some hneg
    have hlength : p'.code.length = p₁.code.length + 1 := by simp [hp']
    have hle := (h.extends_ _ _ hoperand).length_le
    obtain ⟨first, hends, hbrings⟩ :=
      h.ends p p₁ s hoperand (hq.part (.refl p) (bcEmit_extends hneg)) hip
    refine ends_bind (hends.weaken And.left) (by omega) hbrings (fun hnone => ?_) fun v w t hv ht => ?_
    · rw [Expression.result, hnone]
      rfl
    rw [Expression.result, hv, Option.bind_some]
    have hfetch : q.code[t.vm.ip]? = some
        { opcode := .neg, a := UInt8.ofNat dst, b := UInt8.ofNat dst } := by
      rw [ht.ip]
      exact hq.last hneg hle
    generalize hins : ({ opcode := .neg, a := UInt8.ofNat dst, b := UInt8.ofNat dst } :
      Instruction) = ins at hfetch
    have hregister : ins.ra = dst ∧ ins.rb = dst := by
      rw [← hins]
      exact ⟨hra, hra⟩
    have hneg := exec_neg host q (s := t.fetched)
      (show ins.opcode = .neg by rw [← hins]) (by rwa [hregister.1])
      (show t.fetched.vm.registers[ins.rb]? = some v by rw [hregister.2]; exact ht.value)
    have hworld : t.world = w := ht.changes.world
    have hexec : exec host q ins t.fetched = match (negate v).map fun v => (v, w) with
        | some (v, w) => (.ok .step, ({ t.fetched with world := w } : State W).store ins.ra v)
        | none => (.error .failed, t.fetched) := by
      rw [hneg, ← hworld]
      cases negate v <;> rfl
    have hip' := ht.ip
    have hin : InCode p.code.length p'.code.length t := ⟨by omega, by omega⟩
    have hdefined : (Expression.unary operator e).MinusDefined host.toArithmetic s.scope s.world →
        ¬ NegUndefined q t := by
      rintro hsafe ⟨ins', hfetch', _, n, hn, hnone⟩
      cases hfetch.symm.trans hfetch'
      rw [hregister.2] at hn
      cases ht.value.symm.trans hn
      unfold cNegate at hnone
      split_ifs at hnone with hmin
      exact hsafe.2 w (hmin ▸ hv)
    obtain ⟨last, hlast, hresult⟩ :=
      ends_operation hfetch hin hregister.1 hlt hexec (by omega) hdefined
    exact ⟨last, hlast, hresult.after ht.changes⟩

/-- The jump in front of the right operand, with the left one in `dst`. -/
theorem logicalJump_next (host : Host W) (hjump : logicalJump operator = some jump) (hdst : dst < bcReturnReg) {target : Nat}
    (hsmall : target < 4294967296) (hcode : target < q.code.length)
    (hfetch : q.code[s.vm.ip]? = some { opcode := jump
                                        a := UInt8.ofNat dst
                                        immediate := UInt32.ofNat target })
    (hvalue : s.vm.registers[dst]? = some v) :
    CodeNext host q s (jumpTo (operator.decides (vmTruthy host.toArithmetic s.world v)) target s.fetched) ∧
      ¬ NegUndefined q s := by
  obtain ⟨hra, -⟩ := toNat_register hdst
  have htarget : (UInt32.ofNat target).toNat = target := by
    rw [UInt32.toNat_ofNat']
    exact Nat.mod_eq_of_lt hsmall
  generalize hins : Instruction.mk _ _ _ _ _ = ins at hfetch
  have hregister : ins.ra = dst := by rw [← hins]; exact hra
  have himmediate : ins.imm = target := by rw [← hins]; exact htarget
  constructor
  · have hexec := exec_logicalJump host q (s := s.fetched) hjump (show ins.opcode = jump by rw [← hins])
      (by rw [himmediate]; exact hcode) (show s.fetched.vm.registers[ins.ra]? = some v by rw [hregister]; exact hvalue)
    rw [himmediate] at hexec
    exact ⟨ins, hfetch, hexec⟩
  · refine not_negUndefined hfetch ?_
    rw [← hins]
    cases operator with
    | logicalAnd | logicalOr =>
      cases hjump
      exact fun hneg => by cases hneg
    | _ => cases hjump

theorem Carries.logical (hl : Carries host q l dst left)
    (hr : Carries host q r dst right) (hjump : logicalJump operator = some jump)
    (hdst : dst < bcReturnReg) :
    Carries host q (.binary operator l r) dst (bcCompileLogical jump dst left right) where
  extends_ p p' hcompile := by
    obtain ⟨evaluated, jumped, finished, hleft, hjumped, hright, hpatch⟩ :=
      bcCompileLogical_eq_some hcompile
    have hstart := hl.extends_ _ _ hleft
    have hrest := (bcEmit_extends hjumped).trans (hr.extends_ _ _ hright)
    exact bcPatch_extends (hstart.trans hrest) hpatch hstart.length_le
  ends p p' s hcompile hq hip := by
    obtain ⟨evaluated, jumped, finished, hleft, hjumped, hright, hpatch⟩ :=
      bcCompileLogical_eq_some hcompile
    have hstart := hl.extends_ _ _ hleft
    have hafter := hr.extends_ _ _ hright
    have hle := hstart.length_le
    have hle' := hafter.length_le
    have hlength : jumped.code.length = evaluated.code.length + 1 := by
      simp [bcEmit_eq_some hjumped]
    obtain ⟨_, hsmall, hpatched⟩ := bcPatch_eq_some hpatch
    have hlast : p'.code.length = finished.code.length := by simp [hpatched]
    have hleftHolds := hq.unpatched hpatch (.refl p)
      ((bcEmit_extends hjumped).trans hafter) (by omega)
    have hrightHolds := hq.unpatched hpatch (hstart.trans (bcEmit_extends hjumped))
      (.refl finished) (by omega)
    have hemitted : finished.code[evaluated.code.length]? =
        some { opcode := jump, a := UInt8.ofNat dst } := by
      rw [hafter.getElem? (by omega), bcEmit_eq_some hjumped]
      simp
    have hfetch := hq.patched hpatch hle hemitted
    have hroom := hq.room
    obtain ⟨first, hends, hbrings⟩ := hl.ends p evaluated s hleft hleftHolds hip
    refine ends_bind (hends.weaken And.left) (by omega) hbrings (fun hnone => ?_) fun v w t hv ht => ?_
    · rw [Expression.result, hnone]
      rfl
    rw [Expression.result, hv, Option.bind_some]
    have hworld : t.fetched.world = w := ht.changes.world
    rw [← ht.ip] at hfetch
    obtain ⟨hnext, hdefined⟩ := logicalJump_next host (s := t) hjump hdst hsmall (by omega) hfetch ht.value
    rw [ht.changes.world] at hnext
    have hin : InCode p.code.length p'.code.length t := ⟨by rw [ht.ip]; omega, by rw [ht.ip]; omega⟩
    have hjumps := ((Clobbers.fetched dst t).trans (Clobbers.jumpTo dst
      (operator.decides (vmTruthy host.toArithmetic w v)) finished.code.length t.fetched))
    have hchanges := ht.changes.trans (hworld ▸ Changes.of_clobbers hjumps)
    cases hdecides : operator.decides (vmTruthy host.toArithmetic w v) with
    | true =>
      rw [hdecides] at hnext hchanges
      rw [if_pos rfl]
      refine ⟨some _, .step hin ⟨hnext, fun _ => hdefined⟩ (.leaves fun hin' => ?_), ⟨?_, ht.value, hchanges⟩⟩
      · have hbound : finished.code.length < p'.code.length := hin'.2
        omega
      · exact hlast.symm
    | false =>
      rw [hdecides] at hnext hchanges
      rw [if_neg (by simp)]
      have hip' : t.fetched.vm.ip = jumped.code.length := by
        show t.vm.ip + 1 = _
        rw [ht.ip, hlength]
      have hscope : t.fetched.scope = s.scope := ht.changes.scope
      obtain ⟨second, hsecond, hresult⟩ := hr.ends jumped finished t.fetched hright hrightHolds hip'
      rw [hscope, hworld] at hsecond hresult
      have happly : (r.result host.toArithmetic s.scope w).bind
          (fun right => operator.applied host.toArithmetic v right.1 right.2) =
            r.result host.toArithmetic s.scope w := by
        cases operator with
        | logicalAnd | logicalOr => exact Option.bind_fun_some _
        | _ => cases hjump
      rw [happly]
      rw [← hlast] at hsecond hresult
      have hafterJump : (Expression.binary operator l r).MinusDefined host.toArithmetic s.scope s.world →
          r.MinusDefined host.toArithmetic s.scope w := fun hsafe => hsafe.2 v w hv hdecides
      have hright' := (hresult.widen hsecond (show p.code.length ≤ _ by omega)).weaken hafterJump
      exact ⟨second, .step hin ⟨hnext, fun _ => hdefined⟩ hright', hresult.after hchanges⟩

theorem Carries.plain (hl : Carries host q l (dst + 1) left) (hr : Carries host q r (dst + 2) right)
    (hjump : logicalJump operator = none) (hdst : dst + 2 < bcReturnReg) :
    Carries host q (.binary operator l r) dst fun p => do
      let p ← left p
      let p ← right p
      bcEmitBinary operator dst (dst + 1) (dst + 2) p where
  extends_ p p' hcompile := by
    obtain ⟨p₁, hleft, hcompile⟩ := Option.bind_eq_some_iff.mp hcompile
    obtain ⟨p₂, hright, hemit⟩ := Option.bind_eq_some_iff.mp hcompile
    exact ((hl.extends_ _ _ hleft).trans (hr.extends_ _ _ hright)).trans (bcEmit_extends hemit)
  ends p p' s hcompile hq hip := by
    obtain ⟨p₁, hleft, hcompile⟩ := Option.bind_eq_some_iff.mp hcompile
    obtain ⟨p₂, hright, hemit⟩ := Option.bind_eq_some_iff.mp hcompile
    obtain ⟨hra, hlt⟩ := toNat_register (show dst < bcReturnReg by omega)
    obtain ⟨hrb, _⟩ := toNat_register (show dst + 1 < bcReturnReg by omega)
    obtain ⟨hrc, _⟩ := toNat_register (show dst + 2 < bcReturnReg by omega)
    have hp' := bcEmit_eq_some hemit
    have hlength : p'.code.length = p₂.code.length + 1 := by simp [hp']
    have hfirst := hl.extends_ _ _ hleft
    have hsecond := hr.extends_ _ _ hright
    have hle := hfirst.length_le
    have hle' := hsecond.length_le
    obtain ⟨first, hends, hbrings⟩ := hl.ends p p₁ s hleft
      (hq.part (.refl p) (hsecond.trans (bcEmit_extends hemit))) hip
    refine ends_bind (hends.weaken And.left) (by omega) hbrings (fun hnone => ?_) fun v w t hv ht => ?_
    · rw [Expression.result, hnone]
      rfl
    obtain ⟨second, hends', hbrings'⟩ := hr.ends p₁ p₂ t hright
      (hq.part hfirst (bcEmit_extends hemit)) ht.ip
    rw [ht.changes.scope, ht.changes.world] at hends' hbrings'
    have hdecides : operator.decides (vmTruthy host.toArithmetic w v) = false := by
      cases operator with
      | logicalAnd | logicalOr => cases hjump
      | _ => rfl
    rw [Expression.result, hv, Option.bind_some, if_neg (by simp [hdecides])]
    have hlast : p₂.code.length ≤ p'.code.length := by omega
    have hright' : (Expression.binary operator l r).MinusDefined host.toArithmetic s.scope s.world →
        r.MinusDefined host.toArithmetic s.scope w := fun hsafe => hsafe.2 v w hv hdecides
    have hsecond' := (hbrings'.widen hends' hle).weaken hright'
    refine ends_bind hsecond' hlast hbrings' (fun hnone => ?_)
      fun v' w' u hv' hu => ?_
    · rw [hnone]
      rfl
    rw [hv', Option.bind_some]
    have happlied : operator.applied host.toArithmetic v v' w' =
        vmBinary host.toArithmetic operator.toBinary v v' w' := by
      cases operator with
      | logicalAnd | logicalOr => cases hjump
      | _ => rfl
    rw [happlied]
    have hfetch : q.code[u.vm.ip]? = some { opcode := .binary operator.toBinary
                                            a := UInt8.ofNat dst
                                            b := UInt8.ofNat (dst + 1)
                                            c := UInt8.ofNat (dst + 2) } := by
      rw [hu.ip]
      exact hq.last hemit (by omega)
    generalize hins : Instruction.mk _ _ _ _ _ = ins at hfetch
    have hregister : ins.ra = dst ∧ ins.rb = dst + 1 ∧ ins.rc = dst + 2 := by
      rw [← hins]
      exact ⟨hra, hrb, hrc⟩
    have hvalue : u.fetched.vm.registers[ins.rb]? = some v := by
      rw [hregister.2.1]
      exact (hu.changes.below (dst + 1) (by omega)).trans ht.value
    have hvalue' : u.fetched.vm.registers[ins.rc]? = some v' := by
      rw [hregister.2.2]
      exact hu.value
    have hchanges : Changes dst w' s u := (ht.changes.mono (by omega)).trans (hu.changes.mono (by omega))
    have hexec := exec_binary host q (s := u.fetched)
      (show ins.opcode = .binary operator.toBinary by rw [← hins]) (by rwa [hregister.1])
      hvalue hvalue'
    have hworld : u.fetched.world = w' := hchanges.world
    rw [hworld] at hexec
    have hip' := hu.ip
    have hin : InCode p.code.length p'.code.length u := ⟨by omega, by omega⟩
    obtain ⟨last, hends₃, hresult⟩ := ends_operation hfetch hin hregister.1 hlt hexec (by omega)
      fun _ => not_negUndefined hfetch (by simp [← hins])
    exact ⟨last, hends₃, hresult.after hchanges⟩

theorem Carries.of_compile (h : ∀ p p', compile p = some p' →
    ∃ compile', Carries host q e dst compile' ∧ compile' p = some p') :
    Carries host q e dst compile where
  extends_ p p' hcompile := by
    obtain ⟨compile', hcarries, hsame⟩ := h p p' hcompile
    exact hcarries.extends_ p p' hsame
  ends p p' s hcompile := by
    obtain ⟨compile', hcarries, hsame⟩ := h p p' hcompile
    exact hcarries.ends p p' s hsame

theorem bcCompile_carries (e : Expression) (w : W) (short : Bool) (dst : Nat) :
    Carries host q e dst (bcCompile host.toArithmetic w short e dst) := by
  induction e generalizing short dst with
  | value v =>
    refine Carries.of_compile fun p p' h => ?_
    have hdst := bcCompile_lt h
    unfold bcCompile at h
    rw [if_neg (Nat.not_le_of_lt hdst)] at h
    exact ⟨_, carries_constant hdst fun _ _ => rfl, h⟩
  | «variable» name =>
    refine Carries.of_compile fun p p' h => ?_
    have hdst := bcCompile_lt h
    unfold bcCompile at h
    rw [if_neg (Nat.not_le_of_lt hdst)] at h
    exact ⟨_, carries_variable hdst, h⟩
  | unary operator operand ih =>
    refine Carries.of_compile fun p p' h => ?_
    have hdst := bcCompile_lt h
    rcases (bcCompile_unary h).2 with ⟨folded, hfold, hfolded⟩ | ⟨p₁, hoperand, hneg⟩
    · exact ⟨_, carries_constant hdst (bcFold_result hfold), hfolded⟩
    · exact ⟨_, (ih false dst).unary hdst, Option.bind_eq_some_iff.mpr ⟨p₁, hoperand, hneg⟩⟩
  | binary operator l r ihl ihr =>
    refine Carries.of_compile fun p p' h => ?_
    have hdst := bcCompile_lt h
    rcases bcCompile_binary h with ⟨jump, hjump, hlogical⟩ | ⟨hjump, _, hfolds | hplain⟩
    · exact ⟨_, (ihl true dst).logical (ihr true dst) hjump hdst, hlogical⟩
    · obtain ⟨folded, hfold, hfolded⟩ := hfolds
      exact ⟨_, carries_constant hdst (bcFold_result hfold), hfolded⟩
    · obtain ⟨p₁, p₂, hleft, hright, hemit⟩ := hplain
      have hroom : dst + 2 < bcReturnReg := bcCompile_lt hright
      exact ⟨_, (ihl false (dst + 1)).plain (ihr false (dst + 2)) hjump hroom,
        Option.bind_eq_some_iff.mpr ⟨p₁, hleft, Option.bind_eq_some_iff.mpr ⟨p₂, hright, hemit⟩⟩⟩

theorem Carries.emits (h : Carries host q e dst compile) : Emits host q e dst compile where
  extends_ := h.extends_
  ends p p' s hcompile hq hip hplain := by
    obtain ⟨r, hends, hbrings⟩ := h.ends p p' s hcompile hq hip
    rw [Expression.result_plain hplain] at hbrings
    exact ⟨r, hends.ends, hbrings.delivers⟩

theorem bcCompile_emits (e : Expression) (w : W) (short : Bool) (dst : Nat) :
    Emits host q e dst (bcCompile host.toArithmetic w short e dst) :=
  (bcCompile_carries e w short dst).emits

end

end

end Ussr
