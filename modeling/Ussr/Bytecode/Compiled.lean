import Mathlib.Algebra.Group.Prod
import Ussr.Expression.Agreement

/-! What `bc_compile_expression` has code for: the registers and the room that an
expression asks for. -/

namespace Ussr

variable {W : Type}

namespace Expression

variable (arithmetic : Arithmetic W) (w : W)

/-- The registers from `dst` on that the compiler asks for. An operator that is not folded asks for
two above its own, but `&&` and `||` right under another of them do not. -/
def need (short : Bool) : Expression → Nat
  | .value _ => 1
  | .«variable» _ => 1
  | .unary operator operand =>
    if (bcFold arithmetic w (.unary operator operand)).isSome then 1 else need false operand
  | .binary operator l r =>
    if (bcFold arithmetic w (.binary operator l r)).isSome then 1
    else if (logicalJump operator).isSome then max (if short then 1 else 3) (max (need true l) (need true r))
    else max 3 (max (1 + need false l) (2 + need false r))

def Supported : Expression → Prop
  | .value _ => True
  | .«variable» _ => True
  | .unary operator operand => operator = .sub ∧ Supported operand
  | .binary _ l r => Supported l ∧ Supported r

def size : Expression → Nat × Nat × Nat
  | .value _ => (1, 1, 0)
  | .«variable» _ => (1, 0, 1)
  | .unary operator operand =>
    if (bcFold arithmetic w (.unary operator operand)).isSome then (1, 1, 0) else size operand + (1, 0, 0)
  | .binary operator l r =>
    if (bcFold arithmetic w (.binary operator l r)).isSome then (1, 1, 0) else size l + size r + (1, 0, 0)

end Expression

/-- Where `p` takes more instructions, constants and strings. -/
structure Program.HasRoom (p : Program) (size : Nat × Nat × Nat) : Prop where
  code : p.code.length + size.1 ≤ bcMaxCode
  constants : p.constants.length + size.2.1 ≤ 2 ^ 31
  strings : p.strings.length + size.2.2 ≤ 2 ^ 31

structure Program.Grows (p p' : Program) (size : Nat × Nat × Nat) : Prop where
  code : p'.code.length = p.code.length + size.1
  constants : p'.constants.length = p.constants.length + size.2.1
  strings : p'.strings.length = p.strings.length + size.2.2

section

variable {p p' p'' : Program} {m n : Nat × Nat × Nat}

theorem Program.HasRoom.first (h : p.HasRoom (m + n)) : p.HasRoom m := by
  have hcode : p.code.length + (m.1 + n.1) ≤ bcMaxCode := h.code
  have hconstants : p.constants.length + (m.2.1 + n.2.1) ≤ 2 ^ 31 := h.constants
  have hstrings : p.strings.length + (m.2.2 + n.2.2) ≤ 2 ^ 31 := h.strings
  exact ⟨by omega, by omega, by omega⟩

theorem Program.HasRoom.rest (h : p.HasRoom (m + n)) (hgrows : p.Grows p' m) : p'.HasRoom n := by
  have hcode : p.code.length + (m.1 + n.1) ≤ bcMaxCode := h.code
  have hconstants : p.constants.length + (m.2.1 + n.2.1) ≤ 2 ^ 31 := h.constants
  have hstrings : p.strings.length + (m.2.2 + n.2.2) ≤ 2 ^ 31 := h.strings
  exact ⟨by rw [hgrows.code]; omega, by rw [hgrows.constants]; omega, by rw [hgrows.strings]; omega⟩

theorem Program.Grows.trans (h : p.Grows p' m) (h' : p'.Grows p'' n) : p.Grows p'' (m + n) := by
  refine ⟨?_, ?_, ?_⟩
  · rw [h'.code, h.code, Nat.add_assoc]
    rfl
  · rw [h'.constants, h.constants, Nat.add_assoc]
    rfl
  · rw [h'.strings, h.strings, Nat.add_assoc]
    rfl

theorem bcEmit_grows (ins : Instruction) (h : p.HasRoom (1, 0, 0)) :
    ∃ p', bcEmit ins p = some p' ∧ p.Grows p' (1, 0, 0) := by
  have hcode : p.code.length + 1 ≤ bcMaxCode := h.code
  refine ⟨_, if_neg (by omega), ⟨?_, rfl, rfl⟩⟩
  exact List.length_append

theorem bcEmitConstant_grows (dst : Nat) (v : Value) (h : p.HasRoom (1, 1, 0)) :
    ∃ p', bcEmitConstant dst v p = some p' ∧ p.Grows p' (1, 1, 0) := by
  have hcode : p.code.length + 1 ≤ bcMaxCode := h.code
  have hconstants : p.constants.length + 1 ≤ 2 ^ 31 := h.constants
  refine ⟨{ p with
    code := p.code ++ [{ opcode := .loadConst, a := UInt8.ofNat dst, immediate := UInt32.ofNat p.constants.length }]
    constants := p.constants ++ [v] }, ?_, ⟨List.length_append, List.length_append, rfl⟩⟩
  unfold bcEmitConstant bcAddConstant bcEmit
  rw [if_neg (by omega)]
  exact if_neg (by show ¬ p.code.length ≥ bcMaxCode; omega)

theorem bcEmitVariable_grows (dst : Nat) (name : CString) (h : p.HasRoom (1, 0, 1)) :
    ∃ p', bcEmitVariable dst name p = some p' ∧ p.Grows p' (1, 0, 1) := by
  have hcode : p.code.length + 1 ≤ bcMaxCode := h.code
  have hstrings : p.strings.length + 1 ≤ 2 ^ 31 := h.strings
  refine ⟨{ p with
    code := p.code ++ [{ opcode := .loadVar, a := UInt8.ofNat dst, immediate := UInt32.ofNat p.strings.length }]
    strings := p.strings ++ [some name] }, ?_, ⟨List.length_append, rfl, List.length_append⟩⟩
  unfold bcEmitVariable bcAddString bcEmit
  rw [if_neg (by omega)]
  exact if_neg (by show ¬ p.code.length ≥ bcMaxCode; omega)

theorem bcPatch_grows {i : Nat} (hi : i < p.code.length) (h : p.code.length ≤ bcMaxCode) :
    ∃ p', bcPatch i p.code.length p = some p' ∧ p.Grows p' (0, 0, 0) := by
  have hcode : p.code.length ≤ 1000000 := h
  refine ⟨_, if_neg (by omega), ⟨List.length_modify _ _ _, rfl, rfl⟩⟩

end

section

variable {arithmetic : Arithmetic W} {w : W}

theorem bcCompile_grows {e : Expression} {short : Bool} {dst : Nat} {p : Program}
    (hneed : dst + e.need arithmetic w short ≤ bcReturnReg) (hsupported : e.Supported)
    (hroom : p.HasRoom (e.size arithmetic w)) :
    ∃ p', bcCompile arithmetic w short e dst p = some p' ∧ p.Grows p' (e.size arithmetic w) := by
  induction e generalizing short dst p with
  | value v =>
    have hdst : dst + 1 ≤ bcReturnReg := hneed
    unfold bcCompile
    rw [if_neg (by omega)]
    exact bcEmitConstant_grows dst v hroom
  | «variable» name =>
    have hdst : dst + 1 ≤ bcReturnReg := hneed
    unfold bcCompile
    rw [if_neg (by omega)]
    exact bcEmitVariable_grows dst name hroom
  | unary operator operand ih =>
    unfold Expression.need at hneed
    unfold Expression.size at hroom ⊢
    unfold bcCompile
    cases hfold : bcFold arithmetic w (.unary operator operand) with
    | some folded =>
      rw [hfold, Option.isSome_some, if_pos rfl] at hneed hroom
      rw [if_neg (by omega), Option.isSome_some, if_pos rfl]
      exact bcEmitConstant_grows dst folded hroom
    | none =>
      rw [hfold, Option.isSome_none, if_neg Bool.false_ne_true] at hneed hroom
      obtain ⟨p₁, hoperand, hgrows⟩ := ih hneed hsupported.2 hroom.first
      obtain ⟨p₂, hemit, hgrows'⟩ := bcEmit_grows
        { opcode := .neg, a := UInt8.ofNat dst, b := UInt8.ofNat dst } (hroom.rest hgrows)
      have hdst := bcCompile_lt hoperand
      rw [if_neg (by omega), Option.isSome_none, if_neg Bool.false_ne_true]
      refine ⟨p₂, ?_, hgrows.trans hgrows'⟩
      simp only [hoperand, Option.bind_eq_bind, Option.bind_some]
      rw [if_pos hsupported.1]
      exact hemit
  | binary operator l r ihl ihr =>
    unfold Expression.need at hneed
    unfold Expression.size at hroom ⊢
    unfold bcCompile
    cases hjump : logicalJump operator with
    | some jump =>
      have hfold : bcFold arithmetic w (.binary operator l r) = none := by
        cases operator with
        | logicalAnd | logicalOr => rfl
        | _ => cases hjump
      rw [hfold, hjump, Option.isSome_none, if_neg Bool.false_ne_true, Option.isSome_some, if_pos rfl] at hneed
      rw [hfold, Option.isSome_none, if_neg Bool.false_ne_true] at hroom ⊢
      rw [add_assoc, add_comm (r.size arithmetic w)] at hroom ⊢
      obtain ⟨p₁, hleft, hgrows₁⟩ := ihl (show dst + l.need arithmetic w true ≤ bcReturnReg by omega) hsupported.1 hroom.first
      obtain ⟨p₂, hjumped, hgrows₂⟩ := bcEmit_grows { opcode := jump, a := UInt8.ofNat dst } (hroom.rest hgrows₁).first
      obtain ⟨p₃, hright, hgrows₃⟩ := ihr (show dst + r.need arithmetic w true ≤ bcReturnReg by omega) hsupported.2
        ((hroom.rest hgrows₁).rest hgrows₂)
      have hlength₂ : p₂.code.length = p₁.code.length + 1 := hgrows₂.code
      have hlength₃ : p₃.code.length = p₂.code.length + (r.size arithmetic w).1 := hgrows₃.code
      have hgrows := hgrows₁.trans (hgrows₂.trans hgrows₃)
      have hfits : p₃.code.length ≤ bcMaxCode := hgrows.code.trans_le hroom.code
      obtain ⟨p₄, hpatch, hgrows₄⟩ := bcPatch_grows (show p₁.code.length < p₃.code.length by omega) hfits
      have hshort : ¬ (short = false ∧ dst + 2 ≥ bcReturnReg) := by
        rintro ⟨rfl, hdst⟩
        rw [if_neg Bool.false_ne_true] at hneed
        omega
      refine ⟨p₄, ?_, hgrows.trans hgrows₄⟩
      show (if _ then _ else _) = _
      rw [if_neg hshort]
      simp only [bcCompileLogical, hleft, hjumped, hright, Option.bind_eq_bind, Option.bind_some]
      exact hpatch
    | none =>
      dsimp only
      cases hfold : bcFold arithmetic w (.binary operator l r) with
      | some folded =>
        rw [hfold, Option.isSome_some, if_pos rfl] at hneed hroom
        rw [if_neg (by omega), Option.isSome_some, if_pos rfl]
        exact bcEmitConstant_grows dst folded hroom
      | none =>
        rw [hfold, hjump, Option.isSome_none, if_neg Bool.false_ne_true, Option.isSome_none, if_neg Bool.false_ne_true] at hneed
        rw [hfold, Option.isSome_none, if_neg Bool.false_ne_true] at hroom
        rw [if_neg (by omega), Option.isSome_none, if_neg Bool.false_ne_true]
        obtain ⟨p₁, hleft, hgrows₁⟩ := ihl (show dst + 1 + l.need arithmetic w false ≤ bcReturnReg by omega) hsupported.1
          hroom.first.first
        obtain ⟨p₂, hright, hgrows₂⟩ := ihr (show dst + 2 + r.need arithmetic w false ≤ bcReturnReg by omega) hsupported.2
          (hroom.first.rest hgrows₁)
        obtain ⟨p₃, hemit, hgrows₃⟩ := bcEmit_grows
          { opcode := .binary operator.toBinary, a := UInt8.ofNat dst, b := UInt8.ofNat (dst + 1), c := UInt8.ofNat (dst + 2) }
          (hroom.rest (hgrows₁.trans hgrows₂))
        refine ⟨p₃, ?_, (hgrows₁.trans hgrows₂).trans hgrows₃⟩
        dsimp only
        rw [if_neg (by omega)]
        simp only [hleft, hright, Option.bind_eq_bind, Option.bind_some]
        exact hemit

end

/-- Without an undefined minus, the code of an expression does what its evaluation from left to right
does, and there is code for every expression that keeps to the registers, the operators and the room
there are. -/
theorem bcCompileExpression_correct (host : Host W) (w : W) (e : Expression) (dst : Nat) (p : Program) :
    (∀ (p' q : Program) (s : State W), e.MinusDefined host.toArithmetic s.scope s.world →
      bcCompileExpression host.toArithmetic w e dst p = some p' → q.Holds p p' → s.vm.ip = p.code.length →
      (∃ r, EndsCode host q p.code.length p'.code.length s r ∧
        Brings s dst p'.code.length (e.result host.toArithmetic s.scope s.world) r) ∧
      ∀ u, RunsCode host q p.code.length p'.code.length s u → InCode p.code.length p'.code.length u →
        ¬ NegUndefined q u) ∧
    (e.ConstantsNegate host.toArithmetic w → foldsDefined host.toArithmetic w e ∧
      (bcCompileExpression host.toArithmetic w e dst p = none →
        bcReturnReg < dst + e.need host.toArithmetic w false ∨
          ¬ e.Supported ∨ ¬ p.HasRoom (e.size host.toArithmetic w))) := by
  refine ⟨fun p' q s hminus hcompile hq hip => ?_, fun hconstants => ⟨foldsDefined_iff.mpr hconstants, fun hnone => ?_⟩⟩
  · obtain ⟨r, hends, hbrings⟩ := (bcCompile_carries e w false dst).ends p p' s hcompile hq hip
    exact ⟨⟨r, hends.ends, hbrings⟩, fun u => hends.defined hminus⟩
  · by_contra hfits
    obtain ⟨hneed, hsupported, hroom⟩ := not_or.mp hfits |>.imp_right not_or.mp
    obtain ⟨p', hcompile, _⟩ := bcCompile_grows (Nat.le_of_not_lt hneed) (not_not.mp hsupported) (not_not.mp hroom)
    exact absurd (hnone.symm.trans hcompile) (by simp)

def fullProgram : Program := { emptyProgram with code := List.replicate bcMaxCode { opcode := .halt } }

theorem bcCompile_full {arithmetic : Arithmetic W} {w : W} {short : Bool} {v : Value} {dst : Nat} {p : Program}
    (h : p.code.length ≥ bcMaxCode) : bcCompile arithmetic w short (.value v) dst p = none := by
  unfold bcCompile
  split_ifs
  · rfl
  · refine Option.bind_eq_none_iff.mpr fun r hr => ?_
    obtain ⟨_, _, hp⟩ := bcAddConstant_eq_some (show bcAddConstant v p = some (r.1, r.2) from hr)
    have hcode : r.2.code = p.code := by rw [hp]
    exact if_pos (by rwa [hcode])

/-- A literal has no code in a full program, and `x && y` none in the last register, which is all its
code would use. -/
theorem bcCompileExpression_fails :
    bcCompileExpression bareHost.toArithmetic () (.value (.integer 0)) 0 fullProgram = none ∧
    (Expression.value (.integer 0)).need bareHost.toArithmetic () false = 1 ∧ (Expression.value (.integer 0)).Supported ∧
    bcCompileExpression bareHost.toArithmetic () (.binary .logicalAnd (.«variable» (.lit "x")) (.«variable» (.lit "y"))) 30
      emptyProgram = none ∧
    (bcCompileExpressionShort bareHost.toArithmetic () (.binary .logicalAnd (.«variable» (.lit "x")) (.«variable» (.lit "y"))) 30
      emptyProgram).isSome := by
  refine ⟨?_, rfl, trivial, rfl, rfl⟩
  exact bcCompile_full List.length_replicate.ge

end Ussr
