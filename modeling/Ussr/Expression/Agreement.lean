import Ussr.Bytecode.Fold

/-! The two evaluators of expressions, side by side. -/

namespace Ussr

variable {W : Type}

/-- The compiler folds nothing undefined in `e`. Wherever its code stands, it comes to no undefined
NEG, fails where the tree walk fails, and else delivers its value, as true in a condition there as
here. -/
def EvaluatorsAgree (host : Host W) (world : W) (scope : Scope) (e : Expression) : Prop :=
  ∀ (w : W) (short : Bool) (dst : Nat) (p p' q : Program) (s : State W),
    bcCompile host.toArithmetic w short e dst p = some p' → q.Holds p p' →
    s.vm.ip = p.code.length → s.scope = scope → s.world = world →
    foldsDefined host.toArithmetic w e ∧
    (∀ u, RunsCode host q p.code.length p'.code.length s u → InCode p.code.length p'.code.length u →
      ¬ NegUndefined q u) ∧
    ∃ r, EndsCode host q p.code.length p'.code.length s r ∧
      match ussrExpressionEvaluate host.toArithmetic world scope e with
      | some v => ∃ t, r = some t ∧ t.vm.ip = p'.code.length ∧
          ∃ v', t.vm.registers[dst]? = some v' ∧ v' = v ∧
            vmTruthy host.toArithmetic t.world v' = ussrValueTruthy host.toArithmetic world v
      | none => r = none

/-- The compiler has code for `e`. -/
def Compiles (arithmetic : Arithmetic W) (e : Expression) : Prop :=
  ∃ w short dst p p', bcCompile arithmetic w short e dst p = some p'

section

variable {arithmetic : Arithmetic W} {w : W} {scope : Scope}

theorem bcEmitConstant_isSome {dst : Nat} {v v' : Value} {p : Program}
    (h : (bcEmitConstant dst v p).isSome) : (bcEmitConstant dst v' p).isSome := by
  unfold bcEmitConstant bcAddConstant bcEmit at h ⊢
  by_cases hconstants : p.constants.length ≥ 2 ^ 31
  · rw [if_pos hconstants] at h
    exact absurd h Bool.false_ne_true
  · rw [if_neg hconstants] at h ⊢
    by_cases hcode : p.code.length ≥ bcMaxCode
    · exact absurd ((congrArg Option.isSome (if_pos hcode)).symm.trans h) Bool.false_ne_true
    · exact congrArg Option.isSome (if_neg hcode)

theorem compiles_of_fold {e : Expression} {v v' : Value} {dst : Nat} {p p' : Program}
    (hfold : bcFold arithmetic w e = some v) (hdst : dst < bcReturnReg)
    (h : bcEmitConstant dst v' p = some p') : Compiles arithmetic e := by
  have hsome : ∀ literal, ∃ p'', bcEmitConstant dst literal p = some p'' := fun literal =>
    Option.isSome_iff_exists.mp (bcEmitConstant_isSome (by rw [h]; rfl))
  have hin : ¬ dst ≥ bcReturnReg := Nat.not_le_of_lt hdst
  cases e with
  | value literal =>
    obtain ⟨p'', hp''⟩ := hsome literal
    exact ⟨w, false, dst, p, p'', by rw [bcCompile, if_neg hin, hp'']⟩
  | «variable» name => cases hfold
  | unary operator operand =>
    obtain ⟨p'', hp''⟩ := hsome v
    refine ⟨w, false, dst, p, p'', ?_⟩
    rw [bcCompile, if_neg hin, hfold]
    exact hp''
  | binary operator l r =>
    obtain ⟨p'', hp''⟩ := hsome v
    have hjump : logicalJump operator = none := by
      unfold bcFold at hfold
      split_ifs at hfold with hlogical
      cases operator <;> simp_all [logicalJump]
    refine ⟨w, false, dst, p, p'', ?_⟩
    unfold bcCompile
    rw [hjump]
    dsimp only
    rw [if_neg hin, hfold]
    exact hp''

theorem Compiles.operand {operator : Operator} {e : Expression}
    (h : Compiles arithmetic (.unary operator e)) : Compiles arithmetic e := by
  obtain ⟨w, short, dst, p, p', hcompile⟩ := h
  obtain ⟨hdst, ⟨folded, hfold, hfolded⟩ | ⟨p₁, hoperand, _⟩⟩ := bcCompile_unary hcompile
  · unfold bcFold at hfold
    split_ifs at hfold
    obtain ⟨v, hv, _⟩ := Option.bind_eq_some_iff.mp hfold
    exact compiles_of_fold hv hdst hfolded
  · exact ⟨w, false, dst, p, p₁, hoperand⟩

theorem Compiles.operands {operator : Operator} {l r : Expression}
    (h : Compiles arithmetic (.binary operator l r)) :
    Compiles arithmetic l ∧ Compiles arithmetic r := by
  obtain ⟨w, short, dst, p, p', hcompile⟩ := h
  rcases bcCompile_binary hcompile with ⟨jump, _, hlogical⟩ |
    ⟨_, hdst, ⟨folded, hfold, hfolded⟩ | ⟨p₁, p₂, hleft, hright, _⟩⟩
  · obtain ⟨evaluated, jumped, finished, hleft, _, hright, _⟩ := bcCompileLogical_eq_some hlogical
    exact ⟨⟨w, true, dst, p, evaluated, hleft⟩, ⟨w, true, dst, jumped, finished, hright⟩⟩
  · unfold bcFold at hfold
    split_ifs at hfold
    obtain ⟨v, hv, hfold⟩ := Option.bind_eq_some_iff.mp hfold
    obtain ⟨v', hv', _⟩ := Option.bind_eq_some_iff.mp hfold
    exact ⟨compiles_of_fold hv hdst hfolded, compiles_of_fold hv' hdst hfolded⟩
  · exact ⟨⟨w, false, dst + 1, p, p₁, hleft⟩, ⟨w, false, dst + 2, p₁, p₂, hright⟩⟩

theorem Compiles.visits {e inner : Expression}
    (hvisits : Expression.Visits arithmetic w scope e inner) (h : Compiles arithmetic e) :
    Compiles arithmetic inner := by
  induction hvisits with
  | here => exact h
  | operand _ _ ih => exact ih h.operand
  | left _ _ _ ih => exact ih h.operands.1
  | right _ _ _ _ ih => exact ih h.operands.2

theorem Expression.Plain.visits {e inner : Expression}
    (hvisits : Expression.Visits arithmetic w scope e inner) (h : e.Plain scope) :
    inner.Plain scope := by
  induction hvisits with
  | here => exact h
  | operand _ _ ih => exact ih h
  | left _ _ _ ih => exact ih h.1
  | right _ _ _ _ ih => exact ih h.2

variable {e : Expression}

theorem Expression.ConstantsNegate.anywhere (h : e.ConstantsNegate arithmetic w) (w' : W) :
    e.ConstantsNegate arithmetic w' := by
  induction e with
  | value v => trivial
  | «variable» name => trivial
  | unary operator operand ih =>
    refine ⟨ih h.1, fun hsub hconstant hmin => h.2 hsub hconstant ?_⟩
    exact bcFold_eq (bcFold_iff.mpr ⟨hconstant, hmin⟩) w Scope.empty
  | binary operator l r ihl ihr => exact ⟨ihl h.1, ihr h.2⟩

theorem Expression.ConstantsNegate.visits {inner : Expression} (hvisits : Visits arithmetic w scope e inner)
    (h : e.ConstantsNegate arithmetic w) : inner.ConstantsNegate arithmetic w := by
  induction hvisits with
  | here => exact h
  | operand _ _ ih => exact ih h.1
  | left _ _ _ ih => exact ih h.1
  | right _ _ _ _ ih => exact ih h.2

theorem Expression.Clean.minusDefined (hplain : e.Plain scope) (h : e.Clean arithmetic w scope) :
    e.MinusDefined arithmetic scope w := by
  induction e with
  | value v => trivial
  | «variable» name => trivial
  | unary operator operand ih =>
    refine ⟨ih hplain h.1, fun w' hmin => ?_⟩
    have hplain' : operand.Plain scope := hplain
    rw [result_plain hplain'] at hmin
    obtain ⟨v, hv, hmin⟩ := Option.map_eq_some_iff.mp hmin
    cases hmin
    exact h.2 hv
  | binary operator l r ihl ihr =>
    refine ⟨ihl hplain.1 h.1, fun left w' hleft hgoes => ?_⟩
    rw [result_plain hplain.1] at hleft
    obtain ⟨v, hv, hleft⟩ := Option.map_eq_some_iff.mp hleft
    cases hleft
    have hrest := h.2 left hv
    rw [if_neg (by simp [hgoes])] at hrest
    exact ihr hplain.2 hrest.1

/-- Where the compiler has code for `e`, there is a run of it. -/
theorem Compiles.placed (h : Compiles arithmetic e) (world : W) (scope : Scope) :
    ∃ (w : W) (short : Bool) (dst : Nat) (p p' q : Program) (s : State W), bcCompile arithmetic w short e dst p = some p' ∧ q.Holds p p' ∧
      s.vm.ip = p.code.length ∧ s.scope = scope ∧ s.world = world := by
  obtain ⟨w, short, dst, p, p', hcompile⟩ := h
  let s : State W :=
    ⟨{ vmInit with ip := p.code.length }, scope, world, Sched.init Scope.empty, []⟩
  have hholds : Program.Holds { p' with code := p'.code ++ [{ opcode := .halt }] } p p' :=
    ⟨fun i _ hi => List.getElem?_append_left hi, List.prefix_refl _, List.prefix_refl _, by simp⟩
  exact ⟨w, short, dst, p, p', _, s, hcompile, hholds, rfl, rfl, rfl⟩

end

section

variable {host : Host W} {world : W} {scope : Scope} {e : Expression}

theorem EvaluatorsAgree.evaluate (h : EvaluatorsAgree host world scope e) (hplain : e.Plain scope)
    (hcompiles : Compiles host.toArithmetic e) :
    ussrExpressionEvaluate host.toArithmetic world scope e = e.meaning host.toArithmetic world scope := by
  obtain ⟨w, short, dst, p, p', q, s, hcompile, hholds, hip, rfl, rfl⟩ := hcompiles.placed world scope
  obtain ⟨r, hends, hdelivers⟩ :=
    (bcCompile_emits e w short dst).ends p p' s hcompile hholds hip hplain
  obtain ⟨_, _, r', hends', hvalue⟩ := h w short dst p p' q s hcompile hholds hip rfl rfl
  obtain rfl := endsCode_unique hends hends'
  cases htree : ussrExpressionEvaluate host.toArithmetic s.world s.scope e with
  | none =>
    rw [htree] at hvalue
    subst hvalue
    cases hmeaning : e.meaning host.toArithmetic s.world s.scope with
    | none => rfl
    | some v =>
      rw [hmeaning] at hdelivers
      cases hdelivers
  | some v =>
    rw [htree] at hvalue
    obtain ⟨t, rfl, _, v', hregister, rfl, _⟩ := hvalue
    cases hmeaning : e.meaning host.toArithmetic s.world s.scope with
    | none =>
      rw [hmeaning] at hdelivers
      cases hdelivers
    | some meant =>
      rw [hmeaning] at hdelivers
      have hsame : some meant = some v' := hdelivers.value.symm.trans hregister
      cases hsame
      rfl

theorem EvaluatorsAgree.constantsNegate (h : EvaluatorsAgree host world scope e)
    (hcompiles : Compiles host.toArithmetic e) : e.ConstantsNegate host.toArithmetic world := by
  obtain ⟨w, short, dst, p, p', q, s, hcompile, hholds, hip, rfl, rfl⟩ := hcompiles.placed world scope
  have hfolds := (h w short dst p p' q s hcompile hholds hip rfl rfl).1
  exact (foldsDefined_iff.mp hfolds).anywhere s.world

/-- A minus that is folded would be undefined there, one that is not in its NEG. -/
theorem EvaluatorsAgree.negates {operator : Operator} {operand : Expression}
    (h : EvaluatorsAgree host world scope (.unary operator operand)) (hplain : operand.Plain scope)
    (hcompiles : Compiles host.toArithmetic (.unary operator operand)) :
    operand.meaning host.toArithmetic world scope ≠ some (.integer (BitVec.intMin 64)) := by
  intro hmin
  obtain ⟨w, short, dst, p, p', q, s, hcompile, hholds, hip, rfl, rfl⟩ := hcompiles.placed world scope
  obtain ⟨hfolds, hdefined, _⟩ := h w short dst p p' q s hcompile hholds hip rfl rfl
  obtain ⟨hdst, ⟨folded, hfold, _⟩ | ⟨p₁, hoperand, hneg⟩⟩ := bcCompile_unary hcompile
  · obtain ⟨rfl, hconstant⟩ := bcFold_constant hfold
    obtain ⟨v, hv, _⟩ := Option.bind_eq_some_iff.mp (bcFold_iff.mp hfold).2
    have hvalue := bcFold_eq (bcFold_iff.mpr ⟨hconstant, hv⟩) s.world s.scope
    rw [hmin] at hvalue
    cases hvalue
    exact (foldsDefined_iff.mp hfolds).2 rfl hconstant hv
  · have hcarries : Carries host q operand dst (bcCompile host.toArithmetic w false operand dst) :=
      bcCompile_carries operand w false dst
    have hle := (hcarries.extends_ _ _ hoperand).length_le
    have hlength : p'.code.length = p₁.code.length + 1 := by simp [bcEmit_eq_some hneg]
    obtain ⟨r, hends, hbrings⟩ :=
      hcarries.ends p p₁ s hoperand (hholds.part (.refl p) (bcEmit_extends hneg)) hip
    rw [Expression.result_plain hplain, hmin] at hbrings
    cases r with
    | none => cases hbrings
    | some t =>
      have hat : t.vm.ip = p₁.code.length := hbrings.ip
      have hruns := (ends_some_iff.mp hends.ends).1.mono
        (InCode.mono (Nat.le_refl _) (show p₁.code.length ≤ p'.code.length by omega))
      have hfetch := hholds.last hneg hle
      rw [← hat] at hfetch
      refine hdefined t hruns ⟨by omega, by omega⟩ ⟨_, hfetch, rfl, BitVec.intMin 64, ?_, rfl⟩
      rw [Instruction.rb, (toNat_register hdst).1]
      exact hbrings.value

theorem evaluatorsAgree_of_clean (hplain : e.Plain scope) (hclean : e.Clean host.toArithmetic world scope)
    (hconstants : e.ConstantsNegate host.toArithmetic world) : EvaluatorsAgree host world scope e := by
  intro w short dst p p' q s hcompile hholds hip hscope hworld
  subst hscope hworld
  obtain ⟨r, hends, hbrings⟩ := (bcCompile_carries e w short dst).ends p p' s hcompile hholds hip
  refine ⟨foldsDefined_iff.mpr (hconstants.anywhere w), fun u => ?_, r, hends.ends, ?_⟩
  · exact hends.defined (hclean.minusDefined hplain)
  rw [Expression.result_plain hplain] at hbrings
  have hdelivers := hbrings.delivers
  rw [hclean.evaluate]
  cases hmeaning : e.meaning host.toArithmetic s.world s.scope with
  | none =>
    rw [hmeaning] at hdelivers
    cases r with
    | none => rfl
    | some t => cases hdelivers
  | some v =>
    rw [hmeaning] at hdelivers
    cases r with
    | none => cases hdelivers
    | some t =>
      refine ⟨t, rfl, hdelivers.ip, v, hdelivers.value, rfl, ?_⟩
      rw [hdelivers.clobbers.world, ussrValueTruthy_eq]

end

def emptyProgram : Program where
  code := []
  constants := []
  strings := []
  functions := []
  oopSites := []
  scanSites := []

/-- `x` with an operator and a literal behind it. -/
def withLiteral (operator : Operator) (n : BitVec 64) : Expression :=
  .binary operator (.«variable» (.lit "x")) (.value (.integer n))

def oneVariable (n : BitVec 64) : Scope := ⟨[(.lit "x", .integer n)], []⟩

theorem withLiteral_plain (operator : Operator) (n m : BitVec 64) :
    (withLiteral operator m).Plain (oneVariable n) :=
  ⟨⟨.integer n, by simp [oneVariable, Scope.getVariable, Scope.localsFor, Scope.lookup], rfl⟩, rfl⟩

/-- `-x < x >> 1 && x = 5` -/
def sampleCondition : Expression :=
  .binary .logicalAnd
    (.binary .lt (.unary .sub (.«variable» (.lit "x"))) (withLiteral .shiftRight 1)) (withLiteral .eq 5)

end Ussr
