import Ussr.Bytecode.Expression

/-! `bc_fold` beside the code it stands in for. The minus of C has no value on the
lowest integer, where the rest of the arithmetic wraps. -/

namespace Ussr

variable {W : Type}
variable {v : Value} {dst : Nat} {short : Bool}

section

/-- `bc_compile_expression` without the folding in front. -/
def bcCompileUnfolded (short : Bool) (e : Expression) (dst : Nat) (p : Program) : Option Program :=
  match e with
  | .value v => if dst ≥ bcReturnReg then none else bcEmitConstant dst v p
  | .«variable» name => if dst ≥ bcReturnReg then none else bcEmitVariable dst name p
  | .unary operator operand =>
    if dst ≥ bcReturnReg then none
    else do
      let p ← bcCompileUnfolded false operand dst p
      if operator = .sub then
        bcEmit { opcode := .neg, a := UInt8.ofNat dst, b := UInt8.ofNat dst } p
      else none
  | .binary operator l r =>
    match logicalJump operator with
    | some jump =>
      if short = false ∧ dst + 2 ≥ bcReturnReg then none
      else bcCompileLogical jump dst (bcCompileUnfolded true l dst) (bcCompileUnfolded true r dst) p
    | none =>
      if dst ≥ bcReturnReg then none
      else if dst + 2 ≥ bcReturnReg then none
      else do
        let p ← bcCompileUnfolded false l (dst + 1) p
        let p ← bcCompileUnfolded false r (dst + 2) p
        bcEmitBinary operator dst (dst + 1) (dst + 2) p

variable {host : Host W} {q : Program}

theorem bcCompileUnfolded_unary {operator : Operator} {operand : Expression} {p p' : Program}
    (h : bcCompileUnfolded short (.unary operator operand) dst p = some p') :
    ∃ p₁, bcCompileUnfolded false operand dst p = some p₁ ∧
      bcEmit { opcode := .neg, a := UInt8.ofNat dst, b := UInt8.ofNat dst } p₁ = some p' := by
  unfold bcCompileUnfolded at h
  by_cases hdst : dst ≥ bcReturnReg
  · rw [if_pos hdst] at h
    cases h
  rw [if_neg hdst] at h
  obtain ⟨p₁, hoperand, h⟩ := Option.bind_eq_some_iff.mp h
  by_cases hsub : operator = .sub
  · rw [if_pos hsub] at h
    exact ⟨p₁, hoperand, h⟩
  · rw [if_neg hsub] at h
    cases h

theorem bcCompileUnfolded_lt {e : Expression} {p p' : Program}
    (h : bcCompileUnfolded short e dst p = some p') : dst < bcReturnReg := by
  induction e generalizing short dst p p' with
  | value v | «variable» name =>
    unfold bcCompileUnfolded at h
    split_ifs at h with hdst
    exact Nat.lt_of_not_ge hdst
  | unary operator operand ih =>
    obtain ⟨_, hoperand, _⟩ := bcCompileUnfolded_unary h
    exact ih hoperand
  | binary operator l r ihl ihr =>
    unfold bcCompileUnfolded at h
    cases hjump : logicalJump operator with
    | some jump =>
      rw [hjump] at h
      dsimp only at h
      split_ifs at h
      obtain ⟨_, _, _, hleft, _⟩ := bcCompileLogical_eq_some h
      exact ihl hleft
    | none =>
      rw [hjump] at h
      dsimp only at h
      split_ifs at h with hdst
      exact Nat.lt_of_not_ge hdst

theorem bcCompileUnfolded_plain {operator : Operator} {l r : Expression} {p p' : Program}
    (hjump : logicalJump operator = none) (h : bcCompileUnfolded short (.binary operator l r) dst p = some p') :
    dst + 2 < bcReturnReg ∧ ∃ p₁ p₂, bcCompileUnfolded false l (dst + 1) p = some p₁ ∧
      bcCompileUnfolded false r (dst + 2) p₁ = some p₂ ∧ bcEmitBinary operator dst (dst + 1) (dst + 2) p₂ = some p' := by
  unfold bcCompileUnfolded at h
  rw [hjump] at h
  dsimp only at h
  split_ifs at h with _ hdst
  obtain ⟨p₁, hleft, h⟩ := Option.bind_eq_some_iff.mp h
  obtain ⟨p₂, hright, h⟩ := Option.bind_eq_some_iff.mp h
  exact ⟨Nat.lt_of_not_ge hdst, p₁, p₂, hleft, hright, h⟩

theorem bcCompileUnfolded_carries (e : Expression) (short : Bool) (dst : Nat) :
    Carries host q e dst (bcCompileUnfolded short e dst) := by
  induction e generalizing short dst with
  | value v =>
    refine Carries.of_compile fun p p' h => ?_
    have hdst := bcCompileUnfolded_lt h
    unfold bcCompileUnfolded at h
    rw [if_neg (Nat.not_le_of_lt hdst)] at h
    exact ⟨_, carries_constant hdst fun _ _ => rfl, h⟩
  | «variable» name =>
    refine Carries.of_compile fun p p' h => ?_
    have hdst := bcCompileUnfolded_lt h
    unfold bcCompileUnfolded at h
    rw [if_neg (Nat.not_le_of_lt hdst)] at h
    exact ⟨_, carries_variable hdst, h⟩
  | unary operator operand ih =>
    refine Carries.of_compile fun p p' h => ?_
    have hdst := bcCompileUnfolded_lt h
    obtain ⟨p₁, hoperand, hneg⟩ := bcCompileUnfolded_unary h
    exact ⟨_, (ih false dst).unary hdst, Option.bind_eq_some_iff.mpr ⟨p₁, hoperand, hneg⟩⟩
  | binary operator l r ihl ihr =>
    refine Carries.of_compile fun p p' h => ?_
    have hdst := bcCompileUnfolded_lt h
    cases hjump : logicalJump operator with
    | some jump =>
      unfold bcCompileUnfolded at h
      rw [hjump] at h
      dsimp only at h
      split_ifs at h
      exact ⟨_, (ihl true dst).logical (ihr true dst) hjump hdst, h⟩
    | none =>
      obtain ⟨hroom, p₁, p₂, hleft, hright, hemit⟩ := bcCompileUnfolded_plain hjump h
      exact ⟨_, (ihl false (dst + 1)).plain (ihr false (dst + 2)) hjump hroom,
        Option.bind_eq_some_iff.mpr ⟨p₁, hleft, Option.bind_eq_some_iff.mpr ⟨p₂, hright, hemit⟩⟩⟩

end

/-- Why `bc_fold` has no value: it gives up, or computes something that C leaves undefined. -/
inductive FoldStop where
  | fails | undefined
deriving DecidableEq

def foldNegate : Value → Except FoldStop Value
  | .integer n =>
    match cNegate n with
    | some m => .ok (.integer m)
    | none => .error .undefined
  | .real x => .ok (.real (Real64.neg x))
  | _ => .error .fails

theorem foldNegate_integer {n : BitVec 64} (h : n ≠ BitVec.intMin 64) :
    foldNegate (.integer n) = .ok (.integer (-n)) := by
  have hnegate : cNegate n = some (-n) := if_neg h
  show (match cNegate n with
    | some m => Except.ok (Value.integer m)
    | none => .error FoldStop.undefined) = _
  rw [hnegate]

theorem foldNegate_undefined : foldNegate v = .error .undefined ↔ v = .integer (BitVec.intMin 64) := by
  constructor
  · intro h
    cases v with
    | integer n =>
      by_contra hne
      rw [foldNegate_integer fun hmin => hne (congrArg _ hmin)] at h
      cases h
    | _ => cases h
  · rintro rfl
    rfl

/-- `bc_fold` with the minus of C. -/
def bcFoldChecked (arithmetic : Arithmetic W) (w : W) : Expression → Except FoldStop Value
  | .value (.integer n) => .ok (.integer n)
  | .value (.real x) => .ok (.real x)
  | .value (.boolean b) => .ok (.boolean b)
  | .value (.string s) => .ok (.string s)
  | .value _ => .error .fails
  | .«variable» _ => .error .fails
  | .unary operator operand =>
    if operator ≠ .sub then .error .fails
    else do
      let v ← bcFoldChecked arithmetic w operand
      foldNegate v
  | .binary operator l r =>
    if operator = .logicalAnd ∨ operator = .logicalOr then .error .fails
    else do
      let left ← bcFoldChecked arithmetic w l
      let right ← bcFoldChecked arithmetic w r
      match vmFoldBinary arithmetic w operator.toBinary left right with
      | some v => .ok v
      | none => .error .fails

/-- Nothing that `bc_compile_expression` folds on its way through an expression is undefined. It
tries to fold before it compiles the parts. -/
def foldsDefined (arithmetic : Arithmetic W) (w : W) : Expression → Prop
  | .value _ => True
  | .«variable» _ => True
  | .unary operator operand => bcFoldChecked arithmetic w (.unary operator operand) ≠ .error .undefined ∧
    (bcFold arithmetic w (.unary operator operand) = none → foldsDefined arithmetic w operand)
  | .binary operator l r => bcFoldChecked arithmetic w (.binary operator l r) ≠ .error .undefined ∧
    (bcFold arithmetic w (.binary operator l r) = none →
      foldsDefined arithmetic w l ∧ foldsDefined arithmetic w r)

namespace Expression

def Constant : Expression → Prop
  | .value v => (match v with
    | .integer _ | .real _ | .boolean _ | .string _ => True
    | _ => False)
  | .«variable» _ => False
  | .unary operator operand => operator = .sub ∧ Constant operand
  | .binary operator l r => ¬ (operator = .logicalAnd ∨ operator = .logicalOr) ∧ Constant l ∧ Constant r

inductive Tried (arithmetic : Arithmetic W) (w : W) : Expression → Expression → Prop where
  | here (e : Expression) : Tried arithmetic w e e
  | operand {e inner : Expression} : Tried arithmetic w e inner → Tried arithmetic w (.unary .sub e) inner
  | left {operator : Operator} {l r inner : Expression} : ¬ (operator = .logicalAnd ∨ operator = .logicalOr) →
    Tried arithmetic w l inner → Tried arithmetic w (.binary operator l r) inner
  | right {operator : Operator} {l r inner : Expression} {v : Value} : ¬ (operator = .logicalAnd ∨ operator = .logicalOr) →
    l.Constant → l.meaning arithmetic w Scope.empty = some v → Tried arithmetic w r inner →
    Tried arithmetic w (.binary operator l r) inner

def Calm (arithmetic : Arithmetic W) (w : W) (e : Expression) : Prop :=
  ∀ operand, Tried arithmetic w e (.unary .sub operand) → operand.Constant →
    operand.meaning arithmetic w Scope.empty ≠ some (.integer (BitVec.intMin 64))

/-- No minus of `e` stands before a constant part that is the lowest integer. -/
def ConstantsNegate (arithmetic : Arithmetic W) (w : W) : Expression → Prop
  | .value _ => True
  | .«variable» _ => True
  | .unary operator operand => ConstantsNegate arithmetic w operand ∧ (operator = .sub → operand.Constant →
    operand.meaning arithmetic w Scope.empty ≠ some (.integer (BitVec.intMin 64)))
  | .binary _ l r => ConstantsNegate arithmetic w l ∧ ConstantsNegate arithmetic w r

variable {arithmetic : Arithmetic W} {w : W} {e l r : Expression} {operator : Operator}

theorem ConstantsNegate.calm (h : e.ConstantsNegate arithmetic w) : e.Calm arithmetic w := by
  intro operand htried
  generalize hinner : Expression.unary .sub operand = inner at htried
  induction htried with
  | here e =>
    subst hinner
    exact h.2 rfl
  | operand _ ih => exact ih h.1 hinner
  | left _ _ ih => exact ih h.1 hinner
  | right _ _ _ _ ih => exact ih h.2 hinner

theorem Calm.operand (h : Calm arithmetic w (.unary .sub e)) : Calm arithmetic w e :=
  fun inner htried => h inner htried.operand

theorem Calm.left (hoperator : ¬ (operator = .logicalAnd ∨ operator = .logicalOr)) (h : Calm arithmetic w (.binary operator l r)) :
    Calm arithmetic w l :=
  fun inner htried => h inner (htried.left hoperator)

theorem Calm.right (hoperator : ¬ (operator = .logicalAnd ∨ operator = .logicalOr)) (h : Calm arithmetic w (.binary operator l r))
    (hconstant : l.Constant) (hv : l.meaning arithmetic w Scope.empty = some v) : Calm arithmetic w r :=
  fun inner htried => h inner (htried.right hoperator hconstant hv)

theorem Constant.plain (h : e.Constant) (scope : Scope) : e.Plain scope := by
  induction e with
  | value v => cases v <;> first | rfl | cases h
  | «variable» name => cases h
  | unary operator operand ih => exact ih h.2
  | binary operator l r ihl ihr => exact ⟨ihl h.2.1, ihr h.2.2⟩

end Expression

section

variable {arithmetic : Arithmetic W} {w : W} {e : Expression}

theorem bcFold_constant (h : bcFold arithmetic w e = some v) : e.Constant := by
  induction e generalizing v with
  | value literal => cases literal <;> trivial
  | «variable» name => cases h
  | unary operator operand ih =>
    unfold bcFold at h
    split_ifs at h with hsub
    obtain ⟨_, hoperand, _⟩ := Option.bind_eq_some_iff.mp h
    exact ⟨not_not.mp hsub, ih hoperand⟩
  | binary operator l r ihl ihr =>
    unfold bcFold at h
    split_ifs at h with hlogical
    obtain ⟨_, hleft, h⟩ := Option.bind_eq_some_iff.mp h
    obtain ⟨_, hright, _⟩ := Option.bind_eq_some_iff.mp h
    exact ⟨hlogical, ihl hleft, ihr hright⟩

theorem isReference_of_isPlain (h : v.isPlain = true) : isReference v = false := by
  cases v with
  | vector _ | instance_ _ | btree _ => cases h
  | _ => rfl

theorem vmFoldBinary_of_plain {operation : Binary} {left right : Value} (hleft : left.isPlain = true)
    (hright : right.isPlain = true) (h : vmBinaryPlain arithmetic w operation left right = some v) :
    vmFoldBinary arithmetic w operation left right = some v := by
  unfold vmFoldBinary
  rw [isReference_of_isPlain hleft, isReference_of_isPlain hright, if_neg (by decide)]
  split
  · rename_i n
    have hcount : ¬ n.toNat > 63 := by
      intro hcount
      cases left with
      | integer m => cases h.symm.trans (if_pos hcount)
      | _ => cases h
    rw [if_neg hcount, h]
  · rename_i n
    have hcount : ¬ n.toNat > 63 := by
      intro hcount
      cases left with
      | integer m => cases h.symm.trans (if_pos hcount)
      | _ => cases h
    rw [if_neg hcount, h]
  · exact h

theorem operator_decides {operator : Operator} (h : ¬ (operator = .logicalAnd ∨ operator = .logicalOr))
    (truth : Bool) : operator.decides truth = false := by
  cases operator with
  | logicalAnd => exact absurd (.inl rfl) h
  | logicalOr => exact absurd (.inr rfl) h
  | _ => rfl

theorem bcFold_iff :
    bcFold arithmetic w e = some v ↔ e.Constant ∧ e.meaning arithmetic w Scope.empty = some v := by
  constructor
  · exact fun h => ⟨bcFold_constant h, bcFold_eq h w Scope.empty⟩
  · rintro ⟨hconstant, hv⟩
    induction e generalizing v with
    | value literal => cases literal <;> first | exact hv | cases hconstant
    | «variable» name => cases hconstant
    | unary operator operand ih =>
      obtain ⟨right, hright, hnegate⟩ := Option.bind_eq_some_iff.mp hv
      unfold bcFold
      rw [if_neg (not_not.mpr hconstant.1), ih hconstant.2 hright]
      exact hnegate
    | binary operator l r ihl ihr =>
      obtain ⟨hlogical, hconstantl, hconstantr⟩ := hconstant
      rw [Expression.meaning_binary] at hv
      obtain ⟨left, hleft, hv⟩ := Option.bind_eq_some_iff.mp hv
      rw [operator_decides hlogical, if_neg Bool.false_ne_true] at hv
      obtain ⟨right, hright, hv⟩ := Option.bind_eq_some_iff.mp hv
      rw [Operator.apply_eq (fun h => hlogical (.inl h)) fun h => hlogical (.inr h)] at hv
      unfold bcFold
      rw [if_neg hlogical, ihl hconstantl hleft, ihr hconstantr hright]
      exact vmFoldBinary_of_plain (Expression.meaning_isPlain (hconstantl.plain _) hleft)
        (Expression.meaning_isPlain (hconstantr.plain _) hright) hv

def FoldStop.lift : Option Value → Except FoldStop Value
  | some v => .ok v
  | none => .error .fails

theorem foldNegate_eq (h : foldNegate v ≠ .error .undefined) : foldNegate v = FoldStop.lift (negate v) := by
  cases v with
  | integer n => exact foldNegate_integer fun hmin => h (foldNegate_undefined.mpr (congrArg _ hmin))
  | _ => rfl

theorem bcFoldChecked_eq (h : bcFoldChecked arithmetic w e ≠ .error .undefined) :
    bcFoldChecked arithmetic w e = FoldStop.lift (bcFold arithmetic w e) := by
  induction e with
  | value v => cases v <;> rfl
  | «variable» name => rfl
  | unary operator operand ih =>
    unfold bcFoldChecked at h ⊢
    unfold bcFold
    by_cases hsub : operator ≠ .sub
    · rw [if_pos hsub, if_pos hsub]
      rfl
    rw [if_neg hsub] at h
    rw [if_neg hsub, if_neg hsub]
    have hoperand : bcFoldChecked arithmetic w operand ≠ .error .undefined := by
      intro hundefined
      rw [hundefined] at h
      exact h rfl
    rw [ih hoperand] at h ⊢
    cases hfold : bcFold arithmetic w operand with
    | none => rfl
    | some v =>
      rw [hfold] at h
      exact foldNegate_eq h
  | binary operator l r ihl ihr =>
    unfold bcFoldChecked at h ⊢
    unfold bcFold
    by_cases hlogical : operator = .logicalAnd ∨ operator = .logicalOr
    · rw [if_pos hlogical, if_pos hlogical]
      rfl
    rw [if_neg hlogical] at h
    rw [if_neg hlogical, if_neg hlogical]
    have hleft : bcFoldChecked arithmetic w l ≠ .error .undefined := by
      intro hundefined
      rw [hundefined] at h
      exact h rfl
    rw [ihl hleft] at h ⊢
    cases hfoldl : bcFold arithmetic w l with
    | none => rfl
    | some left =>
      rw [hfoldl] at h
      have hright : bcFoldChecked arithmetic w r ≠ .error .undefined := by
        intro hundefined
        rw [hundefined] at h
        exact h rfl
      rw [ihr hright]
      cases hfoldr : bcFold arithmetic w r with
      | none => rfl
      | some right =>
        show (match vmFoldBinary arithmetic w operator.toBinary left right with
          | some v => Except.ok v
          | none => .error .fails) = FoldStop.lift (vmFoldBinary arithmetic w operator.toBinary left right)
        cases vmFoldBinary arithmetic w operator.toBinary left right <;> rfl

theorem bcFoldChecked_calm (h : e.Calm arithmetic w) : bcFoldChecked arithmetic w e ≠ .error .undefined := by
  induction e with
  | value v => cases v <;> exact fun hundefined => by cases hundefined
  | «variable» name => exact fun hundefined => by cases hundefined
  | unary operator operand ih =>
    intro hundefined
    unfold bcFoldChecked at hundefined
    by_cases hsub : operator ≠ .sub
    · rw [if_pos hsub] at hundefined
      cases hundefined
    rw [if_neg hsub] at hundefined
    obtain rfl := not_not.mp hsub
    rw [bcFoldChecked_eq (ih h.operand)] at hundefined
    cases hfold : bcFold arithmetic w operand with
    | none =>
      rw [hfold] at hundefined
      cases hundefined
    | some v =>
      rw [hfold] at hundefined
      obtain ⟨hconstant, hv⟩ := bcFold_iff.mp hfold
      exact h operand (.here _) hconstant (foldNegate_undefined.mp hundefined ▸ hv)
  | binary operator l r ihl ihr =>
    intro hundefined
    unfold bcFoldChecked at hundefined
    by_cases hlogical : operator = .logicalAnd ∨ operator = .logicalOr
    · rw [if_pos hlogical] at hundefined
      cases hundefined
    rw [if_neg hlogical, bcFoldChecked_eq (ihl (h.left hlogical))] at hundefined
    cases hfoldl : bcFold arithmetic w l with
    | none =>
      rw [hfoldl] at hundefined
      cases hundefined
    | some left =>
      obtain ⟨hconstant, hv⟩ := bcFold_iff.mp hfoldl
      rw [hfoldl, bcFoldChecked_eq (ihr (h.right hlogical hconstant hv))] at hundefined
      cases hfoldr : bcFold arithmetic w r with
      | none =>
        rw [hfoldr] at hundefined
        cases hundefined
      | some right =>
        rw [hfoldr] at hundefined
        have hbinary : (match vmFoldBinary arithmetic w operator.toBinary left right with
          | some v => Except.ok v
          | none => .error FoldStop.fails) = .error .undefined := hundefined
        split at hbinary <;> cases hbinary

theorem bcFoldChecked_undefined {operand : Expression} (htried : Expression.Tried arithmetic w e (.unary .sub operand))
    (hconstant : operand.Constant) (hmin : operand.meaning arithmetic w Scope.empty = some (.integer (BitVec.intMin 64))) :
    bcFoldChecked arithmetic w e = .error .undefined := by
  generalize hinner : Expression.unary .sub operand = inner at htried
  induction htried with
  | here e =>
    subst hinner
    unfold bcFoldChecked
    rw [if_neg (not_not.mpr rfl)]
    by_cases hundefined : bcFoldChecked arithmetic w operand = .error .undefined
    · rw [hundefined]
      rfl
    · rw [bcFoldChecked_eq hundefined, bcFold_iff.mpr ⟨hconstant, hmin⟩]
      rfl
  | operand _ ih =>
    unfold bcFoldChecked
    rw [if_neg (not_not.mpr rfl), ih hinner]
    rfl
  | left hlogical _ ih =>
    unfold bcFoldChecked
    rw [if_neg hlogical, ih hinner]
    rfl
  | @right operator l r inner v hlogical hconstantl hv _ ih =>
    unfold bcFoldChecked
    rw [if_neg hlogical]
    by_cases hundefined : bcFoldChecked arithmetic w l = .error .undefined
    · rw [hundefined]
      rfl
    · rw [bcFoldChecked_eq hundefined, bcFold_iff.mpr ⟨hconstantl, hv⟩, ih hinner]
      rfl

theorem foldsDefined_of_fold (hfold : bcFold arithmetic w e = some v)
    (h : bcFoldChecked arithmetic w e ≠ .error .undefined) : foldsDefined arithmetic w e := by
  cases e with
  | value literal => trivial
  | «variable» name => trivial
  | unary operator operand => exact ⟨h, fun hnone => by cases hfold.symm.trans hnone⟩
  | binary operator l r => exact ⟨h, fun hnone => by cases hfold.symm.trans hnone⟩

theorem foldsDefined.operand {operator : Operator} {operand : Expression}
    (h : foldsDefined arithmetic w (.unary operator operand)) : foldsDefined arithmetic w operand := by
  cases hfold : bcFold arithmetic w (.unary operator operand) with
  | none => exact h.2 hfold
  | some folded =>
    have hchecked := h.1
    unfold bcFold at hfold
    split_ifs at hfold with hsub
    obtain ⟨v, hv, _⟩ := Option.bind_eq_some_iff.mp hfold
    refine foldsDefined_of_fold hv fun hundefined => hchecked ?_
    unfold bcFoldChecked
    rw [if_neg hsub, hundefined]
    rfl

theorem foldsDefined.operands {operator : Operator} {l r : Expression}
    (h : foldsDefined arithmetic w (.binary operator l r)) :
    foldsDefined arithmetic w l ∧ foldsDefined arithmetic w r := by
  cases hfold : bcFold arithmetic w (.binary operator l r) with
  | none => exact h.2 hfold
  | some folded =>
    have hchecked := h.1
    unfold bcFold at hfold
    split_ifs at hfold with hlogical
    obtain ⟨left, hleft, hfold⟩ := Option.bind_eq_some_iff.mp hfold
    obtain ⟨right, hright, _⟩ := Option.bind_eq_some_iff.mp hfold
    unfold bcFoldChecked at hchecked
    rw [if_neg hlogical] at hchecked
    have hfirst : bcFoldChecked arithmetic w l ≠ .error .undefined := by
      intro hundefined
      rw [hundefined] at hchecked
      exact hchecked rfl
    rw [bcFoldChecked_eq hfirst, hleft] at hchecked
    refine ⟨foldsDefined_of_fold hleft hfirst, foldsDefined_of_fold hright fun hundefined => ?_⟩
    rw [hundefined] at hchecked
    exact hchecked rfl

/-- The compiler folds nothing undefined exactly where no minus stands before a constant part that
is the lowest integer. -/
theorem foldsDefined_iff : foldsDefined arithmetic w e ↔ e.ConstantsNegate arithmetic w := by
  constructor
  · intro h
    induction e with
    | value v => trivial
    | «variable» name => trivial
    | unary operator operand ih =>
      refine ⟨ih h.operand, ?_⟩
      rintro rfl hconstant hmin
      exact h.1 (bcFoldChecked_undefined (.here _) hconstant hmin)
    | binary operator l r ihl ihr => exact ⟨ihl h.operands.1, ihr h.operands.2⟩
  · intro h
    induction e with
    | value v => trivial
    | «variable» name => trivial
    | unary operator operand ih => exact ⟨bcFoldChecked_calm h.calm, fun _ => ih h.1⟩
    | binary operator l r ihl ihr => exact ⟨bcFoldChecked_calm h.calm, fun _ => ⟨ihl h.1, ihr h.2⟩⟩

end

section

variable {host : Host W} {q p p' : Program} {s u : State W} {w : W} {e : Expression}

theorem unfolded_settles (host : Host W) (hfold : bcFold host.toArithmetic w e = some v)
    (hcompile : bcCompileUnfolded short e dst p = some p') (hq : q.Holds p p') (hip : s.vm.ip = p.code.length) :
    ∃ t, EndsCode host q p.code.length p'.code.length s (some t) ∧ Settles s dst v s.world p'.code.length t := by
  obtain ⟨r, hends, hbrings⟩ := (bcCompileUnfolded_carries e short dst).ends p p' s hcompile hq hip
  rw [bcFold_result hfold] at hbrings
  cases r with
  | none => cases hbrings
  | some t => exact ⟨t, hends.ends, hbrings⟩

/-- What folds is evaluated without an undefined minus. -/
theorem minusDefined_of_calm {arithmetic : Arithmetic W} (hfold : bcFold arithmetic w e = some v)
    (hcalm : e.Calm arithmetic w) (scope : Scope) (w' : W) : e.MinusDefined arithmetic scope w' := by
  induction e generalizing v w' with
  | value literal => trivial
  | «variable» name => trivial
  | unary operator operand ih =>
    obtain ⟨⟨rfl, hconstant⟩, hv⟩ := bcFold_iff.mp hfold
    obtain ⟨right, hright, _⟩ := Option.bind_eq_some_iff.mp hv
    have hfold' : bcFold arithmetic w operand = some right := bcFold_iff.mpr ⟨hconstant, hright⟩
    refine ⟨ih hfold' hcalm.operand w', fun w'' hmin => ?_⟩
    rw [bcFold_result hfold'] at hmin
    cases hmin
    exact hcalm operand (.here _) hconstant hright
  | binary operator l r ihl ihr =>
    obtain ⟨⟨hlogical, hconstantl, _⟩, _⟩ := bcFold_iff.mp hfold
    unfold bcFold at hfold
    rw [if_neg hlogical] at hfold
    obtain ⟨left, hfoldl, hfold⟩ := Option.bind_eq_some_iff.mp hfold
    obtain ⟨right, hfoldr, _⟩ := Option.bind_eq_some_iff.mp hfold
    refine ⟨ihl hfoldl (hcalm.left hlogical) w', fun _ w'' _ _ => ?_⟩
    exact ihr hfoldr (hcalm.right hlogical hconstantl (bcFold_iff.mp hfoldl).2) w''

theorem unfolded_defined (hfold : bcFold host.toArithmetic w e = some v) (hcalm : e.Calm host.toArithmetic w)
    (hcompile : bcCompileUnfolded short e dst p = some p') (hq : q.Holds p p') (hip : s.vm.ip = p.code.length)
    (hruns : RunsCode host q p.code.length p'.code.length s u) (hin : InCode p.code.length p'.code.length u) :
    ¬ NegUndefined q u := by
  obtain ⟨r, hends, _⟩ := (bcCompileUnfolded_carries e short dst).ends p p' s hcompile hq hip
  exact hends.defined (minusDefined_of_calm hfold hcalm s.scope s.world) hruns hin

/-- What folding is to do for `e`: nothing undefined, here or in the VM; the value of the unfolded
code; and a failure wherever that code fails. -/
structure FoldsSoundly (host : Host W) (w : W) (e : Expression) : Prop where
  defined : bcFoldChecked host.toArithmetic w e ≠ .error .undefined
  value : ∀ (short : Bool) (dst : Nat) (p p' q : Program) (s : State W) (v : Value),
    bcFoldChecked host.toArithmetic w e = .ok v → bcCompileUnfolded short e dst p = some p' → q.Holds p p' →
    s.vm.ip = p.code.length →
      ∃ t, EndsCode host q p.code.length p'.code.length s (some t) ∧ Settles s dst v s.world p'.code.length t
  negates : ∀ (short : Bool) (dst : Nat) (p p' q : Program) (s u : State W) (v : Value),
    bcFoldChecked host.toArithmetic w e = .ok v → bcCompileUnfolded short e dst p = some p' → q.Holds p p' →
    s.vm.ip = p.code.length → RunsCode host q p.code.length p'.code.length s u →
    InCode p.code.length p'.code.length u → ¬ NegUndefined q u
  fails : ∀ (short : Bool) (dst : Nat) (p p' q : Program) (s : State W),
    bcCompileUnfolded short e dst p = some p' → q.Holds p p' → s.vm.ip = p.code.length →
    EndsCode host q p.code.length p'.code.length s none → bcFoldChecked host.toArithmetic w e = .error .fails

/-- Folding is sound exactly where it negates no lowest integer on its way. -/
theorem foldsSoundly_iff (host : Host W) (w : W) (e : Expression) : FoldsSoundly host w e ↔ e.Calm host.toArithmetic w := by
  constructor
  · intro h operand htried hconstant hmin
    exact h.defined (bcFoldChecked_undefined htried hconstant hmin)
  · intro hcalm
    have hdefined := bcFoldChecked_calm hcalm
    have hsame := bcFoldChecked_eq hdefined
    have hfold (v : Value) (h : bcFoldChecked host.toArithmetic w e = .ok v) : bcFold host.toArithmetic w e = some v := by
      rw [hsame] at h
      cases hfold : bcFold host.toArithmetic w e with
      | none =>
        rw [hfold] at h
        cases h
      | some v' =>
        rw [hfold] at h
        cases h
        rfl
    refine ⟨hdefined, fun short dst p p' q s v hv hcompile hq hip => unfolded_settles host (hfold v hv) hcompile hq hip,
      fun short dst p p' q s u v hv hcompile hq hip hruns hin =>
        unfolded_defined (hfold v hv) hcalm hcompile hq hip hruns hin,
      fun short dst p p' q s hcompile hq hip hends => ?_⟩
    rw [hsame]
    cases hvalue : bcFold host.toArithmetic w e with
    | none => rfl
    | some v =>
      obtain ⟨t, hends', _⟩ := unfolded_settles host hvalue hcompile hq hip
      cases endsCode_unique hends hends'

end

/-- `-(-9223372036854775807 - 1)` -/
def lowestNegated : Expression :=
  .unary .sub (.binary .sub (.unary .sub (.value (.integer 9223372036854775807))) (.value (.integer 1)))

theorem foldsSoundly_fails : ¬ FoldsSoundly bareHost () lowestNegated := by
  intro h
  have hlogical : ¬ (Operator.sub = .logicalAnd ∨ Operator.sub = .logicalOr) := by decide
  exact h.defined (bcFoldChecked_undefined (.here _) ⟨hlogical, ⟨rfl, trivial⟩, trivial⟩ rfl)

end Ussr
