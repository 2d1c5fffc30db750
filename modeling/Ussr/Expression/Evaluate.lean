import Ussr.Scope
import Ussr.Vm.Operators

/-! Two meanings of an expression: what `ussr_expression_evaluate` computes by
walking the tree, and the meaning that the manual gives, with the operators of
the VM. -/

namespace Ussr

variable {W : Type}

def ussrIsNumeric : Value → Bool
  | .integer _ | .real _ => true
  | _ => false

def ussrToReal : Value → BitVec 64
  | .real x => x
  | .integer n => Real64.ofInt n
  | _ => 0

def ussrValuesEqual (left right : Value) : Bool :=
  if ussrIsNumeric left && ussrIsNumeric right then
    Real64.eq (ussrToReal left) (ussrToReal right)
  else left = right

def ussrValueTruthy (arithmetic : Arithmetic W) (w : W) : Value → Bool
  | .null => false
  | .boolean b => b
  | .integer n => n ≠ 0
  | .real x => !Real64.eq x 0
  | .string s => s.bytes ≠ []
  | .vector ref => arithmetic.vectorLength ref w > 0
  | .instance_ _ => true
  | .btree ref => arithmetic.btreeCount ref w > 0

/-- `+`, `-` and `*` -/
def ussrArithmetic (arithmetic : Arithmetic W) (operator : Operator) (left right : Value) :
    Option Value :=
  if !ussrIsNumeric left || !ussrIsNumeric right then none
  else
    match left, right with
    | .integer a, .integer b =>
      match operator with
      | .add => some (.integer (a + b))
      | .sub => some (.integer (a - b))
      | _ => some (.integer (a * b))
    | _, _ =>
      match operator with
      | .add => some (.real (arithmetic.real .add (ussrToReal left) (ussrToReal right)))
      | .sub => some (.real (arithmetic.real .sub (ussrToReal left) (ussrToReal right)))
      | _ => some (.real (arithmetic.real .mul (ussrToReal left) (ussrToReal right)))

def isZero : Value → Bool
  | .integer n => n = 0
  | .real x => Real64.eq x 0
  | _ => false

def ussrDivide (arithmetic : Arithmetic W) (left right : Value) : Option Value :=
  if !ussrIsNumeric left || !ussrIsNumeric right then none
  else if isZero right then none
  else
    match left, right with
    | .integer a, .integer b => some (.integer (if b = -1 then 0 - a else a.sdiv b))
    | _, _ => some (.real (arithmetic.real .div (ussrToReal left) (ussrToReal right)))

def ussrModulo (left right : Value) : Option Value :=
  match left, right with
  | .integer a, .integer b => if b = 0 then none else some (.integer (ussrIntMod a b))
  | _, _ => none

def ussrShift (operator : Operator) (left right : Value) : Option Value :=
  match left, right with
  | .integer a, .integer b =>
    if b.toInt < 0 ∨ b.toInt ≥ 64 then none
    else if operator = .shiftLeft then some (.integer (a <<< b.toNat))
    else some (.integer (a >>> b.toNat))
  | _, _ => none

def ussrBitwise (operator : Operator) (left right : Value) : Option Value :=
  match left, right with
  | .integer a, .integer b =>
    match operator with
    | .bitwiseXor => some (.integer (a ^^^ b))
    | .bitwiseAnd => some (.integer (a &&& b))
    | _ => some (.integer (a ||| b))
  | _, _ => none

def ussrCompare (operator : Operator) (left right : Value) : Option Value :=
  if !ussrIsNumeric left || !ussrIsNumeric right then none
  else
    let a := ussrToReal left
    let b := ussrToReal right
    match operator with
    | .gt => some (.boolean (Real64.lt b a))
    | .lt => some (.boolean (Real64.lt a b))
    | .ge => some (.boolean (Real64.le b a))
    | _ => some (.boolean (Real64.le a b))

/-- The second switch of `ussr_expression_evaluate`, on both operands. -/
def ussrBinary (arithmetic : Arithmetic W) (w : W) (operator : Operator) (left right : Value) :
    Option Value :=
  match operator with
  | .add | .sub | .mul => ussrArithmetic arithmetic operator left right
  | .div => ussrDivide arithmetic left right
  | .mod => ussrModulo left right
  | .logicalAnd => some (.boolean
      (ussrValueTruthy arithmetic w left && ussrValueTruthy arithmetic w right))
  | .logicalOr => some (.boolean
      (ussrValueTruthy arithmetic w left || ussrValueTruthy arithmetic w right))
  | .shiftLeft | .shiftRight => ussrShift operator left right
  | .bitwiseXor | .bitwiseAnd | .bitwiseOr => ussrBitwise operator left right
  | .gt | .lt | .ge | .le => ussrCompare operator left right
  | .eq => some (.boolean (ussrValuesEqual left right))
  | .ne => some (.boolean (!ussrValuesEqual left right))

/-- `-x` on a number. The tree walk wraps; the minus of NEG has no value on the lowest integer. -/
def negate : Value → Option Value
  | .integer n => some (.integer (-n))
  | .real x => some (.real (Real64.neg x))
  | _ => none

def ussrExpressionEvaluate (arithmetic : Arithmetic W) (w : W) (scope : Scope) :
    Expression → Option Value
  | .value v => some v
  | .«variable» name => scope.getVariable (some name)
  | .unary _ operand => do
    let right ← ussrExpressionEvaluate arithmetic w scope operand
    negate right
  | .binary operator l r => do
    let left ← ussrExpressionEvaluate arithmetic w scope l
    if operator = .logicalAnd ∧ ussrValueTruthy arithmetic w left = false then
      return .boolean false
    else if operator = .logicalOr ∧ ussrValueTruthy arithmetic w left = true then
      return .boolean true
    else
      let right ← ussrExpressionEvaluate arithmetic w scope r
      ussrBinary arithmetic w operator left right

namespace Operator

/-- `bc_binary_opcode` -/
def toBinary : Operator → Binary
  | add => .add | sub => .sub | mul => .mul | div => .div | mod => .mod
  | eq => .eq | ne => .ne | lt => .lt | le => .le | gt => .gt | ge => .ge
  | logicalAnd => .land | logicalOr => .lor
  | shiftLeft => .shl | shiftRight => .shr
  | bitwiseXor => .xor | bitwiseAnd => .band | bitwiseOr => .bor

/-- Whether the left operand of `&&` or `||` is the value of the whole. -/
def decides (operator : Operator) (truth : Bool) : Bool :=
  match operator with
  | logicalAnd => !truth
  | logicalOr => truth
  | _ => false

def apply (arithmetic : Arithmetic W) (w : W) (operator : Operator) (left right : Value) :
    Option Value :=
  match operator with
  | logicalAnd | logicalOr => some right
  | _ => vmBinaryPlain arithmetic w operator.toBinary left right

end Operator

namespace Expression

/-- `&&` and `||` give the operand that decides; arithmetic is the VM's. -/
def meaning (arithmetic : Arithmetic W) (w : W) (scope : Scope) : Expression → Option Value
  | .value v => some v
  | .«variable» name => scope.getVariable (some name)
  | .unary _ operand => (meaning arithmetic w scope operand).bind negate
  | .binary operator l r => do
    let left ← meaning arithmetic w scope l
    if operator.decides (vmTruthy arithmetic w left) then return left
    else
      let right ← meaning arithmetic w scope r
      operator.apply arithmetic w left right

end Expression

def Value.isPlain : Value → Bool
  | .null | .boolean _ | .integer _ | .real _ | .string _ => true
  | _ => false

def Value.isBoolean : Value → Bool
  | .boolean _ => true
  | _ => false

def SameDouble (m n : BitVec 64) : Prop := m ≠ n ∧ Real64.eq (Real64.ofInt m) (Real64.ofInt n)

instance (m n : BitVec 64) : Decidable (SameDouble m n) :=
  inferInstanceAs (Decidable (_ ∧ _))

def Operator.Agrees (operator : Operator) (left right : Value) : Prop :=
  match operator, left, right with
  | .div, .integer _, .integer n => n = 0
  | .shiftRight, .integer m, .integer n => m.msb = true → n = 0 ∨ 63 < n.toNat
  | .lt, .integer m, .integer n => m.toInt < n.toInt → ¬ SameDouble m n
  | .ge, .integer m, .integer n => m.toInt < n.toInt → ¬ SameDouble m n
  | .gt, .integer m, .integer n => n.toInt < m.toInt → ¬ SameDouble m n
  | .le, .integer m, .integer n => n.toInt < m.toInt → ¬ SameDouble m n
  | .eq, .integer m, .integer n => ¬ SameDouble m n
  | .ne, .integer m, .integer n => ¬ SameDouble m n
  | .logicalAnd, _, _ => right.isBoolean = true
  | .logicalOr, _, _ => right.isBoolean = true
  | _, _, _ => True

section

variable (arithmetic : Arithmetic W) (w : W)

@[simp] theorem ussrIsNumeric_eq (v : Value) : ussrIsNumeric v = vmNumeric v := by
  cases v <;> rfl

@[simp] theorem ussrToReal_eq (v : Value) : ussrToReal v = vmReal v := by
  cases v <;> rfl

@[simp] theorem ussrValueTruthy_eq (v : Value) :
    ussrValueTruthy arithmetic w v = vmTruthy arithmetic w v := by
  cases v with
  | vector ref => simp [ussrValueTruthy, vmTruthy, Nat.pos_iff_ne_zero]
  | btree ref => simp [ussrValueTruthy, vmTruthy, Nat.pos_iff_ne_zero]
  | _ => rfl

theorem eq_ofInt_iff (m n : BitVec 64) :
    Real64.eq (Real64.ofInt m) (Real64.ofInt n) = decide (m = n) ↔ ¬ SameDouble m n := by
  unfold SameDouble
  by_cases heq : m = n
  · subst heq
    simp [Real64.eq]
  · simp [heq]

theorem lt_ofInt_iff (m n : BitVec 64) :
    Real64.lt (Real64.ofInt m) (Real64.ofInt n) = m.slt n ↔
      (m.toInt < n.toInt → ¬ SameDouble m n) := by
  simp only [Real64.lt, SameDouble, Real64.eq, Real64.isNaN_ofInt, Bool.not_false, Bool.true_and,
    BitVec.slt, decide_eq_decide, decide_eq_true_eq, not_and]
  constructor
  · intro hlt hless _ hsame
    have := hlt.mpr hless
    omega
  · intro hless
    constructor
    · intro hrank
      by_contra hge
      have := Real64.le_ofInt (m := n) (n := m) (by omega)
      omega
    · intro hlt
      have hle := Real64.le_ofInt (m := m) (n := n) (by omega)
      have hne := hless hlt (by rintro rfl; omega)
      omega

theorem le_ofInt_iff (m n : BitVec 64) :
    Real64.le (Real64.ofInt m) (Real64.ofInt n) = m.sle n ↔
      (n.toInt < m.toInt → ¬ SameDouble m n) := by
  simp only [Real64.le, SameDouble, Real64.eq, Real64.isNaN_ofInt, Bool.not_false, Bool.true_and,
    BitVec.sle, decide_eq_decide, decide_eq_true_eq, not_and]
  constructor
  · intro hle hless _ hsame
    have := hle.mp (by omega)
    omega
  · intro hless
    constructor
    · intro hrank
      by_contra hgt
      have hle := Real64.le_ofInt (m := n) (n := m) (by omega)
      have hne := hless (by omega) (by rintro rfl; omega)
      omega
    · intro hle
      exact Real64.le_ofInt hle

theorem sameDouble_comm (m n : BitVec 64) : SameDouble m n ↔ SameDouble n m := by
  simp only [SameDouble, Real64.eq, Real64.isNaN_ofInt, Bool.not_false, Bool.true_and,
    decide_eq_true_eq]
  exact and_congr ne_comm eq_comm

theorem shift_count (n : BitVec 64) : (n.toInt < 0 ∨ n.toInt ≥ 64) ↔ n.toNat > 63 := by
  have hlt := n.isLt
  rw [BitVec.toInt_eq_toNat_cond]
  split_ifs <;> omega

theorem shiftRight_iff (m n : BitVec 64) (hcount : n.toNat ≤ 63) :
    m >>> n.toNat = m.sshiftRight n.toNat ↔ (m.msb = true → n = 0) := by
  cases hmsb : m.msb with
  | false => simp [BitVec.sshiftRight_eq_of_msb_false hmsb]
  | true =>
    simp only [true_implies]
    constructor
    · intro hsame
      by_contra hne
      have hpos : n.toNat ≠ 0 := fun hzero => hne (BitVec.eq_of_toNat_eq hzero)
      have hsign := congrArg BitVec.msb hsame
      rw [BitVec.msb_sshiftRight, hmsb, BitVec.msb_ushiftRight] at hsign
      simp [hpos] at hsign
    · rintro rfl
      simp

theorem ussrArithmetic_eq (operator : Operator)
    (hoperator : operator = .add ∨ operator = .sub ∨ operator = .mul) (left right : Value) :
    ussrBinary arithmetic w operator left right = operator.apply arithmetic w left right := by
  rcases hoperator with rfl | rfl | rfl <;> cases left <;> cases right <;> rfl

theorem isZero_eq {v : Value} (h : vmNumeric v = true) : isZero v = Real64.eq (vmReal v) 0 := by
  cases v with
  | integer n => exact (Real64.eq_ofInt_zero n).symm
  | real x => rfl
  | _ => cases h

theorem ussrDivide_iff (left right : Value) :
    ussrDivide arithmetic left right = vmArithmetic arithmetic .div left right ↔
      Operator.div.Agrees left right := by
  unfold ussrDivide vmArithmetic
  simp only [ussrIsNumeric_eq, ussrToReal_eq, decide_true, Bool.true_and]
  cases hleft : vmNumeric left with
  | false => cases left <;> simp_all [Operator.Agrees, vmNumeric]
  | true =>
    cases hright : vmNumeric right with
    | false => cases right <;> simp_all [Operator.Agrees, vmNumeric]
    | true =>
      rw [isZero_eq hright]
      cases left <;> cases right <;>
        simp_all [Operator.Agrees, vmNumeric, vmReal]
      rename_i m n
      have hzero : Real64.eq (Real64.ofInt n) 0#64 = decide (n = 0#64) := Real64.eq_ofInt_zero n
      by_cases heq : n = 0#64
      · subst heq
        exact iff_of_true (by simp only [hzero, decide_true, if_true]) rfl
      · simp [hzero, heq]

theorem ussrModulo_eq (left right : Value) :
    ussrModulo left right = vmArithmetic arithmetic .mod left right := by
  cases left <;> cases right <;> rfl

theorem ussrShift_left_eq (left right : Value) :
    ussrShift .shiftLeft left right = vmBitwise .shl left right := by
  cases left <;> cases right <;> try rfl
  rename_i m n
  simp only [ussrShift, vmBitwise, shift_count, if_true]

theorem ussrShift_right_iff (left right : Value) :
    ussrShift .shiftRight left right = vmBitwise .shr left right ↔
      Operator.shiftRight.Agrees left right := by
  cases left <;> cases right <;> try exact iff_of_true rfl trivial
  rename_i m n
  simp only [ussrShift, vmBitwise, Operator.Agrees, shift_count]
  by_cases hcount : n.toNat > 63
  · simp [hcount]
  · have hle : n.toNat ≤ 63 := by omega
    simp [hcount, shiftRight_iff m n hle]

theorem ussrBitwise_eq (operator : Operator)
    (hoperator : operator = .bitwiseXor ∨ operator = .bitwiseAnd ∨ operator = .bitwiseOr)
    (left right : Value) :
    ussrBinary arithmetic w operator left right = operator.apply arithmetic w left right := by
  rcases hoperator with rfl | rfl | rfl <;> cases left <;> cases right <;> rfl

theorem ussrCompare_iff (operator : Operator)
    (hoperator : operator = .gt ∨ operator = .lt ∨ operator = .ge ∨ operator = .le)
    (left right : Value) :
    ussrBinary arithmetic w operator left right = operator.apply arithmetic w left right ↔
      operator.Agrees left right := by
  rcases hoperator with rfl | rfl | rfl | rfl <;> cases left <;> cases right <;>
    simp [ussrBinary, Operator.apply, vmBinaryPlain, ussrCompare, vmCompare, Operator.Agrees, Operator.toBinary, vmNumeric, vmReal,
      lt_ofInt_iff, le_ofInt_iff]
  · rename_i m n
    rw [sameDouble_comm]
  · rename_i m n
    rw [sameDouble_comm]

theorem ussrValuesEqual_iff (left right : Value) :
    ussrValuesEqual left right = vmEqual left right ↔ Operator.eq.Agrees left right := by
  unfold ussrValuesEqual
  simp only [ussrIsNumeric_eq, ussrToReal_eq]
  cases left <;> cases right <;>
    simp [vmNumeric, vmReal, vmEqual, Operator.Agrees, eq_ofInt_iff]

theorem isBoolean_iff (v : Value) :
    Value.boolean (vmTruthy arithmetic w v) = v ↔ v.isBoolean = true := by
  cases v <;> simp [vmTruthy, Value.isBoolean]

/-- Where the left operand does not decide, the two evaluators compute the same exactly on the
operands on which they agree. -/
theorem Operator.agrees_iff (operator : Operator) (left right : Value)
    (hgoes : operator.decides (vmTruthy arithmetic w left) = false) :
    ussrBinary arithmetic w operator left right = operator.apply arithmetic w left right ↔
      operator.Agrees left right := by
  cases operator with
  | add | sub | mul =>
    refine iff_of_true (ussrArithmetic_eq arithmetic w _ (by simp) left right) ?_
    cases left <;> cases right <;> trivial
  | div => exact ussrDivide_iff arithmetic left right
  | mod =>
    refine iff_of_true (ussrModulo_eq arithmetic left right) ?_
    cases left <;> cases right <;> trivial
  | shiftLeft =>
    refine iff_of_true (ussrShift_left_eq left right) ?_
    cases left <;> cases right <;> trivial
  | shiftRight => exact ussrShift_right_iff left right
  | bitwiseXor | bitwiseAnd | bitwiseOr =>
    refine iff_of_true (ussrBitwise_eq arithmetic w _ (by simp) left right) ?_
    cases left <;> cases right <;> trivial
  | gt | lt | ge | le => exact ussrCompare_iff arithmetic w _ (by simp) left right
  | eq =>
    rw [← ussrValuesEqual_iff]
    simp [ussrBinary, Operator.apply, Operator.toBinary, vmBinaryPlain]
  | ne =>
    have hsame : Operator.ne.Agrees left right ↔ Operator.eq.Agrees left right := by
      cases left <;> cases right <;> rfl
    rw [hsame, ← ussrValuesEqual_iff]
    simp [ussrBinary, Operator.apply, Operator.toBinary, vmBinaryPlain]
  | logicalAnd =>
    have htruth : vmTruthy arithmetic w left = true := by simpa [decides] using hgoes
    simp only [ussrBinary, Operator.apply, ussrValueTruthy_eq, htruth, Bool.true_and,
      Option.some.injEq, isBoolean_iff]
    rfl
  | logicalOr =>
    have htruth : vmTruthy arithmetic w left = false := hgoes
    simp only [ussrBinary, Operator.apply, ussrValueTruthy_eq, htruth, Bool.false_or,
      Option.some.injEq, isBoolean_iff]
    rfl

end

namespace Expression

variable (arithmetic : Arithmetic W) (w : W) (scope : Scope)

def Clean : Expression → Prop
  | .value _ => True
  | .«variable» _ => True
  | .unary _ operand =>
    Clean operand ∧ operand.meaning arithmetic w scope ≠ some (.integer (BitVec.intMin 64))
  | .binary operator l r => Clean l ∧ ∀ left, l.meaning arithmetic w scope = some left →
      if operator.decides (vmTruthy arithmetic w left) then left.isBoolean = true
      else Clean r ∧ ∀ right, r.meaning arithmetic w scope = some right →
        operator.Agrees left right

inductive Visits : Expression → Expression → Prop where
  | here (e : Expression) : Visits e e
  | operand (operator : Operator) {e inner : Expression} :
    Visits e inner → Visits (.unary operator e) inner
  | left (operator : Operator) {l inner : Expression} (r : Expression) :
    Visits l inner → Visits (.binary operator l r) inner
  | right (operator : Operator) {l r inner : Expression} {left : Value}
    (hleft : l.meaning arithmetic w scope = some left)
    (hgoes : operator.decides (vmTruthy arithmetic w left) = false) :
    Visits r inner → Visits (.binary operator l r) inner

variable {arithmetic w scope}

theorem evaluate_binary (operator : Operator) (l r : Expression) :
    ussrExpressionEvaluate arithmetic w scope (.binary operator l r) =
      (ussrExpressionEvaluate arithmetic w scope l).bind fun left =>
        if operator.decides (vmTruthy arithmetic w left) then
          some (.boolean (vmTruthy arithmetic w left))
        else
          (ussrExpressionEvaluate arithmetic w scope r).bind
            (ussrBinary arithmetic w operator left) := by
  rw [ussrExpressionEvaluate]
  refine Option.bind_congr fun left _ => ?_
  simp only [ussrValueTruthy_eq]
  cases htruth : vmTruthy arithmetic w left <;> cases operator <;> rfl

theorem meaning_binary (operator : Operator) (l r : Expression) :
    meaning arithmetic w scope (.binary operator l r) =
      (meaning arithmetic w scope l).bind fun left =>
        if operator.decides (vmTruthy arithmetic w left) then some left
        else (meaning arithmetic w scope r).bind (operator.apply arithmetic w left) := rfl

/-- Where the operands mean the same to both evaluators, so does the operation, if it is one on
which they agree. -/
theorem evaluate_binary_iff {operator : Operator} {l r : Expression}
    (hl : ussrExpressionEvaluate arithmetic w scope l = meaning arithmetic w scope l)
    (hr : ∀ left, meaning arithmetic w scope l = some left →
      operator.decides (vmTruthy arithmetic w left) = false →
        ussrExpressionEvaluate arithmetic w scope r = meaning arithmetic w scope r) :
    ussrExpressionEvaluate arithmetic w scope (.binary operator l r) =
        meaning arithmetic w scope (.binary operator l r) ↔
      ∀ left, meaning arithmetic w scope l = some left →
        if operator.decides (vmTruthy arithmetic w left) then left.isBoolean = true
        else ∀ right, meaning arithmetic w scope r = some right → operator.Agrees left right := by
  rw [evaluate_binary, meaning_binary, hl]
  cases hleft : meaning arithmetic w scope l with
  | none => simp
  | some left =>
    simp only [Option.bind_some, Option.some.injEq, forall_eq']
    cases hdecides : operator.decides (vmTruthy arithmetic w left) with
    | true =>
      rw [if_pos rfl, if_pos rfl, if_pos rfl, Option.some.injEq]
      exact isBoolean_iff arithmetic w left
    | false =>
      rw [if_neg (by simp), if_neg (by simp), if_neg (by simp), hr left hleft hdecides]
      cases hright : meaning arithmetic w scope r with
      | none => simp
      | some right =>
        simp only [Option.bind_some, Option.some.injEq, forall_eq']
        exact operator.agrees_iff arithmetic w left right hdecides

theorem Clean.evaluate {e : Expression} (h : e.Clean arithmetic w scope) :
    ussrExpressionEvaluate arithmetic w scope e = e.meaning arithmetic w scope := by
  induction e with
  | value v => rfl
  | «variable» name => rfl
  | unary operator operand ih =>
    rw [ussrExpressionEvaluate, ih h.1]
    rfl
  | binary operator l r ihl ihr =>
    refine (evaluate_binary_iff (ihl h.1) fun left hleft hgoes => ?_).mpr fun left hleft => ?_
    · have hrest := h.2 left hleft
      rw [if_neg (by simp [hgoes])] at hrest
      exact ihr hrest.1
    · have hrest := h.2 left hleft
      split_ifs at hrest ⊢
      · exact hrest
      · exact hrest.2

theorem Clean.visits {e inner : Expression} (h : e.Clean arithmetic w scope)
    (hvisits : Visits arithmetic w scope e inner) : inner.Clean arithmetic w scope := by
  induction hvisits with
  | here => exact h
  | operand _ _ ih => exact ih h.1
  | left _ _ _ ih => exact ih h.1
  | right operator hleft hgoes _ ih =>
    have hrest := h.2 _ hleft
    rw [if_neg (by simp [hgoes])] at hrest
    exact ih hrest.1

theorem evaluate_visited_iff (e : Expression) :
    (∀ inner, Visits arithmetic w scope e inner →
      ussrExpressionEvaluate arithmetic w scope inner = inner.meaning arithmetic w scope ∧
        ∀ operator operand, inner = .unary operator operand →
          operand.meaning arithmetic w scope ≠ some (.integer (BitVec.intMin 64))) ↔
    e.Clean arithmetic w scope := by
  constructor
  · intro h
    induction e with
    | value v => trivial
    | «variable» name => trivial
    | unary operator operand ih =>
      exact ⟨ih fun inner hinner => h inner (.operand _ hinner), (h _ (.here _)).2 _ _ rfl⟩
    | binary operator l r ihl ihr =>
      refine ⟨ihl fun inner hinner => h inner (.left _ _ hinner), fun left hleft => ?_⟩
      have hoperation := (evaluate_binary_iff (h l (.left _ _ (.here l))).1
        fun left hleft hgoes => (h r (.right _ hleft hgoes (.here r))).1).mp (h _ (.here _)).1 left hleft
      split_ifs at hoperation ⊢ with hdecides
      · exact hoperation
      · have hgoes : operator.decides (vmTruthy arithmetic w left) = false := by
          simpa using hdecides
        exact ⟨ihr fun inner hinner => h inner (.right _ hleft hgoes hinner), hoperation⟩
  · intro h inner hinner
    refine ⟨(h.visits hinner).evaluate, ?_⟩
    rintro operator operand rfl
    exact (h.visits hinner).2

end Expression

end Ussr
