import Ussr.BTree.Key

/-! Where the comparison of keys is a preorder: not across a real that several integers are rounded to, and not across NaN. -/

namespace Ussr.BTree

def Less (a b : Value) : Prop := keyCompare a b = .lt

theorem keyCompare_swap (a b : Value) : keyCompare b a = (keyCompare a b).swap := by
  have hreal (x y : BitVec 64) : (if Real64.lt y x then Ordering.lt else if Real64.lt x y then .gt else .eq) =
      Ordering.swap (if Real64.lt x y then .lt else if Real64.lt y x then .gt else .eq) := by
    unfold Real64.lt
    split_ifs with hxy hyx hyx
    · simp only [Bool.and_eq_true, decide_eq_true_eq] at hxy hyx
      omega
    all_goals rfl
  have hint (m n : BitVec 64) : (if n.toInt < m.toInt then Ordering.lt else if m.toInt < n.toInt then .gt else .eq) =
      Ordering.swap (if m.toInt < n.toInt then .lt else if n.toInt < m.toInt then .gt else .eq) := by
    split_ifs <;> first | rfl | omega
  cases a <;> cases b <;> first | exact hint _ _ | exact hreal _ _ | rfl | skip
  simp only [keyCompare, CString.strcmp_eq_compare]
  exact Std.OrientedOrd.eq_swap

theorem keyCompare_ne_gt {a b : Value} : keyCompare a b ≠ .gt ↔ ¬ Less b a := by
  rw [Less, keyCompare_swap a b]
  cases keyCompare a b <;> decide

theorem keyCompare_eq {a b : Value} : keyCompare a b = .eq ↔ ¬ Less a b ∧ ¬ Less b a := by
  rw [Less, Less, keyCompare_swap a b]
  cases keyCompare a b <;> decide

theorem less_integer {m n : BitVec 64} : Less (.integer m) (.integer n) ↔ m.toInt < n.toInt := by
  simp only [Less, keyCompare]
  split_ifs <;> simp_all

theorem realLess_iff {x y : BitVec 64} : (if Real64.lt x y then Ordering.lt else if Real64.lt y x then .gt else .eq) = .lt ↔
    Real64.isNaN x = false ∧ Real64.isNaN y = false ∧ Real64.rank x < Real64.rank y := by
  have hlt : Real64.lt x y = true ↔ Real64.isNaN x = false ∧ Real64.isNaN y = false ∧ Real64.rank x < Real64.rank y := by
    rw [Real64.lt, Bool.and_eq_true, Bool.and_eq_true, Bool.not_eq_true', Bool.not_eq_true', decide_eq_true_eq, and_assoc]
  rw [← hlt]
  split_ifs with hxy
  · simp [hxy]
  all_goals simp [hxy]

theorem less_real {x y : BitVec 64} : Less (.real x) (.real y) ↔
    Real64.isNaN x = false ∧ Real64.isNaN y = false ∧ Real64.rank x < Real64.rank y := realLess_iff

theorem less_integer_real {m y : BitVec 64} : Less (.integer m) (.real y) ↔
    Real64.isNaN y = false ∧ Real64.rank (Real64.ofInt m) < Real64.rank y :=
  realLess_iff.trans (by simp [toReal])

theorem less_real_integer {x n : BitVec 64} : Less (.real x) (.integer n) ↔
    Real64.isNaN x = false ∧ Real64.rank x < Real64.rank (Real64.ofInt n) :=
  realLess_iff.trans (by simp [toReal])

/-- Two numbers that are one key; `none` is a NaN. -/
def SameNumber : Value → Value → Prop
  | .integer m, .integer n => m = n
  | .integer m, .real y => Real64.isNaN y = true ∨ Real64.rank (Real64.ofInt m) = Real64.rank y
  | .real x, .integer n => Real64.isNaN x = true ∨ Real64.rank x = Real64.rank (Real64.ofInt n)
  | .real x, .real y => Real64.isNaN x = true ∨ Real64.isNaN y = true ∨ Real64.rank x = Real64.rank y
  | _, _ => True

/-- A key in the middle is a NaN between two keys of one number, or no real that two integers are rounded to. -/
def Separates (a : Value) (middle : Value) (c : Value) : Prop :=
  match a, middle, c with
  | .integer m, .real x, .integer n =>
    m = n ∨ (Real64.isNaN x = false ∧ ¬ (Real64.rank (Real64.ofInt m) = Real64.rank x ∧ Real64.rank (Real64.ofInt n) = Real64.rank x))
  | a, .real x, c => Real64.isNaN x = true → SameNumber a c
  | _, _, _ => True

theorem less_string {s t : CString} : Less (.string s) (.string t) ↔ compare s.bytes t.bytes = .lt := by
  rw [Less, keyCompare, CString.strcmp_eq_compare]

theorem less_integer_string (m : BitVec 64) (t : CString) : Less (.integer m) (.string t) := rfl

theorem less_real_string (x : BitVec 64) (t : CString) : Less (.real x) (.string t) := rfl

theorem not_less_string_integer (s : CString) (n : BitVec 64) : ¬ Less (.string s) (.integer n) := by
  rintro ⟨⟩

theorem not_less_string_real (s : CString) (y : BitVec 64) : ¬ Less (.string s) (.real y) := by
  rintro ⟨⟩

theorem not_less_string_trans {s t u : CString} (hst : ¬ Less (.string t) (.string s)) (htu : ¬ Less (.string u) (.string t)) :
    ¬ Less (.string u) (.string s) := by
  rw [less_string] at *
  have hcases (x y : List UInt8) (h : compare y x ≠ .lt) : compare x y = .lt ∨ x = y := by
    have hswap : compare x y = (compare y x).swap := Std.OrientedOrd.eq_swap
    have heq : compare y x = .eq ↔ y = x := Std.compare_eq_iff_eq
    cases hyx : compare y x with
    | lt => exact absurd hyx h
    | eq => exact .inr (heq.mp hyx).symm
    | gt => exact .inl (hswap.trans (by rw [hyx]; rfl))
  intro hus
  have hrefl (x : List UInt8) : compare x x ≠ .lt := by
    rw [Std.compare_eq_iff_eq.mpr rfl]
    exact fun h => by cases h
  obtain hlt | heq := hcases _ _ hst
  · exact htu (Std.TransCmp.lt_trans hus hlt)
  · exact htu (heq ▸ hus)

theorem not_less_trans_iff (a b c : Value) (ha : keyOk a = true) (hb : keyOk b = true) (hc : keyOk c = true) :
    ((¬ Less b a → ¬ Less c b → ¬ Less c a) ∧
      (¬ Less a b ∧ ¬ Less b a → ¬ Less b c ∧ ¬ Less c b → ¬ Less a c ∧ ¬ Less c a)) ↔ Separates a b c := by
  have hmono (m n : BitVec 64) : m.toInt ≤ n.toInt → Real64.rank (Real64.ofInt m) ≤ Real64.rank (Real64.ofInt n) :=
    Real64.le_ofInt
  have hinj (m n : BitVec 64) : m = n ↔ m.toInt = n.toInt := BitVec.toInt_inj.symm
  cases a with
  | integer m =>
    cases b with
    | integer n =>
      cases c with
      | integer k =>
        simp only [less_integer, Separates, iff_true]
        omega
      | real z =>
        simp only [less_integer, less_integer_real, less_real_integer, Separates, iff_true]
        have h1 := hmono m n
        have h2 := hmono n m
        cases Real64.isNaN z
        · simp only [true_and]
          omega
        · simp
      | string u => simp [Separates, less_integer_string, not_less_string_integer]
      | _ => cases hc
    | real y =>
      cases c with
      | integer k =>
        simp only [less_integer, less_integer_real, less_real_integer, Separates, hinj]
        have h1 := hmono m k
        have h2 := hmono k m
        cases Real64.isNaN y
        · simp only [true_and]
          omega
        · simp
          omega
      | real z =>
        simp only [less_real, less_integer_real, less_real_integer, Separates, SameNumber]
        cases Real64.isNaN y <;> cases Real64.isNaN z <;> simp <;> omega
      | string u => simp [Separates, SameNumber, less_integer_string, less_real_string, not_less_string_integer, not_less_string_real]
      | _ => cases hc
    | string t =>
      cases c with
      | string u => simp [Separates, less_integer_string, not_less_string_integer]
      | integer k => simp [Separates, less_integer_string, not_less_string_integer]
      | real z => simp [Separates, less_real_string, not_less_string_real]
      | _ => cases hc
    | _ => cases hb
  | real x =>
    cases b with
    | integer n =>
      cases c with
      | integer k =>
        simp only [less_integer, less_integer_real, less_real_integer, Separates, iff_true]
        have h1 := hmono n k
        have h2 := hmono k n
        cases Real64.isNaN x
        · simp only [true_and]
          omega
        · simp
      | real z =>
        simp only [less_real, less_integer_real, less_real_integer, Separates, iff_true]
        cases Real64.isNaN x <;> cases Real64.isNaN z <;> simp <;> omega
      | string u => simp [Separates, less_integer_string, less_real_string, not_less_string_integer, not_less_string_real]
      | _ => cases hc
    | real y =>
      cases c with
      | integer k =>
        simp only [less_real, less_integer_real, less_real_integer, Separates, SameNumber]
        cases Real64.isNaN x <;> cases Real64.isNaN y <;> simp
        all_goals omega
      | real z =>
        simp only [less_real, Separates, SameNumber]
        cases Real64.isNaN x <;> cases Real64.isNaN y <;> cases Real64.isNaN z <;> simp <;> omega
      | string u => simp [Separates, SameNumber, less_real_string, not_less_string_real]
      | _ => cases hc
    | string t =>
      cases c with
      | string u => simp [Separates, less_real_string, not_less_string_real]
      | integer k => simp [Separates, less_integer_string, not_less_string_integer]
      | real z => simp [Separates, less_real_string, not_less_string_real]
      | _ => cases hc
    | _ => cases hb
  | string s =>
    cases b with
    | string t =>
      cases c with
      | string u =>
        simp only [Separates, iff_true]
        exact ⟨not_less_string_trans, fun hst htu => ⟨not_less_string_trans htu.1 hst.1, not_less_string_trans hst.2 htu.2⟩⟩
      | integer k => simp [Separates, less_integer_string, not_less_string_integer]
      | real z => simp [Separates, less_real_string, not_less_string_real]
      | _ => cases hc
    | integer n =>
      cases c with
      | _ => simp [Separates, less_integer_string, not_less_string_integer]
    | real y =>
      cases c with
      | _ => simp [Separates, SameNumber, less_real_string, not_less_string_real]
    | _ => cases hb
  | _ => cases ha

/-- Three keys are in order exactly if the one in the middle keeps the others apart. -/
theorem keyCompare_preorder_iff (a b c : Value) (ha : keyOk a = true) (hb : keyOk b = true) (hc : keyOk c = true) :
    (keyCompare b a = (keyCompare a b).swap ∧
      (keyCompare a b ≠ .gt → keyCompare b c ≠ .gt → keyCompare a c ≠ .gt) ∧
      (keyCompare a b = .eq → keyCompare b c = .eq → keyCompare a c = .eq)) ↔ Separates a b c := by
  simp only [keyCompare_ne_gt, keyCompare_eq]
  rw [and_iff_right (keyCompare_swap a b)]
  exact not_less_trans_iff a b c ha hb hc

theorem keyCompare_preorder_iff_rounded : keyCompare (.integer 1) (.integer 2) ≠ .gt :=
  ((keyCompare_preorder_iff (.integer 1) (.real 0x3ff8000000000000) (.integer 2) rfl rfl rfl).mpr
    (.inr ⟨by decide, by decide⟩)).2.1 (by decide) (by decide)

/-- A real that two integers are rounded to. -/
theorem equal_keys_differ : keyCompare (.integer 9007199254740993) (.real 0x4340000000000000) = .eq ∧
    keyCompare (.real 0x4340000000000000) (.integer 9007199254740992) = .eq ∧
    keyCompare (.integer 9007199254740993) (.integer 9007199254740992) = .gt := by
  decide

end Ussr.BTree
