import Mathlib.Algebra.Order.Ring.Nat
import Mathlib.Data.Nat.Log

/-! The order of binary doubles on their 64-bit patterns, and the conversion of
64-bit integers. -/

namespace Ussr.Real64

def isNaN (x : BitVec 64) : Bool :=
  decide (0x7ff0000000000000 < x.toNat % 2 ^ 63)

def rank (x : BitVec 64) : Int :=
  if x.msb then -((x.toNat % 2 ^ 63 : Nat) : Int) else (x.toNat % 2 ^ 63 : Nat)

def lt (x y : BitVec 64) : Bool :=
  !isNaN x && !isNaN y && decide (rank x < rank y)

def le (x y : BitVec 64) : Bool :=
  !isNaN x && !isNaN y && decide (rank x ≤ rank y)

def eq (x y : BitVec 64) : Bool :=
  !isNaN x && !isNaN y && decide (rank x = rank y)

def neg (x : BitVec 64) : BitVec 64 := x ^^^ BitVec.ofNat 64 (2 ^ 63)

/-- The double nearest to a positive integer below `2 ^ 64`, ties to even. -/
def ofPos (m : Nat) : Nat :=
  let e := m.log2
  if e ≤ 52 then (e + 1023) * 2 ^ 52 + (m * 2 ^ (52 - e) - 2 ^ 52)
  else
    let shift := e - 52
    let q := m / 2 ^ shift
    let rest := m % 2 ^ shift
    let half := 2 ^ (shift - 1)
    let up := if half < rest ∨ (rest = half ∧ q % 2 = 1) then 1 else 0
    (e + 1023) * 2 ^ 52 + (q - 2 ^ 52) + up

/-- The conversion `(double)n`. -/
def ofInt (n : BitVec 64) : BitVec 64 :=
  if n.toInt = 0 then 0
  else if n.toInt < 0 then BitVec.ofNat 64 (2 ^ 63 + ofPos n.toInt.natAbs)
  else BitVec.ofNat 64 (ofPos n.toInt.natAbs)

theorem quotient_bounds {m : Nat} (hpos : 0 < m) (hlarge : ¬ m.log2 ≤ 52) :
    2 ^ 52 ≤ m / 2 ^ (m.log2 - 52) ∧ m / 2 ^ (m.log2 - 52) < 2 ^ 53 := by
  have hlow : 2 ^ m.log2 ≤ m := Nat.log2_self_le hpos.ne'
  have hhigh : m < 2 ^ (m.log2 + 1) := Nat.lt_log2_self
  generalize m.log2 = e at *
  have hexact : 2 ^ 52 * 2 ^ (e - 52) = 2 ^ e := by
    rw [← Nat.pow_add]
    congr 1
    omega
  constructor
  · rw [Nat.le_div_iff_mul_le (Nat.two_pow_pos _), hexact]
    exact hlow
  · rw [Nat.div_lt_iff_lt_mul (Nat.two_pow_pos _), show (2 : Nat) ^ 53 = 2 ^ 52 * 2 by rfl,
      Nat.mul_right_comm, hexact, ← Nat.pow_succ]
    exact hhigh

theorem ofPos_bounds {m : Nat} (hpos : 0 < m) :
    (m.log2 + 1023) * 2 ^ 52 ≤ ofPos m ∧ ofPos m ≤ (m.log2 + 1024) * 2 ^ 52 := by
  have hlow : 2 ^ m.log2 ≤ m := Nat.log2_self_le hpos.ne'
  have hhigh : m < 2 ^ (m.log2 + 1) := Nat.lt_log2_self
  unfold ofPos
  dsimp only
  by_cases hsmall : m.log2 ≤ 52
  · rw [if_pos hsmall]
    generalize m.log2 = e at *
    have hexact : 2 ^ e * 2 ^ (52 - e) = 2 ^ 52 := by
      rw [← Nat.pow_add]
      congr 1
      omega
    have hscaled : 2 ^ e * 2 ^ (52 - e) ≤ m * 2 ^ (52 - e) := Nat.mul_le_mul_right _ hlow
    have hbelow : m * 2 ^ (52 - e) < 2 ^ (e + 1) * 2 ^ (52 - e) :=
      Nat.mul_lt_mul_of_pos_right hhigh (Nat.two_pow_pos _)
    rw [Nat.pow_succ, Nat.mul_right_comm, hexact] at hbelow
    rw [hexact] at hscaled
    omega
  · obtain ⟨hleast, hmost⟩ := quotient_bounds hpos hsmall
    rw [if_neg hsmall]
    have hround : ∀ up, up ≤ 1 → ∀ e q : Nat, 2 ^ 52 ≤ q → q < 2 ^ 53 →
        (e + 1023) * 2 ^ 52 ≤ (e + 1023) * 2 ^ 52 + (q - 2 ^ 52) + up ∧
          (e + 1023) * 2 ^ 52 + (q - 2 ^ 52) + up ≤ (e + 1024) * 2 ^ 52 := by
      intros
      omega
    refine hround _ ?_ _ _ hleast hmost
    split_ifs <;> decide

theorem ofPos_mono {m n : Nat} (hpos : 0 < m) (hle : m ≤ n) : ofPos m ≤ ofPos n := by
  have hm := ofPos_bounds hpos
  have hn := ofPos_bounds (hpos.trans_le hle)
  rcases Nat.lt_or_ge m.log2 n.log2 with hlt | hge
  · have hstep : (m.log2 + 1024) * 2 ^ 52 ≤ (n.log2 + 1023) * 2 ^ 52 :=
      Nat.mul_le_mul_right _ (by omega)
    omega
  -- The same binade: both quotients have the same weight.
  have hlog : m.log2 ≤ n.log2 := by
    rw [Nat.log2_eq_log_two, Nat.log2_eq_log_two]
    exact Nat.log_mono_right hle
  have heq : n.log2 = m.log2 := by omega
  unfold ofPos
  dsimp only
  rw [heq]
  by_cases hsmall : m.log2 ≤ 52
  · rw [if_pos hsmall, if_pos hsmall]
    have hscaled : m * 2 ^ (52 - m.log2) ≤ n * 2 ^ (52 - m.log2) := Nat.mul_le_mul_right _ hle
    omega
  · have hbounds := (quotient_bounds hpos hsmall).1
    rw [if_neg hsmall, if_neg hsmall]
    generalize 2 ^ (m.log2 - 52) = d at *
    generalize 2 ^ (m.log2 - 52 - 1) = half
    have hquotient : m / d ≤ n / d := Nat.div_le_div_right hle
    have hmd := Nat.div_add_mod m d
    have hnd := Nat.div_add_mod n d
    rcases Nat.lt_or_ge (m / d) (n / d) with hlt | hge
    · split_ifs <;> omega
    · have hsame : n / d = m / d := by omega
      rw [hsame] at hnd ⊢
      have hrest : m % d ≤ n % d := by omega
      split_ifs <;> omega

def intRank (z : Int) : Int :=
  if z = 0 then 0 else if z < 0 then -(ofPos z.natAbs : Int) else ofPos z.natAbs

theorem ofPos_pos {m : Nat} (hpos : 0 < m) : 0 < ofPos m := by
  have hbound := (ofPos_bounds hpos).1
  have hbig : 1 * 2 ^ 52 ≤ (m.log2 + 1023) * 2 ^ 52 := Nat.mul_le_mul_right _ (by omega)
  omega

theorem intRank_mono {a b : Int} (h : a ≤ b) : intRank a ≤ intRank b := by
  unfold intRank
  by_cases ha : a = 0 <;> by_cases hb : b = 0 <;> by_cases hanegative : a < 0 <;>
    by_cases hbnegative : b < 0 <;> simp only [ha, hb, hanegative, hbnegative, if_true, if_false]
  any_goals omega
  · have hmono := ofPos_mono (m := b.natAbs) (n := a.natAbs) (by omega) (by omega)
    omega
  · have hmono := ofPos_mono (m := a.natAbs) (n := b.natAbs) (by omega) (by omega)
    omega

theorem ofPos_lt {m : Nat} (hpos : 0 < m) (hle : m ≤ 2 ^ 63) : ofPos m < 0x7ff0000000000000 := by
  have hbound := (ofPos_bounds hpos).2
  have hlog : m.log2 < 64 := (Nat.log2_lt hpos.ne').mpr (by omega)
  have hbig : (m.log2 + 1024) * 2 ^ 52 ≤ 1087 * 2 ^ 52 := Nat.mul_le_mul_right _ (by omega)
  omega

theorem natAbs_toInt_le (n : BitVec 64) : n.toInt.natAbs ≤ 2 ^ 63 := by
  have hlow := BitVec.le_toInt n
  have hhigh := BitVec.toInt_lt (x := n)
  omega

theorem toNat_ofInt (n : BitVec 64) : (ofInt n).toNat =
    if n.toInt = 0 then 0
    else if n.toInt < 0 then 2 ^ 63 + ofPos n.toInt.natAbs else ofPos n.toInt.natAbs := by
  have habs := natAbs_toInt_le n
  unfold ofInt
  split_ifs with hzero hneg
  · rfl
  all_goals
    have hlt := ofPos_lt (m := n.toInt.natAbs) (by omega) habs
    rw [BitVec.toNat_ofNat, Nat.mod_eq_of_lt (by omega)]

@[simp] theorem isNaN_ofInt (n : BitVec 64) : isNaN (ofInt n) = false := by
  have habs := natAbs_toInt_le n
  unfold isNaN
  rw [toNat_ofInt]
  rw [decide_eq_false_iff_not]
  split_ifs with hzero hneg
  · omega
  all_goals
    have hlt := ofPos_lt (m := n.toInt.natAbs) (by omega) habs
    omega

theorem rank_ofInt (n : BitVec 64) : rank (ofInt n) = intRank n.toInt := by
  have habs := natAbs_toInt_le n
  have hmsb : (ofInt n).msb = decide (n.toInt < 0) := by
    rw [BitVec.msb_eq_decide, toNat_ofInt, decide_eq_decide]
    split_ifs with hzero hneg
    · omega
    · omega
    · have hlt := ofPos_lt (m := n.toInt.natAbs) (by omega) habs
      omega
  unfold rank intRank
  rw [hmsb, toNat_ofInt]
  by_cases hzero : n.toInt = 0
  · simp [hzero]
  have hlt := ofPos_lt (m := n.toInt.natAbs) (by omega) habs
  by_cases hneg : n.toInt < 0
  · simp only [hzero, hneg, if_true, if_false, decide_true]
    omega
  · simp only [hzero, hneg, if_false, decide_false, Bool.false_eq_true]
    omega

theorem le_ofInt {m n : BitVec 64} (h : m.toInt ≤ n.toInt) : rank (ofInt m) ≤ rank (ofInt n) := by
  rw [rank_ofInt, rank_ofInt]
  exact intRank_mono h

theorem eq_ofInt_zero (n : BitVec 64) : eq (ofInt n) 0 = decide (n = 0) := by
  have hzero : rank 0 = 0 := by decide
  have hnan : isNaN 0 = false := by decide
  unfold eq
  rw [isNaN_ofInt, hnan, hzero, rank_ofInt]
  simp only [Bool.not_false, Bool.true_and, decide_eq_decide]
  constructor
  · intro hrank
    unfold intRank at hrank
    split_ifs at hrank with hn hneg
    · exact BitVec.toInt_inj.mp hn
    all_goals
      have hpos := ofPos_pos (m := n.toInt.natAbs) (by omega)
      omega
  · rintro rfl
    decide

end Ussr.Real64
