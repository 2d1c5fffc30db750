import Mathlib.Algebra.GroupWithZero.Nat
import Mathlib.Data.List.Basic
import Mathlib.Data.List.TakeDrop

/-! The Internet checksum: 16-bit words of bytes, added in one's complement. -/

namespace Ussr.OnesComplement

def words : List UInt8 → List Nat
  | [] => []
  | [a] => [a.toNat * 256]
  | a :: b :: bytes => (a.toNat * 256 + b.toNat) :: words bytes

def wordSum (bytes : List UInt8) : Nat := (words bytes).sum

def addWord (a b : Nat) : Nat := if 65535 < a + b then a + b - 65535 else a + b

def onesSum (bytes : List UInt8) : Nat := (words bytes).foldl addWord 0

def carried (s : Nat) : Nat := if s = 0 then 0 else (s - 1) % 65535 + 1

variable {as bs : List UInt8} {s t : Nat}

theorem carried_le (s : Nat) : carried s ≤ 65535 := by
  unfold carried
  split_ifs <;> omega

theorem carried_mod (s : Nat) : carried s % 65535 = s % 65535 := by
  unfold carried
  split_ifs <;> omega

theorem carried_of_le (h : s ≤ 65535) : carried s = s := by
  unfold carried
  split_ifs <;> omega

theorem carried_pos (h : 0 < s) : 0 < carried s := by
  unfold carried
  split_ifs <;> omega

theorem carried_eq_full : carried s = 65535 ↔ 0 < s ∧ s % 65535 = 0 := by
  unfold carried
  by_cases hs : s = 0
  · simp [hs]
  · rw [if_neg hs]
    omega

theorem addWord_carried (s : Nat) {w : Nat} (hw : w ≤ 65535) : addWord (carried s) w = carried (s + w) := by
  simp only [addWord, carried]
  split_ifs <;> omega

theorem words_le (bytes : List UInt8) : ∀ w ∈ words bytes, w ≤ 65535 := by
  induction bytes using words.induct with
  | case1 => simp [words]
  | case2 a =>
    have := a.toNat_lt
    refine List.forall_mem_singleton.mpr ?_
    omega
  | case3 a b bytes ih =>
    have := a.toNat_lt
    have := b.toNat_lt
    refine List.forall_mem_cons.mpr ⟨?_, ih⟩
    omega

theorem foldl_addWord {ws : List Nat} (h : ∀ w ∈ ws, w ≤ 65535) (s : Nat) :
    ws.foldl addWord (carried s) = carried (s + ws.sum) := by
  induction ws generalizing s with
  | nil => rfl
  | cons w ws ih =>
    obtain ⟨hw, hws⟩ := List.forall_mem_cons.mp h
    rw [List.foldl_cons, addWord_carried s hw, ih hws, List.sum_cons, Nat.add_assoc]

theorem onesSum_eq (bytes : List UInt8) : onesSum bytes = carried (wordSum bytes) := by
  have hfold := foldl_addWord (words_le bytes) 0
  rwa [Nat.zero_add] at hfold

theorem onesSum_eq_full {bytes : List UInt8} : onesSum bytes = 65535 ↔ 0 < wordSum bytes ∧ wordSum bytes % 65535 = 0 := by
  rw [onesSum_eq, carried_eq_full]

@[simp] theorem wordSum_nil : wordSum [] = 0 := rfl

@[simp] theorem wordSum_cons_cons (a b : UInt8) (bytes : List UInt8) :
    wordSum (a :: b :: bytes) = a.toNat * 256 + b.toNat + wordSum bytes := by
  simp [wordSum, words]

theorem complement_verifies (h : s % 65535 = t % 65535) (hpos : 0 < s → 0 < t) :
    0 < t + (65535 - carried s) ∧ (t + (65535 - carried s)) % 65535 = 0 := by
  have hle := carried_le s
  have hmod := carried_mod s
  refine ⟨?_, by omega⟩
  by_cases hs : s = 0
  · rw [hs]
    exact Nat.lt_of_lt_of_le (by decide) (Nat.le_add_left _ t)
  · have := hpos (Nat.pos_of_ne_zero hs)
    omega

end Ussr.OnesComplement
