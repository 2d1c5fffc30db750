import Mathlib.Algebra.Order.Ring.Nat
import Mathlib.Data.List.Basic

/-! Values of the language. Integers are 64-bit words, reals the 64-bit
patterns of binary doubles, strings are sequences of nonzero bytes, and
vectors, struct instances and trees are references to heap objects. -/

namespace Ussr

structure CString where
  bytes : List UInt8
  noNul : ∀ b ∈ bytes, b ≠ 0
deriving DecidableEq

namespace CString

def ofBytes (bs : List UInt8) : CString :=
  ⟨bs.filter (· ≠ 0), fun b hb => by simpa using (List.mem_filter.mp hb).2⟩

def lit (s : String) : CString :=
  ofBytes (s.toList.map fun c => UInt8.ofNat c.toNat)

theorem ext_bytes {s t : CString} (h : s.bytes = t.bytes) : s = t := by
  cases s
  cases t
  cases h
  rfl

/-- The sign of `strcmp`: bytes compare as unsigned, a proper prefix is smaller. -/
def strcmp : List UInt8 → List UInt8 → Ordering
  | [], [] => .eq
  | [], _ :: _ => .lt
  | _ :: _, [] => .gt
  | a :: as, b :: bs => if a < b then .lt else if b < a then .gt else strcmp as bs

theorem strcmp_eq_compare (as bs : List UInt8) : strcmp as bs = compare as bs := by
  induction as generalizing bs with
  | nil => cases bs <;> rfl
  | cons a as ih =>
    cases bs with
    | nil => rfl
    | cons b bs =>
      have hbyte : compare a b = if a < b then .lt else if a = b then .eq else .gt := rfl
      rw [strcmp, List.compare_cons_cons, ih bs, hbyte]
      by_cases hlt : a < b
      · rw [if_pos hlt, if_pos hlt]
        rfl
      rw [if_neg hlt, if_neg hlt]
      by_cases heq : a = b
      · subst heq
        rw [if_neg hlt, if_pos rfl]
        rfl
      · have hgt : b < a := UInt8.lt_of_le_of_ne (UInt8.not_lt.mp hlt) (Ne.symm heq)
        rw [if_pos hgt, if_neg heq]
        rfl

end CString

inductive Value where
  | null
  | integer (n : BitVec 64)
  | real (bits : BitVec 64)
  | string (s : CString)
  | boolean (b : Bool)
  | vector (ref : Nat)
  | instance_ (ref : Nat)
  | btree (ref : Nat)
deriving DecidableEq

end Ussr
