import Ussr.Real64
import Ussr.Value

/-! Keys of the ordered map: numbers and strings, numbers first. Integers and
reals compare as numbers, an integer being converted to a double when the
other side is one. -/

namespace Ussr.BTree

structure KeyOps (K : Type) where
  ok : K → Bool
  compare : K → K → Ordering

structure TotalOrderOn {K : Type} (ops : KeyOps K) (S : Set K) : Prop where
  ok : ∀ a ∈ S, ops.ok a
  swap : ∀ a ∈ S, ∀ b ∈ S, ops.compare b a = (ops.compare a b).swap
  eq_iff : ∀ a ∈ S, ∀ b ∈ S, ops.compare a b = .eq ↔ a = b
  trans : ∀ a ∈ S, ∀ b ∈ S, ∀ c ∈ S,
    ops.compare a b = .lt → ops.compare b c = .lt → ops.compare a c = .lt

def KeyOps.restrict {K : Type} (ops : KeyOps K) (S : Set K) : KeyOps S where
  ok a := ops.ok a
  compare a b := ops.compare a b

/-- `ussr_btree_key_ok`. -/
def keyOk : Value → Bool
  | .integer _ | .real _ | .string _ => true
  | _ => false

def toReal : Value → BitVec 64
  | .real x => x
  | .integer n => Real64.ofInt n
  | _ => 0

/-- `ussr_btree_key_compare`. -/
def keyCompare (a b : Value) : Ordering :=
  match a, b with
  | .string s, .string t => CString.strcmp s.bytes t.bytes
  | .string _, _ => .gt
  | _, .string _ => .lt
  | .integer m, .integer n =>
    if m.toInt < n.toInt then .lt else if n.toInt < m.toInt then .gt else .eq
  | _, _ =>
    if Real64.lt (toReal a) (toReal b) then .lt
    else if Real64.lt (toReal b) (toReal a) then .gt
    else .eq

def valueKeys : KeyOps Value where
  ok := keyOk
  compare := keyCompare

def integersAndStrings : Set Value :=
  {a | (∃ n, a = .integer n) ∨ ∃ s, a = .string s}

theorem integersAndStrings_total : TotalOrderOn valueKeys integersAndStrings where
  ok := by
    rintro a (⟨n, rfl⟩ | ⟨s, rfl⟩) <;> rfl
  swap := by
    rintro a (⟨m, rfl⟩ | ⟨s, rfl⟩) b (⟨n, rfl⟩ | ⟨t, rfl⟩)
    · simp only [valueKeys, keyCompare]
      split_ifs <;> first | rfl | omega
    · rfl
    · rfl
    · simp only [valueKeys, keyCompare, CString.strcmp_eq_compare]
      exact Std.OrientedOrd.eq_swap
  eq_iff := by
    rintro a (⟨m, rfl⟩ | ⟨s, rfl⟩) b (⟨n, rfl⟩ | ⟨t, rfl⟩)
    · simp only [valueKeys, keyCompare, Value.integer.injEq]
      have hext : m = n ↔ m.toInt = n.toInt := BitVec.toInt_inj.symm
      rw [hext]
      split_ifs <;> simp <;> omega
    · simp [valueKeys, keyCompare]
    · simp [valueKeys, keyCompare]
    · simp only [valueKeys, keyCompare, CString.strcmp_eq_compare, Value.string.injEq]
      rw [Std.compare_eq_iff_eq]
      exact ⟨CString.ext_bytes, fun h => h ▸ rfl⟩
  trans := by
    rintro a (⟨m, rfl⟩ | ⟨s, rfl⟩) b (⟨n, rfl⟩ | ⟨t, rfl⟩) c (⟨p, rfl⟩ | ⟨u, rfl⟩)
    · simp only [valueKeys, keyCompare]
      split_ifs <;> simp <;> omega
    all_goals try simp [valueKeys, keyCompare]
    simp only [CString.strcmp_eq_compare]
    exact Std.TransCmp.lt_trans

end Ussr.BTree
