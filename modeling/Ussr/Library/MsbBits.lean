import Mathlib.Data.Nat.Bitwise

/-! Numbers as texts of bits, the most significant bit first. -/

namespace Ussr.MsbBits

/-- The low `k` bits of a number. -/
def bits : (k v : Nat) → List Bool
  | 0, _ => []
  | k + 1, v => v.testBit k :: bits k v

variable {k l n v a b : Nat} {rest : List Bool}

@[simp] theorem length_bits (k v : Nat) : (bits k v).length = k := by
  induction k with
  | zero => rfl
  | succ k ih => rw [bits, List.length_cons, ih]

theorem bits_congr (h : ∀ i < k, a.testBit i = b.testBit i) : bits k a = bits k b := by
  induction k with
  | zero => rfl
  | succ k ih => rw [bits, bits, h k (Nat.lt_succ_self k), ih fun i hi => h i (by omega)]

theorem testBit_eq (h : bits k a = bits k b) : ∀ i < k, a.testBit i = b.testBit i := by
  induction k with
  | zero => exact fun i hi => absurd hi (Nat.not_lt_zero i)
  | succ k ih =>
    obtain ⟨hhead, htail⟩ := List.cons.inj h
    intro i hi
    obtain rfl | hne := eq_or_ne i k
    · exact hhead
    · exact ih htail i (by omega)

theorem bits_inj (h : bits k a = bits k b) : a % 2 ^ k = b % 2 ^ k := by
  refine Nat.eq_of_testBit_eq fun i => ?_
  rw [Nat.testBit_mod_two_pow, Nat.testBit_mod_two_pow]
  by_cases hi : i < k
  · rw [testBit_eq h i hi]
  · rw [decide_eq_false hi, Bool.false_and, Bool.false_and]

theorem bits_append (k l v : Nat) : bits (k + l) v = bits k (v >>> l) ++ bits l v := by
  induction k with
  | zero => rw [Nat.zero_add, bits, List.nil_append]
  | succ k ih => rw [Nat.succ_add, bits, bits, ih, Nat.testBit_shiftRight, Nat.add_comm l k, List.cons_append]

theorem bits_mask (hkl : k ≤ l) (v : Nat) : bits k (v &&& (2 ^ l - 1)) = bits k v := by
  refine bits_congr fun i hi => ?_
  rw [Nat.and_two_pow_sub_one_eq_mod, Nat.testBit_mod_two_pow, decide_eq_true (by omega), Bool.true_and]

theorem bits_zero (k : Nat) : bits k 0 = List.replicate k false := by
  induction k with
  | zero => rfl
  | succ k ih => rw [bits, ih, Nat.zero_testBit, List.replicate_succ]

theorem bits_ones (k : Nat) : bits k (2 ^ k - 1) = List.replicate k true := by
  have hall : ∀ l ≤ k, bits l (2 ^ k - 1) = List.replicate l true := by
    intro l
    induction l with
    | zero => exact fun _ => rfl
    | succ l ih =>
      intro hl
      rw [bits, ih (by omega), Nat.testBit_two_pow_sub_one, decide_eq_true (by omega), List.replicate_succ]
  exact hall k (Nat.le_refl k)

theorem bits_or (hb : b < 2 ^ l) : bits (k + l) (a <<< l ||| b) = bits k a ++ bits l b := by
  rw [bits_append]
  congr 1
  · refine bits_congr fun i _ => ?_
    rw [Nat.testBit_shiftRight, Nat.testBit_or, Nat.testBit_shiftLeft, decide_eq_true (by omega), Bool.true_and, Nat.add_sub_cancel_left,
      Nat.testBit_lt_two_pow (hb.trans_le (Nat.pow_le_pow_right (by decide) (by omega))), Bool.or_false]
  · refine bits_congr fun i hi => ?_
    rw [Nat.testBit_or, Nat.testBit_shiftLeft, decide_eq_false (by omega), Bool.false_and, Bool.false_or]

theorem bits_split (hk : k ≤ n) (h : bits n v = bits k a ++ rest) :
    bits k (v >>> (n - k)) = bits k a ∧ bits (n - k) v = rest := by
  rw [← Nat.add_sub_cancel' hk, bits_append] at h
  exact List.append_inj h (by rw [length_bits, length_bits])

theorem bits_field (hk : k ≤ n) (ha : a < 2 ^ k) (h : bits n v = bits k a ++ rest) :
    (v >>> (n - k)) &&& (2 ^ k - 1) = a := by
  rw [Nat.and_two_pow_sub_one_eq_mod, bits_inj (bits_split hk h).1, Nat.mod_eq_of_lt ha]

theorem bits_front (hlk : l ≤ k) (hk : k ≤ n) (ha : a < 2 ^ k) (h : bits n v = bits k a ++ rest) :
    (v >>> (n - l)) &&& (2 ^ l - 1) = a >>> (k - l) := by
  have hfront : a >>> (k - l) < 2 ^ l := by
    rw [Nat.shiftRight_eq_div_pow, Nat.div_lt_iff_lt_mul (Nat.two_pow_pos _), ← Nat.pow_add, Nat.add_sub_cancel' hlk]
    exact ha
  have hsplit : bits k a = bits l (a >>> (k - l)) ++ bits (k - l) a := by
    rw [← bits_append, Nat.add_sub_cancel' hlk]
  rw [hsplit, List.append_assoc] at h
  exact bits_field (hlk.trans hk) hfront h

theorem bits_window (hkl : k ≤ l) (hl : l ≤ n) (ha : a < 2 ^ k) (h : bits n v = bits k a ++ rest) :
    ∃ x < 2 ^ (l - k), (v >>> (n - l)) &&& (2 ^ l - 1) = a <<< (l - k) + x := by
  have hfield := bits_field (hkl.trans hl) ha h
  have hpow : 2 ^ l = 2 ^ (l - k) * 2 ^ k := by rw [← Nat.pow_add, Nat.sub_add_cancel hkl]
  have hquotient : (v >>> (n - l)) % 2 ^ l / 2 ^ (l - k) = a := by
    rw [hpow, Nat.mod_mul_right_div_self, ← Nat.shiftRight_eq_div_pow, ← Nat.shiftRight_add, show n - l + (l - k) = n - k by omega,
      ← Nat.and_two_pow_sub_one_eq_mod, hfield]
  refine ⟨(v >>> (n - l)) % 2 ^ l % 2 ^ (l - k), Nat.mod_lt _ (Nat.two_pow_pos _), ?_⟩
  rw [Nat.and_two_pow_sub_one_eq_mod, Nat.shiftLeft_eq, ← hquotient, Nat.div_add_mod']

def byteBits (bytes : List Nat) : List Bool := bytes.flatMap (bits 8)

theorem byteBits_append (xs ys : List Nat) : byteBits (xs ++ ys) = byteBits xs ++ byteBits ys := List.flatMap_append

theorem byteBits_cons (x : Nat) (xs : List Nat) : byteBits (x :: xs) = bits 8 x ++ byteBits xs := List.flatMap_cons

end Ussr.MsbBits
