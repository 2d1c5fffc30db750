import Mathlib.Data.Nat.Digits.Lemmas

/-! Decimal numerals as byte strings, most significant digit first. -/

namespace Ussr.Decimal

def isDigit (b : UInt8) : Bool :=
  decide (48 ≤ b.toNat) && decide (b.toNat ≤ 57)

def decimal (n : Nat) : List UInt8 :=
  if n = 0 then [48] else (Nat.digits 10 n).reverse.map fun d => UInt8.ofNat (48 + d)

def ofDecimal (bs : List UInt8) : Nat :=
  bs.foldl (fun n b => 10 * n + (b.toNat - 48)) 0

theorem toNat_digit {d : Nat} (h : d < 10) : (UInt8.ofNat (48 + d)).toNat = 48 + d := by
  rw [UInt8.toNat_ofNat']
  omega

theorem decimal_digits (n : Nat) : ∀ b ∈ decimal n, isDigit b = true := by
  unfold decimal
  split_ifs with hzero
  · intro b hb
    rw [List.mem_singleton.mp hb]
    rfl
  · intro b hb
    obtain ⟨d, hd, rfl⟩ := List.mem_map.mp hb
    have hlt := Nat.digits_lt_base (by decide : 1 < 10) (List.mem_reverse.mp hd)
    have hbyte := toNat_digit hlt
    simp only [isDigit, hbyte, Bool.and_eq_true, decide_eq_true_eq]
    omega

theorem decimal_ne_nil (n : Nat) : decimal n ≠ [] := by
  unfold decimal
  split_ifs with hzero
  · decide
  · simpa [Nat.digits_eq_nil_iff_eq_zero] using hzero

theorem decimal_length_le {n m : Nat} (h : n < 10 ^ m) (hm : m ≠ 0) : (decimal n).length ≤ m := by
  unfold decimal
  split_ifs with hzero
  · exact Nat.one_le_iff_ne_zero.mpr hm
  · simpa using (Nat.digits_length_le_iff (by decide) n).mpr h

theorem ofDecimal_decimal (n : Nat) : ofDecimal (decimal n) = n := by
  unfold ofDecimal decimal
  split_ifs with hzero
  · exact hzero.symm
  rw [List.foldl_map, List.foldl_reverse]
  have hdigits := Nat.ofDigits_digits 10 n
  rw [Nat.ofDigits_eq_foldr] at hdigits
  conv_rhs => rw [← hdigits]
  have hlt : ∀ d ∈ Nat.digits 10 n, d < 10 := fun d hd => Nat.digits_lt_base (by decide) hd
  generalize Nat.digits 10 n = ds at hlt ⊢
  induction ds with
  | nil => rfl
  | cons d ds ih =>
    have hd := toNat_digit (hlt d List.mem_cons_self)
    rw [List.foldr_cons, List.foldr_cons, ih fun x hx => hlt x (List.mem_cons_of_mem d hx), hd]
    simp only [Nat.cast_id]
    omega

end Ussr.Decimal
