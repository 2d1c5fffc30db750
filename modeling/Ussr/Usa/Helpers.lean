import Ussr.Library.Rounding
import Ussr.Usa.Types
import Ussr.Vm.Operators

/-! The functions of usa's library for 64-bit division. Their arithmetic on `long` is the VM's,
which wraps; a double is the number it stands for. `none` is a run-time error. -/

namespace Ussr.Usa
open Rounding

variable {x : ℚ} {m : Int} {a b : BitVec 64}

def realDiv (x y : ℚ) : ℚ := round 53 (x / y)

def realMul (x y : ℚ) : ℚ := round 53 (x * y)

def realSub (x y : ℚ) : ℚ := round 53 (x - y)

def toReal (n : BitVec 64) : ℚ := round 53 n.toInt

/-- `__ussr_at(__getidx(), x)`: the vector of 0 .. 65535 at a real index, whose fraction is cut off. -/
def atIdx (x : ℚ) : Option (BitVec 64) :=
  let k := if 0 ≤ x then ⌊x⌋ else ⌈x⌉
  if 0 ≤ k ∧ k < 65536 then some (BitVec.ofInt 64 k) else none

/-- `__f2i` of a number that is not negative, with the calls that it may nest. -/
def f2iPos : (calls : Nat) → ℚ → Option (BitVec 64)
  | 0, _ => none
  | calls + 1, x =>
    if x < 65536 then atIdx x
    else if x < 4294967296 then
      (atIdx (realDiv x 65536)).bind fun h =>
        (atIdx (realSub x (toReal (h * 65536)))).map fun l => h * 65536 + l
    else if 9223372036854775808 ≤ x then some 9223372036854775807
    else
      (f2iPos calls (realDiv x 4294967296)).bind fun h =>
        (f2iPos calls (realSub x (realMul (toReal h) 4294967296))).map fun l => h * 4294967296 + l

/-- `__f2i`; the calls do not go deeper than two. -/
def f2i (x : ℚ) : Option (BitVec 64) :=
  if x < 0 then
    if 9223372036854775808 ≤ -x then some 9223372036854775808 else (f2iPos 64 (-x)).map fun r => -r
  else f2iPos 64 x

theorem atIdx_floor (hpos : 0 ≤ x) (hx : x < 65536) : atIdx x = some (BitVec.ofInt 64 ⌊x⌋) := by
  unfold atIdx
  have hfloor : 0 ≤ ⌊x⌋ := Int.floor_nonneg.mpr hpos
  have hsmall : ⌊x⌋ < 65536 := Int.floor_lt.mpr (by exact_mod_cast hx)
  simp only [if_pos hpos, hfloor, hsmall, and_self, if_true]

theorem toReal_ofInt {v : Int} (hpos : 0 ≤ v) (hv : v < 2 ^ 53) : toReal (BitVec.ofInt 64 v) = v := by
  unfold toReal
  have hword : (BitVec.ofInt 64 v).toInt = v := by
    rw [BitVec.toInt_ofInt]
    exact Int.bmod_eq_of_le (by omega) (by omega)
  rw [hword, round_of_fits (fits_int v (by rw [abs_of_nonneg hpos]; exact hv))]

theorem fits_rest (j : Nat) {u k : Int} (hm : m < 2 ^ 53) (hrest : 0 ≤ (m : ℚ) / 2 ^ j - k * u)
    (hmulti : 0 ≤ k * u) : ∃ n : Int, (m : ℚ) / 2 ^ j - k * u = n / 2 ^ j ∧ 0 ≤ n ∧ n < 2 ^ 53 := by
  have hpow : (0 : ℚ) < 2 ^ j := by positivity
  have heq : (m : ℚ) / 2 ^ j - k * u = ((m - k * u * 2 ^ j : Int) : ℚ) / 2 ^ j := by
    push_cast
    rw [sub_div, mul_div_cancel_right₀ _ hpow.ne']
  refine ⟨m - k * u * 2 ^ j, heq, ?_, ?_⟩
  · rw [heq, le_div_iff₀ hpow, zero_mul] at hrest
    exact_mod_cast hrest
  · have hnonneg : 0 ≤ k * u * 2 ^ j := mul_nonneg hmulti (by positivity)
    omega

theorem part_bounds {u : Int} (hu : 0 < u) (hx : 0 ≤ x) :
    0 ≤ ⌊x / u⌋ ∧ 0 ≤ x - ⌊x / u⌋ * u ∧ x - ⌊x / u⌋ * u < u := by
  have hu' : (0 : ℚ) < u := by exact_mod_cast hu
  have hdiv : x / u * u = x := div_mul_cancel₀ x hu'.ne'
  have hle : (⌊x / u⌋ : ℚ) * u ≤ x / u * u := mul_le_mul_of_nonneg_right (Int.floor_le _) hu'.le
  have hlt : x / u * u < (⌊x / u⌋ + 1) * u := mul_lt_mul_of_pos_right (Int.lt_floor_add_one _) hu'
  rw [hdiv] at hle hlt
  refine ⟨Int.floor_nonneg.mpr (div_nonneg hx hu'.le), by linarith, ?_⟩
  rw [add_mul, one_mul] at hlt
  linarith

theorem part_floor (k u : Int) : k * u + ⌊x - k * u⌋ = ⌊x⌋ := by
  have hsub : ⌊x - ((k * u : Int) : ℚ)⌋ = ⌊x⌋ - k * u := Int.floor_sub_intCast x (k * u)
  push_cast at hsub
  rw [hsub]
  omega

theorem f2iPos_small (j calls : Nat) (hpos : 0 ≤ m) (hm : m < 2 ^ 53) (hx : (m : ℚ) / 2 ^ j < 4294967296) :
    f2iPos (calls + 1) (m / 2 ^ j) = some (BitVec.ofInt 64 ⌊(m : ℚ) / 2 ^ j⌋) := by
  have hm' : |m| < 2 ^ 53 := by rw [abs_of_nonneg hpos]; exact hm
  have hx0 : (0 : ℚ) ≤ m / 2 ^ j := div_nonneg (by exact_mod_cast hpos) (by positivity)
  unfold f2iPos
  split
  next hsmall => exact atIdx_floor hx0 hsmall
  next hlarge =>
    obtain ⟨hh, hrest, hless⟩ := part_bounds (u := 65536) (by norm_num) hx0
    have hdiv : realDiv ((m : ℚ) / 2 ^ j) 65536 = m / 2 ^ j / (65536 : Int) := by
      have hfits := (fits_div m j hm').scale (-16)
      have heq : (m : ℚ) / 2 ^ j * 2 ^ (-16 : Int) = m / 2 ^ j / (65536 : Int) := by
        rw [zpow_neg, div_eq_mul_inv _ ((65536 : Int) : ℚ)]
        norm_num
      rw [heq] at hfits
      exact round_of_fits hfits
    have hfew : (m : ℚ) / 2 ^ j / (65536 : Int) < 65536 := by
      rw [div_lt_iff₀ (by norm_num)]
      norm_num
      exact hx
    have hh' : ⌊(m : ℚ) / 2 ^ j / (65536 : Int)⌋ < 65536 := Int.floor_lt.mpr (by exact_mod_cast hfew)
    rw [hdiv, atIdx_floor (div_nonneg hx0 (by norm_num)) hfew, Option.bind_some]
    generalize ⌊(m : ℚ) / 2 ^ j / (65536 : Int)⌋ = h at *
    have hword : BitVec.ofInt 64 h * 65536 = BitVec.ofInt 64 (h * 65536) := by
      rw [BitVec.ofInt_mul]
      rfl
    obtain ⟨n, hn, hn0, hn53⟩ := fits_rest j hm hrest (by omega)
    have hsub : realSub (m / 2 ^ j) (toReal (BitVec.ofInt 64 h * 65536)) = m / 2 ^ j - h * (65536 : Int) := by
      rw [hword, toReal_ofInt (by omega) (by omega), realSub]
      push_cast
      push_cast at hn
      rw [hn]
      exact round_of_fits (fits_div n j (by rw [abs_of_nonneg hn0]; exact hn53))
    rw [hsub, atIdx_floor hrest (by exact_mod_cast hless), Option.map_some, hword, ← BitVec.ofInt_add, part_floor]

theorem f2iPos_floor (j calls : Nat) (hpos : 0 ≤ m) (hm : m < 2 ^ 53)
    (hx : (m : ℚ) / 2 ^ j < 9223372036854775808) :
    f2iPos (calls + 2) (m / 2 ^ j) = some (BitVec.ofInt 64 ⌊(m : ℚ) / 2 ^ j⌋) := by
  by_cases hsmall : (m : ℚ) / 2 ^ j < 4294967296
  · exact f2iPos_small j (calls + 1) hpos hm hsmall
  have hm' : |m| < 2 ^ 53 := by rw [abs_of_nonneg hpos]; exact hm
  have hx0 : (0 : ℚ) ≤ m / 2 ^ j := div_nonneg (by exact_mod_cast hpos) (by positivity)
  rw [f2iPos, if_neg (by linarith), if_neg hsmall, if_neg (not_le.mpr hx)]
  obtain ⟨hh, hrest, hless⟩ := part_bounds (u := 4294967296) (by norm_num) hx0
  have heq : (m : ℚ) / 2 ^ j / (4294967296 : Int) = m / 2 ^ (j + 32) := by
    rw [pow_add, div_div]
    norm_num
  have hdiv : realDiv ((m : ℚ) / 2 ^ j) 4294967296 = m / 2 ^ (j + 32) := by
    have hquotient : (m : ℚ) / 2 ^ j / 4294967296 = m / 2 ^ (j + 32) := by exact_mod_cast heq
    rw [realDiv, hquotient]
    exact round_of_fits (fits_div m (j + 32) hm')
  have hfew : (m : ℚ) / 2 ^ (j + 32) < 2147483648 := by
    rw [← heq, div_lt_iff₀ (by norm_num)]
    norm_num
    exact hx
  have hh' : ⌊(m : ℚ) / 2 ^ (j + 32)⌋ < 2147483648 := Int.floor_lt.mpr (by exact_mod_cast hfew)
  rw [hdiv, f2iPos_small (j + 32) calls hpos hm (by linarith), Option.bind_some]
  rw [heq] at hh hrest hless
  generalize ⌊(m : ℚ) / 2 ^ (j + 32)⌋ = h at *
  have hword : BitVec.ofInt 64 h * 4294967296 = BitVec.ofInt 64 (h * 4294967296) := by
    rw [BitVec.ofInt_mul]
    rfl
  obtain ⟨n, hn, hn0, hn53⟩ := fits_rest j hm hrest (by omega)
  have hmul : realMul (toReal (BitVec.ofInt 64 h)) 4294967296 = h * (4294967296 : Int) := by
    have hfits : Fits 53 (h : ℚ) := fits_int h (by rw [abs_of_nonneg hh]; omega)
    rw [toReal_ofInt hh (by omega), realMul]
    have hscaled := round_of_fits (hfits.scale 32)
    norm_num at hscaled ⊢
    exact hscaled
  have hsub : realSub (m / 2 ^ j) (realMul (toReal (BitVec.ofInt 64 h)) 4294967296) = n / 2 ^ j := by
    rw [hmul, realSub, hn]
    exact round_of_fits (fits_div n j (by rw [abs_of_nonneg hn0]; exact hn53))
  rw [hn] at hless
  rw [hsub, f2iPos_small j calls hn0 hn53 (by exact_mod_cast hless), Option.map_some, ← hn, hword,
    ← BitVec.ofInt_add, part_floor]

theorem f2i_int {q : Int} (hq : |q| < 2 ^ 53) : f2i q = some (BitVec.ofInt 64 q) := by
  have hlimit : (2 : ℚ) ^ 53 < 9223372036854775808 := by norm_num
  have hcase {m : Int} (hpos : 0 ≤ m) (hm : m < 2 ^ 53) : f2iPos 64 m = some (BitVec.ofInt 64 m) := by
    have hm' : (m : ℚ) < 2 ^ 53 := by exact_mod_cast hm
    have hfloor := f2iPos_floor 0 62 hpos hm (by rw [pow_zero, div_one]; linarith)
    rw [pow_zero, div_one, Int.floor_intCast] at hfloor
    exact hfloor
  obtain ⟨hlow, hhigh⟩ := abs_lt.mp hq
  unfold f2i
  split
  next hneg =>
    have hneg' : q < 0 := by exact_mod_cast hneg
    have hsmall : -(q : ℚ) < 2 ^ 53 := by
      have hcast : ((-q : Int) : ℚ) < 2 ^ 53 := by exact_mod_cast (by omega : -q < 2 ^ 53)
      push_cast at hcast
      exact hcast
    have hpos : f2iPos 64 (-(q : ℚ)) = some (BitVec.ofInt 64 (-q)) := by
      have hmade := hcase (m := -q) (by omega) (by omega)
      push_cast at hmade
      exact hmade
    rw [if_neg (by linarith), hpos, Option.map_some, BitVec.ofInt_neg, BitVec.neg_neg]
  next hpos => exact hcase (by exact_mod_cast not_lt.mp hpos) hhigh

/-- The loop of `__ldiv_slow`, with the turns that are left. -/
def ldivSlowLoop (a b : BitVec 64) : (turns : Nat) → (q r : BitVec 64) → BitVec 64
  | 0, q, _ => q
  | i + 1, q, r =>
    let r := (r <<< 1) ||| (a.sshiftRight i &&& 1)
    if b.sle r then ldivSlowLoop a b i (q ||| (1 : BitVec 64) <<< i) (r - b) else ldivSlowLoop a b i q r

def ldivSlow (a b : BitVec 64) : BitVec 64 := ldivSlowLoop a b 63 0 0

/-- The rest of `__idiv` for large dividends. -/
def idivLarge (a b : BitVec 64) : BitVec 64 :=
  if b = -1 then -a
  else
    let neg := a.slt 0 != b.slt 0
    let a := if a.slt 0 then -a else a
    let b := if b.slt 0 then -b else b
    let q := if a.slt 0 then ldivSlow (-(a + b)) b + 1 else ldivSlow a b
    if neg then -q else q

def idiv (a b : BitVec 64) : Option (BitVec 64) :=
  if b = 0 then none
  else
    let r := ussrIntMod a b
    if a.slt 4503599627370496 ∧ (-4503599627370496 : BitVec 64).slt a then
      f2i (realDiv (toReal (a - r)) (toReal b))
    else some (idivLarge a b)

def ushr64 (a n : BitVec 64) : Option (BitVec 64) :=
  if n = 0 then some a
  else if 63 < n.toNat then none
  else some (a.sshiftRight n.toNat &&& (((1 : BitVec 64) <<< (64 - n.toNat)) - 1))

def udiv64 (a b : BitVec 64) : Option (BitVec 64) :=
  if (0 : BitVec 64).sle a ∧ (0 : BitVec 64).slt b then idiv a b
  else if b.slt 0 then some (if b ≤ a then 1 else 0)
  else
    (idiv (a >>> 1) b).map fun (half : BitVec 64) =>
      let q : BitVec 64 := half <<< 1
      let r := a - q * b
      if b ≤ r then q + 1 else q

def umod64 (a b : BitVec 64) : Option (BitVec 64) := (udiv64 a b).map fun q => a - q * b

theorem toInt_of_lt {w : BitVec 64} (h : w.toNat < 2 ^ 63) : w.toInt = w.toNat :=
  BitVec.toInt_eq_toNat_of_lt (by omega)

theorem ldivSlow_rest (a r : BitVec 64) (i : Nat) (ha : a.toNat < 2 ^ 63) (hr : r.toNat < 2 ^ 63) :
    ((r <<< 1) ||| (a.sshiftRight i &&& 1)).toNat = 2 * r.toNat + a.toNat / 2 ^ i % 2 := by
  have hmsb : a.msb = false := BitVec.msb_eq_false_iff_two_mul_lt.mpr (by omega)
  have hbit : (a.sshiftRight i &&& 1).toNat = a.toNat / 2 ^ i % 2 := by
    rw [BitVec.sshiftRight_eq_of_msb_false hmsb, BitVec.toNat_and, BitVec.toNat_ushiftRight,
      Nat.shiftRight_eq_div_pow]
    exact Nat.and_one_is_mod _
  have hshift : (r <<< 1).toNat = 2 ^ 1 * r.toNat := by
    rw [BitVec.toNat_shiftLeft, Nat.shiftLeft_eq]
    omega
  have hless : a.toNat / 2 ^ i % 2 < 2 ^ 1 := Nat.mod_lt _ (by decide)
  rw [BitVec.toNat_or, hbit, hshift, ← Nat.two_pow_add_eq_or_of_lt hless]

theorem ldivSlow_quotient (q : BitVec 64) (i k : Nat) (hi : i < 63) (hq : q.toNat = 2 ^ (i + 1) * k) :
    (q ||| (1 : BitVec 64) <<< i).toNat = 2 ^ (i + 1) * k + 2 ^ i := by
  have hone : ((1 : BitVec 64) <<< i).toNat = 2 ^ i := by
    have hlt : 2 ^ i < 2 ^ 64 := Nat.pow_lt_pow_right (by decide) (by omega)
    rw [BitVec.toNat_shiftLeft, Nat.shiftLeft_eq, show (1 : BitVec 64).toNat = 1 from rfl, Nat.one_mul,
      Nat.mod_eq_of_lt hlt]
  rw [BitVec.toNat_or, hq, hone, ← Nat.two_pow_add_eq_or_of_lt (Nat.pow_lt_pow_right (by decide) (by omega))]

theorem ldivSlowLoop_spec (a b : BitVec 64) (ha : a.toNat < 2 ^ 63) (hb : 0 < b.toNat) (hb' : b.toNat < 2 ^ 63)
    (i : Nat) (q r : BitVec 64) (hi : i ≤ 63) (hr : r.toNat = a.toNat / 2 ^ i % b.toNat)
    (hq : q.toNat = 2 ^ i * (a.toNat / 2 ^ i / b.toNat)) :
    (ldivSlowLoop a b i q r).toNat = a.toNat / b.toNat := by
  induction i generalizing q r with
  | zero =>
    rw [pow_zero, Nat.div_one, Nat.one_mul] at hq
    exact hq
  | succ i ih =>
    have hhalf : a.toNat / 2 ^ (i + 1) = a.toNat / 2 ^ i / 2 := by rw [pow_succ, Nat.div_div_eq_div_mul]
    rw [hhalf] at hr hq
    have hle : a.toNat / 2 ^ i ≤ a.toNat := Nat.div_le_self _ _
    have hrlt : r.toNat < b.toNat := hr ▸ Nat.mod_lt _ hb
    have hrest := ldivSlow_rest a r i ha (by omega)
    have hquotient := ldivSlow_quotient q i _ (by omega) hq
    generalize hx : a.toNat / 2 ^ i = x at *
    have hparts := Nat.div_add_mod (x / 2) b.toNat
    have hbits := Nat.div_add_mod x 2
    rw [← hr] at hparts
    generalize x / 2 / b.toNat = k at *
    generalize hr' : (r <<< 1) ||| (a.sshiftRight i &&& 1) = r' at *
    have hexact : x = b.toNat * (2 * k) + r'.toNat := by
      rw [hrest, ← hbits, ← hparts]
      ring_nf
      omega
    have hsmall : r'.toNat < 2 ^ 63 := by omega
    rw [ldivSlowLoop, hr']
    have hsle : b.sle r' = decide (b.toNat ≤ r'.toNat) := by
      rw [BitVec.sle_eq_decide, toInt_of_lt hb', toInt_of_lt hsmall]
      simp only [Nat.cast_le]
    rw [hsle]
    by_cases hge : b.toNat ≤ r'.toNat
    · rw [if_pos (decide_eq_true hge)]
      have hunique : x / b.toNat = 2 * k + 1 ∧ x % b.toNat = r'.toNat - b.toNat := by
        rw [Nat.div_mod_unique hb]
        refine ⟨?_, by omega⟩
        rw [hexact, Nat.mul_add, Nat.mul_one]
        omega
      refine ih _ _ (by omega) ?_ ?_
      · rw [BitVec.toNat_sub_of_le (BitVec.le_def.mpr hge), hunique.2]
      · rw [hquotient, hunique.1, pow_succ]
        ring
    · rw [if_neg (by simpa using hge)]
      have hunique : x / b.toNat = 2 * k ∧ x % b.toNat = r'.toNat := by
        rw [Nat.div_mod_unique hb]
        exact ⟨by omega, by omega⟩
      refine ih _ _ (by omega) hunique.2.symm ?_
      rw [hq, hunique.1, pow_succ]
      ring

theorem ldivSlow_spec (a b : BitVec 64) (ha : a.toNat < 2 ^ 63) (hb : 0 < b.toNat) (hb' : b.toNat < 2 ^ 63) :
    (ldivSlow a b).toNat = a.toNat / b.toNat := by
  have hnone : a.toNat / 2 ^ 63 = 0 := Nat.div_eq_of_lt ha
  refine ldivSlowLoop_spec a b ha hb hb' 63 0 0 le_rfl ?_ ?_
  · rw [hnone, Nat.zero_mod]
    rfl
  · rw [hnone, Nat.zero_div, Nat.mul_zero]
    rfl

/-- The divisions that `__idiv` gets right: it takes the absolute value of a divisor that has none. -/
def Divides (a b : Int) : Prop := b ≠ -9223372036854775808 ∨ (-4503599627370496 < a ∧ a < 4503599627370496)

instance decidableDivides (a b : Int) : Decidable (Divides a b) := by
  unfold Divides
  exact inferInstance

theorem toInt_ussrIntMod (a b : BitVec 64) : (ussrIntMod a b).toInt = a.toInt.tmod b.toInt := by
  unfold ussrIntMod
  split
  next hb =>
    rw [hb, show (-1 : BitVec 64).toInt = -1 from rfl, Int.tmod_neg, Int.tmod_one]
    rfl
  next => exact BitVec.toInt_srem a b

theorem toReal_of_small {n : BitVec 64} (h : |n.toInt| < 2 ^ 53) : toReal n = n.toInt := round_of_fits (fits_int _ h)

theorem idiv_small (hb : b ≠ 0) (ha : -4503599627370496 < a.toInt ∧ a.toInt < 4503599627370496) :
    idiv a b = some (BitVec.ofInt 64 (a.toInt.tdiv b.toInt)) := by
  have hb' : b.toInt ≠ 0 := fun h => hb (BitVec.toInt_inj.mp h)
  have hparts := Int.mul_tdiv_add_tmod a.toInt b.toInt
  have hqabs := Int.natAbs_tdiv_le_natAbs a.toInt b.toInt
  have hproduct : (b.toInt * a.toInt.tdiv b.toInt).natAbs ≤ a.toInt.natAbs := by
    rw [Int.natAbs_mul, Int.natAbs_tdiv]
    exact Nat.mul_div_le _ _
  have hrest : (a - ussrIntMod a b).toInt = b.toInt * a.toInt.tdiv b.toInt := by
    rw [BitVec.toInt_sub, toInt_ussrIntMod,
      show a.toInt - a.toInt.tmod b.toInt = b.toInt * a.toInt.tdiv b.toInt by omega]
    exact Int.bmod_eq_of_le (by omega) (by omega)
  have hquotient : realDiv (toReal (a - ussrIntMod a b)) (toReal b) = a.toInt.tdiv b.toInt := by
    rw [toReal_of_small (by rw [hrest, abs_lt]; omega), hrest]
    by_cases hzero : a.toInt.tdiv b.toInt = 0
    · rw [hzero, mul_zero, Int.cast_zero, realDiv, zero_div, round_zero]
    · -- A divisor of a small number is exact.
      have hle : b.toInt.natAbs ≤ (b.toInt * a.toInt.tdiv b.toInt).natAbs := by
        rw [Int.natAbs_mul]
        exact Nat.le_mul_of_pos_right _ (Int.natAbs_pos.mpr hzero)
      have hb'' : (b.toInt : ℚ) ≠ 0 := by exact_mod_cast hb'
      rw [toReal_of_small (by rw [abs_lt]; omega), realDiv, Int.cast_mul, mul_div_cancel_left₀ _ hb'']
      exact round_of_fits (fits_int _ (by rw [abs_lt]; omega))
  have hslt : a.slt 4503599627370496 = true ∧ (-4503599627370496 : BitVec 64).slt a = true := by
    rw [BitVec.slt_iff_toInt_lt, BitVec.slt_iff_toInt_lt]
    exact ⟨ha.2, ha.1⟩
  unfold idiv
  rw [if_neg hb]
  dsimp only
  rw [if_pos hslt, hquotient, f2i_int (by rw [abs_lt]; omega)]

theorem tdiv_eq (x y : Int) : x.tdiv y =
    if decide (x < 0) != decide (y < 0) then -((x.natAbs / y.natAbs : Nat) : Int)
    else ((x.natAbs / y.natAbs : Nat) : Int) := by
  have hpos (n : Nat) : decide (Int.ofNat n < 0) = false := decide_eq_false (Int.not_lt.mpr (Int.natCast_nonneg n))
  have hneg (n : Nat) : decide (Int.negSucc n < 0) = true := decide_eq_true (Int.negSucc_lt_zero n)
  cases x <;> cases y <;> simp only [hpos, hneg] <;> rfl

theorem slt_zero (w : BitVec 64) : w.slt 0 = decide (w.toInt < 0) := by
  rw [BitVec.slt_eq_decide]
  rfl

theorem toNat_abs (w : BitVec 64) : (if w.slt 0 then -w else w).toNat = w.toInt.natAbs := by
  have hlt := w.isLt
  have hint := w.toInt_eq_toNat_cond
  rw [slt_zero]
  by_cases hneg : w.toInt < 0
  · rw [if_pos (decide_eq_true hneg), BitVec.toNat_neg]
    omega
  · rw [if_neg (by simpa using hneg)]
    omega

theorem idivLarge_spec (hb : b ≠ 0) (hmin : b.toInt ≠ -9223372036854775808) :
    idivLarge a b = BitVec.ofInt 64 (a.toInt.tdiv b.toInt) := by
  unfold idivLarge
  split
  next hone =>
    rw [hone, show (-1 : BitVec 64).toInt = -1 from rfl, Int.tdiv_neg, Int.tdiv_one, BitVec.ofInt_neg,
      BitVec.ofInt_toInt]
  next hne =>
    have hb' : b.toInt ≠ 0 := fun h => hb (BitVec.toInt_inj.mp h)
    have hrange := b.le_toInt
    have hA := toNat_abs a
    have hB := toNat_abs b
    dsimp only
    rw [tdiv_eq, ← slt_zero, ← slt_zero]
    generalize (if a.slt 0 then -a else a) = a' at *
    generalize (if b.slt 0 then -b else b) = b' at *
    have hq : (if a'.slt 0 then ldivSlow (-(a' + b')) b' + 1 else ldivSlow a' b') =
        BitVec.ofNat 64 (a.toInt.natAbs / b.toInt.natAbs) := by
      have habove := b.toInt_lt
      have hbelow := a.le_toInt
      have habove' := a.toInt_lt
      have hpos : 0 < b'.toNat := by omega
      have hsmall : b'.toNat < 2 ^ 63 := by omega
      apply BitVec.eq_of_toNat_eq
      rw [BitVec.toNat_ofNat, ← hA, ← hB, slt_zero]
      have hint := a'.toInt_eq_toNat_cond
      by_cases hneg : a'.toInt < 0
      · -- The dividend is the least integer.
        have hleast : a'.toNat = 2 ^ 63 := by omega
        have hdown : (-(a' + b')).toNat = 2 ^ 63 - b'.toNat := by
          rw [BitVec.toNat_neg, BitVec.toNat_add]
          omega
        rw [if_pos (decide_eq_true hneg), BitVec.toNat_add, ldivSlow_spec _ _ (by omega) hpos hsmall, hdown, hleast,
          show (1 : BitVec 64).toNat = 1 from rfl, ← Nat.div_eq_sub_div hpos hsmall.le]
      · rw [if_neg (by simpa using hneg), ldivSlow_spec _ _ (by omega) hpos hsmall]
        exact (Nat.mod_eq_of_lt ((Nat.div_le_self _ _).trans_lt a'.isLt)).symm
    rw [hq]
    split
    · rw [BitVec.ofInt_neg, BitVec.ofInt_natCast]
    · rw [BitVec.ofInt_natCast]

theorem ldivSlowLoop_min (a : BitVec 64) (i k : Nat) (q r : BitVec 64) (hi : i ≤ 63) (hq : q.toNat = 2 ^ i * k) :
    (ldivSlowLoop a 9223372036854775808 i q r).toNat = 2 ^ i * k + (2 ^ i - 1) := by
  induction i generalizing k q r with
  | zero => simpa [ldivSlowLoop] using hq
  | succ i ih =>
    have hsle : (9223372036854775808 : BitVec 64).sle (r <<< 1 ||| (a.sshiftRight i &&& 1)) = true := by
      rw [BitVec.sle_iff_toInt_le]
      exact BitVec.le_toInt _
    have hquotient := ldivSlow_quotient q i k (by omega) hq
    have hpow : 2 ^ (i + 1) = 2 ^ i * 2 := pow_succ 2 i
    have hpos : 0 < 2 ^ i := Nat.two_pow_pos i
    rw [ldivSlowLoop, if_pos hsle, ih (2 * k + 1) _ _ (by omega) (by rw [hquotient, hpow]; ring), hpow,
      Nat.mul_add, Nat.mul_assoc]
    omega

theorem ldivSlow_min (a : BitVec 64) : ldivSlow a 9223372036854775808 = 9223372036854775807 :=
  BitVec.eq_of_toNat_eq (ldivSlowLoop_min a 63 0 0 0 le_rfl rfl)

theorem idivLarge_min (a : BitVec 64) :
    idivLarge a 9223372036854775808 ≠ BitVec.ofInt 64 (a.toInt.tdiv (-9223372036854775808)) := by
  by_cases hleast : a = 9223372036854775808
  · rw [hleast]
    decide +kernel
  · have hbelow := a.le_toInt
    have habove := a.toInt_lt
    have hne : a.toInt ≠ -9223372036854775808 := fun h => hleast (BitVec.toInt_inj.mp h)
    have hA := toNat_abs a
    have hquotient : a.toInt.tdiv (-9223372036854775808) = 0 := by
      rw [tdiv_eq, Nat.div_eq_of_lt (by omega)]
      split <;> rfl
    rw [hquotient]
    unfold idivLarge
    rw [if_neg (by decide)]
    dsimp only
    generalize (if a.slt 0 then -a else a) = a' at *
    have hint := a'.toInt_eq_toNat_cond
    have hpos : ¬a'.slt 0 = true := by
      rw [slt_zero, decide_eq_true_eq]
      omega
    have hb : (if (9223372036854775808 : BitVec 64).slt 0 then -(9223372036854775808 : BitVec 64)
        else 9223372036854775808) = 9223372036854775808 := rfl
    rw [hb, if_neg hpos, ldivSlow_min]
    split <;> decide

theorem idiv_eq_iff (a b : BitVec 64) (hb : b ≠ 0) :
    idiv a b = some (BitVec.ofInt 64 (a.toInt.tdiv b.toInt)) ↔ Divides a.toInt b.toInt := by
  by_cases hsmall : -4503599627370496 < a.toInt ∧ a.toInt < 4503599627370496
  · exact ⟨fun _ => .inr hsmall, fun _ => idiv_small hb hsmall⟩
  · have hslt : ¬(a.slt 4503599627370496 = true ∧ (-4503599627370496 : BitVec 64).slt a = true) := by
      rw [BitVec.slt_iff_toInt_lt, BitVec.slt_iff_toInt_lt]
      exact fun h => hsmall ⟨h.2, h.1⟩
    have hlarge : idiv a b = some (idivLarge a b) := by
      unfold idiv
      rw [if_neg hb]
      exact if_neg hslt
    rw [hlarge, Option.some.injEq]
    constructor
    · intro h
      refine .inl fun hmin => ?_
      obtain rfl : b = 9223372036854775808 := BitVec.toInt_inj.mp hmin
      exact idivLarge_min a h
    · intro h
      exact idivLarge_spec hb (h.resolve_right hsmall)

theorem sshiftRight_mask (a : BitVec 64) (k : Nat) (hk : 0 < k) (hk' : k ≤ 63) :
    a.sshiftRight k &&& (((1 : BitVec 64) <<< (64 - k)) - 1) = a >>> k := by
  have hmask : ((1 : BitVec 64) <<< (64 - k)) - 1 = BitVec.allOnes 64 >>> k := by
    have hlt : 2 ^ (64 - k) < 2 ^ 64 := Nat.pow_lt_pow_right (by decide) (by omega)
    have hpos : 0 < 2 ^ (64 - k) := Nat.two_pow_pos _
    have hone : ((1 : BitVec 64) <<< (64 - k)).toNat = 2 ^ (64 - k) := by
      rw [BitVec.toNat_shiftLeft, Nat.shiftLeft_eq, show (1 : BitVec 64).toNat = 1 from rfl, Nat.one_mul,
        Nat.mod_eq_of_lt hlt]
    have hexact : 2 ^ 64 = 2 ^ (64 - k) * 2 ^ k := by
      rw [← pow_add]
      congr 1
      omega
    apply BitVec.eq_of_toNat_eq
    rw [BitVec.toNat_sub_of_le (by rw [BitVec.le_def, hone]; exact hpos), hone, BitVec.toNat_ushiftRight,
      BitVec.toNat_allOnes, Nat.shiftRight_eq_div_pow, hexact]
    refine (Nat.div_eq_of_lt_le ?_ ?_).symm
    · rw [show (1 : BitVec 64).toNat = 1 from rfl, Nat.sub_mul]
      have := Nat.two_pow_pos k
      omega
    · rw [show (1 : BitVec 64).toNat = 1 from rfl, Nat.sub_add_cancel hpos]
      have := Nat.mul_pos hpos (Nat.two_pow_pos k)
      omega
  rw [hmask]
  apply BitVec.eq_of_getLsbD_eq
  intro i hi
  rw [BitVec.getLsbD_and, BitVec.getLsbD_sshiftRight, BitVec.getLsbD_ushiftRight, BitVec.getLsbD_ushiftRight,
    BitVec.getLsbD_allOnes]
  by_cases hin : k + i < 64
  · simp [hin, hi]
  · simp [hin, BitVec.getLsbD_of_ge a (k + i) (by omega)]

theorem ushr64_spec (a n : BitVec 64) (hn : n.toNat < 64) : ushr64 a n = some (a >>> n.toNat) := by
  unfold ushr64
  split
  next hzero => rw [hzero]; rfl
  next hne =>
    have hpos : n.toNat ≠ 0 := fun h => hne (BitVec.eq_of_toNat_eq h)
    rw [if_neg (by omega), sshiftRight_mask a n.toNat (by omega) (by omega)]

theorem idiv_nonneg (ha : a.toNat < 2 ^ 63) (hb : 0 < b.toNat) (hb' : b.toNat < 2 ^ 63) :
    idiv a b = some (a / b) := by
  have hne : b ≠ 0 := fun h => by rw [h] at hb; exact absurd hb (lt_irrefl 0)
  have hquotient : BitVec.ofInt 64 (a.toInt.tdiv b.toInt) = a / b := by
    rw [toInt_of_lt ha, toInt_of_lt hb', ← Int.ofNat_tdiv, BitVec.ofInt_natCast]
    apply BitVec.eq_of_toNat_eq
    rw [BitVec.toNat_ofNat, BitVec.toNat_udiv]
    exact Nat.mod_eq_of_lt ((Nat.div_le_self _ _).trans_lt a.isLt)
  rw [(idiv_eq_iff a b hne).mpr (.inl (by rw [toInt_of_lt hb']; omega)), hquotient]

/-- A quotient from that of the half, which is too small by at most one when it is doubled. -/
theorem div_of_half (a : Nat) {b : Nat} (hpos : 0 < b) :
    a / b = if b ≤ a - 2 * (a / 2 / b) * b then 2 * (a / 2 / b) + 1 else 2 * (a / 2 / b) := by
  have hparts := Nat.div_add_mod (a / 2) b
  have hmod := Nat.mod_lt (a / 2) hpos
  generalize a / 2 / b = k at *
  have hkb : 2 * k * b = 2 * (b * k) := by ring
  have hnext : (2 * k + 1) * b = 2 * (b * k) + b := by ring
  have hlast : (2 * k + 1 + 1) * b = 2 * (b * k) + 2 * b := by ring
  split
  next hle => exact Nat.div_eq_of_lt_le (by omega) (by omega)
  next hle => exact Nat.div_eq_of_lt_le (by omega) (by omega)

theorem udiv64_spec (a b : BitVec 64) (hb : b ≠ 0) : udiv64 a b = some (a / b) := by
  have hpos : 0 < b.toNat := Nat.pos_of_ne_zero fun h => hb (BitVec.eq_of_toNat_eq h)
  have ha := a.toInt_eq_toNat_cond
  have hb' := b.toInt_eq_toNat_cond
  have hless := a.isLt
  unfold udiv64
  split
  next hsigns =>
    rw [BitVec.sle_iff_toInt_le, BitVec.slt_iff_toInt_lt, show (0 : BitVec 64).toInt = 0 from rfl] at hsigns
    exact idiv_nonneg (by omega) hpos (by omega)
  next hsigns =>
    rw [BitVec.sle_iff_toInt_le, BitVec.slt_iff_toInt_lt, show (0 : BitVec 64).toInt = 0 from rfl] at hsigns
    rw [slt_zero]
    split
    next hneg =>
      have hlarge : 2 ^ 63 ≤ b.toNat := by
        have := of_decide_eq_true hneg
        omega
      congr 1
      apply BitVec.eq_of_toNat_eq
      rw [BitVec.toNat_udiv]
      split
      next hle =>
        rw [BitVec.le_def] at hle
        rw [show (1 : BitVec 64).toNat = 1 from rfl]
        exact (Nat.div_eq_of_lt_le (by omega) (by omega)).symm
      next hle =>
        rw [BitVec.le_def] at hle
        exact (Nat.div_eq_of_lt (by omega)).symm
    next hneg =>
      have hsmall : b.toNat < 2 ^ 63 := by
        have := of_decide_eq_false (Bool.eq_false_of_not_eq_true hneg)
        omega
      have hhalf : (a >>> 1).toNat = a.toNat / 2 := by
        rw [BitVec.toNat_ushiftRight, Nat.shiftRight_eq_div_pow, pow_one]
      rw [idiv_nonneg (by omega) hpos hsmall, Option.map_some, Option.some.injEq]
      have hk : (a >>> 1 / b).toNat = a.toNat / 2 / b.toNat := by rw [BitVec.toNat_udiv, hhalf]
      have hkle : a.toNat / 2 / b.toNat ≤ a.toNat / 2 := Nat.div_le_self _ _
      have hq : ((a >>> 1 / b) <<< 1).toNat = 2 * (a.toNat / 2 / b.toNat) := by
        rw [BitVec.toNat_shiftLeft, hk, Nat.shiftLeft_eq]
        omega
      have hdiv := div_of_half a.toNat hpos
      have hqb : 2 * (a.toNat / 2 / b.toNat) * b.toNat ≤ a.toNat := by
        have hle := Nat.div_mul_le_self (a.toNat / 2) b.toNat
        rw [Nat.mul_assoc]
        omega
      have hr : (a - (a >>> 1 / b) <<< 1 * b).toNat = a.toNat - 2 * (a.toNat / 2 / b.toNat) * b.toNat := by
        rw [BitVec.toNat_sub, BitVec.toNat_mul, hq]
        omega
      dsimp only
      generalize (a >>> 1 / b) <<< 1 = q at *
      apply BitVec.eq_of_toNat_eq
      rw [BitVec.toNat_udiv, hdiv]
      split
      next hle =>
        rw [BitVec.le_def, hr] at hle
        rw [if_pos hle, BitVec.toNat_add, hq, show (1 : BitVec 64).toNat = 1 from rfl]
        omega
      next hle =>
        rw [BitVec.le_def, hr] at hle
        rw [if_neg hle, hq]

theorem umod64_spec (a b : BitVec 64) (hb : b ≠ 0) : umod64 a b = some (a % b) := by
  rw [umod64, udiv64_spec a b hb, Option.map_some, Option.some.injEq]
  apply BitVec.eq_of_toNat_eq
  have hless := a.isLt
  have hparts := Nat.div_add_mod a.toNat b.toNat
  have hproduct : (a / b * b).toNat = b.toNat * (a.toNat / b.toNat) := by
    rw [BitVec.toNat_mul, BitVec.toNat_udiv, Nat.mul_comm]
    omega
  rw [BitVec.toNat_sub_of_le (by rw [BitVec.le_def, hproduct]; omega), hproduct, BitVec.toNat_umod]
  omega

end Ussr.Usa
