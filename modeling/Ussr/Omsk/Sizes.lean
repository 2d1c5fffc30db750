import Ussr.Omsk.Headers
import Ussr.Truncation

/-! The size that Omsk checks and the size that it decodes. -/

namespace Ussr

variable {v : List UInt8} {p q n turns : Nat} {s s' : Jpeg} {info : Info}

theorem truncLoop_le {x : Number} {bound : Int} (h : ∀ i, (Number.integer i).le x = true → i.toInt ≤ bound)
    (turns : Nat) (p i : BitVec 64) (hi : i.toInt ≤ bound) : (truncLoop x turns p i).toInt ≤ bound := by
  induction turns generalizing p i with
  | zero => exact hi
  | succ turns ih =>
    unfold truncLoop
    split
    · refine ih _ _ ?_
      split
      · rename_i hle
        exact h _ hle
      · exact hi
    · exact hi

theorem strTrunc_le {y : BitVec 64} {r : Nat} (hy : Real64.Unsigned y r) {bound : Int} (hbound : 0 ≤ bound)
    (h : ∀ i, (Number.integer i).le (.real y) = true → i.toInt ≤ bound) : (strTrunc (.real y)).toInt ≤ bound := by
  have hsign := hy.not_neg
  unfold strTrunc
  simp only [hsign, Bool.false_eq_true, if_false]
  split
  · refine truncLoop_le (fun i hi => ?_) 64 _ 0 hbound
    have hnonpos : i.toInt ≤ 0 := of_decide_eq_true hi
    omega
  · exact truncLoop_le h 64 _ 0 hbound

namespace Omsk
open Real64

theorem div_small {m b a : Nat} (ha : 1 ≤ a) (ha' : a ≤ 65535) (hb : 0 < b) (hm : m < 2 ^ 53) (hb' : b < 2 ^ 53) (hle : m ≤ a * b) :
    ∃ r, Unsigned (Real64.div (ofInt (BitVec.ofNat 64 m)) (ofInt (BitVec.ofNat 64 b))) r ∧ r < 0x7ff0000000000000 ∧
      amount (Real64.div (ofInt (BitVec.ofNat 64 m)) (ofInt (BitVec.ofNat 64 b))) ≤ a := by
  have hint {n : Nat} (hn : n < 2 ^ 53) : (BitVec.ofNat 64 n).toInt = n := toInt_ofNat_of_lt (by omega)
  have hquotient := div_eq (n := BitVec.ofNat 64 m) (d := BitVec.ofNat 64 b) (by rw [hint hm]; omega) (by rw [hint hb']; omega)
  have hmamount := amount_ofInt hm
  have hbamount := amount_ofInt hb'
  have hbpos : (0 : ℚ) < b := by exact_mod_cast hb
  have hdivisor : (magnitude (ofInt (BitVec.ofNat 64 b))).1 ≠ 0 := by
    intro hzero
    rw [amount, hzero, Nat.cast_zero, zero_div] at hbamount
    exact hbpos.ne hbamount
  have hround : ofRatio ((magnitude (ofInt (BitVec.ofNat 64 m))).1 * (magnitude (ofInt (BitVec.ofNat 64 b))).2)
      ((magnitude (ofInt (BitVec.ofNat 64 m))).2 * (magnitude (ofInt (BitVec.ofNat 64 b))).1) ≤ ofRatio a 1 := by
    refine ofRatio_mono (mul_ne_zero (magnitude_ne_zero _) hdivisor) one_ne_zero ?_
    push_cast
    rw [mul_div_mul_comm, div_one, ← inv_div ((magnitude (ofInt (BitVec.ofNat 64 b))).1 : ℚ)]
    change amount _ * (amount _)⁻¹ ≤ _
    rw [hmamount, hbamount, ← div_eq_mul_inv, div_le_iff₀ hbpos]
    exact_mod_cast hle
  have hlt : ofRatio a 1 < 0x7ff0000000000000 := by
    have hle : (a : ℚ) / (1 : Nat) ≤ (65535 : Nat) / (1 : Nat) := by
      rw [Nat.cast_one, div_one, div_one]
      exact_mod_cast ha'
    exact (ofRatio_mono one_ne_zero one_ne_zero hle).trans_lt (by decide +kernel)
  have hunsigned := unsigned_withSign (hround.trans hlt.le)
  rw [hquotient]
  refine ⟨_, hunsigned, hround.trans_lt hlt, ?_⟩
  have hexact := amount_ofRatio (n := a) (d := 1) (a := a) (j := 0) one_ne_zero ⟨ha, by omega⟩ (by omega) (by norm_num)
  rw [pow_zero, div_one] at hexact
  rw [← hexact]
  refine amount_mono ?_
  rw [hunsigned.toNat, BitVec.toNat_ofNat]
  omega

theorem fitShorter_le {a b : Nat} {side : BitVec 64} (ha : 1 ≤ a) (hab : a ≤ b) (hb : b ≤ 65535) (hpos : 1 ≤ side.toInt)
    (hside : side.toInt < b) : fitShorter a b side ≤ a := by
  obtain ⟨s, rfl, hs⟩ : ∃ s : Nat, side = BitVec.ofNat 64 s ∧ (s : Int) = side.toInt := by
    refine ⟨side.toNat, (BitVec.ofNat_toNat 64 side).symm.trans (by simp), ?_⟩
    rw [BitVec.toInt_eq_toNat_of_msb (BitVec.msb_eq_toInt ▸ decide_eq_false (by omega))]
  rw [← hs] at hpos hside
  have hproduct : a * s ≤ a * b := Nat.mul_le_mul_left a (by omega)
  have hsmall : a * s ≤ 65535 * 65535 := Nat.mul_le_mul (by omega) (by omega)
  obtain ⟨r, hx, hr, hamount⟩ := div_small ha (by omega) (by omega) (by omega) (by omega) hproduct
  have hhalf : Unsigned (BitVec.ofNat 64 (ofRatio 1 2)) (ofRatio 1 2) := unsigned_of_toNat (by decide +kernel) (ofRatio_le 1 2)
  have hhalfAmount : amount (BitVec.ofNat 64 (ofRatio 1 2)) = 1 / 2 := by
    have hexact := amount_ofRatio (n := 1) (d := 2) (a := 1) (j := 1) (by decide) (by decide) (by decide) (by norm_num)
    rw [hexact]
    norm_num
  have hsum := add_eq hx hhalf hr (by decide +kernel)
  unfold fitShorter
  rw [show BitVec.ofNat 64 a * BitVec.ofNat 64 s = BitVec.ofNat 64 (a * s) from (BitVec.ofNat_mul ..).symm]
  change (strTrunc (.real (add (Real64.div (ofInt (BitVec.ofNat 64 (a * s))) (ofInt (BitVec.ofNat 64 b)))
    (BitVec.ofNat 64 (ofRatio 1 2))))).toInt ≤ _
  rw [hsum]
  generalize Real64.div (ofInt (BitVec.ofNat 64 (a * s))) (ofInt (BitVec.ofNat 64 b)) = x at *
  generalize BitVec.ofNat 64 (ofRatio 1 2) = half at *
  have hround : ofRatio ((magnitude x).1 * (magnitude half).2 + (magnitude half).1 * (magnitude x).2)
      ((magnitude x).2 * (magnitude half).2) ≤ ofRatio (2 * a + 1) 2 := by
    have hxden : ((magnitude x).2 : ℚ) ≠ 0 := by exact_mod_cast magnitude_ne_zero x
    have hhden : ((magnitude half).2 : ℚ) ≠ 0 := by exact_mod_cast magnitude_ne_zero half
    refine ofRatio_mono (mul_ne_zero (magnitude_ne_zero _) (magnitude_ne_zero _)) two_ne_zero ?_
    calc _ = amount x + amount half := by
          unfold amount
          push_cast
          field_simp
      _ ≤ a + 1 / 2 := add_le_add hamount hhalfAmount.le
      _ = _ := by push_cast; ring
  generalize ofRatio ((magnitude x).1 * (magnitude half).2 + (magnitude half).1 * (magnitude x).2)
    ((magnitude x).2 * (magnitude half).2) = t at *
  have hy := unsigned_withSign (hround.trans (ofRatio_le _ _))
  refine strTrunc_le hy (by omega) fun i hle => ?_
  by_contra hgreater
  have hsucc : (BitVec.ofNat 64 (a + 1)).toInt = a + 1 := toInt_ofNat_of_lt (by omega)
  have hrank : rank (ofInt i) ≤ rank (withSign false t) := by
    have hparts : Real64.le (ofInt i) (withSign false t) = true := hle
    exact of_decide_eq_true (Bool.and_eq_true _ _ ▸ hparts).2
  rw [(unsigned_ofInt (by omega)).rank, hy.rank] at hrank
  have hexact := amount_ofRatio (n := 2 * a + 1) (d := 2) (a := 2 * a + 1) (j := 1) two_ne_zero (by omega) (by omega)
    (by norm_num)
  have hchain : ((a + 1 : Nat) : ℚ) ≤ ((2 * a + 1 : Nat) : ℚ) / 2 ^ 1 := by
    calc ((a + 1 : Nat) : ℚ) = amount (ofInt (BitVec.ofNat 64 (a + 1))) := (amount_ofInt (by omega)).symm
      _ ≤ amount (ofInt i) := amount_ofInt_mono (by omega) (by omega)
      _ ≤ amount (BitVec.ofNat 64 (ofRatio (2 * a + 1) 2)) := by
        refine amount_mono ?_
        have hlow := (ofInt_bounds (n := i) (by omega)).2
        have hhigh := ofRatio_le (2 * a + 1) 2
        rw [BitVec.toNat_ofNat]
        omega
      _ = _ := hexact
  push_cast at hchain
  linarith

theorem omskFit_le {w h : Nat} {side : BitVec 64} (hw : 1 ≤ w ∧ w ≤ 65535) (hh : 1 ≤ h ∧ h ≤ 65535) (hside : 1 ≤ side.toInt) :
    (omskFit w h side).1 ≤ w ∧ (omskFit w h side).2 ≤ h := by
  unfold omskFit
  split
  rename_i tw th hfit
  split at hfit
  · rename_i hsmaller
    split at hfit
    · rename_i hwide
      have hshorter := fitShorter_le hh.1 hwide hw.2 hside (by omega)
      cases hfit
      constructor <;> split <;> omega
    · rename_i hwide
      have hshorter := fitShorter_le hw.1 (by omega) hh.2 hside (by omega)
      cases hfit
      constructor <;> split <;> omega
  · cases hfit
    constructor <;> split <;> omega

def u16At (v : List UInt8) (p : Nat) : Nat := (omskU16 v p).toOption.getD 0

def u32At (v : List UInt8) (p : Nat) : Nat := (omskU32 v p).toOption.getD 0

theorem u16At_eq (h : omskU16 v p = .ok n) : u16At v p = n := by rw [u16At, h]; rfl

theorem u32At_eq (h : omskU32 v p = .ok n) : u32At v p = n := by rw [u32At, h]; rfl

theorem byteAt_lt (h : byteAt v p = .ok n) : p < v.length := by
  by_contra hout
  rw [byteAt, itemAt, List.getElem?_eq_none (by omega)] at h
  cases h

theorem byteAt_get (h : byteAt v p = .ok n) : ∃ b : UInt8, v[p]? = some b ∧ b.toNat = n := by
  unfold byteAt itemAt at h
  cases hb : v[p]? with
  | none =>
    rw [hb] at h
    cases h
  | some b =>
    rw [hb] at h
    cases h
    exact ⟨b, rfl, rfl⟩

theorem omskU16_of_lt (h : p + 1 < v.length) : omskU16 v p = .ok (u16At v p) := by
  have hread : ∃ n, omskU16 v p = .ok n := by
    rw [omskU16, byteAt, byteAt, itemAt, itemAt, List.getElem?_eq_getElem h, List.getElem?_eq_getElem (show p < v.length by omega)]
    exact ⟨_, rfl⟩
  obtain ⟨n, hn⟩ := hread
  rw [hn, u16At_eq hn]

structure Part where
  kind : Nat
  place : Nat
  deriving DecidableEq

/-- The whole chunks before IEND, from the one at `p` on. -/
def pngParts (v : List UInt8) : (turns p : Nat) → List Part
  | 0, _ => []
  | turns + 1, p =>
    if p + 12 ≤ v.length ∧ p + 8 + u32At v p + 4 ≤ v.length ∧ u32At v (p + 4) ≠ 1229278788 then
      ⟨u32At v (p + 4), p + 8⟩ :: pngParts v turns (p + 8 + u32At v p + 4)
    else []

/-- The segments before the scan, from the one at `p` on. -/
def jpegParts (v : List UInt8) : (turns p : Nat) → List Part
  | 0, _ => []
  | turns + 1, p =>
    if p + 4 ≤ v.length then
      if v[p + 1]? = some 255 then jpegParts v turns (p + 1)
      else if v[p + 1]? = some 218 then []
      else ⟨v[p + 1]?.elim 0 UInt8.toNat, p + 4⟩ :: jpegParts v turns (p + 2 + u16At v (p + 2))
    else []

def pngSizes (v : List UInt8) (parts : List Part) : List (Nat × Nat) :=
  (parts.filter (·.kind = 1229472850)).map fun c => (u32At v c.place, u32At v (c.place + 4))

def jpegSizes (v : List UInt8) (parts : List Part) : List (Nat × Nat) :=
  (parts.filter (isFrame ·.kind)).map fun c => (u16At v (c.place + 3), u16At v (c.place + 1))

theorem pngSizes_cons (v : List UInt8) (type q : Nat) (parts : List Part) : pngSizes v (⟨type, q⟩ :: parts) =
    if type = 1229472850 then (u32At v q, u32At v (q + 4)) :: pngSizes v parts else pngSizes v parts := by
  unfold pngSizes
  rw [List.filter_cons]
  by_cases htype : type = 1229472850
  · rw [if_pos (decide_eq_true htype), if_pos htype, List.map_cons]
  · rw [if_neg (by simpa using htype), if_neg htype]

theorem jpegSizes_cons (v : List UInt8) (m q : Nat) (parts : List Part) : jpegSizes v (⟨m, q⟩ :: parts) =
    if isFrame m then (u16At v (q + 3), u16At v (q + 1)) :: jpegSizes v parts else jpegSizes v parts := by
  unfold jpegSizes
  rw [List.filter_cons]
  split <;> rfl

theorem pngChunk_size {type l : Nat} {s s' : Png} (h : pngChunk v type q l s = .ok s') :
    (s'.w, s'.h) = if type = 1229472850 then (u32At v q, u32At v (q + 4)) else (s.w, s.h) := by
  unfold pngChunk at h
  split at h
  · rename_i htype
    obtain ⟨w, hw, h⟩ := Codec.except_bind_ok h
    obtain ⟨height, hheight, h⟩ := Codec.except_bind_ok h
    obtain ⟨_, _, h⟩ := Codec.except_bind_ok h
    obtain ⟨_, _, h⟩ := Codec.except_bind_ok h
    obtain ⟨_, _, h⟩ := Codec.except_bind_ok h
    cases h
    rw [if_pos htype, u32At_eq hw, u32At_eq hheight]
  · rename_i htype
    rw [if_neg htype]
    split at h
    · obtain ⟨_, _, h⟩ := Codec.except_bind_ok h
      cases h
      rfl
    split at h
    · obtain ⟨_, _, h⟩ := Codec.except_bind_ok h
      cases h
      rfl
    split at h
    · obtain ⟨_, _, h⟩ := Codec.except_bind_ok h
      cases h
      rfl
    · cases h
      rfl

theorem pngLoop_size {s s' : Png} (h : pngLoop v turns p s = .ok s') :
    (s'.w, s'.h) = (pngSizes v (pngParts v turns p)).getLast?.getD (s.w, s.h) := by
  induction turns generalizing p s with
  | zero =>
    cases h
    rfl
  | succ turns ih =>
    unfold pngLoop at h
    unfold pngParts
    split at h
    · rename_i hroom
      obtain ⟨l, hl, h⟩ := Codec.except_bind_ok h
      obtain ⟨type, htype, h⟩ := Codec.except_bind_ok h
      rw [u32At_eq hl, u32At_eq htype]
      simp only at h
      split at h
      · cases h
      rename_i hwhole
      split at h
      · rename_i hend
        cases h
        rw [if_neg fun hpart => hpart.2.2 hend]
        rfl
      rename_i hend
      obtain ⟨s₁, hchunk, hrest⟩ := Codec.except_bind_ok h
      have hsize := pngChunk_size hchunk
      rw [if_pos ⟨hroom, by omega, hend⟩, ih hrest, hsize, pngSizes_cons]
      split
      · rw [List.getLast?_cons, Option.getD_some]
      · rfl
    · rename_i hroom
      cases h
      rw [if_neg fun hpart => hroom hpart.1]
      rfl

theorem omskPngHead_size {s : Png} (h : omskPngHead v = .ok s) :
    (pngSizes v (pngParts v v.length 8)).getLast? = some (s.w, s.h) := by
  obtain ⟨sig, _, h⟩ := Codec.except_bind_ok h
  split at h
  · cases h
  obtain ⟨s₁, hloop, h⟩ := Codec.except_bind_ok h
  have hsize := pngLoop_size hloop
  split at h
  · cases h
  rename_i hw
  repeat
    split at h
    · cases h
  cases h
  cases hlast : (pngSizes v (pngParts v v.length 8)).getLast? with
  | none =>
    rw [hlast] at hsize
    exact absurd (congrArg Prod.fst hsize) hw
  | some last =>
    rw [hlast] at hsize
    exact congrArg some hsize.symm

theorem frameComponent_size {k : Nat} (h : frameComponent v q k s = .ok s') :
    s'.w = s.w ∧ s'.h = s.h ∧ s'.nc = s.nc := by
  obtain ⟨_, _, h⟩ := Codec.except_bind_ok h
  obtain ⟨_, _, h⟩ := Codec.except_bind_ok h
  simp only at h
  split at h
  · cases h
  · obtain ⟨_, _, h⟩ := Codec.except_bind_ok h
    cases h
    exact ⟨rfl, rfl, rfl⟩

theorem frameComponents_size {ks : List Nat}
    (h : ks.foldlM (fun s k => frameComponent v q k s) s = .ok s') : s'.w = s.w ∧ s'.h = s.h ∧ s'.nc = s.nc := by
  induction ks generalizing s with
  | nil =>
    cases h
    exact ⟨rfl, rfl, rfl⟩
  | cons k ks ih =>
    rw [List.foldlM_cons] at h
    obtain ⟨s₁, hfirst, hrest⟩ := Codec.except_bind_ok h
    obtain ⟨hw, hh, hnc⟩ := frameComponent_size hfirst
    obtain ⟨hw', hh', hnc'⟩ := ih hrest
    exact ⟨hw'.trans hw, hh'.trans hh, hnc'.trans hnc⟩

theorem frameHeader_size (h : frameHeader v q s = .ok s') :
    (s'.w, s'.h) = (u16At v (q + 3), u16At v (q + 1)) ∧ q + 5 < v.length := by
  obtain ⟨_, _, h⟩ := Codec.except_bind_ok h
  obtain ⟨height, hheight, h⟩ := Codec.except_bind_ok h
  obtain ⟨w, hw, h⟩ := Codec.except_bind_ok h
  obtain ⟨nc, hnc, h⟩ := Codec.except_bind_ok h
  split at h
  · cases h
  · obtain ⟨hw', hh', _⟩ := frameComponents_size h
    rw [hw', hh', u16At_eq hw, u16At_eq hheight]
    exact ⟨rfl, byteAt_lt hnc⟩

theorem jpegSegment_size {m se : Nat} (h : jpegSegment v m q se s = .ok s') :
    if isFrame m then (s'.w, s'.h) = (u16At v (q + 3), u16At v (q + 1)) ∧ q + 5 < v.length
    else (s'.w, s'.h) = (s.w, s.h) ∧ s'.nc = s.nc := by
  unfold jpegSegment at h
  split at h
  · rename_i hm
    subst hm
    obtain ⟨_, _, h⟩ := Codec.except_bind_ok h
    cases h
    exact ⟨rfl, rfl⟩
  split at h
  · rename_i hm
    subst hm
    obtain ⟨_, _, h⟩ := Codec.except_bind_ok h
    cases h
    exact ⟨rfl, rfl⟩
  split at h
  · rename_i hm
    rw [if_pos (by rcases hm with rfl | rfl <;> rfl)]
    exact frameHeader_size h
  split at h
  · cases h
  rename_i hframe
  rw [if_neg hframe]
  split at h
  · obtain ⟨_, _, h⟩ := Codec.except_bind_ok h
    cases h
    exact ⟨rfl, rfl⟩
  · cases h
    exact ⟨rfl, rfl⟩

theorem scanHeader_size {se : Nat} {scan : Scan} (h : scanHeader v q se s = .ok scan) :
    (scan.w, scan.h) = (s.w, s.h) ∧ s.nc ≠ 0 := by
  unfold scanHeader at h
  split at h
  · cases h
  rename_i hnc
  obtain ⟨ns, _, h⟩ := Codec.except_bind_ok h
  split at h
  · cases h
  obtain ⟨tables, _, h⟩ := Codec.except_bind_ok h
  split at h
  · cases h
  simp only at h
  split at h <;>
  · cases h
    exact ⟨rfl, hnc⟩

theorem infoLoop_succ {a m : Nat} (hroom : p + 9 < v.length) (ha : byteAt v p = .ok a)
    (ha255 : a = 255) (hm : byteAt v (p + 1) = .ok m) : infoLoop v (turns + 1) p =
      if m = 255 then infoLoop v turns (p + 1)
      else if isFrame m then .ok (some ⟨.jpeg, u16At v (p + 7), u16At v (p + 5)⟩)
      else infoLoop v turns (p + 2 + u16At v (p + 2)) := by
  rw [infoLoop, if_pos hroom, ha, hm, omskU16_of_lt (by omega), omskU16_of_lt (by omega), omskU16_of_lt (by omega)]
  subst ha255
  rfl

/-- The size that the segments leave is the last one given; `omsk_info`, on the same walk, finds the first. -/
theorem jpegLoop_size {scan : Scan} (h : jpegLoop v turns p s = .ok scan) :
    (scan.w, scan.h) = (jpegSizes v (jpegParts v turns p)).getLast?.getD (s.w, s.h) ∧
      (s.nc = 0 → ∃ first, (jpegSizes v (jpegParts v turns p)).head? = some first ∧ p + 9 < v.length ∧
        infoLoop v turns p = .ok (some ⟨.jpeg, first.1, first.2⟩)) := by
  induction turns generalizing p s with
  | zero => cases h
  | succ turns ih =>
    unfold jpegLoop at h
    unfold jpegParts
    split at h
    · cases h
    rename_i hroom
    obtain ⟨a, ha, h⟩ := Codec.except_bind_ok h
    obtain ⟨m, hm, h⟩ := Codec.except_bind_ok h
    split at h
    · cases h
    rename_i ha255
    rw [not_not] at ha255
    obtain ⟨b, hb, hbm⟩ := byteAt_get hm
    rw [if_pos (by omega), hb]
    split at h
    · rename_i hfill
      have hb255 : b = 255 := UInt8.toNat_inj.mp (hbm.trans hfill)
      rw [if_pos (congrArg some hb255)]
      obtain ⟨hlast, hfirst⟩ := ih h
      refine ⟨hlast, fun hnc => ?_⟩
      obtain ⟨first, hhead, hplace, hinfo⟩ := hfirst hnc
      refine ⟨first, hhead, by omega, ?_⟩
      rw [infoLoop_succ (by omega) ha ha255 hm, if_pos hfill, hinfo]
    rename_i hfill
    rw [if_neg fun hb255 => hfill (by rw [← hbm, Option.some.inj hb255]; rfl)]
    split at h
    · cases h
    obtain ⟨l, hl, h⟩ := Codec.except_bind_ok h
    simp only at h
    split at h
    · cases h
    split at h
    · rename_i hscan
      obtain ⟨hsize, hnc⟩ := scanHeader_size h
      have hb218 : b = 218 := UInt8.toNat_inj.mp (hbm.trans hscan)
      rw [if_pos (congrArg some hb218)]
      exact ⟨hsize, fun hzero => absurd hzero hnc⟩
    rename_i hscan
    obtain ⟨s₁, hsegment, hrest⟩ := Codec.except_bind_ok h
    have hsize := jpegSegment_size hsegment
    rw [if_neg fun hb218 => hscan (by rw [← hbm, Option.some.inj hb218]; rfl), u16At_eq hl, Option.elim_some, hbm, jpegSizes_cons]
    obtain ⟨hlast, hfirst⟩ := ih hrest
    split at hsize
    · rename_i hframe
      obtain ⟨hsize, hplace⟩ := hsize
      rw [if_pos hframe, List.getLast?_cons, Option.getD_some, List.head?_cons, hlast, hsize]
      refine ⟨rfl, fun hnc => ⟨_, rfl, by omega, ?_⟩⟩
      rw [infoLoop_succ (by omega) ha ha255 hm, if_neg hfill, if_pos hframe]
    · rename_i hframe
      obtain ⟨hsize, hkept⟩ := hsize
      rw [if_neg hframe, hlast, hsize]
      refine ⟨rfl, fun hnc => ?_⟩
      obtain ⟨first, hhead, hplace, hinfo⟩ := hfirst (hkept.trans hnc)
      refine ⟨first, hhead, by omega, ?_⟩
      rw [infoLoop_succ (by omega) ha ha255 hm, if_neg hfill, if_neg hframe, u16At_eq hl, hinfo]

theorem infoLoop_kind (h : infoLoop v turns p = .ok (some info)) :
    info.kind = .jpeg := by
  induction turns generalizing p with
  | zero => cases h
  | succ turns ih =>
    unfold infoLoop at h
    split at h
    · obtain ⟨_, _, h⟩ := Codec.except_bind_ok h
      obtain ⟨_, _, h⟩ := Codec.except_bind_ok h
      split at h
      · cases h
      split at h
      · exact ih h
      split at h
      · obtain ⟨_, _, h⟩ := Codec.except_bind_ok h
        obtain ⟨_, _, h⟩ := Codec.except_bind_ok h
        cases h
        rfl
      · obtain ⟨_, _, h⟩ := Codec.except_bind_ok h
        exact ih h
    · cases h

theorem omskInfo_cases (h : omskInfo v = .ok (some info)) :
    (info.kind = .png ∧ v[0]? = some 137 ∧ (info.w, info.h) = (u32At v 16, u32At v 20)) ∨
      (info.kind = .jpeg ∧ v[0]? ≠ some 137 ∧ infoLoop v v.length 2 = .ok (some info)) := by
  unfold omskInfo at h
  split at h
  · cases h
  obtain ⟨a, ha, h⟩ := Codec.except_bind_ok h
  obtain ⟨b, _, h⟩ := Codec.except_bind_ok h
  obtain ⟨first, hfirst, hbyte⟩ := byteAt_get ha
  split at h
  · rename_i hpng
    obtain ⟨w, hw, h⟩ := Codec.except_bind_ok h
    obtain ⟨height, hheight, h⟩ := Codec.except_bind_ok h
    cases h
    refine .inl ⟨rfl, ?_, ?_⟩
    · rw [hfirst, UInt8.toNat_inj.mp (hbyte.trans hpng.1 : first.toNat = (137 : UInt8).toNat)]
    · rw [u32At_eq hw, u32At_eq hheight]
  split at h
  · cases h
  rename_i hjpeg
  refine .inr ⟨infoLoop_kind h, fun hpng => hjpeg (.inl ?_), h⟩
  rw [← hbyte, Option.some.inj (hfirst.symm.trans hpng)]
  decide

def SaysOneSize (v : List UInt8) : Prop :=
  if v[0]? = some 137 then (pngSizes v (pngParts v v.length 8)).getLast? = some (u32At v 16, u32At v 20)
  else (jpegSizes v (jpegParts v v.length 2)).getLast? = (jpegSizes v (jpegParts v v.length 2)).head?

structure Decode.Limited (maxPixels : Int) (v : List UInt8) (d : Decode) : Prop where
  reported : ∃ kind, omskInfo v = .ok (some ⟨kind, d.picture.w, d.picture.h⟩)
  pixels : (d.picture.w * d.picture.h : Nat) ≤ maxPixels
  sides : d.picture.w ≤ 65535 ∧ d.picture.h ≤ 65535
  thumb : d.tw ≤ d.picture.w ∧ d.th ≤ d.picture.h

theorem png_size_iff {s : Png} (hinfo : omskInfo v = .ok (some info)) (hkind : info.kind = .png)
    (h : omskPngHead v = .ok s) : SaysOneSize v ↔ (s.w, s.h) = (info.w, info.h) := by
  obtain ⟨_, hfirst, hsize⟩ | ⟨hjpeg, _⟩ := omskInfo_cases hinfo
  · rw [SaysOneSize, if_pos hfirst, omskPngHead_size h, hsize, Option.some_inj]
  · rw [hkind] at hjpeg
    cases hjpeg

theorem jpeg_size_iff {s : Scan} (hinfo : omskInfo v = .ok (some info)) (hkind : info.kind = .jpeg)
    (h : omskJpegHead v = .ok s) : SaysOneSize v ↔ (s.w, s.h) = (info.w, info.h) := by
  obtain ⟨hpng, _⟩ | ⟨_, hfirst, hloop⟩ := omskInfo_cases hinfo
  · rw [hkind] at hpng
    cases hpng
  obtain ⟨hlast, hfound⟩ := jpegLoop_size h
  obtain ⟨first, hhead, _, hinfo'⟩ := hfound rfl
  obtain rfl : info = ⟨.jpeg, first.1, first.2⟩ := Option.some.inj (Except.ok.inj (hloop.symm.trans hinfo'))
  rw [SaysOneSize, if_neg hfirst, hhead, hlast]
  generalize jpegSizes v (jpegParts v v.length 2) = sizes at *
  cases sizes with
  | nil => cases hhead
  | cons size sizes =>
    rw [List.getLast?_cons, Option.getD_some, Option.some_inj]

/-- What `omsk_thumb` has checked where it goes on to decode. -/
structure Decode.Checked (maxPixels : Int) (v : List UInt8) (d : Decode) : Prop where
  reported : omskInfo v = .ok (some d.info)
  pixels : (d.info.w * d.info.h : Nat) ≤ maxPixels
  sides : d.info.w ≤ 65535 ∧ d.info.h ≤ 65535
  thumb : d.tw ≤ d.info.w ∧ d.th ≤ d.info.h
  agrees : SaysOneSize v ↔ (d.picture.w, d.picture.h) = (d.info.w, d.info.h)

theorem omskDecode_checked {maxPixels : Int} {side : BitVec 64} (hside : 1 ≤ side.toInt) {d : Decode}
    (h : omskDecode maxPixels v side = .ok d) : d.Checked maxPixels v := by
  obtain ⟨info, hinfo, h⟩ := Codec.except_bind_ok h
  cases info with
  | none => cases h
  | some info =>
    rw [Option.elim_some] at h
    split at h
    · cases h
    rename_i hlimits
    have hw : 1 ≤ info.w ∧ info.w ≤ 65535 := by omega
    have hh : 1 ≤ info.h ∧ info.h ≤ 65535 := by omega
    have hfit := omskFit_le hw hh hside
    have hpixels : (info.w * info.h : Nat) ≤ maxPixels := by omega
    have hsides : info.w ≤ 65535 ∧ info.h ≤ 65535 := by omega
    rw [if_neg (by omega)] at h
    simp only at h
    split at h
    · rename_i hkind
      cases hhead : omskPngHead v with
      | error e =>
        rw [hhead] at h
        cases h
      | ok s =>
        rw [hhead] at h
        cases h
        exact ⟨hinfo, hpixels, hsides, hfit, png_size_iff hinfo hkind hhead⟩
    · rename_i hkind
      cases hhead : omskJpegHead v with
      | error e =>
        rw [hhead] at h
        cases h
      | ok s =>
        rw [hhead] at h
        cases h
        exact ⟨hinfo, hpixels, hsides, hfit, jpeg_size_iff hinfo hkind hhead⟩

/-- Where Omsk goes on to decode, the decoder's picture is the one that was checked, and the thumbnail is
given with its size, exactly where the headers agree on one size. -/
theorem omskDecode_limited_iff (maxPixels : Int) (v : List UInt8) (side : BitVec 64) (hside : 1 ≤ side.toInt) (d : Decode)
    (h : omskDecode maxPixels v side = .ok d) :
    (d.Limited maxPixels v ∧ ∀ (Rgb : Type) (pixels : Picture → Int → Int → Except Fault Rgb)
      (encode : Rgb → Int → Int → Except Fault (List UInt8)) (t : Thumb), omskThumb pixels encode maxPixels v side = .ok t →
        (t.w, t.h, t.tw, t.th) = (d.picture.w, d.picture.h, d.tw, d.th)) ↔ SaysOneSize v := by
  have hchecked := omskDecode_checked hside h
  constructor
  · rintro ⟨hlimited, _⟩
    obtain ⟨kind, hreported⟩ := hlimited.reported
    have hsame : d.info = ⟨kind, d.picture.w, d.picture.h⟩ := Option.some.inj (Except.ok.inj (hchecked.reported.symm.trans hreported))
    exact hchecked.agrees.mpr (by rw [hsame])
  · intro hone
    have hsize := hchecked.agrees.mp hone
    obtain ⟨hw, hh⟩ : d.picture.w = d.info.w ∧ d.picture.h = d.info.h := ⟨congrArg Prod.fst hsize, congrArg Prod.snd hsize⟩
    refine ⟨⟨⟨d.info.kind, ?_⟩, ?_, ?_, ?_⟩, ?_⟩
    · rw [hw, hh]
      exact hchecked.reported
    · rw [hw, hh]
      exact hchecked.pixels
    · rw [hw, hh]
      exact hchecked.sides
    · rw [hw, hh]
      exact hchecked.thumb
    · intro Rgb pixels encode t ht
      obtain ⟨d', hd', ht⟩ := Codec.except_bind_ok ht
      obtain ⟨_, _, ht⟩ := Codec.except_bind_ok ht
      obtain ⟨_, _, ht⟩ := Codec.except_bind_ok ht
      obtain rfl : d = d' := Except.ok.inj (h.symm.trans hd')
      cases ht
      rw [hw, hh]

def pngOf (headers : List (List UInt8)) : List UInt8 :=
  [137, 80, 78, 71, 13, 10, 26, 10] ++
    headers.flatMap (fun size => [0, 0, 0, 13, 73, 72, 68, 82] ++ size ++ [8, 0, 0, 0, 0, 0, 0, 0, 0]) ++
    [0, 0, 0, 0, 73, 69, 78, 68, 174, 66, 96, 130]

theorem omskDecode_limited_iff_one : ∃ d, omskDecode 4194304 (pngOf [[0, 0, 0, 2, 0, 0, 0, 3]]) 200 = .ok d ∧
    d.Limited 4194304 (pngOf [[0, 0, 0, 2, 0, 0, 0, 3]]) ∧ (d.picture.w, d.picture.h) = (2, 3) := by
  have hreached : omskDecode 4194304 (pngOf [[0, 0, 0, 2, 0, 0, 0, 3]]) 200 =
      .ok ⟨⟨.png, 2, 3⟩, .png ⟨2, 3, 8, 0, 0, none, [], []⟩, 2, 3⟩ := by
    decide +kernel
  have hone : SaysOneSize (pngOf [[0, 0, 0, 2, 0, 0, 0, 3]]) := by
    unfold SaysOneSize
    decide +kernel
  have hside : 1 ≤ (200 : BitVec 64).toInt := by decide
  exact ⟨_, hreached, ((omskDecode_limited_iff 4194304 _ 200 hside _ hreached).mpr hone).1, rfl⟩

/-- The second header is the one that is decoded: 65535 by 65535 where 1 by 1 was checked. -/
theorem second_header_decoded : ∃ d,
    omskDecode 4194304 (pngOf [[0, 0, 0, 1, 0, 0, 0, 1], [0, 0, 255, 255, 0, 0, 255, 255]]) 200 = .ok d ∧
      (d.info.w, d.info.h) = (1, 1) ∧ (d.picture.w, d.picture.h) = (65535, 65535) ∧
      ¬d.Limited 4194304 (pngOf [[0, 0, 0, 1, 0, 0, 0, 1], [0, 0, 255, 255, 0, 0, 255, 255]]) := by
  have hreached : omskDecode 4194304 (pngOf [[0, 0, 0, 1, 0, 0, 0, 1], [0, 0, 255, 255, 0, 0, 255, 255]]) 200 =
      .ok ⟨⟨.png, 1, 1⟩, .png ⟨65535, 65535, 8, 0, 0, none, [], []⟩, 1, 1⟩ := by
    decide +kernel
  exact ⟨_, hreached, rfl, rfl, fun hlimited => absurd hlimited.pixels (by decide)⟩

end Omsk

end Ussr
