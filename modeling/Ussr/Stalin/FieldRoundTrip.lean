import Ussr.Stalin.Fields

/-! Numbers, GUIDs and names that were written into their fields are read back. -/

namespace Ussr.Stalin
open ByteFields Codec Real64

section

variable {v : List UInt8} {i j n m : Nat} {x : Int}
variable {bytes : List UInt8} {u : Nat}

theorem wrap_of_bounds (hlo : -2 ^ 63 ≤ x) (hhi : x < 2 ^ 63) : wrap x = x := by
  unfold wrap
  rw [Int.bmod_eq_of_le] <;> omega

theorem wrap_bounds (x : Int) : -2 ^ 63 ≤ wrap x ∧ wrap x < 2 ^ 63 := by
  unfold wrap
  have hlo := Int.le_bmod (x := x) (m := 18446744073709551616) (by decide)
  have hhi := Int.bmod_lt (x := x) (m := 18446744073709551616) (by decide)
  constructor <;> omega

theorem wrap_add_multiple (x : Int) : ∃ q : Int, wrap x + 18446744073709551616 * q = x :=
  ⟨_, Int.bmod_add_bdiv x 18446744073709551616⟩

theorem wrap_emod (x : Int) : wrap (x % 18446744073709551616) = wrap x :=
  Int.emod_bmod ..

@[simp] theorem length_leBytes (n : Nat) (x : Int) : (leBytes n x).length = n :=
  length_putLE _ _

@[simp] theorem length_stPut (v : List UInt8) (i n : Nat) (x : Int) :
    (stPut v i n x).length = v.length :=
  length_putBytes _ _ _

theorem bytesAt_stPut (h : i + n ≤ v.length) : bytesAt (stPut v i n x) i n = leBytes n x :=
  bytesAt_putBytes_eq (by simpa using h) (length_leBytes n x)

theorem bytesAt_stPut_apart (h : i + n ≤ v.length) (hapart : j + m ≤ i ∨ i + n ≤ j) :
    bytesAt (stPut v i n x) j m = bytesAt v j m :=
  bytesAt_putBytes_apart (by simpa using h) (by simpa using hapart)

theorem stLe_stPut_eight (h : i + 8 ≤ v.length) (hlo : -2 ^ 63 ≤ x) (hhi : x < 2 ^ 63) :
    stLe (stPut v i 8 x) i 8 = x := by
  have hpos : 0 ≤ x % 18446744073709551616 := Int.emod_nonneg _ (by decide)
  have hlt : x % 18446744073709551616 < 18446744073709551616 := Int.emod_lt_of_pos _ (by decide)
  rw [stLe, bytesAt_stPut h, leBytes, ofLE_putLE (by omega), Int.toNat_of_nonneg hpos, wrap_emod]
  exact wrap_of_bounds hlo hhi

theorem stLe_stPut_small (h : i + n ≤ v.length) (hn : n < 8) (hlo : 0 ≤ x)
    (hhi : x < ((256 ^ n : Nat) : Int)) : stLe (stPut v i n x) i n = x := by
  have hpow : 256 ^ n ≤ 256 ^ 7 := Nat.pow_le_pow_right (by decide) (by omega)
  have hx : (x % 18446744073709551616).toNat = x.toNat := by
    rw [Int.emod_eq_of_lt hlo (by omega)]
  rw [stLe, bytesAt_stPut h, leBytes, hx, ofLE_putLE (by omega), Int.toNat_of_nonneg hlo]
  exact wrap_of_bounds (by omega) (by omega)

theorem stLe_bounds (v : List UInt8) (i n : Nat) : -2 ^ 63 ≤ stLe v i n ∧ stLe v i n < 2 ^ 63 :=
  wrap_bounds _

theorem stLe_small (hn : n < 8) : stLe v i n = ofLE (bytesAt v i n) ∧
    stLe v i n < ((256 ^ n : Nat) : Int) := by
  have hlt := ofLE_lt (bytesAt v i n)
  rw [length_bytesAt] at hlt
  have hpow : 256 ^ n ≤ 256 ^ 7 := Nat.pow_le_pow_right (by decide) (by omega)
  have heq : stLe v i n = ofLE (bytesAt v i n) := wrap_of_bounds (by omega) (by omega)
  exact ⟨heq, by omega⟩

theorem stLe_congr {w : List UInt8} (h : bytesAt v i n = bytesAt w i n) :
    stLe v i n = stLe w i n := by
  rw [stLe, h, stLe]

end

section

variable {a b rest r : Int} {n sh : Nat}

theorem stDivLoop_eq (hb : 0 < b) (hrest : 0 ≤ rest) (hlt : rest < b * 2 ^ n)
    (hfit : b * 2 ^ n < 2 ^ 64) : stDivLoop b n rest r = r + rest / b := by
  induction n generalizing rest r with
  | zero =>
    rw [pow_zero, mul_one] at hlt
    rw [stDivLoop, Int.ediv_eq_zero_of_lt hrest hlt, Int.add_zero]
  | succ n ih =>
    have hpow : b * 2 ^ (n + 1) = b * 2 ^ n + b * 2 ^ n := by ring
    have hpos : 0 < b * 2 ^ n := Int.mul_pos hb (by positivity)
    have hwrap : wrap (b * 2 ^ n) = b * 2 ^ n := wrap_of_bounds (by omega) (by omega)
    rw [stDivLoop, hwrap]
    split_ifs with hle
    · have hdiv : (rest - b * 2 ^ n) / b = rest / b - 2 ^ n := by
        rw [show rest - b * 2 ^ n = rest + b * -2 ^ n by ring, Int.add_mul_ediv_left _ _ hb.ne']
        ring
      rw [ih (by omega) (by omega) (by omega), hdiv]
      ring
    · exact ih hrest (by omega) (by omega)

theorem stDivShift_spec (hb : 0 < b) (ha : 0 ≤ a) (hfit : a < 2 ^ 63) (hbfit : b < 2 ^ 63)
    {turns : Nat} (hturns : turns + sh = 62) (hsh : sh = 0 ∨ b * 2 ^ sh ≤ a) :
    a < b * 2 ^ (stDivShift a b turns sh + 1) ∧ b * 2 ^ stDivShift a b turns sh < 2 ^ 63 := by
  have hbound : b * 2 ^ sh < 2 ^ 63 := by
    cases hsh with
    | inl hzero => simpa [hzero] using hbfit
    | inr hle => omega
  induction turns generalizing sh with
  | zero =>
    obtain rfl : sh = 62 := by omega
    refine ⟨?_, hbound⟩
    rw [stDivShift]
    omega
  | succ turns ih =>
    have hpow : b * 2 ^ (sh + 1) = b * 2 ^ sh + b * 2 ^ sh := by ring
    have hpos : 0 < b * 2 ^ sh := Int.mul_pos hb (by positivity)
    have hwrap : wrap (b * 2 ^ sh) = b * 2 ^ sh := wrap_of_bounds (by omega) hbound
    rw [stDivShift, hwrap]
    split_ifs with hle
    · exact ih (by omega) (.inr (by omega)) (by omega)
    · exact ⟨by omega, hbound⟩

theorem stDiv_eq (hb : 0 < b) (ha : 0 ≤ a) (hfit : a < 2 ^ 63) (hbfit : b < 2 ^ 63) :
    stDiv a b = a / b := by
  obtain ⟨hlt, hbound⟩ := stDivShift_spec hb ha hfit hbfit (by decide : 62 + 0 = 62) (.inl rfl)
  have hpow : b * 2 ^ (stDivShift a b 62 0 + 1) =
      b * 2 ^ stDivShift a b 62 0 + b * 2 ^ stDivShift a b 62 0 := by ring
  rw [stDiv, stDivLoop_eq hb ha hlt (by omega), Int.zero_add]

theorem stDivUp_eq (hb : 0 < b) (ha : 0 ≤ a) (hfit : a + b < 2 ^ 63) :
    stDivUp a b = (a + b - 1) / b := by
  rw [stDivUp, wrap_of_bounds (by omega) (by omega)]
  exact stDiv_eq hb (by omega) (by omega) (by omega)

end

section

variable {v : List UInt8} {i : Nat}

theorem stHexDigit_hexDigit {d : Nat} (h : d < 16) : stHexDigit (hexDigit d) = some d := by
  interval_cases d <;> rfl

theorem hexDigits_byte (b : UInt8) :
    UInt8.ofNat (b.toNat / 16 % 16 * 16 + b.toNat % 16) = b := by
  have hlt : b.toNat < 256 := b.toNat_lt
  rw [← UInt8.toNat_inj, UInt8.toNat_ofNat']
  omega

theorem guidBytes_dash {i : Nat} {s : Text} (hi : i = 8 ∨ i = 13 ∨ i = 18 ∨ i = 23) :
    guidBytes i (45 :: s) = guidBytes (i + 1) s := by
  rw [guidBytes.eq_def]
  exact (if_pos hi).trans (if_pos rfl)

theorem guidBytes_hex {i : Nat} {s : Text} (b : UInt8)
    (hi : ¬(i = 8 ∨ i = 13 ∨ i = 18 ∨ i = 23)) :
    guidBytes i (stHex b.toNat ++ s) = (guidBytes (i + 2) s).map (b :: ·) := by
  have hhigh : stHexDigit (hexDigit (b.toNat / 16 % 16)) = some (b.toNat / 16 % 16) :=
    stHexDigit_hexDigit (Nat.mod_lt _ (by decide))
  have hlow : stHexDigit (hexDigit (b.toNat % 16)) = some (b.toNat % 16) :=
    stHexDigit_hexDigit (Nat.mod_lt _ (by decide))
  show guidBytes i (hexDigit (b.toNat / 16 % 16) :: hexDigit (b.toNat % 16) :: s) = _
  rw [guidBytes, if_neg hi]
  simp only [hhigh, hlow, Option.bind_eq_bind, Option.bind_some, hexDigits_byte]
  cases guidBytes (i + 2) s <;> rfl

theorem stGuidParse_guidText (h : bytes.length = 16) :
    stGuidParse (guidText bytes) = some bytes := by
  match bytes, h with
  | [b0, b1, b2, b3, b4, b5, b6, b7, b8, b9, b10, b11, b12, b13, b14, b15], _ =>
    have htext : guidText [b0, b1, b2, b3, b4, b5, b6, b7, b8, b9, b10, b11, b12, b13, b14, b15] =
        stHex b0.toNat ++ (stHex b1.toNat ++ (stHex b2.toNat ++ (stHex b3.toNat ++ 45 ::
        (stHex b4.toNat ++ (stHex b5.toNat ++ 45 :: (stHex b6.toNat ++ (stHex b7.toNat ++ 45 ::
        (stHex b8.toNat ++ (stHex b9.toNat ++ 45 :: (stHex b10.toNat ++ (stHex b11.toNat ++
        (stHex b12.toNat ++ (stHex b13.toNat ++ (stHex b14.toNat ++ (stHex b15.toNat ++
        []))))))))))))))) := rfl
    rw [stGuidParse, htext, if_neg (by simp [stHex])]
    repeat first
      | rw [guidBytes_hex _ (by decide)]
      | rw [guidBytes_dash (by decide)]
    rfl

def diskOrder (bytes : List UInt8) : List UInt8 := stGuidOrder.map (byteAt bytes)

theorem length_diskOrder (bytes : List UInt8) : (diskOrder bytes).length = 16 := rfl

theorem diskOrder_diskOrder (h : bytes.length = 16) :
    diskOrder (diskOrder bytes) = bytes := by
  match bytes, h with
  | [b0, b1, b2, b3, b4, b5, b6, b7, b8, b9, b10, b11, b12, b13, b14, b15], _ => rfl

theorem guidPlaces_eq (h : bytes.length = 16) :
    guidPlaces v i bytes = putBytes v i (diskOrder bytes) := by
  match bytes, h with
  | [b0, b1, b2, b3, b4, b5, b6, b7, b8, b9, b10, b11, b12, b13, b14, b15], _ =>
    simp only [guidPlaces, stGuidOrder, diskOrder, List.zip_cons_cons, List.zip_nil_right,
      List.foldl_cons, List.foldl_nil, List.map_cons, List.map_nil, putBytes]
    simp only [byteAt, List.getD_cons_succ, List.getD_cons_zero, Nat.add_zero, Nat.add_assoc,
      Nat.reduceAdd]
    rw [List.set_comm _ _ (by omega : i + 3 ≠ i + 2), List.set_comm _ _ (by omega : i + 3 ≠ i + 1),
      List.set_comm _ _ (by omega : i + 3 ≠ i), List.set_comm _ _ (by omega : i + 2 ≠ i + 1),
      List.set_comm _ _ (by omega : i + 2 ≠ i), List.set_comm _ _ (by omega : i + 1 ≠ i),
      List.set_comm _ _ (by omega : i + 5 ≠ i + 4), List.set_comm _ _ (by omega : i + 7 ≠ i + 6)]

theorem stGuidText_eq (v : List UInt8) (i : Nat) :
    stGuidText v i = guidText (diskOrder (bytesAt v i 16)) := rfl

/-- A text that spells a GUID as `st_guid_text` does. -/
def IsGuid (text : Text) : Prop := ∃ bytes : List UInt8, bytes.length = 16 ∧ text = guidText bytes

theorem stGuidText_isGuid (v : List UInt8) (i : Nat) : IsGuid (stGuidText v i) :=
  ⟨_, length_diskOrder _, stGuidText_eq v i⟩

theorem stGuidPut_guidText (h : bytes.length = 16) :
    stGuidPut v i (guidText bytes) = some (putBytes v i (diskOrder bytes)) := by
  rw [stGuidPut, stGuidParse_guidText h, Option.map_some, guidPlaces_eq h]

theorem stGuidPut_isGuid {text : Text} (h : IsGuid text) (v : List UInt8) (i : Nat) :
    ∃ bytes, bytes.length = 16 ∧ stGuidPut v i text = some (putBytes v i bytes) ∧
      ∀ w j, bytesAt w j 16 = bytes → stGuidText w j = text := by
  obtain ⟨bytes, hlen, htext⟩ := h
  refine ⟨diskOrder bytes, length_diskOrder _, htext ▸ stGuidPut_guidText hlen, ?_⟩
  intro w j hbytes
  rw [stGuidText_eq, hbytes, diskOrder_diskOrder hlen, htext]

theorem stGuidClean_isGuid {text g : Text} (h : stGuidClean text = some g) : IsGuid g := by
  rw [stGuidClean, Option.map_eq_some_iff] at h
  obtain ⟨bytes, -, heq⟩ := h
  exact heq ▸ stGuidText_isGuid _ _

end

def IsUnit (u : Nat) : Prop := u < 65536 ∧ ¬(55296 ≤ u ∧ u < 57344)

/-- `u` in UTF-8. -/
def utf8 (u : Nat) : Text :=
  if u < 128 then [UInt8.ofNat u]
  else if u < 2048 then [UInt8.ofNat (192 + u / 64), UInt8.ofNat (128 + u % 64)]
  else [UInt8.ofNat (224 + u / 4096), UInt8.ofNat (128 + u / 64 % 64), UInt8.ofNat (128 + u % 64)]

theorem stUtf16Units_utf8 (h : IsUnit u) (s : Text) :
    stUtf16Units (utf8 u ++ s) = u :: stUtf16Units s := by
  have hbyte : ∀ n, n < 256 → (UInt8.ofNat n).toNat = n := fun n hn => by
    rw [UInt8.toNat_ofNat']
    omega
  have hu := h.1
  unfold utf8
  split_ifs with hone htwo
  · show stUtf16Units (UInt8.ofNat u :: s) = _
    rw [stUtf16Units.eq_def]
    simp only [hbyte u (by omega), if_pos hone]
  · show stUtf16Units (UInt8.ofNat (192 + u / 64) :: UInt8.ofNat (128 + u % 64) :: s) = _
    rw [stUtf16Units.eq_def]
    simp only [hbyte (192 + u / 64) (by omega), hbyte (128 + u % 64) (by omega)]
    rw [if_neg (by omega), if_pos (by omega)]
    congr 1
    omega
  · show stUtf16Units (UInt8.ofNat (224 + u / 4096) :: UInt8.ofNat (128 + u / 64 % 64) ::
      UInt8.ofNat (128 + u % 64) :: s) = _
    rw [stUtf16Units.eq_def]
    simp only [hbyte (224 + u / 4096) (by omega), hbyte (128 + u / 64 % 64) (by omega),
      hbyte (128 + u % 64) (by omega)]
    rw [if_neg (by omega), if_neg (by omega), if_pos (by omega)]
    congr 1
    omega

theorem stUtf16Units_flatMap {us : List Nat} (h : ∀ u ∈ us, IsUnit u) :
    stUtf16Units (us.flatMap utf8) = us := by
  induction us with
  | nil => rfl
  | cons u us ih =>
    rw [List.flatMap_cons, stUtf16Units_utf8 (h u List.mem_cons_self),
      ih fun w hw => h w (List.mem_cons_of_mem _ hw)]

def CleanName (name : Text) : Prop :=
  ∃ us : List Nat, (∀ u ∈ us, 32 ≤ u ∧ IsUnit u) ∧ us.length ≤ 36 ∧ name = us.flatMap utf8

theorem unitText_eq (h : u < 65536) :
    ∃ w, 32 ≤ w ∧ IsUnit w ∧ unitText u = utf8 w := by
  unfold unitText
  split_ifs with hcontrol hone htwo hsurrogate
  · exact ⟨63, by decide, ⟨by decide, by decide⟩, rfl⟩
  · exact ⟨u, by omega, ⟨h, by omega⟩, by rw [utf8, if_pos hone]⟩
  · exact ⟨u, by omega, ⟨h, by omega⟩, by rw [utf8, if_neg hone, if_pos htwo]⟩
  · exact ⟨63, by decide, ⟨by decide, by decide⟩, rfl⟩
  · exact ⟨u, by omega, ⟨h, hsurrogate⟩, by rw [utf8, if_neg hone, if_neg htwo]⟩

theorem unitText_unit (h : 32 ≤ u ∧ IsUnit u) : unitText u = utf8 u := by
  unfold unitText utf8
  rw [if_neg (by omega), if_neg h.2.2]

theorem stUtf16Text_clean (v : List UInt8) (i units : Nat) :
    ∃ us : List Nat, (∀ u ∈ us, 32 ≤ u ∧ IsUnit u) ∧ us.length ≤ units ∧
      stUtf16Text v i units = us.flatMap utf8 := by
  induction units generalizing i with
  | zero => exact ⟨[], fun u hu => absurd hu List.not_mem_nil, Nat.le_refl 0, rfl⟩
  | succ units ih =>
    rw [stUtf16Text]
    split_ifs with hzero
    · exact ⟨[], fun u hu => absurd hu List.not_mem_nil, Nat.zero_le _, rfl⟩
    · obtain ⟨us, hus, hlen, htext⟩ := ih (i + 2)
      have hlt := ofLE_lt (bytesAt v i 2)
      rw [length_bytesAt] at hlt
      obtain ⟨w, hprint, hunit, hw⟩ := unitText_eq hlt
      refine ⟨w :: us, fun u hu => ?_, by rw [List.length_cons]; omega, by rw [hw, htext]; rfl⟩
      cases List.mem_cons.mp hu with
      | inl heq => exact heq ▸ ⟨hprint, hunit⟩
      | inr hmem => exact hus u hmem

theorem stUtf16Text_units {v : List UInt8} {us : List Nat} (hus : ∀ u ∈ us, 32 ≤ u ∧ IsUnit u)
    {i units : Nat} (hlen : us.length ≤ units)
    (hread : ∀ k, k < units → ofLE (bytesAt v (i + 2 * k) 2) = us.getD k 0) :
    stUtf16Text v i units = us.flatMap utf8 := by
  induction units generalizing us i with
  | zero =>
    rw [List.eq_nil_of_length_eq_zero (Nat.le_zero.mp hlen)]
    rfl
  | succ units ih =>
    have hfirst := hread 0 (Nat.succ_pos _)
    rw [Nat.mul_zero, Nat.add_zero] at hfirst
    rw [stUtf16Text, hfirst]
    cases us with
    | nil => exact if_pos rfl
    | cons u us =>
      have hu := hus u List.mem_cons_self
      rw [List.getD_cons_zero, if_neg (by omega), unitText_unit hu, List.flatMap_cons]
      congr 1
      refine ih (fun w hw => hus w (List.mem_cons_of_mem _ hw)) (Nat.le_of_succ_le_succ hlen) ?_
      intro k hk
      rw [show i + 2 + 2 * k = i + 2 * (k + 1) by omega, hread (k + 1) (by omega),
        List.getD_cons_succ]

end Ussr.Stalin
