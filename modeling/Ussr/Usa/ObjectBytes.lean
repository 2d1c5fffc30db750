import Ussr.Usa.Layout

/-! Objects of usa become bytes and come back: `__memcpy_t`, `__fwrite_t` and `__fread_t` with the layouts of
the compiler. -/

namespace Ussr.Usa.Layout

variable {x : BitVec 64} {q p : Nat} {s : Scalar}

theorem littleEndian_congr {y : BitVec 64} {n : Nat} (h : ∀ i < 8 * n, x.getLsbD i = y.getLsbD i) :
    littleEndian n x = littleEndian n y := by
  induction n generalizing x y with
  | zero => rfl
  | succ n ih =>
    have hfirst : x.setWidth 8 = y.setWidth 8 := by
      apply BitVec.eq_of_getLsbD_eq
      intro i hi
      simp only [BitVec.getLsbD_setWidth, h i (by omega)]
    have hrest : littleEndian n (x >>> 8) = littleEndian n (y >>> 8) := by
      apply ih
      intro i hi
      rw [BitVec.getLsbD_ushiftRight, BitVec.getLsbD_ushiftRight, h (8 + i) (by omega)]
    rw [littleEndian, littleEndian, hfirst, hrest]

@[simp] theorem length_littleEndian (n : Nat) (x : BitVec 64) : (littleEndian n x).length = n := by
  induction n generalizing x with
  | zero => rfl
  | succ n ih => rw [littleEndian, List.length_cons, ih]

theorem getLsbD_unsignedCast (n : Nat) (x : BitVec 64) (i : Nat) :
    (unsignedCast n x).getLsbD i = (decide (i < 64) && (decide (i < n) && x.getLsbD i)) := by
  rw [unsignedCast, BitVec.getLsbD_setWidth, BitVec.getLsbD_setWidth]

theorem littleEndian_unsignedCast {n k : Nat} (hn : 8 * n ≤ k) (hk : k ≤ 64) (x : BitVec 64) :
    littleEndian n (unsignedCast k x) = littleEndian n x := by
  apply littleEndian_congr
  intro i hi
  have hlow : decide (i < 64) = true := decide_eq_true (by omega)
  have hkept : decide (i < k) = true := decide_eq_true (by omega)
  rw [getLsbD_unsignedCast, hlow, hkept, Bool.true_and, Bool.true_and]

theorem and_byte (x : BitVec 64) : x &&& 255 = (x.setWidth 8).setWidth 64 := by
  apply BitVec.eq_of_getLsbD_eq
  intro i hi
  have hmask : (255 : BitVec 64).getLsbD i = decide (i < 8) := by
    have hall : ∀ i < 64, (255 : BitVec 64).getLsbD i = decide (i < 8) := by decide
    exact hall i hi
  rw [BitVec.getLsbD_and, hmask, BitVec.getLsbD_setWidth, BitVec.getLsbD_setWidth, decide_eq_true hi, Bool.true_and,
    Bool.and_comm]

theorem shift_or_byte (x : BitVec 64) (k : Nat) :
    x >>> (8 * (k + 1)) <<< 8 ||| (x >>> (8 * k)) &&& 255 = x >>> (8 * k) := by
  rw [and_byte]
  apply BitVec.eq_of_getLsbD_eq
  intro i hi
  rw [BitVec.getLsbD_or, BitVec.getLsbD_shiftLeft, BitVec.getLsbD_setWidth, BitVec.getLsbD_setWidth,
    BitVec.getLsbD_ushiftRight, BitVec.getLsbD_ushiftRight, decide_eq_true hi, Bool.true_and, Bool.true_and]
  by_cases hlow : i < 8
  · rw [decide_eq_true hlow, Bool.not_true, Bool.false_and, Bool.false_or, Bool.true_and]
  · have hindex : 8 * (k + 1) + (i - 8) = 8 * k + i := by omega
    rw [decide_eq_false hlow, hindex]
    simp

theorem gather_bytes {byte : Nat → BitVec 64} {n : Nat} (h : ∀ j < n, byte j = x >>> (8 * j) &&& 255) :
    gather byte n (x >>> (8 * n)) = x := by
  induction n with
  | zero => exact BitVec.ushiftRight_zero x
  | succ n ih =>
    rw [gather, h n (Nat.lt_succ_self n), shift_or_byte]
    exact ih fun j hj => h j (Nat.lt_succ_of_lt hj)

theorem getElem?_littleEndian (n : Nat) (x : BitVec 64) {j : Nat} (hj : j < n) :
    (littleEndian n x)[j]? = some ((x >>> (8 * j)).setWidth 8) := by
  induction n generalizing x j with
  | zero => exact absurd hj (Nat.not_lt_zero j)
  | succ n ih =>
    cases j with
    | zero => rw [littleEndian, List.getElem?_cons_zero, Nat.mul_zero, BitVec.ushiftRight_zero]
    | succ j =>
      have hshift : x >>> 8 >>> (8 * j) = x >>> (8 * (j + 1)) := by
        rw [← BitVec.shiftRight_add, Nat.mul_succ, Nat.add_comm]
      rw [littleEndian, List.getElem?_cons_succ, ih _ (Nat.lt_of_succ_lt_succ hj), hshift]

theorem gather_littleEndian {m : Cells} {n : Nat} (hn : 8 * n ≤ 64)
    (h : (List.range' q n).map m = (littleEndian n x).map fun b => b.setWidth 64) :
    gather (fun j => m (q + j)) n 0 = unsignedCast (8 * n) x := by
  have hzero : unsignedCast (8 * n) x >>> (8 * n) = 0 := by
    apply BitVec.eq_of_getLsbD_eq
    intro i hi
    rw [BitVec.getLsbD_ushiftRight, getLsbD_unsignedCast, decide_eq_false (by omega : ¬8 * n + i < 8 * n)]
    simp
  have hbytes : ∀ j < n, m (q + j) = unsignedCast (8 * n) x >>> (8 * j) &&& 255 := by
    intro j hj
    have hcell := congrArg (fun cells => cells[j]?) h
    simp only [List.getElem?_map, List.getElem?_range' hj, getElem?_littleEndian n x hj, Option.map_some, Nat.one_mul,
      Option.some.injEq] at hcell
    rw [hcell, and_byte]
    congr 1
    apply BitVec.eq_of_getLsbD_eq
    intro i hi
    simp only [BitVec.getLsbD_setWidth, BitVec.getLsbD_ushiftRight, getLsbD_unsignedCast, hi, decide_true, Bool.true_and,
      decide_eq_true (by omega : 8 * j + i < 64), decide_eq_true (by omega : 8 * j + i < 8 * n)]
  have hgather := gather_bytes hbytes
  rw [hzero] at hgather
  exact hgather

theorem codewidth_code (s : Scalar) : codewidth s.code = s.size := by
  cases s with
  | int t => cases t <;> rfl
  | pointer => rfl

theorem littleEndian_packed (r : Floats) (s : Scalar) (x : BitVec 64) :
    littleEndian s.size (packed r s.code x) = littleEndian s.size x := by
  have hd : s.code ≠ 100 := by
    cases s with
    | int t => cases t <;> decide
    | pointer => decide
  have hf : s.code ≠ 102 := by
    cases s with
    | int t => cases t <;> decide
    | pointer => decide
  unfold packed
  rw [if_neg hd, if_neg hf, codewidth_code]
  split_ifs with hone htwo hfour
  · exact littleEndian_unsignedCast (by omega) (by decide) x
  · exact littleEndian_unsignedCast (by omega) (by decide) x
  · exact littleEndian_unsignedCast (by omega) (by decide) x
  · rfl

theorem unsignedCast_ofInt {n : Nat} {v : Int} (hn : n ≤ 64) (hlow : 0 ≤ v) (hhigh : v < 2 ^ n) :
    unsignedCast n (BitVec.ofInt 64 v) = BitVec.ofInt 64 v := by
  have hpow : (2 : Int) ^ n ≤ 2 ^ 64 := pow_le_pow_right₀ (by decide) hn
  obtain ⟨k, rfl⟩ := Int.eq_ofNat_of_zero_le hlow
  have hk : k < 2 ^ n := by exact_mod_cast hhigh
  have hk' : k < 2 ^ 64 := by
    have hk' : (k : Int) < 2 ^ 64 := hhigh.trans_le hpow
    exact_mod_cast hk'
  apply BitVec.eq_of_toNat_eq
  rw [unsignedCast, BitVec.toNat_setWidth, BitVec.toNat_setWidth, BitVec.ofInt_natCast, BitVec.toNat_ofNat,
    Nat.mod_eq_of_lt hk', Nat.mod_eq_of_lt hk, Nat.mod_eq_of_lt hk']

theorem signedCast_ofInt {n : Nat} {v : Int} (hn : n + 1 ≤ 64) (hlow : -2 ^ n ≤ v) (hhigh : v < 2 ^ n) :
    signedCast (n + 1) (BitVec.ofInt 64 v) = BitVec.ofInt 64 v := by
  have hwidth : (BitVec.ofInt 64 v).setWidth (n + 1) = BitVec.ofInt (n + 1) v := by
    have hdvd : (2 : Nat) ^ (n + 1) ∣ 2 ^ 64 := pow_dvd_pow 2 hn
    have hrest (k : Nat) : 0 ≤ v % ((2 ^ k : Nat) : Int) := Int.emod_nonneg _ (by positivity)
    apply BitVec.eq_of_toNat_eq
    apply Int.ofNat_inj.mp
    rw [BitVec.toNat_setWidth, BitVec.toNat_ofInt, BitVec.toNat_ofInt, Int.natCast_emod, Int.toNat_of_nonneg (hrest 64),
      Int.toNat_of_nonneg (hrest (n + 1)), Int.emod_emod_of_dvd v (Int.natCast_dvd_natCast.mpr hdvd)]
  have hbmod : v.bmod (2 ^ (n + 1)) = v := by
    apply Int.bmod_eq_of_le
    · push_cast
      rw [pow_succ]
      omega
    · push_cast
      rw [pow_succ]
      omega
  rw [signedCast, hwidth, BitVec.signExtend, BitVec.toInt_ofInt, hbmod]

theorem unpacked_code (r : Floats) (h : s.Fits x) :
    unpacked r s.code (unsignedCast (8 * s.size) x) = x := by
  have hsigned (n : Nat) (hn : n ≤ 64) : signedCast n (unsignedCast n x) = signedCast n x := by
    rw [signedCast, signedCast, unsignedCast, BitVec.setWidth_setWidth_of_le _ hn, BitVec.setWidth_eq]
  have hunsigned (n : Nat) (hn : n ≤ 64) : unsignedCast n (unsignedCast n x) = unsignedCast n x := by
    rw [unsignedCast, unsignedCast, BitVec.setWidth_setWidth_of_le _ hn, BitVec.setWidth_eq]
  have hwhole : unsignedCast 64 x = x := by rw [unsignedCast, BitVec.setWidth_eq, BitVec.setWidth_eq]
  cases s with
  | pointer => exact hwhole
  | int t =>
    obtain ⟨v, hv, rfl⟩ := h
    cases t
    case bool | char | uchar =>
      refine (hunsigned 8 (by decide)).trans (unsignedCast_ofInt (by decide) ?_ ?_) <;>
        simp [Ty.Holds, Ty.least, Ty.greatest, Ty.unsigned, Ty.bits] at hv <;> omega
    case schar =>
      refine (hsigned 8 (by decide)).trans (signedCast_ofInt (by decide) ?_ ?_) <;>
        simp [Ty.Holds, Ty.least, Ty.greatest, Ty.unsigned, Ty.bits] at hv <;> omega
    case short =>
      refine (hsigned 16 (by decide)).trans (signedCast_ofInt (by decide) ?_ ?_) <;>
        simp [Ty.Holds, Ty.least, Ty.greatest, Ty.unsigned, Ty.bits] at hv <;> omega
    case ushort =>
      refine (hunsigned 16 (by decide)).trans (unsignedCast_ofInt (by decide) ?_ ?_) <;>
        simp [Ty.Holds, Ty.least, Ty.greatest, Ty.unsigned, Ty.bits] at hv <;> omega
    case int =>
      refine (hsigned 32 (by decide)).trans (signedCast_ofInt (by decide) ?_ ?_) <;>
        simp [Ty.Holds, Ty.least, Ty.greatest, Ty.unsigned, Ty.bits] at hv <;> omega
    case uint =>
      refine (hunsigned 32 (by decide)).trans (unsignedCast_ofInt (by decide) ?_ ?_) <;>
        simp [Ty.Holds, Ty.least, Ty.greatest, Ty.unsigned, Ty.bits] at hv <;> omega
    all_goals exact hwhole

section

variable {m m' : Cells}

/-- The cells from `p` on become the ones of a list. -/
def putList : Cells → (p : Nat) → List (BitVec 64) → Cells
  | m, _, [] => m
  | m, p, x :: xs => putList (Function.update m p x) (p + 1) xs

theorem putList_append (m : Cells) (p : Nat) (xs ys : List (BitVec 64)) :
    putList m p (xs ++ ys) = putList (putList m p xs) (p + xs.length) ys := by
  induction xs generalizing m p with
  | nil => rfl
  | cons x xs ih => rw [List.cons_append, putList, ih, putList, List.length_cons, Nat.add_assoc, Nat.add_comm 1]

theorem putList_outside (m : Cells) {xs : List (BitVec 64)} (hq : q < p ∨ p + xs.length ≤ q) :
    putList m p xs q = m q := by
  induction xs generalizing m p with
  | nil => rfl
  | cons x xs ih =>
    rw [List.length_cons] at hq
    rw [putList, ih _ (by omega), Function.update_of_ne (by omega)]

theorem map_putList (m : Cells) (p : Nat) (xs : List (BitVec 64)) :
    (List.range' p xs.length).map (putList m p xs) = xs := by
  induction xs generalizing m p with
  | nil => rfl
  | cons x xs ih =>
    rw [List.length_cons, List.range'_succ, List.map_cons, putList, ih, putList_outside _ (.inl (Nat.lt_succ_self p)),
      Function.update_self]

theorem putBytes_eq (n p : Nat) (v : BitVec 64) (m : Cells) :
    putBytes n p v m = putList m p ((littleEndian n v).map fun b => b.setWidth 64) := by
  induction n generalizing p v m with
  | zero => rfl
  | succ n ih => rw [putBytes, ih, littleEndian, List.map_cons, putList, and_byte]

/-- The low bytes of `n` cells. -/
def raw (m : Cells) (o n : Nat) : List (BitVec 64) := (List.range' o n).map fun q => unsignedCast 8 (m q)

/-- What `__pack` makes of the parts at `o` with `n` entries left in the tables. -/
def packedBytes (m : Cells) : (n o : Nat) → List Part → List (BitVec 64)
  | _, _, [] => []
  | n, o, .pad k :: ps => raw m o k ++ packedBytes m n (o + k) ps
  | 0, o, .scalar s :: ps => raw m o s.size ++ packedBytes m 0 (o + s.size) ps
  | n + 1, o, .scalar s :: ps =>
    ((littleEndian s.size (m o)).map fun b => b.setWidth 64) ++ packedBytes m n (o + s.size) ps

@[simp] theorem length_raw (m : Cells) (o n : Nat) : (raw m o n).length = n := by simp [raw]

theorem raw_congr {o n : Nat} (h : ∀ q, o ≤ q → q < o + n → m q = m' q) : raw m o n = raw m' o n := by
  apply List.map_congr_left
  intro q hq
  rw [List.mem_range'_1] at hq
  rw [h q hq.1 hq.2]

theorem length_packedBytes (m : Cells) (n o : Nat) (ps : List Part) : (packedBytes m n o ps).length = total ps := by
  induction ps generalizing n o with
  | nil => simp [packedBytes]
  | cons part ps ih =>
    cases part with
    | pad k => rw [packedBytes, List.length_append, ih, length_raw, total_cons, Part.size]
    | scalar s => cases n <;> simp [packedBytes, ih, Part.size]

theorem packedBytes_congr {n o : Nat} {ps : List Part} (h : ∀ q, o ≤ q → q < o + total ps → m q = m' q) :
    packedBytes m n o ps = packedBytes m' n o ps := by
  induction ps generalizing n o with
  | nil => simp [packedBytes]
  | cons part ps ih =>
    rw [total_cons] at h
    cases part with
    | pad k =>
      rw [Part.size] at h
      rw [packedBytes, packedBytes, raw_congr fun q hle hlt => h q hle (by omega),
        ih fun q hle hlt => h q (by omega) (by omega)]
    | scalar s =>
      rw [Part.size] at h
      have hpos := s.size_pos
      have hrest (n : Nat) : packedBytes m n (o + s.size) ps = packedBytes m' n (o + s.size) ps :=
        ih fun q hle hlt => h q (by omega) (by omega)
      cases n with
      | zero => rw [packedBytes, packedBytes, raw_congr fun q hle hlt => h q hle (by omega), hrest]
      | succ n => rw [packedBytes, packedBytes, h o (Nat.le_refl o) (by omega), hrest]

variable (r : Floats)

theorem pack_raw (out obj stride : Nat) (table : List (UInt8 × Int)) (n b : Nat) (m : Cells) (hend : b + n ≤ stride)
    (htable : ∀ e ∈ table, ((b + n : Nat) : Int) ≤ e.2) (hapart : Apart (out + b) (obj + b) n) :
    pack r out obj stride b table m = pack r out obj stride (b + n) table (putList m (out + b) (raw m (obj + b) n)) := by
  induction n generalizing b m with
  | zero => rfl
  | succ n ih =>
    have hturn : pack r out obj stride b table m =
        pack r out obj stride (b + 1) table (Function.update m (out + b) (unsignedCast 8 (m (obj + b)))) := by
      cases table with
      | nil => rw [pack, if_pos (by omega)]
      | cons e table =>
        have hlater : e.2 ≠ b := by
          have hle := htable e List.mem_cons_self
          omega
        rw [pack, if_pos (by omega)]
        simp only [hlater, if_false]
    have hsame : raw (Function.update m (out + b) (unsignedCast 8 (m (obj + b)))) (obj + (b + 1)) n =
        raw m (obj + (b + 1)) n := by
      apply raw_congr
      intro q hle hlt
      unfold Apart at hapart
      exact Function.update_of_ne (by omega) _ _
    have hrest := ih (b + 1) (Function.update m (out + b) (unsignedCast 8 (m (obj + b)))) (by omega)
      (fun e he => le_trans (by omega) (htable e he)) (by unfold Apart at *; omega)
    rw [hturn, hrest, hsame, Nat.add_right_comm, Nat.add_assoc b n 1]
    rfl

theorem pack_parts (out obj : Nat) (ps : List Part) (n b : Nat) (m : Cells)
    (hapart : Apart (out + b) (obj + b) (total ps)) :
    pack r out obj (b + total ps) b (((leaves b ps).take n).map entry) m =
      putList m (out + b) (packedBytes m n (obj + b) ps) := by
  induction ps generalizing n b m with
  | nil =>
    unfold pack
    rw [if_neg (by simp)]
    simp [packedBytes, putList]
  | cons part ps ih =>
    rw [total_cons] at hapart ⊢
    cases part with
    | pad k =>
      rw [Part.size] at hapart ⊢
      have hlater : ∀ e ∈ ((leaves (b + k) ps).take n).map entry, ((b + k : Nat) : Int) ≤ e.2 := by
        intro e he
        obtain ⟨e', he', rfl⟩ := List.mem_map.mp he
        exact Int.ofNat_le.mpr (leaves_ge e' (List.mem_of_mem_take he'))
      have hread : packedBytes (putList m (out + b) (raw m (obj + b) k)) n (obj + (b + k)) ps =
          packedBytes m n (obj + (b + k)) ps := by
        apply packedBytes_congr
        intro q hle hlt
        apply putList_outside
        rw [length_raw]
        unfold Apart at hapart
        omega
      have hrest := ih n (b + k) (putList m (out + b) (raw m (obj + b) k)) (by unfold Apart at *; omega)
      rw [Nat.add_assoc] at hrest
      rw [leaves, pack_raw r out obj _ _ k b m (by omega) hlater (by unfold Apart at *; omega), hrest, hread, packedBytes,
        putList_append, length_raw, Nat.add_assoc out, Nat.add_assoc obj]
    | scalar s =>
      rw [Part.size] at hapart ⊢
      have hpos := s.size_pos
      have hread (n : Nat) {xs : List (BitVec 64)} (hxs : xs.length = s.size) :
          packedBytes (putList m (out + b) xs) n (obj + (b + s.size)) ps = packedBytes m n (obj + (b + s.size)) ps := by
        apply packedBytes_congr
        intro q hle hlt
        apply putList_outside
        unfold Apart at hapart
        omega
      have hrest (n : Nat) (m : Cells) := ih n (b + s.size) m (by unfold Apart at *; omega)
      simp only [Nat.add_assoc] at hrest
      cases n with
      | zero =>
        have hnone : ∀ e ∈ ((leaves b (.scalar s :: ps)).take 0).map entry, ((b + s.size : Nat) : Int) ≤ e.2 :=
          fun e he => absurd he List.not_mem_nil
        rw [pack_raw r out obj _ _ s.size b m (by omega) hnone (by unfold Apart at *; omega)]
        refine (hrest 0 _).trans ?_
        rw [hread 0 (length_raw _ _ _), packedBytes, putList_append, length_raw, Nat.add_assoc out, Nat.add_assoc obj]
      | succ n =>
        have hturn : pack r out obj (b + (s.size + total ps)) b (((leaves b (.scalar s :: ps)).take (n + 1)).map entry) m =
            pack r out obj (b + (s.size + total ps)) (b + s.size) (((leaves (b + s.size) ps).take n).map entry)
              (putList m (out + b) ((littleEndian s.size (m (obj + b))).map fun x => x.setWidth 64)) := by
          have hwidth : min s.size (b + (s.size + total ps) - b) = s.size := by omega
          rw [leaves, List.take_succ_cons, List.map_cons, pack, if_pos (by omega)]
          simp only [entry, if_true, codewidth_code, hwidth, putBytes_eq, littleEndian_packed]
        rw [hturn, hrest, hread n (by simp), packedBytes, putList_append]
        simp [Nat.add_assoc]

theorem copyCells_outside {d s n : Nat} (m : Cells) (hq : q < d ∨ d + n ≤ q) : copyCells d s n m q = m q := by
  induction n generalizing d s m with
  | zero => rfl
  | succ n ih => rw [copyCells, ih _ (by omega), Function.update_of_ne (by omega)]

/-- The scalars that `__unpack` makes of the bytes at `q`, with `n` entries left in the tables. -/
def unpackedValues (m : Cells) : (n q : Nat) → List Part → List (BitVec 64)
  | _, _, [] => []
  | n, q, .pad k :: ps => unpackedValues m n (q + k) ps
  | 0, q, .scalar s :: ps => m q :: unpackedValues m 0 (q + s.size) ps
  | n + 1, q, .scalar s :: ps =>
    unpacked r s.code (gather (fun j => m (q + j)) s.size 0) :: unpackedValues m n (q + s.size) ps

theorem gather_congr {byte byte' : Nat → BitVec 64} {n : Nat} (h : ∀ j < n, byte j = byte' j) (v : BitVec 64) :
    gather byte n v = gather byte' n v := by
  induction n generalizing v with
  | zero => rfl
  | succ n ih => rw [gather, gather, h n (Nat.lt_succ_self n), ih fun j hj => h j (Nat.lt_succ_of_lt hj)]

theorem unpackedValues_congr {n : Nat} {ps : List Part} (h : ∀ i, q ≤ i → i < q + total ps → m i = m' i) :
    unpackedValues r m n q ps = unpackedValues r m' n q ps := by
  induction ps generalizing n q with
  | nil => simp [unpackedValues]
  | cons part ps ih =>
    rw [total_cons] at h
    cases part with
    | pad k =>
      rw [Part.size] at h
      rw [unpackedValues, unpackedValues, ih fun i hle hlt => h i (by omega) (by omega)]
    | scalar s =>
      rw [Part.size] at h
      have hpos := s.size_pos
      have hrest (n : Nat) : unpackedValues r m n (q + s.size) ps = unpackedValues r m' n (q + s.size) ps :=
        ih fun i hle hlt => h i (by omega) (by omega)
      cases n with
      | zero => rw [unpackedValues, unpackedValues, h q (Nat.le_refl q) (by omega), hrest]
      | succ n =>
        rw [unpackedValues, unpackedValues, hrest, gather_congr fun j hj => h (q + j) (by omega) (by omega)]

theorem unpack_raw (obj inp stride : Nat) (table : List (UInt8 × Int)) (n b : Nat) (m : Cells) (hend : b + n ≤ stride)
    (htable : ∀ e ∈ table, ((b + n : Nat) : Int) ≤ e.2) :
    unpack r obj inp stride b table m = unpack r obj inp stride (b + n) table (copyCells (obj + b) (inp + b) n m) := by
  induction n generalizing b m with
  | zero => rfl
  | succ n ih =>
    have hturn : unpack r obj inp stride b table m =
        unpack r obj inp stride (b + 1) table (Function.update m (obj + b) (m (inp + b))) := by
      cases table with
      | nil => rw [unpack, if_pos (by omega)]
      | cons e table =>
        have hlater : e.2 ≠ b := by
          have hle := htable e List.mem_cons_self
          omega
        rw [unpack, if_pos (by omega)]
        simp only [hlater, if_false]
    have hrest := ih (b + 1) (Function.update m (obj + b) (m (inp + b))) (by omega)
      (fun e he => le_trans (by omega) (htable e he))
    rw [hturn, hrest, Nat.add_right_comm, Nat.add_assoc b n 1]
    rfl

theorem unpack_parts (obj inp : Nat) (ps : List Part) (n b : Nat) (m : Cells)
    (hapart : Apart (obj + b) (inp + b) (total ps)) :
    (∀ q, q < obj + b ∨ obj + b + total ps ≤ q →
      unpack r obj inp (b + total ps) b (((leaves b ps).take n).map entry) m q = m q) ∧
    ((leaves (obj + b) ps).map fun e =>
      unpack r obj inp (b + total ps) b (((leaves b ps).take n).map entry) m e.1) = unpackedValues r m n (inp + b) ps := by
  induction ps generalizing n b m with
  | nil =>
    have hend (table : List (UInt8 × Int)) : unpack r obj inp (b + total []) b table m = m := by
      unfold unpack
      exact if_neg (Nat.lt_irrefl b)
    exact ⟨fun q _ => congrFun (hend _) q, by simp [leaves, unpackedValues]⟩
  | cons part ps ih =>
    rw [total_cons] at hapart ⊢
    cases part with
    | pad k =>
      rw [Part.size] at hapart ⊢
      have hlater : ∀ e ∈ ((leaves (b + k) ps).take n).map entry, ((b + k : Nat) : Int) ≤ e.2 := by
        intro e he
        obtain ⟨e', he', rfl⟩ := List.mem_map.mp he
        exact Int.ofNat_le.mpr (leaves_ge e' (List.mem_of_mem_take he'))
      have hread : unpackedValues r (copyCells (obj + b) (inp + b) k m) n (inp + (b + k)) ps =
          unpackedValues r m n (inp + (b + k)) ps := by
        apply unpackedValues_congr
        intro q hle hlt
        apply copyCells_outside
        unfold Apart at hapart
        omega
      obtain ⟨hframe, hvalues⟩ := ih n (b + k) (copyCells (obj + b) (inp + b) k m) (by unfold Apart at *; omega)
      rw [Nat.add_assoc b] at hframe hvalues
      rw [hread] at hvalues
      have hleaves : leaves (obj + b) (.pad k :: ps) = leaves (obj + (b + k)) ps := by rw [leaves, Nat.add_assoc]
      rw [hleaves, leaves, unpack_raw r obj inp _ _ k b m (by omega) hlater, unpackedValues, Nat.add_assoc obj,
        Nat.add_assoc inp]
      refine ⟨fun q hq => ?_, hvalues⟩
      rw [hframe q (by omega), copyCells_outside m (by omega)]
    | scalar s =>
      rw [Part.size] at hapart ⊢
      have hpos := s.size_pos
      cases n with
      | zero =>
        have hnone : ∀ e ∈ ((leaves b (.scalar s :: ps)).take 0).map entry, ((b + s.size : Nat) : Int) ≤ e.2 :=
          fun e he => absurd he List.not_mem_nil
        have hfirst : copyCells (obj + b) (inp + b) s.size m (obj + b) = m (inp + b) := by
          obtain ⟨k, hk⟩ := Nat.exists_eq_succ_of_ne_zero hpos.ne'
          rw [hk, copyCells, copyCells_outside _ (by omega), Function.update_self]
        have hread : unpackedValues r (copyCells (obj + b) (inp + b) s.size m) 0 (inp + (b + s.size)) ps =
            unpackedValues r m 0 (inp + (b + s.size)) ps := by
          apply unpackedValues_congr
          intro q hle hlt
          apply copyCells_outside
          unfold Apart at hapart
          omega
        obtain ⟨hframe, hvalues⟩ := ih 0 (b + s.size) (copyCells (obj + b) (inp + b) s.size m) (by unfold Apart at *; omega)
        rw [Nat.add_assoc b] at hframe hvalues
        rw [hread] at hvalues
        have hleaves : leaves (obj + b) (.scalar s :: ps) = (obj + b, s) :: leaves (obj + (b + s.size)) ps := by
          rw [leaves, Nat.add_assoc]
        rw [hleaves, unpack_raw r obj inp _ _ s.size b m (by omega) hnone, unpackedValues, Nat.add_assoc obj,
          Nat.add_assoc inp]
        refine ⟨fun q hq => ?_, ?_⟩
        · rw [← copyCells_outside (s := inp + b) m (by omega : q < obj + b ∨ obj + b + s.size ≤ q)]
          exact hframe q (by omega)
        · rw [List.map_cons]
          exact congrArg₂ List.cons ((hframe (obj + b) (by omega)).trans hfirst) hvalues
      | succ n =>
        obtain ⟨v, hv⟩ : ∃ v, v = unpacked r s.code (gather (fun j => m (inp + b + j)) s.size 0) := ⟨_, rfl⟩
        have hturn : unpack r obj inp (b + (s.size + total ps)) b
            (((leaves b (.scalar s :: ps)).take (n + 1)).map entry) m =
            unpack r obj inp (b + (s.size + total ps)) (b + s.size) (((leaves (b + s.size) ps).take n).map entry)
              (Function.update m (obj + b) v) := by
          have hgather : gather (fun j => if b + j < b + (s.size + total ps) then m (inp + b + j) else 0) s.size 0 =
              gather (fun j => m (inp + b + j)) s.size 0 := by
            apply gather_congr
            intro j hj
            exact if_pos (by omega)
          rw [leaves, List.take_succ_cons, List.map_cons, unpack, if_pos (by omega)]
          simp only [entry, if_true, codewidth_code, hgather, hv]
        have hread : unpackedValues r (Function.update m (obj + b) v) n (inp + (b + s.size)) ps =
            unpackedValues r m n (inp + (b + s.size)) ps := by
          apply unpackedValues_congr
          intro q hle hlt
          unfold Apart at hapart
          exact Function.update_of_ne (by omega) _ _
        obtain ⟨hframe, hvalues⟩ := ih n (b + s.size) (Function.update m (obj + b) v) (by unfold Apart at *; omega)
        rw [Nat.add_assoc b] at hframe hvalues
        rw [hread] at hvalues
        have hleaves : leaves (obj + b) (.scalar s :: ps) = (obj + b, s) :: leaves (obj + (b + s.size)) ps := by
          rw [leaves, Nat.add_assoc]
        rw [hleaves, hturn, unpackedValues, ← hv, Nat.add_assoc obj, Nat.add_assoc inp]
        refine ⟨fun q hq => ?_, ?_⟩
        · rw [hframe q (by omega), Function.update_of_ne (by omega)]
        · rw [List.map_cons]
          exact congrArg₂ List.cons ((hframe (obj + b) (by omega)).trans (Function.update_self ..)) hvalues

end

section

variable {m m' : Cells} {ps : List Part} {n o d : Nat}

def Scalar.IsByte (s : Scalar) : Prop := s = .int .bool ∨ s = .int .char ∨ s = .int .uchar

theorem Scalar.isByte_iff : s.IsByte ↔ s.code = 66 := by
  unfold IsByte
  cases s with
  | int t => cases t <;> decide
  | pointer => decide

theorem Scalar.IsByte.size_eq (h : s.IsByte) : s.size = 1 := by
  obtain rfl | rfl | rfl := h <;> rfl

theorem Scalar.size_le (s : Scalar) : s.size ≤ 8 := by
  cases s with
  | int t => cases t <;> decide
  | pointer => decide

theorem Apart.symm {n : Nat} (h : Apart p q n) : Apart q p n := Or.symm h

theorem unsignedCast_idem {k : Nat} (hk : k ≤ 64) (x : BitVec 64) : unsignedCast k (unsignedCast k x) = unsignedCast k x := by
  rw [unsignedCast, unsignedCast, BitVec.setWidth_setWidth_of_le _ hk, BitVec.setWidth_eq]

theorem Scalar.IsByte.cast_eq (h : s.IsByte) (hx : s.Fits x) : unsignedCast 8 x = x := by
  have hround := unpacked_code ⟨id, id, id, id⟩ hx
  rw [Scalar.isByte_iff.mp h, h.size_eq] at hround
  exact (unsignedCast_idem (by decide) x).symm.trans hround

theorem shows_append {a b : List (Option (BitVec 8))} {c e : List (BitVec 64)} (h : Shows (a ++ b) (c ++ e))
    (hlen : a.length = c.length) : Shows a c ∧ Shows b e := by
  have hfirst := List.forall₂_take a.length h
  have hrest := List.forall₂_drop a.length h
  rw [List.take_left, List.take_left' hlen.symm] at hfirst
  rw [List.drop_left, List.drop_left' hlen.symm] at hrest
  exact ⟨hfirst, hrest⟩

theorem Shows.get {image : List (Option (BitVec 8))} {cells : List (BitVec 64)} (h : Shows image cells) {j : Nat}
    {y : BitVec 8} (hy : image[j]? = some (some y)) (hx : cells[j]? = some x) : x = y.setWidth 64 := by
  obtain ⟨hj, hy⟩ := List.getElem?_eq_some_iff.mp hy
  obtain ⟨hj', hx⟩ := List.getElem?_eq_some_iff.mp hx
  have hget := (List.forall₂_iff_get.mp h).2 j hj hj'
  rw [List.get_eq_getElem, List.get_eq_getElem, hx] at hget
  exact hget y hy

theorem shows_pad (k : Nat) {cells : List (BitVec 64)} (hlen : cells.length = k) : Shows (List.replicate k none) cells := by
  apply List.forall₂_iff_get.mpr
  refine ⟨by rw [List.length_replicate, hlen], fun i hi hi' y hy => ?_⟩
  rw [List.get_eq_getElem, List.getElem_replicate] at hy
  cases hy

theorem shows_bytes (bytes : List (BitVec 8)) : Shows (bytes.map some) (bytes.map fun b => b.setWidth 64) := by
  apply List.forall₂_map_left_iff.mpr
  apply List.forall₂_map_right_iff.mpr
  exact List.forall₂_same.mpr fun b _ y hy => by rw [Option.some.inj hy]

theorem shows_packed (hlate : ∀ e ∈ (leaves o ps).drop n, e.2.IsByte) :
    Shows (imageOf ps ((leaves o ps).map fun e => m e.1)) (packedBytes m n o ps) := by
  induction ps generalizing n o with
  | nil =>
    rw [packedBytes]
    exact .nil
  | cons part ps ih =>
    cases part with
    | pad k =>
      rw [packedBytes, leaves, imageOf]
      exact List.rel_append (shows_pad k (length_raw m o k)) (ih hlate)
    | scalar s =>
      rw [leaves, List.map_cons, imageOf]
      cases n with
      | zero =>
        have hbyte : s.IsByte := hlate (o, s) List.mem_cons_self
        rw [packedBytes]
        refine List.rel_append ?_ (ih fun e he => hlate e (List.mem_cons_of_mem _ he))
        rw [hbyte.size_eq]
        exact shows_bytes [(m o).setWidth 8]
      | succ n =>
        rw [packedBytes]
        exact List.rel_append (shows_bytes _) (ih hlate)

theorem unpackedValues_packed (r : Floats) (hbytes : (List.range' d (total ps)).map m' = packedBytes m n o ps)
    (hfits : ∀ e ∈ leaves o ps, e.2.Fits (m e.1)) (hlate : ∀ e ∈ (leaves o ps).drop n, e.2.IsByte) :
    unpackedValues r m' n d ps = (leaves o ps).map fun e => m e.1 := by
  induction ps generalizing n o d with
  | nil => simp [unpackedValues, leaves]
  | cons part ps ih =>
    rw [total_cons, ← List.range'_append_1, List.map_append] at hbytes
    cases part with
    | pad k =>
      rw [packedBytes] at hbytes
      have hrest := (List.append_inj hbytes (by simp [Part.size])).2
      rw [unpackedValues, leaves]
      exact ih hrest hfits hlate
    | scalar s =>
      have hx := hfits (o, s) List.mem_cons_self
      have hfits' : ∀ e ∈ leaves (o + s.size) ps, e.2.Fits (m e.1) := fun e he => hfits e (List.mem_cons_of_mem _ he)
      rw [leaves, List.map_cons]
      cases n with
      | zero =>
        have hbyte : s.IsByte := hlate (o, s) List.mem_cons_self
        rw [packedBytes] at hbytes
        obtain ⟨hfirst, hrest⟩ := List.append_inj hbytes (by simp [Part.size])
        rw [Part.size, hbyte.size_eq] at hfirst
        have hcell : m' d = m o := (List.cons.inj hfirst).1.trans (hbyte.cast_eq hx)
        rw [unpackedValues, hcell]
        exact congrArg _ (ih hrest hfits' fun e he => hlate e (List.mem_cons_of_mem _ he))
      | succ n =>
        rw [packedBytes] at hbytes
        obtain ⟨hfirst, hrest⟩ := List.append_inj hbytes (by simp [Part.size])
        rw [Part.size] at hfirst hrest
        rw [unpackedValues, gather_littleEndian (by have := s.size_le; omega) hfirst, unpacked_code r hx]
        exact congrArg _ (ih hrest hfits' hlate)

theorem late_of_shows {xs : List (BitVec 64)} (hxs : xs = (leaves o ps).map fun e => m e.1)
    (h : Shows (imageOf ps xs) (packedBytes m n o ps)) : ∀ e ∈ (leaves o ps).drop n, ∀ j < e.2.size,
      unsignedCast 8 (m (e.1 + j)) = ((m e.1 >>> (8 * j)).setWidth 8).setWidth 64 := by
  induction ps generalizing n o xs with
  | nil => exact fun e he => absurd (List.mem_of_mem_drop he) List.not_mem_nil
  | cons part ps ih =>
    cases part with
    | pad k =>
      rw [packedBytes, imageOf] at h
      exact ih hxs (shows_append h (by simp)).2
    | scalar s =>
      rw [leaves, List.map_cons] at hxs
      rw [hxs, imageOf] at h
      cases n with
      | zero =>
        rw [packedBytes] at h
        obtain ⟨hfirst, hrest⟩ := shows_append h (by simp)
        intro e he j hj
        obtain rfl | he := List.mem_cons.mp he
        · refine hfirst.get (j := j) ?_ ?_
          · rw [List.getElem?_map, getElem?_littleEndian _ _ hj]
            rfl
          · rw [raw, List.getElem?_map, List.getElem?_range' hj, Nat.one_mul]
            rfl
        · exact ih rfl hrest e he j hj
      | succ n =>
        rw [packedBytes] at h
        exact ih rfl (shows_append h (by simp)).2

theorem late_of_values {r : Floats} (hbytes : (List.range' d (total ps)).map m' = packedBytes m n o ps)
    (h : unpackedValues r m' n d ps = (leaves o ps).map fun e => m e.1) :
    ∀ e ∈ (leaves o ps).drop n, unsignedCast 8 (m e.1) = m e.1 := by
  induction ps generalizing n o d with
  | nil => exact fun e he => absurd (List.mem_of_mem_drop he) List.not_mem_nil
  | cons part ps ih =>
    rw [total_cons, ← List.range'_append_1, List.map_append] at hbytes
    cases part with
    | pad k =>
      rw [packedBytes] at hbytes
      rw [unpackedValues, leaves] at h
      exact ih (List.append_inj hbytes (by simp [Part.size])).2 h
    | scalar s =>
      rw [leaves, List.map_cons] at h
      cases n with
      | zero =>
        rw [packedBytes] at hbytes
        obtain ⟨hfirst, hrest⟩ := List.append_inj hbytes (by simp [Part.size])
        rw [unpackedValues] at h
        obtain ⟨hcell, htail⟩ := List.cons.inj h
        intro e he
        obtain rfl | he := List.mem_cons.mp he
        · obtain ⟨k, hk⟩ := Nat.exists_eq_succ_of_ne_zero s.size_pos.ne'
          rw [raw, Part.size, hk, List.range'_succ, List.range'_succ] at hfirst
          exact (List.cons.inj hfirst).1.symm.trans hcell
        · exact ih hrest htail e he
      | succ n =>
        rw [packedBytes] at hbytes
        rw [unpackedValues] at h
        exact ih (List.append_inj hbytes (by simp [Part.size])).2 (List.cons.inj h).2

theorem packedBytes_byte : ∀ x ∈ packedBytes m n o ps, (x.setWidth 8).setWidth 64 = x := by
  have hraw (o k : Nat) : ∀ x ∈ raw m o k, (x.setWidth 8).setWidth 64 = x := by
    intro x hx
    obtain ⟨q, -, rfl⟩ := List.mem_map.mp hx
    exact unsignedCast_idem (by decide) (m q)
  induction ps generalizing n o with
  | nil => simp [packedBytes]
  | cons part ps ih =>
    cases part with
    | pad k =>
      rw [packedBytes]
      exact List.forall_mem_append.mpr ⟨hraw o k, ih⟩
    | scalar s =>
      cases n with
      | zero =>
        rw [packedBytes]
        exact List.forall_mem_append.mpr ⟨hraw o s.size, ih⟩
      | succ n =>
        rw [packedBytes]
        refine List.forall_mem_append.mpr ⟨fun x hx => ?_, ih⟩
        obtain ⟨b, -, rfl⟩ := List.mem_map.mp hx
        have hb : (b.setWidth 64).setWidth 8 = b := by
          rw [BitVec.setWidth_setWidth_of_le b (by decide : 8 ≤ 64), BitVec.setWidth_eq]
        rw [hb]

theorem leaves_nil_shift (h : leaves p ps = []) : leaves q ps = [] := by
  induction ps generalizing p q with
  | nil => rfl
  | cons part ps ih =>
    cases part with
    | pad k => exact ih h
    | scalar s => cases h

mutual

theorem Obj.total_of_leafless : ∀ (t : Obj), leaves 0 t.parts = [] → total t.parts = 0
  | .scalar s, h => by
    rw [Obj.parts] at h
    cases h
  | .array b n, h => by
    rw [Obj.parts, total_replicate]
    rw [Obj.parts, leaves_replicate] at h
    cases n with
    | zero => exact Nat.zero_mul _
    | succ n =>
      have hfirst := List.flatMap_eq_nil_iff.mp h 0 (List.mem_range.mpr (Nat.succ_pos n))
      rw [b.total_of_leafless (leaves_nil_shift hfirst), Nat.mul_zero]
  | .struct ms, h => by
    rw [Obj.parts, leaves_append] at h
    have hms := total_of_leafless ms (List.append_eq_nil_iff.mp h).1
    rw [Obj.parts, total_append, hms, total_cons, Part.size, padding]
    simp

theorem total_of_leafless : ∀ ms : List Obj, leaves 0 (partsFrom 0 ms) = [] → total (partsFrom 0 ms) = 0
  | [], _ => rfl
  | t :: ms, h => by
    have hpad : padding 0 t.align = 0 := by simp [padding]
    rw [partsFrom, leaves, leaves_append, hpad] at h
    obtain ⟨hfirst, hrest⟩ := List.append_eq_nil_iff.mp h
    have ht := t.total_of_leafless (leaves_nil_shift hfirst)
    rw [ht] at hrest
    rw [partsFrom, total_cons, total_append, Part.size, hpad, ht, total_of_leafless ms (leaves_nil_shift hrest)]

end

end

section

variable {t : Obj} (r : Floats)

theorem strideOf_eq (h : leaves 0 t.parts ≠ []) : strideOf t = t.size := if_neg fun hnil => h (pDesc_eq_nil.mp hnil)

theorem length_pDesc_pos (h : leaves 0 t.parts ≠ []) : 0 < (pDesc t).length :=
  List.length_pos_iff.mpr fun hnil => h (pDesc_eq_nil.mp hnil)

theorem size_pos (h : leaves 0 t.parts ≠ []) : 0 < t.size := by
  rw [← t.total_parts]
  cases hparts : leaves 0 t.parts with
  | nil => exact absurd hparts h
  | cons e es =>
    have hlong (p : Nat) (ps : List Part) (hmem : leaves p ps ≠ []) : 0 < total ps := by
      induction ps generalizing p with
      | nil => exact absurd rfl hmem
      | cons part ps ih =>
        rw [total_cons]
        cases part with
        | pad k => exact Nat.lt_of_lt_of_le (ih _ hmem) (Nat.le_add_left _ _)
        | scalar s => exact Nat.add_pos_left s.size_pos _
    exact hlong 0 t.parts h

theorem strides_once {n : Nat} (hn : 0 < n) (step : Nat → Cells → Cells) (turns : Nat) (m : Cells) :
    strides n n step turns 0 m = if turns < 2 then none else some (n, step 0 m) := by
  cases turns with
  | zero => rfl
  | succ turns =>
    rw [strides, if_pos (by omega)]
    cases turns with
    | zero => rfl
    | succ turns =>
      rw [strides, if_neg (by omega), if_neg (by omega), Nat.zero_add]

theorem memcpyT_pack (h : leaves 0 t.parts ≠ []) (turns d s : Nat) (m : Cells) (hapart : Apart d s t.size) :
    memcpyT r turns d s t.size [] 1 (pDesc t) (strideOf t) m =
      if turns < 2 then none else some (putList m d (packedBytes m 512 s t.parts)) := by
  have hpack := pack_parts r d s t.parts 512 0 m (by rwa [t.total_parts])
  rw [t.total_parts] at hpack
  simp only [Nat.zero_add, Nat.add_zero] at hpack
  rw [memcpyT, if_pos (length_pDesc_pos h), strideOf_eq h, strides_once (size_pos h), layout_pDesc]
  split_ifs with hturns
  · rfl
  · simp only [Option.bind_eq_bind, Option.bind_some, Nat.add_zero, hpack, Nat.sub_self, copyCells]
    rfl

theorem memcpyT_unpack (h : leaves 0 t.parts ≠ []) (turns p d : Nat) (m : Cells) :
    memcpyT r turns p d t.size (pDesc t) (strideOf t) [] 1 m =
      if turns < 2 then none else some (unpack r p d t.size 0 (((leaves 0 t.parts).take 512).map entry) m) := by
  rw [memcpyT, if_neg (by simp), strideOf_eq h, strides_once (size_pos h), layout_pDesc]
  split_ifs with hturns
  · rfl
  · simp only [Option.bind_eq_bind, Option.bind_some, Nat.add_zero, Nat.sub_self, copyCells]
    rfl

theorem values_unpack (p d : Nat) (m : Cells) (hapart : Apart p d t.size) :
    t.values (unpack r p d t.size 0 (((leaves 0 t.parts).take 512).map entry) m) p = unpackedValues r m 512 d t.parts := by
  have hunpack := (unpack_parts r p d t.parts 512 0 m (by rwa [t.total_parts])).2
  rw [t.total_parts] at hunpack
  simp only [Nat.zero_add, Nat.add_zero] at hunpack
  exact hunpack

theorem map_packed (m m' : Cells) (t : Obj) (d s : Nat) :
    (List.range' d (total t.parts)).map (putList m' d (packedBytes m 512 s t.parts)) = packedBytes m 512 s t.parts := by
  have hmap := map_putList m' d (packedBytes m 512 s t.parts)
  rw [length_packedBytes] at hmap
  exact hmap

theorem fgetCells_all (buf : Nat) (bytes f : List (BitVec 8)) (m : Cells) :
    fgetCells buf bytes.length (bytes ++ f) m = (bytes.length, f, putList m buf (bytes.map fun b => b.setWidth 64)) := by
  induction bytes generalizing buf m with
  | nil => cases f <;> rfl
  | cons b bytes ih =>
    rw [List.length_cons, List.cons_append, fgetCells, ih]
    rfl

theorem fwriteT_pack (h : leaves 0 t.parts ≠ []) (buf s : Nat) (f : List (BitVec 8)) (m : Cells)
    (hapart : Apart buf s t.size) : fwriteT r 2 buf s t.size 1 f (pDesc t) (strideOf t) m =
      some (1, f ++ (packedBytes m 512 s t.parts).map fun x => x.setWidth 8,
        putList m buf (packedBytes m 512 s t.parts)) := by
  have hsize := size_pos h
  have hpack := pack_parts r buf s t.parts 512 0 m (by rwa [t.total_parts])
  have hmap := map_packed m m t buf s
  rw [t.total_parts] at hpack hmap
  simp only [Nat.zero_add, Nat.add_zero] at hpack
  have hput (f : List (BitVec 8)) : fputCells buf t.size f (putList m buf (packedBytes m 512 s t.parts)) =
      f ++ (packedBytes m 512 s t.parts).map fun x => x.setWidth 8 := by
    conv_rhs => rw [← hmap]
    rw [fputCells, List.range'_eq_map_range, List.map_map, List.map_map]
    rfl
  rw [fwriteT, if_neg (by rw [strideOf_eq h]; omega), strideOf_eq h, Nat.mul_one, layout_pDesc, fwriteLoop,
    if_pos (by omega), fwriteLoop, if_neg (by omega)]
  simp only [Nat.add_zero, hpack, hput, Nat.zero_add, Option.bind_eq_bind, Option.bind_some, Nat.sub_self, hsize.ne',
    if_false]
  simp [fputCells]

theorem freadT_unpack (h : leaves 0 t.parts ≠ []) (buf p : Nat) {bytes : List (BitVec 8)} (hlen : bytes.length = t.size)
    (f : List (BitVec 8)) (m : Cells) : freadT r 2 buf p t.size 1 (bytes ++ f) (pDesc t) (strideOf t) m =
      some (1, f, unpack r p buf t.size 0 (((leaves 0 t.parts).take 512).map entry)
        (putList m buf (bytes.map fun b => b.setWidth 64))) := by
  have hsize := size_pos h
  have hget := fgetCells_all buf bytes f m
  rw [hlen] at hget
  rw [freadT, if_neg (by rw [strideOf_eq h]; omega), strideOf_eq h, Nat.mul_one, layout_pDesc, freadLoop,
    if_pos hsize, Nat.sub_zero, if_neg (Nat.lt_irrefl _)]
  simp only [hget, Nat.lt_irrefl, if_false, if_true, Nat.zero_add, Nat.add_zero]
  rw [freadLoop, if_neg (Nat.lt_irrefl _)]
  simp only [Option.bind_eq_bind, Option.bind_some, Nat.div_self hsize]
  rfl

end

theorem Scalar.fits_bit (s : Scalar) (hx : x = 0 ∨ x = 1) : s.Fits x := by
  cases s with
  | pointer => trivial
  | int t =>
    obtain rfl | rfl := hx
    · exact ⟨0, by cases t <;> decide, rfl⟩
    · exact ⟨1, by cases t <;> decide, rfl⟩

theorem leaves_pairwise (p : Nat) (ps : List Part) : (leaves p ps).Pairwise fun e e' => e.1 < e'.1 := by
  induction ps generalizing p with
  | nil => exact .nil
  | cons part ps ih =>
    cases part with
    | pad k => exact ih _
    | scalar s =>
      refine List.pairwise_cons.mpr ⟨fun e he => ?_, ih _⟩
      exact Nat.lt_of_lt_of_le (Nat.lt_add_of_pos_right s.size_pos) (leaves_ge e he)

namespace Obj

variable {t : Obj}

theorem late_iff {N : Nat} : (∀ s ∈ t.scalars.drop N, s.IsByte) ↔ ∀ e ∈ (leaves p t.parts).drop N, e.2.IsByte := by
  have hshift (p : Nat) (ps : List Part) : (leaves p ps).map Prod.snd = (leaves 0 ps).map Prod.snd := by
    have hany (p q : Nat) : (leaves p ps).map Prod.snd = (leaves q ps).map Prod.snd := by
      induction ps generalizing p q with
      | nil => rfl
      | cons part ps ih =>
        cases part with
        | pad k => exact ih _ _
        | scalar s => exact congrArg (List.cons s) (ih _ _)
    exact hany p 0
  rw [scalars, ← hshift p, ← List.map_drop, List.forall_mem_map]

theorem RoundTrips.late (h : t.RoundTrips) : ∀ s ∈ t.scalars.drop 512, s.IsByte := by
  rw [late_iff (p := 0)]
  intro e he
  have hmem := List.mem_of_mem_drop he
  have hsome : leaves 0 t.parts ≠ [] := List.ne_nil_of_mem hmem
  have hapart : Apart t.size 0 t.size := .inr (Nat.zero_add _).le
  -- what a copy to and fro says of the memory before it
  have hcopy (m : Cells) (hm : t.IsObject m 0) : Shows (imageOf t.parts (t.values m 0)) (packedBytes m 512 0 t.parts) ∧
      ∀ e ∈ (leaves 0 t.parts).drop 512, unsignedCast 8 (m e.1) = m e.1 := by
    obtain ⟨turns, m', m'', hrun, hshows, hback, hvalues⟩ :=
      h.memory ⟨id, id, id, id⟩ m 0 t.size 0 hm (.inl (Nat.zero_add _).le) hapart
    rw [memcpyT_pack _ hsome turns t.size 0 m hapart] at hrun
    rw [memcpyT_unpack _ hsome] at hback
    split_ifs at hrun hback with hturns
    cases hrun
    cases hback
    have hbytes := map_packed m m t t.size 0
    rw [values_unpack _ 0 t.size _ (.inl (Nat.zero_add _).le)] at hvalues
    refine ⟨?_, late_of_values hbytes hvalues⟩
    rw [t.total_parts] at hbytes
    rwa [hbytes] at hshows
  by_cases hwide : 1 < e.2.size
  · -- a one in the cell behind the scalar shows up as its second byte
    have hm : t.IsObject (fun q => if q = e.1 + 1 then 1 else 0) 0 := by
      intro e' _
      apply Scalar.fits_bit
      dsimp only
      split_ifs
      · exact .inr rfl
      · exact .inl rfl
    have hbyte := late_of_shows (m := fun q => if q = e.1 + 1 then 1 else 0) rfl (hcopy _ hm).1 e he 1 hwide
    simp [unsignedCast] at hbyte
  · by_cases hsigned : e.2 = .int .schar
    · have hm : t.IsObject (fun q => if q = e.1 then -1 else 0) 0 := by
        intro e' he'
        dsimp only
        split_ifs with haddr
        · have hdistinct : ((leaves 0 t.parts).map Prod.fst).Nodup :=
            List.pairwise_map.mpr ((leaves_pairwise 0 t.parts).imp Nat.ne_of_lt)
          rw [List.inj_on_of_nodup_map hdistinct he' hmem haddr, hsigned]
          exact ⟨-1, by decide, rfl⟩
        · exact Scalar.fits_bit _ (.inl rfl)
      have hbyte := (hcopy _ hm).2 e he
      simp [unsignedCast] at hbyte
    · apply Scalar.isByte_iff.mpr
      revert hwide hsigned
      cases e.2 with
      | int t => cases t <;> decide
      | pointer => decide

/-- A type keeps its objects exactly if the scalars behind the first 512 are unsigned ones of a byte. -/
theorem roundTrips_iff (t : Obj) : t.RoundTrips ↔ ∀ s ∈ t.scalars.drop 512, s.IsByte := by
  refine ⟨RoundTrips.late, fun hlate => ?_⟩
  have hshows (m : Cells) (s : Nat) : Shows (imageOf t.parts (t.values m s)) (packedBytes m 512 s t.parts) :=
    shows_packed (late_iff.mp hlate)
  have hlength (m : Cells) (s : Nat) : (packedBytes m 512 s t.parts).length = t.size := by
    rw [length_packedBytes, t.total_parts]
  by_cases hsome : leaves 0 t.parts = []
  · -- a type without scalars has no bytes either
    have hsize : t.size = 0 := by rw [← t.total_parts, t.total_of_leafless hsome]
    have htext : pDesc t = [] := pDesc_eq_nil.mpr hsome
    have hempty (m : Cells) (s : Nat) : Shows (imageOf t.parts (t.values m s)) [] := by
      have hnil := List.eq_nil_of_length_eq_zero ((hlength m s).trans hsize)
      rw [← hnil]
      exact hshows m s
    have hvalues (m m' : Cells) (s p : Nat) : t.values m' p = t.values m s := by
      rw [values, values, leaves_nil_shift hsome, leaves_nil_shift hsome]
      rfl
    have hcopy (r : Floats) (d s : Nat) (m : Cells) : memcpyT r 1 d s 0 [] 1 [] 1 m = some m := rfl
    refine ⟨fun r m s d p _ _ _ => ⟨1, m, m, ?_, ?_, ?_, hvalues _ _ _ _⟩,
      fun r m s buf p f f' _ _ _ => ⟨1, 0, 0, [], m, m, ?_, hempty m s, ?_, hvalues _ _ _ _⟩⟩
    · rw [hsize, htext, strideOf, if_pos htext, hcopy]
    · rw [hsize]
      exact hempty m s
    · rw [hsize, htext, strideOf, if_pos htext, hcopy]
    · rw [hsize, List.append_nil]
      exact if_pos (.inr rfl)
    · rw [hsize]
      exact if_pos (.inr rfl)
  · refine ⟨fun r m s d p hm hsd hdp => ?_, fun r m s buf p f f' hm hsbuf hbufp => ?_⟩
    · have hbytes := map_packed m m t d s
      refine ⟨2, _, _, memcpyT_pack r hsome 2 d s m hsd.symm, ?_, memcpyT_unpack r hsome 2 p d _, ?_⟩
      · rw [← t.total_parts, hbytes]
        exact hshows m s
      · rw [values_unpack r p d _ hdp.symm]
        exact unpackedValues_packed r hbytes hm (late_iff.mp hlate)
    · have hlen : ((packedBytes m 512 s t.parts).map fun x => x.setWidth 8).length = t.size := by
        rw [List.length_map, hlength]
      have hcells : ((packedBytes m 512 s t.parts).map fun x => x.setWidth 8).map (fun b => b.setWidth 64) =
          packedBytes m 512 s t.parts := by
        rw [List.map_map]
        exact (List.map_congr_left packedBytes_byte).trans (List.map_id _)
      refine ⟨2, 1, 1, _, _, _, fwriteT_pack r hsome buf s f m hsbuf.symm, ?_, freadT_unpack r hsome buf p hlen f' _, ?_⟩
      · rw [hcells]
        exact hshows m s
      · rw [values_unpack r p buf _ hbufp.symm, hcells]
        exact unpackedValues_packed r (map_packed m _ t buf s) hm (late_iff.mp hlate)

theorem scalars_array (s : Scalar) (n : Nat) : (array (.scalar s) n).scalars = List.replicate n s := by
  rw [scalars, parts, leaves_replicate, List.map_flatMap]
  simp [parts, leaves, List.eq_replicate_iff]

theorem manyInts_change : ¬(array (.scalar (.int .int)) 600).RoundTrips := by
  intro h
  have hlate := h.late
  rw [scalars_array, List.drop_replicate] at hlate
  exact absurd (hlate (.int .int) (List.mem_replicate.mpr ⟨by decide, rfl⟩)) (by simp [Scalar.IsByte])

end Obj

end Ussr.Usa.Layout
