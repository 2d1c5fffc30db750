import Mathlib.Data.List.GetD
import Ussr.Stalin.Commands
import Ussr.Stalin.FieldRoundTrip

/-! The entry array of a GPT. Each partition is placed in the entry of its number and
read back from there; the entries of no partition stay empty. -/

namespace Ussr.Stalin
open ByteFields Codec Real64

/-- A partition that an entry of `size` bytes among `count` holds. -/
structure EntryFits (size count : Nat) (p : StPart) : Prop where
  num : 1 ≤ p.num ∧ p.num ≤ count
  type : IsGuid p.type
  present : p.type ≠ zeroGuid
  uuid : IsGuid p.uuid
  start : -2 ^ 63 ≤ p.start ∧ p.start < 2 ^ 63
  end_ : -2 ^ 63 ≤ p.end_ ∧ p.end_ < 2 ^ 63
  attrs : -2 ^ 63 ≤ p.attrs ∧ p.attrs < 2 ^ 63
  boot : p.boot = bootable p.attrs
  name : CleanName p.name
  logical : p.logical = false

section

variable {e e' : List UInt8} {size k : Nat}

theorem stGuidText_congr {i : Nat} (h : bytesAt e i 16 = bytesAt e' i 16) :
    stGuidText e i = stGuidText e' i := by
  rw [stGuidText_eq, h, stGuidText_eq]

theorem stUtf16Text_congr {i units : Nat}
    (h : ∀ j, i ≤ j → j < i + 2 * units → byteAt e j = byteAt e' j) :
    stUtf16Text e i units = stUtf16Text e' i units := by
  induction units generalizing i with
  | zero => rfl
  | succ units ih =>
    have hfirst : bytesAt e i 2 = bytesAt e' i 2 := bytesAt_congr fun j hj hk => h j hj (by omega)
    rw [stUtf16Text, stUtf16Text, hfirst, ih fun j hj hk => h j (by omega) (by omega)]

theorem two_mul_nameUnits_le (size : Nat) (h : 56 ≤ size) : 56 + 2 * nameUnits size ≤ size := by
  unfold nameUnits
  omega

theorem gptPart_congr (hsize : 128 ≤ size)
    (h : ∀ j, k * size ≤ j → j < k * size + size → byteAt e j = byteAt e' j) :
    gptPart e size k = gptPart e' size k := by
  have hfield : ∀ o n, o + n ≤ size → bytesAt e (k * size + o) n = bytesAt e' (k * size + o) n :=
    fun o n ho => bytesAt_congr fun j hj hk => h j (by omega) (by omega)
  have htype : stGuidText e (k * size) = stGuidText e' (k * size) :=
    stGuidText_congr (hfield 0 16 (by omega))
  have huuid := stGuidText_congr (hfield 16 16 (by omega))
  have hstart := stLe_congr (hfield 32 8 (by omega))
  have hend := stLe_congr (hfield 40 8 (by omega))
  have hattrs := stLe_congr (hfield 48 8 (by omega))
  have hname : stUtf16Text e (k * size + 56) (nameUnits size) =
      stUtf16Text e' (k * size + 56) (nameUnits size) := by
    have hunits := two_mul_nameUnits_le size (by omega)
    exact stUtf16Text_congr fun j hj hk => h j (by omega) (by omega)
  simp only [gptPart, htype, huuid, hstart, hend, hattrs, hname]

theorem zeroGuid_eq : zeroGuid = guidText (diskOrder (List.replicate 16 0)) := by
  decide +kernel

theorem gptPart_zero (hsize : 128 ≤ size)
    (h : ∀ j, k * size ≤ j → j < k * size + size → byteAt e j = 0) : gptPart e size k = none := by
  have hbytes : bytesAt e (k * size) 16 = List.replicate 16 0 := by
    refine List.eq_replicate_iff.mpr ⟨length_bytesAt _ _ _, fun b hb => ?_⟩
    obtain ⟨j, hj, rfl⟩ := List.mem_map.mp hb
    rw [List.mem_range'_1] at hj
    exact h j hj.1 (by omega)
  have htype : stGuidText e (k * size) = zeroGuid := by
    refine (stGuidText_eq e _).trans ?_
    rw [hbytes]
    exact zeroGuid_eq.symm
  rw [gptPart]
  exact if_pos htype

theorem gptPart_fits {count : Nat} (hk : k < count) {p : StPart}
    (h : gptPart e size k = some p) : EntryFits size count p ∧ p.num = k + 1 := by
  unfold gptPart at h
  dsimp only at h
  split_ifs at h with htype
  cases h
  obtain ⟨us, hus, hlen, hname⟩ := stUtf16Text_clean e (k * size + 56) (nameUnits size)
  have hunits : nameUnits size ≤ 36 := min_le_left _ _
  refine ⟨?_, rfl⟩
  constructor <;> dsimp only
  case num => constructor <;> omega
  case type => exact stGuidText_isGuid _ _
  case present => exact htype
  case uuid => exact stGuidText_isGuid _ _
  case start => exact stLe_bounds _ _ _
  case end_ => exact stLe_bounds _ _ _
  case attrs => exact stLe_bounds _ _ _
  case boot => rw [bootable]
  case name => exact ⟨us, hus, hlen.trans hunits, hname⟩

end

section

variable {size count : Nat} {p : StPart}

theorem leBytes_two {u : Nat} (h : u < 65536) : ofLE (leBytes 2 u) = u := by
  have hmod : ((u : Int) % 18446744073709551616).toNat = u := by omega
  rw [leBytes, hmod, ofLE_putLE (by omega)]

theorem length_flatMap_two (us : List Nat) :
    (us.flatMap fun u : Nat => leBytes 2 u).length = 2 * us.length := by
  induction us with
  | nil => rfl
  | cons u us ih =>
    rw [List.flatMap_cons, List.length_append, length_leBytes, ih, List.length_cons]
    omega

theorem bytesAt_flatMap_two (us : List Nat) (k : Nat) (hk : k < us.length) :
    bytesAt (us.flatMap fun u : Nat => leBytes 2 u) (2 * k) 2 = leBytes 2 us[k] := by
  have hslice : ∀ v : List UInt8, ∀ i, i + 2 ≤ v.length → bytesAt v i 2 = (v.drop i).take 2 := by
    intro v i hi
    refine List.ext_getElem (by simp; omega) fun j hj _ => ?_
    rw [length_bytesAt] at hj
    have hlt : i + j < v.length := by omega
    simp [bytesAt, byteAt, hlt]
  rw [hslice _ _ (by rw [length_flatMap_two]; omega)]
  induction us generalizing k with
  | nil => exact absurd hk (Nat.not_lt_zero _)
  | cons u us ih =>
    rw [List.flatMap_cons]
    cases k with
    | zero => exact List.take_left' (length_leBytes 2 u)
    | succ k =>
      have hdrop : 2 * (k + 1) = (leBytes 2 u).length + 2 * k := by
        rw [length_leBytes]
        omega
      rw [hdrop, ← List.drop_drop, List.drop_left]
      exact ih k (Nat.lt_of_succ_lt_succ hk)

theorem placeGpt_spec {e : List UInt8} (hp : EntryFits size count p) (hsize : 128 ≤ size)
    (hfit : (p.num - 1).toNat * size + size ≤ e.length)
    (hzero : ∀ j, (p.num - 1).toNat * size ≤ j → j < (p.num - 1).toNat * size + size →
      byteAt e j = 0) :
    ∃ e', placeGpt size e p = some e' ∧ e'.length = e.length ∧
      (∀ j, j < (p.num - 1).toNat * size ∨ (p.num - 1).toNat * size + size ≤ j →
        byteAt e' j = byteAt e j) ∧
      gptPart e' size (p.num - 1).toNat = some p := by
  obtain ⟨us, hus, hlen, hname⟩ := hp.name
  generalize hbase : (p.num - 1).toNat * size = base at *
  have hroom : 36 ≤ (size - 56) / 2 := by omega
  have hunits : stUtf16Units p.name = us := by
    rw [hname]
    exact stUtf16Units_flatMap fun u hu => (hus u hu).2
  have hnameBytes : nameBytes size p.name = us.flatMap fun u : Nat => leBytes 2 u := by
    rw [nameBytes, hunits, List.take_of_length_le (by omega)]
  obtain ⟨type, htypeLen, htypePut, htypeGet⟩ := stGuidPut_isGuid hp.type e base
  obtain ⟨uuid, huuidLen, huuidPut, huuidGet⟩ :=
    stGuidPut_isGuid hp.uuid (putBytes e base type) (base + 16)
  let e1 := putBytes e base type
  let e2 := putBytes e1 (base + 16) uuid
  let e3 := stPut e2 (base + 32) 8 p.start
  let e4 := stPut e3 (base + 40) 8 p.end_
  let e5 := stPut e4 (base + 48) 8 p.attrs
  let names := us.flatMap fun u : Nat => leBytes 2 u
  let e6 := putBytes e5 (base + 56) names
  have hnames : names.length = 2 * us.length := length_flatMap_two us
  have h1 : e1.length = e.length := length_putBytes _ _ _
  have h2 : e2.length = e.length := (length_putBytes _ _ _).trans h1
  have h3 : e3.length = e.length := (length_stPut _ _ _ _).trans h2
  have h4 : e4.length = e.length := (length_stPut _ _ _ _).trans h3
  have h5 : e5.length = e.length := (length_stPut _ _ _ _).trans h4
  -- the fields behind an offset are written later and leave what stands before it
  have late3 : ∀ i n, i + n ≤ base + 32 → bytesAt e6 i n = bytesAt e2 i n := fun i n hi => by
    rw [bytesAt_putBytes_apart (by omega) (by omega), bytesAt_stPut_apart (by omega) (by omega),
      bytesAt_stPut_apart (by omega) (by omega), bytesAt_stPut_apart (by omega) (by omega)]
  have htype : stGuidText e6 base = p.type := by
    refine htypeGet _ _ ?_
    rw [late3 base 16 (by omega), bytesAt_putBytes_apart (by omega) (by omega)]
    exact bytesAt_putBytes_eq (by omega) htypeLen
  have huuid : stGuidText e6 (base + 16) = p.uuid := by
    refine huuidGet _ _ ?_
    rw [late3 (base + 16) 16 (by omega)]
    exact bytesAt_putBytes_eq (by omega) huuidLen
  have hstart : stLe e6 (base + 32) 8 = p.start := by
    rw [stLe, bytesAt_putBytes_apart (by omega) (by omega), bytesAt_stPut_apart (by omega) (by omega),
      bytesAt_stPut_apart (by omega) (by omega)]
    exact stLe_stPut_eight (by omega) hp.start.1 hp.start.2
  have hend : stLe e6 (base + 40) 8 = p.end_ := by
    rw [stLe, bytesAt_putBytes_apart (by omega) (by omega), bytesAt_stPut_apart (by omega) (by omega)]
    exact stLe_stPut_eight (by omega) hp.end_.1 hp.end_.2
  have hattrs : stLe e6 (base + 48) 8 = p.attrs := by
    rw [stLe, bytesAt_putBytes_apart (by omega) (by omega)]
    exact stLe_stPut_eight (by omega) hp.attrs.1 hp.attrs.2
  have hread : stUtf16Text e6 (base + 56) (nameUnits size) = p.name := by
    rw [hname]
    refine stUtf16Text_units hus (by unfold nameUnits; omega) fun k hk => ?_
    unfold nameUnits at hk
    by_cases hin : k < us.length
    · have hunit : bytesAt e6 (base + 56 + 2 * k) 2 = bytesAt names (2 * k) 2 := by
        refine List.ext_getElem (by simp) fun j hj _ => ?_
        rw [length_bytesAt] at hj
        simp only [bytesAt, List.getElem_map, List.getElem_range', Nat.one_mul]
        refine (byteAt_putBytes (by omega) _).trans ((if_pos (by omega)).trans ?_)
        exact congrArg (byteAt names) (by omega)
      rw [hunit, bytesAt_flatMap_two us k hin, leBytes_two (hus _ (List.getElem_mem hin)).2.1,
        List.getD_eq_getElem _ _ hin]
    · have hbytes : bytesAt e6 (base + 56 + 2 * k) 2 = bytesAt e (base + 56 + 2 * k) 2 := by
        rw [bytesAt_putBytes_apart (by omega) (by omega), bytesAt_stPut_apart (by omega) (by omega),
          bytesAt_stPut_apart (by omega) (by omega), bytesAt_stPut_apart (by omega) (by omega),
          bytesAt_putBytes_apart (by omega) (by omega), bytesAt_putBytes_apart (by omega) (by omega)]
      have hnull : bytesAt e (base + 56 + 2 * k) 2 = [0, 0] := by
        simp only [bytesAt, List.range'_succ, List.range'_zero, List.map_cons, List.map_nil]
        rw [hzero _ (by omega) (by omega), hzero _ (by omega) (by omega)]
      rw [hbytes, hnull, List.getD_eq_default _ _ (by omega)]
      rfl
  refine ⟨e6, ?_, (length_putBytes _ _ _).trans h5, fun j hj => ?_, ?_⟩
  · rw [placeGpt, hbase, hnameBytes]
    simp only [htypePut, huuidPut, Option.bind_eq_bind, Option.bind_some]
    rfl
  · have hframe : ∀ (w : List UInt8) (i : Nat) (bs : List UInt8), i + bs.length ≤ w.length →
        base ≤ i → i + bs.length ≤ base + size → byteAt (putBytes w i bs) j = byteAt w j :=
      fun w i bs hi hlo hhi => by rw [byteAt_putBytes hi, if_neg (by omega)]
    have hnumber : ∀ (w : List UInt8) (i : Nat) (x : Int), i + 8 ≤ w.length → base ≤ i →
        i + 8 ≤ base + size → byteAt (stPut w i 8 x) j = byteAt w j :=
      fun w i x hi hlo hhi => hframe w i _ (by simpa using hi) hlo (by simpa using hhi)
    rw [hframe e5 _ _ (by omega) (by omega) (by omega), hnumber e4 _ _ (by omega) (by omega) (by omega),
      hnumber e3 _ _ (by omega) (by omega) (by omega), hnumber e2 _ _ (by omega) (by omega) (by omega),
      hframe e1 _ _ (by omega) (by omega) (by omega), hframe e _ _ (by omega) (by omega) (by omega)]
  · have hnum : (((p.num - 1).toNat : Nat) : Int) + 1 = p.num := by
      have := hp.num.1
      omega
    have hboot : (stLe e6 (base + 48) 8 / 4 % 2 = 1 : Bool) = p.boot := by
      rw [hattrs, hp.boot]
      rfl
    rw [gptPart, hbase, htype]
    simp only [hp.present, if_false, huuid, hstart, hend, hattrs, hread, hnum]
    rw [hattrs] at hboot
    simp only [hboot, ← hp.logical]

end

section

variable {size count : Nat}

/-- Where entry `k` stands in an array. -/
def InEntry (size k j : Nat) : Prop := k * size ≤ j ∧ j < k * size + size

theorem InEntry.unique {k k' j : Nat} (h : InEntry size k j) (h' : InEntry size k' j) : k = k' := by
  have hpos : 0 < size := by
    have hbounds := h.2
    have hlow := h.1
    omega
  have hk : j / size = k := Nat.div_eq_of_lt_le h.1 (by rw [Nat.succ_mul]; exact h.2)
  have hk' : j / size = k' := Nat.div_eq_of_lt_le h'.1 (by rw [Nat.succ_mul]; exact h'.2)
  exact hk.symm.trans hk'

theorem EntryFits.entry_lt {p : StPart} (h : EntryFits size count p) : (p.num - 1).toNat < count := by
  have hnum := h.num
  omega

theorem placeAll_spec (hsize : 128 ≤ size) {parts : List StPart}
    (hparts : ∀ p ∈ parts, EntryFits size count p) (hnodup : (parts.map StPart.num).Nodup)
    {e : List UInt8} (hfit : count * size ≤ e.length)
    (hzero : ∀ p ∈ parts, ∀ j, InEntry size (p.num - 1).toNat j → byteAt e j = 0) :
    ∃ e', parts.foldlM (placeGpt size) e = some e' ∧ e'.length = e.length ∧
      (∀ p ∈ parts, gptPart e' size (p.num - 1).toNat = some p) ∧
      ∀ k, (∀ p ∈ parts, (p.num - 1).toNat ≠ k) → ∀ j, InEntry size k j → byteAt e' j = byteAt e j := by
  induction parts generalizing e with
  | nil => exact ⟨e, rfl, rfl, fun p hp => absurd hp List.not_mem_nil, fun _ _ _ _ => rfl⟩
  | cons p parts ih =>
    rw [List.map_cons, List.nodup_cons] at hnodup
    have hp := hparts p List.mem_cons_self
    have hlt := hp.entry_lt
    have hroom : (p.num - 1).toNat * size + size ≤ e.length := by
      have hmul : ((p.num - 1).toNat + 1) * size ≤ count * size := Nat.mul_le_mul_right _ hlt
      rw [Nat.succ_mul] at hmul
      omega
    obtain ⟨mid, hmid, hlen, hframe, hread⟩ := placeGpt_spec hp hsize hroom
      fun j hlo hhi => hzero p List.mem_cons_self j ⟨hlo, hhi⟩
    have hkeep : ∀ k, (p.num - 1).toNat ≠ k → ∀ j, InEntry size k j → byteAt mid j = byteAt e j := by
      intro k hk j hj
      refine hframe j ?_
      by_contra hin
      exact hk (InEntry.unique (j := j) ⟨by omega, by omega⟩ hj)
    have hother : ∀ q ∈ parts, (p.num - 1).toNat ≠ (q.num - 1).toNat := by
      intro q hq heq
      have hq1 := (hparts q (List.mem_cons_of_mem _ hq)).num.1
      have hp1 := hp.num.1
      exact hnodup.1 (List.mem_map.mpr ⟨q, hq, by omega⟩)
    obtain ⟨e', hall, hlen', hreads, hframes⟩ := ih
      (fun q hq => hparts q (List.mem_cons_of_mem _ hq)) hnodup.2 (hlen ▸ hfit)
      fun q hq j hj => (hkeep _ (hother q hq) j hj).trans (hzero q (List.mem_cons_of_mem _ hq) j hj)
    refine ⟨e', ?_, hlen'.trans hlen, fun q hq => ?_, fun k hk j hj => ?_⟩
    · rw [List.foldlM_cons, hmid, Option.bind_eq_bind, Option.bind_some, hall]
    · cases List.mem_cons.mp hq with
      | inl heq =>
        subst heq
        rw [← hread]
        exact gptPart_congr hsize fun j hlo hhi =>
          hframes _ (fun r hr => (hother r hr).symm) j ⟨hlo, hhi⟩
      | inr hmem => exact hreads q hmem
    · exact (hframes k (fun q hq => hk q (List.mem_cons_of_mem _ hq)) j hj).trans
        (hkeep k (hk p List.mem_cons_self) j hj)

theorem gptParts_placed (hsize : 128 ≤ size) {parts : List StPart}
    (hparts : ∀ p ∈ parts, EntryFits size count p) (hnodup : (parts.map StPart.num).Nodup)
    {n : Nat} (hfit : count * size ≤ n) :
    ∃ e, parts.foldlM (placeGpt size) (stZeros n) = some e ∧ e.length = n ∧
      (gptParts e count size).Perm parts := by
  have hzeros : ∀ j, byteAt (stZeros n) j = 0 := fun j => by
    simp only [byteAt, stZeros, List.getD_eq_getElem?_getD, List.getElem?_replicate]
    split_ifs <;> rfl
  obtain ⟨e, hall, hlen, hreads, hframes⟩ := placeAll_spec hsize hparts hnodup
    (by rw [stZeros, List.length_replicate]; exact hfit) fun _ _ j _ => hzeros j
  rw [stZeros, List.length_replicate] at hlen
  refine ⟨e, hall, hlen, ?_⟩
  have hunique : ∀ k k' p, gptPart e size k = some p → gptPart e size k' = some p → k = k' := by
    intro k k' p hk hk'
    have hnum := (gptPart_fits (Nat.lt_succ_self k) hk).2
    have hnum' := (gptPart_fits (Nat.lt_succ_self k') hk').2
    omega
  refine (List.perm_ext_iff_of_nodup (List.nodup_range.filterMap hunique) (hnodup.of_map _)).mpr ?_
  intro p
  refine List.mem_filterMap.trans ?_
  constructor
  · rintro ⟨k, hk, hpart⟩
    by_contra hnot
    have hempty : ∀ q ∈ parts, (q.num - 1).toNat ≠ k := by
      intro q hq heq
      have hread := hreads q hq
      rw [heq, hpart] at hread
      exact hnot (Option.some.inj hread ▸ hq)
    rw [gptPart_zero hsize fun j hlo hhi => (hframes k hempty j ⟨hlo, hhi⟩).trans (hzeros j)] at hpart
    cases hpart
  · exact fun hp => ⟨_, List.mem_range.mpr (hparts p hp).entry_lt, hreads p hp⟩

theorem gptParts_fits {e : List UInt8} : (∀ p ∈ gptParts e count size, EntryFits size count p) ∧
    ((gptParts e count size).map StPart.num).Nodup := by
  constructor
  · intro p hp
    obtain ⟨k, hk, hpart⟩ := List.mem_filterMap.mp hp
    exact (gptPart_fits (List.mem_range.mp hk) hpart).1
  · unfold gptParts
    rw [List.map_filterMap]
    refine List.nodup_range.filterMap fun k k' num hk hk' => ?_
    obtain ⟨p, hp, rfl⟩ := Option.map_eq_some_iff.mp hk
    obtain ⟨p', hp', heq⟩ := Option.map_eq_some_iff.mp hk'
    have hnum := (gptPart_fits (Nat.lt_succ_self k) hp).2
    have hnum' := (gptPart_fits (Nat.lt_succ_self k') hp').2
    omega

end

end Ussr.Stalin
