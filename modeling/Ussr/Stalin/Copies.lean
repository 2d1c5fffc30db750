import Ussr.Stalin.Entries

/-! The two copies of a GPT. A copy is found again where its header and its array were
written, and it stays as it is while its sectors do. -/

namespace Ussr.Stalin
open ByteFields Codec Real64

section

variable {d d' : Device} {p n : Nat}

theorem flatten_slices {size n : Nat} (hsize : 0 < size) {bytes : List UInt8}
    (h : bytes.length = n * size) : (slices size bytes).flatten = bytes := by
  have hcount : bytes.length / size = n := by
    rw [h]
    exact Nat.mul_div_cancel n hsize
  have hprefix : ∀ m, m ≤ n → ((List.range m).map fun k => (bytes.drop (k * size)).take size).flatten =
      bytes.take (m * size) := by
    intro m
    induction m with
    | zero => simp
    | succ m ih =>
      intro hm
      rw [List.range_succ, List.map_append, List.flatten_append, ih (by omega), List.map_singleton,
        List.flatten_singleton, Nat.succ_mul, List.take_add]
  rw [slices, hcount, hprefix n (Nat.le_refl n), ← h, List.take_length]

theorem length_slices {size n : Nat} (hsize : 0 < size) {bytes : List UInt8}
    (h : bytes.length = n * size) : (slices size bytes).length = n := by
  rw [slices, List.length_map, List.length_range, h]
  exact Nat.mul_div_cancel n hsize

theorem stRead_eq (h : p + n ≤ d.lbas) :
    stRead d p n = some (BlockDevice.read d.data p n).flatten :=
  if_pos h

theorem stRead_congr (hlbas : d.lbas = d'.lbas)
    (h : ∀ i, p ≤ i → i < p + n → d.data i = d'.data i) : stRead d p n = stRead d' p n := by
  rw [stRead, stRead, hlbas, BlockDevice.read_congr h]

theorem stRead_one (h : p < d.lbas) : stRead d p 1 = some (d.data p) := by
  rw [stRead_eq (by omega)]
  simp [BlockDevice.read]

end

section

variable {d : Device} {count size : Int}

theorem Device.Sound.sector_bounds (h : d.Sound) : 512 ≤ d.sector ∧ d.sector ≤ 4096 := by
  have hsector := h.sector
  omega

theorem entrySectors_spec (h : d.Sound) (hcount : 1 ≤ count ∧ count ≤ 4096)
    (hsize : 128 ≤ size ∧ size ≤ 4096) :
    ∃ sectors : Nat, entrySectors d count size = sectors ∧ 1 ≤ sectors ∧
      count.toNat * size.toNat ≤ sectors * d.sector := by
  obtain ⟨hlo, hhi⟩ := h.sector_bounds
  have htotal : 128 ≤ count * size := by nlinarith
  have hmax : count * size ≤ 4096 * 4096 := by nlinarith
  have hdiv : entrySectors d count size = (count * size + d.sector - 1) / d.sector :=
    stDivUp_eq (by omega) (by omega) (by omega)
  have hmul := Int.mul_ediv_add_emod (count * size + d.sector - 1) d.sector
  have hmod := Int.emod_lt_of_pos (count * size + d.sector - 1) (by omega : (0 : Int) < d.sector)
  have hmod0 := Int.emod_nonneg (count * size + d.sector - 1) (by omega : (d.sector : Int) ≠ 0)
  generalize hq : (count * size + d.sector - 1) / (d.sector : Int) = q at *
  have hq1 : 1 ≤ q := by
    by_contra hlt
    have hle : (d.sector : Int) * q ≤ 0 := by nlinarith
    omega
  refine ⟨q.toNat, by omega, by omega, ?_⟩
  have hgoal : count * size ≤ q * d.sector := by
    rw [mul_comm q]
    omega
  have hcast : ((count.toNat * size.toNat : Nat) : Int) = count * size := by
    rw [Int.natCast_mul, Int.toNat_of_nonneg (by omega), Int.toNat_of_nonneg (by omega)]
  have hcast' : ((q.toNat * d.sector : Nat) : Int) = q * d.sector := by
    rw [Int.natCast_mul, Int.toNat_of_nonneg (by omega)]
  omega

end

section

variable {d : Device} {t : Table} {my alt entriesLba crc : Int}

structure HeaderHolds (d : Device) (t : Table) (alt entriesLba crc : Int) (h : List UInt8) :
    Prop where
  length : h.length = d.sector
  sig : stAscii h 0 8 = ascii "EFI PART"
  size : stLe h 12 4 = 92
  sum : stCrc32 (stPut h 16 4 0) 0 92 = stLe h 16 4
  restored : stPut (stPut h 16 4 0) 16 4 (stLe h 16 4) = h
  alternate : stLe h 32 8 = alt
  first : stLe h 40 8 = t.first
  last : stLe h 48 8 = t.last
  guid : stGuidText h 56 = t.diskGuid
  entries : stLe h 72 8 = entriesLba
  count : stLe h 80 4 = t.entryCount
  entrySize : stLe h 84 4 = t.entrySize
  entriesSum : stLe h 88 4 = crc

structure TableFits (t : Table) : Prop where
  first : -2 ^ 63 ≤ t.first ∧ t.first < 2 ^ 63
  last : -2 ^ 63 ≤ t.last ∧ t.last < 2 ^ 63
  guid : IsGuid t.diskGuid
  count : 1 ≤ t.entryCount ∧ t.entryCount ≤ 4096
  size : 128 ≤ t.entrySize ∧ t.entrySize ≤ 4096 ∧ t.entrySize % 8 = 0

theorem TableFits.withParts (ht : TableFits t) (parts : List StPart) :
    TableFits { t with parts := parts } :=
  ⟨ht.first, ht.last, ht.guid, ht.count, ht.size⟩

theorem HeaderHolds.congr {h : List UInt8} (hh : HeaderHolds d t alt entriesLba crc h)
    {d' : Device} (hsector : d'.sector = d.sector) : HeaderHolds d' t alt entriesLba crc h :=
  { hh with length := hh.length.trans hsector.symm }

theorem stCrc32_bounds (v : List UInt8) (i n : Nat) :
    0 ≤ stCrc32 v i n ∧ stCrc32 v i n < ((256 ^ 4 : Nat) : Int) := by
  have hlt := (Kv.crc32 (bytesAt v i n)).isLt
  unfold stCrc32
  omega

theorem bytesAt_stZeros (m i n : Nat) : bytesAt (stZeros m) i n = List.replicate n 0 := by
  refine List.eq_replicate_iff.mpr ⟨length_bytesAt _ _ _, fun b hb => ?_⟩
  obtain ⟨j, -, rfl⟩ := List.mem_map.mp hb
  simp only [byteAt, stZeros, List.getD_eq_getElem?_getD, List.getElem?_replicate]
  split_ifs <;> rfl

def headerList (t : Table) (my alt entriesLba crc : Int) (guid : List UInt8) :
    List (Nat × List UInt8) := [
  (0, ascii "EFI PART"), (8, leBytes 4 0x00010000), (12, leBytes 4 92), (24, leBytes 8 my),
  (32, leBytes 8 alt), (40, leBytes 8 t.first), (48, leBytes 8 t.last), (56, guid),
  (72, leBytes 8 entriesLba), (80, leBytes 4 t.entryCount), (84, leBytes 4 t.entrySize),
  (88, leBytes 4 crc)]

theorem headerList_spec {guid : List UInt8} (hguid : guid.length = 16) {n : Nat} (hn : 512 ≤ n) :
    (∀ f ∈ headerList t my alt entriesLba crc guid, f.1 + f.2.length ≤ (stZeros n).length) ∧
      (headerList t my alt entriesLba crc guid).Pairwise Apart ∧
      ∀ f ∈ headerList t my alt entriesLba crc guid, 16 + 4 ≤ f.1 ∨ f.1 + f.2.length ≤ 16 := by
  have hmagic : (ascii "EFI PART").length = 8 := by decide
  have hzeros : (stZeros n).length = n := List.length_replicate
  refine ⟨?_, ?_, ?_⟩
  · simp only [headerList, List.forall_mem_cons, hmagic, length_leBytes, hguid, hzeros]
    simp
    omega
  · simp [headerList, List.pairwise_cons, Apart, hmagic, hguid]
  · simp [headerList, hmagic, hguid]

theorem stLe_of_bytes {v : List UInt8} {i : Nat} {x : Int} (h : bytesAt v i 8 = leBytes 8 x)
    (hx : -2 ^ 63 ≤ x ∧ x < 2 ^ 63) : stLe v i 8 = x := by
  have hput := stLe_stPut_eight (v := stZeros 8) (i := 0) (by decide) hx.1 hx.2
  rwa [stLe, bytesAt_stPut (by decide), ← h] at hput

theorem stLe_of_four {v : List UInt8} {i : Nat} {x : Int} (h : bytesAt v i 4 = leBytes 4 x)
    (hx : 0 ≤ x ∧ x < ((256 ^ 4 : Nat) : Int)) : stLe v i 4 = x := by
  have hput := stLe_stPut_small (v := stZeros 4) (i := 0) (n := 4) (by decide) (by decide) hx.1 hx.2
  rwa [stLe, bytesAt_stPut (by decide), ← h] at hput

theorem stGptHeaderBytes_spec (hsector : 512 ≤ d.sector) (ht : TableFits t)
    (halt : -2 ^ 63 ≤ alt ∧ alt < 2 ^ 63) (hentries : -2 ^ 63 ≤ entriesLba ∧ entriesLba < 2 ^ 63)
    (hcrc : 0 ≤ crc ∧ crc < ((256 ^ 4 : Nat) : Int)) :
    ∃ h, stGptHeaderBytes d t my alt entriesLba crc = some h ∧
      HeaderHolds d t alt entriesLba crc h := by
  obtain ⟨guid, hguidLen, hguidPut, hguidGet⟩ := stGuidPut_isGuid ht.guid
    (stPut (stPut (stPut (stPut (stPut (stPut (putBytes (stZeros d.sector) 0 (ascii "EFI PART"))
      8 4 0x00010000) 12 4 92) 24 8 my) 32 8 alt) 40 8 t.first) 48 8 t.last) 56
  obtain ⟨hfit, hapart, hhole⟩ :=
    @headerList_spec t my alt entriesLba crc guid hguidLen d.sector hsector
  obtain ⟨h, hh⟩ : ∃ h, h = putFields (stZeros d.sector)
    (headerList t my alt entriesLba crc guid) := ⟨_, rfl⟩
  have hbytes : headerFields d t my alt entriesLba crc = some h := by
    rw [headerFields]
    dsimp only
    rw [hguidPut, hh]
    simp only [Option.map_some, putFields, headerList, List.foldl_cons, List.foldl_nil, stPut]
  have hlen : h.length = d.sector := by
    rw [hh, length_putFields]
    exact List.length_replicate
  have hc := stCrc32_bounds h 0 92
  generalize hcdef : stCrc32 h 0 92 = c at hc
  have hfield : ∀ i bs, (i, bs) ∈ headerList t my alt entriesLba crc guid →
      bytesAt (stPut h 16 4 c) i bs.length = bs := by
    intro i bs hmem
    rw [bytesAt_stPut_apart (by omega) (hhole _ hmem).symm, hh]
    exact bytesAt_putFields hfit hapart hmem
  have hnumber : ∀ i n x, (i, leBytes n x) ∈ headerList t my alt entriesLba crc guid →
      bytesAt (stPut h 16 4 c) i n = leBytes n x := by
    intro i n x hmem
    have hread := hfield i _ hmem
    rwa [length_leBytes] at hread
  have hzero : bytesAt h 16 4 = leBytes 4 0 := by
    rw [hh, bytesAt_putFields_apart hfit hhole, bytesAt_stZeros]
    rfl
  have hcleared : stPut (stPut h 16 4 c) 16 4 0 = h := by
    unfold stPut
    rw [putBytes_putBytes (by simp; omega) (by simp)]
    exact putBytes_same (by simp; omega) (by rw [length_leBytes]; exact hzero)
  have hsum : stLe (stPut h 16 4 c) 16 4 = c := stLe_stPut_small (by omega) (by decide) hc.1 hc.2
  have hcount := ht.count
  have hsize := ht.size
  refine ⟨stPut h 16 4 c, by rw [stGptHeaderBytes, hbytes, Option.map_some, hcdef], ?_⟩
  constructor
  case length => exact (length_stPut _ _ _ _).trans hlen
  case sig =>
    have hsig := hfield 0 (ascii "EFI PART") (by simp [headerList])
    rw [stAscii, show (8 : Nat) = (ascii "EFI PART").length by decide, hsig]
    decide +kernel
  case size => exact stLe_of_four (hnumber 12 4 92 (by simp [headerList])) (by norm_num)
  case sum => rw [hcleared, hsum, hcdef]
  case restored => rw [hcleared, hsum]
  case alternate => exact stLe_of_bytes (hnumber 32 8 alt (by simp [headerList])) halt
  case first => exact stLe_of_bytes (hnumber 40 8 t.first (by simp [headerList])) ht.first
  case last => exact stLe_of_bytes (hnumber 48 8 t.last (by simp [headerList])) ht.last
  case guid =>
    refine hguidGet _ _ ?_
    have hread := hfield 56 guid (by simp [headerList])
    rwa [hguidLen] at hread
  case entries => exact stLe_of_bytes (hnumber 72 8 entriesLba (by simp [headerList])) hentries
  case count =>
    exact stLe_of_four (hnumber 80 4 t.entryCount (by simp [headerList])) (by omega)
  case entrySize =>
    exact stLe_of_four (hnumber 84 4 t.entrySize (by simp [headerList])) (by omega)
  case entriesSum => exact stLe_of_four (hnumber 88 4 crc (by simp [headerList])) hcrc

theorem stGptHeader_holds {h : List UInt8} (hsector : 512 ≤ d.sector)
    (hh : HeaderHolds d t alt entriesLba crc h) {d' : Device} (hd' : d'.sector = d.sector)
    {lba : Nat} (hlba : lba < d'.lbas) (hdata : d'.data lba = h) : stGptHeader d' lba = some h := by
  have hsize : ¬(stLe h 12 4 < 92 ∨ (d'.sector : Int) < stLe h 12 4) := by
    rw [hh.size, hd']
    omega
  have hsum : stCrc32 (stPut h 16 4 0) 0 (stLe h 12 4).toNat = stLe h 16 4 := by
    rw [hh.size]
    exact hh.sum
  rw [stGptHeader, stRead_one hlba, hdata]
  simp only [Option.bind_eq_bind, Option.bind_some]
  rw [if_neg (not_not_intro hh.sig), if_neg hsize, if_pos hsum, hh.restored]

end

section

variable {d d' : Device} {t : Table} {h e : List UInt8} {lba : Nat}

def arrayStart (h : List UInt8) : Nat := (stLe h 72 8).toNat

def arraySectors (d : Device) (h : List UInt8) : Nat :=
  (entrySectors d (stLe h 80 4) (stLe h 84 4)).toNat

structure ArrayFits (d : Device) (h : List UInt8) : Prop where
  count : 1 ≤ stLe h 80 4 ∧ stLe h 80 4 ≤ 4096
  size : 128 ≤ stLe h 84 4 ∧ stLe h 84 4 ≤ 4096 ∧ stLe h 84 4 % 8 = 0
  start : 1 ≤ arrayStart h
  room : arrayStart h + arraySectors d h ≤ d.lbas

theorem pair_eq_map {α β : Type} (x : Option α) (f : α → Option β) :
    (do let a ← x; let b ← f a; return (a, b)) = x.bind fun a => (f a).map fun b => (a, b) := by
  cases x with
  | none => rfl
  | some a =>
    simp only [Option.bind_eq_bind, Option.pure_def, Option.bind_some]
    cases f a <;> rfl

theorem gptCopy_eq (d : Device) (lba : Nat) :
    gptCopy d lba = (stGptHeader d lba).bind fun h => (stGptEntries d h).map fun e => (h, e) := by
  unfold gptCopy
  exact pair_eq_map (stGptHeader d lba) (stGptEntries d)

theorem gptCopy_eq_some : gptCopy d lba = some (h, e) ↔
    stGptHeader d lba = some h ∧ stGptEntries d h = some e := by
  rw [gptCopy_eq, Option.bind_eq_some_iff]
  constructor
  · rintro ⟨h', hheader, hmap⟩
    obtain ⟨e', hentries, heq⟩ := Option.map_eq_some_iff.mp hmap
    cases heq
    exact ⟨hheader, hentries⟩
  · rintro ⟨hheader, hentries⟩
    exact ⟨h, hheader, Option.map_eq_some_iff.mpr ⟨e, hentries, rfl⟩⟩

/-- The two checks of `st_gpt_entries` before it reads. -/
def ArrayRefused (d : Device) (h : List UInt8) : Prop :=
  (stLe h 80 4 < 1 ∨ 4096 < stLe h 80 4 ∨ stLe h 84 4 < 128 ∨ 4096 < stLe h 84 4 ∨
    stLe h 84 4 % 8 ≠ 0) ∨
  (stLe h 72 8 < 1 ∨ (d.lbas : Int) < stLe h 72 8 + entrySectors d (stLe h 80 4) (stLe h 84 4))

theorem one_le_arrayStart (hr : ¬ArrayRefused d h) : 1 ≤ arrayStart h := by
  have hstart : ¬stLe h 72 8 < 1 := fun hlt => hr (.inr (.inl hlt))
  unfold arrayStart
  omega

theorem stGptEntries_refused (hr : ArrayRefused d h) : stGptEntries d h = none := by
  unfold stGptEntries
  by_cases hshape : stLe h 80 4 < 1 ∨ 4096 < stLe h 80 4 ∨ stLe h 84 4 < 128 ∨
      4096 < stLe h 84 4 ∨ stLe h 84 4 % 8 ≠ 0
  · exact if_pos hshape
  · exact (if_neg hshape).trans (if_pos (hr.resolve_left hshape))

theorem stGptEntries_read (hr : ¬ArrayRefused d h) :
    stGptEntries d h = (stRead d (arrayStart h) (arraySectors d h)).bind fun e =>
      if stCrc32 e 0 (stLe h 80 4 * stLe h 84 4).toNat = stLe h 88 4 then some e else none := by
  unfold stGptEntries
  simp only [Option.bind_eq_bind]
  rw [if_neg fun hshape => hr (.inl hshape), if_neg fun hplace => hr (.inr hplace)]
  simp only [arrayStart, arraySectors]

theorem not_arrayRefused_iff (hd : d.Sound) : ¬ArrayRefused d h ↔ ArrayFits d h := by
  constructor
  · intro hr
    unfold ArrayRefused at hr
    obtain ⟨sectors, hsectors, -, -⟩ :=
      entrySectors_spec hd (by omega : 1 ≤ stLe h 80 4 ∧ stLe h 80 4 ≤ 4096)
        (by omega : 128 ≤ stLe h 84 4 ∧ stLe h 84 4 ≤ 4096)
    refine ⟨by omega, by omega, by unfold arrayStart; omega, ?_⟩
    unfold arrayStart arraySectors
    omega
  · intro hfits hr
    have hcount := hfits.count
    have hsize := hfits.size
    have hstart := hfits.start
    have hroom := hfits.room
    obtain ⟨sectors, hsectors, -, -⟩ := entrySectors_spec hd hcount ⟨hsize.1, hsize.2.1⟩
    unfold arrayStart at hstart hroom
    unfold arraySectors at hroom
    unfold ArrayRefused at hr
    omega

theorem stGptEntries_eq_some (hd : d.Sound) : stGptEntries d h = some e ↔
    ArrayFits d h ∧ e = (BlockDevice.read d.data (arrayStart h) (arraySectors d h)).flatten ∧
      stCrc32 e 0 (stLe h 80 4 * stLe h 84 4).toNat = stLe h 88 4 := by
  by_cases hr : ArrayRefused d h
  · rw [stGptEntries_refused hr]
    refine ⟨fun heq => absurd heq (Option.some_ne_none e).symm, fun hfits => ?_⟩
    exact absurd hr ((not_arrayRefused_iff hd).mpr hfits.1)
  · have hfits := (not_arrayRefused_iff hd).mp hr
    rw [stGptEntries_read hr, stRead_eq hfits.room, Option.bind_some]
    generalize (BlockDevice.read d.data (arrayStart h) (arraySectors d h)).flatten = bytes
    constructor
    · intro heq
      obtain ⟨hsum, hbytes⟩ := Option.ite_none_right_eq_some.mp heq
      obtain rfl := Option.some.inj hbytes
      exact ⟨hfits, rfl, hsum⟩
    · rintro ⟨-, hbytes, hsum⟩
      rw [← hbytes, if_pos hsum]

theorem stGptHeader_congr (hsector : d.sector = d'.sector) (hlbas : d.lbas = d'.lbas)
    (hheader : d.data lba = d'.data lba) : stGptHeader d lba = stGptHeader d' lba := by
  have hread : stRead d lba 1 = stRead d' lba 1 := stRead_congr hlbas fun i hi hlt => by
    obtain rfl : i = lba := by omega
    exact hheader
  unfold stGptHeader
  simp only [hread, hsector]

theorem stGptEntries_congr (hsector : d.sector = d'.sector) (hlbas : d.lbas = d'.lbas)
    (harray : ∀ i, 1 ≤ i → arrayStart h ≤ i → i < arrayStart h + arraySectors d h →
      d.data i = d'.data i) : stGptEntries d h = stGptEntries d' h := by
  have hcount : entrySectors d (stLe h 80 4) (stLe h 84 4) =
      entrySectors d' (stLe h 80 4) (stLe h 84 4) := by
    rw [entrySectors, hsector, entrySectors]
  have hrefused : ArrayRefused d h ↔ ArrayRefused d' h := by
    rw [ArrayRefused, hcount, hlbas, ArrayRefused]
  by_cases hr : ArrayRefused d h
  · rw [stGptEntries_refused hr, stGptEntries_refused (hrefused.mp hr)]
  · have hstart := one_le_arrayStart hr
    have hread : stRead d (arrayStart h) (arraySectors d h) =
        stRead d' (arrayStart h) (arraySectors d' h) := by
      rw [stRead_congr hlbas fun i hi => harray i (by omega) hi, arraySectors, hcount, arraySectors]
    rw [stGptEntries_read hr, stGptEntries_read (mt hrefused.mpr hr), hread]

theorem gptCopy_congr (hsector : d.sector = d'.sector) (hlbas : d.lbas = d'.lbas)
    (hheader : d.data lba = d'.data lba)
    (harray : ∀ h, stGptHeader d lba = some h →
      ∀ i, 1 ≤ i → arrayStart h ≤ i → i < arrayStart h + arraySectors d h → d.data i = d'.data i) :
    gptCopy d lba = gptCopy d' lba := by
  rw [gptCopy_eq, gptCopy_eq, ← stGptHeader_congr hsector hlbas hheader]
  refine Option.bind_congr fun h hfound => ?_
  rw [stGptEntries_congr hsector hlbas (harray h hfound)]

theorem gptCopy_holds {alt crc : Int} {start sectors : Nat} (hd : d'.Sound)
    (hh : HeaderHolds d' t alt start crc h) (ht : TableFits t) (hlba : lba < d'.lbas)
    (hdata : d'.data lba = h) (hstart : 1 ≤ start)
    (hsectors : entrySectors d' t.entryCount t.entrySize = sectors) (hroom : start + sectors ≤ d'.lbas)
    (hread : (BlockDevice.read d'.data start sectors).flatten = e)
    (hcrc : crc = stCrc32 e 0 (t.entryCount * t.entrySize).toNat) : gptCopy d' lba = some (h, e) := by
  have harrayStart : arrayStart h = start := by
    rw [arrayStart, hh.entries, Int.toNat_natCast]
  have harraySectors : arraySectors d' h = sectors := by
    rw [arraySectors, hh.count, hh.entrySize, hsectors, Int.toNat_natCast]
  refine gptCopy_eq_some.mpr ⟨stGptHeader_holds hd.sector_bounds.1 hh rfl hlba hdata, ?_⟩
  refine (stGptEntries_eq_some hd).mpr ⟨⟨?_, ?_, ?_, ?_⟩, ?_, ?_⟩
  · rw [hh.count]
    exact ht.count
  · rw [hh.entrySize]
    exact ht.size
  · rwa [harrayStart]
  · rwa [harrayStart, harraySectors]
  · rw [harrayStart, harraySectors, hread]
  · rw [hh.count, hh.entrySize, hh.entriesSum, hcrc]

end

end Ussr.Stalin
