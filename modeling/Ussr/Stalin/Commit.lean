import Ussr.Stalin.Copies

/-! What a commit leaves on a device: the protective MBR is found again, the sectors of a
GPT are where the loader looks for them, and the device stays one that can be opened. -/

namespace Ussr.Stalin
open ByteFields Codec Real64

section

variable {v w e : List UInt8} {i : Nat}

theorem length_guidPlaces (v : List UInt8) (i : Nat) (bytes : List UInt8) :
    (guidPlaces v i bytes).length = v.length := by
  unfold guidPlaces
  generalize stGuidOrder.zip bytes = places
  induction places generalizing v with
  | nil => rfl
  | cons p places ih => exact (ih _).trans (List.length_set ..)

theorem stGuidPut_length {text : Text} (h : stGuidPut v i text = some w) : w.length = v.length := by
  obtain ⟨bytes, -, rfl⟩ := Option.map_eq_some_iff.mp h
  exact length_guidPlaces v i bytes

theorem placeGpt_length {size : Nat} {p : StPart} (h : placeGpt size e p = some w) :
    w.length = e.length := by
  unfold placeGpt at h
  obtain ⟨e1, htype, h⟩ := Option.bind_eq_some_iff.mp h
  obtain ⟨e2, huuid, h⟩ := Option.bind_eq_some_iff.mp h
  cases h
  simp only [length_putBytes, length_stPut]
  exact (stGuidPut_length huuid).trans (stGuidPut_length htype)

theorem placeAll_length {size : Nat} {parts : List StPart}
    (h : parts.foldlM (placeGpt size) e = some w) : w.length = e.length := by
  induction parts generalizing e with
  | nil =>
    cases h
    rfl
  | cons p parts ih =>
    rw [List.foldlM_cons] at h
    obtain ⟨e1, hplace, hrest⟩ := Option.bind_eq_some_iff.mp h
    exact (ih hrest).trans (placeGpt_length hplace)

end

section

variable {v w : List UInt8} {slot : Nat} {boot : Bool} {code : Text} {start count : Int}

theorem stChs_eq_some {i : Nat} {lba : Int} (h : stChs v i lba = some w) :
    ∃ bytes : List UInt8, bytes.length = 3 ∧ w = putBytes v i bytes := by
  unfold stChs at h
  split_ifs at h
  · cases h
    exact ⟨_, rfl, rfl⟩
  · cases h
    exact ⟨_, rfl, rfl⟩

def mbrFields (slot : Nat) (boot : Bool) (first last : List UInt8) (type : Nat)
    (start count : Int) : List (Nat × List UInt8) := [
  (446 + slot * 16, [if boot then 128 else 0]), (446 + slot * 16 + 1, first),
  (446 + slot * 16 + 4, [UInt8.ofNat type]), (446 + slot * 16 + 5, last),
  (446 + slot * 16 + 8, leBytes 4 start), (446 + slot * 16 + 12, leBytes 4 count)]

theorem stMbrEntry_eq_some (h : stMbrEntry v slot boot code start count = some w) :
    ∃ first last : List UInt8, ∃ type, first.length = 3 ∧ last.length = 3 ∧
      stParseHexByte code = some type ∧
      w = putFields v (mbrFields slot boot first last type start count) := by
  unfold stMbrEntry at h
  dsimp only at h
  obtain ⟨v1, hfirst, h⟩ := Option.bind_eq_some_iff.mp h
  obtain ⟨type, htype, h⟩ := Option.bind_eq_some_iff.mp h
  obtain ⟨v2, hlast, h⟩ := Option.bind_eq_some_iff.mp h
  obtain ⟨first, hfirstLen, rfl⟩ := stChs_eq_some hfirst
  obtain ⟨last, hlastLen, rfl⟩ := stChs_eq_some hlast
  refine ⟨first, last, type, hfirstLen, hlastLen, htype, ?_⟩
  rw [← Option.some.inj h]
  rfl

theorem mbrFields_spec {first last : List UInt8} {type : Nat} (hfirst : first.length = 3)
    (hlast : last.length = 3) (hfit : 446 + slot * 16 + 16 ≤ v.length) :
    (∀ f ∈ mbrFields slot boot first last type start count, f.1 + f.2.length ≤ v.length) ∧
      (mbrFields slot boot first last type start count).Pairwise Apart ∧
      ∀ f ∈ mbrFields slot boot first last type start count,
        446 + slot * 16 ≤ f.1 ∧ f.1 + f.2.length ≤ 446 + slot * 16 + 16 := by
  refine ⟨?_, ?_, ?_⟩
  · simp only [mbrFields, List.forall_mem_cons, List.length_singleton, hfirst, hlast, length_leBytes]
    simp
    omega
  · simp [mbrFields, List.pairwise_cons, Apart, hfirst, hlast]
  · simp [mbrFields, hfirst, hlast]

theorem stMbrEntry_frame (h : stMbrEntry v slot boot code start count = some w)
    (hfit : 446 + slot * 16 + 16 ≤ v.length) : w.length = v.length ∧
      ∀ j n, j + n ≤ 446 + slot * 16 ∨ 446 + slot * 16 + 16 ≤ j → bytesAt w j n = bytesAt v j n := by
  obtain ⟨first, last, type, hfirst, hlast, -, rfl⟩ := stMbrEntry_eq_some h
  obtain ⟨hfields, -, hslot⟩ :=
    @mbrFields_spec v slot boot start count first last type hfirst hlast hfit
  refine ⟨length_putFields _ _, fun j n hj => bytesAt_putFields_apart hfields fun f hf => ?_⟩
  have hbounds := hslot f hf
  omega

theorem stMbrEntry_reads (h : stMbrEntry v slot boot code start count = some w)
    (hfit : 446 + slot * 16 + 16 ≤ v.length) :
    byteAt w (446 + slot * 16) = (if boot then 128 else 0) ∧
      (∃ type, stParseHexByte code = some type ∧
        byteAt w (446 + slot * 16 + 4) = UInt8.ofNat type) ∧
      bytesAt w (446 + slot * 16 + 8) 4 = leBytes 4 start ∧
      bytesAt w (446 + slot * 16 + 12) 4 = leBytes 4 count := by
  obtain ⟨first, last, type, hfirst, hlast, htype, rfl⟩ := stMbrEntry_eq_some h
  obtain ⟨hfields, hapart, -⟩ :=
    @mbrFields_spec v slot boot start count first last type hfirst hlast hfit
  have hread : ∀ i bs, (i, bs) ∈ mbrFields slot boot first last type start count →
      bytesAt (putFields v (mbrFields slot boot first last type start count)) i bs.length = bs :=
    fun i bs hmem => bytesAt_putFields hfields hapart hmem
  have hone : ∀ i b, (i, [b]) ∈ mbrFields slot boot first last type start count →
      byteAt (putFields v (mbrFields slot boot first last type start count)) i = b :=
    fun i b hmem => List.head_eq_of_cons_eq (hread i [b] hmem)
  have hfour : ∀ i x, (i, leBytes 4 x) ∈ mbrFields slot boot first last type start count →
      bytesAt (putFields v (mbrFields slot boot first last type start count)) i 4 = leBytes 4 x := by
    intro i x hmem
    have hbytes := hread i _ hmem
    rwa [length_leBytes] at hbytes
  refine ⟨hone _ _ (by simp [mbrFields]), ⟨type, htype, hone _ _ (by simp [mbrFields])⟩, ?_, ?_⟩
  · exact hfour _ _ (by simp [mbrFields])
  · exact hfour _ _ (by simp [mbrFields])

end

section

variable {d : Device}

theorem stFill_apart {v : List UInt8} {i n j m : Nat} {b : UInt8} (h : i + n ≤ v.length)
    (hapart : j + m ≤ i ∨ i + n ≤ j) : bytesAt (stFill v i n b) j m = bytesAt v j m :=
  bytesAt_putBytes_apart (by rwa [List.length_replicate]) (by rwa [List.length_replicate])

theorem stSector0_spec (hd : d.Sound) : (stSector0 d).length = d.sector ∧
    bytesAt (stSector0 d) 446 64 = List.replicate 64 0 ∧
    bytesAt (stSector0 d) 510 2 = [85, 170] ∧ bytesAt (stSector0 d) 0 446 = bytesAt (d.data 0) 0 446 := by
  obtain ⟨hlo, -⟩ := hd.sector_bounds
  have hlbas := hd.lbas
  have hlen : (d.data 0).length = d.sector := hd.whole 0
  obtain ⟨r, hr⟩ : ∃ r, r = putBytes (stFill (d.data 0) 446 64 0) 510 [85, 170] := ⟨_, rfl⟩
  have hfill : (stFill (d.data 0) 446 64 0).length = d.sector := by
    rw [stFill, length_putBytes, hlen]
  have hrLen : r.length = d.sector := by
    rw [hr, length_putBytes, hfill]
  have harea : bytesAt r 446 64 = List.replicate 64 0 := by
    rw [hr, bytesAt_putBytes_apart (by simp [hfill]; omega) (by simp)]
    exact bytesAt_putBytes_eq (by rw [List.length_replicate]; omega) List.length_replicate
  have hmark : bytesAt r 510 2 = [85, 170] := by
    rw [hr]
    exact bytesAt_putBytes_eq (by simp [hfill]; omega) rfl
  have hboot : bytesAt r 0 446 = bytesAt (d.data 0) 0 446 := by
    rw [hr, bytesAt_putBytes_apart (by simp [hfill]; omega) (by simp)]
    exact stFill_apart (by omega) (by omega)
  have hsector0 : stSector0 d = if 512 < d.sector then stFill r 512 (d.sector - 512) 0 else r := by
    rw [stSector0, stRead_one (by omega), Option.getD_some, hr]
  rw [hsector0]
  by_cases hbig : 512 < d.sector
  · rw [if_pos hbig]
    refine ⟨(length_putBytes _ _ _).trans hrLen, ?_, ?_, ?_⟩
    · exact (stFill_apart (by omega) (by omega)).trans harea
    · exact (stFill_apart (by omega) (by omega)).trans hmark
    · exact (stFill_apart (by omega) (by omega)).trans hboot
  · rw [if_neg hbig]
    exact ⟨hrLen, harea, hmark, hboot⟩

def IsProtectiveSector (s0 : List UInt8) : Prop :=
  (byteAt s0 510 = 85 ∧ byteAt s0 511 = 170) ∧ flagsValid s0 = true ∧ isProtective s0 = true

theorem byteAt_of_bytesAt {v : List UInt8} {i n k : Nat} {bs : List UInt8}
    (h : bytesAt v i n = bs) (hk : k < n) : byteAt v (i + k) = byteAt bs k := by
  rw [← h]
  simp [bytesAt, byteAt, hk]

theorem protectiveMbr_spec (hd : d.Sound) {s0 : List UInt8} (h : protectiveMbr d = some s0) :
    s0.length = d.sector ∧ IsProtectiveSector s0 := by
  obtain ⟨hlen, harea, hmark, -⟩ := stSector0_spec hd
  obtain ⟨hlo, -⟩ := hd.sector_bounds
  have hfit : 446 + 0 * 16 + 16 ≤ (stSector0 d).length := by omega
  obtain ⟨hlen', hframe⟩ := stMbrEntry_frame h hfit
  obtain ⟨hflag, ⟨type, htype, hcode⟩, -, -⟩ := stMbrEntry_reads h hfit
  have hmark' := (hframe 510 2 (by omega)).trans hmark
  have hrest : bytesAt s0 462 48 = List.replicate 48 0 := by
    refine (hframe 462 48 (by omega)).trans ?_
    refine List.eq_replicate_iff.mpr ⟨length_bytesAt _ _ _, fun b hb => ?_⟩
    obtain ⟨j, hj, rfl⟩ := List.mem_map.mp hb
    rw [List.mem_range'_1] at hj
    obtain ⟨k, rfl⟩ : ∃ k, j = 446 + k := ⟨j - 446, by omega⟩
    rw [byteAt_of_bytesAt harea (by omega)]
    simp only [byteAt, List.getD_eq_getElem?_getD, List.getElem?_replicate]
    split_ifs <;> rfl
  have hee : stParseHexByte (ascii "EE") = some 238 := by decide +kernel
  rw [hee] at htype
  cases htype
  refine ⟨hlen'.trans hlen, ⟨byteAt_of_bytesAt hmark' (by decide : 0 < 2),
    byteAt_of_bytesAt hmark' (by decide : 1 < 2)⟩, ?_, ?_⟩
  · unfold flagsValid
    rw [List.all_eq_true]
    intro k hk
    rw [List.mem_range] at hk
    cases k with
    | zero => simp [hflag]
    | succ k =>
      have hzero : byteAt s0 (446 + (k + 1) * 16) = 0 := by
        have hread := byteAt_of_bytesAt hrest (by omega : k * 16 < 48)
        rw [show 446 + (k + 1) * 16 = 462 + k * 16 by omega, hread]
        simp only [byteAt, List.getD_eq_getElem?_getD, List.getElem?_replicate]
        split_ifs <;> rfl
      simp [hzero]
  · unfold isProtective
    rw [List.any_eq_true]
    refine ⟨0, by simp, ?_⟩
    rw [hcode]
    decide

theorem stLoad_protective {s0 : List UInt8} (hlbas : 1 ≤ d.lbas) (hs0 : d.data 0 = s0)
    (h : IsProtectiveSector s0) : stLoad d = stLoadGpt d := by
  unfold stLoad
  rw [stRead_one (by omega), Option.getD_some, hs0]
  dsimp only
  rw [if_neg (by simp [h.1.1, h.1.2]), if_neg (by simp [h.2.1]), if_pos h.2.2]

theorem stLoad_gpt {t : Table} (hlbas : 1 ≤ d.lbas) (h : stLoad d = .ok t) (hkind : t.kind = .gpt) :
    IsProtectiveSector (d.data 0) ∧ stLoadGpt d = .ok t := by
  unfold stLoad at h
  rw [stRead_one (by omega), Option.getD_some] at h
  dsimp only at h
  split_ifs at h with hmark hflags hprotective
  · cases h
    cases hkind
  · rw [not_or, not_not, not_not] at hmark
    exact ⟨⟨hmark, hflags, hprotective⟩, h⟩
  · cases h
    cases hkind
  · cases h
    cases hkind

end

section

variable {d : Device} {t t' : Table} {h e : List UInt8} {lba : Nat}

theorem gptTable_self (h e : List UInt8) (notes : List String) :
    gptTable h e notes = gptTable h e (gptTable h e notes).notes := by
  rw [show (gptTable h e notes).notes = notes from rfl]

theorem stLoadGpt_eq_ok (hload : stLoadGpt d = .ok t) :
    ∃ lba h e, gptCopy d lba = some (h, e) ∧ t = gptTable h e t.notes ∧
      (lba = 1 ∨ lba = d.lbas - 1 ∧ gptCopy d 1 = none) := by
  unfold stLoadGpt at hload
  generalize hprimary : gptCopy d 1 = primary at hload
  generalize hbackup : gptCopy d (d.lbas - 1) = backup at hload
  cases primary with
  | some copy =>
    refine ⟨1, copy.1, copy.2, hprimary, ?_, .inl rfl⟩
    cases backup with
    | none =>
      rw [← Except.ok.inj hload]
      exact gptTable_self _ _ _
    | some other =>
      rw [← Except.ok.inj hload]
      exact gptTable_self _ _ _
  | none =>
    cases backup with
    | none => cases hload
    | some copy =>
      refine ⟨d.lbas - 1, copy.1, copy.2, hbackup, ?_, .inr ⟨rfl, rfl⟩⟩
      rw [← Except.ok.inj hload]
      exact gptTable_self _ _ _

theorem stLoadGpt_primary (hcopy : gptCopy d 1 = some (h, e)) :
    ∃ notes, stLoadGpt d = .ok (gptTable h e notes) := by
  unfold stLoadGpt
  rw [hcopy]
  generalize gptCopy d (d.lbas - 1) = backup
  cases backup with
  | none => exact ⟨["the backup GPT is missing or damaged; any write rewrites it"], by dsimp only⟩
  | some other =>
    exact ⟨if stLe h 32 8 = (d.lbas : Int) - 1 then []
      else ["the backup GPT is not at the end of the disk (was the disk resized?)"], by dsimp only⟩

theorem stLoadGpt_backup (hnone : gptCopy d 1 = none)
    (hcopy : gptCopy d (d.lbas - 1) = some (h, e)) :
    ∃ notes, stLoadGpt d = .ok (gptTable h e notes) := by
  unfold stLoadGpt
  rw [hnone, hcopy]
  exact ⟨primaryNotes d, by dsimp only⟩

theorem gptTable_fits (hd : d.Sound) (hcopy : gptCopy d lba = some (h, e)) (notes : List String) :
    TableFits (gptTable h e notes) := by
  obtain ⟨-, hentries⟩ := gptCopy_eq_some.mp hcopy
  obtain ⟨hfits, -, -⟩ := (stGptEntries_eq_some hd).mp hentries
  constructor <;> dsimp only [gptTable]
  case first => exact stLe_bounds h 40 8
  case last => exact stLe_bounds h 48 8
  case guid => exact stGuidText_isGuid h 56
  case count => exact hfits.count
  case size => exact hfits.size

theorem change_parts {N : Numbers} {o : Options} {command : Command}
    (hchange : command.change N o d t = .ok t') : t' = { t with parts := t'.parts } := by
  cases command with
  | add random =>
    obtain ⟨num, -, hchange⟩ := except_bind_ok hchange
    obtain ⟨part, -, hchange⟩ := except_bind_ok hchange
    obtain ⟨place, -, hchange⟩ := except_bind_ok hchange
    cases hchange
    rfl
  | rm target =>
    obtain ⟨part, -, hchange⟩ := except_bind_ok hchange
    split_ifs at hchange
    cases hchange
    rfl
  | edit target =>
    obtain ⟨part, -, hchange⟩ := except_bind_ok hchange
    split_ifs at hchange
    obtain ⟨moved, -, hchange⟩ := except_bind_ok hchange
    obtain ⟨changed, -, hchange⟩ := except_bind_ok hchange
    cases hchange
    rfl

end

section

variable {d : Device} {sectors : List (Nat × List UInt8)}

theorem foldl_max_of_lt {n : Nat} (h : ∀ w ∈ sectors, w.1 < n) :
    sectors.foldl (fun m w => max m (w.1 + 1)) n = n := by
  induction sectors with
  | nil => rfl
  | cons w sectors ih =>
    rw [List.forall_mem_cons] at h
    rw [List.foldl_cons, max_eq_left (by omega)]
    exact ih h.2

theorem Device.store_lbas (h : ∀ w ∈ sectors, w.1 < d.lbas) : (d.store sectors).lbas = d.lbas :=
  foldl_max_of_lt h

theorem Device.Sound.store (hd : d.Sound)
    (h : ∀ w ∈ sectors, w.1 < d.lbas ∧ w.2.length = d.sector) : (d.store sectors).Sound := by
  have hlbas := Device.store_lbas fun w hw => (h w hw).1
  refine ⟨hd.sector, ?_, ?_, fun i => ?_⟩
  · rw [hlbas]
    exact hd.lbas
  · rw [hlbas]
    exact hd.bytes
  · cases BlockDevice.writeAll_cases sectors d.data i with
    | inl hkept => exact (congrArg List.length hkept).trans (hd.whole i)
    | inr hwritten =>
      obtain ⟨w, hw, -, heq⟩ := hwritten
      exact (congrArg List.length heq).trans (h w hw).2

theorem slices_one {size : Nat} (hsize : 0 < size) {bytes : List UInt8} (h : bytes.length = size) :
    slices size bytes = [bytes] := by
  have hlen : (slices size bytes).length = 1 := length_slices hsize (by omega)
  have hflat := flatten_slices hsize (by omega : bytes.length = 1 * size)
  obtain ⟨b, hb⟩ := List.length_eq_one_iff.mp hlen
  rw [hb] at hflat ⊢
  rw [← hflat, List.flatten_singleton]

theorem length_of_mem_slices {size n : Nat} {bytes b : List UInt8} (h : bytes.length = n * size)
    (hsize : 0 < size) (hb : b ∈ slices size bytes) : b.length = size := by
  obtain ⟨k, hk, rfl⟩ := List.mem_map.mp hb
  rw [List.mem_range, h, Nat.mul_div_cancel n hsize] at hk
  have hle : (k + 1) * size ≤ n * size := Nat.mul_le_mul_right size hk
  rw [Nat.succ_mul] at hle
  rw [List.length_take, List.length_drop]
  omega

end

section

variable {d : Device} {t : Table} {ws : List Write} {e primary backup s0 : List UInt8}

def tableSectors (d : Device) (t : Table) : Nat := (entrySectors d t.entryCount t.entrySize).toNat

theorem tableSectors_withParts (d : Device) (t : Table) (parts : List StPart) :
    tableSectors d { t with parts := parts } = tableSectors d t := rfl

structure Committed (d : Device) (t : Table) (e primary backup s0 : List UInt8) : Prop where
  array : gptArray d t = some e
  length : e.length = tableSectors d t * d.sector
  sectors : entrySectors d t.entryCount t.entrySize = tableSectors d t ∧ 1 ≤ tableSectors d t
  covers : t.entryCount.toNat * t.entrySize.toNat ≤ e.length
  primary : HeaderHolds d t ((d.lbas - 1 : Nat) : Int) 2
    (stCrc32 e 0 (t.entryCount * t.entrySize).toNat) primary
  backup : HeaderHolds d t 1 ((d.lbas - 1 - tableSectors d t : Nat) : Int)
    (stCrc32 e 0 (t.entryCount * t.entrySize).toNat) backup
  mbr : s0.length = d.sector ∧ IsProtectiveSector s0

theorem Device.Sound.lbas_lt (hd : d.Sound) : d.lbas < 2 ^ 63 := by
  have hbytes := hd.bytes
  have hsector := hd.sector_bounds.1
  nlinarith

theorem stWriteGpt_eq_some (hd : d.Sound) (ht : TableFits t) (h : stWriteGpt d t = some ws) :
    ∃ e primary backup s0, Committed d t e primary backup s0 ∧
      ws = [⟨2, e⟩, ⟨1, primary⟩, ⟨d.lbas - 1 - tableSectors d t, e⟩, ⟨d.lbas - 1, backup⟩, ⟨0, s0⟩] := by
  unfold stWriteGpt at h
  obtain ⟨e, harray, h⟩ := Option.bind_eq_some_iff.mp h
  obtain ⟨primary, hprimary, h⟩ := Option.bind_eq_some_iff.mp h
  obtain ⟨backup, hbackup, h⟩ := Option.bind_eq_some_iff.mp h
  obtain ⟨s0, hmbr, h⟩ := Option.bind_eq_some_iff.mp h
  have hlt := hd.lbas_lt
  have hsector := hd.sector_bounds.1
  obtain ⟨sectors, hsectors, hpos, hcovers⟩ :=
    entrySectors_spec hd ht.count ⟨ht.size.1, ht.size.2.1⟩
  have htable : tableSectors d t = sectors := by
    rw [tableSectors, hsectors, Int.toNat_natCast]
  have hlength : e.length = tableSectors d t * d.sector :=
    (placeAll_length harray).trans List.length_replicate
  have hcrc := stCrc32_bounds e 0 (t.entryCount * t.entrySize).toNat
  obtain ⟨primary', hprimary', hprimaryHolds⟩ := @stGptHeaderBytes_spec d t 1
    ((d.lbas - 1 : Nat) : Int) 2 _ hsector ht (by omega) (by norm_num) hcrc
  obtain ⟨backup', hbackup', hbackupHolds⟩ := @stGptHeaderBytes_spec d t
    ((d.lbas - 1 : Nat) : Int) 1 ((d.lbas - 1 - tableSectors d t : Nat) : Int) _ hsector ht
    (by norm_num) (by omega) hcrc
  refine ⟨e, primary, backup, s0, ?_, (Option.some.inj h).symm⟩
  constructor
  case array => exact harray
  case length => exact hlength
  case sectors => exact ⟨by rw [htable, hsectors], by omega⟩
  case covers => rwa [hlength, htable]
  case primary => exact Option.some.inj (hprimary.symm.trans hprimary') ▸ hprimaryHolds
  case backup => exact Option.some.inj (hbackup.symm.trans hbackup') ▸ hbackupHolds
  case mbr => exact protectiveMbr_spec hd hmbr

end

end Ussr.Stalin
