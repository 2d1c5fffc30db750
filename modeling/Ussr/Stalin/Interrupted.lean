import Ussr.Stalin.Changes
import Ussr.Stalin.Commit

/-! A GPT write that stops early. While the primary array is written only a copy that lies
elsewhere can be read; from the primary header on the primary copy is the new one. -/

namespace Ussr.Stalin
open ByteFields Codec Real64

section

variable {d : Device} {t : Table} {e primary backup s0 : List UInt8} {k : Nat}
variable {copy : List UInt8 × List UInt8}

def gptWrites (d : Device) (t : Table) (e primary backup s0 : List UInt8) : List Write :=
  [⟨2, e⟩, ⟨1, primary⟩, ⟨d.lbas - 1 - tableSectors d t, e⟩, ⟨d.lbas - 1, backup⟩, ⟨0, s0⟩]

def laterSectors (d : Device) (t : Table) (e backup s0 : List UInt8) : List (Nat × List UInt8) :=
  BlockDevice.run (d.lbas - 1 - tableSectors d t) (slices d.sector e) ++
    [(d.lbas - 1, backup), (0, s0)]

theorem sectorWrites_gpt (hd : d.Sound) (hc : Committed d t e primary backup s0) :
    sectorWrites d.sector (gptWrites d t e primary backup s0) =
      BlockDevice.run 2 (slices d.sector e) ++ (1, primary) :: laterSectors d t e backup s0 := by
  have hsector := hd.sector_bounds.1
  have hone : ∀ bytes, bytes.length = d.sector → slices d.sector bytes = [bytes] :=
    fun bytes hlen => slices_one (by omega) hlen
  simp only [sectorWrites, gptWrites, List.flatMap_cons, List.flatMap_nil, List.append_nil,
    Write.sectors, hone _ hc.primary.length, hone _ hc.backup.length, hone _ hc.mbr.1,
    laterSectors, BlockDevice.run, List.cons_append, List.nil_append]

theorem length_arraySlices (hd : d.Sound) (hc : Committed d t e primary backup s0) :
    (slices d.sector e).length = tableSectors d t :=
  length_slices (by have := hd.sector_bounds.1; omega) hc.length

theorem length_sectorWrites_gpt (hd : d.Sound) (hc : Committed d t e primary backup s0) :
    (sectorWrites d.sector (gptWrites d t e primary backup s0)).length =
      2 * tableSectors d t + 3 := by
  rw [sectorWrites_gpt hd hc, laterSectors]
  simp only [List.length_append, List.length_cons, List.length_nil, BlockDevice.length_run,
    length_arraySlices hd hc]
  omega

theorem sectorWrites_fit (hd : d.Sound) (hc : Committed d t e primary backup s0)
    (hroom : 2 * tableSectors d t + 3 ≤ d.lbas) :
    ∀ w ∈ sectorWrites d.sector (gptWrites d t e primary backup s0),
      w.1 < d.lbas ∧ w.2.length = d.sector := by
  have hsector := hd.sector_bounds.1
  have hslices := length_arraySlices hd hc
  have harray : ∀ p, p + tableSectors d t ≤ d.lbas →
      ∀ w ∈ BlockDevice.run p (slices d.sector e), w.1 < d.lbas ∧ w.2.length = d.sector := by
    intro p hp w hw
    have hrange := BlockDevice.run_range hw
    exact ⟨by omega, length_of_mem_slices hc.length (by omega) (BlockDevice.mem_of_mem_run hw)⟩
  intro w hw
  rw [sectorWrites_gpt hd hc, laterSectors] at hw
  simp only [List.mem_append, List.mem_cons, List.not_mem_nil, or_false] at hw
  rcases hw with hw | rfl | hw | rfl | rfl
  · exact harray 2 (by omega) w hw
  · exact ⟨by dsimp only; omega, hc.primary.length⟩
  · exact harray _ (by omega) w hw
  · exact ⟨by dsimp only; omega, hc.backup.length⟩
  · exact ⟨by dsimp only; omega, hc.mbr.1⟩

structure Early (d d' : Device) (t : Table) : Prop where
  sound : d'.Sound
  sector : d'.sector = d.sector
  lbas : d'.lbas = d.lbas
  other : ∀ i, i < 2 ∨ 2 + tableSectors d t ≤ i → d'.data i = d.data i

structure Late (d d' : Device) (t : Table) (e primary s0 : List UInt8) : Prop where
  sound : d'.Sound
  sector : d'.sector = d.sector
  lbas : d'.lbas = d.lbas
  header : d'.data 1 = primary
  array : BlockDevice.read d'.data 2 (tableSectors d t) = slices d.sector e
  mbr : d'.data 0 = d.data 0 ∨ d'.data 0 = s0

theorem cut_early (hd : d.Sound) (hc : Committed d t e primary backup s0)
    (hroom : 2 * tableSectors d t + 3 ≤ d.lbas) (hk : k ≤ tableSectors d t) :
    Early d (d.cut (gptWrites d t e primary backup s0) k) t := by
  have hfit := sectorWrites_fit hd hc hroom
  have hslices := length_arraySlices hd hc
  have htake : (sectorWrites d.sector (gptWrites d t e primary backup s0)).take k =
      BlockDevice.run 2 ((slices d.sector e).take k) := by
    rw [sectorWrites_gpt hd hc, List.take_append_of_le_length (by simpa [hslices] using hk),
      BlockDevice.take_run]
  constructor
  case sound => exact hd.store fun w hw => hfit w (List.mem_of_mem_take hw)
  case sector => rfl
  case lbas => exact Device.store_lbas fun w hw => (hfit w (List.mem_of_mem_take hw)).1
  case other =>
    intro i hi
    have hdata : (d.cut (gptWrites d t e primary backup s0) k).data =
        BlockDevice.writeAll (BlockDevice.run 2 ((slices d.sector e).take k)) d.data :=
      congrArg (fun ws => BlockDevice.writeAll ws d.data) htake
    rw [hdata]
    refine BlockDevice.writeAll_run_other ?_
    rw [List.length_take, hslices]
    omega

theorem cut_late (hd : d.Sound) (hc : Committed d t e primary backup s0)
    (hroom : 2 * tableSectors d t + 3 ≤ d.lbas) (hk : tableSectors d t < k) :
    Late d (d.cut (gptWrites d t e primary backup s0) k) t e primary s0 := by
  have hfit := sectorWrites_fit hd hc hroom
  have hslices := length_arraySlices hd hc
  obtain ⟨m, hm⟩ : ∃ m, k - tableSectors d t = m + 1 := ⟨k - tableSectors d t - 1, by omega⟩
  have htake : (sectorWrites d.sector (gptWrites d t e primary backup s0)).take k =
      BlockDevice.run 2 (slices d.sector e) ++ (1, primary) :: (laterSectors d t e backup s0).take m := by
    rw [sectorWrites_gpt hd hc, List.take_append, BlockDevice.length_run, hslices, hm,
      List.take_succ_cons, List.take_of_length_le (by simp [hslices]; omega)]
  have hlater : ∀ w ∈ (laterSectors d t e backup s0).take m,
      tableSectors d t + 2 ≤ w.1 ∨ w = (0, s0) := by
    intro w hw
    have hmem := List.mem_of_mem_take hw
    simp only [laterSectors, List.mem_append, List.mem_cons, List.not_mem_nil, or_false] at hmem
    rcases hmem with hrun | rfl | rfl
    · have hrange := BlockDevice.run_range hrun
      exact .inl (by omega)
    · exact .inl (by dsimp only; omega)
    · exact .inr rfl
  have hdata : ∀ i, (d.cut (gptWrites d t e primary backup s0) k).data i =
      BlockDevice.writeAll ((laterSectors d t e backup s0).take m)
        (BlockDevice.write (BlockDevice.writeAll (BlockDevice.run 2 (slices d.sector e)) d.data)
          (1, primary)) i := by
    intro i
    refine (congrArg (fun ws => BlockDevice.writeAll ws d.data i) htake).trans ?_
    rw [BlockDevice.writeAll_append]
    rfl
  have hkept : ∀ i, 1 ≤ i → i < tableSectors d t + 2 →
      (d.cut (gptWrites d t e primary backup s0) k).data i =
        BlockDevice.write (BlockDevice.writeAll (BlockDevice.run 2 (slices d.sector e)) d.data)
          (1, primary) i := by
    intro i hi hlt
    rw [hdata]
    refine BlockDevice.writeAll_other fun w hw => ?_
    rcases hlater w hw with hfar | rfl
    · omega
    · dsimp only
      omega
  constructor
  case sound => exact hd.store fun w hw => hfit w (List.mem_of_mem_take hw)
  case sector => rfl
  case lbas => exact Device.store_lbas fun w hw => (hfit w (List.mem_of_mem_take hw)).1
  case header => exact (hkept 1 (by omega) (by omega)).trans (Function.update_self ..)
  case array =>
    rw [← hslices]
    refine (BlockDevice.read_congr fun i hi hlt => ?_).trans (@BlockDevice.read_run _ d.data 2 (slices d.sector e))
    refine (hkept i (by omega) (by omega)).trans (Function.update_of_ne ?_ _ _)
    dsimp only
    omega
  case mbr =>
    rw [hdata 0]
    rcases BlockDevice.writeAll_cases ((laterSectors d t e backup s0).take m)
        (BlockDevice.write (BlockDevice.writeAll (BlockDevice.run 2 (slices d.sector e)) d.data)
          (1, primary)) 0 with hold | ⟨w, hw, hat, heq⟩
    · left
      rw [hold]
      refine (Function.update_of_ne Nat.zero_ne_one _ _).trans ?_
      exact BlockDevice.writeAll_run_other (by omega)
    · right
      rw [heq]
      rcases hlater w hw with hfar | rfl
      · omega
      · rfl

theorem cut_before_mbr (hd : d.Sound) (hc : Committed d t e primary backup s0)
    (hk : 2 * tableSectors d t + 2 ≤ k) {i : Nat} (hi : i ≠ 0) :
    (d.cut (gptWrites d t e primary backup s0) k).data i =
      (d.apply (gptWrites d t e primary backup s0)).data i := by
  have hslices := length_arraySlices hd hc
  obtain ⟨rest, hrest⟩ : ∃ rest, rest = BlockDevice.run 2 (slices d.sector e) ++ (1, primary) ::
      (BlockDevice.run (d.lbas - 1 - tableSectors d t) (slices d.sector e) ++
        [(d.lbas - 1, backup)]) := ⟨_, rfl⟩
  have hall : sectorWrites d.sector (gptWrites d t e primary backup s0) = rest ++ [(0, s0)] := by
    rw [sectorWrites_gpt hd hc, hrest]
    simp only [laterSectors, List.append_assoc, List.cons_append, List.nil_append]
  have hlen : rest.length = 2 * tableSectors d t + 2 := by
    rw [hrest]
    simp only [List.length_append, List.length_cons, BlockDevice.length_run, hslices, List.length_nil]
    omega
  have hkept : ∀ m, BlockDevice.writeAll (rest ++ [(0, s0)].take m) d.data i =
      BlockDevice.writeAll rest d.data i := by
    intro m
    rw [BlockDevice.writeAll_append]
    refine BlockDevice.writeAll_other fun w hw => ?_
    rw [List.mem_singleton.mp (List.mem_of_mem_take hw)]
    exact Ne.symm hi
  have hcut : (d.cut (gptWrites d t e primary backup s0) k).data i =
      BlockDevice.writeAll (rest ++ [(0, s0)].take (k - rest.length)) d.data i := by
    rw [Device.cut, hall, List.take_append, List.take_of_length_le (by omega)]
    rfl
  have happly : (d.apply (gptWrites d t e primary backup s0)).data i =
      BlockDevice.writeAll (rest ++ [(0, s0)].take 1) d.data i := by
    rw [Device.apply, hall]
    rfl
  rw [hcut, happly, hkept, hkept]

theorem gptCopy_before_mbr (hd : d.Sound) (hc : Committed d t e primary backup s0)
    (hroom : 2 * tableSectors d t + 3 ≤ d.lbas) (hk : 2 * tableSectors d t + 2 ≤ k) {lba : Nat}
    (hlba : lba ≠ 0) : gptCopy (d.cut (gptWrites d t e primary backup s0) k) lba =
      gptCopy (d.apply (gptWrites d t e primary backup s0)) lba := by
  have hfit := sectorWrites_fit hd hc hroom
  have hcut : (d.cut (gptWrites d t e primary backup s0) k).lbas = d.lbas :=
    Device.store_lbas fun w hw => (hfit w (List.mem_of_mem_take hw)).1
  have happly : (d.apply (gptWrites d t e primary backup s0)).lbas = d.lbas :=
    Device.store_lbas fun w hw => (hfit w hw).1
  refine gptCopy_congr ?_ (hcut.trans happly.symm) (cut_before_mbr hd hc hk hlba) ?_
  · rw [Device.cut, Device.apply, Device.store, Device.store]
  · exact fun h _ i hi _ _ => cut_before_mbr hd hc hk (by omega)

end

section

variable {d d' : Device} {t : Table} {ws : List Write} {e primary backup s0 h : List UInt8} {lba k : Nat}

def copyParts (copy : List UInt8 × List UInt8) : List StPart :=
  gptParts copy.2 (stLe copy.1 80 4).toNat (stLe copy.1 84 4).toNat

/-- What the checksums of a copy cover: its header and its entries, without what fills the
last sector of the array. -/
def covered (copy : List UInt8 × List UInt8) : List UInt8 × List UInt8 :=
  (copy.1, copy.2.take ((stLe copy.1 80 4).toNat * (stLe copy.1 84 4).toNat))

def checkedCopy (d : Device) (lba : Nat) : Option (List UInt8 × List UInt8) :=
  (gptCopy d lba).map covered

/-- A copy that passes its checks after an interruption is the one from before or the one from
after the write, never a mix of their sectors. -/
def CrcDetects (d : Device) (ws : List Write) : Prop :=
  ∀ k lba, lba = 1 ∨ lba = d.lbas - 1 → checkedCopy (d.cut ws k) lba = none ∨
    checkedCopy (d.cut ws k) lba = checkedCopy d lba ∨
    checkedCopy (d.cut ws k) lba = checkedCopy (d.apply ws) lba

/-- The device loads as a GPT with the partitions, in whatever order they are in memory. -/
def LoadsParts (d : Device) (parts : List StPart) : Prop :=
  ∃ u, stLoad d = .ok u ∧ u.kind = .gpt ∧ u.parts.Perm parts

/-- After `k` sectors the device has the partitions from before the change or those from
after it. -/
def Survives (d : Device) (t t' : Table) (ws : List Write) (k : Nat) : Prop :=
  LoadsParts (d.cut ws k) t.parts ∨ LoadsParts (d.cut ws k) t'.parts

/-- A good copy with the partitions of the table whose array lies apart from the sectors
that the new primary array goes to. -/
def SparedCopy (d : Device) (t : Table) (lba : Nat) : Prop :=
  ∃ copy, gptCopy d lba = some copy ∧ (copyParts copy).Perm t.parts ∧
    (arrayStart copy.1 + arraySectors d copy.1 ≤ 2 ∨
      2 + tableSectors d t ≤ arrayStart copy.1)

def Spared (d : Device) (t : Table) : Prop := SparedCopy d t 1 ∨ SparedCopy d t (d.lbas - 1)

structure Recoverable (o : Options) (d : Device) (t : Table) : Prop where
  room : 2 * tableSectors d t + 3 ≤ d.lbas
  spared : Spared d t
  options : GptReadable o
  names : ∀ text, o.name = some text → NameFits text

/-- The change shows in the primary copy, and the backup, if it can be read, lies apart and
gives other partitions than the new ones. -/
structure Exposed (d : Device) (t t' : Table) (ws : List Write) : Prop where
  room : 2 * tableSectors d t + 3 ≤ d.lbas
  header : stGptHeader (d.apply ws) 1 ≠ stGptHeader d 1
  entries : (gptCopy d 1).isSome → checkedCopy (d.cut ws (tableSectors d t)) 1 ≠ checkedCopy d 1
  apart : ∀ h, stGptHeader d (d.lbas - 1) = some h → arrayStart h + arraySectors d h ≤ 2 ∨
    2 + tableSectors d t ≤ arrayStart h
  stale : ∀ copy, gptCopy d (d.lbas - 1) = some copy → ¬(copyParts copy).Perm t'.parts

theorem gptParts_take {e : List UInt8} {count size : Nat} (hsize : 128 ≤ size) :
    gptParts (e.take (count * size)) count size = gptParts e count size := by
  unfold gptParts
  refine List.filterMap_congr fun k hk => ?_
  rw [List.mem_range] at hk
  refine gptPart_congr hsize fun j _ hj => ?_
  have hle : (k + 1) * size ≤ count * size := Nat.mul_le_mul_right size hk
  rw [Nat.succ_mul] at hle
  simp only [byteAt, List.getD_eq_getElem?_getD, List.getElem?_take]
  rw [if_pos (by omega)]

theorem copyParts_covered (hd : d.Sound)
    (hcopy : gptCopy d lba = some copy) : copyParts (covered copy) = copyParts copy := by
  obtain ⟨-, hentries⟩ := gptCopy_eq_some.mp hcopy
  obtain ⟨hfits, -, -⟩ := (stGptEntries_eq_some hd).mp hentries
  have hsize := hfits.size.1
  generalize hcount : (stLe copy.1 80 4).toNat = count
  generalize hstride : (stLe copy.1 84 4).toNat = size
  rw [copyParts, covered, copyParts, hcount, hstride]
  exact gptParts_take (by omega)

theorem copyParts_eq_of_checked (hd : d.Sound) (hd' : d'.Sound) (hcopy : gptCopy d lba = some copy)
    (hsame : checkedCopy d lba = checkedCopy d' lba) :
    ∃ copy', gptCopy d' lba = some copy' ∧ copyParts copy' = copyParts copy := by
  have hchecked : checkedCopy d' lba = some (covered copy) :=
    hsame.symm.trans (congrArg (Option.map covered) hcopy)
  obtain ⟨copy', hcopy', heq⟩ := Option.map_eq_some_iff.mp hchecked
  refine ⟨copy', hcopy', ?_⟩
  rw [← copyParts_covered hd' hcopy', heq, copyParts_covered hd hcopy]

theorem gptTable_parts (copy : List UInt8 × List UInt8) (notes : List String) :
    (gptTable copy.1 copy.2 notes).kind = .gpt ∧
      (gptTable copy.1 copy.2 notes).parts = copyParts copy := by
  constructor <;> dsimp only [gptTable, copyParts]

theorem loadsParts_primary (hd : d.Sound) (hs0 : IsProtectiveSector (d.data 0)) (hcopy : gptCopy d 1 = some copy) :
    LoadsParts d (copyParts copy) := by
  have hlbas := hd.lbas
  obtain ⟨notes, hload⟩ := stLoadGpt_primary hcopy
  obtain ⟨hkind, hparts⟩ := gptTable_parts copy notes
  exact ⟨_, (stLoad_protective (by omega) rfl hs0).trans hload, hkind, .of_eq hparts⟩

theorem loadsParts_backup (hd : d.Sound) (hs0 : IsProtectiveSector (d.data 0))
    (hnone : gptCopy d 1 = none)
    (hcopy : gptCopy d (d.lbas - 1) = some copy) : LoadsParts d (copyParts copy) := by
  have hlbas := hd.lbas
  obtain ⟨notes, hload⟩ := stLoadGpt_backup hnone hcopy
  obtain ⟨hkind, hparts⟩ := gptTable_parts copy notes
  exact ⟨_, (stLoad_protective (by omega) rfl hs0).trans hload, hkind, .of_eq hparts⟩

theorem LoadsParts.unique {parts parts' : List StPart} (h : LoadsParts d parts)
    (h' : LoadsParts d parts') : parts.Perm parts' := by
  obtain ⟨u, hload, -, hparts⟩ := h
  obtain ⟨u', hload', -, hparts'⟩ := h'
  obtain rfl := Except.ok.inj (hload.symm.trans hload')
  exact hparts.symm.trans hparts'

theorem LoadsParts.perm {parts parts' : List StPart} (h : LoadsParts d parts)
    (hperm : parts.Perm parts') : LoadsParts d parts' := by
  obtain ⟨u, hload, hkind, hparts⟩ := h
  exact ⟨u, hload, hkind, hparts.trans hperm⟩

theorem gptTable_gptFits (h e : List UInt8) (notes : List String) :
    GptFits (gptTable h e notes) (gptTable h e notes).parts := by
  constructor
  · dsimp only [gptTable]
    exact gptParts_fits.1
  · dsimp only [gptTable]
    exact gptParts_fits.2

/-- The array of a table is read as the partitions of the table. -/
theorem gptArray_perm (hd : d.Sound) (ht : TableFits t) (hparts : GptFits t t.parts)
    (harray : gptArray d t = some e) :
    (gptParts e t.entryCount.toNat t.entrySize.toNat).Perm t.parts := by
  obtain ⟨sectors, hsectors, -, hcovers⟩ :=
    entrySectors_spec hd ht.count ⟨ht.size.1, ht.size.2.1⟩
  have hsize := ht.size.1
  obtain ⟨e', harray', -, hperm⟩ :=
    gptParts_placed (by omega) hparts.entries hparts.nodup hcovers
  rw [gptArray, hsectors, Int.toNat_natCast] at harray
  obtain rfl := Option.some.inj (harray.symm.trans harray')
  exact hperm

theorem Late.gptCopy (hl : Late d d' t e primary s0) (hc : Committed d t e primary backup s0)
    (hd : d.Sound) (ht : TableFits t) (hroom : 2 * tableSectors d t + 3 ≤ d.lbas) :
    gptCopy d' 1 = some (primary, e) := by
  have hsector := hd.sector_bounds.1
  have hlbas := hl.lbas
  have hholds : HeaderHolds d' t ((d.lbas - 1 : Nat) : Int) (2 : Nat)
      (stCrc32 e 0 (t.entryCount * t.entrySize).toNat) primary := hc.primary.congr hl.sector
  refine gptCopy_holds hl.sound hholds ht (by omega) hl.header (by decide : 1 ≤ 2)
    (?_ : entrySectors d' t.entryCount t.entrySize = tableSectors d t) (by omega) ?_ rfl
  · rw [← hc.sectors.1, entrySectors, hl.sector, entrySectors]
  · rw [hl.array]
    exact flatten_slices (by omega) hc.length

theorem Late.loadsParts (hl : Late d d' t e primary s0) (hc : Committed d t e primary backup s0)
    (hd : d.Sound) (ht : TableFits t) (hparts : GptFits t t.parts)
    (hroom : 2 * tableSectors d t + 3 ≤ d.lbas) (hs0 : IsProtectiveSector (d.data 0)) :
    LoadsParts d' t.parts := by
  have hmbr : IsProtectiveSector (d'.data 0) := by
    cases hl.mbr with
    | inl hold => rwa [hold]
    | inr hnew => exact hnew ▸ hc.mbr.2
  have hloads := loadsParts_primary hl.sound hmbr (hl.gptCopy hc hd ht hroom)
  rw [copyParts, hc.primary.count, hc.primary.entrySize] at hloads
  exact hloads.perm (gptArray_perm hd ht hparts hc.array)

theorem Early.gptCopy_eq (he : Early d d' t) (hlba : lba < 2 ∨ 2 + tableSectors d t ≤ lba)
    (harray : ∀ h, stGptHeader d lba = some h → arrayStart h + arraySectors d h ≤ 2 ∨
      2 + tableSectors d t ≤ arrayStart h) : gptCopy d' lba = gptCopy d lba := by
  refine (gptCopy_congr he.sector.symm he.lbas.symm (he.other lba hlba).symm ?_).symm
  intro h hheader i _ hlo hhi
  have hapart := harray h hheader
  exact (he.other i (by omega)).symm

theorem SparedCopy.kept {lba : Nat} (hs : SparedCopy d t lba) (he : Early d d' t)
    (hlba : lba < 2 ∨ 2 + tableSectors d t ≤ lba) :
    ∃ copy, gptCopy d' lba = some copy ∧ (copyParts copy).Perm t.parts := by
  obtain ⟨copy, hcopy, hparts, hapart⟩ := hs
  refine ⟨copy, (he.gptCopy_eq hlba fun h hheader => ?_).trans hcopy, hparts⟩
  obtain ⟨hfound, -⟩ := gptCopy_eq_some.mp hcopy
  obtain rfl := Option.some.inj (hheader.symm.trans hfound)
  exact hapart

theorem loaded_copy (hd : d.Sound) (hload : stLoad d = .ok t) (hkind : t.kind = .gpt) :
    IsProtectiveSector (d.data 0) ∧ (TableFits t ∧ GptFits t t.parts) ∧
      ∃ lba copy, gptCopy d lba = some copy ∧ copyParts copy = t.parts ∧
        (lba = 1 ∨ lba = d.lbas - 1 ∧ gptCopy d 1 = none) := by
  have hlbas := hd.lbas
  obtain ⟨hs0, hgpt⟩ := stLoad_gpt (by omega) hload hkind
  obtain ⟨lba, h, e, hcopy, ht, hwhich⟩ := stLoadGpt_eq_ok hgpt
  refine ⟨hs0, ⟨?_, ?_⟩, lba, (h, e), hcopy, ?_, hwhich⟩
  · rw [ht]
    exact gptTable_fits hd hcopy t.notes
  · rw [ht]
    exact gptTable_gptFits h e t.notes
  · rw [ht]
    exact (gptTable_parts (h, e) t.notes).2.symm

theorem early_survives {t' : Table} {o : Options} (hd : d.Sound) (hload : stLoad d = .ok t) (hkind : t.kind = .gpt)
    (hr : Recoverable o d t) (hcrc : CrcDetects d ws) (he : Early d (d.cut ws k) t)
    (hsound : (d.apply ws).Sound) (hmbr : IsProtectiveSector ((d.apply ws).data 0))
    (hnew : LoadsParts (d.apply ws) t'.parts) : Survives d t t' ws k := by
  have hroom := hr.room
  obtain ⟨hs0, -, -⟩ := loaded_copy hd hload hkind
  have hs0' : IsProtectiveSector ((d.cut ws k).data 0) := by
    rwa [he.other 0 (by omega)]
  have hold : LoadsParts d t.parts := ⟨t, hload, hkind, .refl _⟩
  rcases hr.spared with hprimary | hbackup
  · obtain ⟨copy, hcopy, hparts⟩ := hprimary.kept he (by omega)
    exact .inl ((loadsParts_primary he.sound hs0' hcopy).perm hparts)
  · obtain ⟨copy, hcopy, hparts⟩ := hbackup.kept he (by omega)
    rw [← he.lbas] at hcopy
    cases hfound : gptCopy (d.cut ws k) 1 with
    | none => exact .inl ((loadsParts_backup he.sound hs0' hfound hcopy).perm hparts)
    | some found =>
      have hloads := loadsParts_primary he.sound hs0' hfound
      have hchecked : checkedCopy (d.cut ws k) 1 ≠ none := by
        rw [checkedCopy, hfound]
        exact Option.some_ne_none _
      rcases hcrc k 1 (.inl rfl) with hnone | hsame | hsame
      · exact absurd hnone hchecked
      · obtain ⟨copy', hcopy', heq⟩ := copyParts_eq_of_checked he.sound hd hfound hsame
        exact .inl (hloads.perm (heq ▸ (loadsParts_primary hd hs0 hcopy').unique hold))
      · obtain ⟨copy', hcopy', heq⟩ := copyParts_eq_of_checked he.sound hsound hfound hsame
        exact .inr (hloads.perm (heq ▸ (loadsParts_primary hsound hmbr hcopy').unique hnew))

theorem early_primary_lost {n : Nat} (hcrc : CrcDetects d ws) (he : Early d (d.cut ws n) t)
    (hheader : stGptHeader (d.apply ws) 1 ≠ stGptHeader d 1)
    (hentries : checkedCopy (d.cut ws n) 1 ≠ checkedCopy d 1) : gptCopy (d.cut ws n) 1 = none := by
  rcases hcrc n 1 (.inl rfl) with hnone | hsame | hsame
  · exact Option.map_eq_none_iff.mp hnone
  · exact absurd hsame hentries
  · by_contra hfound
    obtain ⟨copy, hcopy⟩ := Option.ne_none_iff_exists'.mp hfound
    have hchecked : checkedCopy (d.apply ws) 1 = some (covered copy) :=
      hsame.symm.trans (congrArg (Option.map covered) hcopy)
    obtain ⟨copy', hcopy', heq⟩ := Option.map_eq_some_iff.mp hchecked
    have hbytes : copy'.1 = copy.1 := by
      rw [covered, covered] at heq
      exact (Prod.mk.inj heq).1
    have hnew := (gptCopy_eq_some.mp hcopy').1
    have hold := (gptCopy_eq_some.mp hcopy).1
    rw [stGptHeader_congr he.sector he.lbas (he.other 1 (by omega))] at hold
    exact hheader (by rw [hnew, hold, hbytes])

/-- When the new array is written and the primary header is still the old one, only the backup can be loaded. -/
theorem Exposed.backup_spared {t' : Table} (hx : Exposed d t t' ws) (hcrc : CrcDetects d ws)
    (he : Early d (d.cut ws (tableSectors d t)) t) (hprimary : (gptCopy d 1).isSome)
    (hsurvives : Survives d t t' ws (tableSectors d t)) : SparedCopy d t (d.lbas - 1) := by
  have hroom := hx.room
  have hlost := early_primary_lost hcrc he hx.header (hx.entries hprimary)
  have hbackup : gptCopy (d.cut ws (tableSectors d t)) (d.lbas - 1) = gptCopy d (d.lbas - 1) :=
    he.gptCopy_eq (by omega) hx.apart
  have hfound : ∀ parts, LoadsParts (d.cut ws (tableSectors d t)) parts →
      ∃ copy, gptCopy d (d.lbas - 1) = some copy ∧ (copyParts copy).Perm parts := by
    rintro parts ⟨u, hu, hukind, hperm⟩
    obtain ⟨-, -, lba, copy, hcopy, heq, hsource⟩ := loaded_copy he.sound hu hukind
    rcases hsource with rfl | ⟨rfl, -⟩
    · rw [hlost] at hcopy
      cases hcopy
    · rw [he.lbas, hbackup] at hcopy
      exact ⟨copy, hcopy, heq ▸ hperm⟩
  rcases hsurvives with hold | hnew
  · obtain ⟨copy, hcopy, heq⟩ := hfound _ hold
    exact ⟨copy, hcopy, heq, hx.apart _ (gptCopy_eq_some.mp hcopy).1⟩
  · obtain ⟨copy, hcopy, heq⟩ := hfound _ hnew
    exact absurd heq (hx.stale copy hcopy)

theorem Device.apply_eq_cut (d : Device) (ws : List Write) {k : Nat}
    (hk : (sectorWrites d.sector ws).length ≤ k) : d.apply ws = d.cut ws k := by
  rw [Device.apply, Device.cut, List.take_of_length_le hk]

/-- While a readable copy is out of the way of the new primary array, and the new entries can be
read back, a GPT survives an interruption wherever it falls; without such a copy it does not. -/
theorem interrupted_commit_survives {N : Numbers} {o : Options} {command : Command} {t' : Table}
    (hd : d.Sound) (hload : stLoad d = .ok t) (hkind : t.kind = .gpt)
    (hchange : command.change N o d t = .ok t') (hcommit : stCommit d t' = some ws)
    (hcrc : CrcDetects d ws) :
    (Recoverable o d t → ∀ k, Survives d t t' ws k) ∧
      (Exposed d t t' ws → (∀ k, Survives d t t' ws k) → Spared d t) := by
  obtain ⟨hs0, ⟨hfits, hparts⟩, lba, loaded, hloaded, hloadedParts, hwhich⟩ := loaded_copy hd hload hkind
  have hsame := change_parts hchange
  have hkind' : t'.kind = .gpt := by
    rw [hsame]
    exact hkind
  have hfits' : TableFits t' := by
    rw [hsame]
    exact hfits.withParts _
  have hsectors : tableSectors d t' = tableSectors d t := by
    rw [hsame]
    rfl
  rw [stCommit, if_pos hkind'] at hcommit
  obtain ⟨e, primary, backup, s0, hc, hws⟩ := stWriteGpt_eq_some hd hfits' hcommit
  have hgpt : ws = gptWrites d t' e primary backup s0 := hws
  obtain ⟨last, hlast⟩ : ∃ last, last = (sectorWrites d.sector ws).length + tableSectors d t' + 1 :=
    ⟨_, rfl⟩
  have happly : d.apply ws = d.cut ws last := d.apply_eq_cut ws (by omega)
  have hlateAt : ∀ k, 2 * tableSectors d t + 3 ≤ d.lbas → tableSectors d t < k →
      Late d (d.cut ws k) t' e primary s0 := by
    intro k hroom hk
    rw [hgpt]
    exact cut_late hd hc (by omega) (by omega)
  have hearlyAt : ∀ k, 2 * tableSectors d t + 3 ≤ d.lbas → k ≤ tableSectors d t →
      Early d (d.cut ws k) t := by
    intro k hroom hk
    have he := cut_early hd hc (by omega) (by omega : k ≤ tableSectors d t')
    rw [← hgpt] at he
    exact ⟨he.sound, he.sector, he.lbas, fun i hi => he.other i (by omega)⟩
  constructor
  · intro hr k
    have hroom := hr.room
    have hparts' : GptFits t' t'.parts := by
      have hchanged := change_gpt_fits hchange hkind hfits hparts hr.names hr.options
      rw [hsame]
      exact ⟨hchanged.entries, hchanged.nodup⟩
    have hlate : Late d (d.apply ws) t' e primary s0 := happly ▸ hlateAt last hroom (by omega)
    have hmbr : IsProtectiveSector ((d.apply ws).data 0) := by
      cases hlate.mbr with
      | inl hold => rwa [hold]
      | inr hnew => exact hnew ▸ hc.mbr.2
    by_cases hk : k ≤ tableSectors d t
    · exact early_survives hd hload hkind hr hcrc (hearlyAt k hroom hk) hlate.sound hmbr
        (hlate.loadsParts hc hd hfits' hparts' (by omega) hs0)
    · exact .inr ((hlateAt k hroom (by omega)).loadsParts hc hd hfits' hparts' (by omega) hs0)
  · intro hx hall
    rcases hwhich with rfl | ⟨rfl, -⟩
    · have hearly := hearlyAt (tableSectors d t) hx.room (Nat.le_refl _)
      exact .inr (hx.backup_spared hcrc hearly (by rw [hloaded]; rfl) (hall _))
    · exact .inr ⟨loaded, hloaded, .of_eq hloadedParts, hx.apart _ (gptCopy_eq_some.mp hloaded).1⟩

end

def digitNumbers : Numbers where
  Number := Nat
  strToNumber text :=
    if text ≠ [] ∧ text.all (fun b => 48 ≤ b.toNat && b.toNat ≤ 57) then
      some (text.foldl (fun n b => n * 10 + (b.toNat - 48)) 0)
    else none
  integer n := some (BitVec.ofNat 64 n)
  times n m := n * m.toNat
  strTrunc n := BitVec.ofNat 64 n

def plainOptions : Options := ⟨none, none, none, none, none, none, none, none⟩

/-- `--start` and nothing else. -/
def startAt (text : String) : Options := { plainOptions with start := some (ascii text) }

def smallTable : Table where
  kind := .gpt
  parts := [
    ⟨1, 34, 40, ascii "0FC63DAF-8483-4772-8E79-3D69D8477DE4", [],
      ascii "00000000-0000-4000-8000-000000000001", 0, false, false⟩,
    ⟨2, 60, 80, ascii "0FC63DAF-8483-4772-8E79-3D69D8477DE4", ascii "b",
      ascii "00000000-0000-4000-8000-000000000002", 0, false, false⟩]
  notes := ["the backup GPT is missing or damaged; any write rewrites it"]
  diskGuid := ascii "00000000-0000-4000-8000-000000000000"
  diskSig := 0
  first := 3
  last := 125
  entryCount := 2
  entrySize := 128

/-- The table with its partition 1 in another place. -/
def movedTo (t : Table) (start end_ : Int) : Table :=
  { t with parts := t.parts.map fun p => if p.num = 1 then { p with start := start, end_ := end_ } else p }

def emptyImage : Device := ⟨512, 128, fun _ => stZeros 512⟩

def smallHeader : List UInt8 := [
  69, 70, 73, 32, 80, 65, 82, 84, 0, 0, 1, 0, 92, 0, 0, 0,
  9, 82, 200, 189, 0, 0, 0, 0, 1, 0, 0, 0, 0, 0, 0, 0,
  127, 0, 0, 0, 0, 0, 0, 0, 3, 0, 0, 0, 0, 0, 0, 0,
  125, 0, 0, 0, 0, 0, 0, 0, 0, 0, 0, 0, 0, 0, 0, 64,
  128, 0, 0, 0, 0, 0, 0, 0, 2, 0, 0, 0, 0, 0, 0, 0,
  2, 0, 0, 0, 128, 0, 0, 0, 176, 131, 250, 255] ++ stZeros 420

def smallArray : List UInt8 := [
  175, 61, 198, 15, 131, 132, 114, 71, 142, 121, 61, 105, 216, 71, 125, 228,
  0, 0, 0, 0, 0, 0, 0, 64, 128, 0, 0, 0, 0, 0, 0, 1,
  34, 0, 0, 0, 0, 0, 0, 0, 40, 0, 0, 0, 0, 0, 0, 0,
  0, 0, 0, 0, 0, 0, 0, 0, 0, 0, 0, 0, 0, 0, 0, 0,
  0, 0, 0, 0, 0, 0, 0, 0, 0, 0, 0, 0, 0, 0, 0, 0,
  0, 0, 0, 0, 0, 0, 0, 0, 0, 0, 0, 0, 0, 0, 0, 0,
  0, 0, 0, 0, 0, 0, 0, 0, 0, 0, 0, 0, 0, 0, 0, 0,
  0, 0, 0, 0, 0, 0, 0, 0, 0, 0, 0, 0, 0, 0, 0, 0,
  175, 61, 198, 15, 131, 132, 114, 71, 142, 121, 61, 105, 216, 71, 125, 228,
  0, 0, 0, 0, 0, 0, 0, 64, 128, 0, 0, 0, 0, 0, 0, 2,
  60, 0, 0, 0, 0, 0, 0, 0, 80, 0, 0, 0, 0, 0, 0, 0,
  0, 0, 0, 0, 0, 0, 0, 0, 98] ++ stZeros 327

def protectiveSector : List UInt8 := stZeros 448 ++ [2, 0, 238, 2, 2, 0, 1, 0, 0, 0, 127] ++ stZeros 51 ++ [85, 170]

/-- The primary copy of `smallTable`, and nothing behind it. -/
def primaryOnly : Device := emptyImage.store [(0, protectiveSector), (1, smallHeader), (2, smallArray)]

/-- The header of the backup copy: its own sector, the other header's, its array's and its checksum are others. -/
def smallBackup : List UInt8 := stPut (stPut (stPut (stPut smallHeader 24 8 127) 32 8 1) 72 8 126) 16 4 518127936

/-- The same with its backup copy. -/
def bothCopies : Device := primaryOnly.store [(126, smallArray), (127, smallBackup)]

def moveWrites (d : Device) (t : Table) : List Write := (stCommit d (movedTo t 50 56)).getD []

theorem emptyImage_sound : emptyImage.Sound :=
  ⟨.inl rfl, by decide, by decide, fun _ => List.length_replicate⟩

theorem length_smallArray : smallArray.length = 512 := by
  rw [smallArray, List.length_append, stZeros, List.length_replicate]
  rfl

theorem length_smallHeader : smallHeader.length = 512 := by
  rw [smallHeader, List.length_append, stZeros, List.length_replicate]
  rfl

theorem length_protectiveSector : protectiveSector.length = 512 := by
  simp only [protectiveSector, List.length_append, stZeros, -List.reduceReplicate, List.length_replicate]
  rfl

theorem image_sound {header : List UInt8} (hheader : header.length = 512) :
    (emptyImage.store [(0, protectiveSector), (1, header), (2, smallArray)]).Sound := by
  refine emptyImage_sound.store fun w hw => ?_
  simp only [List.mem_cons, List.not_mem_nil, or_false] at hw
  rcases hw with rfl | rfl | rfl
  · exact ⟨by decide, length_protectiveSector⟩
  · exact ⟨(by decide : 1 < 128), hheader⟩
  · exact ⟨by decide, length_smallArray⟩

theorem primaryOnly_sound : primaryOnly.Sound := image_sound length_smallHeader

theorem bothCopies_sound : bothCopies.Sound := by
  refine primaryOnly_sound.store fun w hw => ?_
  simp only [List.mem_cons, List.not_mem_nil, or_false] at hw
  rcases hw with rfl | rfl
  · exact ⟨by decide, length_smallArray⟩
  · refine ⟨by decide, ?_⟩
    rw [smallBackup, length_stPut, length_stPut, length_stPut, length_stPut]
    exact length_smallHeader

section

variable {d : Device} {t : Table}

theorem stLoad_of_toOption (h : (stLoad d).toOption = some t) : stLoad d = .ok t := by
  generalize stLoad d = loaded at h
  cases loaded with
  | error message => cases h
  | ok u => rw [Option.some.inj h]

/-- What `primaryOnly` comes to, loaded, committed and cut off after a sector and after three. -/
theorem primaryOnly_runs : (stLoad primaryOnly).toOption = some smallTable ∧ tableSectors primaryOnly smallTable = 1 ∧
    (stCommit primaryOnly (movedTo smallTable 50 56)).isSome ∧
    gptCopy (primaryOnly.cut (moveWrites primaryOnly smallTable) 1) 1 = none ∧
    gptCopy (primaryOnly.cut (moveWrites primaryOnly smallTable) 3) 127 = none ∧ stGptHeader primaryOnly 127 = none := by
  decide +kernel

/-- The table of `bothCopies`. -/
def bothTable : Table := { smallTable with notes := [] }

theorem bothCopies_runs : (stCommit bothCopies (movedTo bothTable 50 56)).isSome ∧
    gptCopy (bothCopies.cut (moveWrites primaryOnly smallTable) 3) 127 = none ∧
    (∀ w ∈ (sectorWrites 512 (moveWrites primaryOnly smallTable)).take 1, w.1 = 2) ∧
    (gptCopy bothCopies 127).map (fun copy => (copyParts copy, arrayStart copy.1)) = some (bothTable.parts, 126) := by
  decide +kernel

theorem primaryOnly_loads : stLoad primaryOnly = .ok smallTable := stLoad_of_toOption primaryOnly_runs.1

theorem edit_moves (d : Device) (notes : List String) : (Command.edit (ascii "1")).change digitNumbers (startAt "50s") d
    { smallTable with notes := notes } = .ok (movedTo { smallTable with notes := notes } 50 56) := rfl

theorem primaryOnly_moves : (Command.edit (ascii "1")).change digitNumbers (startAt "50s") primaryOnly smallTable =
    .ok (movedTo smallTable 50 56) := edit_moves _ _

theorem moveWrites_commits (h : (stCommit d (movedTo t 50 56)).isSome) :
    stCommit d (movedTo t 50 56) = some (moveWrites d t) := by
  obtain ⟨ws, hws⟩ := Option.isSome_iff_exists.mp h
  rw [moveWrites, hws, Option.getD_some]

theorem primaryOnly_commits : stCommit primaryOnly (movedTo smallTable 50 56) = some (moveWrites primaryOnly smallTable) :=
  moveWrites_commits primaryOnly_runs.2.2.1

/-- On a device of 128 sectors with an array of one, whose backup array lies behind it. -/
theorem crcDetects_small {t' : Table} {ws : List Write} (hd : d.Sound) (hfits : TableFits t') (hkind : t'.kind = .gpt)
    (hcommit : stCommit d t' = some ws) (hsectors : tableSectors d t' = 1) (hlbas : d.lbas = 128)
    (hone : gptCopy (d.cut ws 1) 1 = none) (hthree : gptCopy (d.cut ws 3) 127 = none)
    (hbackup : ∀ h, stGptHeader d 127 = some h → 3 ≤ arrayStart h) : CrcDetects d ws := by
  intro k lba hlba
  rw [stCommit, if_pos hkind] at hcommit
  obtain ⟨e, primary, backup, s0, hc, hgpt⟩ := stWriteGpt_eq_some hd hfits hcommit
  have hgpt : ws = gptWrites d t' e primary backup s0 := hgpt
  have hroom : 2 * tableSectors d t' + 3 ≤ d.lbas := by omega
  have happly : d.apply ws = d.cut ws 5 := by
    refine d.apply_eq_cut ws ?_
    rw [hgpt, length_sectorWrites_gpt hd hc, hsectors]
  rcases hlba with rfl | rfl
  · have hlate : ∀ j, 1 < j → gptCopy (d.cut ws j) 1 = some (primary, e) := by
      intro j hj
      have hl := cut_late hd hc hroom (by omega : _ < j)
      rw [← hgpt] at hl
      exact hl.gptCopy hc hd hfits hroom
    rcases Nat.lt_or_ge k 2 with hk | hk
    · rcases Nat.le_one_iff_eq_zero_or_eq_one.mp (by omega : k ≤ 1) with rfl | rfl
      · exact .inr (.inl rfl)
      · exact .inl (by rw [checkedCopy, hone]; rfl)
    · right; right
      rw [happly, checkedCopy, hlate k hk, checkedCopy, hlate 5 (by omega)]
  · rw [hlbas]
    rcases Nat.lt_or_ge k 3 with hk | hk
    · -- nothing is written yet behind the primary array
      right; left
      have hslices := length_arraySlices hd hc
      have hfit := sectorWrites_fit hd hc hroom
      have hkept : ∀ i, 3 ≤ i → d.data i = (d.cut ws k).data i := by
        intro i hi
        refine (BlockDevice.writeAll_other fun w hw => ?_).symm
        have hw := List.take_subset_take_left _ (by omega : k ≤ 2) hw
        rw [hgpt, sectorWrites_gpt hd hc, List.take_append, BlockDevice.length_run, hslices, hsectors, List.take_succ_cons,
          List.take_zero, List.take_of_length_le (by simp [hslices, hsectors])] at hw
        rcases List.mem_append.mp hw with hw | hw
        · have hrange := BlockDevice.run_range hw
          omega
        · rw [List.mem_singleton.mp hw]
          omega
      have hcutLbas : d.lbas = (d.cut ws k).lbas := by
        rw [hgpt]
        exact (Device.store_lbas fun w hw => (hfit w (List.mem_of_mem_take hw)).1).symm
      have hcopy : gptCopy d 127 = gptCopy (d.cut ws k) 127 := gptCopy_congr rfl hcutLbas (hkept 127 (by decide))
        fun h hh i _ hi _ => hkept i ((hbackup h hh).trans hi)
      rw [checkedCopy, checkedCopy, hcopy]
    · rcases Nat.lt_or_ge k 4 with hshort | hlong
      · obtain rfl : k = 3 := by omega
        exact .inl (by rw [checkedCopy, hthree]; rfl)
      · right; right
        have hcopy := gptCopy_before_mbr hd hc hroom (by omega : _ ≤ k) (by decide : 127 ≠ 0)
        rw [← hgpt] at hcopy
        rw [checkedCopy, hcopy, checkedCopy]

theorem primaryOnly_sectors : tableSectors primaryOnly smallTable = 1 := primaryOnly_runs.2.1

theorem primaryOnly_lost : gptCopy (primaryOnly.cut (moveWrites primaryOnly smallTable) 1) 1 = none ∧
    gptCopy (primaryOnly.cut (moveWrites primaryOnly smallTable) 3) 127 = none ∧ stGptHeader primaryOnly 127 = none :=
  primaryOnly_runs.2.2.2

theorem smallTable_fits : TableFits smallTable := (loaded_copy primaryOnly_sound primaryOnly_loads rfl).2.1.1

theorem primaryOnly_crcDetects : CrcDetects primaryOnly (moveWrites primaryOnly smallTable) := by
  obtain ⟨hone, hthree, hnone⟩ := primaryOnly_lost
  refine crcDetects_small primaryOnly_sound (smallTable_fits.withParts _) rfl primaryOnly_commits primaryOnly_sectors rfl
    hone hthree fun h hh => ?_
  rw [hnone] at hh
  cases hh

theorem primaryOnly_backup : gptCopy primaryOnly 127 = none := by
  cases hcopy : gptCopy primaryOnly 127 with
  | none => rfl
  | some copy =>
    have hheader := (gptCopy_eq_some.mp hcopy).1
    rw [primaryOnly_lost.2.2] at hheader
    cases hheader

theorem primaryOnly_committed : ∃ e primary backup s0,
    Committed primaryOnly (movedTo smallTable 50 56) e primary backup s0 ∧
      moveWrites primaryOnly smallTable = gptWrites primaryOnly (movedTo smallTable 50 56) e primary backup s0 :=
  stWriteGpt_eq_some primaryOnly_sound (smallTable_fits.withParts _) primaryOnly_commits

theorem primaryOnly_cut_lost (parts : List StPart) :
    ¬LoadsParts (primaryOnly.cut (moveWrites primaryOnly smallTable) 1) parts := by
  rintro ⟨t, hload, hkind, -⟩
  obtain ⟨e, primary, backup, s0, hc, hgpt⟩ := primaryOnly_committed
  have hsectors : tableSectors primaryOnly (movedTo smallTable 50 56) = 1 := primaryOnly_sectors
  have he := cut_early primaryOnly_sound hc (by rw [hsectors]; decide) (Nat.le_of_eq hsectors.symm)
  rw [← hgpt] at he
  have hlbas : (primaryOnly.cut (moveWrites primaryOnly smallTable) 1).lbas = 128 := he.lbas
  obtain ⟨-, -, lba, copy, hcopy, -, hwhich⟩ := loaded_copy he.sound hload hkind
  have hlba : lba = 1 ∨ lba = 127 := by omega
  have hnone : gptCopy (primaryOnly.cut (moveWrites primaryOnly smallTable) 1) lba = none := by
    rcases hlba with rfl | rfl
    · exact primaryOnly_lost.1
    · exact (he.gptCopy_eq (by omega) fun h hh => by rw [primaryOnly_lost.2.2] at hh; cases hh).trans primaryOnly_backup
  rw [hnone] at hcopy
  cases hcopy

/-- The primary copy is the only one, and writing the new array over it loses the table. -/
theorem interrupted_commit_loses_table : ¬∀ (N : Numbers) (o : Options) (command : Command)
    (d : Device) (t t' : Table) (ws : List Write), d.Sound → stLoad d = .ok t → t.kind = .gpt →
      command.change N o d t = .ok t' → stCommit d t' = some ws → CrcDetects d ws →
      ∀ k, Survives d t t' ws k := by
  intro hclaim
  have hsurvives := hclaim digitNumbers (startAt "50s") (.edit (ascii "1")) primaryOnly smallTable
    (movedTo smallTable 50 56) (moveWrites primaryOnly smallTable) primaryOnly_sound primaryOnly_loads rfl
    primaryOnly_moves primaryOnly_commits primaryOnly_crcDetects 1
  exact hsurvives.elim (primaryOnly_cut_lost _) (primaryOnly_cut_lost _)

/-- The primary header names sector 2 for its array, which is one sector, and the last sector for its backup. -/
theorem primaryOnly_header : (stGptHeader primaryOnly 1).map (fun h => (arrayStart h, arraySectors primaryOnly h, stLe h 32 8)) =
    some (2, 1, 127) := by decide +kernel

theorem primaryOnly_named {h : List UInt8} (hh : stGptHeader primaryOnly 1 = some h) :
    arrayStart h = 2 ∧ arraySectors primaryOnly h = 1 ∧ stLe h 32 8 = 127 := by
  have heq := primaryOnly_header
  rw [hh, Option.map_some, Option.some.injEq, Prod.mk.injEq, Prod.mk.injEq] at heq
  exact heq

/-- While only sector 2 is written, the primary copy reads the same with and without a backup. -/
theorem bothCopies_primary {sectors : List (Nat × List UInt8)} (h : ∀ w ∈ sectors, w.1 = 2) :
    gptCopy (bothCopies.store sectors) 1 = gptCopy (primaryOnly.store sectors) 1 := by
  have hlbas {d : Device} (hd : d.lbas = 128) : (d.store sectors).lbas = 128 :=
    (Device.store_lbas fun w hw => by rw [h w hw, hd]; decide).trans hd
  have hsame : ∀ i, i < 126 → (primaryOnly.store sectors).data i = (bothCopies.store sectors).data i := by
    intro i hi
    refine BlockDevice.writeAll_congr (BlockDevice.writeAll_other fun w hw => ?_).symm
    simp only [List.mem_cons, List.not_mem_nil, or_false] at hw
    rcases hw with rfl | rfl <;> dsimp only <;> omega
  have hheader : stGptHeader (primaryOnly.store sectors) 1 = stGptHeader primaryOnly 1 :=
    stGptHeader_congr rfl (hlbas rfl) (BlockDevice.writeAll_other fun w hw => by rw [h w hw]; decide)
  have hcopy : gptCopy (primaryOnly.store sectors) 1 = gptCopy (bothCopies.store sectors) 1 := by
    refine gptCopy_congr rfl ((hlbas rfl).trans (hlbas rfl).symm) (hsame 1 (by decide)) fun header hh i _ _ hend => hsame i ?_
    obtain ⟨hstart, hone, -⟩ := primaryOnly_named (hheader ▸ hh)
    have hsectors : arraySectors (primaryOnly.store sectors) header = arraySectors primaryOnly header := rfl
    omega
  exact hcopy.symm

theorem bothCopies_backup : ∃ copy, gptCopy bothCopies 127 = some copy ∧ copyParts copy = bothTable.parts ∧
    arrayStart copy.1 = 126 := by
  obtain ⟨copy, hcopy, heq⟩ := Option.map_eq_some_iff.mp bothCopies_runs.2.2.2
  exact ⟨copy, hcopy, (Prod.mk.inj heq).1, (Prod.mk.inj heq).2⟩

theorem gptTable_notes (h e : List UInt8) (notes notes' : List String) :
    gptTable h e notes' = { gptTable h e notes with notes := notes' } := by
  simp only [gptTable]

/-- A device that has what `d` has, and a backup where the header says, loads as `d` does, without the note. -/
theorem stLoad_backed {d' : Device} {backup : List UInt8 × List UInt8} (hload : stLoad d = .ok t) (hkind : t.kind = .gpt)
    (hlbas : 1 ≤ d.lbas) (hlbas' : 1 ≤ d'.lbas) (hs0 : d'.data 0 = d.data 0) (hprimary : gptCopy d' 1 = gptCopy d 1)
    (hnone : gptCopy d (d.lbas - 1) = none) (hbackup : gptCopy d' (d'.lbas - 1) = some backup)
    (hat : ∀ h, stGptHeader d 1 = some h → stLe h 32 8 = (d'.lbas : Int) - 1) : stLoad d' = .ok { t with notes := [] } := by
  obtain ⟨hprotective, hgpt⟩ := stLoad_gpt hlbas hload hkind
  rw [stLoad_protective hlbas' hs0 hprotective]
  unfold stLoadGpt at hgpt ⊢
  rw [hnone] at hgpt
  rw [hprimary, hbackup]
  cases hcopy : gptCopy d 1 with
  | none =>
    rw [hcopy] at hgpt
    cases hgpt
  | some copy =>
    obtain ⟨h, e⟩ := copy
    rw [hcopy] at hgpt
    dsimp only
    rw [if_pos (hat h (gptCopy_eq_some.mp hcopy).1), gptTable_notes h e _ [], Except.ok.inj hgpt]

theorem bothCopies_loads : stLoad bothCopies = .ok bothTable := by
  obtain ⟨backup, hbackup, -⟩ := bothCopies_backup
  have hprimary : gptCopy bothCopies 1 = gptCopy primaryOnly 1 := @bothCopies_primary [] fun w hw => absurd hw List.not_mem_nil
  exact stLoad_backed primaryOnly_loads rfl (by decide) (by decide) rfl hprimary primaryOnly_backup hbackup
    fun h hh => (primaryOnly_named hh).2.2

/-- The backup makes no difference to what is written. -/
theorem bothCopies_writes : moveWrites bothCopies bothTable = moveWrites primaryOnly smallTable := by
  unfold moveWrites stCommit
  rfl

theorem bothCopies_commits : stCommit bothCopies (movedTo bothTable 50 56) = some (moveWrites bothCopies bothTable) :=
  moveWrites_commits bothCopies_runs.1

theorem bothCopies_sectors : tableSectors bothCopies bothTable = 1 := primaryOnly_sectors

theorem bothCopies_crcDetects : CrcDetects bothCopies (moveWrites bothCopies bothTable) := by
  have hone : gptCopy (bothCopies.cut (moveWrites bothCopies bothTable) 1) 1 = none := by
    rw [bothCopies_writes]
    exact (bothCopies_primary bothCopies_runs.2.2.1).trans primaryOnly_lost.1
  have hthree : gptCopy (bothCopies.cut (moveWrites bothCopies bothTable) 3) 127 = none := by
    rw [bothCopies_writes]
    exact bothCopies_runs.2.1
  refine crcDetects_small bothCopies_sound (smallTable_fits.withParts _) rfl bothCopies_commits bothCopies_sectors rfl
    hone hthree fun h hh => ?_
  obtain ⟨copy, hcopy, -, hstart⟩ := bothCopies_backup
  obtain rfl := Option.some.inj (hh.symm.trans (gptCopy_eq_some.mp hcopy).1)
  omega

theorem startAt_keeps (text : String) : GptReadable (startAt text) ∧ ∀ name, (startAt text).name = some name → NameFits name :=
  ⟨⟨nofun, nofun⟩, nofun⟩

/-- With a good backup the move of a partition survives wherever it is interrupted. -/
theorem interrupted_commit_survives_small : Recoverable (startAt "50s") bothCopies bothTable ∧
    ∀ k, Survives bothCopies bothTable (movedTo bothTable 50 56) (moveWrites bothCopies bothTable) k := by
  have hrecoverable : Recoverable (startAt "50s") bothCopies bothTable := by
    obtain ⟨copy, hcopy, hparts, hstart⟩ := bothCopies_backup
    refine ⟨?_, .inr ⟨copy, hcopy, .of_eq hparts, .inr ?_⟩, (startAt_keeps _).1, (startAt_keeps _).2⟩
    · exact (Nat.le_of_eq (congrArg (2 * · + 3) bothCopies_sectors)).trans (by decide)
    · rw [hstart]
      exact (Nat.le_of_eq (congrArg (2 + ·) bothCopies_sectors)).trans (by decide)
  have hsurvives := interrupted_commit_survives bothCopies_sound bothCopies_loads rfl (edit_moves _ _) bothCopies_commits
    bothCopies_crcDetects
  exact ⟨hrecoverable, hsurvives.1 hrecoverable⟩

end

end Ussr.Stalin
