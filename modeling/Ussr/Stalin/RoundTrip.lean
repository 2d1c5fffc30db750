import Ussr.Stalin.Interrupted
import Ussr.Stalin.MbrRoundTrip

/-! A run of commands on a device. After each of them the device loads as the table that the
command committed, and a GPT does so from its backup copy alone. -/

namespace Ussr.Stalin
open ByteFields Codec Real64

section

variable {d d' : Device} {t : Table} {ws : List Write} {e primary backup s0 : List UInt8}

/-- The device loads as the table: its kind, its GUID or signature and its partitions, in
whatever order these are in memory. -/
def RoundTrips (d : Device) (t : Table) : Prop :=
  ∃ u, stLoad d = .ok u ∧ u.kind = t.kind ∧ u.diskGuid = t.diskGuid ∧ u.diskSig = t.diskSig ∧
    u.parts.Perm t.parts

/-- A device on which the primary copy of `d` has been lost, and no more. -/
structure PrimaryLost (d : Device) (t : Table) (d' : Device) : Prop where
  sound : d'.Sound
  sector : d'.sector = d.sector
  lbas : d'.lbas = d.lbas
  other : ∀ i, i = 0 ∨ 2 + tableSectors d t ≤ i → d'.data i = d.data i
  lost : gptCopy d' 1 = none

theorem apply_backup (hd : d.Sound) (hc : Committed d t e primary backup s0)
    (hroom : 2 * tableSectors d t + 3 ≤ d.lbas) :
    (d.apply (gptWrites d t e primary backup s0)).data 0 = s0 ∧
      (d.apply (gptWrites d t e primary backup s0)).data (d.lbas - 1) = backup ∧
      BlockDevice.read (d.apply (gptWrites d t e primary backup s0)).data
        (d.lbas - 1 - tableSectors d t) (tableSectors d t) = slices d.sector e := by
  have hslices := length_arraySlices hd hc
  obtain ⟨before, hbefore⟩ : ∃ before, before = BlockDevice.writeAll
      (BlockDevice.run 2 (slices d.sector e) ++ [(1, primary)]) d.data := ⟨_, rfl⟩
  have hdata : (d.apply (gptWrites d t e primary backup s0)).data =
      BlockDevice.write (BlockDevice.write (BlockDevice.writeAll
        (BlockDevice.run (d.lbas - 1 - tableSectors d t) (slices d.sector e)) before)
          (d.lbas - 1, backup)) (0, s0) := by
    have hall : BlockDevice.run 2 (slices d.sector e) ++ (1, primary) ::
        laterSectors d t e backup s0 = (BlockDevice.run 2 (slices d.sector e) ++ [(1, primary)]) ++
          (BlockDevice.run (d.lbas - 1 - tableSectors d t) (slices d.sector e) ++
            [(d.lbas - 1, backup), (0, s0)]) := by
      simp only [laterSectors, List.append_assoc, List.cons_append, List.nil_append]
    rw [Device.apply, sectorWrites_gpt hd hc, hall, Device.store]
    dsimp only
    rw [BlockDevice.writeAll_append, BlockDevice.writeAll_append, ← hbefore]
    rfl
  rw [hdata]
  refine ⟨Function.update_self .., ?_, ?_⟩
  · refine (Function.update_of_ne ?_ _ _).trans (Function.update_self ..)
    dsimp only
    omega
  · rw [← hslices]
    refine (BlockDevice.read_congr fun i hi hlt => ?_).trans
      (@BlockDevice.read_run _ before _ (slices d.sector e))
    refine (Function.update_of_ne ?_ _ _).trans (Function.update_of_ne ?_ _ _)
    · dsimp only
      omega
    · dsimp only
      omega

/-- The device loads as `t` with the partitions of the array `e`. -/
def LoadsArray (d : Device) (t : Table) (e : List UInt8) : Prop :=
  ∃ u, stLoad d = .ok u ∧ u.kind = .gpt ∧ u.diskGuid = t.diskGuid ∧ u.diskSig = 0 ∧
    u.parts = gptParts e t.entryCount.toNat t.entrySize.toNat

theorem stLoad_copy {h : List UInt8} {alt entriesLba crc : Int} (hd' : d'.Sound)
    (hs0 : IsProtectiveSector (d'.data 0)) (hh : HeaderHolds d' t alt entriesLba crc h)
    (hcopy : gptCopy d' 1 = some (h, e) ∨
      gptCopy d' 1 = none ∧ gptCopy d' (d'.lbas - 1) = some (h, e)) : LoadsArray d' t e := by
  have hlbas := hd'.lbas
  have hload : ∃ notes, stLoad d' = .ok (gptTable h e notes) := by
    rcases hcopy with hprimary | ⟨hnone, hbackup⟩
    · obtain ⟨notes, hload⟩ := stLoadGpt_primary hprimary
      exact ⟨notes, (stLoad_protective (by omega) rfl hs0).trans hload⟩
    · obtain ⟨notes, hload⟩ := stLoadGpt_backup hnone hbackup
      exact ⟨notes, (stLoad_protective (by omega) rfl hs0).trans hload⟩
  obtain ⟨notes, hload⟩ := hload
  refine ⟨_, hload, ?_⟩
  dsimp only [gptTable]
  rw [hh.guid, hh.count, hh.entrySize]
  exact ⟨rfl, rfl, rfl, rfl⟩

theorem gpt_commit_loads (hd : d.Sound) (ht : TableFits t) (hkind : t.kind = .gpt)
    (hroom : 2 * tableSectors d t + 3 ≤ d.lbas) (hcommit : stCommit d t = some ws) :
    (d.apply ws).Sound ∧ ∃ e, gptArray d t = some e ∧ LoadsArray (d.apply ws) t e ∧
      ∀ d', PrimaryLost (d.apply ws) t d' → LoadsArray d' t e := by
  rw [stCommit, if_pos hkind] at hcommit
  obtain ⟨e, primary, backup, s0, hc, hgpt⟩ := stWriteGpt_eq_some hd ht hcommit
  have hgpt : ws = gptWrites d t e primary backup s0 := hgpt
  have hsector := hd.sector_bounds.1
  have happly : d.apply ws = d.cut ws (2 * tableSectors d t + 3) := by
    refine d.apply_eq_cut ws ?_
    rw [hgpt, length_sectorWrites_gpt hd hc]
  have hlate : Late d (d.apply ws) t e primary s0 := by
    rw [happly, hgpt]
    exact cut_late hd hc hroom (by omega)
  obtain ⟨hmbr, hlast, harray⟩ := apply_backup hd hc hroom
  rw [← hgpt] at hmbr hlast harray
  have hs0 : IsProtectiveSector ((d.apply ws).data 0) := by
    rw [hmbr]
    exact hc.mbr.2
  refine ⟨hlate.sound, e, hc.array, ?_, fun d' hlost => ?_⟩
  · exact stLoad_copy hlate.sound hs0 (hc.primary.congr hlate.sector)
      (.inl (hlate.gptCopy hc hd ht hroom))
  · have hlbas : d'.lbas = d.lbas := hlost.lbas.trans hlate.lbas
    have hsame : d'.sector = d.sector := hlost.sector.trans hlate.sector
    have hother : ∀ i, i = 0 ∨ 2 + tableSectors d t ≤ i → d'.data i = (d.apply ws).data i :=
      hlost.other
    have hs0' : IsProtectiveSector (d'.data 0) := by
      rwa [hother 0 (.inl rfl)]
    have hholds : HeaderHolds d' t 1 ((d.lbas - 1 - tableSectors d t : Nat) : Int)
        (stCrc32 e 0 (t.entryCount * t.entrySize).toNat) backup := hc.backup.congr hsame
    have hcopy : gptCopy d' (d'.lbas - 1) = some (backup, e) := by
      refine gptCopy_holds hlost.sound hholds ht (by omega) ?_ (by omega)
        (?_ : entrySectors d' t.entryCount t.entrySize = tableSectors d t) (by omega) ?_ rfl
      · rw [hlbas, hother _ (by omega), hlast]
      · rw [← hc.sectors.1, entrySectors, hsame, entrySectors]
      · rw [BlockDevice.read_congr fun i hi _ => hother i (by omega), harray]
        exact flatten_slices (by omega) hc.length
    exact stLoad_copy hlost.sound hs0' hholds (.inr ⟨hlost.lost, hcopy⟩)

theorem mbr_commit_loads (hd : d.Sound) (hkind : t.kind = .mbr) (hparts : MbrFits t.parts)
    (hsig : 0 ≤ t.diskSig ∧ t.diskSig < 4294967296) (hcommit : stCommit d t = some ws) :
    (d.apply ws).Sound ∧ ∃ u, stLoad (d.apply ws) = .ok u ∧ u.kind = .mbr ∧ u.diskGuid = [] ∧
      u.diskSig = t.diskSig ∧
      u.parts.Perm (primaries t.parts ++ (primaries t.parts).flatMap (logicalsOf d)) := by
  rw [stCommit, if_neg fun hgpt => gpt_ne_mbr (hgpt.symm.trans hkind)] at hcommit
  obtain ⟨s0, hplaced, hws⟩ := Option.bind_eq_some_iff.mp hcommit
  obtain rfl := Option.some.inj hws
  obtain ⟨hlen, hmark, hflags, hprotective, hreadSig, hperm⟩ := mbrSector_reads hd hparts hsig hplaced
  have hsector := hd.sector_bounds.1
  have hlbas := hd.lbas
  have hwrites : sectorWrites d.sector [⟨0, s0⟩] = [(0, s0)] := by
    simp only [sectorWrites, List.flatMap_cons, List.flatMap_nil, List.append_nil, Write.sectors,
      slices_one (by omega : 0 < d.sector) hlen, BlockDevice.run]
  have hdata : (d.apply [⟨0, s0⟩]).data = BlockDevice.write d.data (0, s0) := by
    rw [Device.apply, hwrites]
    rfl
  have hkept : (d.apply [⟨0, s0⟩]).lbas = d.lbas := by
    rw [Device.apply, hwrites]
    exact Device.store_lbas fun w hw => by
      rw [List.mem_singleton.mp hw]
      dsimp only
      omega
  have hsound : (d.apply [⟨0, s0⟩]).Sound := by
    rw [Device.apply, hwrites]
    refine hd.store fun w hw => ?_
    rw [List.mem_singleton.mp hw]
    exact ⟨by dsimp only; omega, hlen⟩
  have hzero : (d.apply [⟨0, s0⟩]).data 0 = s0 := by
    rw [hdata]
    exact Function.update_self ..
  have hload : stLoad (d.apply [⟨0, s0⟩]) = .ok { Table.blank with
      kind := .mbr
      diskSig := stLe s0 440 4
      parts := mbrParts (d.apply [⟨0, s0⟩]) s0 } := by
    unfold stLoad
    rw [stRead_one (by omega), Option.getD_some, hzero]
    dsimp only
    rw [if_neg (by simp [hmark.1, hmark.2]), if_neg (by simp [hflags]), if_neg (by simp [hprotective])]
  refine ⟨hsound, _, hload, ?_⟩
  dsimp only [Table.blank]
  refine ⟨rfl, rfl, hreadSig, ?_⟩
  refine (mbrParts_perm _ s0).trans ?_
  have hchains : ∀ p, logicalsOf (d.apply [⟨0, s0⟩]) p = logicalsOf d p := by
    intro p
    refine logicalsOf_congr hkept (fun i hi => ?_) p
    rw [hdata]
    exact Function.update_of_ne hi _ _
  rw [funext hchains]
  exact hperm.append (hperm.flatMap_right _)

end

section

variable {N : Numbers} {d d' d0 : Device} {o : Options} {command : Command} {t t' : Table}
  {last : Option Table}

structure Step (N : Numbers) (o : Options) (command : Command) (d : Device) (t : Table)
    (d' : Device) : Prop where
  change : stChanged N o d command = .ok t
  commit : ∃ ws, stCommit d t = some ws ∧ d' = d.apply ws

/-- What a device keeps of a table: a GPT has room for both copies and takes the options, and
the logical partitions in memory are those on the chains of the extended ones in memory. -/
structure Keeps (o : Options) (d : Device) (t : Table) : Prop where
  room : t.kind = .gpt → 2 * tableSectors d t + 3 ≤ d.lbas
  options : t.kind = .gpt → GptReadable o
  chains : t.kind = .mbr → (t.parts.filter fun p => p.logical).Perm
    ((primaries t.parts).flatMap (logicalsOf d))

/-- The devices that runs of commands reach, each with the table committed last; `K` holds of
every commit. -/
inductive Reached (N : Numbers) (K : Options → Device → Table → Prop) (d0 : Device) :
    Device → Option Table → Prop
  | start : Reached N K d0 d0 none
  | step {d d' : Device} {last : Option Table} {o : Options} {command : Command} {t : Table} :
      Reached N K d0 d last → Step N o command d t d' →
      (∀ text, o.name = some text → NameFits text) → K o d t → Reached N K d0 d' (some t)

def LoadsAgain (d : Device) (t : Table) : Prop :=
  RoundTrips d t ∧ (t.kind = .gpt → ∀ d', PrimaryLost d t d' → RoundTrips d' t)

theorem stLoad_mbr (hlbas : 1 ≤ d.lbas) (h : stLoad d = .ok t) (hnone : t.kind ≠ .none)
    (hgpt : t.kind ≠ .gpt) : isProtective (d.data 0) = false ∧ t = { Table.blank with
      kind := .mbr
      diskSig := stLe (d.data 0) 440 4
      parts := mbrParts d (d.data 0) } := by
  unfold stLoad at h
  rw [stRead_one (by omega), Option.getD_some] at h
  dsimp only at h
  split_ifs at h with hmark hflags hprotective
  · obtain rfl := Except.ok.inj h
    exact absurd rfl hnone
  · obtain ⟨lba, h', e, -, ht, -⟩ := stLoadGpt_eq_ok h
    rw [ht] at hgpt
    exact absurd (gptTable_parts (h', e) _).1 hgpt
  · exact ⟨Bool.eq_false_of_not_eq_true hprotective, (Except.ok.inj h).symm⟩
  · obtain rfl := Except.ok.inj h
    exact absurd rfl hnone

theorem mbrParts_fits {s0 : List UInt8} (hprotective : isProtective s0 = false) :
    MbrFits (mbrParts d s0) := by
  have hperm := mbrParts_perm d s0
  have hown : ∀ p ∈ (List.range 4).filterMap (mbrPart s0), SlotFits p := by
    intro p hp
    obtain ⟨k, hk, hpart⟩ := List.mem_filterMap.mp hp
    exact (mbrPart_fits (List.mem_range.mp hk) hprotective hpart).1
  have hprimaries : (primaries (mbrParts d s0)).Perm ((List.range 4).filterMap (mbrPart s0)) := by
    have hslots : primaries ((List.range 4).filterMap (mbrPart s0)) =
        (List.range 4).filterMap (mbrPart s0) :=
      List.filter_eq_self.mpr fun p hp => by rw [(hown p hp).logical]; rfl
    have hchains : primaries (((List.range 4).filterMap (mbrPart s0)).flatMap (logicalsOf d)) = [] := by
      refine List.filter_eq_nil_iff.mpr fun p hp => ?_
      obtain ⟨q, -, hq⟩ := List.mem_flatMap.mp hp
      rw [(logicalsOf_logical hq).1]
      exact Bool.false_ne_true
    have hfilter := hperm.filter fun p => !p.logical
    rw [List.filter_append] at hfilter
    change (primaries _).Perm (primaries _ ++ primaries _) at hfilter
    rwa [hslots, hchains, List.append_nil] at hfilter
  refine ⟨fun p hp => (hown p (hprimaries.mem_iff.mp hp)).placed, ?_, fun p hp hlogical => ?_⟩
  · refine (hprimaries.map StPart.num).nodup_iff.mpr ?_
    rw [List.map_filterMap]
    refine List.nodup_range.filterMap fun k k' num hk hk' => ?_
    obtain ⟨p, hp, rfl⟩ := Option.map_eq_some_iff.mp hk
    obtain ⟨p', hp', heq⟩ := Option.map_eq_some_iff.mp hk'
    have hnum := (mbrPart_num hp).1
    have hnum' := (mbrPart_num hp').1
    omega
  · rcases List.mem_append.mp (hperm.mem_iff.mp hp) with hslot | hchain
    · rw [(hown p hslot).logical] at hlogical
      cases hlogical
    · obtain ⟨q, -, hq⟩ := List.mem_flatMap.mp hchain
      exact (logicalsOf_logical hq).2

theorem stPrepare_spec (hd : d.Sound) (h : stPrepare d = .ok t) :
    (t.kind = .gpt ∧ t.diskSig = 0 ∧ TableFits t ∧ GptFits t t.parts) ∨
      (t.kind = .mbr ∧ t.diskGuid = [] ∧ (0 ≤ t.diskSig ∧ t.diskSig < 4294967296) ∧
        MbrFits t.parts) := by
  have hlbas := hd.lbas
  unfold stPrepare at h
  cases hload : stLoad d with
  | error message =>
    rw [hload] at h
    cases h
  | ok u =>
    rw [hload] at h
    dsimp only at h
    split_ifs at h with hnone
    obtain rfl := Except.ok.inj h
    by_cases hkind : u.kind = .gpt
    · left
      obtain ⟨-, hgpt⟩ := stLoad_gpt (by omega) hload hkind
      obtain ⟨lba, h, e, hcopy, hu, -⟩ := stLoadGpt_eq_ok hgpt
      have hfits := gptTable_fits hd hcopy u.notes
      have hparts := gptTable_gptFits h e u.notes
      rw [← hu] at hfits hparts
      exact ⟨hkind, by rw [hu]; rfl, hfits, hparts⟩
    · right
      obtain ⟨hprotective, hu⟩ := stLoad_mbr (by omega) hload hnone hkind
      have hparts := @mbrParts_fits d _ hprotective
      have hsig := stLe_four (d.data 0) 440
      rw [hu]
      dsimp only [Table.blank]
      exact ⟨rfl, rfl, hsig, hparts⟩

theorem stChanged_loaded (hload : stLoad d = .ok t) (hkind : t.kind ≠ .none) :
    stChanged N o d command = command.change N o d t := by
  rw [stChanged, stPrepare, hload]
  dsimp only
  rw [if_neg hkind]
  rfl

/-- A kept command leaves a device that can be opened and that loads as its table, a GPT also
without its primary copy. -/
theorem step_round_trips (hd : d.Sound) (hstep : Step N o command d t d')
    (hnames : ∀ text, o.name = some text → NameFits text) (hkeeps : Keeps o d t) :
    d'.Sound ∧ LoadsAgain d' t := by
  obtain ⟨loaded, hprepare, hchange⟩ := except_bind_ok hstep.change
  obtain ⟨ws, hcommit, rfl⟩ := hstep.commit
  have hsame := change_parts hchange
  have hkind : t.kind = loaded.kind := by rw [hsame]
  have hguid : t.diskGuid = loaded.diskGuid := by rw [hsame]
  have hsig : t.diskSig = loaded.diskSig := by rw [hsame]
  rcases stPrepare_spec hd hprepare with ⟨hgpt, hzero, hfits, hparts⟩ | ⟨hmbr, hblank, hbounds, hparts⟩
  · have htgpt := hkind.trans hgpt
    have hfits' : TableFits t := by
      rw [hsame]
      exact hfits.withParts _
    have hparts' : GptFits t t.parts := by
      have hchanged := change_gpt_fits hchange hgpt hfits hparts hnames (hkeeps.options htgpt)
      rw [hsame]
      exact ⟨hchanged.entries, hchanged.nodup⟩
    obtain ⟨hsound, e, harray, hloads, hbackup⟩ :=
      gpt_commit_loads hd hfits' htgpt (hkeeps.room htgpt) hcommit
    have hperm := gptArray_perm hd hfits' hparts' harray
    have hround : ∀ d'', LoadsArray d'' t e → RoundTrips d'' t := by
      rintro d'' ⟨u, hload, hukind, huguid, husig, huparts⟩
      exact ⟨u, hload, hukind.trans htgpt.symm, huguid, husig.trans (hsig.trans hzero).symm,
        huparts ▸ hperm⟩
    exact ⟨hsound, hround _ hloads, fun _ d'' hlost => hround d'' (hbackup d'' hlost)⟩
  · have htmbr := hkind.trans hmbr
    have hparts' := change_mbr_fits hchange hmbr hparts
    obtain ⟨hsound, u, hload, hukind, huguid, husig, hperm⟩ :=
      mbr_commit_loads hd htmbr hparts' (by rw [hsig]; exact hbounds) hcommit
    refine ⟨hsound, ⟨u, hload, hukind.trans htmbr.symm, huguid.trans (hguid.trans hblank).symm,
      husig, ?_⟩, fun hgpt => absurd (hgpt.symm.trans htmbr) gpt_ne_mbr⟩
    refine hperm.trans (((hkeeps.chains htmbr).symm.append_left _).trans ?_)
    exact (List.perm_append_comm.trans
      (List.filter_append_perm (fun p : StPart => p.logical) t.parts))

/-- Every device that a run of kept commands reaches loads as the table committed last. -/
theorem run_round_trips (hd : d0.Sound) (hreached : Reached N Keeps d0 d last) :
    d.Sound ∧ ∀ t ∈ last, LoadsAgain d t := by
  induction hreached with
  | start => exact ⟨hd, fun t ht => absurd ht (Option.not_mem_none t)⟩
  | step _ hstep hnames hkeeps ih =>
    obtain ⟨hsound, hround⟩ := step_round_trips ih.1 hstep hnames hkeeps
    refine ⟨hsound, fun t ht => ?_⟩
    obtain rfl := Option.some.inj ht
    exact hround

end

def untyped : Options := { plainOptions with type := some zeroGuid }

def untypedTable : Table := { smallTable with parts := smallTable.parts.map fun p =>
  if p.num = 1 then { p with type := zeroGuid } else p }

theorem primaryOnly_moved : Step digitNumbers (startAt "50s") (.edit (ascii "1")) primaryOnly (movedTo smallTable 50 56)
    (primaryOnly.apply (moveWrites primaryOnly smallTable)) := by
  refine ⟨?_, moveWrites primaryOnly smallTable, primaryOnly_commits, rfl⟩
  rw [stChanged_loaded primaryOnly_loads (by decide)]
  exact primaryOnly_moves

theorem primaryOnly_keeps : Keeps (startAt "50s") primaryOnly (movedTo smallTable 50 56) := by
  refine ⟨fun _ => ?_, fun _ => (startAt_keeps _).1, fun hmbr => by cases hmbr⟩
  exact (Nat.le_of_eq (congrArg (2 * · + 3) primaryOnly_sectors)).trans (by decide)

/-- The device after the move loads as the table with both partitions. -/
theorem run_round_trips_moved : (primaryOnly.apply (moveWrites primaryOnly smallTable)).Sound ∧
    ∀ t ∈ some (movedTo smallTable 50 56), LoadsAgain (primaryOnly.apply (moveWrites primaryOnly smallTable)) t :=
  run_round_trips primaryOnly_sound (.step .start primaryOnly_moved (startAt_keeps _).2 primaryOnly_keeps)

theorem primaryOnly_untyped : stChanged digitNumbers untyped primaryOnly (.edit (ascii "1")) =
    .ok untypedTable := by
  rw [stChanged_loaded primaryOnly_loads (by decide)]
  have hchange : (Command.edit (ascii "1")).change digitNumbers untyped primaryOnly smallTable =
      .ok untypedTable := by decide +kernel
  exact hchange

theorem untypedTable_sectors : tableSectors primaryOnly untypedTable = 1 :=
  (tableSectors_withParts primaryOnly smallTable _).trans primaryOnly_sectors

theorem untypedTable_fits : TableFits untypedTable := smallTable_fits.withParts _

theorem untypedTable_loses : (gptArray primaryOnly untypedTable).map (fun e =>
    (gptParts e untypedTable.entryCount.toNat untypedTable.entrySize.toNat).length) = some 1 := by
  decide +kernel

theorem untypedTable_commits : ∃ ws, stCommit primaryOnly untypedTable = some ws :=
  Option.isSome_iff_exists.mp (by decide +kernel)

/-- The partition whose type is set to zero is not found again. -/
theorem run_loses_untyped : ¬∀ (N : Numbers) (d0 d : Device) (last : Option Table), d0.Sound →
    Reached N (fun _ _ _ => True) d0 d last → ∀ t ∈ last, LoadsAgain d t := by
  intro hclaim
  obtain ⟨ws, hws⟩ := untypedTable_commits
  have hstep : Step digitNumbers untyped (.edit (ascii "1")) primaryOnly untypedTable
      (primaryOnly.apply ws) := ⟨primaryOnly_untyped, ws, hws, rfl⟩
  have hagain := hclaim digitNumbers primaryOnly (primaryOnly.apply ws) (some untypedTable)
    primaryOnly_sound (.step .start hstep nofun trivial) untypedTable rfl
  obtain ⟨⟨u, hload, -, -, -, hperm⟩, -⟩ := hagain
  have hroom : 2 * tableSectors primaryOnly untypedTable + 3 ≤ primaryOnly.lbas := by
    rw [untypedTable_sectors]
    decide
  obtain ⟨-, e, harray, ⟨u', hload', -, -, -, hparts⟩, -⟩ :=
    gpt_commit_loads primaryOnly_sound untypedTable_fits rfl hroom hws
  have hone := untypedTable_loses
  rw [harray, Option.map_some, Option.some.injEq] at hone
  rw [Except.ok.inj (hload.symm.trans hload'), hparts] at hperm
  exact absurd (hone.symm.trans hperm.length_eq) (by decide)

end Ussr.Stalin
