import Ussr.Stalin.Changes
import Ussr.Stalin.Commit

/-! The partitions of an MBR. Each is written into the slot of its number and read back from
there; the logical partitions are read from chains that no commit writes. -/

namespace Ussr.Stalin
open ByteFields Codec Real64

section

variable {v w s0 : List UInt8} {p : StPart} {k : Nat}

structure SlotNamed (p : StPart) : Prop where
  num : 1 ≤ p.num ∧ p.num ≤ 4
  type : ∃ b : Nat, 0 < b ∧ b < 256 ∧ b ≠ 238 ∧ p.type = stHex b
  start : 0 ≤ p.start ∧ p.start < 4294967296
  name : p.name = []
  uuid : p.uuid = []
  attrs : p.attrs = 0
  logical : p.logical = false

structure SlotFits (p : StPart) : Prop extends SlotNamed p where
  span : p.start ≤ p.end_ ∧ p.end_ - p.start + 1 < 4294967296

theorem stParseHexByte_stHex : ∀ b < 256, stParseHexByte (stHex b) = some b := by
  decide +kernel

theorem stHexDigit_lt {c : UInt8} {h : Nat} (hc : stHexDigit c = some h) : h < 16 := by
  unfold stHexDigit at hc
  split_ifs at hc
  all_goals
    cases hc
    omega

theorem stParseHexByte_lt {s : Text} {b : Nat} (h : stParseHexByte s = some b) : b < 256 := by
  unfold stParseHexByte at h
  dsimp only at h
  generalize (if 2 < s.length ∧ (s.take 2 = ascii "0x" ∨ s.take 2 = ascii "0X") then s.drop 2
    else s) = digits at h
  split_ifs at h with hlen
  rcases digits with _ | ⟨c, _ | ⟨c', _ | ⟨c'', rest⟩⟩⟩
  · exact absurd (Or.inl Nat.zero_lt_one) hlen
  · obtain ⟨r, hr, hb⟩ := Option.bind_eq_some_iff.mp h
    obtain ⟨x, hx, rfl⟩ := Option.map_eq_some_iff.mp hr
    have hlt := stHexDigit_lt hx
    cases hb
    omega
  · obtain ⟨r, hr, hb⟩ := Option.bind_eq_some_iff.mp h
    obtain ⟨x, hx, rfl⟩ := Option.map_eq_some_iff.mp hr
    obtain ⟨r', hr', hb⟩ := Option.bind_eq_some_iff.mp hb
    obtain ⟨y, hy, rfl⟩ := Option.map_eq_some_iff.mp hr'
    have hlt := stHexDigit_lt hx
    have hlt' := stHexDigit_lt hy
    cases hb
    omega
  · exact absurd (Or.inr (by simp)) hlen

theorem mbrPart_congr (h : bytesAt v (446 + k * 16) 16 = bytesAt w (446 + k * 16) 16) :
    mbrPart v k = mbrPart w k := by
  have hbyte : ∀ j < 16, byteAt v (446 + k * 16 + j) = byteAt w (446 + k * 16 + j) := by
    intro j hj
    rw [byteAt_of_bytesAt h hj]
    exact (byteAt_of_bytesAt rfl hj).symm
  have hfour : ∀ o, o + 4 ≤ 16 →
      stLe v (446 + k * 16 + o) 4 = stLe w (446 + k * 16 + o) 4 := by
    intro o ho
    refine stLe_congr (bytesAt_congr fun j hj hlt => ?_)
    obtain ⟨i, rfl⟩ : ∃ i, j = 446 + k * 16 + i := ⟨j - (446 + k * 16), by omega⟩
    exact hbyte i (by omega)
  have hflag := hbyte 0 (by decide)
  rw [Nat.add_zero] at hflag
  unfold mbrPart
  dsimp only
  rw [hbyte 4 (by decide), hfour 8 (by decide), hfour 12 (by decide), hflag]

theorem mbrPart_zero (h : byteAt v (446 + k * 16 + 4) = 0) : mbrPart v k = none := by
  unfold mbrPart
  dsimp only
  rw [h]
  exact if_neg fun hfound => hfound.1 rfl

theorem four_bytes : ((256 ^ 4 : Nat) : Int) = 4294967296 := by norm_num

theorem stLe_four (v : List UInt8) (i : Nat) : 0 ≤ stLe v i 4 ∧ stLe v i 4 < 4294967296 := by
  obtain ⟨heq, hlt⟩ := @stLe_small v i 4 (by decide)
  rw [four_bytes] at hlt
  omega

theorem mbrPart_fits (hk : k < 4) (hprotective : isProtective s0 = false)
    (h : mbrPart s0 k = some p) : SlotFits p ∧ p.num = k + 1 := by
  have htype : byteAt s0 (446 + k * 16 + 4) ≠ 238 := by
    intro heq
    have hany : isProtective s0 = true :=
      List.any_eq_true.mpr ⟨k, List.mem_range.mpr hk, decide_eq_true heq⟩
    rw [hprotective] at hany
    cases hany
  unfold mbrPart at h
  dsimp only at h
  have hstart := stLe_four s0 (446 + k * 16 + 8)
  have hcount := stLe_four s0 (446 + k * 16 + 12)
  split_ifs at h with hfound
  cases h
  have hbyte := (byteAt s0 (446 + k * 16 + 4)).toNat_lt
  have hne : (byteAt s0 (446 + k * 16 + 4)).toNat ≠ 238 := fun heq =>
    htype (UInt8.toNat_inj.mp heq)
  refine ⟨⟨⟨?_, ⟨_, Nat.pos_of_ne_zero hfound.1, hbyte, hne, rfl⟩, ?_, rfl, rfl, rfl, rfl⟩, ?_⟩, rfl⟩
  all_goals dsimp only
  all_goals omega

theorem stMbrEntry_mbrPart (hp : SlotFits p) (hnum : p.num = k + 1)
    (h : stMbrEntry v k p.boot p.type p.start (wrap (p.end_ - p.start + 1)) = some w)
    (hfit : 446 + k * 16 + 16 ≤ v.length) :
    mbrPart w k = some p ∧ (byteAt w (446 + k * 16) = 0 ∨ byteAt w (446 + k * 16) = 128) ∧
      byteAt w (446 + k * 16 + 4) ≠ 238 := by
  obtain ⟨hflag, ⟨type, htype, hcode⟩, hstart, hcount⟩ := stMbrEntry_reads h hfit
  obtain ⟨b, hpos, hlt, hprotective, hhex⟩ := hp.type
  rw [hhex, stParseHexByte_stHex b hlt] at htype
  have hsame : type = b := (Option.some.inj htype).symm
  rw [hsame] at hcode
  have hbounds := hp.start
  have hspan := hp.span
  have hcode' : (byteAt w (446 + k * 16 + 4)).toNat = b := by
    rw [hcode, UInt8.toNat_ofNat', Nat.mod_eq_of_lt (by omega)]
  have hwrap : wrap (p.end_ - p.start + 1) = p.end_ - p.start + 1 :=
    wrap_of_bounds (by omega) (by omega)
  have hfound : b ≠ 0 ∧ 0 < p.end_ - p.start + 1 := ⟨Nat.ne_of_gt hpos, by omega⟩
  rw [hwrap] at hcount
  have hstart' := stLe_of_four hstart ⟨by omega, by rw [four_bytes]; omega⟩
  have hcount' := stLe_of_four hcount ⟨by omega, by rw [four_bytes]; omega⟩
  refine ⟨?_, ?_, ?_⟩
  · unfold mbrPart
    dsimp only
    rw [hstart', hcount', hcode', hflag, if_pos hfound, ← hhex, ← hnum]
    obtain ⟨num, start, end_, type, name, uuid, attrs, boot, logical⟩ := p
    obtain ⟨⟨-, -, -, rfl, rfl, rfl, rfl⟩, -⟩ := hp
    have hboot : decide ((if boot then 128 else 0) = (128 : UInt8)) = boot := by
      cases boot <;> rfl
    have hend : start + (end_ - start + 1) - 1 = end_ := by omega
    dsimp only
    rw [hboot, hend]
  · rw [hflag]
    split
    · exact .inr rfl
    · exact .inl rfl
  · intro heq
    rw [heq] at hcode'
    exact hprotective (hcode'.symm.trans rfl)

end

section

variable {v w : List UInt8} {p : StPart} {parts : List StPart} {k : Nat}

structure SlotPlaced (p : StPart) : Prop extends SlotNamed p where
  span : (p.start ≤ p.end_ ∧ p.end_ - p.start + 1 < 4294967296) ∨ (-2 ^ 63 ≤ p.end_ ∧ p.end_ < 0)

theorem SlotFits.placed (hp : SlotFits p) : SlotPlaced p := ⟨hp.toSlotNamed, .inl hp.span⟩

theorem stChs_nonneg {i : Nat} {lba : Int} (h : stChs v i lba = some w) : 0 ≤ lba := by
  unfold stChs at h
  split_ifs at h <;> omega

theorem stMbrEntry_last {slot : Nat} {boot : Bool} {code : Text} {start count : Int}
    (h : stMbrEntry v slot boot code start count = some w) : 0 ≤ wrap (start + count - 1) := by
  unfold stMbrEntry at h
  dsimp only at h
  obtain ⟨v1, -, h⟩ := Option.bind_eq_some_iff.mp h
  obtain ⟨type, -, h⟩ := Option.bind_eq_some_iff.mp h
  obtain ⟨v2, hlast, -⟩ := Option.bind_eq_some_iff.mp h
  exact stChs_nonneg hlast

theorem SlotPlaced.fits (hp : SlotPlaced p)
    (h : stMbrEntry v k p.boot p.type p.start (wrap (p.end_ - p.start + 1)) = some w) : SlotFits p := by
  refine ⟨hp.toSlotNamed, ?_⟩
  rcases hp.span with hspan | ⟨hlo, hneg⟩
  · exact hspan
  · have hlast := stMbrEntry_last h
    obtain ⟨q, hq⟩ := wrap_add_multiple (p.end_ - p.start + 1)
    obtain ⟨q', hq'⟩ := wrap_add_multiple (p.start + wrap (p.end_ - p.start + 1) - 1)
    have hbounds := wrap_bounds (p.start + wrap (p.end_ - p.start + 1) - 1)
    omega

def slotOf (p : StPart) : Nat := (p.num - 1).toNat

theorem SlotNamed.slot (hp : SlotNamed p) : slotOf p < 4 ∧ p.num = slotOf p + 1 := by
  have hnum := hp.num
  unfold slotOf
  omega

structure SlotHolds (v : List UInt8) (p : StPart) : Prop where
  part : mbrPart v (slotOf p) = some p
  flag : byteAt v (446 + slotOf p * 16) = 0 ∨ byteAt v (446 + slotOf p * 16) = 128
  type : byteAt v (446 + slotOf p * 16 + 4) ≠ 238

theorem SlotHolds.congr (h : SlotHolds v p)
    (hbytes : bytesAt w (446 + slotOf p * 16) 16 = bytesAt v (446 + slotOf p * 16) 16) :
    SlotHolds w p := by
  have hbyte : ∀ j < 16, byteAt w (446 + slotOf p * 16 + j) = byteAt v (446 + slotOf p * 16 + j) := by
    intro j hj
    rw [byteAt_of_bytesAt hbytes hj]
    exact (byteAt_of_bytesAt rfl hj).symm
  have hfirst := hbyte 0 (by decide)
  rw [Nat.add_zero] at hfirst
  exact ⟨(mbrPart_congr hbytes).trans h.part, hfirst ▸ h.flag, hbyte 4 (by decide) ▸ h.type⟩

theorem foldlM_placeMbr_filter (parts : List StPart) (v : List UInt8) :
    parts.foldlM placeMbr v = (parts.filter fun p => !p.logical).foldlM placeMbr v := by
  induction parts generalizing v with
  | nil => rfl
  | cons p parts ih =>
    rw [List.foldlM_cons, List.filter_cons]
    cases hlogical : p.logical with
    | true =>
      rw [placeMbr, if_pos hlogical]
      exact ih v
    | false =>
      rw [if_pos (by rfl), List.foldlM_cons]
      exact congrArg _ (funext ih)

theorem placeMbrs_spec (hplaced : ∀ p ∈ parts, SlotPlaced p)
    (hnodup : (parts.map StPart.num).Nodup) (hlen : 510 ≤ v.length)
    (h : parts.foldlM placeMbr v = some w) :
    w.length = v.length ∧ (∀ p ∈ parts, SlotFits p ∧ SlotHolds w p) ∧
      ∀ j n, (∀ p ∈ parts, j + n ≤ 446 + slotOf p * 16 ∨ 446 + slotOf p * 16 + 16 ≤ j) →
        bytesAt w j n = bytesAt v j n := by
  induction parts generalizing v with
  | nil =>
    cases h
    exact ⟨rfl, fun p hp => absurd hp List.not_mem_nil, fun _ _ _ => rfl⟩
  | cons p parts ih =>
    rw [List.forall_mem_cons] at hplaced
    rw [List.map_cons, List.nodup_cons] at hnodup
    rw [List.foldlM_cons] at h
    obtain ⟨v1, hplace, hrest⟩ := Option.bind_eq_some_iff.mp h
    have hentry : stMbrEntry v (slotOf p) p.boot p.type p.start (wrap (p.end_ - p.start + 1)) =
        some v1 := by
      rw [placeMbr, if_neg (by rw [hplaced.1.logical]; exact Bool.false_ne_true)] at hplace
      exact hplace
    obtain ⟨hslot, hnum⟩ := hplaced.1.slot
    have hroom : 446 + slotOf p * 16 + 16 ≤ v.length := by omega
    obtain ⟨hlen1, hframe1⟩ := stMbrEntry_frame hentry hroom
    obtain ⟨hlen', hall, hframe⟩ := ih hplaced.2 hnodup.2 (by omega) hrest
    have hfits := hplaced.1.fits hentry
    obtain ⟨hpart, hflag, htype⟩ := stMbrEntry_mbrPart hfits hnum hentry hroom
    have hapart : ∀ q ∈ parts, slotOf p ≠ slotOf q := by
      intro q hq heq
      have hnumq := (hplaced.2 q hq).slot.2
      exact hnodup.1 (List.mem_map.mpr ⟨q, hq, by omega⟩)
    have hkept : bytesAt w (446 + slotOf p * 16) 16 = bytesAt v1 (446 + slotOf p * 16) 16 := by
      refine hframe _ _ fun q hq => ?_
      have hne := hapart q hq
      omega
    refine ⟨hlen'.trans hlen1, ?_, ?_⟩
    · rw [List.forall_mem_cons]
      exact ⟨⟨hfits, SlotHolds.congr ⟨hpart, hflag, htype⟩ hkept⟩, hall⟩
    · intro j n hj
      rw [List.forall_mem_cons] at hj
      exact (hframe j n hj.2).trans (hframe1 j n hj.1)

end

section

variable {d d' : Device}

theorem loadLogical_congr (hlbas : d.lbas = d'.lbas) (h : ∀ i, i ≠ 0 → d.data i = d'.data i)
    (ext turns ebr num : Nat) : loadLogical d ext turns ebr num = loadLogical d' ext turns ebr num := by
  induction turns generalizing ebr num with
  | zero => rfl
  | succ turns ih =>
    rw [loadLogical, loadLogical]
    by_cases hebr : ebr = 0
    · rw [if_pos hebr, if_pos hebr]
    · rw [if_neg hebr, if_neg hebr, stRead_congr hlbas fun i hi _ => h i (by omega)]
      simp only [ih]

theorem logicalsOf_congr (hlbas : d.lbas = d'.lbas) (h : ∀ i, i ≠ 0 → d.data i = d'.data i)
    (p : StPart) : logicalsOf d p = logicalsOf d' p := by
  rw [logicalsOf, stLoadLogical, loadLogical_congr hlbas h, logicalsOf, stLoadLogical]

theorem loadLogical_logical {ext turns ebr num : Nat} {p : StPart}
    (h : p ∈ loadLogical d ext turns ebr num) : p.logical = true ∧ (num : Int) ≤ p.num := by
  induction turns generalizing ebr num with
  | zero => cases h
  | succ turns ih =>
    rw [loadLogical] at h
    by_cases hebr : ebr = 0
    · rw [if_pos hebr] at h
      cases h
    · rw [if_neg hebr] at h
      split at h
      · cases h
      · dsimp only at h
        split_ifs at h with hmark hfound
        · cases h
        all_goals rcases List.mem_append.mp h with hpart | hrest
        all_goals first
          | exact absurd hpart List.not_mem_nil
          | (cases List.mem_singleton.mp hpart; exact ⟨rfl, le_refl _⟩)
          | (have hspec := ih hrest; exact ⟨hspec.1, by omega⟩)

theorem logicalsOf_logical {p q : StPart} (h : q ∈ logicalsOf d p) :
    q.logical = true ∧ 5 ≤ q.num := by
  unfold logicalsOf at h
  split_ifs at h
  · exact loadLogical_logical h
  · cases h

end

section

variable {d : Device} {t : Table} {s0 : List UInt8} {ws : List Write}

def primaries (parts : List StPart) : List StPart := parts.filter fun p => !p.logical

theorem mem_primaries {parts : List StPart} {p : StPart} :
    p ∈ primaries parts ↔ p ∈ parts ∧ p.logical = false := by
  rw [primaries, List.mem_filter, Bool.not_eq_true']

theorem mbrPart_num {k : Nat} {p : StPart} (h : mbrPart s0 k = some p) :
    p.num = k + 1 ∧ p.logical = false := by
  unfold mbrPart at h
  dsimp only at h
  split_ifs at h
  cases h
  exact ⟨rfl, rfl⟩

theorem mbrParts_perm (d : Device) (s0 : List UInt8) :
    (mbrParts d s0).Perm ((List.range 4).filterMap (mbrPart s0) ++
      ((List.range 4).filterMap (mbrPart s0)).flatMap (logicalsOf d)) := by
  have hflat : mbrParts d s0 =
      ((List.range 4).filterMap (mbrPart s0)).flatMap fun p => [p] ++ logicalsOf d p := by
    unfold mbrParts
    induction List.range 4 with
    | nil => rfl
    | cons k slots ih =>
      rw [List.flatMap_cons, ih, List.filterMap_cons]
      cases mbrPart s0 k <;> rfl
  rw [hflat]
  refine (List.flatMap_append_perm _ _ _).symm.trans ?_
  rw [List.flatMap_singleton']

theorem nodup_mbrPart (s0 : List UInt8) : ((List.range 4).filterMap (mbrPart s0)).Nodup := by
  refine List.nodup_range.filterMap fun k k' p hk hk' => ?_
  have hnum := (mbrPart_num hk).1
  have hnum' := (mbrPart_num hk').1
  omega

def mbrBase (d : Device) (t : Table) : List UInt8 :=
  stPut (stPut (stSector0 d) 440 4 t.diskSig) 444 2 0

theorem mbrBase_spec (hd : d.Sound) : (mbrBase d t).length = d.sector ∧
    bytesAt (mbrBase d t) 440 4 = leBytes 4 t.diskSig ∧
    bytesAt (mbrBase d t) 446 64 = List.replicate 64 0 ∧ bytesAt (mbrBase d t) 510 2 = [85, 170] := by
  obtain ⟨hlen, harea, hmark, -⟩ := stSector0_spec hd
  obtain ⟨hlo, -⟩ := hd.sector_bounds
  have hsig : (stPut (stSector0 d) 440 4 t.diskSig).length = d.sector := by
    rw [length_stPut, hlen]
  unfold mbrBase
  refine ⟨?_, ?_, ?_, ?_⟩
  · rw [length_stPut, hsig]
  · rw [bytesAt_stPut_apart (by omega) (by omega), bytesAt_stPut (by omega)]
  · rw [bytesAt_stPut_apart (by omega) (by omega), bytesAt_stPut_apart (by omega) (by omega), harea]
  · rw [bytesAt_stPut_apart (by omega) (by omega), bytesAt_stPut_apart (by omega) (by omega), hmark]

structure MbrFits (parts : List StPart) : Prop where
  placed : ∀ p ∈ primaries parts, SlotPlaced p
  nodup : ((primaries parts).map StPart.num).Nodup
  chained : ∀ p ∈ parts, p.logical = true → 5 ≤ p.num

theorem mbrSector_reads (hd : d.Sound) (hparts : MbrFits t.parts)
    (hsig : 0 ≤ t.diskSig ∧ t.diskSig < 4294967296)
    (h : t.parts.foldlM placeMbr (mbrBase d t) = some s0) :
    s0.length = d.sector ∧ (byteAt s0 510 = 85 ∧ byteAt s0 511 = 170) ∧ flagsValid s0 = true ∧
      isProtective s0 = false ∧ stLe s0 440 4 = t.diskSig ∧
      ((List.range 4).filterMap (mbrPart s0)).Perm (primaries t.parts) := by
  obtain ⟨hlen, hbaseSig, harea, hmark⟩ := @mbrBase_spec d t hd
  obtain ⟨hlo, -⟩ := hd.sector_bounds
  rw [foldlM_placeMbr_filter] at h
  obtain ⟨hlen', hall, hframe⟩ := placeMbrs_spec hparts.placed hparts.nodup (by omega) h
  have hslot : ∀ p ∈ primaries t.parts, slotOf p < 4 := fun p hp => (hall p hp).1.slot.1
  have hempty : ∀ k < 4, (∀ p ∈ primaries t.parts, slotOf p ≠ k) → ∀ j < 16,
      byteAt s0 (446 + k * 16 + j) = 0 := by
    intro k hk hnone j hj
    have hbytes : bytesAt s0 (446 + k * 16) 16 = bytesAt (mbrBase d t) (446 + k * 16) 16 := by
      refine hframe _ _ fun p hp => ?_
      have hne := hnone p hp
      omega
    rw [byteAt_of_bytesAt hbytes hj, ← byteAt_of_bytesAt rfl hj,
      show 446 + k * 16 + j = 446 + (k * 16 + j) by omega, byteAt_of_bytesAt harea (by omega)]
    simp only [byteAt, List.getD_eq_getElem?_getD, List.getElem?_replicate]
    split_ifs <;> rfl
  have hcases : ∀ k < 4, (∃ p ∈ primaries t.parts, slotOf p = k) ∨
      ∀ j < 16, byteAt s0 (446 + k * 16 + j) = 0 := by
    intro k hk
    by_cases hfound : ∃ p ∈ primaries t.parts, slotOf p = k
    · exact .inl hfound
    · exact .inr (hempty k hk fun p hp heq => hfound ⟨p, hp, heq⟩)
  have hmark' : bytesAt s0 510 2 = [85, 170] := by
    refine (hframe 510 2 fun p hp => ?_).trans hmark
    have hlt := hslot p hp
    omega
  have hsig' : bytesAt s0 440 4 = leBytes 4 t.diskSig :=
    (hframe 440 4 fun p hp => by omega).trans hbaseSig
  refine ⟨hlen'.trans hlen, ⟨byteAt_of_bytesAt hmark' (by decide : 0 < 2),
    byteAt_of_bytesAt hmark' (by decide : 1 < 2)⟩, ?_, ?_, ?_, ?_⟩
  · refine List.all_eq_true.mpr fun k hk => ?_
    rw [List.mem_range] at hk
    rw [Bool.or_eq_true, decide_eq_true_iff, decide_eq_true_iff]
    rcases hcases k hk with ⟨p, hp, rfl⟩ | hzero
    · exact (hall p hp).2.flag
    · exact .inl (hzero 0 (by decide))
  · refine List.any_eq_false.mpr fun k hk => ?_
    rw [List.mem_range] at hk
    rw [decide_eq_true_iff]
    rcases hcases k hk with ⟨p, hp, rfl⟩ | hzero
    · exact (hall p hp).2.type
    · rw [hzero 4 (by decide)]
      decide
  · exact stLe_of_four hsig' ⟨hsig.1, by rw [four_bytes]; exact hsig.2⟩
  · refine (List.perm_ext_iff_of_nodup (nodup_mbrPart s0) (hparts.nodup.of_map _)).mpr fun p => ?_
    refine List.mem_filterMap.trans ⟨?_, fun hp => ?_⟩
    · rintro ⟨k, hk, hpart⟩
      rcases hcases k (List.mem_range.mp hk) with ⟨q, hq, rfl⟩ | hzero
      · have hread := (hall q hq).2.part
        rw [hpart] at hread
        exact Option.some.inj hread ▸ hq
      · rw [mbrPart_zero (hzero 4 (by decide))] at hpart
        cases hpart
    · exact ⟨slotOf p, List.mem_range.mpr (hslot p hp), (hall p hp).2.part⟩

end

section

variable {N : Numbers} {d : Device} {t t' : Table} {o : Options} {p p' : StPart} {command : Command}

theorem stTypeTable_mbr : ∀ row ∈ stTypeTable, rowCode .mbr row ≠ [] →
    ∃ b ∈ List.range 256, 0 < b ∧ rowCode .mbr row = stHex b := by
  decide +kernel

theorem stTypeCode_mbr {name code : Text} (h : stTypeCode name .mbr = some code) :
    ∃ b : Nat, 0 < b ∧ b < 256 ∧ code = stHex b := by
  unfold stTypeCode at h
  dsimp only at h
  split at h
  case h_1 row hrow =>
    cases h
    have hmem := List.mem_of_find?_eq_some hrow
    have hfound := List.find?_some hrow
    obtain ⟨b, hb, hpos, hcode⟩ := stTypeTable_mbr row hmem (of_decide_eq_true hfound).2
    exact ⟨b, hpos, List.mem_range.mp hb, hcode⟩
  case h_2 =>
    rw [if_neg gpt_ne_mbr.symm] at h
    cases hbyte : stParseHexByte name with
    | none =>
      rw [hbyte] at h
      cases h
    | some b =>
      rw [hbyte] at h
      dsimp only at h
      split_ifs at h with hpos
      cases h
      exact ⟨b, hpos, stParseHexByte_lt hbyte, rfl⟩

theorem stApply_mbr (h : stApply N .mbr o p = .ok p') (hp : SlotNamed p) :
    SlotNamed p' ∧ SamePlace p p' := by
  obtain ⟨p1, htype, h⟩ := except_bind_ok h
  obtain ⟨p2, hname, h⟩ := except_bind_ok h
  obtain ⟨p3, huuid, h⟩ := except_bind_ok h
  obtain ⟨p4, hattrs, hboot⟩ := except_bind_ok h
  have hp1 : SlotNamed p1 ∧ SamePlace p p1 := by
    unfold applyType at htype
    cases hgiven : o.type with
    | none =>
      rw [hgiven] at htype
      cases htype
      exact ⟨hp, .refl p⟩
    | some text =>
      rw [hgiven] at htype
      dsimp only at htype
      cases hcode : stTypeCode text .mbr with
      | none =>
        rw [hcode] at htype
        cases htype
      | some code =>
        rw [hcode] at htype
        dsimp only at htype
        split_ifs at htype with hee
        cases htype
        obtain ⟨b, hpos, hlt, heq⟩ := stTypeCode_mbr hcode
        refine ⟨{ hp with type := ⟨b, hpos, hlt, ?_, heq⟩ }, ⟨rfl, rfl, rfl⟩⟩
        rintro rfl
        exact hee ⟨rfl, heq.trans (by decide +kernel)⟩
  have hp2 : p2 = p1 := by
    unfold applyName at hname
    split at hname
    · exact (Except.ok.inj hname).symm
    · rw [if_pos rfl] at hname
      cases hname
  have hp3 : p3 = p2 := by
    unfold applyUuid at huuid
    split at huuid
    · exact (Except.ok.inj huuid).symm
    · rw [if_pos rfl] at huuid
      cases huuid
  have hp4 : p4 = p3 := by
    unfold applyAttrs at hattrs
    split at hattrs
    · exact (Except.ok.inj hattrs).symm
    · rw [if_pos rfl] at hattrs
      cases hattrs
  have hp5 : SlotNamed p' ∧ SamePlace p4 p' := by
    have hnamed : SlotNamed p4 := by
      rw [hp4, hp3, hp2]
      exact hp1.1
    unfold applyBoot at hboot
    split at hboot
    · rw [← Except.ok.inj hboot]
      exact ⟨hnamed, .refl p4⟩
    · split at hboot
      · cases hboot
      · rw [if_pos rfl] at hboot
        cases hboot
        exact ⟨{ hnamed with }, ⟨rfl, rfl, rfl⟩⟩
  refine ⟨hp5.1, hp1.2.trans ?_⟩
  rw [← hp2, ← hp3, ← hp4]
  exact hp5.2

theorem place_mbr (hkind : t.kind = .mbr) {skip oldStart oldSize s e : Int}
    (h : stPlace N d t o skip oldStart oldSize = .ok (s, e)) (hold : oldSize < 2 ^ 63) :
    (0 ≤ s ∧ s < 4294967296) ∧
      ((s ≤ e ∧ e - s + 1 < 4294967296) ∨ (-2 ^ 63 ≤ e ∧ e < 0)) := by
  have hspec := stPlace_spec h hold
  rw [stUsable, if_neg fun hgpt => gpt_ne_mbr (hgpt.symm.trans hkind)] at hspec
  obtain ⟨hlo, hhi, hend, hshape⟩ := hspec
  dsimp only at hlo hhi hend
  have hmax : min ((d.lbas : Int) - 1) 4294967295 ≤ 4294967295 := min_le_right _ _
  refine ⟨by omega, ?_⟩
  rcases hshape with hle | ⟨size, hpos, hlt, rfl⟩
  · exact .inl ⟨hle, by omega⟩
  · obtain ⟨q, hq⟩ := wrap_add_multiple (s + size - 1)
    have hbounds := wrap_bounds (s + size - 1)
    omega

theorem takeBoot_fits (h : MbrFits t.parts) : MbrFits (takeBoot t.kind o t.parts) := by
  unfold takeBoot
  split_ifs
  · have hprimaries : primaries (t.parts.map fun q => { q with boot := false }) =
        (primaries t.parts).map fun q => { q with boot := false } := by
      rw [primaries, List.filter_map]
      rfl
    refine ⟨?_, ?_, ?_⟩
    · rw [hprimaries]
      intro p hp
      obtain ⟨q, hq, rfl⟩ := List.mem_map.mp hp
      have hplaced := h.placed q hq
      exact { hplaced with }
    · rw [hprimaries, List.map_map]
      exact h.nodup
    · intro p hp hlogical
      obtain ⟨q, hq, rfl⟩ := List.mem_map.mp hp
      exact h.chained q hq hlogical
  · exact h

theorem takeBoot_num (kind : Kind) (parts : List StPart) :
    (takeBoot kind o parts).map StPart.num = parts.map StPart.num := by
  unfold takeBoot
  split_ifs
  · rw [List.map_map]
    rfl
  · rfl

theorem stCmdAdd_mbr {random : List UInt8} (h : stCmdAdd N random o d t = .ok t')
    (hkind : t.kind = .mbr) (hparts : MbrFits t.parts) : MbrFits t'.parts := by
  obtain ⟨num, hnum, h⟩ := except_bind_ok h
  dsimp only at h
  obtain ⟨part, hpart, h⟩ := except_bind_ok h
  obtain ⟨⟨s, e⟩, hplace, h⟩ := except_bind_ok h
  obtain ⟨hrange, hfresh⟩ := stNewNum_spec hnum
  rw [tableSlots, if_neg fun hgpt => gpt_ne_mbr (hgpt.symm.trans hkind)] at hrange
  rw [hkind] at hpart
  have hcode : (stTypeCode (ascii "linux") .mbr).getD [] = stHex 131 := by decide +kernel
  have hfirst : SlotNamed ⟨num, 0, 0, (stTypeCode (ascii "linux") .mbr).getD [], [],
      if Kind.mbr = .gpt then stGuidNew random else [], 0, false, false⟩ :=
    ⟨hrange, ⟨131, by decide, by decide, by decide, hcode⟩, by norm_num, rfl, rfl, rfl, rfl⟩
  obtain ⟨hnamed, hsame⟩ := stApply_mbr hpart hfirst
  obtain ⟨hstart, hspan⟩ := place_mbr hkind hplace (by norm_num)
  have hbooted := @takeBoot_fits t o hparts
  obtain rfl := Except.ok.inj h
  dsimp only
  generalize hnew : ({ part with start := s, end_ := e } : StPart) = new
  have hplaced : SlotPlaced new := by
    rw [← hnew]
    exact ⟨{ hnamed with start := hstart }, hspan⟩
  have hnewNum : new.num = num := by
    rw [← hnew]
    exact hsame.num
  have hprimaries : primaries (takeBoot t.kind o t.parts ++ [new]) =
      primaries (takeBoot t.kind o t.parts) ++ [new] := by
    unfold primaries
    rw [List.filter_append, List.filter_singleton, hplaced.logical]
    rfl
  refine ⟨?_, ?_, ?_⟩
  · rw [hprimaries]
    intro q hq
    rcases List.mem_append.mp hq with hold | hmem
    · exact hbooted.placed q hold
    · rw [List.mem_singleton.mp hmem]
      exact hplaced
  · rw [hprimaries, List.map_append, List.nodup_append]
    refine ⟨hbooted.nodup, List.nodup_singleton _, ?_⟩
    rintro a ha b hb rfl
    obtain ⟨q, hq, rfl⟩ := List.mem_map.mp ha
    have hmem : q.num ∈ t.parts.map StPart.num := by
      rw [← @takeBoot_num o t.kind t.parts]
      exact List.mem_map_of_mem (mem_primaries.mp hq).1
    obtain ⟨q', hq', heq⟩ := List.mem_map.mp hmem
    exact hfresh q' hq' (heq.trans ((List.mem_singleton.mp hb).trans hnewNum))
  · intro q hq hlogical
    rcases List.mem_append.mp hq with hold | hmem
    · exact hbooted.chained q hold hlogical
    · rw [List.mem_singleton.mp hmem, hplaced.logical] at hlogical
      cases hlogical

theorem stCmdRm_mbr {target : Text} (h : stCmdRm N target t = .ok t')
    (hparts : MbrFits t.parts) : MbrFits t'.parts := by
  obtain ⟨part, -, h⟩ := except_bind_ok h
  split_ifs at h
  obtain rfl := Except.ok.inj h
  refine ⟨fun p hp => ?_, ?_, fun p hp => hparts.chained p (List.mem_of_mem_filter hp)⟩
  · obtain ⟨hmem, hlogical⟩ := mem_primaries.mp hp
    exact hparts.placed p (mem_primaries.mpr ⟨List.mem_of_mem_filter hmem, hlogical⟩)
  · exact hparts.nodup.sublist ((List.filter_sublist.filter _).map _)

theorem stCmdEdit_mbr {target : Text} (h : stCmdEdit N target o d t = .ok t')
    (hkind : t.kind = .mbr) (hparts : MbrFits t.parts) : MbrFits t'.parts := by
  obtain ⟨part, htarget, h⟩ := except_bind_ok h
  split_ifs at h with hlogical
  obtain ⟨moved, hmoved, h⟩ := except_bind_ok h
  obtain ⟨changed, hchanged, h⟩ := except_bind_ok h
  rw [hkind] at hchanged
  have hpart := hparts.placed part (mem_primaries.mpr ⟨stTarget_spec htarget,
    Bool.eq_false_of_not_eq_true hlogical⟩)
  have hmovedPlaced : SlotPlaced moved ∧ moved.num = part.num := by
    unfold editPlace at hmoved
    split_ifs at hmoved
    · cases hmoved
      exact ⟨hpart, rfl⟩
    · obtain ⟨⟨s, e⟩, hplace, hmoved⟩ := except_bind_ok hmoved
      obtain ⟨hstart, hspan⟩ := place_mbr hkind hplace (wrap_bounds _).2
      cases hmoved
      exact ⟨⟨{ hpart.toSlotNamed with start := hstart }, hspan⟩, rfl⟩
  obtain ⟨hnamed, hsame⟩ := stApply_mbr hchanged hmovedPlaced.1.toSlotNamed
  have hplaced : SlotPlaced changed := by
    refine ⟨hnamed, ?_⟩
    rw [hsame.start, hsame.end_]
    exact hmovedPlaced.1.span
  have hnum : changed.num = part.num := hsame.num.trans hmovedPlaced.2
  have hbooted := @takeBoot_fits t o hparts
  have hsmall := hplaced.num
  obtain rfl := Except.ok.inj h
  dsimp only
  generalize takeBoot t.kind o t.parts = parts at hbooted
  have hlogicals : ∀ q ∈ parts, (if q.num = part.num then changed else q).logical = q.logical := by
    intro q hq
    split_ifs with heq
    · rw [hplaced.logical]
      by_contra hne
      have hchained := hbooted.chained q hq (Bool.eq_true_of_not_eq_false (Ne.symm hne))
      omega
    · rfl
  have hprimaries : primaries (parts.map fun q => if q.num = part.num then changed else q) =
      (primaries parts).map fun q => if q.num = part.num then changed else q := by
    rw [primaries, List.filter_map, primaries]
    congr 1
    refine List.filter_congr fun q hq => ?_
    rw [Function.comp_apply, hlogicals q hq]
  refine ⟨?_, ?_, ?_⟩
  · rw [hprimaries]
    intro q hq
    obtain ⟨p, hp, rfl⟩ := List.mem_map.mp hq
    split_ifs
    · exact hplaced
    · exact hbooted.placed p hp
  · rw [hprimaries, List.map_map]
    have hnums : ((primaries parts).map (StPart.num ∘ fun q =>
        if q.num = part.num then changed else q)) = (primaries parts).map StPart.num := by
      refine List.map_congr_left fun q _ => ?_
      simp only [Function.comp_apply]
      split_ifs with hq
      · rw [hnum, hq]
      · rfl
    rw [hnums]
    exact hbooted.nodup
  · intro q hq hlog
    obtain ⟨p, hp, rfl⟩ := List.mem_map.mp hq
    rw [hlogicals p hp] at hlog
    have hchained := hbooted.chained p hp hlog
    split_ifs
    · omega
    · exact hchained

theorem change_mbr_fits (h : command.change N o d t = .ok t') (hkind : t.kind = .mbr)
    (hparts : MbrFits t.parts) : MbrFits t'.parts := by
  cases command with
  | add random => exact stCmdAdd_mbr h hkind hparts
  | rm target => exact stCmdRm_mbr h hparts
  | edit target => exact stCmdEdit_mbr h hkind hparts

end

end Ussr.Stalin
