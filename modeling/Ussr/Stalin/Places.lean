import Mathlib.Data.List.DropRight
import Ussr.Stalin.RoundTrip

/-! Where the commands place a partition: in the usable range, beside the other partitions, and
apart from the sectors that hold the table itself. -/

namespace Ussr.Stalin
open ByteFields Codec Real64

section

variable {p : StPart} {parts sorted : List StPart}

structure InOrder (parts : List StPart) : Prop where
  starts : ∀ p ∈ parts, 0 ≤ p.start ∧ p.start < 2 ^ 63
  ordered : parts.Pairwise fun a b => a.start ≤ b.start

/-- A partition stands behind `p`. -/
def behind (p a : StPart) : Bool := 0 < wrap (a.start - p.start)

theorem behind_iff {a : StPart} (ha : 0 ≤ a.start ∧ a.start < 2 ^ 63)
    (hp : 0 ≤ p.start ∧ p.start < 2 ^ 63) : behind p a = true ↔ p.start < a.start := by
  rw [behind, wrap_of_bounds (by omega) (by omega), decide_eq_true_eq]
  omega

theorem insertPart_eq (sorted : List StPart) (p : StPart) :
    insertPart sorted p = sorted.rdropWhile (behind p) ++ p :: sorted.rtakeWhile (behind p) := by
  have hsplit := List.rdropWhile_append_rtakeWhile (l := sorted) (p := behind p)
  have hbehind : (sorted.reverse.takeWhile fun a => decide (0 < wrap (a.start - p.start))).reverse =
      sorted.rtakeWhile (behind p) := rfl
  have hfront : sorted.take (sorted.length - (sorted.rtakeWhile (behind p)).length) =
      sorted.rdropWhile (behind p) := by
    have hlength := congrArg List.length hsplit
    rw [List.length_append] at hlength
    rw [show sorted.length - (sorted.rtakeWhile (behind p)).length =
      (sorted.rdropWhile (behind p)).length by omega]
    exact (List.prefix_iff_eq_take.mp (List.rdropWhile_prefix _ sorted)).symm
  rw [insertPart, hbehind, hfront]

theorem insertPart_perm (sorted : List StPart) (p : StPart) :
    (insertPart sorted p).Perm (p :: sorted) := by
  rw [insertPart_eq]
  refine List.perm_middle.trans ?_
  rw [List.rdropWhile_append_rtakeWhile]

theorem rdropWhile_behind (hsorted : InOrder sorted) (hp : 0 ≤ p.start ∧ p.start < 2 ^ 63) :
    ∀ a ∈ sorted.rdropWhile (behind p), a.start ≤ p.start := by
  induction sorted using List.reverseRecOn with
  | nil =>
    intro a ha
    cases ha
  | append_singleton sorted b ih =>
    obtain ⟨hstarts, hordered⟩ := hsorted
    rw [List.pairwise_append] at hordered
    have hb := hstarts b (by simp)
    intro a ha
    rw [List.rdropWhile_concat] at ha
    split_ifs at ha with hbehind
    · exact ih ⟨fun q hq => hstarts q (List.mem_append_left _ hq), hordered.1⟩ a ha
    · have hlast : b.start ≤ p.start := by
        rw [behind_iff hb hp] at hbehind
        omega
      cases List.mem_append.mp ha with
      | inl hfront => exact (hordered.2.2 a hfront b (List.mem_singleton_self b)).trans hlast
      | inr hsingle => exact List.mem_singleton.mp hsingle ▸ hlast

theorem InOrder.insertPart (hsorted : InOrder sorted) (hp : 0 ≤ p.start ∧ p.start < 2 ^ 63) :
    InOrder (insertPart sorted p) := by
  constructor
  · intro q hq
    cases List.mem_cons.mp ((insertPart_perm sorted p).mem_iff.mp hq) with
    | inl heq => exact heq ▸ hp
    | inr hold => exact hsorted.starts q hold
  · have hordered := hsorted.ordered
    rw [← List.rdropWhile_append_rtakeWhile (l := sorted) (p := behind p),
      List.pairwise_append] at hordered
    have hlater : ∀ b ∈ sorted.rtakeWhile (behind p), p.start ≤ b.start := by
      intro b hb
      have hstart := hsorted.starts b ((List.rtakeWhile_suffix _ sorted).subset hb)
      exact ((behind_iff hstart hp).mp (List.mem_rtakeWhile_imp hb)).le
    rw [insertPart_eq, List.pairwise_append, List.pairwise_cons]
    refine ⟨hordered.1, ⟨hlater, hordered.2.1⟩, fun a ha b hb => ?_⟩
    cases List.mem_cons.mp hb with
    | inl heq => exact heq ▸ rdropWhile_behind hsorted hp a ha
    | inr hrest => exact hordered.2.2 a ha b hrest

theorem foldl_insertPart_perm (parts sorted : List StPart) :
    (parts.foldl insertPart sorted).Perm (sorted ++ parts) := by
  induction parts generalizing sorted with
  | nil => rw [List.foldl_nil, List.append_nil]
  | cons p parts ih =>
    have hinsert := (insertPart_perm sorted p).append_right parts
    exact (ih _).trans (hinsert.trans List.perm_middle.symm)

theorem foldl_insertPart_inOrder (hsorted : InOrder sorted)
    (hparts : ∀ p ∈ parts, 0 ≤ p.start ∧ p.start < 2 ^ 63) :
    InOrder (parts.foldl insertPart sorted) := by
  induction parts generalizing sorted with
  | nil => exact hsorted
  | cons p parts ih =>
    rw [List.forall_mem_cons] at hparts
    exact ih (hsorted.insertPart hparts.1) hparts.2

theorem mem_stSorted : p ∈ stSorted parts ↔ p ∈ parts :=
  (foldl_insertPart_perm parts []).mem_iff

theorem stSorted_inOrder (hparts : ∀ p ∈ parts, 0 ≤ p.start ∧ p.start < 2 ^ 63) :
    InOrder (stSorted parts) :=
  foldl_insertPart_inOrder ⟨fun _ hp => absurd hp List.not_mem_nil, List.Pairwise.nil⟩ hparts

end

section

variable {N : Numbers} {d : Device} {t : Table} {o : Options} {p : StPart} {hi lo a b s e : Int}

structure Sectored (d : Device) (p : StPart) : Prop where
  start : 0 ≤ p.start ∧ p.start < 2 ^ 63
  end_ : 0 ≤ p.end_ ∧ p.end_ + d.lbas < 2 ^ 63

theorem freeLoop_apart {used : List StPart} (h : (a, b) ∈ freeLoop hi used lo)
    (hused : InOrder used) (hends : ∀ p ∈ used, 0 ≤ p.end_ ∧ p.end_ + 1 < 2 ^ 63) :
    ∀ p ∈ used, b < p.start ∨ p.end_ < a := by
  induction used generalizing lo with
  | nil =>
    intro p hp
    cases hp
  | cons q used ih =>
    obtain ⟨hstarts, hordered⟩ := hused
    rw [List.forall_mem_cons] at hstarts hends
    rw [List.pairwise_cons] at hordered
    rw [freeLoop, wrap_of_bounds (by omega : -2 ^ 63 ≤ q.start - 1) (by omega),
      wrap_of_bounds (by omega : -2 ^ 63 ≤ q.end_ + 1) (by omega)] at h
    cases List.mem_append.mp h with
    | inl hrange =>
      split_ifs at hrange with hfree
      · cases List.mem_singleton.mp hrange
        have hb : min (q.start - 1) hi ≤ q.start - 1 := min_le_left _ _
        refine List.forall_mem_cons.mpr ⟨.inl (by omega), fun p hp => .inl ?_⟩
        have hle := hordered.1 p hp
        omega
      · cases hrange
    | inr hrest =>
      refine List.forall_mem_cons.mpr ⟨.inr ?_, ih hrest ⟨hstarts.2, hordered.2⟩ hends.2⟩
      have hbounds := (freeLoop_bounds hrest).1
      split_ifs at hbounds <;> omega

theorem stFree_apart {skip : Int} (h : (a, b) ∈ stFree d t skip)
    (hparts : ∀ p ∈ t.parts, p.logical = false → Sectored d p) (hd : d.Sound) :
    ∀ p ∈ t.parts, p.num ≠ skip → p.logical = false → b < p.start ∨ p.end_ < a := by
  intro p hp hnum hprimary
  have hlbas := hd.lbas
  have hsmall : ∀ q ∈ t.parts.filter fun p => p.num ≠ skip ∧ p.logical = false, Sectored d q := by
    intro q hq
    obtain ⟨hmem, hkeep⟩ := List.mem_filter.mp hq
    exact hparts q hmem (of_decide_eq_true hkeep).2
  refine freeLoop_apart h (stSorted_inOrder fun q hq => (hsmall q hq).start) (fun q hq => ?_) p
    (mem_stSorted.mpr (List.mem_filter.mpr ⟨hp, decide_eq_true ⟨hnum, hprimary⟩⟩))
  have hends := (hsmall q (mem_stSorted.mp hq)).end_
  omega

theorem stPlace_apart {skip oldStart oldSize : Int} (hd : d.Sound)
    (h : stPlace N d t o skip oldStart oldSize = .ok (s, e))
    (hparts : ∀ p ∈ t.parts, p.logical = false → Sectored d p)
    (hsize : ∀ size, SizeChoice N d o.size oldSize size → size + d.lbas ≤ 2 ^ 63)
    (hlo : 0 ≤ (stUsable d t).1) (hhi : (stUsable d t).2 < d.lbas) :
    s ≤ e ∧ (stUsable d t).1 ≤ s ∧ e ≤ (stUsable d t).2 ∧
      ∀ p ∈ t.parts, p.num ≠ skip → p.logical = false → e < p.start ∨ p.end_ < s := by
  obtain ⟨size, a, b, hchoice, hmem, has, hsb, heb, hshape⟩ := stPlace_range h
  obtain ⟨hlow, hab, hhigh⟩ := freeLoop_bounds hmem
  have hfits := hsize size hchoice
  have hle : s ≤ e := by
    cases hshape with
    | inl hsized =>
      obtain ⟨hpos, heq⟩ := hsized
      rw [wrap_of_bounds (by omega) (by omega)] at heq
      omega
    | inr hrest => exact hrest.2 ▸ hsb
  refine ⟨hle, by omega, by omega, fun p hp hnum hprimary => ?_⟩
  have hapart := stFree_apart hmem hparts hd p hp hnum hprimary
  omega

end

section

variable {d : Device} {t : Table} {ws : List Write}

theorem mem_sectors {size n : Nat} {w : Write} {v : Nat × List UInt8} (hsize : 0 < size)
    (hlength : w.bytes.length = n * size) (hv : v ∈ w.sectors size) : w.lba ≤ v.1 ∧ v.1 < w.lba + n := by
  have hrange := BlockDevice.run_range hv
  rwa [length_slices hsize hlength] at hrange

def InTable (d : Device) (t : Table) (lba : Nat) : Prop :=
  lba = 0 ∨ t.kind = .gpt ∧ (lba < 2 + tableSectors d t ∨ d.lbas ≤ lba + 1 + tableSectors d t)

theorem stWriteGpt_inTable (hd : d.Sound) (ht : TableFits t) (hkind : t.kind = .gpt)
    (h : stWriteGpt d t = some ws) : ∀ v ∈ sectorWrites d.sector ws, InTable d t v.1 := by
  intro v hv
  obtain ⟨e, primary, backup, s0, hc, rfl⟩ := stWriteGpt_eq_some hd ht h
  have hsize : 0 < d.sector := by
    have hsector := hd.sector_bounds.1
    omega
  have hone {bytes : List UInt8} (hlength : bytes.length = d.sector) : bytes.length = 1 * d.sector := by
    rw [Nat.one_mul, hlength]
  obtain ⟨w, hw, hv⟩ := List.mem_flatMap.mp hv
  simp only [List.mem_cons, List.not_mem_nil, or_false] at hw
  rcases hw with rfl | rfl | rfl | rfl | rfl
  case inl =>
    have hbounds := mem_sectors hsize hc.length hv
    exact .inr ⟨hkind, by dsimp only at hbounds; omega⟩
  case inr.inl =>
    have hbounds := mem_sectors hsize (hone hc.primary.length) hv
    exact .inr ⟨hkind, by dsimp only at hbounds; omega⟩
  case inr.inr.inl =>
    have hbounds := mem_sectors hsize hc.length hv
    exact .inr ⟨hkind, by dsimp only at hbounds; omega⟩
  case inr.inr.inr.inl =>
    have hbounds := mem_sectors hsize (hone hc.backup.length) hv
    exact .inr ⟨hkind, by dsimp only at hbounds; omega⟩
  case inr.inr.inr.inr =>
    have hbounds := mem_sectors hsize (hone hc.mbr.1) hv
    exact .inl (by dsimp only at hbounds; omega)

theorem stWriteMbr_inTable (hd : d.Sound) (hparts : MbrFits t.parts)
    (hsig : 0 ≤ t.diskSig ∧ t.diskSig < 4294967296) (h : stWriteMbr d t = some ws) :
    ∀ v ∈ sectorWrites d.sector ws, InTable d t v.1 := by
  intro v hv
  obtain ⟨s0, hplaced, hws⟩ := Option.bind_eq_some_iff.mp h
  cases hws
  have hlength := (mbrSector_reads hd hparts hsig hplaced).1
  have hsector := hd.sector_bounds.1
  obtain ⟨w, hw, hv⟩ := List.mem_flatMap.mp hv
  cases List.mem_singleton.mp hw
  have hbounds := mem_sectors (by omega) (by rw [Nat.one_mul, hlength]) hv
  exact .inl (by dsimp only at hbounds; omega)

end

section

variable {N : Numbers} {kind : Kind} {o : Options} {p p' : StPart}

theorem applyType_same (h : applyType kind o p = .ok p') : SamePlace p p' := by
  unfold applyType at h
  split at h
  · cases h
    exact .refl p
  · split at h
    · cases h
    · split_ifs at h
      cases h
      exact ⟨rfl, rfl, rfl⟩

theorem applyName_same (h : applyName kind o p = .ok p') : SamePlace p p' := by
  unfold applyName at h
  split at h
  · cases h
    exact .refl p
  · split_ifs at h
    cases h
    exact ⟨rfl, rfl, rfl⟩

theorem applyUuid_same (h : applyUuid kind o p = .ok p') : SamePlace p p' := by
  unfold applyUuid at h
  split at h
  · cases h
    exact .refl p
  · split_ifs at h
    split at h
    · cases h
    · cases h
      exact ⟨rfl, rfl, rfl⟩

theorem applyAttrs_same (h : applyAttrs N kind o p = .ok p') : SamePlace p p' := by
  unfold applyAttrs at h
  split at h
  · cases h
    exact .refl p
  · split_ifs at h
    split at h
    · cases h
    · cases h
      exact ⟨rfl, rfl, rfl⟩

theorem applyBoot_same (h : applyBoot kind o p = .ok p') : SamePlace p p' := by
  unfold applyBoot at h
  split at h
  · cases h
    exact .refl p
  · split at h
    · cases h
    · split_ifs at h <;> cases h <;> exact ⟨rfl, rfl, rfl⟩

theorem stApply_same (h : stApply N kind o p = .ok p') : SamePlace p p' := by
  obtain ⟨p1, htype, h⟩ := except_bind_ok h
  obtain ⟨p2, hname, h⟩ := except_bind_ok h
  obtain ⟨p3, huuid, h⟩ := except_bind_ok h
  obtain ⟨p4, hattrs, hboot⟩ := except_bind_ok h
  have hnamed := (applyType_same htype).trans (applyName_same hname)
  have hmarked := (applyUuid_same huuid).trans (applyAttrs_same hattrs)
  exact (hnamed.trans hmarked).trans (applyBoot_same hboot)

theorem mem_takeBoot {parts : List StPart} (h : p' ∈ takeBoot kind o parts) :
    ∃ p ∈ parts, SamePlace p p' ∧ p'.logical = p.logical := by
  unfold takeBoot at h
  split_ifs at h
  · obtain ⟨p, hp, rfl⟩ := List.mem_map.mp h
    exact ⟨p, hp, ⟨rfl, rfl, rfl⟩, rfl⟩
  · exact ⟨p', h, .refl p', rfl⟩

end

section

variable {N : Numbers} {d : Device} {t t' : Table} {o : Options} {command : Command} {p : StPart}

def Placed (N : Numbers) (o : Options) (t t' : Table) : Command → StPart → Prop
  | .add _, p => t'.parts.getLast? = some p
  | .rm _, _ => False
  | .edit target, p => (o.start ≠ none ∨ o.size ≠ none) ∧ p ∈ t'.parts ∧
      ∃ q, stTarget N t target = .ok q ∧ p.num = q.num

structure NoOverflow (N : Numbers) (d : Device) (t : Table) (o : Options) : Prop where
  parts : ∀ p ∈ t.parts, p.logical = false → Sectored d p
  size : ∀ text, o.size = some text → stParseSize N d.sector text + d.lbas ≤ 2 ^ 63

def RangeClear (d : Device) (t : Table) : Prop :=
  t.kind = .gpt → 2 + (tableSectors d t : Int) ≤ t.first ∧ t.last + 1 + tableSectors d t < d.lbas

/-- `p` takes sectors of the disk that neither another primary partition nor the table takes. -/
structure Sits (d : Device) (t : Table) (p : StPart) : Prop where
  nonempty : p.start ≤ p.end_
  inside : 0 ≤ p.start ∧ p.end_ < d.lbas
  apart : ∀ q ∈ t.parts, q.num ≠ p.num → q.logical = false →
    ∀ lba, p.start ≤ lba → lba ≤ p.end_ → ¬(q.start ≤ lba ∧ lba ≤ q.end_)
  unwritten : ∀ ws, stCommit d t = some ws → ∀ v ∈ sectorWrites d.sector ws,
    ¬(p.start ≤ v.1 ∧ (v.1 : Int) ≤ p.end_)

theorem stUsable_bounds (hd : d.Sound) (hclear : RangeClear d t) :
    0 ≤ (stUsable d t).1 ∧ (stUsable d t).2 < d.lbas ∧
      ∀ lba, InTable d t lba → (lba : Int) < (stUsable d t).1 ∨ (stUsable d t).2 < lba := by
  have hlbas := hd.lbas
  unfold stUsable InTable
  by_cases hkind : t.kind = .gpt
  · have hrange := hclear hkind
    rw [if_pos hkind]
    refine ⟨by dsimp only; omega, by dsimp only; omega, fun lba hlba => ?_⟩
    dsimp only
    omega
  · rw [if_neg hkind]
    refine ⟨by norm_num, by dsimp only; omega, fun lba hlba => ?_⟩
    have hzero : lba = 0 := hlba.resolve_right fun hgpt => hkind hgpt.1
    exact .inl (by rw [hzero]; norm_num)

theorem commit_inTable {ws : List Write} (hd : d.Sound) (hprepare : stPrepare d = .ok t)
    (hchange : command.change N o d t = .ok t') (hcommit : stCommit d t' = some ws) :
    ∀ v ∈ sectorWrites d.sector ws, InTable d t v.1 := by
  obtain ⟨parts, rfl⟩ : ∃ parts, t' = { t with parts := parts } := ⟨_, change_parts hchange⟩
  cases stPrepare_spec hd hprepare with
  | inl hgpt =>
    obtain ⟨hkind, -, hfits, -⟩ := hgpt
    rw [stCommit, if_pos hkind] at hcommit
    exact @stWriteGpt_inTable d { t with parts := parts } ws hd (hfits.withParts parts) hkind hcommit
  | inr hmbr =>
    obtain ⟨hkind, -, hsig, hparts⟩ := hmbr
    have hfits := change_mbr_fits hchange hkind hparts
    have hne : t.kind ≠ .gpt := fun hgpt => gpt_ne_mbr (hgpt.symm.trans hkind)
    rw [stCommit, if_neg hne] at hcommit
    exact @stWriteMbr_inTable d { t with parts := parts } ws hd hfits hsig hcommit

theorem primary_num (hd : d.Sound) (hprepare : stPrepare d = .ok t) :
    ∀ q ∈ t.parts, q.logical = false → q.num ≠ 0 := by
  intro q hq hprimary
  cases stPrepare_spec hd hprepare with
  | inl hgpt =>
    have hnum := (hgpt.2.2.2.entries q hq).num
    omega
  | inr hmbr =>
    have hslot := hmbr.2.2.2.placed q (List.mem_filter.mpr ⟨hq, by simp [hprimary]⟩)
    have hnum := hslot.num
    omega

theorem placed_spec (hd : d.Sound) (hprepare : stPrepare d = .ok t)
    (hchange : command.change N o d t = .ok t') (hplaced : Placed N o t t' command p)
    (hsizes : NoOverflow N d t o) :
    ∃ skip oldStart oldSize, stPlace N d t o skip oldStart oldSize = .ok (p.start, p.end_) ∧
      (∀ size, SizeChoice N d o.size oldSize size → size + d.lbas ≤ 2 ^ 63) ∧
      ∀ q ∈ t'.parts, q.num ≠ p.num → q.logical = false →
        ∃ q' ∈ t.parts, SamePlace q' q ∧ q'.logical = false ∧ q'.num ≠ skip := by
  have hlt := hd.lbas_lt
  have hchoice (oldSize : Int) (hold : oldSize + d.lbas ≤ 2 ^ 63) :
      ∀ size, SizeChoice N d o.size oldSize size → size + d.lbas ≤ 2 ^ 63 := by
    intro size hsize
    have hgiven := hsizes.size
    generalize o.size = given at hsize hgiven
    cases given with
    | none => exact hsize ▸ hold
    | some text => exact hsize ▸ hgiven text rfl
  cases command with
  | rm target => cases hplaced
  | add random =>
    obtain ⟨num, -, hchange⟩ := except_bind_ok hchange
    dsimp only at hchange
    obtain ⟨part, -, hchange⟩ := except_bind_ok hchange
    obtain ⟨⟨s, e⟩, hplace, hchange⟩ := except_bind_ok hchange
    obtain rfl := Except.ok.inj hchange
    have hp : (takeBoot t.kind o t.parts ++ [{ part with start := s, end_ := e }]).getLast? = some p :=
      hplaced
    rw [List.getLast?_concat] at hp
    obtain rfl := Option.some.inj hp
    refine ⟨0, -1, -1, hplace, hchoice (-1) (by omega), fun q hq hnum hprimary => ?_⟩
    cases List.mem_append.mp hq with
    | inr hnew => exact absurd (congrArg StPart.num (List.mem_singleton.mp hnew)) hnum
    | inl hold =>
      obtain ⟨q', hq', hsame, hlogical⟩ := mem_takeBoot hold
      have hprimary' := hlogical.symm.trans hprimary
      exact ⟨q', hq', hsame, hprimary', primary_num hd hprepare q' hq' hprimary'⟩
  | edit target =>
    obtain ⟨hgiven, hp, target', htarget', hnum'⟩ := hplaced
    obtain ⟨part, htarget, hchange⟩ := except_bind_ok hchange
    obtain rfl := Except.ok.inj (htarget.symm.trans htarget')
    split_ifs at hchange with hlogical
    obtain ⟨moved, hmoved, hchange⟩ := except_bind_ok hchange
    obtain ⟨changed, happly, hchange⟩ := except_bind_ok hchange
    have hsame := stApply_same happly
    obtain rfl := Except.ok.inj hchange
    rw [editPlace, if_neg (by tauto)] at hmoved
    obtain ⟨⟨s, e⟩, hplace, hmoved⟩ := except_bind_ok hmoved
    obtain rfl := Except.ok.inj hmoved
    have hpart := hsizes.parts part (stTarget_spec htarget) (Bool.eq_false_of_not_eq_true hlogical)
    have hfound : p = changed := by
      obtain ⟨q, -, rfl⟩ := List.mem_map.mp hp
      split_ifs at hnum' ⊢ with hq
      · rfl
      · exact absurd hnum' hq
    subst hfound
    have holdSize : wrap (part.end_ - part.start + 1) + d.lbas ≤ 2 ^ 63 := by
      have hlbas := hd.lbas
      have hstart := hpart.start
      have hend := hpart.end_
      rw [wrap_of_bounds (by omega) (by omega)]
      omega
    rw [hsame.start, hsame.end_]
    refine ⟨part.num, part.start, _, hplace, hchoice _ holdSize, fun q hq hnum hprimary => ?_⟩
    obtain ⟨r, hr, rfl⟩ := List.mem_map.mp hq
    split_ifs at hnum hprimary ⊢ with hq
    · exact absurd rfl hnum
    · obtain ⟨q', hq', hkept, hlogical'⟩ := mem_takeBoot hr
      exact ⟨q', hq', hkept, hlogical'.symm.trans hprimary, hkept.num ▸ hq⟩

/-- Where the usable range is clear of the table, a placed partition is a part of the disk of
its own. -/
theorem placed_sits (hd : d.Sound) (hprepare : stPrepare d = .ok t)
    (hchange : command.change N o d t = .ok t') (hplaced : Placed N o t t' command p)
    (hclear : RangeClear d t) (hsizes : NoOverflow N d t o) : Sits d t' p := by
  obtain ⟨skip, oldStart, oldSize, hplace, hsize, hothers⟩ :=
    placed_spec hd hprepare hchange hplaced hsizes
  obtain ⟨hlo, hhi, htable⟩ := stUsable_bounds hd hclear
  obtain ⟨hle, hstart, hend, hapart⟩ := stPlace_apart hd hplace hsizes.parts hsize hlo hhi
  refine ⟨hle, ⟨by omega, by omega⟩, fun q hq hnum hprimary lba hfrom hto => ?_,
    fun ws hcommit v hv => ?_⟩
  · obtain ⟨q', hq', hsame, hprimary', hskip⟩ := hothers q hq hnum hprimary
    have hbeside := hapart q' hq' hskip hprimary'
    rw [hsame.start, hsame.end_]
    omega
  · have houtside := htable v.1 (commit_inTable hd hprepare hchange hcommit v hv)
    omega

end

theorem placed_sits_moved : Sits primaryOnly (movedTo smallTable 50 56)
    ⟨1, 50, 56, ascii "0FC63DAF-8483-4772-8E79-3D69D8477DE4", [],
      ascii "00000000-0000-4000-8000-000000000001", 0, false, false⟩ := by
  have hprepare : stPrepare primaryOnly = .ok smallTable := by
    rw [stPrepare, primaryOnly_loads]
    rfl
  refine placed_sits primaryOnly_sound hprepare primaryOnly_moves
    ⟨.inl (by simp [startAt]), List.mem_cons_self, _, rfl, rfl⟩ (fun _ => ?_) ⟨?_, ?_⟩
  · rw [primaryOnly_sectors]
    decide
  · intro p hp hprimary
    simp only [smallTable, List.mem_cons, List.not_mem_nil, or_false] at hp
    rcases hp with rfl | rfl
    · exact ⟨by decide, by decide⟩
    · exact ⟨by decide, by decide⟩
  · intro text hgiven
    cases hgiven

def lowTable : Table := { smallTable with first := 2 }

def lowImage : Device := emptyImage.store [(0, protectiveSector), (1, stPut (stPut smallHeader 40 8 2) 16 4 3557076484), (2, smallArray)]

theorem lowImage_sound : lowImage.Sound := image_sound (by rw [length_stPut, length_stPut, length_smallHeader])

theorem lowImage_prepares : stPrepare lowImage = .ok lowTable := by
  have hload : (stPrepare lowImage).toOption = some lowTable := by decide +kernel
  generalize stPrepare lowImage = loaded at hload
  cases loaded with
  | error message => cases hload
  | ok t =>
    rw [Except.toOption, Option.some.injEq] at hload
    rw [hload]

/-- A partition is placed over the array that its own commit writes. -/
theorem placed_over_array : ¬∀ (N : Numbers) (o : Options) (command : Command) (d : Device)
    (t t' : Table) (p : StPart), d.Sound → stPrepare d = .ok t → command.change N o d t = .ok t' →
      Placed N o t t' command p → Sits d t' p := by
  intro hclaim
  have hsits := hclaim digitNumbers (startAt "2s") (.edit (ascii "1")) lowImage lowTable
    (movedTo lowTable 2 8) _ lowImage_sound lowImage_prepares rfl
    ⟨.inl (by simp [startAt]), List.mem_cons_self, _, rfl, rfl⟩
  have hwrites : ((stCommit lowImage (movedTo lowTable 2 8)).map fun ws =>
      (sectorWrites lowImage.sector ws).any fun v => v.1 = 2) = some true := by decide +kernel
  obtain ⟨ws, hcommit, hany⟩ := Option.map_eq_some_iff.mp hwrites
  obtain ⟨v, hv, hat⟩ := List.any_eq_true.mp hany
  have hlba := of_decide_eq_true hat
  refine hsits.unwritten ws hcommit v hv ?_
  rw [hlba]
  decide

end Ussr.Stalin
