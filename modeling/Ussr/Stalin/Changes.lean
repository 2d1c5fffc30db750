import Ussr.Stalin.Copies

/-! What the commands do to the partitions of a table. A partition stays between the first
and the last sector of its table, and the changed partitions of a GPT fit their entries. -/

namespace Ussr.Stalin
open ByteFields Codec Real64

section

variable {N : Numbers} {d : Device} {t : Table} {o : Options} {a b s e start size lo hi : Int}
variable {oldSize skip oldStart : Int}

theorem freeLoop_bounds {used : List StPart} (h : (a, b) ∈ freeLoop hi used lo) :
    lo ≤ a ∧ a ≤ b ∧ b ≤ hi := by
  induction used generalizing lo with
  | nil =>
    rw [freeLoop] at h
    split_ifs at h with hle
    · cases List.mem_singleton.mp h
      exact ⟨le_refl _, hle, le_refl _⟩
    · cases h
  | cons p used ih =>
    rw [freeLoop] at h
    cases List.mem_append.mp h with
    | inl hrange =>
      split_ifs at hrange with hfree
      · cases List.mem_singleton.mp hrange
        exact ⟨le_refl _, hfree.2, min_le_right _ _⟩
      · cases hrange
    | inr hrest =>
      have hbounds := ih hrest
      split_ifs at hbounds with hnext
      · omega
      · exact hbounds

/-- Where a partition is placed: in a free range, with the size that was asked for or with
all of the range. -/
theorem placeLoop_spec {free : List (Int × Int)} (h : placeLoop d start size free = .ok (s, e)) :
    ∃ a b, (a, b) ∈ free ∧ a ≤ s ∧ s ≤ b ∧ e ≤ b ∧
      (0 < size ∧ e = wrap (s + size - 1) ∨ ¬0 < size ∧ e = b) := by
  induction free with
  | nil => cases h
  | cons range free ih =>
    obtain ⟨a, b⟩ := range
    have hrest : placeLoop d start size free = .ok (s, e) → ∃ a' b', (a', b') ∈ (a, b) :: free ∧
        a' ≤ s ∧ s ≤ b' ∧ e ≤ b' ∧ (0 < size ∧ e = wrap (s + size - 1) ∨ ¬0 < size ∧ e = b') := by
      intro hfound
      obtain ⟨a', b', hmem, hspec⟩ := ih hfound
      exact ⟨a', b', List.mem_cons_of_mem _ hmem, hspec⟩
    rw [placeLoop] at h
    dsimp only at h
    generalize (if start < 0 then stAlignUp d a else start) = first at h
    obtain ⟨last, hlast⟩ : ∃ last, last = if 0 < size then wrap (first + size - 1) else b := ⟨_, rfl⟩
    rw [← hlast] at h
    by_cases hin : a ≤ first ∧ first ≤ b
    · rw [if_pos hin] at h
      by_cases hfit : last ≤ b
      · rw [if_pos hfit] at h
        obtain ⟨rfl, rfl⟩ := Prod.mk.inj (Except.ok.inj h)
        refine ⟨a, b, List.mem_cons_self, hin.1, hin.2, hfit, ?_⟩
        split_ifs at hlast with hsize
        · exact .inl ⟨hsize, hlast⟩
        · exact .inr ⟨hsize, hlast⟩
      · rw [if_neg hfit] at h
        split_ifs at h
        exact hrest h
    · rw [if_neg hin] at h
      exact hrest h

theorem stDivLoop_bounds {rest r : Int} {x : Int} (n : Nat) :
    r ≤ stDivLoop x n rest r ∧ stDivLoop x n rest r < r + 2 ^ n := by
  induction n generalizing rest r with
  | zero => exact ⟨le_refl r, by rw [stDivLoop]; omega⟩
  | succ n ih =>
    rw [stDivLoop]
    have hpow : (2 : Int) ^ (n + 1) = 2 ^ n + 2 ^ n := by ring
    have hpos : (0 : Int) < 2 ^ n := by positivity
    split_ifs
    · have hbounds := @ih (rest - wrap (x * 2 ^ n)) (r + 2 ^ n)
      omega
    · have hbounds := @ih rest r
      omega

theorem stDivShift_le (x y : Int) (turns sh : Nat) : stDivShift x y turns sh ≤ turns + sh := by
  induction turns generalizing sh with
  | zero => rw [stDivShift, Nat.zero_add]
  | succ turns ih =>
    rw [stDivShift]
    split_ifs
    · exact (ih (sh + 1)).trans (by omega)
    · omega

theorem stDiv_bounds (x y : Int) : 0 ≤ stDiv x y ∧ stDiv x y < 2 ^ 63 := by
  have hshift := stDivShift_le x y 62 0
  have hloop := @stDivLoop_bounds x 0 y (stDivShift x y 62 0 + 1)
  have hpow : (2 : Int) ^ (stDivShift x y 62 0 + 1) ≤ 2 ^ 63 := by
    exact pow_le_pow_right₀ (by norm_num) (by omega)
  unfold stDiv
  omega

theorem ite_lt_of {c : Prop} [Decidable c] {x y z : Int} (hx : x < z) (hy : y < z) :
    (if c then x else y) < z := by
  split
  · exact hx
  · exact hy

theorem stParseSize_lt (text : Text) : stParseSize N d.sector text < 2 ^ 63 := by
  unfold stParseSize
  dsimp only
  refine ite_lt_of (by norm_num) (ite_lt_of (by norm_num) (ite_lt_of (by norm_num)
    (ite_lt_of (by norm_num) ?_)))
  split
  · norm_num
  · exact ite_lt_of BitVec.toInt_lt (stDiv_bounds _ _).2

/-- `--size` in `st_place`. -/
def placeSized (N : Numbers) (d : Device) (t : Table) (given : Option Text)
    (skip start oldSize : Int) : Except Refusal (Int × Int) :=
  match given with
  | none => placeLoop d start oldSize (stFree d t skip)
  | some text =>
    if stParseSize N d.sector text = -1 ∨ stParseSize N d.sector text = 0 then .error (.badSize text)
    else placeLoop d start (stParseSize N d.sector text) (stFree d t skip)

/-- The sizes that `st_place` can work with. -/
def SizeChoice (N : Numbers) (d : Device) (given : Option Text) (oldSize size : Int) : Prop :=
  match given with
  | none => size = oldSize
  | some text => size = stParseSize N d.sector text

theorem SizeChoice.lt {given : Option Text} (h : SizeChoice N d given oldSize size)
    (hold : oldSize < 2 ^ 63) : size < 2 ^ 63 := by
  cases given with
  | none => exact h ▸ hold
  | some text => exact h ▸ stParseSize_lt text

theorem placeSized_spec {given : Option Text}
    (h : placeSized N d t given skip start oldSize = .ok (s, e)) :
    ∃ size, SizeChoice N d given oldSize size ∧
      placeLoop d start size (stFree d t skip) = .ok (s, e) := by
  cases given with
  | none => exact ⟨oldSize, rfl, h⟩
  | some text =>
    rw [placeSized] at h
    split_ifs at h
    exact ⟨_, rfl, h⟩

theorem stPlace_range
    (h : stPlace N d t o skip oldStart oldSize = .ok (s, e)) :
    ∃ size a b, SizeChoice N d o.size oldSize size ∧ (a, b) ∈ stFree d t skip ∧
      a ≤ s ∧ s ≤ b ∧ e ≤ b ∧ (0 < size ∧ e = wrap (s + size - 1) ∨ ¬0 < size ∧ e = b) := by
  obtain ⟨start, size, hchoice, hloop⟩ : ∃ start size, SizeChoice N d o.size oldSize size ∧
      placeLoop d start size (stFree d t skip) = .ok (s, e) := by
    unfold stPlace at h
    dsimp only at h
    generalize o.size = given at h
    generalize o.start = first at h
    have hinner : ∀ start, placeSized N d t given skip start oldSize = .ok (s, e) →
        ∃ start size, SizeChoice N d given oldSize size ∧
          placeLoop d start size (stFree d t skip) = .ok (s, e) :=
      fun start hsized => ⟨start, placeSized_spec hsized⟩
    cases first with
    | none => exact hinner oldStart h
    | some text =>
      dsimp only at h
      split_ifs at h with hbad
      · cases h
      · exact hinner _ h
  obtain ⟨a, b, hmem, hspec⟩ := placeLoop_spec hloop
  exact ⟨size, a, b, hchoice, hmem, hspec⟩

theorem stPlace_spec
    (h : stPlace N d t o skip oldStart oldSize = .ok (s, e)) (hold : oldSize < 2 ^ 63) :
    (stUsable d t).1 ≤ s ∧ s ≤ (stUsable d t).2 ∧ e ≤ (stUsable d t).2 ∧
      (s ≤ e ∨ ∃ size, 0 < size ∧ size < 2 ^ 63 ∧ e = wrap (s + size - 1)) := by
  obtain ⟨size, a, b, hchoice, hmem, hstart, hend, hlast, hshape⟩ := stPlace_range h
  have hrange := freeLoop_bounds hmem
  refine ⟨by omega, by omega, by omega, ?_⟩
  rcases hshape with ⟨hpos, heq⟩ | ⟨-, rfl⟩
  · exact .inr ⟨size, hpos, hchoice.lt hold, heq⟩
  · exact .inl hend

end

section

variable {N : Numbers} {d : Device} {t t' : Table} {o : Options} {p p' : StPart}
  {size count : Nat} {s e : Int}

theorem place_bounds (hfirst : -2 ^ 63 ≤ t.first) (hlast : t.last < 2 ^ 63) (hkind : t.kind = .gpt) (h : stPlace N d t o skip oldStart oldSize = .ok (s, e))
    (hold : oldSize < 2 ^ 63) :
    (-2 ^ 63 ≤ s ∧ s < 2 ^ 63) ∧ -2 ^ 63 ≤ e ∧ e < 2 ^ 63 := by
  have hspec := stPlace_spec h hold
  rw [stUsable, if_pos hkind] at hspec
  obtain ⟨hlo, hhi, hend, hshape⟩ := hspec
  refine ⟨⟨by omega, by omega⟩, ?_, by omega⟩
  rcases hshape with hle | ⟨n, -, -, rfl⟩
  · omega
  · exact (wrap_bounds _).1

theorem stTypeTable_gpt : ∀ row ∈ stTypeTable, rowCode .gpt row ≠ [] →
    stGuidClean (rowCode .gpt row) = some (rowCode .gpt row) ∧ rowCode .gpt row ≠ zeroGuid := by
  decide +kernel

theorem stTypeCode_isGuid {name code : Text} (h : stTypeCode name .gpt = some code) : IsGuid code := by
  unfold stTypeCode at h
  dsimp only at h
  split at h
  case h_1 row hrow =>
    cases h
    have hmem := List.mem_of_find?_eq_some hrow
    have hfound := List.find?_some hrow
    exact stGuidClean_isGuid (stTypeTable_gpt row hmem (of_decide_eq_true hfound).2).1
  case h_2 =>
    rw [if_pos rfl] at h
    exact stGuidClean_isGuid h

theorem bootable_range (attrs : Int) (h : -2 ^ 63 ≤ attrs ∧ attrs < 2 ^ 63) :
    ∀ cleared, cleared = (if bootable attrs then attrs - 4 else attrs) →
      (-2 ^ 63 ≤ cleared ∧ cleared < 2 ^ 63) ∧ (-2 ^ 63 ≤ cleared + 4 ∧ cleared + 4 < 2 ^ 63) ∧
        bootable cleared = false ∧ bootable (cleared + 4) = true := by
  rintro cleared rfl
  unfold bootable
  split_ifs with hset
  · have hset := of_decide_eq_true hset
    exact ⟨by omega, by omega, decide_eq_false (by omega), decide_eq_true (by omega)⟩
  · have hclear := of_decide_eq_false (Bool.eq_false_of_not_eq_true hset)
    exact ⟨by omega, by omega, decide_eq_false (by omega), decide_eq_true (by omega)⟩

def NameFits (name : Text) : Prop :=
  ∃ us : List Nat, (∀ u ∈ us, IsUnit u) ∧ us.length ≤ 36 ∧ name = us.flatMap utf8

structure GptReadable (o : Options) : Prop where
  type : ∀ text, o.type = some text → stTypeCode text .gpt ≠ some zeroGuid
  name : ∀ text, o.name = some text → ∀ b ∈ text, 32 ≤ b.toNat

theorem NameFits.clean {name : Text} (h : NameFits name) (hprint : ∀ b ∈ name, 32 ≤ b.toNat) :
    CleanName name := by
  obtain ⟨us, hus, hlen, rfl⟩ := h
  refine ⟨us, fun u hu => ⟨?_, hus u hu⟩, hlen, rfl⟩
  by_contra hlt
  have hbyte : UInt8.ofNat u ∈ us.flatMap utf8 := by
    refine List.mem_flatMap.mpr ⟨u, hu, ?_⟩
    rw [utf8, if_pos (by omega)]
    exact List.mem_singleton_self _
  have hle := hprint _ hbyte
  rw [UInt8.toNat_ofNat', Nat.mod_eq_of_lt (by omega)] at hle
  exact hlt hle

/-- `p'` stands where `p` does. -/
structure SamePlace (p p' : StPart) : Prop where
  num : p'.num = p.num
  start : p'.start = p.start
  end_ : p'.end_ = p.end_

theorem SamePlace.refl (p : StPart) : SamePlace p p := ⟨rfl, rfl, rfl⟩

theorem SamePlace.trans {p'' : StPart} (h : SamePlace p p') (h' : SamePlace p' p'') :
    SamePlace p p'' :=
  ⟨h'.num.trans h.num, h'.start.trans h.start, h'.end_.trans h.end_⟩

theorem gpt_ne_mbr : Kind.gpt ≠ Kind.mbr := by decide

theorem applyType_fits (h : applyType .gpt o p = .ok p') (hp : EntryFits size count p)
    (ho : GptReadable o) : EntryFits size count p' ∧ SamePlace p p' := by
  unfold applyType at h
  cases hgiven : o.type with
  | none =>
    rw [hgiven] at h
    cases h
    exact ⟨hp, .refl p⟩
  | some text =>
    rw [hgiven] at h
    dsimp only at h
    cases hcode : stTypeCode text .gpt with
    | none =>
      rw [hcode] at h
      cases h
    | some code =>
      rw [hcode] at h
      dsimp only at h
      rw [if_neg fun hmbr => gpt_ne_mbr hmbr.1] at h
      cases h
      refine ⟨{ hp with type := stTypeCode_isGuid hcode, present := fun hzero => ?_ }, ⟨rfl, rfl, rfl⟩⟩
      exact ho.type text hgiven (hcode.trans (congrArg some hzero))

theorem applyName_fits (h : applyName .gpt o p = .ok p') (hp : EntryFits size count p)
    (hnames : ∀ text, o.name = some text → NameFits text) (ho : GptReadable o) :
    EntryFits size count p' ∧ SamePlace p p' := by
  unfold applyName at h
  cases hgiven : o.name with
  | none =>
    rw [hgiven] at h
    cases h
    exact ⟨hp, .refl p⟩
  | some text =>
    rw [hgiven] at h
    cases h
    exact ⟨{ hp with name := (hnames text hgiven).clean (ho.name text hgiven) }, ⟨rfl, rfl, rfl⟩⟩

theorem applyUuid_fits (h : applyUuid .gpt o p = .ok p') (hp : EntryFits size count p) :
    EntryFits size count p' ∧ SamePlace p p' := by
  unfold applyUuid at h
  cases hgiven : o.uuid with
  | none =>
    rw [hgiven] at h
    cases h
    exact ⟨hp, .refl p⟩
  | some text =>
    rw [hgiven] at h
    dsimp only at h
    rw [if_neg gpt_ne_mbr] at h
    cases hclean : stGuidClean text with
    | none =>
      rw [hclean] at h
      cases h
    | some g =>
      rw [hclean] at h
      cases h
      exact ⟨{ hp with uuid := stGuidClean_isGuid hclean }, ⟨rfl, rfl, rfl⟩⟩

theorem applyAttrs_fits (h : applyAttrs N .gpt o p = .ok p') (hp : EntryFits size count p) :
    EntryFits size count p' ∧ SamePlace p p' := by
  unfold applyAttrs at h
  cases hgiven : o.attrs with
  | none =>
    rw [hgiven] at h
    cases h
    exact ⟨hp, .refl p⟩
  | some text =>
    rw [hgiven] at h
    dsimp only at h
    rw [if_neg gpt_ne_mbr] at h
    cases hnumber : (N.strToNumber text).bind N.integer with
    | none =>
      rw [hnumber] at h
      cases h
    | some a =>
      rw [hnumber] at h
      cases h
      have hbounds := And.intro (@BitVec.le_toInt 64 a) (@BitVec.toInt_lt 64 a)
      exact ⟨{ hp with attrs := hbounds, boot := rfl }, ⟨rfl, rfl, rfl⟩⟩

theorem applyBoot_fits (h : applyBoot .gpt o p = .ok p') (hp : EntryFits size count p) :
    EntryFits size count p' ∧ SamePlace p p' := by
  unfold applyBoot at h
  cases hgiven : o.boot with
  | none =>
    rw [hgiven] at h
    cases h
    exact ⟨hp, .refl p⟩
  | some text =>
    rw [hgiven] at h
    dsimp only at h
    cases hword : bootWord text with
    | none =>
      rw [hword] at h
      cases h
    | some on =>
      rw [hword] at h
      dsimp only at h
      rw [if_neg gpt_ne_mbr] at h
      obtain ⟨hclear, hset, hoff, hon⟩ := bootable_range p.attrs hp.attrs _ rfl
      cases h
      refine ⟨?_, ⟨rfl, rfl, rfl⟩⟩
      cases on with
      | true => exact { hp with attrs := hset, boot := hon.symm }
      | false => exact { hp with attrs := hclear, boot := hoff.symm }

theorem stApply_fits (h : stApply N .gpt o p = .ok p') (hp : EntryFits size count p)
    (hnames : ∀ text, o.name = some text → NameFits text) (ho : GptReadable o) :
    EntryFits size count p' ∧ SamePlace p p' := by
  obtain ⟨p1, htype, h⟩ := except_bind_ok h
  obtain ⟨p2, hname, h⟩ := except_bind_ok h
  obtain ⟨p3, huuid, h⟩ := except_bind_ok h
  obtain ⟨p4, hattrs, hboot⟩ := except_bind_ok h
  obtain ⟨hp1, hplace1⟩ := applyType_fits htype hp ho
  obtain ⟨hp2, hplace2⟩ := applyName_fits hname hp1 hnames ho
  obtain ⟨hp3, hplace3⟩ := applyUuid_fits huuid hp2
  obtain ⟨hp4, hplace4⟩ := applyAttrs_fits hattrs hp3
  obtain ⟨hp5, hplace5⟩ := applyBoot_fits hboot hp4
  exact ⟨hp5, (((hplace1.trans hplace2).trans hplace3).trans hplace4).trans hplace5⟩

end

section

variable {N : Numbers} {t : Table} {o : Options} {num : Int} {p : StPart}

theorem stFind_eq_none {parts : List StPart} (h : stFind parts num = none) :
    ∀ p ∈ parts, p.num ≠ num := by
  intro p hp heq
  have hnot := List.find?_eq_none.mp h p (List.mem_reverse.mpr hp)
  exact hnot (decide_eq_true heq)

theorem stFind_eq_some {parts : List StPart} (h : stFind parts num = some p) :
    p ∈ parts ∧ p.num = num := by
  have hnum := List.find?_some h
  exact ⟨List.mem_reverse.mp (List.mem_of_find?_eq_some h), of_decide_eq_true hnum⟩

def tableSlots (t : Table) : Int := if t.kind = .gpt then t.entryCount else 4

theorem stNewNum_spec (h : stNewNum N t o = .ok num) :
    (1 ≤ num ∧ num ≤ tableSlots t) ∧ ∀ p ∈ t.parts, p.num ≠ num := by
  unfold stNewNum at h
  dsimp only at h
  rw [show (if t.kind = .gpt then t.entryCount else 4) = tableSlots t from rfl] at h
  cases hgiven : o.num with
  | some text =>
    rw [hgiven] at h
    dsimp only at h
    cases hparse : (N.strToNumber text).bind N.integer with
    | none =>
      rw [hparse] at h
      dsimp only at h
      rw [if_pos (.inl (by decide))] at h
      cases h
    | some n =>
      rw [hparse] at h
      dsimp only at h
      split_ifs at h with hrange hexists
      cases h
      exact ⟨by omega, stFind_eq_none (Option.not_isSome_iff_eq_none.mp hexists)⟩
  | none =>
    rw [hgiven] at h
    dsimp only at h
    cases hfree : (List.range (tableSlots t).toNat).find? fun k : Nat =>
        decide (stFind t.parts ((k : Int) + 1) = none) with
    | none =>
      rw [hfree] at h
      cases h
    | some k =>
      rw [hfree] at h
      cases h
      have hk := List.mem_range.mp (List.mem_of_find?_eq_some hfree)
      have hnone := List.find?_some hfree
      exact ⟨by omega, stFind_eq_none (of_decide_eq_true hnone)⟩

theorem stTarget_spec {text : Text} (h : stTarget N t text = .ok p) : p ∈ t.parts := by
  unfold stTarget at h
  split at h
  · cases h
  · split at h
    · cases h
    · cases h
      rename_i hfound
      exact (stFind_eq_some hfound).1

end

section

variable {N : Numbers} {d : Device} {t t' : Table} {o : Options} {command : Command}

structure GptFits (t : Table) (parts : List StPart) : Prop where
  entries : ∀ p ∈ parts, EntryFits t.entrySize.toNat t.entryCount.toNat p
  nodup : (parts.map StPart.num).Nodup

theorem linux_code : ∀ code, code = (stTypeCode (ascii "linux") .gpt).getD [] →
    IsGuid code ∧ code ≠ zeroGuid := by
  rintro code rfl
  have hcode : stTypeCode (ascii "linux") .gpt =
      some (ascii "0FC63DAF-8483-4772-8E79-3D69D8477DE4") := by decide +kernel
  rw [hcode, Option.getD_some]
  exact ⟨stTypeCode_isGuid hcode, by decide +kernel⟩

theorem stGuidNew_isGuid (random : List UInt8) : IsGuid (stGuidNew random) :=
  ⟨_, length_bytesAt _ _ _, rfl⟩

theorem stCmdAdd_fits {random : List UInt8} (h : stCmdAdd N random o d t = .ok t')
    (hkind : t.kind = .gpt) (ht : TableFits t) (hparts : GptFits t t.parts)
    (hnames : ∀ text, o.name = some text → NameFits text) (ho : GptReadable o) :
    GptFits t t'.parts := by
  obtain ⟨num, hnum, h⟩ := except_bind_ok h
  dsimp only at h
  obtain ⟨part, hpart, h⟩ := except_bind_ok h
  obtain ⟨⟨s, e⟩, hplace, h⟩ := except_bind_ok h
  obtain ⟨hrange, hfresh⟩ := stNewNum_spec hnum
  rw [tableSlots, if_pos hkind] at hrange
  rw [hkind] at hpart
  obtain ⟨htype, hpresent⟩ := linux_code _ rfl
  have hfirst : EntryFits t.entrySize.toNat t.entryCount.toNat
      ⟨num, 0, 0, (stTypeCode (ascii "linux") .gpt).getD [], [],
        if Kind.gpt = .gpt then stGuidNew random else [], 0, false, false⟩ :=
    ⟨by dsimp only; omega, htype, hpresent, by rw [if_pos rfl]; exact stGuidNew_isGuid random,
      by norm_num, by norm_num, by norm_num, rfl,
      ⟨[], fun u hu => absurd hu List.not_mem_nil, Nat.zero_le _, rfl⟩, rfl⟩
  obtain ⟨hfits, hsame⟩ := stApply_fits hpart hfirst hnames ho
  obtain ⟨hstart, hend⟩ := place_bounds ht.first.1 ht.last.2 hkind hplace (by norm_num)
  have hsamenum : part.num = num := hsame.num
  obtain rfl := Except.ok.inj h
  dsimp only
  rw [takeBoot, if_neg fun hmbr => gpt_ne_mbr (hkind.symm.trans hmbr.1)]
  constructor
  · intro q hq
    rcases List.mem_append.mp hq with hold | hnew
    · exact hparts.entries q hold
    · rw [List.mem_singleton.mp hnew]
      exact { hfits with start := hstart, end_ := hend }
  · rw [List.map_append, List.nodup_append]
    refine ⟨hparts.nodup, List.nodup_singleton _, ?_⟩
    rintro a ha b hb rfl
    obtain ⟨q, hq, rfl⟩ := List.mem_map.mp ha
    exact hfresh q hq ((List.mem_singleton.mp hb).trans hsamenum)

theorem stCmdRm_fits {target : Text} (h : stCmdRm N target t = .ok t')
    (hparts : GptFits t t.parts) : GptFits t t'.parts := by
  obtain ⟨part, -, h⟩ := except_bind_ok h
  split_ifs at h
  cases h
  exact ⟨fun p hp => hparts.entries p (List.mem_of_mem_filter hp),
    hparts.nodup.sublist (List.filter_sublist.map _)⟩

theorem stCmdEdit_fits {target : Text} (h : stCmdEdit N target o d t = .ok t')
    (hkind : t.kind = .gpt) (ht : TableFits t) (hparts : GptFits t t.parts)
    (hnames : ∀ text, o.name = some text → NameFits text) (ho : GptReadable o) :
    GptFits t t'.parts := by
  obtain ⟨part, htarget, h⟩ := except_bind_ok h
  split_ifs at h
  obtain ⟨moved, hmoved, h⟩ := except_bind_ok h
  obtain ⟨changed, hchanged, h⟩ := except_bind_ok h
  rw [hkind] at hchanged
  have hpart := hparts.entries part (stTarget_spec htarget)
  have hmovedFits : EntryFits t.entrySize.toNat t.entryCount.toNat moved ∧ moved.num = part.num := by
    unfold editPlace at hmoved
    split_ifs at hmoved
    · cases hmoved
      exact ⟨hpart, rfl⟩
    · obtain ⟨⟨s, e⟩, hplace, hmoved⟩ := except_bind_ok hmoved
      obtain ⟨hstart, hend⟩ := place_bounds ht.first.1 ht.last.2 hkind hplace (wrap_bounds _).2
      cases hmoved
      exact ⟨{ hpart with start := hstart, end_ := hend }, rfl⟩
  obtain ⟨hfits, hsame⟩ := stApply_fits hchanged hmovedFits.1 hnames ho
  have hnum : changed.num = part.num := hsame.num.trans hmovedFits.2
  obtain rfl := Except.ok.inj h
  dsimp only
  rw [takeBoot, if_neg fun hmbr => gpt_ne_mbr (hkind.symm.trans hmbr.1)]
  constructor
  · intro q hq
    obtain ⟨p, hp, rfl⟩ := List.mem_map.mp hq
    split_ifs
    · exact hfits
    · exact hparts.entries p hp
  · have hnums : (t.parts.map fun q => if q.num = part.num then changed else q).map StPart.num =
        t.parts.map StPart.num := by
      rw [List.map_map]
      refine List.map_congr_left fun q _ => ?_
      simp only [Function.comp_apply]
      split_ifs with hq
      · rw [hnum, hq]
      · rfl
    rw [hnums]
    exact hparts.nodup

theorem change_gpt_fits (h : command.change N o d t = .ok t') (hkind : t.kind = .gpt)
    (ht : TableFits t) (hparts : GptFits t t.parts)
    (hnames : ∀ text, o.name = some text → NameFits text) (ho : GptReadable o) :
    GptFits t t'.parts := by
  cases command with
  | add random => exact stCmdAdd_fits h hkind ht hparts hnames ho
  | rm target => exact stCmdRm_fits h hparts
  | edit target => exact stCmdEdit_fits h hkind ht hparts hnames ho

end

end Ussr.Stalin
