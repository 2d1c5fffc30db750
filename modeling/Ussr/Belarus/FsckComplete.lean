import Ussr.Belarus.Fsck
import Ussr.Library.Halting

/-! What the loops of `bl_fsck` find: a file whose map is not as its size needs, a block used twice, a
used block in a free extent, and a wrong sum. -/

namespace Ussr.Belarus.Fsck
open Extents
open Stalin (Text)

section

variable (fs : Fs)

theorem walkFrom_persists (stack : List (Text × Rec)) : Persists fun turns => fs.walkFrom turns stack := by
  intro n
  induction n generalizing stack with
  | zero =>
    intro r h
    cases stack with
    | nil => exact h
    | cons e stack => cases h
  | succ n ih =>
    intro r h
    cases stack with
    | nil => exact h
    | cons e stack =>
      obtain ⟨names, hnames, h⟩ := Option.bind_eq_some_iff.mp h
      obtain ⟨rest, hrest, h⟩ := Option.bind_eq_some_iff.mp h
      exact Option.bind_eq_some_iff.mpr ⟨names, hnames, Option.bind_eq_some_iff.mpr ⟨rest, ih _ rest hrest, h⟩⟩

theorem mapNodesFrom_persists (ino : Int) (stack : List Int) : Persists fun turns => fs.mapNodesFrom ino turns stack := by
  intro n
  induction n generalizing stack with
  | zero =>
    intro r h
    cases stack with
    | nil => exact h
    | cons blk stack => cases h
  | succ n ih =>
    intro r h
    cases stack with
    | nil => exact h
    | cons blk stack =>
      obtain ⟨node, hnode, h⟩ := Option.bind_eq_some_iff.mp h
      obtain ⟨rest, hrest, h⟩ := Option.bind_eq_some_iff.mp h
      exact Option.bind_eq_some_iff.mpr ⟨node, hnode, Option.bind_eq_some_iff.mpr ⟨rest, ih _ rest hrest, h⟩⟩

theorem blMapPath_persists (idx blk : Int) : Persists fun turns => fs.blMapPath idx turns blk := by
  intro n
  induction n generalizing blk with
  | zero => exact fun r h => by cases h
  | succ n ih =>
    intro r h
    obtain ⟨node, hnode, h⟩ := Option.bind_eq_some_iff.mp h
    refine Option.bind_eq_some_iff.mpr ⟨node, hnode, ?_⟩
    cases hkind : node.kind <;> rw [hkind] at h
    · exact h
    · obtain ⟨sep, hsep, h⟩ := Option.bind_eq_some_iff.mp h
      obtain ⟨child, hchild, h⟩ := Option.bind_eq_some_iff.mp h
      obtain ⟨path, hpath, h⟩ := Option.bind_eq_some_iff.mp h
      exact Option.bind_eq_some_iff.mpr ⟨sep, hsep, Option.bind_eq_some_iff.mpr ⟨child, hchild,
        Option.bind_eq_some_iff.mpr ⟨path, ih child path hpath, h⟩⟩⟩

theorem firstLeaf_persists (node : Node) : Persists fun turns => fs.firstLeaf turns node := by
  intro n
  induction n generalizing node with
  | zero => exact fun r h => by cases h
  | succ n ih =>
    intro r h
    dsimp only [Fs.firstLeaf] at h ⊢
    cases hkind : node.kind <;> rw [hkind] at h
    · exact h
    · obtain ⟨sep, hsep, h⟩ := Option.bind_eq_some_iff.mp h
      obtain ⟨child, hchild, h⟩ := Option.bind_eq_some_iff.mp h
      obtain ⟨below, hbelow, h⟩ := Option.bind_eq_some_iff.mp h
      exact Option.bind_eq_some_iff.mpr ⟨sep, hsep, Option.bind_eq_some_iff.mpr ⟨child, hchild,
        Option.bind_eq_some_iff.mpr ⟨below, hbelow, ih below r h⟩⟩⟩

theorem leafChain_persists (node : Node) : Persists fun turns => fs.leafChain turns node := by
  intro n
  induction n generalizing node with
  | zero => exact fun r h => by cases h
  | succ n ih =>
    intro r h
    dsimp only [Fs.leafChain] at h ⊢
    split_ifs at h ⊢ with hnext
    · obtain ⟨right, hright, h⟩ := Option.bind_eq_some_iff.mp h
      obtain ⟨rest, hrest, h⟩ := Option.bind_eq_some_iff.mp h
      exact Option.bind_eq_some_iff.mpr ⟨right, hright, Option.bind_eq_some_iff.mpr ⟨rest, ih right rest hrest, h⟩⟩
    · exact h

theorem listed_persists (path : Text) (r : Rec) : Persists fun turns => fs.listed turns path r := by
  refine (mapNodesFrom_persists fs r.ino [r.ino]).bind fun nodes => ?_
  refine (blMapPath_persists fs 0 r.ino).bind fun _ => ?_
  refine Persists.bind ?_ fun maps => .const _
  refine (Persists.const (fs.node r.ino)).bind fun node => ?_
  exact (firstLeaf_persists fs node).bind fun leaf => leafChain_persists fs leaf

theorem files_persists : Persists fs.files := by
  refine Persists.bind ?_ fun all => .mapM (fun e => listed_persists fs e.1 e.2) all
  unfold Fs.blWalk
  by_cases hroot : fs.root = 0
  · simp only [if_pos hroot]
    exact .const _
  · simp only [if_neg hroot]
    exact (Persists.const _).bind fun top => walkFrom_persists fs _

end

section

variable {used : OrdMap Int Unit} {U : List Int}

theorem useLoop_spec (path : Text) (mine : List Int) (h : used.keys.Perm U) :
    ((useLoop path mine used).2 = [] ↔ (U ++ mine).Nodup) ∧
      ((U ++ mine).Nodup → (useLoop path mine used).1.keys.Perm (U ++ mine)) := by
  induction mine generalizing used U with
  | nil =>
    rw [List.append_nil]
    exact ⟨iff_of_true rfl (h.nodup_iff.mp used.keys_nodup), fun _ => h⟩
  | cons b mine ih =>
    have hstep : U ++ b :: mine = (U ++ [b]) ++ mine := by rw [List.append_assoc, List.singleton_append]
    by_cases hold : used.has b
    · have hb : b ∈ U := h.mem_iff.mp (OrdMap.mem_keys.mpr (OrdMap.has_iff.mp hold))
      have hnot : ¬(U ++ b :: mine).Nodup := fun hnodup =>
        (List.nodup_append.mp hnodup).2.2 b hb b List.mem_cons_self rfl
      refine ⟨iff_of_false ?_ hnot, fun hnodup => absurd hnodup hnot⟩
      rw [useLoop, if_pos hold]
      exact List.cons_ne_nil _ _
    · have hnone : used.get b = none := Option.not_isSome_iff_eq_none.mp hold
      have hperm : (used.put b ()).keys.Perm (U ++ [b]) := (OrdMap.keys_put_of_none hnone ()).trans
        ((h.cons b).trans (List.perm_append_singleton b U).symm)
      rw [hstep, useLoop, if_neg hold]
      exact ih hperm

theorem mapLoop_spec (base : Int) (j : Nat) (maps : List (Int × Int)) :
    ((mapLoop base j maps).2 = none ↔ maps.map Prod.fst = (List.range' j maps.length).map Int.ofNat) ∧
      ((mapLoop base j maps).2 = none → (mapLoop base j maps).1 = maps.map fun p => blockOf base p.2) := by
  induction maps generalizing j with
  | nil => exact ⟨iff_of_true rfl rfl, fun _ => rfl⟩
  | cons p maps ih =>
    obtain ⟨idx, lba⟩ := p
    rw [List.map_cons, List.length_cons, List.range'_succ, List.map_cons, List.cons.injEq]
    by_cases hidx : idx = j
    · obtain ⟨hiff, hblocks⟩ := ih (j + 1)
      rw [mapLoop, if_neg (not_not.mpr hidx), hiff]
      refine ⟨(and_iff_right hidx).symm, fun hrest => ?_⟩
      exact congrArg (blockOf base lba :: ·) (hblocks (hiff.mpr hrest))
    · rw [mapLoop, if_pos hidx]
      exact ⟨iff_of_false (Option.some_ne_none j) fun h => hidx h.1, fun h => absurd h (Option.some_ne_none j)⟩

def Listed.Mapped (file : Listed) : Prop :=
  (file.maps.length : Int) = want file.size ∧ file.maps.map Prod.fst = (List.range file.maps.length).map Int.ofNat

def Listed.uses (base : Int) (file : Listed) : List Int :=
  file.ino :: file.nodes ++ file.maps.map fun p => blockOf base p.2

theorem checkFile_spec (base : Int) (file : Listed) (h : used.keys.Perm U) :
    ((checkFile base used file).2 = [] ↔ file.Mapped ∧ (U ++ file.uses base).Nodup) ∧
      ((checkFile base used file).2 = [] → (checkFile base used file).1.keys.Perm (U ++ file.uses base)) := by
  obtain ⟨hgap, hblocks⟩ := mapLoop_spec base 0 file.maps
  rw [← List.range_eq_range'] at hgap
  have hsize : (if (file.maps.length : Int) ≠ want file.size then
      [Problem.maps file.path file.maps.length (want file.size)] else []) = [] ↔
      (file.maps.length : Int) = want file.size := by
    split
    next hne => exact iff_of_false (List.cons_ne_nil _ _) hne
    next heq => exact iff_of_true rfl (not_not.mp heq)
  have hnone : (mapLoop base 0 file.maps).2.toList.map (Problem.notMapped file.path) = [] ↔
      (mapLoop base 0 file.maps).2 = none := by
    rw [List.map_eq_nil_iff, Option.toList_eq_nil_iff]
  by_cases hmapped : (mapLoop base 0 file.maps).2 = none
  · obtain ⟨hiff, hperm⟩ := useLoop_spec file.path (file.uses base) h
    have huses : file.ino :: file.nodes ++ (mapLoop base 0 file.maps).1 = file.uses base := by
      rw [hblocks hmapped]
      rfl
    rw [checkFile, List.append_eq_nil_iff, List.append_eq_nil_iff, hsize, hnone, huses, hiff]
    refine ⟨?_, fun hclean => hperm hclean.2⟩
    rw [Listed.Mapped, ← hgap]
  · rw [checkFile, List.append_eq_nil_iff, List.append_eq_nil_iff, hnone]
    refine ⟨iff_of_false (fun hclean => hmapped hclean.1.2) fun hclean => hmapped (hgap.mpr hclean.1.2), fun hclean => ?_⟩
    exact absurd hclean.1.2 hmapped

theorem checkFiles_spec (base : Int) (files : List Listed) (h : used.keys.Perm U) :
    ((checkFiles base files used).2 = [] ↔
        (∀ file ∈ files, file.Mapped) ∧ (U ++ files.flatMap (Listed.uses base)).Nodup) ∧
      ((checkFiles base files used).2 = [] →
        (checkFiles base files used).1.keys.Perm (U ++ files.flatMap (Listed.uses base))) := by
  induction files generalizing used U with
  | nil =>
    rw [List.flatMap_nil, List.append_nil]
    refine ⟨iff_of_true rfl ⟨fun file hfile => absurd hfile List.not_mem_nil, ?_⟩, fun _ => h⟩
    exact h.nodup_iff.mp used.keys_nodup
  | cons file files ih =>
    obtain ⟨hfile, hperm⟩ := checkFile_spec base file h
    rw [checkFiles, List.append_eq_nil_iff, List.flatMap_cons, ← List.append_assoc, List.forall_mem_cons]
    by_cases hclean : (checkFile base used file).2 = []
    · obtain ⟨hrest, hpermRest⟩ := ih (hperm hclean)
      refine ⟨?_, fun h => hpermRest h.2⟩
      rw [hrest, and_iff_right hclean, and_iff_right (hfile.mp hclean).1]
    · refine ⟨iff_of_false (fun h => hclean h.1) fun h => hclean (hfile.mpr ⟨h.1.1, ?_⟩), fun h => absurd h.1 hclean⟩
      exact (List.nodup_append.mp h.2).1

end

section

variable {used : OrdMap Int Unit}

def InExtent (e : Int × Int) (b : Int) : Prop := e.1 ≤ b ∧ b < wrap (e.1 + e.2)

theorem checkExtent_nil (e : Int × Int) : checkExtent used e = [] ↔ ∀ b ∈ used.keys, ¬InExtent e b := by
  have hiff := OrdMap.ceil_lt_iff (m := used) (k := e.1) (t := wrap (e.1 + e.2))
  have hnone : checkExtent used e = [] ↔ ¬∃ q, used.ceil e.1 = some q ∧ q < wrap (e.1 + e.2) := by
    unfold checkExtent
    split
    next clash hclash =>
      split
      next hlt => exact iff_of_false (List.cons_ne_nil _ _) (not_not.mpr ⟨clash, hclash, hlt⟩)
      next hge =>
        refine iff_of_true rfl fun ⟨q, hq, hlt⟩ => hge ?_
        rwa [Option.some.inj (hclash.symm.trans hq)]
    next hclash => exact iff_of_true rfl fun ⟨q, hq, _⟩ => absurd (hclash.symm.trans hq) (Option.some_ne_none q).symm
  rw [hnone, hiff]
  simp only [InExtent, not_exists, not_and]

theorem wrap_modEq (n : Int) : wrap n ≡ n [ZMOD 2 ^ 64] :=
  Int.modEq_iff_dvd.mpr Int.dvd_self_sub_bmod

theorem foldl_wrap (spans : List (Int × Int)) (n : Int) :
    spans.foldl (fun n e => wrap (n + e.2)) n ≡ n + total spans [ZMOD 2 ^ 64] := by
  induction spans generalizing n with
  | nil => rw [total_nil, add_zero]; exact Int.ModEq.refl n
  | cons e spans ih =>
    calc (e :: spans).foldl (fun n e => wrap (n + e.2)) n
      _ ≡ wrap (n + e.2) + total spans [ZMOD 2 ^ 64] := ih _
      _ ≡ n + e.2 + total spans [ZMOD 2 ^ 64] := (wrap_modEq _).add_right _
      _ = n + total (e :: spans) := by rw [total_cons, add_assoc]

theorem checkLost_nil (blocks nused : Nat) (spans : List (Int × Int)) :
    checkLost blocks nused spans = [] ↔ (blocks : Int) ≡ nused + total spans [ZMOD 2 ^ 64] := by
  unfold checkLost
  extract_lets nfree lost
  have hfree : nfree ≡ total spans [ZMOD 2 ^ 64] := (foldl_wrap spans 0).trans (by rw [zero_add])
  have hlost : lost = 0 ↔ (blocks : Int) ≡ nused + total spans [ZMOD 2 ^ 64] := by
    have hdiff : wrap (blocks - nused) - nfree ≡ blocks - (nused + total spans) [ZMOD 2 ^ 64] := by
      rw [← sub_sub]
      exact (wrap_modEq _).sub hfree
    have hzero : lost = 0 ↔ (2 ^ 64 : Int) ∣ wrap (blocks - nused) - nfree := Int.dvd_iff_bmod_eq_zero.symm
    rw [hzero, ← Int.modEq_zero_iff_dvd]
    constructor
    · exact fun h => (Int.modEq_iff_dvd.mpr (Int.modEq_zero_iff_dvd.mp (hdiff.symm.trans h))).symm
    · exact fun h => hdiff.trans (Int.modEq_zero_iff_dvd.mpr (Int.modEq_iff_dvd.mp h.symm))
  split
  next hne => exact iff_of_false (List.cons_ne_nil _ _) fun h => hne (hlost.mpr h)
  next heq => exact iff_of_true rfl (hlost.mp (not_not.mp heq))

end

section

variable {fs : Fs} {files : List Listed} {turns : Nat}

def Fs.used (fs : Fs) (files : List Listed) : List Int := metaBlocks ++ files.flatMap (Listed.uses fs.base)

/-- The check finds nothing: the maps are right, no block is used twice, none is used and free, and the
sum is right. -/
structure Fs.Clean (fs : Fs) (files : List Listed) : Prop where
  mapped : ∀ file ∈ files, file.Mapped
  once : (fs.used files).Nodup
  apart : ∀ e ∈ fs.free.entries, ∀ b ∈ fs.used files, ¬InExtent e b
  sum : (fs.blocks : Int) ≡ (fs.used files).length + total fs.free.entries [ZMOD 2 ^ 64]

theorem metaKeys : (metaBlocks.foldl (fun used b => used.put b ()) (OrdMap.empty : OrdMap Int Unit)).keys = metaBlocks := by
  decide

theorem blFsck_clean (h : fs.files turns = some files) : blFsck turns fs = some [] ↔ fs.Clean files := by
  rw [blFsck, h, Option.bind_eq_bind, Option.bind_some]
  generalize hmeta : metaBlocks.foldl (fun used b => used.put b ()) (OrdMap.empty : OrdMap Int Unit) = start
  have hstart : start.keys.Perm metaBlocks := by rw [← hmeta, metaKeys]
  obtain ⟨hfiles, hperm⟩ := checkFiles_spec fs.base files hstart
  dsimp only
  rw [Option.pure_def, Option.some.injEq, List.append_eq_nil_iff, List.append_eq_nil_iff, List.flatMap_eq_nil_iff,
    checkLost_nil]
  simp only [checkExtent_nil]
  by_cases hclean : (checkFiles fs.base files start).2 = []
  · have hkeys := hperm hclean
    have hlen : (checkFiles fs.base files start).1.len = (fs.used files).length := by
      rw [OrdMap.len, ← List.length_map Prod.fst]
      exact hkeys.length_eq
    rw [hlen]
    constructor
    · rintro ⟨⟨-, hapart⟩, hsum⟩
      exact ⟨(hfiles.mp hclean).1, (hfiles.mp hclean).2, fun e he b hb => hapart e he b (hkeys.mem_iff.mpr hb), hsum⟩
    · rintro ⟨-, -, hapart, hsum⟩
      exact ⟨⟨hclean, fun e he b hb => hapart e he b (hkeys.mem_iff.mp hb)⟩, hsum⟩
  · exact iff_of_false (fun h => hclean h.1.1) fun h => hclean (hfiles.mpr ⟨h.mapped, h.once⟩)

end

/-! How much `bl_fsck` sees: it is complete where the free extents are in order and nothing lies outside of
the file system. Faults that it does not look for can make up for each other in its sum. -/

namespace Fs

variable (fs : Fs) (files : List Listed)

def allBlocks : List Int := (List.range fs.blocks).map Int.ofNat

def places : List Int := fs.used files ++ fs.free.entries.flatMap numbers

structure Accounts : Prop where
  mapped : ∀ file ∈ files, file.Mapped
  placed : ∀ b ∈ fs.allBlocks, (fs.places files).count b = 1

/-- The free extents hold blocks of the file system, each those behind the one before it, and the used
blocks are of the file system too. Blocks may be used twice, used and free, or lost. -/
structure Ordered : Prop where
  small : fs.blocks < 2 ^ 63
  used : ∀ b ∈ fs.used files, 0 ≤ b ∧ b < fs.blocks
  extents : ∀ e ∈ fs.free.entries, 0 ≤ e.1 ∧ 0 < e.2 ∧ e.1 + e.2 ≤ fs.blocks
  apart : fs.free.entries.Pairwise fun d e => d.1 + d.2 ≤ e.1

variable {fs files}

theorem allBlocks_nodup : fs.allBlocks.Nodup :=
  List.nodup_range.map fun _ _ h => Int.ofNat.inj h

@[simp] theorem allBlocks_length : fs.allBlocks.length = fs.blocks := by rw [allBlocks, List.length_map, List.length_range]

theorem mem_allBlocks {b : Int} : b ∈ fs.allBlocks ↔ 0 ≤ b ∧ b < fs.blocks := by
  simp only [allBlocks, List.mem_map, List.mem_range]
  constructor
  · rintro ⟨k, hk, rfl⟩
    simpa using hk
  · exact fun h => ⟨b.toNat, by omega, Int.toNat_of_nonneg h.1⟩

namespace Ordered

theorem subset (h : fs.Ordered files) : fs.places files ⊆ fs.allBlocks := by
  intro b hb
  rw [mem_allBlocks]
  rcases List.mem_append.mp hb with hb | hb
  · exact h.used b hb
  · obtain ⟨e, he, hb⟩ := List.mem_flatMap.mp hb
    have hextent := h.extents e he
    rw [mem_numbers] at hb
    omega

theorem placed_iff (h : fs.Ordered files) :
    (∀ b ∈ fs.allBlocks, (fs.places files).count b = 1) ↔ (fs.places files).Perm fs.allBlocks := by
  constructor
  · intro hplaced
    refine List.perm_iff_count.mpr fun b => ?_
    by_cases hb : b ∈ fs.allBlocks
    · rw [hplaced b hb, List.count_eq_one_of_mem allBlocks_nodup hb]
    · rw [List.count_eq_zero_of_not_mem hb, List.count_eq_zero_of_not_mem fun hin => hb (h.subset hin)]
  · exact fun hperm b hb => (hperm.count_eq b).trans (List.count_eq_one_of_mem allBlocks_nodup hb)

theorem inExtent_iff (h : fs.Ordered files) {e : Int × Int} (he : e ∈ fs.free.entries) {b : Int} :
    InExtent e b ↔ b ∈ numbers e := by
  have hextent := h.extents e he
  have hsmall := h.small
  have hwrap : wrap (e.1 + e.2) = e.1 + e.2 := by
    unfold wrap
    rw [Int.bmod_eq_of_le] <;> omega
  rw [InExtent, hwrap, mem_numbers]

theorem nodup_iff (h : fs.Ordered files) : (fs.places files).Nodup ↔
    (fs.used files).Nodup ∧ ∀ e ∈ fs.free.entries, ∀ b ∈ fs.used files, ¬InExtent e b := by
  rw [places, List.nodup_append, and_iff_right (numbers_nodup h.apart)]
  refine and_congr_right fun _ => ⟨fun hne e he b hb hin => ?_, fun hapart b hb c hc hbc => ?_⟩
  · exact hne b hb b (List.mem_flatMap.mpr ⟨e, he, (h.inExtent_iff he).mp hin⟩) rfl
  · obtain ⟨e, he, hc⟩ := List.mem_flatMap.mp hc
    exact hapart e he b hb ((h.inExtent_iff he).mpr (hbc ▸ hc))

/-- Where no block has two places, the sum is right only if none is missing. -/
theorem sum_iff (h : fs.Ordered files) (hnodup : (fs.places files).Nodup) :
    (fs.blocks : Int) ≡ (fs.used files).length + total fs.free.entries [ZMOD 2 ^ 64] ↔
      (fs.places files).length = fs.blocks := by
  have hlength : ((fs.used files).length + total fs.free.entries : Int) = (fs.places files).length := by
    rw [places, List.length_append, Nat.cast_add, length_numbers fun e he => (h.extents e he).2.1.le]
  have hle : (fs.places files).length ≤ fs.blocks := by
    have := (hnodup.subperm h.subset).length_le
    rwa [allBlocks_length] at this
  have hsmall := h.small
  rw [hlength]
  constructor
  · intro hsum
    have hmod : (fs.blocks : Int) % 2 ^ 64 = (fs.places files).length % 2 ^ 64 := hsum
    omega
  · exact fun heq => by rw [heq]

theorem clean_iff (h : fs.Ordered files) : fs.Clean files ↔ fs.Accounts files := by
  constructor
  · intro hclean
    have hnodup := h.nodup_iff.mpr ⟨hclean.once, hclean.apart⟩
    have hlength := (h.sum_iff hnodup).mp hclean.sum
    have hperm := (hnodup.subperm h.subset).perm_of_length_le (by rw [allBlocks_length, hlength])
    exact ⟨hclean.mapped, h.placed_iff.mpr hperm⟩
  · intro haccounts
    have hperm := h.placed_iff.mp haccounts.placed
    have hnodup := hperm.nodup_iff.mpr allBlocks_nodup
    obtain ⟨honce, hapart⟩ := h.nodup_iff.mp hnodup
    exact ⟨haccounts.mapped, honce, hapart, (h.sum_iff hnodup).mpr (hperm.length_eq.trans allBlocks_length)⟩

end Ordered

section

variable (fs)

def OfFiles (p : List Listed → Prop) : Prop := ∃ turns files, fs.files turns = some files ∧ p files

variable {fs}

theorem ofFiles_iff {turns : Nat} {p : List Listed → Prop} (h : fs.files turns = some files) :
    fs.OfFiles p ↔ p files := by
  constructor
  · rintro ⟨turns', files', h', hp⟩
    rwa [(files_persists fs).unique h h']
  · exact fun hp => ⟨turns, files, h, hp⟩

def FindsNothing (fs : Fs) : Prop := ∃ turns, blFsck turns fs = some []

theorem findsNothing_iff : fs.FindsNothing ↔ fs.OfFiles fs.Clean := by
  constructor
  · rintro ⟨turns, hrun⟩
    obtain ⟨files, hfiles, -⟩ := Option.bind_eq_some_iff.mp hrun
    exact ⟨turns, files, hfiles, (blFsck_clean hfiles).mp hrun⟩
  · rintro ⟨turns, files, hfiles, hclean⟩
    exact ⟨turns, (blFsck_clean hfiles).mpr hclean⟩

/-- A root directory in block 17 with a file of two blocks, 19 and 20, in the inode 18. -/
def oneFile (free : OrdMap Int Int) : Fs where
  base := 0
  blocks := 64
  root := 17
  free := free
  node blk :=
    if blk = 17 then some ⟨.L, 0, OrdMap.empty, some (.d, 0)⟩
    else if blk = 18 then some ⟨.L, 0, (OrdMap.empty.put 0 152).put 1 160, some (.f, 5000)⟩
    else none
  dir ino := if ino = 17 then some [([97], 18)] else none

theorem oneFile_files (free : OrdMap Int Int) : (oneFile free).files 3 =
    some [⟨[47], 0, 17, [], []⟩, ⟨[47, 97], 5000, 18, [], [(0, 152), (1, 160)]⟩] := rfl

end

end Fs

end Ussr.Belarus.Fsck
