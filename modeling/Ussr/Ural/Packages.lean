import Ussr.Ural.Install

/-! What a package holds of a tree, and what is read of it again. -/

namespace Ussr.Ural
open Codec

variable {relative root : List UInt8} {e : List UInt8 × List UInt8} {d : Disk}

/-- The files of a directory below `relative` that are packed, as `pack_walk` comes to them. -/
def Listing.filesFrom : List UInt8 → Listing → List (List UInt8 × List UInt8)
  | _, .nil => []
  | relative, .file name data rest =>
    (if stays (childPath relative name) then [] else [(childPath relative name, data)]) ++ rest.filesFrom relative
  | relative, .folder name items rest => items.filesFrom (childPath relative name) ++ rest.filesFrom relative

def Listing.files (tree : Listing) : List (List UInt8 × List UInt8) := tree.filesFrom []

def Listing.names : Listing → List (List UInt8)
  | .nil => []
  | .file name _ rest => name.bytes :: rest.names
  | .folder name _ rest => name.bytes :: rest.names

def Listing.Distinct : Listing → Prop
  | .nil => True
  | .file name _ rest => name.bytes ∉ rest.names ∧ rest.Distinct
  | .folder name items rest => name.bytes ∉ rest.names ∧ items.Distinct ∧ rest.Distinct

theorem comps_childPath (relative : List UInt8) (name : Name) : comps (childPath relative name) = comps relative ++ [name.bytes] := by
  rw [childPath]
  by_cases h : relative = []
  · subst h
    rw [if_neg fun hne => hne rfl, comps, List.append_nil, List.nil_append, namesFrom_word name.no_slash, List.nil_append,
      if_neg name.ne_nil]
    rfl
  · rw [if_pos h, List.append_assoc, List.singleton_append, comps_concat name.no_slash name.ne_nil]

theorem childPath_ne_nil (relative : List UInt8) (name : Name) : childPath relative name ≠ [] := by
  intro h
  exact name.ne_nil (List.append_eq_nil_iff.mp h).2

theorem childPath_no_nul (h : (0 : UInt8) ∉ relative) (name : Name) : (0 : UInt8) ∉ childPath relative name := by
  rw [childPath, List.mem_append, List.mem_append, not_or, not_or]
  refine ⟨⟨h, ?_⟩, name.no_nul⟩
  split <;> decide

theorem filesFrom_below (tree : Listing) (relative : List UInt8) :
    ∀ e ∈ tree.filesFrom relative, ∃ name ∈ tree.names, comps relative ++ [name] <+: comps e.1 := by
  induction tree generalizing relative with
  | nil => exact fun e he => absurd he List.not_mem_nil
  | file name data rest ih =>
    intro e he
    obtain he | he := List.mem_append.mp he
    · refine ⟨name.bytes, List.mem_cons_self, ?_⟩
      split at he
      · exact absurd he List.not_mem_nil
      · rw [List.mem_singleton.mp he, comps_childPath]
    · obtain ⟨other, hother, hbelow⟩ := ih relative e he
      exact ⟨other, List.mem_cons_of_mem _ hother, hbelow⟩
  | folder name items rest ihItems ih =>
    intro e he
    obtain he | he := List.mem_append.mp he
    · obtain ⟨_, _, hbelow⟩ := ihItems _ e he
      rw [comps_childPath] at hbelow
      exact ⟨name.bytes, List.mem_cons_self, (List.prefix_append _ _).trans hbelow⟩
    · obtain ⟨other, hother, hbelow⟩ := ih relative e he
      exact ⟨other, List.mem_cons_of_mem _ hother, hbelow⟩

theorem apart_of_names {front : List (List UInt8)} {name name' : List UInt8} {e' : List UInt8 × List UInt8} (hne : name ≠ name')
    (h : front ++ [name] <+: comps e.1) (h' : front ++ [name'] <+: comps e'.1) : Apart e e' := by
  have hsame : ∀ path, front ++ [name] <+: path → ¬ front ++ [name'] <+: path := by
    intro path hp hp'
    have heq := List.IsPrefix.eq_of_length (List.prefix_of_prefix_length_le hp hp' (by simp)) (by simp)
    exact hne (List.singleton_inj.mp (List.append_cancel_left heq))
  exact ⟨fun hunder => hsame _ (h.trans hunder) h', fun hunder => hsame _ h (h'.trans hunder)⟩

theorem filesFrom_apart {tree : Listing} (h : tree.Distinct) (relative : List UInt8) :
    (tree.filesFrom relative).Pairwise Apart := by
  induction tree generalizing relative with
  | nil => exact List.Pairwise.nil
  | file name data rest ih =>
    obtain ⟨hname, hrest⟩ := h
    refine List.pairwise_append.mpr ⟨?_, ih hrest relative, fun e he e' he' => ?_⟩
    · split
      · exact List.Pairwise.nil
      · exact List.pairwise_singleton _ _
    · obtain ⟨other, hother, hbelow⟩ := filesFrom_below rest relative e' he'
      have hself : comps relative ++ [name.bytes] <+: comps e.1 := by
        split at he
        · exact absurd he List.not_mem_nil
        · rw [List.mem_singleton.mp he, comps_childPath]
      exact apart_of_names (ne_of_mem_of_not_mem hother hname).symm hself hbelow
  | folder name items rest ihItems ih =>
    obtain ⟨hname, hitems, hrest⟩ := h
    refine List.pairwise_append.mpr ⟨ihItems hitems _, ih hrest relative, fun e he e' he' => ?_⟩
    obtain ⟨_, _, hself⟩ := filesFrom_below items _ e he
    rw [comps_childPath] at hself
    obtain ⟨other, hother, hbelow⟩ := filesFrom_below rest relative e' he'
    exact apart_of_names (ne_of_mem_of_not_mem hother hname).symm ((List.prefix_append _ _).trans hself) hbelow

theorem filesFrom_named (tree : Listing) (h : (0 : UInt8) ∉ relative) :
    ∀ e ∈ tree.filesFrom relative, e.1 ≠ [] ∧ (0 : UInt8) ∉ e.1 := by
  induction tree generalizing relative with
  | nil => exact fun e he => absurd he List.not_mem_nil
  | file name data rest ih =>
    intro e he
    obtain he | he := List.mem_append.mp he
    · split at he
      · exact absurd he List.not_mem_nil
      · rw [List.mem_singleton.mp he]
        exact ⟨childPath_ne_nil relative name, childPath_no_nul h name⟩
    · exact ih h e he
  | folder name items rest ihItems ih =>
    intro e he
    obtain he | he := List.mem_append.mp he
    · exact ihItems (childPath_no_nul h name) e he
    · exact ih h e he

section

variable {deflate : List UInt8 → List UInt8} {crc32 : List UInt8 → UInt32}

def record (deflate : List UInt8 → List UInt8) (crc32 : List UInt8 → UInt32) (e : List UInt8 × List UInt8) : List UInt8 :=
  localRecord ⟨e.1, (crc32 e.2).toNat, (deflate e.2).length, e.2.length, 0⟩ ++ deflate e.2

structure Fits (deflate : List UInt8 → List UInt8) (e : List UInt8 × List UInt8) : Prop where
  name : e.1.length ≤ 65535
  size : e.2.length ≤ 134217728
  compressed : (deflate e.2).length ≤ 4294967295

theorem packFile_spec {data : List UInt8} {s s' : Pack} (h : packFile deflate crc32 relative data s = some s')
    (hstays : stays relative = false) :
    s'.out = s.out ++ record deflate crc32 (relative, data) ∧ Fits deflate (relative, data) := by
  unfold packFile at h
  rw [if_neg (by rw [hstays]; exact Bool.false_ne_true)] at h
  split at h
  · cases h
  · rename_i hsizes
    rw [not_or, Nat.not_lt, Nat.not_lt] at hsizes
    extract_lets compressed entry at h
    split at h
    · cases h
    · rename_i hplace
      rw [not_or, Nat.not_lt, Nat.not_lt] at hplace
      rw [← Option.some.inj h]
      exact ⟨List.append_assoc _ _ _, hsizes.2, hsizes.1, hplace.1⟩

theorem packWalk_spec (tree : Listing) {s s' : Pack} (h : packWalk deflate crc32 relative tree s = some s') :
    s'.out = s.out ++ (tree.filesFrom relative).flatMap (record deflate crc32) ∧ ∀ e ∈ tree.filesFrom relative, Fits deflate e := by
  induction tree generalizing relative s s' with
  | nil =>
    rw [← Option.some.inj h]
    exact ⟨(List.append_nil _).symm, fun e he => absurd he List.not_mem_nil⟩
  | file name data rest ih =>
    rw [packWalk] at h
    obtain ⟨s₁, hfile, hrest⟩ := Option.bind_eq_some_iff.mp h
    obtain ⟨hout, hfits⟩ := ih hrest
    rw [Listing.filesFrom]
    cases hstays : stays (childPath relative name) with
    | true =>
      rw [packFile, if_pos hstays] at hfile
      rw [if_pos rfl, List.nil_append, Option.some.inj hfile]
      exact ⟨hout, hfits⟩
    | false =>
      obtain ⟨hout₁, hfits₁⟩ := packFile_spec hfile hstays
      rw [if_neg Bool.false_ne_true, List.flatMap_append, List.flatMap_singleton, ← List.append_assoc, ← hout₁]
      refine ⟨hout, fun e he => ?_⟩
      obtain he | he := List.mem_append.mp he
      · rw [List.mem_singleton.mp he]
        exact hfits₁
      · exact hfits e he
  | folder name items rest ihItems ih =>
    rw [packWalk] at h
    obtain ⟨s₁, hitems, hrest⟩ := Option.bind_eq_some_iff.mp h
    obtain ⟨hout₁, hfits₁⟩ := ihItems hitems
    obtain ⟨hout, hfits⟩ := ih hrest
    rw [Listing.filesFrom, List.flatMap_append, ← List.append_assoc, ← hout₁]
    refine ⟨hout, fun e he => ?_⟩
    obtain he | he := List.mem_append.mp he
    · exact hfits₁ e he
    · exact hfits e he

def EndsFiles (signature : Nat) : Prop := signature = 0x02014b50 ∨ signature = 0x06054b50

theorem uralArchivePack_spec {tree : Listing} {archive : List UInt8} (h : uralArchivePack deflate crc32 tree = some archive) :
    (∀ e ∈ tree.files, Fits deflate e) ∧ ∃ signature tail, EndsFiles signature ∧
      archive = tree.files.flatMap (record deflate crc32) ++ (putLE 4 signature ++ tail) := by
  unfold uralArchivePack at h
  obtain ⟨s, hwalk, h⟩ := Option.bind_eq_some_iff.mp h
  obtain ⟨hout, hfits⟩ := packWalk_spec tree hwalk
  rw [List.nil_append] at hout
  split at h
  · cases h
  · extract_lets central at h
    refine ⟨hfits, ?_⟩
    rw [← Option.some.inj h, hout, List.append_assoc]
    cases hentries : s.entries with
    | nil =>
      have hnone : central = [] := by
        show s.entries.flatMap centralRecord = []
        rw [hentries]
        rfl
      rw [hnone, List.nil_append, endRecord]
      simp only [List.append_assoc]
      exact ⟨_, _, .inr rfl, rfl⟩
    | cons entry entries =>
      have hfirst : central = centralRecord entry ++ entries.flatMap centralRecord := by
        show s.entries.flatMap centralRecord = _
        rw [hentries]
        rfl
      rw [hfirst, centralRecord]
      simp only [List.append_assoc]
      exact ⟨_, _, .inl rfl, rfl⟩

end

section

theorem decodes_readU16 {n : Nat} (h : n < 65536) : Decodes readU16 (putLE 2 n) n := by
  have hread := (Decodes.take "" (length_putLE 2 n)).map ofLE
  rwa [ofLE_putLE h] at hread

theorem decodes_readU32 {n : Nat} (h : n < 4294967296) : Decodes readU32 (putLE 4 n) n := by
  have hread := (Decodes.take "" (length_putLE 4 n)).map ofLE
  rwa [ofLE_putLE h] at hread

theorem decodes_readHeader {crc compressedSize size nameLength : Nat} (hcrc : crc < 4294967296)
    (hcompressed : compressedSize < 4294967296) (hsize : size < 4294967296) (hname : nameLength < 65536) :
    Decodes readHeader (putLE 2 20 ++ (putLE 2 0 ++ (putLE 2 8 ++ (putLE 2 0 ++ (putLE 2 0 ++ (putLE 4 crc ++
      (putLE 4 compressedSize ++ (putLE 4 size ++ (putLE 2 nameLength ++ putLE 2 0)))))))))
      ⟨0, 8, crc, compressedSize, size, nameLength, 0⟩ := by
  unfold readHeader
  refine (decodes_readU16 (by decide)).bind ?_
  refine (decodes_readU16 (by decide)).bind ?_
  refine (decodes_readU16 (by decide)).bind ?_
  refine (decodes_readU16 (by decide)).bind ?_
  refine (decodes_readU16 (by decide)).bind ?_
  refine (decodes_readU32 hcrc).bind ?_
  refine (decodes_readU32 hcompressed).bind ?_
  refine (decodes_readU32 hsize).bind ?_
  refine (decodes_readU16 hname).bind ?_
  exact (decodes_readU16 (by decide)).map _

variable {deflate : List UInt8 → List UInt8} {inflate : List UInt8 → Option (List UInt8)} {crc32 : List UInt8 → UInt32}

def Accepted (deflate : List UInt8 → List UInt8) (e : List UInt8 × List UInt8) : Prop :=
  pathIsSafe e.1 = true ∧ e.1.length ≤ 4096 ∧ (deflate e.2).length ≤ 134217728

instance acceptedDecidable (e : List UInt8 × List UInt8) : Decidable (Accepted deflate e) :=
  inferInstanceAs (Decidable (_ ∧ _ ∧ _))

def installEntry (deflate : List UInt8 → List UInt8) (root : List UInt8) (d : Disk) (e : List UInt8 × List UInt8) : Option Disk :=
  if Accepted deflate e then writeEntry root e.1 e.2 d else none

theorem extractEntry_record {rest : List UInt8}
    (hinflate : inflate (deflate e.2) = some e.2) (hfits : Fits deflate e) (hlength : e.1.length ≤ 4096) :
    extractEntry inflate crc32 root ⟨0, 8, (crc32 e.2).toNat, (deflate e.2).length, e.2.length, e.1.length, 0⟩ e.1
      (deflate e.2 ++ rest) d = (installEntry deflate root d e).map fun d => (d, rest) := by
  unfold extractEntry installEntry
  by_cases haccepted : Accepted deflate e
  · have hpass : ¬ (pathIsSafe e.1 = false ∨ 134217728 < e.2.length ∨ 134217728 < (deflate e.2).length ∨ (8 ≠ 0 ∧ 8 ≠ 8)) := by
      rintro (hrefused | hbig | hbig | ⟨_, hmethod⟩)
      · exact absurd (hrefused.symm.trans haccepted.1) Bool.false_ne_true
      · exact absurd hfits.size (by omega)
      · exact absurd haccepted.2.2 (by omega)
      · exact hmethod rfl
    have henough : ¬ (deflate e.2 ++ rest).length < (deflate e.2).length := by
      rw [List.length_append]
      omega
    have hmethod : ¬ (8 : Nat) = 0 := by decide
    rw [if_pos haccepted, if_neg hpass, if_neg henough, List.take_left, List.drop_left, entryData, if_neg hmethod, hinflate,
      Option.bind_some, if_pos rfl, Option.bind_some, if_neg fun hne => hne rfl]
  · rw [if_neg haccepted, if_pos]
    · rfl
    · by_contra hpass
      simp only [not_or, Bool.not_eq_false, Nat.not_lt] at hpass
      exact haccepted ⟨hpass.1, hlength, hpass.2.2.1⟩

theorem extractLoop_record {rest : List UInt8} (turns : Nat)
    (hinflate : inflate (deflate e.2) = some e.2) (hfits : Fits deflate e) (hne : e.1 ≠ []) (hnul : (0 : UInt8) ∉ e.1) :
    extractLoop inflate crc32 root (turns + 1) (record deflate crc32 e ++ rest) d =
      (installEntry deflate root d e).bind (extractLoop inflate crc32 root turns rest) := by
  have hname := hfits.name
  have hcompressed := hfits.compressed
  have hsize := hfits.size
  have hbytes : record deflate crc32 e ++ rest = putLE 4 0x04034b50 ++ ((putLE 2 20 ++ (putLE 2 0 ++ (putLE 2 8 ++ (putLE 2 0 ++
      (putLE 2 0 ++ (putLE 4 (crc32 e.2).toNat ++ (putLE 4 (deflate e.2).length ++ (putLE 4 e.2.length ++ (putLE 2 e.1.length ++
        putLE 2 0))))))))) ++ (e.1 ++ (deflate e.2 ++ rest))) := by
    simp only [record, localRecord, List.append_assoc]
  have hfirst : ¬ ((0x04034b50 : Nat) = 0x02014b50 ∨ (0x04034b50 : Nat) = 0x06054b50) := by decide
  have hlocal : ¬ (0x04034b50 : Nat) ≠ 0x04034b50 := fun hne => hne rfl
  rw [hbytes, extractLoop, decodes_readU32 (by decide)]
  simp only [Except.toOption, Option.bind_some]
  rw [if_neg hfirst, if_neg hlocal, decodes_readHeader (crc32 e.2).toNat_lt (by omega) (by omega) (by omega)]
  simp only [Option.bind_some]
  by_cases hlong : 4096 < e.1.length
  · rw [if_pos (.inr (.inl hlong)), installEntry, if_neg fun h => absurd h.2.1 (by omega)]
    rfl
  · have hpass : ¬ (e.1.length = 0 ∨ 4096 < e.1.length ∨ 0 ≠ 0) := by
      rintro (hzero | hbig | hflags)
      · exact hne (List.length_eq_zero_iff.mp hzero)
      · exact hlong hbig
      · exact hflags rfl
    rw [if_neg hpass, Decodes.take "" rfl]
    simp only [Option.bind_some]
    rw [if_neg (by simpa using hnul), List.drop_zero, extractEntry_record hinflate hfits (by omega)]
    cases installEntry deflate root d e with
    | none => rfl
    | some d' => rfl

theorem extractLoop_files {files : List (List UInt8 × List UInt8)} {tail : List UInt8} {signature turns : Nat}
    (hinflate : ∀ e ∈ files, inflate (deflate e.2) = some e.2) (hfits : ∀ e ∈ files, Fits deflate e)
    (hnamed : ∀ e ∈ files, e.1 ≠ [] ∧ (0 : UInt8) ∉ e.1) (hends : EndsFiles signature) (hturns : files.length < turns) :
    extractLoop inflate crc32 root turns (files.flatMap (record deflate crc32) ++ (putLE 4 signature ++ tail)) d =
      files.foldlM (installEntry deflate root) d := by
  induction files generalizing turns d with
  | nil =>
    obtain ⟨turns, rfl⟩ := Nat.exists_eq_add_of_lt hturns
    have hsmall : signature < 4294967296 := by
      obtain rfl | rfl := hends
      · decide
      · decide
    rw [List.flatMap_nil, List.nil_append, extractLoop, decodes_readU32 hsmall]
    exact if_pos hends
  | cons e files ih =>
    cases turns with
    | zero => exact absurd hturns (Nat.not_lt_zero _)
    | succ turns =>
      obtain ⟨hne, hnul⟩ := hnamed e List.mem_cons_self
      rw [List.flatMap_cons, List.append_assoc, extractLoop_record turns (hinflate e List.mem_cons_self)
        (hfits e List.mem_cons_self) hne hnul, List.foldlM_cons]
      refine congrArg (Option.bind _) (funext fun d' => ?_)
      exact ih (fun x hx => hinflate x (List.mem_cons_of_mem _ hx)) (fun x hx => hfits x (List.mem_cons_of_mem _ hx))
        (fun x hx => hnamed x (List.mem_cons_of_mem _ hx)) (Nat.succ_lt_succ_iff.mp hturns)

end

end Ussr.Ural
