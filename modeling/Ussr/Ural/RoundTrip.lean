import Mathlib.Algebra.Order.BigOperators.Group.List
import Ussr.Ural.Packages

/-! A packed tree and the files that its package leaves on the disk. -/

namespace Ussr.Ural
open Real64 (ascii)
open Codec

section

variable {deflate : List UInt8 → List UInt8} {root : List UInt8} {disk s s' : Disk}
variable {p : List (List UInt8)} {data : List UInt8}

theorem onWay_root {q : List (List UInt8)} (h : OnWay root (place root ++ q)) : q = [] := by
  have hlength : (place root ++ q).length ≤ (place root).length := by
    obtain hunder | ⟨u, v, htotal, hu⟩ := h
    · exact hunder.length_le
    · rw [hu]
      exact length_place_of_isPrefix ⟨92 :: v, htotal.symm⟩
  rw [List.length_append] at hlength
  exact List.length_eq_zero_iff.mp (by omega)

theorem Ready.of_subset {files some : List (List UInt8 × List UInt8)} (h : Ready root files disk) (hsub : ∀ e ∈ some, e ∈ files) :
    Ready root some disk :=
  ⟨h.sound, h.base, fun e he => h.folder e (hsub e he), fun e he => h.free e (hsub e he)⟩

theorem Ready.start {files : List (List UInt8 × List UInt8)} (h : Ready root files disk) (hroot : root ≠ []) :
    ∃ s, makeDirectories disk root = some s ∧ Installed root disk [] s := by
  have hfree : ∀ q, q <+: place root → ∀ data, disk q ≠ some (.file data) := by
    intro q hq data hfile
    rw [h.sound.dir h.base hq] at hfile
    cases hfile
  obtain ⟨s, hs, hgrows, hall⟩ := makeDirectories_grows hroot h.sound.cwd h.sound.top hfree
  refine ⟨s, hs, hgrows.dir h.sound.top, hall, fun p data => ?_, fun q hq => ?_⟩
  · rw [hgrows.file]
    exact ⟨fun hfile => .inr ⟨hfile, fun e he => absurd he List.not_mem_nil⟩, fun hfile =>
      hfile.elim (fun ⟨e, he, _⟩ => absurd he List.not_mem_nil) And.left⟩
  · constructor
    · intro hdir
      obtain heq | ⟨_, _, hway⟩ := hgrows (place root ++ q)
      · exact .inl (heq ▸ hdir)
      · exact absurd (onWay_root hway) hq
    · rintro (hdir | ⟨e, he, _⟩)
      · exact hgrows.dir hdir
      · exact absurd he List.not_mem_nil

def Passable (deflate : List UInt8 → List UInt8) (root : List UInt8) (disk : Disk) (done files : List (List UInt8 × List UInt8)) : Prop :=
  ∀ before e after, files = before ++ e :: after → Accepted deflate e ∧ FolderFound root disk (done ++ before) e.1

theorem passable_nil (done : List (List UInt8 × List UInt8)) : Passable deflate root disk done [] :=
  fun _ _ _ heq => absurd heq.symm (List.append_ne_nil_of_right_ne_nil _ (List.cons_ne_nil _ _))

theorem passable_cons {done files : List (List UInt8 × List UInt8)} {e : List UInt8 × List UInt8} :
    Passable deflate root disk done (e :: files) ↔
      (Accepted deflate e ∧ FolderFound root disk done e.1) ∧ Passable deflate root disk (done ++ [e]) files := by
  constructor
  · intro h
    refine ⟨?_, fun before x after heq => ?_⟩
    · have hfirst := h [] e files rfl
      rwa [List.append_nil] at hfirst
    · rw [List.append_assoc]
      exact h (e :: before) x after (by rw [heq]; rfl)
  · rintro ⟨hfirst, hrest⟩ before x after heq
    cases before with
    | nil =>
      rw [List.nil_append] at heq
      obtain ⟨rfl, _⟩ := List.cons.inj heq
      rwa [List.append_nil]
    | cons y before =>
      obtain ⟨rfl, hsplit⟩ := List.cons.inj heq
      have hlater := hrest before x after hsplit
      rwa [List.append_assoc] at hlater

theorem Installed.run {done files : List (List UInt8 × List UInt8)} (h : Installed root disk done s) (hroot : root ≠ [])
    (hplace : place (withSlash (trimEnd root)) = place root) (hready : Ready root (done ++ files) disk)
    (hapart : (done ++ files).Pairwise Apart) :
    (Passable deflate root disk done files →
      ∃ s', files.foldlM (installEntry deflate root) s = some s' ∧ Installed root disk (done ++ files) s') ∧
    (¬ Passable deflate root disk done files → files.foldlM (installEntry deflate root) s = none) := by
  induction files generalizing done s with
  | nil =>
    rw [List.append_nil]
    exact ⟨fun _ => ⟨s, rfl, h⟩, fun hnot => absurd (passable_nil done) hnot⟩
  | cons e files ih =>
    rw [List.append_cons] at hready hapart ⊢
    rw [List.foldlM_cons, passable_cons, installEntry]
    by_cases haccepted : Accepted deflate e
    · rw [if_pos haccepted]
      have happart₁ : ∀ x ∈ done, Apart x e := by
        intro x hx
        rw [List.append_assoc] at hapart
        exact (List.pairwise_append.mp hapart).2.2 x hx e List.mem_cons_self
      obtain ⟨hfound, hlost⟩ := h.step hroot hplace (safe_of_pathIsSafe haccepted.1)
        (hready.of_subset fun x hx => List.mem_append_left _ hx) happart₁
      by_cases hfolder : FolderFound root disk done e.1
      · obtain ⟨s₁, hs₁, hinstalled⟩ := hfound hfolder
        obtain ⟨hpass, hstop⟩ := ih hinstalled hready hapart
        rw [hs₁]
        exact ⟨fun hall => hpass hall.2, fun hnot => hstop fun hrest => hnot ⟨⟨haccepted, hfolder⟩, hrest⟩⟩
      · rw [hlost hfolder]
        exact ⟨fun hall => absurd hall.1.2 hfolder, fun _ => rfl⟩
    · rw [if_neg haccepted]
      exact ⟨fun hall => absurd hall.1.1 haccepted, fun _ => rfl⟩

end

section

variable {deflate : List UInt8 → List UInt8} {root : List UInt8} {d d' : Disk}

theorem mkdir_file {path : List UInt8} (h : mkdir d path = some d')
    (hfile : d' p = some (.file data)) : d p = some (.file data) := by
  unfold mkdir at h
  split at h
  · cases h
  split at h
  · rwa [Option.some.inj h]
  split at h
  · rw [← Option.some.inj h] at hfile
    by_cases hp : p = place path
    · rw [hp, Function.update_self] at hfile
      cases hfile
    · rwa [Function.update_of_ne hp] at hfile
  · cases h

theorem makeDirectoriesFrom_file {rest done : List UInt8} (h : makeDirectoriesFrom d rest done = some d') (hfile : d' p = some (.file data)) : d p = some (.file data) := by
  induction rest generalizing done d with
  | nil => exact mkdir_file h hfile
  | cons b rest ih =>
    rw [makeDirectoriesFrom] at h
    split at h
    · obtain ⟨d₁, hd₁, hrest⟩ := Option.bind_eq_some_iff.mp h
      exact mkdir_file hd₁ (ih hrest)
    · exact ih h

theorem foldlM_installEntry_file {files : List (List UInt8 × List UInt8)} (hroot : root ≠ [])
    (h : files.foldlM (installEntry deflate root) d = some d')
    (hfile : d' p = some (.file data)) :
    d p = some (.file data) ∨ ∃ e ∈ files, p = place (trimEnd root) ++ comps e.1 := by
  induction files generalizing d with
  | nil =>
    rw [← Option.some.inj h] at hfile
    exact .inl hfile
  | cons e files ih =>
    rw [List.foldlM_cons] at h
    obtain ⟨d₁, hd₁, hrest⟩ := Option.bind_eq_some_iff.mp h
    obtain hfile₁ | ⟨x, hx, hp⟩ := ih hrest
    · unfold installEntry at hd₁
      split at hd₁
      · rename_i haccepted
        rw [writeEntry_eq hroot] at hd₁
        obtain ⟨d₂, hd₂, hwrite⟩ := Option.bind_eq_some_iff.mp hd₁
        rw [writeFile, place_withSlash hroot, place_withSlash_trimEnd hroot] at hwrite
        split at hwrite
        · rw [← Option.some.inj hwrite] at hfile₁
          by_cases hp : p = place (trimEnd root) ++ comps e.1
          · exact .inr ⟨e, List.mem_cons_self, hp⟩
          · rw [Function.update_of_ne hp] at hfile₁
            exact .inl (makeDirectoriesFrom_file hd₂ hfile₁)
        · cases hwrite
      · cases hd₁
    · exact .inr ⟨x, List.mem_cons_of_mem e hx, hp⟩

theorem place_trimEnd_of_files {files : List (List UInt8 × List UInt8)} (hne : files ≠ [])
    (h : ∀ e ∈ files, ∃ x ∈ files, place root ++ comps e.1 = place (trimEnd root) ++ comps x.1) :
    place (trimEnd root) = place root := by
  have hle : (place (trimEnd root)).length ≤ (place root).length := length_place_of_isPrefix (trimEnd_isPrefix root)
  obtain ⟨first, hfirst⟩ := List.exists_mem_of_ne_nil _ hne
  by_contra hdiffer
  have hlonger : ∀ e ∈ files, ∃ x ∈ files, (comps e.1).length < (comps x.1).length := by
    intro e he
    obtain ⟨x, hx, heq⟩ := h e he
    refine ⟨x, hx, ?_⟩
    have hlength := congrArg List.length heq
    rw [List.length_append, List.length_append] at hlength
    have hne : (place (trimEnd root)).length ≠ (place root).length :=
      fun hsame => hdiffer (List.append_inj_left heq hsame.symm).symm
    omega
  have hall : ∀ n, ∃ e ∈ files, n ≤ (comps e.1).length := by
    intro n
    induction n with
    | zero => exact ⟨first, hfirst, Nat.zero_le _⟩
    | succ n ih =>
      obtain ⟨e, he, hn⟩ := ih
      obtain ⟨x, hx, hlt⟩ := hlonger e he
      exact ⟨x, hx, by omega⟩
  obtain ⟨e, he, hbig⟩ := hall ((files.map fun e => (comps e.1).length).sum + 1)
  have hsum : (comps e.1).length ≤ (files.map fun e => (comps e.1).length).sum :=
    List.le_sum_of_mem (List.mem_map.mpr ⟨e, he, rfl⟩)
  omega

end

section

variable {deflate : List UInt8 → List UInt8} {inflate : List UInt8 → Option (List UInt8)} {crc32 : List UInt8 → UInt32}
  {tree : Listing} {archive root : List UInt8} {disk d d' : Disk}

/-- From `disk` to `d'` the files have been written below the root, and no other file has changed. -/
def Installs (root : List UInt8) (files : List (List UInt8 × List UInt8)) (disk d' : Disk) : Prop :=
  ∀ p data, d' p = some (.file data) ↔ (∃ e ∈ files, p = place root ++ comps e.1 ∧ data = e.2) ∨
    (disk p = some (.file data) ∧ ∀ e ∈ files, p ≠ place root ++ comps e.1)

def Installable (deflate : List UInt8 → List UInt8) (root : List UInt8) (disk : Disk) (files : List (List UInt8 × List UInt8)) : Prop :=
  (files ≠ [] → (92 : UInt8) ∉ trailing root) ∧ Passable deflate root disk [] files

theorem length_le_flatMap_record (deflate : List UInt8 → List UInt8) (crc32 : List UInt8 → UInt32)
    (files : List (List UInt8 × List UInt8)) :
    files.length ≤ (files.flatMap (record deflate crc32)).length := by
  induction files with
  | nil => exact Nat.zero_le _
  | cons e files ih =>
    have hrecord : 4 ≤ (record deflate crc32 e).length := by
      simp only [record, localRecord, List.length_append, length_putLE]
      omega
    rw [List.flatMap_cons, List.length_append, List.length_cons]
    omega

theorem uralArchiveExtract_pack (hinflate : ∀ x, inflate (deflate x) = some x) (hpack : uralArchivePack deflate crc32 tree = some archive) :
    uralArchiveExtract inflate crc32 archive root disk =
      (makeDirectories disk root).bind fun d => tree.files.foldlM (installEntry deflate root) d := by
  obtain ⟨hfits, signature, tail, hends, harchive⟩ := uralArchivePack_spec hpack
  have hturns : tree.files.length < archive.length := by
    have hfiles := length_le_flatMap_record deflate crc32 tree.files
    rw [harchive, List.length_append, List.length_append, length_putLE]
    omega
  unfold uralArchiveExtract
  refine congrArg (Option.bind _) (funext fun d => ?_)
  nth_rewrite 2 [harchive]
  exact extractLoop_files (fun e _ => hinflate e.2) hfits (filesFrom_named tree List.not_mem_nil) hends hturns

/-- A package is installed where its files can pass; where none of them was there, it is not installed otherwise. -/
theorem package_installed_iff (hinflate : ∀ x, inflate (deflate x) = some x) (hdistinct : tree.Distinct)
    (hpack : uralArchivePack deflate crc32 tree = some archive) (hroot : root ≠ []) (hready : Ready root tree.files disk) :
    (Installable deflate root disk tree.files →
      ∃ d', uralArchiveExtract inflate crc32 archive root disk = some d' ∧ Installs root tree.files disk d') ∧
    ((∀ e ∈ tree.files, disk (place root ++ comps e.1) = none) →
      (∃ d', uralArchiveExtract inflate crc32 archive root disk = some d' ∧ Installs root tree.files disk d') →
        Installable deflate root disk tree.files) := by
  obtain ⟨s, hs, hstart⟩ := hready.start hroot
  rw [uralArchiveExtract_pack hinflate hpack, hs, Option.bind_some]
  have hplace : (92 : UInt8) ∉ trailing root → place (withSlash (trimEnd root)) = place root :=
    fun hback => (place_withSlash_trimEnd hroot).trans ((place_trimEnd_iff hroot).mpr hback)
  have hapart : tree.files.Pairwise Apart := filesFrom_apart hdistinct []
  constructor
  · rintro ⟨hback, hpass⟩
    by_cases hempty : tree.files = []
    · rw [hempty]
      exact ⟨s, rfl, hstart.file⟩
    · obtain ⟨d', hd', hinstalled⟩ := (hstart.run hroot (hplace (hback hempty)) hready hapart).1 hpass
      exact ⟨d', hd', hinstalled.file⟩
  · rintro hnew ⟨d', hd', hinstalls⟩
    have hback : tree.files ≠ [] → (92 : UInt8) ∉ trailing root := by
      intro hfiles
      refine (place_trimEnd_iff hroot).mp (place_trimEnd_of_files hfiles fun e he => ?_)
      have hfile := (hinstalls _ _).mpr (.inl ⟨e, he, rfl, rfl⟩)
      obtain hbefore | hbelow := foldlM_installEntry_file hroot hd' hfile
      · obtain ⟨_, hnone, _⟩ | ⟨hthere, _⟩ := (hstart.file _ _).mp hbefore
        · exact absurd hnone List.not_mem_nil
        · rw [hnew e he] at hthere
          cases hthere
      · exact hbelow
    refine ⟨hback, ?_⟩
    by_cases hempty : tree.files = []
    · rw [hempty]
      exact passable_nil []
    · by_contra hpass
      have hstop : tree.files.foldlM (installEntry deflate root) s = none :=
        (hstart.run hroot (hplace (hback hempty)) hready hapart).2 hpass
      rw [hstop] at hd'
      cases hd'

def deflateLetter (data : List UInt8) : List UInt8 := if data = ascii "a" then [0x4b, 0x04, 0x00] else 0 :: data

def inflateLetter (bytes : List UInt8) : Option (List UInt8) :=
  if bytes = [0x4b, 0x04, 0x00] then some (ascii "a") else some bytes.tail

def crcLetter (_ : List UInt8) : UInt32 := 0xe8b7be43

theorem inflateLetter_deflateLetter (x : List UInt8) : inflateLetter (deflateLetter x) = some x := by
  unfold deflateLetter
  split
  · rename_i hletter
    rw [hletter, inflateLetter, if_pos rfl]
  · rw [inflateLetter, if_neg fun h => absurd (List.cons.inj h).1 (by decide), List.tail_cons]

def nameA : Name := ⟨ascii "a", by decide, by decide, by decide, by decide, by decide⟩

def nameB : Name := ⟨ascii "b", by decide, by decide, by decide, by decide, by decide⟩

def nested : Listing := .folder nameA (.file nameB (ascii "a") .nil) .nil

/-- A directory `o`, and nothing in it. -/
def emptyFolder : Disk := fun p => if p = [] ∨ p = [[]] ∨ p = [ascii "o"] then some .dir else none

theorem sound_emptyFolder : Sound emptyFolder := by
  refine ⟨rfl, rfl, fun p w h => ?_⟩
  cases p with
  | nil => rfl
  | cons v p =>
    refine absurd (if_neg ?_) h
    rintro (heq | heq | heq) <;> simp at heq

theorem ready_emptyFolder {root : List UInt8} (hplace : place root = [ascii "o"]) : Ready root nested.files emptyFolder := by
  have hbelow : ∀ q, emptyFolder ([ascii "o"] ++ q) = some .dir ∨ emptyFolder ([ascii "o"] ++ q) = none := by
    intro q
    unfold emptyFolder
    split
    · exact .inl rfl
    · exact .inr rfl
  refine ⟨sound_emptyFolder, by rw [hplace]; rfl, fun e _ q _ data hfile => ?_, fun e he => ?_⟩
  · rw [hplace] at hfile
    obtain hdir | hnone := hbelow q
    · rw [hdir] at hfile
      cases hfile
    · rw [hnone] at hfile
      cases hfile
  · rw [hplace, List.mem_singleton.mp he]
    decide

theorem distinct_nested : nested.Distinct := ⟨List.not_mem_nil, ⟨List.not_mem_nil, trivial⟩, trivial⟩

/-- Below a root written with three slashes, the folder of one letter is not made. -/
theorem folder_lost : nested.Distinct ∧ (∀ x, inflateLetter (deflateLetter x) = some x) ∧ Ready (ascii "o///") nested.files emptyFolder ∧
    ∃ archive, uralArchivePack deflateLetter crcLetter nested = some archive ∧
      uralArchiveExtract inflateLetter crcLetter archive (ascii "o///") emptyFolder = none := by
  refine ⟨distinct_nested, inflateLetter_deflateLetter, ready_emptyFolder (by decide), ?_⟩
  have hpack : (uralArchivePack deflateLetter crcLetter nested).isSome = true := by decide +kernel
  obtain ⟨archive, harchive⟩ := Option.isSome_iff_exists.mp hpack
  have hextract : ((uralArchivePack deflateLetter crcLetter nested).bind fun archive =>
      uralArchiveExtract inflateLetter crcLetter archive (ascii "o///") emptyFolder).isNone = true := by decide +kernel
  rw [harchive] at hextract
  exact ⟨archive, harchive, Option.isNone_iff_eq_none.mp hextract⟩

theorem package_installed_iff_nested : ∃ archive d', uralArchivePack deflateLetter crcLetter nested = some archive ∧
    uralArchiveExtract inflateLetter crcLetter archive (ascii "o/") emptyFolder = some d' ∧
      Installs (ascii "o/") nested.files emptyFolder d' := by
  have hpack : (uralArchivePack deflateLetter crcLetter nested).isSome = true := by decide +kernel
  obtain ⟨archive, harchive⟩ := Option.isSome_iff_exists.mp hpack
  have haccepted : Accepted deflateLetter (ascii "a/b", ascii "a") := by decide +kernel
  have hmade : FoldersMade (ascii "o/") (ascii "a/b") := by
    intro i _
    show 2 ≤ 2 + i
    exact Nat.le_add_right _ _
  have hready : Ready (ascii "o/") nested.files emptyFolder := ready_emptyFolder (by decide)
  obtain ⟨d', hd'⟩ := (package_installed_iff inflateLetter_deflateLetter distinct_nested harchive (by decide) hready).1
    ⟨fun _ => by decide, passable_cons.mpr ⟨⟨haccepted, .inl hmade⟩, passable_nil _⟩⟩
  exact ⟨archive, d', harchive, hd'⟩

end

end Ussr.Ural
