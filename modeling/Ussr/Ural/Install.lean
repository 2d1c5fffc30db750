import Ussr.Ural.Paths

/-! What the extraction of files leaves on the disk. -/

namespace Ussr.Ural

section

def comps (name : List UInt8) : List (List UInt8) := namesFrom name []

/-- The directories that `extract_entry` makes for a name. -/
def directoriesFor (root name : List UInt8) : List UInt8 :=
  (lastSlash name).elim root fun i =>
    if root.length ≤ (withSlash (trimEnd root)).length + i then withSlash (trimEnd root) ++ name.take i else root

variable {root name raw : List UInt8} {d : Disk}

theorem directoriesFor_eq (hroot : root ≠ []) (name : List UInt8) :
    (if joinPath root name ≠ parentOf root (joinPath root name) then parentOf root (joinPath root name) else root) =
      directoriesFor root name := by
  unfold directoriesFor joinPath
  obtain ⟨hplain, hnone⟩ | ⟨u, v, rfl, hv, hlast⟩ := lastSlash_cases name
  · rw [hnone, Option.elim_none]
    obtain hfront | ⟨_, hfront⟩ := withSlash_cases hroot
    · -- A name without folders: where the path is cut, it is the root as it is written.
      rw [hfront, List.append_assoc, List.singleton_append]
      simp only [parentOf, lastSlash_concat hplain, Option.elim_some]
      split
      · rename_i hlong
        have hall : trimEnd root = root := (trimEnd_isPrefix root).eq_of_length_le hlong
        rw [List.take_left, if_pos fun heq => by simpa using congrArg List.length heq, hall]
      · rw [if_neg fun h => h rfl]
    · rw [hfront]
      simp only [parentOf, List.singleton_append, show lastSlash (47 :: name) = some 0 from lastSlash_concat hplain [],
        Option.elim_some]
      rw [if_neg fun h => hroot (List.length_eq_zero_iff.mp (Nat.le_zero.mp h)), if_neg fun h => h rfl]
  · rw [hlast, Option.elim_some, ← List.append_assoc]
    simp only [parentOf, lastSlash_concat hv, Option.elim_some, List.length_append, List.take_left]
    split
    · rw [List.take_left' (by rw [List.length_append]), if_pos fun heq => by simpa using congrArg List.length heq]
    · rw [if_neg fun h => h rfl]

theorem writeEntry_eq (hroot : root ≠ []) : writeEntry root name raw d =
    (makeDirectories d (directoriesFor root name)).bind fun d => writeFile d (withSlash (trimEnd root) ++ name) raw := by
  rw [writeEntry, ← directoriesFor_eq hroot name, apply_ite (makeDirectories d)]
  rfl

theorem place_withSlash (hroot : root ≠ []) (x : List UInt8) :
    place (withSlash (trimEnd root) ++ x) = place (withSlash (trimEnd root)) ++ comps x := by
  refine place_append (withSlash_atSlash hroot) ?_ x
  obtain heq | ⟨_, heq⟩ := withSlash_cases hroot
  · rw [heq]
    exact List.append_ne_nil_of_right_ne_nil _ (List.cons_ne_nil _ _)
  · rw [heq]
    exact List.cons_ne_nil _ _

theorem comps_concat {u v : List UInt8} (hv : (47 : UInt8) ∉ v) (hne : v ≠ []) : comps (u ++ 47 :: v) = comps u ++ [v] := by
  rw [comps, namesFrom_slash, namesFrom_word hv, List.nil_append, if_neg hne]
  rfl

theorem safeFrom_slash {u v word : List UInt8} (h : safeFrom (u ++ 47 :: v) word = true) : v ≠ [] := by
  induction u generalizing word with
  | nil =>
    rintro rfl
    rw [List.nil_append, safeFrom, if_pos rfl, Bool.and_eq_true] at h
    exact absurd h.2 (by decide)
  | cons b u ih =>
    rw [List.cons_append, safeFrom] at h
    split at h
    · exact ih (Bool.and_eq_true _ _ ▸ h).2
    · exact ih (Bool.and_eq_true _ _ ▸ h).2

structure Safe (name : List UInt8) : Prop where
  ne_nil : name ≠ []
  no_backslash : (92 : UInt8) ∉ name
  last : ∀ u v, name = u ++ 47 :: v → v ≠ []

theorem safe_of_pathIsSafe (h : pathIsSafe name = true) : Safe name := by
  unfold pathIsSafe at h
  simp only [Bool.and_eq_true, bne_iff_ne, Bool.not_eq_true', List.contains_eq_mem, decide_eq_false_iff_not] at h
  exact ⟨h.1.1.1.1.1, h.1.2, fun u v heq => safeFrom_slash (heq ▸ h.2)⟩

def folderOf (name : List UInt8) : List (List UInt8) := (comps name).dropLast

def FoldersMade (root name : List UInt8) : Prop :=
  ∀ i, lastSlash name = some i → root.length ≤ (withSlash (trimEnd root)).length + i

theorem Safe.comps_eq (h : Safe name) : ∃ v, comps name = folderOf name ++ [v] := by
  obtain ⟨hplain, _⟩ | ⟨u, v, rfl, hv, _⟩ := lastSlash_cases name
  · have hcomps : comps name = [name] := by rw [comps, namesFrom_word hplain, List.nil_append, if_neg h.ne_nil]
    exact ⟨name, by rw [folderOf, hcomps]; rfl⟩
  · exact ⟨v, by rw [folderOf, comps_concat hv (h.last u v rfl), List.dropLast_concat]⟩

theorem not_prefix_folderOf (h : Safe name) : ¬ comps name <+: folderOf name := by
  intro hunder
  obtain ⟨v, hv⟩ := h.comps_eq
  have hlength := hunder.length_le
  rw [hv, List.length_append, List.length_singleton] at hlength
  omega

theorem directoriesFor_made (hroot : root ≠ []) (hplace : place (withSlash (trimEnd root)) = place root) (h : Safe name)
    (hmade : FoldersMade root name) : place (directoriesFor root name) = place root ++ folderOf name := by
  unfold directoriesFor
  obtain ⟨hplain, hnone⟩ | ⟨u, v, rfl, hv, hlast⟩ := lastSlash_cases name
  · rw [hnone, Option.elim_none, folderOf, comps, namesFrom_word hplain, List.nil_append, if_neg h.ne_nil]
    exact (List.append_nil _).symm
  · rw [hlast, Option.elim_some, if_pos (hmade _ hlast), List.take_left, place_withSlash hroot, hplace, folderOf,
      comps_concat hv (h.last u v rfl), List.dropLast_concat]

theorem directoriesFor_root (hmade : ¬ FoldersMade root name) : directoriesFor root name = root := by
  unfold directoriesFor
  rw [FoldersMade, not_forall] at hmade
  obtain ⟨i, hi⟩ := hmade
  rw [Classical.not_imp] at hi
  rw [hi.1, Option.elim_some, if_neg hi.2]

end

theorem length_namesFrom_append (u v word : List UInt8) : (namesFrom u word).length ≤ (namesFrom (u ++ v) word).length := by
  induction u generalizing word with
  | nil =>
    rw [namesFrom, List.nil_append]
    split
    · exact Nat.zero_le _
    · rename_i hword
      induction v generalizing word with
      | nil => rw [namesFrom, if_neg hword]
      | cons b v ih =>
        rw [namesFrom]
        split
        · rw [List.length_append]
          exact Nat.le_add_right _ _
        · exact ih _ (List.append_ne_nil_of_left_ne_nil hword _)
  | cons b u ih =>
    rw [List.cons_append, namesFrom, namesFrom]
    split
    · rw [List.length_append, List.length_append]
      exact Nat.add_le_add_left (ih _) _
    · exact ih _

theorem length_place_of_isPrefix {u total : List UInt8} (h : u <+: total) : (place u).length ≤ (place total).length := by
  obtain ⟨v, rfl⟩ := h
  rw [place, place, List.length_append, List.length_append]
  refine Nat.add_le_add ?_ (length_namesFrom_append u v [])
  cases u with
  | nil => exact Nat.zero_le _
  | cons b u => exact le_refl _

theorem backslash_inside_root {root name u v : List UInt8} (hroot : root ≠ []) (hname : (92 : UInt8) ∉ name)
    (h : directoriesFor root name = u ++ 92 :: v) : u <+: root := by
  by_cases hdirs : directoriesFor root name = root
  · exact ⟨92 :: v, by rw [← h, hdirs]⟩
  · obtain ⟨i, hi⟩ : ∃ i, directoriesFor root name = withSlash (trimEnd root) ++ name.take i := by
      revert hdirs
      unfold directoriesFor
      cases lastSlash name with
      | none => exact fun hdirs => absurd rfl hdirs
      | some i =>
        rw [Option.elim_some]
        split
        · exact fun _ => ⟨i, rfl⟩
        · exact fun hdirs => absurd rfl hdirs
    obtain ⟨slashes, htotal, hslashes⟩ : ∃ slashes, withSlash (trimEnd root) = trimEnd root ++ slashes ∧ (92 : UInt8) ∉ slashes := by
      obtain heq | ⟨hone, heq⟩ := withSlash_cases hroot
      · exact ⟨[47], heq, by decide⟩
      · exact ⟨[], by rw [heq, hone]; rfl, List.not_mem_nil⟩
    rw [hi, htotal, List.append_assoc] at h
    have hrest : (92 : UInt8) ∉ slashes ++ name.take i := by
      rw [List.mem_append, not_or]
      exact ⟨hslashes, fun hmem => hname (List.mem_of_mem_take hmem)⟩
    refine List.IsPrefix.trans ?_ (trimEnd_isPrefix root)
    obtain ⟨mid, _, hmid⟩ | ⟨mid, htrim, _⟩ := List.append_eq_append_iff.mp h
    · exact absurd (by rw [hmid]; exact List.mem_append_right _ List.mem_cons_self) hrest
    · rw [htrim]
      exact List.prefix_append _ _

theorem onWay_directoriesFor {root name : List UInt8} (hroot : root ≠ []) (hplace : place (withSlash (trimEnd root)) = place root)
    (h : Safe name) {q : List (List UInt8)} (hq : q ≠ []) (hway : OnWay (directoriesFor root name) (place root ++ q)) :
    FoldersMade root name ∧ q <+: folderOf name := by
  have hlong : (place root).length < (place root ++ q).length := by
    rw [List.length_append]
    have := List.length_pos_iff.mpr hq
    omega
  obtain hunder | ⟨u, v, htotal, hu⟩ := hway
  · by_cases hmade : FoldersMade root name
    · rw [directoriesFor_made hroot hplace h hmade] at hunder
      exact ⟨hmade, (List.prefix_append_right_inj _).mp hunder⟩
    · rw [directoriesFor_root hmade] at hunder
      exact absurd hunder.length_le (by omega)
  · rw [hu] at hlong
    exact absurd (length_place_of_isPrefix (backslash_inside_root hroot h.no_backslash htotal)) (by omega)

section

structure Sound (d : Disk) : Prop where
  cwd : d [] = some .dir
  top : d [[]] = some .dir
  parent : ∀ p w, d (p ++ [w]) ≠ none → d p = some .dir

theorem Sound.dir {d : Disk} (h : Sound d) {p q : List (List UInt8)} (hp : d p = some .dir) (hq : q <+: p) : d q = some .dir := by
  induction p using List.reverseRecOn with
  | nil => rw [List.prefix_nil.mp hq]; exact hp
  | append_singleton p w ih =>
    obtain rfl | hq := List.prefix_concat_iff.mp hq
    · exact hp
    · exact ih (h.parent p w (by rw [hp]; exact Option.some_ne_none _)) hq

/-- On `disk` the root is a directory and nothing is in the way of the files. -/
structure Ready (root : List UInt8) (files : List (List UInt8 × List UInt8)) (disk : Disk) : Prop where
  sound : Sound disk
  base : disk (place root) = some .dir
  folder : ∀ e ∈ files, ∀ q, q <+: folderOf e.1 → ∀ data, disk (place root ++ q) ≠ some (.file data)
  free : ∀ e ∈ files, disk (place root ++ comps e.1) ≠ some .dir

/-- `done` has been written below the root of `disk`, and nothing else but directories. -/
structure Installed (root : List UInt8) (disk : Disk) (done : List (List UInt8 × List UInt8)) (s : Disk) : Prop where
  top : s [[]] = some .dir
  base : ∀ q, q <+: place root → s q = some .dir
  file : ∀ p data, s p = some (.file data) ↔ (∃ e ∈ done, p = place root ++ comps e.1 ∧ data = e.2) ∨
    (disk p = some (.file data) ∧ ∀ e ∈ done, p ≠ place root ++ comps e.1)
  dir : ∀ q, q ≠ [] → (s (place root ++ q) = some .dir ↔
    disk (place root ++ q) = some .dir ∨ ∃ e ∈ done, q <+: folderOf e.1)

def FolderFound (root : List UInt8) (disk : Disk) (done : List (List UInt8 × List UInt8)) (name : List UInt8) : Prop :=
  FoldersMade root name ∨ disk (place root ++ folderOf name) = some .dir ∨ ∃ e ∈ done, folderOf name <+: folderOf e.1

variable {root : List UInt8} {disk s : Disk} {done : List (List UInt8 × List UInt8)} {e : List UInt8 × List UInt8}

/-- From `s` to `s'` the directories for a name have been made, and no others below the root. -/
structure Opened (root name : List UInt8) (s s' : Disk) : Prop where
  top : s' [[]] = some .dir
  base : ∀ q, q <+: place root → s' q = some .dir
  file : ∀ p data, s' p = some (.file data) ↔ s p = some (.file data)
  dir : ∀ q, q ≠ [] → (s' (place root ++ q) = some .dir ↔
    s (place root ++ q) = some .dir ∨ (FoldersMade root name ∧ q <+: folderOf name))

theorem Installed.opened (h : Installed root disk done s) (hroot : root ≠ [])
    (hplace : place (withSlash (trimEnd root)) = place root) (hsafe : Safe e.1)
    (hway : ∀ q, q <+: folderOf e.1 → ∀ data, s (place root ++ q) ≠ some (.file data)) :
    ∃ s', makeDirectories s (directoriesFor root e.1) = some s' ∧ Opened root e.1 s s' := by
  have hdirs : directoriesFor root e.1 ≠ [] := by
    unfold directoriesFor
    cases lastSlash e.1 with
    | none => exact hroot
    | some i =>
      rw [Option.elim_some]
      split
      · obtain heq | ⟨_, heq⟩ := withSlash_cases hroot
        · rw [heq, List.append_assoc]
          exact List.append_ne_nil_of_right_ne_nil _ (List.cons_ne_nil _ _)
        · rw [heq]
          exact List.cons_ne_nil _ _
      · exact hroot
  have hfree : ∀ q, q <+: place (directoriesFor root e.1) → ∀ data, s q ≠ some (.file data) := by
    intro q hq data hfile
    by_cases hmade : FoldersMade root e.1
    · rw [directoriesFor_made hroot hplace hsafe hmade] at hq
      obtain hq' | ⟨x, rfl⟩ := List.prefix_or_prefix_of_prefix hq (List.prefix_append (place root) _)
      · rw [h.base q hq'] at hfile
        cases hfile
      · exact hway x ((List.prefix_append_right_inj _).mp hq) data hfile
    · rw [directoriesFor_root hmade] at hq
      rw [h.base q hq] at hfile
      cases hfile
  obtain ⟨s', hs', hgrows, hall⟩ := makeDirectories_grows hdirs (h.base [] List.nil_prefix) h.top hfree
  refine ⟨s', hs', hgrows.dir h.top, fun q hq => hgrows.dir (h.base q hq), fun p data => hgrows.file, fun q hq => ?_⟩
  constructor
  · intro hdir
    obtain heq | ⟨_, _, hway⟩ := hgrows (place root ++ q)
    · exact .inl (heq ▸ hdir)
    · exact .inr (onWay_directoriesFor hroot hplace hsafe hq hway)
  · rintro (hdir | ⟨hmade, hq⟩)
    · exact hgrows.dir hdir
    · refine hall _ ?_
      rw [directoriesFor_made hroot hplace hsafe hmade]
      exact (List.prefix_append_right_inj _).mpr hq

def Apart (e e' : List UInt8 × List UInt8) : Prop := ¬ comps e.1 <+: comps e'.1 ∧ ¬ comps e'.1 <+: comps e.1

theorem folderOf_above (name : List UInt8) : folderOf name <+: comps name := List.dropLast_prefix _

theorem not_prefix_folders (hsafe : Safe e.1) (hapart : ∀ x ∈ done, Apart x e) :
    ∀ x ∈ done ++ [e], ¬ comps e.1 <+: folderOf x.1 := by
  intro x hx hunder
  obtain hx | hx := List.mem_append.mp hx
  · exact (hapart x hx).2 (hunder.trans (folderOf_above _))
  · rw [List.mem_singleton.mp hx] at hunder
    exact not_prefix_folderOf hsafe hunder

theorem Safe.comps_ne_nil {name : List UInt8} (h : Safe name) : comps name ≠ [] := by
  obtain ⟨v, hv⟩ := h.comps_eq
  rw [hv]
  exact List.append_ne_nil_of_right_ne_nil _ (List.cons_ne_nil _ _)

variable {s₁ : Disk}

theorem Opened.parent (ho : Opened root e.1 s s₁) (h : Installed root disk done s) (hbase : disk (place root) = some .dir)
    (hsafe : Safe e.1) : s₁ (place root ++ comps e.1).dropLast = some .dir ↔ FolderFound root disk done e.1 := by
  obtain ⟨v, hv⟩ := hsafe.comps_eq
  rw [hv, ← List.append_assoc, List.dropLast_concat]
  by_cases hplain : folderOf e.1 = []
  · rw [hplain, List.append_nil]
    refine ⟨fun _ => .inr (.inl ?_), fun _ => ho.base _ (List.prefix_refl _)⟩
    rw [hplain, List.append_nil]
    exact hbase
  · rw [ho.dir _ hplain, h.dir _ hplain, FolderFound]
    constructor
    · rintro (hthere | ⟨hmade, _⟩)
      · exact .inr hthere
      · exact .inl hmade
    · rintro (hmade | hthere)
      · exact .inr ⟨hmade, List.prefix_refl _⟩
      · exact .inl hthere

theorem Opened.free (ho : Opened root e.1 s s₁) (h : Installed root disk done s) (hready : Ready root (done ++ [e]) disk)
    (hsafe : Safe e.1) (hapart : ∀ x ∈ done, Apart x e) : s₁ (place root ++ comps e.1) ≠ some .dir := by
  have hlast : e ∈ done ++ [e] := List.mem_append_right _ List.mem_cons_self
  have hnot := not_prefix_folders hsafe hapart
  rw [Ne, ho.dir _ hsafe.comps_ne_nil, h.dir _ hsafe.comps_ne_nil]
  rintro ((hthere | ⟨x, hx, hunder⟩) | ⟨_, hunder⟩)
  · exact hready.free e hlast hthere
  · exact hnot x (List.mem_append_left _ hx) hunder
  · exact hnot e hlast hunder

theorem Opened.write (ho : Opened root e.1 s s₁) (h : Installed root disk done s) (hready : Ready root (done ++ [e]) disk)
    (hsafe : Safe e.1) (hapart : ∀ x ∈ done, Apart x e) (hfound : FolderFound root disk done e.1) :
    Installed root disk (done ++ [e]) (Function.update s₁ (place root ++ comps e.1) (some (.file e.2))) := by
  have hlast : e ∈ done ++ [e] := List.mem_append_right _ List.mem_cons_self
  have hfree := ho.free h hready hsafe hapart
  have hother : ∀ p, p ≠ place root ++ comps e.1 →
      Function.update s₁ (place root ++ comps e.1) (some (.file e.2)) p = s₁ p := fun p hp => Function.update_of_ne hp ..
  refine ⟨?_, fun q hq => ?_, fun p data => ?_, fun q hq => ?_⟩
  · rw [hother _ fun heq => hfree (heq ▸ ho.top)]
    exact ho.top
  · rw [hother q fun heq => hfree (heq ▸ ho.base q hq)]
    exact ho.base q hq
  · by_cases hp : p = place root ++ comps e.1
    · subst hp
      rw [Function.update_self]
      constructor
      · intro heq
        cases heq
        exact .inl ⟨e, hlast, rfl, rfl⟩
      · rintro (⟨x, hx, heq, rfl⟩ | ⟨_, hnone⟩)
        · obtain hx | hx := List.mem_append.mp hx
          · exact absurd (List.append_cancel_left heq ▸ List.prefix_refl _) (hapart x hx).1
          · rw [List.mem_singleton.mp hx]
        · exact absurd rfl (hnone e hlast)
    · rw [hother p hp, ho.file, h.file]
      constructor
      · rintro (⟨x, hx, heq⟩ | ⟨hthere, hnone⟩)
        · exact .inl ⟨x, List.mem_append_left _ hx, heq⟩
        · refine .inr ⟨hthere, fun x hx => ?_⟩
          obtain hx | hx := List.mem_append.mp hx
          · exact hnone x hx
          · rw [List.mem_singleton.mp hx]
            exact hp
      · rintro (⟨x, hx, heq⟩ | ⟨hthere, hnone⟩)
        · obtain hx | hx := List.mem_append.mp hx
          · exact .inl ⟨x, hx, heq⟩
          · rw [List.mem_singleton.mp hx] at heq
            exact absurd heq.1 hp
        · exact .inr ⟨hthere, fun x hx => hnone x (List.mem_append_left _ hx)⟩
  · by_cases hqe : q = comps e.1
    · subst hqe
      rw [Function.update_self]
      refine ⟨fun heq => (by cases heq), ?_⟩
      rintro (hthere | ⟨x, hx, hunder⟩)
      · exact absurd hthere (hready.free e hlast)
      · exact absurd hunder (not_prefix_folders hsafe hapart x hx)
    · rw [hother _ fun heq => hqe (List.append_cancel_left heq), ho.dir q hq, h.dir q hq]
      constructor
      · rintro ((hthere | ⟨x, hx, hunder⟩) | ⟨_, hunder⟩)
        · exact .inl hthere
        · exact .inr ⟨x, List.mem_append_left _ hx, hunder⟩
        · exact .inr ⟨e, hlast, hunder⟩
      · rintro (hthere | ⟨x, hx, hunder⟩)
        · exact .inl (.inl hthere)
        · obtain hx | hx := List.mem_append.mp hx
          · exact .inl (.inr ⟨x, hx, hunder⟩)
          · rw [List.mem_singleton.mp hx] at hunder
            -- A folder that was found and not made lay there before, or an earlier file lies below it.
            obtain hmade | hthere | ⟨x, hx, hup⟩ := hfound
            · exact .inr ⟨hmade, hunder⟩
            · exact .inl (.inl (hready.sound.dir hthere ((List.prefix_append_right_inj _).mpr hunder)))
            · exact .inl (.inr ⟨x, hx, hunder.trans hup⟩)

theorem Installed.step (h : Installed root disk done s) (hroot : root ≠ [])
    (hplace : place (withSlash (trimEnd root)) = place root) (hsafe : Safe e.1) (hready : Ready root (done ++ [e]) disk)
    (hapart : ∀ x ∈ done, Apart x e) :
    (FolderFound root disk done e.1 → ∃ s', writeEntry root e.1 e.2 s = some s' ∧ Installed root disk (done ++ [e]) s') ∧
    (¬ FolderFound root disk done e.1 → writeEntry root e.1 e.2 s = none) := by
  have hway : ∀ q, q <+: folderOf e.1 → ∀ data, s (place root ++ q) ≠ some (.file data) := by
    intro q hq data hfile
    obtain ⟨x, hx, hp, _⟩ | ⟨hfile, _⟩ := (h.file _ _).mp hfile
    · rw [List.append_cancel_left hp] at hq
      exact (hapart x hx).1 (hq.trans (folderOf_above _))
    · exact hready.folder e (List.mem_append_right _ List.mem_cons_self) q hq data hfile
  obtain ⟨s₁, hs₁, ho⟩ := h.opened hroot hplace hsafe hway
  have hwrite : writeEntry root e.1 e.2 s = writeFile s₁ (withSlash (trimEnd root) ++ e.1) e.2 := by
    rw [writeEntry_eq hroot, hs₁, Option.bind_some]
  rw [hwrite, writeFile, place_withSlash hroot, hplace]
  have hparent := ho.parent h hready.base hsafe
  constructor
  · intro hfound
    exact ⟨_, if_pos ⟨hparent.mpr hfound, ho.free h hready hsafe hapart⟩, ho.write h hready hsafe hapart hfound⟩
  · intro hfound
    exact if_neg fun hall => hfound (hparent.mp hall.1)

end

end Ussr.Ural
