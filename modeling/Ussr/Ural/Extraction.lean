import Ussr.Ural.Packages

/-! What an extraction does outside, also where it fails: the folders it makes, the files it opens,
and what it writes into its own buffers. -/

namespace Ussr.Ural
open Real64 (ascii)
open Codec

section

/-- What comes of a call of `mkdir`. -/
inductive Made
  | made
  | there
  | failed

structure FileSystem (σ : Type) where
  mkdir : (path : List UInt8) → σ → Made × σ
  /-- `fopen` for writing, `fwrite` and `fclose`. -/
  write : (path data : List UInt8) → σ → Bool × σ
  mkdir_nil : ∀ s, (mkdir [] s).1 = .failed

/-- What `inflate` comes to: the end of the stream or not, what it wrote and how much it took. -/
structure Inflated where
  ended : Bool
  out : List UInt8
  taken : Nat

/-- `inflate` with `Z_FINISH`, which writes no more than it has room for. -/
structure Inflater where
  run : (bytes : List UInt8) → (room : Nat) → Inflated
  keeps : ∀ bytes room, (run bytes room).out.length ≤ room

deriving instance DecidableEq for Header

/-- What is done outside; a file with the header of its entry, a decompression with the size of
its buffer. -/
inductive Effect
  | folder (path : List UInt8)
  | file (h : Header) (path data : List UInt8)
  | inflated (size written : Nat)
  deriving DecidableEq

structure Trace (σ : Type) where
  state : σ
  effects : List Effect

abbrev Step (σ : Type) := Trace σ → Bool × Trace σ

variable {σ : Type}

def Step.done : Step σ := fun t => (true, t)

def Step.fail : Step σ := fun t => (false, t)

def Step.andThen (f g : Step σ) : Step σ := fun t => if (f t).1 then g (f t).2 else f t

end

section

variable {σ : Type} (fs : FileSystem σ) (z : Inflater) (crc32 : List UInt8 → UInt32) (onFile : List UInt8 → σ → Bool × σ)

def tracedMkdir (path : List UInt8) : Step σ := fun t =>
  match fs.mkdir path t.state with
  | (.made, s) => (true, ⟨s, t.effects ++ [.folder path]⟩)
  | (.there, s) => (true, ⟨s, t.effects⟩)
  | (.failed, s) => (false, ⟨s, t.effects⟩)

/-- `make_directories` from the end of `done` on. -/
def tracedDirectoriesFrom : (rest done : List UInt8) → Step σ
  | [], done => tracedMkdir fs done
  | b :: rest, done =>
    if (b = 47 ∨ b = 92) ∧ done ≠ [] then (tracedMkdir fs done).andThen (tracedDirectoriesFrom rest (done ++ [b]))
    else tracedDirectoriesFrom rest (done ++ [b])

/-- `make_directories` -/
def tracedDirectories (path : List UInt8) : Step σ := tracedDirectoriesFrom fs path []

def tracedWrite (h : Header) (path data : List UInt8) : Step σ := fun t =>
  ((fs.write path data t.state).1, ⟨(fs.write path data t.state).2, t.effects ++ [.file h path data]⟩)

def tracedCall (name : List UInt8) : Step σ := fun t =>
  ((onFile name t.state).1, ⟨(onFile name t.state).2, t.effects⟩)

/-- The buffer that `extract_entry` has for the bytes of an entry. -/
def bufferSize (h : Header) : Nat := if h.size = 0 then 1 else h.size

def tracedData (h : Header) (compressed : List UInt8) (next : List UInt8 → Step σ) : Step σ :=
  if h.method = 0 then if h.compressedSize = h.size then next compressed else .fail
  else fun t =>
    -- `avail_out`
    let r := z.run compressed (if h.size = 0 then 1 else h.size)
    let t := { t with effects := t.effects ++ [.inflated (bufferSize h) r.out.length] }
    if r.ended ∧ r.out.length = h.size ∧ r.taken = h.compressedSize then next r.out t else (false, t)

/-- The end of `extract_entry`, where the bytes go to the disk. -/
def tracedInstall (root : List UInt8) (h : Header) (name raw : List UInt8) : Step σ :=
  let path := joinPath root name
  let parent := parentOf root path
  (if path ≠ parent then tracedDirectories fs parent else tracedDirectories fs root).andThen
    ((tracedWrite fs h path raw).andThen (tracedCall onFile name))

/-- `extract_entry` -/
def tracedEntry (root : List UInt8) (h : Header) (name bytes : List UInt8) : Step σ :=
  if pathIsSafe name = false ∨ 134217728 < h.size ∨ 134217728 < h.compressedSize ∨ (h.method ≠ 0 ∧ h.method ≠ 8) then .fail
  else if bytes.length < h.compressedSize then .fail
  else
    tracedData z h (bytes.take h.compressedSize) fun raw =>
      if (crc32 raw).toNat ≠ h.crc then .fail else tracedInstall fs onFile root h name raw

/-- The loop of `ural_archive_extract`; a turn takes four bytes at least. -/
def tracedLoop (root : List UInt8) : (turns : Nat) → List UInt8 → Step σ
  | 0, _ => .fail
  | turns + 1, bytes =>
    (readU32 bytes).toOption.elim .fail fun (signature, bytes) =>
      if signature = 0x02014b50 ∨ signature = 0x06054b50 then .done
      else if signature ≠ 0x04034b50 then .fail
      else
        (readHeader bytes).toOption.elim .fail fun (h, bytes) =>
          if h.nameLength = 0 ∨ 4096 < h.nameLength ∨ h.flags ≠ 0 then .fail
          else
            (take h.nameLength "" bytes).toOption.elim .fail fun (name, bytes) =>
              if name.contains 0 then .fail
              else
                (tracedEntry fs z crc32 onFile root h name (bytes.drop h.extraLength)).andThen
                  (tracedLoop root turns ((bytes.drop h.extraLength).drop h.compressedSize))

/-- `ural_archive_extract` -/
def tracedExtract (archive root : List UInt8) (s : σ) : Bool × Trace σ :=
  (tracedDirectories fs root).andThen (tracedLoop fs z crc32 onFile root archive.length archive) ⟨s, []⟩

end

structure Member where
  header : Header
  name : List UInt8
  stored : List UInt8

def readMember (bytes : List UInt8) : Option (Member × List UInt8) := do
  let (signature, bytes) ← (readU32 bytes).toOption
  if signature ≠ 0x04034b50 then none
  else do
    let (h, bytes) ← (readHeader bytes).toOption
    let (name, bytes) ← (take h.nameLength "" bytes).toOption
    let (stored, bytes) ← (take h.compressedSize "" (bytes.drop h.extraLength)).toOption
    return (⟨h, name, stored⟩, bytes)

/-- An archive begins with these entries and goes on with `rest`. -/
inductive Members : List UInt8 → List Member → List UInt8 → Prop
  | nil (bytes : List UInt8) : Members bytes [] bytes
  | cons {bytes more rest : List UInt8} {m : Member} {ms : List Member} : readMember bytes = some (m, more) →
      Members more ms rest → Members bytes (m :: ms) rest

def AtDirectory (bytes : List UInt8) : Prop := ∃ signature rest, readU32 bytes = .ok (signature, rest) ∧ EndsFiles signature

def Member.Holds (z : Inflater) (crc32 : List UInt8 → UInt32) (m : Member) (data : List UInt8) : Prop :=
  data.length = m.header.size ∧ (crc32 data).toNat = m.header.crc ∧
    (m.header.method = 0 ∧ data = m.stored ∨
      m.header.method = 8 ∧ ∃ room, (z.run m.stored room).ended = true ∧ (z.run m.stored room).out = data)

structure Component (c : List UInt8) : Prop where
  ne_nil : c ≠ []
  ne_dot : c ≠ [46]
  ne_dots : c ≠ [46, 46]
  no_slash : (47 : UInt8) ∉ c
  no_backslash : (92 : UInt8) ∉ c
  no_colon : (58 : UInt8) ∉ c

def Below (root path : List UInt8) : Prop :=
  ∃ cs, cs ≠ [] ∧ (∀ c ∈ cs, Component c) ∧ place path = place root ++ cs

/-- A folder is made on the way to the root, or below it; a file is opened below it, unless a backslash
stands where these are not told from slashes; and no buffer is too small. -/
def Inside (crc32 : List UInt8 → UInt32) (root : List UInt8) : Effect → Prop
  | .folder path => (92 : UInt8) ∉ root → place path <+: place root ∨ Below root path
  | .file h path data => ((92 : UInt8) ∉ trailing root → Below root path) ∧ data.length = h.size ∧ (crc32 data).toNat = h.crc
  | .inflated size written => written ≤ size

def Effect.file? : Effect → Option (Header × List UInt8 × List UInt8)
  | .file h path data => some (h, path, data)
  | _ => none

def files (es : List Effect) : List (Header × List UInt8 × List UInt8) := es.filterMap Effect.file?

def Written (z : Inflater) (crc32 : List UInt8 → UInt32) (root : List UInt8) (m : Member)
    (file : Header × List UInt8 × List UInt8) : Prop :=
  file.1 = m.header ∧ file.2.1 = joinPath root m.name ∧ m.Holds z crc32 file.2.2

section

variable {name root : List UInt8}

theorem no_slash_namesFrom (path : List UInt8) {word : List UInt8} (hword : (47 : UInt8) ∉ word) :
    ∀ c ∈ namesFrom path word, (47 : UInt8) ∉ c := by
  induction path generalizing word with
  | nil =>
    intro c hc
    rw [namesFrom] at hc
    split at hc
    · exact absurd hc List.not_mem_nil
    · rwa [List.mem_singleton.mp hc]
  | cons b path ih =>
    intro c hc
    rw [namesFrom] at hc
    split at hc
    · rw [List.mem_append] at hc
      obtain hc | hc := hc
      · split at hc
        · exact absurd hc List.not_mem_nil
        · rwa [List.mem_singleton.mp hc]
      · exact ih List.not_mem_nil c hc
    · rename_i hb
      refine ih ?_ c hc
      rw [List.mem_append, List.mem_singleton, not_or]
      exact ⟨hword, Ne.symm hb⟩

theorem safeComponent_of_safeFrom {path word : List UInt8} (h : safeFrom path word = true) :
    ∀ c ∈ namesFrom path word, safeComponent c = true := by
  induction path generalizing word with
  | nil =>
    intro c hc
    rw [namesFrom] at hc
    split at hc
    · exact absurd hc List.not_mem_nil
    · rw [List.mem_singleton.mp hc]
      exact h
  | cons b path ih =>
    rw [safeFrom] at h
    rw [namesFrom]
    split at h
    · rename_i hb
      rw [Bool.and_eq_true] at h
      rw [if_pos hb]
      intro c hc
      rw [List.mem_append] at hc
      obtain hc | hc := hc
      · split at hc
        · exact absurd hc List.not_mem_nil
        · rw [List.mem_singleton.mp hc]
          exact h.1
      · exact ih h.2 c hc
    · rename_i hb
      rw [if_neg hb]
      exact ih (Bool.and_eq_true _ _ ▸ h).2

theorem mem_of_mem_comps {c : List UInt8} (hc : c ∈ comps name) {b : UInt8} (hb : b ∈ c) : b ∈ name := by
  have hflat : b ∈ (comps name).flatten := List.mem_flatten.mpr ⟨c, hc, hb⟩
  rw [comps, flatten_namesFrom, List.nil_append] at hflat
  exact List.mem_of_mem_filter hflat

theorem component_of_pathIsSafe (h : pathIsSafe name = true) : ∀ c ∈ comps name, Component c := by
  unfold pathIsSafe at h
  simp only [Bool.and_eq_true, bne_iff_ne, Bool.not_eq_true', List.contains_eq_mem, decide_eq_false_iff_not] at h
  obtain ⟨⟨⟨_, hcolon⟩, hback⟩, hsafe⟩ := h
  intro c hc
  have hcomponent := safeComponent_of_safeFrom hsafe c hc
  unfold safeComponent at hcomponent
  simp only [Bool.and_eq_true, bne_iff_ne] at hcomponent
  exact ⟨hcomponent.1.1, hcomponent.1.2, hcomponent.2, no_slash_namesFrom name List.not_mem_nil c hc,
    fun hb => hback (mem_of_mem_comps hc hb), fun hb => hcolon (mem_of_mem_comps hc hb)⟩

theorem comps_ne_nil (hne : name ≠ []) (hhead : name.head? ≠ some 47) : comps name ≠ [] := by
  intro hnil
  have hflat := flatten_namesFrom name []
  rw [comps] at hnil
  rw [hnil, List.flatten_nil, List.nil_append, eq_comm, List.filter_eq_nil_iff] at hflat
  cases name with
  | nil => exact hne rfl
  | cons b name =>
    have hb := hflat b List.mem_cons_self
    exact hhead (by simpa using hb)

theorem below_joinPath (hroot : root ≠ []) (hback : (92 : UInt8) ∉ trailing root) (h : pathIsSafe name = true) :
    Below root (joinPath root name) := by
  refine ⟨comps name, ?_, component_of_pathIsSafe h, ?_⟩
  · unfold pathIsSafe at h
    simp only [Bool.and_eq_true, bne_iff_ne] at h
    exact comps_ne_nil h.1.1.1.1.1 h.1.1.1.1.2
  · rw [joinPath, place_withSlash hroot, place_withSlash_trimEnd hroot, (place_trimEnd_iff hroot).mpr hback]

def Cut (total done : List UInt8) : Prop :=
  done ≠ [] ∧ (done = total ∨ ∃ b rest, total = done ++ b :: rest ∧ (b = 47 ∨ b = 92))

theorem Cut.onWay (h : Cut root name) (hback : (92 : UInt8) ∉ root) : place name <+: place root := by
  obtain ⟨hne, rfl | ⟨b, rest, rfl, hb⟩⟩ := h
  · exact List.prefix_refl _
  · obtain rfl | rfl := hb
    · rw [place_slash hne]
      exact List.prefix_append _ _
    · exact absurd (List.mem_append_right _ List.mem_cons_self) hback

theorem below_of_safe {w x : List UInt8} (hroot : root ≠ []) (hplace : place (withSlash (trimEnd root)) = place root)
    (hw : w ≠ []) (hsafe : pathIsSafe (w ++ 47 :: x) = true) : Below root (withSlash (trimEnd root) ++ w) := by
  refine ⟨comps w, comps_ne_nil hw ?_, fun c hc => ?_, by rw [place_withSlash hroot, hplace]⟩
  · unfold pathIsSafe at hsafe
    simp only [Bool.and_eq_true, bne_iff_ne] at hsafe
    have hhead := hsafe.1.1.1.1.2
    rwa [List.head?_append_of_ne_nil _ hw] at hhead
  · refine component_of_pathIsSafe hsafe c ?_
    rw [comps, namesFrom_slash]
    exact List.mem_append_left _ hc

theorem Cut.folder {u v path : List UInt8} (h : Cut (withSlash (trimEnd root) ++ u) path) (hroot : root ≠ [])
    (hback : (92 : UInt8) ∉ root) (hsafe : pathIsSafe (u ++ 47 :: v) = true) :
    place path <+: place root ∨ Below root path := by
  have htrailing : (92 : UInt8) ∉ trailing root := fun hb => hback (List.mem_of_mem_drop hb)
  have hplace : place (withSlash (trimEnd root)) = place root :=
    (place_withSlash_trimEnd hroot).trans ((place_trimEnd_iff hroot).mpr htrailing)
  have hfront : (92 : UInt8) ∉ withSlash (trimEnd root) := by
    intro hmem
    obtain heq | ⟨_, heq⟩ := withSlash_cases hroot
    · rw [heq, List.mem_append, List.mem_singleton] at hmem
      obtain hmem | hmem := hmem
      · exact hback ((trimEnd_isPrefix root).subset hmem)
      · cases hmem
    · rw [heq, List.mem_singleton] at hmem
      cases hmem
  obtain ⟨hne, rfl | ⟨b, rest, hsplit, hb⟩⟩ := h
  · by_cases hu : u = []
    · rw [hu, List.append_nil, hplace]
      exact .inl (List.prefix_refl _)
    · exact .inr (below_of_safe hroot hplace hu hsafe)
  · obtain ⟨w, hpath, hrest⟩ | ⟨x, hcut, hrest⟩ := List.append_eq_append_iff.mp hsplit
    · by_cases hw : w = []
      · rw [hpath, hw, List.append_nil, hplace]
        exact .inl (List.prefix_refl _)
      · -- The cut is in the name, where only slashes separate.
        obtain rfl | rfl := hb
        · rw [hpath]
          refine .inr (below_of_safe hroot hplace hw (x := rest ++ 47 :: v) ?_)
          rwa [hrest, List.append_assoc, List.cons_append] at hsafe
        · refine absurd ?_ (safe_of_pathIsSafe hsafe).no_backslash
          rw [hrest]
          simp
    · refine .inl ?_
      rw [← hplace]
      refine Cut.onWay ⟨hne, ?_⟩ hfront
      cases x with
      | nil =>
        rw [List.append_nil] at hcut
        exact .inl hcut.symm
      | cons y x =>
        obtain ⟨rfl, _⟩ := List.cons.inj hrest
        exact .inr ⟨b, x, hcut, hb⟩

end

section

variable {σ : Type} {f g : Step σ} {Q R : List Effect → Bool → Prop}

def Does (f : Step σ) (Q : List Effect → Bool → Prop) : Prop :=
  ∀ t, ∃ es, (f t).2.effects = t.effects ++ es ∧ Q es (f t).1

theorem Does.mono (h : Does f Q) (hQ : ∀ es ok, Q es ok → R es ok) : Does f R := by
  intro t
  obtain ⟨es, heffects, hes⟩ := h t
  exact ⟨es, heffects, hQ es _ hes⟩

theorem Does.andThen {P : List Effect → Bool → Prop} (hf : Does f Q) (hg : Does g R) (hstop : ∀ es, Q es false → P es false)
    (hgo : ∀ es es' ok, Q es true → R es' ok → P (es ++ es') ok) : Does (f.andThen g) P := by
  intro t
  obtain ⟨es, heffects, hes⟩ := hf t
  unfold Step.andThen
  cases hok : (f t).1 with
  | false =>
    rw [hok] at hes
    exact ⟨es, heffects, by simpa [hok] using hstop es hes⟩
  | true =>
    rw [hok] at hes
    obtain ⟨es', heffects', hes'⟩ := hg (f t).2
    exact ⟨es ++ es', by rw [if_pos rfl, heffects', heffects, List.append_assoc], hgo es es' _ hes hes'⟩

theorem Does.fail (h : Q [] false) : Does (σ := σ) .fail Q := fun _ => ⟨[], (List.append_nil _).symm, h⟩

theorem Does.done (h : Q [] true) : Does (σ := σ) .done Q := fun _ => ⟨[], (List.append_nil _).symm, h⟩

variable (fs : FileSystem σ) (z : Inflater) (crc32 : List UInt8 → UInt32) (onFile : List UInt8 → σ → Bool × σ)

theorem does_mkdir (path : List UInt8) :
    Does (tracedMkdir fs path) fun es ok => es = [] ∧ (path = [] → ok = false) ∨ path ≠ [] ∧ es = [.folder path] := by
  intro t
  have hnil := fs.mkdir_nil t.state
  unfold tracedMkdir
  by_cases hpath : path = []
  · subst hpath
    cases hmade : fs.mkdir [] t.state with
    | mk result s =>
      rw [hmade] at hnil
      cases hnil
      exact ⟨[], (List.append_nil _).symm, .inl ⟨rfl, fun _ => rfl⟩⟩
  · cases hmade : fs.mkdir path t.state with
    | mk result s =>
      cases result with
      | made => exact ⟨[.folder path], rfl, .inr ⟨hpath, rfl⟩⟩
      | there | failed => exact ⟨[], (List.append_nil _).symm, .inl ⟨rfl, fun h => absurd h hpath⟩⟩

/-- The effects of `make_directories`. -/
def Folders (total : List UInt8) (es : List Effect) : Prop := ∀ e ∈ es, ∃ path, e = .folder path ∧ Cut total path

theorem folders_mkdir {total path : List UInt8} (hcut : path ≠ [] → Cut total path) :
    Does (tracedMkdir fs path) fun es ok => Folders total es ∧ (path = [] → ok = false) := by
  refine (does_mkdir fs path).mono fun es ok h => ?_
  obtain ⟨rfl, hok⟩ | ⟨hne, rfl⟩ := h
  · exact ⟨fun e he => absurd he List.not_mem_nil, hok⟩
  · refine ⟨fun e he => ?_, fun hnil => absurd hnil hne⟩
    exact ⟨path, List.mem_singleton.mp he, hcut hne⟩

theorem does_directoriesFrom {total : List UInt8} (rest done : List UInt8) (hsplit : total = done ++ rest) :
    Does (tracedDirectoriesFrom fs rest done) fun es ok => Folders total es ∧ (total = [] → ok = false) := by
  induction rest generalizing done with
  | nil =>
    rw [List.append_nil] at hsplit
    subst hsplit
    exact folders_mkdir fs fun hne => ⟨hne, .inl rfl⟩
  | cons b rest ih =>
    rw [tracedDirectoriesFrom]
    have hrest := ih (done ++ [b]) (by rw [hsplit, List.append_assoc]; rfl)
    split
    · rename_i hb
      have hfirst := @folders_mkdir σ fs total done fun hne => ⟨hne, .inr ⟨b, rest, hsplit, hb.1⟩⟩
      refine hfirst.andThen hrest (fun es h => ⟨h.1, fun _ => rfl⟩) fun es es' ok h h' => ⟨fun e he => ?_, h'.2⟩
      exact (List.mem_append.mp he).elim (h.1 e) (h'.1 e)
    · exact hrest

theorem does_directories (path : List UInt8) :
    Does (tracedDirectories fs path) fun es ok => Folders path es ∧ (path = [] → ok = false) :=
  does_directoriesFrom fs path [] rfl

theorem files_append (es es' : List Effect) : files (es ++ es') = files es ++ files es' := List.filterMap_append

theorem files_inflated (size written : Nat) (es : List Effect) : files (.inflated size written :: es) = files es := rfl

theorem files_folders {total : List UInt8} {es : List Effect} (h : Folders total es) : files es = [] := by
  rw [files, List.filterMap_eq_nil_iff]
  intro e he
  obtain ⟨path, rfl, _⟩ := h e he
  rfl

variable {root name : List UInt8} {h : Header} {m : Member}

theorem inside_folders {es : List Effect} (hfolders : Folders (directoriesFor root name) es) (hroot : root ≠ [])
    (hsafe : pathIsSafe name = true) : ∀ e ∈ es, Inside crc32 root e := by
  intro e he
  obtain ⟨path, rfl, hcut⟩ := hfolders e he
  intro hback
  unfold directoriesFor at hcut
  obtain ⟨_, hnone⟩ | ⟨u, v, rfl, _, hlast⟩ := lastSlash_cases name
  · rw [hnone, Option.elim_none] at hcut
    exact .inl (hcut.onWay hback)
  · rw [hlast, Option.elim_some, List.take_left] at hcut
    split at hcut
    · exact hcut.folder hroot hback hsafe
    · exact .inl (hcut.onWay hback)

theorem does_install {raw : List UInt8} (hroot : root ≠ []) (hsafe : pathIsSafe name = true) (hlen : raw.length = h.size)
    (hcrc : (crc32 raw).toNat = h.crc) : Does (tracedInstall fs onFile root h name raw) fun es ok =>
      (∀ e ∈ es, Inside crc32 root e) ∧ (files es = [] ∧ ok = false ∨ files es = [(h, joinPath root name, raw)]) := by
  have hwrite : Does ((tracedWrite fs h (joinPath root name) raw).andThen (tracedCall onFile name)) fun es _ =>
      es = [.file h (joinPath root name) raw] := by
    have hfirst : Does (tracedWrite fs h (joinPath root name) raw) fun es _ => es = [.file h (joinPath root name) raw] :=
      fun t => ⟨_, rfl, rfl⟩
    have hsecond : Does (tracedCall onFile name) fun es _ => es = [] := fun t => ⟨[], (List.append_nil _).symm, rfl⟩
    refine hfirst.andThen hsecond (fun es h => h) fun es es' _ h h' => ?_
    rw [h, h', List.append_nil]
  have hfile : Inside crc32 root (.file h (joinPath root name) raw) :=
    ⟨fun hback => below_joinPath hroot hback hsafe, hlen, hcrc⟩
  unfold tracedInstall
  dsimp only
  rw [← apply_ite (tracedDirectories fs), directoriesFor_eq hroot name]
  refine (does_directories fs _).andThen hwrite (fun es h => ?_) fun es es' ok h h' => ?_
  · exact ⟨inside_folders crc32 h.1 hroot hsafe, .inl ⟨files_folders h.1, rfl⟩⟩
  · subst h'
    refine ⟨fun e he => ?_, .inr ?_⟩
    · obtain he | he := List.mem_append.mp he
      · exact inside_folders crc32 h.1 hroot hsafe e he
      · rw [List.mem_singleton.mp he]
        exact hfile
    · rw [files_append, files_folders h.1]
      rfl

def EntryDone (root : List UInt8) (m : Member) (es : List Effect) (ok : Bool) : Prop :=
  (∀ e ∈ es, Inside crc32 root e) ∧
    (files es = [] ∧ ok = false ∨ ∃ file, files es = [file] ∧ Written z crc32 root m file)

theorem entryDone_fail : EntryDone z crc32 root m [] false := ⟨fun _ he => absurd he List.not_mem_nil, .inl ⟨rfl, rfl⟩⟩

theorem does_checked {raw : List UInt8} (hroot : root ≠ []) (hsafe : pathIsSafe m.name = true)
    (hlen : raw.length = m.header.size)
    (hraw : m.header.method = 0 ∧ raw = m.stored ∨
      m.header.method = 8 ∧ ∃ room, (z.run m.stored room).ended = true ∧ (z.run m.stored room).out = raw) :
    Does (if (crc32 raw).toNat ≠ m.header.crc then .fail else tracedInstall fs onFile root m.header m.name raw)
      (EntryDone z crc32 root m) := by
  split
  · exact .fail (entryDone_fail z crc32)
  · rename_i hcrc
    rw [not_not] at hcrc
    refine (does_install fs crc32 onFile hroot hsafe hlen hcrc).mono fun es ok hes => ⟨hes.1, ?_⟩
    refine hes.2.imp_right fun hfiles => ⟨_, hfiles, rfl, rfl, hlen, hcrc, hraw⟩

theorem does_data (hroot : root ≠ []) (hsafe : pathIsSafe m.name = true) (hmethod : m.header.method = 0 ∨ m.header.method = 8)
    (hstored : m.stored.length = m.header.compressedSize) :
    Does (tracedData z m.header m.stored fun raw =>
      if (crc32 raw).toNat ≠ m.header.crc then .fail else tracedInstall fs onFile root m.header m.name raw)
      (EntryDone z crc32 root m) := by
  unfold tracedData
  split
  · rename_i hzero
    split
    · rename_i hsize
      exact does_checked fs z crc32 onFile hroot hsafe (hstored.trans hsize) (.inl ⟨hzero, rfl⟩)
    · exact .fail (entryDone_fail z crc32)
  · rename_i hzero
    intro t
    have hroom := z.keeps m.stored (bufferSize m.header)
    have hinside : Inside crc32 root (.inflated (bufferSize m.header) (z.run m.stored (bufferSize m.header)).out.length) := hroom
    dsimp only
    rw [← bufferSize]
    split
    · rename_i hended
      have hchecked := does_checked fs z crc32 onFile hroot hsafe hended.2.1
        (.inr ⟨hmethod.resolve_left hzero, bufferSize m.header, hended.1, rfl⟩)
      obtain ⟨es, heffects, hes, hfiles⟩ := hchecked ⟨t.state, t.effects ++
        [.inflated (bufferSize m.header) (z.run m.stored (bufferSize m.header)).out.length]⟩
      refine ⟨_ :: es, by rw [heffects, List.append_assoc]; rfl, fun e he => ?_, by rw [files_inflated]; exact hfiles⟩
      obtain rfl | he := List.mem_cons.mp he
      · exact hinside
      · exact hes e he
    · refine ⟨[_], rfl, fun e he => ?_, .inl ⟨rfl, rfl⟩⟩
      rw [List.mem_singleton.mp he]
      exact hinside

theorem does_entry (hroot : root ≠ []) (h : Header) (name bytes : List UInt8) :
    Does (tracedEntry fs z crc32 onFile root h name bytes) fun es ok => es = [] ∧ ok = false ∨
      h.compressedSize ≤ bytes.length ∧ EntryDone z crc32 root ⟨h, name, bytes.take h.compressedSize⟩ es ok := by
  unfold tracedEntry
  split
  · exact .fail (.inl ⟨rfl, rfl⟩)
  · rename_i hchecks
    simp only [not_or, not_and, Bool.not_eq_false, not_lt] at hchecks
    split
    · exact .fail (.inl ⟨rfl, rfl⟩)
    · rename_i hlen
      rw [not_lt] at hlen
      have hmethod : h.method = 0 ∨ h.method = 8 := by
        have himp := hchecks.2.2.2
        by_cases hzero : h.method = 0
        · exact .inl hzero
        · exact .inr (not_not.mp (himp hzero))
      have hdata := does_data fs z crc32 onFile (m := ⟨h, name, bytes.take h.compressedSize⟩) hroot hchecks.1 hmethod
        (List.length_take_of_le hlen)
      exact hdata.mono fun es ok hes => .inr ⟨hlen, hes⟩

/-- What the loop does from some bytes on: the files written are those of the first entries, in order,
and where 0 is returned the directory of the archive stands behind them. -/
theorem does_loop (hroot : root ≠ []) (turns : Nat) (bytes : List UInt8) :
    Does (tracedLoop fs z crc32 onFile root turns bytes) fun es ok => (∀ e ∈ es, Inside crc32 root e) ∧
      ∃ ms rest, Members bytes ms rest ∧ List.Forall₂ (Written z crc32 root) ms (files es) ∧ (ok = true → AtDirectory rest) := by
  have hfail : ∀ bytes : List UInt8, (∀ e ∈ ([] : List Effect), Inside crc32 root e) ∧ ∃ ms rest, Members bytes ms rest ∧
      List.Forall₂ (Written z crc32 root) ms (files []) ∧ (false = true → AtDirectory rest) := by
    intro bytes
    exact ⟨fun _ he => absurd he List.not_mem_nil, [], bytes, .nil bytes, .nil, fun h => absurd h Bool.false_ne_true⟩
  induction turns generalizing bytes with
  | zero => exact .fail (hfail bytes)
  | succ turns ih =>
    rw [tracedLoop]
    cases hsignature : readU32 bytes with
    | error => exact .fail (hfail bytes)
    | ok read =>
      obtain ⟨signature, bytes₁⟩ := read
      dsimp only [Except.toOption, Option.elim_some]
      split
      · rename_i hends
        exact .done ⟨fun _ he => absurd he List.not_mem_nil, [], bytes, .nil bytes, .nil, fun _ => ⟨_, _, hsignature, hends⟩⟩
      · split
        · exact .fail (hfail bytes)
        · rename_i hlocal
          cases hheader : readHeader bytes₁ with
          | error => exact .fail (hfail bytes)
          | ok read =>
            obtain ⟨h, bytes₂⟩ := read
            dsimp only [Except.toOption, Option.elim_some]
            split
            · exact .fail (hfail bytes)
            · cases hname : take h.nameLength "" bytes₂ with
              | error => exact .fail (hfail bytes)
              | ok read =>
                obtain ⟨name, bytes₃⟩ := read
                dsimp only [Except.toOption, Option.elim_some]
                split
                · exact .fail (hfail bytes)
                · rw [not_not] at hlocal
                  have hmember (hlen : h.compressedSize ≤ (bytes₃.drop h.extraLength).length) : readMember bytes =
                      some (⟨h, name, (bytes₃.drop h.extraLength).take h.compressedSize⟩,
                        (bytes₃.drop h.extraLength).drop h.compressedSize) := by
                    have hstored : take h.compressedSize "" (bytes₃.drop h.extraLength) =
                        .ok ((bytes₃.drop h.extraLength).take h.compressedSize,
                          (bytes₃.drop h.extraLength).drop h.compressedSize) := if_neg (not_lt.mpr hlen)
                    simp only [readMember, hsignature, hheader, hname, hstored, Except.toOption, Option.bind_eq_bind,
                      Option.bind_some, hlocal, ne_eq, not_true_eq_false, if_false]
                    rfl
                  refine (does_entry fs z crc32 onFile hroot h name (bytes₃.drop h.extraLength)).andThen
                    (ih ((bytes₃.drop h.extraLength).drop h.compressedSize)) (fun es hes => ?_) fun es es' ok hes hes' => ?_
                  · obtain ⟨rfl, _⟩ | ⟨hlen, hinside, ⟨hnone, _⟩ | ⟨file, hfile, hwritten⟩⟩ := hes
                    · exact hfail bytes
                    · refine ⟨hinside, [], bytes, .nil bytes, ?_, fun h => absurd h Bool.false_ne_true⟩
                      rw [hnone]
                      exact .nil
                    · refine ⟨hinside, [_], _, .cons (hmember hlen) (.nil _), ?_, fun h => absurd h Bool.false_ne_true⟩
                      rw [hfile]
                      exact .cons hwritten .nil
                  · obtain ⟨_, hfalse⟩ | ⟨hlen, hinside, ⟨_, hfalse⟩ | ⟨file, hfile, hwritten⟩⟩ := hes
                    iterate 2 exact absurd hfalse.symm Bool.false_ne_true
                    obtain ⟨hinside', ms, rest, hmembers, hfiles, hend⟩ := hes'
                    refine ⟨fun e he => ?_, _ :: ms, rest, .cons (hmember hlen) hmembers, ?_, hend⟩
                    · exact (List.mem_append.mp he).elim (hinside e) (hinside' e)
                    · rw [files_append, hfile]
                      exact .cons hwritten hfiles

/-- Whatever the archive holds and however the calls outside come out: folders and files are made inside the
root, files hold the data of the archive's first entries, in order, and no entry is left out where 0 is returned. -/
theorem tracedExtract_inside (archive root : List UInt8) (s : σ) :
    (∀ e ∈ (tracedExtract fs z crc32 onFile archive root s).2.effects, Inside crc32 root e) ∧
      ∃ ms rest, Members archive ms rest ∧
        List.Forall₂ (Written z crc32 root) ms (files (tracedExtract fs z crc32 onFile archive root s).2.effects) ∧
        ((tracedExtract fs z crc32 onFile archive root s).1 = true → AtDirectory rest) := by
  have hall : Does ((tracedDirectories fs root).andThen (tracedLoop fs z crc32 onFile root archive.length archive))
      fun es ok => (∀ e ∈ es, Inside crc32 root e) ∧ ∃ ms rest, Members archive ms rest ∧
        List.Forall₂ (Written z crc32 root) ms (files es) ∧ (ok = true → AtDirectory rest) := by
    have hway {es : List Effect} (h : Folders root es) : ∀ e ∈ es, Inside crc32 root e := by
      intro e he
      obtain ⟨path, rfl, hcut⟩ := h e he
      exact fun hback => .inl (hcut.onWay hback)
    have hstop {es : List Effect} (h : Folders root es) : (∀ e ∈ es, Inside crc32 root e) ∧ ∃ ms rest,
        Members archive ms rest ∧ List.Forall₂ (Written z crc32 root) ms (files es) ∧ (false = true → AtDirectory rest) := by
      refine ⟨hway h, [], archive, .nil archive, ?_, fun h => absurd h Bool.false_ne_true⟩
      rw [files_folders h]
      exact .nil
    by_cases hroot : root = []
    · intro t
      obtain ⟨es, heffects, hes⟩ := does_directories fs root t
      have hfalse := hes.2 hroot
      have heq : (tracedDirectories fs root).andThen (tracedLoop fs z crc32 onFile root archive.length archive) t =
          tracedDirectories fs root t := if_neg fun h => Bool.false_ne_true (hfalse.symm.trans h)
      rw [heq, hfalse]
      exact ⟨es, heffects, hstop hes.1⟩
    · refine (does_directories fs root).andThen (does_loop fs z crc32 onFile hroot archive.length archive)
        (fun es hes => hstop hes.1) fun es es' ok hes hes' => ?_
      obtain ⟨hinside, ms, rest, hmembers, hfiles, hend⟩ := hes'
      refine ⟨fun e he => ?_, ms, rest, hmembers, ?_, hend⟩
      · exact (List.mem_append.mp he).elim (hway hes.1 e) (hinside e)
      · rwa [files_append, files_folders hes.1]
  obtain ⟨es, heffects, hes⟩ := hall ⟨s, []⟩
  rw [List.nil_append] at heffects
  rw [tracedExtract, heffects]
  exact hes

end

section

def diskSystem : FileSystem Disk where
  mkdir path d :=
    if path = [] then (.failed, d)
    else if d (place path) ≠ none then (.there, d)
    else if d (place path).dropLast = some .dir then (.made, Function.update d (place path) (some .dir))
    else (.failed, d)
  write path data d := (writeFile d path data).elim (false, d) fun d => (true, d)
  mkdir_nil _ := rfl

def Simulates (f : Step Disk) (F : Disk → Option Disk) : Prop :=
  ∀ t, (if (f t).1 then some (f t).2.state else none) = F t.state

variable {f g : Step Disk} {F G : Disk → Option Disk}

theorem Simulates.andThen (hf : Simulates f F) (hg : Simulates g G) : Simulates (f.andThen g) fun d => (F d).bind G := by
  intro t
  dsimp only
  rw [← hf t, Step.andThen]
  cases hok : (f t).1 with
  | false => simp [hok]
  | true => simpa using hg (f t).2

theorem Simulates.fail : Simulates .fail fun _ => none := fun _ => rfl

theorem simulates_mkdir (path : List UInt8) : Simulates (tracedMkdir diskSystem path) fun d => mkdir d path := by
  intro t
  unfold tracedMkdir mkdir diskSystem
  dsimp only
  split_ifs <;> simp_all

theorem simulates_directoriesFrom (rest done : List UInt8) :
    Simulates (tracedDirectoriesFrom diskSystem rest done) fun d => makeDirectoriesFrom d rest done := by
  induction rest generalizing done with
  | nil => exact simulates_mkdir done
  | cons b rest ih =>
    unfold tracedDirectoriesFrom makeDirectoriesFrom
    split
    · exact (simulates_mkdir done).andThen (ih (done ++ [b]))
    · exact ih (done ++ [b])

/-- `inflate` in a buffer ends there just where the data fill it. -/
def Agrees (z : Inflater) (inflate : List UInt8 → Option (List UInt8)) : Prop :=
  ∀ bytes size, (inflate bytes).bind (fun raw => if raw.length = size then some raw else none) =
    if (z.run bytes (if size = 0 then 1 else size)).ended ∧ (z.run bytes (if size = 0 then 1 else size)).out.length = size ∧
      (z.run bytes (if size = 0 then 1 else size)).taken = bytes.length
    then some (z.run bytes (if size = 0 then 1 else size)).out else none

variable {z : Inflater} {inflate : List UInt8 → Option (List UInt8)} {crc32 : List UInt8 → UInt32}

def quiet : List UInt8 → Disk → Bool × Disk := fun _ d => (true, d)

theorem simulates_install (root : List UInt8) (h : Header) (name raw : List UInt8) :
    Simulates (tracedInstall diskSystem quiet root h name raw) (writeEntry root name raw) := by
  have hwrite : Simulates ((tracedWrite diskSystem h (joinPath root name) raw).andThen (tracedCall quiet name)) fun d =>
      writeFile d (joinPath root name) raw := by
    have hfirst : Simulates (tracedWrite diskSystem h (joinPath root name) raw) fun d => writeFile d (joinPath root name) raw := by
      intro t
      cases hwritten : writeFile t.state (joinPath root name) raw <;> simp [tracedWrite, diskSystem, hwritten]
    have hsecond : Simulates (tracedCall quiet name) some := fun _ => rfl
    have hboth := hfirst.andThen hsecond
    simpa only [Option.bind_fun_some] using hboth
  have hfolders : ∀ path, Simulates (tracedDirectories diskSystem path) fun d => makeDirectories d path :=
    fun path => simulates_directoriesFrom path []
  unfold tracedInstall writeEntry
  dsimp only
  split
  · exact (hfolders _).andThen hwrite
  · exact (hfolders _).andThen hwrite

theorem simulates_data (hz : Agrees z inflate) {h : Header} {compressed : List UInt8}
    (hlen : compressed.length = h.compressedSize) {next : List UInt8 → Step Disk} {F : List UInt8 → Disk → Option Disk}
    (hnext : ∀ raw, Simulates (next raw) (F raw)) :
    Simulates (tracedData z h compressed next) fun d => (entryData inflate h compressed).bind fun raw => F raw d := by
  unfold tracedData entryData
  split
  · split
    · exact hnext compressed
    · exact .fail
  · intro t
    rw [hz compressed h.size, hlen]
    generalize (if h.size = 0 then 1 else h.size) = room
    dsimp only
    split
    · exact hnext _ _
    · rfl

theorem simulates_entry (hz : Agrees z inflate) (root : List UInt8) (h : Header) (name bytes : List UInt8) :
    Simulates (tracedEntry diskSystem z crc32 quiet root h name bytes) fun d =>
      (extractEntry inflate crc32 root h name bytes d).map Prod.fst := by
  unfold tracedEntry extractEntry
  split
  · exact .fail
  split
  · exact .fail
  rename_i hlen
  intro t
  have hcompressed : (bytes.take h.compressedSize).length = h.compressedSize := List.length_take_of_le (not_lt.mp hlen)
  have hchecked (raw : List UInt8) : Simulates
      (if (crc32 raw).toNat ≠ h.crc then .fail else tracedInstall diskSystem quiet root h name raw) fun d =>
        if (crc32 raw).toNat ≠ h.crc then none else writeEntry root name raw d := by
    split
    · exact .fail
    · exact simulates_install root h name raw
  rw [simulates_data hz hcompressed hchecked t]
  dsimp only
  rw [Option.map_bind]
  congr 1
  funext raw
  dsimp only [Function.comp_apply]
  split
  · rfl
  · rw [Option.map_map]
    exact Option.map_id'.symm

theorem extractEntry_rest {root name bytes rest : List UInt8} {h : Header} {d d' : Disk}
    (hentry : extractEntry inflate crc32 root h name bytes d = some (d', rest)) : rest = bytes.drop h.compressedSize := by
  unfold extractEntry at hentry
  split_ifs at hentry
  obtain ⟨raw, _, hentry⟩ := Option.bind_eq_some_iff.mp hentry
  split_ifs at hentry
  obtain ⟨d₁, _, heq⟩ := Option.map_eq_some_iff.mp hentry
  exact (congrArg Prod.snd heq).symm

theorem simulates_loop (hz : Agrees z inflate) (root : List UInt8) (turns : Nat) (bytes : List UInt8) :
    Simulates (tracedLoop diskSystem z crc32 quiet root turns bytes) fun d => extractLoop inflate crc32 root turns bytes d := by
  induction turns generalizing bytes with
  | zero => exact .fail
  | succ turns ih =>
    unfold tracedLoop extractLoop
    cases readU32 bytes with
    | error => exact .fail
    | ok read =>
      dsimp only [Except.toOption, Option.elim_some, Option.bind_some]
      split
      · exact fun _ => rfl
      split
      · exact .fail
      cases readHeader read.2 with
      | error => exact .fail
      | ok read =>
        obtain ⟨h, bytes⟩ := read
        dsimp only [Except.toOption, Option.elim_some, Option.bind_some]
        split
        · exact .fail
        cases take h.nameLength "" bytes with
        | error => exact .fail
        | ok read =>
          obtain ⟨name, bytes⟩ := read
          dsimp only [Except.toOption, Option.elim_some, Option.bind_some]
          split
          · exact .fail
          intro t
          rw [(simulates_entry hz root h name (bytes.drop h.extraLength)).andThen (ih _) t]
          dsimp only
          cases hentry : extractEntry inflate crc32 root h name (bytes.drop h.extraLength) t.state with
          | none => rfl
          | some result =>
            obtain ⟨d, rest⟩ := result
            rw [extractEntry_rest hentry]
            rfl

theorem simulates_extract (hz : Agrees z inflate) (archive root : List UInt8) (d : Disk) :
    uralArchiveExtract inflate crc32 archive root d =
      if (tracedExtract diskSystem z crc32 quiet archive root d).1 then
        some (tracedExtract diskSystem z crc32 quiet archive root d).2.state
      else none := by
  have hfolders : Simulates (tracedDirectories diskSystem root) fun d => makeDirectories d root :=
    simulates_directoriesFrom root []
  exact (hfolders.andThen (simulates_loop hz root archive.length archive) ⟨d, []⟩).symm

/-- What `inflate` makes of no input. -/
def noInflate : Inflater := ⟨fun _ _ => ⟨false, [], 0⟩, fun _ room => Nat.zero_le room⟩

def emptyFile : List UInt8 :=
  putLE 4 0x04034b50 ++ putLE 2 20 ++ putLE 2 0 ++ putLE 2 0 ++ putLE 2 0 ++ putLE 2 0 ++ putLE 4 0 ++ putLE 4 0 ++ putLE 4 0 ++
    putLE 2 1 ++ putLE 2 0 ++ ascii "a" ++ putLE 4 0x06054b50

def bare : Disk := fun p => if p = [] then some .dir else none

/-- The folder `o` is made, the target itself; and a target whose name ends with a backslash stays empty: the file
goes to another folder. -/
theorem outside_target :
    (.folder (ascii "o") ∈ (tracedExtract diskSystem noInflate (fun _ => 0) quiet emptyFile (ascii "o") bare).2.effects ∧
      ¬Below (ascii "o") (ascii "o")) ∧
    .file ⟨0, 0, 0, 0, 0, 1, 0⟩ (ascii "o/a") [] ∈
        (tracedExtract diskSystem noInflate (fun _ => 0) quiet emptyFile (ascii "o\\") bare).2.effects ∧
      ¬Below (ascii "o\\") (ascii "o/a") := by
  have htarget : place (ascii "o") = [[111]] := by decide
  have hother : place (ascii "o\\") = [[111, 92]] := by decide
  have hfile : place (ascii "o/a") = [[111], [97]] := by decide
  refine ⟨⟨by decide +kernel, fun h => ?_⟩, by decide +kernel, fun h => ?_⟩
  · obtain ⟨cs, hne, _, heq⟩ := h
    rw [htarget] at heq
    exact hne (List.append_cancel_left (heq.symm.trans (List.append_nil _).symm))
  · obtain ⟨cs, _, _, heq⟩ := h
    rw [hfile, hother] at heq
    cases heq

end

end Ussr.Ural
