import Ussr.Ural.Archive

/-! The places that paths name, and the directories that `make_directories` makes of a path. -/

namespace Ussr.Ural

theorem namesFrom_slash (x y word : List UInt8) : namesFrom (x ++ 47 :: y) word = namesFrom x word ++ namesFrom y [] := by
  induction x generalizing word with
  | nil => rfl
  | cons b x ih =>
    rw [List.cons_append, namesFrom, namesFrom]
    split
    · rw [ih, List.append_assoc]
    · exact ih _

theorem namesFrom_word {x : List UInt8} (hx : (47 : UInt8) ∉ x) (word : List UInt8) :
    namesFrom x word = if word ++ x = [] then [] else [word ++ x] := by
  induction x generalizing word with
  | nil => rw [namesFrom, List.append_nil]
  | cons b x ih =>
    rw [List.mem_cons, not_or] at hx
    rw [namesFrom, if_neg (Ne.symm hx.1), ih hx.2, List.append_assoc]
    rfl

theorem place_slash {x : List UInt8} (hx : x ≠ []) (y : List UInt8) : place (x ++ 47 :: y) = place x ++ namesFrom y [] := by
  rw [place, place, namesFrom_slash, List.append_assoc]
  cases x with
  | nil => exact absurd rfl hx
  | cons b x => rfl

def AtSlash (base : List UInt8) : Prop := base = [] ∨ ∃ x, base = x ++ [47]

theorem place_append (hbase : AtSlash base) (hne : base ≠ []) (y : List UInt8) :
    place (base ++ y) = place base ++ namesFrom y [] := by
  obtain rfl | ⟨x, rfl⟩ := hbase
  · exact absurd rfl hne
  rw [List.append_assoc, List.singleton_append]
  by_cases hx : x = []
  · subst hx
    rfl
  · rw [place_slash hx, place_slash hx]
    simp [namesFrom]

theorem place_word {word : List UInt8} (hbase : AtSlash base) (hword : (47 : UInt8) ∉ word) :
    place (base ++ word) = place base ++ if word = [] then [] else [word] := by
  by_cases hne : base = []
  · subst hne
    have hhead : word.head? ≠ some 47 := fun h => hword (List.mem_of_head? h)
    rw [List.nil_append, place, if_neg hhead, namesFrom_word hword, List.nil_append]
    rfl
  · rw [place_append hbase hne, namesFrom_word hword, List.nil_append]

section

/-- A place that making a path's directories may fill: one on the way, or what stands before a backslash. -/
def OnWay (total : List UInt8) (p : List (List UInt8)) : Prop :=
  p <+: place total ∨ ∃ u v, total = u ++ 92 :: v ∧ p = place u

/-- From `d` to `d'` there are new directories only, at places of `K`. -/
def Grows (K : List (List UInt8) → Prop) (d d' : Disk) : Prop :=
  ∀ p, d' p = d p ∨ (d p = none ∧ d' p = some .dir ∧ K p)

variable {K : List (List UInt8) → Prop} {d d' d'' : Disk}
variable {root base path : List UInt8}

theorem Grows.refl (K : List (List UInt8) → Prop) (d : Disk) : Grows K d d := fun _ => .inl rfl

theorem Grows.trans (h : Grows K d d') (h' : Grows K d' d'') : Grows K d d'' := by
  intro p
  obtain heq | ⟨hnone, hdir, hK⟩ := h p
  · rw [← heq]
    exact h' p
  · refine .inr ⟨hnone, ?_, hK⟩
    obtain heq | ⟨hnone', _⟩ := h' p
    · exact heq.trans hdir
    · rw [hdir] at hnone'
      cases hnone'

theorem Grows.dir (h : Grows K d d') {p : List (List UInt8)} (hp : d p = some .dir) : d' p = some .dir := by
  obtain heq | ⟨hnone, _⟩ := h p
  · exact heq.trans hp
  · rw [hp] at hnone
    cases hnone

theorem Grows.file (h : Grows K d d') {p : List (List UInt8)} {data : List UInt8} :
    d' p = some (.file data) ↔ d p = some (.file data) := by
  obtain heq | ⟨hnone, hdir, _⟩ := h p
  · rw [heq]
  · rw [hnone, hdir]
    constructor <;> intro hfile <;> cases hfile

theorem mkdir_grows (hne : path ≠ []) (hparent : d (place path).dropLast = some .dir) (hK : K (place path)) :
    ∃ d', mkdir d path = some d' ∧ Grows K d d' ∧ d' (place path) ≠ none := by
  unfold mkdir
  rw [if_neg hne]
  by_cases hthere : d (place path) ≠ none
  · rw [if_pos hthere]
    exact ⟨d, rfl, .refl K d, hthere⟩
  · rw [if_neg hthere, if_pos hparent]
    rw [not_not] at hthere
    refine ⟨_, rfl, fun p => ?_, ?_⟩
    · by_cases hp : p = place path
      · subst hp
        exact .inr ⟨hthere, Function.update_self .., hK⟩
      · exact .inl (Function.update_of_ne hp ..)
    · rw [Function.update_self]
      exact Option.some_ne_none _

theorem parent_dir {word : List UInt8} (hbase : AtSlash base) (hword : (47 : UInt8) ∉ word)
    (hdirs : ∀ q, q <+: place base → d q = some .dir) : d (place (base ++ word)).dropLast = some .dir := by
  refine hdirs _ ?_
  rw [place_word hbase hword]
  split
  · rw [List.append_nil]
    exact List.dropLast_prefix _
  · rw [List.dropLast_concat]

theorem mkdir_onWay {word : List UInt8} (hbase : AtSlash base) (hword : (47 : UInt8) ∉ word)
    (hdirs : ∀ q, q <+: place base → d q = some .dir) (hne : base ++ word ≠ []) (hK : K (place (base ++ word)))
    (hfree : ∀ data, d (place (base ++ word)) ≠ some (.file data)) :
    ∃ d', mkdir d (base ++ word) = some d' ∧ Grows K d d' ∧ ∀ q, q <+: place (base ++ word) → d' q = some .dir := by
  obtain ⟨d', hd', hgrows, hthere⟩ := mkdir_grows hne (parent_dir hbase hword hdirs) hK
  refine ⟨d', hd', hgrows, fun q hq => ?_⟩
  have hlast : d' (place (base ++ word)) = some .dir := by
    cases hnode : d' (place (base ++ word)) with
    | none => exact absurd hnode hthere
    | some node =>
      cases node with
      | dir => rfl
      | file data => exact absurd (hgrows.file.mp hnode) (hfree data)
  rw [place_word hbase hword] at hq hlast
  split at hq
  · rw [List.append_nil] at hq
    exact hgrows.dir (hdirs q hq)
  · rename_i hword'
    rw [if_neg hword'] at hlast
    obtain rfl | hq := List.prefix_concat_iff.mp hq
    · exact hlast
    · exact hgrows.dir (hdirs q hq)

theorem makeDirectoriesFrom_grows {total : List UInt8} (htotal : total ≠ []) (hK : ∀ p, OnWay total p → K p)
    (rest base word : List UInt8) (hsplit : total = base ++ word ++ rest) (hbase : AtSlash base) (hword : (47 : UInt8) ∉ word)
    (d : Disk) (hroot : d [[]] = some .dir) (hdirs : ∀ q, q <+: place base → d q = some .dir)
    (hfree : ∀ q, q <+: place total → ∀ data, d q ≠ some (.file data)) :
    ∃ d', makeDirectoriesFrom d rest (base ++ word) = some d' ∧ Grows K d d' ∧ ∀ q, q <+: place total → d' q = some .dir := by
  induction rest generalizing base word d with
  | nil =>
    rw [List.append_nil] at hsplit
    subst hsplit
    exact mkdir_onWay hbase hword hdirs htotal (hK _ (.inl (List.prefix_refl _))) (hfree _ (List.prefix_refl _))
  | cons b rest ih =>
    rw [makeDirectoriesFrom]
    by_cases hslash : b = 47
    · subst hslash
      have hbase' : AtSlash (base ++ word ++ [47]) := .inr ⟨_, rfl⟩
      have hsplit' : total = base ++ word ++ [47] ++ [] ++ rest := by simp [hsplit]
      by_cases hne : base ++ word = []
      · rw [if_neg fun h => h.2 hne]
        obtain ⟨rfl, rfl⟩ := List.append_eq_nil_iff.mp hne
        refine ih [47] [] hsplit' hbase' List.not_mem_nil d hroot (fun q hq => ?_) hfree
        obtain rfl | hq := List.prefix_concat_iff.mp (show q <+: [] ++ [[]] from hq)
        · exact hroot
        · exact hdirs q hq
      · rw [if_pos ⟨.inl rfl, hne⟩]
        have hway : place (base ++ word) <+: place total := by
          rw [hsplit, place_slash hne]
          exact List.prefix_append _ _
        obtain ⟨d₁, hd₁, hgrows₁, hdirs₁⟩ := mkdir_onWay hbase hword hdirs hne (hK _ (.inl hway)) (hfree _ hway)
        have hplace : place (base ++ word ++ [47]) = place (base ++ word) := by
          rw [place_slash hne, namesFrom, if_pos rfl, List.append_nil]
        obtain ⟨d₂, hd₂, hgrows₂, hdirs₂⟩ := ih (base ++ word ++ [47]) [] hsplit' hbase' List.not_mem_nil d₁
          (hgrows₁.dir hroot) (fun q hq => hdirs₁ q (hplace ▸ hq)) (fun q hq data hfile => hfree q hq data (hgrows₁.file.mp hfile))
        rw [List.append_nil] at hd₂
        exact ⟨d₂, by rw [hd₁, Option.bind_some, hd₂], hgrows₁.trans hgrows₂, hdirs₂⟩
    · have hword' : (47 : UInt8) ∉ word ++ [b] := by
        rw [List.mem_append, List.mem_singleton, not_or]
        exact ⟨hword, Ne.symm hslash⟩
      have hsplit' : total = base ++ (word ++ [b]) ++ rest := by simp [hsplit]
      rw [List.append_assoc base word [b]]
      by_cases hback : b = 92 ∧ base ++ word ≠ []
      · obtain ⟨rfl, hne⟩ := hback
        rw [if_pos ⟨.inr rfl, hne⟩]
        have hstray : OnWay total (place (base ++ word)) := .inr ⟨base ++ word, rest, hsplit, rfl⟩
        obtain ⟨d₁, hd₁, hgrows₁, _⟩ := mkdir_grows hne (parent_dir hbase hword hdirs) (hK _ hstray)
        obtain ⟨d₂, hd₂, hgrows₂, hdirs₂⟩ := ih base (word ++ [92]) hsplit' hbase hword' d₁ (hgrows₁.dir hroot)
          (fun q hq => hgrows₁.dir (hdirs q hq)) (fun q hq data hfile => hfree q hq data (hgrows₁.file.mp hfile))
        exact ⟨d₂, by rw [hd₁, Option.bind_some, hd₂], hgrows₁.trans hgrows₂, hdirs₂⟩
      · rw [if_neg fun h => hback ⟨h.1.resolve_left hslash, h.2⟩]
        exact ih base (word ++ [b]) hsplit' hbase hword' d hroot hdirs hfree

theorem makeDirectories_grows {total : List UInt8} (htotal : total ≠ []) (hcwd : d [] = some .dir) (hroot : d [[]] = some .dir)
    (hfree : ∀ q, q <+: place total → ∀ data, d q ≠ some (.file data)) :
    ∃ d', makeDirectories d total = some d' ∧ Grows (OnWay total) d d' ∧ ∀ q, q <+: place total → d' q = some .dir :=
  makeDirectoriesFrom_grows htotal (fun _ h => h) total [] [] rfl (.inl rfl) List.not_mem_nil d hroot
    (fun q hq => by rw [List.prefix_nil.mp hq]; exact hcwd) hfree

end

theorem trimBack_suffix (path : List UInt8) : trimBack path <:+ path := by
  induction path with
  | nil => exact List.suffix_refl _
  | cons b path ih =>
    cases path with
    | nil => exact List.suffix_refl _
    | cons c rest =>
      rw [trimBack]
      split
      · exact ih.trans (List.suffix_cons _ _)
      · exact List.suffix_refl _

theorem trimBack_ne_nil (h : path ≠ []) : trimBack path ≠ [] := by
  induction path with
  | nil => exact absurd rfl h
  | cons b path ih =>
    cases path with
    | nil => exact h
    | cons c rest =>
      rw [trimBack]
      split
      · exact ih (List.cons_ne_nil _ _)
      · exact List.cons_ne_nil _ _

theorem trimEnd_isPrefix (path : List UInt8) : trimEnd path <+: path := by
  have hsuffix := List.reverse_prefix.mpr (trimBack_suffix path.reverse)
  rwa [List.reverse_reverse] at hsuffix

theorem trimEnd_ne_nil (h : path ≠ []) : trimEnd path ≠ [] :=
  mt List.reverse_eq_nil_iff.mp (trimBack_ne_nil (mt List.reverse_eq_nil_iff.mp h))

theorem trimBack_slash {rest : List UInt8} (h : trimBack path = 47 :: rest) : rest = [] := by
  induction path with
  | nil => cases h
  | cons b path ih =>
    cases path with
    | nil =>
      cases h
      rfl
    | cons c tail =>
      rw [trimBack] at h
      split at h
      · exact ih h
      · rename_i hplain
        cases h
        exact absurd (Or.inl rfl) hplain

/-- The directory's path as `join_path` leaves it: with a slash, which is taken off unless it is all there is. -/
theorem withSlash_cases (h : root ≠ []) :
    withSlash (trimEnd root) = trimEnd root ++ [47] ∨ (trimEnd root = [47] ∧ withSlash (trimEnd root) = [47]) := by
  unfold withSlash
  split
  · exact .inl rfl
  · rename_i hlast
    have hslash : (trimEnd root).getLast? = some 47 := by
      by_contra hother
      exact hlast ⟨trimEnd_ne_nil h, hother⟩
    obtain ⟨rest, hrest⟩ : ∃ rest, trimBack root.reverse = 47 :: rest := by
      rw [trimEnd, List.getLast?_reverse] at hslash
      exact List.head?_eq_some_iff.mp hslash
    have hnil := trimBack_slash hrest
    have hall : trimEnd root = [47] := by rw [trimEnd, hrest, hnil]; rfl
    exact .inr ⟨hall, hall⟩

theorem withSlash_atSlash (h : root ≠ []) : AtSlash (withSlash (trimEnd root)) := by
  obtain heq | ⟨_, heq⟩ := withSlash_cases h
  · exact .inr ⟨_, heq⟩
  · exact .inr ⟨[], heq⟩

theorem place_withSlash_trimEnd (h : root ≠ []) : place (withSlash (trimEnd root)) = place (trimEnd root) := by
  obtain heq | ⟨hone, heq⟩ := withSlash_cases h
  · rw [heq, place_slash (trimEnd_ne_nil h), namesFrom, if_pos rfl, List.append_nil]
  · rw [heq, hone]

theorem trimBack_split (path : List UInt8) : ∃ front, path = front ++ trimBack path ∧ ∀ b ∈ front, b = 47 ∨ b = 92 := by
  induction path with
  | nil => exact ⟨[], rfl, fun _ h => absurd h List.not_mem_nil⟩
  | cons b path ih =>
    cases path with
    | nil => exact ⟨[], rfl, fun _ h => absurd h List.not_mem_nil⟩
    | cons c rest =>
      rw [trimBack]
      split
      · rename_i hb
        obtain ⟨front, heq, hfront⟩ := ih
        refine ⟨b :: front, by rw [List.cons_append, ← heq], fun x hx => ?_⟩
        obtain rfl | hx := List.mem_cons.mp hx
        · exact hb
        · exact hfront x hx
      · exact ⟨[], rfl, fun _ h => absurd h List.not_mem_nil⟩

def trailing (root : List UInt8) : List UInt8 := root.drop (trimEnd root).length

theorem trimEnd_append_trailing (root : List UInt8) : root = trimEnd root ++ trailing root := by
  obtain ⟨rest, hrest⟩ := trimEnd_isPrefix root
  have hdrop : trailing root = rest := by
    rw [trailing]
    nth_rewrite 2 [← hrest]
    exact List.drop_left
  rw [hdrop, hrest]

theorem trailing_separators : ∀ b ∈ trailing root, b = 47 ∨ b = 92 := by
  obtain ⟨front, heq, hfront⟩ := trimBack_split root.reverse
  have hroot : root = trimEnd root ++ front.reverse := by
    rw [trimEnd, ← List.reverse_append, ← heq, List.reverse_reverse]
  intro b hb
  rw [List.append_cancel_left ((trimEnd_append_trailing root).symm.trans hroot)] at hb
  exact hfront b (List.mem_reverse.mp hb)

theorem namesFrom_slashes {bs : List UInt8} (h : ∀ b ∈ bs, b = 47) : namesFrom bs [] = [] := by
  induction bs with
  | nil => rfl
  | cons b bs ih =>
    rw [namesFrom, if_pos (h b List.mem_cons_self), if_pos rfl, List.nil_append]
    exact ih fun x hx => h x (List.mem_cons_of_mem b hx)

theorem flatten_namesFrom (path word : List UInt8) : (namesFrom path word).flatten = word ++ path.filter (· ≠ 47) := by
  induction path generalizing word with
  | nil =>
    rw [namesFrom]
    split
    · rename_i hword
      rw [hword]
      rfl
    · rw [List.flatten_singleton]
      exact (List.append_nil _).symm
  | cons b path ih =>
    rw [namesFrom]
    split
    · rename_i hb
      rw [List.flatten_append, ih, hb, List.nil_append, List.filter_cons_of_neg (by simp)]
      congr 1
      split
      · rename_i hword
        exact hword.symm
      · exact List.flatten_singleton
    · rename_i hb
      rw [ih, List.filter_cons_of_pos (by simpa using hb), List.append_assoc]
      rfl

theorem place_trimEnd_iff (h : root ≠ []) : place (trimEnd root) = place root ↔ (92 : UInt8) ∉ trailing root := by
  have hsplit := trimEnd_append_trailing root
  constructor
  · intro heq hback
    have hflat : ∀ path, (place path).flatten = path.filter (· ≠ 47) := by
      intro path
      rw [place, List.flatten_append, flatten_namesFrom, List.nil_append]
      split <;> rfl
    have hfilter := (hflat (trimEnd root)).symm.trans ((congrArg List.flatten heq).trans (hflat root))
    rw [hsplit, List.filter_append] at hfilter
    conv_lhs at hfilter => rw [← hsplit]
    have hnil := List.self_eq_append_right.mp hfilter
    have hmem : (92 : UInt8) ∈ (trailing root).filter (· ≠ 47) := List.mem_filter.mpr ⟨hback, by decide⟩
    rw [hnil] at hmem
    exact List.not_mem_nil hmem
  · intro hback
    have hslashes : ∀ b ∈ trailing root, b = 47 :=
      fun b hb => (trailing_separators b hb).resolve_right fun heq => hback (heq ▸ hb)
    cases htrailing : trailing root with
    | nil =>
      rw [htrailing, List.append_nil] at hsplit
      rw [← hsplit]
    | cons b rest =>
      rw [htrailing] at hslashes hsplit
      rw [hslashes b List.mem_cons_self] at hsplit
      conv_rhs => rw [hsplit]
      rw [place_slash (trimEnd_ne_nil h), namesFrom_slashes fun x hx => hslashes x (List.mem_cons_of_mem b hx), List.append_nil]

theorem lastSlash_concat {v : List UInt8} (hv : (47 : UInt8) ∉ v) (u : List UInt8) : lastSlash (u ++ 47 :: v) = some u.length := by
  have hnone : lastSlash v = none := by
    induction v with
    | nil => rfl
    | cons b v ih =>
      rw [List.mem_cons, not_or] at hv
      rw [lastSlash, ih hv.2, Option.elim_none, if_neg (Ne.symm hv.1)]
  induction u with
  | nil => rw [List.nil_append, lastSlash, hnone, Option.elim_none, if_pos rfl]; rfl
  | cons b u ih => rw [List.cons_append, lastSlash, ih, Option.elim_some, List.length_cons]

theorem lastSlash_cases (x : List UInt8) :
    ((47 : UInt8) ∉ x ∧ lastSlash x = none) ∨ ∃ u v, x = u ++ 47 :: v ∧ (47 : UInt8) ∉ v ∧ lastSlash x = some u.length := by
  induction x with
  | nil => exact .inl ⟨List.not_mem_nil, rfl⟩
  | cons b x ih =>
    obtain ⟨hnot, hnone⟩ | ⟨u, v, rfl, hv, _⟩ := ih
    · by_cases hb : b = 47
      · subst hb
        exact .inr ⟨[], x, rfl, hnot, lastSlash_concat hnot []⟩
      · refine .inl ⟨?_, ?_⟩
        · rw [List.mem_cons, not_or]
          exact ⟨Ne.symm hb, hnot⟩
        · rw [lastSlash, hnone, Option.elim_none, if_neg hb]
    · exact .inr ⟨b :: u, v, rfl, hv, lastSlash_concat hv (b :: u)⟩

end Ussr.Ural
