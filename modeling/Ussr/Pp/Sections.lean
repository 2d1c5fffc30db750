import Ussr.Library.Lockstep
import Ussr.Pp.Lines

/-! The reading that conditional sections are for: a line has an effect only where
every enclosing section is the first of its chain whose name was defined, or the
`$else` of a chain with no such section. The preprocessor reads lines this way as
long as no `$define` stands in a section without effect: that one defines all the
same. -/

namespace Ussr.Pp
open Lockstep
open Real64 (ascii)
open Stalin (Text)
open Uno (byte isIdentPart)

/-- An open chain of sections: whether the names of the earlier ones were defined where they stand, and
the name of the present one; `none` for `$else`. -/
structure Chain where
  earlier : List Bool
  now : Option Bool
deriving DecidableEq

def Chain.counts (c : Chain) : Bool := c.earlier.all (!·) && c.now.getD true

structure Reading where
  defines : List Define
  includeStack : List Text
  onceFiles : List Text
  chains : List Chain
  output : Text
deriving DecidableEq

def Reading.init : Reading := ⟨[], [], [], [], []⟩

def Reading.effective (r : Reading) : Bool := r.chains.all Chain.counts

def Reading.opens (r : Reading) (defined : Bool) : Option Reading :=
  if maxIncludeDepth ≤ r.chains.length then none else some { r with chains := ⟨[], some defined⟩ :: r.chains }

/-- The next section of the innermost chain, where its `$else` was not yet. -/
def Reading.next (r : Reading) (now : Option Bool) : Option Reading :=
  match r.chains with
  | [] => none
  | c :: cs => c.now.map fun defined => { r with chains := ⟨c.earlier ++ [defined], now⟩ :: cs }

def Reading.closes (r : Reading) : Option Reading :=
  match r.chains with
  | [] => none
  | _ :: cs => some { r with chains := cs }

/-- What a directive that is no `$include` does. -/
def Reading.directive (disk : Disk) (r : Reading) (word rest : Text) : Option Reading :=
  if word = ascii "define" then
    if r.effective then (ppParseDefine r.defines rest).map fun defines => { r with defines := defines } else some r
  else if word = ascii "ifdef" then (ppIfdef r.defines r.includeStack.length rest).bind r.opens
  else if word = ascii "if" then (ppParseDefined r.defines r.includeStack.length rest).bind r.opens
  else if word = ascii "elif" then (ppParseDefined r.defines r.includeStack.length rest).bind fun defined => r.next (some defined)
  else if word = ascii "else" then r.next none
  else if word = ascii "endif" then r.closes
  else if word = ascii "once" then
    match r.includeStack with
    | [] => some r
    | file :: _ => if r.effective then some { r with onceFiles := r.onceFiles ++ [ppCanonicalPath disk file] } else some r
  else none

/-- The file that an `$include` asks for. -/
def Reading.included (r : Reading) (rest : Text) : Option Text := (ppParseInclude rest).bind (ppResolveIncludePath r.includeStack)

def Reading.line (file : Reading → Text → Option Reading) (disk : Disk) (r : Reading) (line : Text) : Option Reading :=
  match Pp.directive line with
  | some (word, rest) =>
    if word = ascii "include" then if r.effective then (r.included rest).bind (file r) else some r
    else r.directive disk word rest
  | none =>
    if r.effective then (ppExpandText r.defines line).map fun text => { r with output := r.output ++ ended line text } else some r

/-- A whole file, read in place of its `$include`. -/
def Reading.file (disk : Disk) : (levels : Nat) → Reading → Text → Option Reading
  | 0, _, _ => none
  | levels + 1, r, filename => do
    match ← ppOpen disk r.onceFiles r.includeStack filename with
    | none => return r
    | some (includeStack, text) =>
      let r ← (pieces true text.length text).foldlM (fun r piece => Reading.line (Reading.file disk levels) disk r piece.2)
        { r with includeStack := includeStack }
      if r.chains ≠ [] ∧ r.includeStack.length = 1 then none
      else return { r with includeStack := r.includeStack.tail }

def Reading.reads (disk : Disk) (r : Reading) (line : Text) : Option Reading :=
  Reading.line (Reading.file disk (maxIncludeDepth + 1)) disk r line

/-- Where the line is a `$define` in a section without effect, it would change nothing; the same holds of
the lines of a file that it includes. -/
def quietLine (file : Reading → Text → Bool) (r : Reading) (line : Text) : Bool :=
  match directive line with
  | some (word, rest) =>
    if word = ascii "include" then !r.effective || (match r.included rest with
      | some filename => file r filename
      | none => true)
    else word ≠ ascii "define" || r.effective || ppParseDefine r.defines rest = some r.defines
  | none => true

def quietFile (disk : Disk) : (levels : Nat) → Reading → Text → Bool
  | 0, _, _ => true
  | levels + 1, r, filename =>
    match ppOpen disk r.onceFiles r.includeStack filename with
    | some (some (includeStack, text)) =>
      along (fun r piece => Reading.line (Reading.file disk levels) disk r piece.2)
        (fun r (piece : Bool × Text) => quietLine (quietFile disk levels) r piece.2) { r with includeStack := includeStack }
        (pieces true text.length text)
    | _ => true

/-- No `$define` in a section without effect is met on the way. -/
def noIdleDefine (disk : Disk) (lines : List Text) : Bool :=
  along (Reading.reads disk) (quietLine (quietFile disk (maxIncludeDepth + 1))) .init lines

section

def Marks : List Condition → List Chain → Prop
  | [], [] => True
  | c :: cs, h :: hs => Marks cs hs ∧ c.active = (h :: hs).all Chain.counts ∧ c.seenElse = h.now.isNone ∧
      (hs.all Chain.counts = true → c.taken = (h.earlier.any id || h.now.getD true))
  | _, _ => False

structure Agrees (s : Setting) (r : Reading) : Prop where
  defines : s.defines = r.defines
  includeStack : s.includeStack = r.includeStack
  onceFiles : s.onceFiles = r.onceFiles
  marks : Marks s.conditions r.chains
  active : s.currentActive = r.effective

variable {s : Setting} {r : Reading} {cs : List Condition} {hs : List Chain}

theorem Marks.length_eq (h : Marks cs hs) : cs.length = hs.length := by
  induction cs generalizing hs with
  | nil =>
    cases hs with
    | nil => rfl
    | cons => exact h.elim
  | cons c cs ih =>
    cases hs with
    | nil => exact h.elim
    | cons => exact congrArg (· + 1) (ih h.1)

theorem Marks.parentActive_eq (h : Marks cs hs) : parentActive cs = hs.all Chain.counts := by
  cases cs with
  | nil =>
    cases hs with
    | nil => rfl
    | cons => exact h.elim
  | cons c cs =>
    cases hs with
    | nil => exact h.elim
    | cons => exact h.2.1

theorem Agrees.printed (h : Agrees s r) (output : Text) : Agrees s { r with output := output } :=
  ⟨h.defines, h.includeStack, h.onceFiles, h.marks, h.active⟩

def Settled (r : Reading) (s' : Setting) (r' : Reading) : Prop := Agrees s' r' ∧ r'.output = r.output

theorem push_settled (h : Agrees s r) (b : Bool) : Option.Rel (Settled r) (ppConditionPush s b) (r.opens b) := by
  unfold ppConditionPush Reading.opens
  rw [h.marks.length_eq]
  split
  · exact .none
  have hactive : (s.currentActive && b) = (⟨[], some b⟩ :: r.chains).all Chain.counts := by
    rw [h.active, List.all_cons, Bool.and_comm]
    rfl
  refine .some ⟨⟨h.defines, h.includeStack, h.onceFiles, ⟨h.marks, hactive, rfl, fun hparent => ?_⟩, hactive⟩, rfl⟩
  rw [h.active, Reading.effective, hparent]
  rfl

theorem Chain.counts_next (earlier : List Bool) (b : Bool) (now : Option Bool) :
    (Chain.mk (earlier ++ [b]) now).counts = (!(earlier.any id || b) && now.getD true) := by
  have hall : (earlier ++ [b]).all (!·) = !(earlier.any id || b) := by
    rw [List.all_append, List.not_any_eq_all_not.symm, Bool.not_or]
    exact congrArg _ (Bool.and_true _)
  rw [Chain.counts, hall]

theorem next_settled (h : Agrees s r) {c : Condition} (hc : s.conditions = c :: cs) (now : Option Bool) {taken : Bool}
    (htaken : taken = (c.taken || now.isNone || (parentActive cs && !c.taken && now.getD true))) :
    Option.Rel (Settled r) (if c.seenElse then none else
      some { s with conditions := ⟨parentActive cs && !c.taken && now.getD true, now.isNone, taken⟩ :: cs,
                    currentActive := parentActive cs && !c.taken && now.getD true }) (r.next now) := by
  have hmarks := h.marks
  unfold Reading.next
  cases hr : r.chains with
  | nil =>
    rw [hc, hr] at hmarks
    exact hmarks.elim
  | cons chain hs =>
    rw [hc, hr] at hmarks
    obtain ⟨hrest, -, helse, hmark⟩ := hmarks
    obtain ⟨earlier, last⟩ := chain
    cases last with
    | none =>
      rw [if_pos (show c.seenElse = true from helse)]
      exact .none
    | some b =>
      have helse' : c.seenElse = false := helse
      rw [if_neg (Bool.eq_false_iff.mp helse')]
      have hactive : (parentActive cs && !c.taken && now.getD true) = (⟨earlier ++ [b], now⟩ :: hs).all Chain.counts := by
        rw [hrest.parentActive_eq, List.all_cons, Chain.counts_next, Bool.and_comm _ (hs.all _)]
        cases hparent : hs.all Chain.counts with
        | false => rfl
        | true =>
          rw [hmark hparent]
          rfl
      refine .some ⟨⟨h.defines, h.includeStack, h.onceFiles, ⟨hrest, hactive, rfl, fun hparent => ?_⟩, hactive⟩, rfl⟩
      have hany : (earlier ++ [b]).any id = (earlier.any id || b) := by simp
      have hbool : ∀ before : Bool, (before || now.isNone || (true && !before && now.getD true)) = (before || now.getD true) := by
        intro before
        cases now with
        | none => cases before <;> rfl
        | some b' => cases before <;> cases b' <;> rfl
      show taken = ((earlier ++ [b]).any id || now.getD true)
      rw [htaken, hrest.parentActive_eq, hparent, hmark hparent, hany]
      exact hbool (earlier.any id || b)

theorem next_closed (h : Agrees s r) (hc : s.conditions = []) (now : Option Bool) : r.next now = none := by
  have hmarks := h.marks
  unfold Reading.next
  cases hr : r.chains with
  | nil => rfl
  | cons =>
    rw [hc, hr] at hmarks
    exact hmarks.elim

theorem else_settled (h : Agrees s r) : Option.Rel (Settled r) (ppConditionElse s) (r.next none) := by
  unfold ppConditionElse
  cases hc : s.conditions with
  | nil =>
    rw [next_closed h hc]
    exact .none
  | cons c cs =>
    have hnext := next_settled h hc none (show true = _ by simp)
    simpa using hnext

theorem elif_settled (h : Agrees s r) (b : Bool) : Option.Rel (Settled r) (ppConditionElif s b) (r.next (some b)) := by
  unfold ppConditionElif
  cases hc : s.conditions with
  | nil =>
    rw [next_closed h hc]
    exact .none
  | cons c cs =>
    have hnext := next_settled h hc (some b) rfl
    cases helse : c.seenElse with
    | true => simpa [helse] using hnext
    | false => simpa [helse] using hnext

theorem pop_settled (h : Agrees s r) : Option.Rel (Settled r) (ppConditionPop s) r.closes := by
  have hmarks := h.marks
  unfold ppConditionPop Reading.closes
  cases hc : s.conditions with
  | nil =>
    cases hr : r.chains with
    | nil => exact .none
    | cons => rw [hc, hr] at hmarks; exact hmarks.elim
  | cons c cs =>
    cases hr : r.chains with
    | nil => rw [hc, hr] at hmarks; exact hmarks.elim
    | cons h' hs =>
      rw [hc, hr] at hmarks
      exact .some ⟨⟨h.defines, h.includeStack, h.onceFiles, hmarks.1, hmarks.1.parentActive_eq⟩, rfl⟩

end

section

def Follows (pp : Pp) (r : Reading) : Prop := Agrees pp.toSetting r ∧ pp.output = r.output

variable {disk : Disk} {s : Setting} {pp : Pp} {r : Reading}

theorem directive_settled (h : Agrees s r) {word rest : Text}
    (hquiet : word = ascii "define" → r.effective = true ∨ ppParseDefine r.defines rest = some r.defines) :
    Option.Rel (Settled r) (ppDirective disk s word rest) (r.directive disk word rest) := by
  have hsame : Agrees s r := h
  obtain ⟨defines, includeStack, onceFiles, conditions, active⟩ := s
  obtain ⟨rfl, rfl, rfl, hmarks, rfl⟩ := h
  unfold ppDirective Reading.directive
  simp only
  by_cases hdefine : word = ascii "define"
  · rw [if_pos hdefine, if_pos hdefine]
    cases heffective : r.effective with
    | true => exact rel_map_same _ fun _ _ => ⟨⟨rfl, rfl, rfl, hmarks, heffective.symm⟩, rfl⟩
    | false =>
      rw [(hquiet hdefine).resolve_left (Bool.eq_false_iff.mp heffective)]
      exact .some ⟨⟨rfl, rfl, rfl, hmarks, heffective.symm⟩, rfl⟩
  rw [if_neg hdefine, if_neg hdefine]
  by_cases hifdef : word = ascii "ifdef"
  · rw [if_pos hifdef, if_pos hifdef]
    exact rel_bind_same _ fun b _ => push_settled hsame b
  rw [if_neg hifdef, if_neg hifdef]
  by_cases hif : word = ascii "if"
  · rw [if_pos hif, if_pos hif]
    exact rel_bind_same _ fun b _ => push_settled hsame b
  rw [if_neg hif, if_neg hif]
  by_cases helif : word = ascii "elif"
  · rw [if_pos helif, if_pos helif]
    exact rel_bind_same _ fun b _ => elif_settled hsame b
  rw [if_neg helif, if_neg helif]
  by_cases helse : word = ascii "else"
  · rw [if_pos helse, if_pos helse]
    exact else_settled hsame
  rw [if_neg helse, if_neg helse]
  by_cases hendif : word = ascii "endif"
  · rw [if_pos hendif, if_pos hendif]
    exact pop_settled hsame
  rw [if_neg hendif, if_neg hendif]
  by_cases honce : word = ascii "once"
  · rw [if_pos honce, if_pos honce]
    cases hstack : r.includeStack with
    | nil => exact .some ⟨hstack ▸ hsame, rfl⟩
    | cons file files =>
      cases heffective : r.effective with
      | true => exact .some ⟨⟨rfl, rfl, rfl, hmarks, heffective.symm⟩, rfl⟩
      | false => exact .some ⟨⟨rfl, hstack.symm, rfl, hmarks, heffective.symm⟩, rfl⟩
  · rw [if_neg honce, if_neg honce]
    exact .none

theorem line_follows {file : Pp → Text → Option Pp} {file' : Reading → Text → Option Reading} {quiet : Reading → Text → Bool}
    (hfile : ∀ pp r filename, Follows pp r → quiet r filename = true → Option.Rel Follows (file pp filename) (file' r filename))
    (h : Follows pp r) {line : Text} (hquiet : quietLine quiet r line = true) :
    Option.Rel Follows (ppProcessLineBody file disk pp line) (Reading.line file' disk r line) := by
  obtain ⟨hagrees, houtput⟩ := h
  unfold ppProcessLineBody Reading.line
  unfold quietLine at hquiet
  cases hdirective : directive line with
  | none =>
    rw [hagrees.active]
    cases heffective : r.effective with
    | false => exact .some ⟨hagrees, houtput⟩
    | true =>
      rw [hagrees.defines]
      refine rel_map_same _ fun text _ => ⟨hagrees.printed _, ?_⟩
      exact congrArg (· ++ ended line text) houtput
  | some p =>
    obtain ⟨word, rest⟩ := p
    rw [hdirective] at hquiet
    simp only at hquiet ⊢
    unfold ppProcessDirective
    by_cases hinclude : word = ascii "include"
    · rw [if_pos hinclude] at hquiet ⊢
      rw [if_pos hinclude, hagrees.active]
      cases heffective : r.effective with
      | false => exact .some ⟨hagrees, houtput⟩
      | true =>
        rw [if_pos rfl, if_pos rfl, hagrees.includeStack]
        have hincluded : ∀ filename, r.included rest = some filename →
            Option.Rel Follows (file pp filename) (file' r filename) := fun filename hname => by
          rw [heffective, hname] at hquiet
          exact hfile pp r filename ⟨hagrees, houtput⟩ hquiet
        have hsame : (do
            let filename ← ppParseInclude rest
            let resolved ← ppResolveIncludePath r.includeStack filename
            file pp resolved) = (r.included rest).bind (file pp) := (Option.bind_assoc _ _ _).symm
        rw [hsame]
        exact rel_bind_same _ hincluded
    · rw [if_neg hinclude] at hquiet ⊢
      rw [if_neg hinclude]
      refine rel_map_left (directive_settled hagrees fun hdefine => ?_) fun s' r' hsettled => ?_
      · simpa [hdefine] using hquiet
      · exact ⟨hsettled.1, houtput.trans hsettled.2.symm⟩

theorem ppMapFlush_follows (h : Follows pp r) : Follows (ppMapFlush pp) r := by
  unfold ppMapFlush
  split
  · exact h
  · exact h

theorem processLine_follows {file : Pp → Text → Option Pp} {file' : Reading → Text → Option Reading} {quiet : Reading → Text → Bool}
    (hfile : ∀ pp r filename, Follows pp r → quiet r filename = true → Option.Rel Follows (file pp filename) (file' r filename))
    (h : Follows pp r) {line : Text} (hquiet : quietLine quiet r line = true) :
    Option.Rel Follows (ppProcessLine file disk pp line) (Reading.line file' disk r line) := by
  have hcount : Follows (if pp.includeStack = [] then pp.countLine else pp) r := by
    split
    · exact h
    · exact h
  have hbody : Option.Rel Follows (ppProcessLineBody file disk (if pp.includeStack = [] then pp.countLine else pp) line)
      (Reading.line file' disk r line) := line_follows hfile hcount hquiet
  exact rel_map_left hbody fun _ _ => ppMapFlush_follows

theorem file_follows (levels : Nat) (h : Follows pp r) {filename : Text} (hquiet : quietFile disk levels r filename = true) :
    Option.Rel Follows (ppProcessFile disk levels pp filename) (Reading.file disk levels r filename) := by
  induction levels generalizing pp r filename with
  | zero => exact .none
  | succ levels ih =>
    obtain ⟨hagrees, houtput⟩ := h
    unfold quietFile at hquiet
    unfold ppProcessFile Reading.file ppProcessFileBody
    have hsame : ppOpen disk pp.onceFiles pp.includeStack filename = ppOpen disk r.onceFiles r.includeStack filename := by
      rw [hagrees.onceFiles, hagrees.includeStack]
    cases hopen : ppOpen disk r.onceFiles r.includeStack filename with
    | none =>
      rw [hopen] at hsame
      simp only [hsame, Option.bind_eq_bind, Option.bind_none]
      exact .none
    | some opened =>
      rw [hopen] at hsame
      simp only [hsame, Option.bind_eq_bind, Option.bind_some]
      cases opened with
      | none => exact .some ⟨hagrees, houtput⟩
      | some found =>
        obtain ⟨includeStack, text⟩ := found
        rw [hopen] at hquiet
        have hstart : Follows { pp with currentLine := 0, includeStack := includeStack } { r with includeStack := includeStack } :=
          ⟨⟨hagrees.defines, rfl, hagrees.onceFiles, hagrees.marks, hagrees.active⟩, houtput⟩
        have hfile : ∀ pp r filename, Follows pp r → quietFile disk levels r filename = true →
            Option.Rel Follows (ppProcessFile disk levels pp filename) (Reading.file disk levels r filename) :=
          fun _ _ _ hfollows hquiet => ih hfollows hquiet
        have hpieces : Option.Rel Follows
            ((pieces true text.length text).foldlM (ppProcessPiece (ppProcessFile disk levels) disk)
              { pp with currentLine := 0, includeStack := includeStack })
            ((pieces true text.length text).foldlM (fun r piece => Reading.line (Reading.file disk levels) disk r piece.2)
              { r with includeStack := includeStack }) := by
          refine foldlM_rel (fun pp r piece h hquiet => ?_) hstart _ hquiet
          refine processLine_follows hfile ?_ hquiet
          split
          · exact h
          · exact h
        refine rel_map_left (rel_bind hpieces fun pp r h => ?_) fun _ _ h => h
        have hend : (pp.conditions ≠ [] ∧ pp.includeStack.length = 1) ↔ (r.chains ≠ [] ∧ r.includeStack.length = 1) := by
          rw [h.1.includeStack, ne_eq, ne_eq, ← List.length_eq_zero_iff, ← List.length_eq_zero_iff, h.1.marks.length_eq]
        by_cases hunterminated : r.chains ≠ [] ∧ r.includeStack.length = 1
        · rw [if_pos hunterminated, if_pos (hend.mpr hunterminated)]
          exact .none
        · rw [if_neg hunterminated, if_neg (fun hpp => hunterminated (hend.mp hpp))]
          exact .some ⟨⟨h.1.defines, congrArg List.tail h.1.includeStack, h.1.onceFiles, h.1.marks, h.1.active⟩, h.2⟩

/-- Lines come out as they read, as long as no `$define` in a section without effect would change anything. -/
theorem processed_as_read (disk : Disk) (lines : List Text) (h : noIdleDefine disk lines = true) :
    (lines.foldlM (ussrPpProcessLine disk) ussrPpInit).map (fun pp => (pp.output, pp.defines)) =
      (lines.foldlM (Reading.reads disk) .init).map fun r => (r.output, r.defines) := by
  have hstart : Follows ussrPpInit .init := ⟨⟨rfl, rfl, rfl, trivial, rfl⟩, rfl⟩
  have hfile : ∀ pp r filename, Follows pp r → quietFile disk (maxIncludeDepth + 1) r filename = true →
      Option.Rel Follows (ppProcessFile disk (maxIncludeDepth + 1) pp filename) (Reading.file disk (maxIncludeDepth + 1) r filename) :=
    fun _ _ _ hfollows hquiet => file_follows _ hfollows hquiet
  have hstep : ∀ pp r line, Follows pp r → quietLine (quietFile disk (maxIncludeDepth + 1)) r line = true →
      Option.Rel Follows (ussrPpProcessLine disk pp line) (Reading.reads disk r line) :=
    fun _ _ _ hfollows hquiet => processLine_follows hfile hfollows hquiet
  have hrun : Option.Rel Follows (lines.foldlM (ussrPpProcessLine disk) ussrPpInit) (lines.foldlM (Reading.reads disk) .init) :=
    foldlM_rel hstep hstart lines h
  refine map_eq_of_rel hrun fun pp r hfollows => ?_
  rw [hfollows.2, hfollows.1.defines]

theorem processed_as_read_taken :
    let lines := [ascii "$define A 1\n", ascii "$ifdef A\n", ascii "$define B A+2\n", ascii "$else\n", ascii "no\n", ascii "$endif\n", ascii "B\n"]
    (lines.foldlM (ussrPpProcessLine ⟨fun _ => none, fun _ => none⟩) ussrPpInit).map (fun pp => (pp.output, pp.defines)) =
      (lines.foldlM (Reading.reads ⟨fun _ => none, fun _ => none⟩) .init).map fun r => (r.output, r.defines) :=
  processed_as_read _ _ (by decide +kernel)

/-- A name that is defined in a section without effect is a macro behind it. -/
theorem idle_define_counts : ¬ ∀ (disk : Disk) (lines : List Text),
    (lines.foldlM (ussrPpProcessLine disk) ussrPpInit).map (fun pp => (pp.output, pp.defines)) =
      (lines.foldlM (Reading.reads disk) .init).map fun r => (r.output, r.defines) := by
  intro h
  have hlines := h ⟨fun _ => none, fun _ => none⟩ [ascii "$ifdef A\n", ascii "$define B 1\n", ascii "$endif\n", ascii "B\n"]
  exact absurd hlines (by decide +kernel)

end

end Ussr.Pp
