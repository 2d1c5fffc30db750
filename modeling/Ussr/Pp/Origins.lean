import Mathlib.Data.List.TakeWhile
import Ussr.Library.Lockstep
import Ussr.Pp.Expansion

/-! The output of a file as its lines make it: for every active line, taken whole,
its expansion and one line end, and the file and number of the line. The
preprocessor comes to it where no line is longer than what it reads at once. -/

namespace Ussr.Pp
open Lockstep
open Real64 (ascii)
open Stalin (Text)
open Uno (byte isIdentPart)

def sourceLines : Text → List Text
  | [] => []
  | c :: cs =>
    if c = newline then [c] :: sourceLines cs
    else
      match sourceLines cs with
      | [] => [[c]]
      | line :: lines => (c :: line) :: lines

def bare (line : Text) : Text := if line.getLast? = some newline then line.dropLast else line

structure Printed where
  text : Text
  file : Text
  number : Int
deriving DecidableEq

/-- What line `number` of the innermost file prints. -/
def printLine (file : Setting → Text → Option (Setting × List Printed)) (disk : Disk) (number : Int) (s : Setting) (line : Text) :
    Option (Setting × List Printed) :=
  match directive line with
  | some (word, rest) =>
    if word = ascii "include" then
      if s.currentActive then (ppParseInclude rest).bind fun filename => (ppResolveIncludePath s.includeStack filename).bind (file s)
      else some (s, [])
    else (ppDirective disk s word rest).map fun s => (s, [])
  | none =>
    if s.currentActive then (ppExpandText s.defines (bare line)).map fun text =>
      (s, [⟨text ++ [newline], s.includeStack.head?.getD (ascii "<stdin>"), number⟩])
    else some (s, [])

def printLines (file : Setting → Text → Option (Setting × List Printed)) (disk : Disk) :
    (number : Int) → Setting → List Text → Option (Setting × List Printed)
  | _, s, [] => some (s, [])
  | number, s, line :: lines => do
    let first ← printLine file disk number s line
    let rest ← printLines file disk (number + 1) first.1 lines
    return (rest.1, first.2 ++ rest.2)

/-- What a file prints, with the files it includes in place of its `$include` lines. -/
def printFile (disk : Disk) : (levels : Nat) → Setting → Text → Option (Setting × List Printed)
  | 0, _, _ => none
  | levels + 1, s, filename => do
    match ← ppOpen disk s.onceFiles s.includeStack filename with
    | none => return (s, [])
    | some (includeStack, text) =>
      let all ← printLines (printFile disk levels) disk 1 { s with includeStack := includeStack } (sourceLines text)
      if all.1.conditions ≠ [] ∧ all.1.includeStack.length = 1 then none
      else return ({ all.1 with includeStack := all.1.includeStack.tail }, all.2)

/-- The line is an `$include` that is carried out. -/
def Includes (s : Setting) (line resolved : Text) : Prop :=
  s.currentActive = true ∧ ∃ rest filename, directive line = some (ascii "include", rest) ∧ ppParseInclude rest = some filename ∧
    ppResolveIncludePath s.includeStack filename = some resolved

/-- The files that are read for `filename`: itself, where it is opened, and those that its `$include` lines read. -/
inductive Reads (disk : Disk) : (levels : Nat) → Setting → (filename found : Text) → Prop where
  | itself {levels : Nat} {s : Setting} {filename : Text} {opened : List Text × Text} :
      ppOpen disk s.onceFiles s.includeStack filename = some (some opened) → Reads disk (levels + 1) s filename filename
  | included {levels : Nat} {s s' : Setting} {filename line resolved found : Text} {opened : List Text × Text}
      {before after : List Text} {printed : List Printed} :
      ppOpen disk s.onceFiles s.includeStack filename = some (some opened) → sourceLines opened.2 = before ++ line :: after →
      printLines (printFile disk levels) disk 1 { s with includeStack := opened.1 } before = some (s', printed) →
      Includes s' line resolved → Reads disk levels s' resolved found → Reads disk (levels + 1) s filename found

/-- A text that is read line by line: no NUL, no line longer than 4095 bytes, and line numbers that fit. -/
structure Whole (text : Text) : Prop where
  noNul : 0 ∉ text
  short : ∀ line ∈ sourceLines text, line.length ≤ 4095
  few : (sourceLines text).length < 2147483648

/-- A line at the front of a text: a line end can only be its last byte, and it has one where anything is behind it. -/
structure Front (line rest : Text) : Prop where
  nonempty : line ≠ []
  late : newline ∉ line.dropLast
  closed : rest = [] ∨ line.getLast? = some newline

theorem sourceLines_front {text : Text} (h : text ≠ []) :
    ∃ line rest, text = line ++ rest ∧ sourceLines text = line :: sourceLines rest ∧ Front line rest := by
  induction text with
  | nil => exact absurd rfl h
  | cons c cs ih =>
    by_cases hc : c = newline
    · subst hc
      exact ⟨[newline], cs, rfl, by rw [sourceLines, if_pos rfl], ⟨List.cons_ne_nil _ _, List.not_mem_nil, .inr rfl⟩⟩
    by_cases hcs : cs = []
    · subst hcs
      exact ⟨[c], [], rfl, by simp [sourceLines, hc], ⟨List.cons_ne_nil _ _, List.not_mem_nil, .inl rfl⟩⟩
    obtain ⟨line, rest, rfl, hlines, hfront⟩ := ih hcs
    refine ⟨c :: line, rest, rfl, by rw [sourceLines, if_neg hc, hlines], ⟨List.cons_ne_nil _ _, ?_, ?_⟩⟩
    · rw [List.dropLast_cons_of_ne_nil hfront.nonempty]
      intro hmem
      rcases List.mem_cons.mp hmem with heq | hmem
      · exact hc heq.symm
      · exact hfront.late hmem
    · refine hfront.closed.imp_right fun hlast => ?_
      rw [List.getLast?_cons, hlast]
      rfl

theorem fgets_line {line rest : Text} (h : Front line rest) {room : Nat} (hroom : line.length ≤ room) :
    fgets room (line ++ rest) = (line, rest) := by
  obtain ⟨hne, hlate, hclosed⟩ := h
  induction line generalizing room with
  | nil => exact absurd rfl hne
  | cons c cs ih =>
    obtain ⟨room, rfl⟩ : ∃ more, room = more + 1 := ⟨room - 1, by rw [List.length_cons] at hroom; omega⟩
    rw [List.cons_append, fgets]
    by_cases hcs : cs = []
    · subst hcs
      split
      · rfl
      · rename_i hc
        have hrest : rest = [] := hclosed.resolve_right fun hlast => hc (Option.some.inj hlast)
        subst hrest
        cases room <;> rfl
    · rw [List.dropLast_cons_of_ne_nil hcs, List.mem_cons, not_or] at hlate
      rw [if_neg (show c ≠ byte '\n' from Ne.symm hlate.1)]
      have hlast : (c :: cs).getLast? = cs.getLast? := by
        rw [List.getLast?_cons, List.getLast?_eq_some_getLast hcs]
        rfl
      rw [ih (Nat.le_of_succ_le_succ hroom) hcs hlate.2 (hclosed.imp_right hlast.symm.trans)]

theorem pieces_whole {text : Text} (hshort : ∀ line ∈ sourceLines text, line.length ≤ 4095) (hnul : 0 ∉ text) {turns : Nat}
    (hturns : text.length ≤ turns) : pieces true turns text = (sourceLines text).map fun line => (true, line) := by
  induction turns generalizing text with
  | zero =>
    rw [List.eq_nil_of_length_eq_zero (Nat.le_zero.mp hturns)]
    rfl
  | succ turns ih =>
    by_cases htext : text = []
    · subst htext
      rfl
    obtain ⟨line, rest, rfl, hlines, hfront⟩ := sourceLines_front htext
    rw [hlines] at hshort ⊢
    obtain ⟨hline, hrest⟩ := List.forall_mem_cons.mp hshort
    rw [List.mem_append, not_or] at hnul
    have hwhole : line.takeWhile (· ≠ 0) = line := by
      rw [List.takeWhile_eq_self_iff]
      exact fun b hb => decide_eq_true fun heq => hnul.1 (heq ▸ hb)
    have hlength : rest.length ≤ turns := by
      have := List.length_pos_iff.mpr hfront.nonempty
      rw [List.length_append] at hturns
      omega
    rw [pieces, if_neg htext, fgets_line hfront hline, List.map_cons]
    simp only [hwhole]
    rcases hfront.closed with rfl | hlast
    · cases turns <;> rfl
    · rw [hlast, ← ih hrest hnul.2 hlength]
      rfl

theorem late_of_mem {text line : Text} (h : line ∈ sourceLines text) : newline ∉ line.dropLast := by
  induction hlength : text.length using Nat.strong_induction_on generalizing text with
  | _ n ih =>
    by_cases htext : text = []
    · subst htext
      cases h
    obtain ⟨first, rest, rfl, hlines, hfront⟩ := sourceLines_front htext
    rw [hlines] at h
    rcases List.mem_cons.mp h with rfl | h
    · exact hfront.late
    · have := List.length_pos_iff.mpr hfront.nonempty
      rw [List.length_append] at hlength
      exact ih rest.length (by omega) h rfl

section

structure Lists (pp : Pp) (s : Setting) (printed : List Printed) : Prop where
  setting : pp.toSetting = s
  output : pp.output = printed.flatMap Printed.text
  flushed : pp.mapLength = pp.output.length
  located : List.Forall₂ (fun l p => pp.mapFiles[l.1]? = some p.file ∧ l.2 = p.number) pp.lines printed
  single : ∀ p ∈ printed, ∃ body, p.text = body ++ [newline] ∧ newline ∉ body
  values : ValuesWithin (· ≠ newline) s.defines

variable {pp : Pp} {s s' : Setting} {printed : List Printed} {disk : Disk}

/-- What is behind some lines that print `r.2`. -/
def Adds (s : Setting) (printed : List Printed) (pp' : Pp) (r : Setting × List Printed) : Prop :=
  Lists pp' r.1 (printed ++ r.2) ∧ r.1.includeStack = s.includeStack

def Continues (pp : Pp) (s : Setting) (printed : List Printed) (pp' : Pp) (r : Setting × List Printed) : Prop :=
  Lists pp' r.1 (printed ++ r.2) ∧ pp'.currentLine = pp.currentLine ∧ r.1.includeStack = s.includeStack

theorem Lists.flush_same (h : Lists pp s printed) : ppMapFlush pp = pp := by
  rw [ppMapFlush, if_pos h.flushed.ge]

theorem mapFiles_index (files : List Text) (file : Text) :
    (if files.idxOf file = files.length then files ++ [file] else files)[files.idxOf file]? = some file ∧
      ∀ (i : Nat) (f : Text), files[i]? = some f →
        (if files.idxOf file = files.length then files ++ [file] else files)[i]? = some f := by
  split
  · rename_i hout
    refine ⟨by rw [hout, List.getElem?_append_right (le_refl _), Nat.sub_self]; rfl, fun i f hf => ?_⟩
    rw [List.getElem?_append_left (List.getElem?_eq_some_iff.mp hf).1, hf]
  · rename_i hin
    have hlt : files.idxOf file < files.length := lt_of_le_of_ne List.idxOf_le_length hin
    exact ⟨by rw [List.getElem?_eq_getElem hlt, List.getElem_idxOf hlt], fun i f hf => hf⟩

theorem Lists.print (h : Lists pp s printed) {body : Text} (hbody : newline ∉ body) :
    Lists (ppMapFlush { pp with output := pp.output ++ (body ++ [newline]) }) s
      (printed ++ [⟨body ++ [newline], s.includeStack.head?.getD (ascii "<stdin>"), pp.currentLine⟩]) := by
  obtain rfl := h.setting
  have hlonger : ¬ (pp.output ++ (body ++ [newline])).length ≤ pp.mapLength := by
    rw [h.flushed, List.length_append, List.length_append, List.length_singleton]
    omega
  have hends : ((pp.output ++ (body ++ [newline])).drop pp.mapLength).filter (· = byte '\n') = [newline] := by
    have hnone : body.filter (· = byte '\n') = [] := by
      rw [List.filter_eq_nil_iff]
      exact fun b hb heq => hbody ((of_decide_eq_true heq : b = newline) ▸ hb)
    rw [h.flushed, List.drop_left, List.filter_append, hnone]
    rfl
  obtain ⟨hindex, hold⟩ := mapFiles_index pp.mapFiles (pp.includeStack.head?.getD (ascii "<stdin>"))
  unfold ppMapFlush
  rw [if_neg hlonger]
  simp only [hends, List.map_singleton]
  refine ⟨rfl, ?_, rfl, ?_, ?_, h.values⟩
  · rw [List.flatMap_append, h.output, List.flatMap_singleton]
  · refine List.rel_append (h.located.imp fun l p hl => ⟨hold _ _ hl.1, hl.2⟩) (.cons ⟨hindex, rfl⟩ .nil)
  · intro p hp
    rcases List.mem_append.mp hp with hp | hp
    · exact h.single p hp
    · exact List.mem_singleton.mp hp ▸ ⟨body, rfl, hbody⟩

def Keeps (s s' : Setting) : Prop := s'.includeStack = s.includeStack ∧ s'.defines = s.defines

theorem push_keeps {b : Bool} (h : ppConditionPush s b = some s') : Keeps s s' := by
  unfold ppConditionPush at h
  split_ifs at h
  cases h
  exact ⟨rfl, rfl⟩

theorem elif_keeps {b : Bool} (h : ppConditionElif s b = some s') : Keeps s s' := by
  unfold ppConditionElif at h
  split at h
  · cases h
  · split_ifs at h
    cases h
    exact ⟨rfl, rfl⟩

theorem else_keeps (h : ppConditionElse s = some s') : Keeps s s' := by
  unfold ppConditionElse at h
  split at h
  · cases h
  · split_ifs at h
    cases h
    exact ⟨rfl, rfl⟩

theorem pop_keeps (h : ppConditionPop s = some s') : Keeps s s' := by
  unfold ppConditionPop at h
  split at h
  · cases h
  · cases h
    exact ⟨rfl, rfl⟩

theorem ppDirective_keeps {word rest : Text} (h : ppDirective disk s word rest = some s') (hrest : newline ∉ rest.dropLast)
    (hvalues : ValuesWithin (· ≠ newline) s.defines) :
    s'.includeStack = s.includeStack ∧ ValuesWithin (· ≠ newline) s'.defines := by
  have hkept : Keeps s s' → s'.includeStack = s.includeStack ∧ ValuesWithin (· ≠ newline) s'.defines := fun hkeeps =>
    ⟨hkeeps.1, by rw [hkeeps.2]; exact hvalues⟩
  unfold ppDirective at h
  by_cases hdefine : word = ascii "define"
  · rw [if_pos hdefine] at h
    obtain ⟨defines, hparse, rfl⟩ := Option.map_eq_some_iff.mp h
    exact ⟨rfl, ppParseDefine_within hvalues hrest hparse⟩
  rw [if_neg hdefine] at h
  split_ifs at h with hifdef hif helif helse hendif
  · obtain ⟨b, -, h⟩ := Option.bind_eq_some_iff.mp h
    exact hkept (push_keeps h)
  · obtain ⟨b, -, h⟩ := Option.bind_eq_some_iff.mp h
    exact hkept (push_keeps h)
  · obtain ⟨b, -, h⟩ := Option.bind_eq_some_iff.mp h
    exact hkept (elif_keeps h)
  · exact hkept (else_keeps h)
  · exact hkept (pop_keeps h)
  all_goals
    split at h <;> cases h <;> exact hkept ⟨rfl, rfl⟩

theorem expand_bare (defines : List Define) (line : Text) :
    (ppExpandText defines line).map (ended line) = (ppExpandText defines (bare line)).map (· ++ [newline]) := by
  unfold bare
  split
  · rename_i hlast
    have hline : line = line.dropLast ++ [newline] := by
      have hne : line ≠ [] := fun hnil => by
        rw [hnil] at hlast
        cases hlast
      rw [List.getLast?_eq_some_getLast hne] at hlast
      rw [← Option.some.inj hlast, List.dropLast_append_getLast]
    have hended : ended line = id := funext fun text => if_pos hlast
    rw [hended, Option.map_id, id, ← ppExpandText_line, ← hline]
  · rename_i hlast
    exact congrArg (fun f => Option.map f _) (funext fun text => if_neg hlast)

theorem newline_notMem_bare {line : Text} (h : newline ∉ line.dropLast) : newline ∉ bare line := by
  unfold bare
  split
  · exact h
  · rename_i hlast
    rcases List.eq_nil_or_concat line with rfl | ⟨first, c, rfl⟩
    · exact List.not_mem_nil
    · have hfirst : newline ∉ first := by simpa using h
      have hc : c ≠ newline := by simpa using hlast
      simpa using ⟨hfirst, hc.symm⟩

theorem directive_suffix {line word rest : Text} (h : directive line = some (word, rest)) : rest <:+ line := by
  unfold directive at h
  split at h
  · cases h
  · rename_i c cs hcursor
    split_ifs at h
    cases h
    have hcs : c :: cs <:+ line := hcursor ▸ List.dropWhile_suffix _
    exact (List.dropWhile_suffix _).trans ((List.dropWhile_suffix _).trans ((List.suffix_cons c cs).trans hcs))

theorem ppMapFlush_setting (pp : Pp) : (ppMapFlush pp).toSetting = pp.toSetting := by
  unfold ppMapFlush
  split <;> rfl

theorem ppMapFlush_output (pp : Pp) : (ppMapFlush pp).output = pp.output := by
  unfold ppMapFlush
  split <;> rfl

theorem ppMapFlush_currentLine (pp : Pp) : (ppMapFlush pp).currentLine = pp.currentLine := by
  unfold ppMapFlush
  split <;> rfl

theorem printLines_cons {file : Setting → Text → Option (Setting × List Printed)} {number : Int} {line : Text} {lines : List Text}
    {first rest : Setting × List Printed} (hfirst : printLine file disk number s line = some first)
    (hrest : printLines file disk (number + 1) first.1 lines = some rest) :
    printLines file disk number s (line :: lines) = some (rest.1, first.2 ++ rest.2) := by
  rw [printLines, hfirst, Option.bind_eq_bind, Option.bind_some, hrest]
  rfl

theorem Lists.line (disk : Disk) {file : Pp → Text → Option Pp} {file' : Setting → Text → Option (Setting × List Printed)} {line : Text}
    (hfile : ∀ resolved, Includes s line resolved → Option.Rel (Continues pp s printed) (file pp resolved) (file' s resolved))
    (h : Lists pp s printed) (hopen : s.includeStack ≠ []) (hline : newline ∉ line.dropLast) :
    Option.Rel (Continues pp s printed) (ppProcessLine file disk pp line) (printLine file' disk pp.currentLine s line) := by
  obtain rfl := h.setting
  rw [ppProcessLine, if_neg hopen]
  unfold ppProcessLineBody printLine
  cases hdirective : directive line with
  | none =>
    simp only
    cases hactive : pp.currentActive with
    | false =>
      refine .some ⟨?_, ?_, rfl⟩
      · rw [h.flush_same, List.append_nil]
        exact h
      · rw [h.flush_same]
    | true =>
      rw [if_pos rfl, if_pos rfl, Option.map_map]
      have hexpand := congrArg (Option.map fun out => ppMapFlush { pp with output := pp.output ++ out }) (expand_bare pp.defines line)
      rw [Option.map_map, Option.map_map] at hexpand
      refine hexpand ▸ rel_map_same _ fun text htext => ⟨h.print fun hmem => ?_, ppMapFlush_currentLine _, rfl⟩
      have hbare : Within (· ≠ newline) (bare line) := fun b hb heq => newline_notMem_bare hline (heq ▸ hb)
      exact ppExpandText_within h.values hbare htext newline hmem rfl
  | some p =>
    obtain ⟨word, rest⟩ := p
    simp only
    unfold ppProcessDirective
    by_cases hinclude : word = ascii "include"
    · rw [if_pos hinclude, if_pos hinclude]
      cases hactive : pp.currentActive with
      | false =>
        refine .some ⟨?_, ?_, rfl⟩
        · rw [h.flush_same, List.append_nil]
          exact h
        · rw [h.flush_same]
      | true =>
        subst hinclude
        refine rel_map_left (rel_bind_same _ fun filename hparse => rel_bind_same _ fun resolved hresolve =>
          hfile resolved ⟨hactive, rest, filename, hdirective, hparse, hresolve⟩) fun pp' r hr => ?_
        rw [hr.1.flush_same]
        exact hr
    · rw [if_neg hinclude, if_neg hinclude, Option.map_map]
      refine rel_map_same _ fun s' hs' => ?_
      obtain ⟨hstack, hvalues⟩ := ppDirective_keeps hs' (late_suffix hline (directive_suffix hdirective)) h.values
      have hlists : Lists { pp with toSetting := s' } s' printed := ⟨rfl, h.output, h.flushed, h.located, h.single, hvalues⟩
      refine ⟨?_, ppMapFlush_currentLine _, hstack⟩
      rw [Function.comp_apply, hlists.flush_same, List.append_nil]
      exact hlists

theorem Lists.lines (disk : Disk) {file : Pp → Text → Option Pp} {file' : Setting → Text → Option (Setting × List Printed)}
    (lines : List Text) {number : Nat}
    (hfile : ∀ {pp s' printed' before line after first resolved}, lines = before ++ line :: after →
      printLines file' disk (number + 1) s before = some (s', first) → Includes s' line resolved → Lists pp s' printed' →
      Option.Rel (Continues pp s' printed') (file pp resolved) (file' s' resolved))
    (hlate : ∀ line ∈ lines, newline ∉ line.dropLast) (hfew : number + lines.length < 2147483648)
    (h : Lists pp s printed) (hopen : s.includeStack ≠ []) (hnumber : pp.currentLine = number) :
    Option.Rel (Adds s printed) ((lines.map fun line => (true, line)).foldlM (ppProcessPiece file disk) pp) (printLines file' disk (number + 1) s lines) := by
  induction lines generalizing pp s printed number with
  | nil =>
    refine .some ⟨?_, rfl⟩
    rw [List.append_nil]
    exact h
  | cons line lines ih =>
    rw [List.map_cons, List.foldlM_cons, printLines]
    have hcounted : Lists pp.countLine s printed := ⟨h.setting, h.output, h.flushed, h.located, h.single, h.values⟩
    have hnext : pp.countLine.currentLine = (number : Int) + 1 := by
      rw [List.length_cons] at hfew
      show (pp.currentLine + 1).bmod 4294967296 = (number : Int) + 1
      rw [hnumber]
      exact Int.bmod_eq_of_le (by omega) (by omega)
    have hfirst := hcounted.line disk (fun resolved hincludes => hfile (List.nil_append _).symm rfl hincludes hcounted) hopen
      (hlate line List.mem_cons_self)
    rw [hnext] at hfirst
    refine rel_bind (rel_right hfirst) fun pp' r hr => ?_
    obtain ⟨⟨hlists, hline, hstack⟩, hprint⟩ := hr
    have hnumber' : pp'.currentLine = ((number + 1 : Nat) : Int) := by rw [hline, hnext, Nat.cast_add, Nat.cast_one]
    have hfew' : number + 1 + lines.length < 2147483648 := by
      rw [List.length_cons] at hfew
      omega
    have hlater : ∀ {pp s' printed' before next after first resolved}, lines = before ++ next :: after →
        printLines file' disk ((number + 1 : Nat) + 1) r.1 before = some (s', first) → Includes s' next resolved → Lists pp s' printed' →
        Option.Rel (Continues pp s' printed') (file pp resolved) (file' s' resolved) := fun hsplit hbefore =>
      hfile (congrArg (line :: ·) hsplit) (printLines_cons hprint hbefore)
    have hrest := ih hlater (fun line hline => hlate line (List.mem_cons_of_mem _ hline)) hfew' hlists (hstack ▸ hopen) hnumber'
    have hsum : Option.Rel (Adds s printed) ((lines.map fun line => (true, line)).foldlM (ppProcessPiece file disk) pp')
        ((printLines file' disk ((number + 1 : Nat) + 1) r.1 lines).map fun rest => (rest.1, r.2 ++ rest.2)) := by
      refine rel_map_right hrest fun pp'' rest hcontinues => ⟨?_, hcontinues.2.trans hstack⟩
      rw [← List.append_assoc]
      exact hcontinues.1
    rw [Nat.cast_add, Nat.cast_one, Option.map_eq_bind] at hsum
    exact hsum

theorem ppOpen_eq {onceFiles includeStack includeStack' : List Text} {filename text : Text}
    (h : ppOpen disk onceFiles includeStack filename = some (some (includeStack', text))) :
    includeStack' = filename :: includeStack ∧ disk.read filename = some text := by
  unfold ppOpen at h
  split_ifs at h
  · cases h
  obtain ⟨pushed, hpush, h⟩ := Option.bind_eq_some_iff.mp h
  obtain ⟨read, hread, h⟩ := Option.bind_eq_some_iff.mp h
  cases h
  unfold ppPushInclude at hpush
  split_ifs at hpush
  cases hpush
  exact ⟨rfl, hread⟩

theorem Lists.file (levels : Nat) (filename : Text)
    (hdisk : ∀ name text, Reads disk levels s filename name → disk.read name = some text → Whole text) (h : Lists pp s printed) : Option.Rel (Continues pp s printed) (ppProcessFile disk levels pp filename) (printFile disk levels s filename) := by
  induction levels generalizing pp s printed filename with
  | zero => exact .none
  | succ levels ih =>
    obtain rfl := h.setting
    unfold ppProcessFile printFile ppProcessFileBody
    cases hopen : ppOpen disk pp.onceFiles pp.includeStack filename with
    | none =>
      simp only [Option.bind_eq_bind, Option.bind_none]
      exact .none
    | some opened =>
      simp only [Option.bind_eq_bind, Option.bind_some]
      cases opened with
      | none =>
        refine .some ⟨?_, rfl, rfl⟩
        rw [List.append_nil]
        exact ⟨rfl, h.output, h.flushed, h.located, h.single, h.values⟩
      | some found =>
        obtain ⟨includeStack, text⟩ := found
        simp only
        obtain ⟨hstack, htext⟩ := ppOpen_eq hopen
        subst hstack
        have hwhole := hdisk filename text (.itself hopen) htext
        have hstart : Lists { pp with currentLine := 0, includeStack := filename :: pp.includeStack }
            { pp.toSetting with includeStack := filename :: pp.includeStack } printed :=
          ⟨rfl, h.output, h.flushed, h.located, h.single, h.values⟩
        have hfew : 0 + (sourceLines text).length < 2147483648 := by
          rw [Nat.zero_add]
          exact hwhole.few
        have hlines := hstart.lines disk (sourceLines text) (fun {_ _ _ _ _ _ _ resolved} hsplit hbefore hincludes h =>
          ih resolved (fun name text hreads => hdisk name text (.included hopen hsplit hbefore hincludes hreads)) h)
          (fun line => late_of_mem) hfew (List.cons_ne_nil _ _) rfl
        rw [← pieces_whole hwhole.short hwhole.noNul (le_refl _)] at hlines
        refine rel_map_left (R := Adds pp.toSetting printed) (rel_bind hlines fun pp' r hr => ?_) fun pp' r hr => ?_
        · obtain ⟨hlists, hstack⟩ := hr
          obtain ⟨s', more⟩ := r
          obtain rfl := hlists.setting
          simp only
          split_ifs
          · exact .none
          · refine .some ⟨⟨rfl, hlists.output, hlists.flushed, hlists.located, hlists.single, hlists.values⟩, ?_⟩
            exact congrArg List.tail hstack
        · obtain ⟨hlists, hstack⟩ := hr
          exact ⟨⟨hlists.setting, hlists.output, hlists.flushed, hlists.located, hlists.single, hlists.values⟩, rfl, hstack⟩

theorem Lists.locate (h : Lists pp s printed) {n : Nat} {p : Printed} (hp : printed[n]? = some p) :
    ussrPpLocate pp (n + 1) = some (p.file, p.number) := by
  have hlength := h.located.length_eq
  obtain ⟨hn, hget⟩ := List.getElem?_eq_some_iff.mp hp
  have hlt : n < pp.lines.length := hlength ▸ hn
  have hentry := h.located.get hlt hn
  have hindex : ((n + 1 : Int) - 1).toNat = n := by omega
  have hne : pp.lines ≠ [] := List.ne_nil_of_length_pos (Nat.zero_lt_of_lt hlt)
  unfold ussrPpLocate
  rw [if_neg (by push Not; exact ⟨by omega, hne⟩), hindex]
  simp only [if_neg (Nat.not_lt.mpr hlt.le), if_neg (Nat.not_le.mpr hlt), List.getElem?_eq_getElem hlt, Option.bind_eq_bind,
    Option.bind_some]
  obtain ⟨hfile, hnumber⟩ : pp.mapFiles[pp.lines[n].1]? = some p.file ∧ pp.lines[n].2 = p.number := by
    rw [← hget]
    exact hentry
  rw [hfile, hnumber]
  rfl

end

/-- The output is those lines, each with its one line end, and every line of it is found where it comes from. -/
def Shows (pp : Pp) (r : Setting × List Printed) : Prop :=
  pp.output = r.2.flatMap Printed.text ∧ (∀ p ∈ r.2, ∃ body, p.text = body ++ [newline] ∧ newline ∉ body) ∧
    ∀ (n : Nat) (p : Printed), r.2[n]? = some p → ussrPpLocate pp (n + 1) = some (p.file, p.number)

/-- A file comes out as its lines print where every file that is read for it is read line by line. -/
theorem processed_by_lines (disk : Disk) (filename : Text)
    (h : ∀ name text, Reads disk (maxIncludeDepth + 1) .init filename name → disk.read name = some text → Whole text) :
    Option.Rel Shows (ussrPpProcessFile disk ussrPpInit filename) (printFile disk (maxIncludeDepth + 1) .init filename) := by
  have hstart : Lists ussrPpInit .init [] := ⟨rfl, rfl, rfl, .nil, fun p hp => absurd hp List.not_mem_nil, fun d hd => absurd hd List.not_mem_nil⟩
  have hfile := hstart.file (maxIncludeDepth + 1) filename h
  have hshows : ∀ pp r, Continues ussrPpInit .init [] pp r → Shows pp r := fun pp r hr =>
    ⟨hr.1.output, hr.1.single, fun n p hp => hr.1.locate hp⟩
  exact rel_mono hfile hshows

theorem processed_by_lines_include :
    let disk : Disk := ⟨fun name => if name = ascii "a" then some (ascii "$define N 2\nx N\n$include b\ny") else
      if name = ascii "b" then some (ascii "in b\n") else none, fun _ => none⟩
    Option.Rel Shows (ussrPpProcessFile disk ussrPpInit (ascii "a")) (printFile disk (maxIncludeDepth + 1) .init (ascii "a")) := by
  intro disk
  refine processed_by_lines disk _ fun name text _ htext => ?_
  have hwhole : ∀ text, text = ascii "$define N 2\nx N\n$include b\ny" ∨ text = ascii "in b\n" → Whole text := by
    rintro text (rfl | rfl)
    · exact ⟨by decide +kernel, by decide +kernel, by decide +kernel⟩
    · exact ⟨by decide +kernel, by decide +kernel, by decide +kernel⟩
  refine hwhole text ?_
  simp only [disk] at htext
  split_ifs at htext
  · exact .inl (Option.some.inj htext).symm
  · exact .inr (Option.some.inj htext).symm

section

theorem fgets_full {line : Text} (h : newline ∉ line) (rest : Text) : fgets line.length (line ++ rest) = (line, rest) := by
  induction line with
  | nil => cases rest <;> rfl
  | cons c cs ih =>
    rw [List.mem_cons, not_or] at h
    rw [List.length_cons, List.cons_append, fgets, if_neg (show c ≠ byte '\n' from Ne.symm h.1), ih h.2]

theorem ppExpandText_word (n : Nat) :
    ppExpandText [] (List.replicate (n + 1) (byte 'a')) = some (List.replicate (n + 1) (byte 'a')) := by
  have hpart : ∀ b ∈ List.replicate n (byte 'a'), isIdentPart b = true := fun b hb => by
    rw [List.eq_of_mem_replicate hb]
    decide
  have htake : (List.replicate n (byte 'a')).takeWhile isIdentPart = List.replicate n (byte 'a') := List.takeWhile_eq_self_iff.mpr hpart
  have hdrop : (List.replicate n (byte 'a')).dropWhile isIdentPart = [] := List.dropWhile_eq_nil_iff.mpr hpart
  rw [ppExpandText, ppExpandTextDepth, List.length_replicate, List.replicate_succ, expandFrom, if_neg (by decide), if_neg (by decide),
    htake, hdrop]
  simp only [show (ppSkipSpace []).head? = none from rfl, ppFindDefine, List.find?_nil, expandFrom_nil, Option.map_some,
    List.append_nil]
  rfl

theorem ppProcessLine_text {file : Pp → Text → Option Pp} {disk : Disk} {pp : Pp} {line out : Text} (hactive : pp.currentActive = true)
    (hopen : pp.includeStack ≠ []) (hline : directive line = none) (hout : ppExpandText pp.defines line = some out) :
    ppProcessLine file disk pp line = some (ppMapFlush { pp with output := pp.output ++ ended line out }) := by
  rw [ppProcessLine, if_neg hopen, ppProcessLineBody, hline]
  simp only [hactive, if_true, hout, Option.map_some]

theorem pieces_long {line : Text} (hlength : line.length = 4095) (hline : newline ∉ line) (hnul : 0 ∉ line) (turns : Nat) :
    pieces true (turns + 2) (line ++ [newline]) = [(true, line), (false, [newline])] := by
  have hwhole : line.takeWhile (· ≠ 0) = line := by
    rw [List.takeWhile_eq_self_iff]
    exact fun b hb => decide_eq_true fun heq => hnul (heq ▸ hb)
  have hlast : (line.getLast? = some (byte '\n')) = False := by
    rw [eq_iff_iff, iff_false]
    exact fun heq => hline (List.mem_of_getLast? heq)
  have hend : pieces true turns [] = [] := by cases turns <;> rfl
  have hone : pieces false (turns + 1) [newline] = (false, [newline]) :: pieces true turns [] := rfl
  rw [pieces, if_neg (by simp), ← hlength, fgets_full hline]
  simp only [hwhole, hlast, decide_false]
  rw [hone, hend]

theorem sourceLines_one {line : Text} (h : newline ∉ line) : sourceLines (line ++ [newline]) = [line ++ [newline]] := by
  induction line with
  | nil => rfl
  | cons c cs ih =>
    rw [List.mem_cons, not_or] at h
    rw [List.cons_append, sourceLines, if_neg (Ne.symm h.1), ih h.2]

def oneFile (text : Text) : Disk := ⟨fun _ => some text, fun _ => none⟩

variable {line : Text}

theorem long_line_output (hlength : line.length = 4095) (hline : newline ∉ line) (hnul : 0 ∉ line) (hdirective : directive line = none)
    (hexpand : ppExpandText [] line = some line) :
    (ussrPpProcessFile (oneFile (line ++ [newline])) ussrPpInit (ascii "a")).map (fun pp => pp.output) =
      some (line ++ [newline] ++ [newline]) := by
  have hopen : ppOpen (oneFile (line ++ [newline])) [] [] (ascii "a") = some (some ([ascii "a"], line ++ [newline])) := rfl
  have hpieces : pieces true (line ++ [newline]).length (line ++ [newline]) = [(true, line), (false, [newline])] := by
    have hsum : (line ++ [newline]).length = 4094 + 2 := by rw [List.length_append, hlength]; rfl
    rw [hsum]
    exact pieces_long hlength hline hnul 4094
  have hended : ended line line = line ++ [newline] := if_neg fun hlast => hline (List.mem_of_getLast? hlast)
  let pp : Pp := { ussrPpInit with includeStack := [ascii "a"] }
  let pp₁ : Pp := ppMapFlush { pp.countLine with output := line ++ [newline] }
  let pp₂ : Pp := ppMapFlush { pp₁ with output := pp₁.output ++ [newline] }
  have hfirst (file : Pp → Text → Option Pp) (disk : Disk) : ppProcessPiece file disk pp (true, line) = some pp₁ := by
    refine (ppProcessLine_text rfl (List.cons_ne_nil _ _) hdirective hexpand).trans ?_
    rw [hended]
    rfl
  have hsetting₁ : pp₁.toSetting = pp.toSetting := ppMapFlush_setting _
  have hsecond (file : Pp → Text → Option Pp) (disk : Disk) : ppProcessPiece file disk pp₁ (false, [newline]) = some pp₂ := by
    have hactive : pp₁.currentActive = true := congrArg Setting.currentActive hsetting₁
    have hstack : pp₁.includeStack = [ascii "a"] := congrArg Setting.includeStack hsetting₁
    have hdefines : pp₁.defines = [] := congrArg Setting.defines hsetting₁
    have hblank : ppExpandText pp₁.defines [newline] = some [newline] := by rw [hdefines]; rfl
    exact ppProcessLine_text hactive (hstack ▸ List.cons_ne_nil _ _) rfl hblank
  have hsetting₂ : pp₂.toSetting = pp.toSetting := (ppMapFlush_setting _).trans hsetting₁
  have hconditions : pp₂.conditions = [] := congrArg Setting.conditions hsetting₂
  have hfold (file : Pp → Text → Option Pp) (disk : Disk) :
      (pieces true (line ++ [newline]).length (line ++ [newline])).foldlM (ppProcessPiece file disk) pp = some pp₂ := by
    rw [hpieces, List.foldlM_cons, hfirst, Option.bind_eq_bind, Option.bind_some, List.foldlM_cons, hsecond]
    rfl
  have hbody (file : Pp → Text → Option Pp) : ppProcessFileBody file (oneFile (line ++ [newline])) ussrPpInit (ascii "a") =
      some { pp₂ with includeStack := pp₂.includeStack.tail } := by
    unfold ppProcessFileBody
    rw [show ussrPpInit.onceFiles = [] from rfl, show ussrPpInit.includeStack = [] from rfl, hopen]
    have hend : (if pp₂.conditions ≠ [] ∧ pp₂.includeStack.length = 1 then none
        else some ({ pp₂ with includeStack := pp₂.includeStack.tail } : Pp)) = some { pp₂ with includeStack := pp₂.includeStack.tail } :=
      if_neg fun hopen => hopen.1 hconditions
    rw [← hend]
    exact congrArg (fun x => Option.bind x fun pp => if pp.conditions ≠ [] ∧ pp.includeStack.length = 1 then none
      else some { pp with includeStack := pp.includeStack.tail }) (hfold file _)
  have houtput : pp₂.output = line ++ [newline] ++ [newline] := by
    rw [ppMapFlush_output]
    show pp₁.output ++ [newline] = _
    rw [ppMapFlush_output]
  rw [ussrPpProcessFile, ppProcessFile, show ({ ussrPpInit with currentLine := 0 } : Pp) = ussrPpInit from rfl, hbody]
  exact congrArg some houtput

theorem long_line_printed (hline : newline ∉ line) (hdirective : directive (line ++ [newline]) = none)
    (hexpand : ppExpandText [] line = some line) :
    (printFile (oneFile (line ++ [newline])) (maxIncludeDepth + 1) .init (ascii "a")).map (fun r => r.2.flatMap Printed.text) =
      some (line ++ [newline]) := by
  have hopen : ppOpen (oneFile (line ++ [newline])) [] [] (ascii "a") = some (some ([ascii "a"], line ++ [newline])) := rfl
  have hlines : sourceLines (line ++ [newline]) = [line ++ [newline]] := by
    exact sourceLines_one hline
  have hbare : bare (line ++ [newline]) = line := by
    rw [bare, if_pos List.getLast?_concat, List.dropLast_concat]
  have hprint (file : Setting → Text → Option (Setting × List Printed)) (disk : Disk) :
      printLine file disk 1 ⟨[], [ascii "a"], [], [], true⟩ (line ++ [newline]) =
        some (⟨[], [ascii "a"], [], [], true⟩, [⟨line ++ [newline], ascii "a", 1⟩]) := by
    rw [printLine, hdirective, hbare]
    simp only [hexpand]
    rfl
  rw [printFile]
  rw [show Setting.init.onceFiles = [] from rfl, show Setting.init.includeStack = [] from rfl, hopen]
  simp only [Option.bind_eq_bind, Option.bind_some, hlines, printLines, Setting.init, hprint]
  simp

end

/-- A line of 4096 bytes is not taken whole. -/
theorem long_line_breaks : ¬ ∀ (disk : Disk) (filename : Text),
    Option.Rel Shows (ussrPpProcessFile disk ussrPpInit filename) (printFile disk (maxIncludeDepth + 1) .init filename) := by
  intro h
  obtain ⟨n, hn⟩ : ∃ n, n + 1 = 4095 := ⟨4094, rfl⟩
  have hletter : ∀ b ∈ List.replicate (n + 1) (byte 'a'), b = byte 'a' := fun b hb => List.eq_of_mem_replicate hb
  have hnewline : newline ∉ List.replicate (n + 1) (byte 'a') := fun hmem => absurd (hletter _ hmem) (by decide)
  have hnul : 0 ∉ List.replicate (n + 1) (byte 'a') := fun hmem => absurd (hletter _ hmem) (by decide)
  have houtput := long_line_output (by rw [List.length_replicate, hn]) hnewline hnul rfl (ppExpandText_word n)
  have hprinted := long_line_printed hnewline rfl (ppExpandText_word n)
  have hsame := (houtput.symm.trans (map_eq_of_rel (h _ _) fun pp r hr => hr.1)).trans hprinted
  simpa using congrArg (Option.map List.length) hsame

end Ussr.Pp
