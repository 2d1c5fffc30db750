import Ussr.Siberia.Grid
import Ussr.TextSearch
import Mathlib.Data.List.TakeWhile

/-! Sheets as CSV. The writer quotes fields with commas, quotation marks, newlines or semicolons
in them. The reader guesses the separator from the first line and leaves out carriage returns
that are not quoted. -/

namespace Ussr.Siberia
open Real64
open Stalin (Text)

section

def sbXmlNumber : Number → Text
  | .integer n => strFromInt n
  | .real bits =>
    let x : Number := .real bits
    let ax := if x.lt (int 0) then (int 0).sub x else x
    if (realLiteral 1000000000000000 1).le ax || (ax.lt (realLiteral 1 1000000) && (int 0).lt ax) then sbFmt x
    else strFromNumber x 15

def csvText : Value → Text
  | .number n => sbXmlNumber n
  | v => sbShowValue v

def needsQuotes (s : Text) : Bool :=
  (strFind s [44] 0).isSome || (strFind s [34] 0).isSome || (strFind s [10] 0).isSome || (strFind s [59] 0).isSome

def doubled (s : Text) : Text := s.flatMap fun b => if b = 34 then [34, 34] else [b]

def sbCsvField (s : Text) : Text := if needsQuotes s then 34 :: (doubled s ++ [34]) else s

variable (math : Mathematics) (limit : Nat)

def csvCell (g : Grid) (index : Nat) : Option (Text × Grid) :=
  match g.sbValue math limit index with
  | (some v, g) => some (sbCsvField (csvText v), g)
  | (none, _) => none

/-- The inner loop of `sbsheetcsv`: the line of a row. -/
def csvRow (maxcol : Int) (row : Nat) (g : Grid) : Option (Text × Grid) :=
  (List.range (maxcol + 1).toNat).foldlM (fun (line, g) col => do
    let (s, g) ← csvCell math limit g (row * sbCols + col)
    return (line ++ ((if 0 < col then [44] else []) ++ s), g)) ([], g)

/-- `sbsheetcsv`, with the grid after it; `none` is a run-time error. -/
def sbsheetcsv (g : Grid) : Option (Text × Grid) :=
  (List.range (g.maxrow + 1).toNat).foldlM (fun (r, h) row => do
    let (line, h) ← csvRow math limit g.maxcol row h
    return (r ++ (line ++ [10]), h)) ([], g)

end

/-- The variables of `sb_load_csv`. -/
structure CsvReader where
  row : Nat
  col : Nat
  field : Text
  quoted : Bool
  dirty : Bool
  grid : Grid

def putField (g : Grid) (row col : Nat) (field : Text) : Grid :=
  if row < sbRows ∧ col < sbCols ∧ field ≠ [] then g.sbSetIndex (row * sbCols + col) field else g

def CsvReader.next (r : CsvReader) (newline : Bool) : CsvReader where
  row := if newline then r.row + 1 else r.row
  col := if newline then 0 else r.col + 1
  field := []
  quoted := r.quoted
  dirty := false
  grid := putField r.grid r.row r.col r.field

/-- The loop of `sb_load_csv`. -/
def csvLoop (sep : UInt8) : Text → CsvReader → CsvReader
  | [], r => r
  | b :: rest, r =>
    if r.quoted then
      if b = 34 then
        match rest with
        | 34 :: rest => csvLoop sep rest { r with field := r.field ++ [34] }
        | rest => csvLoop sep rest { r with quoted := false }
      else csvLoop sep rest { r with field := r.field ++ [b] }
    else if b = 34 then csvLoop sep rest { r with quoted := true, dirty := true }
    else if b = sep ∨ b = 10 then csvLoop sep rest (r.next (b = 10))
    else if b ≠ 13 then csvLoop sep rest { r with field := r.field ++ [b], dirty := true }
    else csvLoop sep rest r

def separator (text : Text) : UInt8 :=
  let first := match strFind text [10] 0 with
    | none => text
    | some nl => text.take nl
  if (strFind first [44] 0).isNone && (strFind first [59] 0).isSome then 59 else 44

def sbLoadCsv (g : Grid) (text : Text) : Grid :=
  let r := csvLoop (separator text) text ⟨0, 0, [], false, false, g⟩
  if (r.dirty ∨ r.field ≠ []) ∧ r.row < sbRows ∧ r.col < sbCols then
    r.grid.sbSetIndex (r.row * sbCols + r.col) r.field
  else r.grid

/-- `sbsheetload` of kind `csv`. -/
def sbsheetload (g : Grid) (text : Text) : Grid := sbLoadCsv g.sbsheetreset text

section

variable {limit : Nat} {g h : Grid}

/-- `h` is `g` after some of its cells were shown. -/
structure Alike (g h : Grid) : Prop where
  evaluated : Evaluated g h
  shown : ∀ index, h.shown index = g.shown index

theorem Alike.refl (g : Grid) : Alike g g := ⟨.refl g, fun _ => rfl⟩

theorem foldlM_pieces {β : Type} {step : Text × Grid → β → Option (Text × Grid)} {piece : β → Text}
    (hstep : ∀ acc h x, Alike g h → ∃ h', step (acc, h) x = some (acc ++ piece x, h') ∧ Alike g h')
    (xs : List β) (acc : Text) (h : Grid) (hh : Alike g h) :
    ∃ h', xs.foldlM step (acc, h) = some (acc ++ xs.flatMap piece, h') ∧ Alike g h' := by
  induction xs generalizing acc h with
  | nil => exact ⟨h, by rw [List.foldlM_nil, List.flatMap_nil, List.append_nil]; rfl, hh⟩
  | cons x xs ih =>
    obtain ⟨h', hfirst, hh'⟩ := hstep acc h x hh
    obtain ⟨h'', hrest, hh''⟩ := ih (acc ++ piece x) h' hh'
    refine ⟨h'', ?_, hh''⟩
    rw [List.foldlM_cons, hfirst, List.flatMap_cons, ← List.append_assoc]
    exact hrest

def fieldOf (g : Grid) (row col : Nat) : Text := sbCsvField (csvText (g.shown (row * sbCols + col)))

def lineOf (g : Grid) (row : Nat) : Text :=
  (List.range (g.maxcol + 1).toNat).flatMap fun col => (if 0 < col then [44] else []) ++ fieldOf g row col

def linesOf (g : Grid) : Text := (List.range (g.maxrow + 1).toNat).flatMap fun row => lineOf g row ++ [10]

variable (math : Mathematics) (hlimit : 2 ≤ limit) (htidy : Tidy g) (hplain : ∀ index, isFormula (g.text index) = false)
include hlimit htidy hplain

theorem csvCell_spec (hh : Alike g h) (row col : Nat) :
    ∃ h', csvCell math limit h (row * sbCols + col) = some (fieldOf g row col, h') ∧ Alike g h' := by
  have hplain' : isFormula (h.text (row * sbCols + col)) = false := by
    rw [hh.evaluated.text_eq]
    exact hplain _
  obtain ⟨h', hvalue, hevaluated, hshown⟩ :=
    @sbValue_shown math limit _ h hlimit (htidy.evaluated hh.evaluated) hplain'
  refine ⟨h', ?_, hh.evaluated.trans hevaluated, fun index => (hshown index).trans (hh.shown index)⟩
  rw [csvCell, hvalue, hh.shown]
  rfl

theorem csvRow_spec (hh : Alike g h) (row : Nat) :
    ∃ h', csvRow math limit g.maxcol row h = some (lineOf g row, h') ∧ Alike g h' := by
  refine foldlM_pieces (fun acc h col hh => ?_) _ [] h hh
  obtain ⟨h', hcell, hh'⟩ := csvCell_spec math hlimit htidy hplain hh row col
  refine ⟨h', ?_, hh'⟩
  dsimp only
  rw [hcell]
  rfl

theorem sbsheetcsv_spec : ∃ h, sbsheetcsv math limit g = some (linesOf g, h) ∧ Alike g h := by
  refine foldlM_pieces (fun acc h row hh => ?_) _ [] g (.refl g)
  obtain ⟨h', hrow, hh'⟩ := csvRow_spec math hlimit htidy hplain hh row
  refine ⟨h', ?_, hh'⟩
  dsimp only
  rw [hrow]
  rfl

end

/-! The text of a sheet read back. Each field is read as it was written, but for the carriage
returns of a field that was not quoted, unless the first line makes the reader take semicolons for
separators. -/

open Stalin (strTrim)

section

variable {s : Text} {c : UInt8}

theorem standsAt_byte {i : Nat} : StandsAt s [c] i ↔ s[i]? = some c := by
  unfold StandsAt
  rw [List.length_singleton, List.take_one, List.head?_drop]
  cases s[i]? with
  | none => simp
  | some b => simp

theorem strFind_byte : (strFind s [c] 0).isSome = true ↔ c ∈ s := by
  rw [List.mem_iff_getElem?]
  constructor
  · intro hfound
    obtain ⟨i, hi⟩ := Option.isSome_iff_exists.mp hfound
    exact ⟨i, standsAt_byte.mp (strFind_eq_some.mp hi).2.2.1⟩
  · rintro ⟨i, hi⟩
    cases hfind : strFind s [c] 0 with
    | some i => rfl
    | none =>
      have hlt := (List.getElem?_eq_some_iff.mp hi).1
      exact absurd (standsAt_byte.mpr hi) (strFind_eq_none.mp hfind i (Nat.zero_le i) hlt)

def firstLine (s : Text) : Text := s.takeWhile (· ≠ 10)

theorem take_strFind {nl : Nat} (h : strFind s [10] 0 = some nl) : s.take nl = firstLine s := by
  obtain ⟨-, -, hat, hbefore⟩ := strFind_eq_some.mp h
  rw [standsAt_byte] at hat
  obtain ⟨hlt, hbyte⟩ := List.getElem?_eq_some_iff.mp hat
  have hsplit : s = s.take nl ++ 10 :: s.drop (nl + 1) := by
    rw [← hbyte, List.getElem_cons_drop, List.take_append_drop]
  have hclear : ∀ b ∈ s.take nl, (decide (b ≠ 10)) = true := by
    intro b hb
    obtain ⟨i, hi⟩ := List.mem_iff_getElem?.mp hb
    have hilt : i < nl := by
      have := (List.getElem?_eq_some_iff.mp hi).1
      rw [List.length_take] at this
      omega
    rw [List.getElem?_take_of_lt hilt] at hi
    refine decide_eq_true fun heq => hbefore i (Nat.zero_le i) hilt ?_
    rw [standsAt_byte, hi, heq]
  unfold firstLine
  conv_rhs => rw [hsplit]
  rw [List.takeWhile_append_of_pos hclear]
  simp

theorem firstLine_eq_self (h : 10 ∉ s) : firstLine s = s :=
  List.takeWhile_eq_self_iff.mpr fun b hb => by simpa using fun heq : b = 10 => h (heq ▸ hb)

theorem separator_eq (text : Text) : separator text =
    if 44 ∉ firstLine text ∧ 59 ∈ firstLine text then 59 else 44 := by
  have hguess (line : Text) : (if ((strFind line [44] 0).isNone && (strFind line [59] 0).isSome) = true
      then (59 : UInt8) else 44) = if 44 ∉ line ∧ 59 ∈ line then 59 else 44 := by
    simp only [Bool.and_eq_true, strFind_byte, Option.isNone_iff_eq_none, ← Option.not_isSome_iff_eq_none]
  unfold separator
  cases hfind : strFind text [10] 0 with
  | some nl => rw [← take_strFind hfind, ← hguess]
  | none =>
    have hnone : 10 ∉ text := fun hmem => by
      rw [← strFind_byte, hfind] at hmem
      cases hmem
    rw [firstLine_eq_self hnone, ← hguess]

theorem needsQuotes_iff : needsQuotes s = true ↔ 44 ∈ s ∨ 34 ∈ s ∨ 10 ∈ s ∨ 59 ∈ s := by
  unfold needsQuotes
  simp only [Bool.or_eq_true, strFind_byte, or_assoc]

end

section

variable {sep b : UInt8} {s rest field : Text} {row col : Nat} {dirty : Bool} {grid : Grid}

def readBack (s : Text) : Text := if needsQuotes s then s else s.filter (· ≠ 13)

theorem csvLoop_quoted (hb : b ≠ 34) : csvLoop sep (b :: rest) ⟨row, col, field, true, dirty, grid⟩ =
    csvLoop sep rest ⟨row, col, field ++ [b], true, dirty, grid⟩ := by
  rw [csvLoop.eq_def]
  dsimp only
  rw [if_pos rfl, if_neg hb]

theorem csvLoop_twice : csvLoop sep (34 :: 34 :: rest) ⟨row, col, field, true, dirty, grid⟩ =
    csvLoop sep rest ⟨row, col, field ++ [34], true, dirty, grid⟩ := rfl

theorem csvLoop_close (hb : b ≠ 34) : csvLoop sep (34 :: b :: rest) ⟨row, col, field, true, dirty, grid⟩ =
    csvLoop sep (b :: rest) ⟨row, col, field, false, dirty, grid⟩ := by
  rw [csvLoop.eq_def]
  dsimp only
  rw [if_pos rfl, if_pos rfl]
  split
  · rename_i heq
    exact absurd (List.cons.inj heq).1 hb
  · rfl

theorem csvLoop_open : csvLoop sep (34 :: rest) ⟨row, col, field, false, dirty, grid⟩ =
    csvLoop sep rest ⟨row, col, field, true, true, grid⟩ := by
  rw [csvLoop.eq_def]
  rfl

theorem csvLoop_end (hb : b ≠ 34) (hend : b = sep ∨ b = 10) :
    csvLoop sep (b :: rest) ⟨row, col, field, false, dirty, grid⟩ = csvLoop sep rest
      ⟨if b = 10 then row + 1 else row, if b = 10 then 0 else col + 1, [], false, false, putField grid row col field⟩ := by
  rw [csvLoop.eq_def]
  dsimp only
  rw [if_neg Bool.false_ne_true, if_neg hb, if_pos hend]
  simp only [CsvReader.next, decide_eq_true_eq]

theorem csvLoop_byte (hb : b ≠ 34) (hend : ¬(b = sep ∨ b = 10)) :
    ∃ dirty', csvLoop sep (b :: rest) ⟨row, col, field, false, dirty, grid⟩ =
      csvLoop sep rest ⟨row, col, field ++ [b].filter (· ≠ 13), false, dirty', grid⟩ := by
  rw [csvLoop.eq_def]
  dsimp only
  rw [if_neg Bool.false_ne_true, if_neg hb, if_neg hend]
  by_cases hreturn : b = 13
  · exact ⟨dirty, by rw [if_neg (not_not.mpr hreturn), List.filter_cons_of_neg (by simpa using hreturn), List.filter_nil,
      List.append_nil]⟩
  · exact ⟨true, by rw [if_pos hreturn, List.filter_cons_of_pos (by simpa using hreturn), List.filter_nil]⟩

theorem csvLoop_doubled : csvLoop sep (doubled s ++ rest) ⟨row, col, field, true, dirty, grid⟩ =
    csvLoop sep rest ⟨row, col, field ++ s, true, dirty, grid⟩ := by
  induction s generalizing field with
  | nil => rw [List.append_nil]; rfl
  | cons b s ih =>
    have hnext := @ih (field ++ [b])
    rw [List.append_assoc, List.singleton_append] at hnext
    rw [← hnext, doubled, List.flatMap_cons]
    by_cases hb : b = 34
    · rw [if_pos hb, hb]
      exact csvLoop_twice
    · rw [if_neg hb]
      exact csvLoop_quoted hb

theorem csvLoop_plain (hs : ∀ b ∈ s, b ≠ 34 ∧ b ≠ sep ∧ b ≠ 10) :
    ∃ dirty', csvLoop sep (s ++ rest) ⟨row, col, field, false, dirty, grid⟩ =
      csvLoop sep rest ⟨row, col, field ++ s.filter (· ≠ 13), false, dirty', grid⟩ := by
  induction s generalizing field dirty with
  | nil => exact ⟨dirty, by rw [List.filter_nil, List.append_nil, List.nil_append]⟩
  | cons b s ih =>
    obtain ⟨⟨hmark, hsep, hline⟩, hrest⟩ := List.forall_mem_cons.mp hs
    obtain ⟨first, hfirst⟩ := @csvLoop_byte sep b (s ++ rest) field row col dirty grid hmark fun h => h.elim hsep hline
    obtain ⟨dirty', hread⟩ := @ih (field ++ [b].filter (· ≠ 13)) first hrest
    refine ⟨dirty', hfirst.trans (hread.trans ?_)⟩
    rw [List.append_assoc, ← List.filter_append, List.singleton_append]

theorem csvLoop_field (hsep : sep = 44 ∨ sep = 59) (hb : b ≠ 34) :
    ∃ dirty', csvLoop sep (sbCsvField s ++ b :: rest) ⟨row, col, [], false, dirty, grid⟩ =
      csvLoop sep (b :: rest) ⟨row, col, readBack s, false, dirty', grid⟩ := by
  unfold sbCsvField readBack
  split_ifs with hneeds
  · refine ⟨true, ?_⟩
    rw [List.cons_append, List.append_assoc, csvLoop_open, csvLoop_doubled, List.singleton_append, csvLoop_close hb,
      List.nil_append]
  · rw [needsQuotes_iff] at hneeds
    push Not at hneeds
    obtain ⟨hcomma, hmark, hline, hsemicolon⟩ := hneeds
    have hclear : ∀ c ∈ s, c ≠ 34 ∧ c ≠ sep ∧ c ≠ 10 := by
      intro c hc
      refine ⟨fun heq => hmark (heq ▸ hc), fun heq => ?_, fun heq => hline (heq ▸ hc)⟩
      cases hsep with
      | inl hsep => exact hcomma (hsep ▸ heq ▸ hc)
      | inr hsep => exact hsemicolon (hsep ▸ heq ▸ hc)
    exact @csvLoop_plain sep s (b :: rest) [] row col dirty grid hclear

end

section

variable {sep : UInt8} {rest : Text} {g grid : Grid} {dirty : Bool}

theorem putField_nil (row col : Nat) : putField g row col [] = g := if_neg fun h => h.2.2 rfl

def readCell (g : Grid) (row col : Nat) : Text := readBack (csvText (g.shown (row * sbCols + col)))

def putCell (g : Grid) (row : Nat) (grid : Grid) (col : Nat) : Grid := putField grid row col (readCell g row col)

def putRow (g : Grid) (grid : Grid) (row : Nat) : Grid :=
  (List.range (g.maxcol + 1).toNat).foldl (putCell g row) grid

def furtherFields (g : Grid) (row col m : Nat) : Text :=
  (List.range' col m).flatMap fun k => 44 :: fieldOf g row k

theorem furtherFields_head (row col m : Nat) :
    ∃ b text, b ≠ 34 ∧ furtherFields g row col m ++ 10 :: rest = b :: text := by
  cases m with
  | zero => exact ⟨10, rest, by decide, rfl⟩
  | succ m => exact ⟨44, _, by decide, rfl⟩

theorem csvLoop_further {row col m : Nat} (hsep : sep = 44 ∨ sep = 59 ∧ m = 0) :
    csvLoop sep (furtherFields g row (col + 1) m ++ 10 :: rest) ⟨row, col, readCell g row col, false, dirty, grid⟩ =
      csvLoop sep rest ⟨row + 1, 0, [], false, false, (List.range' col (m + 1)).foldl (putCell g row) grid⟩ := by
  induction m generalizing col dirty grid with
  | zero => exact csvLoop_end (by decide) (.inr rfl)
  | succ m ih =>
    have hcomma : sep = 44 := hsep.resolve_right fun h => by cases h.2
    obtain ⟨b, text, hb, htext⟩ := @furtherFields_head rest g row (col + 2) m
    have hsplit : furtherFields g row (col + 1) (m + 1) ++ 10 :: rest =
        44 :: (fieldOf g row (col + 1) ++ b :: text) := by
      rw [← htext, furtherFields, List.range'_succ, List.flatMap_cons, List.cons_append, List.cons_append,
        List.append_assoc]
      rfl
    obtain ⟨dirty', hfield⟩ := @csvLoop_field sep b (csvText (g.shown (row * sbCols + (col + 1)))) text row (col + 1)
      false (putField grid row col (readCell g row col)) (.inl hcomma) hb
    rw [hsplit, csvLoop_end (by decide) (.inl hcomma.symm), if_neg (by decide), if_neg (by decide)]
    refine hfield.trans ?_
    rw [← htext]
    exact ih (.inl hcomma)

theorem lineOf_succ {row m : Nat} (hcols : (g.maxcol + 1).toNat = m + 1) :
    lineOf g row = fieldOf g row 0 ++ furtherFields g row 1 m := by
  rw [lineOf, hcols, List.range_eq_range', List.range'_succ, List.flatMap_cons, if_neg (by decide), List.nil_append,
    furtherFields]
  congr 1
  refine List.flatMap_congr fun k hk => ?_
  have hpos := (List.mem_range'_1.mp hk).1
  rw [if_pos (by omega), List.singleton_append]

theorem csvLoop_line {row : Nat} (hsep : sep = 44 ∨ sep = 59 ∧ g.maxcol ≤ 0) :
    csvLoop sep (lineOf g row ++ 10 :: rest) ⟨row, 0, [], false, false, grid⟩ =
      csvLoop sep rest ⟨row + 1, 0, [], false, false, putRow g grid row⟩ := by
  cases hcols : (g.maxcol + 1).toNat with
  | zero =>
    rw [lineOf, putRow, hcols]
    refine (csvLoop_end (by decide) (.inr rfl)).trans ?_
    rw [if_pos rfl, if_pos rfl, putField_nil]
    rfl
  | succ m =>
    obtain ⟨b, text, hb, htext⟩ := @furtherFields_head rest g row 1 m
    obtain ⟨dirty', hfield⟩ := @csvLoop_field sep b (csvText (g.shown (row * sbCols + 0))) text row 0
      false grid (hsep.imp_right And.left) hb
    rw [lineOf_succ hcols, List.append_assoc, htext]
    refine hfield.trans ?_
    rw [← htext, putRow, hcols, List.range_eq_range']
    refine csvLoop_further (hsep.imp_right fun h => ⟨h.1, ?_⟩)
    omega

theorem csvLoop_lines (hsep : sep = 44 ∨ sep = 59 ∧ g.maxcol ≤ 0) (row m : Nat) :
    csvLoop sep ((List.range' row m).flatMap fun row => lineOf g row ++ [10]) ⟨row, 0, [], false, false, grid⟩ =
      ⟨row + m, 0, [], false, false, (List.range' row m).foldl (putRow g) grid⟩ := by
  induction m generalizing row grid with
  | zero => rfl
  | succ m ih =>
    rw [List.range'_succ, List.flatMap_cons, List.append_assoc, List.singleton_append, csvLoop_line hsep, ih,
      List.foldl_cons]
    congr 1
    omega

theorem sbLoadCsv_lines (hsep : separator (linesOf g) = 44 ∨ g.maxcol ≤ 0) :
    sbLoadCsv grid (linesOf g) = (List.range (g.maxrow + 1).toNat).foldl (putRow g) grid := by
  have hguess : separator (linesOf g) = 44 ∨ separator (linesOf g) = 59 ∧ g.maxcol ≤ 0 := by
    cases hsep with
    | inl h => exact .inl h
    | inr h =>
      rw [separator_eq]
      split_ifs
      · exact .inr ⟨rfl, h⟩
      · exact .inl rfl
  have hread : csvLoop (separator (linesOf g)) (linesOf g) ⟨0, 0, [], false, false, grid⟩ =
      ⟨0 + (g.maxrow + 1).toNat, 0, [], false, false, (List.range (g.maxrow + 1).toNat).foldl (putRow g) grid⟩ := by
    rw [List.range_eq_range', ← csvLoop_lines hguess, ← List.range_eq_range']
    rfl
  unfold sbLoadCsv
  rw [hread]
  exact if_neg fun h => by simp at h

end

section

variable {g R h : Grid} {l : List Nat} {index : Nat}

def usedCells (g : Grid) : List Nat :=
  (List.range (g.maxrow + 1).toNat).flatMap fun row =>
    (List.range (g.maxcol + 1).toNat).map fun col => row * sbCols + col

def readIndex (g : Grid) (index : Nat) : Text := readBack (csvText (g.shown index))

def putIndex (g h : Grid) (index : Nat) : Grid :=
  if readIndex g index ≠ [] then h.sbSetIndex index (readIndex g index) else h

theorem index_parts {row col : Nat} (hcol : col < sbCols) :
    (row * sbCols + col) / sbCols = row ∧ (row * sbCols + col) % sbCols = col := by
  constructor
  · rw [Nat.mul_comm, Nat.mul_add_div (by decide), Nat.div_eq_of_lt hcol, Nat.add_zero]
  · rw [Nat.mul_comm, Nat.mul_add_mod, Nat.mod_eq_of_lt hcol]

theorem mem_usedCells (htidy : Tidy g) : index ∈ usedCells g ↔
    (index / sbCols : Nat) ≤ g.maxrow ∧ (index % sbCols : Nat) ≤ g.maxcol := by
  have hcols := htidy.cols
  unfold usedCells
  rw [List.mem_flatMap]
  constructor
  · rintro ⟨row, hrow, hmem⟩
    obtain ⟨col, hcol, rfl⟩ := List.mem_map.mp hmem
    rw [List.mem_range] at hrow hcol
    obtain ⟨hdiv, hmod⟩ := @index_parts row col (by omega)
    rw [hdiv, hmod]
    omega
  · rintro ⟨hrow, hcol⟩
    refine ⟨index / sbCols, List.mem_range.mpr (by omega), List.mem_map.mpr ⟨index % sbCols,
      List.mem_range.mpr (by omega), ?_⟩⟩
    exact Nat.div_add_mod' index sbCols

theorem putRow_fold (htidy : Tidy g) : (List.range (g.maxrow + 1).toNat).foldl (putRow g) R =
    (usedCells g).foldl (putIndex g) R := by
  have hrows := htidy.rows
  have hcols := htidy.cols
  unfold usedCells
  rw [List.foldl_flatMap]
  refine List.foldl_ext _ _ R fun h row hrow => ?_
  rw [List.foldl_map, putRow]
  refine List.foldl_ext _ _ h fun h col hcol => ?_
  rw [List.mem_range] at hrow hcol
  unfold putCell putField putIndex
  have hin : row < sbRows ∧ col < sbCols := by omega
  by_cases hempty : readCell g row col = []
  · exact (if_neg fun hput => hput.2.2 hempty).trans (if_neg fun hput => hput hempty).symm
  · exact (if_pos ⟨hin.1, hin.2, hempty⟩).trans (if_pos hempty).symm

/-- The grid `h` after the cells of `l` were read back into `R`. -/
structure Filled (g R : Grid) (l : List Nat) (h : Grid) : Prop where
  tidy : Tidy h
  gen : h.gen = R.gen + (l.filter fun i => readIndex g i ≠ []).length
  text : ∀ i, h.text i = if i ∈ l ∧ readIndex g i ≠ [] then readIndex g i else R.text i
  old : ∀ i, R.written (i / sbCols) = true → h.written (i / sbCols) = true ∧
    (h.found i).value = (R.found i).value ∧ (h.found i).gen = (R.found i).gen
  new : ∀ i, R.written (i / sbCols) = false → h.written (i / sbCols) = true →
    (h.found i).value = .null ∧ (h.found i).gen = 0

theorem filled_nil (htidy : Tidy R) : Filled g R [] R where
  tidy := htidy
  gen := rfl
  text := fun i => (if_neg fun hin => by cases hin.1).symm
  old := fun i hwritten => ⟨hwritten, rfl, rfl⟩
  new := fun i hold hwritten => by rw [hold] at hwritten; cases hwritten

theorem Filled.put (hfilled : Filled g R l h) (hindex : index < sbRows * sbCols) :
    Filled g R (l ++ [index]) (putIndex g h index) := by
  unfold putIndex
  split_ifs with hread
  · have hmark (i : Nat) : ((h.sbSetIndex index (readIndex g index)).found i).value = (h.kept index i).value ∧
        ((h.sbSetIndex index (readIndex g index)).found i).gen = (h.kept index i).gen := by
      rw [Grid.found_sbSetIndex]
      split_ifs <;> exact ⟨rfl, rfl⟩
    have hwritten (i : Nat) : (h.sbSetIndex index (readIndex g index)).written (i / sbCols) =
        if i / sbCols = index / sbCols then true else h.written (i / sbCols) := Function.update_apply ..
    constructor
    case tidy => exact hfilled.tidy.set hindex
    case gen =>
      rw [List.filter_append, List.filter_cons_of_pos (by simpa using hread), List.filter_nil, List.length_append,
        List.length_singleton, ← Nat.add_assoc, ← hfilled.gen]
      rfl
    case text =>
      intro i
      rw [Grid.text_sbSetIndex hfilled.tidy, hfilled.text]
      by_cases hi : i = index
      · rw [if_pos hi, hi, if_pos ⟨by simp, hread⟩]
      · rw [if_neg hi]
        simp only [List.mem_append, List.mem_singleton, hi, or_false]
    case old =>
      intro i hold
      obtain ⟨hw, hvalue, hgen⟩ := hfilled.old i hold
      have hkept : h.kept index i = h.found i := by
        refine if_neg fun hnew => ?_
        rw [← hnew.1, hw] at hnew
        cases hnew.2
      rw [hwritten, (hmark i).1, (hmark i).2, hkept]
      exact ⟨by rw [hw]; simp, hvalue, hgen⟩
    case new =>
      intro i hnew hw
      rw [(hmark i).1, (hmark i).2]
      unfold Grid.kept
      split_ifs with hfresh
      · exact ⟨rfl, rfl⟩
      · refine hfilled.new i hnew ?_
        rw [hwritten] at hw
        split_ifs at hw with hrow
        · by_contra hold
          exact hfresh ⟨hrow, by rw [← hrow]; exact Bool.eq_false_of_not_eq_true hold⟩
        · exact hw
  · rw [not_not] at hread
    refine ⟨hfilled.tidy, ?_, fun i => ?_, hfilled.old, hfilled.new⟩
    · rw [List.filter_append, List.filter_cons_of_neg (by simpa using hread), List.filter_nil, List.append_nil]
      exact hfilled.gen
    · rw [hfilled.text]
      by_cases hi : i = index
      · rw [hi, if_neg fun hin => hin.2 hread, if_neg fun hin => hin.2 hread]
      · simp only [List.mem_append, List.mem_singleton, hi, or_false]

theorem filled_foldl (htidy : Tidy R) (hl : ∀ i ∈ l, i < sbRows * sbCols) :
    Filled g R l (l.foldl (putIndex g) R) := by
  induction l using List.reverseRecOn with
  | nil => exact filled_nil htidy
  | append_singleton l index ih =>
    rw [List.foldl_append]
    exact (ih fun i hi => hl i (List.mem_append_left _ hi)).put (hl index (by simp))

end

end Ussr.Siberia
