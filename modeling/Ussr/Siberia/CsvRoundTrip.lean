import Ussr.Numerals
import Ussr.Siberia.CsvReading

/-! Which sheets come back from their text as they were: those whose values survive the reader, with
a first line that shows the right separator, loaded where no mark of an old row is taken for one of
the new sheet. -/

namespace Ussr.Siberia
open Real64
open Stalin (Text strTrim)

section

variable {s t : Text} {v : Value}

def Survives : Value → Prop
  | .number (.integer n) => n.toInt.natAbs < 10 ^ 18 - 64
  | .text s => s.head? ≠ some 1 ∧ (13 ∈ s → needsQuotes s = true)
  | _ => True

theorem readBack_of_clean (h : 13 ∉ s) : readBack s = s := by
  unfold readBack
  split_ifs
  · rfl
  · exact List.filter_eq_self.mpr fun b hb => by simpa using fun heq : b = 13 => h (heq ▸ hb)

theorem length_readBack_le (s : Text) : (readBack s).length ≤ s.length := by
  unfold readBack
  split_ifs
  · exact le_refl _
  · exact List.length_filter_le _ _

theorem readBack_eq_self : readBack s = s ↔ (13 ∈ s → needsQuotes s = true) := by
  by_cases hneeds : needsQuotes s = true
  · rw [readBack, if_pos hneeds]
    exact ⟨fun _ _ => hneeds, fun _ => rfl⟩
  · rw [readBack, if_neg hneeds, List.filter_eq_self]
    constructor
    · intro h hmem
      have hkept := h 13 hmem
      simp at hkept
    · intro h b hb
      simpa using fun heq : b = 13 => hneeds (h (heq ▸ hb))

theorem heldValue_numeral {n : BitVec 64} (hn : n.toInt.natAbs < 10 ^ 18) :
    readBack (strFromInt n) = strFromInt n ∧ isFormula (strFromInt n) = false ∧
      (heldValue (strFromInt n) = .number (.integer n) ↔ n.toInt.natAbs < 10 ^ 18 - 64) := by
  obtain ⟨hbytes, hread, hlong⟩ := strFromInt_reads hn
  rw [List.all_eq_true] at hbytes
  have hclean (c : UInt8) (hc : inNumeral c = false) : c ∉ strFromInt n := fun hmem => by
    rw [hbytes c hmem] at hc
    cases hc
  have hblank : ∀ b ∈ strFromInt n, Stalin.strIsBlankByte b = false := by
    intro b hb
    have hnumeral := hbytes b hb
    unfold inNumeral at hnumeral
    rw [Bool.or_eq_true, decide_eq_true_eq] at hnumeral
    cases hnumeral with
    | inl hdigit => exact not_blank_of_isDigit hdigit
    | inr hsign => rw [hsign]; rfl
  have hne : strFromInt n ≠ [] := by
    intro hnil
    have hnone : strToNumber [] = none := by decide
    by_cases hshort : n.toInt.natAbs < 10 ^ 18 - 64
    · have hsome := hread hshort
      rw [hnil, hnone] at hsome
      cases hsome
    · have hreal := hlong (by omega)
      rw [hnil, readsReal, hnone] at hreal
      cases hreal
  have hheld : heldValue (strFromInt n) = (strToNumber (strFromInt n)).elim (.text (strFromInt n)) .number := by
    cases hread : strToNumber (strFromInt n) <;> simp [heldValue, strTrim_of_not_blank hblank, hne, hread]
  refine ⟨readBack_of_clean (hclean 13 (by decide)), ?_, ?_⟩
  · unfold isFormula
    split
    · rename_i heq
      exact absurd (heq ▸ List.mem_cons_self) (hclean 61 (by decide))
    · rfl
  · rw [hheld]
    constructor
    · intro hvalue
      by_contra hshort
      have hreal := hlong (by omega)
      unfold readsReal at hreal
      cases hx : strToNumber (strFromInt n) with
      | some x =>
        rw [hx] at hreal hvalue
        cases hvalue
        cases hreal
      | none =>
        rw [hx] at hvalue
        cases hvalue
    · intro hshort
      rw [hread hshort]
      rfl

theorem csvText_text (s : Text) : s.head? ≠ some 1 ∧ csvText (.text s) = s ∨
    ∃ name, s = 1 :: name ∧ csvText (.text s) = name := by
  cases s with
  | nil => exact .inl ⟨by simp, rfl⟩
  | cons b name =>
    by_cases hb : b = 1
    · exact .inr ⟨name, by rw [hb], by rw [hb]; rfl⟩
    · refine .inl ⟨by simpa using hb, ?_⟩
      have hshow : csvText (.text (b :: name)) = sbShowValue (.text (b :: name)) := rfl
      rw [hshow, sbShowValue]
      rintro name' heq
      exact hb (List.cons.inj heq).1

theorem heldValue_cases (s : Text) : s = [] ∧ heldValue s = .null ∨ s ≠ [] ∧ heldValue s = .text s ∨
    ∃ n, s ≠ [] ∧ heldValue s = .number n ∧ strToNumber (strTrim s) = some n := by
  by_cases hnil : s = []
  · exact .inl ⟨hnil, by rw [hnil]; rfl⟩
  · right
    rw [heldValue, if_neg hnil]
    split
    · rename_i n hread
      split_ifs at hread
      exact .inr ⟨n, hnil, rfl, hread⟩
    · exact .inl ⟨hnil, rfl⟩

theorem survives_iff (hplain : isFormula s = false) (hreal : ∀ x, heldValue s ≠ .number (.real x)) :
    isFormula (readBack (csvText (heldValue s))) = false ∧
        heldValue (readBack (csvText (heldValue s))) = heldValue s ↔
      Survives (heldValue s) := by
  obtain ⟨-, hnull⟩ | ⟨-, htext⟩ | ⟨n, -, hnumber, hread⟩ := heldValue_cases s
  · rw [hnull]
    exact ⟨fun _ => trivial, fun _ => ⟨rfl, rfl⟩⟩
  · rw [htext, Survives, ← readBack_eq_self]
    obtain ⟨hhead, hshown⟩ | ⟨name, rfl, hshown⟩ := csvText_text s
    · rw [hshown]
      constructor
      · exact fun h => ⟨hhead, heldValue_text h.2⟩
      · intro h
        rw [h.2]
        exact ⟨hplain, htext⟩
    · rw [hshown]
      constructor
      · intro h
        have hlength := congrArg List.length (heldValue_text h.2)
        have hle := length_readBack_le name
        rw [List.length_cons] at hlength
        omega
      · exact fun h => absurd rfl h.1
  · cases n with
    | real x => exact absurd hnumber (hreal x)
    | integer n =>
      obtain ⟨hback, hformula, hheld⟩ := heldValue_numeral (strToNumber_integer hread)
      have hshown : csvText (.number (.integer n)) = strFromInt n := rfl
      rw [hnumber, hshown, hback, Survives, ← hheld]
      exact ⟨And.right, fun h => ⟨hformula, h⟩⟩

end

section

variable {g h R : Grid} {s rest F : Text} {c : UInt8} {r : CsvReader}

theorem mem_doubled : c ∈ doubled s ↔ c ∈ s := by
  unfold doubled
  rw [List.mem_flatMap]
  constructor
  · rintro ⟨b, hb, hc⟩
    split_ifs at hc with hmark
    · have heq : c = b := by simpa [hmark] using hc
      exact heq ▸ hb
    · exact List.mem_singleton.mp hc ▸ hb
  · intro hc
    refine ⟨c, hc, ?_⟩
    split_ifs with hmark <;> simp [hmark]

theorem firstLine_cons (hc : c ≠ 10) : firstLine (c :: s) = c :: firstLine s :=
  List.takeWhile_cons_of_pos (by simpa using hc)

theorem firstLine_doubled (hline : 10 ∈ s) : firstLine (doubled s ++ rest) = doubled (firstLine s) := by
  induction s with
  | nil => cases hline
  | cons b s ih =>
    by_cases hb : b = 10
    · rw [hb]
      rfl
    · have hrest := ih (List.mem_of_ne_of_mem (Ne.symm hb) hline)
      have hcons : doubled (b :: s) = (if b = 34 then [34, 34] else [b]) ++ doubled s := rfl
      have hcons' : doubled (b :: firstLine s) = (if b = 34 then [34, 34] else [b]) ++ doubled (firstLine s) := rfl
      rw [firstLine_cons hb, hcons, hcons', List.append_assoc]
      split_ifs
      · exact (firstLine_cons (by decide)).trans (congrArg _ ((firstLine_cons (by decide)).trans (congrArg _ hrest)))
      · exact (firstLine_cons hb).trans (congrArg _ hrest)

def Misleading (s : Text) : Prop := 10 ∈ s ∧ 44 ∉ firstLine s ∧ 59 ∈ firstLine s

theorem separator_field : separator (sbCsvField s ++ 44 :: rest) = 59 ↔ Misleading s := by
  have hguess : separator (sbCsvField s ++ 44 :: rest) = 59 ↔
      44 ∉ firstLine (sbCsvField s ++ 44 :: rest) ∧ 59 ∈ firstLine (sbCsvField s ++ 44 :: rest) := by
    rw [separator_eq]
    split_ifs with hguess
    · exact ⟨fun _ => hguess, fun _ => rfl⟩
    · exact ⟨fun heq => absurd heq (by decide), fun h => absurd h hguess⟩
  rw [hguess, Misleading]
  by_cases hline : 10 ∈ s
  · have hneeds : needsQuotes s = true := needsQuotes_iff.mpr (.inr (.inr (.inl hline)))
    have hfirst : firstLine (sbCsvField s ++ 44 :: rest) = 34 :: doubled (firstLine s) := by
      rw [sbCsvField, if_pos hneeds, List.cons_append, firstLine_cons (by decide), List.append_assoc,
        firstLine_doubled hline]
    rw [hfirst]
    simp [mem_doubled, hline]
  · have hcomma : 44 ∈ firstLine (sbCsvField s ++ 44 :: rest) := by
      have hfield : 10 ∉ sbCsvField s := by
        unfold sbCsvField
        split_ifs
        · simp [mem_doubled, hline]
        · exact hline
      unfold firstLine
      rw [List.takeWhile_append_of_pos fun b hb => by simpa using fun heq : b = 10 => hfield (heq ▸ hb)]
      exact List.mem_append_right _ (by simp)
    exact ⟨fun h => absurd hcomma h.1, fun h => absurd h.1 hline⟩

/-- A field that begins with `F` is being read for the first cell, or was read for it. -/
structure Begins (F : Text) (r : CsvReader) : Prop where
  tidy : Tidy r.grid
  value : (r.grid.found 0).value = .null
  place : r.row = 0 ∧ r.col = 0 ∧ F <+: r.field ∨ (r.row ≠ 0 ∨ r.col ≠ 0) ∧ F <+: r.grid.text 0

theorem found_value_set {index : Nat} {text : Text} (h : (g.found 0).value = .null) :
    ((g.sbSetIndex index text).found 0).value = .null := by
  have hkept : (g.kept index 0).value = .null := by
    unfold Grid.kept
    split_ifs
    · rfl
    · exact h
  rw [Grid.found_sbSetIndex]
  split_ifs <;> exact hkept

theorem Begins.next (h : Begins F r) (hF : F ≠ []) (newline : Bool) : Begins F (r.next newline) := by
  have hplace : (r.next newline).row ≠ 0 ∨ (r.next newline).col ≠ 0 := by
    cases newline <;> simp [CsvReader.next]
  have hgrid : (r.next newline).grid = putField r.grid r.row r.col r.field := rfl
  constructor
  · rw [hgrid, putField]
    split_ifs with hput
    · exact h.tidy.set (by simp only [sbRows, sbCols] at hput ⊢; omega)
    · exact h.tidy
  · rw [hgrid, putField]
    split_ifs
    · exact found_value_set h.value
    · exact h.value
  · refine .inr ⟨hplace, ?_⟩
    rw [hgrid, putField]
    obtain ⟨hrow, hcol, hfield⟩ | ⟨hbehind, htext⟩ := h.place
    · have hne : r.field ≠ [] := fun hnil => hF (List.prefix_nil.mp (hnil ▸ hfield))
      rw [if_pos ⟨by rw [hrow]; decide, by rw [hcol]; decide, hne⟩, hrow, hcol, Grid.text_sbSetIndex h.tidy,
        if_pos (by decide)]
      exact hfield
    · split_ifs with hput
      · rw [Grid.text_sbSetIndex h.tidy, if_neg (by simp only [sbCols]; omega)]
        exact htext
      · exact htext

theorem Begins.add (h : Begins F r) (b : Text) (quoted dirty : Bool) :
    Begins F { r with field := r.field ++ b, quoted, dirty } :=
  ⟨h.tidy, h.value, h.place.imp_left fun hfield =>
    ⟨hfield.1, hfield.2.1, hfield.2.2.trans (List.prefix_append _ _)⟩⟩

theorem Begins.keep (h : Begins F r) (quoted dirty : Bool) : Begins F { r with quoted, dirty } :=
  ⟨h.tidy, h.value, h.place⟩

theorem Begins.csvLoop {sep : UInt8} (h : Begins F r) (hF : F ≠ []) : Begins F (csvLoop sep s r) := by
  induction s, r using csvLoop.induct sep with
  | case1 r => exact h
  | case2 r hquoted rest ih =>
    rw [Siberia.csvLoop, if_pos hquoted, if_pos rfl]
    exact ih (h.add [34] r.quoted r.dirty)
  | case3 r hquoted rest hnot ih =>
    rw [Siberia.csvLoop, if_pos hquoted, if_pos rfl]
    · exact ih (h.keep false r.dirty)
    · exact hnot
  | case4 b rest r hquoted hb ih =>
    rw [csvLoop.eq_def]
    dsimp only
    rw [if_pos hquoted, if_neg hb]
    exact ih (h.add [b] r.quoted r.dirty)
  | case5 rest r hquoted ih =>
    rw [csvLoop.eq_def]
    dsimp only
    rw [if_neg hquoted, if_pos rfl]
    exact ih (h.keep true true)
  | case6 b rest r hquoted hb hend ih =>
    rw [csvLoop.eq_def]
    dsimp only
    rw [if_neg hquoted, if_neg hb, if_pos hend]
    exact ih (h.next hF _)
  | case7 b rest r hquoted hb hend hreturn ih =>
    rw [csvLoop.eq_def]
    dsimp only
    rw [if_neg hquoted, if_neg hb, if_neg hend, if_pos hreturn]
    exact ih (h.add [b] r.quoted true)
  | case8 b rest r hquoted hb hend hreturn ih =>
    rw [csvLoop.eq_def]
    dsimp only
    rw [if_neg hquoted, if_neg hb, if_neg hend, if_neg hreturn]
    exact ih h

end

section

variable {math : Mathematics} {limit : Nat} {g before h : Grid}

/-- A sheet of constants, none a real number, where no mark of an earlier sheet hides a value. -/
structure Constants (g : Grid) : Prop where
  plain : ∀ index, isFormula (g.text index) = false
  shown : ∀ index, g.shown index = heldValue (g.text index)
  noReal : ∀ index x, heldValue (g.text index) ≠ .number (.real x)

/-- The mark of a cell of an old row, below the sheet that was there, is of generation `gen`. -/
def Stale (before : Grid) (gen index : Nat) : Prop :=
  before.written (index / sbCols) = true ∧ before.maxrow < (index / sbCols : Nat) ∧
    (before.cells (.cell index)).gen = gen

def filledCells (g : Grid) : Nat := ((usedCells g).filter fun index => g.text index ≠ []).length

/-- When the text of a sheet, loaded into the rows of `before`, gives the sheet again. -/
structure RoundTrips (g before : Grid) : Prop where
  cells : ∀ index, Survives (heldValue (g.text index))
  separator : 1 ≤ g.maxcol → ¬Misleading (csvText (heldValue (g.text 0)))
  marks : ∀ index, g.text index ≠ [] → ¬Stale before (1 + filledCells g) index

def SameCell (g loaded : Grid) (index : Nat) : Prop :=
  isFormula (loaded.text index) = false ∧ loaded.shown index = g.shown index

theorem readIndex_eq (hg : Constants g) (index : Nat) :
    readIndex g index = readBack (csvText (heldValue (g.text index))) := by
  rw [readIndex, hg.shown]

theorem readIndex_empty (hg : Constants g) {index : Nat} (h : g.text index = []) : readIndex g index = [] := by
  rw [readIndex_eq hg, h]
  rfl

theorem reset_found (hbefore : Tidy before) (index : Nat) :
    (before.sbsheetreset.found index).text = [] ∧ (before.sbsheetreset.found index).value = .null := by
  have hreset := hbefore.reset
  unfold Grid.found Grid.sbCell
  split_ifs with hwritten
  · refine hreset.below index hwritten ?_
    exact lt_of_lt_of_le (by decide : (-1 : Int) < 0) (Int.natCast_nonneg _)
  · exact hreset.blank

theorem Filled.shown {l : List Nat} (hbefore : Tidy before) (hfilled : Filled g before.sbsheetreset l h)
    (index : Nat) [Decidable (Stale before h.gen index)] :
    h.shown index = if Stale before h.gen index then .null else heldValue (h.text index) := by
  have hgen := h.gen_pos
  obtain ⟨-, hnull⟩ := reset_found hbefore index
  have hwritten : before.sbsheetreset.written (index / sbCols) = true ↔
      before.written (index / sbCols) = true ∧ before.maxrow < (index / sbCols : Nat) := by
    rw [Grid.sbsheetreset, Bool.and_eq_true, decide_eq_true_eq]
  unfold Grid.shown
  by_cases hold : before.sbsheetreset.written (index / sbCols) = true
  · obtain ⟨-, hvalue, hmark⟩ := hfilled.old index hold
    have hcell : before.sbsheetreset.found index = before.cells (.cell index) := by
      rw [Grid.found, Grid.sbCell, if_pos hold]
      rfl
    rw [hvalue, hmark, hnull, hcell]
    refine if_congr ?_ rfl rfl
    rw [Stale, ← and_assoc, ← hwritten]
    exact ⟨fun hgen => ⟨hold, hgen⟩, And.right⟩
  · rw [if_neg fun hstale : Stale before h.gen index => hold (hwritten.mpr ⟨hstale.1, hstale.2.1⟩)]
    by_cases hnew : h.written (index / sbCols) = true
    · obtain ⟨-, hmark⟩ := hfilled.new index (Bool.eq_false_of_not_eq_true hold) hnew
      exact if_neg fun heq => by rw [hmark] at heq; omega
    · have hplace : h.sbCell index = .blank := if_neg hnew
      have hblank := hfilled.tidy.blank
      rw [Grid.text, Grid.found, hplace, hblank.1, hblank.2]
      exact ite_self _

/-- Where the separator is guessed right, a sheet comes back if its values survive and no old mark
is in the way. -/
theorem filled_sameCell_iff (hg : Constants g) (htidy : Tidy g) (hbefore : Tidy before)
    (hfilled : Filled g before.sbsheetreset (usedCells g) h) :
    (∀ index, SameCell g h index) ↔ (∀ index, Survives (heldValue (g.text index))) ∧
      ∀ index, g.text index ≠ [] → ¬Stale before (1 + filledCells g) index := by
  classical
  have htext (index : Nat) : h.text index = readIndex g index := by
    rw [hfilled.text, Grid.text, (reset_found hbefore index).1]
    split_ifs with hin
    · rfl
    · by_contra hne
      refine hin ⟨(mem_usedCells htidy).mpr (htidy.used index fun hempty => ?_), Ne.symm hne⟩
      exact hne (readIndex_empty hg hempty).symm
  have hnull (index : Nat) : heldValue (g.text index) = .null ↔ g.text index = [] :=
    ⟨heldValue_null, fun hempty => by rw [hempty]; rfl⟩
  have hgen (hsurvives : ∀ index, Survives (heldValue (g.text index))) : h.gen = 1 + filledCells g := by
    rw [hfilled.gen, filledCells]
    congr 2
    refine List.filter_congr fun index _ => decide_eq_decide.mpr (not_congr ?_)
    constructor
    · intro hempty
      have hheld := ((survives_iff (hg.plain index) (hg.noReal index)).mpr (hsurvives index)).2
      rw [← readIndex_eq hg, hempty, heldValue_nil] at hheld
      exact (hnull index).mp hheld.symm
    · exact readIndex_empty hg
  have hshown (index : Nat) : h.shown index =
      if Stale before h.gen index then .null else heldValue (readIndex g index) := by
    rw [hfilled.shown hbefore, htext]
  constructor
  · intro hsame
    have hkept (index : Nat) (hne : g.text index ≠ []) :
        ¬Stale before h.gen index ∧ heldValue (readIndex g index) = heldValue (g.text index) := by
      have hvalue := (hsame index).2
      rw [hshown, hg.shown] at hvalue
      split_ifs at hvalue with hstale
      · exact absurd ((hnull index).mp hvalue.symm) hne
      · exact ⟨hstale, hvalue⟩
    have hsurvives (index : Nat) : Survives (heldValue (g.text index)) := by
      by_cases hempty : g.text index = []
      · rw [hempty]
        trivial
      · rw [← survives_iff (hg.plain index) (hg.noReal index), ← readIndex_eq hg]
        exact ⟨htext index ▸ (hsame index).1, (hkept index hempty).2⟩
    exact ⟨hsurvives, fun index hne => hgen hsurvives ▸ (hkept index hne).1⟩
  · rintro ⟨hsurvives, hmarks⟩ index
    obtain ⟨hformula, hheld⟩ := (survives_iff (hg.plain index) (hg.noReal index)).mpr (hsurvives index)
    rw [← readIndex_eq hg] at hformula hheld
    refine ⟨by rwa [htext], ?_⟩
    rw [hshown, hg.shown, hheld, hgen hsurvives]
    split_ifs with hstale
    · by_contra hne
      exact hmarks index (fun hempty => hne ((hnull index).mpr hempty).symm) hstale
    · rfl

theorem linesOf_head (hrow : 0 ≤ g.maxrow) (hcol : 1 ≤ g.maxcol) :
    ∃ rest, linesOf g = sbCsvField (csvText (g.shown 0)) ++ 44 :: rest := by
  obtain ⟨m, hm⟩ : ∃ m, (g.maxcol + 1).toNat = m + 1 + 1 := ⟨(g.maxcol - 1).toNat, by omega⟩
  obtain ⟨n, hn⟩ : ∃ n, (g.maxrow + 1).toNat = n + 1 := ⟨g.maxrow.toNat, by omega⟩
  have hline : lineOf g 0 = fieldOf g 0 0 ++ 44 :: (fieldOf g 0 1 ++ furtherFields g 0 2 m) := by
    rw [lineOf_succ hm]
    rfl
  have hlines : linesOf g = lineOf g 0 ++ ([10] ++ (List.range' 1 n).flatMap fun row => lineOf g row ++ [10]) := by
    rw [linesOf, hn, List.range_eq_range', List.range'_succ, List.flatMap_cons, List.append_assoc]
  refine ⟨fieldOf g 0 1 ++ furtherFields g 0 2 m ++
    ([10] ++ (List.range' 1 n).flatMap fun row => lineOf g row ++ [10]), ?_⟩
  rw [hlines, hline, List.append_assoc, List.cons_append]
  rfl

theorem misled_first (hbefore : Tidy before) (hrow : 0 ≤ g.maxrow) (hcol : 1 ≤ g.maxcol)
    (hmisleading : Misleading (csvText (g.shown 0))) :
    Tidy (sbsheetload before (linesOf g)) ∧ ((sbsheetload before (linesOf g)).found 0).value = .null ∧
      csvText (g.shown 0) ++ [44] <+: (sbsheetload before (linesOf g)).text 0 := by
  generalize hs : csvText (g.shown 0) = s at hmisleading ⊢
  obtain ⟨rest, hlines⟩ := linesOf_head hrow hcol
  rw [hs] at hlines
  have hF : s ++ [44] ≠ [] := by simp
  have hneeds : needsQuotes s = true := needsQuotes_iff.mpr (.inr (.inr (.inl hmisleading.1)))
  have hback : readBack s = s := if_pos hneeds
  obtain ⟨dirty, hfield⟩ := @csvLoop_field 59 44 s rest 0 0 false before.sbsheetreset (.inr rfl) (by decide)
  obtain ⟨dirty', hcomma⟩ := @csvLoop_byte 59 44 rest s 0 0 dirty before.sbsheetreset (by decide) (by decide)
  rw [hback, hcomma] at hfield
  have hbegins : Begins (s ++ [44]) (csvLoop 59 (linesOf g) ⟨0, 0, [], false, false, before.sbsheetreset⟩) := by
    rw [hlines, hfield]
    refine Begins.csvLoop ⟨hbefore.reset, (reset_found hbefore 0).2, .inl ⟨rfl, rfl, ?_⟩⟩ hF
    exact List.prefix_refl _
  unfold sbsheetload sbLoadCsv
  rw [hlines, separator_field.mpr hmisleading, ← hlines]
  generalize csvLoop 59 (linesOf g) ⟨0, 0, [], false, false, before.sbsheetreset⟩ = r at hbegins ⊢
  obtain ⟨htidy, hvalue, hplace⟩ := hbegins
  dsimp only
  split_ifs with hlast
  · refine ⟨htidy.set (by simp only [sbRows, sbCols] at hlast ⊢; omega), found_value_set hvalue, ?_⟩
    rw [Grid.text_sbSetIndex htidy]
    obtain ⟨hrow0, hcol0, hfirst⟩ | ⟨hbehind, hfirst⟩ := hplace
    · rw [if_pos (by rw [hrow0, hcol0]; decide)]
      exact hfirst
    · rw [if_neg (by simp only [sbCols]; omega)]
      exact hfirst
  · refine ⟨htidy, hvalue, ?_⟩
    obtain ⟨hrow0, hcol0, hfirst⟩ | ⟨hbehind, hfirst⟩ := hplace
    · have hne : r.field ≠ [] := fun hnil => hF (List.prefix_nil.mp (hnil ▸ hfirst))
      exact absurd ⟨.inr hne, by rw [hrow0]; decide, by rw [hcol0]; decide⟩ hlast
    · exact hfirst

theorem misled_changes (hg : Constants g) (htidy : Tidy g) (hbefore : Tidy before) (hcol : 1 ≤ g.maxcol)
    (hmisleading : Misleading (csvText (heldValue (g.text 0)))) :
    ¬SameCell g (sbsheetload before (linesOf g)) 0 := by
  rintro ⟨-, hvalue⟩
  rw [← hg.shown] at hmisleading
  have hne : g.text 0 ≠ [] := by
    intro hempty
    rw [hg.shown, hempty] at hmisleading
    cases hmisleading.1
  have hrow : 0 ≤ g.maxrow := by
    have hused := (htidy.used 0 hne).1
    simpa using hused
  obtain ⟨-, hnull, hfirst⟩ := misled_first hbefore hrow hcol hmisleading
  rw [hg.shown] at hvalue hmisleading hfirst
  obtain ⟨hempty, -⟩ | ⟨-, htext⟩ | ⟨n, -, hnumber, hread⟩ := heldValue_cases (g.text 0)
  · exact hne hempty
  · have hloaded : (sbsheetload before (linesOf g)).text 0 = g.text 0 := by
      rw [htext, Grid.shown, hnull] at hvalue
      split_ifs at hvalue
      exact heldValue_text hvalue
    rw [htext, hloaded] at hfirst
    obtain ⟨-, hshown⟩ | ⟨name, hname, hshown⟩ := csvText_text (g.text 0)
    · have hle := hfirst.length_le
      rw [hshown, List.length_append, List.length_singleton] at hle
      omega
    · rw [hshown, hname] at hfirst
      have heq := hfirst.eq_of_length (by simp)
      have hcount := congrArg (List.count 44) heq
      rw [List.count_append, List.count_cons] at hcount
      simp at hcount
  · cases n with
    | real x => exact hg.noReal 0 x hnumber
    | integer n =>
      have hbytes := (strFromInt_reads (strToNumber_integer hread)).1
      rw [hnumber] at hmisleading
      have hline := List.all_eq_true.mp hbytes 10 hmisleading.1
      exact absurd hline (by decide)

/-- A loaded cell has the value of the cell of the sheet, as `sb_value` has it. -/
def SameValue (math : Mathematics) (limit : Nat) (g loaded : Grid) (index : Nat) : Prop :=
  isFormula (loaded.text index) = false ∧
    (loaded.sbValue math limit index).1 = (g.sbValue math limit index).1

theorem sameValue_iff (hlimit : 2 ≤ limit) (hg : Constants g) (htidy : Tidy g) (hh : Tidy h) {index : Nat} :
    SameValue math limit g h index ↔ SameCell g h index := by
  obtain ⟨g', hvalue, -⟩ := @sbValue_shown math limit index g hlimit htidy (hg.plain index)
  unfold SameValue SameCell
  refine and_congr_right fun hformula => ?_
  obtain ⟨h', hloaded, -⟩ := @sbValue_shown math limit index h hlimit hh hformula
  rw [hvalue, hloaded, Option.some.injEq]

/-- Exactly the sheets that `RoundTrips` describes come back from their text with the value of
every cell. -/
theorem csv_round_trip_iff (hlimit : 2 ≤ limit) (hg : Reachable math limit g) (hconstants : Constants g)
    (hbefore : Reachable math limit before) :
    ∃ text after, sbsheetcsv math limit g = some (text, after) ∧
      ((∀ index, SameValue math limit g (sbsheetload before text) index) ↔ RoundTrips g before) := by
  have htidy := reachable_tidy hg
  have hold := reachable_tidy hbefore
  obtain ⟨after, hwritten, -⟩ := sbsheetcsv_spec math hlimit htidy hconstants.plain
  refine ⟨linesOf g, after, hwritten, ?_⟩
  by_cases hmisled : 1 ≤ g.maxcol ∧ Misleading (csvText (heldValue (g.text 0)))
  · obtain ⟨hcol, hmisleading⟩ := hmisled
    have hne : g.text 0 ≠ [] := by
      intro hempty
      rw [hempty] at hmisleading
      cases hmisleading.1
    have hloaded : Tidy (sbsheetload before (linesOf g)) := by
      have hrow := (htidy.used 0 hne).1
      exact (misled_first hold (by simpa using hrow) hcol (by rwa [hconstants.shown])).1
    constructor
    · intro hsame
      exact absurd ((sameValue_iff hlimit hconstants htidy hloaded).mp (hsame 0))
        (misled_changes hconstants htidy hold hcol hmisleading)
    · exact fun h => absurd hmisleading (h.separator hcol)
  · have hguess : separator (linesOf g) = 44 ∨ g.maxcol ≤ 0 := by
      by_cases hcol : 1 ≤ g.maxcol
      · left
        by_cases hrow : 0 ≤ g.maxrow
        · obtain ⟨rest, hlines⟩ := linesOf_head hrow hcol
          have hnot : separator (linesOf g) ≠ 59 := by
            rw [hlines, hconstants.shown, Ne, separator_field]
            exact fun h => hmisled ⟨hcol, h⟩
          rw [separator_eq] at hnot ⊢
          split_ifs at hnot ⊢
          · exact absurd rfl hnot
          · rfl
        · have hnone : linesOf g = [] := by
            rw [linesOf, show (g.maxrow + 1).toNat = 0 by omega]
            rfl
          rw [hnone]
          rfl
      · exact .inr (by omega)
    have hfilled : Filled g before.sbsheetreset (usedCells g) (sbsheetload before (linesOf g)) := by
      rw [sbsheetload, sbLoadCsv_lines hguess, putRow_fold htidy]
      refine filled_foldl hold.reset fun index hindex => ?_
      have hused := (mem_usedCells htidy).mp hindex
      have hrows := htidy.rows
      have hrow : index / sbCols < sbRows := by omega
      rw [Nat.mul_comm]
      exact (Nat.div_lt_iff_lt_mul (by decide)).mp hrow |>.trans_eq (Nat.mul_comm _ _)
    have hiff := filled_sameCell_iff hconstants htidy hold hfilled
    rw [forall_congr' fun index => sameValue_iff hlimit hconstants htidy hfilled.tidy, hiff]
    constructor
    · exact fun h => ⟨h.1, fun hcol hmisleading => hmisled ⟨hcol, hmisleading⟩, h.2⟩
    · exact fun h => ⟨h.cells, h.marks⟩

end

def oneCell (text : Text) : Grid := Grid.start.sbSetIndex 0 text

theorem oneCell_reachable (math : Mathematics) (limit : Nat) (text : Text) : Reachable math limit (oneCell text) :=
  .set text .start (by decide)

/-- Cells that were set and not shown since have no marks. -/
def Unmarked (g : Grid) : Prop := ∀ index, (g.found index).gen = 0

theorem start_constants : Constants .start ∧ Unmarked .start :=
  ⟨⟨fun _ => rfl, fun _ => rfl, fun _ _ heq => by cases heq⟩, fun _ => rfl⟩

theorem set_constants {g : Grid} (index : Nat) (text : Text) (htidy : Tidy g) (hg : Constants g ∧ Unmarked g)
    (hplain : isFormula text = false) (hreal : ∀ x, heldValue text ≠ .number (.real x)) :
    Constants (g.sbSetIndex index text) ∧ Unmarked (g.sbSetIndex index text) := by
  have htext (other : Nat) : (g.sbSetIndex index text).text other = if other = index then text else g.text other :=
    Grid.text_sbSetIndex htidy
  have hmarks : Unmarked (g.sbSetIndex index text) := fun other => by
    rw [Grid.found_sbSetIndex, Grid.kept]
    split_ifs <;> first | rfl | exact hg.2 other
  refine ⟨⟨fun other => ?_, fun other => ?_, fun other x => ?_⟩, hmarks⟩
  · rw [htext]
    split_ifs
    · exact hplain
    · exact hg.1.plain other
  · have hpos := (g.sbSetIndex index text).gen_pos
    refine if_neg fun heq => ?_
    rw [hmarks other] at heq
    exact absurd heq (by omega)
  · rw [htext]
    split_ifs
    · exact hreal x
    · exact hg.1.noReal other x

theorem oneCell_constants {text : Text} (hplain : isFormula text = false)
    (hreal : ∀ x, heldValue text ≠ .number (.real x)) : Constants (oneCell text) :=
  (set_constants 0 text tidy_start start_constants hplain hreal).1

/-- Two rows of two columns: `id` and `a;b`, `42` and `say "no"`. -/
def smallSheet : Grid :=
  (((Grid.start.sbSetIndex 0 (ascii "id")).sbSetIndex 1 (ascii "a;b")).sbSetIndex sbCols (ascii "42")).sbSetIndex (sbCols + 1)
    (ascii "say \"no\"")

theorem csv_round_trip_rows : ∃ text after,
    sbsheetcsv noMathematics 2 smallSheet = some (text, after) ∧
      ((∀ index, SameValue noMathematics 2 smallSheet (sbsheetload .start text) index) ↔ RoundTrips smallSheet .start) := by
  have hid : heldValue (ascii "id") = .text (ascii "id") := by decide +kernel
  have hpair : heldValue (ascii "a;b") = .text (ascii "a;b") := by decide +kernel
  have hnumber : heldValue (ascii "42") = .number (.integer 42) := by decide +kernel
  have hquoted : heldValue (ascii "say \"no\"") = .text (ascii "say \"no\"") := by decide +kernel
  have h₁ : Reachable noMathematics 2 (Grid.start.sbSetIndex 0 (ascii "id")) := .set _ .start (by decide)
  have h₂ : Reachable noMathematics 2 ((Grid.start.sbSetIndex 0 (ascii "id")).sbSetIndex 1 (ascii "a;b")) :=
    h₁.set _ (by decide)
  have h₃ := h₂.set (ascii "42") (show sbCols < sbRows * sbCols by decide)
  have h₄ := h₃.set (ascii "say \"no\"") (show sbCols + 1 < sbRows * sbCols by decide)
  have hset := set_constants 0 (ascii "id") tidy_start start_constants rfl (by simp [hid])
  have hset := set_constants 1 (ascii "a;b") (reachable_tidy h₁) hset rfl (by simp [hpair])
  have hset := set_constants sbCols (ascii "42") (reachable_tidy h₂) hset rfl (by simp [hnumber])
  have hset := set_constants (sbCols + 1) (ascii "say \"no\"") (reachable_tidy h₃) hset rfl (by simp [hquoted])
  exact csv_round_trip_iff (le_refl 2) h₄ hset.1 .start

/-- A carriage return in a text is not quoted, and is left out when the text is read. -/
theorem csv_loses_return : ¬∀ (math : Mathematics) (limit : Nat) (g before : Grid), 2 ≤ limit →
    Reachable math limit g → Constants g → Reachable math limit before →
      ∃ text after, sbsheetcsv math limit g = some (text, after) ∧
        ∀ index, SameValue math limit g (sbsheetload before text) index := by
  intro hclaim
  have hheld : heldValue (ascii "a\rb") = .text (ascii "a\rb") := by decide +kernel
  obtain ⟨text, after, hwritten, hsame⟩ := hclaim noMathematics 2 (oneCell (ascii "a\rb")) .start (le_refl 2)
    (oneCell_reachable _ _ _) (oneCell_constants rfl fun x heq => by rw [hheld] at heq; cases heq) .start
  have hread : ((sbsheetcsv noMathematics 2 (oneCell (ascii "a\rb"))).map fun written =>
      ((sbsheetload .start written.1).sbValue noMathematics 2 0).1) = some (some (.text (ascii "ab"))) := by
    decide +kernel
  have hshown : ((oneCell (ascii "a\rb")).sbValue noMathematics 2 0).1 = some (.text (ascii "a\rb")) := by
    decide +kernel
  rw [hwritten, Option.map_some, (hsame 0).2, hshown] at hread
  exact absurd hread (by decide)

end Ussr.Siberia
