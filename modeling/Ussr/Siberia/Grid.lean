import Ussr.Siberia.Sheet

/-! The rows of the program, which stay when another sheet is loaded: the cells with their marks,
and the part of the grid in use. Rows below that part keep their cells over a reset, while the
generations begin again. -/

namespace Ussr.Siberia
open Real64 Memo
open Stalin (Text strTrim)

structure Grid where
  /-- The rows that have cells. -/
  written : Nat → Bool
  cells : Place → SbCell
  gen : Nat
  maxrow : Int
  maxcol : Int
  gen_pos : 0 < gen

namespace Grid

/-- `sbstate` with the rows of the first `sbsheetreset`. -/
def start : Grid where
  written := fun _ => false
  cells := fun _ => ⟨[], .null, 0⟩
  gen := 1
  maxrow := -1
  maxcol := -1
  gen_pos := Nat.one_pos

def sbCell (g : Grid) (index : Nat) : Place :=
  if g.written (index / sbCols) then .cell index else .blank

def found (g : Grid) (index : Nat) : SbCell := g.cells (g.sbCell index)

def text (g : Grid) (index : Nat) : Text := (g.found index).text

/-- `sb_cell_for_write`: a row without cells gets new ones. -/
def sbCellForWrite (g : Grid) (index : Nat) : Place → SbCell
  | .blank => g.cells .blank
  | .cell i =>
    if i / sbCols = index / sbCols ∧ g.written (index / sbCols) = false then ⟨[], .null, 0⟩
    else g.cells (.cell i)

def sbSetIndex (g : Grid) (index : Nat) (text : Text) : Grid where
  written := Function.update g.written (index / sbCols) true
  cells := Function.update (g.sbCellForWrite index) (.cell index)
    { g.sbCellForWrite index (.cell index) with text }
  gen := g.gen + 1
  maxrow := if text ≠ [] then max g.maxrow (index / sbCols : Nat) else g.maxrow
  maxcol := if text ≠ [] then max g.maxcol (index % sbCols : Nat) else g.maxcol
  gen_pos := Nat.succ_pos _

/-- `sbsheetreset` of rows that are there: those in use lose their cells. -/
def sbsheetreset (g : Grid) : Grid where
  written := fun row => g.written row && decide (g.maxrow < row)
  cells := g.cells
  gen := 1
  maxrow := -1
  maxcol := -1
  gen_pos := Nat.one_pos

def mark (g : Grid) (place : Place) (value : Value) (gen : Int) : Grid :=
  { g with cells := Function.update g.cells place { g.cells place with value, gen } }

theorem mark_cells (g : Grid) (place other : Place) (value : Value) (gen : Int) :
    (g.mark place value gen).cells other =
      if other = place then ⟨(g.cells place).text, value, gen⟩ else g.cells other :=
  Function.update_apply ..

end Grid

/-- What `sb_value` reads and writes of a cell. -/
def gridMarks : Store Grid Place Value where
  look g place :=
    let c := g.cells place
    if c.gen = g.gen then .known c.value else if c.gen = -g.gen then .busy else .unknown
  start g place := g.mark place (g.cells place).value (-g.gen)
  finish g place v := g.mark place v g.gen

namespace Grid

variable (math : Mathematics) (limit : Nat)

def computeAt (g : Grid) (place : Place) : Calc Place Value Value :=
  (sbCompute math limit 1 (g.cells place).text).mapKey g.sbCell

/-- `sb_value`, with `limit` frames for the calls. -/
def sbValue (g : Grid) (index : Nat) : Option Value × Grid :=
  lookup gridMarks limit (sbErr "#CYCLE!") (g.computeAt math limit) (limit + 1) (g.sbCell index) 0 g

end Grid

/-- The grids of a program: cells are given texts and are shown, and the rows are reset for another
sheet. -/
inductive Reachable (math : Mathematics) (limit : Nat) : Grid → Prop
  | start : Reachable math limit .start
  | set {g : Grid} {index : Nat} (text : Text) : Reachable math limit g → index < sbRows * sbCols →
      Reachable math limit (g.sbSetIndex index text)
  | value {g g' : Grid} {index : Nat} {v : Value} : Reachable math limit g →
      g.sbValue math limit index = (some v, g') → Reachable math limit g'
  | reset {g : Grid} : Reachable math limit g → Reachable math limit g.sbsheetreset

section

def isFormula : Text → Bool
  | 61 :: _ :: _ => true
  | _ => false

def heldValue (text : Text) : Value :=
  if text = [] then .null
  else
    match if strTrim text = [] then none else strToNumber (strTrim text) with
    | some n => .number n
    | none => .text text

variable {math : Mathematics} {limit k : Nat} {text : Text}

theorem sbCompute_held (h : isFormula text = false) :
    sbCompute math limit k text = .frame k (.done (heldValue text)) := by
  unfold sbCompute heldValue
  congr 1
  split
  · rfl
  · cases h
  · rename_i hnil _
    rw [if_neg hnil]
    split <;> rename_i hread <;> simp only [hread]

theorem heldValue_text {s : Text} (h : heldValue text = .text s) : text = s := by
  unfold heldValue at h
  by_cases hnil : text = []
  · rw [if_pos hnil] at h
    cases h
  · rw [if_neg hnil] at h
    split at h
    · cases h
    · exact Value.text.inj h

theorem heldValue_null (h : heldValue text = .null) : text = [] := by
  unfold heldValue at h
  by_contra hne
  rw [if_neg hne] at h
  split at h <;> cases h

@[simp] theorem heldValue_nil : heldValue [] = .null := rfl

end

section

variable {math : Mathematics} {limit : Nat} {s t u : Grid}

structure Evaluated (s t : Grid) : Prop where
  written : t.written = s.written
  gen : t.gen = s.gen
  maxrow : t.maxrow = s.maxrow
  maxcol : t.maxcol = s.maxcol
  text : ∀ place, (t.cells place).text = (s.cells place).text
  empty : ∀ place, (s.cells place).text = [] → (s.cells place).value = .null → (t.cells place).value = .null
  busy : ∀ place, (t.cells place).gen < 0 → (s.cells place).gen < 0

theorem Evaluated.refl (s : Grid) : Evaluated s s :=
  ⟨rfl, rfl, rfl, rfl, fun _ => rfl, fun _ _ hvalue => hvalue, fun _ hbusy => hbusy⟩

theorem Evaluated.trans (h : Evaluated s t) (h' : Evaluated t u) : Evaluated s u where
  written := h'.written.trans h.written
  gen := h'.gen.trans h.gen
  maxrow := h'.maxrow.trans h.maxrow
  maxcol := h'.maxcol.trans h.maxcol
  text := fun place => (h'.text place).trans (h.text place)
  empty := fun place htext hvalue => h'.empty place ((h.text place).trans htext) (h.empty place htext hvalue)
  busy := fun place hbusy => h.busy place (h'.busy place hbusy)

theorem Evaluated.sbCell (h : Evaluated s t) : t.sbCell = s.sbCell := by
  funext index
  unfold Grid.sbCell
  rw [h.written]

theorem Evaluated.text_eq (h : Evaluated s t) (index : Nat) : t.text index = s.text index := by
  unfold Grid.text Grid.found
  rw [h.sbCell, h.text]

theorem Evaluated.finish {place : Place} {v : Value} (h : Evaluated (gridMarks.start s place) u)
    (hv : (s.cells place).text = [] → v = .null) : Evaluated s (gridMarks.finish u place v) where
  written := h.written
  gen := h.gen
  maxrow := h.maxrow
  maxcol := h.maxcol
  text := fun other => by
    have htext := h.text other
    simp only [gridMarks, Grid.mark_cells] at htext ⊢
    split_ifs at htext ⊢ with hother
    · rw [← hother, htext, hother]
    · exact htext
  empty := fun other htext hvalue => by
    have hempty := h.empty other
    simp only [gridMarks, Grid.mark_cells] at hempty ⊢
    split_ifs at hempty ⊢ with hother
    · exact hv (hother ▸ htext)
    · exact hempty htext hvalue
  busy := fun other hbusy => by
    have hold := h.busy other
    simp only [gridMarks, Grid.mark_cells] at hold hbusy
    split_ifs at hold hbusy with hother
    · have hpos := u.gen_pos
      dsimp only at hbusy
      omega
    · exact hold hbusy

theorem empty_exec {f : Place → Nat → Grid → Option Value × Grid} {d : Nat} {v : Value}
    (h : ((sbCompute math limit 1 []).mapKey s.sbCell).exec limit f d t = (some v, u)) : v = .null := by
  rw [sbCompute_held (by rfl), Calc.mapKey, Calc.mapKey, Calc.exec] at h
  split_ifs at h
  · cases h
  · have hvalue : (some Value.null, t) = (some v, u) := h
    cases hvalue
    rfl

theorem evaluated_sbValue {index : Nat} {v : Value} (h : s.sbValue math limit index = (some v, t)) :
    Evaluated s t := by
  have hrelates : (∀ place, (s.cells place).text = (s.cells place).text) → Evaluated s t := by
    refine lookup_relates
      (R := fun x y : Grid => (∀ place, (x.cells place).text = (s.cells place).text) → Evaluated x y)
      (fun x _ => .refl x) (fun x y z hxy hyz hx => ?_) ?_ _ _ _ _ _ _ h
    · have hfirst := hxy hx
      exact hfirst.trans (hyz fun place => (hfirst.text place).trans (hx place))
    intro f d x y place w hexec hrun hx
    refine (hrun fun other => ?_).finish fun hempty => ?_
    · rw [← hx other]
      simp only [gridMarks, Grid.mark_cells]
      split_ifs with hother
      · rw [hother]
      · rfl
    · rw [Grid.computeAt, ← hx place, hempty] at hexec
      exact empty_exec hexec
  exact hrelates fun _ => rfl

end

section

variable {math : Mathematics} {limit : Nat} {g g' : Grid}

structure Tidy (g : Grid) : Prop where
  rows : -1 ≤ g.maxrow ∧ g.maxrow < sbRows
  cols : -1 ≤ g.maxcol ∧ g.maxcol < sbCols
  used : ∀ index, g.text index ≠ [] → (index / sbCols : Nat) ≤ g.maxrow ∧ (index % sbCols : Nat) ≤ g.maxcol
  blank : (g.cells .blank).text = [] ∧ (g.cells .blank).value = .null
  below : ∀ index, g.written (index / sbCols) = true → g.maxrow < (index / sbCols : Nat) →
    (g.cells (.cell index)).text = [] ∧ (g.cells (.cell index)).value = .null
  known : ∀ place, 0 ≤ (g.cells place).gen

theorem tidy_start : Tidy .start where
  rows := by decide
  cols := by decide
  used := fun index htext => absurd rfl htext
  blank := ⟨rfl, rfl⟩
  below := fun index hwritten => by cases hwritten
  known := fun place => le_refl _

theorem Tidy.evaluated (h : Tidy g) (he : Evaluated g g') : Tidy g' where
  rows := by rw [he.maxrow]; exact h.rows
  cols := by rw [he.maxcol]; exact h.cols
  used := fun index htext => by
    rw [he.maxrow, he.maxcol]
    exact h.used index (by rwa [← he.text_eq])
  blank := ⟨(he.text _).trans h.blank.1, he.empty _ h.blank.1 h.blank.2⟩
  below := fun index hwritten hrow => by
    rw [he.written] at hwritten
    rw [he.maxrow] at hrow
    obtain ⟨htext, hvalue⟩ := h.below index hwritten hrow
    exact ⟨(he.text _).trans htext, he.empty _ htext hvalue⟩
  known := fun place => by
    by_contra hbusy
    have hold := he.busy place (by omega)
    have hknown := h.known place
    omega

theorem Tidy.reset (h : Tidy g) : Tidy g.sbsheetreset where
  rows := ⟨le_refl (-1), (by decide : (-1 : Int) < sbRows)⟩
  cols := ⟨le_refl (-1), (by decide : (-1 : Int) < sbCols)⟩
  used := fun index htext => by
    refine absurd ?_ htext
    unfold Grid.text Grid.found Grid.sbCell Grid.sbsheetreset
    split_ifs with hwritten
    · rw [Bool.and_eq_true, decide_eq_true_eq] at hwritten
      exact (h.below index hwritten.1 hwritten.2).1
    · exact h.blank.1
  blank := h.blank
  below := fun index hwritten _ => by
    unfold Grid.sbsheetreset at hwritten
    rw [Bool.and_eq_true, decide_eq_true_eq] at hwritten
    exact h.below index hwritten.1 hwritten.2
  known := h.known

namespace Grid

variable {index other : Nat} {text : Text}

theorem sbCell_sbSetIndex : (g.sbSetIndex index text).sbCell other =
    if other / sbCols = index / sbCols then .cell other else g.sbCell other := by
  unfold sbCell sbSetIndex
  by_cases hrow : other / sbCols = index / sbCols
  · simp only [hrow, Function.update_self, if_true]
  · simp only [Function.update_of_ne hrow, if_neg hrow]

def kept (g : Grid) (index other : Nat) : SbCell :=
  if other / sbCols = index / sbCols ∧ g.written (index / sbCols) = false then ⟨[], .null, 0⟩
  else g.found other

theorem found_sbSetIndex : (g.sbSetIndex index text).found other =
    if other = index then { g.kept index other with text } else g.kept index other := by
  have hcell (hrow : other / sbCols = index / sbCols) :
      g.sbCellForWrite index (.cell other) = g.kept index other := by
    cases hwritten : g.written (index / sbCols) with
    | true => simp [sbCellForWrite, kept, found, sbCell, hrow, hwritten]
    | false => simp [sbCellForWrite, kept, hrow, hwritten]
  rw [found, sbCell_sbSetIndex]
  by_cases hrow : other / sbCols = index / sbCols
  · rw [if_pos hrow]
    by_cases hother : other = index
    · rw [if_pos hother, ← hcell hrow, hother]
      exact Function.update_self ..
    · rw [if_neg hother, ← hcell hrow]
      exact Function.update_of_ne (fun heq => hother (Place.cell.inj heq)) _ _
  · rw [if_neg hrow, if_neg fun heq => hrow (by rw [heq]), kept, if_neg fun hnew => hrow hnew.1, found]
    cases hplace : g.sbCell other with
    | blank =>
      have hupdate : Place.blank ≠ .cell index := fun heq => by cases heq
      exact Function.update_of_ne hupdate { g.sbCellForWrite index (.cell index) with text }
        (g.sbCellForWrite index)
    | cell i =>
      have hi : i = other := by
        unfold sbCell at hplace
        split_ifs at hplace
        exact (Place.cell.inj hplace).symm
      have hupdate : Place.cell i ≠ .cell index := fun heq => hrow (by rw [← Place.cell.inj heq, hi])
      refine (Function.update_of_ne hupdate _ _).trans ?_
      rw [sbCellForWrite, if_neg fun hnew => hrow (hi ▸ hnew.1)]

theorem text_sbSetIndex (h : Tidy g) :
    (g.sbSetIndex index text).text other = if other = index then text else g.text other := by
  unfold Grid.text
  rw [found_sbSetIndex]
  split_ifs with hother
  · rfl
  · unfold kept
    split_ifs with hnew
    · have hplace : g.sbCell other = .blank := by
        rw [sbCell, hnew.1, if_neg (by rw [hnew.2]; decide)]
      rw [found, hplace]
      exact h.blank.1.symm
    · rfl

end Grid

theorem Tidy.set (h : Tidy g) {index : Nat} {text : Text} (hindex : index < sbRows * sbCols) :
    Tidy (g.sbSetIndex index text) := by
  obtain ⟨hrows, hrowsLt⟩ := h.rows
  obtain ⟨hcols, hcolsLt⟩ := h.cols
  have hrow : index / sbCols < sbRows := Nat.div_lt_of_lt_mul (by rwa [Nat.mul_comm])
  have hcol : index % sbCols < sbCols := Nat.mod_lt _ (by decide)
  have hmax : g.maxrow ≤ (g.sbSetIndex index text).maxrow ∧ g.maxcol ≤ (g.sbSetIndex index text).maxcol := by
    unfold Grid.sbSetIndex
    dsimp only
    split_ifs <;> omega
  have hupper : (g.sbSetIndex index text).maxrow < sbRows ∧ (g.sbSetIndex index text).maxcol < sbCols := by
    unfold Grid.sbSetIndex
    dsimp only
    split_ifs <;> omega
  have hown : text ≠ [] → (index / sbCols : Nat) ≤ (g.sbSetIndex index text).maxrow ∧
      (index % sbCols : Nat) ≤ (g.sbSetIndex index text).maxcol := by
    intro htext
    unfold Grid.sbSetIndex
    simp only [if_pos htext]
    omega
  constructor
  case rows => omega
  case cols => omega
  case used =>
    intro other hother
    rw [Grid.text_sbSetIndex h] at hother
    split_ifs at hother with heq
    · exact heq ▸ hown hother
    · have hold := h.used other hother
      omega
  case blank => exact h.blank
  case below =>
    intro other hwritten hbelow
    have hplace : (g.sbSetIndex index text).sbCell other = .cell other := by
      rw [Grid.sbCell, if_pos hwritten]
    have hnull : ((g.kept index other).text = [] ∧ (g.kept index other).value = .null) := by
      unfold Grid.kept
      split_ifs with hnew
      · exact ⟨rfl, rfl⟩
      · rw [Grid.found, Grid.sbCell]
        split_ifs with hold
        · exact h.below other hold (by omega)
        · exact h.blank
    have hfound := @Grid.found_sbSetIndex g index other text
    rw [Grid.found, hplace] at hfound
    rw [hfound]
    split_ifs with heq
    · have hempty : text = [] := by
        by_contra hne
        have hin := hown hne
        rw [heq] at hbelow
        omega
      exact ⟨hempty, hnull.2⟩
    · exact hnull
  case known =>
    have hcells : ∀ place, 0 ≤ (g.sbCellForWrite index place).gen := by
      intro place
      cases place with
      | blank => exact h.known _
      | cell i =>
        rw [Grid.sbCellForWrite]
        split_ifs
        · exact le_refl _
        · exact h.known _
    intro place
    by_cases hplace : place = .cell index
    · have hupdate : (g.sbSetIndex index text).cells (.cell index) =
          { g.sbCellForWrite index (.cell index) with text } := Function.update_self ..
      rw [hplace, hupdate]
      exact hcells (.cell index)
    · have hupdate : (g.sbSetIndex index text).cells place = g.sbCellForWrite index place :=
        Function.update_of_ne hplace _ _
      rw [hupdate]
      exact hcells place

theorem reachable_tidy (h : Reachable math limit g) : Tidy g := by
  induction h with
  | start => exact tidy_start
  | set text _ hindex ih => exact ih.set hindex
  | value _ hvalue ih => exact ih.evaluated (evaluated_sbValue hvalue)
  | reset _ ih => exact ih.reset

end

section

variable {math : Mathematics} {limit index : Nat} {g g' : Grid}

def Grid.shown (g : Grid) (index : Nat) : Value :=
  if (g.found index).gen = g.gen then (g.found index).value else heldValue (g.text index)

theorem sbValue_shown (hlimit : 2 ≤ limit) (htidy : Tidy g) (hplain : isFormula (g.text index) = false) :
    ∃ g', g.sbValue math limit index = (some (g.shown index), g') ∧ Evaluated g g' ∧
      ∀ other, g'.shown other = g.shown other := by
  have hvalue : g.sbValue math limit index = lookup gridMarks limit (sbErr "#CYCLE!") (g.computeAt math limit)
    (limit + 1) (g.sbCell index) 0 g := rfl
  have hexec : (g.computeAt math limit (g.sbCell index)).exec limit
      (lookup gridMarks limit (sbErr "#CYCLE!") (g.computeAt math limit) limit) (0 + 1)
      (gridMarks.start g (g.sbCell index)) =
      (some (heldValue (g.text index)), gridMarks.start g (g.sbCell index)) := by
    have htext : (g.cells (g.sbCell index)).text = g.text index := rfl
    rw [Grid.computeAt, htext, sbCompute_held hplain, Calc.mapKey, Calc.mapKey, Calc.exec, if_neg (by omega)]
    rfl
  have hknown := htidy.known (g.sbCell index)
  have hgen := g.gen_pos
  by_cases hmark : (g.cells (g.sbCell index)).gen = g.gen
  · have hlook : gridMarks.look g (g.sbCell index) = .known (g.cells (g.sbCell index)).value := if_pos hmark
    have hshown : g.shown index = (g.cells (g.sbCell index)).value := if_pos hmark
    rw [lookup, if_neg (by omega), hlook] at hvalue
    exact ⟨g, by rw [hvalue, hshown], .refl g, fun _ => rfl⟩
  · have hlook : gridMarks.look g (g.sbCell index) = .unknown :=
      (if_neg hmark).trans (if_neg (by omega))
    have hshown : g.shown index = heldValue (g.text index) := if_neg hmark
    rw [lookup, if_neg (by omega), hlook] at hvalue
    dsimp only at hvalue
    rw [hexec] at hvalue
    have hcells (place : Place) : (gridMarks.finish (gridMarks.start g (g.sbCell index)) (g.sbCell index)
        (heldValue (g.text index))).cells place =
        if place = g.sbCell index then ⟨g.text index, heldValue (g.text index), g.gen⟩ else g.cells place := by
      simp only [gridMarks, Grid.mark_cells]
      split_ifs <;> rfl
    refine ⟨_, by rw [hvalue, hshown], evaluated_sbValue (hvalue.trans rfl), fun other => ?_⟩
    have hfound := hcells (g.sbCell other)
    unfold Grid.shown
    by_cases hother : g.sbCell other = g.sbCell index
    · have hsame : g.found other = g.found index := by rw [Grid.found, hother, Grid.found]
      have hunmarked : (g.found other).gen ≠ g.gen := by rwa [hsame]
      rw [if_pos hother] at hfound
      have htext : g.text other = g.text index := congrArg SbCell.text hsame
      rw [if_neg hunmarked, htext]
      unfold Grid.found
      exact (if_pos (congrArg SbCell.gen hfound)).trans (congrArg SbCell.value hfound)
    · rw [if_neg hother] at hfound
      unfold Grid.text Grid.found
      exact (congrArg (fun c : SbCell => if c.gen = g.gen then c.value else heldValue c.text) hfound :)

end

end Ussr.Siberia
