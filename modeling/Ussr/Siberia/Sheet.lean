import Ussr.Siberia.Formula

/-! The sheet: the cells, and their values, each computed once per change of the sheet. A
value found is the one that recursion alone gives, where it gives one. -/

namespace Ussr.Siberia
open Real64 Memo
open Stalin (Text)

structure SbCell where
  text : Text
  value : Value
  gen : Int

inductive Place where
  | blank
  | cell (index : Nat)
deriving DecidableEq

structure Sheet where
  /-- The rows that have cells. -/
  written : Nat → Bool
  cells : Place → SbCell
  gen : Nat
  gen_pos : 0 < gen
  gens_le : ∀ place, (cells place).gen.natAbs ≤ gen

namespace Sheet

def empty : Sheet where
  written := fun _ => false
  cells := fun _ => ⟨[], .null, 0⟩
  gen := 1
  gen_pos := by decide
  gens_le := fun _ => by decide

def sbCell (s : Sheet) (index : Nat) : Place :=
  if s.written (index / sbCols) then .cell index else .blank

/-- The text of a cell, as `sbget` has it. -/
def text (s : Sheet) (index : Nat) : Text := (s.cells (s.sbCell index)).text

/-- The cells of the row of `index`, new where the row had none. -/
def cellsForWrite (s : Sheet) (index : Nat) (place : Place) : SbCell :=
  match place with
  | .blank => s.cells .blank
  | .cell i =>
    if i / sbCols = index / sbCols ∧ s.written (index / sbCols) = false then ⟨[], .null, 0⟩
    else s.cells (.cell i)

theorem cellsForWrite_gen (s : Sheet) (index : Nat) (place : Place) :
    (s.cellsForWrite index place).gen.natAbs ≤ s.gen := by
  unfold cellsForWrite
  split
  · exact s.gens_le _
  split
  · exact Nat.zero_le _
  · exact s.gens_le _

/-- The cells after the cell of `index` was given a text. -/
def setCells (s : Sheet) (index : Nat) (text : Text) : Place → SbCell :=
  Function.update (s.cellsForWrite index) (.cell index) { s.cellsForWrite index (.cell index) with text }

theorem setCells_gen (s : Sheet) (index : Nat) (text : Text) (place : Place) :
    (s.setCells index text place).gen.natAbs ≤ s.gen := by
  by_cases hplace : place = .cell index
  · rw [hplace, setCells, Function.update_self]
    exact s.cellsForWrite_gen index (.cell index)
  · rw [setCells, Function.update_of_ne hplace]
    exact s.cellsForWrite_gen index place

def sbSetIndex (s : Sheet) (index : Nat) (text : Text) : Sheet where
  written := Function.update s.written (index / sbCols) true
  cells := s.setCells index text
  gen := s.gen + 1
  gen_pos := Nat.succ_pos _
  gens_le := fun place => Nat.le_succ_of_le (s.setCells_gen index text place)

/-- The sheet after a cell at `place` was given another value and generation. -/
def mark (s : Sheet) (place : Place) (value : Value) (gen : Int) (h : gen.natAbs ≤ s.gen) : Sheet :=
  { s with
    cells := Function.update s.cells place { s.cells place with value, gen }
    gens_le := fun other => by
      by_cases hother : other = place
      · rw [hother, Function.update_self]
        exact h
      · rw [Function.update_of_ne hother]
        exact s.gens_le other }

theorem mark_cells (s : Sheet) (place other : Place) (value : Value) (gen : Int) (h : gen.natAbs ≤ s.gen) :
    (s.mark place value gen h).cells other =
      if other = place then ⟨(s.cells place).text, value, gen⟩ else s.cells other :=
  Function.update_apply ..

end Sheet

section

open Sheet

/-- What `sb_value` reads and writes of a cell: a generation that is the sheet's is that of a
known value, and its negative marks a cell that is being computed. -/
def marks : Store Sheet Place Value where
  look s place :=
    let c := s.cells place
    if c.gen = s.gen then .known c.value else if c.gen = -s.gen then .busy else .unknown
  start s place := s.mark place (s.cells place).value (-s.gen) (by simp)
  finish s place v := s.mark place v s.gen (by simp)

theorem marks_lawful : marks.Lawful where
  look_start := fun s place other => by
    have hgen : (s.mark place (s.cells place).value (-s.gen) (by simp)).gen = s.gen := rfl
    have hpos := s.gen_pos
    simp only [marks, mark_cells, hgen]
    by_cases hother : other = place
    · rw [if_pos hother, if_pos hother]
      have hne : ¬-(s.gen : Int) = s.gen := by omega
      exact (if_neg hne).trans (if_pos rfl)
    · rw [if_neg hother, if_neg hother]
  look_finish := fun s place v other => by
    have hgen : (s.mark place v s.gen (by simp)).gen = s.gen := rfl
    simp only [marks, mark_cells, hgen]
    by_cases hother : other = place
    · rw [if_pos hother, if_pos hother]
      exact if_pos rfl
    · rw [if_neg hother, if_neg hother]

variable (math : Mathematics) (limit : Nat)
variable {s t : Sheet} {name : Text}

def compute (text : Nat → Text) (index : Nat) : Eval Value := sbCompute math limit 1 (text index)

/-- The computation of the cell at a place; the cells that it asks for are found by `sb_cell`. -/
def computeAt (s : Sheet) (place : Place) : Calc Place Value Value :=
  (sbCompute math limit 1 (s.cells place).text).mapKey s.sbCell

/-- `sb_value` of the cell at a place, with `limit` frames for the calls. -/
def sbValue (s : Sheet) (place : Place) : Option Value × Sheet :=
  lookup marks limit (sbErr "#CYCLE!") (computeAt math limit s) (limit + 1) place 0 s

/-- `sbset`; a name that is no cell's is a run-time error. -/
def sbset (s : Sheet) (name text : Text) : Option Sheet :=
  if sbRef name < 0 then none else some (s.sbSetIndex (sbRef name).toNat text)

/-- The place that `sb_cell` finds for an index of `sb_ref`: a negative one is in the first row,
where only the blank cell can be read. -/
def placeOf (s : Sheet) (index : Int) : Option Place :=
  if index < 0 then if s.written 0 then none else some .blank else some (s.sbCell index.toNat)

/-- `sbshow`, with the sheet after it. -/
def sbshow (s : Sheet) (name : Text) : Option (Text × Sheet) :=
  match placeOf s (sbRef name) with
  | none => none
  | some place =>
    match sbValue math limit s place with
    | (some v, t) => some (sbShowValue v, t)
    | (none, _) => none

end

section

inductive Call where
  | set (name text : Text)
  | show (name : Text)

variable (math : Mathematics) (limit : Nat)

/-- The sheet after a call, `none` after a run-time error. -/
def Call.step (s : Sheet) : Call → Option Sheet
  | set name text => sbset s name text
  | .show name => (sbshow math limit s name).map Prod.snd

def runCalls (s : Sheet) (calls : List Call) : Option Sheet := calls.foldlM (Call.step math limit) s

def setAll (s : Sheet) (texts : List (Text × Text)) : Option Sheet :=
  texts.foldlM (fun s (name, text) => sbset s name text) s

/-- The cell can be computed from the texts by recursion alone: no cell that the computation
asks for is asked for again while it is computed, and the frames are enough. -/
def Settled (text : Nat → Text) (index : Nat) : Prop :=
  ∃ n v, value limit (compute math limit text) n index 0 = some v

end

section

variable {math : Mathematics} {limit : Nat}

def Right (math : Mathematics) (limit : Nat) (s : Sheet) : Prop :=
  ∀ n, Good marks limit (computeAt math limit s) n s

def Unshown (s : Sheet) : Prop := ∀ place, (s.cells place).gen.natAbs < s.gen

theorem Unshown.right (h : Unshown s) : Right math limit s := by
  have hlook : ∀ place, marks.look s place = .unknown := by
    intro place
    have hplace := h place
    exact (if_neg (by omega)).trans (if_neg (by omega))
  intro n
  constructor
  · intro place v hknown
    rw [hlook] at hknown
    cases hknown
  · intro place hbusy
    rw [hlook] at hbusy
    cases hbusy

theorem unshown_empty : Unshown .empty := fun _ => Nat.zero_lt_one

theorem unshown_sbSetIndex (s : Sheet) (index : Nat) (text : Text) : Unshown (s.sbSetIndex index text) :=
  fun place => Nat.lt_succ_of_le (s.setCells_gen index text place)

theorem unshown_setAll {texts : List (Text × Text)} (hs : Unshown s)
    (h : setAll s texts = some t) : Unshown t := by
  induction texts generalizing s with
  | nil =>
    cases h
    exact hs
  | cons text texts ih =>
    rw [setAll, List.foldlM_cons, Option.bind_eq_bind, Option.bind_eq_some_iff] at h
    obtain ⟨u, hset, hrest⟩ := h
    refine ih ?_ hrest
    dsimp only [sbset] at hset
    split at hset
    · cases hset
    · cases hset
      exact unshown_sbSetIndex _ _ _

def SameTexts (s t : Sheet) : Prop :=
  t.written = s.written ∧ ∀ place, (t.cells place).text = (s.cells place).text

theorem SameTexts.mark (h : SameTexts s t) (place : Place) (v : Value) (gen : Int)
    (hgen : gen.natAbs ≤ t.gen) : SameTexts s (t.mark place v gen hgen) := by
  refine ⟨h.1, fun other => ?_⟩
  rw [Sheet.mark_cells]
  split
  · rename_i heq
    rw [heq]
    exact h.2 place
  · exact h.2 other

theorem SameTexts.computeAt (h : SameTexts s t) :
    computeAt math limit t = computeAt math limit s := by
  have hcell : t.sbCell = s.sbCell := by
    funext index
    unfold Sheet.sbCell
    rw [h.1]
  funext place
  unfold Siberia.computeAt
  rw [hcell, h.2 place]

theorem SameTexts.text (h : SameTexts s t) (index : Nat) : t.text index = s.text index := by
  unfold Sheet.text Sheet.sbCell
  rw [h.1, h.2]

theorem sameTexts_sbValue (s : Sheet) (place : Place) : SameTexts s (sbValue math limit s place).2 :=
  lookup_keeps (P := SameTexts s) (fun t other ht => ht.mark other _ _ (by simp))
    (fun t other v ht => ht.mark other v _ (by simp)) (limit + 1) place 0 s ⟨rfl, fun _ => rfl⟩

theorem sbshow_cases {shown : Text} (h : sbshow math limit s name = some (shown, t)) :
    ∃ place v, sbValue math limit s place = (some v, t) ∧ shown = sbShowValue v := by
  rw [sbshow] at h
  split at h
  · cases h
  · rename_i place _
    split at h
    · rename_i v u hvalue
      cases h
      exact ⟨place, v, hvalue, rfl⟩
    · cases h

theorem sameTexts_sbshow {shown : Text} (h : sbshow math limit s name = some (shown, t)) :
    SameTexts s t := by
  obtain ⟨place, v, hvalue, -⟩ := sbshow_cases h
  have hsame : SameTexts s (sbValue math limit s place).2 := sameTexts_sbValue s place
  rwa [hvalue] at hsame

theorem right_sbshow {shown : Text} (hs : Right math limit s)
    (h : sbshow math limit s name = some (shown, t)) : Right math limit t := by
  obtain ⟨place, v, hvalue, -⟩ := sbshow_cases h
  intro n
  rw [(sameTexts_sbshow h).computeAt]
  exact (lookup_good marks_lawful _ _ _ _ _ _ hvalue hs).1 n

theorem right_runCalls {calls : List Call} (hs : Right math limit s)
    (h : runCalls math limit s calls = some t) : Right math limit t := by
  induction calls generalizing s with
  | nil =>
    cases h
    exact hs
  | cons call calls ih =>
    rw [runCalls, List.foldlM_cons, Option.bind_eq_bind, Option.bind_eq_some_iff] at h
    obtain ⟨u, hstep, hrest⟩ := h
    refine ih ?_ hrest
    cases call with
    | set name text =>
      rw [Call.step, sbset] at hstep
      split at hstep
      · cases hstep
      · cases hstep
        exact (unshown_sbSetIndex _ _ _).right
    | «show» name =>
      rw [Call.step, Option.map_eq_some_iff] at hstep
      obtain ⟨⟨shown, t⟩, hshow, rfl⟩ := hstep
      exact right_sbshow hs hshow

theorem sbshow_settled {n : Nat} {v : Value} (hs : Right math limit s)
    (hname : 0 ≤ sbRef name)
    (hvalue : value limit (compute math limit s.text) n (sbRef name).toNat 0 = some v) :
    (sbshow math limit s name).map Prod.fst = some (sbShowValue v) := by
  have hplace : value limit (computeAt math limit s) n (s.sbCell (sbRef name).toNat) 0 = some v := by
    rw [← hvalue]
    exact value_mapKey s.sbCell (fun _ => rfl) n _ 0
  have hlookup : (sbValue math limit s (s.sbCell (sbRef name).toNat)).1 = some v :=
    lookup_value marks_lawful hplace hs
  rw [sbshow, placeOf, if_neg (by omega)]
  dsimp only
  split
  · rename_i w t hw
    rw [hw] at hlookup
    cases hlookup
    rfl
  · rename_i t hw
    rw [hw] at hlookup
    cases hlookup

/-- After every run of calls a settled cell shows what it shows on a fresh sheet with the same
texts. -/
theorem sbshow_fresh (calls : List Call) (texts : List (Text × Text)) (s fresh : Sheet) (name : Text)
    (hrun : runCalls math limit .empty calls = some s) (hfresh : setAll .empty texts = some fresh)
    (htext : ∀ index, s.text index = fresh.text index) (hname : 0 ≤ sbRef name)
    (hsettled : Settled math limit s.text (sbRef name).toNat) :
    ∃ shown, (sbshow math limit s name).map Prod.fst = some shown ∧
      (sbshow math limit fresh name).map Prod.fst = some shown := by
  obtain ⟨n, v, hvalue⟩ := hsettled
  have hsame : s.text = fresh.text := funext htext
  refine ⟨sbShowValue v, sbshow_settled (right_runCalls unshown_empty.right hrun) hname hvalue, ?_⟩
  exact sbshow_settled (unshown_setAll unshown_empty hfresh).right hname (hsame ▸ hvalue)

end

theorem runCalls_show {math : Mathematics} {limit : Nat} (texts : List (Text × Text)) (name : Text) :
    runCalls math limit .empty (texts.map (fun (name, text) => .set name text) ++ [.show name]) =
      (setAll .empty texts).bind fun s => Call.step math limit s (.show name) := by
  rw [runCalls, List.foldlM_append, List.foldlM_map, Option.bind_eq_bind]
  simp only [List.foldlM_cons, List.foldlM_nil, Option.bind_eq_bind, Option.pure_def, Option.bind_fun_some]
  rfl

def noMathematics : Mathematics := ⟨fun _ => none, fun _ => none, fun _ _ => none⟩

def sumTexts : List (Text × Text) := [(ascii "A1", ascii "=SUM(B1:B2)+1"), (ascii "B2", ascii "=2*3")]

theorem sbshow_fresh_sum : ∃ s fresh,
    runCalls noMathematics 1000 .empty
      [.set (ascii "A1") (ascii "=SUM(B1:B2)+1"), .set (ascii "B2") (ascii "=2*3"),
        .show (ascii "B2")] = some s ∧
    setAll .empty sumTexts = some fresh ∧
    ∃ shown, (sbshow noMathematics 1000 s (ascii "A1")).map Prod.fst = some shown ∧
      (sbshow noMathematics 1000 fresh (ascii "A1")).map Prod.fst = some shown := by
  obtain ⟨fresh, hfresh⟩ : ∃ fresh, setAll .empty sumTexts = some fresh :=
    Option.isSome_iff_exists.mp (by decide +kernel)
  have hshown : ((setAll .empty sumTexts).bind fun f => sbshow noMathematics 1000 f (ascii "B2")).isSome := by
    decide +kernel
  have hseven : ((setAll .empty sumTexts).bind fun f =>
      value 1000 (compute noMathematics 1000 f.text) 3 0 0) = some (.number (int 7)) := by decide +kernel
  rw [hfresh, Option.bind_some] at hshown hseven
  obtain ⟨⟨shown, s⟩, hshow⟩ := Option.isSome_iff_exists.mp hshown
  have htext : ∀ index, s.text index = fresh.text index := (sameTexts_sbshow hshow).text
  have hrun : runCalls noMathematics 1000 .empty
      [.set (ascii "A1") (ascii "=SUM(B1:B2)+1"), .set (ascii "B2") (ascii "=2*3"),
        .show (ascii "B2")] = some s := by
    refine (runCalls_show sumTexts (ascii "B2")).trans ?_
    rw [hfresh, Option.bind_some, Call.step, hshow, Option.map_some]
  refine ⟨s, fresh, hrun, hfresh, sbshow_fresh _ _ s fresh (ascii "A1") hrun hfresh htext (by decide +kernel) ?_⟩
  rw [funext htext]
  exact ⟨3, _, hseven⟩

def cycleTexts : List (Text × Text) :=
  [(ascii "A1", ascii "=IF(TRUE,1,B1)"), (ascii "B1", ascii "=A1")]

/-- `B1` is not settled: it asks for `A1`, which asks for `B1` in the argument of `IF` that is not
chosen. Shown after `A1` it is an error, which the computation of `A1` left behind; on a fresh sheet
it is 1. -/
theorem sbshow_after_cycle : ∃ s fresh,
    runCalls noMathematics 1000 .empty
      [.set (ascii "A1") (ascii "=IF(TRUE,1,B1)"), .set (ascii "B1") (ascii "=A1"),
        .show (ascii "A1")] = some s ∧
    setAll .empty cycleTexts = some fresh ∧ (∀ index, s.text index = fresh.text index) ∧
    (sbshow noMathematics 1000 s (ascii "B1")).map Prod.fst = some (ascii "#CYCLE!") ∧
    (sbshow noMathematics 1000 fresh (ascii "B1")).map Prod.fst = some (ascii "1") := by
  obtain ⟨fresh, hfresh⟩ : ∃ fresh, setAll .empty cycleTexts = some fresh :=
    Option.isSome_iff_exists.mp (by decide +kernel)
  have hfirst : ((setAll .empty cycleTexts).bind fun f =>
      (sbshow noMathematics 1000 f (ascii "B1")).map Prod.fst) = some (ascii "1") := by decide +kernel
  have hafter : ((setAll .empty cycleTexts).bind fun f =>
      (sbshow noMathematics 1000 f (ascii "A1")).bind fun (_, s) =>
        (sbshow noMathematics 1000 s (ascii "B1")).map Prod.fst) = some (ascii "#CYCLE!") := by
    decide +kernel
  rw [hfresh, Option.bind_some] at hfirst hafter
  obtain ⟨⟨shown, s⟩, hshow, hagain⟩ := Option.bind_eq_some_iff.mp hafter
  refine ⟨s, fresh, ?_, hfresh, (sameTexts_sbshow hshow).text, hagain, hfirst⟩
  refine (runCalls_show cycleTexts (ascii "A1")).trans ?_
  rw [hfresh, Option.bind_some, Call.step, hshow, Option.map_some]

end Ussr.Siberia
