import Mathlib.Data.List.Basic

/-! A text rewritten in one pass: at each position the pass either copies the element,
as part of a run copied in one piece, or puts other elements for the next ones. -/

namespace Ussr.Rewrite

variable {α : Type}

/-- What is put for the next elements, and how many these are; nothing where the element
itself is copied. A position that cannot be read gives `none`. -/
abbrev Step (α : Type) := (i : Nat) → Option (Option (List α × Nat))

def finish (s : List α) (run : Nat) (r : List α) : List α :=
  if run = 0 then s else r ++ s.drop run

def loop (step : Step α) (s : List α) : (turns i run : Nat) → (r : List α) → Option (List α)
  | 0, i, run, r => if i < s.length then none else some (finish s run r)
  | turns + 1, i, run, r =>
    if i < s.length then do
      match ← step i with
      | some (out, skip) =>
        loop step s turns (i + skip) (i + skip) (r ++ (s.drop run).take (i - run) ++ out)
      | none => loop step s turns (i + 1) run r
    else some (finish s run r)

def rewrite (step : Step α) (s : List α) : Option (List α) := loop step s s.length 0 0 []

/-- A step keeps a property of texts when it advances, inside the text, and what it puts or
copies has the property. -/
def Keeps (step : Step α) (s : List α) (P : List α → Prop) : Prop :=
  ∀ i b, s[i]? = some b → (step i = some none ∧ P [b]) ∨
    ∃ out skip, step i = some (some (out, skip)) ∧ 0 < skip ∧ P out

variable {step : Step α} {s : List α} {P : List α → Prop}

theorem take_run_succ {run i : Nat} {b : α} (hrun : run ≤ i) (hb : s[i]? = some b) :
    (s.drop run).take (i + 1 - run) = (s.drop run).take (i - run) ++ [b] := by
  have hindex : (s.drop run)[i - run]? = some b := by
    rw [List.getElem?_drop, show run + (i - run) = i by omega, hb]
  rw [show i + 1 - run = i - run + 1 by omega, List.take_add_one, hindex]
  rfl

theorem finish_eq {i run : Nat} {r : List α} (hend : s.length ≤ i) (hnone : run = 0 → r = []) :
    finish s run r = r ++ (s.drop run).take (i - run) := by
  have hdrop : (s.drop run).take (i - run) = s.drop run := by
    apply List.take_of_length_le
    rw [List.length_drop]
    omega
  rw [hdrop, finish]
  by_cases h : run = 0
  · rw [if_pos h, hnone h, h]
    rfl
  · rw [if_neg h]

theorem finish_keeps {i run : Nat} {r : List α} (happend : ∀ t u, P t → P u → P (t ++ u))
    (hend : s.length ≤ i) (hr : P r) (hcopied : P ((s.drop run).take (i - run))) :
    P (finish s run r) := by
  have hdrop : (s.drop run).take (i - run) = s.drop run := by
    apply List.take_of_length_le
    rw [List.length_drop]
    omega
  rw [hdrop] at hcopied
  unfold finish
  by_cases h : run = 0
  · rw [if_pos h]
    rwa [h] at hcopied
  · rw [if_neg h]
    exact happend _ _ hr hcopied

theorem loop_keeps (hstep : Keeps step s P) (hnil : P []) (happend : ∀ t u, P t → P u → P (t ++ u))
    (turns i run : Nat) (r : List α) (hturns : s.length ≤ i + turns) (hrun : run ≤ i)
    (hr : P r) (hcopied : P ((s.drop run).take (i - run))) :
    ∃ t, loop step s turns i run r = some t ∧ P t := by
  induction turns generalizing i run r with
  | zero =>
    refine ⟨finish s run r, ?_, finish_keeps happend (by omega) hr hcopied⟩
    rw [loop, if_neg (by omega)]
  | succ turns ih =>
    by_cases hi : i < s.length
    · have hb : s[i]? = some (s.get ⟨i, hi⟩) := List.getElem?_eq_getElem hi
      rw [loop, if_pos hi]
      obtain ⟨hcopy, hP⟩ | ⟨out, skip, hout, hskip, hP⟩ := hstep i _ hb
      · simp only [hcopy, Option.bind_eq_bind, Option.bind_some]
        refine ih (i + 1) run r (by omega) (by omega) hr ?_
        rw [take_run_succ hrun hb]
        exact happend _ _ hcopied hP
      · simp only [hout, Option.bind_eq_bind, Option.bind_some]
        refine ih (i + skip) (i + skip) _ (by omega) (Nat.le_refl _) ?_ ?_
        · exact happend _ _ (happend _ _ hr hcopied) hP
        · rw [Nat.sub_self, List.take_zero]
          exact hnil
    · refine ⟨finish s run r, ?_, finish_keeps happend (by omega) hr hcopied⟩
      rw [loop, if_neg hi]

theorem rewrite_keeps (hstep : Keeps step s P) (hnil : P [])
    (happend : ∀ t u, P t → P u → P (t ++ u)) : ∃ t, rewrite step s = some t ∧ P t := by
  refine loop_keeps hstep hnil happend _ 0 0 [] (by omega) (Nat.le_refl 0) hnil ?_
  rw [Nat.sub_self, List.take_zero]
  exact hnil

theorem rewrite_flatMap (f : α → Option (List α)) (s : List α) :
    rewrite (fun i => s[i]?.map fun b => (f b).map fun out => (out, 1)) s =
      some (s.flatMap fun b => (f b).getD [b]) := by
  suffices h : ∀ turns i run r, s.length ≤ i + turns → run ≤ i → (run = 0 → r = []) →
      loop (fun i => s[i]?.map fun b => (f b).map fun out => (out, 1)) s turns i run r =
        some (r ++ (s.drop run).take (i - run) ++ (s.drop i).flatMap fun b => (f b).getD [b]) by
    exact h s.length 0 0 [] (by omega) (Nat.le_refl 0) fun _ => rfl
  intro turns
  induction turns with
  | zero =>
    intro i run r hturns hrun hnone
    rw [loop, if_neg (by omega), finish_eq (i := i) (by omega) hnone, List.drop_of_length_le (by omega : s.length ≤ i),
      List.flatMap_nil, List.append_nil]
  | succ turns ih =>
    intro i run r hturns hrun hnone
    by_cases hi : i < s.length
    · have hb : s[i]? = some (s.get ⟨i, hi⟩) := List.getElem?_eq_getElem hi
      have hdrop : s.drop i = s.get ⟨i, hi⟩ :: s.drop (i + 1) := List.drop_eq_getElem_cons hi
      rw [loop, if_pos hi, hdrop]
      generalize s.get ⟨i, hi⟩ = b at hb
      cases hf : f b with
      | none =>
        simp only [hb, hf, Option.map_some, Option.map_none, Option.bind_eq_bind, Option.bind_some]
        rw [ih (i + 1) run r (by omega) (by omega) hnone, take_run_succ hrun hb]
        simp [hf]
      | some out =>
        simp only [hb, hf, Option.map_some, Option.bind_eq_bind, Option.bind_some]
        rw [ih (i + 1) (i + 1) _ (by omega) (Nat.le_refl _) (by omega)]
        simp [hf]
    · rw [loop, if_neg hi, finish_eq (i := i) (by omega) hnone, List.drop_of_length_le (by omega : s.length ≤ i),
        List.flatMap_nil, List.append_nil]

end Ussr.Rewrite
