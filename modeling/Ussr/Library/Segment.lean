import Mathlib.Logic.Basic

/-! Runs inside a segment of a machine's code. The machine is given by what one
step leads to and by the states in which it fails; a run inside a segment ends
when it leaves the segment or fails in it. -/

namespace Ussr

variable {σ : Type} (next : σ → σ → Prop) (fails : σ → Prop) (inside inside' : σ → Prop)
variable {s t : σ} {r : Option σ}

inductive Runs : σ → σ → Prop where
  | refl (s : σ) : Runs s s
  | step {s t u : σ} : inside s → next s t → Runs t u → Runs s u

/-- The state in which a run leaves the segment, or `none` where it fails. -/
inductive Ends : σ → Option σ → Prop where
  | leaves {s : σ} : ¬ inside s → Ends s (some s)
  | fails {s : σ} : inside s → fails s → Ends s none
  | step {s t : σ} {r : Option σ} : inside s → next s t → Ends t r → Ends s r

variable {next fails inside inside'}

theorem Runs.mono (himp : ∀ s, inside s → inside' s) (h : Runs next inside s t) :
    Runs next inside' s t := by
  induction h with
  | refl => exact .refl _
  | step hinside hnext _ ih => exact .step (himp _ hinside) hnext ih

theorem Runs.ends (h : Runs next inside s t)
    (h' : Ends next fails inside t r) : Ends next fails inside s r := by
  induction h with
  | refl => exact h'
  | step hinside hnext _ ih => exact .step hinside hnext (ih h')

theorem ends_some_iff :
    Ends next fails inside s (some t) ↔ Runs next inside s t ∧ ¬ inside t := by
  constructor
  · intro h
    generalize hr : some t = r at h
    induction h with
    | leaves hout =>
      cases hr
      exact ⟨.refl _, hout⟩
    | fails => cases hr
    | step hinside hnext _ ih =>
      obtain ⟨hruns, hout⟩ := ih hr
      exact ⟨.step hinside hnext hruns, hout⟩
  · rintro ⟨hruns, hout⟩
    exact hruns.ends (.leaves hout)

theorem ends_none_iff :
    Ends next fails inside s none ↔ ∃ t, Runs next inside s t ∧ inside t ∧ fails t := by
  constructor
  · intro h
    generalize hr : (none : Option σ) = r at h
    induction h with
    | leaves => cases hr
    | fails hinside hfails => exact ⟨_, .refl _, hinside, hfails⟩
    | step hinside hnext _ ih =>
      obtain ⟨t, hruns, ht⟩ := ih hr
      exact ⟨t, .step hinside hnext hruns, ht⟩
  · rintro ⟨t, hruns, hinside, hfails⟩
    exact hruns.ends (.fails hinside hfails)

theorem Ends.bind (himp : ∀ s, inside s → inside' s) {r' : Option σ}
    (h : Ends next fails inside s r) (hfailed : r = none → r' = none)
    (hrest : ∀ t, r = some t → Ends next fails inside' t r') :
    Ends next fails inside' s r' := by
  cases r with
  | none =>
    rw [hfailed rfl]
    obtain ⟨t, hruns, hinside, hfails⟩ := ends_none_iff.mp h
    exact ends_none_iff.mpr ⟨t, hruns.mono himp, himp t hinside, hfails⟩
  | some t => exact ((ends_some_iff.mp h).1.mono himp).ends (hrest t rfl)

theorem Ends.imp {next' : σ → σ → Prop} {fails' : σ → Prop} (hnext : ∀ s t, next s t → next' s t)
    (hfails : ∀ s, fails s → fails' s) (h : Ends next fails inside s r) :
    Ends next' fails' inside s r := by
  induction h with
  | leaves hout => exact .leaves hout
  | fails hinside hstuck => exact .fails hinside (hfails _ hstuck)
  | step hinside hstep _ ih => exact .step hinside (hnext _ _ hstep) ih

/-- Where every state of the run to the end is good, so is every state that any run reaches. -/
theorem Ends.along (good : σ → Prop) {u : σ} (hnext : ∀ s t t', next s t → next s t' → t = t')
    (hfails : ∀ s t, next s t → ¬ fails s)
    (h : Ends (fun s t => next s t ∧ good s) (fun s => fails s ∧ good s) inside s r)
    (hruns : Runs next inside s u) (hin : inside u) : good u := by
  induction hruns with
  | refl s =>
    cases h with
    | leaves hout => exact absurd hin hout
    | fails _ hstuck => exact hstuck.2
    | step _ hstep => exact hstep.2
  | step hinside hstep _ ih =>
    cases h with
    | leaves hout => exact absurd hinside hout
    | fails _ hstuck => exact absurd hstuck.1 (hfails _ _ hstep)
    | step _ hstep' hends =>
      cases hnext _ _ _ hstep hstep'.1
      exact ih hends hin

theorem Ends.unique (hnext : ∀ s t t', next s t → next s t' → t = t')
    (hfails : ∀ s t, next s t → ¬ fails s) {r' : Option σ}
    (h : Ends next fails inside s r) (h' : Ends next fails inside s r') : r = r' := by
  induction h generalizing r' with
  | leaves hout =>
    cases h' with
    | leaves => rfl
    | fails hinside => exact absurd hinside hout
    | step hinside => exact absurd hinside hout
  | fails hinside hstuck =>
    cases h' with
    | leaves hout => exact absurd hinside hout
    | fails => rfl
    | step _ hstep => exact absurd hstuck (hfails _ _ hstep)
  | step hinside hstep _ ih =>
    cases h' with
    | leaves hout => exact absurd hinside hout
    | fails _ hstuck => exact absurd hstuck (hfails _ _ hstep)
    | step _ hstep' hrest =>
      cases hnext _ _ _ hstep hstep'
      exact ih hrest

end Ussr
