import Mathlib.Data.Option.Basic

/-! Two partial functions in step: they fail together, or their results are related
again. -/

namespace Ussr.Lockstep

variable {α β γ δ ι : Type} {R : α → β → Prop} {S : γ → δ → Prop}
variable {a : Option α} {b : Option β}

theorem rel_bind (h : Option.Rel R a b) {f : α → Option γ} {g : β → Option δ}
    (hstep : ∀ x y, R x y → Option.Rel S (f x) (g y)) : Option.Rel S (a.bind f) (b.bind g) := by
  cases h with
  | none => exact .none
  | some hxy => exact hstep _ _ hxy

theorem rel_right (h : Option.Rel R a b) : Option.Rel (fun x y => R x y ∧ b = some y) a b := by
  cases h with
  | none => exact .none
  | some hxy => exact .some ⟨hxy, rfl⟩

theorem rel_mono (h : Option.Rel R a b) {R' : α → β → Prop} (himp : ∀ x y, R x y → R' x y) :
    Option.Rel R' a b := by
  cases h with
  | none => exact .none
  | some hxy => exact .some (himp _ _ hxy)

theorem rel_map_left (h : Option.Rel R a b) {f : α → γ} {R' : γ → β → Prop}
    (hmap : ∀ x y, R x y → R' (f x) y) : Option.Rel R' (a.map f) b := by
  cases h with
  | none => exact .none
  | some hxy => exact .some (hmap _ _ hxy)

theorem rel_map_right (h : Option.Rel R a b) {g : β → δ} {R' : α → δ → Prop}
    (hmap : ∀ x y, R x y → R' x (g y)) : Option.Rel R' a (b.map g) := by
  cases h with
  | none => exact .none
  | some hxy => exact .some (hmap _ _ hxy)

theorem rel_bind_same (a : Option α) {f : α → Option γ} {g : α → Option δ} (hstep : ∀ x, a = some x → Option.Rel S (f x) (g x)) :
    Option.Rel S (a.bind f) (a.bind g) := by
  cases a with
  | none => exact .none
  | some x => exact hstep x rfl

theorem rel_map_same (a : Option α) {f : α → γ} {g : α → δ} (hmap : ∀ x, a = some x → S (f x) (g x)) :
    Option.Rel S (a.map f) (a.map g) := by
  cases a with
  | none => exact .none
  | some x => exact .some (hmap x rfl)

theorem map_eq_of_rel (h : Option.Rel R a b) {f : α → γ} {g : β → γ} (hmap : ∀ x y, R x y → f x = g y) :
    a.map f = b.map g := by
  cases h with
  | none => rfl
  | some hxy => exact congrArg some (hmap _ _ hxy)

/-- Every step of a run is one that `quiet` allows. -/
def along (step : β → ι → Option β) (quiet : β → ι → Bool) : β → List ι → Bool
  | _, [] => true
  | s, x :: xs => quiet s x && (match step s x with
    | some s' => along step quiet s' xs
    | none => true)

theorem foldlM_rel {step : α → ι → Option α} {step' : β → ι → Option β} {quiet : β → ι → Bool}
    (hstep : ∀ s s' x, R s s' → quiet s' x = true → Option.Rel R (step s x) (step' s' x)) {s : α} {s' : β} (h : R s s') (xs : List ι)
    (hquiet : along step' quiet s' xs = true) : Option.Rel R (xs.foldlM step s) (xs.foldlM step' s') := by
  induction xs generalizing s s' with
  | nil => exact .some h
  | cons x xs ih =>
    rw [along, Bool.and_eq_true] at hquiet
    obtain ⟨hfirst, hrest⟩ := hquiet
    have hrel := hstep s s' x h hfirst
    rw [List.foldlM_cons, List.foldlM_cons]
    cases hnext : step' s' x with
    | none =>
      rw [hnext] at hrel
      cases hthis : step s x with
      | none => exact .none
      | some t =>
        rw [hthis] at hrel
        cases hrel
    | some t' =>
      rw [hnext] at hrel hrest
      cases hthis : step s x with
      | none =>
        rw [hthis] at hrel
        cases hrel
      | some t =>
        rw [hthis] at hrel
        cases hrel with
        | some ht => exact ih ht hrest

end Ussr.Lockstep
