import Mathlib.Logic.Basic

/-! Actions on a state that may fail, keeping the state they reached, or fault:
leave the bounds of what the program may touch. `Triple` states what an action
does from the states that satisfy a precondition: it never faults, and its
results and failures satisfy a postcondition each. -/

namespace Ussr

inductive Stop where
  | failed
  | fault
deriving DecidableEq

def Action (σ α : Type) : Type := σ → Except Stop α × σ

namespace Action

variable {σ α β : Type}

instance : Monad (Action σ) where
  pure a := fun s => (.ok a, s)
  bind action next := fun s =>
    match action s with
    | (.ok a, s') => next a s'
    | (.error e, s') => (.error e, s')

def fail : Action σ α := fun s => (.error .failed, s)

def fault : Action σ α := fun s => (.error .fault, s)

def get : Action σ σ := fun s => (.ok s, s)

def modify (f : σ → σ) : Action σ Unit := fun s => (.ok (), f s)

def require (p : Prop) [Decidable p] : Action σ Unit := if p then pure () else fail

def some? : Option α → Action σ α
  | some a => pure a
  | none => fail

def access : Option α → Action σ α
  | some a => pure a
  | none => fault

def lift : Except Stop α → Action σ α
  | .ok a => pure a
  | .error e => fun s => (.error e, s)

theorem bind_run (action : Action σ α) (next : α → Action σ β) (s : σ) :
    (action >>= next) s =
      match action s with
      | (.ok a, s') => next a s'
      | (.error e, s') => (.error e, s') := rfl

theorem bind_ok {action : Action σ α} {s s' : σ} {a : α} (h : action s = (.ok a, s'))
    (next : α → Action σ β) : (action >>= next) s = next a s' := by
  rw [bind_run, h]

theorem bind_error {action : Action σ α} {s s' : σ} {e : Stop} (h : action s = (.error e, s'))
    (next : α → Action σ β) : (action >>= next) s = (.error e, s') := by
  rw [bind_run, h]

@[simp] theorem get_bind_run (next : σ → Action σ β) (s : σ) : (get >>= next) s = next s s := rfl

@[simp] theorem modify_bind_run (f : σ → σ) (next : Unit → Action σ β) (s : σ) :
    (modify f >>= next) s = next () (f s) := rfl

@[simp] theorem some?_some_bind_run (a : α) (next : α → Action σ β) (s : σ) :
    (some? (some a) >>= next) s = next a s := rfl

@[simp] theorem access_some_bind_run (a : α) (next : α → Action σ β) (s : σ) :
    (access (some a) >>= next) s = next a s := rfl

theorem require_bind_run {p : Prop} [Decidable p] (h : p) (next : Unit → Action σ β) (s : σ) :
    (require p >>= next) s = next () s := by
  rw [require, if_pos h]
  rfl

theorem require_bind_fail {p : Prop} [Decidable p] (h : ¬ p) (next : Unit → Action σ β) (s : σ) :
    (require p >>= next) s = (.error .failed, s) := by
  rw [require, if_neg h]
  rfl

/-- An end in `Q`, a failure in `E`, or a fault where `F` admits one. -/
def Meets (Q : α → σ → Prop) (E : σ → Prop) (F : Prop) : Except Stop α × σ → Prop
  | (.ok a, s) => Q a s
  | (.error .failed, s) => E s
  | (.error .fault, _) => F

/-- From `P`, the action ends in `Q` or fails in `E`; it faults only under `F`. -/
def Triple (P : σ → Prop) (action : Action σ α) (Q : α → σ → Prop) (E : σ → Prop) (F : Prop) :
    Prop :=
  ∀ s, P s → Meets Q E F (action s)

namespace Triple

variable {P P' : σ → Prop} {Q : α → σ → Prop} {R : β → σ → Prop} {E : σ → Prop} {F : Prop}
  {action : Action σ α} {next : α → Action σ β}

theorem pure {a : α} (h : ∀ s, P s → Q a s) : Triple P (pure a) Q E F := fun s hs => h s hs

theorem fail (h : ∀ s, P s → E s) : Triple P (fail : Action σ α) Q E F := fun s hs => h s hs

theorem bind (ha : Triple P action Q E F) (hn : ∀ a, Triple (Q a) (next a) R E F) :
    Triple P (action >>= next) R E F := by
  intro s hs
  have hspec := ha s hs
  cases hrun : action s with
  | mk result s' =>
    rw [hrun] at hspec
    cases result with
    | ok a =>
      rw [bind_ok hrun]
      exact hn a s' hspec
    | error e =>
      rw [bind_error hrun]
      cases e with
      | failed => exact hspec
      | fault => exact hspec

theorem weaken (h : Triple P action Q E F) (hp : ∀ s, P' s → P s) : Triple P' action Q E F :=
  fun s hs => h s (hp s hs)

theorem strengthen {Q' : α → σ → Prop} (h : Triple P action Q E F)
    (hq : ∀ a s, Q a s → Q' a s) : Triple P action Q' E F := by
  intro s hs
  have hspec := h s hs
  cases hrun : action s with
  | mk result s' =>
    rw [hrun] at hspec
    cases result with
    | ok a => exact hq a s' hspec
    | error e =>
      cases e with
      | failed => exact hspec
      | fault => exact hspec

theorem get : Triple P Action.get (fun a s => P s ∧ a = s) E F := fun _ hs => ⟨hs, rfl⟩

theorem modify {f : σ → σ} (h : ∀ s, P s → P' (f s)) :
    Triple P (modify f) (fun _ => P') E F := fun s hs => h s hs

theorem require {p : Prop} [Decidable p] (h : ∀ s, P s → E s) :
    Triple P (require p) (fun _ s => P s ∧ p) E F := by
  intro s hs
  unfold Action.require
  by_cases hp : p
  · rw [if_pos hp]
    exact ⟨hs, hp⟩
  · rw [if_neg hp]
    exact h s hs

theorem some? {o : Option α} (h : ∀ s, P s → E s) :
    Triple P (some? o) (fun a s => P s ∧ o = some a) E F := by
  intro s hs
  cases o with
  | none => exact h s hs
  | some a => exact ⟨hs, rfl⟩

theorem access {o : Option α} (h : ∀ s, P s → o = none → F) :
    Triple P (access o) (fun a s => P s ∧ o = some a) E F := by
  intro s hs
  cases o with
  | none => exact h s hs rfl
  | some a => exact ⟨hs, rfl⟩

end Triple

/-- The action keeps the invariant `I` wherever it ends, its results satisfy `R`, and it
faults only under `F`. -/
def Keeps (I : σ → Prop) (F : Prop) (R : α → Prop) (action : Action σ α) : Prop :=
  Triple I action (fun a s => I s ∧ R a) I F

namespace Keeps

variable {I : σ → Prop} {F : Prop} {R : α → Prop} {Q : β → σ → Prop} {action : Action σ α}
  {next : α → Action σ β}

theorem pure {a : α} (h : R a) : Keeps I F R (pure a) := Triple.pure fun _ hs => ⟨hs, h⟩

theorem fail : Keeps I F R (fail : Action σ α) := Triple.fail fun _ hs => hs

theorem bind (ha : Keeps I F R action) (hn : ∀ a, R a → Triple I (next a) Q I F) :
    Triple I (action >>= next) Q I F :=
  Triple.bind ha fun a s hs => hn a hs.2 s hs.1

theorem get_bind {next : σ → Action σ β} (hn : ∀ s, I s → Triple I (next s) Q I F) :
    Triple I (Action.get >>= next) Q I F := fun s hs => hn s hs s hs

theorem require_bind {p : Prop} [Decidable p] {next : Unit → Action σ β}
    (hn : p → Triple I (next ()) Q I F) : Triple I (Action.require p >>= next) Q I F :=
  (Triple.require fun _ hs => hs).bind fun _ s hs => hn hs.2 s hs.1

theorem some?_bind {o : Option α} (hn : ∀ a, o = some a → Triple I (next a) Q I F) :
    Triple I (Action.some? o >>= next) Q I F :=
  (Triple.some? fun _ hs => hs).bind fun a s hs => hn a hs.2 s hs.1

theorem access_bind {o : Option α} (h : o = none → F)
    (hn : ∀ a, o = some a → Triple I (next a) Q I F) :
    Triple I (Action.access o >>= next) Q I F :=
  (Triple.access fun _ _ => h).bind fun a s hs => hn a hs.2 s hs.1

theorem modify {f : σ → σ} (h : ∀ s, I s → I (f s)) :
    Keeps I F (fun _ => True) (Action.modify f) := fun s hs => ⟨h s hs, trivial⟩

end Keeps

end Action

end Ussr

/-! Actions that leave a view of the state as it is. -/

namespace Ussr.Action

/-- The action never faults, fails only where it `may`, and `view` is the same wherever it ends. -/
def Leaves {σ α γ : Type} (view : σ → γ) (may : Prop) (action : Action σ α) : Prop :=
  ∀ v, Triple (fun s => view s = v) action (fun _ s => view s = v) (fun s => may ∧ view s = v) False

namespace Leaves

variable {σ α β γ δ : Type} {view : σ → γ} {may may' : Prop} {action : Action σ α} {next : α → Action σ β}

theorem pure (a : α) : Leaves view may (pure a : Action σ α) := fun _ => Triple.pure fun _ hs => hs

theorem fail (h : may) : Leaves view may (fail : Action σ α) := fun _ => Triple.fail fun _ hs => ⟨h, hs⟩

theorem bind (ha : Leaves view may action) (hn : ∀ a, Leaves view may (next a)) : Leaves view may (action >>= next) :=
  fun v => (ha v).bind fun a => hn a v

theorem get_bind {next : σ → Action σ β} (hn : ∀ s, Leaves view may (next s)) : Leaves view may (get >>= next) :=
  fun v s hs => hn s v s hs

theorem some?_bind {o : Option α} (h : may) (hn : ∀ a, Leaves view may (next a)) : Leaves view may (some? o >>= next) := by
  intro v
  cases o with
  | none => exact fun s hs => ⟨h, hs⟩
  | some a => exact fun s hs => hn a v s hs

theorem of_run {a : σ → α} {f : σ → σ} (h : ∀ s, view (f s) = view s) : Leaves view may (fun s => (.ok (a s), f s)) :=
  fun _ s hs => (h s).trans hs

theorem modify {f : σ → σ} (h : ∀ s, view (f s) = view s) : Leaves view may (modify f) := of_run h

theorem modify_bind {f : σ → σ} {next : Unit → Action σ β} (h : ∀ s, view (f s) = view s)
    (hn : ∀ a, Leaves view may (next a)) : Leaves view may (Action.modify f >>= next) := (modify h).bind hn

theorem ite {p : Prop} [Decidable p] {a b : Action σ α} (ha : Leaves view may a) (hb : Leaves view may b) :
    Leaves view may (if p then a else b) := by
  by_cases h : p
  · rwa [if_pos h]
  · rwa [if_neg h]

theorem run (h : Leaves view may action) (s : σ) : (action s).1 ≠ .error .fault ∧ view (action s).2 = view s := by
  have hrun := h (view s) s rfl
  cases haction : action s with
  | mk result s' =>
    rw [haction] at hrun
    cases result with
    | ok a => exact ⟨fun h => (by cases h), hrun⟩
    | error e =>
      cases e with
      | failed => exact ⟨fun h => (by cases h), hrun.2⟩
      | fault => exact hrun.elim

theorem of_safe (h : ∀ s, (action s).1 ≠ .error .fault) : Leaves (fun _ => ()) True action := by
  intro v s _
  have hsafe := h s
  cases haction : action s with
  | mk result s' =>
    rw [haction] at hsafe
    cases result with
    | ok a => rfl
    | error e =>
      cases e with
      | failed => exact ⟨trivial, rfl⟩
      | fault => exact hsafe rfl

theorem run_ok (h : Leaves view False action) (s : σ) : ∃ a s', action s = (.ok a, s') ∧ view s' = view s := by
  have hrun := h (view s) s rfl
  cases haction : action s with
  | mk result s' =>
    rw [haction] at hrun
    cases result with
    | ok a => exact ⟨a, s', rfl, hrun⟩
    | error e =>
      cases e with
      | failed => exact hrun.1.elim
      | fault => exact hrun.elim

end Leaves

end Ussr.Action
