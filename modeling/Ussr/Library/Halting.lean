import Mathlib.Algebra.Order.Ring.Nat

/-! Computations that are given a bound on the turns of their loops. -/

namespace Ussr

variable {α β : Type}

def Halts (f : Nat → Option α) : Prop := ∃ a n, ∀ turns, n ≤ turns → f turns = some a

namespace Halts

theorem pure (a : α) : Halts fun _ => some a := ⟨a, 0, fun _ _ => rfl⟩

theorem bind {f : Nat → Option α} {g : α → Nat → Option β} (hf : Halts f) (hg : ∀ a, Halts (g a)) :
    Halts fun turns => (f turns).bind fun a => g a turns := by
  obtain ⟨a, n, hn⟩ := hf
  obtain ⟨b, m, hm⟩ := hg a
  refine ⟨b, max n m, fun turns hturns => ?_⟩
  have hfirst := hn turns ((le_max_left n m).trans hturns)
  have hsecond := hm turns ((le_max_right n m).trans hturns)
  simp only [hfirst, Option.bind_some, hsecond]

theorem map {f : Nat → Option α} (hf : Halts f) (g : α → β) : Halts fun turns => (f turns).map g := by
  obtain ⟨a, n, hn⟩ := hf
  exact ⟨g a, n, fun turns hturns => by simp only [hn turns hturns, Option.map_some]⟩

theorem ite {p : Prop} [Decidable p] {f g : Nat → Option α} (hf : p → Halts f) (hg : ¬p → Halts g) :
    Halts fun turns => if p then f turns else g turns := by
  by_cases hp : p
  · simpa only [if_pos hp] using hf hp
  · simpa only [if_neg hp] using hg hp

theorem elim {x : Option β} {f : Nat → Option α} {g : β → Nat → Option α} (hf : Halts f) (hg : ∀ b, Halts (g b)) :
    Halts fun turns => x.elim (f turns) fun b => g b turns := by
  cases x with
  | none => exact hf
  | some b => exact hg b

theorem foldlM {f : Nat → α → β → Option α} (hf : ∀ a b, Halts fun turns => f turns a b) (bs : List β) (a : α) :
    Halts fun turns => bs.foldlM (f turns) a := by
  induction bs generalizing a with
  | nil => exact Halts.pure a
  | cons b bs ih => exact (hf a b).bind ih

theorem of_succ {f g : Nat → Option α} (hf : Halts f) (h : ∀ turns, g (turns + 1) = f turns) : Halts g := by
  obtain ⟨a, n, hn⟩ := hf
  refine ⟨a, n + 1, fun turns hturns => ?_⟩
  obtain ⟨before, rfl⟩ : ∃ before, turns = before + 1 := ⟨turns - 1, by omega⟩
  rw [h, hn before (by omega)]

theorem result {f : Nat → Option α} (hf : Halts f) : ∃ turns a, f turns = some a := by
  obtain ⟨a, n, hn⟩ := hf
  exact ⟨n, a, hn n (le_refl n)⟩

end Halts

def Persists (f : Nat → Option α) : Prop := ∀ n a, f n = some a → f (n + 1) = some a

namespace Persists

variable {f : Nat → Option α} {m n : Nat} {a b : α}

theorem const (x : Option α) : Persists fun _ => x := fun _ _ h => h

theorem bind {g : α → Nat → Option β} (hf : Persists f) (hg : ∀ a, Persists (g a)) :
    Persists fun turns => (f turns).bind fun a => g a turns := by
  intro n b h
  obtain ⟨a, ha, hb⟩ := Option.bind_eq_some_iff.mp h
  exact Option.bind_eq_some_iff.mpr ⟨a, hf n a ha, hg a n b hb⟩

theorem mapM {g : β → Nat → Option α} (hg : ∀ b, Persists (g b)) (bs : List β) :
    Persists fun turns => bs.mapM fun b => g b turns := by
  induction bs with
  | nil => exact const (some [])
  | cons b bs ih =>
    intro n as h
    dsimp only at h ⊢
    rw [List.mapM_cons] at h ⊢
    exact (hg b).bind (fun a => ih.bind fun as => const (some (a :: as))) n as h

theorem le (hf : Persists f) (h : f m = some a) (hle : m ≤ n) : f n = some a := by
  induction hle with
  | refl => exact h
  | step _ ih => exact hf _ a ih

theorem unique (hf : Persists f) (h : f m = some a) (h' : f n = some b) : a = b := by
  have hleft := hf.le h (Nat.le_max_left m n)
  have hright := hf.le h' (Nat.le_max_right m n)
  exact Option.some.inj (hleft.symm.trans hright)

end Persists

end Ussr
