import Mathlib.Data.List.Basic

/-! Open addressing with linear probing: the walk that starts at a key's slot and steps around
the table. -/

namespace Ussr.Probing

def probe (stop : Nat → Bool) (next : Nat → Nat) : Nat → Nat → Option Nat
  | 0, _ => none
  | turns + 1, slot => if stop slot then some slot else probe stop next turns (next slot)

/-- The walk from `start` comes to `slot` over slots that are all taken. -/
def WalksTo (taken : Nat → Prop) (size start slot : Nat) : Prop :=
  ∃ distance, slot = (start + distance) % size ∧
    ∀ before < distance, taken ((start + before) % size)

variable {stop : Nat → Bool} {next : Nat → Nat} {size : Nat} {taken more : Nat → Prop} {start slot : Nat}

theorem WalksTo.mono (h : WalksTo taken size start slot) (hmore : ∀ slot, taken slot → more slot) :
    WalksTo more size start slot := by
  obtain ⟨distance, hslot, hbefore⟩ := h
  exact ⟨distance, hslot, fun before hlt => hmore _ (hbefore before hlt)⟩

theorem probe_from (hnext : ∀ slot, next slot = (slot + 1) % size) (turns start distance : Nat) :
    (∃ found, found < turns ∧ stop ((start + (distance + found)) % size) = true ∧
      (∀ before < found, stop ((start + (distance + before)) % size) = false) ∧
      probe stop next turns ((start + distance) % size) = some ((start + (distance + found)) % size)) ∨
    ∀ before < turns, stop ((start + (distance + before)) % size) = false := by
  induction turns generalizing distance with
  | zero => exact .inr fun before hlt => absurd hlt (Nat.not_lt_zero _)
  | succ turns ih =>
    by_cases hstop : stop ((start + distance) % size)
    · refine .inl ⟨0, Nat.succ_pos _, hstop, fun _ hlt => absurd hlt (Nat.not_lt_zero _), ?_⟩
      simp only [probe, hstop, if_pos, Nat.add_zero]
    · have hstep : next ((start + distance) % size) = (start + (distance + 1)) % size := by
        rw [hnext, Nat.mod_add_mod, Nat.add_assoc]
      have hfirst : stop ((start + distance) % size) = false := by simpa using hstop
      rcases ih (distance + 1) with ⟨found, hlt, hfound, hbefore, hprobe⟩ | hnone
      · refine .inl ⟨found + 1, by omega, ?_, fun before hb => ?_, ?_⟩
        · rwa [show distance + (found + 1) = distance + 1 + found by omega]
        · rcases before with - | before
          · exact hfirst
          · rw [show distance + (before + 1) = distance + 1 + before by omega]
            exact hbefore before (by omega)
        · rw [probe, if_neg hstop, hstep, hprobe]
          congr 2
          omega
      · refine .inr fun before hb => ?_
        rcases before with - | before
        · exact hfirst
        · rw [show distance + (before + 1) = distance + 1 + before by omega]
          exact hnone before (by omega)

/-- A walk over a table with a slot to stop at ends, at the first such slot of the walk. -/
theorem probe_ends (hnext : ∀ slot, next slot = (slot + 1) % size) (hstart : start < size) (hslot : slot < size)
    (hstop : stop slot = true) :
    ∃ found < size, probe stop next size start = some found ∧ stop found = true ∧
      WalksTo (fun slot => stop slot = false) size start found := by
  have hpositive : 0 < size := by omega
  rcases @probe_from stop next size hnext size start 0 with ⟨found, -, hfound, hbefore, hprobe⟩ | hnone
  · rw [Nat.add_zero, Nat.mod_eq_of_lt hstart] at hprobe
    simp only [Nat.zero_add] at hfound hbefore hprobe
    exact ⟨_, Nat.mod_lt _ hpositive, hprobe, hfound, found, rfl, hbefore⟩
  · -- the slot lies `(slot + size - start) % size` steps from the start
    have hfar := hnone ((slot + size - start) % size) (Nat.mod_lt _ hpositive)
    rw [Nat.zero_add, Nat.add_mod_mod, show start + (slot + size - start) = slot + size by omega,
      Nat.add_mod_right, Nat.mod_eq_of_lt hslot, hstop] at hfar
    exact absurd hfar (by simp)

theorem WalksTo.stops_before {found : Nat} (hreach : WalksTo taken size start slot)
    (hfound : WalksTo (fun slot => stop slot = false) size start found)
    (hstop : stop slot = true) : found = slot ∨ taken found := by
  obtain ⟨distance, hslot, hbefore⟩ := hreach
  obtain ⟨first, rfl, hfirst⟩ := hfound
  rcases Nat.lt_trichotomy first distance with hlt | heq | hgt
  · exact .inr (hbefore first hlt)
  · subst heq
    exact .inl hslot.symm
  · rw [hslot, hfirst distance hgt] at hstop
    exact absurd hstop (by simp)

end Ussr.Probing
