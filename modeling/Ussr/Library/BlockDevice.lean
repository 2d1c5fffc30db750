import Mathlib.Data.List.Basic

/-! Arrays of numbered blocks. A write of several blocks is the run of its single-block
writes, and a sequence of writes that stops early leaves a prefix of them behind. -/

namespace Ussr.BlockDevice

variable {β : Type} {ws : List (Nat × β)} {d : Nat → β} {i p k : Nat} {bs : List β}

def write (d : Nat → β) (w : Nat × β) : Nat → β := Function.update d w.1 w.2

def writeAll (ws : List (Nat × β)) (d : Nat → β) : Nat → β := ws.foldl write d

/-- The single-block writes of blocks that go to `p` and behind it. -/
def run (p : Nat) : List β → List (Nat × β)
  | [] => []
  | b :: bs => (p, b) :: run (p + 1) bs

def read (d : Nat → β) (p n : Nat) : List β := (List.range' p n).map d

theorem writeAll_append (ws vs : List (Nat × β)) (d : Nat → β) :
    writeAll (ws ++ vs) d = writeAll vs (writeAll ws d) :=
  List.foldl_append

theorem writeAll_other (h : ∀ w ∈ ws, w.1 ≠ i) : writeAll ws d i = d i := by
  induction ws generalizing d with
  | nil => rfl
  | cons w ws ih =>
    rw [List.forall_mem_cons] at h
    exact (ih h.2).trans (Function.update_of_ne (Ne.symm h.1) _ _)

theorem writeAll_congr {d' : Nat → β} (h : d i = d' i) : writeAll ws d i = writeAll ws d' i := by
  induction ws generalizing d d' with
  | nil => exact h
  | cons w ws ih =>
    refine ih ?_
    unfold write
    by_cases hw : i = w.1
    · rw [hw, Function.update_self, Function.update_self]
    · rw [Function.update_of_ne hw, Function.update_of_ne hw, h]

theorem writeAll_cases (ws : List (Nat × β)) (d : Nat → β) (i : Nat) :
    writeAll ws d i = d i ∨ ∃ w ∈ ws, w.1 = i ∧ writeAll ws d i = w.2 := by
  induction ws generalizing d with
  | nil => exact .inl rfl
  | cons w ws ih =>
    have hhead : writeAll (w :: ws) d = writeAll ws (write d w) := rfl
    rw [hhead]
    cases ih (write d w) with
    | inr hlater =>
      obtain ⟨v, hv, hat, heq⟩ := hlater
      exact .inr ⟨v, List.mem_cons_of_mem w hv, hat, heq⟩
    | inl hkept =>
      by_cases hi : w.1 = i
      · subst hi
        exact .inr ⟨w, List.mem_cons_self, rfl, hkept.trans (Function.update_self ..)⟩
      · exact .inl (hkept.trans (Function.update_of_ne (Ne.symm hi) _ _))

@[simp] theorem length_run (p : Nat) (bs : List β) : (run p bs).length = bs.length := by
  induction bs generalizing p with
  | nil => rfl
  | cons b bs ih => rw [run, List.length_cons, ih, List.length_cons]

theorem run_range {w : Nat × β} (h : w ∈ run p bs) : p ≤ w.1 ∧ w.1 < p + bs.length := by
  induction bs generalizing p with
  | nil => cases h
  | cons b bs ih =>
    rw [List.length_cons]
    cases List.mem_cons.mp h with
    | inl heq =>
      subst heq
      exact ⟨Nat.le_refl p, by omega⟩
    | inr hmem =>
      have hbounds := ih hmem
      omega

theorem mem_of_mem_run {w : Nat × β} (h : w ∈ run p bs) : w.2 ∈ bs := by
  induction bs generalizing p with
  | nil => cases h
  | cons b bs ih =>
    cases List.mem_cons.mp h with
    | inl heq =>
      subst heq
      exact List.mem_cons_self
    | inr hmem => exact List.mem_cons_of_mem b (ih hmem)

theorem writeAll_run_other (h : i < p ∨ p + bs.length ≤ i) : writeAll (run p bs) d i = d i := by
  refine writeAll_other fun w hw => ?_
  have hbounds := run_range hw
  omega

theorem writeAll_run {b : β} (hp : p ≤ i) (h : bs[i - p]? = some b) :
    writeAll (run p bs) d i = b := by
  induction bs generalizing p d with
  | nil => cases h
  | cons c bs ih =>
    by_cases heq : p = i
    · subst heq
      rw [Nat.sub_self, List.getElem?_cons_zero, Option.some.injEq] at h
      subst h
      exact (writeAll_run_other (.inl (Nat.lt_succ_self p))).trans (Function.update_self ..)
    · have hsub : i - p = (i - (p + 1)) + 1 := by omega
      rw [hsub, List.getElem?_cons_succ] at h
      exact ih (by omega) h

theorem take_run (k p : Nat) (bs : List β) : (run p bs).take k = run p (bs.take k) := by
  induction bs generalizing p k with
  | nil => simp [run]
  | cons b bs ih =>
    cases k with
    | zero => rfl
    | succ k => rw [run, List.take_succ_cons, ih, List.take_succ_cons, run]

theorem read_congr {e : Nat → β} {n : Nat} (h : ∀ i, p ≤ i → i < p + n → d i = e i) :
    read d p n = read e p n := by
  refine List.map_congr_left fun i hi => ?_
  rw [List.mem_range'_1] at hi
  exact h i hi.1 hi.2

theorem read_run : read (writeAll (run p bs) d) p bs.length = bs := by
  refine List.ext_getElem? fun k => ?_
  rw [read, List.getElem?_map]
  by_cases hk : k < bs.length
  · rw [List.getElem?_range' hk, Option.map_some, Nat.one_mul, List.getElem?_eq_getElem hk]
    refine congrArg some (writeAll_run (by omega) ?_)
    rw [show p + k - p = k by omega, List.getElem?_eq_getElem hk]
  · rw [List.getElem?_eq_none (by simpa using hk), List.getElem?_eq_none (by simpa using hk)]
    rfl

end Ussr.BlockDevice
