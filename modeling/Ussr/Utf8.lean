import Ussr.Strings

/-! Stepping through a text by characters, forwards and backwards, on the indices of its
bytes. A sequence may be cut short, a continuation byte may stand alone: both directions
have to agree on every text. -/

namespace Ussr.Utf8
open Stalin (Text)

variable {s : Text} {i b r : Nat}

/-- The loop of `utf8_next`: up to `k` continuation bytes from `r` on. -/
def nextLoop (s : Text) : (k r : Nat) → Nat
  | 0, r => r
  | k + 1, r =>
    match s[r]? with
    | some b => if isContinuation b then nextLoop s k (r + 1) else r
    | none => r

def utf8Next (s : Text) (i : Nat) : Nat :=
  match s[i]? with
  | some b => nextLoop s (utf8Len b - 1) (i + 1)
  | none => i

/-- The loop of `utf8_prev`; `none` where a byte outside the text is read. -/
def prevLoop (s : Text) : (r steps : Nat) → Option Nat
  | 0, _ => (s[0]?).map fun _ => 0
  | r + 1, steps => do
    let b ← s[r + 1]?
    if isContinuation b ∧ steps < 4 then prevLoop s r (steps + 1) else some (r + 1)

/-- Where the loop of `utf8_prev` leaves `r`, which it does not enter at the first byte. -/
def prevStart (s : Text) (r : Nat) : Option Nat := if 0 < r then prevLoop s r 1 else some r

def utf8Prev (s : Text) : (i : Nat) → Option Nat
  | 0 => some 0
  | i + 1 => do
    let r ← prevStart s i
    let b ← s[r]?
    if isContinuation b then some i
    else if utf8Next s r ≠ i + 1 then some i else some r

theorem nextLoop_ge (s : Text) (k r : Nat) : r ≤ nextLoop s k r := by
  induction k generalizing r with
  | zero => simp [nextLoop]
  | succ k ih =>
    have := ih (r + 1)
    simp only [nextLoop]
    grind

theorem nextLoop_le (s : Text) (k r : Nat) (h : r ≤ s.length) : nextLoop s k r ≤ s.length := by
  induction k generalizing r with
  | zero => simpa [nextLoop] using h
  | succ k ih =>
    simp only [nextLoop]
    have := ih (r + 1)
    grind

theorem lt_utf8Next (h : i < s.length) : i < utf8Next s i := by
  simp only [utf8Next, List.getElem?_eq_getElem h]
  exact nextLoop_ge s _ (i + 1)

theorem utf8Next_le (h : i < s.length) : utf8Next s i ≤ s.length := by
  simp only [utf8Next, List.getElem?_eq_getElem h]
  exact nextLoop_le s _ (i + 1) h

theorem utf8Next_of_le (h : s.length ≤ i) : utf8Next s i = i := by
  simp [utf8Next, List.getElem?_eq_none h]

/-- The loop of `utf8_count`. -/
def countLoop (s : Text) (i r : Nat) : Nat :=
  if h : i < s.length then countLoop s (utf8Next s i) (r + 1) else r
termination_by s.length - i
decreasing_by have := lt_utf8Next h; omega

def utf8Count (s : Text) : Nat := countLoop s 0 0

/-- The loop of `utf8_index`. -/
def indexLoop (s : Text) (column k r : Nat) : Nat :=
  if k < column ∧ r < s.length then indexLoop s column (k + 1) (utf8Next s r) else r
termination_by column - k

def utf8Index (s : Text) (column : Nat) : Nat := indexLoop s column 0 0

theorem le_utf8Next (s : Text) (i : Nat) : i ≤ utf8Next s i := by
  rcases Nat.lt_or_ge i s.length with h | h
  · exact (lt_utf8Next h).le
  · exact (utf8Next_of_le h).ge

/-- The loop of `utf8_column`. At the end of the text the source puts `at` on `i`, and so
leaves the loop. -/
def columnLoop (s : Text) (i start r : Nat) : Nat :=
  if start < i then
    if _h : utf8Next s start = start then r
    else columnLoop s i (utf8Next s start) (r + 1)
  else r
termination_by i - start
decreasing_by have := le_utf8Next s start; omega

def utf8Column (s : Text) (i : Nat) : Nat := columnLoop s i 0 0

theorem nextLoop_eq (s : Text) (k r : Nat) :
    nextLoop s k r = r + (((s.drop r).take k).takeWhile isContinuation).length := by
  induction k generalizing r with
  | zero => simp [nextLoop]
  | succ k ih =>
    by_cases below : r < s.length
    · rw [List.drop_eq_getElem_cons below, List.take_succ_cons, List.takeWhile_cons]
      simp only [nextLoop, List.getElem?_eq_getElem below, ih]
      split <;> grind
    · simp [nextLoop, List.getElem?_eq_none (Nat.le_of_not_lt below),
        List.drop_eq_nil_of_le (Nat.le_of_not_lt below)]

theorem drop_utf8Next (s : Text) (i : Nat) :
    s.drop (utf8Next s i) = Ussr.utf8Next (s.drop i) := by
  by_cases below : i < s.length
  · rw [List.drop_eq_getElem_cons below]
    simp only [utf8Next, List.getElem?_eq_getElem below, nextLoop_eq, Ussr.utf8Next, List.drop_drop]
  · have le := Nat.le_of_not_lt below
    rw [utf8Next_of_le le, List.drop_eq_nil_of_le le, Ussr.utf8Next]

theorem countLoop_eq (s : Text) (turns i r : Nat) (h : s.length - i ≤ turns) :
    countLoop s i r = r + utf8CountLoop turns (s.drop i) := by
  induction turns generalizing i r with
  | zero =>
    rw [countLoop, dif_neg (by omega)]
    rfl
  | succ turns ih =>
    rw [countLoop, utf8CountLoop]
    by_cases below : i < s.length
    · have := lt_utf8Next below
      rw [dif_pos below, if_neg (by simpa using below), ih _ _ (by omega), drop_utf8Next]
      omega
    · rw [dif_neg below, if_pos (List.drop_eq_nil_of_le (by omega))]
      rfl

theorem utf8Count_eq (s : Text) : utf8Count s = Ussr.utf8Count s := by
  rw [utf8Count, countLoop_eq s s.length 0 0 (by omega), Ussr.utf8Count, List.drop_zero,
    Nat.zero_add]

/-- The indices reached from 0 by `utf8_next`. -/
inductive Boundary (s : Text) : Nat → Prop
  | zero : Boundary s 0
  | next {b : Nat} : Boundary s b → b < s.length → Boundary s (utf8Next s b)

theorem Boundary.le (h : Boundary s b) : b ≤ s.length := by
  cases h with
  | zero => exact Nat.zero_le _
  | next _ below => exact utf8Next_le below

theorem iterate_monotone (s : Text) : Monotone fun n => (utf8Next s)^[n] 0 := by
  apply monotone_nat_of_le_succ
  intro n
  rw [Function.iterate_succ_apply']
  exact le_utf8Next s _

theorem Boundary.iterate (h : Boundary s b) :
    ∃ n, b = (utf8Next s)^[n] 0 := by
  induction h with
  | zero => exact ⟨0, rfl⟩
  | next _ _ ih =>
    obtain ⟨n, rfl⟩ := ih
    exact ⟨n + 1, (Function.iterate_succ_apply' ..).symm⟩

theorem Boundary.next_le {c : Nat} (hb : Boundary s b) (hc : Boundary s c)
    (lt : b < c) : utf8Next s b ≤ c := by
  obtain ⟨m, rfl⟩ := hb.iterate
  obtain ⟨n, rfl⟩ := hc.iterate
  have : m < n := by
    by_contra more
    have := iterate_monotone s (Nat.le_of_not_lt more)
    dsimp at this
    omega
  rw [← Function.iterate_succ_apply' (utf8Next s) m 0]
  exact iterate_monotone s this

theorem nextLoop_passed {k q : Nat} (ge : r ≤ q) (lt : q < nextLoop s k r) :
    ∃ b, s[q]? = some b ∧ isContinuation b := by
  induction k generalizing r with
  | zero => simp only [nextLoop] at lt; omega
  | succ k ih =>
    simp only [nextLoop] at lt
    split at lt
    next b read =>
      split at lt
      next cont =>
        rcases ge.eq_or_lt with rfl | ge
        · exact ⟨b, read, cont⟩
        · exact ih ge lt
      next => omega
    next => omega

theorem utf8Next_passed {p q : Nat} (ge : p < q) (lt : q < utf8Next s p) :
    ∃ b, s[q]? = some b ∧ isContinuation b := by
  simp only [utf8Next] at lt
  split at lt
  · exact nextLoop_passed ge lt
  · omega

theorem Boundary.reaches {p : Nat} {b : UInt8} (h : Boundary s p) (le : p ≤ r)
    (read : s[r]? = some b) (lead : ¬isContinuation b) : Boundary s r := by
  have below : r < s.length := (List.getElem?_eq_some_iff.mp read).1
  by_cases e : p = r
  · exact e ▸ h
  · have lt := lt_utf8Next (show p < s.length by omega)
    have : utf8Next s p ≤ r := by
      by_contra inside
      obtain ⟨b', read', cont⟩ := utf8Next_passed (by omega) (Nat.lt_of_not_le inside)
      simp_all
    exact (h.next (by omega)).reaches this read lead
termination_by r - p

theorem Boundary.of_lead {b : UInt8} (read : s[r]? = some b)
    (lead : ¬isContinuation b) : Boundary s r :=
  Boundary.zero.reaches (Nat.zero_le r) read lead

theorem nextLoop_le_add (s : Text) (k r : Nat) : nextLoop s k r ≤ r + k := by
  induction k generalizing r with
  | zero => simp [nextLoop]
  | succ k ih =>
    have := ih (r + 1)
    simp only [nextLoop]
    grind

theorem utf8Len_le (b : UInt8) : utf8Len b ≤ 4 := by
  simp only [utf8Len]
  grind

theorem utf8Next_le_add (s : Text) (i : Nat) : utf8Next s i ≤ i + 4 := by
  simp only [utf8Next]
  split
  next b _ =>
    have := nextLoop_le_add s (utf8Len b - 1) (i + 1)
    have := utf8Len_le b
    omega
  next => omega

theorem utf8Next_continuation {b : UInt8} (read : s[i]? = some b)
    (cont : isContinuation b) : utf8Next s i = i + 1 := by
  have : utf8Len b = 1 := by
    simp only [isContinuation, Bool.and_eq_true, decide_eq_true_eq] at cont
    simp only [utf8Len]
    grind
  simp [utf8Next, read, this, nextLoop]

/-- Where the search for a lead byte stops: everything after it continues a sequence, and it
is the start of the text, no continuation byte, or three bytes back. -/
structure Stop (s : Text) (last steps r : Nat) : Prop where
  le : r ≤ last
  passed : ∀ q, r < q → q ≤ last → ∃ b, s[q]? = some b ∧ isContinuation b
  why : r = 0 ∨ (∃ b, s[r]? = some b ∧ ¬isContinuation b) ∨ 4 ≤ last - r + steps

theorem prevLoop_spec {steps : Nat} (below : r < s.length) :
    ∃ q, prevLoop s r steps = some q ∧ Stop s r steps q := by
  induction r generalizing steps with
  | zero =>
    refine ⟨0, by simp [prevLoop, below], le_rfl, ?_, .inl rfl⟩
    intro q _ _
    omega
  | succ r ih =>
    have read := List.getElem?_eq_getElem below
    simp only [prevLoop, read, Option.bind_eq_bind, Option.bind_some]
    split
    next more =>
      obtain ⟨q, run, le, passed, why⟩ := @ih (steps + 1) (by omega)
      refine ⟨q, run, by omega, ?_, by grind⟩
      intro q' lt le'
      rcases le'.eq_or_lt with rfl | lt'
      · exact ⟨_, read, more.1⟩
      · exact passed q' lt (by omega)
    next stop =>
      refine ⟨r + 1, rfl, le_rfl, ?_, ?_⟩
      · intro q _ _
        omega
      · by_cases cont : isContinuation s[r + 1] = true
        · have : 4 ≤ steps := by grind
          omega
        · exact .inr (.inl ⟨_, read, cont⟩)

theorem prevStart_spec (below : i < s.length) :
    ∃ r, prevStart s i = some r ∧ Stop s i 1 r := by
  by_cases pos : 0 < i
  · simpa [prevStart, pos] using prevLoop_spec below
  · obtain rfl : i = 0 := by omega
    refine ⟨0, by simp [prevStart], le_rfl, ?_, .inl rfl⟩
    intro q _ _
    omega

theorem utf8Prev_next {p : Nat} (h : Boundary s p) (below : p < s.length) :
    utf8Prev s (utf8Next s p) = some p := by
  have lt := lt_utf8Next below
  have le := utf8Next_le below
  obtain ⟨i, e⟩ : ∃ i, utf8Next s p = i + 1 := ⟨utf8Next s p - 1, by omega⟩
  obtain ⟨r, start, stop⟩ := prevStart_spec (show i < s.length by omega)
  have inside : r < s.length := by
    have := stop.le
    omega
  have read := List.getElem?_eq_getElem inside
  -- a continuation byte is a step of its own
  have alone : ∀ q b, s[q]? = some b → isContinuation b = true → p = q → p = i := by
    intro q b read cont same
    have := utf8Next_continuation read cont
    subst same
    omega
  have after : r < p → p = i := by
    intro more
    obtain ⟨b, read, cont⟩ := stop.passed p more (by omega)
    exact alone p b read cont rfl
  rw [e]
  simp only [utf8Prev, start, Option.bind_eq_bind, Option.bind_some, read]
  by_cases cont : isContinuation s[r] = true
  · simp only [cont, if_true, Option.some.injEq]
    have : r ≤ p := by
      have := utf8Next_le_add s p
      have := stop.why
      grind
    rcases this.eq_or_lt with same | more
    · exact (alone r _ read cont same.symm).symm
    · exact (after more).symm
  · have lead := Boundary.of_lead read cont
    have before : ¬p < r := by
      intro less
      have := h.next_le lead less
      have := stop.le
      omega
    by_cases ends : utf8Next s r = i + 1
    · have : ¬r < p := by
        intro less
        have := lead.next_le h less
        omega
      simp only [cont, ends, Bool.false_eq_true, if_false, ne_eq, not_true_eq_false,
        Option.some.injEq]
      omega
    · have : r ≠ p := by
        intro same
        exact ends (same ▸ e)
      simp only [cont, ends, Bool.false_eq_true, if_false, ne_eq, not_false_eq_true, if_true,
        Option.some.injEq]
      exact (after (by omega)).symm

theorem countLoop_spec (s : Text) (i r : Nat) :
    ∃ n, countLoop s i r = r + n ∧ (i ≤ s.length → (utf8Next s)^[n] i = s.length) ∧
      ∀ k < n, (utf8Next s)^[k] i < s.length := by
  by_cases below : i < s.length
  · obtain ⟨n, count, ends, inside⟩ := countLoop_spec s (utf8Next s i) (r + 1)
    refine ⟨n + 1, ?_, ?_, ?_⟩
    · rw [countLoop, dif_pos below, count]
      omega
    · intro _
      exact ends (utf8Next_le below)
    · intro k less
      cases k with
      | zero => exact below
      | succ k => exact inside k (by omega)
  · refine ⟨0, ?_, ?_, ?_⟩
    · rw [countLoop, dif_neg below]
      rfl
    · intro le
      exact Nat.le_antisymm le (Nat.le_of_not_lt below)
    · intro k less
      omega
termination_by s.length - i
decreasing_by have := lt_utf8Next below; omega

theorem indexLoop_spec (s : Text) (n k r : Nat) (h : ∀ j < n, (utf8Next s)^[j] r < s.length) :
    indexLoop s (k + n) k r = (utf8Next s)^[n] r := by
  induction n generalizing k r with
  | zero =>
    rw [indexLoop]
    simp
  | succ n ih =>
    have now : r < s.length := h 0 (by omega)
    rw [indexLoop, if_pos ⟨by omega, now⟩]
    have := ih (k + 1) (utf8Next s r) fun j less => h (j + 1) (by omega)
    rwa [show k + 1 + n = k + (n + 1) by omega] at this

theorem columnLoop_spec (s : Text) (n start r : Nat)
    (h : ∀ j < n, (utf8Next s)^[j] start < s.length) :
    columnLoop s ((utf8Next s)^[n] start) start r = r + n := by
  induction n generalizing start r with
  | zero =>
    rw [columnLoop]
    simp
  | succ n ih =>
    have now : start < s.length := h 0 (by omega)
    have step := lt_utf8Next now
    have less : start < (utf8Next s)^[n] (utf8Next s start) := by
      have : ∀ m i, i ≤ (utf8Next s)^[m] i := fun m i =>
        Function.id_le_iterate_of_id_le (le_utf8Next s) m i
      exact step.trans_le (this n _)
    rw [Function.iterate_succ_apply, columnLoop, if_pos less, dif_neg step.ne']
    rw [ih (utf8Next s start) (r + 1) fun j less => h (j + 1) (by omega)]
    omega

theorem Boundary.steps (h : Boundary s b) :
    ∃ n, (utf8Next s)^[n] 0 = b ∧ ∀ j < n, (utf8Next s)^[j] 0 < s.length := by
  induction h with
  | zero =>
    refine ⟨0, rfl, ?_⟩
    intro j less
    omega
  | @next b _ below ih =>
    obtain ⟨n, rfl, inside⟩ := ih
    refine ⟨n + 1, Function.iterate_succ_apply' .., ?_⟩
    intro j less
    rcases (Nat.lt_succ_iff.mp less).eq_or_lt with rfl | less
    · exact below
    · exact inside j less

theorem Boundary.of_steps {n : Nat} (h : ∀ j < n, (utf8Next s)^[j] 0 < s.length) :
    Boundary s ((utf8Next s)^[n] 0) := by
  induction n with
  | zero => exact .zero
  | succ n ih =>
    rw [Function.iterate_succ_apply']
    exact (ih fun j less => h j (by omega)).next (h n (by omega))

theorem utf8Index_column (h : Boundary s b) :
    utf8Index s (utf8Column s b) = b := by
  obtain ⟨n, rfl, inside⟩ := h.steps
  have column := columnLoop_spec s n 0 0 inside
  have index := indexLoop_spec s n 0 0 inside
  rw [Nat.zero_add] at column index
  rw [utf8Index, utf8Column, column, index]

theorem utf8Count_spec (s : Text) : (utf8Next s)^[utf8Count s] 0 = s.length ∧
    ∀ k < utf8Count s, (utf8Next s)^[k] 0 < s.length := by
  obtain ⟨n, count, ends, inside⟩ := countLoop_spec s 0 0
  rw [utf8Count, count, Nat.zero_add]
  exact ⟨ends (Nat.zero_le _), inside⟩

theorem Boundary.length (s : Text) : Boundary s s.length := by
  obtain ⟨ends, inside⟩ := utf8Count_spec s
  exact ends ▸ Boundary.of_steps inside

/-- The boundaries are the same in both directions, and columns name them. -/
theorem stepping_agrees (s : Text) :
    (Boundary s s.length ∧ ∀ b, Boundary s b → b ≤ s.length) ∧
    (∀ i < s.length, i < utf8Next s i ∧ utf8Next s i ≤ s.length) ∧
    (∀ b, Boundary s b → b ≠ 0 → ∃ p, utf8Prev s b = some p ∧
      IsGreatest {q | Boundary s q ∧ q < b} p) ∧
    (∀ b, Boundary s b → utf8Index s (utf8Column s b) = b) ∧
    (utf8Next s)^[utf8Count s] 0 = s.length ∧
      ∀ k < utf8Count s, (utf8Next s)^[k] 0 < s.length := by
  refine ⟨⟨Boundary.length s, fun _ h => h.le⟩, fun _ h => ⟨lt_utf8Next h, utf8Next_le h⟩, ?_,
    fun _ h => utf8Index_column h, utf8Count_spec s⟩
  intro b h nonzero
  cases h with
  | zero => exact absurd rfl nonzero
  | @next p hp below =>
    refine ⟨p, utf8Prev_next hp below, ⟨hp, lt_utf8Next below⟩, ?_⟩
    intro q hq
    by_contra more
    have := hp.next_le hq.1 (Nat.lt_of_not_le more)
    have := hq.2
    omega

end Ussr.Utf8
