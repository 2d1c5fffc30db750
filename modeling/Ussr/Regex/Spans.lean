import Ussr.Regex.Memory

/-! The positions that a search reports: none lies outside the text or between the bytes of a character. -/

namespace Ussr.Regex

variable {re : UssrRegex} {text : List UInt8} {start at' after : Nat} {slots : List Int}

/-- The positions that a walk over the characters of the text reaches. -/
inductive Boundary (text : List UInt8) (start : Nat) : Nat → Prop where
  | start : Boundary text start start
  | next {at' : Nat} (h : Boundary text start at') (hchar : (charAt text at').isSome) : Boundary text start (charEnd text at')

theorem charEnd_le (hchar : (charAt text at').isSome) : charEnd text at' ≤ text.length := by
  unfold charEnd charAt at *
  cases hdrop : text.drop at' with
  | nil =>
    rw [hdrop] at hchar
    cases hchar
  | cons b rest =>
    have hlen := congrArg List.length hdrop
    rw [List.length_drop, List.length_cons] at hlen
    have hsize : (reDecode b rest).2 ≤ rest.length + 1 := by
      obtain heq | ⟨-, -, hle⟩ := reDecode_cases b rest
      · rw [heq]
        omega
      · exact hle
    exact (Nat.add_le_add_left hsize at').trans (by omega)

theorem Boundary.high (h : Boundary text start at') (hstart : start ≤ text.length) : at' ≤ text.length := by
  cases h with
  | start => exact hstart
  | next _ hchar => exact charEnd_le hchar

def Before (text : List UInt8) (start at' : Nat) (x : Int) : Prop := ∃ p : Nat, x = p ∧ p ≤ at' ∧ Boundary text start p

/-- The slots of a thread at `at'`; slot 0 is where its match began. -/
structure Recorded (re : UssrRegex) (text : List UInt8) (start at' : Nat) (slots : List Int) : Prop where
  length : slots.length = re.slots
  positions : ∀ slot x, slots[slot]? = some x → Before text start at' x ∨ slot ≠ 0 ∧ x = -1

theorem Recorded.mono (h : Recorded re text start at' slots) (hle : at' ≤ after) : Recorded re text start after slots where
  length := h.length
  positions slot x hx := by
    obtain ⟨p, hp, hhigh, hboundary⟩ | hunset := h.positions slot x hx
    · exact .inl ⟨p, hp, hhigh.trans hle, hboundary⟩
    · exact .inr hunset

theorem Recorded.set (h : Recorded re text start at' slots) {slot : Nat} {x : Int}
    (hx : Before text start at' x ∨ slot ≠ 0 ∧ x = -1) : Recorded re text start at' (slots.set slot x) where
  length := List.length_set.trans h.length
  positions other y hy := by
    rw [List.getElem?_set] at hy
    split_ifs at hy with heq
    · exact heq ▸ Option.some.inj hy ▸ hx
    · exact h.positions other y hy

theorem Boundary.before (h : Boundary text start at') : Before text start at' at' := ⟨at', rfl, le_rfl, h⟩

theorem recorded_fresh (hat : Boundary text start at') : Recorded re text start at' (freshSlots re at') where
  length := length_freshSlots re at'
  positions slot x hx := by
    rw [freshSlots, List.getElem?_set] at hx
    split_ifs at hx with heq
    · exact .inl (Option.some.inj hx ▸ hat.before)
    · exact .inr ⟨fun hzero => heq hzero.symm, List.eq_of_mem_replicate (List.mem_of_getElem? hx)⟩

/-- The invariant of the loop of `re_add_thread`: what the stack puts back was recorded before. -/
structure Recording (re : UssrRegex) (text : List UInt8) (start at' : Nat) (stack : List Entry) (m : Memory) : Prop where
  restores : ∀ slot old, .restore slot old ∈ stack → Before text start at' old ∨ slot ≠ 0 ∧ old = -1
  saves : Recorded re text start at' m.saves
  threads : ∀ th ∈ m.threads, Recorded re text start at' th.slots

theorem addEntry_recording (hat : Boundary text start at') {entry : Entry} {stack left : List Entry} {m m' : Memory}
    (h : Recording re text start at' (entry :: stack) m) (hadd : addEntry re text at' entry m = some (left, m')) :
    Recording re text start at' (left ++ stack) m' := by
  have hrest slot old (hmem : .restore slot old ∈ stack) := h.restores slot old (List.mem_cons_of_mem _ hmem)
  cases entry with
  | restore slot old =>
    obtain ⟨rfl, rfl⟩ := Prod.mk.inj (Option.some.inj hadd)
    exact ⟨hrest, h.saves.set (h.restores slot old List.mem_cons_self), h.threads⟩
  | way pc =>
    obtain ⟨i, -, hadd⟩ := Option.bind_eq_some_iff.mp hadd
    split_ifs at hadd
    · obtain ⟨rfl, rfl⟩ := Prod.mk.inj (Option.some.inj hadd)
      exact ⟨hrest, h.saves, h.threads⟩
    split at hadd
    · obtain ⟨rfl, rfl⟩ := Prod.mk.inj (Option.some.inj hadd)
      exact ⟨by simpa using hrest, h.saves, h.threads⟩
    · obtain ⟨rfl, rfl⟩ := Prod.mk.inj (Option.some.inj hadd)
      exact ⟨by simpa using hrest, h.saves, h.threads⟩
    · obtain ⟨old, hold, hadd⟩ := Option.bind_eq_some_iff.mp hadd
      obtain ⟨rfl, rfl⟩ := Prod.mk.inj (Option.some.inj hadd)
      refine ⟨fun slot' old' hmem => ?_, h.saves.set (.inl hat.before), h.threads⟩
      simp only [List.cons_append, List.nil_append, List.mem_cons, reduceCtorEq, false_or] at hmem
      obtain heq | hmem := hmem
      · cases heq
        exact h.saves.positions _ _ hold
      · exact hrest slot' old' hmem
    · obtain ⟨rfl, rfl⟩ := Prod.mk.inj (Option.some.inj hadd)
      exact ⟨hrest, h.saves, h.threads⟩
    · obtain ⟨rfl, rfl⟩ := Prod.mk.inj (Option.some.inj hadd)
      refine ⟨hrest, h.saves, fun th hth => ?_⟩
      obtain hth | hth := List.mem_append.mp hth
      · exact h.threads th hth
      · rw [List.mem_singleton.mp hth]
        exact h.saves

theorem addLoop_recording (hat : Boundary text start at') {turns : Nat} {stack : List Entry} {m m' : Memory}
    (h : Recording re text start at' stack m) (hadd : addLoop re text at' turns stack m = some m') :
    ∀ th ∈ m'.threads, Recorded re text start at' th.slots := by
  induction turns generalizing stack m with
  | zero =>
    cases stack with
    | nil => exact Option.some.inj hadd ▸ h.threads
    | cons entry stack => cases hadd
  | succ turns ih =>
    cases stack with
    | nil => exact Option.some.inj hadd ▸ h.threads
    | cons entry stack =>
      obtain ⟨⟨left, m₁⟩, hentry, hadd⟩ := Option.bind_eq_some_iff.mp hadd
      exact ih (addEntry_recording hat h hentry) hadd

theorem reAddThread_recording (hat : Boundary text start at') {pc : Int} {m m' : Memory} (hslots : Recorded re text start at' slots)
    (hthreads : ∀ th ∈ m.threads, Recorded re text start at' th.slots)
    (hadd : reAddThread re text at' pc { m with saves := slots } = some m') : ∀ th ∈ m'.threads, Recorded re text start at' th.slots :=
  addLoop_recording (m := { m with saves := slots }) hat ⟨by simp, hslots, hthreads⟩ hadd

/-- What a search that began at `start` may report: slots 0 and 1 hold the match, and no group reaches out of it behind. -/
structure Inside (re : UssrRegex) (text : List UInt8) (start : Nat) (spans : List Int) : Prop where
  slots : spans.length = re.slots
  span : ∃ b e : Nat, spans[0]? = some (b : Int) ∧ spans[1]? = some (e : Int) ∧ b ≤ e ∧ e ≤ text.length ∧
    ∀ x ∈ spans, x = -1 ∨ Before text start e x

theorem Recorded.inside (h : Recorded re text start at' slots) (hat : Boundary text start at') (hstart : start ≤ text.length) :
    Inside re text start (slots.set 1 at') := by
  have hset : Recorded re text start at' (slots.set 1 at') := h.set (.inl hat.before)
  have hslots : 2 ≤ slots.length := by
    rw [h.length, UssrRegex.slots]
    omega
  obtain ⟨b, hb⟩ : ∃ b, slots[0]? = some b := ⟨_, List.getElem?_eq_getElem (by omega)⟩
  obtain ⟨p, rfl, hhigh, -⟩ | ⟨hzero, -⟩ := h.positions 0 b hb
  · refine ⟨hset.length, p, at', ?_, List.getElem?_set_self (by omega), hhigh, hat.high hstart, fun x hx => ?_⟩
    · rw [List.getElem?_set_ne (by decide), hb]
    · obtain ⟨slot, hslot⟩ := List.getElem?_of_mem hx
      exact (hset.positions slot x hslot).elim .inr fun hunset => .inl hunset.2
  · exact absurd rfl hzero

theorem runThreads_inside (hat : Boundary text start at') (hstart : start ≤ text.length) {threads : List Thread} {m m' : Memory} {spans found : Option (List Int)}
    (hthreads : ∀ th ∈ threads, Recorded re text start at' th.slots)
    (hm : ∀ th ∈ m.threads, Recorded re text start (charEnd text at') th.slots) (hspans : ∀ s ∈ spans, Inside re text start s)
    (hrun : runThreads re text at' ((charAt text at').map Prod.fst) (charEnd text at') threads m spans = some (m', found)) :
    (∀ th ∈ m'.threads, Recorded re text start (charEnd text at') th.slots) ∧ ∀ s ∈ found, Inside re text start s := by
  induction threads generalizing m with
  | nil =>
    obtain ⟨rfl, rfl⟩ := Prod.mk.inj (Option.some.inj hrun)
    exact ⟨hm, hspans⟩
  | cons th rest ih =>
    obtain ⟨i, -, hrun⟩ := Option.bind_eq_some_iff.mp hrun
    have hth := hthreads th List.mem_cons_self
    have hrest : ∀ th ∈ rest, Recorded re text start at' th.slots := fun th hmem => hthreads th (List.mem_cons_of_mem _ hmem)
    split_ifs at hrun with hmatch htakes
    · obtain ⟨rfl, rfl⟩ := Prod.mk.inj (Option.some.inj hrun)
      exact ⟨hm, fun s hs => Option.some.inj hs ▸ hth.inside hat hstart⟩
    · obtain ⟨m₁, hadd, hrun⟩ := Option.bind_eq_some_iff.mp hrun
      have hchar : (charAt text at').isSome := by
        cases hnone : charAt text at' with
        | none =>
          rw [hnone] at htakes
          cases htakes
        | some c => rfl
      exact ih hrest (reAddThread_recording (.next hat hchar) (hth.mono (Nat.le_add_right _ _)) hm hadd) hrun
    · exact ih hrest hm hrun

theorem searchLoop_inside {count : Nat → Nat} {turns : Nat} {m m' : Memory} {spans found : Option (List Int)} (hat : Boundary text start at')
    (hstart : start ≤ text.length) (hm : ∀ th ∈ m.threads, Recorded re text start at' th.slots) (hspans : ∀ s ∈ spans, Inside re text start s)
    (hsearch : searchLoop re text count turns at' spans m = some (m', found)) : ∀ s ∈ found, Inside re text start s := by
  induction turns generalizing at' m spans with
  | zero => cases hsearch
  | succ turns ih =>
    obtain ⟨m₁, hfirst, hsearch⟩ := Option.bind_eq_some_iff.mp hsearch
    have hthreads : ∀ th ∈ m₁.threads, Recorded re text start at' th.slots := by
      unfold startThread at hfirst
      split_ifs at hfirst
      · exact reAddThread_recording hat (recorded_fresh hat) hm hfirst
      · exact Option.some.inj hfirst ▸ hm
    split_ifs at hsearch
    · exact (Prod.mk.inj (Option.some.inj hsearch)).2 ▸ hspans
    obtain ⟨⟨m₂, spans'⟩, hrun, hsearch⟩ := Option.bind_eq_some_iff.mp hsearch
    obtain ⟨hm₂, hspans'⟩ := runThreads_inside hat hstart hthreads (by simp) hspans hrun
    change (if (charAt text at').isNone then some (m₂, spans') else searchLoop re text count turns (charEnd text at') spans' m₂) = _ at hsearch
    split_ifs at hsearch with hlast
    · exact (Prod.mk.inj (Option.some.inj hsearch)).2 ▸ hspans'
    · exact ih (.next hat (Option.isSome_iff_ne_none.mpr (mt Option.isNone_iff_eq_none.mpr hlast))) hm₂ hspans' hsearch

/-- A search reports only places between the characters from its start to the end of its match, whatever the memory it begins with. -/
theorem spans_inside {m m' : Memory} {spans : List Int} (hsearch : ussrRegexSearch re text m start = some (m', some spans)) :
    Inside re text start spans := by
  unfold ussrRegexSearch searchWith at hsearch
  split_ifs at hsearch with hout
  · cases hsearch
  · exact searchLoop_inside .start (not_lt.mp hout) (by simp) (by simp) hsearch _ rfl

theorem spans_inside_letter : ∃ m' spans, ussrRegexSearch pairRegex [99, 97, 98] .start 1 = some (m', some spans) ∧
    Inside pairRegex [99, 97, 98] 1 spans :=
  ⟨_, _, rfl, spans_inside (rfl : ussrRegexSearch pairRegex [99, 97, 98] .start 1 = some (_, some [1, 3]))⟩

end Ussr.Regex
