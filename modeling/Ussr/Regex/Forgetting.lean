import Ussr.Library.Lockstep
import Ussr.Regex.Compile

/-! What a search finds does not depend on the searches before it, as long as the counter of the generations does not
come around. -/

namespace Ussr.Regex

section

@[simp] theorem Memory.mark_generation (m : Memory) (pc : Int) : (m.mark pc).generation = m.generation := rfl

theorem Memory.mark_marks (m : Memory) (pc q : Int) : (m.mark pc).marks q = if q = pc then m.generation else m.marks q :=
  Function.update_apply _ _ _ _

def Memory.Ordered (m : Memory) : Prop := ∀ pc, m.marks pc ≤ m.generation

theorem Memory.start_ordered : Memory.start.Ordered := fun _ => le_rfl

theorem Memory.Ordered.mark {m : Memory} (h : m.Ordered) (pc : Int) : (m.mark pc).Ordered := by
  intro q
  rw [Memory.mark_marks, Memory.mark_generation]
  split_ifs
  · exact le_rfl
  · exact h q

/-- Two memories in which the same instructions are marked, with as many generations since they were at `a` and `b`. -/
structure Alike (a b : Nat) (m m' : Memory) : Prop where
  seen : ∀ pc, m.marks pc = m.generation ↔ m'.marks pc = m'.generation
  threads : m.threads = m'.threads
  count : m.generation + b = m'.generation + a
  ordered : m.Ordered
  ordered' : m'.Ordered

variable {a b : Nat} {m m' : Memory}
variable {at' turns : Nat} {spans : Option (List Int)} {r : Memory × Option (List Int)}

theorem Alike.mark (h : Alike a b m m') (pc : Int) : Alike a b (m.mark pc) (m'.mark pc) where
  seen q := by
    rw [Memory.mark_marks, Memory.mark_marks, Memory.mark_generation, Memory.mark_generation]
    split_ifs
    · exact ⟨fun _ => rfl, fun _ => rfl⟩
    · exact h.seen q
  threads := h.threads
  count := h.count
  ordered := h.ordered.mark pc
  ordered' := h.ordered'.mark pc

theorem Alike.withSaves (h : Alike a b m m') (saves saves' : List Int) :
    Alike a b { m with saves := saves } { m' with saves := saves' } :=
  ⟨h.seen, h.threads, h.count, h.ordered, h.ordered'⟩

theorem Alike.withThreads (h : Alike a b m m') (threads : List Thread) :
    Alike a b { m with threads := threads } { m' with threads := threads } :=
  ⟨h.seen, rfl, h.count, h.ordered, h.ordered'⟩

theorem Memory.Ordered.bumped (h : m.Ordered) (pc : Int) : m.marks pc ≠ m.generation + 1 := by
  have hle := h pc
  omega

theorem Alike.bumped (h : m.Ordered) (h' : m'.Ordered) (hcount : m.generation + b = m'.generation + a) (threads : List Thread) :
    Alike a b { m with generation := m.generation + 1, threads := threads }
      { m' with generation := m'.generation + 1, threads := threads } where
  seen pc := iff_of_false (h.bumped pc) (h'.bumped pc)
  threads := rfl
  count := by
    show m.generation + 1 + b = m'.generation + 1 + a
    omega
  ordered pc := (h pc).trans (Nat.le_succ _)
  ordered' pc := (h' pc).trans (Nat.le_succ _)

end

section

variable {re : UssrRegex} {text : List UInt8} {a b : Nat}

theorem addEntry_alike (at' : Nat) (entry : Entry) {m m' : Memory} (h : Alike a b m m') (hsaves : m.saves = m'.saves) :
    Option.Rel (fun r r' => r.1 = r'.1 ∧ Alike a b r.2 r'.2 ∧ r.2.saves = r'.2.saves) (addEntry re text at' entry m)
      (addEntry re text at' entry m') := by
  cases entry with
  | restore slot old => exact .some ⟨rfl, h.withSaves _ _, congrArg (List.set · slot old) hsaves⟩
  | way pc =>
    rw [addEntry, addEntry]
    refine Lockstep.rel_bind_same _ fun i hi => ?_
    by_cases hseen : m.marks pc = m.generation
    · rw [if_pos hseen, if_pos ((h.seen pc).mp hseen)]
      exact .some ⟨rfl, h, hsaves⟩
    · rw [if_neg hseen, if_neg fun hseen' => hseen ((h.seen pc).mpr hseen')]
      have hmark := h.mark pc
      cases i.way text at' with
      | go x => exact .some ⟨rfl, hmark, hsaves⟩
      | fork x y => exact .some ⟨rfl, hmark, hsaves⟩
      | save slot =>
        simp only [hsaves]
        exact Lockstep.rel_bind_same _ fun old _ => .some ⟨rfl, hmark.withSaves _ _, rfl⟩
      | stop => exact .some ⟨rfl, hmark, hsaves⟩
      | wait =>
        simp only [h.threads, hsaves]
        exact .some ⟨rfl, hmark.withThreads _, hsaves⟩

theorem addLoop_alike (at' : Nat) {stack : List Entry} {m m' : Memory} (h : Alike a b m m')
    (hsaves : m.saves = m'.saves) :
    Option.Rel (fun r r' => Alike a b r r' ∧ r.saves = r'.saves) (addLoop re text at' turns stack m)
      (addLoop re text at' turns stack m') := by
  induction turns generalizing stack m m' with
  | zero =>
    cases stack with
    | nil => exact .some ⟨h, hsaves⟩
    | cons entry stack => exact .none
  | succ turns ih =>
    cases stack with
    | nil => exact .some ⟨h, hsaves⟩
    | cons entry stack =>
      rw [addLoop, addLoop]
      refine Lockstep.rel_bind (addEntry_alike at' entry h hsaves) ?_
      rintro ⟨left, x⟩ ⟨_, y⟩ ⟨rfl, hxy, hsaves⟩
      exact ih hxy hsaves

theorem runThreads_alike (at' : Nat) (next : Option Nat) (after : Nat) {threads : List Thread} {m m' : Memory} (h : Alike a b m m') :
    Option.Rel (fun r r' => Alike a b r.1 r'.1 ∧ r.2 = r'.2) (runThreads re text at' next after threads m spans)
      (runThreads re text at' next after threads m' spans) := by
  induction threads generalizing m m' with
  | nil => exact .some ⟨h, rfl⟩
  | cons th rest ih =>
    rw [runThreads, runThreads]
    refine Lockstep.rel_bind_same _ fun i _ => ?_
    split_ifs
    · exact .some ⟨h, rfl⟩
    · refine Lockstep.rel_bind (addLoop_alike after (h.withSaves _ _) rfl) fun x y hxy => ih hxy.1
    · exact ih h

theorem startThread_alike (at' : Nat) (spans : Option (List Int)) {m m' : Memory} (h : Alike a b m m') :
    Option.Rel (Alike a b) (startThread re text at' spans m) (startThread re text at' spans m') := by
  unfold startThread
  split_ifs
  · exact Lockstep.rel_mono (addLoop_alike at' (h.withSaves _ _) rfl) fun x y hxy => hxy.1
  · exact .some h

theorem searchLoop_alike {m m' : Memory} (h : Alike a b m m') :
    Option.Rel (fun r r' => Alike a b r.1 r'.1 ∧ r.2 = r'.2) (searchLoop re text (· + 1) turns at' spans m)
      (searchLoop re text (· + 1) turns at' spans m') := by
  induction turns generalizing at' spans m m' with
  | zero => exact .none
  | succ turns ih =>
    rw [searchLoop, searchLoop]
    refine Lockstep.rel_bind (startThread_alike at' spans h) fun x y hxy => ?_
    rw [hxy.threads]
    split_ifs
    · exact .some ⟨hxy, rfl⟩
    · refine Lockstep.rel_bind (runThreads_alike at' _ _ (Alike.bumped hxy.ordered hxy.ordered' hxy.count [])) ?_
      rintro ⟨x, spans₁⟩ ⟨y, spans₂⟩ ⟨hrun, rfl⟩
      simp only
      split_ifs
      · exact .some ⟨hrun, rfl⟩
      · exact ih hrun

theorem searchWith_alike {m m' : Memory} (h : m.Ordered) (h' : m'.Ordered) (start : Nat) :
    Option.Rel (fun r r' => r.1.Ordered ∧ r.1.generation + m'.generation = r'.1.generation + m.generation ∧ r.2 = r'.2)
      (searchWith re text (· + 1) m start) (searchWith re text (· + 1) m' start) := by
  unfold searchWith
  split_ifs
  · exact .some ⟨h, Nat.add_comm _ _, rfl⟩
  · refine Lockstep.rel_mono (searchLoop_alike (Alike.bumped h h' (Nat.add_comm _ _) [])) ?_
    exact fun x y hxy => ⟨hxy.1.ordered, hxy.1.count, hxy.2⟩

end

section

variable {re : UssrRegex} {text : List UInt8}

theorem addEntry_generation {entry : Entry} {m : Memory} {r : List Entry × Memory}
    (h : addEntry re text at' entry m = some r) : r.2.generation = m.generation := by
  cases entry with
  | restore slot old => exact congrArg (fun r => r.2.generation) (Option.some.inj h).symm
  | way pc =>
    obtain ⟨i, _, h⟩ := Option.bind_eq_some_iff.mp h
    split_ifs at h
    · exact congrArg (fun r => r.2.generation) (Option.some.inj h).symm
    · cases hway : i.way text at' with
      | save slot =>
        rw [hway] at h
        obtain ⟨old, _, h⟩ := Option.bind_eq_some_iff.mp h
        exact congrArg (fun r => r.2.generation) (Option.some.inj h).symm
      | _ =>
        rw [hway] at h
        exact congrArg (fun r => r.2.generation) (Option.some.inj h).symm

theorem addLoop_generation {stack : List Entry} {m m' : Memory} (h : addLoop re text at' turns stack m = some m') :
    m'.generation = m.generation := by
  induction turns generalizing stack m with
  | zero =>
    cases stack with
    | nil => exact congrArg Memory.generation (Option.some.inj h).symm
    | cons entry stack => cases h
  | succ turns ih =>
    cases stack with
    | nil => exact congrArg Memory.generation (Option.some.inj h).symm
    | cons entry stack =>
      obtain ⟨r, hentry, h⟩ := Option.bind_eq_some_iff.mp h
      exact (ih h).trans (addEntry_generation hentry)

theorem reAddThread_generation {pc : Int} {m m' : Memory} (h : reAddThread re text at' pc m = some m') :
    m'.generation = m.generation := addLoop_generation h

theorem runThreads_generation {after : Nat} {next : Option Nat} {threads : List Thread} {m : Memory} (h : runThreads re text at' next after threads m spans = some r) :
    r.1.generation = m.generation := by
  induction threads generalizing m with
  | nil => exact congrArg (fun r => r.1.generation) (Option.some.inj h).symm
  | cons th rest ih =>
    rw [runThreads] at h
    obtain ⟨i, _, h⟩ := Option.bind_eq_some_iff.mp h
    split_ifs at h
    · exact congrArg (fun r => r.1.generation) (Option.some.inj h).symm
    · obtain ⟨m₁, hadd, h⟩ := Option.bind_eq_some_iff.mp h
      exact (ih h).trans ((reAddThread_generation hadd).trans rfl)
    · exact ih h

theorem startThread_generation {m m' : Memory}
    (h : startThread re text at' spans m = some m') : m'.generation = m.generation := by
  unfold startThread at h
  split_ifs at h
  · exact (reAddThread_generation h).trans rfl
  · exact congrArg Memory.generation (Option.some.inj h).symm

theorem searchLoop_succ {count : Nat → Nat} {m : Memory} : searchLoop re text count (turns + 1) at' spans m = some r ↔
      ∃ m₁, startThread re text at' spans m = some m₁ ∧
        if m₁.threads = [] ∧ (spans.isSome ∨ text.length ≤ at') then r = (m₁, spans)
        else ∃ r₁, runThreads re text at' ((charAt text at').map Prod.fst) (at' + ((charAt text at').map Prod.snd).getD 1) m₁.threads
            { m₁ with generation := count m₁.generation, threads := [] } spans = some r₁ ∧
          if charAt text at' = none then r = r₁
          else searchLoop re text count turns (at' + ((charAt text at').map Prod.snd).getD 1) r₁.2 r₁.1 = some r := by
  rw [searchLoop]
  refine Option.bind_eq_some_iff.trans (exists_congr fun m₁ => and_congr_right fun _ => ?_)
  split_ifs with hstop hlast
  · exact ⟨fun h => (Option.some.inj h).symm, fun h => h ▸ rfl⟩
  · simp only [hlast, Option.isNone_none, if_true, Option.bind_eq_bind, Option.bind_eq_some_iff]
    exact exists_congr fun r₁ => and_congr_right fun _ => ⟨fun h => (Option.some.inj h).symm, fun h => h ▸ rfl⟩
  · simp only [Option.isNone_iff_eq_none, if_neg hlast, Option.bind_eq_bind, Option.bind_eq_some_iff]

theorem searchLoop_counted {m : Memory}
    (h : searchLoop re text (· + 1) turns at' spans m = some r) :
    m.generation ≤ r.1.generation ∧ (r.1.generation < 2 ^ 32 → searchLoop re text bump turns at' spans m = some r) := by
  induction turns generalizing at' spans m with
  | zero => cases h
  | succ turns ih =>
    obtain ⟨m₁, hstart, h⟩ := searchLoop_succ.mp h
    have hgen₁ := startThread_generation hstart
    simp only [searchLoop_succ]
    by_cases hstop : m₁.threads = [] ∧ (spans.isSome ∨ text.length ≤ at')
    · rw [if_pos hstop] at h
      refine ⟨h ▸ hgen₁.ge, fun _ => ⟨m₁, hstart, ?_⟩⟩
      rwa [if_pos hstop]
    · rw [if_neg hstop] at h
      obtain ⟨r₁, hrun, h⟩ := h
      have hgen : r₁.1.generation = m₁.generation + 1 := runThreads_generation hrun
      have hbump (hlt : r₁.1.generation < 2 ^ 32) : bump m₁.generation = m₁.generation + 1 := Nat.mod_eq_of_lt (hgen ▸ hlt)
      by_cases hlast : charAt text at' = none
      · rw [if_pos hlast] at h
        refine ⟨by rw [h]; omega, fun hlt => ⟨m₁, hstart, ?_⟩⟩
        rw [if_neg hstop, hbump (h ▸ hlt)]
        exact ⟨r₁, hrun, by rwa [if_pos hlast]⟩
      · rw [if_neg hlast] at h
        obtain ⟨hle, hsame⟩ := ih h
        refine ⟨by omega, fun hlt => ⟨m₁, hstart, ?_⟩⟩
        rw [if_neg hstop, hbump (hle.trans_lt hlt)]
        exact ⟨r₁, hrun, by rw [if_neg hlast]; exact hsame hlt⟩

theorem searchWith_counted {m : Memory} {start : Nat}
    (h : searchWith re text (· + 1) m start = some r) (hlt : r.1.generation < 2 ^ 32) : ussrRegexSearch re text m start = some r := by
  unfold ussrRegexSearch searchWith at *
  split_ifs at h ⊢
  · exact h
  · obtain ⟨hle, hsame⟩ := searchLoop_counted h
    have hbump : bump m.generation = m.generation + 1 := Nat.mod_eq_of_lt (hle.trans_lt hlt)
    rw [hbump]
    exact hsame hlt

theorem ussrRegexSearch_used {m : Memory} (hm : m.Ordered) {start : Nat}
    (hfresh : searchWith re text (· + 1) .start start = some r) (hlt : m.generation + r.1.generation < 2 ^ 32) :
    ∃ m', ussrRegexSearch re text m start = some (m', r.2) ∧ m'.Ordered ∧ m'.generation = m.generation + r.1.generation := by
  have hrel : Option.Rel _ (searchWith re text (· + 1) m start) (searchWith re text (· + 1) .start start) :=
    searchWith_alike hm Memory.start_ordered start
  rw [hfresh] at hrel
  cases hused : searchWith re text (· + 1) m start with
  | none =>
    rw [hused] at hrel
    cases hrel
  | some r' =>
    rw [hused] at hrel
    obtain ⟨hordered, hcount, hspans⟩ := Option.rel_some_some.mp hrel
    have hgen : r'.1.generation = m.generation + r.1.generation := hcount.trans (Nat.add_comm _ _)
    exact ⟨r'.1, hspans ▸ searchWith_counted hused (hgen ▸ hlt), hordered, hgen⟩

end

end Ussr.Regex
