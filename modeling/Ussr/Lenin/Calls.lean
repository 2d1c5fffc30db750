import Ussr.Lenin.Run
import Ussr.Library.Halting

/-! What a run of Lenin calls against what it announces, and that it ends. -/

namespace Ussr.Lenin
open Stalin (Text)
open Real64 (ascii)

variable {w : World}
variable {budget : Int} {k c : Nat} {v' : Centrifuge}
variable {a : Args} {s s' : Session} {turns : Nat} {window : Int} {v : Centrifuge}

/-- From `s` to `s'` at most `k` calls, and none over the budget. -/
structure Spends (budget : Int) (k : Nat) (s s' : Session) : Prop where
  few : s'.calls ≤ s.calls + k
  within : 0 ≤ budget → s.calls ≤ budget → s'.calls ≤ budget

theorem Spends.of_calls (h : s'.calls = s.calls) (k : Nat) : Spends budget k s s' :=
  ⟨h ▸ Nat.le_add_right _ _, fun _ hs => h ▸ hs⟩

theorem Spends.refl (budget : Int) (k : Nat) (s : Session) : Spends budget k s s := .of_calls rfl k

theorem Spends.trans {l : Nat} {s'' : Session} (h : Spends budget k s s')
    (h' : Spends budget l s' s'') : Spends budget (k + l) s s'' := by
  constructor
  · have hfirst := h.few
    have hsecond := h'.few
    omega
  · intro hb hs
    exact h'.within hb (h.within hb hs)

theorem Spends.mono {l : Nat} (h : Spends budget k s s') (hkl : k ≤ l) :
    Spends budget l s s' :=
  ⟨h.few.trans (Nat.add_le_add_left hkl _), h.within⟩

theorem leninAsk_spends (budget : Int) (s : Session) : Spends budget 1 s (leninAsk w budget s).2 := by
  unfold leninAsk
  split
  · exact .refl budget 1 s
  · rename_i hspent
    have hleft : ¬(0 ≤ budget ∧ budget ≤ s.calls) := by simpa [leninSpent] using hspent
    split
    · exact ⟨Nat.le_add_right _ _, fun _ hs => hs⟩
    · exact ⟨Nat.le_refl _, fun hb _ => by simp only; omega⟩
    · exact ⟨Nat.le_refl _, fun hb _ => by simp only; omega⟩

theorem runWindow_calls {t0 : Int} {runs : Nat} {now : Int}
    {r : Option (Nat × Int)} (h : runWindow w window t0 turns runs now s = some (r, s')) : s'.calls = s.calls := by
  induction turns generalizing runs now s with
  | zero => cases h
  | succ turns ih =>
    rw [runWindow] at h
    split at h
    · by_cases hst : w.status s.shells ≠ 0
      · rw [leninShell] at h
        simp only [if_pos hst] at h
        cases h
        rfl
      · rw [leninShell] at h
        simp only [if_neg hst] at h
        have hrest := ih h
        exact hrest
    · cases h
      rfl

theorem runTest_calls (test : Bool) (c : Candidate) (s : Session) : (runTest w test c s).2.calls = s.calls := by
  unfold runTest
  split <;> rfl

theorem runScore_calls (test score : Bool) (c : Candidate) (s : Session) :
    (runScore w test score c s).2.calls = s.calls := by
  unfold runScore
  split <;> rfl

theorem runHoldout_calls (holdout : Bool) (c : Candidate) (s : Session) :
    (runHoldout w holdout c s).2.calls = s.calls := by
  unfold runHoldout
  split <;> rfl

theorem runTimed_calls {c c' : Candidate}
    (h : runTimed w turns window c s = some (c', s')) : s'.calls = s.calls := by
  unfold runTimed at h
  split at h
  · cases h
    rfl
  · obtain ⟨timed, hrun, hpair⟩ := Option.map_eq_some_iff.mp h
    cases hpair
    have hwindow := runWindow_calls hrun
    exact hwindow

theorem leninMeasure_calls {path code : Text} {cycle : Nat} {c : Candidate} (h : leninMeasure w turns a path code cycle window s = some (c, s')) : s'.calls = s.calls := by
  unfold leninMeasure at h
  split at h
  · cases h
    rfl
  · have htimed := runTimed_calls h
    exact htimed.trans ((runHoldout_calls _ _ _).trans ((runScore_calls _ _ _ _).trans (runTest_calls _ _ _)))

theorem refineLoop_spends {left : Nat} {found found' : List Text}
    (h : refineLoop w turns a left k found s = some (found', s')) : Spends a.budget (2 * left) s s' := by
  induction left generalizing k found s with
  | zero =>
    cases h
    exact .refl _ _ _
  | succ left ih =>
    have hdraft := leninAsk_spends (w := w) a.budget s
    rw [refineLoop] at h
    generalize leninAsk w a.budget s = first at h hdraft
    obtain ⟨_ | reply, s₁⟩ := first
    · cases h
      exact hdraft.mono (by omega)
    · obtain ⟨⟨_, s₂⟩, hmeasure, h⟩ := Option.bind_eq_some_iff.mp h
      have hdraft := hdraft.trans (.of_calls (leninMeasure_calls hmeasure) 0)
      have hlisted := leninAsk_spends (w := w) a.budget s₂
      simp only at h
      generalize leninAsk w a.budget s₂ = second at h hlisted
      have hround := hdraft.trans hlisted
      obtain ⟨_ | listed, s₃⟩ := second
      · cases h
        exact hround.mono (by omega)
      · simp only [Option.elim_some] at h
        split at h
        · cases h
          exact hround.mono (by omega)
        · exact (hround.trans (ih h)).mono (by omega)

def Args.refining (a : Args) : Nat := if a.refine ∧ 0 < a.refineRounds then 1 + 2 * (a.refineRounds - 1).toNat else 0

theorem leninRefine_spends {tasks : List Text}
    (h : leninRefine w turns a s = some (tasks, s')) : Spends a.budget a.refining s s' := by
  unfold leninRefine at h
  split at h
  · cases h
    exact .refl _ _ _
  · rename_i hrefines
    have hrefining : a.refining = 1 + 2 * (a.refineRounds - 1).toNat := if_pos ⟨by simpa using mt Or.inl hrefines, by omega⟩
    have hbetter := leninAsk_spends (w := w) a.budget s
    generalize leninAsk w a.budget s = first at h hbetter
    obtain ⟨_ | better, s₁⟩ := first
    · cases h
      exact hbetter.mono (by omega)
    · obtain ⟨⟨_, _⟩, hloop, hpair⟩ := Option.map_eq_some_iff.mp h
      cases hpair
      exact hrefining ▸ hbetter.trans (refineLoop_spends hloop)

theorem askModel_spends {model : Text}
    (h : askModel w turns a c v model = some v') : Spends a.budget 1 v.session v'.session := by
  unfold askModel at h
  split at h
  · cases h
    exact .refl _ _ _
  split at h
  · cases h
    exact .refl _ _ _
  have hasked := leninAsk_spends (w := w) a.budget v.session
  generalize leninAsk w a.budget v.session = answer at h hasked
  obtain ⟨_ | reply, s₁⟩ := answer
  · cases h
    exact hasked
  · obtain ⟨⟨_, _⟩, hmeasure, hpair⟩ := Option.map_eq_some_iff.mp h
    cases hpair
    exact hasked.trans (.of_calls (leninMeasure_calls hmeasure) 0)

theorem askModels_spends {models : List Text}
    (h : models.foldlM (askModel w turns a c) v = some v') : Spends a.budget models.length v.session v'.session := by
  induction models generalizing v with
  | nil =>
    cases h
    exact .refl _ _ _
  | cons model models ih =>
    rw [List.foldlM_cons] at h
    obtain ⟨v₁, hmodel, hrest⟩ := Option.bind_eq_some_iff.mp h
    exact ((askModel_spends hmodel).trans (ih hrest)).mono (by simp only [List.length_cons]; omega)

theorem refineAgain_spends (a : Args) (v : Centrifuge) : Spends a.budget 1 v.session (refineAgain w a v).session := by
  have hsession : (refineAgain w a v).session = (leninAsk w a.budget v.session).2 := by
    unfold refineAgain
    simp only
    split <;> rfl
  exact hsession ▸ leninAsk_spends a.budget v.session

def Args.Returns (a : Args) : Prop := a.method = .enrich ∧ a.refine ∧ 0 < a.refineRounds

instance (a : Args) : Decidable a.Returns := inferInstanceAs (Decidable (_ ∧ _))

theorem endCycle_spends (a : Args) (c : Nat) (v : Centrifuge) :
    Spends a.budget (if a.Returns ∧ c < a.cycles then 1 else 0) v.session (endCycle w a c v).session := by
  unfold endCycle
  extract_lets best stale next
  by_cases hstale : a.method = .enrich ∧ next.go ∧ a.patience ≤ stale ∧ (c : Int) < a.cycles
  · rw [if_pos hstale]
    by_cases hfails : a.refine ∧ 0 < a.refineRounds ∧ best.elim true Candidate.passed = false
    · have hreturns : a.Returns ∧ (c : Int) < a.cycles := ⟨⟨hstale.1, hfails.1, hfails.2.1⟩, hstale.2.2.2⟩
      rw [if_pos hfails, if_pos hreturns]
      exact refineAgain_spends a next
    · rw [if_neg hfails]
      exact .refl _ _ _
  · rw [if_neg hstale]
    exact .refl _ _ _

theorem cycleLoop_spends {left : Nat} (hleft : (left + c : Int) = a.cycles + 1)
    (h : cycleLoop w turns a left c v = some v') :
    Spends a.budget (a.models.length * left + if a.Returns then left - 1 else 0) v.session v'.session := by
  induction left generalizing c v with
  | zero =>
    cases h
    exact .refl _ _ _
  | succ left ih =>
    rw [cycleLoop] at h
    split at h
    · cases h
      exact .refl _ _ _
    · obtain ⟨v₁, hmodels, hrest⟩ := Option.bind_eq_some_iff.mp h
      have hcycle := (askModels_spends hmodels).trans (endCycle_spends (w := w) a c v₁)
      refine (hcycle.trans (ih (by omega) hrest)).mono ?_
      rw [Nat.mul_succ]
      by_cases hreturns : a.Returns
      · by_cases hlast : (c : Int) < a.cycles
        · simp only [hreturns, hlast, and_self, if_true]
          omega
        · simp only [hreturns, hlast, and_false, if_true, if_false]
          omega
      · simp only [hreturns, false_and, if_false]
        omega

theorem voteLoop_spends (budget : Int) (count : Nat) (models : List Text) (votes : List Nat) (any : Bool) (s : Session) :
    Spends budget models.length s (voteLoop w budget count models votes any s).2 := by
  induction models generalizing votes any s with
  | nil => exact .refl _ _ _
  | cons model models ih =>
    have hasked := leninAsk_spends (w := w) budget s
    rw [voteLoop, List.length_cons, Nat.add_comm]
    simp only
    generalize leninAsk w budget s = answer at hasked ⊢
    cases answer.1.bind fun t => voteOf t count with
    | none => exact hasked.trans (ih votes any answer.2)
    | some k => exact hasked.trans (ih _ true answer.2)

theorem leninVote_spends (budget : Int) (models : List Text) (candidates : List Candidate) (s : Session) :
    Spends budget models.length s (leninVote w budget models candidates s).2 :=
  voteLoop_spends budget candidates.length models _ false s

theorem measureBaseline_calls (h : measureBaseline w turns a s = some s') :
    s'.calls = s.calls := by
  unfold measureBaseline at h
  split at h
  · cases hread : w.said s.reads with
    | none =>
      simp only [leninRead, hread, Option.elim_none] at h
      cases h
      rfl
    | some code =>
      simp only [leninRead, hread, Option.elim_some] at h
      obtain ⟨⟨_, _⟩, hmeasure, hpair⟩ := Option.map_eq_some_iff.mp h
      cases hpair
      have hcalls := leninMeasure_calls hmeasure
      exact hcalls
  · cases h
    rfl

/-- The formula of `lenin_run` in integers without bounds. -/
def Args.stages (a : Args) : Int :=
  a.models.length * a.cycles + (if a.refine ∧ 0 < a.refineRounds then 1 + 2 * (a.refineRounds - 1) else 0) +
    (if a.measured = false then (a.models.length : Int) else 0) + if a.Returns then a.cycles - 1 else 0

theorem Args.Accepted.spends (ha : a.Accepted) {r : Int}
    (h : leninRun w turns a = some (r, s)) : s.calls ≤ a.stages ∧ (0 ≤ a.budget → s.calls ≤ a.budget) := by
  unfold leninRun at h
  obtain ⟨⟨reqs, s₁⟩, hrefine, h⟩ := Option.bind_eq_some_iff.mp h
  obtain ⟨v, hcycles, h⟩ := Option.bind_eq_some_iff.mp h
  have hcycle := ha.cycles
  have hloop := (leninRefine_spends hrefine).trans (cycleLoop_spends (by omega) hcycles)
  have hall : Spends a.budget (a.refining + (a.models.length * a.cycles.toNat + if a.Returns then a.cycles.toNat - 1 else 0) +
      if a.measured = false then a.models.length else 0) ⟨0, 0, 0, 0, 0⟩ s := by
    split at h
    · cases h
      exact hloop.mono (Nat.le_add_right _ _)
    · simp only at h
      obtain ⟨s₂, hbase, hpair⟩ := Option.map_eq_some_iff.mp h
      cases hpair
      refine hloop.trans ?_
      by_cases hmeasured : a.measured = true
      · rw [if_pos hmeasured] at hbase
        exact .of_calls (measureBaseline_calls hbase) _
      · rw [if_neg hmeasured] at hbase
        rw [if_pos (Bool.eq_false_of_not_eq_true hmeasured)]
        exact (leninVote_spends a.budget a.models v.all v.session).trans (.of_calls (measureBaseline_calls hbase) 0)
  have hfew : s.calls ≤ 0 + _ := hall.few
  refine ⟨?_, fun hb => hall.within hb hb⟩
  have hmul : ((a.models.length * a.cycles.toNat : Nat) : Int) = a.models.length * a.cycles := by
    rw [Nat.cast_mul, Int.toNat_of_nonneg (by omega)]
  unfold Args.stages
  unfold Args.refining at hfew
  split at hfew <;> split at hfew <;> split at hfew <;> simp only [*, if_true, if_false, and_self] <;> omega

section

def World.Advances (w : World) : Prop := ∀ n bound, ∃ m, bound ≤ w.clock (n + m)

theorem runWindow_halts_of {t0 : Int} (m runs : Nat) (now : Int) (s : Session)
    (h : window + t0 ≤ w.clock (s.times + m)) : Halts fun turns => runWindow w window t0 turns runs now s := by
  induction m generalizing runs now s with
  | zero =>
    have hover : Halts fun turns => runWindow w window t0 turns (runs + 1) (w.clock s.times)
        ⟨s.calls, s.asks, s.shells + 1, s.reads, s.times + 1⟩ :=
      Halts.of_succ (Halts.ite (fun hlt => absurd h (by rw [Nat.add_zero]; omega)) fun _ => Halts.pure _) fun _ => rfl
    exact Halts.of_succ (Halts.ite (fun _ => Halts.ite (fun _ => Halts.pure _) fun _ => hover) fun _ => Halts.pure _) fun _ => rfl
  | succ m ih =>
    have hrest := ih (runs + 1) (w.clock s.times) ⟨s.calls, s.asks, s.shells + 1, s.reads, s.times + 1⟩
      (by rw [Nat.add_right_comm]; exact h)
    exact Halts.of_succ (Halts.ite (fun _ => Halts.ite (fun _ => Halts.pure _) fun _ => hrest) fun _ => Halts.pure _) fun _ => rfl

variable (hw : w.Advances)
include hw

theorem runWindow_halts (window t0 : Int) (runs : Nat) (now : Int) (s : Session) :
    Halts fun turns => runWindow w window t0 turns runs now s := by
  obtain ⟨m, hm⟩ := hw s.times (window + t0)
  exact runWindow_halts_of m runs now s hm

theorem runTimed_halts (window : Int) (c : Candidate) (s : Session) : Halts fun turns => runTimed w turns window c s :=
  Halts.ite (fun _ => Halts.pure _) fun _ => (runWindow_halts hw window _ 0 _ _).map _

theorem leninMeasure_halts (a : Args) (path code : Text) (cycle : Nat) (window : Int) (s : Session) :
    Halts fun turns => leninMeasure w turns a path code cycle window s :=
  Halts.ite (fun _ => Halts.pure _) fun _ => runTimed_halts hw window _ _

theorem refineLoop_halts (a : Args) (left k : Nat) (found : List Text) (s : Session) :
    Halts fun turns => refineLoop w turns a left k found s := by
  induction left generalizing k found s with
  | zero => exact Halts.pure _
  | succ left ih =>
    refine Halts.elim (Halts.pure _) fun reply => ?_
    refine Halts.bind (leninMeasure_halts hw a _ _ _ _ _) fun drafted => ?_
    exact Halts.elim (Halts.pure _) fun listed => Halts.ite (fun _ => Halts.pure _) fun _ => ih _ _ _

theorem leninRefine_halts (a : Args) (s : Session) : Halts fun turns => leninRefine w turns a s :=
  Halts.ite (fun _ => Halts.pure _) fun _ =>
    Halts.elim (Halts.pure _) fun _ => (refineLoop_halts hw a _ _ _ _).map _

theorem askModel_halts (a : Args) (c : Nat) (v : Centrifuge) (model : Text) : Halts fun turns => askModel w turns a c v model :=
  Halts.ite (fun _ => Halts.pure _) fun _ => Halts.ite (fun _ => Halts.pure _) fun _ =>
    Halts.elim (Halts.pure _) fun _ => (leninMeasure_halts hw a _ _ _ _ _).map _

theorem cycleLoop_halts (a : Args) (left c : Nat) (v : Centrifuge) : Halts fun turns => cycleLoop w turns a left c v := by
  induction left generalizing c v with
  | zero => exact Halts.pure _
  | succ left ih =>
    refine Halts.ite (fun _ => Halts.pure _) fun _ => ?_
    exact Halts.bind (Halts.foldlM (askModel_halts hw a c) a.models v) fun v => ih (c + 1) _

theorem measureBaseline_halts (a : Args) (s : Session) : Halts fun turns => measureBaseline w turns a s :=
  Halts.ite (fun _ => Halts.elim (Halts.pure _) fun _ => (leninMeasure_halts hw a _ _ _ _ _).map _) fun _ => Halts.pure _

theorem leninRun_halts (a : Args) : Halts fun turns => leninRun w turns a := by
  refine Halts.bind (leninRefine_halts hw a _) fun refined => ?_
  refine Halts.bind (cycleLoop_halts hw a _ 1 _) fun v => ?_
  exact Halts.ite (fun _ => Halts.pure _) fun _ => (measureBaseline_halts hw a _).map _

end

theorem Args.calls_eq (a : Args) : a.calls = BitVec.ofInt 64 a.stages := by
  have hminus (x y : Int) : BitVec.ofInt 64 (x - y) = BitVec.ofInt 64 x + -BitVec.ofInt 64 y := by
    rw [Int.sub_eq_add_neg, BitVec.ofInt_add, BitVec.ofInt_neg]
  have hmodels : BitVec.ofInt 64 (a.models.length : Int) = BitVec.ofNat 64 a.models.length := BitVec.ofInt_natCast 64 _
  have hzero (x : BitVec 64) : x + BitVec.ofInt 64 0 = x := BitVec.add_zero x
  have hone : BitVec.ofInt 64 1 = 1 := rfl
  have htwo : BitVec.ofInt 64 2 = 2 := rfl
  have hreturns : (if a.Returns then a.cycles - 1 else 0) =
      if a.method = .enrich ∧ a.refine ∧ 0 < a.refineRounds then a.cycles - 1 else 0 := rfl
  unfold Args.calls Args.stages
  rw [hreturns]
  split <;> split <;> split <;>
    simp only [BitVec.ofInt_add, BitVec.ofInt_mul, BitVec.sub_eq_add_neg, BitVec.add_assoc, hminus, hmodels, hzero, hone, htwo]

theorem Args.Accepted.announced_toInt (ha : a.Accepted) :
    a.announced.toInt = if 0 ≤ a.budget ∧ a.budget < a.stages.bmod 18446744073709551616 then a.budget
      else a.stages.bmod 18446744073709551616 := by
  have hbudget : (BitVec.ofInt 64 a.budget).toInt = a.budget := by
    have hrange := ha.budget
    rw [BitVec.toInt_ofInt, Int.bmod_def]
    omega
  have hcalls : a.calls.toInt = a.stages.bmod 18446744073709551616 := by
    rw [a.calls_eq, BitVec.toInt_ofInt]
  have hzero : (0 : BitVec 64).toInt = 0 := rfl
  unfold Args.announced
  simp only [BitVec.sle_eq_decide, BitVec.slt_eq_decide, hzero, hbudget, hcalls, Bool.and_eq_true, decide_eq_true_eq]
  rw [apply_ite BitVec.toInt, hbudget, hcalls]

def Args.Counted (a : Args) : Prop :=
  a.stages < 9223372036854775808 ∨ 0 ≤ a.budget ∧ a.budget ≤ a.stages.bmod 18446744073709551616

theorem Args.Accepted.stages_nonneg (ha : a.Accepted) : 0 ≤ a.stages := by
  have hcycles := ha.cycles
  have hproduct : 0 ≤ (a.models.length : Int) * a.cycles := Int.mul_nonneg (by omega) (by omega)
  unfold Args.stages
  split <;> split <;> split <;> omega

/-- What a run calls is at most what it announces, and it ends where the clock goes on. -/
theorem announced_not_exceeded (a : Args) (ha : a.Accepted) (hcounted : a.Counted) (w : World) :
    (∀ turns r s, leninRun w turns a = some (r, s) → s.calls ≤ a.announced.toInt) ∧
      (w.Advances → ∃ turns r, leninRun w turns a = some r) := by
  refine ⟨fun turns r s hrun => ?_, fun hw => (leninRun_halts hw a).result⟩
  obtain ⟨hstages, hbudget⟩ := ha.spends hrun
  rw [ha.announced_toInt]
  split
  · rename_i hgiven
    exact hbudget hgiven.1
  · rename_i hgiven
    rcases hcounted with hsmall | ⟨hpos, hle⟩
    · have hnonneg := ha.stages_nonneg
      have hfigure : a.stages.bmod 18446744073709551616 = a.stages := by
        rw [Int.bmod_def]
        omega
      rw [hfigure]
      exact hstages
    · have hequal : a.budget = a.stages.bmod 18446744073709551616 := by omega
      rw [← hequal]
      exact hbudget hpos

theorem cycleLoop_stopped (h : v.go = false) (turns : Nat) (a : Args) (left c : Nat) :
    cycleLoop w turns a left c v = some v := by
  cases left with
  | zero => rfl
  | succ left => rw [cycleLoop, if_pos h]

theorem endCycle_steady (h : a.method ≠ .enrich) (c : Nat) (v : Centrifuge) :
    ∃ stale, endCycle w a c v = { v with best := leninBest v.all a.criteria, stale } := by
  unfold endCycle
  extract_lets best stale next
  exact ⟨stale, if_neg fun hstale => h hstale.1⟩

def plentyArgs (cycles : Int) : Args where
  models := [ascii "a", ascii "b"]
  criteria := .size
  method := .rounds
  dir := ascii "lenin-out"
  ext := ascii ".txt"
  cycles := cycles
  test := false
  score := true
  holdout := false
  baseline := false
  window := 3
  refine := false
  refineRounds := 1
  patience := 1
  target := 1
  budget := -1
  tasks := []

def plentyWorld : World where
  reply _ := .text (ascii "x")
  status _ := 0
  said _ := some (ascii "1")
  clock n := n

theorem plentyArgs_accepted {cycles : Int} (h : 1 ≤ cycles ∧ cycles ≤ 4611686018427387904) : (plentyArgs cycles).Accepted where
  models := by simp [plentyArgs]
  cycles := h
  rounds := by simp [plentyArgs]
  budget := by simp [plentyArgs]
  speed := by simp [plentyArgs]
  holdout := by simp [plentyArgs]
  target := by simp [plentyArgs]
  patience := by simp [plentyArgs]
  enrich := by simp [plentyArgs]

theorem announced_not_exceeded_plenty :
    (plentyArgs 3).Accepted ∧ (plentyArgs 3).Counted ∧
      (∀ turns r s, leninRun plentyWorld turns (plentyArgs 3) = some (r, s) → s.calls ≤ (plentyArgs 3).announced.toInt) ∧
      ((plentyArgs 3).announced.toInt = 6 ∧ ∃ turns r, leninRun plentyWorld turns (plentyArgs 3) = some r) := by
  have haccepted : (plentyArgs 3).Accepted := plentyArgs_accepted (by decide)
  have hcounted : (plentyArgs 3).Counted := .inl (by decide)
  have hclock : plentyWorld.Advances := fun n bound => ⟨bound.toNat, by simp only [plentyWorld]; omega⟩
  have hrun := announced_not_exceeded (plentyArgs 3) haccepted hcounted plentyWorld
  exact ⟨haccepted, hcounted, hrun.1, by decide, hrun.2 hclock⟩

/-- With 2^62 cycles the first call is more than was announced. -/
theorem announced_exceeded : (plentyArgs 4611686018427387904).Accepted ∧
    (plentyArgs 4611686018427387904).announced.toInt = -9223372036854775808 ∧
      ∃ s, leninRun plentyWorld 0 (plentyArgs 4611686018427387904) = some (0, s) ∧ s.calls = 1 := by
  have hcycle : (List.foldlM (askModel plentyWorld 0 (plentyArgs 4611686018427387904) 1)
      ⟨[], none, [], 0, true, ⟨0, 0, 0, 0, 0⟩⟩ [ascii "a", ascii "b"]).elim false (fun v =>
        v.go = false ∧ v.session.calls = 1 ∧ v.all ≠ [] ∧ (leninBest v.all .size).elim false Candidate.passed) = true := by
    decide +kernel
  refine ⟨plentyArgs_accepted (by decide), by decide, ?_⟩
  obtain ⟨v, hv⟩ : ∃ v, List.foldlM (askModel plentyWorld 0 (plentyArgs 4611686018427387904) 1)
      ⟨[], none, [], 0, true, ⟨0, 0, 0, 0, 0⟩⟩ [ascii "a", ascii "b"] = some v := by
    cases hfold : List.foldlM (askModel plentyWorld 0 (plentyArgs 4611686018427387904) 1)
        ⟨[], none, [], 0, true, ⟨0, 0, 0, 0, 0⟩⟩ [ascii "a", ascii "b"] with
    | none =>
      rw [hfold] at hcycle
      cases hcycle
    | some v => exact ⟨v, rfl⟩
  rw [hv, Option.elim_some, decide_eq_true_eq] at hcycle
  obtain ⟨hgo, hcalls, hsome, hpassed⟩ := hcycle
  obtain ⟨stale, hend⟩ := endCycle_steady (w := plentyWorld) (a := plentyArgs 4611686018427387904) (by decide) 1 v
  have hcycles : cycleLoop plentyWorld 0 (plentyArgs 4611686018427387904) (4611686018427387903 + 1) 1
      ⟨[], none, [], 0, true, ⟨0, 0, 0, 0, 0⟩⟩ = some (endCycle plentyWorld (plentyArgs 4611686018427387904) 1 v) := by
    rw [cycleLoop, if_neg (by decide), show (plentyArgs 4611686018427387904).models = [ascii "a", ascii "b"] from rfl, hv,
      Option.bind_some]
    exact cycleLoop_stopped (by rw [hend]; exact hgo) _ _ _ _
  rw [hend] at hcycles
  have hrefine : leninRefine plentyWorld 0 (plentyArgs 4611686018427387904) ⟨0, 0, 0, 0, 0⟩ =
      some ([], ⟨0, 0, 0, 0, 0⟩) := rfl
  refine ⟨v.session, ?_, hcalls⟩
  have hleft : (plentyArgs 4611686018427387904).cycles.toNat = 4611686018427387903 + 1 := rfl
  have hmeasured : (plentyArgs 4611686018427387904).measured = true := rfl
  have hbase (s : Session) : measureBaseline plentyWorld 0 (plentyArgs 4611686018427387904) s = some s := rfl
  simp only [leninRun, hrefine, Option.bind_some, hleft, hcycles, if_neg hsome, hmeasured, if_true, hbase, Option.map_some]
  exact congrArg (fun r => some (r, v.session)) (if_pos hpassed)

end Ussr.Lenin
