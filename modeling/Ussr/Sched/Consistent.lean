import Ussr.Sched.Model
import Mathlib.Data.List.Nodup

/-! What holds of the process table, the run queue and the event queue at every
point of a run: a runnable process is in its level of the run queue once, a
blocked one has an event of its own or awaits a process that still lives. -/

namespace Ussr.Sched

variable {pid : Nat} {proc : Proc}

theorem find_pid {s : Sched} (h : s.find pid = some proc) :
    proc.pid = pid := by
  have hspec := List.find?_some h
  simpa using hspec

theorem find_mem {s : Sched} (h : s.find pid = some proc) :
    proc ∈ s.procs := List.mem_of_find?_eq_some h

theorem find_of_mem {s : Sched} (hpids : (s.procs.map Proc.pid).Nodup)
    (h : proc ∈ s.procs) : s.find proc.pid = some proc := by
  unfold find
  induction hprocs : s.procs generalizing s with
  | nil => simp [hprocs] at h
  | cons first rest ih =>
    rw [hprocs] at h hpids
    rw [List.map_cons, List.nodup_cons] at hpids
    rw [List.find?_cons]
    rcases List.mem_cons.mp h with rfl | hrest
    · simp
    · have hne : first.pid ≠ proc.pid := fun heq =>
        hpids.1 (heq ▸ List.mem_map_of_mem hrest)
      simp only [hne, decide_false]
      exact ih (s := { s with procs := rest }) hpids.2 hrest rfl

theorem find_update {f : Proc → Proc} (hf : ∀ proc, (f proc).pid = proc.pid)
    (s : Sched) (q : Nat) :
    (s.update pid f).find q = if q = pid then (s.find pid).map f else s.find q := by
  unfold find update
  rw [List.find?_map]
  have hpred : ((fun proc : Proc => decide (proc.pid = q)) ∘
      fun proc => if proc.pid = pid then f proc else proc) = fun proc => decide (proc.pid = q) := by
    funext proc
    simp only [Function.comp]
    split_ifs
    · rw [hf]
    · rfl
  rw [hpred]
  split_ifs with hq
  · subst hq
    cases hfind : s.procs.find? fun proc => decide (proc.pid = q) with
    | none => rfl
    | some proc =>
      have hpid : proc.pid = q := find_pid (s := s) hfind
      simp [hpid]
  · cases hfind : s.procs.find? fun proc => decide (proc.pid = q) with
    | none => rfl
    | some proc =>
      have hpid : proc.pid = q := find_pid (s := s) hfind
      simp [hpid, hq]

theorem update_pids {f : Proc → Proc} (hf : ∀ proc, (f proc).pid = proc.pid)
    (s : Sched) : (s.update pid f).procs.map Proc.pid = s.procs.map Proc.pid := by
  unfold update
  rw [List.map_map]
  refine List.map_congr_left fun proc _ => ?_
  simp only [Function.comp]
  split_ifs
  · exact hf proc
  · rfl

structure TableFits (s : Sched) : Prop where
  pids : (s.procs.map Proc.pid).Nodup
  fresh : ∀ proc ∈ s.procs, proc.pid < s.nextPid

structure QueueFits (s : Sched) : Prop where
  bitmap : ∀ level : Fin schedLevels, s.bitmap.getLsb level = true ↔ s.queue level ≠ []
  once : ∀ level : Fin schedLevels, (s.queue level).Nodup
  queued : ∀ (level : Fin schedLevels) (pid : Nat), pid ∈ s.queue level ↔
    ∃ proc, s.find pid = some proc ∧ proc.state = .runnable ∧ proc.priority = level

structure EventsFit (armed : List (Nat × Nat)) (nextToken : Nat) : Prop where
  positive : 0 < nextToken
  tokens : (armed.map Prod.snd).Nodup
  range : ∀ entry ∈ armed, 0 < entry.2 ∧ entry.2 < nextToken

def Blocked (proc : Proc) : Prop := proc.state = .sleeping ∨ proc.state = .waiting

/-- What a blocked process waits for: an armed event with its token, or another process
that has not ended, unless excused. -/
def Caused (armed : List (Nat × Nat)) (excused : Proc → Prop) (s : Sched) (proc : Proc) : Prop :=
  proc.blockKind ≠ .await ∧ (proc.pid, proc.blockToken) ∈ armed ∨
  proc.state = .waiting ∧ proc.blockKind = .await ∧ proc.blockToken = 0 ∧
    proc.waitPid ≠ proc.pid ∧ ∃ target, s.find proc.waitPid = some target ∧ (target.state ≠ .zombie ∨ excused proc)

structure ProcFits (armed : List (Nat × Nat)) (excused : Proc → Prop) (s : Sched)
    (proc : Proc) : Prop where
  started : proc.state ≠ .new
  running : proc.state = .running → s.current = some proc.pid
  quiet : proc.state = .runnable ∨ proc.state = .running → (proc.pid, proc.blockToken) ∉ armed
  cause : Blocked proc → Caused armed excused s proc

/-- `pending` are events that have fired and are not delivered yet; an excused process awaits
one that is ending. -/
structure Fits (pending : List (Nat × Nat)) (excused : Proc → Prop) (s : Sched) : Prop where
  table : TableFits s
  queue : QueueFits s
  events : EventsFit (s.events.entries ++ pending) s.events.nextToken
  procs : ∀ pid proc, s.find pid = some proc →
    ProcFits (s.events.entries ++ pending) excused s proc
  active : ∀ pid, s.current = some pid →
    ∃ proc, s.find pid = some proc ∧ (proc.state = .running ∨ Blocked proc)

def Consistent (s : Sched) : Prop := Fits [] (fun _ => False) s

theorem queue_of_withQueue {s s' : Sched} {priority : Fin schedLevels} {pids : List Nat}
    (hrunq : s'.runq = s.withQueue priority pids) (level : Fin schedLevels) :
    s'.queue level = if priority = level then pids else s.queue level := by
  unfold Sched.queue
  rw [hrunq]
  show (s.runq.set priority.val pids)[level.val] = _
  rw [Vector.getElem_set]
  simp only [Fin.ext_iff, Fin.getElem_fin]

theorem queue_congr {s s' : Sched} (hrunq : s'.runq = s.runq) (level : Fin schedLevels) :
    s'.queue level = s.queue level := by
  unfold Sched.queue
  rw [hrunq]

theorem getLsbD_level (priority level : Fin schedLevels) :
    ((1 : BitVec schedLevels) <<< priority.val).getLsbD level.val = decide (priority = level) := by
  have hlevel : level.val < schedLevels := level.isLt
  have hone : ∀ i, (1 : BitVec schedLevels).getLsbD i = decide (i = 0) := fun i => by
    rw [show (1 : BitVec schedLevels) = BitVec.ofNat schedLevels 1 from rfl, BitVec.getLsbD_one]
    simp
  rw [BitVec.getLsbD_shiftLeft, hone, decide_eq_true hlevel, Bool.true_and]
  by_cases hlt : level.val < priority.val
  · have hne : priority ≠ level := fun heq => by simp [heq] at hlt
    simp [hlt, hne]
  · have hiff : level.val - priority.val = 0 ↔ priority = level := by
      rw [Fin.ext_iff]
      omega
    simp [hlt, hiff]

theorem getLsb_push (bitmap : BitVec schedLevels) (priority level : Fin schedLevels) :
    (bitmap ||| ((1 : BitVec schedLevels) <<< priority.val)).getLsb level =
      (bitmap.getLsb level || decide (priority = level)) := by
  show (bitmap ||| _).getLsbD level.val = (bitmap.getLsbD level.val || _)
  rw [BitVec.getLsbD_or, getLsbD_level]

theorem getLsb_pop (bitmap : BitVec schedLevels) (priority level : Fin schedLevels) :
    (bitmap &&& ~~~((1 : BitVec schedLevels) <<< priority.val)).getLsb level =
      (bitmap.getLsb level && !decide (priority = level)) := by
  have hlevel : level.val < schedLevels := level.isLt
  show (bitmap &&& _).getLsbD level.val = (bitmap.getLsbD level.val && _)
  rw [BitVec.getLsbD_and, BitVec.getLsbD_not, getLsbD_level, decide_eq_true hlevel, Bool.true_and]

theorem QueueFits.push {s s' : Sched} (h : QueueFits s)
    (hfind : ∀ q, s'.find q = if q = pid then some proc else s.find q)
    (hold : ∀ old, s.find pid = some old → old.state ≠ .runnable)
    (hstate : proc.state = .runnable)
    (hrunq : s'.runq = s.withQueue proc.priority (s.queue proc.priority ++ [pid]))
    (hbitmap : s'.bitmap = s.bitmap ||| ((1 : BitVec schedLevels) <<< proc.priority.val)) :
    QueueFits s' := by
  have hlevel := queue_of_withQueue hrunq
  have habsent : ∀ level : Fin schedLevels, pid ∉ s.queue level := by
    intro level hmem
    obtain ⟨old, hfound, hrunnable, _⟩ := (h.queued level pid).mp hmem
    exact hold old hfound hrunnable
  refine ⟨fun level => ?_, fun level => ?_, fun level q => ?_⟩
  · rw [hlevel, hbitmap, getLsb_push]
    split_ifs with heq
    · simp [heq]
    · rw [← h.bitmap level]
      simp [heq]
  · rw [hlevel]
    split_ifs with heq
    · refine List.nodup_append.mpr ⟨h.once _, List.nodup_singleton pid, ?_⟩
      rintro a ha b hb rfl
      rw [List.mem_singleton.mp hb] at ha
      exact habsent _ ha
    · exact h.once level
  · rw [hlevel, hfind]
    by_cases hq : q = pid
    · subst hq
      constructor
      · intro hmem
        refine ⟨proc, if_pos rfl, hstate, ?_⟩
        by_contra hne
        rw [if_neg hne] at hmem
        exact habsent level hmem
      · rintro ⟨other, hother, _, hpriority⟩
        rw [if_pos rfl] at hother
        cases hother
        rw [if_pos hpriority]
        exact List.mem_append_right _ List.mem_cons_self
    · rw [if_neg hq, ← h.queued level q]
      split_ifs with heq
      · simp [hq, heq]
      · rfl

theorem QueueFits.keep {s s' : Sched} (h : QueueFits s)
    (hfind : ∀ level q, (∃ proc, s'.find q = some proc ∧ proc.state = .runnable ∧
      proc.priority = level) ↔ ∃ proc, s.find q = some proc ∧ proc.state = .runnable ∧
        proc.priority = level)
    (hrunq : s'.runq = s.runq) (hbitmap : s'.bitmap = s.bitmap) : QueueFits s' := by
  refine ⟨fun level => ?_, fun level => ?_, fun level q => ?_⟩
  · rw [queue_congr hrunq, hbitmap]
    exact h.bitmap level
  · rw [queue_congr hrunq]
    exact h.once level
  · rw [queue_congr hrunq, hfind]
    exact h.queued level q

theorem QueueFits.pop {s s' : Sched} (h : QueueFits s) {proc' : Proc}
    (rest : List Nat) (hold : s.find pid = some proc)
    (hfind : ∀ q, s'.find q = if q = pid then some proc' else s.find q)
    (hstate : proc'.state ≠ .runnable) (hhead : s.queue proc.priority = pid :: rest)
    (hrunq : s'.runq = s.withQueue proc.priority rest)
    (hbitmap : s'.bitmap = if rest = [] then
      s.bitmap &&& ~~~((1 : BitVec schedLevels) <<< proc.priority.val) else s.bitmap) :
    QueueFits s' := by
  have hlevel := queue_of_withQueue hrunq
  have honce := h.once proc.priority
  rw [hhead, List.nodup_cons] at honce
  refine ⟨fun level => ?_, fun level => ?_, fun level q => ?_⟩
  · rw [hlevel, hbitmap]
    by_cases heq : proc.priority = level
    · rw [if_pos heq]
      subst heq
      have hset : s.bitmap.getLsb proc.priority = true := by
        rw [h.bitmap, hhead]
        exact List.cons_ne_nil _ _
      split_ifs with hrest
      · rw [getLsb_pop]
        simp [hrest]
      · simpa only [hset, true_iff] using hrest
    · rw [if_neg heq, ← h.bitmap level]
      split_ifs
      · rw [getLsb_pop]
        simp [heq]
      · rfl
  · rw [hlevel]
    split_ifs with heq
    · exact honce.2
    · exact h.once level
  · rw [hlevel, hfind]
    by_cases hq : q = pid
    · subst hq
      rw [if_pos rfl]
      constructor
      · intro hmem
        split_ifs at hmem with heq
        · exact absurd hmem honce.1
        · obtain ⟨other, hother, _, hpriority⟩ := (h.queued level q).mp hmem
          rw [hold] at hother
          cases hother
          exact absurd hpriority heq
      · rintro ⟨other, hother, hrunnable, _⟩
        cases hother
        exact absurd hrunnable hstate
    · rw [if_neg hq, ← h.queued level q]
      split_ifs with heq
      · subst heq
        rw [hhead, List.mem_cons, or_iff_right hq]
      · rfl

section

variable {pending pending' : List (Nat × Nat)} {excused excused' : Proc → Prop} {s s' : Sched}

theorem Fits.change (h : Fits pending excused s) (pid : Nat) (proc : Proc)
    (table : TableFits s') (queue : QueueFits s')
    (events : EventsFit (s'.events.entries ++ pending') s'.events.nextToken)
    (hfind : ∀ q, s'.find q = if q = pid then some proc else s.find q)
    (hproc : ProcFits (s'.events.entries ++ pending') excused' s' proc)
    (harmed : ∀ q t, q ≠ pid →
      ((q, t) ∈ s'.events.entries ++ pending' ↔ (q, t) ∈ s.events.entries ++ pending))
    (hcurrent : ∀ q, q ≠ pid → s.current = some q → s'.current = some q)
    (hlive : ∀ q other, q ≠ pid → s.find q = some other → other.waitPid = pid →
      proc.state ≠ .zombie ∨ excused' other)
    (hexcused : ∀ q other, q ≠ pid → s.find q = some other → excused other → excused' other)
    (hactive : ∀ q, s'.current = some q →
      ∃ proc, s'.find q = some proc ∧ (proc.state = .running ∨ Blocked proc)) :
    Fits pending' excused' s' := by
  refine ⟨table, queue, events, fun q other hother => ?_, hactive⟩
  rw [hfind] at hother
  split_ifs at hother with hq
  · cases hother
    exact hproc
  have hpid := find_pid hother
  have hold := h.procs q other hother
  refine ⟨hold.started, fun hrunning => ?_, fun hstate hmem => ?_, fun hblocked => ?_⟩
  · rw [hpid]
    exact hcurrent q hq (hpid ▸ hold.running hrunning)
  · rw [hpid] at hmem
    exact hold.quiet hstate (hpid.symm ▸ (harmed q _ hq).mp hmem)
  · rcases hold.cause hblocked with ⟨hkind, hmem⟩ |
      ⟨hstate, hkind, htoken, hself, target, htarget, hlives⟩
    · rw [hpid] at hmem
      exact Or.inl ⟨hkind, hpid.symm ▸ (harmed q _ hq).mpr hmem⟩
    · refine Or.inr ⟨hstate, hkind, htoken, hself, ?_⟩
      rw [hfind]
      split_ifs with hwait
      · exact ⟨proc, rfl, hlive q other hq hother hwait⟩
      · exact ⟨target, htarget, hlives.imp_right (hexcused q other hq hother)⟩

theorem EventsFit.perm {armed armed' : List (Nat × Nat)} {nextToken : Nat}
    (h : EventsFit armed nextToken) (hperm : armed.Perm armed') : EventsFit armed' nextToken :=
  ⟨h.positive, (hperm.map _).nodup_iff.mp h.tokens, fun entry hmem => h.range entry (hperm.mem_iff.mpr hmem)⟩

theorem Fits.retain (h : Fits pending excused s) (hprocs : s'.procs = s.procs)
    (hnext : s.nextPid ≤ s'.nextPid) (hrunq : s'.runq = s.runq) (hbitmap : s'.bitmap = s.bitmap)
    (hcurrent : s'.current = s.current)
    (events : EventsFit (s'.events.entries ++ pending') s'.events.nextToken)
    (hkept : ∀ entry ∈ s'.events.entries ++ pending', entry ∈ s.events.entries ++ pending)
    (hneeded : ∀ q proc, s.find q = some proc → Blocked proc →
      (q, proc.blockToken) ∈ s.events.entries ++ pending →
        (q, proc.blockToken) ∈ s'.events.entries ++ pending')
    (hexcused : ∀ q proc, s.find q = some proc → proc.state = .waiting →
      proc.blockKind = .await → excused proc → excused' proc) :
    Fits pending' excused' s' := by
  have hfind : ∀ q, s'.find q = s.find q := fun q => by rw [find, find, hprocs]
  refine ⟨⟨hprocs ▸ h.table.pids, fun proc hproc => ?_⟩,
    h.queue.keep (fun level q => by rw [hfind]) hrunq hbitmap, events, fun q proc hproc => ?_,
    fun q hq => ?_⟩
  · exact Nat.lt_of_lt_of_le (h.table.fresh proc (hprocs ▸ hproc)) hnext
  · rw [hfind] at hproc
    have hold := h.procs q proc hproc
    have hpid := find_pid hproc
    refine ⟨hold.started, fun hrunning => hcurrent ▸ hold.running hrunning,
      fun hstate hmem => hold.quiet hstate (hkept _ hmem), fun hblocked => ?_⟩
    rcases hold.cause hblocked with ⟨hkind, hmem⟩ |
      ⟨hstate, hkind, htoken, hself, target, htarget, hlives⟩
    · refine Or.inl ⟨hkind, ?_⟩
      rw [hpid] at hmem ⊢
      exact hneeded q proc hproc hblocked hmem
    · refine Or.inr ⟨hstate, hkind, htoken, hself, target, ?_, ?_⟩
      · rw [hfind]
        exact htarget
      · exact hlives.imp_right (hexcused q proc hproc hstate hkind)
  · rw [hcurrent] at hq
    rw [hfind]
    exact h.active q hq

end

end Ussr.Sched
