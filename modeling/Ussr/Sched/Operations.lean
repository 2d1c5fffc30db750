import Ussr.Sched.Consistent

/-! Each operation of the scheduler keeps its invariant. -/

namespace Ussr.Sched

theorem setState_pid (state : ProcState) (proc : Proc) : (setState state proc).pid = proc.pid := rfl

theorem TableFits.update {s : Sched} (h : TableFits s)
    (hf : ∀ proc, (f proc).pid = proc.pid) : TableFits (s.update pid f) := by
  refine ⟨by rw [update_pids hf]; exact h.pids, fun proc hproc => ?_⟩
  obtain ⟨old, hold, rfl⟩ := List.mem_map.mp hproc
  have hlt := h.fresh old hold
  split_ifs
  · rw [hf]
    exact hlt
  · exact hlt

theorem TableFits.of_procs {s t : Sched} (h : TableFits s) (hprocs : t.procs = s.procs)
    (hnext : t.nextPid = s.nextPid) : TableFits t :=
  ⟨hprocs ▸ h.pids, by rw [hprocs, hnext]; exact h.fresh⟩

theorem enqueue_eq {s : Sched} (h : s.find pid = some proc) :
    s.enqueue pid = { s.update pid (setState .runnable) with
      runq := s.withQueue proc.priority (s.queue proc.priority ++ [pid])
      bitmap := s.bitmap ||| ((1 : BitVec schedLevels) <<< proc.priority.val) } := by
  unfold enqueue
  rw [h]

theorem find_enqueue {s : Sched} (h : s.find pid = some proc) (q : Nat) :
    (s.enqueue pid).find q = if q = pid then some (setState .runnable proc) else s.find q := by
  rw [enqueue_eq h]
  show (s.update pid (setState .runnable)).find q = _
  rw [find_update (setState_pid _), h]
  rfl

section

variable {pending pending' : List (Nat × Nat)} {excused excused' : Proc → Prop} {s t : Sched}
variable {pid : Nat} {f : Proc → Proc} {proc : Proc}

/-- A process that is not queued becomes runnable: `t` differs from `s` in its record, in armed
entries of its own and perhaps in the process that runs. -/
theorem Fits.enqueue (h : Fits pending excused s) (pid : Nat) (proc : Proc)
    (htable : TableFits t)
    (hfind : ∀ q, t.find q = if q = pid then some proc else s.find q)
    (hold : ∀ old, s.find pid = some old → old.state ≠ .runnable)
    (hrunq : t.runq = s.runq) (hbitmap : t.bitmap = s.bitmap)
    (events : EventsFit (t.events.entries ++ pending') t.events.nextToken)
    (harmed : ∀ q token, q ≠ pid →
      ((q, token) ∈ t.events.entries ++ pending' ↔ (q, token) ∈ s.events.entries ++ pending))
    (hquiet : (pid, proc.blockToken) ∉ t.events.entries ++ pending')
    (hcurrent : t.current = s.current ∨ t.current = none ∧ s.current = some pid)
    (hother : s.current = some pid → t.current = none)
    (hexcused : ∀ q other, q ≠ pid → s.find q = some other → excused other → excused' other) :
    Fits pending' excused' (t.enqueue pid) := by
  have htpid : t.find pid = some proc := by rw [hfind, if_pos rfl]
  have hpid : proc.pid = pid := find_pid htpid
  have hfind' : ∀ q, (t.enqueue pid).find q =
      if q = pid then some (setState .runnable proc) else s.find q := by
    intro q
    rw [find_enqueue htpid, hfind]
    split_ifs <;> rfl
  have hevents : (t.enqueue pid).events = t.events := by
    rw [enqueue_eq htpid]
    rfl
  have hrunning : (t.enqueue pid).current = t.current := by
    rw [enqueue_eq htpid]
    rfl
  refine h.change pid (setState .runnable proc) ?_ ?_ ?_ hfind' ?_ ?_ ?_ ?_
    hexcused ?_
  · rw [enqueue_eq htpid]
    exact (htable.update (setState_pid _)).of_procs rfl rfl
  · refine h.queue.push hfind' hold rfl ?_ ?_
    · rw [enqueue_eq htpid]
      simp only [Sched.withQueue, Sched.queue, hrunq]
      rfl
    · rw [enqueue_eq htpid, hbitmap]
      rfl
  · rw [hevents]
    exact events
  · rw [hevents]
    refine ⟨by simp [setState], fun hrun => by simp [setState] at hrun, fun _ => ?_, fun hb => ?_⟩
    · show (proc.pid, proc.blockToken) ∉ _
      rw [hpid]
      exact hquiet
    · rcases hb with hb | hb <;> simp [setState] at hb
  · rw [hevents]
    exact harmed
  · intro q hq hqrun
    rw [hrunning]
    rcases hcurrent with heq | ⟨_, hrun⟩
    · rw [heq]
      exact hqrun
    · rw [hrun] at hqrun
      cases hqrun
      exact absurd rfl hq
  · intro q other _ _ _
    exact Or.inl (by simp [setState])
  · intro q hqrun
    rw [hrunning] at hqrun
    have hsrun : s.current = some q := by
      rcases hcurrent with heq | ⟨hnone, _⟩
      · rw [← heq]
        exact hqrun
      · rw [hnone] at hqrun
        cases hqrun
    have hq : q ≠ pid := by
      rintro rfl
      rw [hother hsrun] at hqrun
      cases hqrun
    obtain ⟨other, hfound, hstate⟩ := h.active q hsrun
    refine ⟨other, ?_, hstate⟩
    rw [hfind', if_neg hq]
    exact hfound

end

section

variable {pending pending' : List (Nat × Nat)} {excused excused' : Proc → Prop} {s : Sched}

def woken (value : Value) (proc : Proc) : Proc :=
  { proc with
    vm := { proc.vm with resumeValue := value, resumePending := true }
    blockKind := .none }

theorem Fits.wake (h : Fits pending excused s) {old : Proc}
    (hfound : s.find pid = some old) (hblocked : Blocked old) (hcurrent : s.current ≠ some pid)
    (value : Value) (events : EventsFit (s.events.entries ++ pending') s.events.nextToken)
    (harmed : ∀ q token, q ≠ pid →
      ((q, token) ∈ s.events.entries ++ pending' ↔ (q, token) ∈ s.events.entries ++ pending))
    (hquiet : (pid, old.blockToken) ∉ s.events.entries ++ pending')
    (hexcused : ∀ q other, q ≠ pid → s.find q = some other → excused other → excused' other) :
    Fits pending' excused' (s.wake pid value) := by
  have hf : ∀ proc, (woken value proc).pid = proc.pid := fun _ => rfl
  refine h.enqueue (t := s.update pid (woken value)) pid (woken value old)
    (h.table.update hf) (fun q => ?_) ?_ rfl rfl events harmed hquiet (Or.inl rfl)
    (fun hrun => absurd hrun hcurrent) hexcused
  · rw [find_update hf, hfound]
    rfl
  · intro other hother
    rw [hfound] at hother
    cases hother
    rcases hblocked with hstate | hstate <;> simp [hstate]

theorem find_wake {old : Proc} (hfound : s.find pid = some old) (value : Value)
    (q : Nat) : (s.wake pid value).find q =
      if q = pid then some (setState .runnable (woken value old)) else s.find q := by
  have hf : ∀ proc, (woken value proc).pid = proc.pid := fun _ => rfl
  have hupdated : (s.update pid (woken value)).find pid = some (woken value old) := by
    rw [find_update hf, if_pos rfl, hfound]
    rfl
  show ((s.update pid (woken value)).enqueue pid).find q = _
  rw [find_enqueue hupdated, find_update hf]
  split_ifs <;> rfl

theorem wake_current (value : Value) :
    (s.wake pid value).current = s.current ∧ (s.wake pid value).events = s.events := by
  have henqueue : ∀ t : Sched, (t.enqueue pid).current = t.current ∧
      (t.enqueue pid).events = t.events := by
    intro t
    unfold Sched.enqueue
    cases t.find pid with
    | none => exact ⟨rfl, rfl⟩
    | some proc => exact ⟨rfl, rfl⟩
  exact henqueue _

def awaitsAmong (dying : Nat) (others : List Nat) (proc : Proc) : Prop :=
  proc.waitPid = dying ∧ proc.pid ∈ others

theorem awaits_iff : awaits pid proc = true ↔
    proc.state = .waiting ∧ proc.blockKind = .await ∧ proc.waitPid = pid := by
  simp [awaits, and_assoc]

theorem Fits.wakeAwaiters {dying : Nat} (result : Value) (others : List Nat)
    (h : Fits [] (awaitsAmong dying others) s) (hcurrent : s.current = none) :
    Consistent (s.wakeAwaiters dying result others) ∧
      (s.wakeAwaiters dying result others).current = none := by
  induction others generalizing s with
  | nil =>
    refine ⟨?_, hcurrent⟩
    refine h.retain rfl (Nat.le_refl _) rfl rfl rfl h.events (fun _ hmem => hmem) (fun _ _ _ _ hmem => hmem) ?_
    intro q proc _ _ _ hexcused
    exact absurd hexcused.2 List.not_mem_nil
  | cons other others ih =>
    -- Once `other` awaits nobody who is ending, it needs no excuse.
    have hskip : (∀ proc, s.find other = some proc → awaits dying proc = false) →
        Fits [] (awaitsAmong dying others) s := by
      intro hawake
      refine h.retain rfl (Nat.le_refl _) rfl rfl rfl h.events (fun _ hmem => hmem)
        (fun _ _ _ _ hmem => hmem) ?_
      intro q proc hproc hstate hkind hexcused
      refine ⟨hexcused.1, (List.mem_cons.mp hexcused.2).resolve_left fun hother => ?_⟩
      have hq : q = other := (find_pid hproc).symm.trans hother
      have hawaits := awaits_iff.mpr ⟨hstate, hkind, hexcused.1⟩
      rw [hawake proc (hq ▸ hproc)] at hawaits
      cases hawaits
    unfold Sched.wakeAwaiters
    cases hfound : s.find other with
    | none => exact ih (hskip fun proc hproc => by rw [hfound] at hproc; cases hproc) hcurrent
    | some proc =>
      dsimp only
      split_ifs with hawaits
      · obtain ⟨hstate, hkind, hwait⟩ := awaits_iff.mp hawaits
        have hblocked : Blocked proc := Or.inr hstate
        have htoken : proc.blockToken = 0 := by
          rcases (h.procs other proc hfound).cause hblocked with ⟨hne, _⟩ | ⟨_, _, htoken, _⟩
          · exact absurd hkind hne
          · exact htoken
        have hquiet : (other, proc.blockToken) ∉ s.events.entries ++ [] := by
          intro hmem
          have hpos := (h.events.range _ hmem).1
          rw [htoken] at hpos
          exact absurd hpos (Nat.lt_irrefl 0)
        refine ih ?_ (wake_current result |>.1.trans hcurrent)
        refine h.wake hfound hblocked (by rw [hcurrent]; simp) result h.events
          (fun _ _ _ => Iff.rfl) hquiet ?_
        intro q third hq hthird hexcused
        refine ⟨hexcused.1, (List.mem_cons.mp hexcused.2).resolve_left fun heq => hq ?_⟩
        exact (find_pid hthird).symm.trans heq
      · refine ih (hskip fun proc' hproc' => ?_) hcurrent
        rw [hfound] at hproc'
        cases hproc'
        simpa using hawaits

theorem Consistent.zombify (h : Consistent s) (hcurrent : s.current = some pid)
    (exitCode : Int) :
    Consistent ({ s with current := none }.zombify pid exitCode) ∧
      ({ s with current := none }.zombify pid exitCode).current = none := by
  obtain ⟨proc, hfound, hstate⟩ := h.active pid hcurrent
  have hfound' : find pid { s with current := none } = some proc := hfound
  unfold Sched.zombify
  rw [hfound']
  dsimp only
  set f : Proc → Proc := fun proc' =>
    { proc' with state := .zombie, exitCode := exitCode, result := proc.vm.registers[vmReturnReg] }
    with hf
  have hpids : ∀ proc, (f proc).pid = proc.pid := fun _ => rfl
  have hfind : ∀ q, (update pid f { s with current := none }).find q =
      if q = pid then some (f proc) else s.find q := by
    intro q
    rw [find_update hpids, hfound']
    rfl
  refine Fits.wakeAwaiters _ _ ?_ rfl
  refine h.change pid (f proc)
    ((h.table.of_procs (t := { s with current := none }) rfl rfl).update hpids) ?_ h.events hfind
    ?_ (fun _ _ _ => Iff.rfl) ?_ ?_ ?_ ?_
  · refine h.queue.keep (fun level q => ?_) rfl rfl
    rw [hfind]
    split_ifs with hq
    · subst hq
      rw [hfound]
      constructor
      · rintro ⟨other, hother, hrunnable, _⟩
        cases hother
        cases hrunnable
      · rintro ⟨other, hother, hrunnable, _⟩
        cases hother
        rcases hstate with hrun | hrun | hrun <;> rw [hrun] at hrunnable <;> cases hrunnable
    · rfl
  · refine ⟨by simp [hf], fun hrun => by simp [hf] at hrun, fun hrun => ?_, fun hb => ?_⟩
    · rcases hrun with hrun | hrun <;> simp [hf] at hrun
    · rcases hb with hb | hb <;> simp [hf] at hb
  · intro q hq hrun
    rw [hcurrent] at hrun
    cases hrun
    exact absurd rfl hq
  · intro q other _ hother hwait
    refine Or.inr ⟨hwait, ?_⟩
    rw [update_pids hpids]
    exact List.mem_map_of_mem (find_mem hother)
  · intro q other _ _ hexcused
    exact hexcused.elim
  · rintro q ⟨⟩

end

section

variable {s : Sched}

theorem Fits.owner_blocked {event : Event} {rest : List (Nat × Nat)} {owner : Proc}
    (h : Fits (event.key :: rest) (fun _ => False) s) (hfound : s.find event.ownerPid = some owner)
    (hlive : owner.state ≠ .zombie) (htoken : owner.blockToken = event.token) : Blocked owner := by
  have hfits := h.procs _ owner hfound
  have harmed : (owner.pid, owner.blockToken) ∈ s.events.entries ++ event.key :: rest := by
    rw [find_pid hfound, htoken]
    exact List.mem_append_right _ List.mem_cons_self
  cases hstate : owner.state with
  | new => exact absurd hstate hfits.started
  | runnable => exact absurd harmed (hfits.quiet (Or.inl hstate))
  | running => exact absurd harmed (hfits.quiet (Or.inr hstate))
  | sleeping => exact Or.inl hstate
  | waiting => exact Or.inr hstate
  | zombie => exact absurd hstate hlive

theorem Fits.deliver {event : Event} {rest : List (Nat × Nat)}
    (h : Fits (event.key :: rest) (fun _ => False) s) (hcurrent : s.current = none) :
    Fits rest (fun _ => False) (s.deliver event) ∧ (s.deliver event).current = none := by
  have hperm : (s.events.entries ++ event.key :: rest).Perm
      (event.key :: (s.events.entries ++ rest)) := List.perm_middle
  have hevents := h.events.perm hperm
  have hfresh : event.key.2 ∉ (s.events.entries ++ rest).map Prod.snd :=
    (List.nodup_cons.mp hevents.tokens).1
  have hrest : EventsFit (s.events.entries ++ rest) s.events.nextToken :=
    ⟨hevents.positive, (List.nodup_cons.mp hevents.tokens).2,
      fun entry hmem => hevents.range entry (List.mem_cons_of_mem _ hmem)⟩
  have hkept : ∀ entry ∈ s.events.entries ++ rest, entry ∈ s.events.entries ++ event.key :: rest :=
    fun entry hmem => hperm.mem_iff.mpr (List.mem_cons_of_mem _ hmem)
  -- An event that no blocked process carries the token of can be dropped.
  have hspent : (∀ proc, s.find event.ownerPid = some proc → Blocked proc →
      proc.blockToken ≠ event.token) → Fits rest (fun _ => False) s := by
    intro hnobody
    refine h.retain rfl (Nat.le_refl _) rfl rfl rfl hrest hkept ?_ fun _ _ _ _ _ hexcused => hexcused
    intro q proc hproc hblocked hmem
    refine (List.mem_cons.mp (hperm.mem_iff.mp hmem)).resolve_left fun heq => ?_
    have howner : q = event.ownerPid := congrArg Prod.fst heq
    exact hnobody proc (howner ▸ hproc) hblocked (congrArg Prod.snd heq)
  unfold Sched.deliver
  cases hfound : s.find event.ownerPid with
  | none =>
    refine ⟨hspent fun proc hproc => ?_, hcurrent⟩
    rw [hfound] at hproc
    cases hproc
  | some owner =>
    dsimp only
    split_ifs with hzombie htoken
    · refine ⟨hspent fun proc hproc hblocked => ?_, hcurrent⟩
      rw [hfound] at hproc
      cases hproc
      rcases hblocked with hstate | hstate <;> simp [hstate] at hzombie
    · refine ⟨hspent fun proc hproc _ => ?_, hcurrent⟩
      rw [hfound] at hproc
      cases hproc
      exact htoken
    · rw [ne_eq, not_not] at htoken
      have hblocked : Blocked owner := h.owner_blocked hfound hzombie htoken
      refine ⟨?_, (wake_current _).1.trans hcurrent⟩
      refine h.wake hfound hblocked (by rw [hcurrent]; simp) _ hrest ?_ ?_
        fun _ _ _ _ hexcused => hexcused
      · intro q token hq
        rw [hperm.mem_iff, List.mem_cons, or_iff_right fun heq => hq (congrArg Prod.fst heq)]
      · intro hmem
        rw [htoken] at hmem
        exact hfresh (List.mem_map_of_mem (f := Prod.snd) hmem)

theorem Fits.deliverAll {fired : List Event}
    (h : Fits (fired.map Event.key) (fun _ => False) s) (hcurrent : s.current = none) :
    Consistent (fired.foldl Sched.deliver s) ∧ (fired.foldl Sched.deliver s).current = none := by
  induction fired generalizing s with
  | nil => exact ⟨h, hcurrent⟩
  | cons event fired ih =>
    obtain ⟨hfits, hnone⟩ := Fits.deliver h hcurrent
    exact ih hfits hnone

theorem Consistent.dispatched (h : Consistent s) (max : Nat) (poll : Poll) :
    Fits ((s.events.dispatch max poll).2.map Event.key) (fun _ => False)
      { s with events := (s.events.dispatch max poll).1 } := by
  have hperm := EventQueue.dispatch_perm max poll s.events
  have hnil : s.events.entries ++ [] = s.events.entries := List.append_nil _
  refine h.retain rfl (Nat.le_refl _) rfl rfl rfl ?_ ?_ ?_ fun _ _ _ _ _ hexcused => hexcused
  · have hevents := h.events
    rw [hnil] at hevents
    exact hevents.perm hperm.symm
  · exact fun entry hmem => hnil.symm ▸ hperm.mem_iff.mp hmem
  · intro q proc _ _ hmem
    rw [hnil] at hmem
    exact hperm.mem_iff.mpr hmem

theorem Consistent.handleEvents (h : Consistent s) (hcurrent : s.current = none) (max : Nat)
    (poll : Poll) :
    Consistent (s.handleEvents max poll) ∧ (s.handleEvents max poll).current = none :=
  Fits.deliverAll (h.dispatched max poll) hcurrent

end

section

variable {s : Sched}

theorem Consistent.dequeue (h : Consistent s) {s' : Sched}
    (hrun : s.dequeue = some (pid, s')) :
    ∃ proc rest, s.find pid = some proc ∧ proc.state = .runnable ∧
      s.queue proc.priority = pid :: rest ∧
      s' = { s with
        runq := s.withQueue proc.priority rest
        bitmap := if rest = [] then s.bitmap &&& ~~~((1 : BitVec schedLevels) <<< proc.priority.val)
          else s.bitmap } := by
  unfold Sched.dequeue at hrun
  cases hlevel : firstLevel s.bitmap with
  | none => simp [hlevel] at hrun
  | some level =>
    rw [hlevel] at hrun
    dsimp only at hrun
    split at hrun
    · cases hrun
    · rename_i head rest hhead
      cases hrun
      have hmem : pid ∈ s.queue level := by
        rw [hhead]
        exact List.mem_cons_self
      obtain ⟨proc, hfound, hstate, rfl⟩ := (h.queue.queued level pid).mp hmem
      exact ⟨proc, rest, hfound, hstate, hhead, rfl⟩

theorem Consistent.pick (h : Consistent s) (hcurrent : s.current = none) {s' : Sched}
    (hrun : s.dequeue = some (pid, s')) :
    Consistent (s'.pick pid) ∧ ∃ proc, s.find pid = some proc ∧
      (s'.pick pid).find pid = some (setState .running proc) := by
  obtain ⟨proc, rest, hfound, hstate, hhead, hs'⟩ := h.dequeue hrun
  have hpid := find_pid hfound
  have hfits := h.procs pid proc hfound
  have hfind : ∀ q, (s'.pick pid).find q =
      if q = pid then some (setState .running proc) else s.find q := by
    intro q
    show (s'.update pid (setState .running)).find q = _
    rw [find_update (setState_pid _)]
    have hsame : ∀ q, s'.find q = s.find q := fun q => by rw [hs']; rfl
    rw [hsame, hsame, hfound]
    rfl
  have hrecord : s'.procs = s.procs ∧ s'.nextPid = s.nextPid ∧ s'.events = s.events := by
    rw [hs']
    exact ⟨rfl, rfl, rfl⟩
  refine ⟨?_, proc, hfound, by rw [hfind, if_pos rfl]⟩
  have hevents : (s'.pick pid).events = s.events := hrecord.2.2
  refine h.change pid (setState .running proc) ?_ ?_ ?_ hfind ?_ ?_ ?_ ?_ ?_ ?_
  · exact ((h.table.of_procs hrecord.1 hrecord.2.1).update (setState_pid _)).of_procs rfl rfl
  · refine h.queue.pop rest hfound hfind (by simp [setState]) hhead ?_ ?_
    · rw [hs']
      rfl
    · rw [hs']
      rfl
  · rw [hevents]
    exact h.events
  · rw [hevents]
    refine ⟨by simp [setState], fun _ => ?_, fun _ => hfits.quiet (Or.inl hstate), fun hb => ?_⟩
    · show some pid = some proc.pid
      rw [hpid]
    · rcases hb with hb | hb <;> simp [setState] at hb
  · rw [hevents]
    exact fun _ _ _ => Iff.rfl
  · intro q _ hq
    rw [hcurrent] at hq
    cases hq
  · intro _ _ _ _ _
    exact Or.inl (by simp [setState])
  · exact fun _ _ _ _ hexcused => hexcused
  · intro q hq
    cases hq
    exact ⟨_, by rw [hfind, if_pos rfl], Or.inl rfl⟩

structure SameTask (proc proc' : Proc) : Prop where
  pid : proc'.pid = proc.pid
  priority : proc'.priority = proc.priority
  state : proc'.state = proc.state
  blockKind : proc'.blockKind = proc.blockKind
  waitPid : proc'.waitPid = proc.waitPid
  blockToken : proc'.blockToken = proc.blockToken

theorem ProcFits.of_same {armed : List (Nat × Nat)} {excused : Proc → Prop} {proc' : Proc}
    {s' : Sched} (h : ProcFits armed (fun _ => False) s proc) (hsame : SameTask proc proc')
    (hcurrent : s'.current = s.current)
    (hlive : ∀ target, s.find proc.waitPid = some target → target.state ≠ .zombie →
      ∃ target', s'.find proc.waitPid = some target' ∧ target'.state ≠ .zombie) :
    ProcFits armed excused s' proc' := by
  refine ⟨by rw [hsame.state]; exact h.started, fun hrun => ?_, fun hstate => ?_, fun hb => ?_⟩
  · rw [hsame.state] at hrun
    rw [hsame.pid, hcurrent]
    exact h.running hrun
  · rw [hsame.state] at hstate
    rw [hsame.pid, hsame.blockToken]
    exact h.quiet hstate
  · have hblocked : Blocked proc := by
      rwa [Blocked, hsame.state] at hb
    unfold Caused
    rw [hsame.blockKind, hsame.pid, hsame.blockToken, hsame.state, hsame.waitPid]
    rcases h.cause hblocked with hevent | ⟨hstate, hkind, htoken, hself, target, htarget, hlives⟩
    · exact Or.inl hevent
    · obtain ⟨target', htarget', hlive'⟩ := hlive target htarget (hlives.resolve_right id)
      exact Or.inr ⟨hstate, hkind, htoken, hself, target', htarget', Or.inl hlive'⟩

theorem Consistent.touch (h : Consistent s)
    (hfound : s.find pid = some proc) (hf : ∀ proc, SameTask proc (f proc)) (globals : Scope) :
    Consistent { s.update pid f with globals := globals } := by
  have hpids : ∀ proc, (f proc).pid = proc.pid := fun proc => (hf proc).pid
  have hfind : ∀ q, find q { s.update pid f with globals := globals } =
      if q = pid then some (f proc) else s.find q := by
    intro q
    show (s.update pid f).find q = _
    rw [find_update hpids, hfound]
    rfl
  have hlive : ∀ q target, s.find q = some target → target.state ≠ .zombie →
      ∃ target', find q { s.update pid f with globals := globals } = some target' ∧
        target'.state ≠ .zombie := by
    intro q target htarget hstate
    rw [hfind]
    split_ifs with hq
    · subst hq
      rw [hfound] at htarget
      cases htarget
      exact ⟨_, rfl, by rw [(hf proc).state]; exact hstate⟩
    · exact ⟨target, htarget, hstate⟩
  refine ⟨(h.table.update hpids).of_procs rfl rfl, ?_, h.events, fun q other hother => ?_,
    fun q hq => ?_⟩
  · refine h.queue.keep (fun level q => ?_) rfl rfl
    rw [hfind]
    split_ifs with hq
    · subst hq
      rw [hfound]
      simp only [Option.some.injEq, exists_eq_left', (hf proc).state, (hf proc).priority]
    · rfl
  · rw [hfind] at hother
    split_ifs at hother with hq
    · cases hother
      exact (h.procs pid proc hfound).of_same (hf proc) rfl fun target => hlive _ target
    · exact (h.procs q other hother).of_same ⟨rfl, rfl, rfl, rfl, rfl, rfl⟩ rfl
        fun target => hlive _ target
  · obtain ⟨other, hother, hstate⟩ := h.active q hq
    rw [hfind]
    split_ifs with heq
    · subst heq
      rw [hfound] at hother
      cases hother
      refine ⟨_, rfl, ?_⟩
      rwa [Blocked, (hf proc).state]
    · exact ⟨other, hother, hstate⟩

theorem Consistent.suspend (h : Consistent s) (hcurrent : s.current = some pid) :
    Consistent (s.suspend pid) ∧ (s.suspend pid).current = none := by
  obtain ⟨proc, hfound, hstate⟩ := h.active pid hcurrent
  have hfits := h.procs pid proc hfound
  have hpid := find_pid hfound
  have hfind : ∀ q, find q { s with current := none } = if q = pid then some proc else s.find q := by
    intro q
    show s.find q = _
    split_ifs with hq
    · rw [hq, hfound]
    · rfl
  have htable : TableFits { s with current := none } := h.table.of_procs rfl rfl
  unfold Sched.suspend
  rw [hfound]
  dsimp only
  split_ifs with hrunning
  · refine ⟨?_, ?_⟩
    · refine Fits.enqueue h _ _ htable hfind ?_ rfl rfl h.events (fun _ _ _ => Iff.rfl) ?_
        (Or.inr ⟨rfl, hcurrent⟩) (fun _ => rfl) fun _ _ _ _ hexcused => hexcused
      · intro old hold
        rw [hfound] at hold
        cases hold
        simp [hrunning]
      · rw [← hpid]
        exact hfits.quiet (Or.inr hrunning)
    · rw [enqueue_eq (show find pid { s with current := none } = some proc from hfound)]
      rfl
  · have hblocked : Blocked proc := hstate.resolve_left hrunning
    refine ⟨?_, rfl⟩
    refine h.change pid proc htable
      (h.queue.keep (fun _ _ => Iff.rfl) rfl rfl) h.events hfind ?_ (fun _ _ _ => Iff.rfl) ?_ ?_
      (fun _ _ _ _ hexcused => hexcused) ?_
    · exact ⟨hfits.started, fun hrun => absurd hrun hrunning, hfits.quiet, hfits.cause⟩
    · intro q hq hrun
      rw [hcurrent] at hrun
      cases hrun
      exact absurd rfl hq
    · intro _ _ _ _ _
      exact Or.inl (by rcases hblocked with hs | hs <;> simp [hs])
    · rintro q ⟨⟩

end

section

variable {s : Sched}

def created (program : Program) (scope : Option Scope) (s : Sched) : Proc where
  pid := s.nextPid
  priority := 32
  state := .new
  vm := vmInit
  scope := scope
  program := program
  blockKind := .none
  waitPid := 0
  blockToken := 0
  result := .null
  exitCode := 0

theorem find_nextPid (h : Consistent s) : s.find s.nextPid = none := by
  cases hfound : s.find s.nextPid with
  | none => rfl
  | some proc =>
    have hlt := h.table.fresh proc (find_mem hfound)
    rw [find_pid hfound] at hlt
    exact absurd hlt (Nat.lt_irrefl _)

theorem find_procCreate (program : Program) (scope : Option Scope) (q : Nat) :
    (s.procCreate program scope).2.find q =
      if q = s.nextPid then some (created program scope s) else s.find q := by
  show ((created program scope s) :: s.procs).find? _ = _
  rw [List.find?_cons]
  have hiff : (created program scope s).pid = q ↔ q = s.nextPid := eq_comm
  by_cases hq : q = s.nextPid
  · rw [if_pos hq, decide_eq_true (hiff.mpr hq)]
  · rw [if_neg hq, decide_eq_false fun heq => hq (hiff.mp heq)]
    rfl

theorem TableFits.procCreate (h : TableFits s) (program : Program) (scope : Option Scope) :
    TableFits (s.procCreate program scope).2 := by
  refine ⟨?_, fun proc hproc => ?_⟩
  · show (s.nextPid :: s.procs.map Proc.pid).Nodup
    refine List.nodup_cons.mpr ⟨fun hmem => ?_, h.pids⟩
    obtain ⟨proc, hproc, hpid⟩ := List.mem_map.mp hmem
    exact absurd (h.fresh proc hproc) (by omega)
  · rcases List.mem_cons.mp hproc with rfl | hold
    · exact Nat.lt_succ_self _
    · exact Nat.lt_succ_of_lt (h.fresh proc hold)

theorem find_created (program : Program) (scope : Option Scope)
    (hf : ∀ proc, (f proc).pid = proc.pid) (mainPid q : Nat) :
    find q { (s.procCreate program scope).2.update s.nextPid f with mainPid := mainPid } =
      if q = s.nextPid then some (f (created program scope s)) else s.find q := by
  show ((s.procCreate program scope).2.update s.nextPid f).find q = _
  rw [find_update hf, find_procCreate, find_procCreate, if_pos rfl]
  split_ifs <;> rfl

theorem find_spawned (program : Program) (scope : Option Scope)
    (hf : ∀ proc, (f proc).pid = proc.pid) (mainPid q : Nat) :
    (({ (s.procCreate program scope).2.update s.nextPid f with
      mainPid := mainPid }).enqueue s.nextPid).find q =
      if q = s.nextPid then some (setState .runnable (f (created program scope s)))
      else s.find q := by
  have hnew : find s.nextPid { (s.procCreate program scope).2.update s.nextPid f with
      mainPid := mainPid } = some (f (created program scope s)) := by
    rw [find_created program scope hf, if_pos rfl]
  rw [find_enqueue hnew, find_created program scope hf]
  split_ifs <;> rfl

theorem Consistent.spawned (h : Consistent s) (program : Program) (scope : Option Scope) (hf : ∀ proc, SameTask proc (f proc)) (mainPid : Nat) :
    Consistent (({ (s.procCreate program scope).2.update s.nextPid f with
      mainPid := mainPid }).enqueue s.nextPid) := by
  have hpids : ∀ proc, (f proc).pid = proc.pid := fun proc => (hf proc).pid
  have hfind := fun q => find_created (s := s) program scope hpids mainPid q
  have hnew : ∀ other, s.find s.nextPid ≠ some other := by
    intro other hother
    rw [find_nextPid h] at hother
    cases hother
  refine Fits.enqueue h _ _ (((h.table.procCreate program scope).update hpids).of_procs rfl rfl) hfind
    (fun other hother => absurd hother (hnew other)) rfl rfl h.events (fun _ _ _ => Iff.rfl) ?_
    (Or.inl rfl) (fun hrun => ?_) fun _ _ _ _ hexcused => hexcused
  · rw [(hf _).blockToken]
    intro hmem
    exact absurd (h.events.range _ hmem).1 (Nat.lt_irrefl 0)
  · obtain ⟨other, hother, _⟩ := h.active _ hrun
    exact absurd hother (hnew other)

theorem Consistent.spawnMain (h : Consistent s) (program : Program) (entryFunction : Option Nat) :
    Consistent (s.spawnMain program entryFunction).2 :=
  h.spawned program none (f := fun proc => { proc with
    vm := { proc.vm with running := true, entryFunction := entryFunction } })
    (fun _ => ⟨rfl, rfl, rfl, rfl, rfl, rfl⟩) s.nextPid

theorem procFree_procs (h : Consistent s) (program : Program) (scope : Option Scope) :
    ((s.procCreate program scope).2.procFree s.nextPid).procs = s.procs := by
  show List.filter (fun proc => decide (proc.pid ≠ s.nextPid))
    (created program scope s :: s.procs) = s.procs
  rw [List.filter_cons_of_neg (by simp [created])]
  refine List.filter_eq_self.mpr fun proc hproc => ?_
  have hlt := h.table.fresh proc hproc
  simp only [ne_eq, decide_not, Bool.not_eq_true', decide_eq_false_iff_not]
  omega

theorem Consistent.procFree (h : Consistent s) (program : Program) (scope : Option Scope) :
    Consistent ((s.procCreate program scope).2.procFree s.nextPid) := by
  have hprocs := procFree_procs h program scope
  exact h.retain hprocs (Nat.le_succ _) rfl rfl rfl h.events (fun _ hmem => hmem)
    (fun _ _ _ _ hmem => hmem) fun _ _ _ _ _ hexcused => hexcused

theorem Consistent.spawnFunc (h : Consistent s) (program : Program) (index : Nat)
    (args : List Value) (scope : Scope) :
    Consistent (s.spawnFunc program index args scope).2 := by
  unfold Sched.spawnFunc
  cases program.functions[index]? with
  | none => exact h
  | some function =>
    dsimp only
    split_ifs
    · exact h
    · cases vmSpawnCall program index args { vmInit with running := true } scope with
      | error e => exact h.procFree program (some scope)
      | ok result =>
        have hspawned := h.spawned program (some scope)
          (f := fun proc => { proc with vm := result.1, scope := some result.2 })
          (fun _ => ⟨rfl, rfl, rfl, rfl, rfl, rfl⟩) s.mainPid
        exact hspawned

theorem enqueue_current (pid : Nat) : (s.enqueue pid).current = s.current := by
  unfold Sched.enqueue
  cases s.find pid with
  | none => rfl
  | some proc => rfl

theorem spawnFunc_current (program : Program) (index : Nat) (args : List Value) (scope : Scope) :
    (s.spawnFunc program index args scope).2.current = s.current := by
  unfold Sched.spawnFunc
  cases program.functions[index]? with
  | none => rfl
  | some function =>
    dsimp only
    split_ifs
    · rfl
    · cases vmSpawnCall program index args { vmInit with running := true } scope with
      | error e => rfl
      | ok result =>
        dsimp only
        rw [enqueue_current]
        rfl

end

section

variable {s : Sched}

def blockedOn (kind : BlockKind) (waitPid token : Nat) (proc : Proc) : Proc :=
  { proc with
    blockKind := kind
    waitPid := waitPid
    blockToken := token
    state := if kind = .timer then .sleeping else .waiting }

theorem blockCurrent_eq (hcurrent : s.current = some pid) (kind : BlockKind)
    (waitPid token : Nat) :
    s.blockCurrent kind waitPid token = s.update pid (blockedOn kind waitPid token) := by
  unfold blockCurrent
  rw [hcurrent]
  rfl

theorem blockedOn_blocked (kind : BlockKind) (waitPid token : Nat) (proc : Proc) :
    Blocked (blockedOn kind waitPid token proc) := by
  unfold Blocked blockedOn
  split_ifs
  · exact Or.inl rfl
  · exact Or.inr rfl

theorem Consistent.block (h : Consistent s) (hcurrent : s.current = some pid)
    (events : EventQueue) (kind : BlockKind) (waitPid token : Nat)
    (hevents : EventsFit (events.entries ++ []) events.nextToken)
    (harmed : ∀ q t, q ≠ pid → ((q, t) ∈ events.entries ++ [] ↔ (q, t) ∈ s.events.entries ++ []))
    (hcause : ∀ proc, s.find pid = some proc → ∀ s' : Sched,
      (∀ q, q ≠ pid → s'.find q = s.find q) → Caused (events.entries ++ []) (fun _ => False) s'
        (blockedOn kind waitPid token proc)) :
    Consistent ({ s with events := events }.blockCurrent kind waitPid token) := by
  obtain ⟨proc, hfound, hstate⟩ := h.active pid hcurrent
  have hpids : ∀ proc, (blockedOn kind waitPid token proc).pid = proc.pid := fun _ => rfl
  have hblocked := blockedOn_blocked kind waitPid token proc
  rw [blockCurrent_eq (s := { s with events := events }) hcurrent]
  have hfind : ∀ q, (update pid (blockedOn kind waitPid token) { s with events := events }).find q =
      if q = pid then some (blockedOn kind waitPid token proc) else s.find q := by
    intro q
    rw [find_update hpids]
    show (if q = pid then (s.find pid).map _ else s.find q) = _
    rw [hfound]
    rfl
  refine h.change pid (blockedOn kind waitPid token proc)
    ((h.table.of_procs (t := { s with events := events }) rfl rfl).update hpids) ?_ hevents hfind
    ?_ harmed (fun _ _ hq => hq) ?_ (fun _ _ _ _ hexcused => hexcused) ?_
  · refine h.queue.keep (fun level q => ?_) rfl rfl
    rw [hfind]
    split_ifs with hq
    · subst hq
      rw [hfound]
      constructor
      · rintro ⟨other, hother, hrunnable, _⟩
        cases hother
        rcases hblocked with hs | hs <;> rw [hs] at hrunnable <;> cases hrunnable
      · rintro ⟨other, hother, hrunnable, _⟩
        cases hother
        rcases hstate with hs | hs | hs <;> rw [hs] at hrunnable <;> cases hrunnable
    · rfl
  · refine ⟨?_, fun hrun => ?_, fun hrun => ?_, fun _ => ?_⟩
    · rcases hblocked with hs | hs <;> simp [hs]
    · rcases hblocked with hs | hs <;> rw [hs] at hrun <;> cases hrun
    · rcases hblocked with hs | hs <;> simp [hs] at hrun
    · exact hcause proc hfound _ fun q hq => by rw [hfind, if_neg hq]
  · intro _ _ _ _ _
    exact Or.inl (by rcases hblocked with hs | hs <;> simp [hs])
  · intro q hq
    have hqpid : q = pid := by
      have hsome : some q = some pid := hq.symm.trans hcurrent
      cases hsome
      rfl
    exact ⟨_, by rw [hfind, if_pos hqpid], Or.inr hblocked⟩

theorem Consistent.await (h : Consistent s) (hcurrent : s.current = some pid)
    {waitPid : Nat} {target : Proc} (htarget : s.find waitPid = some target)
    (hself : s.current ≠ some target.pid) (hlive : target.state ≠ .zombie) :
    Consistent (s.blockCurrent .await waitPid 0) := by
  have hne : waitPid ≠ pid := by
    rintro rfl
    exact hself (by rw [find_pid htarget]; exact hcurrent)
  refine h.block hcurrent s.events .await waitPid 0 h.events (fun _ _ _ => Iff.rfl) ?_
  intro proc hproc s' hsame
  have hself' : waitPid ≠ proc.pid := by
    rw [find_pid hproc]
    exact hne
  exact Or.inr ⟨rfl, rfl, rfl, hself', target, by rw [← htarget]; exact hsame waitPid hne,
    Or.inl hlive⟩

theorem Consistent.wait (h : Consistent s) (hcurrent : s.current = some pid)
    {kind : BlockKind} (hkind : kind ≠ .await) {add : EventQueue → Nat × EventQueue}
    (hadd : Adds pid add) :
    Consistent ({ s with events := (add s.events).2 }.blockCurrent kind 0 (add s.events).1) := by
  obtain ⟨htoken, hnext⟩ := EventQueue.Adds.token hadd s.events
  have hentries := EventQueue.Adds.entries hadd s.events
  have hevents := h.events
  rw [List.append_nil] at hevents
  have hfits : EventsFit ((add s.events).2.entries ++ []) (add s.events).2.nextToken := by
    rw [List.append_nil, hnext]
    refine EventsFit.perm ⟨Nat.succ_pos _, ?_, fun entry hmem => ?_⟩ hentries.symm
    · refine List.nodup_cons.mpr ⟨fun hmem => ?_, hevents.tokens⟩
      obtain ⟨entry, hentry, heq⟩ := List.mem_map.mp hmem
      have hlt := (hevents.range entry hentry).2
      simp only at heq
      omega
    · rcases List.mem_cons.mp hmem with rfl | hold
      · exact ⟨hevents.positive, Nat.lt_succ_self _⟩
      · obtain ⟨hpos, hlt⟩ := hevents.range entry hold
        exact ⟨hpos, Nat.lt_succ_of_lt hlt⟩
  refine h.block hcurrent _ kind 0 _ hfits ?_ ?_
  · intro q t hq
    rw [List.append_nil, List.append_nil, hentries.mem_iff, List.mem_cons,
      or_iff_right fun heq => hq (congrArg Prod.fst heq)]
  · intro proc hproc s' _
    refine Or.inl ⟨hkind, ?_⟩
    rw [List.append_nil, hentries.mem_iff, htoken]
    show (proc.pid, s.events.nextToken) ∈ _
    rw [find_pid hproc]
    exact List.mem_cons_self

end

end Ussr.Sched
