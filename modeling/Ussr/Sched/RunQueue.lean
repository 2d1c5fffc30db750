import Ussr.Library.LinkedList
import Ussr.Sched.Consistent
import Mathlib.Order.Fin.Basic

/-! The run queue as `scheduler.c` keeps it: the processes of each level linked by `next_run` between a head and a tail,
and a bit for each level. Processes are named by their pids. -/

open Function (update)

namespace Ussr

structure RunQueue where
  head : Fin schedLevels → Option Nat
  tail : Fin schedLevels → Option Nat
  bitmap : BitVec schedLevels
  nextRun : Nat → Option Nat
  state : Nat → ProcState

def RunQueue.empty (nextRun : Nat → Option Nat) (state : Nat → ProcState) : RunQueue :=
  ⟨fun _ => none, fun _ => none, 0, nextRun, state⟩

/-- `(uint64_t)1 << level` -/
def levelBit (level : Fin schedLevels) : BitVec schedLevels := 1 <<< level.val

/-- `sched_enqueue` of a process whose priority is `level` -/
def schedEnqueue (proc : Nat) (level : Fin schedLevels) (q : RunQueue) : RunQueue :=
  let nextRun := update q.nextRun proc none
  let linked :=
    match q.tail level with
    | some last => { q with nextRun := update nextRun last (some proc) }
    | none => { q with nextRun, head := update q.head level (some proc) }
  { linked with
    tail := update q.tail level (some proc)
    bitmap := q.bitmap ||| levelBit level
    state := update q.state proc .runnable }

/-- The loop of `sched_dequeue` over the levels; `none` where it would shift by 64. -/
def levelLoop (bitmap : BitVec schedLevels) : (turns level : Nat) → Option (Fin schedLevels)
  | 0, _ => none
  | turns + 1, level =>
    if h : level < schedLevels then
      if bitmap &&& levelBit ⟨level, h⟩ = 0 then levelLoop bitmap turns (level + 1) else some ⟨level, h⟩
    else none

/-- `sched_dequeue`; `none` where it would follow a null pointer. -/
def schedDequeue (q : RunQueue) : Option (Option Nat × RunQueue) :=
  if q.bitmap = 0 then some (none, q)
  else do
    let level ← levelLoop q.bitmap schedLevels 0
    let proc ← q.head level
    let taken := { q with
      head := update q.head level (q.nextRun proc)
      nextRun := update q.nextRun proc none }
    if q.nextRun proc = none then
      return (some proc, { taken with
        tail := update q.tail level none
        bitmap := q.bitmap &&& ~~~levelBit level })
    else return (some proc, taken)

section

abbrev Levels : Type := Fin schedLevels → List Nat

def Levels.push (ls : Levels) (level : Fin schedLevels) (proc : Nat) : Levels := update ls level (ls level ++ [proc])

def Levels.lowest (ls : Levels) : Option (Fin schedLevels) := (List.finRange schedLevels).find? fun level => !(ls level).isEmpty

def Levels.oldest (ls : Levels) : Option Nat := ls.lowest.bind fun level => (ls level).head?

def Levels.pop (ls : Levels) : Levels :=
  match ls.lowest with
  | none => ls
  | some level => update ls level (ls level).tail

variable {ls : Levels} {q : RunQueue} {level : Fin schedLevels} {proc : Nat}

theorem Levels.lowest_none (h : ls.lowest = none) (level : Fin schedLevels) : ls level = [] := by
  have hempty := List.find?_eq_none.mp h level (List.mem_finRange level)
  simpa using hempty

theorem Levels.lowest_spec (h : ls.lowest = some level) : ls level ≠ [] ∧ ∀ l < level, ls l = [] := by
  obtain ⟨hlevel, as, bs, hsplit, hnone⟩ := List.find?_eq_some_iff_append.mp h
  refine ⟨by simpa using hlevel, fun l hl => ?_⟩
  have hsorted : (as ++ level :: bs).Pairwise (· < ·) := hsplit ▸ List.pairwise_lt_finRange schedLevels
  have hmem : l ∈ as ++ level :: bs := hsplit ▸ List.mem_finRange l
  obtain hmem | hmem := List.mem_append.mp hmem
  · have hempty := hnone l hmem
    simpa using hempty
  · obtain rfl | hmem := List.mem_cons.mp hmem
    · exact absurd hl (lt_irrefl l)
    · have hle := (List.pairwise_cons.mp (List.pairwise_append.mp hsorted).2.1).1 l hmem
      exact absurd (hl.trans hle) (lt_irrefl l)

end

section

variable {bitmap : BitVec schedLevels} {level : Fin schedLevels}

theorem getLsb_levelBit (priority level : Fin schedLevels) : (levelBit priority).getLsb level = decide (priority = level) :=
  Sched.getLsbD_level priority level

theorem getLsb_clear (l : Fin schedLevels) : (bitmap &&& ~~~levelBit level).getLsb l = (bitmap.getLsb l && !decide (level = l)) :=
  Sched.getLsb_pop bitmap level l

theorem and_levelBit : bitmap &&& levelBit level = 0 ↔ bitmap.getLsb level = false := by
  have hbit (l : Fin schedLevels) : (bitmap &&& levelBit level).getLsb l = (bitmap.getLsb l && decide (level = l)) := by
    change (bitmap &&& levelBit level).getLsbD l.val = (bitmap.getLsbD l.val && _)
    rw [BitVec.getLsbD_and]
    exact congrArg _ (getLsb_levelBit level l)
  constructor
  · intro hzero
    have hlevel := hbit level
    rw [hzero, decide_eq_true rfl, Bool.and_true] at hlevel
    exact hlevel.symm.trans BitVec.getLsbD_zero
  · intro hclear
    refine BitVec.eq_of_getLsbD_eq fun i hi => ?_
    have hlevel := hbit ⟨i, hi⟩
    refine (hlevel.trans ?_).trans BitVec.getLsbD_zero.symm
    by_cases hsame : level = ⟨i, hi⟩
    · rw [← hsame, hclear, Bool.false_and]
    · rw [decide_eq_false hsame, Bool.and_false]

theorem levelLoop_eq {turns start : Nat} (hturns : schedLevels ≤ turns + start) (hstart : start ≤ level.val)
    (hset : bitmap.getLsb level = true) (hclear : ∀ l < level, bitmap.getLsb l = false) :
    levelLoop bitmap turns start = some level := by
  induction turns generalizing start with
  | zero =>
    have hlevel := level.isLt
    omega
  | succ turns ih =>
    have hlevel := level.isLt
    rw [levelLoop, dif_pos (by omega)]
    obtain heq | hlt := Nat.eq_or_lt_of_le hstart
    · subst heq
      rw [if_neg fun hzero => Bool.false_ne_true ((and_levelBit.mp hzero).symm.trans hset)]
    · rw [if_pos (and_levelBit.mpr (hclear _ hlt))]
      exact ih (by omega) hlt

end

section

variable {q : RunQueue} {ls : Levels} {level : Fin schedLevels} {proc : Nat}

structure Holds (q : RunQueue) (ls : Levels) : Prop where
  head : ∀ level, q.head level = (ls level).head?
  tail : ∀ level, q.tail level = (ls level).getLast?
  chain : ∀ level, LinkedList.Chain q.nextRun (ls level)
  bit : ∀ level, q.bitmap.getLsb level = true ↔ ls level ≠ []
  nodup : ∀ level, (ls level).Nodup
  apart : ∀ l l', l ≠ l' → (ls l).Disjoint (ls l')

theorem holds_empty (nextRun : Nat → Option Nat) (state : Nat → ProcState) : Holds (.empty nextRun state) fun _ => [] where
  head _ := rfl
  tail _ := rfl
  chain _ := trivial
  bit _ := iff_of_false (by simp [RunQueue.empty, BitVec.getLsb]) (not_not.mpr rfl)
  nodup _ := List.nodup_nil
  apart _ _ _ := List.disjoint_nil_left _

theorem push_self : ls.push level proc level = ls level ++ [proc] := Function.update_self _ _ _

theorem push_ne {l : Fin schedLevels} (hne : l ≠ level) : ls.push level proc l = ls l := Function.update_of_ne hne _ _

theorem schedEnqueue_nextRun (h : Holds q ls) (x : Nat) : (schedEnqueue proc level q).nextRun x =
    if (ls level).getLast? = some x then some proc else if x = proc then none else q.nextRun x := by
  have htail := h.tail level
  unfold schedEnqueue
  dsimp only
  cases hlast : q.tail level with
  | none =>
    rw [← htail, hlast, if_neg (Option.some_ne_none x).symm]
    exact Function.update_apply _ _ _ _
  | some last =>
    rw [← htail, hlast]
    dsimp only
    rw [Function.update_apply, Function.update_apply]
    by_cases hx : x = last
    · rw [if_pos hx, hx, if_pos rfl]
    · rw [if_neg hx, if_neg fun heq => hx (Option.some.inj heq).symm]

theorem schedEnqueue_head (q : RunQueue) (l : Fin schedLevels) : (schedEnqueue proc level q).head l =
    if l = level ∧ q.tail level = none then some proc else q.head l := by
  unfold schedEnqueue
  dsimp only
  cases hlast : q.tail level with
  | none =>
    by_cases hl : l = level
    · rw [if_pos ⟨hl, rfl⟩, hl]
      exact Function.update_self _ _ _
    · rw [if_neg fun hboth => hl hboth.1]
      exact Function.update_of_ne hl _ _
  | some last => rw [if_neg fun hboth => Option.some_ne_none last hboth.2]

theorem Holds.enqueue (h : Holds q ls) (hproc : ∀ l, proc ∉ ls l) : Holds (schedEnqueue proc level q) (ls.push level proc) where
  head l := by
    rw [schedEnqueue_head]
    by_cases hl : l = level
    · subst hl
      rw [push_self, h.tail, h.head]
      cases hempty : ls l with
      | nil => exact if_pos ⟨rfl, rfl⟩
      | cons x xs =>
        refine if_neg fun hboth => List.cons_ne_nil x xs (List.getLast?_eq_none_iff.mp hboth.2)
    · rw [push_ne hl, if_neg fun hboth => hl hboth.1, h.head]
  tail l := by
    have htail : (schedEnqueue proc level q).tail l = update q.tail level (some proc) l := rfl
    rw [htail, Function.update_apply]
    by_cases hl : l = level
    · rw [if_pos hl, hl, push_self, List.getLast?_concat]
    · rw [if_neg hl, push_ne hl, h.tail]
  chain l := by
    by_cases hl : l = level
    · subst hl
      rw [push_self]
      refine (h.chain l).push (h.nodup l) ?_ (fun x _ hx => ?_) fun x hx hlast => ?_
      · rw [schedEnqueue_nextRun h, if_neg fun hlast => hproc l (List.mem_of_getLast? hlast), if_pos rfl]
      · rw [schedEnqueue_nextRun h, if_pos hx]
      · rw [schedEnqueue_nextRun h, if_neg hlast, if_neg fun heq : x = proc => hproc l (heq ▸ hx)]
    · rw [push_ne hl]
      refine (h.chain l).congr fun x hx => ?_
      rw [schedEnqueue_nextRun h, if_neg fun hlast => h.apart l level hl hx (List.mem_of_getLast? hlast),
        if_neg fun heq : x = proc => hproc l (heq ▸ hx)]
  bit l := by
    have hbit : (schedEnqueue proc level q).bitmap = q.bitmap ||| levelBit level := by
      unfold schedEnqueue
      dsimp only
    rw [hbit]
    refine (Bool.eq_iff_iff.mp (Sched.getLsb_push q.bitmap level l)).trans ?_
    rw [Bool.or_eq_true, h.bit, decide_eq_true_eq]
    by_cases hl : l = level
    · subst hl
      rw [push_self]
      exact iff_of_true (.inr rfl) (List.append_ne_nil_of_right_ne_nil _ (List.cons_ne_nil _ _))
    · rw [push_ne hl]
      exact or_iff_left fun heq => hl heq.symm
  nodup l := by
    by_cases hl : l = level
    · subst hl
      rw [push_self, List.nodup_append]
      refine ⟨h.nodup l, List.nodup_singleton proc, fun x hx y hy heq => hproc l ?_⟩
      rwa [← List.mem_singleton.mp hy, ← heq]
    · rw [push_ne hl]
      exact h.nodup l
  apart l l' hne x hx hx' := by
    have hcases {m : Fin schedLevels} (hmem : x ∈ ls.push level proc m) : x ∈ ls m ∨ m = level ∧ x = proc := by
      by_cases hm : m = level
      · subst hm
        rw [push_self, List.mem_append, List.mem_singleton] at hmem
        exact hmem.imp_right fun heq => ⟨rfl, heq⟩
      · rw [push_ne hm] at hmem
        exact .inl hmem
    obtain hx | ⟨hl, heq⟩ := hcases hx
    · obtain hx' | ⟨_, heq⟩ := hcases hx'
      · exact h.apart l l' hne hx hx'
      · exact hproc l (heq ▸ hx)
    · obtain hx' | ⟨hl', _⟩ := hcases hx'
      · exact hproc l' (heq ▸ hx')
      · exact hne (hl.trans hl'.symm)

theorem Holds.bitmap_zero (h : Holds q ls) (hempty : ∀ level, ls level = []) : q.bitmap = 0 := by
  refine BitVec.eq_of_getLsbD_eq fun i hi => ?_
  refine Eq.trans ?_ BitVec.getLsbD_zero.symm
  exact Bool.eq_false_iff.mpr fun hset => (h.bit ⟨i, hi⟩).mp hset (hempty _)

theorem update_level {rest : List Nat} (l : Fin schedLevels) : update ls level rest l = if l = level then rest else ls l :=
  Function.update_apply _ _ _ _

theorem Holds.take (h : Holds q ls) {rest : List Nat} (hlevel : ls level = proc :: rest) {q' : RunQueue}
    (hhead : q'.head = update q.head level (q.nextRun proc)) (hnext : q'.nextRun = update q.nextRun proc none)
    (htail : q'.tail = if q.nextRun proc = none then update q.tail level none else q.tail)
    (hbitmap : q'.bitmap = if q.nextRun proc = none then q.bitmap &&& ~~~levelBit level else q.bitmap) :
    Holds q' (update ls level rest) := by
  have hchain := h.chain level
  have hnodup := h.nodup level
  have hends := h.tail level
  rw [hlevel] at hchain hnodup hends
  obtain ⟨hproc, hnodup⟩ := List.nodup_cons.mp hnodup
  have hlast : q.nextRun proc = none ↔ rest = [] := by
    rw [hchain.1, List.head?_eq_none_iff]
  have hmem (l : Fin schedLevels) : ∀ x ∈ update ls level rest l, x ∈ ls l := by
    intro x hx
    rw [update_level] at hx
    split_ifs at hx with hl
    · rw [hl, hlevel]
      exact List.mem_cons_of_mem proc hx
    · exact hx
  refine ⟨fun l => ?_, fun l => ?_, fun l => ?_, fun l => ?_, fun l => ?_, fun l l' hne x hx hx' => ?_⟩
  · rw [hhead, Function.update_apply, update_level, apply_ite List.head?, hchain.1, h.head]
  · rw [htail, update_level, apply_ite List.getLast?]
    by_cases hrest : rest = []
    · rw [if_pos (hlast.mpr hrest), Function.update_apply, hrest, h.tail]
      rfl
    · rw [if_neg fun hnone => hrest (hlast.mp hnone)]
      split_ifs with hl
      · rw [hl, hends, List.getLast?_cons_of_ne_nil hrest]
      · exact h.tail l
  · have hall : LinkedList.Chain q.nextRun (update ls level rest l) := by
      rw [update_level]
      split_ifs
      · exact hchain.2
      · exact h.chain l
    refine hall.congr fun x hx => ?_
    rw [hnext, Function.update_apply, if_neg]
    rintro rfl
    rw [update_level] at hx
    split_ifs at hx with hl
    · exact hproc hx
    · exact h.apart l level hl hx (hlevel ▸ List.mem_cons_self)
  · rw [hbitmap, update_level]
    by_cases hrest : rest = []
    · rw [if_pos (hlast.mpr hrest), getLsb_clear, Bool.and_eq_true, h.bit]
      split_ifs with hl
      · simp [hl, hrest]
      · simp [Ne.symm hl]
    · rw [if_neg fun hnone => hrest (hlast.mp hnone), h.bit]
      split_ifs with hl
      · rw [hl, hlevel]
        exact iff_of_true (List.cons_ne_nil proc rest) hrest
      · exact Iff.rfl
  · rw [update_level]
    split_ifs
    · exact hnodup
    · exact h.nodup l
  · exact h.apart l l' hne (hmem l x hx) (hmem l' x hx')

theorem Holds.dequeue (h : Holds q ls) : ∃ q', schedDequeue q = some (ls.oldest, q') ∧ Holds q' ls.pop := by
  cases hlow : ls.lowest with
  | none =>
    have hempty := Levels.lowest_none hlow
    refine ⟨q, ?_, ?_⟩
    · rw [schedDequeue, if_pos (h.bitmap_zero hempty), Levels.oldest, hlow]
      rfl
    · rw [Levels.pop, hlow]
      exact h
  | some level =>
    obtain ⟨hlevel, hbelow⟩ := Levels.lowest_spec hlow
    obtain ⟨proc, rest, hlist⟩ := List.exists_cons_of_ne_nil hlevel
    have hset := (h.bit level).mpr hlevel
    have hclear (l : Fin schedLevels) (hl : l < level) : q.bitmap.getLsb l = false :=
      Bool.eq_false_iff.mpr fun hbit => (h.bit l).mp hbit (hbelow l hl)
    have hbitmap : q.bitmap ≠ 0 := by
      intro hzero
      rw [hzero] at hset
      exact Bool.false_ne_true (BitVec.getLsbD_zero.symm.trans hset)
    have hhead : q.head level = some proc := by
      rw [h.head, hlist]
      rfl
    have holdest : ls.oldest = some proc := by
      rw [Levels.oldest, hlow]
      exact congrArg List.head? hlist
    have hpop : ls.pop = update ls level rest := by
      rw [Levels.pop, hlow]
      exact congrArg (update ls level) (congrArg List.tail hlist)
    rw [holdest, hpop, schedDequeue, if_neg hbitmap, levelLoop_eq (Nat.le_refl _) (Nat.zero_le _) hset hclear]
    change ∃ q', (q.head level).bind _ = _ ∧ _
    rw [hhead]
    by_cases hnext : q.nextRun proc = none
    · exact ⟨_, if_pos hnext, h.take hlist rfl rfl (if_pos hnext).symm (if_pos hnext).symm⟩
    · exact ⟨_, if_neg hnext, h.take hlist rfl rfl (if_neg hnext).symm (if_neg hnext).symm⟩

end

section

inductive QueueRun : Levels → RunQueue → Prop
  | empty (nextRun : Nat → Option Nat) (state : Nat → ProcState) : QueueRun (fun _ => []) (.empty nextRun state)
  | enqueue {ls : Levels} {q : RunQueue} {proc : Nat} (level : Fin schedLevels) :
    QueueRun ls q → (∀ l, proc ∉ ls l) → QueueRun (ls.push level proc) (schedEnqueue proc level q)
  | dequeue {ls : Levels} {q q' : RunQueue} {taken : Option Nat} :
    QueueRun ls q → schedDequeue q = some (taken, q') → QueueRun ls.pop q'

variable {ls : Levels} {q : RunQueue}

theorem QueueRun.holds (h : QueueRun ls q) : Holds q ls := by
  induction h with
  | empty nextRun state => exact holds_empty nextRun state
  | enqueue level _ hproc ih => exact ih.enqueue hproc
  | dequeue _ hdequeue ih =>
    obtain ⟨q', hq', hholds⟩ := ih.dequeue
    obtain ⟨-, rfl⟩ := Prod.mk.inj (Option.some.inj (hq'.symm.trans hdequeue))
    exact hholds

theorem Levels.oldest_none : ls.oldest = none ↔ ∀ level, ls level = [] := by
  constructor
  · intro h
    cases hlow : ls.lowest with
    | none => exact Levels.lowest_none hlow
    | some level =>
      rw [Levels.oldest, hlow] at h
      exact absurd (List.head?_eq_none_iff.mp h) (Levels.lowest_spec hlow).1
  · intro hempty
    cases hlow : ls.lowest with
    | none => rw [Levels.oldest, hlow]; rfl
    | some level => exact absurd (hempty level) (Levels.lowest_spec hlow).1

theorem Levels.oldest_some {proc : Nat} (h : ls.oldest = some proc) :
    ∃ level, (ls level).head? = some proc ∧ (∀ l < level, ls l = []) ∧ ls.pop = update ls level (ls level).tail := by
  cases hlow : ls.lowest with
  | none =>
    rw [Levels.oldest, hlow] at h
    cases h
  | some level =>
    rw [Levels.oldest, hlow] at h
    exact ⟨level, h, (Levels.lowest_spec hlow).2, by rw [Levels.pop, hlow]⟩

/-- At every point of a run the bitmap and the lists are those of the levels, and the next process is the oldest one
of the lowest level that has one. -/
theorem run_queue_fifo (h : QueueRun ls q) :
    (∀ level, (q.bitmap.getLsb level = true ↔ ls level ≠ []) ∧ LinkedList.Chain q.nextRun (ls level) ∧
      q.head level = (ls level).head? ∧ q.tail level = (ls level).getLast?) ∧
    ∃ taken q', schedDequeue q = some (taken, q') ∧ (taken = none ↔ ∀ level, ls level = []) ∧
      ∀ proc, taken = some proc → ∃ level, (ls level).head? = some proc ∧ (∀ l < level, ls l = []) ∧
        ls.pop = update ls level (ls level).tail := by
  have hholds := h.holds
  obtain ⟨q', hq', -⟩ := hholds.dequeue
  refine ⟨fun level => ⟨hholds.bit level, hholds.chain level, hholds.head level, hholds.tail level⟩, ls.oldest, q', hq',
    Levels.oldest_none, fun proc hproc => Levels.oldest_some hproc⟩

/-- Processes 4 and 7 on level 5, then 2 on level 3. -/
def severalQueued : RunQueue :=
  schedEnqueue 2 3 (schedEnqueue 7 5 (schedEnqueue 4 5 (.empty (fun _ => none) fun _ => .new)))

/-- After the urgent process, the older one of the level below it is next. -/
theorem queued_several : ∃ q', schedDequeue severalQueued = some (some 2, q') ∧
    LinkedList.Chain q'.nextRun [4, 7] ∧ q'.head 5 = some 4 ∧ q'.tail 5 = some 7 ∧
    ∃ q'', schedDequeue q' = some (some 4, q'') := by
  obtain ⟨q', hurgent, hnext⟩ : ∃ q', schedDequeue severalQueued = some (some 2, q') ∧
      ∃ q'', schedDequeue q' = some (some 4, q'') := ⟨_, rfl, _, rfl⟩
  have hrun : QueueRun (((Levels.push (fun _ => []) 5 4).push 5 7).push 3 2) severalQueued :=
    (((QueueRun.empty (fun _ => none) fun _ => .new).enqueue 5 (by decide)).enqueue 5 (by decide)).enqueue 3 (by decide)
  obtain ⟨-, hchain, hhead, htail⟩ := (run_queue_fifo (hrun.dequeue hurgent)).1 5
  exact ⟨q', hurgent, hchain, hhead, htail, hnext⟩

end

end Ussr
