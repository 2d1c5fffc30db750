import Mathlib.Data.Finset.Card
import Ussr.Regex.Closed
import Ussr.Regex.Forgetting

/-! The working memory that a compiled pattern has is enough for every search: the stack of `re_add_thread` and its list of
threads have bounds by the length of the code, since no instruction is marked twice. -/

namespace Ussr.Regex

section

/-- `pc` is that of an instruction. -/
def UssrRegex.Has (re : UssrRegex) (pc : Int) : Prop := 0 ≤ pc ∧ pc < re.code.length

structure UssrRegex.Fits (re : UssrRegex) : Prop where
  start : re.Has 0
  leads : ∀ pc i, re.instAt pc = some i → ∀ x ∈ i.leads, re.Has (pc + x)
  saves : ∀ slot, .opSave slot ∈ re.code → slot < re.slots

variable {re : UssrRegex} {pc : Int} {i : Inst}

theorem instAt_some (h : re.instAt pc = some i) : re.Has pc ∧ re.code[pc.toNat]? = some i := by
  unfold UssrRegex.instAt at h
  split_ifs at h with hpc
  have hlt := (List.getElem?_eq_some_iff.mp h).1
  exact ⟨⟨hpc, by omega⟩, h⟩

theorem UssrRegex.Has.inst (h : re.Has pc) : ∃ i, re.instAt pc = some i := by
  have hlt : pc.toNat < re.code.length := by
    have hpc := h.1
    have hbelow := h.2
    omega
  exact ⟨_, (if_pos h.1).trans (List.getElem?_eq_getElem hlt)⟩

theorem compiled_fits {pattern flags : List UInt8} (h : ussrRegexCompile pattern flags = .ok re) : re.Fits := by
  obtain ⟨t, -, hcode, hproper⟩ := ussrRegexCompile_tree h
  have hlen : re.code.length = t.code.length + 1 := by rw [hcode, List.length_append, List.length_singleton]
  refine ⟨⟨le_rfl, by omega⟩, fun pc i hi x hx => ?_, fun slot hslot => ?_⟩
  · obtain ⟨hpc, hget⟩ := instAt_some hi
    rw [hcode] at hget
    by_cases hin : pc.toNat < t.code.length
    · rw [List.getElem?_append_left hin] at hget
      have hwithin := (t.code_closed hproper 0).get hget hx
      have hnonneg := hpc.1
      exact ⟨by omega, by omega⟩
    · -- the match behind the code leads nowhere
      have hlast : pc.toNat = t.code.length := by
        have hbelow := hpc.2
        omega
      rw [hlast, List.getElem?_append_right le_rfl, Nat.sub_self] at hget
      obtain rfl := Option.some.inj hget
      exact absurd hx List.not_mem_nil
  · rw [hcode] at hslot
    obtain hslot | hslot := List.mem_append.mp hslot
    · exact t.code_saves hproper slot hslot
    · exact absurd (List.mem_singleton.mp hslot) Inst.noConfusion

end

section

variable {re : UssrRegex} {m : Memory} {pc : Int}

def seen (re : UssrRegex) (m : Memory) : Nat := ((Finset.range re.code.length).filter fun k : Nat => m.marks k = m.generation).card

theorem seen_le (re : UssrRegex) (m : Memory) : seen re m ≤ re.code.length :=
  (Finset.card_filter_le _ _).trans_eq (Finset.card_range _)

theorem seen_congr {m' : Memory} (hmarks : m'.marks = m.marks) (hgeneration : m'.generation = m.generation) : seen re m' = seen re m := by
  rw [seen, seen, hmarks, hgeneration]

theorem seen_mark (hpc : re.Has pc) (hnew : m.marks pc ≠ m.generation) : seen re (m.mark pc) = seen re m + 1 := by
  obtain ⟨k, rfl⟩ := Int.eq_ofNat_of_zero_le hpc.1
  have hk : k < re.code.length := by exact_mod_cast hpc.2
  have hinsert : ((Finset.range re.code.length).filter fun j : Nat => (m.mark k).marks j = m.generation) =
      insert k ((Finset.range re.code.length).filter fun j : Nat => m.marks j = m.generation) := by
    ext j
    rw [Finset.mem_filter, Finset.mem_insert, Finset.mem_filter, Finset.mem_range, Memory.mark_marks]
    by_cases hj : j = k
    · simp [hj, hk]
    · simp [hj]
  have hfresh : k ∉ (Finset.range re.code.length).filter fun j : Nat => m.marks j = m.generation := by
    rw [Finset.mem_filter]
    exact fun hmem => hnew hmem.2
  exact (congrArg Finset.card hinsert).trans (Finset.card_insert_of_notMem hfresh)

end

section

def Entry.Fits (re : UssrRegex) : Entry → Prop
  | .way pc => re.Has pc
  | .restore slot _ => slot < re.slots

def unwind : List Entry → List Int → List Int
  | [], saves => saves
  | .way _ :: stack, saves => unwind stack saves
  | .restore slot old :: stack, saves => unwind stack (saves.set slot old)

structure ThreadFits (re : UssrRegex) (th : Thread) : Prop where
  slots : th.slots.length = re.slots
  inst : ∃ i, re.instAt th.pc = some i ∧ (i = .opMatch ∨ i.leads = [1])

structure ThreadsFit (re : UssrRegex) (m : Memory) : Prop where
  fits : ∀ th ∈ m.threads, ThreadFits re th
  length : m.threads.length ≤ seen re m

/-- What holds at every turn of `re_add_thread` that was called with the memory `called`. -/
structure StackFits (re : UssrRegex) (called : Memory) (stack : List Entry) (m : Memory) : Prop where
  entries : ∀ entry ∈ stack, entry.Fits re
  length : stack.length + seen re called ≤ seen re m + 1
  slots : m.saves.length = re.slots
  saves : unwind stack m.saves = called.saves
  threads : ThreadsFit re m

variable {re : UssrRegex} {text : List UInt8} {at' : Nat} {called m : Memory} {stack : List Entry}

theorem StackFits.start {pc : Int} (hpc : re.Has pc) (hslots : called.saves.length = re.slots) (hthreads : ThreadsFit re called) :
    StackFits re called [.way pc] called where
  entries entry hentry := by
    rw [List.mem_singleton.mp hentry]
    exact hpc
  length := (Nat.add_comm _ _).le
  slots := hslots
  saves := rfl
  threads := hthreads

def Way.Suits (i : Inst) : Way → Prop
  | .go x => x ∈ i.leads
  | .fork x y => i = .opSplit x y
  | .save slot => i = .opSave slot
  | .stop => True
  | .wait => i = .opMatch ∨ i.leads = [1]

theorem goIf_suits {i : Inst} (hleads : i.leads = [1]) (holds : Bool) : (goIf holds).Suits i := by
  cases holds with
  | true =>
    rw [goIf, if_pos rfl, Way.Suits, hleads]
    exact List.mem_singleton_self 1
  | false => trivial

theorem way_suits (text : List UInt8) (at' : Nat) (i : Inst) : (i.way text at').Suits i := by
  cases i with
  | opJmp x => exact List.mem_singleton_self x
  | opSplit x y => rfl
  | opSave slot => rfl
  | opMatch => exact .inl rfl
  | opBol => exact goIf_suits rfl _
  | opEol => exact goIf_suits rfl _
  | opMbol => exact goIf_suits rfl _
  | opMeol => exact goIf_suits rfl _
  | opWordb => exact goIf_suits rfl _
  | opNwordb => exact goIf_suits rfl _
  | _ => exact .inr rfl

theorem mem_code {pc : Int} {i : Inst} (h : re.instAt pc = some i) : i ∈ re.code := List.mem_of_getElem? (instAt_some h).2

theorem StackFits.mark {pc : Int} (h : StackFits re called (.way pc :: stack) m) (hnew : m.marks pc ≠ m.generation)
    {left : List Entry} {m' : Memory} (hleft : ∀ entry ∈ left, entry.Fits re) (hlen : left.length ≤ 2)
    (hmarks : m'.marks = (m.mark pc).marks) (hgeneration : m'.generation = m.generation) (hslots : m'.saves.length = re.slots)
    (hsaves : unwind (left ++ stack) m'.saves = unwind stack m.saves) (hthreads : ∀ th ∈ m'.threads, ThreadFits re th)
    (hcount : m'.threads.length ≤ m.threads.length + 1) :
    StackFits re called (left ++ stack) m' ∧ left.length + 2 * seen re m ≤ 2 * seen re m' := by
  have hpc : re.Has pc := h.entries (.way pc) List.mem_cons_self
  have hseen : seen re m' = seen re m + 1 := (seen_congr hmarks hgeneration).trans (seen_mark hpc hnew)
  have hlength := h.length
  have hfew := h.threads.length
  rw [List.length_cons] at hlength
  refine ⟨⟨fun entry hentry => ?_, ?_, hslots, hsaves.trans h.saves, hthreads, by omega⟩, by omega⟩
  · obtain hentry | hentry := List.mem_append.mp hentry
    · exact hleft entry hentry
    · exact h.entries entry (List.mem_cons_of_mem _ hentry)
  · rw [List.length_append]
    omega

theorem addEntry_fits (hre : re.Fits) {entry : Entry} (h : StackFits re called (entry :: stack) m) :
    ∃ left m', addEntry re text at' entry m = some (left, m') ∧ StackFits re called (left ++ stack) m' ∧
      left.length + 2 * seen re m ≤ 2 * seen re m' := by
  have hentry := h.entries entry List.mem_cons_self
  have hlength := h.length
  rw [List.length_cons] at hlength
  have hrest : ∀ entry ∈ stack, entry.Fits re := fun entry hmem => h.entries entry (List.mem_cons_of_mem _ hmem)
  cases entry with
  | restore slot old =>
    refine ⟨[], { m with saves := m.saves.set slot old }, rfl, ⟨hrest, ?_, ?_, h.saves, h.threads.fits, h.threads.length⟩, ?_⟩
    · exact (Nat.le_succ _).trans ((Nat.succ_add _ _).symm.le.trans hlength)
    · exact List.length_set.trans h.slots
    · exact (Nat.zero_add _).le
  | way pc =>
    obtain ⟨i, hi⟩ := hentry.inst
    have hsuits := way_suits text at' i
    have hleads := hre.leads pc i hi
    have hthreads := h.threads.fits
    have hmarked {left : List Entry} (hleft : ∀ entry ∈ left, entry.Fits re) (hlen : left.length ≤ 2)
        (hways : unwind (left ++ stack) m.saves =
        unwind stack m.saves) (hnew : m.marks pc ≠ m.generation) :=
      @StackFits.mark re called m stack pc h hnew left (m.mark pc) hleft hlen rfl rfl h.slots hways hthreads (Nat.le_succ _)
    rw [addEntry, hi]
    change ∃ left m', (if m.marks pc = m.generation then some ([], m) else _) = some (left, m') ∧ _
    by_cases hnew : m.marks pc = m.generation
    · rw [if_pos hnew]
      exact ⟨[], m, rfl, ⟨hrest, by change stack.length + _ ≤ _; omega, h.slots, h.saves, h.threads⟩, (Nat.zero_add _).le⟩
    · rw [if_neg hnew]
      cases hway : i.way text at' with
      | go x =>
        rw [hway] at hsuits
        refine ⟨_, _, rfl, hmarked ?_ (Nat.le_succ 1) rfl hnew⟩
        exact List.forall_mem_singleton.mpr (hleads x hsuits)
      | fork x y =>
        rw [hway] at hsuits
        obtain rfl : i = .opSplit x y := hsuits
        refine ⟨_, _, rfl, hmarked ?_ le_rfl rfl hnew⟩
        exact List.forall_mem_cons.mpr ⟨hleads x (by simp [Inst.leads]), List.forall_mem_singleton.mpr (hleads y (by simp [Inst.leads]))⟩
      | save slot =>
        rw [hway] at hsuits
        obtain rfl : i = .opSave slot := hsuits
        have hslot := hre.saves slot (mem_code hi)
        have hlt : slot < m.saves.length := by rw [h.slots]; exact hslot
        have hget : m.saves[slot]? = some m.saves[slot] := List.getElem?_eq_getElem hlt
        dsimp only
        rw [hget]
        refine ⟨_, _, rfl, h.mark hnew ?_ le_rfl rfl rfl (List.length_set.trans h.slots) ?_ hthreads (Nat.le_succ _)⟩
        · exact List.forall_mem_cons.mpr ⟨hleads 1 (List.mem_singleton_self 1), List.forall_mem_singleton.mpr hslot⟩
        · refine congrArg (unwind stack) ?_
          rw [List.set_set, List.set_getElem_self]
      | stop => exact ⟨_, _, rfl, hmarked (fun entry hmem => absurd hmem List.not_mem_nil) (Nat.zero_le 2) rfl hnew⟩
      | wait =>
        rw [hway] at hsuits
        refine ⟨_, _, rfl, h.mark hnew (fun entry hmem => absurd hmem List.not_mem_nil) (Nat.zero_le 2) rfl rfl h.slots rfl ?_ ?_⟩
        · exact List.forall_mem_append.mpr ⟨hthreads, List.forall_mem_singleton.mpr ⟨h.slots, i, hi, hsuits⟩⟩
        · exact List.length_append.le

/-- The states of the loop of `re_add_thread`, called at `pc` with the memory `called`. -/
inductive AddReached (re : UssrRegex) (text : List UInt8) (at' : Nat) (pc : Int) (called : Memory) : List Entry → Memory → Prop
  | start : AddReached re text at' pc called [.way pc] called
  | turn {entry : Entry} {stack left : List Entry} {m m' : Memory} : AddReached re text at' pc called (entry :: stack) m →
    addEntry re text at' entry m = some (left, m') → AddReached re text at' pc called (left ++ stack) m'

theorem AddReached.fits (hre : re.Fits) {pc : Int} (hpc : re.Has pc) (hslots : called.saves.length = re.slots)
    (hthreads : ThreadsFit re called) (h : AddReached re text at' pc called stack m) : StackFits re called stack m := by
  induction h with
  | start => exact .start hpc hslots hthreads
  | turn _ hadd ih =>
    obtain ⟨left, m', hadd', hfits, -⟩ := addEntry_fits hre ih
    obtain ⟨rfl, rfl⟩ := Prod.mk.inj (Option.some.inj (hadd'.symm.trans hadd))
    exact hfits

theorem addLoop_fits (hre : re.Fits) {turns : Nat} (h : StackFits re called stack m)
    (hturns : stack.length + 2 * re.code.length ≤ turns + 2 * seen re m) :
    ∃ m', addLoop re text at' turns stack m = some m' ∧ m'.saves = called.saves ∧ ThreadsFit re m' := by
  induction turns generalizing stack m with
  | zero =>
    cases stack with
    | nil => exact ⟨m, rfl, h.saves, h.threads⟩
    | cons entry stack =>
      have hseen := seen_le re m
      rw [List.length_cons] at hturns
      omega
  | succ turns ih =>
    cases stack with
    | nil => exact ⟨m, rfl, h.saves, h.threads⟩
    | cons entry stack =>
      obtain ⟨left, m₁, hadd, hfits, hfewer⟩ := @addEntry_fits re text at' called m stack hre entry h
      rw [List.length_cons] at hturns
      obtain ⟨m', hrest, hm'⟩ := ih hfits (by rw [List.length_append]; omega)
      refine ⟨m', ?_, hm'⟩
      rw [addLoop, hadd]
      exact hrest

theorem reAddThread_fits (hre : re.Fits) {pc : Int} (hpc : re.Has pc) (hslots : called.saves.length = re.slots)
    (hthreads : ThreadsFit re called) :
    ∃ m', reAddThread re text at' pc called = some m' ∧ m'.saves = called.saves ∧ ThreadsFit re m' :=
  addLoop_fits hre (.start hpc hslots hthreads) (by rw [List.length_singleton]; omega)

end

section

inductive Point where
  | turn (at' : Nat) (spans : Option (List Int)) (m : Memory)
  | left (at' : Nat) (threads : List Thread) (m : Memory) (spans : Option (List Int))

def charEnd (text : List UInt8) (at' : Nat) : Nat := at' + ((charAt text at').map Prod.snd).getD 1

/-- The points that a search comes to which begins with the memory `before`. -/
inductive Searched (re : UssrRegex) (text : List UInt8) (start : Nat) (before : Memory) : Point → Prop
  | start : start ≤ text.length →
    Searched re text start before (.turn start none { before with generation := bump before.generation, threads := [] })
  | position {at' : Nat} {spans : Option (List Int)} {m m' : Memory} : Searched re text start before (.turn at' spans m) →
    startThread re text at' spans m = some m' → ¬(m'.threads = [] ∧ (spans.isSome ∨ text.length ≤ at')) →
    Searched re text start before (.left at' m'.threads { m' with generation := bump m'.generation, threads := [] } spans)
  | found {at' : Nat} {th : Thread} {rest : List Thread} {m : Memory} {spans : Option (List Int)} :
    Searched re text start before (.left at' (th :: rest) m spans) → re.instAt th.pc = some .opMatch →
    Searched re text start before (.left at' [] m (some (th.slots.set 1 at')))
  | take {at' : Nat} {th : Thread} {rest : List Thread} {m m' : Memory} {spans : Option (List Int)} {i : Inst} :
    Searched re text start before (.left at' (th :: rest) m spans) → re.instAt th.pc = some i → i ≠ .opMatch →
    takes re i ((charAt text at').map Prod.fst) = true →
    reAddThread re text (charEnd text at') (th.pc + 1) { m with saves := th.slots } = some m' →
    Searched re text start before (.left at' rest m' spans)
  | skip {at' : Nat} {th : Thread} {rest : List Thread} {m : Memory} {spans : Option (List Int)} {i : Inst} :
    Searched re text start before (.left at' (th :: rest) m spans) → re.instAt th.pc = some i → i ≠ .opMatch →
    takes re i ((charAt text at').map Prod.fst) = false → Searched re text start before (.left at' rest m spans)
  | next {at' : Nat} {m : Memory} {spans : Option (List Int)} : Searched re text start before (.left at' [] m spans) →
    (charAt text at').isSome → Searched re text start before (.turn (charEnd text at') spans m)

/-- The calls of `re_add_thread` in a search, each with its position, its instruction and its memory. -/
inductive Called (re : UssrRegex) (text : List UInt8) (start : Nat) (before : Memory) : Nat → Int → Memory → Prop
  | fresh {at' : Nat} {m : Memory} : Searched re text start before (.turn at' none m) →
    Called re text start before at' 0 { m with saves := freshSlots re at' }
  | take {at' : Nat} {th : Thread} {rest : List Thread} {m : Memory} {spans : Option (List Int)} {i : Inst} :
    Searched re text start before (.left at' (th :: rest) m spans) → re.instAt th.pc = some i → i ≠ .opMatch →
    takes re i ((charAt text at').map Prod.fst) = true →
    Called re text start before (charEnd text at') (th.pc + 1) { m with saves := th.slots }

variable {re : UssrRegex} {text : List UInt8} {start : Nat} {before : Memory}

def Point.Fits (re : UssrRegex) : Point → Prop
  | .turn _ _ m => ThreadsFit re m
  | .left _ threads m _ => (∀ th ∈ threads, ThreadFits re th) ∧ ThreadsFit re m

theorem threadsFit_none {m : Memory} (h : m.threads = []) : ThreadsFit re m :=
  ⟨fun th hth => absurd (h ▸ hth) List.not_mem_nil, by rw [h]; exact Nat.zero_le _⟩

theorem ThreadsFit.withSaves {m : Memory} (h : ThreadsFit re m) (saves : List Int) : ThreadsFit re { m with saves := saves } :=
  ⟨h.fits, h.length⟩

theorem length_freshSlots (re : UssrRegex) (at' : Nat) : (freshSlots re at').length = re.slots := by
  rw [freshSlots, List.length_set, List.length_replicate]

theorem ThreadFits.has {th : Thread} (h : ThreadFits re th) (hre : re.Fits) {i : Inst} (hi : re.instAt th.pc = some i)
    (hmatch : i ≠ .opMatch) : re.Has (th.pc + 1) := by
  obtain ⟨i', hi', hkind⟩ := h.inst
  obtain rfl := Option.some.inj (hi'.symm.trans hi)
  refine hre.leads th.pc i' hi 1 ?_
  rw [hkind.resolve_left hmatch]
  exact List.mem_singleton_self 1

theorem startThread_fits (hre : re.Fits) {at' : Nat} {spans : Option (List Int)} {m : Memory} (h : ThreadsFit re m) :
    ∃ m', startThread re text at' spans m = some m' ∧ ThreadsFit re m' := by
  unfold startThread
  split_ifs
  · obtain ⟨m', hadd, -, hfits⟩ := @reAddThread_fits re text at' _ hre 0 hre.start (length_freshSlots re at') (h.withSaves _)
    exact ⟨m', hadd, hfits⟩
  · exact ⟨m, rfl, h⟩

theorem Searched.fits (hre : re.Fits) {p : Point} (h : Searched re text start before p) : p.Fits re := by
  induction h with
  | start _ => exact threadsFit_none rfl
  | position _ hstart _ ih =>
    obtain ⟨m', hm', hfits⟩ := startThread_fits hre ih
    obtain rfl := Option.some.inj (hm'.symm.trans hstart)
    exact ⟨hfits.fits, threadsFit_none rfl⟩
  | found _ _ ih => exact ⟨fun th hth => absurd hth List.not_mem_nil, ih.2⟩
  | take _ hi hmatch _ hadd ih =>
    obtain ⟨hth, hrest⟩ := List.forall_mem_cons.mp ih.1
    obtain ⟨m', hm', -, hfits⟩ := reAddThread_fits hre (hth.has hre hi hmatch) hth.slots (ih.2.withSaves _)
    obtain rfl := Option.some.inj (hm'.symm.trans hadd)
    exact ⟨hrest, hfits⟩
  | skip _ _ _ _ ih => exact ⟨(List.forall_mem_cons.mp ih.1).2, ih.2⟩
  | next _ _ ih => exact ih.2

theorem Called.fits (hre : re.Fits) {at' : Nat} {pc : Int} {m : Memory} (h : Called re text start before at' pc m) :
    re.Has pc ∧ m.saves.length = re.slots ∧ ThreadsFit re m := by
  cases h with
  | fresh hturn => exact ⟨hre.start, length_freshSlots re at', (Searched.fits hre hturn).withSaves _⟩
  | take hleft hi hmatch _ =>
    obtain ⟨hthreads, hlist⟩ := Searched.fits hre hleft
    have hth := hthreads _ List.mem_cons_self
    exact ⟨hth.has hre hi hmatch, hth.slots, hlist.withSaves _⟩

theorem runThreads_fits (hre : re.Fits) (at' after : Nat) (next : Option Nat) {threads : List Thread}
    (hthreads : ∀ th ∈ threads, ThreadFits re th) {m : Memory} (h : ThreadsFit re m) (spans : Option (List Int)) :
    ∃ r, runThreads re text at' next after threads m spans = some r ∧ ThreadsFit re r.1 := by
  induction threads generalizing m with
  | nil => exact ⟨(m, spans), rfl, h⟩
  | cons th rest ih =>
    obtain ⟨hth, hrest⟩ := List.forall_mem_cons.mp hthreads
    obtain ⟨i, hi, -⟩ := hth.inst
    rw [runThreads, hi]
    change ∃ r, (if i = .opMatch then _ else _) = some r ∧ _
    by_cases hmatch : i = .opMatch
    · rw [if_pos hmatch]
      exact ⟨_, rfl, h⟩
    · rw [if_neg hmatch]
      split_ifs
      · obtain ⟨m', hadd, -, hfits⟩ := @reAddThread_fits re text after _ hre _ (hth.has hre hi hmatch) hth.slots (h.withSaves _)
        obtain ⟨r, hrun, hr⟩ := ih hrest hfits
        refine ⟨r, ?_, hr⟩
        rw [hadd]
        exact hrun
      · exact ih hrest h

theorem charEnd_lt {at' : Nat} (h : ¬(charAt text at').isNone) : at' < charEnd text at' ∧ at' < text.length := by
  unfold charEnd
  unfold charAt at h ⊢
  cases hdrop : text.drop at' with
  | nil =>
    rw [hdrop] at h
    exact absurd rfl h
  | cons b rest =>
    have hlen := congrArg List.length hdrop
    rw [List.length_drop, List.length_cons] at hlen
    exact ⟨Nat.lt_add_of_pos_right (reDecode_size b rest), by omega⟩

theorem searchLoop_ends (hre : re.Fits) (count : Nat → Nat) {turns at' : Nat} {spans : Option (List Int)} {m : Memory} (h : ThreadsFit re m)
    (hturns : text.length + 1 ≤ turns + at' ∧ 0 < turns) : ∃ r, searchLoop re text count turns at' spans m = some r := by
  induction turns generalizing at' spans m with
  | zero => omega
  | succ turns ih =>
    obtain ⟨m₁, hstart, hfits₁⟩ := @startThread_fits re text hre at' spans m h
    rw [searchLoop, hstart]
    change ∃ r, (if m₁.threads = [] ∧ (spans.isSome ∨ text.length ≤ at') then some (m₁, spans) else _) = some r
    by_cases hstop : m₁.threads = [] ∧ (spans.isSome ∨ text.length ≤ at')
    · rw [if_pos hstop]
      exact ⟨_, rfl⟩
    · obtain ⟨⟨m₂, spans'⟩, hrun, hfits₂⟩ := @runThreads_fits re text hre at' (charEnd text at') ((charAt text at').map Prod.fst) m₁.threads
        hfits₁.fits { m₁ with generation := count m₁.generation, threads := [] } (threadsFit_none rfl) spans
      rw [if_neg hstop]
      change ∃ r, (runThreads re text at' ((charAt text at').map Prod.fst) (charEnd text at') m₁.threads _ spans >>= fun mm =>
        if (charAt text at').isNone then some mm else searchLoop re text count turns (charEnd text at') mm.2 mm.1) = some r
      rw [hrun]
      change ∃ r, (if (charAt text at').isNone then some (m₂, spans') else searchLoop re text count turns
          (charEnd text at') spans' m₂) = some r
      by_cases hend : (charAt text at').isNone
      · rw [if_pos hend]
        exact ⟨_, rfl⟩
      · rw [if_neg hend]
        have hless := charEnd_lt hend
        exact ih hfits₂ (by omega)

theorem searchWith_ends (hre : re.Fits) (count : Nat → Nat) (text : List UInt8) (m : Memory) (start : Nat) :
    ∃ r, searchWith re text count m start = some r := by
  unfold searchWith
  split_ifs with hout
  · exact ⟨_, rfl⟩
  · exact searchLoop_ends hre count (threadsFit_none rfl) (by omega)

/-- In every call of `re_add_thread` the stack, the list and the slots are large enough, and the slots come back as they were. -/
theorem working_memory_suffices {pattern flags : List UInt8} (hcompile : ussrRegexCompile pattern flags = .ok re) {at' : Nat} {pc : Int}
    {called : Memory} (hcalled : Called re text start before at' pc called) :
    (∀ stack m, AddReached re text at' pc called stack m →
      stack.length ≤ re.code.length + 1 ∧ (∀ entry ∈ stack, entry.Fits re) ∧ m.saves.length = re.slots ∧
        m.threads.length ≤ re.code.length ∧
        ∀ entry rest, stack = entry :: rest → rest.length * 3 + 5 < (re.code.length * 2 + 2) * 3 ∧
          (addEntry re text at' entry m).isSome) ∧
    ∃ m, reAddThread re text at' pc called = some m ∧ m.saves = called.saves := by
  have hre := compiled_fits hcompile
  obtain ⟨hpc, hslots, hthreads⟩ := hcalled.fits hre
  constructor
  · intro stack m hreached
    have hfits := hreached.fits hre hpc hslots hthreads
    have hseen := seen_le re m
    have hlength := hfits.length
    refine ⟨by omega, hfits.entries, hfits.slots, hfits.threads.length.trans hseen, fun entry rest hstack => ?_⟩
    subst hstack
    obtain ⟨left, m', hadd, -⟩ := @addEntry_fits re text at' called m rest hre entry hfits
    rw [List.length_cons] at hlength
    exact ⟨by omega, by rw [hadd]; rfl⟩
  · obtain ⟨m, hadd, hsaves, -⟩ := @reAddThread_fits re text at' called hre pc hpc hslots hthreads
    exact ⟨m, hadd, hsaves⟩

/-- The code of `(a|b)*`. -/
def choicesRegex : UssrRegex :=
  ⟨[.opSplit 1 8, .opSave 2, .opSplit 1 3, .opChar 97, .opJmp 2, .opChar 98, .opSave 3, .opJmp (-7), .opMatch], [], 1⟩

/-- The memory before the first letter of `ab`, with the threads that wait for it. -/
def beforeLetter : Memory := (startThread choicesRegex [97, 98] 0 none { Memory.start with generation := 1 }).getD .start

def behindLetter : Memory := { beforeLetter with generation := 2, threads := [], saves := [0, -1, 0, -1] }

/-- Behind the `a` the code goes around the star: both letters, the end and two old slots are on the stack. -/
theorem choices_memory : ussrRegexCompile [40, 97, 124, 98, 41, 42] [] = .ok choicesRegex ∧
    Called choicesRegex [97, 98] 0 .start 1 4 behindLetter ∧
    (∃ stack m, AddReached choicesRegex [97, 98] 1 4 behindLetter stack m ∧
      stack = [.way 3, .way 5, .restore 2 0, .way 8, .restore 3 (-1)] ∧ m.saves = [0, -1, 1, 1] ∧
      stack.length ≤ choicesRegex.code.length + 1 ∧ (addEntry choicesRegex [97, 98] 1 (.way 3) m).isSome) ∧
    ∃ m, reAddThread choicesRegex [97, 98] 1 4 behindLetter = some m ∧ m.saves = behindLetter.saves := by
  have hcompile : ussrRegexCompile [40, 97, 124, 98, 41, 42] [] = .ok choicesRegex := by decide +kernel
  have hthreads : beforeLetter.threads = [⟨3, [0, -1, 0, -1]⟩, ⟨5, [0, -1, 0, -1]⟩, ⟨8, [0, -1, -1, -1]⟩] := by decide +kernel
  have hfirst : Searched choicesRegex [97, 98] 0 .start (.turn 0 none _) := .start (Nat.zero_le 2)
  have hwaiting : Searched choicesRegex [97, 98] 0 .start (.left 0 beforeLetter.threads _ none) :=
    .position hfirst rfl fun hnone => List.cons_ne_nil _ _ (hthreads.symm.trans hnone.1)
  rw [hthreads] at hwaiting
  have hcalled : Called choicesRegex [97, 98] 0 .start 1 4 behindLetter := .take hwaiting (i := .opChar 97) rfl (by decide) (by decide)
  have h₀ : AddReached choicesRegex [97, 98] 1 4 behindLetter [.way 4] behindLetter := .start
  have h₁ := h₀.turn (by rfl)
  have h₂ := h₁.turn (by rfl)
  have h₃ := h₂.turn (by rfl)
  have h₄ := h₃.turn (by rfl)
  have h₅ := h₄.turn (by rfl)
  have h₆ := h₅.turn (by rfl)
  obtain ⟨hturns, hback⟩ := working_memory_suffices hcompile hcalled
  obtain ⟨hlength, -, -, -, hnext⟩ := hturns _ _ h₆
  exact ⟨hcompile, hcalled, ⟨_, _, h₆, rfl, rfl, hlength, (hnext _ _ rfl).2⟩, hback⟩

end

section

variable {re : UssrRegex}

def runSearches (re : UssrRegex) : List (List UInt8 × Nat) → Memory → Option Memory
  | [], m => some m
  | s :: rest, m => (ussrRegexSearch re s.1 m s.2).bind fun r => runSearches re rest r.1

def generations (re : UssrRegex) (s : List UInt8 × Nat) : Nat :=
  ((searchWith re s.1 (· + 1) .start s.2).map fun r => r.1.generation).getD 0

theorem runSearches_used (hre : re.Fits) {searches : List (List UInt8 × Nat)} {m : Memory} (hm : m.Ordered)
    (hfew : m.generation + (searches.map (generations re)).sum < 2 ^ 32) :
    ∃ m', runSearches re searches m = some m' ∧ m'.Ordered ∧ m'.generation = m.generation + (searches.map (generations re)).sum := by
  induction searches generalizing m with
  | nil => exact ⟨m, rfl, hm, rfl⟩
  | cons s rest ih =>
    obtain ⟨r, hr⟩ := searchWith_ends hre (· + 1) s.1 .start s.2
    have hcount : generations re s = r.1.generation := by rw [generations, hr]; rfl
    rw [List.map_cons, List.sum_cons, hcount] at hfew ⊢
    obtain ⟨m₁, hsearch, hordered, hgen⟩ := ussrRegexSearch_used hm hr (by omega)
    obtain ⟨m', hrest, hm', hgen'⟩ := ih hordered (by omega)
    refine ⟨m', ?_, hm', by omega⟩
    rw [runSearches, hsearch]
    exact hrest

/-- As long as the counter of the generations does not come around, a search finds what it would find on a fresh copy. -/
theorem searches_forget {pattern flags : List UInt8} (hcompile : ussrRegexCompile pattern flags = .ok re)
    (searches : List (List UInt8 × Nat)) (text : List UInt8) (start : Nat)
    (hfew : (searches.map (generations re)).sum + generations re (text, start) < 2 ^ 32) :
    ∃ m m₁ m₂ found, runSearches re searches .start = some m ∧ ussrRegexSearch re text m start = some (m₁, found) ∧
      ussrRegexSearch re text .start start = some (m₂, found) := by
  have hre := compiled_fits hcompile
  obtain ⟨r, hr⟩ := searchWith_ends hre (· + 1) text .start start
  have hcount : generations re (text, start) = r.1.generation := by rw [generations, hr]; rfl
  have hzero : Memory.start.generation = 0 := rfl
  obtain ⟨m, hruns, hordered, hgen⟩ := @runSearches_used re hre searches _ Memory.start_ordered (by omega)
  obtain ⟨m₁, hused, -, -⟩ := ussrRegexSearch_used hordered hr (by omega)
  obtain ⟨m₂, hfresh, -, -⟩ := ussrRegexSearch_used Memory.start_ordered hr (by omega)
  exact ⟨m, m₁, m₂, r.2, hruns, hused, hfresh⟩

theorem searches_forget_once : ∃ re m m₁ m₂ found, ussrRegexCompile [97] [] = .ok re ∧ runSearches re [([97], 0)] .start = some m ∧
    ussrRegexSearch re [98] m 0 = some (m₁, found) ∧ ussrRegexSearch re [98] .start 0 = some (m₂, found) := by
  have hcompile : ussrRegexCompile [97] [] = .ok ⟨[.opChar 97, .opMatch], [], 0⟩ := by decide +kernel
  obtain ⟨m, m₁, m₂, found, hall⟩ := searches_forget hcompile [([97], 0)] [98] 0 (by decide +kernel)
  exact ⟨_, m, m₁, m₂, found, hcompile, hall⟩

/-- The code of `ab`. -/
def pairRegex : UssrRegex := ⟨[.opChar 97, .opChar 98, .opMatch], [], 0⟩

/-- Between searches: the first instruction is not marked for the next generation, the second one still as long ago. -/
structure Idle (g : Nat) (m : Memory) : Prop where
  generation : m.generation = g
  first : m.marks 0 ≠ bump g
  second : m.marks 1 = 2

theorem runSearches_append (re : UssrRegex) (a b : List (List UInt8 × Nat)) (m : Memory) :
    runSearches re (a ++ b) m = (runSearches re a m).bind (runSearches re b) := by
  induction a generalizing m with
  | nil => rfl
  | cons s a ih =>
    rw [List.cons_append, runSearches, runSearches]
    cases ussrRegexSearch re s.1 m s.2 with
    | none => rfl
    | some r => exact ih r.1

theorem search_nothing {g : Nat} {m : Memory} (hg : g < 2 ^ 32) (h : Idle g m) :
    ∃ m', ussrRegexSearch pairRegex [] m 0 = some (m', none) ∧ Idle ((g + 2) % 2 ^ 32) m' := by
  obtain ⟨marks, generation, saves, threads⟩ := m
  obtain ⟨hgeneration, hfirst, hsecond⟩ := h
  dsimp only at hgeneration hfirst hsecond
  subst hgeneration
  have hnew : ¬marks 0 = bump generation := hfirst
  refine ⟨⟨Function.update marks 0 (bump generation), bump (bump generation), freshSlots pairRegex 0, []⟩, ?_, ?_, ?_, ?_⟩
  · simp [ussrRegexSearch, searchWith, searchLoop, startThread, reAddThread, addLoop, addEntry, pairRegex, UssrRegex.instAt, Inst.way,
      runThreads, charAt, takes, hnew, Memory.mark]
  · change ((generation + 1) % 2 ^ 32 + 1) % 2 ^ 32 = _
    omega
  · change (generation + 1) % 2 ^ 32 ≠ ((generation + 2) % 2 ^ 32 + 1) % 2 ^ 32
    omega
  · exact hsecond

theorem search_nothing_often (k : Nat) {g : Nat} {m : Memory} (hg : g < 2 ^ 32) (h : Idle g m) :
    ∃ m', runSearches pairRegex (List.replicate k ([], 0)) m = some m' ∧ Idle ((g + 2 * k) % 2 ^ 32) m' := by
  induction k generalizing g m with
  | zero => exact ⟨m, rfl, by rwa [Nat.mul_zero, Nat.add_zero, Nat.mod_eq_of_lt hg]⟩
  | succ k ih =>
    obtain ⟨m₁, hsearch, h₁⟩ := search_nothing hg h
    obtain ⟨m', hrest, h'⟩ := ih (Nat.mod_lt _ (by decide)) h₁
    refine ⟨m', ?_, ?_⟩
    · rw [List.replicate_succ, runSearches, hsearch]
      exact hrest
    · rwa [show (g + 2 * (k + 1)) % 2 ^ 32 = ((g + 2) % 2 ^ 32 + 2 * k) % 2 ^ 32 by omega]

theorem mark_comes_back : ∃ searches m m₁ m₂, ussrRegexCompile [97, 98] [] = .ok pairRegex ∧
    runSearches pairRegex searches .start = some m ∧ ussrRegexSearch pairRegex [97, 98] m 0 = some (m₁, none) ∧
    ussrRegexSearch pairRegex [97, 98] .start 0 = some (m₂, some [0, 2]) := by
  obtain ⟨m₀, hfirst, hidle⟩ : ∃ m₀, runSearches pairRegex [([97], 0), ([98], 0)] .start = some m₀ ∧ Idle 6 m₀ := by
    refine ⟨_, rfl, rfl, ?_, ?_⟩
    · decide
    · decide
  obtain ⟨m, hoften, ⟨hgeneration, hm, hsecond⟩⟩ := search_nothing_often 2147483645 (by decide) hidle
  obtain ⟨marks, generation, saves, threads⟩ := m
  have hzero : generation = 0 := hgeneration
  have hnew : ¬marks 0 = 1 := hm
  have hold : marks 1 = 2 := hsecond
  subst hzero
  have hruns : runSearches pairRegex ([([97], 0), ([98], 0)] ++ List.replicate 2147483645 ([], 0)) .start = some
      ⟨marks, 0, saves, threads⟩ := by
    rw [runSearches_append, hfirst]
    exact hoften
  refine ⟨_, _, ?_, ?_, by decide +kernel, hruns, ?_, ?_⟩
  rotate_left 2
  · simp [ussrRegexSearch, searchWith, searchLoop, startThread, reAddThread, addLoop, addEntry, pairRegex, UssrRegex.instAt, Inst.way,
      runThreads, charAt, takes, hnew, hold, Memory.mark, bump, reDecode, freshSlots, UssrRegex.slots]
    rfl
  · rfl

end

end Ussr.Regex
