import Ussr.Sochi.Seats

/-! Actions reach the game in the order in which they were queued, each at most once, and wait
at the client until they did. -/

namespace Ussr.Sochi
open Stalin (Text)

def numbered : (n : Nat) → List Text → List (Nat × Text)
  | _, [] => []
  | n, action :: actions => (n, action) :: numbered (n + 1) actions

theorem numbered_append (n : Nat) (actions : List Text) (action : Text) :
    numbered n (actions ++ [action]) = numbered n actions ++ [(n + actions.length, action)] := by
  induction actions generalizing n with
  | nil => rfl
  | cons first actions ih =>
    rw [List.cons_append, numbered, ih, numbered, List.cons_append, List.length_cons]
    congr 4
    omega

theorem numbered_dropWhile (done n : Nat) (actions : List Text) (hn : n ≤ done + 1) :
    (numbered n actions).dropWhile (fun e => e.1 ≤ done) =
      numbered (done + 1) (actions.drop (done + 1 - n)) := by
  induction actions generalizing n with
  | nil =>
    rw [List.drop_nil]
    rfl
  | cons action actions ih =>
    by_cases hdone : n ≤ done
    · have hdrop : done + 1 - n = (done + 1 - (n + 1)) + 1 := by omega
      rw [numbered, List.dropWhile_cons, if_pos (decide_eq_true hdone), ih (n + 1) (by omega), hdrop,
        List.drop_succ_cons]
    · obtain rfl : n = done + 1 := by omega
      rw [numbered, List.dropWhile_cons, if_neg (by simp only [decide_eq_true_eq]; omega), Nat.sub_self,
        List.drop_zero, numbered]

theorem numbered_dropWhile_of_lt (done n : Nat) (actions : List Text) (hn : done < n) :
    (numbered n actions).dropWhile (fun e => e.1 ≤ done) = numbered n actions := by
  cases actions with
  | nil => rfl
  | cons action actions =>
    rw [numbered, List.dropWhile_cons, if_neg (by simp only [decide_eq_true_eq]; omega)]

variable {α γ : Type} [DecidableEq α] {game : Game γ} {nick : α → Text}
variable {ms : List ToHost} {e : Event α}

/-- The actions of a client that came to `so_act`, with the seat. -/
def System.passedBy (s : System α γ) (a : α) : List (Seat × Text) :=
  (s.passed.filter fun p => p.1 = a).map Prod.snd

/-- A client that has the seat `i`: as many of its actions as the seat's number says were passed,
and those that no longer wait are among them. -/
structure Served (s : System α γ) (a : α) (i : Seat) : Prop where
  addr : s.host.addr i = some a
  passed : s.passedBy a = ((s.queued a).take (s.host.actid i)).map fun action => (i, action)
  le : s.host.actid i ≤ (s.queued a).length
  welcomes : ∀ j last, (a, .welcome j last) ∈ s.toClient →
    j = i ∧ ((s.client a).mode = .joining → last = 0)
  views : ∀ q actid, (a, .view q actid) ∈ s.toClient → actid i ≤ s.host.actid i
  acts : ∀ id action, (a, .act id action) ∈ s.toHost →
    0 < id ∧ id ≤ s.host.actid i + 1 ∧ (s.queued a)[id - 1]? = some action
  joining : (s.client a).mode = .joining → s.queued a = [] ∧ (s.client a).pending = []
  playing : ∀ j, (s.client a).mode = .playing j → j = i ∧ (s.client a).actid = (s.queued a).length ∧
    ∃ d, d ≤ s.host.actid i ∧ (s.client a).pending = numbered (d + 1) ((s.queued a).drop d)

structure Unseated (s : System α γ) (a : α) : Prop where
  addr : ∀ i, s.host.addr i ≠ some a
  passed : s.passedBy a = []
  queued : s.queued a = []
  pending : (s.client a).pending = []
  mode : ∀ j, (s.client a).mode ≠ .playing j
  welcomes : ∀ j last, (a, .welcome j last) ∉ s.toClient
  views : ∀ q actid, (a, .view q actid) ∉ s.toClient
  acts : ∀ id action, (a, .act id action) ∉ s.toHost

structure Invariant (nick : α → Text) (s : System α γ) : Prop where
  seated : Seated nick s.host
  joins : ∀ a rest, (a, .join rest) ∈ s.toHost → rest = nick a
  byes : ∀ a, (a, .bye) ∈ s.toHost → (s.client a).mode = .gone
  dismissed : ∀ a ∈ s.dismissed, (s.client a).mode = .gone
  clients : ∀ a, a ∉ s.dismissed → Unseated s a ∨ ∃ i, Served s a i

section

variable {s t : System α γ} {a : α} {i : Seat}

structure Untouched (s t : System α γ) (a : α) : Prop where
  client : t.client a = s.client a
  queued : t.queued a = s.queued a
  passed : t.passedBy a = s.passedBy a
  acts : ∀ id action, (a, .act id action) ∈ t.toHost → (a, .act id action) ∈ s.toHost
  told : ∀ m, (a, m) ∈ t.toClient → (a, m) ∈ s.toClient ∨ Fresh s.host (a, m)

theorem Served.of_untouched (h : Served s a i) (hs : Seated nick s.host) (hstep : Untouched s t a)
    (haddr : t.host.addr i = some a) (hactid : t.host.actid i = s.host.actid i) : Served t a i where
  addr := haddr
  passed := by
    rw [hstep.passed, hstep.queued, hactid]
    exact h.passed
  le := by
    rw [hstep.queued, hactid]
    exact h.le
  welcomes := fun j last hmem => by
    rw [hstep.client]
    rcases hstep.told _ hmem with hold | hfull | ⟨⟨hj, rfl⟩, -⟩
    · exact h.welcomes j last hold
    · cases hfull
    · obtain rfl := hs.unique j i a hj h.addr
      refine ⟨rfl, fun hjoining => ?_⟩
      have hle := h.le
      rw [(h.joining hjoining).1] at hle
      exact Nat.le_zero.mp hle
  views := fun q actid hmem => by
    rw [hactid]
    rcases hstep.told _ hmem with hold | hfull | ⟨hactid, -⟩
    · exact h.views q actid hold
    · cases hfull
    · rw [show actid = s.host.actid from hactid]
  acts := fun id action hmem => by
    rw [hstep.queued, hactid]
    exact h.acts id action (hstep.acts id action hmem)
  joining := by
    rw [hstep.client, hstep.queued]
    exact h.joining
  playing := by
    rw [hstep.client, hstep.queued, hactid]
    exact h.playing

theorem Unseated.of_untouched (h : Unseated s a) (hstep : Untouched s t a)
    (haddr : ∀ i, t.host.addr i ≠ some a) : Unseated t a where
  addr := haddr
  passed := hstep.passed.trans h.passed
  queued := hstep.queued.trans h.queued
  pending := by
    rw [hstep.client]
    exact h.pending
  mode := by
    rw [hstep.client]
    exact h.mode
  welcomes := fun j last hmem => by
    rcases hstep.told _ hmem with hold | hfull | ⟨-, i, haddr⟩
    · exact h.welcomes j last hold
    · cases hfull
    · exact h.addr i haddr
  views := fun q actid hmem => by
    rcases hstep.told _ hmem with hold | hfull | ⟨-, i, haddr⟩
    · exact h.views q actid hold
    · cases hfull
    · exact h.addr i haddr
  acts := fun id action hmem => h.acts id action (hstep.acts id action hmem)

theorem served_of_untouched (h : Unseated s a ∨ ∃ i, Served s a i) (hs : Seated nick s.host)
    (hstep : Untouched s t a) (haddr : t.host.addr = s.host.addr) (hactid : t.host.actid = s.host.actid) :
    Unseated t a ∨ ∃ i, Served t a i := by
  rcases h with h | ⟨i, h⟩
  · refine .inl (h.of_untouched hstep fun i => ?_)
    rw [haddr]
    exact h.addr i
  · refine .inr ⟨i, h.of_untouched hs hstep ?_ ?_⟩
    · rw [haddr]
      exact h.addr
    · rw [hactid]

end

section

variable {s : System α γ} {a b : α} {m : ToHost}

theorem mem_dismissed_arrive :
    b ∈ (s.arrive game a m).dismissed ↔
      b ∈ s.dismissed ∨ (b = a ∧ System.loses s.host (s.host.snHostPacket game a m).host a = true) := by
  dsimp only [System.arrive]
  split
  · rename_i hloses
    rw [List.mem_append, List.mem_singleton, hloses]
    simp
  · rename_i hloses
    simp [hloses]

theorem passedBy_arrive :
    (s.arrive game a m).passedBy b = s.passedBy b ++
      if a = b then (s.host.snHostPacket game a m).act.toList else [] := by
  have hpassed : (s.arrive game a m).passed =
      s.passed ++ ((s.host.snHostPacket game a m).act.map fun act => (a, act)).toList := rfl
  rw [System.passedBy, hpassed, List.filter_append, List.map_append, System.passedBy]
  cases (s.host.snHostPacket game a m).act with
  | none => simp
  | some act => by_cases hab : a = b <;> simp [hab]

theorem untouched_arrive (hact : a = b → (s.host.snHostPacket game a m).act = none)
    (hsends : ∀ msg, (b, msg) ∈ (s.host.snHostPacket game a m).sends → Fresh s.host (b, msg)) :
    Untouched s (s.arrive game a m) b where
  client := rfl
  queued := rfl
  passed := by
    rw [passedBy_arrive]
    split
    · rename_i hab
      rw [hact hab]
      exact List.append_nil _
    · exact List.append_nil _
  acts := fun _ _ hmem => hmem
  told := fun msg hmem => (List.mem_append.mp hmem).imp_right (hsends msg)

theorem Served.pass {i : Seat} {id : Nat} {action : Text} (h : Served s a i)
    (hmem : (a, .act id action) ∈ s.toHost) (hnew : s.host.actid i < id)
    (same : SameSeats s.host (s.host.snHostPacket game a m).host)
    (actid : (s.host.snHostPacket game a m).host.actid = Function.update s.host.actid i id)
    (act : (s.host.snHostPacket game a m).act = some (i, action))
    (sends : (s.host.snHostPacket game a m).sends = []) : Served (s.arrive game a m) a i := by
  obtain ⟨-, hle, haction⟩ := h.acts id action hmem
  obtain rfl : id = s.host.actid i + 1 := by omega
  rw [Nat.add_sub_cancel] at haction
  have hactid : (s.arrive game a m).host.actid i = s.host.actid i + 1 := by
    show (s.host.snHostPacket game a m).host.actid i = _
    rw [actid, Function.update_self]
  have htold : (s.arrive game a m).toClient = s.toClient := by
    show s.toClient ++ (s.host.snHostPacket game a m).sends = _
    rw [sends, List.append_nil]
  have hlength : s.host.actid i < (s.queued a).length := (List.getElem?_eq_some_iff.mp haction).1
  constructor
  · show (s.host.snHostPacket game a m).host.addr i = _
    rw [same.addr]
    exact h.addr
  · rw [passedBy_arrive, if_pos rfl, act, h.passed, hactid]
    show _ = ((s.queued a).take (s.host.actid i + 1)).map _
    rw [List.take_add_one, haction, List.map_append]
    rfl
  · rw [hactid]
    exact hlength
  · rw [htold]
    exact h.welcomes
  · rw [htold, hactid]
    exact fun q views hview => Nat.le_succ_of_le (h.views q views hview)
  · rw [hactid]
    intro other text hother
    obtain ⟨hpos, hbound, htext⟩ := h.acts other text hother
    exact ⟨hpos, Nat.le_succ_of_le hbound, htext⟩
  · exact h.joining
  · rw [hactid]
    intro j hj
    obtain ⟨hji, hcount, d, hd, hpending⟩ := h.playing j hj
    exact ⟨hji, hcount, d, Nat.le_succ_of_le hd, hpending⟩

theorem Unseated.take {i : Seat} (h : Unseated s a)
    (addr : (s.host.snHostPacket game a m).host.addr = Function.update s.host.addr i (some a))
    (actid : (s.host.snHostPacket game a m).host.actid = Function.update s.host.actid i 0)
    (act : (s.host.snHostPacket game a m).act = none)
    (sends : (s.host.snHostPacket game a m).sends = [(a, .welcome i 0)]) :
    Served (s.arrive game a m) a i := by
  have hactid : (s.arrive game a m).host.actid i = 0 := by
    show (s.host.snHostPacket game a m).host.actid i = _
    rw [actid, Function.update_self]
  have htold : (s.arrive game a m).toClient = s.toClient ++ [(a, .welcome i 0)] := by
    show s.toClient ++ (s.host.snHostPacket game a m).sends = _
    rw [sends]
  have hqueued : (s.arrive game a m).queued a = [] := h.queued
  constructor
  · show (s.host.snHostPacket game a m).host.addr i = _
    rw [addr, Function.update_self]
  · rw [passedBy_arrive, if_pos rfl, act, h.passed, hqueued, List.take_nil]
    rfl
  · rw [hactid]
    exact Nat.zero_le _
  · rw [htold]
    intro j last hmem
    rcases List.mem_append.mp hmem with hold | hnew
    · exact absurd hold (h.welcomes j last)
    · cases List.mem_singleton.mp hnew
      exact ⟨rfl, fun _ => rfl⟩
  · rw [htold]
    intro q views hmem
    rcases List.mem_append.mp hmem with hold | hnew
    · exact absurd hold (h.views q views)
    · cases List.mem_singleton.mp hnew
  · exact fun id action hmem => absurd hmem (h.acts id action)
  · exact fun _ => ⟨hqueued, h.pending⟩
  · exact fun j hj => absurd hj (h.mode j)

theorem Invariant.arrive (h : Invariant nick s)
    (hinjective : ∀ a b, joinName (nick a) = joinName (nick b) → a = b) (hmem : (a, m) ∈ s.toHost) :
    Invariant nick (s.arrive game a m) := by
  have hdoes : Does nick s.host a m (s.host.snHostPacket game a m) :=
    packet_does h.seated fun rest hrest => h.joins a rest (hrest ▸ hmem)
  have hseated : Seated nick (s.arrive game a m).host := hdoes.seated h.seated hinjective
  have hdismissed : ∀ b ∈ (s.arrive game a m).dismissed, (s.client b).mode = .gone := by
    intro b hb
    rcases mem_dismissed_arrive.mp hb with hb | ⟨rfl, hloses⟩
    · exact h.dismissed b hb
    · obtain ⟨i, haddr, hnone⟩ := addr_of_loses hseated.zero hloses
      cases hdoes with
      | keeps same => exact absurd (same.addr ▸ haddr) (hnone i)
      | acts j id action message addr new same => exact absurd (same.addr ▸ haddr) (hnone i)
      | takes j seat => exact absurd haddr (seat i)
      | leaves j message => exact h.byes b (message ▸ hmem)
  refine ⟨hseated, h.joins, h.byes, hdismissed, fun b hb => ?_⟩
  have hclient := h.clients b fun hs => hb (mem_dismissed_arrive.mpr (.inl hs))
  cases hdoes with
  | keeps same actid act sends =>
    exact served_of_untouched hclient h.seated
      (untouched_arrive (fun _ => act) fun msg hmsg => sends _ hmsg) same.addr actid
  | acts i id action message addr new same actid act sends =>
    by_cases hab : a = b
    · subst hab
      rcases hclient with hclient | ⟨j, hclient⟩
      · exact absurd addr (hclient.addr i)
      · obtain rfl := h.seated.unique j i a hclient.addr addr
        exact .inr ⟨j, hclient.pass (message ▸ hmem) new same actid act sends⟩
    · have hstep : Untouched s (s.arrive game a m) b :=
        untouched_arrive (fun heq => absurd heq hab) fun msg hmsg => by
          rw [sends] at hmsg
          cases hmsg
      rcases hclient with hclient | ⟨j, hclient⟩
      · exact .inl (hclient.of_untouched hstep fun j => same.addr ▸ hclient.addr j)
      · refine .inr ⟨j, hclient.of_untouched h.seated hstep (same.addr ▸ hclient.addr) ?_⟩
        have hji : j ≠ i := by
          rintro rfl
          exact hab (Option.some.inj (addr.symm.trans hclient.addr))
        exact (congrFun actid j).trans (Function.update_of_ne hji _ _)
  | takes i seat free player addr names kind actid act sends =>
    by_cases hab : a = b
    · subst hab
      rcases hclient with hclient | ⟨j, hclient⟩
      · exact .inr ⟨i, hclient.take addr actid act sends⟩
      · exact absurd hclient.addr (seat j)
    · have hstep : Untouched s (s.arrive game a m) b :=
        untouched_arrive (fun heq => absurd heq hab) fun msg hmsg => by
          rw [sends] at hmsg
          cases List.mem_singleton.mp hmsg
          exact absurd rfl hab
      have haddr : ∀ j, j ≠ i → (s.arrive game a m).host.addr j = s.host.addr j := fun j hji =>
        (congrFun addr j).trans (Function.update_of_ne hji _ _)
      rcases hclient with hclient | ⟨j, hclient⟩
      · refine .inl (hclient.of_untouched hstep fun j hj => ?_)
        by_cases hji : j = i
        · have hself : (s.arrive game a m).host.addr j = some a := by
            rw [hji]
            exact (congrFun addr i).trans (Function.update_self _ _ _)
          exact hab (Option.some.inj (hself.symm.trans hj))
        · exact hclient.addr j ((haddr j hji).symm.trans hj)
      · have hji : j ≠ i := by
          rintro rfl
          have hname := (h.seated.named j b hclient.addr).2
          rw [free] at hname
          exact joinName_ne_nil _ hname.symm
        refine .inr ⟨j, hclient.of_untouched h.seated hstep ((haddr j hji).trans hclient.addr) ?_⟩
        exact (congrFun actid j).trans (Function.update_of_ne hji _ _)
  | leaves i message addr free names kind actid act sends =>
    have hstep : Untouched s (s.arrive game a m) b :=
      untouched_arrive (fun _ => act) fun msg hmsg => by
        rw [sends] at hmsg
        cases hmsg
    have haddr : ∀ j, j ≠ i → (s.arrive game a m).host.addr j = s.host.addr j := fun j hji =>
      (congrFun free j).trans (Function.update_of_ne hji _ _)
    have hself : (s.arrive game a m).host.addr i = none := (congrFun free i).trans (Function.update_self _ _ _)
    have hab : a ≠ b := by
      rintro rfl
      refine hb (mem_dismissed_arrive.mpr (.inr ⟨rfl, loses_eq_true h.seated.zero addr fun j hj => ?_⟩))
      by_cases hji : j = i
      · rw [hji] at hj
        cases hself.symm.trans hj
      · exact hji (h.seated.unique j i a ((haddr j hji).symm.trans hj) addr)
    rcases hclient with hclient | ⟨j, hclient⟩
    · refine .inl (hclient.of_untouched hstep fun j hj => ?_)
      by_cases hji : j = i
      · rw [hji] at hj
        cases hself.symm.trans hj
      · exact hclient.addr j ((haddr j hji).symm.trans hj)
    · have hji : j ≠ i := by
        rintro rfl
        exact hab (Option.some.inj (addr.symm.trans hclient.addr))
      exact .inr ⟨j, hclient.of_untouched h.seated hstep ((haddr j hji).trans hclient.addr) (congrFun actid j)⟩

theorem Invariant.quiet {t : System α γ} (h : Invariant nick s) (same : SameSeats s.host t.host)
    (hactid : t.host.actid = s.host.actid) (hclient : t.client = s.client) (hqueued : t.queued = s.queued)
    (hpassed : t.passed = s.passed) (htoHost : t.toHost = s.toHost) (hdismissed : t.dismissed = s.dismissed)
    (htold : ∀ p ∈ t.toClient, p ∈ s.toClient ∨ Fresh s.host p) : Invariant nick t where
  seated := same.seated h.seated
  joins := by
    rw [htoHost]
    exact h.joins
  byes := by
    rw [htoHost, hclient]
    exact h.byes
  dismissed := by
    rw [hdismissed, hclient]
    exact h.dismissed
  clients := fun a ha => by
    have hstep : Untouched s t a := by
      refine ⟨by rw [hclient], by rw [hqueued], ?_, fun _ _ hmem => htoHost ▸ hmem, fun m => htold (a, m)⟩
      unfold System.passedBy
      rw [hpassed]
    exact served_of_untouched (h.clients a (hdismissed ▸ ha)) h.seated hstep same.addr hactid

theorem Invariant.hostStep {t : System α γ} (h : Invariant nick s)
    (hinjective : ∀ a b, joinName (nick a) = joinName (nick b) → a = b)
    (hstep : s.hostStep game e = some t) : Invariant nick t := by
  have same : SameSeats s.host s.host := ⟨rfl, rfl, rfl⟩
  cases e with
  | hostReceives k =>
    obtain ⟨⟨a, m⟩, hk, rfl⟩ := Option.map_eq_some_iff.mp hstep
    exact h.arrive hinjective (List.mem_of_getElem? hk)
  | hostActs seat action =>
    dsimp only [System.hostStep] at hstep
    split at hstep
    · cases hstep
      exact h.quiet ⟨rfl, rfl, rfl⟩ rfl rfl rfl rfl rfl rfl fun p => .inl
    · cases hstep
  | hostSendsView seat =>
    cases hstep
    exact h.quiet same rfl rfl rfl rfl rfl rfl fun p hp =>
      (List.mem_append.mp hp).imp_right (fresh_snSendView s.host seat p)
  | hostTicks =>
    cases hstep
    exact h.quiet ⟨rfl, rfl, rfl⟩ rfl rfl rfl rfl rfl rfl fun p => .inl
  | hostMarksOffline seat =>
    dsimp only [System.hostStep] at hstep
    split at hstep
    · cases hstep
      exact h.quiet ⟨rfl, rfl, rfl⟩ rfl rfl rfl rfl rfl rfl fun p => .inl
    · cases hstep
  | hostCloses =>
    cases hstep
    refine h.quiet same rfl rfl rfl rfl rfl rfl fun p hp => (List.mem_append.mp hp).imp_right fun hbye => ?_
    obtain ⟨a, ha, rfl⟩ := List.mem_map.mp hbye
    obtain ⟨i, -, hi⟩ := List.mem_filterMap.mp ha
    exact .inr ⟨trivial, i, hi⟩
  | joins a => cases hstep
  | receives a k => cases hstep
  | givesUp a => cases hstep
  | queues a action => cases hstep
  | sendsHead a => cases hstep
  | pings a => cases hstep
  | quits a => cases hstep

end

section

variable {s t : System α γ} {a : α} {i : Seat}

/-- A step of the client at `a`, which sends `ms`. -/
structure Moves (s t : System α γ) (a : α) (ms : List ToHost) : Prop where
  host : t.host = s.host
  toHost : t.toHost = s.toHost ++ ms.map fun m => (a, m)
  toClient : t.toClient = s.toClient
  passed : t.passed = s.passed
  dismissed : t.dismissed = s.dismissed
  client : ∀ b, b ≠ a → t.client b = s.client b
  queued : ∀ b, b ≠ a → t.queued b = s.queued b
  gone : (s.client a).mode = .gone → (t.client a).mode = .gone

omit [DecidableEq α] in
theorem Moves.mem_toHost (hstep : Moves s t a ms) {b : α} {m : ToHost} :
    (b, m) ∈ t.toHost ↔ (b, m) ∈ s.toHost ∨ (b = a ∧ m ∈ ms) := by
  rw [hstep.toHost, List.mem_append, List.mem_map]
  refine or_congr_right ⟨?_, ?_⟩
  · rintro ⟨m', hm', heq⟩
    cases heq
    exact ⟨rfl, hm'⟩
  · rintro ⟨rfl, hm⟩
    exact ⟨m, hm, rfl⟩

theorem Moves.untouched (hstep : Moves s t a ms) {b : α} (hclient : t.client b = s.client b)
    (hqueued : t.queued b = s.queued b) (hacts : b = a → ∀ id action, .act id action ∉ ms) :
    Untouched s t b where
  client := hclient
  queued := hqueued
  passed := by
    unfold System.passedBy
    rw [hstep.passed]
  acts := fun id action hmem => by
    rcases hstep.mem_toHost.mp hmem with hold | ⟨hba, hnew⟩
    · exact hold
    · exact absurd hnew (hacts hba id action)
  told := fun m hmem => .inl (hstep.toClient ▸ hmem)

theorem Invariant.moves (h : Invariant nick s) (hstep : Moves s t a ms)
    (hjoins : ∀ rest, .join rest ∈ ms → rest = nick a) (hbyes : .bye ∈ ms → (t.client a).mode = .gone)
    (hclient : (Unseated s a ∨ ∃ i, Served s a i) → Unseated t a ∨ ∃ i, Served t a i) :
    Invariant nick t := by
  have hgone : ∀ b, (s.client b).mode = .gone → (t.client b).mode = .gone := by
    intro b hb
    by_cases hba : b = a
    · rw [hba] at hb ⊢
      exact hstep.gone hb
    · rw [hstep.client b hba]
      exact hb
  constructor
  · rw [hstep.host]
    exact h.seated
  · intro b rest hmem
    rcases hstep.mem_toHost.mp hmem with hold | ⟨rfl, hnew⟩
    · exact h.joins b rest hold
    · exact hjoins rest hnew
  · intro b hmem
    rcases hstep.mem_toHost.mp hmem with hold | ⟨rfl, hnew⟩
    · exact hgone b (h.byes b hold)
    · exact hbyes hnew
  · intro b hb
    rw [hstep.dismissed] at hb
    exact hgone b (h.dismissed b hb)
  · intro b hb
    rw [hstep.dismissed] at hb
    by_cases hba : b = a
    · rw [hba] at hb ⊢
      exact hclient (h.clients a hb)
    · exact served_of_untouched (h.clients b hb) h.seated
        (hstep.untouched (hstep.client b hba) (hstep.queued b hba) fun heq => absurd heq hba)
        (by rw [hstep.host]) (by rw [hstep.host])

theorem Served.moves (h : Served s a i) (hstep : Moves s t a ms)
    (hqueued : t.queued a = s.queued a) (hmode : (t.client a).mode = .joining → t.client a = s.client a)
    (hacts : ∀ id action, .act id action ∈ ms →
      0 < id ∧ id ≤ s.host.actid i + 1 ∧ (s.queued a)[id - 1]? = some action)
    (hplaying : ∀ j, (t.client a).mode = .playing j → j = i ∧ (t.client a).actid = (s.queued a).length ∧
      ∃ d, d ≤ s.host.actid i ∧ (t.client a).pending = numbered (d + 1) ((s.queued a).drop d)) :
    Served t a i where
  addr := by
    rw [hstep.host]
    exact h.addr
  passed := by
    unfold System.passedBy
    rw [hstep.passed, hqueued, hstep.host]
    exact h.passed
  le := by
    rw [hqueued, hstep.host]
    exact h.le
  welcomes := by
    rw [hstep.toClient]
    refine fun j last hmem => (h.welcomes j last hmem).imp_right fun hlast hjoining => hlast ?_
    exact hmode hjoining ▸ hjoining
  views := by
    rw [hstep.toClient, hstep.host]
    exact h.views
  acts := fun id action hmem => by
    rw [hqueued, hstep.host]
    rcases hstep.mem_toHost.mp hmem with hold | ⟨-, hnew⟩
    · exact h.acts id action hold
    · exact hacts id action hnew
  joining := fun hjoining => by
    have hsame := hmode hjoining
    rw [hsame] at hjoining
    rw [hsame, hqueued]
    exact h.joining hjoining
  playing := by
    rw [hqueued, hstep.host]
    exact hplaying

theorem Unseated.moves (h : Unseated s a) (hstep : Moves s t a ms)
    (hqueued : t.queued a = s.queued a) (hpending : (t.client a).pending = (s.client a).pending)
    (hmode : ∀ j, (t.client a).mode ≠ .playing j) (hacts : ∀ id action, .act id action ∉ ms) :
    Unseated t a where
  addr := by
    rw [hstep.host]
    exact h.addr
  passed := by
    unfold System.passedBy
    rw [hstep.passed]
    exact h.passed
  queued := hqueued.trans h.queued
  pending := hpending.trans h.pending
  mode := hmode
  welcomes := by
    rw [hstep.toClient]
    exact h.welcomes
  views := by
    rw [hstep.toClient]
    exact h.views
  acts := fun id action hmem => by
    rcases hstep.mem_toHost.mp hmem with hold | ⟨-, hnew⟩
    · exact h.acts id action hold
    · exact hacts id action hnew

omit [DecidableEq α] in
theorem moves_send (s : System α γ) (a : α) (ms : List ToHost) : Moves s (s.send a ms) a ms :=
  ⟨rfl, rfl, rfl, rfl, rfl, fun _ _ => rfl, fun _ _ => rfl, id⟩

theorem moves_setClient (s : System α γ) (a : α) (c : Client) (ms : List ToHost)
    (hgone : (s.client a).mode = .gone → c.mode = .gone) : Moves s ((s.setClient a c).send a ms) a ms where
  host := rfl
  toHost := rfl
  toClient := rfl
  passed := rfl
  dismissed := rfl
  client := fun _ hb => Function.update_of_ne hb _ _
  queued := fun _ _ => rfl
  gone := fun hmode => by
    show (Function.update s.client a c a).mode = _
    rw [Function.update_self]
    exact hgone hmode

theorem setClient_client (s : System α γ) (a : α) (c : Client) (ms : List ToHost) :
    ((s.setClient a c).send a ms).client a = c := Function.update_self _ _ _

theorem Invariant.sends (h : Invariant nick s)
    (hjoins : ∀ rest, .join rest ∈ ms → rest = nick a) (hbyes : .bye ∉ ms)
    (hacts : ∀ id action, .act id action ∉ ms) : Invariant nick (s.send a ms) :=
  h.moves (moves_send s a ms) hjoins (fun hbye => absurd hbye hbyes) fun hclient =>
    served_of_untouched hclient h.seated ((moves_send s a ms).untouched rfl rfl fun _ => hacts) rfl rfl

theorem Invariant.ends (h : Invariant nick s) (hjoins : ∀ rest, .join rest ∉ ms)
    (hacts : ∀ id action, .act id action ∉ ms) :
    Invariant nick ((s.setClient a { s.client a with mode := .gone }).send a ms) := by
  have hstep := moves_setClient s a { s.client a with mode := .gone } ms fun _ => rfl
  have hclient := setClient_client s a { s.client a with mode := .gone } ms
  refine h.moves hstep (fun rest hrest => absurd hrest (hjoins rest)) (fun _ => by rw [hclient]) ?_
  rintro (hserved | ⟨i, hserved⟩)
  · refine .inl (hserved.moves hstep rfl (by rw [hclient]) (fun j hj => ?_) hacts)
    rw [hclient] at hj
    cases hj
  · refine .inr ⟨i, hserved.moves hstep rfl (fun hj => ?_) (fun id action hmem => absurd hmem (hacts id action))
      fun j hj => ?_⟩
    · rw [hclient] at hj
      cases hj
    · rw [hclient] at hj
      cases hj

theorem setClient_self (s : System α γ) (a : α) : s.setClient a (s.client a) = s := by
  rw [System.setClient, Function.update_eq_self]

theorem Invariant.welcomed {seat : Seat} {last : Nat} (h : Invariant nick s)
    (hmode : (s.client a).mode = .joining) (hmem : (a, .welcome seat last) ∈ s.toClient) :
    Invariant nick ((s.setClient a { s.client a with mode := .playing seat, actid := last }).send a []) := by
  have hstep := moves_setClient s a { s.client a with mode := .playing seat, actid := last } [] fun hgone => by
    rw [hmode] at hgone
    cases hgone
  have hclient := setClient_client s a { s.client a with mode := .playing seat, actid := last } []
  refine h.moves hstep (fun _ hrest => by cases hrest) (fun hbye => by cases hbye) ?_
  rintro (hserved | ⟨i, hserved⟩)
  · exact absurd hmem (hserved.welcomes seat last)
  · obtain ⟨rfl, hlast⟩ := hserved.welcomes seat last hmem
    obtain ⟨hqueued, hpending⟩ := hserved.joining hmode
    refine .inr ⟨seat, hserved.moves hstep rfl (fun hj => ?_) (fun _ _ hact => by cases hact) fun j hj => ?_⟩
    · rw [hclient] at hj
      cases hj
    · rw [hclient] at hj ⊢
      cases hj
      rw [hqueued]
      exact ⟨rfl, hlast hmode, 0, Nat.zero_le _, hpending⟩

theorem Invariant.viewed {seat : Seat} {q : Nat} {actid : Seat → Nat} (h : Invariant nick s)
    (hmode : (s.client a).mode = .playing seat) (hmem : (a, .view q actid) ∈ s.toClient) :
    Invariant nick ((s.setClient a { s.client a with
      view := some (q, actid)
      pending := (s.client a).pending.dropWhile fun e => e.1 ≤ actid seat }).send a [.ack q]) := by
  generalize hc : ({ s.client a with
      view := some (q, actid)
      pending := (s.client a).pending.dropWhile fun e => e.1 ≤ actid seat } : Client) = c
  have hsame : c.mode = .playing seat := by
    rw [← hc]
    exact hmode
  have hstep := moves_setClient s a c [.ack q] fun hgone => by
    rw [hmode] at hgone
    cases hgone
  have hclient := setClient_client s a c [.ack q]
  have hacts : ∀ id action, .act id action ∉ [ToHost.ack q] := fun id action hact => by
    cases List.mem_singleton.mp hact
  refine h.moves hstep (fun rest hrest => by cases List.mem_singleton.mp hrest)
    (fun hbye => by cases List.mem_singleton.mp hbye) ?_
  rintro (hserved | ⟨i, hserved⟩)
  · exact absurd hmode (hserved.mode seat)
  · obtain ⟨rfl, hcount, d, hd, hpending⟩ := hserved.playing seat hmode
    refine .inr ⟨seat, hserved.moves hstep rfl (fun hj => ?_)
      (fun id action hact => absurd hact (hacts id action)) fun j hj => ?_⟩
    · rw [hclient, hsame] at hj
      cases hj
    · rw [hclient, hsame] at hj
      cases hj
      rw [hclient, ← hc]
      refine ⟨rfl, hcount, ?_⟩
      dsimp only
      rw [hpending]
      by_cases hdone : d ≤ actid seat
      · refine ⟨actid seat, hserved.views q actid hmem, ?_⟩
        rw [numbered_dropWhile _ _ _ (by omega), List.drop_drop]
        congr 2
        omega
      · exact ⟨d, hd, numbered_dropWhile_of_lt _ _ _ (by omega)⟩

theorem Invariant.hears {m : ToClient} (h : Invariant nick s) (hmem : (a, m) ∈ s.toClient) :
    Invariant nick ((s.setClient a ((s.client a).snClientPacket m).1).send a
      ((s.client a).snClientPacket m).2) := by
  have hstays : Invariant nick ((s.setClient a (s.client a)).send a []) := by
    rw [setClient_self]
    exact h.sends (fun _ hrest => by cases hrest) (fun hbye => by cases hbye) fun _ _ hact => by cases hact
  unfold Client.snClientPacket
  cases hmode : (s.client a).mode with
  | joining =>
    cases m with
    | welcome seat last => exact h.welcomed hmode hmem
    | full => exact h.ends (fun _ hrest => by cases hrest) fun _ _ hact => by cases hact
    | view q actid => exact hstays
    | bye => exact hstays
  | playing seat =>
    cases m with
    | view q actid =>
      dsimp only
      split
      · have hviewed := h.viewed hmode hmem
        dsimp only at hviewed
        rwa [hmode] at hviewed
      · rw [setClient_self]
        exact h.sends (fun _ hrest => by cases List.mem_singleton.mp hrest)
          (fun hbye => by cases List.mem_singleton.mp hbye)
          fun _ _ hact => by cases List.mem_singleton.mp hact
    | welcome other last => exact hstays
    | full => exact hstays
    | bye => exact hstays
  | gone => cases m <;> exact hstays

theorem Invariant.queues {seat : Seat} {action : Text} (h : Invariant nick s)
    (hmode : (s.client a).mode = .playing seat) :
    Invariant nick { s.setClient a ((s.client a).suQueue action) with
      queued := Function.update s.queued a (s.queued a ++ [action]) } := by
  generalize ht : ({ s.setClient a ((s.client a).suQueue action) with
      queued := Function.update s.queued a (s.queued a ++ [action]) } : System α γ) = t
  have hclient : t.client a = (s.client a).suQueue action := by
    rw [← ht]
    exact Function.update_self _ _ _
  have hqueued : t.queued a = s.queued a ++ [action] := by
    rw [← ht]
    exact Function.update_self _ _ _
  have hstep : Moves s t a [] := by
    rw [← ht]
    refine ⟨rfl, (List.append_nil _).symm, rfl, rfl, rfl, fun _ hb => Function.update_of_ne hb _ _,
      fun _ hb => Function.update_of_ne hb _ _, fun hgone => ?_⟩
    rw [hmode] at hgone
    cases hgone
  refine h.moves hstep (fun _ hrest => by cases hrest) (fun hbye => by cases hbye) ?_
  rintro (hserved | ⟨i, hserved⟩)
  · exact absurd hmode (hserved.mode seat)
  · obtain ⟨rfl, hcount, d, hd, hpending⟩ := hserved.playing seat hmode
    have hle := hserved.le
    refine .inr ⟨seat, ?_⟩
    constructor
    · rw [hstep.host]
      exact hserved.addr
    · unfold System.passedBy
      rw [hstep.passed, hqueued, hstep.host, List.take_append_of_le_length hle]
      exact hserved.passed
    · rw [hqueued, hstep.host, List.length_append]
      omega
    · rw [hstep.toClient]
      refine fun j last hmem => (hserved.welcomes j last hmem).imp_right fun _ hj => ?_
      rw [hclient] at hj
      cases hmode.symm.trans hj
    · rw [hstep.toClient, hstep.host]
      exact hserved.views
    · intro id text hmem
      rw [hqueued, hstep.host]
      rcases hstep.mem_toHost.mp hmem with hold | ⟨-, hnew⟩
      · obtain ⟨hpos, hbound, htext⟩ := hserved.acts id text hold
        refine ⟨hpos, hbound, ?_⟩
        rw [List.getElem?_append_left (List.getElem?_eq_some_iff.mp htext).1]
        exact htext
      · cases hnew
    · intro hj
      rw [hclient] at hj
      cases hmode.symm.trans hj
    · intro j hj
      rw [hclient] at hj ⊢
      cases hmode.symm.trans hj
      rw [hqueued, hstep.host]
      refine ⟨rfl, ?_, d, hd, ?_⟩
      · rw [List.length_append, ← hcount]
        rfl
      · rw [List.drop_append_of_le_length (by omega), numbered_append, List.length_drop,
          show d + 1 + ((s.queued a).length - d) = (s.client a).actid + 1 by omega]
        rw [← hpending]
        rfl

theorem Invariant.clientStep (h : Invariant nick s) (hstep : s.clientStep nick e = some t) :
    Invariant nick t := by
  cases e with
  | joins a =>
    dsimp only [System.clientStep] at hstep
    split at hstep
    · cases hstep
      exact h.sends (fun rest hrest => by cases List.mem_singleton.mp hrest; rfl)
        (fun hbye => by cases List.mem_singleton.mp hbye)
        fun _ _ hact => by cases List.mem_singleton.mp hact
    · cases hstep
  | receives a k =>
    dsimp only [System.clientStep] at hstep
    split at hstep
    · rename_i b m hk
      split at hstep
      · rename_i hab
        cases hab
        cases hstep
        exact h.hears (List.mem_of_getElem? hk)
      · cases hstep
    · cases hstep
  | givesUp a =>
    dsimp only [System.clientStep] at hstep
    split at hstep
    · cases hstep
      have hends : Invariant nick ((s.setClient a { s.client a with mode := .gone }).send a []) :=
        h.ends (fun _ hrest => by cases hrest) fun _ _ hact => by cases hact
      rwa [System.send, List.map_nil, List.append_nil] at hends
    · cases hstep
  | queues a action =>
    dsimp only [System.clientStep] at hstep
    split at hstep
    · rename_i seat _ hmode _
      cases hstep
      exact h.queues hmode
    · cases hstep
  | sendsHead a =>
    dsimp only [System.clientStep] at hstep
    split at hstep
    · rename_i seat id action rest hmode hpending
      cases hstep
      refine h.moves (moves_send s a _) (fun _ hrest => by cases List.mem_singleton.mp hrest)
        (fun hbye => by cases List.mem_singleton.mp hbye) ?_
      rintro (hserved | ⟨i, hserved⟩)
      · exact absurd hmode (hserved.mode seat)
      · refine .inr ⟨i, hserved.moves (moves_send s a _) rfl (fun _ => rfl) (fun id' action' hact => ?_)
          hserved.playing⟩
        cases List.mem_singleton.mp hact
        obtain ⟨-, -, d, hd, hnumbered⟩ := hserved.playing seat hmode
        rw [hpending] at hnumbered
        have hhead : (s.queued a)[d]? = some action ∧ id = d + 1 := by
          rw [← List.head?_drop]
          cases hdrop : (s.queued a).drop d with
          | nil =>
            rw [hdrop] at hnumbered
            cases hnumbered
          | cons first others =>
            rw [hdrop] at hnumbered
            cases hnumbered
            exact ⟨rfl, rfl⟩
        obtain ⟨hhead, rfl⟩ := hhead
        exact ⟨Nat.succ_pos d, Nat.succ_le_succ hd, hhead⟩
    · cases hstep
  | pings a =>
    dsimp only [System.clientStep] at hstep
    split at hstep
    · cases hstep
      exact h.sends (fun _ hrest => by cases List.mem_singleton.mp hrest)
        (fun hbye => by cases List.mem_singleton.mp hbye)
        fun _ _ hact => by cases List.mem_singleton.mp hact
    · cases hstep
  | quits a =>
    dsimp only [System.clientStep] at hstep
    split at hstep
    · cases hstep
      exact h.ends (fun _ hrest => by cases List.mem_singleton.mp hrest)
        fun _ _ hact => by cases List.mem_singleton.mp hact
    · cases hstep
  | hostReceives k => cases hstep
  | hostActs seat action => cases hstep
  | hostSendsView seat => cases hstep
  | hostTicks => cases hstep
  | hostMarksOffline seat => cases hstep
  | hostCloses => cases hstep

end

section

variable {s t : System α γ}

theorem host_clientStep (hstep : s.clientStep nick e = some t) : t.host = s.host := by
  cases e <;> simp only [System.clientStep, reduceCtorEq] at hstep
  all_goals
    repeat' split at hstep
  all_goals
    cases hstep
  all_goals rfl

theorem Invariant.step (h : Invariant nick s)
    (hinjective : ∀ a b, joinName (nick a) = joinName (nick b) → a = b)
    (hstep : s.step game nick e = some t) : Invariant nick t := by
  rw [System.step] at hstep
  split at hstep
  · rename_i u hclient
    cases hstep
    exact h.clientStep hclient
  · split at hstep
    · exact h.hostStep hinjective hstep
    · cases hstep

theorem Invariant.run {events : List (Event α)} (h : Invariant nick s)
    (hinjective : ∀ a b, joinName (nick a) = joinName (nick b) → a = b)
    (hrun : s.run game nick events = some t) : Invariant nick t := by
  induction events generalizing s with
  | nil =>
    cases hrun
    exact h
  | cons e events ih =>
    rw [System.run, List.foldlM_cons, Option.bind_eq_bind, Option.bind_eq_some_iff] at hrun
    obtain ⟨u, hstep, hrest⟩ := hrun
    exact ih (h.step hinjective hstep) hrest

theorem invariant_start {host : Host α γ} (hapart : Apart nick host.names) (haddr : ∀ i, host.addr i = none) :
    Invariant nick (System.start host) where
  seated := by
    constructor
    · intro i a hi
      cases (haddr i).symm.trans hi
    · intro i a hi
      exact absurd hi (hapart.strange a i)
    · intro i j a hi
      cases (haddr i).symm.trans hi
    · exact haddr 0
  joins := fun a rest hmem => by cases hmem
  byes := fun a hmem => by cases hmem
  dismissed := fun a hmem => by cases hmem
  clients := fun a _ => .inl {
    addr := fun i hi => by cases (haddr i).symm.trans hi
    passed := rfl
    queued := rfl
    pending := rfl
    mode := fun j hj => by cases hj
    welcomes := fun j last hmem => by cases hmem
    views := fun q actid hmem => by cases hmem
    acts := fun id action hmem => by cases hmem }

theorem Invariant.keepsSeat {i : Seat} {a : α} (h : Invariant nick s)
    (hstep : s.step game nick e = some t) (haddr : s.host.addr i = some a) (hplays : s.Plays a) :
    t.host.addr i = some a := by
  rw [System.step] at hstep
  split at hstep
  · rename_i u hclient
    cases hstep
    rw [host_clientStep hclient]
    exact haddr
  split at hstep
  · cases e with
    | hostReceives k =>
      obtain ⟨⟨b, m⟩, hk, rfl⟩ := Option.map_eq_some_iff.mp hstep
      have hmem : (b, m) ∈ s.toHost := List.mem_of_getElem? hk
      have hdoes : Does nick s.host b m (s.host.snHostPacket game b m) :=
        packet_does h.seated fun rest hrest => h.joins b rest (hrest ▸ hmem)
      show (s.host.snHostPacket game b m).host.addr i = some a
      cases hdoes with
      | keeps same => exact same.addr ▸ haddr
      | acts j id action message addr new same => exact same.addr ▸ haddr
      | takes j seat free player addr =>
        have hij : i ≠ j := by
          rintro rfl
          have hname := (h.seated.named i a haddr).2
          rw [free] at hname
          exact joinName_ne_nil _ hname.symm
        rw [addr, Function.update_of_ne hij]
        exact haddr
      | leaves j message addr free =>
        have hij : i ≠ j := by
          rintro rfl
          obtain rfl := Option.some.inj (addr.symm.trans haddr)
          exact hplays (h.byes b (message ▸ hmem))
        rw [free, Function.update_of_ne hij]
        exact haddr
    | hostActs seat action =>
      dsimp only [System.hostStep] at hstep
      split at hstep
      · cases hstep
        exact haddr
      · cases hstep
    | hostMarksOffline seat =>
      dsimp only [System.hostStep] at hstep
      split at hstep
      · cases hstep
        exact haddr
      · cases hstep
    | hostSendsView seat | hostTicks | hostCloses =>
      cases hstep
      exact haddr
    | joins b | receives b k | givesUp b | queues b action | sendsHead b | pings b | quits b => cases hstep
  · cases hstep

/-- The actions of a client were passed for one seat, in the order in which they were queued, each
at most once; those that no longer wait at the client were passed. -/
def Delivered (s : System α γ) (a : α) : Prop :=
  ∃ i k, s.passedBy a = ((s.queued a).take k).map (fun action => (i, action)) ∧ k ≤ (s.queued a).length ∧
    ∀ j, (s.client a).mode = .playing j →
      j = i ∧ ∃ d, d ≤ k ∧ (s.client a).pending = numbered (d + 1) ((s.queued a).drop d)

theorem Invariant.delivered {a : α} (h : Invariant nick s) (ha : a ∉ s.dismissed) : Delivered s a := by
  rcases h.clients a ha with hclient | ⟨i, hclient⟩
  · refine ⟨0, 0, hclient.passed, Nat.zero_le _, fun j hj => absurd hj (hclient.mode j)⟩
  · refine ⟨i, s.host.actid i, hclient.passed, hclient.le, fun j hj => ?_⟩
    obtain ⟨hji, -, hpending⟩ := hclient.playing j hj
    exact ⟨hji, hpending⟩

/-- Players whose names are apart have one seat each, keep it while they play, and have their
actions passed in order, each once, until their seat is free again. -/
theorem run_delivers (name : Text) (selfBot : Bool) (bots : Nat) (lobby : γ) (events : List (Event α))
    (hapart : Apart nick (Host.snHost (α := α) game name selfBot bots lobby).names)
    (hrun : (System.start (Host.snHost game name selfBot bots lobby)).run game nick events = some s) :
    (∀ i j a, s.host.addr i = some a → s.host.addr j = some a → i = j) ∧
    (∀ e t i a, s.step game nick e = some t → s.host.addr i = some a → s.Plays a →
      t.host.addr i = some a) ∧
    (∀ a, a ∉ s.dismissed → Delivered s a) ∧ ∀ a, s.Plays a → a ∉ s.dismissed := by
  have hstart : Invariant nick (System.start (Host.snHost (α := α) game name selfBot bots lobby)) :=
    invariant_start hapart fun _ => rfl
  have h : Invariant nick s := hstart.run hapart.injective hrun
  exact ⟨h.seated.unique, fun e t i a hstep => h.keepsSeat hstep, fun a => h.delivered,
    fun a hplays ha => hplays (h.dismissed a ha)⟩

end

section

open Real64

def lobbyGame : Game Bool := ⟨fun _ lobby _ _ => lobby, fun _ _ => false, fun lobby _ => lobby, id⟩

def twoNames (a : Fin 2) : Text := if a = 0 then ascii "Ann" else ascii "Bob"

/-- Two clients at a table of `host`. -/
def played (host : Text) (nick : Fin 2 → Text) (events : List (Event (Fin 2))) :
    Option (System (Fin 2) Bool) :=
  (System.start (Host.snHost lobbyGame host false 0 true)).run lobbyGame nick events

def chatEvents : List (Event (Fin 2)) :=
  [.joins 0, .hostReceives 0, .receives 0 0, .hostSendsView firstPlayer, .receives 0 1, .queues 0 (ascii "t:hi"),
    .sendsHead 0, .hostReceives 2]

theorem run_delivers_chat : ∃ s, played (ascii "Eve") twoNames chatEvents = some s ∧ Delivered s 0 := by
  obtain ⟨s, hs⟩ : ∃ s, played (ascii "Eve") twoNames chatEvents = some s :=
    Option.isSome_iff_exists.mp (by decide +kernel)
  have hplays : (played (ascii "Eve") twoNames chatEvents).map (fun s => (s.client 0).mode) =
      some (.playing firstPlayer) := by decide +kernel
  rw [hs, Option.map_some] at hplays
  have hapart : Apart twoNames (Host.snHost (α := Fin 2) lobbyGame (ascii "Eve") false 0 true).names :=
    ⟨by decide +kernel, by decide +kernel⟩
  obtain ⟨-, -, hdelivered, hkept⟩ := run_delivers _ _ _ _ _ hapart hs
  refine ⟨s, hs, hdelivered 0 (hkept 0 fun hgone => ?_)⟩
  cases (Option.some.inj hplays).symm.trans hgone

/-- Of two players of one name the second takes the first one's seat; a player of the host's name
has a second seat after its `JOIN` came twice; and after a `BYE` in the lobby a repeated `JOIN` and a
repeated `ACT` bring an action to the game again. -/
theorem players_meet :
    (played (ascii "Eve") (fun _ => ascii "Ann") [.joins 0, .hostReceives 0, .receives 0 0, .joins 1,
        .hostReceives 1]).map (fun s => (s.host.addr firstPlayer, (s.client 0).mode)) =
      some (some 1, .playing firstPlayer) ∧
    (played (ascii "Ann") twoNames [.joins 0, .hostReceives 0, .hostReceives 0]).map
        (fun s => (s.host.addr firstPlayer, s.host.addr secondPlayer)) = some (some 0, some 0) ∧
    (played (ascii "Eve") twoNames (chatEvents ++ [.quits 0, .hostReceives 3, .hostReceives 0,
        .hostReceives 2])).map (fun s => (s.queued 0, s.passedBy 0)) =
      some ([ascii "t:hi"], [(firstPlayer, ascii "t:hi"), (firstPlayer, ascii "t:hi")]) := by
  decide +kernel

end

end Ussr.Sochi
