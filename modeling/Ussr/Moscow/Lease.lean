import Ussr.Moscow.Dhcp

/-! How long the DHCP client of Moscow keeps an address. -/

namespace Ussr.Moscow

section

variable {w : World} {turns : Nat}
variable {c c' : Client} {xid : Nat}

structure Quiet (c c' : Client) : Prop where
  time : c.time ≤ c'.time
  turn : c.turn ≤ c'.turn
  same : c' = { c with time := c'.time, turn := c'.turn, drawn := c'.drawn, sent := c'.sent }

theorem Quiet.refl (c : Client) : Quiet c c := ⟨le_refl _, le_refl _, rfl⟩

theorem Quiet.trans {a b : Client} (hab : Quiet a b) (hbc : Quiet b c) : Quiet a c := by
  refine ⟨hab.time.trans hbc.time, hab.turn.trans hbc.turn, ?_⟩
  rw [hbc.same, hab.same]

theorem quiet_pass (c : Client) : Quiet c (c.pass w) := ⟨Nat.le_add_right _ _, Nat.le_succ _, rfl⟩

theorem quiet_send (m : Message) (c : Client) : Quiet c (dhcpSend w m c) := ⟨Nat.le_add_right _ _, Nat.le_succ _, rfl⟩

theorem quiet_xid (c : Client) : Quiet c (dhcpXid w c).2 := ⟨le_refl _, le_refl _, rfl⟩

/-- The answer came between the two states, and is one to `xid`. -/
def Answered (w : World) (xid : Nat) (c c' : Client) (a : Reply) : Prop :=
  ∃ n d, c.turn ≤ n ∧ n < c'.turn ∧ w.frame n = some d ∧ dhcpReply xid d = some (some a)

theorem Answered.mono {b e : Client} {a : Reply} (h : Answered w xid c c' a) (hb : b.turn ≤ c.turn)
    (he : c'.turn ≤ e.turn) : Answered w xid b e a := by
  obtain ⟨n, d, hlow, hhigh, hframe, hreply⟩ := h
  exact ⟨n, d, hb.trans hlow, hhigh.trans_le he, hframe, hreply⟩

theorem reply_facts {d : Datagram} {a : Reply} (h : dhcpReply xid d = some (some a)) :
    netR32 d.bytes 4 = some xid ∧ d.bytes[0]? = some 2 ∧ netR32 d.bytes 16 = some a.yi ∧
      dhcpOptions d d.size 240 0 .empty = some (a.type, a.opts) := by
  unfold dhcpReply at h
  obtain ⟨x, hx, hrest⟩ := Option.bind_eq_some_iff.mp h
  obtain ⟨op, hop, hreply⟩ := Option.bind_eq_some_iff.mp hrest
  split_ifs at hreply with hmine
  · obtain ⟨yi, hyi, hopts⟩ := Option.bind_eq_some_iff.mp hreply
    obtain ⟨v, hv, heq⟩ := Option.map_eq_some_iff.mp hopts
    cases heq
    exact ⟨hmine.1 ▸ hx, hmine.2.1 ▸ hop, hyi, hv⟩
  · cases hreply

theorem wait_spec {stop : Nat} {r : Option Reply} (h : dhcpWaitUntil w xid stop turns c = some (r, c')) :
    Quiet c c' ∧ c'.sent = c.sent ∧ ∀ a, r = some a → Answered w xid c c' a := by
  induction turns generalizing c with
  | zero => cases h
  | succ turns ih =>
    have hquiet : Quiet c ((c.pass w).pass w) := (quiet_pass c).trans (quiet_pass _)
    have hlater (h : dhcpWaitUntil w xid stop turns ((c.pass w).pass w) = some (r, c')) :
        Quiet c c' ∧ c'.sent = c.sent ∧ ∀ a, r = some a → Answered w xid c c' a := by
      obtain ⟨hq, hsent, hanswer⟩ := ih h
      exact ⟨hquiet.trans hq, hsent, fun a ha => (hanswer a ha).mono hquiet.turn (le_refl _)⟩
    rw [dhcpWaitUntil] at h
    split_ifs at h with hstop
    · cases h
      exact ⟨Quiet.refl _, rfl, fun a ha => by cases ha⟩
    · cases hframe : w.frame c.turn with
      | none =>
        rw [hframe] at h
        exact hlater h
      | some d =>
        rw [hframe, Option.elim_some] at h
        obtain ⟨reply, hreply, h⟩ := Option.bind_eq_some_iff.mp h
        cases reply with
        | none => exact hlater h
        | some a =>
          cases h
          refine ⟨quiet_pass c, rfl, fun b hb => ?_⟩
          cases hb
          exact ⟨c.turn, d, le_refl _, Nat.lt_succ_self _, hframe, hreply⟩

theorem exchange_spec {ticks : Nat} {m : Message} {r : Option Reply}
    (h : dhcpWait w turns xid ticks (dhcpSend w m c) = some (r, c')) :
    Quiet c c' ∧ c'.sent = some m ∧ ∀ a, r = some a → Answered w xid c c' a := by
  obtain ⟨hquiet, hsent, hanswer⟩ := wait_spec h
  have hsend := quiet_send (w := w) m c
  exact ⟨hsend.trans hquiet, hsent, fun a ha => (hanswer a ha).mono hsend.turn (le_refl _)⟩

structure Taken (w : World) (c c' : Client) : Prop where
  bound : c'.state = .bound
  got : c'.got = c'.time
  acks : ∃ rest, c'.acks = ⟨c'.netIp, c'.got, c'.lease⟩ :: rest
  offered : ∃ m a, c'.sent = some m ∧ Answered w m.xid c c' a ∧ a.yi = c'.netIp
  granted : ∃ xid a, Answered w xid c c' a ∧ a.type = 5 ∧ c'.lease = dhcpOpt a.opts 51 86400

theorem Taken.mono {b : Client} (h : Taken w c c') (hb : b.turn ≤ c.turn) : Taken w b c' := by
  obtain ⟨m, a, hsent, hanswer, hyi⟩ := h.offered
  obtain ⟨xid, k, hack, htype, hlease⟩ := h.granted
  exact ⟨h.bound, h.got, h.acks, ⟨m, a, hsent, hanswer.mono hb (le_refl _), hyi⟩,
    ⟨xid, k, hack.mono hb (le_refl _), htype, hlease⟩⟩

theorem taken_bind {m : Message} {a k : Reply} (server : Nat) (hsent : c'.sent = some m)
    (hoffer : Answered w m.xid c c' a) (hack : Answered w m.xid c c' k) (htype : k.type = 5) :
    Taken w c (dhcpBind a.yi k.opts { c' with server }) :=
  ⟨rfl, rfl, ⟨c'.acks, rfl⟩, ⟨m, a, hsent, hoffer, rfl⟩, ⟨m.xid, k, hack, htype, rfl⟩⟩

theorem again_spec {dst : Nat} {r : Outcome} (h : dhcpAgain w turns dst c = some (r, c')) :
    (r = .ack ∧ Taken w c c') ∨ ((r = .nak ∨ r = .none) ∧ Quiet c c') := by
  unfold dhcpAgain at h
  obtain ⟨⟨ack, e⟩, hwait, h⟩ := Option.map_eq_some_iff.mp h
  obtain ⟨hquiet, hsent, hanswer⟩ := exchange_spec hwait
  have hwhole := (quiet_xid (w := w) c).trans hquiet
  dsimp only at h
  cases ack with
  | none =>
    cases h
    exact Or.inr ⟨Or.inr rfl, hwhole⟩
  | some a =>
    have ha := (hanswer a rfl).mono (quiet_xid (w := w) c).turn (le_refl _)
    rw [Option.elim_some] at h
    split_ifs at h with hack hnak
    · cases h
      exact Or.inl ⟨rfl, taken_bind e.server hsent ha ha hack⟩
    · cases h
      exact Or.inr ⟨Or.inl rfl, hwhole⟩
    · cases h
      exact Or.inr ⟨Or.inr rfl, hwhole⟩

theorem askTries_spec {tries : Nat} {got : Bool} (h : dhcpAskTries w turns xid tries c = some (got, c')) :
    (got = true ∧ Taken w c c') ∨ (got = false ∧ Quiet c c') := by
  induction tries generalizing c with
  | zero =>
    cases h
    exact Or.inr ⟨rfl, Quiet.refl _⟩
  | succ tries ih =>
    have hlater {e : Client} (hquiet : Quiet c e) (h : dhcpAskTries w turns xid tries e = some (got, c')) :
        (got = true ∧ Taken w c c') ∨ (got = false ∧ Quiet c c') := by
      obtain ⟨hgot, htaken⟩ | ⟨hgot, hq⟩ := ih h
      · exact Or.inl ⟨hgot, htaken.mono hquiet.turn⟩
      · exact Or.inr ⟨hgot, hquiet.trans hq⟩
    rw [dhcpAskTries] at h
    obtain ⟨⟨offer, e⟩, hwait, h⟩ := Option.bind_eq_some_iff.mp h
    obtain ⟨hquiet, -, hanswer⟩ := exchange_spec hwait
    dsimp only at h
    cases offer with
    | none => exact hlater hquiet h
    | some a =>
      rw [Option.elim_some] at h
      split_ifs at h with hoffer
      · obtain ⟨⟨ack, e'⟩, hwait', h⟩ := Option.bind_eq_some_iff.mp h
        obtain ⟨hquiet', hsent', hanswer'⟩ := exchange_spec hwait'
        dsimp only at h
        cases ack with
        | none => exact hlater (hquiet.trans hquiet') h
        | some k =>
          rw [Option.elim_some] at h
          split_ifs at h with hack
          · cases h
            exact Or.inl ⟨rfl, taken_bind _ hsent' ((hanswer a rfl).mono (le_refl _) hquiet'.turn)
              ((hanswer' k rfl).mono hquiet.turn (le_refl _)) hack⟩
          · exact hlater (hquiet.trans hquiet') h
      · exact hlater hquiet h

theorem ask_spec {got : Bool} (h : dhcpAsk w turns c = some (got, c')) :
    (got = true ∧ Taken w c c') ∨ (got = false ∧ Quiet c c') := by
  obtain ⟨hgot, htaken⟩ | ⟨hgot, hquiet⟩ := askTries_spec h
  · exact Or.inl ⟨hgot, htaken.mono (quiet_xid (w := w) c).turn⟩
  · exact Or.inr ⟨hgot, (quiet_xid (w := w) c).trans hquiet⟩

structure Unheld (c c' : Client) : Prop where
  state : c'.state ≠ .bound
  acks : c'.acks = c.acks
  address : c'.netIp = 0 ∨ (c.state ≠ .bound ∧ c'.netIp = c.netIp)

structure Kept (c c' : Client) : Prop where
  held : c.state = .bound
  quiet : Quiet c c'
  runs : dhcpAge c' < c'.lease

theorem Kept.bound (h : Kept c c') : c'.state = .bound := by
  rw [h.quiet.same]
  exact h.held

theorem renewBound_spec {r : Outcome} (hbound : c.state = .bound) (h : dhcpRenewBound w turns c = some (r, c')) :
    Taken w c c' ∨ (c.turn ≤ c'.turn ∧ c'.state ≠ .bound ∧ c'.acks = c.acks ∧ c'.netIp = 0) ∨ Kept c c' := by
  unfold dhcpRenewBound at h
  obtain ⟨⟨r₁, c₁⟩, hfirst, hrest⟩ := Option.bind_eq_some_iff.mp h
  obtain ⟨⟨r₂, c₂⟩, hsecond, hlast⟩ := Option.map_eq_some_iff.mp hrest
  dsimp only at hsecond hlast
  have hone : (r₁ = .ack ∧ Taken w c c₁) ∨ ((r₁ = .nak ∨ r₁ = .none) ∧ Quiet c c₁) := by
    split_ifs at hfirst
    · exact again_spec hfirst
    · cases hfirst
      exact Or.inr ⟨Or.inr rfl, Quiet.refl _⟩
  have htwo : (r₂ = .ack ∧ Taken w c c₂) ∨ ((r₂ = .nak ∨ r₂ = .none) ∧ Quiet c c₂) := by
    split_ifs at hsecond with htry
    · obtain ⟨hack, -⟩ | ⟨-, hquiet⟩ := hone
      · exact absurd (hack.symm.trans htry.1) (by decide)
      · obtain ⟨hack, htaken⟩ | ⟨hno, hquiet'⟩ := again_spec hsecond
        · exact Or.inl ⟨hack, htaken.mono hquiet.turn⟩
        · exact Or.inr ⟨hno, hquiet.trans hquiet'⟩
    · cases hsecond
      exact hone
  split_ifs at hlast with hout
  · cases hlast
    obtain ⟨hack, -⟩ | ⟨-, hquiet⟩ := htwo
    · rw [hack] at hout
      exact absurd hout (by simp)
    · refine Or.inr (Or.inl ⟨hquiet.turn, LeaseState.noConfusion, ?_, rfl⟩)
      change c₂.acks = c.acks
      rw [hquiet.same]
  · cases hlast
    obtain ⟨-, htaken⟩ | ⟨hno, hquiet⟩ := htwo
    · exact Or.inl htaken
    · obtain hnak | hnone := hno
      · exact absurd (Or.inl hnak) hout
      · exact Or.inr (Or.inr ⟨hbound, hquiet, Nat.lt_of_not_le fun hage => hout (Or.inr ⟨hnone, hage⟩)⟩)

theorem renew_spec {r : Outcome} (h : dhcpRenew w turns c = some (r, c')) :
    Taken w c c' ∨ Unheld c c' ∨ Kept c c' := by
  unfold dhcpRenew at h
  obtain ⟨⟨r₁, c₁⟩, hheld, hrest⟩ := Option.bind_eq_some_iff.mp h
  dsimp only at hrest
  have hfirst : Taken w c c₁ ∨ (c.turn ≤ c₁.turn ∧ Unheld c c₁) ∨ Kept c c₁ := by
    split_ifs at hheld with hbound
    · obtain htaken | ⟨hturn, hstate, hacks, haddress⟩ | hkept := renewBound_spec hbound hheld
      · exact Or.inl htaken
      · exact Or.inr (Or.inl ⟨hturn, hstate, hacks, Or.inl haddress⟩)
      · exact Or.inr (Or.inr hkept)
    · cases hheld
      exact Or.inr (Or.inl ⟨le_refl _, hbound, rfl, Or.inr ⟨hbound, rfl⟩⟩)
  split_ifs at hrest with hbound
  · cases hrest
    exact hfirst.imp_right (Or.imp_left And.right)
  · obtain ⟨⟨got, c₂⟩, hask, hlast⟩ := Option.map_eq_some_iff.mp hrest
    obtain htaken | ⟨hturn, hunheld⟩ | hkept := hfirst
    · exact absurd htaken.bound hbound
    · obtain ⟨rfl, htaken⟩ | ⟨rfl, hquiet⟩ := ask_spec hask
      · cases hlast
        exact Or.inl (htaken.mono hturn)
      · have hunheld₂ : Unheld c c₂ := by
          rw [hquiet.same]
          exact ⟨hunheld.state, hunheld.acks, hunheld.address⟩
        simp only [Bool.false_eq_true, if_false, Prod.mk.injEq] at hlast
        obtain ⟨-, rfl⟩ := hlast
        split_ifs
        · exact Or.inr (Or.inl ⟨hunheld₂.state, hunheld₂.acks, hunheld₂.address⟩)
        · exact Or.inr (Or.inl hunheld₂)
    · exact absurd hkept.bound hbound

end

section

variable {w : World} {turns : Nat}

structure Consistent (c : Client) : Prop where
  held : c.state = .bound → ∃ rest, c.acks = ⟨c.netIp, c.got, c.lease⟩ :: rest
  gone : c.state ≠ .bound → c.acks ≠ [] → c.netIp = 0

theorem Taken.consistent (h : Taken w c c') : Consistent c' :=
  ⟨fun _ => h.acks, fun hstate => absurd h.bound hstate⟩

theorem Unheld.consistent (h : Unheld c c') (hc : Consistent c) : Consistent c' := by
  refine ⟨fun hbound => absurd hbound h.state, fun _ hacks => ?_⟩
  obtain hzero | ⟨hstate, hsame⟩ := h.address
  · exact hzero
  · rw [hsame]
    exact hc.gone hstate (h.acks ▸ hacks)

theorem Kept.consistent (h : Kept c c') (hc : Consistent c) : Consistent c' := by
  rw [h.quiet.same]
  exact ⟨hc.held, hc.gone⟩

def NotOutlived (c : Client) : Prop :=
  ∀ ack rest, c.acks = ack :: rest → ack.seconds ≤ (c.time - ack.time) / 100 → c.netIp = 0

theorem Consistent.notOutlived (h : Consistent c) (hruns : c.state = .bound → dhcpAge c < c.lease) : NotOutlived c := by
  intro ack rest hacks hover
  by_cases hbound : c.state = .bound
  · obtain ⟨rest', hheld⟩ := h.held hbound
    rw [hacks] at hheld
    cases hheld
    exact absurd (hruns hbound) (Nat.not_lt.mpr hover)
  · exact h.gone hbound (by rw [hacks]; exact List.cons_ne_nil _ _)

def GrantsSeconds (w : World) : Prop :=
  ∀ n d xid a, w.frame n = some d → dhcpReply xid d = some (some a) → a.type = 5 → 0 < dhcpOpt a.opts 51 86400

/-- A tick that looks no further, for the minute after a try or before T1, finds a lease that still runs. -/
def Prompt (c : Client) : Prop :=
  c.state = .bound → c.time < c.next ∨ dhcpAge c < c.t1 → dhcpAge c < c.lease

theorem tick_spec (h : dhcpTick w turns c = some c') :
    c' = c ∧ (c.state ≠ .bound ∨ c.time < c.next ∨ dhcpAge c < c.t1) ∨
      ∃ e next, c' = { e with next } ∧ (Taken w c e ∨ (c.state = .bound ∧ Unheld c e) ∨ Kept c e) := by
  unfold dhcpTick at h
  split_ifs at h with hstate hnext hearly
  · cases h
    exact Or.inl ⟨rfl, Or.inl hstate⟩
  · cases h
    exact Or.inl ⟨rfl, Or.inr (Or.inl hnext)⟩
  · cases h
    exact Or.inl ⟨rfl, Or.inr (Or.inr hearly)⟩
  · obtain ⟨⟨r, e⟩, hrenew, hlast⟩ := Option.map_eq_some_iff.mp h
    have hspec : Taken w c e ∨ (c.state = .bound ∧ Unheld c e) ∨ Kept c e :=
      (renew_spec hrenew).imp_right (Or.imp_left fun hunheld => ⟨not_not.mp hstate, hunheld⟩)
    dsimp only at hlast
    split_ifs at hlast
    · exact Or.inr ⟨e, e.time + 6000, hlast.symm, hspec⟩
    · exact Or.inr ⟨e, e.next, hlast.symm, hspec⟩

theorem tick_notOutlived (hw : GrantsSeconds w) (hc : Consistent c) (hprompt : Prompt c)
    (h : dhcpTick w turns c = some c') : NotOutlived c' := by
  obtain ⟨rfl, hwhy⟩ | ⟨e, next, rfl, hspec⟩ := tick_spec h
  · exact hc.notOutlived fun hbound => hprompt hbound (hwhy.resolve_left (not_not.mpr hbound))
  · change NotOutlived e
    obtain htaken | ⟨-, hunheld⟩ | hkept := hspec
    · refine htaken.consistent.notOutlived fun _ => ?_
      obtain ⟨xid, a, ⟨n, d, -, -, hframe, hreply⟩, htype, hlease⟩ := htaken.granted
      rw [dhcpAge, htaken.got, Nat.sub_self, hlease]
      exact hw n d xid a hframe hreply htype
    · exact (hunheld.consistent hc).notOutlived fun hbound => absurd hbound hunheld.state
    · exact (hkept.consistent hc).notOutlived fun _ => hkept.runs

def Given (w : World) (c c' : Client) : Prop :=
  c'.netIp = c.netIp ∨ c'.netIp = 0 ∨
    ∃ m n d, c'.sent = some m ∧ c.turn ≤ n ∧ n < c'.turn ∧ w.frame n = some d ∧
      netR32 d.bytes 4 = some m.xid ∧ d.bytes[0]? = some 2 ∧ netR32 d.bytes 16 = some c'.netIp

theorem Taken.given (h : Taken w c c') : Given w c c' := by
  obtain ⟨m, a, hsent, ⟨n, d, hlow, hhigh, hframe, hreply⟩, hyi⟩ := h.offered
  obtain ⟨hxid, hop, haddress, -⟩ := reply_facts hreply
  exact Or.inr (Or.inr ⟨m, n, d, hsent, hlow, hhigh, hframe, hxid, hop, hyi ▸ haddress⟩)

theorem renewed_given (h : Taken w c c' ∨ Unheld c c' ∨ Kept c c') : Given w c c' := by
  obtain htaken | hunheld | hkept := h
  · exact htaken.given
  · obtain hzero | ⟨-, hsame⟩ := hunheld.address
    · exact Or.inr (Or.inl hzero)
    · exact Or.inl hsame
  · exact Or.inl (by rw [hkept.quiet.same])

theorem renewed_consistent (hc : Consistent c) (h : Taken w c c' ∨ Unheld c c' ∨ Kept c c') : Consistent c' := by
  obtain htaken | hunheld | hkept := h
  · exact htaken.consistent
  · exact hunheld.consistent hc
  · exact hkept.consistent hc

theorem call_spec {op : Op} (hc : Consistent c) (h : dhcpCall w turns c op = some c') :
    Consistent c' ∧ Given w c c' := by
  cases op with
  | tick =>
    obtain ⟨rfl, -⟩ | ⟨e, next, rfl, hspec⟩ := tick_spec h
    · exact ⟨hc, Or.inl rfl⟩
    · have hrenewed := hspec.imp_right (Or.imp_left And.right)
      obtain ⟨hheld, hgone⟩ := renewed_consistent hc hrenewed
      have hgiven : Given w c e := renewed_given hrenewed
      exact ⟨⟨hheld, hgone⟩, hgiven⟩
  | renew =>
    obtain ⟨⟨r, e⟩, hrenew, rfl⟩ := Option.map_eq_some_iff.mp h
    exact ⟨renewed_consistent hc (renew_spec hrenew), renewed_given (renew_spec hrenew)⟩
  | release =>
    obtain rfl : dhcpRelease w c = c' := Option.some.inj h
    unfold dhcpRelease
    split_ifs with hstate
    · exact ⟨hc, Or.inl rfl⟩
    · exact ⟨⟨LeaseState.noConfusion, fun _ _ => rfl⟩, Or.inr (Or.inl rfl)⟩

/-- The states between the calls, from a machine that has taken no ACK on, where every tick meets `ok`. -/
inductive Run (w : World) (turns : Nat) (ok : Client → Prop) : Client → Prop
  | start {c : Client} (hstate : c.state ≠ .bound) (hacks : c.acks = []) : Run w turns ok c
  | later {c : Client} (hrun : Run w turns ok c) (elapsed : Nat) : Run w turns ok { c with time := c.time + elapsed }
  | call {c c' : Client} {op : Op} (hrun : Run w turns ok c) (hok : op = .tick → ok c)
      (h : dhcpCall w turns c op = some c') : Run w turns ok c'

theorem Run.consistent {ok : Client → Prop} (h : Run w turns ok c) : Consistent c := by
  induction h with
  | start hstate hacks => exact ⟨fun hbound => absurd hbound hstate, fun _ hne => absurd hacks hne⟩
  | later hrun elapsed ih => exact ⟨ih.held, ih.gone⟩
  | call hrun hok h ih => exact (call_spec ih h).1

/-- In every run whose ticks find no lease run out where they look no further, and whose ACKs lend
for some time, no tick leaves an address behind whose lease has run out; and in every call an
address comes only from an answer to the message just sent. -/
theorem lease_not_outlived {c c' : Client} {op : Op} (hw : GrantsSeconds w) (hrun : Run w turns Prompt c)
    (hprompt : op = .tick → Prompt c) (h : dhcpCall w turns c op = some c') :
    (op = .tick → NotOutlived c') ∧ Given w c c' := by
  refine ⟨?_, (call_spec hrun.consistent h).2⟩
  rintro rfl
  exact tick_notOutlived hw hrun.consistent (hprompt rfl) h

end

def answerWith (options : List UInt8) : Datagram where
  bytes := [2, 1, 6, 0, 0, 0, 0, 7, 0, 0, 0, 0, 0, 0, 0, 0, 10, 0, 2, 15] ++ (List.replicate 220 0 ++ options)
  size := 240 + options.length
  size_le := by
    rw [List.length_append, List.length_append, List.length_replicate]
    exact Nat.le_of_eq (Nat.add_assoc 20 220 _)

def silentServer : World where
  delay _ := 100
  frame n :=
    if n = 1 then some (answerWith [53, 1, 2, 255])
    else if n = 3 then some (answerWith [53, 1, 5, 51, 4, 0, 0, 0, 100, 255])
    else none
  random _ := 7

def booted : Client := ⟨0, 0, 0, 0, 0, .none, 0, 0, 0, 0, 0, 0, .none, 0, 0, none, []⟩

def leased : Client where
  time := 400
  netIp := 167772687
  netMask := 4294967040
  netGw := 0
  netDns := 0
  how := .dhcp
  server := 0
  lease := 100
  t1 := 50
  t2 := 87
  got := 400
  next := 0
  state := .bound
  turn := 4
  drawn := 1
  sent := some ⟨3, 7, 0, 167772687, 0, broadcast⟩
  acks := [⟨167772687, 400, 100⟩]

def tried : Client := { leased with time := 5800, next := 11800, turn := 7, drawn := 2, sent := some ⟨3, 7, 167772687, 0, 0, 0⟩ }

theorem renew_leases : dhcpCall silentServer 9 booted .renew = some leased := by decide +kernel

theorem tick_tries : dhcpCall silentServer 9 { leased with time := 400 + 5100 } .tick = some tried := by decide +kernel

theorem run_leased (ok : Client → Prop) : Run silentServer 9 ok { leased with time := 400 + 5100 } :=
  Run.later (.call (.start (by decide) rfl) (fun h => absurd h (by decide)) renew_leases) 5100

theorem silentServer_grants : GrantsSeconds silentServer := by
  intro n d xid a hframe hreply htype
  obtain ⟨-, -, -, hopts⟩ := reply_facts hreply
  simp only [silentServer] at hframe
  split_ifs at hframe
  · cases hframe
    have hoffer : (dhcpOptions (answerWith [53, 1, 2, 255]) (240 + 4) 240 0 .empty).map Prod.fst = some 2 := by decide +kernel
    rw [show dhcpOptions (answerWith [53, 1, 2, 255]) (240 + 4) 240 0 .empty = _ from hopts] at hoffer
    exact absurd (htype.symm.trans (Option.some.inj hoffer)) (by decide)
  · cases hframe
    have hack : (dhcpOptions (answerWith [53, 1, 5, 51, 4, 0, 0, 0, 100, 255]) (240 + 10) 240 0 .empty).map
        (fun v => dhcpOpt v.2 51 86400) = some 100 := by decide +kernel
    rw [show dhcpOptions (answerWith [53, 1, 5, 51, 4, 0, 0, 0, 100, 255]) (240 + 10) 240 0 .empty = _ from hopts] at hack
    have hseconds : dhcpOpt a.opts 51 86400 = 100 := Option.some.inj hack
    rw [hseconds]
    decide

theorem tried_notOutlived : (Op.tick = .tick → NotOutlived tried) ∧ Given silentServer { leased with time := 400 + 5100 } tried :=
  lease_not_outlived silentServer_grants (run_leased Prompt) (fun _ _ _ => by decide) tick_tries

/-- The lease runs out while the client waits for the minute after a try to pass, and the tick at
10800 leaves the address. -/
theorem lease_outlived : ¬∀ (w : World) (turns : Nat) (c c' : Client), Run w turns (fun _ => True) c →
    dhcpCall w turns c .tick = some c' → NotOutlived c' := by
  intro h
  have htried : Run silentServer 9 (fun _ => True) { tried with time := 5800 + 5000 } :=
    .later (.call (run_leased _) (fun _ => trivial) tick_tries) 5000
  have hgone := h silentServer 9 _ { tried with time := 5800 + 5000 } htried (by decide +kernel) ⟨167772687, 400, 100⟩ [] rfl (by decide)
  exact absurd hgone (by decide)

end Ussr.Moscow
