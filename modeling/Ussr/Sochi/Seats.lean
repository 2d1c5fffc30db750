import Ussr.Sochi.System

/-! What a datagram does to the seats of a table whose players have names of their own. -/

namespace Ussr.Sochi
open Stalin (Text)

variable {α γ : Type} {game : Game γ} {nick : α → Text}

structure Apart (nick : α → Text) (names : Seat → Text) : Prop where
  injective : ∀ a b, joinName (nick a) = joinName (nick b) → a = b
  strange : ∀ a i, names i ≠ joinName (nick a)

theorem joinName_ne_nil (rest : Text) : joinName rest ≠ [] := by
  unfold joinName
  split
  · decide
  · assumption

structure Seated (nick : α → Text) (h : Host α γ) : Prop where
  named : ∀ i a, h.addr i = some a → h.kind i = .remote ∧ h.names i = joinName (nick a)
  owned : ∀ i a, h.names i = joinName (nick a) → h.addr i = some a
  unique : ∀ i j a, h.addr i = some a → h.addr j = some a → i = j
  zero : h.addr 0 = none

theorem seatOf_some [DecidableEq α] {h : Host α γ} {a : α} {i : Seat} (hseat : h.seatOf a = some i) : h.addr i = some a := by
  have hfound := List.find?_some hseat
  exact of_decide_eq_true hfound

theorem seatOf_none [DecidableEq α] {h : Host α γ} {a : α} (hzero : h.addr 0 = none) (hseat : h.seatOf a = none) (i : Seat) :
    h.addr i ≠ some a := by
  intro haddr
  have hall := List.find?_eq_none.mp hseat i
  match i with
  | 0 =>
    rw [hzero] at haddr
    cases haddr
  | 1 => exact hall (by simp) (decide_eq_true haddr)
  | 2 => exact hall (by simp) (decide_eq_true haddr)

theorem namedSeat_eq [DecidableEq α] {h : Host α γ} (hs : Seated nick h) (a : α) :
    h.namedSeat (joinName (nick a)) = h.seatOf a := by
  have hiff : ∀ i, (h.names i = joinName (nick a) ∧ h.kind i = .remote) ↔ h.addr i = some a := fun i =>
    ⟨fun hi => hs.owned i a hi.1, fun hi => (hs.named i a hi).symm⟩
  unfold Host.namedSeat Host.seatOf
  simp only [hiff]

theorem emptySeat_some {h : Host α γ} {i : Seat} (hempty : h.emptySeat = some i) : h.names i = [] ∧ i ≠ 0 := by
  unfold Host.emptySeat at hempty
  refine ⟨of_decide_eq_true (List.find?_some (p := fun j => decide (h.names j = [])) hempty), ?_⟩
  rintro rfl
  have hmem := List.mem_of_find?_eq_some hempty
  simp at hmem

theorem newName_eq {h : Host α γ} (hs : Seated nick h) {a : α} (hseat : ∀ i, h.addr i ≠ some a) :
    h.newName (joinName (nick a)) = joinName (nick a) := by
  have hne : ∀ i, h.names i ≠ joinName (nick a) := fun i hi => hseat i (hs.owned i a hi)
  simp only [Host.newName, List.foldl_cons, List.foldl_nil, if_neg (hne _)]

/-- What a message of the host tells the player at `b`. -/
def Known (h : Host α γ) (b : α) : ToClient → Prop
  | .welcome i last => h.addr i = some b ∧ last = h.actid i
  | .view _ actid => actid = h.actid
  | _ => True

def Fresh (h : Host α γ) (p : α × ToClient) : Prop :=
  p.2 = .full ∨ (Known h p.1 p.2 ∧ ∃ i, h.addr i = some p.1)

theorem fresh_snSendView (h : Host α γ) (i : Seat) : ∀ p ∈ h.snSendView i, Fresh h p := by
  intro p hp
  unfold Host.snSendView at hp
  split at hp
  · rename_i a haddr
    obtain rfl := List.mem_singleton.mp hp
    exact .inr ⟨rfl, i, haddr⟩
  · cases hp

structure SameSeats (h h' : Host α γ) : Prop where
  addr : h'.addr = h.addr
  names : h'.names = h.names
  kind : h'.kind = h.kind

theorem SameSeats.seated {h h' : Host α γ} (same : SameSeats h h') (hs : Seated nick h) : Seated nick h' where
  named := by
    rw [same.addr, same.names, same.kind]
    exact hs.named
  owned := by
    rw [same.addr, same.names]
    exact hs.owned
  unique := by
    rw [same.addr]
    exact hs.unique
  zero := by
    rw [same.addr]
    exact hs.zero

/-- What the host does with a player's datagram: the seats stay and no action is passed, or an
action is passed, or the player takes an empty seat, or its seat becomes free. -/
inductive Does (nick : α → Text) (h : Host α γ) (a : α) (m : ToHost) (r : Reply α γ) : Prop
  | keeps (same : SameSeats h r.host) (actid : r.host.actid = h.actid) (act : r.act = none)
      (sends : ∀ p ∈ r.sends, Fresh h p)
  | acts (i : Seat) (id : Nat) (action : Text) (message : m = .act id action) (addr : h.addr i = some a)
      (new : h.actid i < id) (same : SameSeats h r.host)
      (actid : r.host.actid = Function.update h.actid i id) (act : r.act = some (i, action))
      (sends : r.sends = [])
  | takes (i : Seat) (seat : ∀ i, h.addr i ≠ some a) (free : h.names i = []) (player : i ≠ 0)
      (addr : r.host.addr = Function.update h.addr i (some a))
      (names : r.host.names = Function.update h.names i (joinName (nick a)))
      (kind : r.host.kind = Function.update h.kind i .remote)
      (actid : r.host.actid = Function.update h.actid i 0) (act : r.act = none)
      (sends : r.sends = [(a, .welcome i 0)])
  | leaves (i : Seat) (message : m = .bye) (addr : h.addr i = some a)
      (free : r.host.addr = Function.update h.addr i none)
      (names : r.host.names = Function.update h.names i [])
      (kind : r.host.kind = Function.update h.kind i .none) (actid : r.host.actid = h.actid)
      (act : r.act = none) (sends : r.sends = [])

section

variable {h h' : Host α γ} {a : α} {m : ToHost}

theorem Does.of_same {r : Reply α γ} (same : SameSeats h h') (hactid : h'.actid = h.actid)
    (hdoes : Does nick h' a m r) : Does nick h a m r := by
  have hknown : ∀ b msg, Known h' b msg → Known h b msg := by
    intro b msg hmsg
    cases msg with
    | welcome i last => exact ⟨same.addr ▸ hmsg.1, hactid ▸ hmsg.2⟩
    | view q actid => exact Eq.trans hmsg hactid
    | full => trivial
    | bye => trivial
  have hsame : ∀ {g : Host α γ}, SameSeats h' g → SameSeats h g := fun hg =>
    ⟨hg.addr.trans same.addr, hg.names.trans same.names, hg.kind.trans same.kind⟩
  cases hdoes with
  | keeps hg actid act sends =>
    refine .keeps (hsame hg) (actid.trans hactid) act fun p hp => ?_
    refine (sends p hp).imp_right fun hp => ⟨hknown _ _ hp.1, ?_⟩
    rw [← same.addr]
    exact hp.2
  | acts i id action message addr new hg actid act sends =>
    exact .acts i id action message (same.addr ▸ addr) (hactid ▸ new) (hsame hg) (hactid ▸ actid) act sends
  | takes i seat free player addr names kind actid act sends =>
    exact .takes i (same.addr ▸ seat) (same.names ▸ free) player (same.addr ▸ addr) (same.names ▸ names)
      (same.kind ▸ kind) (hactid ▸ actid) act sends
  | leaves i message addr free names kind actid act sends =>
    exact .leaves i message (same.addr ▸ addr) (same.addr ▸ free) (same.names ▸ names) (same.kind ▸ kind)
      (actid.trans hactid) act sends

theorem sameSeats_welcome {i : Seat} (haddr : h.addr i = some a) : SameSeats h (h.welcome game i a).host where
  addr := by
    rw [Host.welcome, ← haddr]
    exact Function.update_eq_self i h.addr
  names := rfl
  kind := rfl

theorem join_does [DecidableEq α] (hs : Seated nick h) : Does nick h a (.join (nick a)) (h.snHostJoin game a (nick a)) := by
  rw [Host.snHostJoin, namedSeat_eq hs]
  cases hseat : h.seatOf a with
  | some i =>
    have haddr := seatOf_some hseat
    refine .keeps (sameSeats_welcome haddr) rfl rfl fun p hp => .inr ?_
    obtain rfl := List.mem_singleton.mp hp
    exact ⟨⟨haddr, rfl⟩, i, haddr⟩
  | none =>
    have hnone := seatOf_none hs.zero hseat
    dsimp only
    split
    · rename_i i hempty
      split at hempty
      · obtain ⟨hfree, hplayer⟩ := emptySeat_some hempty
        refine .takes i hnone hfree hplayer rfl ?_ rfl rfl rfl ?_
        · show Function.update h.names i (h.newName (joinName (nick a))) = _
          rw [newName_eq hs hnone]
        · show [(a, ToClient.welcome i (Function.update h.actid i 0 i))] = _
          rw [Function.update_self]
      · cases hempty
    · refine .keeps ⟨rfl, rfl, rfl⟩ rfl rfl fun p hp => .inl ?_
      obtain rfl := List.mem_singleton.mp hp
      rfl

theorem verb_does [DecidableEq α] (hs : Seated nick h) (honest : ∀ rest, m = .join rest → rest = nick a) :
    Does nick h a m (h.snHostVerb game a (h.seatOf a) m) := by
  have hquiet : Does nick h a m { host := h } := .keeps ⟨rfl, rfl, rfl⟩ rfl rfl fun p hp => by cases hp
  cases m with
  | join rest =>
    obtain rfl := honest rest rfl
    cases h.seatOf a <;> exact join_does hs
  | ping => cases h.seatOf a <;> exact hquiet
  | ack q =>
    cases h.seatOf a with
    | none => exact hquiet
    | some i =>
      dsimp only [Host.snHostVerb]
      split
      · exact .keeps ⟨rfl, rfl, rfl⟩ rfl rfl fun p hp => by cases hp
      · exact hquiet
  | act id action =>
    cases hseat : h.seatOf a with
    | none => exact hquiet
    | some i =>
      dsimp only [Host.snHostVerb]
      split
      · exact .acts i id action rfl (seatOf_some hseat) ‹_› ⟨rfl, rfl, rfl⟩ rfl rfl rfl
      · exact .keeps ⟨rfl, rfl, rfl⟩ rfl rfl (fresh_snSendView h i)
  | bye =>
    cases hseat : h.seatOf a with
    | none => exact hquiet
    | some i =>
      dsimp only [Host.snHostVerb, Host.leave]
      split
      · exact .leaves i rfl (seatOf_some hseat) rfl rfl rfl rfl rfl rfl
      · exact .keeps ⟨rfl, rfl, rfl⟩ rfl rfl fun p hp => by cases hp

theorem packet_does [DecidableEq α] (hs : Seated nick h) (honest : ∀ rest, m = .join rest → rest = nick a) :
    Does nick h a m (h.snHostPacket game a m) := by
  unfold Host.snHostPacket
  cases hseat : h.seatOf a with
  | none =>
    have hverb : Does nick h a m (h.snHostVerb game a (h.seatOf a) m) := verb_does hs honest
    rwa [hseat] at hverb
  | some i =>
    have hheard : SameSeats h (h.hear i) := ⟨rfl, rfl, rfl⟩
    have hverb : Does nick (h.hear i) a m ((h.hear i).snHostVerb game a ((h.hear i).seatOf a) m) :=
      verb_does (hheard.seated hs) honest
    rw [show (h.hear i).seatOf a = some i from hseat] at hverb
    exact hverb.of_same hheard rfl

theorem addr_of_loses [DecidableEq α] (hzero : h'.addr 0 = none) (hloses : System.loses h h' a = true) :
    ∃ i, h.addr i = some a ∧ ∀ j, h'.addr j ≠ some a := by
  rw [System.loses, Bool.and_eq_true, Option.isSome_iff_exists, Option.isNone_iff_eq_none] at hloses
  obtain ⟨⟨i, hseat⟩, hafter⟩ := hloses
  exact ⟨i, seatOf_some hseat, seatOf_none hzero hafter⟩

theorem loses_eq_true [DecidableEq α] (hzero : h.addr 0 = none) {i : Seat} (haddr : h.addr i = some a)
    (hgone : ∀ j, h'.addr j ≠ some a) : System.loses h h' a = true := by
  rw [System.loses]
  cases hseat : h.seatOf a with
  | none => exact absurd haddr (seatOf_none hzero hseat i)
  | some j =>
    cases hafter : h'.seatOf a with
    | none => rfl
    | some k => exact absurd (seatOf_some hafter) (hgone k)

theorem Does.seated {r : Reply α γ} (hs : Seated nick h)
    (hinjective : ∀ a b, joinName (nick a) = joinName (nick b) → a = b) (hdoes : Does nick h a m r) :
    Seated nick r.host := by
  cases hdoes with
  | keeps same => exact same.seated hs
  | acts i id action message addr new same => exact same.seated hs
  | takes i seat free player addr names kind =>
    constructor
    · intro j b hj
      rw [addr] at hj
      rw [names, kind]
      by_cases hji : j = i
      · rw [hji, Function.update_self] at hj
        rw [hji, Function.update_self, Function.update_self]
        cases hj
        exact ⟨rfl, rfl⟩
      · rw [Function.update_of_ne hji] at hj ⊢
        rw [Function.update_of_ne hji]
        exact hs.named j b hj
    · intro j b hj
      rw [names] at hj
      rw [addr]
      by_cases hji : j = i
      · rw [hji, Function.update_self] at hj
        rw [hji, Function.update_self, hinjective a b hj]
      · rw [Function.update_of_ne hji] at hj ⊢
        exact hs.owned j b hj
    · intro j k b hj hk
      rw [addr] at hj hk
      by_cases hji : j = i <;> by_cases hki : k = i
      · exact hji.trans hki.symm
      · rw [hji, Function.update_self] at hj
        rw [Function.update_of_ne hki] at hk
        cases hj
        exact absurd hk (seat k)
      · rw [hki, Function.update_self] at hk
        rw [Function.update_of_ne hji] at hj
        cases hk
        exact absurd hj (seat j)
      · rw [Function.update_of_ne hji] at hj
        rw [Function.update_of_ne hki] at hk
        exact hs.unique j k b hj hk
    · rw [addr, Function.update_of_ne (Ne.symm player)]
      exact hs.zero
  | leaves i message addr free names kind =>
    constructor
    · intro j b hj
      rw [free] at hj
      rw [names, kind]
      by_cases hji : j = i
      · rw [hji, Function.update_self] at hj
        cases hj
      · rw [Function.update_of_ne hji] at hj ⊢
        rw [Function.update_of_ne hji]
        exact hs.named j b hj
    · intro j b hj
      rw [names] at hj
      rw [free]
      by_cases hji : j = i
      · rw [hji, Function.update_self] at hj
        exact absurd hj.symm (joinName_ne_nil _)
      · rw [Function.update_of_ne hji] at hj ⊢
        exact hs.owned j b hj
    · intro j k b hj hk
      rw [free] at hj hk
      by_cases hji : j = i
      · rw [hji, Function.update_self] at hj
        cases hj
      · by_cases hki : k = i
        · rw [hki, Function.update_self] at hk
          cases hk
        · rw [Function.update_of_ne hji] at hj
          rw [Function.update_of_ne hki] at hk
          exact hs.unique j k b hj hk
    · rw [free]
      by_cases hzero : 0 = i
      · rw [← hzero, Function.update_self]
      · rw [Function.update_of_ne hzero]
        exact hs.zero

end

end Ussr.Sochi
