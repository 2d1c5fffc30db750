import Ussr.Sochi.Play

/-! What the host sends a player of the game, and what a player cannot learn from it. -/

namespace Ussr.Sochi
open Real64
open Stalin (Text)

structure View where
  seq : Nat
  seat : Seat
  names : Seat → Text
  kind : Seat → Kind
  online : Seat → Bool
  pool : Seat → Int
  mount : Seat → Int
  whist : Seat → Seat → Int
  psize : Int
  dealer : Seat
  handno : Nat
  phase : Phase
  turn : Option Seat
  ctl : Option Seat
  hand : List Card
  others : Seat → Option (List Card)
  counts : Seat → Nat
  bids : Seat → Int
  high : Int
  decl : Option Seat
  contract : Int
  trump : Nat
  wst : Seat → Text
  opened : Opened
  talon : List Card
  discard : List Card
  trick : List Card
  tseats : List Seat
  lead : Option Seat
  tricks : Seat → Nat
  trickno : Nat
  last : Text
  log : List Text
  logn : Nat
  chat : List Text
  result : Text
  ready : Seat → Bool
  legal : List Text
  actid : Seat → Nat
  streak : Nat
  err : Text
  final : Option (Seat → Int)

namespace State

def LaidOpen (s : State) (i : Seat) : Prop :=
  s.phase = .play ∧ (s.opened = .seat i ∨ s.opened = .defenders ∧ s.decl ≠ some i)

instance decidableLaidOpen (s : State) (i : Seat) : Decidable (s.LaidOpen i) := by
  unfold LaidOpen
  exact inferInstance

def viewTalon (s : State) : Option (List Card) :=
  if s.tshow then
    if s.decl = none then
      if s.trickno < 2 then (s.talon[s.trickno]?).map fun c => [c] else some []
    else some s.talon
  else some []

def viewOf (s : State) (seat : Seat) (talon : List Card) (legal : List Text) : View where
  seq := s.seq
  seat
  names := s.names
  kind := s.kind
  online := s.online
  pool := s.pool
  mount := s.mount
  whist := s.whist
  psize := s.psize
  dealer := s.dealer
  handno := s.handno
  phase := s.phase
  turn := s.turn
  ctl := s.soCtl
  hand := s.hands seat
  others i := if i ≠ seat ∧ s.LaidOpen i then some (s.hands i) else none
  counts i := (s.hands i).length
  bids := s.bids
  high := s.high
  decl := s.decl
  contract := s.contract
  trump := s.trump
  wst := s.wst
  opened := s.opened
  talon
  discard := if s.decl = some seat then s.discard else []
  trick := s.trick
  tseats := s.tseats
  lead := s.lead
  tricks := s.tricks
  trickno := s.trickno
  last := s.last
  log := s.log
  logn := s.logn
  chat := s.chat
  result := s.result
  ready := s.ready
  legal
  actid := s.actid
  streak := s.streak
  err := s.err seat
  final := s.final

def soView (s : State) (seat : Seat) : Option View :=
  s.viewTalon.bind fun talon => (s.soLegal seat).map (s.viewOf seat talon)

section

inductive Reachable : State → Prop where
  | table {s : State} (lobby : s.phase = .lobby) : Reachable s
  | newGame {s : State} (before : Reachable s) : Reachable s.soNewGame
  | act {s t : State} {seat : Seat} {action r : Text} (before : Reachable s)
      (made : s.soAct seat action = some (t, r)) : Reachable t
  | net {s : State} (before : Reachable s) (names : Seat → Text) (kind : Seat → Kind) (online : Seat → Bool)
      (actid : Seat → Nat) (seq : Nat) : Reachable { s with names, kind, online, actid, seq }
  | log {s : State} (before : Reachable s) (text : Text) : Reachable (s.soLog text)

structure Turned (s : State) : Prop where
  play : s.phase = .play → s.decl = none → s.tshow = true
  decl : s.phase = .discard ∨ s.phase = .contract ∨ s.phase = .whist ∨ s.phase = .whist2 → s.decl ≠ none

variable {s t : State}

theorem Turned.of_decl (h : s.decl ≠ none) : s.Turned := ⟨fun _ hnone => absurd hnone h, fun _ => h⟩

theorem Turned.of_play (hphase : s.phase = .play) (htshow : s.tshow = true) : s.Turned := by
  refine ⟨fun _ _ => htshow, fun hother => ?_⟩
  simp only [hphase, reduceCtorEq, or_self] at hother

theorem Turned.of_phase (h : s.phase = .lobby ∨ s.phase = .bid ∨ s.phase = .done ∨ s.phase = .over) :
    s.Turned := by
  constructor
  · intro hphase
    simp only [hphase, reduceCtorEq, or_self] at h
  · intro hphase
    obtain hphase | hphase | hphase | hphase := hphase <;> simp only [hphase, reduceCtorEq, or_self] at h

theorem Turned.keep (h : s.Turned) (hphase : t.phase = s.phase) (hdecl : t.decl = s.decl)
    (htshow : t.tshow = s.tshow) : t.Turned := by
  constructor
  · rw [hphase, hdecl, htshow]
    exact h.play
  · rw [hphase, hdecl]
    exact h.decl

theorem soScoreHand_turned (s : State) : s.soScoreHand.Turned := .of_phase (.inr (.inr s.soScoreHand_phase))

theorem soTakeTalon_turned (h : s.soTakeTalon = some t) : t.Turned := by
  unfold soTakeTalon at h
  split at h
  next d _ _ _ hdecl _ =>
    obtain rfl := Option.some.inj h
    exact .of_decl fun hnone => Option.some_ne_none d (hdecl.symm.trans hnone)
  next => cases h

theorem soDoBid_turned (hphase : s.phase = .bid) {seat : Seat} {ord : Int} (h : s.soDoBid seat ord = some t) :
    t.Turned := by
  unfold soDoBid at h
  extract_lets called logged passes next at h
  split at h
  · obtain rfl := Option.some.inj h
    exact .of_play rfl rfl
  · split at h
    · exact soTakeTalon_turned h
    · obtain rfl := Option.some.inj h
      exact .of_phase (.inr (.inl hphase))

theorem soDoDiscard_turned {a b : Card} (h : s.soDoDiscard a b = some t) : t.Turned := by
  unfold soDoDiscard at h
  split at h
  · cases h
  next d hdecl =>
    have hsome (hnone : s.decl = none) : False := Option.some_ne_none d (hdecl.symm.trans hnone)
    extract_lets laid at h
    split at h <;> obtain rfl := Option.some.inj h <;> exact .of_decl hsome

theorem soDoContract_turned {ord : Int} (h : s.soDoContract ord = some t) : t.Turned := by
  unfold soDoContract at h
  split at h
  · cases h
  next d hdecl =>
    obtain rfl := Option.some.inj h
    exact .of_decl fun hnone => Option.some_ne_none d (hdecl.symm.trans hnone)

theorem soWhistDone_turned (hdecl : s.decl ≠ none) : s.soWhistDone.Turned := by
  unfold soWhistDone
  extract_lets hid f k nw opened
  split
  · exact soScoreHand_turned hid
  · split <;> exact .of_decl hdecl

theorem soDoWhist_turned (hdecl : s.decl ≠ none) (seat : Seat) (w : Text) : (s.soDoWhist seat w).Turned := by
  unfold soDoWhist
  extract_lets f k logged wst said
  split
  · exact soWhistDone_turned hdecl
  · split
    · exact .of_decl hdecl
    · split
      · exact .of_decl hdecl
      · exact soWhistDone_turned hdecl

theorem soTrickDone_turned (hs : s.Turned) (h : s.soTrickDone = some t) : t.Turned := by
  unfold soTrickDone at h
  extract_lets talonLed tc at h
  split at h
  next led _ =>
    extract_lets win tricks lead after at h
    obtain rfl := Option.some.inj h
    split
    · exact soScoreHand_turned after
    · exact hs.keep rfl rfl rfl
  next => cases h

theorem soDoPlay_turned (hs : s.Turned) {seat : Seat} {card : Card} (h : s.soDoPlay seat card = some t) :
    t.Turned := by
  unfold soDoPlay at h
  extract_lets laid at h
  have hlaid : laid.Turned := hs.keep rfl rfl rfl
  split at h
  · exact soTrickDone_turned hlaid h
  · obtain rfl := Option.some.inj h
    exact hs.keep rfl rfl rfl

theorem LegalText.phases {text : Text} (h : s.LegalText text) :
    (soHead text 2 = ascii "b:" → s.phase = .bid) ∧
      (soHead text 2 = ascii "w:" → s.phase = .whist ∨ s.phase = .whist2) := by
  have hother {verb : Text} (hverb : soHead text 2 = verb) (hb : verb ≠ ascii "b:") (hw : verb ≠ ascii "w:") :
      (soHead text 2 = ascii "b:" → s.phase = .bid) ∧
        (soHead text 2 = ascii "w:" → s.phase = .whist ∨ s.phase = .whist2) :=
    ⟨fun h => absurd (hverb.symm.trans h) hb, fun h => absurd (hverb.symm.trans h) hw⟩
  cases h with
  | bid hphase hverb => exact ⟨fun _ => hphase, fun h => absurd (hverb.symm.trans h) (by decide)⟩
  | discard hphase hverb => exact hother hverb (by decide) (by decide)
  | contract hphase hverb => exact hother hverb (by decide) (by decide)
  | whist hphase hverb => exact ⟨fun h => absurd (hverb.symm.trans h) (by decide), fun _ => hphase⟩
  | play hphase t hturn c hc hcard =>
    have hverb : soHead text 2 = ascii "p:" := by rw [hcard]; exact soHead_verb _ _ rfl
    exact hother hverb (by decide) (by decide)

theorem turnAct_turned (hs : s.Turned) {seat : Seat} {action r : Text}
    (h : s.turnAct seat action = some (t, r)) : t.Turned := by
  obtain ⟨legal, hlegal, h⟩ := Option.bind_eq_some_iff.mp h
  have hdone {made : Option State} (h : (made.map fun s => (s, ([] : Text))) = some (t, r)) : made = some t := by
    obtain ⟨u, hu, heq⟩ := Option.map_eq_some_iff.mp h
    cases heq
    exact hu
  extract_lets verb arg at h
  split at h
  · cases h
    exact hs
  split at h
  · unfold discardAct at h
    split at h
    · split at h
      · exact soDoDiscard_turned (hdone h)
      · cases h
        exact hs
    · cases h
      exact hs
  split at h
  · cases h
    exact hs
  next hmem =>
  have hphases := (soLegal_text hlegal (List.contains_iff_mem.mp (Bool.eq_true_of_not_eq_false hmem))).phases
  split at h
  next hverb => exact soDoBid_turned (hphases.1 hverb) (hdone h)
  split at h
  · exact soDoContract_turned (hdone h)
  split at h
  next hverb =>
    cases h
    refine soDoWhist_turned (hs.decl ?_) seat arg
    exact .inr (.inr (hphases.2 hverb))
  split at h
  · obtain ⟨p, -, hplay⟩ := Option.bind_eq_some_iff.mp (hdone h)
    obtain ⟨c, -, hplay⟩ := Option.bind_eq_some_iff.mp hplay
    exact soDoPlay_turned hs hplay
  · cases h
    exact hs

theorem soAct_turned (hs : s.Turned) {seat : Seat} {action r : Text} (h : s.soAct seat action = some (t, r)) :
    t.Turned := by
  obtain ⟨⟨u, r'⟩, hbody, heq⟩ := Option.map_eq_some_iff.mp h
  cases heq
  have hu : u.Turned := by
    unfold actBody at hbody
    split at hbody
    · cases hbody
      split
      · exact hs
      · exact hs.keep rfl rfl rfl
    · split at hbody
      · split at hbody
        · cases hbody
          split
          · exact .of_phase (.inr (.inl (soStartHand_fresh _).1))
          · exact hs.keep rfl rfl rfl
        · cases hbody
          exact hs
      · exact turnAct_turned hs hbody
  exact hu.keep rfl rfl rfl

theorem Reachable.turned (h : s.Reachable) : s.Turned := by
  induction h with
  | table lobby => exact .of_phase (.inl lobby)
  | newGame before ih => exact .of_phase (.inr (.inl (soStartHand_fresh _).1))
  | act before made ih => exact soAct_turned ih made
  | net before names kind online actid seq ih => exact ih.keep rfl rfl rfl
  | log before text ih => exact ih.keep rfl rfl rfl

end

section

/-- What a state may look like to a player who knows `s` but for the hidden cards and the generator:
the closed hands, the talon until it is taken and, but for the declarer, the discard hold any
cards, as many in a closed hand as there are. A card of the talon that is turned up is the same. -/
inductive Alike (seat : Seat) (s : State) : State → Prop where
  | mk (hands : Seat → List Card) (talon discard won : List Card) (rng : Nat)
      (seen : ∀ i, i = seat ∨ s.LaidOpen i → hands i = s.hands i)
      (counts : ∀ i, (hands i).length = (s.hands i).length)
      (taken : s.decl ≠ none → talon = s.talon)
      (turned : s.tshow = true → s.trickno < 2 → talon[s.trickno]? = s.talon[s.trickno]?)
      (own : s.decl = some seat → discard = s.discard) :
      Alike seat s { s with hands, talon, discard, won, rng }

variable {s t : State} {seat : Seat}

theorem ctl_sees {p : Seat} (hphase : s.phase = .play) (hctl : s.soCtl = some seat) (hturn : s.turn = some p) :
    p = seat ∨ s.LaidOpen p := by
  unfold soCtl at hctl
  simp only [hphase, hturn] at hctl
  split at hctl
  next i p' hopened hp =>
    cases hp
    split at hctl
    next hi => exact .inr ⟨hphase, .inl (hi ▸ hopened)⟩
    next => exact .inl (Option.some.inj hctl)
  next => exact .inl (Option.some.inj hctl)

theorem viewTalon_alike (h : Alike seat s t) : s.viewTalon = t.viewTalon := by
  obtain ⟨hands, talon, discard, won, rng, -, -, taken, turned, -⟩ := h
  unfold viewTalon
  dsimp only
  split
  next htshow =>
    split
    · split
      next hfew => rw [turned htshow hfew]
      next => rfl
    next hdecl => rw [taken hdecl]
  next => rfl

theorem soLegal_alike (hturned : s.Turned) (h : Alike seat s t) : s.soLegal seat = t.soLegal seat := by
  obtain ⟨hands, talon, discard, won, rng, seen, -, taken, turned, -⟩ := h
  have hctl : ({ s with hands, talon, discard, won, rng } : State).soCtl = s.soCtl := rfl
  unfold soLegal
  rw [hctl]
  split
  next hseat =>
    dsimp only
    split <;> try rfl
    next hphase =>
      split
      · rfl
      next p hp =>
        have hhand : hands p = s.hands p := seen p (ctl_sees hphase hseat hp)
        have hled : ({ s with hands, talon, discard, won, rng } : State).ledSuit = s.ledSuit := by
          unfold ledSuit
          dsimp only
          split
          next htalon => rw [turned (hturned.play hphase htalon.1) htalon.2]
          next => rfl
        unfold soLegalCards
        rw [hled]
        dsimp only
        rw [hhand]
  next => rfl

theorem viewOf_alike (h : Alike seat s t) (talon : List Card) (legal : List Text) :
    s.viewOf seat talon legal = t.viewOf seat talon legal := by
  obtain ⟨hands, talon', discard, won, rng, seen, counts, -, -, own⟩ := h
  have hhand : hands seat = s.hands seat := seen seat (.inl rfl)
  have hothers : (fun i => if i ≠ seat ∧ s.LaidOpen i then some (hands i) else none) =
      fun i => if i ≠ seat ∧ s.LaidOpen i then some (s.hands i) else none := by
    funext i
    split
    next hopen => rw [seen i (.inr hopen.2)]
    next => rfl
  have hcounts : (fun i => (hands i).length) = fun i => (s.hands i).length := funext counts
  have hdiscard : (if s.decl = some seat then discard else []) = if s.decl = some seat then s.discard else [] := by
    split
    next hdecl => rw [own hdecl]
    next => rfl
  have hview : ({ s with hands, talon := talon', discard, won, rng } : State).viewOf seat talon legal =
      { s.viewOf seat talon legal with
        hand := hands seat
        others := fun i => if i ≠ seat ∧ s.LaidOpen i then some (hands i) else none
        counts := fun i => (hands i).length
        discard := if s.decl = some seat then discard else [] } := rfl
  rw [hview, hhand, hothers, hcounts, hdiscard]
  rfl

/-- A view shows no hidden card: two states that differ in nothing else give one view. -/
theorem soView_alike (hs : s.Reachable) (h : Alike seat s t) : s.soView seat = t.soView seat := by
  unfold soView
  rw [viewTalon_alike h, soLegal_alike hs.turned h]
  congr 1
  funext talon
  congr 1
  funext legal
  exact viewOf_alike h talon legal

theorem deals_alike (psize : Int) (a b : Nat)
    (hhand : (dealt (soTable psize b).deck).hands hostSeat = (dealt (soTable psize a).deck).hands hostSeat) :
    Alike hostSeat (soTable psize a).soNewGame (soTable psize b).soNewGame := by
  have hcounts (i : Seat) : ((dealt (soTable psize b).deck).hands i).length =
      ((dealt (soTable psize a).deck).hands i).length := by
    rw [dealt_hands _ (deck_length _), dealt_hands _ (deck_length _)]
  unfold soNewGame soStartHand
  unfold deck at hhand hcounts
  dsimp only
  generalize shuffle 31 (soTable psize a).rng (List.finRange 32) = dealA at hhand hcounts ⊢
  generalize shuffle 31 (soTable psize b).rng (List.finRange 32) = dealB at hhand hcounts ⊢
  obtain ⟨cardsA, rngA⟩ := dealA
  obtain ⟨cardsB, rngB⟩ := dealB
  refine .mk (dealt cardsB).hands (dealt cardsB).talon [] [] rngB (fun i hi => ?_) hcounts
    (fun h => absurd rfl h) (fun h => absurd h Bool.false_ne_true) (fun h => by cases h)
  obtain rfl | hopen := hi
  · exact hhand
  · cases hopen.1

theorem soView_alike_deals : (soTable 10 6284).soNewGame.talon ≠ (soTable 10 10197).soNewGame.talon ∧
    (soTable 10 6284).soNewGame.soView hostSeat = (soTable 10 10197).soNewGame.soView hostSeat :=
  ⟨by decide +kernel, soView_alike (.newGame (.table rfl)) (deals_alike 10 6284 10197 (by decide +kernel))⟩

end

end State

end Ussr.Sochi
