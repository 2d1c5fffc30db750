import Ussr.Sochi.BotMoves

/-! Three bots play on: what holds between the actions at a table, and that a bot which is to act
always moves the game. -/

namespace Ussr.Sochi
open Real64
open Stalin (Text)

namespace State

section

structure Ended (s : State) : Prop where
  talon : s.phase = .done ∨ s.phase = .over → s.decl = none → s.talon.length = 2
  waiting : s.phase = .done → ∃ i, s.ready i = false

variable {s t : State} {seat : Seat} {text r : Text}

theorem Ended.of_phase (h : s.phase ≠ .done ∧ s.phase ≠ .over) : s.Ended :=
  ⟨fun hphase => absurd hphase (not_or.mpr h), fun hphase => absurd hphase h.1⟩

theorem Ended.keep (h : s.Ended) (hphase : t.phase = s.phase) (hdecl : t.decl = s.decl) (htalon : t.talon = s.talon)
    (hready : t.ready = s.ready) : t.Ended := by
  constructor
  · rw [hphase, hdecl, htalon]
    exact h.talon
  · rw [hphase, hready]
    exact h.waiting

theorem soScoreHand_ready (s : State) : s.soScoreHand.ready = fun _ => false := by
  unfold soScoreHand
  extract_lets scored ended
  split <;> rfl

theorem soScoreHand_ended (htalon : s.decl = none → s.talon.length = 2) : s.soScoreHand.Ended := by
  have hdecl : s.soScoreHand.decl = s.decl := congrArg Lay.decl s.soScoreHand_lay
  have hkept : s.soScoreHand.talon = s.talon := congrArg Lay.talon s.soScoreHand_lay
  refine ⟨fun _ hnone => ?_, fun _ => ⟨hostSeat, by rw [soScoreHand_ready]⟩⟩
  rw [hkept]
  exact htalon (hdecl.symm.trans hnone)

theorem soDoBid_ended (hphase : s.phase = .bid) {ord : Int} (h : s.soDoBid seat ord = some t) : t.Ended := by
  unfold soDoBid at h
  extract_lets called logged passes next at h
  split at h
  · cases h
    exact .of_phase (show Phase.play ≠ .done ∧ Phase.play ≠ .over by decide)
  split at h
  · exact .of_phase (by rw [soTakeTalon_phase h]; decide)
  · cases h
    have hstay : ({ logged with turn := some (if logged.bids next = -1 then soNext (some next) else next) } :
        State).phase = .bid := hphase
    exact .of_phase (by rw [hstay]; decide)

theorem soDoDiscard_ended {a b : Card} (h : s.soDoDiscard a b = some t) : t.Ended := by
  unfold soDoDiscard at h
  split at h
  · cases h
  next d hdecl =>
    extract_lets laid at h
    split at h
    · cases h
      exact .of_phase (show Phase.play ≠ .done ∧ Phase.play ≠ .over by decide)
    · cases h
      exact .of_phase (show Phase.contract ≠ .done ∧ Phase.contract ≠ .over by decide)

theorem soDoContract_ended {ord : Int} (h : s.soDoContract ord = some t) : t.Ended := by
  unfold soDoContract at h
  split at h
  · cases h
  · cases h
    exact .of_phase (show Phase.whist ≠ .done ∧ Phase.whist ≠ .over by decide)

theorem soWhistDone_ended (hdecl : s.decl ≠ none) : s.soWhistDone.Ended := by
  have hplay : Phase.play ≠ .done ∧ Phase.play ≠ .over := by decide
  unfold soWhistDone
  extract_lets hid f k nw opened
  split
  · exact soScoreHand_ended fun hnone => absurd hnone hdecl
  · split
    · exact .of_phase hplay
    · exact .of_phase hplay

theorem soDoWhist_ended (hphase : s.phase = .whist ∨ s.phase = .whist2) (hdecl : s.decl ≠ none) (seat : Seat)
    (w : Text) : (s.soDoWhist seat w).Ended := by
  have hstay (u : State) (hu : u.phase = s.phase) : u.Ended := by
    refine .of_phase ?_
    rw [hu]
    obtain hphase | hphase := hphase <;> rw [hphase] <;> decide
  unfold soDoWhist
  extract_lets f k logged wst said
  split
  · exact soWhistDone_ended hdecl
  · split
    · exact hstay _ rfl
    · split
      · exact .of_phase (show Phase.whist2 ≠ .done ∧ Phase.whist2 ≠ .over by decide)
      · exact soWhistDone_ended hdecl

theorem soDoPlay_ended (hphase : s.phase = .play) (htalon : s.decl = none → s.talon.length = 2) {card : Card}
    (h : s.soDoPlay seat card = some t) : t.Ended := by
  have hstay (u : State) (hu : u.phase = s.phase) : u.Ended := .of_phase (by rw [hu, hphase]; decide)
  unfold soDoPlay at h
  extract_lets laid at h
  split at h
  · unfold soTrickDone at h
    extract_lets talonLed tc at h
    split at h
    next led _ =>
      extract_lets win tricks lead after at h
      cases h
      split
      · exact soScoreHand_ended htalon
      · exact hstay _ rfl
    next => cases h
  · cases h
    exact hstay _ rfl

theorem LegalText.play_phase (h : s.LegalText text) (hverb : soHead text 2 = ascii "p:") : s.phase = .play := by
  cases h with
  | play hphase => exact hphase
  | bid _ hother | discard _ hother | contract _ hother | whist _ hother =>
    exact absurd (hother.symm.trans hverb) (by decide)

theorem turnAct_ended (hs : s.Sound) (h : s.Ended) (hmade : s.turnAct seat text = some (t, r)) : t.Ended := by
  have hdone {made : Option State} (hmade : (made.map fun s => (s, ([] : Text))) = some (t, r)) : made = some t := by
    obtain ⟨u, hu, heq⟩ := Option.map_eq_some_iff.mp hmade
    cases heq
    exact hu
  obtain ⟨legal, hlegal, hmade⟩ := Option.bind_eq_some_iff.mp hmade
  extract_lets verb arg at hmade
  split at hmade
  · cases hmade
    exact h
  split at hmade
  · unfold discardAct at hmade
    split at hmade
    · split at hmade
      · exact soDoDiscard_ended (hdone hmade)
      · cases hmade
        exact h
    · cases hmade
      exact h
  split at hmade
  · cases hmade
    exact h
  next hmem =>
  have htext := soLegal_text hlegal (List.contains_iff_mem.mp (Bool.eq_true_of_not_eq_false hmem))
  have hstage := hs.stage
  split at hmade
  next hverb => exact soDoBid_ended (htext.phases.1 hverb) (hdone hmade)
  split at hmade
  · exact soDoContract_ended (hdone hmade)
  split at hmade
  next hverb =>
    cases hmade
    have hphase := htext.phases.2 hverb
    refine soDoWhist_ended hphase ?_ seat arg
    obtain hphase | hphase := hphase <;> simp only [Stage, hphase] at hstage <;> exact hstage.decl
  split at hmade
  next hverb =>
    have hphase := htext.play_phase hverb
    simp only [Stage, hphase] at hstage
    obtain ⟨p, hplaying⟩ := hstage
    obtain ⟨p', -, hplay⟩ := Option.bind_eq_some_iff.mp (hdone hmade)
    obtain ⟨c, -, hplay⟩ := Option.bind_eq_some_iff.mp hplay
    exact soDoPlay_ended hphase hplaying.talon hplay
  · cases hmade
    exact h

theorem actBody_ended (hs : s.Sound) (h : s.Ended) (hmade : s.actBody seat text = some (t, r)) : t.Ended := by
  unfold actBody at hmade
  split at hmade
  · cases hmade
    split
    · exact h
    · exact h.keep rfl rfl rfl rfl
  split at hmade
  · split at hmade
    next hphase =>
      cases hmade
      split
      · exact .of_phase (by rw [(soStartHand_fresh _).1]; decide)
      next hwait =>
        obtain ⟨i, -, hi⟩ : ∃ i ∈ seats, Function.update s.ready seat true i = false := by
          simpa only [List.all_eq_true, not_forall, exists_prop, Bool.not_eq_true] using hwait
        exact ⟨h.talon, fun _ => ⟨i, hi⟩⟩
    next =>
      cases hmade
      exact h
  · exact turnAct_ended hs h hmade

theorem soAct_ended (hs : s.Sound) (h : s.Ended) (hmade : s.soAct seat text = some (t, r)) : t.Ended := by
  obtain ⟨⟨u, e⟩, hbody, heq⟩ := Option.map_eq_some_iff.mp hmade
  cases heq
  exact (actBody_ended hs h hbody).keep rfl rfl rfl rfl

end

section

variable {s : State} {seat : Seat}

theorem soView_some (hs : s.Sound) (h : s.Ended) :
    ∃ talon legal, s.soLegal seat = some legal ∧ s.soView seat = some (s.viewOf seat talon legal) := by
  have hleft (hdecl : s.decl = none) : s.talon.length = 2 := by
    have hstage := hs.stage
    cases hphase : s.phase <;> simp only [Stage, hphase] at hstage
    case bid => exact hstage.talon
    case discard =>
      obtain ⟨d, hstage⟩ := hstage
      exact absurd (hdecl.symm.trans hstage.decl) (Option.some_ne_none d).symm
    case play =>
      obtain ⟨p, hstage⟩ := hstage
      exact hstage.talon hdecl
    case done => exact h.talon (.inl hphase) hdecl
    case «over» => exact h.talon (.inr hphase) hdecl
    all_goals exact absurd hdecl hstage.decl
  obtain ⟨talon, htalon⟩ : ∃ talon, s.viewTalon = some talon := by
    unfold viewTalon
    split
    · split
      next hdecl =>
        split
        next hfew =>
          have hin : s.trickno < s.talon.length := by
            rw [hleft hdecl]
            exact hfew
          exact ⟨_, by rw [List.getElem?_eq_getElem hin]; rfl⟩
        next => exact ⟨_, rfl⟩
      next => exact ⟨_, rfl⟩
    · exact ⟨_, rfl⟩
  obtain ⟨legal, hlegal⟩ : ∃ legal, s.soLegal seat = some legal := hs.soLegal_some
  exact ⟨talon, legal, hlegal, by rw [soView, htalon, Option.bind_some, hlegal]; rfl⟩

end

section

variable {s : State} {seat : Seat} {talon : List Card} {legal : List Text}

theorem fair_of_verb {text : Text} (h : soHead text 2 ≠ ascii "d:") : ¬s.StrayDiscard seat text :=
  fun hstray => h hstray.2.2.1

theorem soBot_turn (v : View) (p : Phase) : v.ctl = some v.seat → v.phase = p → p ≠ .done →
    v.soBot =
      match p with
      | .bid => some v.botBid
      | .discard => v.botDiscard
      | .contract => v.legal.head?
      | .whist | .whist2 => some v.botWhist
      | .play => v.soBotPlay
      | _ => some [] := by
  rintro hctl rfl hp
  exact (if_neg hp).trans (if_pos hctl)

theorem bid_moves (hs : s.Sound) (hphase : s.phase = .bid) (hctl : s.soCtl = some seat)
    (hlegal : s.soLegal seat = some legal) (hview : s.soView seat = some (s.viewOf seat talon legal)) :
    ∃ t, s.BotMoves seat t := by
  have hbot : (s.viewOf seat talon legal).soBot = some (s.viewOf seat talon legal).botBid :=
    soBot_turn _ .bid hctl hphase (by decide)
  have hpass : ascii "b:pass" ∈ legal := by
    unfold soLegal at hlegal
    rw [if_pos hctl, hphase] at hlegal
    cases hlegal
    exact List.mem_cons_self
  have hverb := (s.viewOf seat talon legal).botBid_verb
  refine (bid_carries hs hphase hctl hlegal (View.botBid_mem hpass) hverb).moves hview hbot (fair_of_verb ?_)
  rw [hverb]
  decide

theorem discard_moves (hs : s.Sound) (hphase : s.phase = .discard) (hctl : s.soCtl = some seat)
    (hview : s.soView seat = some (s.viewOf seat talon legal)) : ∃ t, s.BotMoves seat t := by
  have hbot : (s.viewOf seat talon legal).soBot = (s.viewOf seat talon legal).botDiscard :=
    soBot_turn _ .discard hctl hphase (by decide)
  have hlen : 2 ≤ (s.hands seat).length := by
    have hstage := hs.stage
    simp only [Stage, hphase] at hstage
    obtain ⟨d, hstage⟩ := hstage
    rw [hstage.hands seat]
    split <;> decide
  obtain ⟨a, ha, b, hb, hab, hdiscard⟩ :=
    View.botDiscard_some (v := s.viewOf seat talon legal) (hs.whole.nodup seat) hlen
  exact (discard_carries hs hphase hctl ha hb hab).moves hview (hbot.trans hdiscard) fun hstray => hstray.1 hphase

theorem contract_moves (hs : s.Sound) (hr : s.Ruled) (hphase : s.phase = .contract) (hctl : s.soCtl = some seat)
    (hlegal : s.soLegal seat = some legal) (hview : s.soView seat = some (s.viewOf seat talon legal)) :
    ∃ t, s.BotMoves seat t := by
  have hbot : (s.viewOf seat talon legal).soBot = legal.head? := soBot_turn _ .contract hctl hphase (by decide)
  have hdecl : s.decl ≠ none := by
    have hstage := hs.stage
    simp only [Stage, hphase] at hstage
    exact hstage.decl
  have hhigh : Ordinary s.high := (hr.high.resolve_left (hr.won hdecl)).resolve_left (hr.chosen hphase)
  have htexts : contractTexts s.high = legal := by
    unfold soLegal at hlegal
    rw [if_pos hctl, hphase] at hlegal
    exact Option.some.inj hlegal
  obtain ⟨text, hfirst, hmem⟩ := contractTexts_first hhigh
  have hverb := contractTexts_verb hmem
  rw [htexts] at hfirst hmem
  refine (contract_carries hs hphase hctl hlegal hmem hverb).moves hview (hbot.trans hfirst) (fair_of_verb ?_)
  rw [hverb]
  decide

theorem whist_moves (hphase : s.phase = .whist ∨ s.phase = .whist2) (hctl : s.soCtl = some seat)
    (hlegal : s.soLegal seat = some legal) (hview : s.soView seat = some (s.viewOf seat talon legal)) :
    ∃ t, s.BotMoves seat t := by
  have hbot : (s.viewOf seat talon legal).soBot = some (s.viewOf seat talon legal).botWhist := by
    obtain hphase | hphase := hphase
    · exact soBot_turn _ .whist hctl hphase (by decide)
    · exact soBot_turn _ .whist2 hctl hphase (by decide)
  have hboth : ascii "w:whist" ∈ legal ∧ ascii "w:pass" ∈ legal := by
    unfold soLegal at hlegal
    rw [if_pos hctl] at hlegal
    obtain hphase | hphase := hphase <;> rw [hphase] at hlegal <;> cases hlegal <;>
      exact ⟨List.mem_cons_self, List.mem_cons_of_mem _ List.mem_cons_self⟩
  obtain hsaid | hsaid := (s.viewOf seat talon legal).botWhist_cases
  · rw [hsaid] at hbot
    exact (whist_carries hphase hctl hlegal hboth.1 rfl).moves hview hbot (fair_of_verb (by decide))
  · rw [hsaid] at hbot
    exact (whist_carries hphase hctl hlegal hboth.2 rfl).moves hview hbot (fair_of_verb (by decide))

theorem play_moves (hs : s.Sound) (hphase : s.phase = .play) (hctl : s.soCtl = some seat)
    (hlegal : s.soLegal seat = some legal) (hview : s.soView seat = some (s.viewOf seat talon legal)) :
    ∃ t, s.BotMoves seat t := by
  have hbot : (s.viewOf seat talon legal).soBot = (s.viewOf seat talon legal).soBotPlay :=
    soBot_turn _ .play hctl hphase (by decide)
  obtain ⟨p, hplaying⟩ : ∃ p, s.Playing p := by
    have hstage := hs.stage
    simp only [Stage, hphase] at hstage
    exact hstage
  obtain ⟨cards, hcards, hsame⟩ : ∃ cards, s.soLegalCards p = some cards ∧
      legal = cards.map fun c => ascii "p:" ++ soCard c := by
    have htexts := hlegal
    unfold soLegal at htexts
    rw [if_pos hctl, hphase] at htexts
    dsimp only at htexts
    rw [hplaying.turn] at htexts
    obtain ⟨cards, hcards, hsame⟩ := Option.map_eq_some_iff.mp htexts
    exact ⟨cards, hcards, hsame.symm⟩
  obtain ⟨c, hc, hpick⟩ := View.soBotPlay_some (v := s.viewOf seat talon legal)
    (soLegalCards_ne_nil hplaying.hand_ne_nil hcards) hsame hplaying.tseats_length
  have hmem : ascii "p:" ++ soCard c ∈ legal := by
    rw [hsame]
    exact List.mem_map_of_mem hc
  have hverb : soHead (ascii "p:" ++ soCard c) 2 = ascii "p:" := soHead_verb _ _ rfl
  refine (play_carries hs hphase hctl hplaying.turn hlegal (soLegalCards_mem hcards hc) hmem).moves hview
    (hbot.trans hpick) (fair_of_verb ?_)
  rw [hverb]
  decide

theorem turn_moves (hs : s.Sound) (hr : s.Ruled) (h : s.Ended) (hctl : s.soCtl = some seat) :
    ∃ t, s.BotMoves seat t := by
  obtain ⟨talon, legal, hlegal, hview⟩ : ∃ talon legal, s.soLegal seat = some legal ∧
      s.soView seat = some (s.viewOf seat talon legal) := soView_some hs h
  cases hphase : s.phase with
  | bid => exact bid_moves hs hphase hctl hlegal hview
  | discard => exact discard_moves hs hphase hctl hview
  | contract => exact contract_moves hs hr hphase hctl hlegal hview
  | whist => exact whist_moves (.inl hphase) hctl hlegal hview
  | whist2 => exact whist_moves (.inr hphase) hctl hlegal hview
  | play => exact play_moves hs hphase hctl hlegal hview
  | lobby | done | «over» => simp only [soCtl, hphase, reduceCtorEq] at hctl

theorem done_moves (hs : s.Sound) (h : s.Ended) (hphase : s.phase = .done) (hready : s.ready seat = false) :
    (∃ view, s.soView seat = some view ∧ view.soBot = some (ascii "n:")) ∧ ∃ t, s.BotMoves seat t := by
  obtain ⟨talon, legal, -, hview⟩ : ∃ talon legal, s.soLegal seat = some legal ∧
      s.soView seat = some (s.viewOf seat talon legal) := soView_some hs h
  have hbot : (s.viewOf seat talon legal).soBot = some (ascii "n:") := by
    have hnot : (s.viewOf seat talon legal).ready (s.viewOf seat talon legal).seat = false := hready
    have hover : (s.viewOf seat talon legal).phase = .done := hphase
    rw [View.soBot, if_pos hover, hnot]
    rfl
  refine ⟨⟨_, hview, hbot⟩, Carries.moves ?_ hview hbot (fair_of_verb (by decide))⟩
  have hsaid : soHead (ascii "n:") 2 = ascii "n:" := rfl
  refine ⟨_, by rw [actBody, if_neg (by decide), if_pos hsaid, if_pos hphase], ?_⟩
  split
  · exact .of_phase (by rw [(soStartHand_fresh _).1, hphase]; decide)
  · refine .of_ready fun heq => ?_
    have hseat : Function.update s.ready seat true seat = s.ready seat := congrFun heq seat
    rw [Function.update_self, hready] at hseat
    cases hseat

theorem soCtl_some (hs : s.Sound) (hdone : s.phase ≠ .done) (hover : s.phase ≠ .over) : ∃ seat, s.soCtl = some seat := by
  have hstage := hs.stage
  have hturn : s.turn ≠ none := by
    cases hphase : s.phase <;> simp only [Stage, hphase] at hstage
    case discard =>
      obtain ⟨d, hstage⟩ := hstage
      exact hstage.turn ▸ Option.some_ne_none d
    case play =>
      obtain ⟨p, hstage⟩ := hstage
      exact hstage.turn ▸ Option.some_ne_none p
    case done => exact absurd hphase hdone
    case «over» => exact absurd hphase hover
    all_goals exact hstage.turn
  obtain ⟨p, hp⟩ := Option.ne_none_iff_exists'.mp hturn
  cases hphase : s.phase <;> simp only [Stage, hphase] at hstage
  case play =>
    simp only [soCtl, hphase, hp]
    split
    · split
      · split <;> exact ⟨_, rfl⟩
      · exact ⟨_, rfl⟩
    · exact ⟨_, rfl⟩
  case done => exact absurd hphase hdone
  case «over» => exact absurd hphase hover
  all_goals exact ⟨p, by simp only [soCtl, hphase, hp]⟩

end

section

variable {s : State} {seat : Seat}

/-- The states of a table at which nobody lays away cards out of turn: new games, what the players
say and do, and what the network changes at the seats. -/
inductive AtTable : State → Prop where
  | start {s : State} (psize : 1 ≤ s.psize) : AtTable s.soNewGame
  | call {s t : State} {seat : Seat} {text r : Text} (before : AtTable s) (fair : ¬s.StrayDiscard seat text)
      (made : s.soAct seat text = some (t, r)) : AtTable t
  | net {s : State} (before : AtTable s) (names : Seat → Text) (kind : Seat → Kind) (online : Seat → Bool)
      (actid : Seat → Nat) (seq : Nat) : AtTable { s with names, kind, online, actid, seq }
  | log {s : State} (before : AtTable s) (text : Text) : AtTable (s.soLog text)

theorem AtTable.holds (h : s.AtTable) : s.Sound ∧ s.Ruled ∧ s.Ended := by
  induction h with
  | start psize =>
    refine ⟨soStartHand_sound _, (soStartHand_advance fun _ => ?_).ruled, .of_phase ?_⟩
    · exact (by decide : (0 : Int) ≤ 1).trans psize
    · rw [soNewGame, (soStartHand_fresh _).1]
      decide
  | call before fair made ih =>
    obtain ⟨t, r, hmade, ht, -⟩ := soAct_proper ih.1 fair
    cases hmade.symm.trans made
    exact ⟨ht, (soAct_advance ih.2.1 made).ruled, soAct_ended ih.1 ih.2.2 made⟩
  | @net s before names kind online actid seq ih =>
    obtain ⟨hs, hr, he⟩ := ih
    refine ⟨SameStage.sound (s := s) ⟨rfl, rfl, rfl, rfl, rfl, rfl, rfl⟩ hs, ?_, he.keep rfl rfl rfl rfl⟩
    exact ⟨hr.pools, hr.high, hr.won, hr.chosen, hr.contract, hr.tseats, hr.playing, hr.ended⟩
  | @log s before text ih =>
    obtain ⟨hs, hr, he⟩ := ih
    refine ⟨SameStage.sound (s := s) ⟨rfl, rfl, rfl, rfl, rfl, rfl, rfl⟩ hs, ?_, he.keep rfl rfl rfl rfl⟩
    exact ⟨hr.pools, hr.high, hr.won, hr.chosen, hr.contract, hr.tseats, hr.playing, hr.ended⟩

theorem BotMoves.atTable {t : State} (h : s.BotMoves seat t) (hs : s.AtTable) : t.AtTable := by
  obtain ⟨view, action, -, -, hfair, hmade⟩ := h.answers
  exact .call hs hfair hmade

/-- Bots never stall: the bot whose turn it is moves the game, after a hand each bot says that it is
ready, and so there is a move until the game is over. -/
theorem bots_never_stall (h : s.AtTable) :
    (∀ seat, s.soCtl = some seat → ∃ t, s.BotMoves seat t) ∧
      (s.phase = .done → ∀ seat, s.ready seat = false →
        (∃ view, s.soView seat = some view ∧ view.soBot = some (ascii "n:")) ∧ ∃ t, s.BotMoves seat t) ∧
      (s.phase ≠ .over → ∃ seat t, s.BotMoves seat t ∧ t.AtTable) := by
  obtain ⟨hs, hr, he⟩ := h.holds
  refine ⟨fun seat hctl => turn_moves hs hr he hctl, fun hphase seat hready => done_moves hs he hphase hready,
    fun hover => ?_⟩
  by_cases hdone : s.phase = .done
  · obtain ⟨i, hi⟩ := he.waiting hdone
    obtain ⟨t, ht⟩ := (done_moves hs he hdone hi).2
    exact ⟨i, t, ht, ht.atTable h⟩
  · obtain ⟨i, hi⟩ := soCtl_some hs hdone hover
    obtain ⟨t, ht⟩ := turn_moves hs hr he hi
    exact ⟨i, t, ht, ht.atTable h⟩

/-- Within a trick and after the hand. -/
theorem bots_never_stall_hand : ∃ s u : State,
    (s.AtTable ∧ s.phase = .play ∧ s.trick.length = 1 ∧ ∃ t, s.BotMoves secondPlayer t) ∧
      u.AtTable ∧ u.phase = .done ∧ ∃ t, u.BotMoves hostSeat t := by
  have hstart : (soTable 10 1).soNewGame.AtTable := .start (show 1 ≤ (soTable 10 1).psize by decide)
  have htrick : ((soTable 10 1).soNewGame.fairActs (firstHand.take 8)).any (fun s =>
      decide (s.phase = .play ∧ s.trick.length = 1 ∧ s.soCtl = some secondPlayer)) = true := by decide +kernel
  have hdone : ((soTable 10 1).soNewGame.fairActs firstHand).any (fun s =>
      decide (s.phase = .done ∧ s.ready hostSeat = false)) = true := by decide +kernel
  obtain ⟨s, hs, hcheck⟩ := (Option.any_eq_true ..).mp htrick
  obtain ⟨hplay, hlength, hctl⟩ := of_decide_eq_true hcheck
  obtain ⟨u, hu, hcheck⟩ := (Option.any_eq_true ..).mp hdone
  obtain ⟨hover, hready⟩ := of_decide_eq_true hcheck
  have hs' : s.AtTable := fairActs_keeps .call hstart hs
  have hu' : u.AtTable := fairActs_keeps .call hstart hu
  exact ⟨s, u, ⟨hs', hplay, hlength, (bots_never_stall hs').1 secondPlayer hctl⟩, hu', hover,
    ((bots_never_stall hu').2.1 hover hostSeat hready).2⟩

end

theorem Reachable.acts {s t : State} (h : s.Reachable) {calls : List (Seat × Text)} (hrun : s.acts calls = some t) :
    t.Reachable := by
  induction calls generalizing s with
  | nil =>
    cases hrun
    exact h
  | cons call calls ih =>
    obtain ⟨u, hu, hrun⟩ := Option.bind_eq_some_iff.mp hrun
    obtain ⟨⟨u, r⟩, hmade, rfl⟩ := Option.map_eq_some_iff.mp hu
    exact ih (.act h hmade) hrun

def emptyHand : List (Seat × Text) :=
  [(firstPlayer, ascii "b:6s"), (secondPlayer, ascii "b:pass"), (hostSeat, ascii "b:pass"),
    (firstPlayer, ascii "d:Js As"), (firstPlayer, ascii "d:7c 8d"), (firstPlayer, ascii "d:9d Qd"),
    (firstPlayer, ascii "d:Kd 7h"), (firstPlayer, ascii "d:8h 9h"), (firstPlayer, ascii "d:10d Kh"),
    (firstPlayer, ascii "c:6s"), (secondPlayer, ascii "w:whist"), (hostSeat, ascii "w:whist")]

/-- The declarer is to play a card and has none: the bot of that seat fails. -/
theorem bot_stalls :
    ∃ (s : State) (view : View), s.Reachable ∧ s.soCtl = some firstPlayer ∧ s.soView firstPlayer = some view ∧ view.soBot = none := by
  have hrun : (((soTable 10 1).soNewGame.acts emptyHand).any fun s =>
      decide (s.soCtl = some firstPlayer) && (s.soView firstPlayer).any fun view => view.soBot.isNone) = true := by
    decide +kernel
  obtain ⟨s, hs, hstalled⟩ := (Option.any_eq_true ..).mp hrun
  obtain ⟨hctl, hview⟩ := (Bool.and_eq_true _ _).mp hstalled
  obtain ⟨view, hview, hbot⟩ := (Option.any_eq_true ..).mp hview
  exact ⟨s, view, .acts (.newGame (.table rfl)) hs, of_decide_eq_true hctl, hview, Option.isNone_iff_eq_none.mp hbot⟩

end State

end Ussr.Sochi
