import Ussr.Sochi.Bots

/-! Bots never stall: in every phase of a game the bot whose turn it is makes a move that the
table takes. -/

namespace Ussr.Sochi
open Real64
open Stalin (Text)

namespace State

section

def Differs (s t : State) : Prop := { t with seq := s.seq, err := s.err } ≠ s

variable {s t u : State} {seat : Seat} {text : Text}
variable {legal : List Text}

theorem Differs.of_phase (h : t.phase ≠ s.phase) : s.Differs t := fun heq => h (by rw [← heq])

theorem Differs.of_logn (h : t.logn ≠ s.logn) : s.Differs t := fun heq => h (by rw [← heq])

theorem Differs.of_trick (h : t.trick ≠ s.trick) : s.Differs t := fun heq => h (by rw [← heq])

theorem Differs.of_ready (h : t.ready ≠ s.ready) : s.Differs t := fun heq => h (by rw [← heq])

/-- The bot of a seat sees its view and answers with an action that is no stray discard; the
table takes it, and another state comes of it. -/
structure BotMoves (s : State) (seat : Seat) (t : State) : Prop where
  answers : ∃ view action, s.soView seat = some view ∧ view.soBot = some action ∧
    ¬s.StrayDiscard seat action ∧ s.soAct seat action = some (t, [])
  differs : s.Differs t

def Carries (s : State) (seat : Seat) (text : Text) : Prop :=
  ∃ t, s.actBody seat text = some (t, []) ∧ s.Differs t

theorem Carries.moves {view : View} (h : s.Carries seat text) (hview : s.soView seat = some view)
    (hbot : view.soBot = some text) (hfair : ¬s.StrayDiscard seat text) : ∃ t, s.BotMoves seat t := by
  obtain ⟨t, hbody, hdiffers⟩ := h
  refine ⟨{ t with err := Function.update t.err seat [], seq := t.seq + 1 },
    ⟨view, text, hview, hbot, hfair, ?_⟩, hdiffers⟩
  rw [soAct, hbody]
  rfl

theorem Carries.of_turn (hverb : soHead text 2 ≠ ascii "t:" ∧ soHead text 2 ≠ ascii "n:")
    (h : ∃ t, s.turnAct seat text = some (t, []) ∧ s.Differs t) : s.Carries seat text := by
  obtain ⟨t, hturn, hdiffers⟩ := h
  refine ⟨t, ?_, hdiffers⟩
  rw [actBody, if_neg hverb.1, if_neg hverb.2, hturn]

theorem turnAct_legal (hlegal : s.soLegal seat = some legal) (hctl : s.soCtl = some seat)
    (hmem : text ∈ legal) (hverb : soHead text 2 ≠ ascii "d:") : s.turnAct seat text =
      if soHead text 2 = ascii "b:" then (s.soDoBid seat (soParseBid (text.drop 2))).map fun s => (s, [])
      else if soHead text 2 = ascii "c:" then (s.soDoContract (soParseBid (text.drop 2))).map fun s => (s, [])
      else if soHead text 2 = ascii "w:" then some (s.soDoWhist seat (text.drop 2), [])
      else if soHead text 2 = ascii "p:" then (s.playAct (text.drop 2)).map fun s => (s, [])
      else some (s, []) := by
  have hin : legal.contains text = true := List.contains_iff_mem.mpr hmem
  unfold turnAct
  rw [hlegal, Option.bind_some]
  dsimp only
  rw [if_neg fun hother => hother hctl, if_neg hverb, if_neg (by rw [hin]; decide)]

end

section

variable {s : State} {seat : Seat}

theorem soTakeTalon_phase {t : State} (h : s.soTakeTalon = some t) : t.phase = .discard := by
  unfold soTakeTalon at h
  split at h
  · cases h
    rfl
  · cases h

theorem soDoBid_differs (hphase : s.phase = .bid) {ord : Int} {t : State} (h : s.soDoBid seat ord = some t) :
    s.Differs t := by
  unfold soDoBid at h
  extract_lets called logged passes next at h
  have hmoved (u : State) (hu : u.phase ≠ .bid) : s.Differs u := .of_phase (hphase ▸ hu)
  split at h
  · cases h
    exact hmoved _ (show Phase.play ≠ .bid by decide)
  split at h
  · exact hmoved t (by rw [soTakeTalon_phase h]; decide)
  · cases h
    exact .of_logn (Nat.succ_ne_self s.logn)

theorem bid_carries (hs : s.Sound) (hphase : s.phase = .bid) (hctl : s.soCtl = some seat)
    (hlegal : s.soLegal seat = some legal) {text : Text} (hmem : text ∈ legal) (hverb : soHead text 2 = ascii "b:") :
    s.Carries seat text := by
  have hstage := hs.stage
  simp only [Stage, hphase] at hstage
  obtain ⟨t, hbid, -⟩ := soDoBid_sound hstage hphase hs.whole seat (soParseBid (text.drop 2))
  refine .of_turn (by rw [hverb]; decide) ⟨t, ?_, soDoBid_differs hphase hbid⟩
  rw [turnAct_legal hlegal hctl hmem (by rw [hverb]; decide), if_pos hverb, hbid]
  rfl

end

section

variable {s : State} {seat : Seat}

theorem discard_carries (hs : s.Sound) (hphase : s.phase = .discard) (hctl : s.soCtl = some seat) {a b : Card}
    (ha : a ∈ s.hands seat) (hb : b ∈ s.hands seat) (hab : a ≠ b) :
    s.Carries seat (ascii "d:" ++ (soCard a ++ ascii " " ++ soCard b)) := by
  have hstage := hs.stage
  simp only [Stage, hphase] at hstage
  obtain ⟨d, hstage⟩ := hstage
  have hd : d = seat := by
    simp only [soCtl, hphase, hstage.turn, Option.some.injEq] at hctl
    exact hctl
  subst hd
  obtain ⟨t, hmade, -⟩ := soDoDiscard_sound hstage hs.whole ha hb hab
  have hverb : soHead (ascii "d:" ++ (soCard a ++ ascii " " ++ soCard b)) 2 = ascii "d:" := soHead_verb _ _ rfl
  have harg : (ascii "d:" ++ (soCard a ++ ascii " " ++ soCard b)).drop 2 = soCard a ++ ascii " " ++ soCard b := by
    rw [show (2 : Nat) = (ascii "d:").length from rfl, List.drop_left]
  have hdiffers : s.Differs t := by
    have hmoved (u : State) (hu : u.phase ≠ .discard) : s.Differs u := .of_phase (hphase ▸ hu)
    unfold soDoDiscard at hmade
    rw [hstage.decl] at hmade
    dsimp only at hmade
    split at hmade
    · cases hmade
      exact hmoved _ (show Phase.play ≠ .discard by decide)
    · cases hmade
      exact hmoved _ (show Phase.contract ≠ .discard by decide)
  obtain ⟨legal, hlegal⟩ : ∃ legal, s.soLegal d = some legal := hs.soLegal_some
  refine .of_turn (by rw [hverb]; decide) ⟨t, ?_, hdiffers⟩
  unfold turnAct
  rw [hlegal, Option.bind_some]
  dsimp only
  rw [if_neg fun hother => hother hctl, if_pos hverb, harg, discardAct, soWords_pair]
  dsimp only
  rw [if_pos ⟨ha, hb, hab⟩, hmade]
  rfl

theorem Whole.nodup (h : s.Whole) (i : Seat) : (s.hands i).Nodup := by
  refine List.nodup_iff_count_le_one.mpr fun c => ?_
  have hcard := h c
  have hseat : i = hostSeat ∨ i = firstPlayer ∨ i = secondPlayer := by
    revert i
    decide
  simp only [lay, Lay.copies, seats, List.map_cons, List.map_nil, List.sum_cons, List.sum_nil] at hcard
  obtain rfl | rfl | rfl := hseat <;> omega

end

section

variable {s : State} {seat : Seat}

theorem soDoContract_differs (hphase : s.phase = .contract) {ord : Int} {t : State}
    (h : s.soDoContract ord = some t) : s.Differs t := by
  have hmoved (u : State) (hu : u.phase ≠ .contract) : s.Differs u := .of_phase (hphase ▸ hu)
  unfold soDoContract at h
  split at h
  · cases h
  · cases h
    exact hmoved _ (show Phase.whist ≠ .contract by decide)

theorem contractTexts_first {high : Int} (h : Ordinary high) :
    ∃ text, (contractTexts high).head? = some text ∧ text ∈ contractTexts high := by
  have hne : contractTexts high ≠ [] := by
    refine List.ne_nil_of_mem (a := ascii "c:" ++ soBidName high) (List.mem_map.mpr ⟨high, ?_, rfl⟩)
    refine List.mem_filter.mpr ⟨List.mem_map.mpr ⟨0, ?_, by omega⟩, decide_eq_true h.2.1⟩
    simp only [List.bind_eq_flatMap, List.pure_def, List.mem_flatMap, List.mem_range, List.mem_singleton]
    exact ⟨0, by omega, rfl⟩
  obtain ⟨text, rest, hcons⟩ := List.exists_cons_of_ne_nil hne
  exact ⟨text, by rw [hcons]; rfl, by rw [hcons]; exact List.mem_cons_self⟩

theorem contract_carries (hs : s.Sound) (hphase : s.phase = .contract) (hctl : s.soCtl = some seat) (hlegal : s.soLegal seat = some legal) {text : Text} (hmem : text ∈ legal)
    (hverb : soHead text 2 = ascii "c:") : s.Carries seat text := by
  have hstage := hs.stage
  simp only [Stage, hphase] at hstage
  obtain ⟨t, hmade, -⟩ := soDoContract_sound hstage hs.whole (soParseBid (text.drop 2))
  refine .of_turn (by rw [hverb]; decide) ⟨t, ?_, soDoContract_differs hphase hmade⟩
  rw [turnAct_legal hlegal hctl hmem (by rw [hverb]; decide), if_neg (by rw [hverb]; decide), if_pos hverb, hmade]
  rfl

end

section

variable {s : State} {seat : Seat}

theorem soWhistDone_phase (s : State) :
    s.soWhistDone.phase = .play ∨ s.soWhistDone.phase = .done ∨ s.soWhistDone.phase = .over := by
  unfold soWhistDone
  extract_lets hid f k nw opened
  split
  · exact .inr hid.soScoreHand_phase
  · split <;> exact .inl rfl

theorem soDoWhist_differs (hphase : s.phase = .whist ∨ s.phase = .whist2) (w : Text) :
    s.Differs (s.soDoWhist seat w) := by
  have hdone (t : State) : s.Differs t.soWhistDone := by
    refine .of_phase ?_
    obtain hp | hp | hp := t.soWhistDone_phase <;> obtain hq | hq := hphase <;> rw [hp, hq] <;> decide
  unfold soDoWhist
  extract_lets f k logged wst said
  split
  · exact hdone _
  · split
    · exact .of_logn (Nat.succ_ne_self s.logn)
    · split
      · exact .of_logn (Nat.succ_ne_self s.logn)
      · exact hdone _

theorem whist_carries (hphase : s.phase = .whist ∨ s.phase = .whist2) (hctl : s.soCtl = some seat) (hlegal : s.soLegal seat = some legal) {text : Text} (hmem : text ∈ legal)
    (hverb : soHead text 2 = ascii "w:") : s.Carries seat text := by
  refine .of_turn (by rw [hverb]; decide) ⟨s.soDoWhist seat (text.drop 2), ?_, soDoWhist_differs hphase _⟩
  rw [turnAct_legal hlegal hctl hmem (by rw [hverb]; decide), if_neg (by rw [hverb]; decide),
    if_neg (by rw [hverb]; decide), if_pos hverb]

end

section

variable {s : State} {seat t : Seat}

theorem soDoPlay_differs (hphase : s.phase = .play) {card : Card} {u : State}
    (h : s.soDoPlay t card = some u) : s.Differs u := by
  unfold soDoPlay at h
  extract_lets laid at h
  split at h
  next hthree =>
    unfold soTrickDone at h
    extract_lets talonLed tc at h
    split at h
    next led _ =>
      extract_lets win tricks lead after at h
      cases h
      split
      · refine .of_phase ?_
        obtain hp | hp := after.soScoreHand_phase <;> rw [hp, hphase] <;> decide
      · refine .of_trick fun heq => ?_
        have hlaid : (s.trick ++ [card]).length = 3 := hthree
        have hnone : s.trick = [] := heq.symm
        rw [hnone] at hlaid
        cases hlaid
    next => cases h
  next =>
    cases h
    exact .of_trick fun heq => List.cons_ne_nil card [] (List.append_right_eq_self.mp heq)

theorem play_carries (hs : s.Sound) (hphase : s.phase = .play) (hctl : s.soCtl = some seat) (hturn : s.turn = some t) (hlegal : s.soLegal seat = some legal) {c : Card} (hc : c ∈ s.hands t)
    (hmem : ascii "p:" ++ soCard c ∈ legal) : s.Carries seat (ascii "p:" ++ soCard c) := by
  have hstage := hs.stage
  simp only [Stage, hphase] at hstage
  obtain ⟨p, hplay⟩ := hstage
  obtain rfl : p = t := Option.some.inj (hplay.turn.symm.trans hturn)
  obtain ⟨u, hmade, -⟩ := soDoPlay_sound hplay hphase hs.whole hc
  have hverb : soHead (ascii "p:" ++ soCard c) 2 = ascii "p:" := soHead_verb _ _ rfl
  have harg : soParseCard ((ascii "p:" ++ soCard c).drop 2) = some c := by
    rw [show (2 : Nat) = (ascii "p:").length from rfl, List.drop_left, soParseCard_soCard]
  refine .of_turn (by rw [hverb]; decide) ⟨u, ?_, soDoPlay_differs hphase hmade⟩
  rw [turnAct_legal hlegal hctl hmem (by rw [hverb]; decide), if_neg (by rw [hverb]; decide),
    if_neg (by rw [hverb]; decide), if_neg (by rw [hverb]; decide), if_pos hverb, playAct, hturn, Option.bind_some,
    harg, Option.bind_some, hmade]
  rfl

theorem Playing.hand_ne_nil (h : s.Playing t) : s.hands t ≠ [] := by
  have hhand := h.hands t
  have hnot : ∀ t : Seat, ∀ k < 3, (played t k).count t = 0 := by decide
  rw [h.tseats, hnot t _ h.trick] at hhand
  have := h.trickno
  exact List.ne_nil_of_length_pos (by omega)

theorem soLegalCards_ne_nil {cards : List Card} (hne : s.hands t ≠ []) (h : s.soLegalCards t = some cards) :
    cards ≠ [] := by
  obtain ⟨led, -, rfl⟩ := Option.map_eq_some_iff.mp h
  dsimp only
  split
  · exact hne
  split
  · assumption
  split
  · assumption
  · exact hne

theorem Playing.tseats_length (h : s.Playing t) : s.tseats.length = s.trick.length := by
  have hplayed : ∀ t : Seat, ∀ k < 3, (played t k).length = k := by decide
  rw [h.tseats, hplayed t _ h.trick]

end

end State

end Ussr.Sochi
