import Ussr.Sochi.Game

/-! Legal play: the phases of a hand, where its cards are, and what the actions keep of both. -/

namespace Ussr.Sochi
open Real64
open Stalin (Text)

namespace State

structure Lay where
  hands : Seat → List Card
  decl : Option Seat
  talon : List Card
  discard : List Card
  trick : List Card
  won : List Card

def lay (s : State) : Lay := ⟨s.hands, s.decl, s.talon, s.discard, s.trick, s.won⟩

def Lay.untaken (l : Lay) : List Card := l.decl.elim l.talon fun _ => []

/-- In how many places a card is: the hands, the talon that is not taken, the discard, the trick
and the finished tricks. -/
def Lay.copies (l : Lay) (c : Card) : Nat :=
  (seats.map fun i => (l.hands i).count c).sum + l.untaken.count c + l.discard.count c +
    l.trick.count c + l.won.count c

def Whole (s : State) : Prop := ∀ c, s.lay.copies c = 1

theorem Whole.of_lay {s t : State} (hs : s.Whole) (h : t.lay = s.lay) : t.Whole := by
  intro c
  rw [h]
  exact hs c

theorem sum_update (hands : Seat → List Card) (i : Seat) (hand : List Card) (c : Card) :
    (seats.map fun j => (Function.update hands i hand j).count c).sum + (hands i).count c =
      (seats.map fun j => (hands j).count c).sum + hand.count c := by
  have hseat : i = hostSeat ∨ i = firstPlayer ∨ i = secondPlayer := by
    revert i
    decide
  obtain rfl | rfl | rfl := hseat <;>
    simp [seats, Function.update_apply, hostSeat, firstPlayer, secondPlayer] <;> omega

theorem shuffle_perm (i rng : Nat) (deck : List Card) : (shuffle i rng deck).1.Perm deck := by
  induction i generalizing rng deck with
  | zero => exact List.Perm.refl deck
  | succ i ih => exact (ih _ _).trans (List.swap_perm deck _ _)

theorem soSort_perm (cards : List Card) : (soSort cards).Perm cards := List.perm_insertionSort _ _

theorem soSort_count (cards : List Card) (c : Card) : (soSort cards).count c = cards.count c :=
  (soSort_perm cards).count_eq c

theorem soSort_length (cards : List Card) : (soSort cards).length = cards.length :=
  (soSort_perm cards).length_eq

theorem count_split (k : Nat) (cards : List Card) (c : Card) :
    (cards.take k).count c + (cards.drop k).count c = cards.count c := by
  rw [← List.count_append, List.take_append_drop]

structure Bidding (s : State) : Prop where
  decl : s.decl = none
  turn : s.turn ≠ none
  hands : ∀ i, (s.hands i).length = 10
  talon : s.talon.length = 2
  discard : s.discard = []
  trick : s.trick = []
  bidder : 0 ≤ s.high → s.hseat ≠ none

structure Discarding (s : State) (d : Seat) : Prop where
  decl : s.decl = some d
  turn : s.turn = some d
  hands : ∀ i, (s.hands i).length = if i = d then 12 else 10
  discard : s.discard = []
  trick : s.trick = []

structure Declaring (s : State) : Prop where
  decl : s.decl ≠ none
  turn : s.turn ≠ none
  hands : ∀ i, (s.hands i).length = 10
  trick : s.trick = []

/-- Who played when the next to play is `t` and `k` cards lie. -/
def played (t : Seat) : (k : Nat) → List Seat
  | 0 => []
  | 1 => [t + secondPlayer]
  | _ => [t + firstPlayer, t + secondPlayer]

structure Playing (s : State) (t : Seat) : Prop where
  turn : s.turn = some t
  trick : s.trick.length < 3
  tseats : s.tseats = played t s.trick.length
  trickno : s.trickno < 10
  hands : ∀ i, (s.hands i).length + s.trickno + s.tseats.count i = 10
  talon : s.decl = none → s.talon.length = 2

def Stage (s : State) : Prop :=
  match s.phase with
  | .lobby => False
  | .bid => s.Bidding
  | .discard => ∃ d, s.Discarding d
  | .contract | .whist | .whist2 => s.Declaring
  | .play => ∃ t, s.Playing t
  | .done | .over => True

theorem Bidding.stage {s : State} (h : s.Bidding) (hphase : s.phase = .bid) : s.Stage := by
  simp only [Stage, hphase]
  exact h

theorem Declaring.stage {s : State} (h : s.Declaring)
    (hphase : s.phase = .contract ∨ s.phase = .whist ∨ s.phase = .whist2) : s.Stage := by
  obtain hphase | hphase | hphase := hphase <;> simp only [Stage, hphase] <;> exact h

theorem Playing.stage {s : State} {t : Seat} (h : s.Playing t) (hphase : s.phase = .play) : s.Stage := by
  simp only [Stage, hphase]
  exact ⟨t, h⟩

structure Sound (s : State) : Prop where
  stage : s.Stage
  whole : s.Whole

section

theorem foldl_lay {step : State → Seat → State} (hstep : ∀ s i, (step s i).lay = s.lay) (is : List Seat)
    (s : State) : (is.foldl step s).lay = s.lay := by
  induction is generalizing s with
  | nil => rfl
  | cons i is ih => exact (ih (step s i)).trans (hstep s i)

variable (s : State)

theorem poolHelp_lay (i j : Seat) (extra : Int) : (s.poolHelp i j extra).1.lay = s.lay := by
  unfold poolHelp
  extract_lets room
  split <;> rfl

theorem soPoolAdd_lay (i : Seat) (n : Int) : (s.soPoolAdd i n).lay = s.lay := by
  unfold soPoolAdd
  extract_lets room j k
  split
  · rfl
  · split
    next s₁ extra hfirst =>
      have hs₁ : s₁.lay = s.lay := (congrArg (·.1.lay) hfirst).symm.trans (poolHelp_lay _ i j _)
      split
      next s₂ rest hsecond =>
        have hs₂ : s₂.lay = s.lay :=
          (congrArg (·.1.lay) hsecond).symm.trans ((poolHelp_lay _ i k _).trans hs₁)
        split <;> exact hs₂

theorem soScoreRaspasy_lay : s.soScoreRaspasy.lay = s.lay := by
  unfold soScoreRaspasy
  extract_lets m
  refine (foldl_lay (fun s i => ?_) seats _).trans rfl
  extract_lets t paid helped
  have hhelped : helped.lay = paid.lay := by
    unfold helped
    split
    · exact soPoolAdd_lay paid i 1
    · rfl
  exact hhelped

theorem soScoreMisere_lay (decl : Seat) : (s.soScoreMisere decl).lay = s.lay := by
  unfold soScoreMisere
  extract_lets d
  split
  · exact soPoolAdd_lay s decl 10
  · rfl

theorem scoreWhister_lay (decl : Seat) (nw : Nat) (v l o : Int) (i : Seat) :
    (s.scoreWhister decl nw v l o i).lay = s.lay := by
  unfold scoreWhister
  split
  · extract_lets d w wt share gain added named
    have hnamed : named.lay = s.lay := rfl
    split
    · exact hnamed
    · exact hnamed
  · rfl

theorem scoreDeclarer_lay (decl : Seat) (v l : Int) : (s.scoreDeclarer decl v l).lay = s.lay := by
  unfold scoreDeclarer
  extract_lets d named
  split
  · exact soPoolAdd_lay named decl v
  · rfl

theorem soScoreContract_lay (decl : Seat) : (s.soScoreContract decl).lay = s.lay := by
  unfold soScoreContract
  extract_lets l v o f k named nw paid
  split
  · have hpaid : paid.lay = s.lay := soPoolAdd_lay named decl v
    split <;> exact hpaid
  · rw [scoreWhister_lay, scoreWhister_lay, scoreDeclarer_lay]
    rfl

theorem soScoreHand_lay : s.soScoreHand.lay = s.lay := by
  unfold soScoreHand
  extract_lets scored ended
  have hscored : scored.lay = s.lay := by
    unfold scored
    split
    · exact s.soScoreRaspasy_lay
    · split
      · exact s.soScoreMisere_lay _
      · exact s.soScoreContract_lay _
  split <;> exact hscored

theorem soScoreHand_phase : s.soScoreHand.phase = .done ∨ s.soScoreHand.phase = .over := by
  unfold soScoreHand
  extract_lets scored ended
  split
  · exact .inr rfl
  · exact .inl rfl

theorem soScoreHand_sound (hwhole : s.Whole) : s.soScoreHand.Sound := by
  constructor
  · obtain hphase | hphase := s.soScoreHand_phase <;> simp only [Stage, hphase]
  · exact hwhole.of_lay s.soScoreHand_lay

end

def deck (s : State) : List Card := (shuffle 31 s.rng (List.finRange 32)).1

theorem deck_perm (s : State) : s.deck.Perm (List.finRange 32) := shuffle_perm 31 s.rng _

theorem deck_length (s : State) : s.deck.length = 32 := s.deck_perm.length_eq.trans List.length_finRange

theorem deck_count (s : State) (c : Card) : s.deck.count c = 1 :=
  (s.deck_perm.count_eq c).trans (List.count_finRange c)

def dealt (cards : List Card) : Lay where
  hands i := soSort ((cards.drop (i.val * 10)).take 10)
  decl := none
  talon := cards.drop 30
  discard := []
  trick := []
  won := []

theorem dealt_copies (cards : List Card) (c : Card) : (dealt cards).copies c = cards.count c := by
  have hfirst := count_split 10 cards c
  have hsecond := count_split 10 (cards.drop 10) c
  have hthird := count_split 10 (cards.drop 20) c
  rw [List.drop_drop] at hsecond hthird
  simp only [dealt, Lay.copies, Lay.untaken, Option.elim_none, seats, hostSeat, firstPlayer, secondPlayer,
    List.map_cons, List.map_nil, List.sum_cons, List.sum_nil, soSort_count, List.count_nil]
  simp only [Fin.val_zero, Fin.val_one, Fin.val_two, Nat.zero_mul, List.drop_zero, Nat.one_mul, Nat.reduceMul,
    Nat.reduceAdd] at hsecond hthird ⊢
  omega

theorem dealt_hands (cards : List Card) (hcards : cards.length = 32) (i : Seat) :
    ((dealt cards).hands i).length = 10 := by
  have hi := i.isLt
  simp only [dealt, soSort_length, List.length_take, List.length_drop, hcards]
  omega

theorem dealt_talon (cards : List Card) (hcards : cards.length = 32) : (dealt cards).talon.length = 2 := by
  simp only [dealt, List.length_drop, hcards]

theorem soStartHand_fresh (s : State) :
    s.soStartHand.phase = .bid ∧ s.soStartHand.turn ≠ none ∧ s.soStartHand.high = -1 ∧
      s.soStartHand.lay = dealt s.deck := by
  unfold soStartHand deck
  extract_lets dealer
  cases shuffle 31 s.rng (List.finRange 32) with
  | mk cards rng => exact ⟨rfl, Option.some_ne_none _, rfl, rfl⟩

theorem soStartHand_sound (s : State) : s.soStartHand.Sound := by
  obtain ⟨hphase, hturn, hhigh, hlay⟩ := s.soStartHand_fresh
  generalize s.soStartHand = t at hphase hturn hhigh hlay ⊢
  constructor
  · simp only [Stage, hphase]
    refine ⟨congrArg Lay.decl hlay, hturn, fun i => ?_, ?_, congrArg Lay.discard hlay,
      congrArg Lay.trick hlay, fun h => ?_⟩
    · have hhand : t.hands i = (dealt s.deck).hands i := congrFun (congrArg Lay.hands hlay) i
      rw [hhand, dealt_hands _ s.deck_length]
    · have htalon : t.talon = (dealt s.deck).talon := congrArg Lay.talon hlay
      rw [htalon, dealt_talon _ s.deck_length]
    · rw [hhigh] at h
      omega
  · intro c
    rw [hlay, dealt_copies, deck_count]

section

variable {s : State}

theorem soStartPlay_sound (hwhole : s.Whole) (htrick : s.trick = []) (hands : ∀ i, (s.hands i).length = 10)
    (htalon : s.decl = none → s.talon.length = 2) : s.soStartPlay.Sound := by
  constructor
  · have hplay : s.soStartPlay.Playing s.soForehand :=
      ⟨rfl, Nat.zero_lt_succ 2, rfl, Nat.zero_lt_succ 9, hands, htalon⟩
    exact ⟨s.soForehand, hplay⟩
  · refine hwhole.of_lay ?_
    simp only [lay, soStartPlay, htrick]

theorem soTakeTalon_sound {d : Seat} (hwhole : ({ s with decl := none } : State).Whole) (hdecl : s.decl = some d)
    (hands : ∀ i, (s.hands i).length = 10) (htalon : s.talon.length = 2) (hdiscard : s.discard = [])
    (htrick : s.trick = []) : ∃ t, s.soTakeTalon = some t ∧ t.Sound := by
  obtain ⟨t₀, t₁, htwo⟩ := List.length_eq_two.mp htalon
  refine ⟨_, by simp only [soTakeTalon, hdecl, htwo]; rfl, ?_, fun c => ?_⟩
  · have htook : (soSort (s.hands d ++ [t₀, t₁])).length = 12 := by
      rw [soSort_length, List.length_append, hands d]
      rfl
    refine ⟨d, rfl, rfl, fun i => ?_, hdiscard, htrick⟩
    show (Function.update s.hands d (soSort (s.hands d ++ [t₀, t₁])) i).length = _
    by_cases hi : i = d
    · rw [hi, Function.update_self, htook, if_pos rfl]
    · rw [Function.update_of_ne hi, hands i, if_neg hi]
  · have hcard := hwhole c
    have hsum := sum_update s.hands d (soSort (s.hands d ++ [t₀, t₁])) c
    rw [soSort_count, List.count_append] at hsum
    simp only [lay, Lay.copies, Lay.untaken, htwo, Option.elim_none] at hcard
    simp only [lay, Lay.copies, Lay.untaken, soLog, Option.elim_some, List.count_nil]
    omega

theorem soStartRaspasy_sound (h : s.Bidding) (hwhole : s.Whole) : s.soStartRaspasy.Sound := by
  refine soStartPlay_sound (fun c => ?_) h.trick h.hands fun _ => h.talon
  have hcard := hwhole c
  simp only [lay, h.decl] at hcard
  exact hcard

theorem soDoBid_sound (h : s.Bidding) (hphase : s.phase = .bid) (hwhole : s.Whole) (seat : Seat) (ord : Int) :
    ∃ t, s.soDoBid seat ord = some t ∧ t.Sound := by
  unfold soDoBid
  extract_lets called logged passes next
  have hbid : logged.Bidding := by
    refine ⟨h.decl, h.turn, h.hands, h.talon, h.discard, h.trick, fun hhigh => ?_⟩
    by_cases hord : 0 ≤ ord
    · show (if 0 ≤ ord then some seat else s.hseat) ≠ none
      rw [if_pos hord]
      exact Option.some_ne_none seat
    · have hold : 0 ≤ (if 0 ≤ ord then ord else s.high) := hhigh
      show (if 0 ≤ ord then some seat else s.hseat) ≠ none
      rw [if_neg hord] at hold ⊢
      exact h.bidder hold
  have hkept : logged.Whole := hwhole.of_lay rfl
  split
  · exact ⟨_, rfl, soStartRaspasy_sound hbid hkept⟩
  · split
    next hwon =>
      obtain ⟨d, hd⟩ := Option.ne_none_iff_exists'.mp (hbid.bidder hwon.2)
      refine soTakeTalon_sound (hkept.of_lay ?_) hd hbid.hands hbid.talon hbid.discard hbid.trick
      simp only [lay, hbid.decl]
    · refine ⟨_, rfl, ?_, hkept.of_lay rfl⟩
      have hstay : ({ logged with turn := some (if logged.bids next = -1 then soNext (some next) else next) } :
          State).Bidding :=
        { hbid with turn := Option.some_ne_none _ }
      exact hstay.stage hphase

theorem soDoDiscard_sound {d : Seat} (h : s.Discarding d) (hwhole : s.Whole) {a b : Card} (ha : a ∈ s.hands d)
    (hb : b ∈ s.hands d) (hab : a ≠ b) : ∃ t, s.soDoDiscard a b = some t ∧ t.Sound := by
  have hb' : b ∈ (s.hands d).erase a := (List.mem_erase_of_ne hab.symm).mpr hb
  have hleft : (((s.hands d).erase a).erase b).length = 10 := by
    rw [List.length_erase_of_mem hb', List.length_erase_of_mem ha, h.hands d, if_pos rfl]
  have hhands (i : Seat) :
      (Function.update s.hands d (((s.hands d).erase a).erase b) i).length = 10 := by
    by_cases hi : i = d
    · rw [hi, Function.update_self, hleft]
    · rw [Function.update_of_ne hi, h.hands i, if_neg hi]
  have hkept : ({ s with
      hands := Function.update s.hands d (((s.hands d).erase a).erase b)
      discard := soSort [a, b] } : State).Whole := by
    intro c
    have hcard := hwhole c
    have hsum := sum_update s.hands d (((s.hands d).erase a).erase b) c
    have hperm := ((List.perm_cons_erase ha).trans ((List.perm_cons_erase hb').cons a)).count_eq c
    have hpair : [a, b].count c + (((s.hands d).erase a).erase b).count c =
        (a :: b :: ((s.hands d).erase a).erase b).count c := List.count_append.symm
    simp only [lay, Lay.copies, Lay.untaken, h.discard, List.count_nil] at hcard
    simp only [lay, Lay.copies, Lay.untaken, soSort_count]
    omega
  unfold soDoDiscard
  simp only [h.decl]
  split
  · refine ⟨_, rfl, soStartPlay_sound (hkept.of_lay ?_) h.trick hhands fun hnone => ?_⟩
    · simp only [lay, soLog, h.decl]
    · simp only [soLog, reduceCtorEq] at hnone
  · refine ⟨_, rfl, ?_, hkept.of_lay ?_⟩
    · have hdecl : ({ s with
          hands := Function.update s.hands d (((s.hands d).erase a).erase b)
          discard := soSort [a, b]
          phase := .contract
          turn := some d } : State).Declaring := by
        refine ⟨?_, Option.some_ne_none d, hhands, h.trick⟩
        simp only [h.decl, ne_eq, reduceCtorEq, not_false_eq_true]
      simp only [h.decl] at hdecl
      exact hdecl.stage (.inl rfl)
    · simp only [lay, h.decl]

theorem soDoContract_sound (h : s.Declaring) (hwhole : s.Whole) (ord : Int) :
    ∃ t, s.soDoContract ord = some t ∧ t.Sound := by
  obtain ⟨d, hd⟩ := Option.ne_none_iff_exists'.mp h.decl
  refine ⟨_, by simp only [soDoContract, hd]; rfl, ?_, hwhole.of_lay ?_⟩
  · refine Declaring.stage ⟨?_, Option.some_ne_none _, h.hands, h.trick⟩ (.inr (.inl rfl))
    exact Option.some_ne_none d
  · simp only [lay, soLog, hd]

theorem soWhistDone_sound (h : s.Declaring) (hwhole : s.Whole) : s.soWhistDone.Sound := by
  unfold soWhistDone
  extract_lets hid f k nw opened
  have hkept : hid.Whole := hwhole.of_lay rfl
  have htalon (hnone : s.decl = none) : s.talon.length = 2 := absurd hnone h.decl
  split
  · exact hid.soScoreHand_sound hkept
  · split
    · exact soStartPlay_sound (hkept.of_lay rfl) h.trick h.hands htalon
    · exact soStartPlay_sound hkept h.trick h.hands htalon

theorem soDoWhist_sound (h : s.Declaring) (hphase : s.phase = .whist ∨ s.phase = .whist2) (hwhole : s.Whole)
    (seat : Seat) (w : Text) : (s.soDoWhist seat w).Sound := by
  unfold soDoWhist
  extract_lets f k logged wst said
  have hlogged : logged.Declaring := ⟨h.decl, h.turn, h.hands, h.trick⟩
  split
  · exact soWhistDone_sound ⟨h.decl, h.turn, h.hands, h.trick⟩ (hwhole.of_lay rfl)
  · split
    · refine ⟨Declaring.stage ⟨h.decl, Option.some_ne_none k, h.hands, h.trick⟩ (.inr hphase), hwhole.of_lay rfl⟩
    · split
      · refine ⟨Declaring.stage ⟨h.decl, Option.some_ne_none f, h.hands, h.trick⟩ (.inr (.inr rfl)), hwhole.of_lay rfl⟩
      · exact soWhistDone_sound ⟨h.decl, h.turn, h.hands, h.trick⟩ (hwhole.of_lay rfl)

theorem played_three : ∀ t i : Seat, (played t 2 ++ [t]).count i = 1 := by decide

theorem played_next : ∀ t : Seat, ∀ k < 2, played t k ++ [t] = played (soNext (some t)) (k + 1) := by decide

theorem ledSuit_some (htrick : s.trick ≠ []) (htalon : s.decl = none → s.talon.length = 2) :
    ∃ led, s.ledSuit = some (some led) := by
  unfold ledSuit
  split
  next h =>
    have hlen : s.trickno < s.talon.length := by rw [htalon h.1]; exact h.2
    exact ⟨suit s.talon[s.trickno], by rw [List.getElem?_eq_getElem hlen]; rfl⟩
  next =>
    obtain ⟨c, cs, htrick⟩ := List.exists_cons_of_ne_nil htrick
    exact ⟨suit c, by rw [htrick]; rfl⟩

theorem soTrickDone_sound (hphase : s.phase = .play) (hwhole : s.Whole) (htrick : s.trick.length = 3)
    (htrickno : s.trickno < 10) (hhands : ∀ i, (s.hands i).length + s.trickno + 1 = 10)
    (htalon : s.decl = none → s.talon.length = 2) : ∃ t, s.soTrickDone = some t ∧ t.Sound := by
  have hne : s.trick ≠ [] := List.ne_nil_of_length_eq_add_one htrick
  obtain ⟨led, hled⟩ := ledSuit_some hne htalon
  unfold soTrickDone
  extract_lets talonLed tc
  split
  · next led' _ =>
    extract_lets win tricks lead t
    refine ⟨_, rfl, ?_⟩
    obtain ⟨l, hlead⟩ : ∃ l, lead = some l := by
      unfold lead
      split
      next hwin => exact Option.ne_none_iff_exists'.mp hwin.1
      next => exact ⟨_, rfl⟩
    have hkept : t.Whole := by
      intro c
      have hcard := hwhole c
      simp only [lay, Lay.copies, Lay.untaken] at hcard
      simp only [t, lay, Lay.copies, Lay.untaken, List.count_append, List.count_nil]
      omega
    split
    · exact t.soScoreHand_sound hkept
    next hlast =>
      have hnumber : s.trickno + 1 ≠ 10 := hlast
      have hplay : t.Playing l := by
        refine ⟨hlead, Nat.zero_lt_succ 2, rfl, ?_, fun i => ?_, htalon⟩
        · show s.trickno + 1 < 10
          omega
        · have hi := hhands i
          show (s.hands i).length + (s.trickno + 1) + 0 = 10
          omega
      exact ⟨hplay.stage hphase, hkept⟩
  · next hother => exact absurd hled (hother led)

theorem soDoPlay_sound {t : Seat} (h : s.Playing t) (hphase : s.phase = .play) (hwhole : s.Whole) {c : Card}
    (hc : c ∈ s.hands t) : ∃ u, s.soDoPlay t c = some u ∧ u.Sound := by
  unfold soDoPlay
  extract_lets laid
  have hkept : laid.Whole := by
    intro x
    have hcard := hwhole x
    have hsum := sum_update s.hands t ((s.hands t).erase c) x
    have hperm := (List.perm_cons_erase hc).count_eq x
    have hone : [c].count x + ((s.hands t).erase c).count x = (c :: (s.hands t).erase c).count x :=
      List.count_append.symm
    simp only [lay, Lay.copies, Lay.untaken] at hcard
    simp only [laid, lay, Lay.copies, Lay.untaken, List.count_append]
    omega
  have hlen : laid.trick.length = s.trick.length + 1 := List.length_append
  have hcount (i : Seat) : (laid.hands i).length + s.trickno + laid.tseats.count i = 10 := by
    have hi := h.hands i
    show (Function.update s.hands t ((s.hands t).erase c) i).length + s.trickno + (s.tseats ++ [t]).count i = 10
    rw [List.count_append]
    by_cases heq : i = t
    · have hpos := List.length_pos_of_mem hc
      rw [heq] at hi ⊢
      rw [Function.update_self, List.length_erase_of_mem hc, List.count_singleton_self]
      omega
    · rw [Function.update_of_ne heq, List.count_singleton, if_neg (by simpa using Ne.symm heq)]
      exact hi
  split
  next hthree =>
    have htwo : s.trick.length = 2 := by omega
    refine soTrickDone_sound hphase hkept hthree h.trickno (fun i => ?_) h.talon
    have hi := hcount i
    have hall : laid.tseats.count i = 1 := by
      show (s.tseats ++ [t]).count i = 1
      rw [h.tseats, htwo, played_three]
    rw [hall] at hi
    exact hi
  next hthree =>
    have hfew := h.trick
    have htwo : s.trick.length < 2 := by omega
    have hplay : ({ laid with turn := some (soNext (some t)) } : State).Playing (soNext (some t)) := by
      refine ⟨rfl, ?_, ?_, h.trickno, hcount, h.talon⟩
      · show laid.trick.length < 3
        omega
      · show s.tseats ++ [t] = played (soNext (some t)) laid.trick.length
        rw [hlen, h.tseats, played_next t _ htwo]
    exact ⟨_, rfl, hplay.stage hphase, hkept.of_lay rfl⟩

end

section

variable {s : State} {seat : Seat}

theorem soLegalCards_mem {t : Seat} {cards : List Card} (h : s.soLegalCards t = some cards) {c : Card}
    (hc : c ∈ cards) : c ∈ s.hands t := by
  obtain ⟨led, -, rfl⟩ := Option.map_eq_some_iff.mp h
  dsimp only at hc
  split at hc
  · exact hc
  · split at hc
    · exact List.mem_of_mem_filter hc
    · split at hc
      · exact List.mem_of_mem_filter hc
      · exact hc

inductive LegalText (s : State) (text : Text) : Prop where
  | bid (phase : s.phase = .bid) (verb : soHead text 2 = ascii "b:")
  | discard (phase : s.phase = .discard) (verb : soHead text 2 = ascii "d:")
  | contract (phase : s.phase = .contract) (verb : soHead text 2 = ascii "c:")
  | whist (phase : s.phase = .whist ∨ s.phase = .whist2) (verb : soHead text 2 = ascii "w:")
  | play (phase : s.phase = .play) (t : Seat) (turn : s.turn = some t) (c : Card) (hc : c ∈ s.hands t)
    (card : text = ascii "p:" ++ soCard c)

theorem soHead_verb (verb rest : Text) (h : verb.length = 2) : soHead (verb ++ rest) 2 = verb := by
  rw [soHead, ← h, List.take_left]

theorem bidTexts_verb {high mine : Int} {text : Text} (h : text ∈ bidTexts high mine) :
    soHead text 2 = ascii "b:" := by
  obtain ⟨o, -, ho⟩ := List.mem_flatMap.mp h
  split at ho
  · obtain hbid | hmis := List.mem_append.mp ho
    · split at hbid
      · rw [List.mem_singleton.mp hbid]
        exact soHead_verb _ _ rfl
      · cases hbid
    · split at hmis
      · rw [List.mem_singleton.mp hmis]
        rfl
      · cases hmis
  · cases ho

theorem contractTexts_verb {high : Int} {text : Text} (h : text ∈ contractTexts high) :
    soHead text 2 = ascii "c:" := by
  obtain ⟨o, -, rfl⟩ := List.mem_map.mp h
  exact soHead_verb _ _ rfl

theorem whistTexts_verb {p : Prop} [Decidable p] {text : Text}
    (h : text ∈ [ascii "w:whist", ascii "w:pass"] ++ if p then [ascii "w:half"] else []) :
    soHead text 2 = ascii "w:" := by
  obtain htwo | hhalf := List.mem_append.mp h
  · obtain rfl | hpass := List.mem_cons.mp htwo
    · rfl
    · rw [List.mem_singleton.mp hpass]
      rfl
  · split at hhalf
    · rw [List.mem_singleton.mp hhalf]
      rfl
    · cases hhalf

theorem soLegal_text {legal : List Text} (h : s.soLegal seat = some legal) {text : Text} (ht : text ∈ legal) :
    s.LegalText text := by
  unfold soLegal at h
  split at h
  · split at h
    next hphase =>
      obtain rfl := Option.some.inj h
      refine .bid hphase ?_
      obtain rfl | hbid := List.mem_cons.mp ht
      · rfl
      · split at hbid
        · cases hbid
        · exact bidTexts_verb hbid
    next hphase =>
      obtain rfl := Option.some.inj h
      refine .discard hphase ?_
      rw [List.mem_singleton.mp ht]
      rfl
    next hphase =>
      obtain rfl := Option.some.inj h
      exact .contract hphase (contractTexts_verb ht)
    next hphase =>
      obtain rfl := Option.some.inj h
      exact .whist (.inl hphase) (whistTexts_verb ht)
    next hphase =>
      obtain rfl := Option.some.inj h
      exact .whist (.inr hphase) (whistTexts_verb ht)
    next hphase =>
      split at h
      · cases h
      next t hturn =>
        obtain ⟨cards, hcards, rfl⟩ := Option.map_eq_some_iff.mp h
        obtain ⟨c, hc, rfl⟩ := List.mem_map.mp ht
        exact .play hphase t hturn c (soLegalCards_mem hcards hc) rfl
    next =>
      obtain rfl := Option.some.inj h
      cases ht
  · obtain rfl := Option.some.inj h
    cases ht

theorem Sound.soLegal_some (h : s.Sound) : ∃ legal, s.soLegal seat = some legal := by
  unfold soLegal
  split
  · split
    case h_6 hphase =>
      have hstage := h.stage
      simp only [Stage, hphase] at hstage
      obtain ⟨t, hplay⟩ := hstage
      obtain ⟨led, hled⟩ : ∃ led, s.ledSuit = some led := by
        unfold ledSuit
        split
        next htalon =>
          have hlen : s.trickno < s.talon.length := by rw [hplay.talon htalon.1]; exact htalon.2
          exact ⟨_, by rw [List.getElem?_eq_getElem hlen]; rfl⟩
        next => exact ⟨_, rfl⟩
      rw [hplay.turn]
      exact ⟨_, by simp only [soLegalCards, hled]; rfl⟩
    all_goals exact ⟨_, rfl⟩
  · exact ⟨_, rfl⟩

end

section

variable {s t : State} {seat : Seat} {text : Text}

structure SameStage (s t : State) : Prop where
  lay : t.lay = s.lay
  phase : t.phase = s.phase
  turn : t.turn = s.turn
  high : t.high = s.high
  hseat : t.hseat = s.hseat
  tseats : t.tseats = s.tseats
  trickno : t.trickno = s.trickno

theorem SameStage.sound (h : SameStage s t) (hs : s.Sound) : t.Sound := by
  have hhands : t.hands = s.hands := congrArg Lay.hands h.lay
  have hdecl : t.decl = s.decl := congrArg Lay.decl h.lay
  have htalon : t.talon = s.talon := congrArg Lay.talon h.lay
  have hdiscard : t.discard = s.discard := congrArg Lay.discard h.lay
  have htrick : t.trick = s.trick := congrArg Lay.trick h.lay
  refine ⟨?_, hs.whole.of_lay h.lay⟩
  have hstage := hs.stage
  cases hphase : s.phase <;> simp only [Stage, hphase] at hstage <;> simp only [Stage, h.phase, hphase]
  case bid =>
    refine ⟨hdecl.trans hstage.decl, h.turn ▸ hstage.turn, hhands ▸ hstage.hands, htalon ▸ hstage.talon,
      hdiscard.trans hstage.discard, htrick.trans hstage.trick, ?_⟩
    rw [h.high, h.hseat]
    exact hstage.bidder
  case discard =>
    obtain ⟨d, hstage⟩ := hstage
    exact ⟨d, hdecl.trans hstage.decl, h.turn.trans hstage.turn, hhands ▸ hstage.hands,
      hdiscard.trans hstage.discard, htrick.trans hstage.trick⟩
  case play =>
    obtain ⟨p, hstage⟩ := hstage
    refine ⟨p, h.turn.trans hstage.turn, htrick ▸ hstage.trick, ?_, h.trickno ▸ hstage.trickno, fun i => ?_, ?_⟩
    · rw [h.tseats, htrick]
      exact hstage.tseats
    · rw [hhands, h.trickno, h.tseats]
      exact hstage.hands i
    · rw [hdecl, htalon]
      exact hstage.talon
  all_goals exact ⟨hdecl ▸ hstage.decl, h.turn ▸ hstage.turn, hhands ▸ hstage.hands, htrick.trans hstage.trick⟩

def board (s : State) : (Seat → List Card) × (Seat → Int) × Int × (Seat → Text) × List Card × Phase :=
  (s.hands, s.bids, s.contract, s.wst, s.trick, s.phase)

/-- `d:` and two different cards of a hand. -/
def TwoOwnCards (s : State) (seat : Seat) (text : Text) : Prop :=
  soHead text 2 = ascii "d:" ∧ ∃ a ∈ s.hands seat, ∃ b ∈ s.hands seat, a ≠ b ∧
    (soWords (text.drop 2)).map soParseCard = [some a, some b]

/-- Two cards laid away when there is nothing to lay away: `so_act` does not look at the phase. -/
def StrayDiscard (s : State) (seat : Seat) (text : Text) : Prop :=
  s.phase ≠ .discard ∧ s.soCtl = some seat ∧ s.TwoOwnCards seat text

def Allowed (s : State) (seat : Seat) (text : Text) : Prop :=
  (∃ legal, s.soLegal seat = some legal ∧ text ∈ legal) ∨
    (s.phase = .discard ∧ s.decl = some seat ∧ s.TwoOwnCards seat text) ∨
    (s.phase = .done ∧ soHead text 2 = ascii "n:" ∧ ∀ i, i ≠ seat → s.ready i = true)

def Proper (s : State) (seat : Seat) (text : Text) (made : Option (State × Text)) : Prop :=
  ∃ t r, made = some (t, r) ∧ t.Sound ∧ (t.board = s.board ∨ s.Allowed seat text)

theorem Proper.refused (h : s.Sound) (r : Text) : s.Proper seat text (some (s, r)) := ⟨s, r, rfl, h, .inl rfl⟩

theorem Proper.done {made : Option State} (h : ∃ t, made = some t ∧ t.Sound) (hallowed : s.Allowed seat text) :
    s.Proper seat text (made.map fun s => (s, [])) := by
  obtain ⟨t, rfl, ht⟩ := h
  exact ⟨t, [], rfl, ht, .inr hallowed⟩

theorem discard_proper (h : s.Sound) (hctl : s.soCtl = some seat) (hverb : soHead text 2 = ascii "d:")
    (hfair : ¬s.StrayDiscard seat text) {a b : Card} (ha : a ∈ s.hands seat) (hb : b ∈ s.hands seat) (hab : a ≠ b)
    (hwords : (soWords (text.drop 2)).map soParseCard = [some a, some b]) :
    s.Proper seat text ((s.soDoDiscard a b).map fun s => (s, [])) := by
  have htwo : s.TwoOwnCards seat text := ⟨hverb, a, ha, b, hb, hab, hwords⟩
  have hphase : s.phase = .discard := by
    by_contra hphase
    exact hfair ⟨hphase, hctl, htwo⟩
  have hstage := h.stage
  simp only [Stage, hphase] at hstage
  obtain ⟨d, hstage⟩ := hstage
  have hseat : d = seat := by
    simp only [soCtl, hphase, hstage.turn, Option.some.injEq] at hctl
    exact hctl
  subst hseat
  exact .done (soDoDiscard_sound hstage h.whole ha hb hab) (.inr (.inl ⟨hphase, hstage.decl, htwo⟩))

theorem turnAct_proper (h : s.Sound) (hfair : ¬s.StrayDiscard seat text) :
    s.Proper seat text (s.turnAct seat text) := by
  obtain ⟨legal, hlegal⟩ : ∃ legal, s.soLegal seat = some legal := h.soLegal_some
  unfold turnAct
  rw [hlegal, Option.bind_some]
  extract_lets verb arg
  split
  · exact .refused h _
  next hctl =>
  have hctl : s.soCtl = some seat := not_not.mp hctl
  split
  next hverb =>
    unfold discardAct
    split
    next a b hwords =>
      split
      next hab => exact discard_proper h hctl hverb hfair hab.1 hab.2.1 hab.2.2 hwords
      next => exact .refused h _
    next => exact .refused h _
  next hnotd =>
  split
  · exact .refused h _
  next hmem =>
  have hmem : text ∈ legal := List.contains_iff_mem.mp (Bool.eq_true_of_not_eq_false hmem)
  have hallowed : s.Allowed seat text := .inl ⟨legal, hlegal, hmem⟩
  have hstage := h.stage
  cases soLegal_text hlegal hmem with
  | bid hphase hverb =>
    simp only [Stage, hphase] at hstage
    rw [if_pos hverb]
    exact .done (soDoBid_sound hstage hphase h.whole seat _) hallowed
  | discard hphase hverb => exact absurd hverb hnotd
  | contract hphase hverb =>
    simp only [Stage, hphase] at hstage
    have hb : verb ≠ ascii "b:" := by
      rw [show verb = ascii "c:" from hverb]
      decide
    rw [if_neg hb, if_pos hverb]
    exact .done (soDoContract_sound hstage h.whole _) hallowed
  | whist hphase hverb =>
    have hdeclaring : s.Declaring := by
      obtain hphase | hphase := hphase <;> simp only [Stage, hphase] at hstage <;> exact hstage
    have hverbs : verb ≠ ascii "b:" ∧ verb ≠ ascii "c:" := by
      rw [show verb = ascii "w:" from hverb]
      decide
    rw [if_neg hverbs.1, if_neg hverbs.2, if_pos hverb]
    exact ⟨_, _, rfl, soDoWhist_sound hdeclaring hphase h.whole seat arg, .inr hallowed⟩
  | play hphase t hturn c hc hcard =>
    simp only [Stage, hphase] at hstage
    obtain ⟨u, hplay⟩ := hstage
    obtain rfl : u = t := Option.some.inj (hplay.turn.symm.trans hturn)
    have hverb : verb = ascii "p:" := by
      rw [show verb = soHead text 2 from rfl, hcard]
      exact soHead_verb _ _ rfl
    have harg : soParseCard arg = some c := by
      rw [show arg = text.drop 2 from rfl, hcard, show (2 : Nat) = (ascii "p:").length from rfl, List.drop_left,
        soParseCard_soCard]
    have hverbs : verb ≠ ascii "b:" ∧ verb ≠ ascii "c:" ∧ verb ≠ ascii "w:" := by
      rw [hverb]
      decide
    rw [if_neg hverbs.1, if_neg hverbs.2.1, if_neg hverbs.2.2, if_pos hverb]
    unfold playAct
    rw [hturn, harg, Option.bind_some, Option.bind_some]
    exact .done (soDoPlay_sound hplay hphase h.whole hc) hallowed

theorem mem_seats : ∀ i : Seat, i ∈ seats := by decide

theorem actBody_proper (h : s.Sound) (hfair : ¬s.StrayDiscard seat text) :
    s.Proper seat text (s.actBody seat text) := by
  unfold actBody
  split
  · refine ⟨_, _, rfl, ?_, .inl ?_⟩
    · split
      · exact h
      · exact SameStage.sound (s := s) ⟨rfl, rfl, rfl, rfl, rfl, rfl, rfl⟩ h
    · split <;> rfl
  · split
    next hverb =>
      split
      next hphase =>
        refine ⟨_, _, rfl, ?_⟩
        split
        next hready =>
          refine ⟨soStartHand_sound _, .inr (.inr (.inr ⟨hphase, hverb, fun i hi => ?_⟩))⟩
          have hall : Function.update s.ready seat true i = true := List.all_eq_true.mp hready i (mem_seats i)
          rwa [Function.update_of_ne hi] at hall
        next => exact ⟨SameStage.sound (s := s) ⟨rfl, rfl, rfl, rfl, rfl, rfl, rfl⟩ h, .inl rfl⟩
      next => exact .refused h _
    next => exact turnAct_proper h hfair

theorem soAct_proper (h : s.Sound) (hfair : ¬s.StrayDiscard seat text) : s.Proper seat text (s.soAct seat text) := by
  obtain ⟨t, r, hbody, ht, hchange⟩ := actBody_proper h hfair
  refine ⟨{ t with err := Function.update t.err seat r, seq := t.seq + 1 }, r, by rw [soAct, hbody]; rfl, SameStage.sound (s := t) ⟨rfl, rfl, rfl, rfl, rfl, rfl, rfl⟩ ht, ?_⟩
  exact hchange

/-- The states of a game: from `so_new_game`, any calls but stray discards. -/
inductive Played : State → Prop where
  | start (s : State) : Played s.soNewGame
  | call {s t : State} {seat : Seat} {text r : Text} (before : Played s) (fair : ¬s.StrayDiscard seat text)
      (made : s.soAct seat text = some (t, r)) : Played t

theorem Played.sound (h : s.Played) : s.Sound := by
  induction h with
  | start s => exact soStartHand_sound _
  | call before fair made ih =>
    obtain ⟨t, r, hmade, ht, -⟩ := soAct_proper ih fair
    rw [hmade] at made
    cases made
    exact ht

/-- Legal play: no call fails but a stray discard, the board changes as the rules allow, every card
is in one place, and the hands are equally long when a trick starts. -/
theorem played_legal (h : s.Played) :
    (∀ c, s.lay.copies c = 1) ∧
      (s.phase = .play → s.trick = [] → ∀ i j, (s.hands i).length = (s.hands j).length) ∧
      ∀ seat text, ¬s.StrayDiscard seat text →
        ∃ t r, s.soAct seat text = some (t, r) ∧ (t.board = s.board ∨ s.Allowed seat text) := by
  refine ⟨h.sound.whole, fun hphase htrick i j => ?_, fun seat text hfair => ?_⟩
  · have hstage := h.sound.stage
    simp only [Stage, hphase] at hstage
    obtain ⟨p, hstage⟩ := hstage
    have hnobody : s.tseats = [] := by rw [hstage.tseats, htrick]; rfl
    have hi := hstage.hands i
    have hj := hstage.hands j
    rw [hnobody, List.count_nil] at hi hj
    omega
  · obtain ⟨t, r, hmade, -, hchange⟩ := soAct_proper h.sound hfair
    exact ⟨t, r, hmade, hchange⟩

def acts (s : State) (calls : List (Seat × Text)) : Option State :=
  calls.foldlM (fun s call => (s.soAct call.1 call.2).map (·.1)) s

/-- Calls of which none is a stray discard. -/
def fairActs (s : State) (calls : List (Seat × Text)) : Option State :=
  calls.foldlM (fun s call => if s.phase = .discard ∨ soHead call.2 2 ≠ ascii "d:" then s.acts [call] else none) s

theorem fairActs_keeps {P : State → Prop} (hcall : ∀ {s t : State} {seat : Seat} {text r : Text}, P s →
    ¬s.StrayDiscard seat text → s.soAct seat text = some (t, r) → P t) {s t : State} {calls : List (Seat × Text)}
    (hs : P s) (hrun : s.fairActs calls = some t) : P t := by
  induction calls generalizing s with
  | nil =>
    cases hrun
    exact hs
  | cons call calls ih =>
    obtain ⟨u, hu, hrun⟩ := Option.bind_eq_some_iff.mp hrun
    dsimp only at hu
    split at hu
    next hfair =>
      obtain ⟨u', hu', hlast⟩ := Option.bind_eq_some_iff.mp hu
      obtain rfl := Option.some.inj hlast
      obtain ⟨⟨u, r⟩, hmade, rfl⟩ := Option.map_eq_some_iff.mp hu'
      exact ih (hcall hs (fun hstray => hfair.elim hstray.1 fun hhead => hhead hstray.2.2.1) hmade) hrun
    next => cases hu

/-- A hand of three bots: bids, talon, contract and whist, then ten tricks. -/
def firstHand : List (Seat × Text) :=
  [(firstPlayer, ascii "b:pass"), (secondPlayer, ascii "b:6c"), (hostSeat, ascii "b:pass"),
    (secondPlayer, ascii "d:7s 7d"), (secondPlayer, ascii "c:6c"), (hostSeat, ascii "w:pass"),
    (firstPlayer, ascii "w:whist"), (firstPlayer, ascii "p:As"), (secondPlayer, ascii "p:Qs"), (firstPlayer, ascii "p:8s"),
    (firstPlayer, ascii "p:Kd"), (secondPlayer, ascii "p:Ad"), (firstPlayer, ascii "p:9c"),
    (firstPlayer, ascii "p:Ah"), (firstPlayer, ascii "p:7h"), (secondPlayer, ascii "p:Kh"),
    (firstPlayer, ascii "p:Qh"), (firstPlayer, ascii "p:8h"), (secondPlayer, ascii "p:8c"),
    (secondPlayer, ascii "p:Ac"), (firstPlayer, ascii "p:10c"), (firstPlayer, ascii "p:7c"),
    (secondPlayer, ascii "p:Ks"), (firstPlayer, ascii "p:9s"), (firstPlayer, ascii "p:Js"),
    (secondPlayer, ascii "p:Kc"), (firstPlayer, ascii "p:Jc"), (firstPlayer, ascii "p:8d"),
    (secondPlayer, ascii "p:Qc"), (firstPlayer, ascii "p:10s"), (firstPlayer, ascii "p:9d"),
    (secondPlayer, ascii "p:Jd"), (firstPlayer, ascii "p:10h"), (firstPlayer, ascii "p:Qd"),
    (firstPlayer, ascii "p:9h"), (secondPlayer, ascii "p:10d"), (firstPlayer, ascii "p:Jh")]

/-- After the first trick. -/
theorem played_legal_trick : ∃ s : State, s.Played ∧ s.phase = .play ∧ s.trickno = 1 ∧ (∀ c, s.lay.copies c = 1) ∧
    (∀ i j, (s.hands i).length = (s.hands j).length) ∧
    ∃ t r, s.soAct firstPlayer (ascii "p:Kd") = some (t, r) ∧ (t.board = s.board ∨ s.Allowed firstPlayer (ascii "p:Kd")) := by
  have hrun : ((soTable 10 1).soNewGame.fairActs (firstHand.take 10)).any (fun s =>
      decide (s.phase = .play ∧ s.trick = [] ∧ s.trickno = 1)) = true := by decide +kernel
  obtain ⟨s, hs, hcheck⟩ := (Option.any_eq_true ..).mp hrun
  obtain ⟨hphase, htrick, htrickno⟩ := of_decide_eq_true hcheck
  have hplayed : s.Played := fairActs_keeps .call (.start (soTable 10 1)) hs
  have hlegal := played_legal hplayed
  refine ⟨s, hplayed, hphase, htrickno, hlegal.1, hlegal.2.1 hphase htrick, ?_⟩
  exact hlegal.2.2 firstPlayer (ascii "p:Kd") fun hstray => absurd hstray.2.2.1 (by decide)

/-- The first bidder lays away two cards before anybody is the declarer. -/
theorem stray_discard_fails : (soTable 10 1).soNewGame.soAct firstPlayer (ascii "d:js as") = none :=
  Option.isNone_iff_eq_none.mp (by decide +kernel)

end

end State

end Ussr.Sochi
