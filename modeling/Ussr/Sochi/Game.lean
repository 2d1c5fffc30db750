import Ussr.Sochi.Cards

/-! The game of Preferans: its state, and what the players' actions do to it. `none` is a
run-time error. -/

namespace Ussr.Sochi
open Real64
open Stalin (Text)

inductive Phase where
  | lobby | bid | discard | contract | whist | whist2 | play | done | over
deriving DecidableEq

inductive Opened where
  | closed
  | defenders
  | seat (i : Seat)
deriving DecidableEq

structure State where
  uni : Bool
  names : Seat → Text
  kind : Seat → Kind
  online : Seat → Bool
  actid : Seat → Nat
  seq : Nat
  pool : Seat → Int
  mount : Seat → Int
  /-- The whists of the first seat on the second. -/
  whist : Seat → Seat → Int
  psize : Int
  dealer : Seat
  handno : Nat
  streak : Nat
  phase : Phase
  turn : Option Seat
  hands : Seat → List Card
  talon : List Card
  discard : List Card
  bids : Seat → Int
  high : Int
  hseat : Option Seat
  decl : Option Seat
  contract : Int
  trump : Nat
  wst : Seat → Text
  opened : Opened
  trick : List Card
  tseats : List Seat
  lead : Option Seat
  tricks : Seat → Nat
  trickno : Nat
  last : Text
  log : List Text
  logn : Nat
  chat : List Text
  result : Text
  ready : Seat → Bool
  tshow : Bool
  rng : Nat
  err : Seat → Text
  final : Option (Seat → Int)
  /-- The cards of the finished tricks, which the program does not keep. -/
  won : List Card

def seats : List Seat := [hostSeat, firstPlayer, secondPlayer]

namespace State

/-- The last `k` of a list. -/
def keepLast (k : Nat) (texts : List Text) : List Text := texts.drop (texts.length - k)

def soLog (s : State) (text : Text) : State :=
  { s with log := keepLast 8 (s.log ++ [text]), logn := s.logn + 1 }

def soChatAdd (s : State) (text : Text) : State := { s with chat := keepLast 6 (s.chat ++ [text]) }

def soRand (rng n : Nat) : Nat × Nat :=
  let rng := (rng * 1103515245 + 12345) % 2147483648
  (rng / 256 % n, rng)

/-- The loop that shuffles, from place `i` down. -/
def shuffle : (i : Nat) → (rng : Nat) → (deck : List Card) → List Card × Nat
  | 0, rng, deck => (deck, rng)
  | i + 1, rng, deck => shuffle i (soRand rng (i + 2)).2 (deck.swap (i + 1) (soRand rng (i + 2)).1)

def soSort (cards : List Card) : List Card := cards.insertionSort (· ≤ ·)

def soForehand (s : State) : Seat := soNext (some s.dealer)

def soStartHand (s : State) : State :=
  let dealer := soNext (some s.dealer)
  let (deck, rng) := shuffle 31 s.rng (List.finRange 32)
  { s with
    handno := s.handno + 1
    dealer
    rng
    hands := fun i => soSort ((deck.drop (i.val * 10)).take 10)
    talon := deck.drop 30
    discard := []
    bids := fun _ => -2
    high := -1
    hseat := none
    decl := none
    contract := -1
    trump := 4
    wst := fun _ => []
    opened := .closed
    trick := []
    tseats := []
    tricks := fun _ => 0
    trickno := 0
    last := []
    result := []
    ready := fun _ => false
    tshow := false
    phase := .bid
    turn := some (soNext (some dealer))
    lead := some (soNext (some dealer))
    won := [] }.soLog
    (ascii "Hand " ++ soInt (s.handno + 1) ++ ascii ", dealer " ++ s.names dealer)

def soTable (psize : Int) (seed : Nat) : State where
  uni := false
  names _ := []
  kind _ := .none
  online _ := true
  actid _ := 0
  seq := 1
  pool _ := 0
  mount _ := 0
  whist _ _ := 0
  psize
  dealer := secondPlayer
  handno := 0
  streak := 0
  phase := .lobby
  turn := none
  hands _ := []
  talon := []
  discard := []
  bids _ := -2
  high := -1
  hseat := none
  decl := none
  contract := -1
  trump := 4
  wst _ := []
  opened := .closed
  trick := []
  tseats := []
  lead := none
  tricks _ := 0
  trickno := 0
  last := []
  log := []
  logn := 0
  chat := []
  result := []
  ready _ := false
  tshow := false
  rng := seed % 2147483648
  err _ := []
  final := none
  won := []

def soNewGame (s : State) : State :=
  { s with
    pool := fun _ => 0
    mount := fun _ => 0
    whist := fun _ _ => 0
    handno := 0
    streak := 0
    final := none }.soStartHand

def soCtl (s : State) : Option Seat :=
  match s.phase with
  | .bid | .discard | .contract | .whist | .whist2 => s.turn
  | .play =>
    match s.opened, s.turn with
    | .seat i, some t =>
      if t = i then
        -- The whister plays the open passer's cards.
        let f := soNext s.decl
        if f = i then some (soNext (some f)) else some f
      else some t
    | _, turn => turn
  | _ => none

/-- The suit that is led, the inner `none` for -1. -/
def ledSuit (s : State) : Option (Option Nat) :=
  if s.decl = none ∧ s.trickno < 2 then (s.talon[s.trickno]?).map fun c => some (suit c)
  else some (s.trick.head?.map suit)

def soLegalCards (s : State) (seat : Seat) : Option (List Card) :=
  s.ledSuit.map fun led =>
    let hand := s.hands seat
    let follow := hand.filter fun c => some (suit c) = led
    let ruff := hand.filter fun c => suit c = s.trump
    if led = none then hand else if follow ≠ [] then follow else if ruff ≠ [] then ruff else hand

def bidTexts (high mine : Int) : List Text :=
  (List.range 49).flatMap fun o =>
    if high < o then
      (if o % 2 = 0 then [ascii "b:" ++ soBidName o] else []) ++
        (if o = 29 ∧ mine = -2 then [ascii "b:mis"] else [])
    else []

def contractTexts (high : Int) : List Text :=
  (((List.range 26).map fun k => high + 2 * k).filter (· ≤ 48)).map fun o => ascii "c:" ++ soBidName o

def soLegal (s : State) (seat : Seat) : Option (List Text) :=
  if s.soCtl = some seat then
    match s.phase with
    | .bid =>
      some (ascii "b:pass" :: if s.bids seat = 29 then [] else bidTexts s.high (s.bids seat))
    | .discard => some [ascii "d:*"]
    | .contract => some (contractTexts s.high)
    | .whist | .whist2 =>
      let f := soNext s.decl
      some ([ascii "w:whist", ascii "w:pass"] ++
        if s.phase = .whist ∧ seat = soNext (some f) ∧ s.wst f = ascii "pass" ∧ soLevel s.contract = 6 then
          [ascii "w:half"]
        else [])
    | .play =>
      match s.turn with
      | none => none
      | some t => (s.soLegalCards t).map fun cards => cards.map fun c => ascii "p:" ++ soCard c
    | _ => some []
  else some []

def soWhistAdd (s : State) (a b : Seat) (n : Int) : State :=
  { s with whist := Function.update s.whist a (Function.update (s.whist a) b (s.whist a b + n)) }

def poolTo (s : State) (i : Seat) (n : Int) : State := { s with pool := Function.update s.pool i (s.pool i + n) }

def mountTo (s : State) (i : Seat) (n : Int) : State :=
  { s with mount := Function.update s.mount i (s.mount i + n) }

/-- A turn of the loop of `so_pool_add`: what helps the pool of `j`, and what is left. -/
def poolHelp (s : State) (i j : Seat) (extra : Int) : State × Int :=
  let room := min (s.psize - s.pool j) extra
  if 0 < room then ((s.poolTo j room).soWhistAdd i j (room * 10), extra - room) else (s, extra)

def soPoolAdd (s : State) (i : Seat) (n : Int) : State :=
  let room := max 0 (s.psize - s.pool i)
  if n ≤ room then s.poolTo i n
  else
    let j := soNext (some i)
    let k := soNext (some j)
    let (s, extra) := (s.poolTo i room).poolHelp i j (n - room)
    let (s, extra) := s.poolHelp i k extra
    if 0 < extra then (s.soWhistAdd i j (extra * 5)).soWhistAdd i k (extra * 5) else s

def soScoreRaspasy (s : State) : State :=
  let m : Int := min 3 s.streak
  seats.foldl
    (fun s i =>
      let t := s.tricks i
      let s := s.mountTo i (t * m)
      let s := if t = 0 then s.soPoolAdd i 1 else s
      { s with result := s.result ++ ascii " " ++ s.names i ++ ascii " " ++ soInt t })
    { s with result := ascii "Raspasy:" }

def soScoreMisere (s : State) (decl : Seat) : State :=
  let d := s.tricks decl
  if d = 0 then { s.soPoolAdd decl 10 with result := s.names decl ++ ascii " made the misere" }
  else
    { s.mountTo decl (d * 10) with
      result := s.names decl ++ ascii " failed the misere: " ++ soInt d ++ ascii " tricks" }

/-- The score of a defender in `so_score_contract`, with `nw` whisters. -/
def scoreWhister (s : State) (decl : Seat) (nw : Nat) (v l o : Int) (i : Seat) : State :=
  if s.wst i = ascii "whist" then
    let d : Int := s.tricks decl
    let w := 10 - d
    -- A lone whister played both hands.
    let wt : Int := if nw = 1 then w else s.tricks i
    let share := if nw = 1 then o else o / 2
    let gain := v * wt + if d < l then v * (l - d) else 0
    let s := s.soWhistAdd i decl gain
    let s := { s with result := s.result ++ ascii "; " ++ s.names i ++ ascii " whist " ++ soInt wt }
    if l ≤ d ∧ w < o ∧ wt < share then
      { s.mountTo i (v / 2 * (share - wt)) with result := s.result ++ ascii " (short)" }
    else s
  else s

/-- The declarer's score in `so_score_contract`. -/
def scoreDeclarer (s : State) (decl : Seat) (v l : Int) : State :=
  let d : Int := s.tricks decl
  let s := { s with result := s.result ++ soInt d ++ ascii " tricks" }
  if l ≤ d then { s.soPoolAdd decl v with result := s.result ++ ascii ", made" }
  else { s.mountTo decl (v * (l - d)) with result := s.result ++ ascii ", down " ++ soInt (l - d) }

def soScoreContract (s : State) (decl : Seat) : State :=
  let l := soLevel s.contract
  let v := soValue s.contract
  let o := soObligation l
  let f := soNext (some decl)
  let k := soNext (some f)
  let s : State := { s with result := s.names decl ++ ascii " " ++ soBidShow s.uni s.contract ++ ascii ": " }
  let nw := (if s.wst f = ascii "whist" then 1 else 0) + if s.wst k = ascii "whist" then 1 else 0
  if nw = 0 then
    let s : State := { s.soPoolAdd decl v with result := s.result ++ ascii "not whisted, counted as made" }
    if s.wst k = ascii "half" then
      { s.soWhistAdd k decl (v * (o / 2)) with
        result := s.result ++ ascii ", " ++ s.names k ++ ascii " half-whists" }
    else s
  else ((s.scoreDeclarer decl v l).scoreWhister decl nw v l o f).scoreWhister decl nw v l o k

def soSettle (s : State) : Seat → Int :=
  let m : Seat → Int := fun i => s.mount i + if s.pool i < s.psize then s.psize - s.pool i else 0
  let sum := (seats.map m).sum
  fun i => 10 * (sum - 3 * m i) + ((seats.filter (· ≠ i)).map fun j => 3 * (s.whist i j - s.whist j i)).sum

def soScoreHand (s : State) : State :=
  let s :=
    match s.decl with
    | none => s.soScoreRaspasy
    | some decl => if s.contract = 29 then s.soScoreMisere decl else s.soScoreContract decl
  let s : State := { s.soLog s.result with ready := fun _ => false, phase := .done }
  if seats.all fun i => s.psize ≤ s.pool i then
    { s with phase := .over, final := some s.soSettle }.soLog (ascii "Every pool is full: the game is over")
  else s

def soStartPlay (s : State) : State :=
  { s with
    phase := .play
    trick := []
    tseats := []
    tricks := fun _ => 0
    trickno := 0
    lead := some s.soForehand
    turn := some s.soForehand }

def soStartRaspasy (s : State) : State :=
  { s with streak := s.streak + 1, decl := none, contract := -1, trump := 4, tshow := true }.soLog
    (ascii "All pass: raspasy, a trick costs " ++ soInt (min 3 (s.streak + 1 : Nat)))
    |>.soStartPlay

def soTakeTalon (s : State) : Option State :=
  match s.decl, s.talon with
  | some decl, t0 :: t1 :: _ =>
    some ({ s with
      streak := 0
      hands := Function.update s.hands decl (soSort (s.hands decl ++ [t0, t1]))
      tshow := true
      phase := .discard
      turn := some decl }.soLog (s.names decl ++ ascii " takes the talon: " ++ soCardsShow s.uni s.talon))
  | _, _ => none

def soDoBid (s : State) (seat : Seat) (ord : Int) : Option State :=
  let s : State := { s with
    bids := Function.update s.bids seat ord
    high := if 0 ≤ ord then ord else s.high
    hseat := if 0 ≤ ord then some seat else s.hseat }
  let s := s.soLog (s.names seat ++ ascii ": " ++ soBidShow s.uni ord)
  let passes := (seats.filter fun i => s.bids i = -1).length
  if passes = 3 then some s.soStartRaspasy
  else if passes = 2 ∧ 0 ≤ s.high then { s with decl := s.hseat }.soTakeTalon
  else
    let t := soNext (some seat)
    some { s with turn := some (if s.bids t = -1 then soNext (some t) else t) }

def soDoDiscard (s : State) (a b : Card) : Option State :=
  match s.decl with
  | none => none
  | some decl =>
    let s : State := { s with
      hands := Function.update s.hands decl (((s.hands decl).erase a).erase b)
      discard := soSort [a, b] }
    if s.high = 29 then
      some ({ s with contract := 29, trump := 4, tshow := false, opened := .defenders }.soLog
        (s.names decl ++ ascii " plays misere")).soStartPlay
    else some { s with phase := .contract, turn := some decl }

def soDoContract (s : State) (ord : Int) : Option State :=
  match s.decl with
  | none => none
  | some decl =>
    some ({ s with
      contract := ord
      trump := soStrain ord
      phase := .whist
      turn := some (soNext (some decl)) }.soLog
      (s.names decl ++ ascii " plays " ++ soBidShow s.uni ord))

def soWhistDone (s : State) : State :=
  let s : State := { s with tshow := false }
  let f := soNext s.decl
  let k := soNext (some f)
  let nw := (if s.wst f = ascii "whist" then 1 else 0) + if s.wst k = ascii "whist" then 1 else 0
  if nw = 0 then s.soScoreHand
  else if nw = 1 then
    let i := if s.wst f = ascii "whist" then k else f
    ({ s with opened := .seat i }.soLog (s.names i ++ ascii " lays the cards open")).soStartPlay
  else s.soStartPlay

def soDoWhist (s : State) (seat : Seat) (w : Text) : State :=
  let f := soNext s.decl
  let k := soNext (some f)
  let s := s.soLog (s.names seat ++ ascii ": " ++ if w = ascii "half" then ascii "half-whist" else w)
  if s.phase = .whist2 then
    let wst := Function.update s.wst f w
    -- A whist of the first defender takes the half-whist off.
    { s with wst := if w = ascii "whist" then Function.update wst k (ascii "pass") else wst }.soWhistDone
  else
    let s := { s with wst := Function.update s.wst seat w }
    if seat = f then { s with turn := some k }
    else if w = ascii "half" then { s with phase := .whist2, turn := some f }
    else s.soWhistDone

def trickText (s : State) (talon : Option Card) (win : Option Seat) : Text :=
  ascii "Trick " ++ soInt (s.trickno + 1) ++ ascii ":" ++
    (match talon with
      | some tc => ascii " talon " ++ soCardShow s.uni tc ++ ascii ","
      | none => []) ++
    ((s.trick.zip s.tseats).flatMap fun (c, p) =>
      ascii " " ++ s.names p ++ ascii " " ++ soCardShow s.uni c) ++
    match win with
    | some w => ascii " - " ++ s.names w
    | none => ascii " - nobody"

def soTrickDone (s : State) : Option State :=
  let talonLed := s.decl = none ∧ s.trickno < 2
  match s.ledSuit with
  | some (some led) =>
    let talon := if talonLed then s.talon[s.trickno]? else none
    let win := (soTrickBest s.trick led s.trump).bind fun k => s.tseats[k]?
    let tricks :=
      match win with
      | some w => Function.update s.tricks w (s.tricks w + 1)
      | none => s.tricks
    let lead :=
      if win ≠ none ∧ (s.decl ≠ none ∨ 2 ≤ s.trickno + 1) then win else some s.soForehand
    let t : State := { s with
      tricks
      last := s.trickText talon win
      trick := []
      tseats := []
      trickno := s.trickno + 1
      lead
      turn := lead
      won := s.won ++ s.trick }
    some (if t.trickno = 10 then t.soScoreHand else t)
  | _ => none

def soDoPlay (s : State) (seat : Seat) (card : Card) : Option State :=
  let s : State := { s with
    hands := Function.update s.hands seat ((s.hands seat).erase card)
    trick := s.trick ++ [card]
    tseats := s.tseats ++ [seat] }
  if s.trick.length = 3 then s.soTrickDone else some { s with turn := some (soNext (some seat)) }

/-- The verb `d:`, which does not look at the phase. -/
def discardAct (s : State) (seat : Seat) (arg : Text) : Option (State × Text) :=
  match (soWords arg).map soParseCard with
  | [some a, some b] =>
    if a ∈ s.hands seat ∧ b ∈ s.hands seat ∧ a ≠ b then (s.soDoDiscard a b).map fun s => (s, [])
    else some (s, ascii "discard two cards")
  | _ => some (s, ascii "discard two cards")

/-- The verb `p:`; a legal text is a card's. -/
def playAct (s : State) (arg : Text) : Option State :=
  s.turn.bind fun t => (soParseCard arg).bind fun c => s.soDoPlay t c

def turnAct (s : State) (seat : Seat) (action : Text) : Option (State × Text) :=
  (s.soLegal seat).bind fun legal =>
    let verb := soHead action 2
    let arg := action.drop 2
    if s.soCtl ≠ some seat then some (s, ascii "not your turn")
    else if verb = ascii "d:" then s.discardAct seat arg
    else if legal.contains action = false then some (s, ascii "not a legal move")
    else if verb = ascii "b:" then (s.soDoBid seat (soParseBid arg)).map fun s => (s, [])
    else if verb = ascii "c:" then (s.soDoContract (soParseBid arg)).map fun s => (s, [])
    else if verb = ascii "w:" then some (s.soDoWhist seat arg, [])
    else if verb = ascii "p:" then (s.playAct arg).map fun s => (s, [])
    else some (s, [])

/-- What `so_act` does before it ends. -/
def actBody (s : State) (seat : Seat) (action : Text) : Option (State × Text) :=
  if soHead action 2 = ascii "t:" then
    let text := soClean (action.drop 2) 200
    some (if text = [] then s else s.soChatAdd (s.names seat ++ ascii ": " ++ text), [])
  else if soHead action 2 = ascii "n:" then
    if s.phase = .done then
      let s := { s with ready := Function.update s.ready seat true }
      some (if seats.all s.ready then s.soStartHand else s, [])
    else some (s, [])
  else s.turnAct seat action

def soAct (s : State) (seat : Seat) (action : Text) : Option (State × Text) :=
  (s.actBody seat action).map fun (s, r) =>
    ({ s with err := Function.update s.err seat r, seq := s.seq + 1 }, r)

end State

end Ussr.Sochi
