import Ussr.Strings

/-! The network part of Sochi: the host's table, to which datagrams bring players and their
actions, and the client. The game is whatever `so_act` makes of it. -/

namespace Ussr.Sochi
open Real64
open Stalin (Text strTrim)

/-- The loop of `so_clean`. -/
def soCleanLoop (s : Text) (max : Nat) : (turns i : Nat) → (r : Text) → Text
  | 0, _, r => r
  | turns + 1, i, r =>
    match s[i]? with
    | none => r
    | some b =>
      let k := min (if 192 ≤ b.toNat then utf8Len b else 1) (s.length - i)
      if max < r.length + k then r
      else
        soCleanLoop s max turns (i + k)
          (if b = 96 then r ++ [39] else if 32 ≤ b.toNat ∧ b ≠ 127 then r ++ (s.drop i).take k else r)

def soClean (s : Text) (max : Nat) : Text := strTrim (soCleanLoop s max s.length 0 [])

/-- The name under which `sn_host_join` looks for a player. -/
def joinName (rest : Text) : Text := if soClean rest 24 = [] then ascii "Player" else soClean rest 24

section

abbrev Seat := Fin 3

def hostSeat : Seat := 0

def firstPlayer : Seat := 1

def secondPlayer : Seat := 2

inductive Kind where
  | none | «local» | bot | remote
deriving DecidableEq

structure Game (γ : Type) where
  soAct : (names : Seat → Text) → γ → Seat → Text → γ
  soNewGame : (names : Seat → Text) → γ → γ
  soLog : γ → Text → γ
  lobby : γ → Bool

inductive ToHost where
  | join (nick : Text)
  | ack (q : Nat)
  | act (id : Nat) (action : Text)
  | ping
  | bye

inductive ToClient where
  | welcome (seat : Seat) (last : Nat)
  | full
  | view (q : Nat) (actid : Seat → Nat)
  | bye

structure Host (α γ : Type) where
  addr : Seat → Option α
  acked : Seat → Nat
  seen : Seat → Nat
  online : Seat → Bool
  names : Seat → Text
  kind : Seat → Kind
  actid : Seat → Nat
  seq : Nat
  tick : Nat
  game : γ

/-- What the host does with a datagram: what it sends, and the action that it passes to `so_act`. -/
structure Reply (α γ : Type) where
  host : Host α γ
  sends : List (α × ToClient) := []
  act : Option (Seat × Text) := none

variable {α γ : Type} [DecidableEq α] (game : Game γ)

namespace Host

def seatOf (h : Host α γ) (a : α) : Option Seat := [2, 1].find? fun i => h.addr i = some a

def snSendView (h : Host α γ) (i : Seat) : List (α × ToClient) :=
  match h.addr i with
  | some a => [(a, .view h.seq h.actid)]
  | none => []

def hear (h : Host α γ) (i : Seat) : Host α γ :=
  { h with
    seen := Function.update h.seen i h.tick
    online := Function.update h.online i true
    seq := if h.online i then h.seq else h.seq + 1 }

/-- `so_act`, which ends with a new number of the table. -/
def soAct (h : Host α γ) (i : Seat) (action : Text) : Host α γ :=
  { h with game := game.soAct h.names h.game i action, seq := h.seq + 1 }

def namedSeat (h : Host α γ) (nick : Text) : Option Seat :=
  [2, 1].find? fun i => h.names i = nick ∧ h.kind i = .remote

def emptySeat (h : Host α γ) : Option Seat := [1, 2].find? fun i => h.names i = []

def newName (h : Host α γ) (nick : Text) : Text :=
  [0, 1, 2].foldl (fun nick i => if h.names i = nick then nick ++ ascii "2" else nick) nick

def takeSeat (h : Host α γ) (i : Seat) (nick : Text) : Host α γ :=
  { h with
    names := Function.update h.names i (h.newName nick)
    kind := Function.update h.kind i .remote
    actid := Function.update h.actid i 0
    game := game.soLog h.game (h.newName nick ++ ascii " joins the table") }

def isFull (h : Host α γ) : Bool := [0, 1, 2].all fun i => h.names i ≠ []

/-- The end of `sn_host_join` for the seat found. -/
def welcome (h : Host α γ) (i : Seat) (a : α) : Reply α γ where
  host :=
    { h with
      addr := Function.update h.addr i (some a)
      acked := Function.update h.acked i 0
      seen := Function.update h.seen i h.tick
      online := Function.update h.online i true
      game := if h.isFull && game.lobby h.game then game.soNewGame h.names h.game else h.game
      seq := h.seq + 1 }
  sends := [(a, .welcome i (h.actid i))]

def snHostJoin (h : Host α γ) (a : α) (rest : Text) : Reply α γ :=
  match h.namedSeat (joinName rest) with
  | some i => h.welcome game i a
  | none =>
    match if game.lobby h.game then h.emptySeat else none with
    | some i => (h.takeSeat game i (joinName rest)).welcome game i a
    | none => { host := h, sends := [(a, .full)] }

/-- A player's `BYE`; in the lobby its seat is free again. -/
def leave (h : Host α γ) (i : Seat) : Host α γ :=
  let left := { h with online := Function.update h.online i false, seq := h.seq + 1 }
  if game.lobby h.game then
    { left with
      names := Function.update h.names i []
      kind := Function.update h.kind i .none
      addr := Function.update h.addr i none }
  else left

/-- `sn_host_packet` after the seat is found; `FIND`, which finds tables, is left out. -/
def snHostVerb (h : Host α γ) (a : α) (seat : Option Seat) (m : ToHost) : Reply α γ :=
  match m, seat with
  | .join rest, _ => h.snHostJoin game a rest
  | .ack q, some i =>
    { host := if h.acked i < q then { h with acked := Function.update h.acked i q } else h }
  | .act id action, some i =>
    if h.actid i < id then
      { host := Host.soAct game { h with actid := Function.update h.actid i id } i action
        act := some (i, action) }
    else { host := h, sends := h.snSendView i }
  | .bye, some i => { host := h.leave game i }
  | _, _ => { host := h }

def snHostPacket (h : Host α γ) (a : α) (m : ToHost) : Reply α γ :=
  match h.seatOf a with
  | some i => (h.hear i).snHostVerb game a (some i) m
  | none => h.snHostVerb game a none m

def snHost (name : Text) (selfBot : Bool) (bots : Nat) (lobby : γ) : Host α γ :=
  let names : Seat → Text := fun i =>
    if i = 0 then name
    else if i = 1 ∧ 1 ≤ bots then ascii "Bot Masha"
    else if i = 2 ∧ 2 ≤ bots then ascii "Bot Grisha"
    else []
  { addr := fun _ => none
    acked := fun _ => 0
    seen := fun _ => 0
    online := fun _ => true
    names
    kind := fun i =>
      if i = 0 then if selfBot then .bot else .local else if i.val ≤ bots then .bot else .none
    actid := fun _ => 0
    seq := 1
    tick := 0
    game :=
      let opened := game.soLog lobby (ascii "The table is open")
      if 2 ≤ bots then game.soNewGame names opened else opened }

end Host

end

inductive Mode where
  | joining
  | playing (seat : Seat)
  | gone
deriving DecidableEq

/-- The state of `sn_client`: the actions that wait, with their numbers, and of the last view its
number and the last action of every seat. -/
structure Client where
  mode : Mode
  actid : Nat
  pending : List (Nat × Text)
  view : Option (Nat × (Seat → Nat))

namespace Client

def start : Client := ⟨.joining, 0, [], none⟩

def have_ (c : Client) : Nat := (c.view.map Prod.fst).getD 0

/-- What `sn_client` does with a datagram, and what it sends. -/
def snClientPacket (c : Client) (m : ToClient) : Client × List ToHost :=
  match c.mode, m with
  | .joining, .welcome seat last => ({ c with mode := .playing seat, actid := last }, [])
  | .joining, .full => ({ c with mode := .gone }, [])
  | .playing seat, .view q actid =>
    (if c.have_ < q then
      { c with
        view := some (q, actid)
        pending := c.pending.dropWhile fun e => e.1 ≤ actid seat }
    else c, [.ack q])
  | _, _ => (c, [])

def suQueue (c : Client) (action : Text) : Client :=
  { c with actid := c.actid + 1, pending := c.pending ++ [(c.actid + 1, action)] }

end Client

/-! A host, its clients and the network between them. A datagram that was sent may arrive any
number of times, at any time, or never. -/

structure System (α γ : Type) where
  host : Host α γ
  /-- Whether the host's loop still runs. -/
  hosting : Bool
  client : α → Client
  /-- Every datagram sent to the host, with its sender. -/
  toHost : List (α × ToHost)
  /-- Every datagram sent by the host, with the address that it is for. -/
  toClient : List (α × ToClient)
  /-- The actions that each client queued. -/
  queued : α → List Text
  /-- The actions that datagrams brought to `so_act`, with the sender and the seat. -/
  passed : List (α × Seat × Text)
  /-- The addresses whose seat became free. -/
  dismissed : List α

inductive Event (α : Type) where
  | hostReceives (k : Nat)
  | hostActs (seat : Seat) (action : Text)
  | hostSendsView (seat : Seat)
  | hostTicks
  | hostMarksOffline (seat : Seat)
  | hostCloses
  | joins (a : α)
  | receives (a : α) (k : Nat)
  | givesUp (a : α)
  | queues (a : α) (action : Text)
  | sendsHead (a : α)
  | pings (a : α)
  | quits (a : α)

variable {α γ : Type} [DecidableEq α] (game : Game γ) (nick : α → Text)

namespace System

def setClient (s : System α γ) (a : α) (c : Client) : System α γ :=
  { s with client := Function.update s.client a c }

def send (s : System α γ) (a : α) (ms : List ToHost) : System α γ :=
  { s with toHost := s.toHost ++ ms.map fun m => (a, m) }

def loses (h h' : Host α γ) (a : α) : Bool := (h.seatOf a).isSome && (h'.seatOf a).isNone

def arrive (s : System α γ) (a : α) (m : ToHost) : System α γ :=
  let reply := s.host.snHostPacket game a m
  { s with
    host := reply.host
    toClient := s.toClient ++ reply.sends
    passed := s.passed ++ (reply.act.map fun act => (a, act)).toList
    dismissed := if loses s.host reply.host a then s.dismissed ++ [a] else s.dismissed }

def hostStep (s : System α γ) : Event α → Option (System α γ)
  | .hostReceives k => s.toHost[k]?.map fun (a, m) => s.arrive game a m
  | .hostActs seat action =>
    if s.host.kind seat = .local ∨ s.host.kind seat = .bot then
      some { s with host := s.host.soAct game seat action }
    else none
  | .hostSendsView seat => some { s with toClient := s.toClient ++ s.host.snSendView seat }
  | .hostTicks => some { s with host := { s.host with tick := s.host.tick + 1 } }
  | .hostMarksOffline seat =>
    if s.host.tick % 50 = 0 ∧ (s.host.addr seat).isSome ∧ s.host.seen seat + 750 < s.host.tick ∧
        s.host.online seat = true then
      some { s with
        host := { s.host with online := Function.update s.host.online seat false, seq := s.host.seq + 1 } }
    else none
  | .hostCloses =>
    some { s with
      hosting := false
      toClient := s.toClient ++ ([firstPlayer, secondPlayer].filterMap s.host.addr).map fun a => (a, .bye) }
  | _ => none

def clientStep (s : System α γ) : Event α → Option (System α γ)
  | .joins a =>
    if (s.client a).mode = .joining then some (s.send a [.join (nick a)]) else none
  | .receives a k =>
    match s.toClient[k]? with
    | some (b, m) =>
      if a = b then
        let (c, ms) := (s.client a).snClientPacket m
        some ((s.setClient a c).send a ms)
      else none
    | none => none
  | .givesUp a =>
    if (s.client a).mode = .joining then some (s.setClient a { s.client a with mode := .gone }) else none
  | .queues a action =>
    match (s.client a).mode, (s.client a).view with
    | .playing _, some _ =>
      some { s.setClient a ((s.client a).suQueue action) with
        queued := Function.update s.queued a (s.queued a ++ [action]) }
    | _, _ => none
  | .sendsHead a =>
    match (s.client a).mode, (s.client a).pending with
    | .playing _, (id, action) :: _ => some (s.send a [.act id action])
    | _, _ => none
  | .pings a =>
    match (s.client a).mode with
    | .playing _ => some (s.send a [.ping])
    | _ => none
  | .quits a =>
    match (s.client a).mode with
    | .playing _ => some ((s.setClient a { s.client a with mode := .gone }).send a [.bye])
    | _ => none
  | _ => none

def step (s : System α γ) (e : Event α) : Option (System α γ) :=
  match s.clientStep nick e with
  | some t => some t
  | none => if s.hosting then s.hostStep game e else none

def run (s : System α γ) (events : List (Event α)) : Option (System α γ) := events.foldlM (step game nick) s

def start (host : Host α γ) : System α γ where
  host := host
  hosting := true
  client := fun _ => .start
  toHost := []
  toClient := []
  queued := fun _ => []
  passed := []
  dismissed := []

def Plays (s : System α γ) (a : α) : Prop := (s.client a).mode ≠ .gone

end System

end Ussr.Sochi
