import Ussr.Library.OrdMap

/-! The DHCP client of Moscow. Time counts hundredths of a second; it passes while a message
is sent or waited for and between the calls. -/

namespace Ussr.Moscow

/-- A datagram that came: the bytes of the frame from its first on, of which it has `size`. -/
structure Datagram where
  bytes : List UInt8
  size : Nat
  size_le : size ≤ bytes.length

/-- What `dhcp_send` is told to send. -/
structure Message where
  type : Nat
  xid : Nat
  ciaddr : Nat
  want : Nat
  server : Nat
  dst : Nat
  deriving DecidableEq, Repr

/-- The rest of the world: how long each sending, poll and sleep takes, the datagram that each
poll finds, the last if there are several, and the random numbers. -/
structure World where
  delay : Nat → Nat
  frame : Nat → Option Datagram
  random : Nat → Nat

abbrev Options := OrdMap Nat (List UInt8)

structure Reply where
  type : Nat
  yi : Nat
  opts : Options

/-- `net_r16`; `none` outside the bytes, which stops the program. -/
def netR16 (f : List UInt8) (i : Nat) : Option Nat :=
  f[i]?.bind fun a => f[i + 1]?.map fun b => a.toNat <<< 8 ||| b.toNat

def netR32 (f : List UInt8) (i : Nat) : Option Nat :=
  (netR16 f i).bind fun a => (netR16 f (i + 2)).map fun b => a <<< 16 ||| b

/-- The loop of `dhcp_wait` over the options from place `i` on. -/
def dhcpOptions (d : Datagram) : (turns i type : Nat) → Options → Option (Nat × Options)
  | 0, _, type, opts => some (type, opts)
  | turns + 1, i, type, opts =>
    if d.size ≤ i then some (type, opts)
    else
      d.bytes[i]?.bind fun code =>
        if code = 255 then some (type, opts)
        else if code = 0 then dhcpOptions d turns (i + 1) type opts
        else
          d.bytes[i + 1]?.bind fun k =>
            let val := (d.bytes.drop (i + 2)).take (min k.toNat (d.size - (i + 2)))
            let opts := opts.put code.toNat val
            if code = 53 then val.head?.bind fun b => dhcpOptions d turns (i + 2 + k.toNat) b.toNat opts
            else dhcpOptions d turns (i + 2 + k.toNat) type opts

/-- The answer that a datagram is to `xid`, if it is one. -/
def dhcpReply (xid : Nat) (d : Datagram) : Option (Option Reply) :=
  (netR32 d.bytes 4).bind fun x => d.bytes[0]?.bind fun op =>
    if x = xid ∧ op = 2 ∧ 240 < d.size then
      (netR32 d.bytes 16).bind fun yi => (dhcpOptions d d.size 240 0 .empty).map fun v => some ⟨v.1, yi, v.2⟩
    else some none

def dhcpOpt (opts : Options) (code default : Nat) : Nat :=
  (opts.get code).elim default fun v => if 4 ≤ v.length then (netR32 v 0).getD default else default

section

/-- `dhcp_state` -/
inductive LeaseState
  | none
  | bound
  | released
  deriving DecidableEq, Repr

/-- `net_how` -/
inductive How
  | none
  | static
  | dhcp
  | released
  deriving DecidableEq, Repr

structure Ack where
  address : Nat
  time : Nat
  seconds : Nat
  deriving DecidableEq, Repr

/-- The globals of the client, with the last message sent and the ACKs taken, the latest first;
`turn` and `drawn` are how much of the world has been. -/
structure Client where
  time : Nat
  netIp : Nat
  netMask : Nat
  netGw : Nat
  netDns : Nat
  how : How
  server : Nat
  lease : Nat
  t1 : Nat
  t2 : Nat
  got : Nat
  next : Nat
  state : LeaseState
  turn : Nat
  drawn : Nat
  sent : Option Message
  acks : List Ack
  deriving DecidableEq, Repr

def broadcast : Nat := 4294967295

variable (w : World)

def Client.pass (c : Client) : Client := { c with time := c.time + w.delay c.turn, turn := c.turn + 1 }

def dhcpForget (c : Client) : Client :=
  { c with server := 0, lease := 0, t1 := 0, t2 := 0, got := 0, next := 0, state := .none }

def dhcpSend (m : Message) (c : Client) : Client := { c.pass w with sent := some m }

/-- The loop of `dhcp_wait`; `none` where it has not ended after `turns` turns. -/
def dhcpWaitUntil (xid stop : Nat) : (turns : Nat) → Client → Option (Option Reply × Client)
  | 0, _ => none
  | turns + 1, c =>
    if stop ≤ c.time then some (none, c)
    else
      let polled := c.pass w
      (w.frame c.turn).elim (dhcpWaitUntil xid stop turns (polled.pass w)) fun d =>
        (dhcpReply xid d).bind fun reply =>
          reply.elim (dhcpWaitUntil xid stop turns (polled.pass w)) fun a => some (some a, polled)

def dhcpWait (turns xid ticks : Nat) (c : Client) : Option (Option Reply × Client) :=
  dhcpWaitUntil w xid (c.time + ticks) turns c

def dhcpXid (c : Client) : Nat × Client := (w.random c.drawn &&& 2147483647, { c with drawn := c.drawn + 1 })

def dhcpBind (yi : Nat) (opts : Options) (c : Client) : Client :=
  let lease := dhcpOpt opts 51 86400
  { c with
    netIp := yi
    netMask := dhcpOpt opts 1 4294967040
    netGw := dhcpOpt opts 3 0
    netDns := dhcpOpt opts 6 0
    server := dhcpOpt opts 54 c.server
    lease
    t1 := dhcpOpt opts 58 (lease / 2)
    t2 := dhcpOpt opts 59 (lease * 7 / 8)
    got := c.time
    next := 0
    state := .bound
    how := .dhcp
    acks := ⟨yi, c.time, lease⟩ :: c.acks }

def dhcpUnbind (state : LeaseState) (how : How) (c : Client) : Client :=
  { dhcpForget { c with netIp := 0 } with state, how }

/-- The loop of `dhcp_ask`, its tries left. -/
def dhcpAskTries (turns xid : Nat) : (tries : Nat) → Client → Option (Bool × Client)
  | 0, c => some (false, c)
  | tries + 1, c =>
    (dhcpWait w turns xid 150 (dhcpSend w ⟨1, xid, 0, 0, 0, broadcast⟩ c)).bind fun (offer, c) =>
      offer.elim (dhcpAskTries turns xid tries c) fun offer =>
        if offer.type = 2 then
          let server := dhcpOpt offer.opts 54 0
          (dhcpWait w turns xid 150 (dhcpSend w ⟨3, xid, 0, offer.yi, server, broadcast⟩ c)).bind fun (ack, c) =>
            ack.elim (dhcpAskTries turns xid tries c) fun ack =>
              if ack.type = 5 then some (true, dhcpBind offer.yi ack.opts { c with server })
              else dhcpAskTries turns xid tries c
        else dhcpAskTries turns xid tries c

def dhcpAsk (turns : Nat) (c : Client) : Option (Bool × Client) :=
  let (xid, c) := dhcpXid w c
  dhcpAskTries w turns xid 2 c

/-- What `dhcp_again` and `dhcp_renew` give. -/
inductive Outcome
  | ack
  | nak
  | none
  | new
  | lost
  deriving DecidableEq, Repr

def dhcpAgain (turns dst : Nat) (c : Client) : Option (Outcome × Client) :=
  let (xid, c) := dhcpXid w c
  (dhcpWait w turns xid 150 (dhcpSend w ⟨3, xid, c.netIp, 0, 0, dst⟩ c)).map fun (ack, c) =>
    ack.elim (.none, c) fun ack =>
      if ack.type = 5 then (.ack, dhcpBind ack.yi ack.opts c) else if ack.type = 6 then (.nak, c) else (.none, c)

def dhcpAge (c : Client) : Nat := (c.time - c.got) / 100

/-- The part of `dhcp_renew` for a lease that is held. -/
def dhcpRenewBound (turns : Nat) (c : Client) : Option (Outcome × Client) :=
  let age := dhcpAge c
  let first := if age < c.t2 then dhcpAgain w turns c.server c else some (.none, c)
  first.bind fun (r, c) =>
    let second := if r = .none ∧ c.t2 ≤ age then dhcpAgain w turns broadcast c else some (r, c)
    second.map fun (r, c) =>
      if r = .nak ∨ (r = .none ∧ c.lease ≤ dhcpAge c) then (r, dhcpUnbind .none .none c) else (r, c)

def dhcpRenew (turns : Nat) (c : Client) : Option (Outcome × Client) :=
  let held := if c.state = .bound then dhcpRenewBound w turns c else some (.none, c)
  held.bind fun (r, c) =>
    if c.state = .bound then some (r, c)
    else
      (dhcpAsk w turns c).map fun (got, c) =>
        if got then (.new, c) else (.lost, if c.netIp = 0 then { c with how := .none } else c)

def dhcpTick (turns : Nat) (c : Client) : Option Client :=
  if c.state ≠ .bound then some c
  else if c.time < c.next then some c
  else if dhcpAge c < c.t1 then some c
  else
    (dhcpRenew w turns c).map fun (_, c) =>
      if c.state = .bound ∧ c.t1 ≤ dhcpAge c then { c with next := c.time + 6000 } else c

def dhcpRelease (c : Client) : Client :=
  if c.state ≠ .bound then c
  else
    let (xid, c) := dhcpXid w c
    dhcpUnbind .released .released (dhcpSend w ⟨7, xid, c.netIp, 0, c.server, c.server⟩ c)

/-- The calls that the client is made of: `net_poll`'s, and those of the user. -/
inductive Op
  | tick
  | renew
  | release
  deriving DecidableEq, Repr

def dhcpCall (turns : Nat) (c : Client) : Op → Option Client
  | .tick => dhcpTick w turns c
  | .renew => (dhcpRenew w turns c).map Prod.snd
  | .release => some (dhcpRelease w c)

end

end Ussr.Moscow
