import Ussr.Library.Action
import Ussr.Moscow.Dhcp
import Ussr.Moscow.Packets
import Ussr.Murmansk.Firewall

/-! The state of Moscow's network stack, and how it sends. -/

namespace Ussr.Moscow
open Murmansk (Firewall)

section

abbrev Frame := List UInt8

/-- `"state"` of a socket. -/
inductive SockState
  | new
  | listen
  | synSent
  | synRcvd
  | est
  | closed
  deriving DecidableEq, Repr

/-- A socket of `net_socks`; sequence numbers count around 2^32. -/
structure Sock where
  owner : Nat
  state : SockState
  lport : Nat
  rip : Nat
  rport : Nat
  rx : List UInt8
  txq : List UInt8
  finRcvd : Bool
  finSent : Bool
  finAcked : Bool
  closed : Bool
  reset : Bool
  rtoAt : Nat
  rto : Nat
  tries : Nat
  linger : Nat
  parent : Nat
  queue : OrdMap Nat Nat
  rcvNxt : Nat
  sndUna : Nat
  sndNxt : Nat
  txseq : Nat
  sndWnd : Nat
  finSeq : Nat

/-- A socket of `net_udp`: the datagrams that came, and the addresses it has sent to. -/
structure UdpSock where
  q : List (Nat × Nat × List UInt8)
  peers : List Nat

/-- `net_key` -/
structure ConnKey where
  rip : Nat
  rport : Nat
  lport : Nat
  deriving DecidableEq, Repr

inductive Receiver
  | echo
  | udp (port : Nat)
  | rx (handle : Nat)
  deriving DecidableEq, Repr

structure Delivery where
  receiver : Receiver
  bytes : List UInt8
  deriving DecidableEq, Repr

/-- The globals of the stack. A socket that has left `net_socks` stays an object for those who hold
it; `delivered` lists what the frame that is being handled has delivered. -/
structure Net where
  mac : List UInt8
  ip : Nat
  mask : Nat
  gw : Nat
  ipid : Nat
  arp : OrdMap Nat (List UInt8)
  udp : Nat → Option UdpSock
  socket : Nat → Sock
  socks : Nat → Bool
  conns : ConnKey → Option Nat
  listen : Nat → Option Nat
  next : Nat
  pings : OrdMap Nat Nat
  dhcpOn : Bool
  dhcp : Option (Frame × Nat × Nat)
  fw : Firewall
  turn : Nat
  sent : List Frame
  delivered : List Delivery

/-- The rest of the machine: what its clock, its card and its random numbers give, one after the other. -/
structure Outside where
  ticks : Nat → Nat
  recv : Nat → Option Frame
  random : Nat → Nat
  send : Nat → Int
  owner : Nat → Nat

variable (w : Outside)

def ask {α : Type} (answer : Nat → α) : Action Net α := fun s => (.ok (answer s.turn), { s with turn := s.turn + 1 })

def netNow : Action Net Nat := ask w.ticks

def netSend (frame : Frame) : Action Net Int := do
  Action.modify fun s => { s with sent := s.sent ++ [frame] }
  ask w.send

def deliver (receiver : Receiver) (bytes : List UInt8) : Action Net Unit :=
  Action.modify fun s => { s with delivered := s.delivered ++ [⟨receiver, bytes⟩] }

/-- `murmansk_check`; an address has 32 bits, and a port 16. -/
def netCheck (dir : Murmansk.Dir) (proto : Murmansk.Proto) (ip port : Nat) : Action Net Bool := do
  let s ← Action.get
  let packet : Murmansk.Packet := ⟨dir, proto, ip % 2 ^ 32, min port 65535, Nat.mod_lt _ (by decide), Nat.min_le_right _ _⟩
  let (fw, ok) ← Action.some? (s.fw.murmanskCheck packet)
  Action.modify fun s => { s with fw := fw }
  return ok

end

/-- `at` of a frame: outside it the program stops. -/
def atByte (f : Frame) (i : Nat) : Action Net Nat := Action.access (f[i]?.map UInt8.toNat)

def readWord (f : Frame) (i : Nat) : Action Net Nat := Action.access (netR16 f i)

def readLong (f : Frame) (i : Nat) : Action Net Nat := Action.access (netR32 f i)

/-- `count` bytes from `start` on, as the commands on byte vectors take them. -/
def cut (f : Frame) (start count : Nat) : Option (List UInt8) :=
  if start + count ≤ f.length then some ((f.drop start).take count) else none

def netMacAt (f : Frame) (i : Nat) : Action Net (List UInt8) := Action.access (cut f i 6)

def netZeros (n : Nat) : List UInt8 := List.replicate n 0

section

variable (w : Outside)

/-- `net_arp_send`: a question, or an answer to a MAC. -/
def netArpSend (ip : Nat) (mac : Option (List UInt8)) : Action Net Int := do
  let s ← Action.get
  netSend w <|
    mac.getD (netP16 65535 ++ netP32 4294967295) ++ s.mac ++ netP16 2054 ++ netP16 1 ++ netP16 2048 ++ [6, 4] ++
      netP16 (if mac = none then 1 else 2) ++ s.mac ++ netP32 s.ip ++ mac.getD (netZeros 6) ++ netP32 ip

/-- The inner loop of `net_mac_for`: polls until `stop` for the MAC of `hop`. -/
def waitMac (poll : Action Net Unit) (hop stop : Nat) : (turns now : Nat) → Action Net (Option (List UInt8))
  | 0, _ => Action.fail
  | turns + 1, now =>
    if now < stop then do
      poll
      let s ← Action.get
      match s.arp.get hop with
      | some mac => return some mac
      | none =>
        let now ← netNow w
        waitMac poll hop stop turns now
    else return none

/-- The tries of `net_mac_for`. -/
def askMac (poll : Action Net Unit) (turns hop : Nat) : (tries : Nat) → Action Net (Option (List UInt8))
  | 0 => return none
  | tries + 1 => do
    let _ ← netArpSend w hop none
    let t0 ← netNow w
    match ← waitMac w poll hop (t0 + 50) turns t0 with
    | some mac => return some mac
    | none => askMac poll turns hop tries

def netMacFor (poll : Action Net Unit) (turns ip : Nat) : Action Net (Option (List UInt8)) := do
  if ip = 4294967295 then return some (netP16 65535 ++ netP32 4294967295)
  else
    let s ← Action.get
    let hop := if ip &&& s.mask ≠ s.ip &&& s.mask then s.gw else ip
    match s.arp.get hop with
    | some mac => return some mac
    | none => askMac w poll turns hop 3

/-- `net_ip_send`; `tail` is what the packet ends with, as it is when the frame is made. -/
def netIpSend (poll : Action Net Unit) (turns dst proto : Nat) (head : List UInt8) (tail : Net → Option (List UInt8)) :
    Action Net Int := do
  match ← netMacFor w poll turns dst with
  | none => return -1
  | some mac =>
    let s ← Action.get
    Action.modify fun s => { s with ipid := s.ipid + 1 &&& 65535 }
    match tail s with
    | none => return -1
    | some tail => netSend w (ipFrame mac s.mac s.ip s.ipid dst proto head tail)

end

end Ussr.Moscow
