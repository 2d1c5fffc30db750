import Ussr.Moscow.Stack

/-! TCP in Moscow's stack. Sending is a parameter of these actions: while the MAC of a packet is
asked for, other frames are handled, so that a packet may change any of the state. -/

namespace Ussr.Moscow

/-- What `net_ip_send` does with a destination, a protocol, a header and the bytes behind it, which are
those of the state at the time it sends. -/
abbrev Sender := (dst proto : Nat) → (head : List UInt8) → (tail : Net → Option (List UInt8)) → Action Net Int

variable (w : Outside) (ipSend : Sender)

def Net.setSock (s : Net) (h : Nat) (c : Sock) : Net := { s with socket := Function.update s.socket h c }

def readSock (h : Nat) : Action Net Sock := fun s => (.ok (s.socket h), s)

/-- `btput` of some fields of a socket. -/
def putSock (h : Nat) (f : Sock → Sock) : Action Net Unit := Action.modify fun s => s.setSock h (f (s.socket h))

def netSock (h : Nat) : Action Net (Option Nat) := fun s => (.ok (if s.socks h then some h else none), s)

def dropSock (h : Nat) : Action Net Unit := Action.modify fun s => { s with socks := Function.update s.socks h false }

def dropConn (key : ConnKey) : Action Net Unit := Action.modify fun s => { s with conns := Function.update s.conns key none }

def emptySock : Sock where
  owner := 0
  state := .new
  lport := 0
  rip := 0
  rport := 0
  rx := []
  txq := []
  finRcvd := false
  finSent := false
  finAcked := false
  closed := false
  reset := false
  rtoAt := 0
  rto := 50
  tries := 0
  linger := 0
  parent := 0
  queue := .empty
  rcvNxt := 0
  sndUna := 0
  sndNxt := 0
  txseq := 0
  sndWnd := 0
  finSeq := 0

def netNewSock (kind : SockState) : Action Net Nat := do
  let owner ← ask w.owner
  let s ← Action.get
  Action.modify fun s =>
    { s.setSock s.next { emptySock with owner := owner, state := kind } with
      next := s.next + 1
      socks := Function.update s.socks s.next true }
  return s.next

def netSeqAdd (a n : Nat) : Nat := a + n &&& 4294967295

def netSeqDiff (a b : Nat) : Int :=
  let r := ((a : Int) - b) % 4294967296
  if 2147483648 ≤ r then r - 4294967296 else r

def Sock.ends (c : Sock) : Ends := ⟨c.rip, c.rport, c.lport, c.rcvNxt⟩

/-- `net_tcp_seg`: the data is read for the sum, and again when it is sent. -/
def netTcpSeg (c : Ends) (flags seq : Nat) (data : Net → Option (List UInt8)) : Action Net Int := do
  let s ← Action.get
  let summed ← Action.some? (data s)
  ipSend c.rip 6 (tcpHeader s.ip c flags seq summed) data

/-- `net_tcp_ctl` for the connection of a handle. -/
def netTcpCtl (h flags seq : Nat) : Action Net Int := do
  let c ← readSock h
  netTcpSeg ipSend c.ends flags seq fun _ => some []

def netTcpRefuse (src sport dport seq ack fl dlen : Nat) : Action Net Int :=
  if fl &&& 16 ≠ 0 then netTcpSeg ipSend ⟨src, sport, dport, 0⟩ 4 ack fun _ => some []
  else
    let n := dlen
    let n := if fl &&& 2 ≠ 0 then n + 1 else n
    let n := if fl &&& 1 ≠ 0 then n + 1 else n
    netTcpSeg ipSend ⟨src, sport, dport, netSeqAdd seq n⟩ 20 0 fun _ => some []

/-- The loop of `net_tcp_output`: the window, and what is sent and in flight. -/
def outputLoop (h : Nat) (wnd : Int) : (turns nxt : Nat) → (inflight sent avail : Int) → Action Net (Nat × Int)
  | 0, _, _, _, _ => Action.fail
  | turns + 1, nxt, inflight, sent, avail =>
    if 0 < avail ∧ inflight < wnd then do
      let n := min (min avail 1460) (wnd - inflight)
      let c ← readSock h
      -- The data is the queue as it is then: a frame handled while sending may have shortened it.
      let _ ← netTcpSeg ipSend c.ends 24 nxt fun s =>
        if 0 ≤ sent then cut (s.socket h).txq sent.toNat n.toNat else none
      outputLoop h wnd turns (netSeqAdd nxt n.toNat) (inflight + n) (sent + n) (avail - n)
    else return (nxt, avail)

def netTcpOutput (turns h : Nat) : Action Net Unit := do
  let c ← readSock h
  if c.state ≠ .est then return ()
  else
    let wnd : Int := if c.sndWnd < 1 then 1 else c.sndWnd
    let sent := if c.finSent then (c.txq.length : Int) else netSeqDiff c.sndNxt c.txseq
    let (nxt, avail) ← outputLoop ipSend h wnd turns c.sndNxt (netSeqDiff c.sndNxt c.sndUna) sent (c.txq.length - sent)
    putSock h fun c => { c with sndNxt := nxt }
    let d ← readSock h
    let nxt ←
      if d.closed ∧ avail = 0 ∧ c.finSent = false then do
        let _ ← netTcpCtl ipSend h 17 nxt
        putSock h fun c => { c with finSeq := nxt, finSent := true, sndNxt := netSeqAdd nxt 1 }
        pure (netSeqAdd nxt 1)
      else pure nxt
    let d ← readSock h
    if 0 < netSeqDiff nxt c.sndUna ∧ d.rtoAt = 0 then
      let now ← netNow w
      putSock h fun c => { c with rtoAt := now + c.rto }
    else return ()

def netTcpReap (h : Nat) : Action Net Unit := do
  let c ← readSock h
  let key : ConnKey := ⟨c.rip, c.rport, c.lport⟩
  if c.finAcked ∧ c.finRcvd ∨ c.reset then
    dropConn key
    putSock h fun c => { c with state := .closed }
    if c.closed then dropSock h
  else if c.closed ∧ c.finAcked then
    let now ← netNow w
    if c.linger = 0 then putSock h fun c => { c with linger := now + 300 }
    else if c.linger ≤ now then
      dropConn key
      dropSock h

structure Segment where
  sport : Nat
  dport : Nat
  seq : Nat
  ack : Nat
  fl : Nat
  win : Nat
  dlen : Nat
  doff : Nat

def Segment.fin (g : Segment) : Bool := g.fl &&& 1 ≠ 0

def Segment.syn (g : Segment) : Bool := g.fl &&& 2 ≠ 0

def Segment.rst (g : Segment) : Bool := g.fl &&& 4 ≠ 0

def Segment.ackf (g : Segment) : Bool := g.fl &&& 16 ≠ 0

/-- The first part of `net_tcp_in`, which reads the header; `none` for what is no segment. -/
def readSegment (f : Frame) (off plen : Nat) : Action Net (Option Segment) :=
  if plen < 20 then return none
  else do
    let sport ← readWord f off
    let dport ← readWord f (off + 2)
    let seq ← readLong f (off + 4)
    let ack ← readLong f (off + 8)
    let hb ← atByte f (off + 12)
    let fl ← atByte f (off + 13)
    let win ← readWord f (off + 14)
    let hl := (hb >>> 4) * 4
    return if plen < hl then none else some ⟨sport, dport, seq, ack, fl, win, plen - hl, off + hl⟩

def tcpStranger (src : Nat) (g : Segment) : Action Net Unit :=
  if g.rst then return ()
  else do
    if ← netCheck .inward .tcp src g.dport then
      let s ← Action.get
      match if g.syn ∧ g.ackf = false then s.listen g.dport else none with
      | some lh =>
        let h ← netNewSock w .synRcvd
        let lo ← readSock lh
        let iss ← ask fun k => w.random k &&& 1073741823
        putSock h fun c =>
          { c with
            rip := src
            rport := g.sport
            lport := g.dport
            parent := lh
            owner := lo.owner
            rcvNxt := netSeqAdd g.seq 1
            sndUna := iss
            sndNxt := netSeqAdd iss 1
            txseq := netSeqAdd iss 1
            sndWnd := g.win }
        Action.modify fun s => { s with conns := Function.update s.conns ⟨src, g.sport, g.dport⟩ (some h) }
        let _ ← netTcpCtl ipSend h 18 iss
        let now ← netNow w
        putSock h fun c => { c with rtoAt := now + 50 }
      | none =>
        let _ ← netTcpRefuse ipSend src g.sport g.dport g.seq g.ack g.fl g.dlen
    else return ()

def tcpReset (key : ConnKey) (h : Nat) : Action Net Unit := do
  let c ← readSock h
  putSock h fun c => { c with reset := true, state := .closed }
  dropConn key
  if c.state = .synRcvd ∨ c.closed then dropSock h

def tcpOpened (h : Nat) (g : Segment) : Action Net Unit := do
  let c ← readSock h
  if g.syn ∧ g.ackf ∧ g.ack = c.sndNxt then
    putSock h fun c =>
      { c with rcvNxt := netSeqAdd g.seq 1, sndUna := g.ack, sndWnd := g.win, state := .est, rtoAt := 0, tries := 0 }
    let _ ← netTcpCtl ipSend h 16 c.sndNxt

def tcpAccepted (h : Nat) (g : Segment) : Action Net Bool := do
  let c ← readSock h
  if c.state ≠ .synRcvd then return true
  else if g.ackf ∧ g.ack = c.sndNxt then
    putSock h fun c => { c with state := .est, sndUna := g.ack, rtoAt := 0, tries := 0 }
    match ← netSock c.parent with
    | some l => putSock l fun c => { c with queue := c.queue.put h h }
    | none => pure ()
    return true
  else return false

def tcpAcked (h : Nat) (g : Segment) : Action Net Unit := do
  let c ← readSock h
  if 0 < netSeqDiff g.ack c.sndUna ∧ netSeqDiff g.ack c.sndNxt ≤ 0 then
    let n := min (netSeqDiff g.ack c.txseq) c.txq.length
    let rtoAt ←
      if netSeqDiff g.ack c.sndNxt < 0 then do
        let now ← netNow w
        pure (now + 50)
      else pure 0
    putSock h fun c =>
      { c with
        sndUna := g.ack
        txq := if 0 < n then c.txq.drop n.toNat else c.txq
        txseq := if 0 < n then netSeqAdd c.txseq n.toNat else c.txseq
        finAcked := c.finAcked || (c.finSent && decide (1 ≤ netSeqDiff g.ack c.finSeq))
        tries := 0
        rto := 50
        rtoAt := rtoAt }
  putSock h fun c => { c with sndWnd := g.win }

def tcpData (f : Frame) (h : Nat) (g : Segment) : Action Net Unit := do
  let c ← readSock h
  if 0 < g.dlen ∧ g.seq = c.rcvNxt ∧ c.finRcvd = false then
    let data ← Action.access (cut f g.doff g.dlen)
    putSock h fun c => { c with rx := c.rx ++ data, rcvNxt := netSeqAdd c.rcvNxt g.dlen }
    deliver (.rx h) data

def tcpFin (h : Nat) (g : Segment) : Action Net Unit := do
  let c ← readSock h
  if g.fin ∧ netSeqAdd g.seq g.dlen = c.rcvNxt ∧ c.finRcvd = false then
    putSock h fun c => { c with finRcvd := true, rcvNxt := netSeqAdd c.rcvNxt 1 }

/-- The rest of `net_tcp_in`, for a connection that stands. -/
def tcpEstablished (turns : Nat) (f : Frame) (h : Nat) (g : Segment) : Action Net Unit := do
  if g.syn then
    let c ← readSock h
    let _ ← netTcpCtl ipSend h 16 c.sndNxt
  else
    if g.ackf then tcpAcked w h g
    tcpData f h g
    tcpFin h g
    if 0 < g.dlen ∨ g.fin then
      let c ← readSock h
      let _ ← netTcpCtl ipSend h 16 c.sndNxt
    netTcpOutput w ipSend turns h
    netTcpReap w h

/-- A segment of the connection `h`. -/
def tcpConnected (turns : Nat) (f : Frame) (key : ConnKey) (h : Nat) (g : Segment) : Action Net Unit := do
  let c ← readSock h
  if g.rst then tcpReset key h
  else if c.state = .synSent then tcpOpened ipSend h g
  else
    if ← tcpAccepted h g then tcpEstablished w ipSend turns f h g else return ()

def netTcpIn (turns : Nat) (f : Frame) (off plen src : Nat) : Action Net Unit := do
  match ← readSegment f off plen with
  | none => return ()
  | some g =>
    let key : ConnKey := ⟨src, g.sport, g.dport⟩
    let s ← Action.get
    match (s.conns key).filter s.socks with
    | some h => tcpConnected w ipSend turns f key h g
    | none => tcpStranger w ipSend src g

end Ussr.Moscow

/-! What Moscow's network stack does with a frame. -/

namespace Ussr.Moscow

variable (w : Outside)

section

variable (ipSend : Sender) (turns : Nat)

def netArpIn (f : Frame) : Action Net Unit := do
  let op ← readWord f 20
  let spa ← readLong f 28
  let tpa ← readLong f 38
  let sha ← netMacAt f 22
  if spa ≠ 0 then Action.modify fun s => { s with arp := s.arp.put spa sha }
  let s ← Action.get
  if op = 1 ∧ tpa = s.ip ∧ s.ip ≠ 0 then
    let _ ← netArpSend w spa (some sha)

def netIcmpIn (f : Frame) (off plen src : Nat) : Action Net Unit :=
  if plen < 8 then return ()
  else do
    let type ← atByte f off
    let id ← readWord f (off + 4)
    let seq ← readWord f (off + 6)
    if type = 8 then
      if ← netCheck .inward .icmp src 0 then
        let data ← Action.access (cut f (off + 8) (plen - 8))
        deliver .echo data
        let _ ← ipSend src 1 (echoReply id seq data) fun _ => some data
    else if type = 0 ∧ id = 21843 then
      let now ← netNow w
      Action.modify fun s => { s with pings := s.pings.put seq now }

def netUdpIn (f : Frame) (off plen src : Nat) : Action Net Unit :=
  if plen < 8 then return ()
  else do
    let dport ← readWord f (off + 2)
    let s ← Action.get
    if dport = 68 ∧ s.dhcpOn then Action.modify fun s => { s with dhcp := some (f, off + 8, plen - 8) }
    else
      match (s.udp dport).filter fun u => u.peers.contains src with
      | some u =>
        let sport ← readWord f off
        let data ← Action.access (cut f (off + 8) (plen - 8))
        Action.modify fun s =>
          { s with udp := Function.update s.udp dport (some { u with q := u.q ++ [(src, sport, data)] }) }
        deliver (.udp dport) data
      | none =>
        let _ ← netCheck .inward .udp src dport

def netIpIn (f : Frame) (n : Nat) : Action Net Unit := do
  let vihl ← atByte f 14
  if vihl >>> 4 ≠ 4 then return ()
  else
    let ihl := (vihl &&& 15) * 4
    let total ← readWord f 16
    let frag ← readWord f 20
    let proto ← atByte f 23
    let src ← readLong f 26
    let dst ← readLong f 30
    let s ← Action.get
    if total < ihl ∨ n < total + 14 then return ()
    else if frag &&& 16383 ≠ 0 then return ()
    else if ¬ (dst = s.ip ∨ dst = 4294967295 ∨ s.ip = 0) then return ()
    else
      if src ≠ 0 then
        let sha ← netMacAt f 6
        Action.modify fun s => { s with arp := s.arp.put src sha }
      let off := 14 + ihl
      let plen := total - ihl
      if proto = 1 then netIcmpIn w ipSend f off plen src
      else if proto = 17 then netUdpIn f off plen src
      else if proto = 6 then netTcpIn w ipSend turns f off plen src

/-- `net_input`, given how it sends. -/
def netInputWith (f : Frame) : Action Net Unit :=
  if f.length < 42 then return ()
  else do
    let type ← readWord f 12
    if type = 2054 then netArpIn w f
    else if type = 2048 then netIpIn w ipSend turns f f.length

end

def apart (action : Action Net Unit) : Action Net Unit :=
  fun s => ((action s).1, { (action s).2 with delivered := s.delivered })

/-- The loop of `net_poll_frames`. -/
def pollFrames (input : Frame → Action Net Unit) : (turns : Nat) → Action Net Unit
  | 0 => Action.fail
  | turns + 1 => do
    match ← ask w.recv with
    | none => return ()
    | some f =>
      input f
      pollFrames input turns

/-- `net_input`: at most `depth` frames are handled one inside the other, and each loop makes at
most `turns` turns; what goes further fails. -/
def netInput (turns : Nat) : (depth : Nat) → Frame → Action Net Unit
  | 0, _ => Action.fail
  | depth + 1, f => netInputWith w (netIpSend w (apart (pollFrames w (netInput turns depth) turns)) turns) turns f

end Ussr.Moscow
