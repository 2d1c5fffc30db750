import Ussr.Moscow.Tcp

/-! What Moscow's network stack delivers of a frame, and from which of its bytes. -/

namespace Ussr.Moscow
open Action (Leaves)

section

variable {w : Outside} {γ : Type} {view : Net → γ} {may : Prop}

theorem readSock_leaves (h : Nat) : Leaves view may (readSock h) := Leaves.of_run fun _ => rfl

theorem netSock_leaves (h : Nat) : Leaves view may (netSock h) := Leaves.of_run fun _ => rfl

theorem ask_leaves {α : Type} (answer : Nat → α) : Leaves Net.delivered may (ask answer) := Leaves.of_run fun _ => rfl

theorem netSend_leaves (frame : Frame) : Leaves Net.delivered may (netSend w frame) :=
  Leaves.modify_bind (fun _ => rfl) fun _ => ask_leaves _

theorem netArpSend_leaves (ip : Nat) (mac : Option (List UInt8)) : Leaves Net.delivered may (netArpSend w ip mac) :=
  Leaves.get_bind fun _ => netSend_leaves _

theorem netCheck_leaves (dir : Murmansk.Dir) (proto : Murmansk.Proto) (ip port : Nat) (h : may) :
    Leaves Net.delivered may (netCheck dir proto ip port) :=
  Leaves.get_bind fun _ => Leaves.some?_bind h fun _ => Leaves.modify_bind (fun _ => rfl) fun _ => Leaves.pure _

variable {poll : Action Net Unit} (hpoll : Leaves Net.delivered True poll)
include hpoll

theorem waitMac_leaves (hop stop turns now : Nat) : Leaves Net.delivered True (waitMac w poll hop stop turns now) := by
  induction turns generalizing now with
  | zero => exact Leaves.fail trivial
  | succ turns ih =>
    refine Leaves.ite (hpoll.bind fun _ => Leaves.get_bind fun s => ?_) (Leaves.pure _)
    cases s.arp.get hop with
    | some mac => exact Leaves.pure _
    | none => exact (ask_leaves _).bind fun now => ih now

theorem askMac_leaves (turns hop tries : Nat) : Leaves Net.delivered True (askMac w poll turns hop tries) := by
  induction tries with
  | zero => exact Leaves.pure _
  | succ tries ih =>
    refine (netArpSend_leaves _ _).bind fun _ => (ask_leaves _).bind fun t0 => ?_
    refine (waitMac_leaves hpoll _ _ _ _).bind fun mac => ?_
    cases mac with
    | some mac => exact Leaves.pure _
    | none => exact ih

theorem netMacFor_leaves (turns ip : Nat) : Leaves Net.delivered True (netMacFor w poll turns ip) := by
  refine Leaves.ite (Leaves.pure _) (Leaves.get_bind fun s => ?_)
  dsimp only
  cases s.arp.get (if ip &&& s.mask ≠ s.ip &&& s.mask then s.gw else ip) with
  | some mac => exact Leaves.pure _
  | none => exact askMac_leaves hpoll _ _ _

theorem netIpSend_leaves (turns dst proto : Nat) (head : List UInt8) (tail : Net → Option (List UInt8)) :
    Leaves Net.delivered True (netIpSend w poll turns dst proto head tail) := by
  refine (netMacFor_leaves hpoll _ _).bind fun mac => ?_
  cases mac with
  | none => exact Leaves.pure _
  | some mac =>
    refine Leaves.get_bind fun s => Leaves.modify_bind (fun _ => rfl) fun _ => ?_
    cases tail s with
    | none => exact Leaves.pure _
    | some tail => exact netSend_leaves _

end

section

variable {w : Outside} {ipSend : Sender}

theorem putSock_leaves {may : Prop} (h : Nat) (f : Sock → Sock) : Leaves Net.delivered may (putSock h f) :=
  Leaves.modify fun _ => rfl

theorem dropConn_leaves {may : Prop} (key : ConnKey) : Leaves Net.delivered may (dropConn key) := Leaves.modify fun _ => rfl

theorem dropSock_leaves {may : Prop} (h : Nat) : Leaves Net.delivered may (dropSock h) := Leaves.modify fun _ => rfl

theorem netNewSock_leaves (kind : SockState) : Leaves Net.delivered True (netNewSock w kind) :=
  (ask_leaves _).bind fun _ => Leaves.get_bind fun _ => Leaves.modify_bind (fun _ => rfl) fun _ => Leaves.pure _

theorem tcpReset_leaves (key : ConnKey) (h : Nat) : Leaves Net.delivered True (tcpReset key h) := by
  refine (readSock_leaves _).bind fun c => (putSock_leaves _ _).bind fun _ => (dropConn_leaves _).bind fun _ => ?_
  exact Leaves.ite (dropSock_leaves _) (Leaves.pure _)

theorem tcpFin_leaves (h : Nat) (g : Segment) : Leaves Net.delivered True (tcpFin h g) :=
  (readSock_leaves _).bind fun _ => Leaves.ite (putSock_leaves _ _) (Leaves.pure _)

theorem netTcpReap_leaves (h : Nat) : Leaves Net.delivered True (netTcpReap w h) := by
  refine (readSock_leaves _).bind fun c => Leaves.ite ?_ (Leaves.ite ?_ (Leaves.pure _))
  · refine (dropConn_leaves _).bind fun _ => (putSock_leaves _ _).bind fun _ => ?_
    exact Leaves.ite (dropSock_leaves _) (Leaves.pure _)
  · refine (ask_leaves _).bind fun now => Leaves.ite (putSock_leaves _ _) (Leaves.ite ?_ (Leaves.pure _))
    exact (dropConn_leaves _).bind fun _ => dropSock_leaves _

def Silent (ipSend : Sender) : Prop := ∀ dst proto head tail, Leaves Net.delivered True (ipSend dst proto head tail)

variable (hsend : Silent ipSend)
include hsend

theorem netTcpSeg_leaves (c : Ends) (flags seq : Nat) (data : Net → Option (List UInt8)) :
    Leaves Net.delivered True (netTcpSeg ipSend c flags seq data) :=
  Leaves.get_bind fun _ => Leaves.some?_bind trivial fun _ => hsend _ _ _ _

theorem netTcpCtl_leaves (h flags seq : Nat) : Leaves Net.delivered True (netTcpCtl ipSend h flags seq) :=
  (readSock_leaves _).bind fun _ => netTcpSeg_leaves hsend _ _ _ _

theorem netTcpRefuse_leaves (src sport dport seq ack fl dlen : Nat) :
    Leaves Net.delivered True (netTcpRefuse ipSend src sport dport seq ack fl dlen) :=
  Leaves.ite (netTcpSeg_leaves hsend _ _ _ _) (netTcpSeg_leaves hsend _ _ _ _)

theorem outputLoop_leaves (h : Nat) (wnd : Int) (turns nxt : Nat) (inflight sent avail : Int) :
    Leaves Net.delivered True (outputLoop ipSend h wnd turns nxt inflight sent avail) := by
  induction turns generalizing nxt inflight sent avail with
  | zero => exact Leaves.fail trivial
  | succ turns ih =>
    refine Leaves.ite ((readSock_leaves _).bind fun c => ?_) (Leaves.pure _)
    exact (netTcpSeg_leaves hsend _ _ _ _).bind fun _ => ih _ _ _ _

theorem netTcpOutput_leaves (turns h : Nat) : Leaves Net.delivered True (netTcpOutput w ipSend turns h) := by
  refine (readSock_leaves _).bind fun c => Leaves.ite (Leaves.pure _) ?_
  refine (outputLoop_leaves hsend _ _ _ _ _ _ _).bind fun out => ?_
  have hlast (nxt : Nat) : Leaves Net.delivered True (do
      let d ← readSock h
      if 0 < netSeqDiff nxt c.sndUna ∧ d.rtoAt = 0 then
        let now ← netNow w
        putSock h fun c => { c with rtoAt := now + c.rto }
      else return ()) :=
    (readSock_leaves _).bind fun d => Leaves.ite ((ask_leaves _).bind fun _ => putSock_leaves _ _) (Leaves.pure _)
  refine (putSock_leaves _ _).bind fun _ => (readSock_leaves _).bind fun d => Leaves.ite ?_ ?_
  · refine (netTcpCtl_leaves hsend _ _ _).bind fun _ => (putSock_leaves _ _).bind fun _ => ?_
    exact (Leaves.pure _).bind hlast
  · exact (Leaves.pure _).bind hlast

theorem tcpStranger_leaves (src : Nat) (g : Segment) : Leaves Net.delivered True (tcpStranger w ipSend src g) := by
  refine Leaves.ite (Leaves.pure _) ((netCheck_leaves _ _ _ _ trivial).bind fun ok => Leaves.ite ?_ (Leaves.pure _))
  refine Leaves.get_bind fun s => ?_
  cases (if g.syn ∧ g.ackf = false then s.listen g.dport else none) with
  | some lh =>
    refine (netNewSock_leaves _).bind fun h => (readSock_leaves _).bind fun lo => (ask_leaves _).bind fun iss => ?_
    refine (putSock_leaves _ _).bind fun _ => Leaves.modify_bind (fun _ => rfl) fun _ => ?_
    exact (netTcpCtl_leaves hsend _ _ _).bind fun _ => (ask_leaves _).bind fun now => putSock_leaves _ _
  | none => exact (netTcpRefuse_leaves hsend _ _ _ _ _ _ _).bind fun _ => Leaves.pure _

theorem tcpOpened_leaves (h : Nat) (g : Segment) : Leaves Net.delivered True (tcpOpened ipSend h g) := by
  refine (readSock_leaves _).bind fun c => Leaves.ite ?_ (Leaves.pure _)
  exact (putSock_leaves _ _).bind fun _ => (netTcpCtl_leaves hsend _ _ _).bind fun _ => Leaves.pure _

end

section

def byteAt (f : Frame) (i : Nat) : Nat := (f[i]?.map UInt8.toNat).getD 0

def wordAt (f : Frame) (i : Nat) : Nat := (netR16 f i).getD 0

def longAt (f : Frame) (i : Nat) : Nat := (netR32 f i).getD 0

def headerLen (f : Frame) : Nat := (byteAt f 14 &&& 15) * 4

def totalLen (f : Frame) : Nat := wordAt f 16

def partAt (f : Frame) : Nat := 14 + headerLen f

def partLen (f : Frame) : Nat := totalLen f - headerLen f

def dataOffset (f : Frame) : Nat := (byteAt f (partAt f + 12) >>> 4) * 4

def segmentOf (f : Frame) : Segment where
  sport := wordAt f (partAt f)
  dport := wordAt f (partAt f + 2)
  seq := longAt f (partAt f + 4)
  ack := longAt f (partAt f + 8)
  fl := byteAt f (partAt f + 13)
  win := wordAt f (partAt f + 14)
  dlen := partLen f - dataOffset f
  doff := partAt f + dataOffset f

variable {f : Frame} {α : Type} {i : Nat} (s : Net)

theorem atByte_bind_run (h : i < f.length) (next : Nat → Action Net α) : (atByte f i >>= next) s = next (byteAt f i) s := by
  rw [atByte, byteAt, List.getElem?_eq_getElem h]
  rfl

theorem netR16_inside (h : i + 1 < f.length) : netR16 f i = some (wordAt f i) := by
  have hsome : (netR16 f i).isSome := by
    simp [netR16, List.getElem?_eq_getElem h, List.getElem?_eq_getElem (Nat.lt_of_succ_lt h)]
  rw [wordAt, Option.getD_eq_iff.mpr (.inl (Option.some_get hsome).symm), Option.some_get]

theorem readWord_bind_run (h : i + 1 < f.length) (next : Nat → Action Net α) :
    (readWord f i >>= next) s = next (wordAt f i) s := by
  rw [readWord, netR16_inside h]
  rfl

theorem readLong_bind_run (h : i + 3 < f.length) (next : Nat → Action Net α) :
    (readLong f i >>= next) s = next (longAt f i) s := by
  rw [readLong, longAt, netR32, netR16_inside (by omega), netR16_inside (by omega)]
  rfl

theorem cut_bind_run {count : Nat} (h : i + count ≤ f.length) (next : List UInt8 → Action Net α) :
    (Action.access (cut f i count) >>= next) s = next ((f.drop i).take count) s := by
  rw [cut, if_pos h]
  rfl

end

def Feeds (g : Segment) (c : Sock) : Prop :=
  g.rst = false ∧ c.state ≠ .synSent ∧ (c.state = .synRcvd → g.ackf ∧ g.ack = c.sndNxt) ∧ g.syn = false ∧
    0 < g.dlen ∧ g.seq = c.rcvNxt ∧ c.finRcvd = false

instance (g : Segment) (c : Sock) : Decidable (Feeds g c) := inferInstanceAs (Decidable (_ ∧ _ ∧ _ ∧ _ ∧ _ ∧ _ ∧ _))

def echoPacket (f : Frame) : Murmansk.Packet where
  dir := .inward
  proto := .icmp
  ip := longAt f 26 % 2 ^ 32
  port := 0
  ip_lt := Nat.mod_lt _ (by decide)
  port_le := by decide

def Takes (s : Net) (f : Frame) : Receiver → Prop
  | .echo =>
    byteAt f 23 = 1 ∧ 8 ≤ partLen f ∧ byteAt f (partAt f) = 8 ∧
      ∃ fw, s.fw.murmanskCheck (echoPacket f) = some (fw, true)
  | .udp port =>
    byteAt f 23 = 17 ∧ 8 ≤ partLen f ∧ port = wordAt f (partAt f + 2) ∧ ¬ (port = 68 ∧ s.dhcpOn) ∧
      ∃ u, s.udp port = some u ∧ u.peers.contains (longAt f 26)
  | .rx h =>
    byteAt f 23 = 6 ∧ 20 ≤ partLen f ∧ dataOffset f ≤ partLen f ∧
      s.conns ⟨longAt f 26, (segmentOf f).sport, (segmentOf f).dport⟩ = some h ∧ s.socks h ∧ Feeds (segmentOf f) (s.socket h)

/-- The packets that `net_ip_in` hands on. -/
structure Accepts (s : Net) (f : Frame) : Prop where
  long : 42 ≤ f.length
  type : wordAt f 12 = 2048
  version : byteAt f 14 >>> 4 = 4
  header : headerLen f ≤ totalLen f
  inside : totalLen f + 14 ≤ f.length
  whole : wordAt f 20 &&& 16383 = 0
  mine : longAt f 30 = s.ip ∨ longAt f 30 = 4294967295 ∨ s.ip = 0

def payload (f : Frame) : Receiver → List UInt8
  | .rx _ => (f.drop (partAt f + dataOffset f)).take (partLen f - dataOffset f)
  | _ => (f.drop (partAt f + 8)).take (partLen f - 8)

/-- From `s` on, the one receiver in `T` has got its bytes, or nobody has. -/
structure Handles (f : Frame) (T : Receiver → Prop) (s : Net) (result : Except Stop Unit × Net) : Prop where
  safe : result.1 ≠ .error .fault
  delivered :
    (∃ r, T r ∧ result.2.delivered = s.delivered ++ [⟨r, payload f r⟩]) ∨ (∀ r, ¬ T r) ∧ result.2.delivered = s.delivered

theorem Takes.unique {s : Net} {f : Frame} {r r' : Receiver} (h : Takes s f r) (h' : Takes s f r') : r = r' := by
  cases r <;> cases r'
  case echo.echo => rfl
  case udp.udp => rw [h.2.2.1, h'.2.2.1]
  case rx.rx => rw [Option.some_inj.mp (h.2.2.2.1.symm.trans h'.2.2.2.1)]
  all_goals exact absurd (h.1.symm.trans h'.1) (by decide)

theorem Handles.nobody {f : Frame} {T : Receiver → Prop} {s s' : Net} {action : Action Net Unit}
    (ha : Leaves Net.delivered True action) (hs : s'.delivered = s.delivered) (hT : ∀ r, ¬ T r) :
    Handles f T s (action s') :=
  ⟨(ha.run s').1, .inr ⟨hT, (ha.run s').2.trans hs⟩⟩

theorem Handles.narrow {f : Frame} {T T' : Receiver → Prop} {s s' : Net} {result : Except Stop Unit × Net}
    (h : Handles f T s' result) (hs : s'.delivered = s.delivered) (hT : ∀ r, T' r ↔ T r) : Handles f T' s result := by
  refine ⟨h.safe, ?_⟩
  rw [← hs]
  obtain ⟨r, hr, hdelivered⟩ | ⟨hnone, hdelivered⟩ := h.delivered
  · exact .inl ⟨r, (hT r).mpr hr, hdelivered⟩
  · exact .inr ⟨fun r hr => hnone r ((hT r).mp hr), hdelivered⟩

theorem Handles.bytes {f : Frame} {T : Receiver → Prop} {s s' : Net} {action : Action Net Unit} {r : Receiver}
    (ha : Leaves Net.delivered True action) (hs : s'.delivered = s.delivered ++ [⟨r, payload f r⟩]) (hT : T r) :
    Handles f T s (action s') :=
  ⟨(ha.run s').1, .inl ⟨r, hT, (ha.run s').2.trans hs⟩⟩

section

variable {w : Outside} {ipSend : Sender} {turns : Nat} {s : Net} {f : Frame} (hsend : Silent ipSend)

theorem echoCheck_run :
    netCheck .inward .icmp (longAt f 26) 0 s =
      match s.fw.murmanskCheck (echoPacket f) with
      | none => (.error .failed, s)
      | some (fw, ok) => (.ok ok, { s with fw := fw }) := by
  have hpacket : netCheck .inward .icmp (longAt f 26) 0 s =
      (Action.some? (s.fw.murmanskCheck (echoPacket f)) >>= fun v => do
        Action.modify fun s => { s with fw := v.1 }
        return v.2) s := rfl
  rw [hpacket]
  cases s.fw.murmanskCheck (echoPacket f) with
  | none => rfl
  | some v => rfl

include hsend in
theorem netIcmpIn_handles (hpart : partAt f + partLen f ≤ f.length) (hproto : byteAt f 23 = 1) :
    Handles f (Takes s f) s (netIcmpIn w ipSend f (partAt f) (partLen f) (longAt f 26) s) := by
  have hother (hnone : ¬ Takes s f .echo) (r : Receiver) : ¬ Takes s f r := by
    rintro hr
    cases r with
    | echo => exact hnone hr
    | udp port => exact absurd (hproto.symm.trans hr.1) (by decide)
    | rx h => exact absurd (hproto.symm.trans hr.1) (by decide)
  unfold netIcmpIn
  by_cases hshort : partLen f < 8
  · rw [if_pos hshort]
    exact Handles.nobody (Leaves.pure _) rfl (hother fun h => absurd h.2.1 (by omega))
  rw [if_neg hshort, atByte_bind_run s (by omega), readWord_bind_run s (by omega), readWord_bind_run s (by omega)]
  by_cases htype : byteAt f (partAt f) = 8
  · rw [if_pos htype, Action.bind_run, echoCheck_run]
    cases hcheck : s.fw.murmanskCheck (echoPacket f) with
    | none =>
      refine ⟨fun h => (by cases h), .inr ⟨hother fun h => ?_, rfl⟩⟩
      obtain ⟨fw, hfw⟩ := h.2.2.2
      exact absurd (hcheck.symm.trans hfw) (by simp)
    | some v =>
      obtain ⟨fw, ok⟩ := v
      cases ok with
      | false =>
        refine ⟨fun h => (by cases h), .inr ⟨hother fun h => ?_, rfl⟩⟩
        obtain ⟨fw', hfw⟩ := h.2.2.2
        exact absurd (hcheck.symm.trans hfw) (by simp)
      | true =>
        have htakes : Takes s f .echo := ⟨hproto, by omega, htype, fw, hcheck⟩
        dsimp only
        rw [if_pos rfl, cut_bind_run _ (by omega), deliver, Action.modify_bind_run]
        exact Handles.bytes ((hsend _ _ _ _).bind fun _ => Leaves.pure _) rfl htakes
  · rw [if_neg htype]
    refine Handles.nobody ?_ rfl (hother fun h => htype h.2.2.1)
    exact Leaves.ite ((ask_leaves _).bind fun _ => Leaves.modify fun _ => rfl) (Leaves.pure _)

theorem netUdpIn_handles (hpart : partAt f + partLen f ≤ f.length) (hproto : byteAt f 23 = 17) :
    Handles f (Takes s f) s (netUdpIn f (partAt f) (partLen f) (longAt f 26) s) := by
  have hother (hnone : ∀ port, ¬ Takes s f (.udp port)) (r : Receiver) : ¬ Takes s f r := by
    intro hr
    cases r with
    | echo => exact absurd (hproto.symm.trans hr.1) (by decide)
    | udp port => exact hnone port hr
    | rx h => exact absurd (hproto.symm.trans hr.1) (by decide)
  unfold netUdpIn
  by_cases hshort : partLen f < 8
  · rw [if_pos hshort]
    exact Handles.nobody (Leaves.pure _) rfl (hother fun port h => absurd h.2.1 (by omega))
  rw [if_neg hshort, readWord_bind_run s (by omega), Action.get_bind_run]
  by_cases hdhcp : wordAt f (partAt f + 2) = 68 ∧ s.dhcpOn
  · rw [if_pos hdhcp]
    exact Handles.nobody (Leaves.modify fun _ => rfl) rfl (hother fun port h => h.2.2.2.1 (h.2.2.1 ▸ hdhcp))
  rw [if_neg hdhcp]
  cases hu : (s.udp (wordAt f (partAt f + 2))).filter fun u => u.peers.contains (longAt f 26) with
  | none =>
    refine Handles.nobody ((netCheck_leaves _ _ _ _ trivial).bind fun _ => Leaves.pure _) rfl (hother ?_)
    rintro port ⟨-, -, rfl, -, u, hport, hpeer⟩
    rw [hport, Option.filter_some, if_pos hpeer] at hu
    cases hu
  | some u =>
    obtain ⟨hport, hpeer⟩ := Option.filter_eq_some_iff.mp hu
    dsimp only
    rw [readWord_bind_run s (by omega), cut_bind_run s (by omega), Action.modify_bind_run]
    have htakes : Takes s f (.udp (wordAt f (partAt f + 2))) := ⟨hproto, by omega, rfl, hdhcp, u, hport, hpeer⟩
    exact ⟨fun h => (by cases h), .inl ⟨_, htakes, rfl⟩⟩

section

variable {h : Nat} {g : Segment}

/-- What decides on the data of a segment to the socket `h`. -/
def rxView (h : Nat) (s : Net) : List Delivery × Nat × Bool := (s.delivered, (s.socket h).rcvNxt, (s.socket h).finRcvd)

theorem putSock_keeps {may : Prop} (k : Nat) {p : Sock → Sock}
    (hp : ∀ c, (p c).rcvNxt = c.rcvNxt ∧ (p c).finRcvd = c.finRcvd) : Leaves (rxView h) may (putSock k p) := by
  refine Leaves.modify fun s => ?_
  by_cases hk : h = k
  · cases hk
    simp [rxView, Net.setSock, hp]
  · simp [rxView, Net.setSock, Function.update_of_ne hk]

theorem tcpAccepted_leaves : Leaves (rxView h) False (tcpAccepted h g) := by
  refine (readSock_leaves _).bind fun c => Leaves.ite (Leaves.pure _) (Leaves.ite ?_ (Leaves.pure _))
  refine Leaves.bind (putSock_keeps _ fun _ => ⟨rfl, rfl⟩) fun _ => (netSock_leaves _).bind fun l => ?_
  cases l with
  | none => exact Leaves.bind (Leaves.pure ()) fun _ => Leaves.pure _
  | some l => exact Leaves.bind (putSock_keeps _ fun _ => ⟨rfl, rfl⟩) fun _ => Leaves.pure _

theorem tcpAccepted_result (s : Net) :
    (tcpAccepted h g s).1 = .ok (decide ((s.socket h).state = .synRcvd → g.ackf ∧ g.ack = (s.socket h).sndNxt)) := by
  rw [tcpAccepted, Action.bind_run]
  simp only [readSock]
  by_cases hstate : (s.socket h).state = .synRcvd
  · rw [if_neg (not_not.mpr hstate)]
    by_cases hack : g.ackf ∧ g.ack = (s.socket h).sndNxt
    · rw [if_pos hack, putSock, Action.modify_bind_run, decide_eq_true fun _ => hack, Action.bind_run]
      simp only [netSock]
      split <;> rfl
    · rw [if_neg hack, decide_eq_false fun hall => hack (hall hstate)]
      rfl
  · rw [if_pos hstate, decide_eq_true fun hall => absurd hall hstate]
    rfl

theorem tcpAcked_leaves : Leaves (rxView h) False (tcpAcked w h g) := by
  refine (readSock_leaves _).bind fun c => ?_
  have hwnd : Leaves (rxView h) False (putSock h fun c => { c with sndWnd := g.win }) := putSock_keeps _ fun _ => ⟨rfl, rfl⟩
  refine Leaves.ite (Leaves.ite ?_ ?_) hwnd
  · exact Leaves.bind (Leaves.of_run fun _ => rfl : Leaves _ _ (netNow w)) fun now => Leaves.bind (Leaves.pure _) fun _ =>
      Leaves.bind (putSock_keeps _ fun _ => ⟨rfl, rfl⟩) fun _ => hwnd
  · exact Leaves.bind (Leaves.pure _) fun _ => Leaves.bind (putSock_keeps _ fun _ => ⟨rfl, rfl⟩) fun _ => hwnd

def fed (f : Frame) (h : Nat) (g : Segment) (c : Sock) : List Delivery :=
  if 0 < g.dlen ∧ g.seq = c.rcvNxt ∧ c.finRcvd = false then [⟨.rx h, (f.drop g.doff).take g.dlen⟩] else []

theorem tcpData_run (hdata : g.doff + g.dlen ≤ f.length) (s : Net) :
    ∃ s', tcpData f h g s = (.ok (), s') ∧ s'.delivered = s.delivered ++ fed f h g (s.socket h) := by
  rw [tcpData, Action.bind_run]
  simp only [readSock, fed]
  by_cases htake : 0 < g.dlen ∧ g.seq = (s.socket h).rcvNxt ∧ (s.socket h).finRcvd = false
  · rw [if_pos htake, if_pos htake, cut_bind_run s hdata, putSock, Action.modify_bind_run]
    exact ⟨_, rfl, rfl⟩
  · rw [if_neg htake, if_neg htake, List.append_nil]
    exact ⟨_, rfl, rfl⟩

theorem tcpData_bind {rest : Unit → Action Net Unit} (hrest : Leaves Net.delivered True (rest ()))
    (hdata : g.doff + g.dlen ≤ f.length) {s s' : Net} (hview : rxView h s' = rxView h s) :
    ((tcpData f h g >>= rest) s').1 ≠ .error .fault ∧
      ((tcpData f h g >>= rest) s').2.delivered = s.delivered ++ fed f h g (s.socket h) := by
  obtain ⟨s'', hrun, hdelivered⟩ := tcpData_run (h := h) (g := g) hdata s'
  simp only [rxView, Prod.mk.injEq] at hview
  have hfed : fed f h g (s'.socket h) = fed f h g (s.socket h) := by rw [fed, fed, hview.2.1, hview.2.2]
  rw [Action.bind_ok hrun]
  refine ⟨(hrest.run s'').1, (hrest.run s'').2.trans ?_⟩
  rw [hdelivered, hfed, hview.1]

include hsend in
theorem tcpEstablished_delivered (hdata : g.doff + g.dlen ≤ f.length) {s s' : Net} (hview : rxView h s' = rxView h s) :
    (tcpEstablished w ipSend turns f h g s').1 ≠ .error .fault ∧
      (tcpEstablished w ipSend turns f h g s').2.delivered =
        s.delivered ++ if g.syn then [] else fed f h g (s.socket h) := by
  unfold tcpEstablished
  by_cases hsyn : g.syn = true
  · have hanswer : Leaves Net.delivered True (do
        let c ← readSock h
        let _ ← netTcpCtl ipSend h 16 c.sndNxt) :=
      (readSock_leaves _).bind fun c => (netTcpCtl_leaves hsend _ _ _).bind fun _ => Leaves.pure _
    rw [if_pos hsyn, if_pos hsyn, List.append_nil]
    exact ⟨(hanswer.run s').1, (hanswer.run s').2.trans (congrArg Prod.fst hview)⟩
  have hrest : Leaves Net.delivered True (do
      tcpFin h g
      if 0 < g.dlen ∨ g.fin then
        let c ← readSock h
        let _ ← netTcpCtl ipSend h 16 c.sndNxt
      netTcpOutput w ipSend turns h
      netTcpReap w h) := by
    have hlast : Leaves Net.delivered True (do
        netTcpOutput w ipSend turns h
        netTcpReap w h) := (netTcpOutput_leaves hsend _ _).bind fun _ => netTcpReap_leaves _
    refine (tcpFin_leaves _ _).bind fun _ => Leaves.ite ?_ hlast
    exact (readSock_leaves _).bind fun c => (netTcpCtl_leaves hsend _ _ _).bind fun _ => hlast
  rw [if_neg hsyn, if_neg hsyn]
  by_cases hackf : g.ackf = true
  · obtain ⟨_, s'', hrun, hacked⟩ := (tcpAcked_leaves (w := w) (h := h) (g := g)).run_ok s'
    rw [if_pos hackf, Action.bind_ok hrun]
    exact tcpData_bind hrest hdata (hacked.trans hview)
  · rw [if_neg hackf]
    exact tcpData_bind hrest hdata hview

theorem fed_of_stands {c : Sock} (hrst : g.rst = false) (hopen : c.state ≠ .synSent)
    (hstands : c.state = .synRcvd → g.ackf ∧ g.ack = c.sndNxt) :
    (if g.syn then [] else fed f h g c) = if Feeds g c then [⟨.rx h, (f.drop g.doff).take g.dlen⟩] else [] := by
  cases hsyn : g.syn with
  | true => exact (if_neg fun hfeeds => absurd (hsyn.symm.trans hfeeds.2.2.2.1) (by decide)).symm
  | false =>
    rw [if_neg Bool.false_ne_true]
    exact if_congr ⟨fun hall => ⟨hrst, hopen, hstands, hsyn, hall⟩, fun hfeeds => hfeeds.2.2.2.2⟩ rfl rfl

include hsend in
theorem tcpConnected_delivered (key : ConnKey) (hdata : g.doff + g.dlen ≤ f.length) (s : Net) :
    (tcpConnected w ipSend turns f key h g s).1 ≠ .error .fault ∧
      (tcpConnected w ipSend turns f key h g s).2.delivered =
        s.delivered ++ if Feeds g (s.socket h) then [⟨.rx h, (f.drop g.doff).take g.dlen⟩] else [] := by
  have hnothing {action : Action Net Unit} (ha : Leaves Net.delivered True action) (hfeeds : ¬ Feeds g (s.socket h)) :
      (action s).1 ≠ .error .fault ∧
        (action s).2.delivered =
          s.delivered ++ if Feeds g (s.socket h) then [⟨.rx h, (f.drop g.doff).take g.dlen⟩] else [] := by
    rw [if_neg hfeeds, List.append_nil]
    exact ha.run s
  rw [tcpConnected, Action.bind_run]
  simp only [readSock]
  by_cases hrst : g.rst = true
  · rw [if_pos hrst]
    exact hnothing (tcpReset_leaves _ _) fun hfeeds => absurd (hrst.symm.trans hfeeds.1) (by decide)
  rw [if_neg hrst]
  by_cases hopen : (s.socket h).state = .synSent
  · rw [if_pos hopen]
    exact hnothing (tcpOpened_leaves hsend _ _) fun hfeeds => hfeeds.2.1 hopen
  obtain ⟨stands, s', hrun, hview⟩ := (tcpAccepted_leaves (h := h) (g := g)).run_ok s
  have hstands := tcpAccepted_result (h := h) (g := g) s
  rw [hrun] at hstands
  cases hstands
  rw [if_neg hopen, Action.bind_ok hrun]
  by_cases hall : (s.socket h).state = .synRcvd → g.ackf ∧ g.ack = (s.socket h).sndNxt
  · rw [if_pos (decide_eq_true hall), ← fed_of_stands (Bool.eq_false_of_not_eq_true hrst) hopen hall]
    exact tcpEstablished_delivered hsend hdata hview
  · rw [if_neg (mt of_decide_eq_true hall), if_neg fun hfeeds => hall hfeeds.2.2.1, List.append_nil]
    exact ⟨fun h => (by cases h), congrArg Prod.fst hview⟩

include hsend in
theorem netTcpIn_handles (hpart : partAt f + partLen f ≤ f.length) (hproto : byteAt f 23 = 6) (s : Net) :
    Handles f (Takes s f) s (netTcpIn w ipSend turns f (partAt f) (partLen f) (longAt f 26) s) := by
  have hother (hnone : ∀ h, ¬ Takes s f (.rx h)) (r : Receiver) : ¬ Takes s f r := by
    intro hr
    cases r with
    | echo => exact absurd (hproto.symm.trans hr.1) (by decide)
    | udp port => exact absurd (hproto.symm.trans hr.1) (by decide)
    | rx h => exact hnone h hr
  unfold netTcpIn readSegment
  by_cases hshort : partLen f < 20
  · rw [if_pos hshort]
    exact Handles.nobody (Leaves.pure _) rfl (hother fun h hr => absurd hr.2.1 (by omega))
  have hread (next : Option Segment → Action Net Unit) :
      ((do
        let sport ← readWord f (partAt f)
        let dport ← readWord f (partAt f + 2)
        let seq ← readLong f (partAt f + 4)
        let ack ← readLong f (partAt f + 8)
        let hb ← atByte f (partAt f + 12)
        let fl ← atByte f (partAt f + 13)
        let win ← readWord f (partAt f + 14)
        let hl := (hb >>> 4) * 4
        return if partLen f < hl then none
          else some ⟨sport, dport, seq, ack, fl, win, partLen f - hl, partAt f + hl⟩ : Action Net _) >>= next) s =
        next (if partLen f < dataOffset f then none else some (segmentOf f)) s := by
    rw [Action.bind_run, readWord_bind_run s (by omega), readWord_bind_run s (by omega), readLong_bind_run s (by omega),
      readLong_bind_run s (by omega), atByte_bind_run s (by omega), atByte_bind_run s (by omega),
      readWord_bind_run s (by omega)]
    rfl
  rw [if_neg hshort, hread]
  by_cases hoffset : partLen f < dataOffset f
  · rw [if_pos hoffset]
    exact Handles.nobody (Leaves.pure _) rfl (hother fun h hr => absurd hr.2.2.1 (by omega))
  rw [if_neg hoffset]
  dsimp only
  rw [Action.get_bind_run]
  cases hconn : (s.conns ⟨longAt f 26, (segmentOf f).sport, (segmentOf f).dport⟩).filter s.socks with
  | none =>
    refine Handles.nobody (tcpStranger_leaves hsend _ _) rfl (hother fun h hr => ?_)
    rw [hr.2.2.2.1, Option.filter_some, if_pos hr.2.2.2.2.1] at hconn
    cases hconn
  | some h =>
    obtain ⟨hkey, hsock⟩ := Option.filter_eq_some_iff.mp hconn
    have hdata : (segmentOf f).doff + (segmentOf f).dlen ≤ f.length := by
      simp only [segmentOf]
      omega
    obtain ⟨hsafe, hdelivered⟩ :
        (tcpConnected w ipSend turns f ⟨longAt f 26, (segmentOf f).sport, (segmentOf f).dport⟩ h (segmentOf f) s).1 ≠
            .error .fault ∧ _ :=
      tcpConnected_delivered hsend _ hdata s
    refine ⟨hsafe, ?_⟩
    by_cases hfeeds : Feeds (segmentOf f) (s.socket h)
    · rw [if_pos hfeeds] at hdelivered
      exact .inl ⟨.rx h, ⟨hproto, by omega, by omega, hkey, hsock, hfeeds⟩, hdelivered⟩
    · rw [if_neg hfeeds, List.append_nil] at hdelivered
      refine .inr ⟨hother fun k hr => hfeeds ?_, hdelivered⟩
      cases hkey.symm.trans hr.2.2.2.1
      exact hr.2.2.2.2.2

end

include hsend in
theorem protocol_handles (turns : Nat) (hpart : partAt f + partLen f ≤ f.length) (s : Net) :
    Handles f (Takes s f) s
      ((if byteAt f 23 = 1 then netIcmpIn w ipSend f (partAt f) (partLen f) (longAt f 26)
        else if byteAt f 23 = 17 then netUdpIn f (partAt f) (partLen f) (longAt f 26)
        else if byteAt f 23 = 6 then netTcpIn w ipSend turns f (partAt f) (partLen f) (longAt f 26)
        else pure ()) s) := by
  by_cases hicmp : byteAt f 23 = 1
  · rw [if_pos hicmp]
    exact netIcmpIn_handles hsend hpart hicmp
  rw [if_neg hicmp]
  by_cases hudp : byteAt f 23 = 17
  · rw [if_pos hudp]
    exact netUdpIn_handles hpart hudp
  rw [if_neg hudp]
  by_cases htcp : byteAt f 23 = 6
  · rw [if_pos htcp]
    exact netTcpIn_handles hsend hpart htcp s
  rw [if_neg htcp]
  refine Handles.nobody (Leaves.pure _) rfl fun r hr => ?_
  cases r with
  | echo => exact hicmp hr.1
  | udp port => exact hudp hr.1
  | rx h => exact htcp hr.1

include hsend in
theorem netIpIn_handles (hlong : 42 ≤ f.length) (htype : wordAt f 12 = 2048) (s : Net) :
    Handles f (fun r => Accepts s f ∧ Takes s f r) s (netIpIn w ipSend turns f f.length s) := by
  rw [netIpIn, atByte_bind_run s (by omega)]
  by_cases hversion : byteAt f 14 >>> 4 = 4
  swap
  · rw [if_pos hversion]
    exact Handles.nobody (Leaves.pure _) rfl fun r hr => hversion hr.1.version
  rw [if_neg (not_not.mpr hversion), readWord_bind_run s (by omega), readWord_bind_run s (by omega),
    atByte_bind_run s (by omega), readLong_bind_run s (by omega), readLong_bind_run s (by omega), Action.get_bind_run]
  by_cases hbounds : wordAt f 16 < (byteAt f 14 &&& 15) * 4 ∨ f.length < wordAt f 16 + 14
  · rw [if_pos hbounds]
    refine Handles.nobody (Leaves.pure _) rfl fun r hr => ?_
    have hheader : headerLen f ≤ totalLen f := hr.1.header
    have hinside : totalLen f + 14 ≤ f.length := hr.1.inside
    exact hbounds.elim hheader.not_gt hinside.not_gt
  rw [if_neg hbounds]
  by_cases hwhole : wordAt f 20 &&& 16383 = 0
  swap
  · rw [if_pos hwhole]
    exact Handles.nobody (Leaves.pure _) rfl fun r hr => hwhole hr.1.whole
  rw [if_neg (not_not.mpr hwhole)]
  by_cases hmine : longAt f 30 = s.ip ∨ longAt f 30 = 4294967295 ∨ s.ip = 0
  swap
  · rw [if_pos hmine]
    exact Handles.nobody (Leaves.pure _) rfl fun r hr => hmine hr.1.mine
  rw [if_neg (not_not.mpr hmine)]
  have hheader : headerLen f ≤ totalLen f := not_lt.mp (not_or.mp hbounds).1
  have hinside : totalLen f + 14 ≤ f.length := not_lt.mp (not_or.mp hbounds).2
  have haccepts : Accepts s f := ⟨hlong, htype, hversion, hheader, hinside, hwhole, hmine⟩
  have hpart : partAt f + partLen f ≤ f.length := by
    unfold partAt partLen
    omega
  have hlater (s' : Net) (hs : s'.delivered = s.delivered) (hT : ∀ r, Takes s' f r ↔ Takes s f r) :
      Handles f (fun r => Accepts s f ∧ Takes s f r) s _ :=
    (protocol_handles (w := w) hsend turns hpart s').narrow hs fun r => (and_iff_right haccepts).trans (hT r).symm
  by_cases hsrc : longAt f 26 = 0
  · rw [if_neg (not_not.mpr hsrc)]
    exact hlater s rfl fun _ => Iff.rfl
  · rw [if_pos hsrc, netMacAt, cut_bind_run s (by omega), Action.modify_bind_run]
    refine hlater _ rfl fun r => ?_
    cases r <;> rfl

theorem netArpIn_leaves (hlong : 42 ≤ f.length) (s : Net) :
    (netArpIn w f s).1 ≠ .error .fault ∧ (netArpIn w f s).2.delivered = s.delivered := by
  rw [netArpIn, readWord_bind_run s (by omega), readLong_bind_run s (by omega), readLong_bind_run s (by omega),
    netMacAt, cut_bind_run s (by omega)]
  refine (?_ : Leaves Net.delivered True _).run s
  refine Leaves.ite (Leaves.modify_bind (fun _ => rfl) fun _ => ?_) ?_ <;>
    exact Leaves.get_bind fun _ => Leaves.ite ((netArpSend_leaves _ _).bind fun _ => Leaves.pure _) (Leaves.pure _)

include hsend in
theorem netInputWith_handles (s : Net) :
    Handles f (fun r => Accepts s f ∧ Takes s f r) s (netInputWith w ipSend turns f s) := by
  rw [netInputWith]
  by_cases hshort : f.length < 42
  · rw [if_pos hshort]
    exact Handles.nobody (Leaves.pure _) rfl fun r hr => absurd hr.1.long (by omega)
  rw [if_neg hshort, readWord_bind_run s (by omega)]
  by_cases harp : wordAt f 12 = 2054
  · obtain ⟨hsafe, hdelivered⟩ := netArpIn_leaves (w := w) (f := f) (by omega) s
    rw [if_pos harp]
    exact ⟨hsafe, .inr ⟨fun r hr => absurd (harp.symm.trans hr.1.type) (by decide), hdelivered⟩⟩
  rw [if_neg harp]
  by_cases hip : wordAt f 12 = 2048
  · rw [if_pos hip]
    exact netIpIn_handles hsend (by omega) hip s
  · rw [if_neg hip]
    exact Handles.nobody (Leaves.pure _) rfl fun r hr => hip hr.1.type

end

section

variable (w : Outside) (turns : Nat)

theorem apart_leaves {action : Action Net Unit} (hsafe : Leaves (fun _ => ()) True action) :
    Leaves Net.delivered True (apart action) := by
  intro v s hs
  have hrun := hsafe () s rfl
  unfold apart
  cases haction : action s with
  | mk result s' =>
    rw [haction] at hrun
    cases result with
    | ok a => exact hs
    | error e =>
      cases e with
      | failed => exact ⟨trivial, hs⟩
      | fault => exact hrun

theorem pollFrames_leaves {input : Frame → Action Net Unit} (hinput : ∀ f, Leaves (fun _ => ()) True (input f)) (n : Nat) :
    Leaves (fun _ => ()) True (pollFrames w input n) := by
  induction n with
  | zero => exact Leaves.fail trivial
  | succ n ih =>
    refine Leaves.bind (Leaves.of_run fun _ => rfl) fun frame => ?_
    cases frame with
    | none => exact Leaves.pure _
    | some f => exact (hinput f).bind fun _ => ih

theorem netInput_leaves (depth : Nat) (f : Frame) : Leaves (fun _ => ()) True (netInput w turns depth f) := by
  induction depth generalizing f with
  | zero => exact Leaves.fail trivial
  | succ depth ih =>
    have hsend := netIpSend_leaves (w := w) (apart_leaves (pollFrames_leaves w ih turns)) turns
    exact Leaves.of_safe fun s => (netInputWith_handles hsend s).safe

theorem netInput_handles (depth : Nat) (f : Frame) (s : Net) :
    Handles f (fun r => Accepts s f ∧ Takes s f r) s (netInput w turns (depth + 1) f s) :=
  netInputWith_handles
    (netIpSend_leaves (apart_leaves (pollFrames_leaves w (netInput_leaves w turns depth) turns)) turns) s

/-- The bytes delivered stand behind the frame's headers and inside its packet, and both headers
have at least the 20 bytes that IPv4 and TCP give them. -/
structure Proper (f : Frame) (d : Delivery) : Prop where
  header : 20 ≤ headerLen f
  inside : headerLen f ≤ totalLen f ∧ 14 + totalLen f ≤ f.length
  bytes :
    match d.receiver with
    | .rx _ =>
      20 ≤ dataOffset f ∧ headerLen f + dataOffset f ≤ totalLen f ∧
        d.bytes = (f.drop (14 + headerLen f + dataOffset f)).take (totalLen f - (headerLen f + dataOffset f))
    | _ =>
      headerLen f + 8 ≤ totalLen f ∧ d.bytes = (f.drop (14 + headerLen f + 8)).take (totalLen f - (headerLen f + 8))

def Holds (s : Net) (f : Frame) (result : Except Stop Unit × Net) : Prop :=
  result.1 ≠ .error .fault ∧ ∃ ds, result.2.delivered = s.delivered ++ ds ∧ ∀ d ∈ ds, Proper f d

/-- A header length below 20, which `net_ip_in` and `net_tcp_in` do not look for. -/
def ShortFor (f : Frame) : Receiver → Prop
  | .rx _ => headerLen f < 20 ∨ dataOffset f < 20
  | _ => headerLen f < 20

theorem proper_payload_iff {s : Net} {f : Frame} {r : Receiver} (hf : Accepts s f) (hr : Takes s f r) :
    Proper f ⟨r, payload f r⟩ ↔ ¬ ShortFor f r := by
  have hheader := hf.header
  have hinside : headerLen f ≤ totalLen f ∧ 14 + totalLen f ≤ f.length := ⟨hheader, by have := hf.inside; omega⟩
  cases r with
  | echo =>
    have hpart := hr.2.1
    unfold partLen at hpart
    refine ⟨fun h => not_lt.mpr h.header, fun h => ⟨not_lt.mp h, hinside, by omega, ?_⟩⟩
    simp only [payload, partAt, partLen, Nat.sub_sub]
  | udp port =>
    have hpart := hr.2.1
    unfold partLen at hpart
    refine ⟨fun h => not_lt.mpr h.header, fun h => ⟨not_lt.mp h, hinside, by omega, ?_⟩⟩
    simp only [payload, partAt, partLen, Nat.sub_sub]
  | rx h =>
    have hoffset := hr.2.2.1
    unfold partLen at hoffset
    refine ⟨fun h => not_or.mpr ⟨not_lt.mpr h.header, not_lt.mpr h.bytes.1⟩, fun h => ?_⟩
    obtain ⟨hlen, hdata⟩ := not_or.mp h
    refine ⟨not_lt.mp hlen, hinside, not_lt.mp hdata, by omega, ?_⟩
    simp only [payload, partAt, partLen, Nat.sub_sub]

/-- For every frame in every state: no read leaves the frame, and what is delivered is proper
unless somebody here takes a packet whose headers are too short. -/
theorem netInput_holds_iff (depth : Nat) (f : Frame) (s : Net) :
    Holds s f (netInput w turns (depth + 1) f s) ↔ ∀ r, Accepts s f → Takes s f r → ¬ ShortFor f r := by
  obtain ⟨hsafe, ⟨r, ⟨haccepts, htakes⟩, hdelivered⟩ | ⟨hnobody, hdelivered⟩⟩ := netInput_handles w turns depth f s
  · constructor
    · rintro ⟨-, ds, hds, hproper⟩ r' - hr'
      cases htakes.unique hr'
      refine (proper_payload_iff haccepts htakes).mp (hproper _ ?_)
      rw [← List.append_cancel_left (hdelivered.symm.trans hds)]
      exact List.mem_singleton_self _
    · intro h
      refine ⟨hsafe, _, hdelivered, fun d hd => ?_⟩
      cases List.mem_singleton.mp hd
      exact (proper_payload_iff haccepts htakes).mpr (h r haccepts htakes)
  · refine iff_of_true ⟨hsafe, [], hdelivered.trans (List.append_nil _).symm, fun d hd => by cases hd⟩ ?_
    exact fun r haccepts htakes => absurd ⟨haccepts, htakes⟩ (hnobody r)

def silence : Outside where
  ticks _ := 0
  recv _ := none
  random _ := 0
  send _ := 0
  owner _ := 0

def oneSocket : Net where
  mac := [82, 84, 0, 18, 52, 86]
  ip := 167772687
  mask := 4294967040
  gw := 167772674
  ipid := 1
  arp := .empty
  udp port := if port = 49152 then some ⟨[], [167772674]⟩ else none
  socket _ := emptySock
  socks _ := false
  conns _ := none
  listen _ := none
  next := 1
  pings := .empty
  dhcpOn := false
  dhcp := none
  fw := Murmansk.murmanskReset
  turn := 0
  sent := []
  delivered := []

def shortFrame : Frame :=
  [82, 84, 0, 18, 52, 86, 82, 85, 10, 0, 2, 2, 8, 0, 65, 0, 0, 28, 0, 53, 192, 0, 64, 17, 0, 0, 10, 0, 2, 2, 10, 0, 2, 15] ++
    List.replicate 8 0

theorem short_header_delivered : ¬ Holds oneSocket shortFrame (netInput silence 1 1 shortFrame oneSocket) := by
  rintro ⟨-, ds, hds, hproper⟩
  have hdelivered : (netInput silence 1 1 shortFrame oneSocket).2.delivered =
      oneSocket.delivered ++ [⟨.udp 49152, (shortFrame.drop 26).take 16⟩] := rfl
  have hlen := (hproper _ (List.append_cancel_left (hdelivered.symm.trans hds) ▸ List.mem_singleton_self _)).header
  exact absurd hlen (by decide)

end

end Ussr.Moscow
