import Ussr.Library.OnesComplement

/-! The bytes of the packets that Moscow sends: IPv4, TCP and ICMP echo, each with its checksum. -/

namespace Ussr.Moscow
open OnesComplement

/-- `net_p16`: what it pushes. -/
def netP16 (x : Nat) : List UInt8 := [UInt8.ofNat (x >>> 8 &&& 255), UInt8.ofNat (x &&& 255)]

def netP32 (x : Nat) : List UInt8 := netP16 (x >>> 16 &&& 65535) ++ netP16 (x &&& 65535)

def netFold (s : Nat) : Nat := if 65535 < s then netFold ((s &&& 65535) + (s >>> 16)) else s
termination_by s
decreasing_by
  have hlow : s &&& 65535 = s % 65536 := Nat.and_two_pow_sub_one_eq_mod s 16
  rw [hlow, Nat.shiftRight_eq_div_pow]
  omega

def netIpsum (ip : Nat) : Nat := (ip >>> 16) + (ip &&& 65535)

/-- `net_sum`: the sum of the words, folded. -/
def netSum (data : List UInt8) : Nat := netFold (wordSum data)

/-- The header that `net_ip_send` makes for a packet of `total` bytes. -/
def ipHeader (netIp id dst proto total : Nat) : List UInt8 :=
  let s := netFold (17664 + total + id + 16384 + (64 <<< 8) + proto + netIpsum netIp + netIpsum dst)
  [69, 0] ++ netP16 total ++ netP16 id ++ netP16 16384 ++ [64, UInt8.ofNat proto] ++ netP16 (s ^^^ 65535) ++
    netP32 netIp ++ netP32 dst

/-- The frame of `net_ip_send` to the MAC `mac`. -/
def ipFrame (mac netMac : List UInt8) (netIp id dst proto : Nat) (head tail : List UInt8) : List UInt8 :=
  mac ++ netMac ++ netP16 2048 ++ ipHeader netIp id dst proto (20 + head.length + tail.length) ++ head ++ tail

/-- What `net_tcp_seg` asks of a connection; `socket_bind` and `socket_connect` let any integer be a port. -/
structure Ends where
  rip : Nat
  rport : Int
  lport : Int
  rcvNxt : Nat

/-- The 16 bits that `net_p16` writes of any integer. -/
def lowWord (x : Int) : Nat := (x % 65536).toNat

/-- The low 16 bits of what `net_fold` makes of any integer: a negative one is not above 65535. -/
def foldedWord (s : Int) : Nat := if s < 0 then lowWord s else netFold s.toNat

/-- The header that `net_tcp_seg` makes. -/
def tcpHeader (netIp : Nat) (c : Ends) (flags seq : Nat) (data : List UInt8) : List UInt8 :=
  let hl := if flags &&& 2 ≠ 0 then 24 else 20
  let win := 65535
  let tl := hl + data.length
  let s := netIpsum netIp + netIpsum c.rip + 6 + tl
  let s := s + (seq >>> 16) + (seq &&& 65535) + (c.rcvNxt >>> 16) + (c.rcvNxt &&& 65535)
  let s := s + ((hl >>> 2) <<< 12 ||| flags) + win
  let s := if hl = 24 then s + 516 + 1460 else s
  let s := if 0 < data.length then s + netSum data else s
  -- The ports are added at 64 bits like the rest, which alone cannot overflow.
  let s := foldedWord ((s + (c.lport + c.rport)).bmod (2 ^ 64))
  netP16 (lowWord c.lport) ++ netP16 (lowWord c.rport) ++ netP32 seq ++ netP32 c.rcvNxt ++
    [UInt8.ofNat ((hl >>> 2) <<< 4), UInt8.ofNat flags] ++ netP16 win ++ netP16 (s ^^^ 65535) ++ netP16 0 ++
    if hl = 24 then netP16 516 ++ netP16 1460 else []

/-- The header of the answer to an echo request in `net_icmp_in`. -/
def echoReply (id seq : Nat) (data : List UInt8) : List UInt8 :=
  let s := netFold (id + seq + netSum data)
  [0, 0] ++ netP16 (s ^^^ 65535) ++ netP16 id ++ netP16 seq

/-- `USSR Moscow ping 0123456789abcdef` -/
def pingData : List UInt8 :=
  [85, 83, 83, 82, 32, 77, 111, 115, 99, 111, 119, 32, 112, 105, 110, 103, 32, 48, 49, 50, 51, 52, 53, 54, 55, 56, 57, 97,
    98, 99, 100, 101, 102]

/-- The header of the `i`-th request of `sys_ping`. -/
def echoRequest (i : Nat) : List UInt8 :=
  let s := netFold ((8 <<< 8) + 21843 + i + netSum pingData)
  [8, 0] ++ netP16 (s ^^^ 65535) ++ netP16 21843 ++ netP16 i

/-- The requests that the loop of `sys_ping` sends, in order, whatever the answers to them. -/
def pingRequests (count : Int) : List (List UInt8) :=
  (List.range' 1 count.toNat).map fun i => echoRequest i ++ pingData

section

variable {x s : Nat} {bytes : List UInt8}

theorem and_byte (x : Nat) : x &&& 255 = x % 256 := Nat.and_two_pow_sub_one_eq_mod x 8

theorem and_word (x : Nat) : x &&& 65535 = x % 65536 := Nat.and_two_pow_sub_one_eq_mod x 16

theorem shift_byte (x : Nat) : x >>> 8 = x / 256 := Nat.shiftRight_eq_div_pow x 8

theorem shift_word (x : Nat) : x >>> 16 = x / 65536 := Nat.shiftRight_eq_div_pow x 16

theorem xor_full (h : s ≤ 65535) : s ^^^ 65535 = 65535 - s := by
  refine Nat.eq_of_testBit_eq fun i => ?_
  have hlt : s < 2 ^ 16 := Nat.lt_succ_of_le h
  have hright : 65535 - s = 2 ^ 16 - (s + 1) := by omega
  have hfull : 65535 = 2 ^ 16 - 1 := rfl
  rw [hright, Nat.testBit_two_pow_sub_succ hlt, Nat.testBit_xor, hfull, Nat.testBit_two_pow_sub_one]
  by_cases hi : i < 16
  · simp [hi]
  · have hpow : 2 ^ 16 ≤ 2 ^ i := Nat.pow_le_pow_right (by decide) (Nat.not_lt.mp hi)
    simp [hi, Nat.testBit_lt_two_pow (Nat.lt_of_lt_of_le hlt hpow)]

@[simp] theorem length_netP16 (x : Nat) : (netP16 x).length = 2 := rfl

@[simp] theorem length_netP32 (x : Nat) : (netP32 x).length = 4 := rfl

theorem wordSum_netP16 (x : Nat) (bytes : List UInt8) : wordSum (netP16 x ++ bytes) = x % 65536 + wordSum bytes := by
  simp only [netP16, List.cons_append, List.nil_append, wordSum_cons_cons, UInt8.toNat_ofNat', and_byte, shift_byte]
  omega

theorem wordSum_netP32 (x : Nat) (bytes : List UInt8) :
    wordSum (netP32 x ++ bytes) = x / 65536 % 65536 + x % 65536 + wordSum bytes := by
  rw [netP32, List.append_assoc, wordSum_netP16, wordSum_netP16, and_word, and_word, shift_word]
  omega

theorem netIpsum_eq (ip : Nat) : netIpsum ip = ip / 65536 + ip % 65536 := by
  rw [netIpsum, and_word, shift_word]

theorem netFold_eq (s : Nat) : netFold s = carried s := by
  induction s using netFold.induct with
  | case1 s hbig ih =>
    rw [netFold, if_pos hbig, ih, and_word, shift_word]
    simp only [carried]
    split_ifs <;> omega
  | case2 s hsmall => rw [netFold, if_neg hsmall, carried_of_le (Nat.not_lt.mp hsmall)]

theorem foldedWord_le (s : Int) : foldedWord s ≤ 65535 := by
  have hle := carried_le s.toNat
  rw [foldedWord, netFold_eq, lowWord]
  split_ifs <;> omega

theorem foldedWord_xor (s : Int) : foldedWord s ^^^ 65535 = 65535 - foldedWord s := xor_full (foldedWord_le s)

theorem netFold_xor (s : Nat) : netFold s ^^^ 65535 = 65535 - carried s := by
  rw [netFold_eq, xor_full (carried_le s)]

end

section

variable {netIp id dst proto total flags seq : Nat} {c : Ends} {data : List UInt8}

def pseudoHeader (src dst proto length : Nat) : List UInt8 :=
  netP32 src ++ netP32 dst ++ netP16 proto ++ netP16 length

theorem wordSum_ipHeader (hip : netIp < 2 ^ 32) (hid : id < 2 ^ 16) (hdst : dst < 2 ^ 32) (hproto : proto < 256)
    (htotal : total < 2 ^ 16) : ∃ s, wordSum (ipHeader netIp id dst proto total) = s + (65535 - carried s) := by
  obtain ⟨s, hs⟩ : ∃ s, s = 17664 + total + id + 16384 + (64 <<< 8) + proto + netIpsum netIp + netIpsum dst := ⟨_, rfl⟩
  have hlayout : ipHeader netIp id dst proto total = 69 :: 0 :: (netP16 total ++ (netP16 id ++ (netP16 16384 ++
      64 :: UInt8.ofNat proto :: (netP16 (65535 - carried s) ++ (netP32 netIp ++ (netP32 dst ++ [])))))) := by
    simp only [ipHeader, ← hs, netFold_xor, List.append_assoc, List.cons_append, List.nil_append, List.append_nil]
  refine ⟨s, ?_⟩
  rw [netIpsum_eq, netIpsum_eq] at hs
  simp only [hlayout, wordSum_cons_cons, wordSum_netP16, wordSum_netP32, wordSum_nil, UInt8.toNat_ofNat', UInt8.reduceToNat]
  have hshift : 64 <<< 8 = 16384 := rfl
  omega

theorem ipHeader_verifies (hip : netIp < 2 ^ 32) (hid : id < 2 ^ 16) (hdst : dst < 2 ^ 32) (hproto : proto < 256)
    (htotal : total < 2 ^ 16) : onesSum (ipHeader netIp id dst proto total) = 65535 := by
  obtain ⟨s, hsum⟩ := wordSum_ipHeader hip hid hdst hproto htotal
  exact onesSum_eq_full.mpr (hsum ▸ complement_verifies rfl fun hs => hs)

theorem ipFrame_header {mac netMac : List UInt8} (hmac : mac.length = 6) (hnet : netMac.length = 6) (head tail : List UInt8) :
    ((ipFrame mac netMac netIp id dst proto head tail).drop 14).take 20 =
      ipHeader netIp id dst proto (20 + head.length + tail.length) := by
  have hfront : (mac ++ netMac ++ netP16 2048).length = 14 := by simp [hmac, hnet]
  have hheader : (ipHeader netIp id dst proto (20 + head.length + tail.length)).length = 20 := rfl
  rw [ipFrame, List.append_assoc (_ ++ _), List.append_assoc, List.drop_left' hfront, List.take_left' hheader]

theorem netSum_eq (data : List UInt8) : netSum data = carried (wordSum data) := netFold_eq _

def tcpWords (flags : Nat) : Nat := if flags &&& 2 ≠ 0 then 6 else 5

/-- What `net_tcp_seg` adds up but for the ports and the data. -/
def tcpFields (netIp : Nat) (c : Ends) (flags seq length : Nat) : Nat :=
  let s := netIpsum netIp + netIpsum c.rip + 6 + length
  let s := s + (seq >>> 16) + (seq &&& 65535) + (c.rcvNxt >>> 16) + (c.rcvNxt &&& 65535)
  let s := s + (tcpWords flags * 4096 + flags) + 65535
  if flags &&& 2 ≠ 0 then s + 516 + 1460 else s

def tcpSum (netIp : Nat) (c : Ends) (flags seq : Nat) (data : List UInt8) : Int :=
  ((tcpFields netIp c flags seq (4 * tcpWords flags + data.length) + netSum data : Nat) + (c.lport + c.rport)).bmod (2 ^ 64)

theorem tcpHeader_layout (hflags : flags < 256) : tcpHeader netIp c flags seq data =
    netP16 (lowWord c.lport) ++ (netP16 (lowWord c.rport) ++ (netP32 seq ++ (netP32 c.rcvNxt ++
      UInt8.ofNat (tcpWords flags * 16) :: UInt8.ofNat flags :: (netP16 65535 ++
        (netP16 (65535 - foldedWord (tcpSum netIp c flags seq data)) ++
          (netP16 0 ++ if flags &&& 2 ≠ 0 then netP16 516 ++ netP16 1460 else [])))))) := by
  have hdata (s : Nat) : (if 0 < data.length then s + netSum data else s) = s + netSum data := by
    split_ifs with hlength
    · rfl
    · have hnil : data = [] := List.eq_nil_of_length_eq_zero (Nat.eq_zero_of_not_pos hlength)
      rw [hnil, netSum_eq, wordSum_nil, carried_of_le (Nat.zero_le _), Nat.add_zero]
  have hor (words : Nat) : words <<< 12 ||| flags = words * 4096 + flags := by
    rw [← Nat.shiftLeft_add_eq_or_of_lt (Nat.lt_trans hflags (by decide)), Nat.shiftLeft_eq]
  have hsix : 24576 ||| flags = 24576 + flags := hor 6
  have hfive : 20480 ||| flags = 20480 + flags := hor 5
  have hmany : 24 >>> 2 = 6 := rfl
  have hfew : 20 >>> 2 = 5 := rfl
  by_cases hsyn : flags &&& 2 ≠ 0
  · have hwords : tcpWords flags = 6 := if_pos hsyn
    simp only [tcpHeader, tcpFields, tcpSum, if_pos hsyn, hwords, hdata, foldedWord_xor, List.append_assoc, List.cons_append,
      List.nil_append, hmany, hsix, Nat.reduceMul, if_true, Nat.reduceShiftLeft]
  · have hwords : tcpWords flags = 5 := if_neg hsyn
    simp only [tcpHeader, tcpFields, tcpSum, if_neg hsyn, hwords, hdata, foldedWord_xor, List.append_assoc, List.cons_append,
      List.nil_append, hfew, hfive, Nat.reduceMul, Nat.reduceShiftLeft, Nat.reduceEqDiff, if_false]

theorem length_tcpHeader (hflags : flags < 256) : (tcpHeader netIp c flags seq data).length = 4 * tcpWords flags := by
  rw [tcpHeader_layout hflags, tcpWords]
  split_ifs <;> simp

/-- What the 16-bit fields of the ports cut off, as it is added up at 64 bits. -/
def cutPart (lport rport : Int) : Int := (lport / 65536 + rport / 65536).bmod (2 ^ 48)

def PortsFit (lport rport : Int) : Prop := 0 ≤ cutPart lport rport ∧ 65535 ∣ cutPart lport rport

instance (lport rport : Int) : Decidable (PortsFit lport rport) := inferInstanceAs (Decidable (_ ∧ _))

/-- The folded sum is that of the words sent just when the ports' cut parts add nothing to it: a sum below 0
is not folded, so the carries of the other words are lost. -/
theorem foldedWord_ports {base : Nat} (hleast : 65536 ≤ base) (hmost : base < 2 ^ 22) (lport rport : Int) :
    foldedWord ((base + (lport + rport)).bmod (2 ^ 64)) % 65535 = (base + (lowWord lport + lowWord rport)) % 65535 ↔
      PortsFit lport rport := by
  obtain ⟨t, ht⟩ : ∃ t, t = base + (lowWord lport + lowWord rport) := ⟨_, rfl⟩
  obtain ⟨j, hj⟩ : ∃ j, lport / 65536 + rport / 65536 = cutPart lport rport + 2 ^ 48 * j :=
    ⟨_, (Int.bmod_add_bdiv _ _).symm⟩
  obtain ⟨k, hk⟩ : ∃ k, (base : Int) + (lport + rport) = (base + (lport + rport)).bmod (2 ^ 64) + 2 ^ 64 * k :=
    ⟨_, (Int.bmod_add_bdiv _ _).symm⟩
  have hcutLow : -2 ^ 47 ≤ cutPart lport rport := Int.le_bmod (by decide)
  have hcutHigh : cutPart lport rport < 2 ^ 47 := Int.bmod_lt (by decide)
  have hlow : -2 ^ 63 ≤ ((base : Int) + (lport + rport)).bmod (2 ^ 64) := Int.le_bmod (by decide)
  have hhigh : ((base : Int) + (lport + rport)).bmod (2 ^ 64) < 2 ^ 63 := Int.bmod_lt (by decide)
  rw [PortsFit, ← ht]
  generalize cutPart lport rport = cut at *
  generalize ((base : Int) + (lport + rport)).bmod (2 ^ 64) = s at *
  unfold lowWord at ht
  have hs : s = t + 65536 * cut + 2 ^ 64 * (j - k) := by omega
  have hturns : j - k = 0 ∨ j - k = -1 := by omega
  unfold foldedWord
  split_ifs with hneg
  · have hword : lowWord s = t % 65536 := by
      unfold lowWord
      omega
    rw [hword]
    rcases hturns with hturns | hturns <;> rw [hturns] at hs <;> omega
  · have hmod := carried_mod s.toNat
    rw [netFold_eq, hmod]
    rcases hturns with hturns | hturns <;> rw [hturns] at hs <;> omega

theorem tcpFields_bounds (hip : netIp < 2 ^ 32) (hrip : c.rip < 2 ^ 32) (hseq : seq < 2 ^ 32) (hack : c.rcvNxt < 2 ^ 32)
    (hflags : flags < 256) {length : Nat} (hleast : 20 ≤ length) (hmost : length ≤ 1500) :
    65536 ≤ tcpFields netIp c flags seq length ∧ tcpFields netIp c flags seq length < 2 ^ 21 := by
  simp only [tcpFields, tcpWords, netIpsum_eq, and_word, shift_word]
  split_ifs <;> omega

/-- What `net_tcp_seg` and `net_ip_send` read of the address and of the data: once for the sum, and again
when the segment is sent, behind the frames that are handled while the MAC is asked for. -/
structure Moment where
  ip : Nat
  data : List UInt8

def Moment.words (m : Moment) : Nat := netIpsum m.ip + wordSum m.data

/-- The segment that is sent, under its pseudo-header. -/
def segment (c : Ends) (flags seq : Nat) (summed sent : Moment) : List UInt8 :=
  let header := tcpHeader summed.ip c flags seq summed.data
  pseudoHeader sent.ip c.rip 6 (header.length + sent.data.length) ++ (header ++ sent.data)

theorem tcpFields_sent (sentIp netIp : Nat) (c : Ends) (flags seq length : Nat) :
    tcpFields sentIp c flags seq length + netIpsum netIp = tcpFields netIp c flags seq length + netIpsum sentIp := by
  simp only [tcpFields]
  split_ifs <;> omega

section

variable {summed sent : Moment} (hsent : sent.ip < 2 ^ 32) (hrip : c.rip < 2 ^ 32) (hseq : seq < 2 ^ 32)
  (hack : c.rcvNxt < 2 ^ 32) (hflags : flags < 256) (hlen : sent.data.length = summed.data.length)
  (htotal : 20 + (tcpHeader summed.ip c flags seq summed.data).length + summed.data.length ≤ 1500)
include hsent hrip hseq hack hflags hlen htotal

theorem segment_verifies_sum : onesSum (segment c flags seq summed sent) = 65535 ↔
    foldedWord (tcpSum summed.ip c flags seq summed.data) % 65535 =
      (tcpFields sent.ip c flags seq (4 * tcpWords flags + summed.data.length) + (lowWord c.lport + lowWord c.rport) +
        wordSum sent.data) % 65535 := by
  rw [segment, length_tcpHeader hflags, hlen]
  rw [length_tcpHeader hflags] at htotal
  obtain ⟨n, hn⟩ : ∃ n, n = 4 * tcpWords flags + summed.data.length := ⟨_, rfl⟩
  have hwords : tcpWords flags ≤ 6 := by
    unfold tcpWords
    split_ifs <;> decide
  have hports (port : Int) : lowWord port < 65536 := by
    unfold lowWord
    omega
  have hlport := hports c.lport
  have hrport := hports c.rport
  have hle := foldedWord_le (tcpSum summed.ip c flags seq summed.data)
  have hsum : wordSum (pseudoHeader sent.ip c.rip 6 n ++ (tcpHeader summed.ip c flags seq summed.data ++ sent.data)) =
      tcpFields sent.ip c flags seq n + (lowWord c.lport + lowWord c.rport) + wordSum sent.data +
        (65535 - foldedWord (tcpSum summed.ip c flags seq summed.data)) := by
    have hmost : tcpWords flags * 16 < 256 := by omega
    rw [tcpHeader_layout hflags, tcpFields]
    simp only [pseudoHeader, List.append_assoc, List.cons_append, wordSum_netP16, wordSum_netP32, wordSum_cons_cons,
      UInt8.toNat_ofNat', netIpsum_eq, and_word, shift_word]
    split_ifs with hsyn
    · simp only [List.append_assoc, wordSum_netP16]
      omega
    · rw [List.nil_append]
      omega
  have hpos : 0 < tcpFields sent.ip c flags seq n := by
    simp only [tcpFields]
    split_ifs <;> omega
  rw [← hn, onesSum_eq_full, hsum]
  omega

/-- A segment verifies unless the ports do not fit their fields or what is sent adds up to something else
than what was summed. -/
theorem segment_verifies_iff (hsummed : summed.ip < 2 ^ 32) (hcase : PortsFit c.lport c.rport ∨ sent = summed) :
    onesSum (segment c flags seq summed sent) = 65535 ↔
      PortsFit c.lport c.rport ∧ summed.words % 65535 = sent.words % 65535 := by
  obtain ⟨n, hn⟩ : ∃ n, n = 4 * tcpWords flags + summed.data.length := ⟨_, rfl⟩
  have hbounds : 20 ≤ n ∧ n ≤ 1500 := by
    rw [length_tcpHeader hflags] at htotal
    unfold tcpWords at hn htotal
    split_ifs at hn htotal <;> omega
  obtain ⟨hleast, hmost⟩ := tcpFields_bounds hsummed hrip hseq hack hflags hbounds.1 hbounds.2
  have hle := carried_le (wordSum summed.data)
  have hmod := carried_mod (wordSum summed.data)
  have hports := @foldedWord_ports (tcpFields summed.ip c flags seq n + netSum summed.data)
    (Nat.le_add_right_of_le hleast) (by rw [netSum_eq]; omega) c.lport c.rport
  have hfields := tcpFields_sent sent.ip summed.ip c flags seq n
  rw [segment_verifies_sum hsent hrip hseq hack hflags hlen htotal, tcpSum, ← hn, Moment.words, Moment.words]
  rw [netSum_eq] at hports ⊢
  rcases hcase with hfit | rfl
  · rw [and_iff_right hfit]
    have hfolded := hports.mpr hfit
    omega
  · rw [and_iff_left rfl, ← hports]
    omega

end

theorem echoReply_verifies {id seq : Nat} (hid : id < 2 ^ 16) (hseq : seq < 2 ^ 16) (data : List UInt8) :
    onesSum (echoReply id seq data ++ data) = 65535 := by
  obtain ⟨s, hs⟩ : ∃ s, s = id + seq + netSum data := ⟨_, rfl⟩
  have hsum : wordSum (echoReply id seq data ++ data) = id + seq + wordSum data + (65535 - carried s) := by
    simp only [echoReply, ← hs, netFold_xor, List.append_assoc, List.cons_append, List.nil_append, wordSum_cons_cons, wordSum_netP16,
      UInt8.reduceToNat]
    omega
  have hmod := carried_mod (wordSum data)
  have hpos := carried_pos (s := wordSum data)
  rw [netSum_eq] at hs
  refine onesSum_eq_full.mpr (hsum ▸ complement_verifies (by omega) fun h => ?_)
  by_contra hzero
  have hdata : wordSum data = 0 := by omega
  rw [hdata, carried_of_le (Nat.zero_le _)] at hs
  omega

theorem wordSum_echoRequest (i : Nat) : wordSum (echoRequest i ++ pingData) =
    2048 + 21843 + i % 65536 + wordSum pingData + (65535 - carried (2048 + 21843 + i + netSum pingData)) := by
  have hshift : 8 <<< 8 = 2048 := rfl
  simp only [echoRequest, hshift, netFold_xor, List.append_assoc, List.cons_append, List.nil_append, wordSum_cons_cons,
    wordSum_netP16, UInt8.reduceToNat]
  omega

/-- A request verifies unless its number is too long for its field (and the part that is cut off
does not add up to nothing). -/
theorem echoRequest_verifies (i : Nat) : onesSum (echoRequest i ++ pingData) = 65535 ↔ i / 65536 % 65535 = 0 := by
  have hle := carried_le (2048 + 21843 + i + netSum pingData)
  have hmod := carried_mod (2048 + 21843 + i + netSum pingData)
  have hdata := carried_mod (wordSum pingData)
  rw [onesSum_eq_full, wordSum_echoRequest]
  rw [netSum_eq] at hle hmod ⊢
  -- the sum that is sent differs from the one that is checked by the cut part of the number
  generalize carried (2048 + 21843 + i + carried (wordSum pingData)) = t at hle hmod ⊢
  generalize wordSum pingData = s at hdata hmod ⊢
  generalize carried s = r at hdata hmod
  omega

/-- All that Moscow sends verifies: the header of every IP packet, every answer to a ping, the requests of a
ping of `count`, and every segment between two ports, where `waits` is what may change of a segment's
address and data from its sum until it is sent. -/
structure ChecksumsVerify (count lport rport : Int) (waits : Moment → Moment → Prop) : Prop where
  ip : ∀ {netIp id dst proto : Nat} (mac netMac head tail : List UInt8), netIp < 2 ^ 32 → id < 2 ^ 16 → dst < 2 ^ 32 →
    proto < 256 → mac.length = 6 → netMac.length = 6 → 20 + head.length + tail.length ≤ 1500 →
    onesSum (((ipFrame mac netMac netIp id dst proto head tail).drop 14).take 20) = 65535
  tcp : ∀ {c : Ends} {flags seq : Nat} {summed sent : Moment}, c.lport = lport → c.rport = rport →
    sent = summed ∨ waits summed sent → summed.ip < 2 ^ 32 → sent.ip < 2 ^ 32 → c.rip < 2 ^ 32 → seq < 2 ^ 32 →
    c.rcvNxt < 2 ^ 32 → flags < 256 → sent.data.length = summed.data.length →
    20 + (tcpHeader summed.ip c flags seq summed.data).length + summed.data.length ≤ 1500 →
    onesSum (segment c flags seq summed sent) = 65535
  reply : ∀ {id seq : Nat} (data : List UInt8), id < 2 ^ 16 → seq < 2 ^ 16 → onesSum (echoReply id seq data ++ data) = 65535
  request : ∀ m ∈ pingRequests count, onesSum m = 65535

/-- What may happen to a segment until it is sent does not change the sum of its words. -/
def WaitsKept (waits : Moment → Moment → Prop) : Prop :=
  ∀ summed sent, waits summed sent → summed.ip < 2 ^ 32 → sent.ip < 2 ^ 32 → sent.data.length = summed.data.length →
    summed.data.length ≤ 1460 → summed.words % 65535 = sent.words % 65535

variable {count lport rport : Int} {waits : Moment → Moment → Prop}

theorem request_fails (hcount : 65536 ≤ count) : ¬ ∀ m ∈ pingRequests count, onesSum m = 65535 := by
  intro h
  have hmem : 65536 ∈ List.range' 1 count.toNat := by
    rw [List.mem_range'_1]
    omega
  have hbad := (echoRequest_verifies 65536).mp (h _ (List.mem_map_of_mem hmem))
  exact absurd hbad (by decide)

namespace ChecksumsVerify

theorem count_le (h : ChecksumsVerify count lport rport waits) : count ≤ 65535 := by
  by_contra hmany
  exact request_fails (by omega) h.request

theorem bare_total (netIp : Nat) (c : Ends) (data : List UInt8) (hmost : data.length ≤ 1460) :
    20 + (tcpHeader netIp c 0 0 data).length + data.length ≤ 1500 := by
  have hwords : tcpWords 0 = 5 := rfl
  rw [length_tcpHeader (by decide), hwords]
  omega

theorem portsFit (h : ChecksumsVerify count lport rport waits) : PortsFit lport rport := by
  have hzero : 0 < 2 ^ 32 := by decide
  obtain ⟨summed, hsummed, hnone⟩ : ∃ summed : Moment, summed.ip < 2 ^ 32 ∧ summed.data = [] := ⟨⟨0, []⟩, hzero, rfl⟩
  have htotal := bare_total summed.ip ⟨0, rport, lport, 0⟩ summed.data (by rw [hnone]; decide)
  have hverifies := h.tcp (c := ⟨0, rport, lport, 0⟩) rfl rfl (.inl rfl) hsummed hsummed hzero hzero hzero (by decide) rfl htotal
  exact ((segment_verifies_iff hsummed hzero hzero hzero (by decide) rfl htotal hsummed (.inr rfl)).mp hverifies).1

theorem waitsKept (h : ChecksumsVerify count lport rport waits) : WaitsKept waits := by
  intro summed sent hwaits hsummed hsent hlen hmost
  have hzero : 0 < 2 ^ 32 := by decide
  have htotal := bare_total summed.ip ⟨0, rport, lport, 0⟩ summed.data hmost
  have hverifies := h.tcp (c := ⟨0, rport, lport, 0⟩) rfl rfl (.inr hwaits) hsummed hsent hzero hzero hzero (by decide) hlen
    htotal
  exact ((segment_verifies_iff hsent hzero hzero hzero (by decide) hlen htotal hsummed (.inl h.portsFit)).mp hverifies).2

end ChecksumsVerify

/-- Everything verifies where no ping has more requests than its 16-bit field can number, what the fields of the
ports cut off adds nothing, and a segment's words add up to the same when it is sent. -/
theorem checksums_verify_iff (count lport rport : Int) (waits : Moment → Moment → Prop) :
    ChecksumsVerify count lport rport waits ↔ count ≤ 65535 ∧ PortsFit lport rport ∧ WaitsKept waits := by
  constructor
  · exact fun h => ⟨h.count_le, h.portsFit, h.waitsKept⟩
  · rintro ⟨hcount, hports, hwaits⟩
    refine ⟨fun mac netMac head tail hip hid hdst hproto hmac hnet htotal => ?_, ?_,
      fun data hid hseq => echoReply_verifies hid hseq data, fun m hm => ?_⟩
    · rw [ipFrame_header hmac hnet]
      exact ipHeader_verifies hip hid hdst hproto (by omega)
    · intro c flags seq summed sent hl hr hchange hsummed hsent hrip hseq hack hflags hlen htotal
      have hfit : PortsFit c.lport c.rport := by rwa [hl, hr]
      refine (segment_verifies_iff hsent hrip hseq hack hflags hlen htotal hsummed (.inl hfit)).mpr ⟨hfit, ?_⟩
      rcases hchange with rfl | hchange
      · rfl
      · refine hwaits summed sent hchange hsummed hsent hlen ?_
        rw [length_tcpHeader hflags, tcpWords] at htotal
        split_ifs at htotal <;> omega
    · obtain ⟨i, hi, rfl⟩ := List.mem_map.mp hm
      rw [List.mem_range'_1] at hi
      rw [echoRequest_verifies]
      omega

/-- The last request of a long ping, a connection to port 65616, and a segment whose bytes were
acknowledged, and others came to stand in their place, while its MAC was asked for. -/
theorem checksums_verify_fails : ¬ ChecksumsVerify 65536 49152 80 (fun _ _ => False) ∧
    ¬ ChecksumsVerify 4 49152 65616 (fun _ _ => False) ∧
    ¬ ChecksumsVerify 4 49152 80 (fun summed sent => summed = ⟨0, [1, 2]⟩ ∧ sent = ⟨0, [3, 4]⟩) := by
  refine ⟨fun h => ?_, fun h => ?_, fun h => ?_⟩
  · exact absurd h.count_le (by decide)
  · exact absurd h.portsFit (by decide)
  · have hkept := h.waitsKept ⟨0, [1, 2]⟩ ⟨0, [3, 4]⟩ ⟨rfl, rfl⟩ (by decide) (by decide) rfl (by decide)
    exact absurd hkept (by decide)

end

end Ussr.Moscow
