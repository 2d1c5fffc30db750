import Ussr.Dubna.Wire

/-! The messages that `dubna_read` returns are those of the stream, however the socket
cuts it into chunks. -/

namespace Ussr.Dubna
open Stalin (Text)

variable {later : Receives}

theorem or_bytes {a b c d : Nat} (hb : b < 256) (hc : c < 256) (hd : d < 256) :
    a <<< 24 ||| b <<< 16 ||| c <<< 8 ||| d = a * 16777216 + b * 65536 + c * 256 + d := by
  have hlow : c <<< 8 + d = c <<< 8 ||| d := Nat.shiftLeft_add_eq_or_of_lt (by omega) c
  have hmiddle : b <<< 16 + (c <<< 8 + d) = b <<< 16 ||| (c <<< 8 + d) :=
    Nat.shiftLeft_add_eq_or_of_lt (by rw [Nat.shiftLeft_eq]; omega) b
  have hhigh : a <<< 24 + (b <<< 16 + (c <<< 8 + d)) = a <<< 24 ||| (b <<< 16 + (c <<< 8 + d)) :=
    Nat.shiftLeft_add_eq_or_of_lt (by rw [Nat.shiftLeft_eq, Nat.shiftLeft_eq]; omega) a
  rw [Nat.or_assoc, Nat.or_assoc, ← hlow, ← hmiddle, ← hhigh]
  simp only [Nat.shiftLeft_eq]
  omega

theorem toNat_low_byte (n k : Nat) : (UInt8.ofNat (n >>> k &&& 255)).toNat = n / 2 ^ k % 256 := by
  have hmask : n >>> k &&& 255 = n >>> k % 256 := Nat.and_two_pow_sub_one_eq_mod (n >>> k) 8
  rw [hmask, Nat.shiftRight_eq_div_pow, UInt8.toNat_ofNat', Nat.mod_mod]

theorem dubnaInt32_put {n : Nat} (hn : n < 2147483648) {v : List UInt8} {i : Nat} {rest : List UInt8}
    (h : v.drop i = dubnaPutInt32 n ++ rest) : dubnaInt32 v i = some (n : Int) := by
  have hread : ∀ k, v[i + k]? = (dubnaPutInt32 n ++ rest)[k]? := fun k => by
    rw [← h, List.getElem?_drop]
  have hput : dubnaPutInt32 n = [UInt8.ofNat (n >>> 24 &&& 255), UInt8.ofNat (n >>> 16 &&& 255),
      UInt8.ofNat (n >>> 8 &&& 255), UInt8.ofNat (n &&& 255)] := by
    have hpos : ¬(n : Int) < 0 := by omega
    simp only [dubnaPutInt32, hpos, if_false, Int.toNat_natCast]
  have h0 := hread 0
  have h1 := hread 1
  have h2 := hread 2
  have h3 := hread 3
  rw [hput] at h0 h1 h2 h3
  have hlast : n &&& 255 = n >>> 0 &&& 255 := rfl
  unfold dubnaInt32
  rw [Nat.add_zero] at h0
  rw [h0, h1, h2, h3]
  simp only [List.cons_append, List.getElem?_cons_zero, List.getElem?_cons_succ, Option.bind_eq_bind,
    Option.bind_some, hlast, toNat_low_byte]
  rw [or_bytes (Nat.mod_lt _ (by decide)) (Nat.mod_lt _ (by decide)) (Nat.mod_lt _ (by decide))]
  have hvalue : n / 2 ^ 24 % 256 * 16777216 + n / 2 ^ 16 % 256 * 65536 + n / 2 ^ 8 % 256 * 256 +
      n / 2 ^ 0 % 256 = n := by
    norm_num
    omega
  rw [hvalue, if_neg (by omega)]
  rfl

theorem length_putInt32 (n : Int) : (dubnaPutInt32 n).length = 4 := rfl

namespace Message

def bytes (m : Message) : List UInt8 := dubnaMessage [m.type] m.body

def Short (m : Message) : Prop := m.body.length + 4 < 2147483648

theorem bytes_eq (m : Message) :
    m.bytes = m.type :: (dubnaPutInt32 (m.body.length + 4 : Nat) ++ m.body) := rfl

theorem length_bytes (m : Message) : m.bytes.length = m.body.length + 5 := by
  rw [bytes_eq, List.length_cons, List.length_append, length_putInt32]
  omega

end Message

section

variable {c : DubnaConn} {m : Message} {rest more : List UInt8}

theorem unread_length (c : DubnaConn) : c.unread.length = c.inbuf.length - c.inpos :=
  List.length_drop

theorem unread_head (hfield : 5 ≤ c.unread.length) (h : c.unread ++ rest = m.bytes ++ more) :
    c.unread = m.type :: (dubnaPutInt32 (m.body.length + 4 : Nat) ++ c.unread.drop 5) := by
  have htake : c.unread.take 5 = m.type :: dubnaPutInt32 (m.body.length + 4 : Nat) := by
    calc c.unread.take 5 = (c.unread ++ rest).take 5 := (List.take_append_of_le_length hfield).symm
      _ = (m.bytes ++ more).take 5 := by rw [h]
      _ = m.type :: dubnaPutInt32 (m.body.length + 4 : Nat) := rfl
  calc c.unread = c.unread.take 5 ++ c.unread.drop 5 := (List.take_append_drop 5 _).symm
    _ = _ := by rw [htake]; rfl

theorem dubnaTake_short (hfield : c.unread.length < 5) : dubnaTake c = some .incomplete := by
  have hinside := c.inside
  rw [unread_length] at hfield
  rw [dubnaTake, if_pos (by omega)]

theorem dubnaTake_size (hshort : m.Short) (hfield : 5 ≤ c.unread.length)
    (h : c.unread ++ rest = m.bytes ++ more) :
    dubnaInt32 c.inbuf (c.inpos + 1) = some ((m.body.length + 4 : Nat) : Int) := by
  have hdrop : c.inbuf.drop (c.inpos + 1) =
      dubnaPutInt32 (m.body.length + 4 : Nat) ++ c.unread.drop 5 := by
    calc c.inbuf.drop (c.inpos + 1) = c.unread.drop 1 := by rw [DubnaConn.unread, List.drop_drop]
      _ = _ := by
        conv_lhs => rw [unread_head hfield h]
        rfl
  exact dubnaInt32_put hshort hdrop

theorem dubnaTake_incomplete (hshort : m.Short) (hlen : c.unread.length < m.bytes.length)
    (h : c.unread ++ rest = m.bytes ++ more) : dubnaTake c = some .incomplete := by
  by_cases hfield : c.unread.length < 5
  · exact dubnaTake_short hfield
  have hinside := c.inside
  have hsize := dubnaTake_size hshort (by omega) h
  rw [unread_length] at hfield hlen
  rw [Message.length_bytes] at hlen
  rw [dubnaTake, if_neg (by omega), hsize]
  simp only [Option.bind_eq_bind, Option.bind_some]
  rw [if_neg (by omega), dif_neg (by rw [Int.toNat_natCast]; omega)]
  rfl

theorem dubnaTake_message (hshort : m.Short) (h : c.unread = m.bytes ++ more) :
    ∃ c' : DubnaConn, dubnaTake c = some (.message m c') ∧ c'.unread = more ∧ c'.tls = c.tls := by
  have hinside := c.inside
  have hlen : c.unread.length = m.body.length + 5 + more.length := by
    rw [h, List.length_append, Message.length_bytes]
  have hwhole : c.unread ++ [] = m.bytes ++ more := by rw [List.append_nil, h]
  have hsize := dubnaTake_size hshort (by omega) hwhole
  rw [unread_length] at hlen
  have htype : c.inbuf[c.inpos]? = some m.type := by
    have hfirst : c.unread[0]? = some m.type := by rw [h]; rfl
    rwa [DubnaConn.unread, List.getElem?_drop] at hfirst
  have hbody : dubnaVslice c.inbuf (c.inpos + 5) m.body.length = some m.body := by
    have hdrop : c.inbuf.drop (c.inpos + 5) = m.body ++ more := by
      calc c.inbuf.drop (c.inpos + 5) = c.unread.drop 5 := by rw [DubnaConn.unread, List.drop_drop]
        _ = m.body ++ more := by rw [h]; rfl
    rw [dubnaVslice, if_pos (by omega), hdrop, List.take_left]
  have hcount : ((m.body.length + 4 : Nat) : Int).toNat - 4 = m.body.length := by
    rw [Int.toNat_natCast]
    omega
  unfold dubnaTake
  rw [if_neg (by omega), hsize]
  simp only [Option.bind_eq_bind, Option.bind_some]
  rw [if_neg (by omega), dif_pos (by rw [Int.toNat_natCast]; omega), hcount, htype, hbody]
  simp only [Option.bind_some]
  rw [dif_pos m.typed]
  refine ⟨_, rfl, ?_, rfl⟩
  rw [DubnaConn.unread]
  dsimp only
  calc c.inbuf.drop (c.inpos + 1 + ((m.body.length + 4 : Nat) : Int).toNat)
      = c.unread.drop m.bytes.length := by
        rw [DubnaConn.unread, List.drop_drop, Message.length_bytes, Int.toNat_natCast]
        congr 1
        omega
    _ = more := by rw [h, List.drop_left]

end

def delivered : Receives → List UInt8
  | [] => []
  | none :: later => delivered later
  | some chunk :: later => chunk ++ delivered later

def Delivers (tls : Bool) (later : Receives) : Prop :=
  ∀ e ∈ later, e ≠ some [] ∧ (e = none → tls = true)

theorem unread_put (c : DubnaConn) (chunk : List UInt8) : (c.put chunk).unread = c.unread ++ chunk := by
  have hinside := c.inside
  unfold DubnaConn.put
  split
  · rename_i hread
    rw [DubnaConn.unread, DubnaConn.unread, List.drop_of_length_le hread]
    rfl
  · exact List.drop_append_of_le_length hinside

theorem tls_put (c : DubnaConn) (chunk : List UInt8) : (c.put chunk).tls = c.tls := by
  unfold DubnaConn.put
  split <;> rfl

theorem dubnaFill_spec {c : DubnaConn} (hlater : Delivers c.tls later)
    (hmore : delivered later ≠ []) :
    ∃ c' later', dubnaFill c later = (true, c', later') ∧
      c'.unread ++ delivered later' = c.unread ++ delivered later ∧ c'.tls = c.tls ∧
      Delivers c.tls later' ∧ later'.length < later.length := by
  induction later with
  | nil => exact absurd rfl hmore
  | cons e later ih =>
    obtain ⟨hnonempty, htls⟩ := hlater e (by simp)
    have hrest : Delivers c.tls later := fun e he => hlater e (by simp [he])
    cases e with
    | none =>
      obtain ⟨c', later', hfill, hbytes, hc, hdelivers, hlen⟩ := ih hrest hmore
      refine ⟨c', later', ?_, hbytes, hc, hdelivers, by rw [List.length_cons]; omega⟩
      rw [dubnaFill, if_pos (htls rfl), hfill]
    | some chunk =>
      have hchunk : chunk ≠ [] := fun h => hnonempty (by rw [h])
      refine ⟨c.put chunk, later, ?_, ?_, tls_put c chunk, hrest, by simp⟩
      · rw [dubnaFill, if_neg hchunk]
      · rw [unread_put, delivered, List.append_assoc]

theorem dubnaReadLoop_spec {m : Message} {more : List UInt8} (hshort : m.Short) (turns : Nat)
    {c : DubnaConn} (hlater : Delivers c.tls later)
    (hturns : later.length < turns) (h : c.unread ++ delivered later = m.bytes ++ more) :
    ∃ c' later', dubnaReadLoop turns c later = some (some m, c', later') ∧
      c'.unread ++ delivered later' = more ∧ c'.tls = c.tls ∧ Delivers c.tls later' := by
  induction turns generalizing c later with
  | zero => omega
  | succ turns ih =>
    rw [dubnaReadLoop]
    by_cases hlen : c.unread.length < m.bytes.length
    · have hmore : delivered later ≠ [] := by
        intro hnil
        have hlens := congrArg List.length h
        rw [hnil, List.append_nil, List.length_append] at hlens
        omega
      obtain ⟨c', later', hfill, hbytes, hc, hdelivers, hless⟩ := dubnaFill_spec hlater hmore
      rw [dubnaTake_incomplete hshort hlen h]
      simp only [Option.bind_eq_bind, Option.bind_some, hfill]
      rw [← hc] at hdelivers ⊢
      exact ih hdelivers (by omega) (hbytes.trans h)
    · obtain ⟨tail, htail⟩ : ∃ tail, c.unread = m.bytes ++ tail := by
        have hprefix : m.bytes <+: c.unread :=
          List.prefix_of_prefix_length_le ⟨more, h.symm⟩ ⟨delivered later, rfl⟩ (by omega)
        obtain ⟨tail, htail⟩ := hprefix
        exact ⟨tail, htail.symm⟩
      obtain ⟨c', htake, hunread, hc⟩ := dubnaTake_message hshort htail
      rw [htake]
      refine ⟨c', later, rfl, ?_, hc, hlater⟩
      rw [htail, List.append_assoc] at h
      rw [hunread]
      exact List.append_cancel_left h

theorem dubnaReads_spec {ms : List Message} (hshort : ∀ m ∈ ms, m.Short) {c : DubnaConn} (hlater : Delivers c.tls later) {more : List UInt8}
    (h : c.unread ++ delivered later = ms.flatMap Message.bytes ++ more) :
    ∃ c' later', dubnaReads ms.length c later = some (ms, c', later') ∧
      c'.unread ++ delivered later' = more ∧ Delivers c'.tls later' := by
  induction ms generalizing c later with
  | nil => exact ⟨c, later, rfl, h, hlater⟩
  | cons m ms ih =>
    rw [List.flatMap_cons, List.append_assoc] at h
    obtain ⟨c', later', hread, hbytes, hc, hdelivers⟩ :=
      dubnaReadLoop_spec (hshort m (by simp)) (later.length + 1) hlater (by omega) h
    rw [← hc] at hdelivers
    obtain ⟨c'', later'', hreads, hrest⟩ := ih (fun m hm => hshort m (by simp [hm])) hdelivers hbytes
    refine ⟨c'', later'', ?_, hrest⟩
    rw [List.length_cons, dubnaReads, dubnaRead, hread]
    simp only [Option.bind_eq_bind, Option.bind_some, hreads]
    rfl

theorem dubnaFill_end {c : DubnaConn} (hlater : Delivers c.tls later)
    (hend : delivered later = []) : ∃ later', dubnaFill c later = (false, c, later') := by
  induction later with
  | nil => exact ⟨[], rfl⟩
  | cons e later ih =>
    obtain ⟨hnonempty, htls⟩ := hlater e (by simp)
    cases e with
    | none =>
      obtain ⟨later', hfill⟩ := ih (fun e he => hlater e (by simp [he])) hend
      exact ⟨later', by rw [dubnaFill, if_pos (htls rfl), hfill]⟩
    | some chunk =>
      rw [delivered, List.append_eq_nil_iff] at hend
      exact absurd (by rw [hend.1]) hnonempty

/-- Successive calls return the messages of the stream, in order and whole, whatever the
buffer holds and however the rest is cut into chunks; at its end they return nothing. -/
theorem dubnaReads_stream {ms : List Message} (hshort : ∀ m ∈ ms, m.Short) {c : DubnaConn}
    {later : Receives} (hlater : Delivers c.tls later) {more : List UInt8}
    (h : c.unread ++ delivered later = ms.flatMap Message.bytes ++ more) :
    ∃ c' later', dubnaReads ms.length c later = some (ms, c', later') ∧
      c'.unread ++ delivered later' = more ∧
      (more = [] → ∃ c'' later'', dubnaRead c' later' = some (none, c'', later'')) := by
  obtain ⟨c', later', hreads, hmore, hdelivers⟩ := dubnaReads_spec hshort hlater h
  refine ⟨c', later', hreads, hmore, fun hnil => ?_⟩
  rw [hnil, List.append_eq_nil_iff] at hmore
  obtain ⟨later'', hfill⟩ := dubnaFill_end hdelivers hmore.2
  refine ⟨{ c' with open_ := false }, later'', ?_⟩
  rw [dubnaRead, dubnaReadLoop, dubnaTake_short (by rw [hmore.1]; decide)]
  simp only [Option.bind_eq_bind, Option.bind_some, hfill]
  rfl

def terminate : Message := ⟨88, [], by decide⟩

/-- A message cut after its third byte, behind a byte that has been read. -/
theorem dubnaReads_stream_cut : ∃ c' later', dubnaReads 1 ⟨true, [7, 88], 1, true, by decide⟩
    [some [0, 0], none, some [0, 4]] = some ([terminate], c', later') := by
  have hshort : ∀ m ∈ [terminate], m.Short := by simp [terminate, Message.Short]
  have hlater : Delivers true [some [0, 0], none, some [0, 4]] := by simp [Delivers]
  have hbytes : (⟨true, [7, 88], 1, true, by decide⟩ : DubnaConn).unread ++
      delivered [some [0, 0], none, some [0, 4]] = [terminate].flatMap Message.bytes ++ [] := by
    decide +kernel
  obtain ⟨c', later', hreads, -⟩ := dubnaReads_stream hshort hlater hbytes
  exact ⟨c', later', hreads⟩

end Ussr.Dubna
