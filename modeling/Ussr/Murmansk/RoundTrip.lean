import Ussr.Murmansk.Decisions
import Ussr.Numerals

/-! The rules of a firewall are read back from the text that it writes. -/

namespace Ussr.Murmansk
open Stalin (Text)

variable {w : Text} {ws : List Text}
open Real64 (ascii)
open Firewall

/-- A text that `mu_words` takes as one word. -/
structure Word (w : Text) : Prop where
  ne_nil : w ≠ []
  plain : ∀ b ∈ w, b ≠ 35 ∧ isSpace b = false

theorem word_of_all (hne : w ≠ []) (h : (w.all fun b => b != 35 && !isSpace b) = true) : Word w :=
  ⟨hne, fun b hb => by simpa using List.all_eq_true.mp h b hb⟩

theorem muWordsLoop_append {u : Text} (hu : ∀ b ∈ u, b ≠ 35 ∧ isSpace b = false) (s w : Text) (words : List Text) :
    muWordsLoop (u ++ s) w words = muWordsLoop s (w ++ u) words := by
  induction u generalizing w with
  | nil => rw [List.nil_append, List.append_nil]
  | cons b u ih =>
    obtain ⟨hhash, hspace⟩ := hu b List.mem_cons_self
    rw [List.cons_append, muWordsLoop, if_neg hhash, hspace, if_neg (by decide),
      ih fun x hx => hu x (List.mem_cons_of_mem b hx), List.append_assoc]
    rfl

def spaced : List Text → Text
  | [] => []
  | w :: ws => 32 :: w ++ spaced ws

theorem muWordsLoop_spaced (hws : ∀ w ∈ ws, Word w) (hw : w ≠ []) (words : List Text) :
    muWordsLoop (spaced ws) w words = words ++ w :: ws := by
  induction ws generalizing w words with
  | nil => exact if_pos hw
  | cons u ws ih =>
    have hu := hws u List.mem_cons_self
    rw [spaced, List.cons_append, muWordsLoop, if_neg (by decide), if_pos (by decide), muWordsLoop_append hu.plain, List.nil_append,
      ih (fun x hx => hws x (List.mem_cons_of_mem u hx)) hu.ne_nil, push, if_pos hw, List.append_assoc]
    rfl

theorem muWords_spaced (hw : Word w) (hws : ∀ w ∈ ws, Word w) :
    muWords (w ++ spaced ws) = w :: ws := by
  rw [muWords, muWordsLoop_append hw.plain, List.nil_append, muWordsLoop_spaced hws hw.ne_nil, List.nil_append]

theorem spaced_append (us ws : List Text) : spaced (us ++ ws) = spaced us ++ spaced ws := by
  induction us with
  | nil => rfl
  | cons u us ih =>
    rw [List.cons_append, spaced, ih, spaced]
    exact (List.append_assoc _ _ _).symm

section

/-- A digit, or one of `-`, `.` and `/`: a byte of a number, a range or an address. -/
def isNumeric (b : UInt8) : Bool := 45 ≤ b.toNat && b.toNat ≤ 57

theorem plain_of_isNumeric {b : UInt8} (h : isNumeric b = true) : b ≠ 35 ∧ isSpace b = false := by
  unfold isNumeric at h
  rw [Bool.and_eq_true, decide_eq_true_eq, decide_eq_true_eq] at h
  have hne (c : UInt8) (hc : c.toNat < 45) : b ≠ c := by
    rintro rfl
    omega
  refine ⟨hne 35 (by decide), ?_⟩
  unfold isSpace
  simp [hne 32 (by decide), hne 9 (by decide), hne 13 (by decide), hne 10 (by decide)]

variable {n : Nat}

theorem natText_eq (hn : n < 10 ^ 15) : natText n = Decimal.decimal n := strFromInt_eq hn

theorem isDigit_natText (hn : n < 10 ^ 15) : ∀ b ∈ natText n, isDigit b = true := by
  rw [natText_eq hn]
  exact Decimal.decimal_digits n

theorem natText_ne_nil (hn : n < 10 ^ 15) : natText n ≠ [] := by
  rw [natText_eq hn]
  exact Decimal.decimal_ne_nil n

theorem muNumber_natText (hn : n < 10 ^ 9) : muNumber (natText n) = some n := by
  have hlength := Decimal.decimal_length_le hn (by decide)
  have hnil := List.length_pos_iff.mpr (Decimal.decimal_ne_nil n)
  have hvalue (bs : Text) (hbs : ∀ b ∈ bs, isDigit b = true) (v : Nat) :
      bs.foldl (fun v b => v * 10 + b.toNat - 48) v = bs.foldl (fun n b => 10 * n + (b.toNat - 48)) v := by
    induction bs generalizing v with
    | nil => rfl
    | cons b bs ih =>
      have hb := hbs b List.mem_cons_self
      unfold isDigit at hb
      rw [Bool.and_eq_true, decide_eq_true_eq, decide_eq_true_eq] at hb
      rw [List.foldl_cons, List.foldl_cons, ih fun x hx => hbs x (List.mem_cons_of_mem b hx)]
      congr 1
      omega
  have hdigits : ∀ b ∈ Decimal.decimal n, isDigit b = true := Decimal.decimal_digits n
  unfold muNumber
  rw [natText_eq (by omega), if_neg (by omega), if_pos (List.all_eq_true.mpr hdigits), hvalue _ hdigits]
  exact congrArg some (Decimal.ofDecimal_decimal n)

theorem ne_of_isDigit {b c : UInt8} (h : isDigit b = true) (hc : isDigit c = false) : b ≠ c := by
  rintro rfl
  exact absurd (h.symm.trans hc) (by decide)

theorem isNumeric_of_isDigit {b : UInt8} (h : isDigit b = true) : isNumeric b = true := by
  unfold isDigit at h
  unfold isNumeric
  simp only [Bool.and_eq_true, decide_eq_true_eq] at h ⊢
  omega

theorem drop_cons {a : Text} {j : Nat} (hj : j < a.length) : ∃ b ∈ a, ∃ rest, a.drop j = b :: rest := by
  cases hdrop : a.drop j with
  | nil =>
    have hlength := List.drop_eq_nil_iff.mp hdrop
    omega
  | cons b rest => exact ⟨b, List.mem_of_mem_drop (hdrop ▸ List.mem_cons_self), rest, rfl⟩

theorem strFind_byte {a : Text} {c : UInt8} (ha : ∀ b ∈ a, b ≠ c) (s : Text) :
    strFind (a ++ c :: s) [c] 0 = some a.length := by
  unfold strFind
  rw [List.find?_range'_eq_some]
  refine ⟨?_, ?_, fun j _ hj => ?_⟩
  · rw [List.drop_left]
    simp
  · rw [List.mem_range'_1, List.length_append, List.length_cons, List.length_singleton]
    omega
  · obtain ⟨b, hb, rest, hdrop⟩ := drop_cons hj
    rw [List.drop_append_of_le_length hj.le, hdrop]
    simpa using ha b hb

theorem strFind_none {a : Text} {c : UInt8} (ha : ∀ b ∈ a, b ≠ c) : strFind a [c] 0 = none := by
  unfold strFind
  rw [List.find?_range'_eq_none]
  intro j _ hj
  rw [List.length_singleton] at hj
  obtain ⟨b, hb, rest, hdrop⟩ := drop_cons (by omega : j < a.length)
  rw [hdrop]
  simpa using ha b hb

theorem drop_past (a : Text) (c : UInt8) (s : Text) : (a ++ c :: s).drop (a.length + 1) = s := by
  rw [List.drop_append, List.drop_of_length_le (Nat.le_succ _), Nat.add_sub_cancel_left]
  rfl

theorem natText_ne (hn : n < 10 ^ 15) {c : UInt8} (hc : isDigit c = false) : ∀ b ∈ natText n, b ≠ c := fun b hb =>
  ne_of_isDigit (isDigit_natText hn b hb) hc

end

section

variable {a b c d : Nat}

theorem muIp_split {a b c d : Text} (ha : ∀ x ∈ a, x ≠ 46) (hb : ∀ x ∈ b, x ≠ 46) (hc : ∀ x ∈ c, x ≠ 46) (hd : ∀ x ∈ d, x ≠ 46) :
    (a ++ ascii "." ++ b ++ ascii "." ++ c ++ ascii "." ++ d).splitOn 46 = [a, b, c, d] := by
  have hnot {t : Text} (h : ∀ x ∈ t, x ≠ 46) : (46 : UInt8) ∉ t := fun hmem => h 46 hmem rfl
  have hjoin : a ++ ascii "." ++ b ++ ascii "." ++ c ++ ascii "." ++ d = a ++ 46 :: (b ++ 46 :: (c ++ 46 :: d)) := by
    rw [show ascii "." = [46] from rfl]
    simp only [List.append_assoc, List.cons_append, List.nil_append]
  rw [hjoin, List.splitOn_append_cons_self_of_not_mem (hnot ha), List.splitOn_append_cons_self_of_not_mem (hnot hb),
    List.splitOn_append_cons_self_of_not_mem (hnot hc), List.splitOn_eq_singleton (hnot hd)]

theorem or_octet {v x : Nat} (hx : x < 256) : v <<< 8 ||| x = v * 256 + x := by
  rw [← Nat.shiftLeft_add_eq_or_of_lt (show x < 2 ^ 8 from hx), Nat.shiftLeft_eq]

theorem and_octet (v : Nat) : v &&& 255 = v % 256 := Nat.and_two_pow_sub_one_eq_mod v 8

theorem muIp_muIpText {ip : Nat} (hip : ip < 2 ^ 32) : muIp (muIpText ip) = some ip := by
  have hoctet (v : Nat) : v &&& 255 < 256 := by
    rw [and_octet]
    exact Nat.mod_lt v (by decide)
  have hdots (v : Nat) : ∀ x ∈ natText (v &&& 255), x ≠ 46 := natText_ne (by have := hoctet v; omega) (by decide)
  have hnumber (v : Nat) : muNumber (natText (v &&& 255)) = some (v &&& 255) := muNumber_natText (by have := hoctet v; omega)
  have hsmall (v : Nat) : ¬255 < v &&& 255 := by
    have := hoctet v
    omega
  unfold muIp muIpText
  rw [muIp_split (hdots _) (hdots _) (hdots _) (hdots _)]
  simp only [List.length_cons, List.length_nil, muOctets, hnumber, Option.bind_some, if_neg (hsmall _)]
  rw [if_neg (by decide), or_octet (hoctet _), or_octet (hoctet _), or_octet (hoctet _), or_octet (hoctet _)]
  simp only [and_octet, Nat.shiftRight_eq_div_pow]
  congr 1
  omega

theorem isNumeric_muIpText (ip : Nat) : ∀ x ∈ muIpText ip, isNumeric x = true ∧ x ≠ 47 := by
  have hoctet (v : Nat) : ∀ x ∈ natText (v &&& 255), isNumeric x = true ∧ x ≠ 47 := by
    have hlt : v &&& 255 < 10 ^ 15 := by
      rw [and_octet]
      omega
    exact fun x hx => ⟨isNumeric_of_isDigit (isDigit_natText hlt x hx), natText_ne hlt (by decide) x hx⟩
  have hdot : ∀ x ∈ ascii ".", isNumeric x = true ∧ x ≠ 47 := fun x hx => by
    rw [List.mem_singleton.mp (show x ∈ [46] from hx)]
    decide
  unfold muIpText
  simp only [List.forall_mem_append]
  exact ⟨⟨⟨⟨⟨⟨hoctet _, hdot⟩, hoctet _⟩, hdot⟩, hoctet _⟩, hdot⟩, hoctet _⟩

theorem muIpText_ne_nil (ip : Nat) : muIpText ip ≠ [] := by
  unfold muIpText
  simp [show ascii "." = [46] from rfl]

end

section

variable (r : Rule)

def portText : Text := natText r.lo ++ (if r.hi ≠ r.lo then ascii "-" ++ natText r.hi else [])

def networkText : Text := muIpText r.net ++ (if r.bits < 32 then ascii "/" ++ natText r.bits else [])

def protoWords : List Text := if r.proto ≠ .any ∨ r.lo ≠ 0 ∨ r.hi ≠ 65535 then [r.proto.text] else []

def portWords : List Text := if r.lo ≠ 0 ∨ r.hi ≠ 65535 then [portText r] else []

def networkWords : List Text := if 0 < r.bits then [r.dir.want, networkText r] else []

theorem muRuleText_eq :
    muRuleText r = r.action.text ++ spaced (r.dir.text :: (protoWords r ++ portWords r ++ networkWords r)) := by
  have hblank (t : Text) : ascii " " ++ t = 32 :: t := rfl
  have hproto : spaced (protoWords r) = if r.proto ≠ .any ∨ r.lo ≠ 0 ∨ r.hi ≠ 65535 then ascii " " ++ r.proto.text else [] := by
    unfold protoWords
    split_ifs
    · rw [spaced, spaced, List.append_nil, hblank]
    · rfl
  have hport : spaced (portWords r) = if r.lo ≠ 0 ∨ r.hi ≠ 65535 then
      ascii " " ++ natText r.lo ++ (if r.hi ≠ r.lo then ascii "-" ++ natText r.hi else []) else [] := by
    unfold portWords portText
    rw [List.append_assoc, hblank]
    split_ifs
    · rw [spaced, spaced, List.append_nil]
    · rw [spaced, spaced, List.append_nil]
    · rfl
  have hnetwork : spaced (networkWords r) = if 0 < r.bits then ascii " " ++ r.dir.want ++ ascii " " ++ muIpText r.net ++
      (if r.bits < 32 then ascii "/" ++ natText r.bits else []) else [] := by
    unfold networkWords networkText
    rw [List.append_assoc, List.append_assoc, List.append_assoc, hblank (muIpText r.net ++ _), hblank]
    split_ifs
    · rw [spaced, spaced, spaced, List.append_nil, List.cons_append]
    · rw [spaced, spaced, spaced, List.append_nil, List.cons_append]
    · rfl
  rw [spaced, spaced_append, spaced_append, hproto, hport, hnetwork]
  unfold muRuleText
  simp only [List.append_assoc, List.cons_append, hblank]

theorem word_of_isNumeric (hne : w ≠ []) (h : ∀ b ∈ w, isNumeric b = true) : Word w :=
  ⟨hne, fun b hb => plain_of_isNumeric (h b hb)⟩

theorem word_verdict (v : Verdict) : Word v.text := by
  cases v
  · exact word_of_all (by decide) (by decide)
  · exact word_of_all (by decide) (by decide)

theorem word_dir (d : Dir) : Word d.text ∧ Word d.want := by
  cases d
  · exact ⟨word_of_all (by decide) (by decide), word_of_all (by decide) (by decide)⟩
  · exact ⟨word_of_all (by decide) (by decide), word_of_all (by decide) (by decide)⟩

theorem word_proto (p : Proto) : Word p.text := by
  cases p
  · exact word_of_all (by decide) (by decide)
  · exact word_of_all (by decide) (by decide)
  · exact word_of_all (by decide) (by decide)
  · exact word_of_all (by decide) (by decide)

variable {r} (hr : r.Sound)
include hr

theorem Rule.Sound.portText_numeric : portText r ≠ [] ∧ ∀ b ∈ portText r, isNumeric b = true := by
  have hlow := hr.low
  have hhigh := hr.high
  have hdigits {n : Nat} (hn : n < 10 ^ 15) : ∀ b ∈ natText n, isNumeric b = true := fun b hb =>
    isNumeric_of_isDigit (isDigit_natText hn b hb)
  have hdash : ∀ b ∈ ascii "-", isNumeric b = true := List.all_eq_true.mp (by decide)
  refine ⟨List.append_ne_nil_of_left_ne_nil (natText_ne_nil (by omega)) _, ?_⟩
  unfold portText
  split_ifs
  · simp only [List.forall_mem_append]
    exact ⟨hdigits (by omega), hdash, hdigits (by omega)⟩
  · rw [List.append_nil]
    exact hdigits (by omega)

theorem Rule.Sound.networkText_numeric : networkText r ≠ [] ∧ ∀ b ∈ networkText r, isNumeric b = true := by
  have hbits := hr.bits
  have hdigits : ∀ b ∈ natText r.bits, isNumeric b = true := fun b hb =>
    isNumeric_of_isDigit (isDigit_natText (by omega) b hb)
  have hslash : ∀ b ∈ ascii "/", isNumeric b = true := List.all_eq_true.mp (by decide)
  have haddress : ∀ b ∈ muIpText r.net, isNumeric b = true := fun b hb => (isNumeric_muIpText r.net b hb).1
  refine ⟨List.append_ne_nil_of_left_ne_nil (muIpText_ne_nil r.net) _, ?_⟩
  unfold networkText
  split_ifs
  · simp only [List.forall_mem_append]
    exact ⟨haddress, hslash, hdigits⟩
  · rw [List.append_nil]
    exact haddress

theorem Rule.Sound.rangeOf_portText : rangeOf (portText r) = (some r.lo, some r.hi) := by
  have hlow := hr.low
  have hhigh := hr.high
  have hnodash : ∀ b ∈ natText r.lo, b ≠ 45 := natText_ne (by omega) (by decide)
  have hlo := muNumber_natText (n := r.lo) (by omega)
  unfold rangeOf portText
  rw [show ascii "-" = [45] from rfl]
  by_cases hone : r.hi ≠ r.lo
  · rw [if_pos hone, List.singleton_append, strFind_byte hnodash, Option.elim_some, List.take_left, hlo,
      drop_past, muNumber_natText (by omega)]
  · rw [if_neg hone, List.append_nil, strFind_none hnodash, Option.elim_none, hlo, not_not.mp hone]

theorem Rule.Sound.networkOf_networkText (hpos : 0 < r.bits) : networkOf (networkText r) = (some r.net, some r.bits) := by
  have hbits := hr.bits
  have hnoslash : ∀ b ∈ muIpText r.net, b ≠ 47 := fun b hb => (isNumeric_muIpText r.net b hb).2
  unfold networkOf networkText
  rw [show ascii "/" = [47] from rfl]
  by_cases hpart : r.bits < 32
  · rw [if_pos hpart, List.singleton_append, strFind_byte hnoslash, Option.elim_some, List.take_left, drop_past,
      muIp_muIpText hr.net, muNumber_natText (by omega)]
  · rw [if_neg hpart, List.append_nil, strFind_none hnoslash, Option.elim_none, muIp_muIpText hr.net,
      show r.bits = 32 by omega]

theorem Rule.Sound.words (w : Text) (hw : w ∈ r.dir.text :: (protoWords r ++ portWords r ++ networkWords r)) : Word w := by
  have hproto : ∀ w ∈ protoWords r, Word w := by
    unfold protoWords
    split_ifs
    · exact List.forall_mem_singleton.mpr (word_proto r.proto)
    · exact fun w hw => absurd hw List.not_mem_nil
  have hport : ∀ w ∈ portWords r, Word w := by
    unfold portWords
    split_ifs
    · exact List.forall_mem_singleton.mpr (word_of_isNumeric hr.portText_numeric.1 hr.portText_numeric.2)
    · exact fun w hw => absurd hw List.not_mem_nil
  have hnetwork : ∀ w ∈ networkWords r, Word w := by
    unfold networkWords
    split_ifs
    · exact List.forall_mem_cons.mpr ⟨(word_dir r.dir).2, List.forall_mem_singleton.mpr
        (word_of_isNumeric hr.networkText_numeric.1 hr.networkText_numeric.2)⟩
    · exact fun w hw => absurd hw List.not_mem_nil
  rw [List.mem_cons, List.mem_append, List.mem_append] at hw
  rcases hw with rfl | (hw | hw) | hw
  · exact (word_dir r.dir).1
  · exact hproto w hw
  · exact hport w hw
  · exact hnetwork w hw

theorem Rule.Sound.muWords_ruleText :
    muWords (muRuleText r) = r.action.text :: r.dir.text :: (protoWords r ++ portWords r ++ networkWords r) := by
  rw [muRuleText_eq, muWords_spaced (word_verdict r.action) hr.words]

end

section

variable {r : Rule}

theorem ofText_verdict (v : Verdict) : Verdict.ofText v.text = some v := by
  cases v <;> decide

theorem ofText_dir (d : Dir) : Dir.ofText d.text = some d := by
  cases d <;> decide

theorem ofText_proto (p : Proto) : Proto.ofText p.text = some p := by
  cases p <;> decide

theorem want_facts (d : Dir) : Proto.ofText d.want = none ∧ (d.want = ascii "from" ∨ d.want = ascii "to") := by
  cases d <;> decide

variable (r) in
theorem readProto_words :
    readProto (protoWords r ++ portWords r ++ networkWords r) = (r.proto, portWords r ++ networkWords r) := by
  unfold protoWords
  by_cases hgiven : r.proto ≠ .any ∨ r.lo ≠ 0 ∨ r.hi ≠ 65535
  · rw [if_pos hgiven, List.singleton_append, List.cons_append, readProto, ofText_proto]
    rfl
  · obtain ⟨hproto, hlo, hhi⟩ : r.proto = .any ∧ r.lo = 0 ∧ r.hi = 65535 := by
      simpa only [not_or, not_not] using hgiven
    have hports : portWords r = [] := if_neg (by rw [hlo, hhi]; decide)
    rw [if_neg hgiven, hports, hproto, List.nil_append, List.nil_append]
    unfold networkWords
    split_ifs
    · rw [readProto, (want_facts r.dir).1]
      rfl
    · rfl

theorem readPorts_words (hr : r.Sound) :
    readPorts r.proto (portWords r ++ networkWords r) = .ok ((r.lo, r.hi), networkWords r) := by
  have hlow := hr.low
  have hhigh := hr.high
  unfold portWords
  by_cases hgiven : r.lo ≠ 0 ∨ r.hi ≠ 65535
  · have hproto := hr.ports hgiven
    have hnumeric := hr.portText_numeric.2
    have hfrom : portText r ≠ ascii "from" := fun h => absurd (hnumeric 102 (h ▸ by decide)) (by decide)
    have hto : portText r ≠ ascii "to" := fun h => absurd (hnumeric 116 (h ▸ by decide)) (by decide)
    rw [if_pos hgiven, List.singleton_append, readPorts, if_pos ⟨hfrom, hto⟩,
      if_neg (fun hno => hproto.elim hno.1 hno.2), hr.rangeOf_portText]
    exact if_neg (by omega)
  · obtain ⟨hlo, hhi⟩ : r.lo = 0 ∧ r.hi = 65535 := by omega
    rw [if_neg hgiven, List.nil_append, hlo, hhi]
    unfold networkWords
    split_ifs
    · rw [readPorts, if_neg (fun hno => (want_facts r.dir).2.elim hno.1 hno.2)]
    · rfl

theorem readNetwork_words (hr : r.Sound) : readNetwork r.dir (networkWords r) = .ok ((r.net, r.bits), []) := by
  have hbits := hr.bits
  have hmasked := hr.masked
  unfold networkWords
  by_cases hpos : 0 < r.bits
  · rw [if_pos hpos, readNetwork, if_neg (not_not.mpr rfl), hr.networkOf_networkText hpos]
    dsimp only
    rw [if_neg (by omega), hmasked]
  · have hzero : r.bits = 0 := by omega
    have hnet : r.net = 0 := by
      rw [← hmasked, hzero]
      exact Nat.and_zero r.net
    rw [if_neg hpos, hzero, hnet]
    rfl

theorem muParse_ruleText (hr : r.Sound) : muParse (muRuleText r) = .ok { r with hits := 0 } := by
  unfold muParse
  rw [hr.muWords_ruleText]
  have haction : readAction r.action.text = .ok r.action := by rw [readAction, ofText_verdict]; rfl
  have hdir : readDir r.dir.text = .ok r.dir := by rw [readDir, ofText_dir]; rfl
  simp only [haction, hdir, readProto_words r, readPorts_words hr, readNetwork_words hr, bind, Except.bind, readEnd]
  rfl

theorem muPolicy_ruleText (hr : r.Sound) : muPolicy (muRuleText r) = .ok none := by
  unfold muPolicy
  rw [hr.muWords_ruleText]
  have hfirst : r.action.text ≠ ascii "policy" := by cases r.action <;> decide
  exact if_pos hfirst

end

section

structure Line (l : Text) : Prop where
  no_break : (10 : UInt8) ∉ l

def fileText : List Text → Text
  | [] => []
  | l :: ls => l ++ 10 :: fileText ls

theorem splitOn_fileText {ls : List Text} (h : ∀ l ∈ ls, Line l) : (fileText ls).splitOn 10 = ls ++ [[]] := by
  induction ls with
  | nil => rfl
  | cons l ls ih =>
    rw [fileText, List.splitOn_append_cons_self_of_not_mem (h l List.mem_cons_self).no_break,
      ih fun x hx => h x (List.mem_cons_of_mem l hx)]
    rfl

theorem fileText_append (ks ls : List Text) : fileText (ks ++ ls) = fileText ks ++ fileText ls := by
  induction ks with
  | nil => rfl
  | cons k ks ih =>
    rw [List.cons_append, fileText, ih, fileText, List.append_assoc]
    rfl

theorem no_break_of_word (h : Word w) : (10 : UInt8) ∉ w := fun hmem =>
  absurd (h.plain 10 hmem).2 (by decide)

theorem no_break_spaced (h : ∀ w ∈ ws, Word w) : (10 : UInt8) ∉ spaced ws := by
  induction ws with
  | nil => exact List.not_mem_nil
  | cons w ws ih =>
    rw [spaced, List.mem_append, List.mem_cons]
    rintro ((hblank | hword) | hrest)
    · exact absurd hblank (by decide)
    · exact no_break_of_word (h w List.mem_cons_self) hword
    · exact ih (fun x hx => h x (List.mem_cons_of_mem w hx)) hrest

theorem line_ruleText {r : Rule} (hr : r.Sound) : Line (muRuleText r) := by
  refine ⟨?_⟩
  rw [muRuleText_eq, List.mem_append]
  rintro (haction | hrest)
  · exact no_break_of_word (word_verdict r.action) haction
  · exact no_break_spaced hr.words hrest

def headLine : Text := ascii "# Murmansk, the firewall: the first rule that matches decides"

def policyLine (d : Dir) (v : Verdict) : Text := ascii "policy " ++ d.text ++ ascii " " ++ v.text

theorem policyLine_facts (d : Dir) (v : Verdict) :
    Line (policyLine d v) ∧ muWords (policyLine d v) ≠ [] ∧ muPolicy (policyLine d v) = .ok (some (d, v)) := by
  cases d <;> cases v <;> exact ⟨⟨by decide⟩, by decide, by rfl⟩

variable {f : Firewall} {s : Ruleset}

theorem Stored.ruleLines {as bs : List (Nat × Rule)} (h : Stored f (as ++ bs)) :
    f.ruleLines bs.length (as.length + 1) = some (fileText ((bs.map Prod.snd).map muRuleText)) := by
  induction bs generalizing as with
  | nil => rfl
  | cons e bs ih =>
    have happended : Stored f ((as ++ [e]) ++ bs) := by rw [List.append_assoc]; exact h
    have hrest := ih happended
    rw [List.length_append] at hrest
    rw [List.length_cons, Firewall.ruleLines, h.rule_append, Option.bind_some]
    change (f.ruleLines bs.length (as.length + 1 + 1)).map _ = _
    rw [show as.length + 1 + 1 = as.length + [e].length + 1 from rfl, hrest, Option.map_some, List.append_assoc]
    rfl

theorem head_fileText (a b : Verdict) : ascii "# Murmansk, the firewall: the first rule that matches decides\n" ++
    (ascii "policy in " ++ a.text ++ ascii "\npolicy out " ++ b.text ++ ascii "\n") =
      fileText [headLine, policyLine .inward a, policyLine .outward b] := by
  cases a <;> cases b <;> decide +kernel

theorem Shows.text (h : Shows f s) : f.murmanskText =
    some (fileText ([headLine, policyLine .inward s.inPolicy, policyLine .outward s.outPolicy] ++ s.rules.map muRuleText)) := by
  obtain ⟨pairs, hstored, hrules⟩ := h.stored
  have hall : Stored f ([] ++ pairs) := hstored
  have hlines : f.ruleLines pairs.length 1 = _ := hall.ruleLines
  unfold murmanskText
  rw [hstored.len, hlines, Option.map_some, fileText_append, hrules, h.inPolicy, h.outPolicy]
  rw [head_fileText]

theorem Shows.rules_sound (h : Shows f s) : ∀ r ∈ s.rules, r.Sound := by
  obtain ⟨pairs, hstored, hrules⟩ := h.stored
  intro r hr
  rw [← hrules] at hr
  obtain ⟨e, he, rfl⟩ := List.mem_map.mp hr
  exact hstored.sound e he

def unhit (r : Rule) : Rule := { r with hits := 0 }

theorem loadLine_good {line : Text} (hwords : muWords line ≠ []) (hgood : (f.murmanskAdd line).2 = 0) :
    loadLine (f, 0, []) line = ((f.murmanskAdd line).1, 0, []) := by
  unfold loadLine
  rw [if_neg hwords]
  exact if_neg (not_not.mpr hgood)

theorem add_ruleText {r : Rule} (hr : r.Sound) :
    (f.murmanskAdd (muRuleText r)).2 = 0 ∧ s.add (muRuleText r) = { s with rules := s.rules ++ [unhit r] } := by
  unfold murmanskAdd Ruleset.add
  rw [muPolicy_ruleText hr, muParse_ruleText hr]
  exact ⟨rfl, rfl⟩

theorem load_rules {rules : List Rule} (hrules : ∀ r ∈ rules, r.Sound) (h : Shows f s) :
    ∃ g, (rules.map muRuleText).foldl loadLine (f, 0, []) = (g, 0, []) ∧
      Shows g { s with rules := s.rules ++ rules.map unhit } := by
  induction rules generalizing f s with
  | nil =>
    refine ⟨f, rfl, ?_⟩
    rw [List.map_nil, List.append_nil]
    exact h
  | cons r rules ih =>
    have hr := hrules r List.mem_cons_self
    obtain ⟨hgood, hadd⟩ := add_ruleText (f := f) (s := s) hr
    have hafter := h.add (muRuleText r)
    rw [hadd] at hafter
    obtain ⟨g, hload, hshows⟩ := ih (fun x hx => hrules x (List.mem_cons_of_mem r hx)) hafter
    have hwords : muWords (muRuleText r) ≠ [] := by
      rw [hr.muWords_ruleText]
      exact List.cons_ne_nil _ _
    refine ⟨g, ?_, ?_⟩
    · rw [List.map_cons, List.foldl_cons, loadLine_good hwords hgood, hload]
    · rw [List.map_cons, ← List.singleton_append, ← List.append_assoc]
      exact hshows

theorem load_policy (h : Shows f s) (d : Dir) (v : Verdict) :
    ∃ g, loadLine (f, 0, []) (policyLine d v) = (g, 0, []) ∧ Shows g (s.add (policyLine d v)) := by
  obtain ⟨-, hwords, hpolicy⟩ := policyLine_facts d v
  have hgood : (f.murmanskAdd (policyLine d v)).2 = 0 := by
    unfold murmanskAdd
    rw [hpolicy]
  exact ⟨_, loadLine_good hwords hgood, h.add _⟩

theorem load_text (hrules : ∀ r ∈ s.rules, r.Sound) :
    ∃ g, murmanskReset.murmanskLoadText (fileText ([headLine, policyLine .inward s.inPolicy, policyLine .outward s.outPolicy] ++
        s.rules.map muRuleText)) = (g, 0) ∧ Shows g ⟨s.rules.map unhit, s.inPolicy, s.outPolicy, []⟩ := by
  have hlines : ∀ l ∈ [headLine, policyLine .inward s.inPolicy, policyLine .outward s.outPolicy] ++ s.rules.map muRuleText,
      Line l := by
    simp only [List.forall_mem_append, List.forall_mem_cons, List.forall_mem_map]
    exact ⟨⟨⟨by decide⟩, (policyLine_facts _ _).1, (policyLine_facts _ _).1, fun l hl => absurd hl List.not_mem_nil⟩,
      fun r hr => line_ruleText (hrules r hr)⟩
  have hhead : loadLine (murmanskReset, 0, []) headLine = (murmanskReset, 0, []) := if_pos (by decide)
  obtain ⟨f₁, hload₁, hshows₁⟩ := load_policy shows_start .inward s.inPolicy
  obtain ⟨f₂, hload₂, hshows₂⟩ := load_policy hshows₁ .outward s.outPolicy
  obtain ⟨g, hload, hshows⟩ := load_rules hrules hshows₂
  have hstart : (Ruleset.start.add (policyLine .inward s.inPolicy)).add (policyLine .outward s.outPolicy) =
      ⟨[], s.inPolicy, s.outPolicy, []⟩ := by
    unfold Ruleset.add
    rw [(policyLine_facts .inward s.inPolicy).2.2, (policyLine_facts .outward s.outPolicy).2.2]
    rfl
  rw [hstart, List.nil_append] at hshows
  have hfold : ([headLine, policyLine .inward s.inPolicy, policyLine .outward s.outPolicy] ++ s.rules.map muRuleText ++ [[]]).foldl
      loadLine (murmanskReset, 0, []) = (g, 0, []) := by
    rw [List.foldl_append, List.foldl_append]
    change loadLine ((s.rules.map muRuleText).foldl loadLine (loadLine (loadLine (loadLine (murmanskReset, 0, []) headLine) _) _)) [] = _
    rw [hhead, hload₁, hload₂, hload]
    rfl
  refine ⟨g, ?_, hshows⟩
  unfold murmanskLoadText
  rw [splitOn_fileText hlines, hfold]
  rfl

theorem decides_unhit (s : Ruleset) (p : Packet) :
    (⟨s.rules.map unhit, s.inPolicy, s.outPolicy, []⟩ : Ruleset).decides p = s.decides p := by
  have hsame (r : Rule) : Matches p (unhit r) ↔ Matches p r := by
    rw [matches_iff, matches_iff]
    rfl
  unfold Ruleset.decides
  rw [List.find?_map]
  simp only [Function.comp_def, hsame]
  cases s.rules.find? fun r => Matches p r with
  | none => cases p.dir <;> rfl
  | some r => rfl

/-- What a firewall writes after any calls gives, read into a firewall that was reset, the same
policies and rules, and so the same decisions. -/
theorem text_round_trip (calls : List Call) : ∃ f text g, runCalls calls = some f ∧ f.murmanskText = some text ∧
    murmanskReset.murmanskLoadText text = (g, 0) ∧
    g.inPolicy = f.inPolicy ∧ g.outPolicy = f.outPolicy ∧ g.ruleList = f.ruleList.map unhit ∧
    ∀ p, ∃ allowed, f.murmanskAllows p = some allowed ∧ g.murmanskAllows p = some allowed := by
  obtain ⟨f, hrun, hshows⟩ := shows_run calls
  obtain ⟨g, hload, hafter⟩ := load_text hshows.rules_sound
  refine ⟨f, _, g, hrun, hshows.text, hload, hafter.inPolicy.trans hshows.inPolicy.symm,
    hafter.outPolicy.trans hshows.outPolicy.symm, ?_, fun p => ⟨_, hshows.allows p, ?_⟩⟩
  · rw [hafter.ruleList, hshows.ruleList]
  · rw [hafter.allows, decides_unhit]

end

end Ussr.Murmansk
