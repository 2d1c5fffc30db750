import Ussr.Dubna.Authenticate

/-! Base64 there and back, and the texts that `dubna_unbase64` takes for base64. -/

namespace Ussr.Dubna
open Real64
open Stalin (Text)

theorem ascii_ofList (cs : List Char) :
    ascii (String.ofList cs) = (cs.map fun c => UInt8.ofNat c.toNat).filter (· ≠ 0) := by
  have hbytes : ascii (String.ofList cs) =
      ((String.ofList cs).toList.map fun c => UInt8.ofNat c.toNat).filter (· ≠ 0) := rfl
  rw [hbytes, String.toList_ofList]

def IsLetter (b : UInt8) : Prop := b ∈ dubnaB64Alphabet

theorem dubnaB64Alphabet_eq : dubnaB64Alphabet =
    (List.range' 65 26).map UInt8.ofNat ++ (List.range' 97 26).map UInt8.ofNat ++ (List.range' 48 10).map UInt8.ofNat ++
      [43, 47] := by
  unfold dubnaB64Alphabet
  exact (ascii_ofList _).trans (by decide +kernel)

theorem mem_map_range' {s n : Nat} (hn : s + n ≤ 256) {b : UInt8} :
    b ∈ (List.range' s n).map UInt8.ofNat ↔ s ≤ b.toNat ∧ b.toNat < s + n := by
  rw [List.mem_map]
  constructor
  · rintro ⟨k, hk, rfl⟩
    rw [List.mem_range'_1] at hk
    rw [UInt8.toNat_ofNat', Nat.mod_eq_of_lt (by omega)]
    exact hk
  · intro hb
    exact ⟨b.toNat, List.mem_range'_1.mpr hb, UInt8.ofNat_toNat⟩

theorem isLetter_iff {b : UInt8} : IsLetter b ↔ ∃ x, dubnaB64Value b = some x := by
  have hplus : b = 43 ↔ b.toNat = 43 := (UInt8.toNat_inj (b := 43)).symm
  have hslash : b = 47 ↔ b.toNat = 47 := (UInt8.toNat_inj (b := 47)).symm
  rw [IsLetter, dubnaB64Alphabet_eq]
  simp only [List.mem_append, mem_map_range' (by decide : 65 + 26 ≤ 256), mem_map_range' (by decide : 97 + 26 ≤ 256),
    mem_map_range' (by decide : 48 + 10 ≤ 256), List.mem_cons, List.not_mem_nil, or_false, dubnaB64Value, hplus, hslash]
  split_ifs <;> simp <;> omega

theorem b64Value_letter (k : Nat) : dubnaB64Value (b64Letter k) = some (k % 64) ∧ b64Letter k ≠ 61 := by
  have hall : ∀ d < 64, dubnaB64Value (dubnaB64Alphabet.getD d 0) = some d ∧ dubnaB64Alphabet.getD d 0 ≠ 61 := by
    rw [dubnaB64Alphabet_eq]
    decide +kernel
  have hmod : k &&& 63 = k % 64 := Nat.and_two_pow_sub_one_eq_mod k 6
  rw [b64Letter, hmod]
  exact hall _ (Nat.mod_lt k (by decide))

theorem not_isLetter_pad : ¬IsLetter 61 := by
  rw [isLetter_iff]
  rintro ⟨x, hx⟩
  cases hx

theorem unbase64Letter_letter (w k : Nat) : unbase64Letter (w, 0) (b64Letter k) = some (w * 64 + k % 64, 0) := by
  obtain ⟨hvalue, hpad⟩ := b64Value_letter k
  have hor : w <<< 6 ||| k % 64 = w * 64 + k % 64 := by
    rw [← Nat.shiftLeft_add_eq_or_of_lt (Nat.mod_lt k (by decide)), Nat.shiftLeft_eq]
  rw [unbase64Letter, if_neg hpad, hvalue]
  simp only [Option.bind_eq_bind, Option.bind_some, Nat.lt_irrefl, if_false, hor]

theorem unbase64Letter_pad (w pad : Nat) : unbase64Letter (w, pad) 61 = some (w * 64, pad + 1) := by
  rw [unbase64Letter, if_pos rfl, Nat.shiftLeft_eq]

theorem b64Word_eq (a b c : UInt8) : b64Word a b c = a.toNat * 65536 + b.toNat * 256 + c.toNat := by
  have hb := b.toNat_lt
  have hc := c.toNat_lt
  have hlow : b.toNat <<< 8 ||| c.toNat = b.toNat * 256 + c.toNat := by
    rw [← Nat.shiftLeft_add_eq_or_of_lt hc, Nat.shiftLeft_eq]
  rw [b64Word, Nat.or_assoc, hlow, ← Nat.shiftLeft_add_eq_or_of_lt (by omega), Nat.shiftLeft_eq, Nat.add_assoc]

theorem byte_of_word {w : Nat} {a : UInt8} (h : w % 256 = a.toNat) : UInt8.ofNat (w &&& 255) = a := by
  have hmod : w &&& 255 = w % 256 := Nat.and_two_pow_sub_one_eq_mod w 8
  rw [hmod, h, UInt8.ofNat_toNat]

theorem word_of_letters {w : Nat} (hw : w < 2 ^ 24) :
    (((0 * 64 + (w >>> 18) % 64) * 64 + (w >>> 12) % 64) * 64 + (w >>> 6) % 64) * 64 + w % 64 = w := by
  simp only [Nat.shiftRight_eq_div_pow]
  omega

theorem unbase64_base64 (v : List UInt8) : dubnaUnbase64 (dubnaBase64 v) = some v := by
  induction v using dubnaBase64.induct with
  | case1 => rfl
  | case2 a =>
    have ha := a.toNat_lt
    have hword : b64Word a 0 0 = a.toNat * 65536 := by simp [b64Word_eq]
    have hfirst : (((0 * 64 + (b64Word a 0 0 >>> 18) % 64) * 64 + (b64Word a 0 0 >>> 12) % 64) * 64 * 64) >>> 16 % 256 = a.toNat := by
      rw [hword]
      simp only [Nat.shiftRight_eq_div_pow]
      omega
    simp only [dubnaBase64, dubnaUnbase64, List.foldlM_cons, List.foldlM_nil, unbase64Letter_letter, unbase64Letter_pad,
      Option.bind_eq_bind, Option.bind_some, Option.pure_def]
    rw [byte_of_word hfirst]
    rfl
  | case3 a b =>
    have ha := a.toNat_lt
    have hb := b.toNat_lt
    have hword : b64Word a b 0 = a.toNat * 65536 + b.toNat * 256 := by simp [b64Word_eq]
    obtain ⟨w, hw⟩ : ∃ w, w = (((0 * 64 + (b64Word a b 0 >>> 18) % 64) * 64 + (b64Word a b 0 >>> 12) % 64) * 64 +
      (b64Word a b 0 >>> 6) % 64) * 64 := ⟨_, rfl⟩
    have hfirst : w >>> 16 % 256 = a.toNat := by
      rw [hw, hword]
      simp only [Nat.shiftRight_eq_div_pow]
      omega
    have hsecond : w >>> 8 % 256 = b.toNat := by
      rw [hw, hword]
      simp only [Nat.shiftRight_eq_div_pow]
      omega
    simp only [dubnaBase64, dubnaUnbase64, List.foldlM_cons, List.foldlM_nil, unbase64Letter_letter, unbase64Letter_pad,
      Option.bind_eq_bind, Option.bind_some, Option.pure_def]
    rw [← hw, byte_of_word hfirst, byte_of_word hsecond]
    rfl
  | case4 a b c rest ih =>
    have ha := a.toNat_lt
    have hb := b.toNat_lt
    have hc := c.toNat_lt
    have hword := b64Word_eq a b c
    have hback := word_of_letters (w := b64Word a b c) (by omega)
    have hfirst : b64Word a b c >>> 16 % 256 = a.toNat := by
      rw [hword, Nat.shiftRight_eq_div_pow]
      omega
    have hsecond : b64Word a b c >>> 8 % 256 = b.toNat := by
      rw [hword, Nat.shiftRight_eq_div_pow]
      omega
    have hthird : b64Word a b c % 256 = c.toNat := by
      rw [hword]
      omega
    simp only [dubnaBase64, dubnaUnbase64, List.foldlM_cons, List.foldlM_nil, unbase64Letter_letter, Option.bind_eq_bind,
      Option.bind_some, Option.pure_def, ih]
    rw [hback, byte_of_word hfirst, byte_of_word hsecond, byte_of_word hthird]
    rfl

def groups : Text → List Text
  | a :: b :: c :: d :: rest => [a, b, c, d] :: groups rest
  | _ => []

/-- Base64 as RFC 4648 has it: groups of letters, and one or two `=` at the end of the last. -/
def IsBase64 : Text → Prop
  | [] => True
  | [a, b, c, d] => IsLetter a ∧ IsLetter b ∧ (IsLetter c ∧ (IsLetter d ∨ d = 61) ∨ c = 61 ∧ d = 61)
  | a :: b :: c :: d :: rest => IsLetter a ∧ IsLetter b ∧ IsLetter c ∧ IsLetter d ∧ IsBase64 rest
  | _ => False

/-- Letters and then `=`, any number of each. -/
def Filled : Text → Prop
  | [] => True
  | b :: bs => IsLetter b ∧ Filled bs ∨ ∀ x ∈ b :: bs, x = 61

/-- Whole groups of letters and `=` with an `=` before the last group, or with three or four in one. -/
def Overpadded (s : Text) : Prop :=
  s.length % 4 = 0 ∧ (∀ g ∈ groups s, Filled g) ∧ ((∃ g ∈ (groups s).dropLast, 61 ∈ g) ∨ ∃ g ∈ groups s, 61 ∈ g.take 2)

theorem foldlM_pads (bs : Text) (w : Nat) {pad : Nat} (hpad : 0 < pad) :
    (bs.foldlM unbase64Letter (w, pad)).isSome ↔ ∀ x ∈ bs, x = 61 := by
  induction bs generalizing w pad with
  | nil => exact iff_of_true rfl fun x hx => absurd hx List.not_mem_nil
  | cons b bs ih =>
    rw [List.foldlM_cons, List.forall_mem_cons, unbase64Letter]
    by_cases hb : b = 61
    · rw [if_pos hb]
      exact (ih _ (Nat.succ_pos pad)).trans (iff_and_self.mpr fun _ => hb)
    · rw [if_neg hb]
      refine iff_of_false ?_ fun h => hb h.1
      cases dubnaB64Value b <;> simp [hpad]

theorem foldlM_filled (bs : Text) (w : Nat) : (bs.foldlM unbase64Letter (w, 0)).isSome ↔ Filled bs := by
  induction bs generalizing w with
  | nil => exact iff_of_true rfl trivial
  | cons b bs ih =>
    rw [List.foldlM_cons, unbase64Letter, Filled]
    by_cases hb : b = 61
    · have hletter : ¬IsLetter b := hb ▸ not_isLetter_pad
      rw [if_pos hb, List.forall_mem_cons]
      refine (foldlM_pads bs _ Nat.one_pos).trans ⟨fun h => .inr ⟨hb, h⟩, fun h => ?_⟩
      obtain h | h := h
      · exact absurd h.1 hletter
      · exact h.2
    · have hpads : ¬∀ x ∈ b :: bs, x = 61 := fun h => hb (h b List.mem_cons_self)
      rw [if_neg hb, isLetter_iff]
      cases hvalue : dubnaB64Value b with
      | none =>
        refine iff_of_false (by simp) fun h => ?_
        obtain ⟨⟨x, hx⟩, -⟩ | h := h
        · cases hx
        · exact hpads h
      | some x =>
        simp only [Option.bind_eq_bind, Option.bind_some, Nat.lt_irrefl, if_false]
        refine (ih _).trans ⟨fun h => .inl ⟨⟨x, rfl⟩, h⟩, fun h => ?_⟩
        obtain h | h := h
        · exact h.2
        · exact absurd h hpads

theorem unbase64_isSome (s : Text) : (dubnaUnbase64 s).isSome ↔ s.length % 4 = 0 ∧ ∀ g ∈ groups s, Filled g := by
  induction s using dubnaUnbase64.induct with
  | case1 => exact iff_of_true rfl ⟨rfl, fun g hg => absurd hg List.not_mem_nil⟩
  | case2 a b c d rest ih =>
    have hgroup := foldlM_filled [a, b, c, d] 0
    have hlen : (a :: b :: c :: d :: rest).length % 4 = rest.length % 4 := by
      simp only [List.length_cons]
      omega
    rw [dubnaUnbase64, groups, List.forall_mem_cons, hlen, and_left_comm, ← ih, ← hgroup]
    cases [a, b, c, d].foldlM unbase64Letter (0, 0) with
    | none => simp
    | some v => cases dubnaUnbase64 rest <;> simp
  | case3 s hnil hmore =>
    obtain _ | ⟨a, _ | ⟨b, _ | ⟨c, _ | ⟨d, rest⟩⟩⟩⟩ := s
    · exact absurd rfl hnil
    · simp [dubnaUnbase64]
    · simp [dubnaUnbase64]
    · simp [dubnaUnbase64]
    · exact absurd rfl (hmore a b c d rest)

theorem filled_iff_letters {bs : Text} (h : 61 ∉ bs) : Filled bs ↔ ∀ b ∈ bs, IsLetter b := by
  induction bs with
  | nil => exact iff_of_true trivial fun b hb => absurd hb List.not_mem_nil
  | cons b bs ih =>
    rw [List.mem_cons, not_or] at h
    have hpads : ¬∀ x ∈ b :: bs, x = 61 := fun hall => h.1 (hall b List.mem_cons_self).symm
    rw [Filled, or_iff_left hpads, ih h.2, List.forall_mem_cons]

theorem letters_no_pad {bs : Text} (h : ∀ b ∈ bs, IsLetter b) : 61 ∉ bs := fun hin => not_isLetter_pad (h 61 hin)

theorem filled_last_iff (a b c d : UInt8) : Filled [a, b, c, d] ∧ 61 ∉ [a, b] ↔
    IsLetter a ∧ IsLetter b ∧ (IsLetter c ∧ (IsLetter d ∨ d = 61) ∨ c = 61 ∧ d = 61) := by
  have hpad {x : UInt8} (hx : IsLetter x) : x ≠ 61 := fun heq => not_isLetter_pad (heq ▸ hx)
  simp only [Filled, List.mem_cons, List.not_mem_nil, or_false, forall_eq_or_imp, forall_eq, and_true, not_or]
  constructor
  · rintro ⟨h, ha, hb⟩
    obtain ⟨hla, h⟩ | h := h
    · obtain ⟨hlb, h⟩ | h := h
      · exact ⟨hla, hlb, h⟩
      · exact absurd h.1.symm hb
    · exact absurd h.1.symm ha
  · rintro ⟨hla, hlb, h⟩
    exact ⟨.inl ⟨hla, .inl ⟨hlb, h⟩⟩, (hpad hla).symm, (hpad hlb).symm⟩

theorem groups_ne_nil {s : Text} (hne : s ≠ []) (hlen : s.length % 4 = 0) : groups s ≠ [] := by
  obtain _ | ⟨a, _ | ⟨b, _ | ⟨c, _ | ⟨d, rest⟩⟩⟩⟩ := s
  · exact absurd rfl hne
  · cases hlen
  · cases hlen
  · cases hlen
  · exact List.cons_ne_nil _ _

theorem isBase64_iff (s : Text) : IsBase64 s ↔ (s.length % 4 = 0 ∧ ∀ g ∈ groups s, Filled g) ∧
    ¬((∃ g ∈ (groups s).dropLast, 61 ∈ g) ∨ ∃ g ∈ groups s, 61 ∈ g.take 2) := by
  induction s using IsBase64.induct with
  | case1 => simp [IsBase64, groups]
  | case2 a b c d =>
    have hlast := filled_last_iff a b c d
    have hgroups : groups [a, b, c, d] = [[a, b, c, d]] := rfl
    rw [IsBase64, ← hlast, hgroups]
    simp
  | case3 a b c d rest hne ih =>
    have hlen : (a :: b :: c :: d :: rest).length % 4 = rest.length % 4 := by
      simp only [List.length_cons]
      omega
    rw [IsBase64, ih, groups, List.forall_mem_cons, hlen]
    · by_cases hmod : rest.length % 4 = 0
      · have hrest := groups_ne_nil hne hmod
        have hletters : (∀ x ∈ [a, b, c, d], IsLetter x) ↔ IsLetter a ∧ IsLetter b ∧ IsLetter c ∧ IsLetter d := by simp
        rw [List.dropLast_cons_of_ne_nil hrest, List.exists_mem_cons_iff, List.exists_mem_cons_iff]
        by_cases hpad : 61 ∈ [a, b, c, d]
        · have hnot : ¬(IsLetter a ∧ IsLetter b ∧ IsLetter c ∧ IsLetter d) := fun h => letters_no_pad (hletters.mpr h) hpad
          exact iff_of_false (fun h => hnot ⟨h.1, h.2.1, h.2.2.1, h.2.2.2.1⟩) fun h => h.2 (.inl (.inl hpad))
        · have htwo : 61 ∉ [a, b, c, d].take 2 := fun hin => hpad (List.mem_of_mem_take hin)
          rw [or_iff_right hpad, or_iff_right htwo, filled_iff_letters hpad, hletters]
          simp only [hmod, true_and, and_assoc]
      · exact iff_of_false (fun h => hmod h.2.2.2.2.1.1) fun h => hmod h.1.1
    · exact hne
  | case4 s hnil hfour hmore =>
    obtain _ | ⟨a, _ | ⟨b, _ | ⟨c, _ | ⟨d, rest⟩⟩⟩⟩ := s
    · exact absurd rfl hnil
    · simp [IsBase64]
    · simp [IsBase64]
    · simp [IsBase64]
    · exact absurd rfl (hmore a b c d rest)

/-- `dubna_unbase64` gives back what `dubna_base64` was given, and it takes exactly the base64 texts but
for those that have an `=` too early or too many. -/
theorem base64_as_rfc4648_iff (s : Text) : ((∀ v, dubnaUnbase64 (dubnaBase64 v) = some v) ∧
    (dubnaUnbase64 s ≠ none ↔ IsBase64 s)) ↔ ¬Overpadded s := by
  have hsome : dubnaUnbase64 s ≠ none ↔ s.length % 4 = 0 ∧ ∀ g ∈ groups s, Filled g := by
    rw [← unbase64_isSome, Option.isSome_iff_ne_none]
  rw [and_iff_right unbase64_base64, hsome, isBase64_iff, Overpadded, ← and_assoc, iff_self_and, not_and]

/-- `====` -/
theorem pads_not_base64 : dubnaUnbase64 [61, 61, 61, 61] = some [0] ∧ ¬IsBase64 [61, 61, 61, 61] := by
  refine ⟨by decide, fun h => not_isLetter_pad h.1⟩

end Ussr.Dubna
