import Mathlib.Algebra.Order.Ring.Nat
import Mathlib.Data.List.Basic

/-! Characters of a text, as the regular expressions read them: UTF-8 where it is well formed, else single bytes. -/

namespace Ussr.Regex

variable {need v bits : Nat} {b : UInt8} {rest : List UInt8}

def reBadByte : Nat := 0x110000

def lead (c : Nat) : Option (Nat × Nat) :=
  if 0xc2 ≤ c ∧ c ≤ 0xdf then some (1, c &&& 0x1f)
  else if 0xe0 ≤ c ∧ c ≤ 0xef then some (2, c &&& 0x0f)
  else if 0xf0 ≤ c ∧ c ≤ 0xf4 then some (3, c &&& 0x07)
  else none

/-- The loop of `re_decode`. -/
def continued : (need : Nat) → List UInt8 → (value : Nat) → Option Nat
  | 0, _, value => some value
  | _ + 1, [], _ => none
  | need + 1, b :: rest, value =>
    if b.toNat &&& 0xc0 ≠ 0x80 then none else continued need rest ((value <<< 6) ||| (b.toNat &&& 0x3f))

/-- `re_decode` of a text `b :: rest`: the character, and its bytes. -/
def reDecode (b : UInt8) (rest : List UInt8) : Nat × Nat :=
  let c := b.toNat
  if c < 0x80 then (c, 1)
  else
    match lead c with
    | none => (reBadByte + c, 1)
    | some (need, bits) =>
      if rest.length + 1 ≤ need then (reBadByte + c, 1)
      else
        match continued need rest bits with
        | none => (reBadByte + c, 1)
        | some value =>
          if (need = 2 ∧ value < 0x800) ∨ (need = 3 ∧ (value < 0x10000 ∨ 0x10ffff < value)) then (reBadByte + c, 1)
          else (value, need + 1)

def utf8Bytes (v : Nat) : List UInt8 :=
  if v ≤ 0x7f then [UInt8.ofNat v]
  else if v ≤ 0x7ff then [UInt8.ofNat (v / 64 % 0x20 + 0xc0), UInt8.ofNat (v % 0x40 + 0x80)]
  else if v ≤ 0xffff then
    [UInt8.ofNat (v / 4096 % 0x10 + 0xe0), UInt8.ofNat (v / 64 % 0x40 + 0x80), UInt8.ofNat (v % 0x40 + 0x80)]
  else
    [UInt8.ofNat (v / 262144 % 0x08 + 0xf0), UInt8.ofNat (v / 4096 % 0x40 + 0x80), UInt8.ofNat (v / 64 % 0x40 + 0x80),
      UInt8.ofNat (v % 0x40 + 0x80)]

/-- The bytes of a character that `re_decode` gives. -/
def charBytes (c : Nat) : List UInt8 := if c < reBadByte then utf8Bytes c else [UInt8.ofNat (c - reBadByte)]

theorem utf8Bytes_char (ch : Char) : String.utf8EncodeChar ch = utf8Bytes ch.val.toNat := rfl

theorem utf8Bytes_ne_nil (v : Nat) : utf8Bytes v ≠ [] := by
  unfold utf8Bytes
  split_ifs <;> exact List.cons_ne_nil _ _

theorem and_c0 (b : UInt8) : b.toNat &&& 0xc0 = 0x80 ↔ 128 ≤ b.toNat ∧ b.toNat < 192 := by
  have hall : ∀ n : Fin 256, n.val &&& 0xc0 = 0x80 ↔ 128 ≤ n.val ∧ n.val < 192 := by decide +kernel
  exact hall ⟨b.toNat, b.toNat_lt⟩

theorem shift_or (v : Nat) (b : UInt8) : (v <<< 6) ||| (b.toNat &&& 0x3f) = v * 64 + b.toNat % 64 := by
  have hmod : b.toNat &&& 0x3f = b.toNat % 64 := Nat.and_two_pow_sub_one_eq_mod b.toNat 6
  rw [hmod, ← Nat.shiftLeft_add_eq_or_of_lt (show b.toNat % 64 < 2 ^ 6 from Nat.mod_lt _ (by decide)), Nat.shiftLeft_eq]

theorem continued_cons {value : Nat} :
    continued (need + 1) (b :: rest) value = some v ↔
      (128 ≤ b.toNat ∧ b.toNat < 192) ∧ continued need rest (value * 64 + b.toNat % 64) = some v := by
  rw [continued, shift_or]
  by_cases hb : b.toNat &&& 0xc0 = 0x80
  · rw [if_neg (not_not.mpr hb), and_iff_right ((and_c0 b).mp hb)]
  · rw [if_pos hb]
    exact ⟨fun h => (by cases h), fun h => absurd ((and_c0 b).mpr h.1) hb⟩

theorem lead_one {c : Nat} (h : lead c = some (need, bits)) :
    (need = 1 ∧ 0xc2 ≤ c ∧ c ≤ 0xdf ∧ bits = c % 32) ∨ (need = 2 ∧ 0xe0 ≤ c ∧ c ≤ 0xef ∧ bits = c % 16) ∨
      (need = 3 ∧ 0xf0 ≤ c ∧ c ≤ 0xf4 ∧ bits = c % 8) := by
  unfold lead at h
  split_ifs at h with h₁ h₂ h₃
  · obtain ⟨rfl, rfl⟩ := Prod.mk.inj (Option.some.inj h)
    exact .inl ⟨rfl, h₁.1, h₁.2, Nat.and_two_pow_sub_one_eq_mod c 5⟩
  · obtain ⟨rfl, rfl⟩ := Prod.mk.inj (Option.some.inj h)
    exact .inr (.inl ⟨rfl, h₂.1, h₂.2, Nat.and_two_pow_sub_one_eq_mod c 4⟩)
  · obtain ⟨rfl, rfl⟩ := Prod.mk.inj (Option.some.inj h)
    exact .inr (.inr ⟨rfl, h₃.1, h₃.2, Nat.and_two_pow_sub_one_eq_mod c 3⟩)

theorem byte_eq {n : Nat} (h : n = b.toNat) : UInt8.ofNat n = b := by
  rw [h, UInt8.ofNat_toNat]

theorem utf8Bytes_of_continued (hlead : lead b.toNat = some (need, bits))
    (hv : continued need rest bits = some v)
    (hrange : ¬ ((need = 2 ∧ v < 0x800) ∨ (need = 3 ∧ (v < 0x10000 ∨ 0x10ffff < v)))) :
    utf8Bytes v = (b :: rest).take (need + 1) ∧ v < reBadByte ∧ need + 1 ≤ (b :: rest).length := by
  unfold utf8Bytes reBadByte
  obtain ⟨rfl, hlow, hhigh, rfl⟩ | ⟨rfl, hlow, hhigh, rfl⟩ | ⟨rfl, hlow, hhigh, rfl⟩ := lead_one hlead
  · obtain _ | ⟨b₁, rest⟩ := rest
    · cases hv
    obtain ⟨hb₁, hv⟩ := continued_cons.mp hv
    obtain rfl := Option.some.inj hv
    rw [if_neg (by omega), if_pos (by omega)]
    refine ⟨?_, by omega, by simp⟩
    rw [byte_eq (b := b) (by omega), byte_eq (b := b₁) (by omega)]
    rfl
  · obtain _ | ⟨b₁, _ | ⟨b₂, rest⟩⟩ := rest
    · cases hv
    · cases (continued_cons.mp hv).2
    obtain ⟨hb₁, hv⟩ := continued_cons.mp hv
    obtain ⟨hb₂, hv⟩ := continued_cons.mp hv
    obtain rfl := Option.some.inj hv
    rw [if_neg (by omega), if_neg (by omega), if_pos (by omega)]
    refine ⟨?_, by omega, by simp⟩
    rw [byte_eq (b := b) (by omega), byte_eq (b := b₁) (by omega), byte_eq (b := b₂) (by omega)]
    rfl
  · obtain _ | ⟨b₁, _ | ⟨b₂, _ | ⟨b₃, rest⟩⟩⟩ := rest
    · cases hv
    · cases (continued_cons.mp hv).2
    · cases (continued_cons.mp (continued_cons.mp hv).2).2
    obtain ⟨hb₁, hv⟩ := continued_cons.mp hv
    obtain ⟨hb₂, hv⟩ := continued_cons.mp hv
    obtain ⟨hb₃, hv⟩ := continued_cons.mp hv
    obtain rfl := Option.some.inj hv
    rw [if_neg (by omega), if_neg (by omega), if_neg (by omega)]
    refine ⟨?_, by omega, by simp⟩
    rw [byte_eq (b := b) (by omega), byte_eq (b := b₁) (by omega), byte_eq (b := b₂) (by omega), byte_eq (b := b₃) (by omega)]
    rfl

theorem reDecode_cases (b : UInt8) (rest : List UInt8) : reDecode b rest = (reBadByte + b.toNat, 1) ∨
    ((reDecode b rest).1 < reBadByte ∧ utf8Bytes (reDecode b rest).1 = (b :: rest).take (reDecode b rest).2 ∧
      (reDecode b rest).2 ≤ (b :: rest).length) := by
  unfold reDecode
  extract_lets c
  split
  · rename_i hascii
    refine .inr ⟨?_, ?_, by simp⟩
    · show c < 0x110000
      omega
    · have hc : c ≤ 0x7f := by omega
      show utf8Bytes c = [b]
      rw [utf8Bytes, if_pos hc, byte_eq rfl]
  · split
    · exact .inl rfl
    · rename_i need bits hlead
      split
      · exact .inl rfl
      · split
        · exact .inl rfl
        · rename_i v hv
          split
          · exact .inl rfl
          · rename_i hrange
            obtain ⟨hbytes, hlt, hlength⟩ := utf8Bytes_of_continued hlead hv hrange
            exact .inr ⟨hlt, hbytes, hlength⟩

theorem toNat_byte {n : Nat} (h : n < 256) : (UInt8.ofNat n).toNat = n := by
  rw [UInt8.toNat_ofNat', Nat.mod_eq_of_lt h]

theorem continued_length (h : continued need rest bits = some v) : need ≤ rest.length := by
  induction need generalizing rest bits with
  | zero => exact Nat.zero_le _
  | succ need ih =>
    cases rest with
    | nil => cases h
    | cons b rest => exact Nat.succ_le_succ (ih (continued_cons.mp h).2)

theorem reDecode_of_continued (hlead : lead b.toNat = some (need, bits))
    (hv : continued need rest bits = some v) (hrange : ¬ ((need = 2 ∧ v < 0x800) ∨ (need = 3 ∧ (v < 0x10000 ∨ 0x10ffff < v)))) :
    reDecode b rest = (v, need + 1) := by
  have hlow : ¬ b.toNat < 0x80 := by
    have hcases := lead_one hlead
    omega
  have hlength := continued_length hv
  unfold reDecode
  extract_lets c
  rw [if_neg hlow, hlead]
  simp only
  rw [if_neg (by omega), hv]
  exact if_neg hrange

theorem reDecode_utf8Bytes (hv : v < reBadByte) (h : utf8Bytes v <+: b :: rest) :
    reDecode b rest = (v, (utf8Bytes v).length) := by
  obtain ⟨tail, htail⟩ := h
  unfold reBadByte at hv
  unfold utf8Bytes at htail ⊢
  split_ifs at htail ⊢ with h₁ h₂ h₃
  · obtain ⟨rfl, rfl⟩ := List.cons.inj htail
    rw [reDecode, toNat_byte (by omega), if_pos (by omega)]
    rfl
  · obtain ⟨rfl, rfl⟩ := List.cons.inj htail
    have hc : (UInt8.ofNat (v / 64 % 0x20 + 0xc0)).toNat = v / 64 + 0xc0 := (toNat_byte (by omega)).trans (by omega)
    have hmod : (v / 64 + 0xc0) &&& 0x1f = (v / 64 + 0xc0) % 32 := Nat.and_two_pow_sub_one_eq_mod _ 5
    have hlead : lead (UInt8.ofNat (v / 64 % 0x20 + 0xc0)).toNat = some (1, v / 64) := by
      rw [hc, lead, if_pos ⟨by omega, by omega⟩, hmod]
      congr 2
      omega
    have hread : continued 1 (UInt8.ofNat (v % 0x40 + 0x80) :: tail) (v / 64) = some v := by
      refine continued_cons.mpr ?_
      rw [toNat_byte (by omega)]
      refine ⟨⟨by omega, by omega⟩, ?_⟩
      rw [continued]
      congr 1
      omega
    exact (reDecode_of_continued hlead hread (by omega)).trans rfl
  · obtain ⟨rfl, rfl⟩ := List.cons.inj htail
    have hc : (UInt8.ofNat (v / 4096 % 0x10 + 0xe0)).toNat = v / 4096 + 0xe0 := (toNat_byte (by omega)).trans (by omega)
    have hmod : (v / 4096 + 0xe0) &&& 0x0f = (v / 4096 + 0xe0) % 16 := Nat.and_two_pow_sub_one_eq_mod _ 4
    have hlead : lead (UInt8.ofNat (v / 4096 % 0x10 + 0xe0)).toNat = some (2, v / 4096) := by
      rw [hc, lead, if_neg (by omega), if_pos ⟨by omega, by omega⟩, hmod]
      congr 2
      omega
    have hread : continued 2 (UInt8.ofNat (v / 64 % 0x40 + 0x80) :: UInt8.ofNat (v % 0x40 + 0x80) :: tail) (v / 4096) = some v := by
      refine continued_cons.mpr ?_
      rw [toNat_byte (by omega)]
      refine ⟨⟨by omega, by omega⟩, continued_cons.mpr ?_⟩
      rw [toNat_byte (by omega)]
      refine ⟨⟨by omega, by omega⟩, ?_⟩
      rw [continued]
      congr 1
      omega
    exact (reDecode_of_continued hlead hread (by omega)).trans rfl
  · obtain ⟨rfl, rfl⟩ := List.cons.inj htail
    have hc : (UInt8.ofNat (v / 262144 % 0x08 + 0xf0)).toNat = v / 262144 + 0xf0 := (toNat_byte (by omega)).trans (by omega)
    have hmod : (v / 262144 + 0xf0) &&& 0x07 = (v / 262144 + 0xf0) % 8 := Nat.and_two_pow_sub_one_eq_mod _ 3
    have hlead : lead (UInt8.ofNat (v / 262144 % 0x08 + 0xf0)).toNat = some (3, v / 262144) := by
      rw [hc, lead, if_neg (by omega), if_neg (by omega), if_pos ⟨by omega, by omega⟩, hmod]
      congr 2
      omega
    have hread : continued 3 (UInt8.ofNat (v / 4096 % 0x40 + 0x80) :: UInt8.ofNat (v / 64 % 0x40 + 0x80) :: UInt8.ofNat (v % 0x40 + 0x80) :: tail) (v / 262144) = some v := by
      refine continued_cons.mpr ?_
      rw [toNat_byte (by omega)]
      refine ⟨⟨by omega, by omega⟩, continued_cons.mpr ?_⟩
      rw [toNat_byte (by omega)]
      refine ⟨⟨by omega, by omega⟩, continued_cons.mpr ?_⟩
      rw [toNat_byte (by omega)]
      refine ⟨⟨by omega, by omega⟩, ?_⟩
      rw [continued]
      congr 1
      omega
    exact (reDecode_of_continued hlead hread (by omega)).trans rfl

theorem reDecode_size (b : UInt8) (rest : List UInt8) : 1 ≤ (reDecode b rest).2 := by
  obtain heq | ⟨_, hbytes, _⟩ := reDecode_cases b rest
  · rw [heq]
  · by_contra hzero
    rw [Nat.lt_one_iff.mp (Nat.not_le.mp hzero), List.take_zero] at hbytes
    exact utf8Bytes_ne_nil _ hbytes

def characters : List UInt8 → List Nat
  | [] => []
  | b :: rest => (reDecode b rest).1 :: characters ((b :: rest).drop (reDecode b rest).2)
termination_by text => text.length
decreasing_by
  have hsize := reDecode_size b rest
  rw [List.length_drop, List.length_cons]
  omega

theorem charBytes_reDecode (b : UInt8) (rest : List UInt8) :
    charBytes (reDecode b rest).1 = (b :: rest).take (reDecode b rest).2 := by
  unfold charBytes
  obtain heq | ⟨hlt, hbytes, _⟩ := reDecode_cases b rest
  · rw [heq, if_neg (by omega), Nat.add_sub_cancel_left, UInt8.ofNat_toNat]
    rfl
  · rw [if_pos hlt, hbytes]

theorem characters_bytes (text : List UInt8) : (characters text).flatMap charBytes = text := by
  induction text using characters.induct with
  | case1 => rw [characters]; rfl
  | case2 b rest ih => rw [characters, List.flatMap_cons, ih, charBytes_reDecode, List.take_append_drop]

def Surrogate : List UInt8 → Prop
  | b :: b₁ :: b₂ :: _ => b.toNat = 0xed ∧ 0xa0 ≤ b₁.toNat ∧ b₁.toNat ≤ 0xbf ∧ 0x80 ≤ b₂.toNat ∧ b₂.toNat ≤ 0xbf
  | _ => False

theorem utf8Bytes_surrogate {text : List UInt8} : (∃ v, 0xd800 ≤ v ∧ v ≤ 0xdfff ∧ utf8Bytes v <+: text) ↔ Surrogate text := by
  constructor
  · rintro ⟨v, hlow, hhigh, tail, rfl⟩
    have hbytes : utf8Bytes v = [UInt8.ofNat (v / 4096 % 0x10 + 0xe0), UInt8.ofNat (v / 64 % 0x40 + 0x80), UInt8.ofNat (v % 0x40 + 0x80)] := by
      rw [utf8Bytes, if_neg (by omega), if_neg (by omega), if_pos (by omega)]
    rw [hbytes]
    show (UInt8.ofNat _).toNat = _ ∧ _ ≤ (UInt8.ofNat _).toNat ∧ (UInt8.ofNat _).toNat ≤ _ ∧ _ ≤ (UInt8.ofNat _).toNat ∧ (UInt8.ofNat _).toNat ≤ _
    rw [toNat_byte (by omega), toNat_byte (by omega), toNat_byte (by omega)]
    omega
  · intro h
    obtain _ | ⟨b, _ | ⟨b₁, _ | ⟨b₂, rest⟩⟩⟩ := text
    · cases h
    · cases h
    · cases h
    obtain ⟨hb, hlow₁, hhigh₁, hlow₂, hhigh₂⟩ := h
    refine ⟨0xd000 + b₁.toNat % 64 * 64 + b₂.toNat % 64, by omega, by omega, rest, ?_⟩
    rw [utf8Bytes, if_neg (by omega), if_neg (by omega), if_pos (by omega), byte_eq (b := b) (by omega),
      byte_eq (b := b₁) (by omega), byte_eq (b := b₂) (by omega)]
    rfl

/-- What `re_decode` is to do: a well-formed sequence is its character, any other byte stands for itself. -/
structure Decodes (b : UInt8) (rest : List UInt8) : Prop where
  wellFormed : ∀ ch : Char, String.utf8EncodeChar ch <+: b :: rest →
    reDecode b rest = (ch.val.toNat, (String.utf8EncodeChar ch).length)
  other : (∀ ch : Char, ¬ String.utf8EncodeChar ch <+: b :: rest) → reDecode b rest = (reBadByte + b.toNat, 1)
  text : (characters (b :: rest)).flatMap charBytes = b :: rest

/-- A text is read as it is to be read exactly where no surrogate stands. -/
theorem reDecode_decodes_iff (b : UInt8) (rest : List UInt8) : Decodes b rest ↔ ¬ Surrogate (b :: rest) := by
  have hchar (ch : Char) : ch.val.toNat < 0xd800 ∨ (0xdfff < ch.val.toNat ∧ ch.val.toNat < reBadByte) := ch.valid
  constructor
  · intro h hsurrogate
    obtain ⟨v, hlow, hhigh, hstands⟩ := utf8Bytes_surrogate.mpr hsurrogate
    have hread := reDecode_utf8Bytes (by unfold reBadByte; omega) hstands
    have hother := h.other fun ch hch => by
      have hread' := reDecode_utf8Bytes (by have := hchar ch; unfold reBadByte at *; omega) (utf8Bytes_char ch ▸ hch)
      have heq : v = ch.val.toNat := congrArg Prod.fst (hread.symm.trans hread')
      have := hchar ch
      omega
    have heq : v = reBadByte + b.toNat := congrArg Prod.fst (hread.symm.trans hother)
    unfold reBadByte at heq
    omega
  · intro hnone
    refine ⟨fun ch hch => ?_, fun hother => ?_, characters_bytes _⟩
    · rw [utf8Bytes_char] at hch ⊢
      exact reDecode_utf8Bytes (by have := hchar ch; unfold reBadByte at *; omega) hch
    · obtain heq | ⟨hlt, hbytes, _⟩ := reDecode_cases b rest
      · exact heq
      · have hstands : utf8Bytes (reDecode b rest).1 <+: b :: rest := hbytes ▸ List.take_prefix _ _
        unfold reBadByte at hlt
        by_cases hsurrogate : 0xd800 ≤ (reDecode b rest).1 ∧ (reDecode b rest).1 ≤ 0xdfff
        · exact absurd (utf8Bytes_surrogate.mp ⟨_, hsurrogate.1, hsurrogate.2, hstands⟩) hnone
        · have hvalid : (reDecode b rest).1.isValidChar := by
            unfold Nat.isValidChar
            omega
          refine absurd ?_ (hother (Char.ofNat (reDecode b rest).1))
          rw [utf8Bytes_char]
          have hval : (Char.ofNat (reDecode b rest).1).val.toNat = (reDecode b rest).1 := by
            rw [Char.ofNat, dif_pos hvalid]
            rfl
          rwa [hval]

/-- A surrogate is read as a character. -/
theorem surrogate_decoded : reDecode 0xed [0xa0, 0x80] = (0xd800, 3) ∧ ∀ ch : Char, ¬ String.utf8EncodeChar ch <+: [0xed, 0xa0, 0x80] := by
  have hread : reDecode 0xed [0xa0, 0x80] = (0xd800, 3) := by decide
  refine ⟨hread, fun ch hch => ?_⟩
  have hchar : ch.val.toNat < 0xd800 ∨ (0xdfff < ch.val.toNat ∧ ch.val.toNat < reBadByte) := ch.valid
  have hread' := reDecode_utf8Bytes (by unfold reBadByte at *; omega) (utf8Bytes_char ch ▸ hch)
  have heq : 0xd800 = ch.val.toNat := congrArg Prod.fst (hread.symm.trans hread')
  omega

end Ussr.Regex
