import Ussr.Uno.Reader

/-! Reading back what was written. A value that is not alone in its text is followed by a
comma or a closing bracket or brace, where its last token ends. -/

namespace Ussr.Uno
open Codec Decimal

def Delimited (rest : List UInt8) : Prop :=
  ∀ b ∈ rest.head?, b = byte ',' ∨ b = byte ']' ∨ b = byte '}'

theorem Delimited.not_of {rest : List UInt8} (h : Delimited rest) {p : UInt8 → Bool}
    (hcomma : p (byte ',') = false) (hbracket : p (byte ']') = false)
    (hbrace : p (byte '}') = false) : ∀ b ∈ rest.head?, p b = false := by
  intro b hb
  rcases h b hb with rfl | rfl | rfl
  · exact hcomma
  · exact hbracket
  · exact hbrace

section

variable {p : UInt8 → Bool} {bs rest : List UInt8}
variable {text : List UInt8} {name : CString} {b : UInt8} {value : UnoValue}

theorem takeWhile_stop (hbs : ∀ b ∈ bs, p b = true) (hrest : ∀ b ∈ rest.head?, p b = false) :
    (bs ++ rest).takeWhile p = bs ∧ (bs ++ rest).dropWhile p = rest := by
  rw [List.takeWhile_append_of_pos hbs, List.dropWhile_append_of_pos hbs]
  cases rest with
  | nil => simp
  | cons b rest =>
    have hb : p b = false := hrest b rfl
    simp [hb]

theorem takeWhile_run (hbs : ∀ b ∈ bs, p b = true) (hrest : ∀ b ∈ rest.head?, p b = false) :
    takeWhile p (bs ++ rest) = .ok (bs, rest) := by
  obtain ⟨htake, hdrop⟩ := takeWhile_stop hbs hrest
  rw [takeWhile, htake, hdrop]

theorem unoSkipWs_run (h : ∀ b ∈ bs.head?, isSpace b = false) : unoSkipWs bs = .ok ((), bs) := by
  have hdrop : ([] ++ bs).dropWhile isSpace = bs := (takeWhile_stop (by simp) h).2
  rw [List.nil_append] at hdrop
  rw [unoSkipWs, hdrop]

theorem peek_run (bs : List UInt8) : peek bs = .ok (bs.head?, bs) := rfl

theorem peek_cons (b : UInt8) (bs : List UInt8) : peek (b :: bs) = .ok (some b, b :: bs) := rfl

theorem advance_run (b : UInt8) (bs : List UInt8) : advance (b :: bs) = .ok ((), bs) := rfl

end

theorem CString.ofBytes_self (s : CString) : CString.ofBytes s.bytes = s :=
  CString.ext_bytes (ofBytes_bytes s.noNul)

theorem isIdentifier_cases (h : isIdentifier name = true) :
    ∃ b bs, name.bytes = b :: bs ∧ isIdentStart b = true ∧ ∀ c ∈ name.bytes, isIdentPart c = true := by
  unfold isIdentifier at h
  cases hbytes : name.bytes with
  | nil => simp [hbytes] at h
  | cons b bs =>
    rw [hbytes] at h
    dsimp only at h
    rw [Bool.and_eq_true, List.all_eq_true] at h
    exact ⟨b, bs, rfl, h.1, List.forall_mem_cons.mpr ⟨isIdentPart_of_start h.1, h.2⟩⟩

theorem unoReadIdentifier_run (h : isIdentifier name = true) {rest : List UInt8}
    (hrest : ∀ b ∈ rest.head?, isIdentPart b = false) :
    unoReadIdentifier (name.bytes ++ rest) = .ok (name, rest) := by
  obtain ⟨b, bs, hbytes, hstart, hpart⟩ := isIdentifier_cases h
  have hpeek : peek (name.bytes ++ rest) = .ok (some b, name.bytes ++ rest) := by
    rw [peek_run, hbytes]
    rfl
  rw [unoReadIdentifier, run_bind_ok hpeek, if_pos (by simpa using hstart),
    run_bind_ok (takeWhile_run hpart hrest), CString.ofBytes_self]
  rfl

theorem strtoll_decimal (n : BitVec 64) :
    strtoll (decide (n.toInt < 0)) (decimal n.toInt.natAbs) = n := by
  have hlow := n.le_two_mul_toInt
  have hhigh := n.two_mul_toInt_lt
  unfold strtoll
  rw [ofDecimal_decimal]
  by_cases hneg : n.toInt < 0
  · have hmin : min n.toInt.natAbs (2 ^ 63) = n.toInt.natAbs := by omega
    have habs : -(n.toInt.natAbs : Int) = n.toInt := by omega
    rw [if_pos (by simpa using hneg), hmin, habs, BitVec.ofInt_toInt]
  · have hmin : min n.toInt.natAbs (2 ^ 63 - 1) = n.toInt.natAbs := by omega
    have habs : (n.toInt.natAbs : Int) = n.toInt := by omega
    rw [if_neg (by simpa using hneg), hmin, habs, BitVec.ofInt_toInt]

theorem unoReadDecimals_none {rest : List UInt8} (h : Delimited rest) :
    unoReadDecimals rest = .ok (none, rest) := by
  unfold unoReadDecimals
  split
  · rename_i point digit rest
    have hpoint : ¬ (point = byte '.' ∧ isDigit digit = true) := by
      rintro ⟨rfl, -⟩
      exact absurd (h (byte '.') rfl) (by decide)
    rw [if_neg hpoint]
  · rfl

theorem unoReadDigits_run (negative : Bool) (m : Nat) {rest : List UInt8} (h : Delimited rest) :
    unoReadDigits negative (decimal m ++ rest) =
      .ok (.integer (strtoll negative (decimal m)), rest) := by
  have hdigits := takeWhile_run (decimal_digits m) (h.not_of (p := isDigit) rfl rfl rfl)
  rw [unoReadDigits, run_bind_ok hdigits, if_neg (decimal_ne_nil m),
    run_bind_ok (unoReadDecimals_none h)]
  rfl

theorem decimal_head (m : Nat) : ∃ b bs, decimal m = b :: bs ∧ isDigit b = true := by
  cases hdecimal : decimal m with
  | nil => exact absurd hdecimal (decimal_ne_nil m)
  | cons b bs => exact ⟨b, bs, rfl, decimal_digits m b (by simp [hdecimal])⟩

theorem formatInt_run (n : BitVec 64) {rest : List UInt8} (h : Delimited rest) :
    unoReadNumber (formatInt n ++ rest) = .ok (.integer n, rest) := by
  unfold unoReadNumber formatInt
  by_cases hneg : n.toInt < 0
  · have hvalue := strtoll_decimal n
    rw [decide_eq_true hneg] at hvalue
    rw [if_pos hneg, List.cons_append, run_bind_ok (peek_cons _ _), if_pos rfl,
      run_bind_ok (advance_run _ _), unoReadDigits_run _ _ h, hvalue]
  · have hvalue := strtoll_decimal n
    rw [decide_eq_false hneg] at hvalue
    obtain ⟨b, bs, hdecimal, hdigit⟩ := decimal_head n.toInt.natAbs
    have hpeek : (decimal n.toInt.natAbs ++ rest).head? ≠ some (byte '-') := by
      rw [hdecimal]
      rintro hminus
      cases hminus
      exact absurd hdigit (by decide)
    rw [if_neg hneg, run_bind_ok (peek_run _), if_neg hpeek, unoReadDigits_run _ _ h, hvalue]

theorem unoReadString_run {s : CString} (h : unoStringOk s = true) (rest : List UInt8) :
    unoReadString (byte '`' :: (s.bytes ++ [byte '`']) ++ rest) = .ok (.string s, rest) := by
  unfold unoStringOk at h
  rw [Bool.and_eq_true, decide_eq_true_eq, decide_eq_true_eq] at h
  have hinside : ∀ b ∈ s.bytes, decide (b ≠ byte '`' ∧ b ≠ byte '\n') = true := by
    intro b hb
    refine decide_eq_true ⟨?_, ?_⟩
    · exact fun heq => h.1 (heq ▸ hb)
    · exact fun heq => h.2 (heq ▸ hb)
  have hstop : ∀ b ∈ (byte '`' :: rest).head?, decide (b ≠ byte '`' ∧ b ≠ byte '\n') = false := by
    simp
  have hscan := takeWhile_run hinside hstop
  have hshape : byte '`' :: (s.bytes ++ [byte '`']) ++ rest = byte '`' :: (s.bytes ++ byte '`' :: rest) := by
    simp
  rw [hshape, unoReadString, run_bind_ok (advance_run _ _), run_bind_ok hscan,
    run_bind_ok (peek_cons _ _), if_pos rfl, run_bind_ok (advance_run _ _), CString.ofBytes_self]
  rfl

mutual

def Built (registry : Registry) : UnoValue → Prop
  | .vector items => BuiltAll registry items
  | .struct type fields => ussrStructTypeFind registry type.name = some type ∧
      List.Forall₂ (fun field value => unoTypeMatches field.typeName value = true)
        (unoCollectFieldDefs type.chain) fields ∧ BuiltAll registry fields
  | .real _ => False
  | .btree _ => False
  | _ => True

def BuiltAll (registry : Registry) : List UnoValue → Prop
  | [] => True
  | value :: values => Built registry value ∧ BuiltAll registry values

end

def HeadOk (text : List UInt8) : Prop :=
  ∃ b bs, text = b :: bs ∧ isSpace b = false ∧ b ≠ byte ']'

theorem isIdentStart_range (h : isIdentStart b = true) :
    (65 ≤ b.toNat ∧ b.toNat ≤ 90) ∨ b.toNat = 95 ∨ (97 ≤ b.toNat ∧ b.toNat ≤ 122) := by
  unfold isIdentStart isAlpha at h
  simp only [Bool.or_eq_true, Bool.and_eq_true, decide_eq_true_eq] at h
  rcases h with (h | h) | rfl
  · exact Or.inl h
  · exact Or.inr (Or.inr h)
  · exact Or.inr (Or.inl rfl)

theorem ne_of_toNat {c : UInt8} (h : b.toNat ≠ c.toNat) : b ≠ c := by
  rintro rfl
  exact h rfl

theorem isSpace_false (h : 32 < b.toNat) : isSpace b = false := by
  have hne : b ≠ 32 := ne_of_toNat (show b.toNat ≠ 32 by omega)
  have hgt : ¬ b.toNat ≤ 13 := by omega
  simp [isSpace, hne, hgt]

theorem headOk_cons (bs : List UInt8) (h : 32 < b.toNat) (hne : b.toNat ≠ 93) :
    HeadOk (b :: bs) :=
  ⟨b, bs, rfl, isSpace_false h, ne_of_toNat hne⟩

theorem isDigit_range (h : isDigit b = true) : 48 ≤ b.toNat ∧ b.toNat ≤ 57 := by
  simpa [isDigit] using h

theorem identifier_headOk (h : isIdentifier name = true) (rest : List UInt8) :
    HeadOk (name.bytes ++ rest) := by
  obtain ⟨b, bs, hbytes, hstart, -⟩ := isIdentifier_cases h
  have hrange := isIdentStart_range hstart
  rw [hbytes, List.cons_append]
  exact headOk_cons _ (by omega) (by omega)

theorem encode_headOk {registry : Registry} (hbuilt : Built registry value)
    (hreadable : Readable value) (h : unoEncodeValue value = some text) :
    HeadOk text := by
  cases value with
  | null =>
    cases h
    exact headOk_cons _ (by decide) (by decide)
  | boolean b =>
    cases h
    cases b <;> exact headOk_cons _ (by decide) (by decide)
  | integer n =>
    cases h
    unfold formatInt
    split_ifs
    · exact headOk_cons _ (by decide) (by decide)
    · obtain ⟨b, bs, hdecimal, hdigit⟩ := decimal_head n.toInt.natAbs
      have hrange := isDigit_range hdigit
      rw [hdecimal]
      exact headOk_cons _ (by omega) (by omega)
  | real bits => exact hbuilt.elim
  | string s =>
    rw [unoEncodeValue] at h
    split_ifs at h
    cases h
    exact headOk_cons _ (by decide) (by decide)
  | vector items =>
    obtain ⟨inner, -, hinner⟩ := Option.bind_eq_some_iff.mp h
    cases hinner
    exact headOk_cons _ (by decide) (by decide)
  | struct type fields =>
    obtain ⟨inner, -, hinner⟩ := Option.bind_eq_some_iff.mp h
    cases hinner
    exact identifier_headOk hreadable.1.name _
  | btree pairs => exact hbuilt.elim

section

variable {registry : Registry}

theorem HeadOk.append (h : HeadOk text) (rest : List UInt8) :
    HeadOk (text ++ rest) := by
  obtain ⟨b, bs, rfl, hspace, hne⟩ := h
  exact ⟨b, bs ++ rest, rfl, hspace, hne⟩

theorem HeadOk.peek_ne (h : HeadOk text) (rest : List UInt8) :
    (text ++ rest).head? ≠ some (byte ']') := by
  obtain ⟨b, bs, rfl, -, hne⟩ := h
  simpa using hne

theorem identifier_peek_ne (h : isIdentifier name = true) (rest : List UInt8) :
    (name.bytes ++ rest).head? ≠ some (byte '}') := by
  obtain ⟨b, bs, hbytes, hstart, -⟩ := isIdentifier_cases h
  have hrange := isIdentStart_range hstart
  have hne : b ≠ byte '}' := ne_of_toNat (show b.toNat ≠ 125 by omega)
  rw [hbytes]
  simpa using hne

theorem HeadOk.skipWs (h : HeadOk text) (rest : List UInt8) :
    unoSkipWs (text ++ rest) = .ok ((), text ++ rest) := by
  obtain ⟨b, bs, rfl, hspace, -⟩ := h
  exact unoSkipWs_run (by simpa using hspace)

theorem unoSkipWs_identifier (h : isIdentifier name = true) (rest : List UInt8) :
    unoSkipWs (name.bytes ++ rest) = .ok ((), name.bytes ++ rest) := by
  have hskip := (identifier_headOk h rest).skipWs []
  rwa [List.append_nil] at hskip

theorem Delimited.skipWs {rest : List UInt8} (h : Delimited rest) :
    unoSkipWs rest = .ok ((), rest) :=
  unoSkipWs_run (h.not_of rfl rfl rfl)

theorem unoReadValue_cons (fuel : Nat) (h : isSpace b = false) (bs : List UInt8) :
    unoReadValue registry (fuel + 1) (b :: bs) =
      (if b = byte '[' then unoReadVector (unoReadItems registry fuel)
        else if b = byte '`' then unoReadString
        else if b = byte '-' ∨ isDigit b then unoReadNumber
        else if isIdentStart b then unoReadWord registry (unoReadFields registry fuel 0)
        else fail "unexpected character in UNO text") (b :: bs) := by
  rw [unoReadValue, run_bind_ok (unoSkipWs_run (by simpa using h)), run_bind_ok (peek_cons b bs)]

theorem unoReadValue_identifier (fuel : Nat) (h : isIdentifier name = true)
    (rest : List UInt8) : unoReadValue registry (fuel + 1) (name.bytes ++ rest) =
      unoReadWord registry (unoReadFields registry fuel 0) (name.bytes ++ rest) := by
  obtain ⟨b, bs, hbytes, hstart, -⟩ := isIdentifier_cases h
  have hrange := isIdentStart_range hstart
  have hdigit : ¬ (b = byte '-' ∨ isDigit b = true) := by
    rintro (rfl | hdigit)
    · exact absurd hstart (by decide)
    · have := isDigit_range hdigit
      omega
  have hvector : b ≠ byte '[' := ne_of_toNat (show b.toNat ≠ 91 by omega)
  have hstring : b ≠ byte '`' := ne_of_toNat (show b.toNat ≠ 96 by omega)
  rw [hbytes, List.cons_append, unoReadValue_cons fuel (isSpace_false (by omega)),
    if_neg hvector, if_neg hstring, if_neg hdigit, if_pos hstart]

theorem unoReadWord_reserved {fields : Reader (List (CString × UnoValue))} (hname : isIdentifier name = true) (h : reserved name = some value)
    {rest : List UInt8} (hrest : Delimited rest) :
    unoReadWord registry fields (name.bytes ++ rest) = .ok (value, rest) := by
  rw [unoReadWord, run_bind_ok (unoReadIdentifier_run hname (hrest.not_of rfl rfl rfl)), h]
  rfl

theorem unoReadWord_object {fields : Reader (List (CString × UnoValue))}
    (hname : isIdentifier name = true) (h : reserved name = none) (bs : List UInt8) :
    unoReadWord registry fields (name.bytes ++ byte '{' :: bs) =
      unoReadObject registry name fields (byte '{' :: bs) := by
  have hskip : unoSkipWs (byte '{' :: bs) = .ok ((), byte '{' :: bs) := unoSkipWs_run (by simp; decide)
  rw [unoReadWord, run_bind_ok (unoReadIdentifier_run hname (by simp; decide)), h]
  dsimp only
  rw [run_bind_ok hskip, run_bind_ok (peek_cons _ _), if_pos rfl]

theorem unoCloseObject_run {type : StructType} {values : List UnoValue}
    (hfind : ussrStructTypeFind registry type.name = some type) (hreadable : type.Readable)
    (hmatches : List.Forall₂ (fun field value => unoTypeMatches field.typeName value = true)
      (unoCollectFieldDefs type.chain) values) (rest : List UInt8) :
    unoCloseObject registry type.name
        (((unoCollectFieldDefs type.chain).map FieldDef.name).zip values) (byte '}' :: rest) =
      .ok (.struct type values, rest) := by
  have hslots := satisfyFields_zip hreadable.distinct (List.nil_append _).symm
    (List.length_nil (α := UnoValue)) hmatches
  have hmade : ussrStructInstantiateNamed registry type.name
      (((unoCollectFieldDefs type.chain).map FieldDef.name).zip values) =
        .ok (.struct type values) := by
    rw [List.map_nil, List.nil_append, ← totalFieldCount_eq] at hslots
    have hvalues : (List.map some ([] ++ values)).mapM id = some values :=
      mapM_id_eq_some.mpr rfl
    rw [ussrStructInstantiateNamed, hfind]
    dsimp only
    rw [hslots]
    dsimp only [bind, Except.bind]
    rw [hvalues]
    rfl
  rw [unoCloseObject, run_bind_ok (advance_run _ _), hmade]
  rfl

end

theorem encodeItems_false {items : List UnoValue}
    (h : unoEncodeItems false items = some text) :
    (items = [] ∧ text = []) ∨ ∃ rest, text = byte ',' :: rest ∧
      unoEncodeItems true items = some rest := by
  cases items with
  | nil =>
    cases h
    exact Or.inl ⟨rfl, rfl⟩
  | cons item items =>
    rw [unoEncodeItems] at h
    obtain ⟨first, hfirst, hrest⟩ := Option.bind_eq_some_iff.mp h
    obtain ⟨later, hlater, htext⟩ := Option.bind_eq_some_iff.mp hrest
    cases htext
    refine Or.inr ⟨first ++ later, rfl, ?_⟩
    rw [unoEncodeItems, hfirst, Option.bind_eq_bind, Option.bind_some, hlater]
    rfl

theorem encodeFields_false {defs : List FieldDef} {values : List UnoValue}
    (h : unoEncodeFields false defs values = some text) :
    (defs = [] ∧ values = [] ∧ text = []) ∨ ∃ rest, text = byte ',' :: rest ∧
      unoEncodeFields true defs values = some rest := by
  match defs, values, h with
  | [], [], h =>
    cases h
    exact Or.inl ⟨rfl, rfl, rfl⟩
  | field :: defs, value :: values, h =>
    rw [unoEncodeFields] at h
    obtain ⟨first, hfirst, hrest⟩ := Option.bind_eq_some_iff.mp h
    obtain ⟨later, hlater, htext⟩ := Option.bind_eq_some_iff.mp hrest
    cases htext
    refine Or.inr ⟨field.name.bytes ++ byte '=' :: (first ++ later), rfl, ?_⟩
    rw [unoEncodeFields, hfirst, Option.bind_eq_bind, Option.bind_some, hlater]
    rfl

theorem formatInt_head (n : BitVec 64) :
    ∃ b bs, formatInt n = b :: bs ∧ (b = byte '-' ∨ isDigit b = true) := by
  unfold formatInt
  split_ifs
  · exact ⟨_, _, rfl, Or.inl rfl⟩
  · obtain ⟨b, bs, hdecimal, hdigit⟩ := decimal_head n.toInt.natAbs
    exact ⟨b, bs, hdecimal, Or.inr hdigit⟩

theorem unoReadValue_number {registry : Registry} (fuel : Nat) {rest : List UInt8} (h : ∃ b bs, text = b :: bs ∧ (b = byte '-' ∨ isDigit b = true))
    (hnumber : unoReadNumber (text ++ rest) = .ok (value, rest)) :
    unoReadValue registry (fuel + 1) (text ++ rest) = .ok (value, rest) := by
  obtain ⟨b, bs, rfl, hb⟩ := h
  have hrange : b.toNat = 45 ∨ (48 ≤ b.toNat ∧ b.toNat ≤ 57) := by
    rcases hb with rfl | hdigit
    · exact Or.inl rfl
    · exact Or.inr (isDigit_range hdigit)
  have hvector : b ≠ byte '[' := ne_of_toNat (show b.toNat ≠ 91 by omega)
  have hstring : b ≠ byte '`' := ne_of_toNat (show b.toNat ≠ 96 by omega)
  rw [List.cons_append, unoReadValue_cons fuel (isSpace_false (by omega)), if_neg hvector,
    if_neg hstring, if_pos hb, ← List.cons_append]
  exact hnumber

theorem encodeItems_headOk {registry : Registry} {items : List UnoValue}
    (hbuilt : BuiltAll registry items) (hreadable : ReadableAll items) (hne : items ≠ []) (h : unoEncodeItems true items = some text) : HeadOk text := by
  match items, hbuilt, hreadable, h with
  | [], _, _, _ => exact absurd rfl hne
  | item :: items, ⟨hitem, _⟩, ⟨hitemRead, _⟩, h =>
    rw [unoEncodeItems] at h
    obtain ⟨first, hfirst, hlater⟩ := Option.bind_eq_some_iff.mp h
    obtain ⟨later, -, htext⟩ := Option.bind_eq_some_iff.mp hlater
    cases htext
    exact (encode_headOk hitem hitemRead hfirst).append later

theorem encodeFields_head {defs : List FieldDef} {values : List UnoValue} (hne : defs ≠ []) (h : unoEncodeFields true defs values = some text) :
    ∃ field ∈ defs, ∃ rest, text = field.name.bytes ++ rest := by
  match defs, values, h with
  | [], _, _ => exact absurd rfl hne
  | field :: defs, value :: values, h =>
    rw [unoEncodeFields] at h
    obtain ⟨first, -, hlater⟩ := Option.bind_eq_some_iff.mp h
    obtain ⟨later, -, htext⟩ := Option.bind_eq_some_iff.mp hlater
    cases htext
    exact ⟨field, List.mem_cons_self, _, rfl⟩

mutual

theorem readValue_encode (registry : Registry) (value : UnoValue) (hbuilt : Built registry value)
    (hreadable : Readable value) {rest : List UInt8} (h : unoEncodeValue value = some text)
    (hrest : Delimited rest) {fuel : Nat} (hfuel : 2 * text.length < fuel) :
    unoReadValue registry fuel (text ++ rest) = .ok (value, rest) := by
  obtain ⟨fuel, rfl⟩ := Nat.exists_eq_add_one_of_ne_zero (by omega : fuel ≠ 0)
  match value, hbuilt, hreadable, h with
  | .null, _, _, h =>
    cases h
    rw [unoReadValue_identifier fuel rfl]
    exact unoReadWord_reserved rfl rfl hrest
  | .boolean b, _, _, h =>
    cases h
    cases b
    · rw [unoReadValue_identifier fuel rfl]
      exact unoReadWord_reserved rfl rfl hrest
    · rw [unoReadValue_identifier fuel rfl]
      exact unoReadWord_reserved rfl rfl hrest
  | .integer n, _, _, h =>
    cases h
    exact unoReadValue_number fuel (formatInt_head n) (formatInt_run n hrest)
  | .string s, _, _, h =>
    rw [unoEncodeValue] at h
    split_ifs at h with hok
    cases h
    rw [List.cons_append, unoReadValue_cons fuel rfl, if_neg (by decide), if_pos rfl,
      ← List.cons_append]
    exact unoReadString_run hok rest
  | .vector items, hbuilt, hreadable, h =>
    obtain ⟨inner, hinner, htext⟩ := Option.bind_eq_some_iff.mp h
    cases htext
    simp only [List.length_cons, List.length_append, List.length_nil] at hfuel
    rw [List.cons_append, List.append_assoc, unoReadValue_cons fuel rfl, if_pos rfl, unoReadVector,
      run_bind_ok (advance_run _ _)]
    by_cases hne : items = []
    · subst hne
      cases hinner
      rfl
    · have hinside : 2 * inner.length + 1 < fuel := by omega
      have hitems := readItems_encode registry items hbuilt hreadable hne hinner rest hinside
      have hhead := encodeItems_headOk hbuilt hreadable hne hinner
      rw [run_bind_ok (hhead.skipWs _), run_bind_ok (peek_run _),
        if_neg (hhead.peek_ne _), List.singleton_append, run_bind_ok hitems]
      rfl
  | .struct type fields, ⟨hfind, hmatches, hbuilt⟩, ⟨htype, hreadable⟩, h =>
    obtain ⟨inner, hinner, htext⟩ := Option.bind_eq_some_iff.mp h
    cases htext
    simp only [List.length_append, List.length_cons, List.length_nil] at hfuel
    rw [List.append_assoc, unoReadValue_identifier fuel htype.name, List.cons_append,
      unoReadWord_object htype.name htype.notReserved, unoReadObject, run_bind_ok (advance_run _ _),
      List.append_assoc]
    have hclose := unoCloseObject_run hfind htype hmatches rest
    by_cases hne : unoCollectFieldDefs type.chain = []
    · rw [hne] at hinner hclose hmatches
      cases hmatches
      cases hinner
      exact hclose
    · have hinside : 2 * inner.length + 1 < fuel := by omega
      have hcount : 0 + (unoCollectFieldDefs type.chain).length ≤ unoMaxFields := by
        rw [Nat.zero_add]
        exact htype.count
      have hfields := readFields_encode registry _ fields hbuilt hreadable hne htype.fieldNames
        hinner hcount rest hinside
      obtain ⟨field, hfield, tail, rfl⟩ := encodeFields_head hne hinner
      have hname := htype.fieldNames field hfield
      have hpeek := identifier_peek_ne hname (tail ++ ([byte '}'] ++ rest))
      rw [← List.append_assoc] at hpeek
      rw [run_bind_ok ((identifier_headOk hname tail).skipWs _), run_bind_ok (peek_run _),
        if_neg hpeek, List.singleton_append, run_bind_ok hfields]
      exact hclose

theorem readItems_encode (registry : Registry) (items : List UnoValue)
    (hbuilt : BuiltAll registry items) (hreadable : ReadableAll items) (hne : items ≠ []) (h : unoEncodeItems true items = some text) (rest : List UInt8)
    {fuel : Nat} (hfuel : 2 * text.length + 1 < fuel) :
    unoReadItems registry fuel (text ++ byte ']' :: rest) = .ok (items, rest) := by
  obtain ⟨fuel, rfl⟩ := Nat.exists_eq_add_one_of_ne_zero (by omega : fuel ≠ 0)
  match items, hbuilt, hreadable, h with
  | [], _, _, _ => exact absurd rfl hne
  | item :: items, ⟨hitem, hitems⟩, ⟨hitemRead, hitemsRead⟩, h =>
    rw [unoEncodeItems] at h
    obtain ⟨first, hfirst, hjoin⟩ := Option.bind_eq_some_iff.mp h
    obtain ⟨later, hlater, htext⟩ := Option.bind_eq_some_iff.mp hjoin
    cases htext
    simp only [comma, if_true, List.nil_append, List.length_append] at hfuel
    have hhead := encode_headOk hitem hitemRead hfirst
    have hread : ∀ {bs : List UInt8}, Delimited bs →
        unoReadValue registry fuel (first ++ bs) = .ok (item, bs) := fun hbs =>
      readValue_encode registry item hitem hitemRead hfirst hbs (by omega)
    simp only [comma, if_true, List.nil_append, List.append_assoc]
    rw [unoReadItems, run_bind_ok (hhead.skipWs _)]
    rcases encodeItems_false hlater with ⟨rfl, rfl⟩ | ⟨tail, rfl, htail⟩
    · have hend : Delimited (byte ']' :: rest) := fun b hb => by cases hb; exact Or.inr (Or.inl rfl)
      rw [List.nil_append, run_bind_ok (hread hend), run_bind_ok hend.skipWs,
        run_bind_ok (peek_cons _ _), if_neg (by decide), run_bind_ok (peek_cons _ _), if_pos rfl,
        run_bind_ok (advance_run _ _)]
      rfl
    · have hcomma : ∀ bs, Delimited (byte ',' :: bs) := fun bs b hb => by cases hb; exact Or.inl rfl
      simp only [List.length_cons] at hfuel
      have hnonempty : items ≠ [] := by
        rintro rfl
        cases hlater
      have hinside : 2 * tail.length + 1 < fuel := by omega
      have hrest := readItems_encode registry items hitems hitemsRead hnonempty htail rest hinside
      rw [List.cons_append, run_bind_ok (hread (hcomma _)), run_bind_ok (hcomma _).skipWs,
        run_bind_ok (peek_cons _ _), if_pos rfl, run_bind_ok (advance_run _ _), run_bind_ok hrest]
      rfl

theorem readFields_encode (registry : Registry) (defs : List FieldDef) (values : List UnoValue)
    (hbuilt : BuiltAll registry values) (hreadable : ReadableAll values) (hne : defs ≠ [])
    (hnames : ∀ field ∈ defs, isIdentifier field.name = true)
    (h : unoEncodeFields true defs values = some text) {count : Nat}
    (hcount : count + defs.length ≤ unoMaxFields) (rest : List UInt8) {fuel : Nat}
    (hfuel : 2 * text.length + 1 < fuel) :
    unoReadFields registry fuel count (text ++ byte '}' :: rest) =
      .ok ((defs.map FieldDef.name).zip values, byte '}' :: rest) := by
  obtain ⟨fuel, rfl⟩ := Nat.exists_eq_add_one_of_ne_zero (by omega : fuel ≠ 0)
  match defs, values, hbuilt, hreadable, h with
  | [], _, _, _, _ => exact absurd rfl hne
  | field :: defs, value :: values, ⟨hvalue, hvalues⟩, ⟨hvalueRead, hvaluesRead⟩, h =>
    rw [unoEncodeFields] at h
    obtain ⟨first, hfirst, hjoin⟩ := Option.bind_eq_some_iff.mp h
    obtain ⟨later, hlater, htext⟩ := Option.bind_eq_some_iff.mp hjoin
    cases htext
    simp only [comma, if_true, List.nil_append, List.length_append, List.length_cons] at hfuel
    rw [List.length_cons] at hcount
    have hname := hnames field List.mem_cons_self
    have hhead := encode_headOk hvalue hvalueRead hfirst
    have hread : ∀ {bs : List UInt8}, Delimited bs →
        unoReadValue registry fuel (first ++ bs) = .ok (value, bs) := fun hbs =>
      readValue_encode registry value hvalue hvalueRead hfirst hbs (by omega)
    have hequals : ∀ bs, unoSkipWs (byte '=' :: bs) = .ok ((), byte '=' :: bs) := fun bs =>
      unoSkipWs_run (by simp; decide)
    simp only [comma, if_true, List.nil_append, List.append_assoc, List.cons_append]
    rw [unoReadFields, if_neg (by omega), run_bind_ok (unoSkipWs_identifier hname _),
      run_bind_ok (unoReadIdentifier_run hname (by simp; decide)), run_bind_ok (hequals _),
      run_bind_ok (peek_cons _ _), if_pos rfl, run_bind_ok (advance_run _ _),
      run_bind_ok (hhead.skipWs _)]
    rcases encodeFields_false hlater with ⟨rfl, rfl, rfl⟩ | ⟨tail, rfl, htail⟩
    · have hend : Delimited (byte '}' :: rest) := fun b hb => by cases hb; exact Or.inr (Or.inr rfl)
      rw [List.nil_append, run_bind_ok (hread hend), run_bind_ok hend.skipWs,
        run_bind_ok (peek_cons _ _), if_neg (by decide), run_bind_ok (peek_cons _ _), if_pos rfl]
      rfl
    · have hcomma : ∀ bs, Delimited (byte ',' :: bs) := fun bs b hb => by cases hb; exact Or.inl rfl
      simp only [List.length_cons] at hfuel
      have hnonempty : defs ≠ [] := by
        rintro rfl
        cases values <;> cases hlater
      have hinside : 2 * tail.length + 1 < fuel := by omega
      have hroom : count + 1 + defs.length ≤ unoMaxFields := by omega
      have hrest := readFields_encode registry defs values hvalues hvaluesRead hnonempty
        (fun other hother => hnames other (List.mem_cons_of_mem field hother)) htail hroom rest
        hinside
      rw [List.cons_append, run_bind_ok (hread (hcomma _)), run_bind_ok (hcomma _).skipWs,
        run_bind_ok (peek_cons _ _), if_pos rfl, run_bind_ok (advance_run _ _), run_bind_ok hrest]
      rfl

end

inductive Registered : Registry → Prop
  | empty : Registered []
  | register {registry registry' : Registry} {name : CString} {parentName : Option CString}
      {specs : List CString} (h : Registered registry)
      (hregister : ussrStructRegister registry name parentName specs = .ok registry') :
      Registered registry'

/-- The text of a value is read back as the value exactly where every struct in it has a type
that can be read. -/
theorem ussrUnoDecode_encode_iff {registry : Registry} {value : UnoValue}
    (hbuilt : Built registry value) {text : List UInt8} (h : ussrUnoEncode value = some text) :
    ussrUnoDecode registry text = .ok value ↔ Readable value := by
  constructor
  · intro hdecode
    obtain ⟨⟨found, rest⟩, hread, hend⟩ := except_bind_ok hdecode
    dsimp only at hend
    split_ifs at hend
    cases hend
    exact (unoReadValue_yields registry _).1 _ _ _ hread
  · intro hreadable
    have hend : Delimited [] := fun b hb => by cases hb
    have hread := readValue_encode registry value hbuilt hreadable h hend (Nat.lt_succ_self _)
    rw [List.append_nil] at hread
    rw [ussrUnoDecode, hread]
    rfl

def pointType : StructType :=
  ⟨⟨CString.lit "Point", [⟨CString.lit "x", CString.lit "number"⟩,
    ⟨CString.lit "tags", CString.lit "vector"⟩]⟩, []⟩

def pointVector : UnoValue :=
  .vector [.struct pointType [.integer (-3), .vector [.string (CString.lit "a b"), .null]],
    .boolean true]

theorem ussrUnoDecode_encode_points : ussrUnoDecode [pointType]
    (Real64.ascii "[Point\x7bx=-3,tags=[`a b`,null]\x7d,true]") = .ok pointVector := by
  have hfind : ussrStructTypeFind [pointType] pointType.name = some pointType := by decide +kernel
  have hbuilt : Built [pointType] pointVector :=
    ⟨⟨hfind, .cons (by decide) (.cons (by decide) .nil),
      ⟨trivial, ⟨trivial, trivial, trivial⟩, trivial⟩⟩, trivial, trivial⟩
  have hreadable : Readable pointVector :=
    ⟨⟨⟨by decide, by decide, by decide, by decide, by decide⟩,
      ⟨trivial, ⟨trivial, trivial, trivial⟩, trivial⟩⟩, trivial, trivial⟩
  exact (ussrUnoDecode_encode_iff hbuilt (by decide +kernel)).mpr hreadable

def repeatedType : StructType :=
  ⟨⟨CString.lit "B", [⟨CString.lit "x", CString.lit "any"⟩, ⟨CString.lit "x", CString.lit "any"⟩]⟩, []⟩

theorem repeatedType_registered : Registered [repeatedType] := by
  have hregister : ussrStructRegister [] (CString.lit "B") none [CString.lit "x:any", CString.lit "x:any"] =
      .ok [repeatedType] := by decide +kernel
  exact .register .empty hregister

/-- Both values go into the first of the two fields. -/
theorem ussrUnoDecode_encode_fails : ¬ ∀ (registry : Registry) (value : UnoValue)
    (text : List UInt8), Registered registry → Built registry value →
      ussrUnoEncode value = some text → ussrUnoDecode registry text = .ok value := by
  intro hclaim
  have hbuilt : Built [repeatedType] (.struct repeatedType [.null, .null]) :=
    ⟨by decide +kernel, .cons (by decide) (.cons (by decide) .nil), ⟨trivial, trivial, trivial⟩⟩
  have hdecode := hclaim [repeatedType] (.struct repeatedType [.null, .null])
    (Real64.ascii "B\x7bx=null,x=null\x7d") repeatedType_registered hbuilt (by decide +kernel)
  have hrefused :
      (ussrUnoDecode [repeatedType] (Real64.ascii "B\x7bx=null,x=null\x7d")).isOk = false := by
    decide +kernel
  rw [hdecode] at hrefused
  cases hrefused

end Ussr.Uno
