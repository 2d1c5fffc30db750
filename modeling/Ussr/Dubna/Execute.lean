import Ussr.Dubna.Framing
import Ussr.NumberText
import Ussr.Uno.Text

/-! The messages that carry a statement and its parameters to the server, and what the server
makes of them. -/

namespace Ussr.Dubna
open Decimal (ofDecimal)
open Real64 (ascii)
open Stalin (Text)
open Uno (UnoValue)

def dubnaPutInt16 (n : Int) : List UInt8 :=
  let n := (if n < 0 then n + 65536 else n).toNat
  [UInt8.ofNat (n >>> 8 &&& 255), UInt8.ofNat (n &&& 255)]

/-- `dubna_param_text`; `none` stands for a value that the notation cannot express, the inner
`none` for `null`. -/
def dubnaParamText : UnoValue → Option (Option Text)
  | .null => some none
  | .integer n => some (some (strFromInt n))
  | .real x => some (some (strFromNumber (.real x) 15))
  | .boolean b => some (some (ascii (if b then "true" else "false")))
  | .string s => some (some s.bytes)
  | v => (Uno.ussrUnoEncode v).map some

def putParam : Option Text → List UInt8
  | none => dubnaPutInt32 (-1)
  | some text => dubnaPutInt32 text.length ++ text

/-- The loop of `dubna_exec_messages`. -/
def putParams : List UnoValue → Option (List UInt8)
  | [] => some []
  | p :: params => do
    let text ← dubnaParamText p
    let rest ← putParams params
    return putParam text ++ rest

def dubnaExecMessages (sql : CString) (params : List UnoValue) : Option (List UInt8) := do
  let parse := dubnaPutCstr [] ++ dubnaPutCstr sql.bytes ++ dubnaPutInt16 0
  let values ← putParams params
  let bind := dubnaPutCstr [] ++ dubnaPutCstr [] ++ dubnaPutInt16 0 ++ dubnaPutInt16 params.length ++ values ++
    dubnaPutInt16 0
  return dubnaMessage (ascii "P") parse ++ dubnaMessage (ascii "B") bind ++ dubnaMessage (ascii "D") [80, 0] ++
    dubnaMessage (ascii "E") (dubnaPutCstr [] ++ dubnaPutInt32 0) ++ dubnaMessage (ascii "S") []

abbrev Get (α : Type) := List UInt8 → Option (α × List UInt8)

def Get.bind {α β : Type} (get : Get α) (f : α → Get β) : Get β := fun bytes =>
  (get bytes).bind fun (a, rest) => f a rest

def int32 : Get Int
  | a :: b :: c :: d :: rest =>
    let n := a.toNat * 16777216 + b.toNat * 65536 + c.toNat * 256 + d.toNat
    some (if n < 2147483648 then (n : Int) else n - 4294967296, rest)
  | _ => none

def int16 : Get Nat
  | a :: b :: rest => some (a.toNat * 256 + b.toNat, rest)
  | _ => none

def cstr : Get Text
  | [] => none
  | b :: rest => if b = 0 then some ([], rest) else (cstr rest).map fun (s, rest) => (b :: s, rest)

def many {α : Type} (get : Get α) : Nat → Get (List α)
  | 0 => fun bytes => some ([], bytes)
  | n + 1 => get.bind fun a => (many get n).bind fun as bytes => some (a :: as, bytes)

def paramValue : Get (Option Text) := int32.bind fun n bytes =>
  if n = -1 then some (none, bytes)
  else if n < 0 ∨ (bytes.length : Int) < n then none
  else some (some (bytes.take n.toNat), bytes.drop n.toNat)

inductive Frontend where
  | parse (name sql : Text) (types : List Int)
  | bind (portal statement : Text) (formats : List Nat) (values : List (Option Text)) (results : List Nat)
  | describe (kind : UInt8) (name : Text)
  | execute (portal : Text) (rows : Int)
  | sync
deriving DecidableEq

def body (type : UInt8) : Get Frontend :=
  if type = 80 then
    cstr.bind fun name => cstr.bind fun sql => int16.bind fun n => (many int32 n).bind fun types bytes =>
      some (.parse name sql types, bytes)
  else if type = 66 then
    cstr.bind fun portal => cstr.bind fun statement => int16.bind fun n => (many int16 n).bind fun formats =>
      int16.bind fun n => (many paramValue n).bind fun values => int16.bind fun n =>
        (many int16 n).bind fun results bytes => some (.bind portal statement formats values results, bytes)
  else if type = 68 then
    fun bytes => bytes.head?.bind fun kind => (cstr bytes.tail).map fun (name, rest) => (.describe kind name, rest)
  else if type = 69 then
    cstr.bind fun portal => int32.bind fun rows bytes => some (.execute portal rows, bytes)
  else if type = 83 then fun bytes => some (.sync, bytes)
  else fun _ => none

def message : Get Frontend
  | [] => none
  | type :: bytes => (int32.bind fun n bytes =>
      if n < 4 ∨ (bytes.length : Int) < n - 4 then none
      else
        match body type (bytes.take (n - 4).toNat) with
        | some (m, []) => some (m, bytes.drop (n - 4).toNat)
        | _ => none) bytes

def Parses : List UInt8 → List Frontend → Prop
  | bytes, [] => bytes = []
  | bytes, m :: ms => ∃ rest, message bytes = some (m, rest) ∧ Parses rest ms

def DenotesInteger (t : Text) (n : Int) : Prop :=
  ∃ digits, Digits digits ∧ digits ≠ [] ∧
    (t = digits ∧ n = ofDecimal digits ∨ t = 45 :: digits ∧ n = -(ofDecimal digits : Int))

def Denotes : UnoValue → Option Text → Prop
  | .null, none => True
  | .boolean b, some t => t = ascii (if b then "true" else "false")
  | .integer n, some t => DenotesInteger t n.toInt
  | .string s, some t => t = s.bytes
  | _, _ => False

def Plain : UnoValue → Prop
  | .null | .boolean _ | .integer _ | .string _ => True
  | _ => False

def paramLength : UnoValue → Nat
  | .boolean b => 4 + if b then 4 else 5
  | .integer n => 4 + ((canonical n.toInt).length + if RoundsUp n.toInt.natAbs then 1 else 0)
  | .string s => 4 + s.bytes.length
  | _ => 4

section

variable {α β : Type}
variable {bytes rest : List UInt8} {p : UnoValue}

@[simp] theorem bind_eq_some {get : Get α} {f : α → Get β} {r : β × List UInt8} :
    get.bind f bytes = some r ↔ ∃ a rest, get bytes = some (a, rest) ∧ f a rest = some r := by
  unfold Get.bind
  rw [Option.bind_eq_some_iff]
  exact ⟨fun ⟨p, h⟩ => ⟨p.1, p.2, h⟩, fun ⟨a, rest, h⟩ => ⟨(a, rest), h⟩⟩

theorem bind_run {get : Get α} {f : α → Get β} {a : α}
    (h : get bytes = some (a, rest)) : get.bind f bytes = f a rest := by
  rw [Get.bind, h, Option.bind_some]

theorem int32_put (n : Nat) (rest : List UInt8) : int32 (dubnaPutInt32 n ++ rest) =
    some (if n % 4294967296 < 2147483648 then (n % 4294967296 : Int) else n % 4294967296 - 4294967296, rest) := by
  have hpos : ¬(n : Int) < 0 := by omega
  have hlast : n &&& 255 = n >>> 0 &&& 255 := rfl
  simp only [dubnaPutInt32, hpos, if_false, Int.toNat_natCast, int32, List.cons_append, List.nil_append, hlast,
    toNat_low_byte]
  have hvalue : n / 2 ^ 24 % 256 * 16777216 + n / 2 ^ 16 % 256 * 65536 + n / 2 ^ 8 % 256 * 256 +
      n / 2 ^ 0 % 256 = n % 4294967296 := by
    norm_num
    omega
  rw [hvalue]
  norm_cast

theorem int32_short {n : Nat} (hn : n < 2147483648) (rest : List UInt8) :
    int32 (dubnaPutInt32 n ++ rest) = some ((n : Int), rest) := by
  rw [int32_put, if_pos (by omega), Int.emod_eq_of_lt (by omega) (by omega)]

theorem putInt32_null : dubnaPutInt32 (-1) = [255, 255, 255, 255] := rfl

theorem int32_null (rest : List UInt8) : int32 (dubnaPutInt32 (-1) ++ rest) = some (-1, rest) := by
  rw [putInt32_null]
  simp [int32]

theorem int16_put {n : Nat} (hn : n < 65536) (rest : List UInt8) :
    int16 (dubnaPutInt16 n ++ rest) = some (n, rest) := by
  have hpos : ¬(n : Int) < 0 := by omega
  have hlast : n &&& 255 = n >>> 0 &&& 255 := rfl
  simp only [dubnaPutInt16, hpos, if_false, Int.toNat_natCast, int16, List.cons_append, List.nil_append, hlast,
    toNat_low_byte]
  have hvalue : n / 2 ^ 8 % 256 * 256 + n / 2 ^ 0 % 256 = n := by
    norm_num
    omega
  rw [hvalue]

theorem int16_zero (rest : List UInt8) : int16 (dubnaPutInt16 0 ++ rest) = some (0, rest) :=
  @int16_put 0 (by decide) rest

theorem cstr_put {s : Text} (hs : ∀ b ∈ s, b ≠ 0) (rest : List UInt8) :
    cstr (dubnaPutCstr s ++ rest) = some (s, rest) := by
  induction s with
  | nil => rfl
  | cons b s ih =>
    have hrest := ih fun c hc => hs c (List.mem_cons_of_mem b hc)
    unfold dubnaPutCstr at hrest ⊢
    rw [List.cons_append, List.cons_append, cstr, if_neg (hs b List.mem_cons_self), hrest]
    rfl

theorem many_append {get : Get α} {put : α → List UInt8} {as : List α}
    (h : ∀ a ∈ as, ∀ rest, get (put a ++ rest) = some (a, rest)) (rest : List UInt8) :
    many get as.length ((as.map put).flatten ++ rest) = some (as, rest) := by
  induction as with
  | nil => rfl
  | cons a as ih =>
    have hrest := ih fun b hb => h b (List.mem_cons_of_mem a hb)
    rw [List.map_cons, List.flatten_cons, List.append_assoc, List.length_cons, many,
      bind_run (h a List.mem_cons_self _), bind_run hrest]

theorem paramValue_put {value : Option Text} (h : ∀ t ∈ value, t.length < 2147483648) (rest : List UInt8) :
    paramValue (putParam value ++ rest) = some (value, rest) := by
  cases value with
  | none => exact bind_run (int32_null rest)
  | some t =>
    have ht := h t rfl
    rw [putParam, List.append_assoc, paramValue, bind_run (int32_short ht _), if_neg (by omega),
      if_neg (by rw [List.length_append]; omega), Int.toNat_natCast, List.take_left, List.drop_left]

def parseBody (sql : Text) : List UInt8 := dubnaPutCstr [] ++ dubnaPutCstr sql ++ dubnaPutInt16 0

def bindBody (values : List (Option Text)) : List UInt8 :=
  dubnaPutCstr [] ++ dubnaPutCstr [] ++ dubnaPutInt16 0 ++ dubnaPutInt16 values.length ++
    (values.map putParam).flatten ++ dubnaPutInt16 0

theorem body_parse {sql : Text} (hsql : ∀ b ∈ sql, b ≠ 0) :
    body 80 (parseBody sql) = some (.parse [] sql [], []) := by
  have hcount := int16_zero []
  rw [List.append_nil] at hcount
  rw [parseBody, body, if_pos rfl, List.append_assoc, bind_run (cstr_put (by simp) _), bind_run (cstr_put hsql _)]
  rw [bind_run hcount]
  rfl

theorem body_bind {values : List (Option Text)} (hcount : values.length < 65536)
    (h : ∀ v ∈ values, ∀ t ∈ v, t.length < 2147483648) :
    body 66 (bindBody values) = some (.bind [] [] [] values [], []) := by
  have hlast := int16_zero []
  rw [List.append_nil] at hlast
  have hmany := @many_append _ paramValue putParam values
    (fun v hv rest => paramValue_put (h v hv) rest) (dubnaPutInt16 0)
  simp only [bindBody, List.append_assoc]
  rw [body, if_neg (by decide), if_pos rfl, bind_run (cstr_put (by simp) _), bind_run (cstr_put (by simp) _),
    bind_run (int16_zero _)]
  rw [show (many int16 0) = fun bytes => some ([], bytes) from rfl, bind_run rfl, bind_run (int16_put hcount _),
    bind_run hmany, bind_run hlast]
  rfl

theorem message_put {type : UInt8} {m : Frontend} (hshort : bytes.length + 4 < 2147483648)
    (hbody : body type bytes = some (m, [])) (rest : List UInt8) :
    message (type :: (dubnaPutInt32 (bytes.length + 4 : Nat) ++ (bytes ++ rest))) = some (m, rest) := by
  rw [message, bind_run (int32_short hshort _), if_neg (by rw [List.length_append]; omega)]
  have hsize : ((bytes.length + 4 : Nat) - 4 : Int).toNat = bytes.length := by omega
  rw [hsize, List.take_left, List.drop_left, hbody]

theorem message_announced {type : UInt8} {n : Nat} {m : Frontend}
    (h : message (type :: (dubnaPutInt32 n ++ bytes)) = some (m, rest)) :
    ∃ b, body type b = some (m, []) ∧ b.length + 4 < 2147483648 ∧ b.length + 4 = n % 4294967296 := by
  rw [message, bind_run (int32_put n bytes)] at h
  split_ifs at h with hrange hfail hfail
  · split at h
    · rename_i hbody
      cases h
      refine ⟨_, hbody, ?_, ?_⟩ <;>
      · rw [List.length_take]
        omega
    · cases h
  · omega

end

section

variable {α : Type}

theorem int32_length {n : Int} (h : int32 bytes = some (n, rest)) :
    bytes.length = 4 + rest.length := by
  unfold int32 at h
  split at h
  · cases h
    simp only [List.length_cons]
    omega
  · cases h

theorem int16_length {n : Nat} (h : int16 bytes = some (n, rest)) :
    bytes.length = 2 + rest.length := by
  unfold int16 at h
  split at h
  · cases h
    simp only [List.length_cons]
    omega
  · cases h

theorem cstr_length {s : Text} (h : cstr bytes = some (s, rest)) :
    bytes.length = s.length + 1 + rest.length := by
  induction bytes generalizing s with
  | nil => cases h
  | cons b bytes ih =>
    rw [cstr] at h
    split_ifs at h
    · cases h
      simp only [List.length_cons, List.length_nil]
      omega
    · obtain ⟨p, hp, heq⟩ := Option.map_eq_some_iff.mp h
      cases heq
      have := ih hp
      simp only [List.length_cons]
      omega

theorem many_length {get : Get α} {size : α → Nat}
    (hget : ∀ bytes a rest, get bytes = some (a, rest) → bytes.length = size a + rest.length) {n : Nat}
    {bytes rest : List UInt8} {as : List α} (h : many get n bytes = some (as, rest)) :
    bytes.length = (as.map size).sum + rest.length := by
  induction n generalizing bytes as with
  | zero =>
    cases h
    simp
  | succ n ih =>
    rw [many, bind_eq_some] at h
    obtain ⟨a, bytes', hfirst, h⟩ := h
    rw [bind_eq_some] at h
    obtain ⟨as', rest', hmore, h⟩ := h
    cases h
    have hlength := hget _ _ _ hfirst
    have := ih hmore
    rw [List.map_cons, List.sum_cons]
    omega

def valueSize (v : Option Text) : Nat := 4 + (v.getD []).length

theorem paramValue_length (bytes : List UInt8) (v : Option Text) (rest : List UInt8)
    (h : paramValue bytes = some (v, rest)) : bytes.length = valueSize v + rest.length := by
  rw [paramValue, bind_eq_some] at h
  obtain ⟨n, bytes', hsize, h⟩ := h
  have hlength := int32_length hsize
  split_ifs at h with hnull hfail
  · cases h
    rw [hlength]
    rfl
  · cases h
    simp only [valueSize, Option.getD_some, List.length_take, List.length_drop]
    omega

theorem body_parse_length {sql : Text} (h : body 80 bytes = some (.parse [] sql [], [])) :
    bytes.length = sql.length + 4 := by
  rw [body, if_pos rfl] at h
  simp only [bind_eq_some] at h
  obtain ⟨name, b₁, h₁, sql', b₂, h₂, n, b₃, h₃, types, b₄, h₄, h⟩ := h
  have hname := cstr_length h₁
  have hsql := cstr_length h₂
  have hcount := int16_length h₃
  have htypes := @many_length _ int32 (fun _ => 4) (fun _ _ _ h => int32_length h) _ _ _ _ h₄
  cases h
  simp only [List.length_nil, List.map_nil, List.sum_nil] at hname htypes
  omega

theorem body_bind_length {values : List (Option Text)}
    (h : body 66 bytes = some (.bind [] [] [] values [], [])) :
    bytes.length = (values.map valueSize).sum + 8 := by
  rw [body, if_neg (by decide), if_pos rfl] at h
  simp only [bind_eq_some] at h
  obtain ⟨portal, b₁, h₁, statement, b₂, h₂, n, b₃, h₃, formats, b₄, h₄, k, b₅, h₅, values', b₆, h₆, m, b₇, h₇,
    results, b₈, h₈, h⟩ := h
  have hportal := cstr_length h₁
  have hstatement := cstr_length h₂
  have hcount := int16_length h₃
  have hformats := @many_length _ int16 (fun _ => 2) (fun _ _ _ h => int16_length h) _ _ _ _ h₄
  have hcount' := int16_length h₅
  have hvalues := many_length paramValue_length h₆
  have hcount'' := int16_length h₇
  have hresults := @many_length _ int16 (fun _ => 2) (fun _ _ _ h => int16_length h) _ _ _ _ h₈
  cases h
  simp only [List.length_nil, List.map_nil, List.sum_nil] at hportal hstatement hformats hresults
  omega

end

def plainText (p : UnoValue) : Option Text := (dubnaParamText p).getD none

theorem Plain.text (h : Plain p) : dubnaParamText p = some (plainText p) := by
  cases p with
  | real x => cases h
  | vector items => cases h
  | struct type fields => cases h
  | btree pairs => cases h
  | _ => rfl

theorem putParams_plain {params : List UnoValue} (h : ∀ p ∈ params, Plain p) :
    putParams params = some ((params.map plainText).map putParam).flatten := by
  induction params with
  | nil => rfl
  | cons p params ih =>
    rw [putParams, (h p List.mem_cons_self).text, ih fun q hq => h q (List.mem_cons_of_mem p hq)]
    rfl

theorem strFromInt_denotes {n : BitVec 64} (hn : n ≠ BitVec.intMin 64) : DenotesInteger (strFromInt n) n.toInt := by
  obtain ⟨k, hk, hprints, htext⟩ := strFromInt_numeral hn
  have hhigh := hprints.high.trans_le (powerTurn_le k)
  have hne : numeral k n.toInt.natAbs ≠ [] := by
    intro hnil
    have hlength := length_numeral k n.toInt.natAbs
    rw [hnil] at hlength
    cases hlength
  refine ⟨numeral k n.toInt.natAbs, numeral_digits hhigh, hne, ?_⟩
  rw [ofDecimal_numeral hhigh, htext]
  split_ifs with hneg
  · exact .inr ⟨rfl, by omega⟩
  · exact .inl ⟨rfl, by omega⟩

theorem least_denotes : ¬DenotesInteger (strFromInt (BitVec.intMin 64)) (BitVec.intMin 64).toInt := by
  rw [strFromInt_least]
  intro ⟨digits, hdigits, _, h⟩
  obtain ⟨rfl, _⟩ | ⟨heq, hvalue⟩ := h
  · exact absurd (hdigits 45 List.mem_cons_self) (by decide)
  · rw [← (List.cons.inj heq).2] at hvalue
    revert hvalue
    decide

theorem Plain.denotes (h : Plain p) :
    Denotes p (plainText p) ↔ p ≠ .integer (BitVec.intMin 64) := by
  cases p with
  | null => exact iff_of_true trivial (by simp)
  | boolean b => exact iff_of_true rfl (by simp)
  | string s => exact iff_of_true rfl (by simp)
  | integer n =>
    by_cases hn : n = BitVec.intMin 64
    · rw [hn]
      exact iff_of_false least_denotes (by simp)
    · exact iff_of_true (strFromInt_denotes hn) (by simpa using hn)
  | real x => cases h
  | vector items => cases h
  | struct type fields => cases h
  | btree pairs => cases h

theorem length_boolean (b : Bool) : (ascii (if b then "true" else "false")).length = if b then 4 else 5 := by
  cases b <;> rfl

theorem Plain.size (h : Plain p) (hp : p ≠ .integer (BitVec.intMin 64)) :
    valueSize (plainText p) = paramLength p := by
  cases p with
  | null => rfl
  | boolean b => exact congrArg (4 + ·) (length_boolean b)
  | string s => rfl
  | integer n => exact congrArg (4 + ·) (length_strFromInt fun hn => hp (hn ▸ rfl))
  | real x => cases h
  | vector items => cases h
  | struct type fields => cases h
  | btree pairs => cases h

theorem Plain.size_le (h : Plain p) {v : Option Text} (hv : Denotes p v) :
    valueSize (plainText p) ≤ valueSize v + 20 := by
  cases p with
  | integer n =>
    have hlength := length_strFromInt_le n
    change 4 + (strFromInt n).length ≤ _
    unfold valueSize
    omega
  | null => exact Nat.le_add_right_of_le (Nat.le_add_right 4 _)
  | boolean b =>
    cases v with
    | none => cases hv
    | some t =>
      cases hv
      exact Nat.le_add_right _ 20
  | string s =>
    cases v with
    | none => cases hv
    | some t =>
      cases hv
      exact Nat.le_add_right _ 20
  | real x => cases h
  | vector items => cases h
  | struct type fields => cases h
  | btree pairs => cases h

theorem sum_size_le {params : List UnoValue} {values : List (Option Text)} (hplain : ∀ p ∈ params, Plain p)
    (h : List.Forall₂ Denotes params values) :
    ((params.map plainText).map valueSize).sum ≤ (values.map valueSize).sum + 20 * params.length := by
  induction h with
  | nil => simp
  | @cons p v params values hp _ ih =>
    have hrest := ih fun q hq => hplain q (List.mem_cons_of_mem p hq)
    have hfirst := (hplain p List.mem_cons_self).size_le hp
    simp only [List.map_cons, List.sum_cons, List.length_cons]
    omega

section

variable {sql : CString} {params : List UnoValue}

def lastMessages : List UInt8 :=
  dubnaMessage (ascii "D") [80, 0] ++ dubnaMessage (ascii "E") (dubnaPutCstr [] ++ dubnaPutInt32 0) ++
    dubnaMessage (ascii "S") []

theorem length_parseBody (sql : Text) : (parseBody sql).length = sql.length + 4 := by
  simp only [parseBody, dubnaPutCstr, dubnaPutInt16, List.length_append, List.length_cons, List.length_nil]
  omega

theorem length_putParam (v : Option Text) : (putParam v).length = valueSize v := by
  cases v with
  | none => rfl
  | some t => exact List.length_append

theorem length_bindBody (values : List (Option Text)) :
    (bindBody values).length = (values.map valueSize).sum + 8 := by
  have hvalues : ((values.map putParam).flatten).length = (values.map valueSize).sum := by
    rw [List.length_flatten, List.map_map]
    exact congrArg List.sum (List.map_congr_left fun v _ => length_putParam v)
  simp only [bindBody, dubnaPutCstr, dubnaPutInt16, List.length_append, hvalues, List.length_cons, List.length_nil]
  omega

theorem execMessages_plain (hplain : ∀ p ∈ params, Plain p) : dubnaExecMessages sql params =
    some (80 :: (dubnaPutInt32 ((parseBody sql.bytes).length + 4 : Nat) ++ (parseBody sql.bytes ++
      (66 :: (dubnaPutInt32 ((bindBody (params.map plainText)).length + 4 : Nat) ++
        (bindBody (params.map plainText) ++ lastMessages)))))) := by
  have hletter : ascii "P" = [80] ∧ ascii "B" = [66] := by decide +kernel
  rw [dubnaExecMessages, putParams_plain hplain]
  simp only [Option.bind_eq_bind, Option.bind_some, pure, lastMessages, bindBody, parseBody,
    List.length_map, dubnaMessage, hletter.1, hletter.2, List.take_succ_cons, List.take_zero, List.cons_append,
    List.nil_append, List.append_assoc, Nat.cast_add, Nat.cast_ofNat]

theorem last_parses : Parses lastMessages [.describe 80 [], .execute [] 0, .sync] :=
  ⟨dubnaMessage (ascii "E") (dubnaPutCstr [] ++ dubnaPutInt32 0) ++ dubnaMessage (ascii "S") [],
    by decide +kernel, dubnaMessage (ascii "S") [], by decide +kernel, [], by decide +kernel, rfl⟩

def execution (sql : Text) (values : List (Option Text)) : List Frontend :=
  [.parse [] sql [], .bind [] [] [] values [], .describe 80 [], .execute [] 0, .sync]

theorem sum_mem_le {values : List (Option Text)} {v : Option Text} (h : v ∈ values) :
    valueSize v ≤ (values.map valueSize).sum :=
  List.single_le_sum (fun _ _ => Nat.zero_le _) _ (List.mem_map_of_mem h)

theorem message_parse (hfit : sql.bytes.length + 8 < 2147483648) (rest : List UInt8) :
    message (80 :: (dubnaPutInt32 ((parseBody sql.bytes).length + 4 : Nat) ++ (parseBody sql.bytes ++ rest))) =
      some (.parse [] sql.bytes [], rest) := by
  have hlength := length_parseBody sql.bytes
  exact message_put (by omega) (body_parse sql.noNul) rest

theorem message_bind {values : List (Option Text)} (hcount : values.length < 65536)
    (hfit : (values.map valueSize).sum + 12 < 2147483648) (rest : List UInt8) :
    message (66 :: (dubnaPutInt32 ((bindBody values).length + 4 : Nat) ++ (bindBody values ++ rest))) =
      some (.bind [] [] [] values [], rest) := by
  have hlength := length_bindBody values
  refine message_put (by omega) (body_bind hcount ?_) rest
  intro v hv t ht
  have hsize := sum_mem_le hv
  rw [Option.mem_def.mp ht, valueSize, Option.getD_some] at hsize
  omega

theorem execMessages_received {values : List (Option Text)} (hplain : ∀ p ∈ params, Plain p)
    (hcount : params.length < 65536) (hbytes : dubnaExecMessages sql params = some bytes)
    (hparses : Parses bytes (execution sql.bytes values)) (hvalues : List.Forall₂ Denotes params values) :
    values = params.map plainText ∧ sql.bytes.length + 8 < 2147483648 ∧
      ((params.map plainText).map valueSize).sum + 12 < 2147483648 := by
  have hP := length_parseBody sql.bytes
  have hB := length_bindBody (params.map plainText)
  rw [execMessages_plain hplain, Option.some.injEq] at hbytes
  subst hbytes
  obtain ⟨rest, hfirst, rest', hsecond, _⟩ := hparses
  obtain ⟨b, hbody, hshort, hlength⟩ := message_announced hfirst
  have hsql := body_parse_length hbody
  have hparse : sql.bytes.length + 8 < 2147483648 := by omega
  rw [message_parse hparse, Option.some.injEq, Prod.mk.injEq] at hfirst
  rw [← hfirst.2] at hsecond
  obtain ⟨b', hbody', hshort', hlength'⟩ := message_announced hsecond
  have hlengths := body_bind_length hbody'
  -- the texts are at most 20 bytes longer for each integer, which is no multiple of 2 ^ 32
  have htexts := sum_size_le hplain hvalues
  have hbind : ((params.map plainText).map valueSize).sum + 12 < 2147483648 := by omega
  rw [message_bind (by rwa [List.length_map]) hbind] at hsecond
  cases hsecond
  exact ⟨rfl, hparse, hbind⟩

theorem plainText_denotes (hplain : ∀ p ∈ params, Plain p) :
    List.Forall₂ Denotes params (params.map plainText) ↔ ∀ p ∈ params, p ≠ .integer (BitVec.intMin 64) := by
  rw [List.forall₂_map_right_iff, List.forall₂_same]
  exact forall₂_congr fun p hp => (hplain p hp).denotes

/-- The server gets the statement and values that denote the parameters if and only if none of
them is the least integer and the lengths of Parse and Bind fit in 31 bits. -/
theorem execMessages_iff (sql : CString) (params : List UnoValue) (hplain : ∀ p ∈ params, Plain p)
    (hcount : params.length < 65536) :
    (∃ bytes values, dubnaExecMessages sql params = some bytes ∧ Parses bytes (execution sql.bytes values) ∧
      List.Forall₂ Denotes params values) ↔
    (∀ p ∈ params, p ≠ .integer (BitVec.intMin 64)) ∧ sql.bytes.length + 8 < 2147483648 ∧
      (params.map paramLength).sum + 12 < 2147483648 := by
  have hsizes (hleast : ∀ p ∈ params, p ≠ .integer (BitVec.intMin 64)) :
      ((params.map plainText).map valueSize).sum = (params.map paramLength).sum := by
    rw [List.map_map]
    exact congrArg List.sum (List.map_congr_left fun p hp => (hplain p hp).size (hleast p hp))
  constructor
  · intro ⟨bytes, values, hbytes, hparses, hvalues⟩
    obtain ⟨rfl, hparse, hbind⟩ := execMessages_received hplain hcount hbytes hparses hvalues
    have hleast := (plainText_denotes hplain).mp hvalues
    exact ⟨hleast, hparse, hsizes hleast ▸ hbind⟩
  · intro ⟨hleast, hparse, hbind⟩
    rw [← hsizes hleast] at hbind
    exact ⟨_, _, execMessages_plain hplain, ⟨_, message_parse hparse _, _,
      message_bind (by rwa [List.length_map]) hbind _, last_parses⟩, (plainText_denotes hplain).mpr hleast⟩

/-- A parameter of each kind. -/
theorem execMessages_kinds : ∃ bytes values, dubnaExecMessages (CString.lit "select $1")
      [.null, .boolean true, .integer (-7), .string (CString.lit "x")] = some bytes ∧
    Parses bytes (execution (CString.lit "select $1").bytes values) ∧
    List.Forall₂ Denotes [.null, .boolean true, .integer (-7), .string (CString.lit "x")] values :=
  (execMessages_iff (CString.lit "select $1") [.null, .boolean true, .integer (-7), .string (CString.lit "x")]
    (by simp [Plain]) (by decide)).mpr ⟨by simp; decide, by decide +kernel, by decide +kernel⟩

/-- The least integer is sent as `-0`. -/
theorem least_not_sent : ¬∃ bytes values, dubnaExecMessages (CString.lit "select $1") [.integer (BitVec.intMin 64)] =
      some bytes ∧ Parses bytes (execution (CString.lit "select $1").bytes values) ∧
    List.Forall₂ Denotes [.integer (BitVec.intMin 64)] values := by
  intro ⟨bytes, values, hbytes, hparses, hvalues⟩
  have hplain : ∀ p ∈ [UnoValue.integer (BitVec.intMin 64)], Plain p := by simp [Plain]
  obtain ⟨rfl, _⟩ := execMessages_received hplain (by decide) hbytes hparses hvalues
  exact (plainText_denotes hplain).mp hvalues _ List.mem_cons_self rfl

end

end Ussr.Dubna
