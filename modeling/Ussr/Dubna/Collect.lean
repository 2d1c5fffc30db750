import Ussr.Dubna.Authenticate
import Ussr.Dubna.Execute

/-! The replies of the server to a query: the readers of `dubna_collect`, the loop around them,
and the streams of bytes that they take. -/

namespace Ussr.Dubna
open Real64 (ascii)
open Stalin (Text)
open Uno (UnoValue)

def dubnaInt16 (v : List UInt8) (i : Nat) : Option Int := do
  let a ← v[i]?
  let b ← v[i + 1]?
  let r := a.toNat <<< 8 ||| b.toNat
  return if 32768 ≤ r then (r : Int) - 65536 else r

/-- `dubna_cstr`, the inner `none` for `null`. -/
def dubnaCstr (v : List UInt8) (i : Nat) : Option (Option Text) := bytesText v i ((dubnaZero v i : Int) - i)

/-- The loop of `dubna_row_description`: names and types of `k` columns from `i` on. -/
def rowColumns (body : List UInt8) : (k i : Nat) → Option (List (Option Text) × List Int)
  | 0, _ => some ([], [])
  | k + 1, i => do
    let z := dubnaZero body i
    let name ← bytesText body i ((z : Int) - i)
    let oid ← dubnaInt32 body (z + 7)
    let (names, oids) ← rowColumns body k (z + 19)
    return (name :: names, oid :: oids)

/-- The loop of `dubna_data_row`: `k` fields from `i` on. -/
def rowFields (body : List UInt8) : (k i : Nat) → Option (List (Option Text))
  | 0, _ => some []
  | k + 1, i => do
    let size ← dubnaInt32 body i
    if size < 0 then
      let row ← rowFields body k (i + 4)
      return none :: row
    else
      let v ← bytesText body (i + 4) size
      let row ← rowFields body k (i + 4 + size.toNat)
      return v :: row

def dubnaDataRow (body : List UInt8) : Option (List (Option Text)) := do
  let n ← dubnaInt16 body 0
  rowFields body n.toNat 2

structure DubnaResult where
  columns : List (Option Text)
  types : List Int
  rows : List (List (Option Text))
  tag : Option Text
  error : Text
  code : Text

def dubnaNewResult : DubnaResult := ⟨[], [], [], some [], [], []⟩

def dubnaRowDescription (res : DubnaResult) (body : List UInt8) : Option DubnaResult := do
  let n ← dubnaInt16 body 0
  let (columns, types) ← rowColumns body n.toNat 2
  return { res with columns, types, rows := [] }

/-- What `dubna_error_text` puts in `out`. -/
def errorCode (body : List UInt8) : Option Text := do
  let fields ← errorFields body body.length 0 fun _ => []
  return fields 67

/-- What `dubna_collect` keeps outside its result: fields of the connection and the last error. -/
structure Session where
  params : List (Option Text)
  status : Text
  notices : List Text
  lastError : Text

section

/-- One message in the loop of `dubna_collect`, and whether the loop returns. -/
def collectMessage (s : Session) (r : DubnaResult) (m : Message) : Option (Bool × Session × DubnaResult) :=
  if m.type = 84 then do
    let r ← dubnaRowDescription r m.body
    return (false, s, r)
  else if m.type = 68 then do
    let row ← dubnaDataRow m.body
    return (false, s, { r with rows := r.rows ++ [row] })
  else if m.type = 67 then do
    let tag ← dubnaCstr m.body 0
    return (false, s, { r with tag })
  else if m.type = 69 then do
    let text ← dubnaErrorText m.body
    let code ← errorCode m.body
    let text := ascii "dubna: " ++ text
    return (false, { s with lastError := text }, { r with error := text, code })
  else if m.type = 78 then do
    let text ← dubnaErrorText m.body
    return (false, { s with notices := s.notices ++ [text] }, r)
  else if m.type = 83 then do
    let name ← dubnaCstr m.body 0
    let value ← dubnaCstr m.body (dubnaZero m.body 0 + 1)
    return (false, { s with params := s.params ++ [name, value] }, r)
  else if m.type = 90 then do
    let st ← m.body[0]?
    -- `chr` takes no zero.
    if st = 0 then none else return (true, { s with status := [st] }, r)
  else some (false, s, r)

def closedError : Text := ascii "dubna: the server closed the connection"

abbrev Reply := DubnaResult × Session × DubnaConn × Receives

/-- The loop of `dubna_collect`; `turns` bounds its length. -/
def collectLoop : (turns : Nat) → Session → DubnaResult → DubnaConn → Receives → Option Reply
  | 0, _, _, _, _ => none
  | turns + 1, s, r, c, later => do
    match ← dubnaRead c later with
    | (none, c, later) => return ({ r with error := closedError }, { s with lastError := closedError }, c, later)
    | (some m, c, later) =>
      let (done, s, r) ← collectMessage s r m
      if done then return (r, s, c, later) else collectLoop turns s r c later

def arrived (tls : Bool) : Receives → List UInt8
  | [] => []
  | none :: later => if tls then arrived tls later else []
  | some chunk :: later => if chunk = [] then [] else chunk ++ arrived tls later

def DubnaConn.stream (c : DubnaConn) (later : Receives) : List UInt8 := c.unread ++ arrived c.tls later

/-- `dubna_collect`: every turn but the last takes a message off the stream. -/
def dubnaCollect (s : Session) (c : DubnaConn) (later : Receives) : Option Reply :=
  collectLoop ((c.stream later).length + 1) s dubnaNewResult c later

variable (send : List UInt8 → Int)
variable {bytes : List UInt8} {m : Message}

/-- What `dubna_query` and `dubna_exec` do with the messages of a request; `send` is what
`dubna_send` returns for them. -/
def request (bytes : List UInt8) (s : Session) (c : DubnaConn) (later : Receives) : Option Reply :=
  if send bytes ≠ 0 then
    let error := ascii "dubna: could not send the query"
    some ({ dubnaNewResult with error }, { s with lastError := error }, c, later)
  else dubnaCollect s c later

def dubnaQueryMessage (sql : CString) : List UInt8 := dubnaMessage (ascii "Q") (dubnaPutCstr sql.bytes)

def dubnaQuery (s : Session) (c : DubnaConn) (later : Receives) (sql : CString) : Option Reply :=
  request send (dubnaQueryMessage sql) s c later

def dubnaExec (s : Session) (c : DubnaConn) (later : Receives) (sql : CString) (params : List UnoValue) :
    Option Reply := do
  let bytes ← dubnaExecMessages sql params
  request send bytes s c later

end

inductive Front where
  | short
  | malformed
  | untyped
  | message (m : Message) (more : List UInt8)

def front : List UInt8 → Front
  | [] => .short
  | type :: bytes =>
    match int32 bytes with
    | none => .short
    | some (size, bytes) =>
      if size < 4 then .malformed
      else if bytes.length < size.toNat - 4 then .short
      else if typed : type ≠ 0 then
        .message ⟨type, bytes.take (size.toNat - 4), typed⟩ (bytes.drop (size.toNat - 4))
      else .untyped

def count : Get Nat := int16.bind fun n bytes => some (if n < 32768 then n else 0, bytes)

def ColumnsFit : (k : Nat) → List UInt8 → Prop
  | 0, _ => True
  | k + 1, bytes => ∃ name rest, cstr bytes = some (name, rest) ∧ 10 ≤ rest.length ∧ ColumnsFit k (rest.drop 18)

def ValuesFit : (k : Nat) → List UInt8 → Prop
  | 0, _ => True
  | k + 1, bytes => ∃ size rest, int32 bytes = some (size, rest) ∧ size ≤ rest.length ∧
      ValuesFit k (rest.drop size.toNat)

/-- The body of a message holds what its type and its own counts and lengths announce. -/
@[mk_iff]
structure Message.Whole (m : Message) : Prop where
  columns : m.type = 84 → ∃ n rest, count m.body = some (n, rest) ∧ ColumnsFit n rest
  values : m.type = 68 → ∃ n rest, count m.body = some (n, rest) ∧ ValuesFit n rest
  parameter : m.type = 83 → 0 ∈ m.body
  status : m.type = 90 → ∃ st rest, m.body = st :: rest ∧ st ≠ 0

/-- Up to ReadyForQuery, to a length below four or to their end, the bytes are whole messages
with a type. -/
inductive Fits : List UInt8 → Prop
  | cut {bytes : List UInt8} : front bytes = .short → Fits bytes
  | malformed {bytes : List UInt8} : front bytes = .malformed → Fits bytes
  | ready {bytes more : List UInt8} {m : Message} : front bytes = .message m more → m.type = 90 → m.Whole →
      Fits bytes
  | message {bytes more : List UInt8} {m : Message} : front bytes = .message m more → m.type ≠ 90 → m.Whole →
      Fits more → Fits bytes

inductive Answered : List UInt8 → Prop
  | ready {bytes more : List UInt8} {m : Message} : front bytes = .message m more → m.type = 90 → Answered bytes
  | message {bytes more : List UInt8} {m : Message} : front bytes = .message m more → m.type ≠ 90 →
      Answered more → Answered bytes

theorem dubnaInt32_eq (v : List UInt8) (i : Nat) : dubnaInt32 v i = (int32 (v.drop i)).map Prod.fst := by
  have hread (k : Nat) : v[i + k]? = (v.drop i)[k]? := List.getElem?_drop.symm
  unfold dubnaInt32
  rw [← Nat.add_zero i, hread 0, Nat.add_zero, hread 1, hread 2, hread 3]
  rcases v.drop i with _ | ⟨a, _ | ⟨b, _ | ⟨c, _ | ⟨d, rest⟩⟩⟩⟩
  iterate 4 rfl
  simp only [List.getElem?_cons_zero, List.getElem?_cons_succ, Option.bind_eq_bind, Option.bind_some,
    or_bytes b.toNat_lt c.toNat_lt d.toNat_lt, int32, Option.map_some]
  split <;> split <;> first | rfl | omega

theorem count_eq (v : List UInt8) : count v = (dubnaInt16 v 0).map fun n => (n.toNat, v.drop 2) := by
  rcases v with _ | ⟨a, _ | ⟨b, rest⟩⟩
  iterate 2 rfl
  have ha := a.toNat_lt
  have hb := b.toNat_lt
  have hword : a.toNat <<< 8 ||| b.toNat = a.toNat * 256 + b.toNat := by
    rw [← Nat.shiftLeft_add_eq_or_of_lt hb, Nat.shiftLeft_eq]
  simp only [dubnaInt16, List.getElem?_cons_zero, List.getElem?_cons_succ, Option.bind_eq_bind, Option.bind_some,
    hword, count, Get.bind, int16, pure, Option.map_some, Option.some.injEq, Prod.mk.injEq]
  refine ⟨?_, rfl⟩
  split <;> split <;> omega

theorem int32_rest {rest : List UInt8} {n : Int} (h : int32 bytes = some (n, rest)) :
    rest = bytes.drop 4 ∧ 4 ≤ bytes.length := by
  rcases bytes with _ | ⟨a, _ | ⟨b, _ | ⟨c, _ | ⟨d, bytes⟩⟩⟩⟩
  iterate 4 cases h
  cases h
  exact ⟨rfl, by simp⟩

theorem int32_isSome (h : 4 ≤ bytes.length) : ∃ n, int32 bytes = some (n, bytes.drop 4) := by
  rcases bytes with _ | ⟨a, _ | ⟨b, _ | ⟨c, _ | ⟨d, bytes⟩⟩⟩⟩
  iterate 4 exact absurd h (by simp)
  exact ⟨_, rfl⟩

theorem int32_append {rest : List UInt8} {n : Int} (h : int32 bytes = some (n, rest)) (more : List UInt8) :
    int32 (bytes ++ more) = some (n, rest ++ more) := by
  rcases bytes with _ | ⟨a, _ | ⟨b, _ | ⟨c, _ | ⟨d, bytes⟩⟩⟩⟩
  iterate 4 cases h
  cases h
  rfl

section

variable {v : List UInt8} {i : Nat}

theorem le_dubnaZero (v : List UInt8) (i : Nat) : i ≤ dubnaZero v i := Nat.le_add_right _ _

theorem dubnaZero_le (h : i ≤ v.length) : dubnaZero v i ≤ v.length := by
  have hprefix := (List.takeWhile_prefix (· ≠ 0) (l := v.drop i)).length_le
  rw [List.length_drop] at hprefix
  rw [dubnaZero]
  omega

theorem cstr_eq (bytes : List UInt8) : cstr bytes =
    if 0 ∈ bytes then some (bytes.takeWhile (· ≠ 0), bytes.drop ((bytes.takeWhile (· ≠ 0)).length + 1))
    else none := by
  induction bytes with
  | nil => rfl
  | cons b bytes ih =>
    rw [cstr]
    by_cases hb : b = 0
    · simp [hb]
    · have hne : ¬0 = b := fun h => hb h.symm
      rw [if_neg hb, ih, List.takeWhile_cons_of_pos (by simpa using hb)]
      simp only [List.mem_cons, hne, false_or, List.length_cons, List.drop_succ_cons]
      split <;> rfl

theorem zero_mem_iff (v : List UInt8) : 0 ∈ v ↔ (v.takeWhile (· ≠ 0)).length < v.length := by
  induction v with
  | nil => simp
  | cons b v ih =>
    by_cases hb : b = 0
    · simp [hb]
    · have hne : ¬0 = b := fun h => hb h.symm
      rw [List.mem_cons, List.takeWhile_cons_of_pos (by simpa using hb), List.length_cons, List.length_cons, ih]
      simp [hne]

theorem zero_mem_drop (h : i ≤ v.length) : 0 ∈ v.drop i ↔ dubnaZero v i < v.length := by
  rw [zero_mem_iff, List.length_drop, dubnaZero]
  omega

theorem cstr_drop (v : List UInt8) (i : Nat) : cstr (v.drop i) =
    if 0 ∈ v.drop i then some ((v.drop i).takeWhile (· ≠ 0), v.drop (dubnaZero v i + 1)) else none := by
  rw [cstr_eq, List.drop_drop, dubnaZero, Nat.add_assoc]

theorem bytesText_isSome {n : Int} : (bytesText v i n).isSome = true ↔ 0 ≤ n ∧ i + n ≤ v.length := by
  unfold bytesText
  split <;> simp <;> omega

theorem dubnaCstr_isSome : (dubnaCstr v i).isSome = true ↔ i ≤ v.length := by
  have hle := le_dubnaZero v i
  rw [dubnaCstr, bytesText_isSome]
  constructor
  · intro h
    omega
  · intro h
    have hinside := dubnaZero_le h
    omega

theorem dubnaInt32_isSome : (dubnaInt32 v i).isSome = true ↔ i + 4 ≤ v.length := by
  rw [dubnaInt32_eq, Option.isSome_map]
  constructor
  · intro h
    obtain ⟨⟨n, rest⟩, hread⟩ := Option.isSome_iff_exists.mp h
    have hlen := (int32_rest hread).2
    rw [List.length_drop] at hlen
    omega
  · intro h
    obtain ⟨n, hread⟩ := @int32_isSome (v.drop i) (by rw [List.length_drop]; omega)
    rw [hread]
    rfl

theorem rowColumns_isSome (body : List UInt8) (k i : Nat) :
    (rowColumns body k i).isSome = true ↔ ColumnsFit k (body.drop i) := by
  induction k generalizing i with
  | zero => simp [rowColumns, ColumnsFit]
  | succ k ih =>
    have hstep : (rowColumns body (k + 1) i).isSome = true ↔ (dubnaCstr body i).isSome = true ∧
        (dubnaInt32 body (dubnaZero body i + 7)).isSome = true ∧
        (rowColumns body k (dubnaZero body i + 19)).isSome = true := by
      rw [rowColumns, dubnaCstr]
      cases bytesText body i ((dubnaZero body i : Int) - i) <;>
        cases dubnaInt32 body (dubnaZero body i + 7) <;> cases rowColumns body k (dubnaZero body i + 19) <;> simp
    rw [hstep, dubnaCstr_isSome, dubnaInt32_isSome, ih, ColumnsFit, cstr_drop]
    have hle := le_dubnaZero body i
    constructor
    · intro ⟨hi, hlen, hrest⟩
      rw [if_pos ((zero_mem_drop hi).mpr (by omega))]
      refine ⟨_, _, rfl, by rw [List.length_drop]; omega, ?_⟩
      rwa [List.drop_drop]
    · intro ⟨name, rest, hread, hlen, hrest⟩
      split at hread
      · cases hread
        rw [List.length_drop] at hlen
        rw [List.drop_drop] at hrest
        exact ⟨by omega, by omega, hrest⟩
      · cases hread

theorem rowFields_isSome (body : List UInt8) (k i : Nat) :
    (rowFields body k i).isSome = true ↔ ValuesFit k (body.drop i) := by
  induction k generalizing i with
  | zero => simp [rowFields, ValuesFit]
  | succ k ih =>
    cases hread : int32 (body.drop i) with
    | none => simp [rowFields, ValuesFit, dubnaInt32_eq, hread]
    | some read =>
      obtain ⟨size, rest⟩ := read
      obtain ⟨rfl, hlen⟩ := int32_rest hread
      rw [List.length_drop] at hlen
      have hfit : ValuesFit (k + 1) (body.drop i) ↔
          size ≤ (body.drop (i + 4)).length ∧ ValuesFit k (body.drop (i + 4 + size.toNat)) := by
        rw [ValuesFit, hread, ← List.drop_drop (j := i + 4), ← List.drop_drop (j := i)]
        constructor
        · intro ⟨_, _, heq, hfits⟩
          cases heq
          exact hfits
        · intro hfits
          exact ⟨_, _, rfl, hfits⟩
      rw [hfit, List.length_drop, ← ih, rowFields, dubnaInt32_eq, hread]
      simp only [Option.map_some, Option.bind_eq_bind, Option.bind_some]
      split
      · rename_i hneg
        have hzero : size.toNat = 0 := by omega
        rw [hzero, Nat.add_zero]
        cases rowFields body k (i + 4) with
        | none => simp
        | some row =>
          simp
          omega
      · have hrange := @bytesText_isSome body (i + 4) size
        cases htext : bytesText body (i + 4) size with
        | none =>
          rw [htext] at hrange
          simp only [Option.isSome_none, Bool.false_eq_true, false_iff] at hrange
          simp
          omega
        | some v =>
          rw [htext] at hrange
          simp only [Option.isSome_some, true_iff] at hrange
          cases rowFields body k (i + 4 + size.toNat) with
          | none => simp
          | some row =>
            simp
            omega

theorem errorFields_isSome (body : List UInt8) (turns i : Nat) (hturns : body.length ≤ i + turns)
    (fields : UInt8 → Text) : (errorFields body turns i fields).isSome = true := by
  induction turns generalizing i fields with
  | zero => rw [errorFields, if_neg (by omega), Option.isSome_some]
  | succ turns ih =>
    rw [errorFields]
    split
    · rename_i hi
      rw [List.getElem?_eq_getElem hi]
      simp only [Option.bind_eq_bind, Option.bind_some]
      split
      · rfl
      · have hle := le_dubnaZero body (i + 1)
        have hinside := dubnaZero_le (v := body) (i := i + 1) hi
        have htext := (@bytesText_isSome body (i + 1) ((dubnaZero body (i + 1) : Int) - i - 1)).mpr (by omega)
        obtain ⟨v, hv⟩ := Option.isSome_iff_exists.mp htext
        rw [hv]
        exact ih _ (by omega) _
    · rfl

theorem dubnaErrorText_isSome (body : List UInt8) :
    (dubnaErrorText body).isSome = true ∧ (errorCode body).isSome = true := by
  have hfields := errorFields_isSome body body.length 0 (by omega) fun _ => []
  obtain ⟨fields, heq⟩ := Option.isSome_iff_exists.mp hfields
  simp [dubnaErrorText, errorCode, heq]

theorem counted_isSome {α : Type} (body : List UInt8) (read : Nat → Nat → Option α)
    (Parts : Nat → List UInt8 → Prop) (hparts : ∀ k i, (read k i).isSome = true ↔ Parts k (body.drop i)) :
    ((dubnaInt16 body 0).bind fun n => read n.toNat 2).isSome = true ↔
      ∃ n rest, count body = some (n, rest) ∧ Parts n rest := by
  rw [count_eq]
  cases dubnaInt16 body 0 with
  | none => simp
  | some n =>
    rw [Option.bind_some, hparts]
    constructor
    · intro h
      exact ⟨_, _, rfl, h⟩
    · intro ⟨_, _, heq, h⟩
      cases heq
      exact h

theorem dubnaRowDescription_isSome (r : DubnaResult) (body : List UInt8) :
    (dubnaRowDescription r body).isSome = true ↔ ∃ n rest, count body = some (n, rest) ∧ ColumnsFit n rest := by
  rw [← counted_isSome body (rowColumns body) ColumnsFit (rowColumns_isSome body), dubnaRowDescription]
  cases dubnaInt16 body 0 with
  | none => rfl
  | some n =>
    cases hcolumns : rowColumns body n.toNat 2 with
    | none => simp [hcolumns]
    | some columns => simp [hcolumns]

theorem dubnaDataRow_isSome (body : List UInt8) :
    (dubnaDataRow body).isSome = true ↔ ∃ n rest, count body = some (n, rest) ∧ ValuesFit n rest :=
  counted_isSome body (rowFields body) ValuesFit (rowFields_isSome body)

theorem parameter_isSome (body : List UInt8) :
    (dubnaCstr body (dubnaZero body 0 + 1)).isSome = true ↔ 0 ∈ body := by
  have hzero := zero_mem_drop (Nat.zero_le body.length)
  rw [List.drop_zero] at hzero
  rw [dubnaCstr_isSome, hzero]
  rfl

theorem collectMessage_isSome (s : Session) (r : DubnaResult) (m : Message) :
    (collectMessage s r m).isSome = true ↔ m.Whole := by
  rw [Message.whole_iff, collectMessage]
  by_cases hdescription : m.type = 84
  · have hread := dubnaRowDescription_isSome r m.body
    simp only [hdescription, if_true]
    cases hres : dubnaRowDescription r m.body <;> simp [← hread, hres]
  by_cases hrow : m.type = 68
  · have hread := dubnaDataRow_isSome m.body
    simp only [hrow]
    cases hres : dubnaDataRow m.body <;> simp [← hread, hres]
  by_cases htag : m.type = 67
  · have hread := (@dubnaCstr_isSome m.body 0).mpr (Nat.zero_le _)
    obtain ⟨tag, hres⟩ := Option.isSome_iff_exists.mp hread
    simp [htag, hres]
  obtain ⟨htext, hcode⟩ := dubnaErrorText_isSome m.body
  obtain ⟨text, htext⟩ := Option.isSome_iff_exists.mp htext
  obtain ⟨code, hcode⟩ := Option.isSome_iff_exists.mp hcode
  by_cases herror : m.type = 69
  · simp [herror, htext, hcode]
  by_cases hnotice : m.type = 78
  · simp [hnotice, htext]
  by_cases hparameter : m.type = 83
  · have hname := (@dubnaCstr_isSome m.body 0).mpr (Nat.zero_le _)
    obtain ⟨name, hname⟩ := Option.isSome_iff_exists.mp hname
    have hread := parameter_isSome m.body
    cases hres : dubnaCstr m.body (dubnaZero m.body 0 + 1) <;> simp [hparameter, hname, hres, ← hread]
  by_cases hready : m.type = 90
  · cases hbody : m.body with
    | nil => simp [hready]
    | cons st rest =>
      by_cases hst : st = 0 <;> simp [hready, hst]
  · simp [hdescription, hrow, htag, herror, hnotice, hparameter, hready]

theorem collectMessage_done {s s' : Session} {r r' : DubnaResult} {done : Bool}
    (h : collectMessage s r m = some (done, s', r')) : done = true ↔ m.type = 90 := by
  simp only [collectMessage, Option.bind_eq_bind, Option.pure_def] at h
  by_cases hready : m.type = 90
  · simp only [hready] at h ⊢
    obtain ⟨st, -, h⟩ := Option.bind_eq_some_iff.mp h
    split at h
    · cases h
    · cases h
      simp
  · simp only [hready, if_false] at h
    have hdone : done = false := by
      split_ifs at h <;> grind [Option.bind_eq_some_iff]
    simp [hdone, hready]

end

def Front.append (rest : List UInt8) : Front → Front
  | message m more => message m (more ++ rest)
  | f => f

theorem front_append (h : front bytes ≠ .short) (rest : List UInt8) :
    front (bytes ++ rest) = (front bytes).append rest := by
  cases bytes with
  | nil => exact absurd rfl h
  | cons type bytes =>
    rw [front] at h
    rw [List.cons_append, front, front]
    cases hread : int32 bytes with
    | none =>
      rw [hread] at h
      exact absurd rfl h
    | some read =>
      obtain ⟨size, body⟩ := read
      rw [hread] at h
      rw [int32_append hread]
      dsimp only at h ⊢
      split
      · rfl
      · rename_i hsize
        rw [if_neg hsize] at h
        have hlen : ¬body.length < size.toNat - 4 := by
          intro hlt
          exact h (if_pos hlt)
        have hmore : ¬(body ++ rest).length < size.toNat - 4 := by
          rw [List.length_append]
          omega
        rw [if_neg hlen, if_neg hmore, List.take_append_of_le_length (by omega),
          List.drop_append_of_le_length (by omega)]
        split <;> rfl

/-- What a turn of `dubna_read` finds in a buffer, by what stands first there. -/
inductive Takes (c : DubnaConn) : Front → Option Taken → Prop
  | incomplete : Takes c .short (some .incomplete)
  | malformed : Takes c .malformed (some .malformed)
  | stopped : Takes c .untyped none
  | message {m : Message} {more : List UInt8} (c' : DubnaConn) : c'.unread = more → c'.tls = c.tls →
      Takes c (.message m more) (some (.message m c'))

theorem front_short (h : bytes.length < 5) : front bytes = .short := by
  cases bytes with
  | nil => rfl
  | cons type bytes =>
    rw [front]
    cases hread : int32 bytes with
    | none => rfl
    | some read =>
      have hlen := (int32_rest hread).2
      rw [List.length_cons] at h
      omega

theorem dubnaTake_takes (c : DubnaConn) : Takes c (front c.unread) (dubnaTake c) := by
  have hinside := c.inside
  have hunread := unread_length c
  by_cases hfield : c.unread.length < 5
  · rw [front_short hfield, dubnaTake_short hfield]
    exact .incomplete
  have hinpos : c.inpos < c.inbuf.length := by omega
  have hcons : c.unread = c.inbuf[c.inpos] :: c.inbuf.drop (c.inpos + 1) := List.drop_eq_getElem_cons hinpos
  obtain ⟨size, hsize⟩ := @int32_isSome (c.inbuf.drop (c.inpos + 1)) (by rw [List.length_drop]; omega)
  rw [List.drop_drop] at hsize
  rw [dubnaTake, if_neg (by omega), dubnaInt32_eq, hsize, hcons, front, hsize]
  simp only [Option.map_some, Option.bind_eq_bind, Option.bind_some, List.length_drop]
  split
  · exact .malformed
  · rename_i hfour
    by_cases hbody : c.inpos + (size.toNat + 1) ≤ c.inbuf.length
    · rw [if_neg (by omega), dif_pos hbody, List.getElem?_eq_getElem hinpos, dubnaVslice, if_pos (by omega)]
      simp only [Option.bind_some]
      split
      · refine .message _ ?_ rfl
        rw [DubnaConn.unread, List.drop_drop]
        have hbehind : c.inpos + 1 + size.toNat = c.inpos + 1 + 4 + (size.toNat - 4) := by omega
        exact congrArg (List.drop · c.inbuf) hbehind
      · exact .stopped
    · rw [if_pos (by omega), dif_neg hbody]
      exact .incomplete

inductive Fills (c : DubnaConn) (later : Receives) : Bool × DubnaConn × Receives → Prop
  | closed (later' : Receives) : arrived c.tls later = [] → Fills c later (false, c, later')
  | more (c' : DubnaConn) (later' : Receives) : c'.stream later' = c.stream later → later'.length < later.length →
      Fills c later (true, c', later')

theorem dubnaFill_fills (c : DubnaConn) (later : Receives) : Fills c later (dubnaFill c later) := by
  induction later with
  | nil => exact .closed [] rfl
  | cons e later ih =>
    cases e with
    | none =>
      rw [dubnaFill]
      split
      · rename_i htls
        have harrived : arrived c.tls (none :: later) = arrived c.tls later := by rw [arrived, if_pos htls]
        generalize dubnaFill c later = filled at ih ⊢
        cases ih with
        | closed later' hnil => exact .closed later' (harrived.trans hnil)
        | more c' later' hstream hlen =>
          refine .more c' later' ?_ (by rw [List.length_cons]; omega)
          rw [hstream, DubnaConn.stream, DubnaConn.stream, harrived]
      · rename_i htls
        exact .closed later (by rw [arrived, if_neg htls])
    | some chunk =>
      rw [dubnaFill]
      split
      · rename_i hempty
        exact .closed later (by rw [arrived, if_pos hempty])
      · rename_i hchunk
        refine .more _ later ?_ (Nat.lt_succ_self _)
        rw [DubnaConn.stream, DubnaConn.stream, unread_put, tls_put, arrived, if_neg hchunk, List.append_assoc]

/-- What `dubna_read` returns, by what stands first in the stream. -/
inductive Reads : Front → Option (Option Message × DubnaConn × Receives) → Prop
  | short (c' : DubnaConn) (later' : Receives) : Reads .short (some (none, c', later'))
  | malformed (c' : DubnaConn) (later' : Receives) : Reads .malformed (some (none, c', later'))
  | stopped : Reads .untyped none
  | message {m : Message} {more : List UInt8} (c' : DubnaConn) (later' : Receives) : c'.stream later' = more →
      Reads (.message m more) (some (some m, c', later'))

theorem dubnaReadLoop_reads (turns : Nat) (c : DubnaConn) (later : Receives) (hturns : later.length < turns) :
    Reads (front (c.stream later)) (dubnaReadLoop turns c later) := by
  induction turns generalizing c later with
  | zero => omega
  | succ turns ih =>
    have htakes := dubnaTake_takes c
    by_cases hshort : front c.unread = .short
    · rw [hshort] at htakes
      generalize htake : dubnaTake c = taken at htakes
      cases htakes
      rw [dubnaReadLoop, htake]
      have hfills := dubnaFill_fills c later
      simp only [Option.bind_eq_bind, Option.bind_some]
      generalize dubnaFill c later = filled at hfills
      cases hfills with
      | closed later' hnil =>
        rw [DubnaConn.stream, hnil, List.append_nil, hshort]
        exact .short _ later'
      | more c' later' hstream hlen =>
        rw [← hstream]
        exact ih c' later' (by omega)
    · rw [DubnaConn.stream, front_append hshort, dubnaReadLoop]
      generalize front c.unread = f at htakes hshort
      generalize dubnaTake c = taken at htakes
      cases htakes with
      | incomplete => exact absurd rfl hshort
      | malformed => exact .malformed c later
      | stopped => exact .stopped
      | message c' hunread htls =>
        refine .message c' later ?_
        rw [DubnaConn.stream, hunread, htls]

theorem front_more {more : List UInt8} (h : front bytes = .message m more) :
    more.length < bytes.length := by
  cases bytes with
  | nil => cases h
  | cons type bytes =>
    rw [front] at h
    cases hread : int32 bytes with
    | none =>
      rw [hread] at h
      cases h
    | some read =>
      obtain ⟨size, body⟩ := read
      obtain ⟨hbody, -⟩ := int32_rest hread
      rw [hread] at h
      dsimp only at h
      split_ifs at h
      cases h
      rw [List.length_drop, hbody, List.length_drop, List.length_cons]
      omega

def Survives (call : Option Reply) (bytes : List UInt8) : Prop :=
  ∃ reply, call = some reply ∧ (¬Answered bytes → reply.1.error ≠ [])

theorem closedError_ne : closedError ≠ [] := by decide

theorem fits_message_iff {more : List UInt8} (hfront : front bytes = .message m more) :
    Fits bytes ↔ m.Whole ∧ (m.type ≠ 90 → Fits more) := by
  constructor
  · intro h
    cases h with
    | cut h | malformed h => cases hfront.symm.trans h
    | ready h hready hwhole =>
      cases hfront.symm.trans h
      exact ⟨hwhole, fun hne => absurd hready hne⟩
    | message h _ hwhole hmore =>
      cases hfront.symm.trans h
      exact ⟨hwhole, fun _ => hmore⟩
  · intro ⟨hwhole, hmore⟩
    by_cases hready : m.type = 90
    · exact .ready hfront hready hwhole
    · exact .message hfront hready hwhole (hmore hready)

theorem not_fits_untyped (hfront : front bytes = .untyped) : ¬Fits bytes := by
  intro h
  cases h with
  | cut h | malformed h | ready h | message h => cases hfront.symm.trans h

theorem answered_message_iff {more : List UInt8} (hfront : front bytes = .message m more) :
    Answered bytes ↔ (m.type ≠ 90 → Answered more) := by
  constructor
  · intro h hne
    cases h with
    | ready h hready =>
      cases hfront.symm.trans h
      exact absurd hready hne
    | message h _ hmore =>
      cases hfront.symm.trans h
      exact hmore
  · intro hmore
    by_cases hready : m.type = 90
    · exact .ready hfront hready
    · exact .message hfront hready (hmore hready)

theorem collectLoop_survives_iff (turns : Nat) (s : Session) (r : DubnaResult) (c : DubnaConn) (later : Receives)
    (hturns : (c.stream later).length < turns) :
    Survives (collectLoop turns s r c later) (c.stream later) ↔ Fits (c.stream later) := by
  induction turns generalizing s r c later with
  | zero => omega
  | succ turns ih =>
    have hreads := dubnaReadLoop_reads (later.length + 1) c later (Nat.lt_succ_self _)
    rw [collectLoop, dubnaRead]
    generalize hfront : front (c.stream later) = f at hreads
    generalize dubnaReadLoop (later.length + 1) c later = read at hreads
    cases hreads with
    | short => exact ⟨fun _ => .cut hfront, fun _ => ⟨_, rfl, fun _ => closedError_ne⟩⟩
    | malformed => exact ⟨fun _ => .malformed hfront, fun _ => ⟨_, rfl, fun _ => closedError_ne⟩⟩
    | stopped =>
      refine ⟨?_, fun h => absurd h (not_fits_untyped hfront)⟩
      intro h
      obtain ⟨_, h, _⟩ := h
      cases h
    | @message m more c' later' hrest =>
      have hless := front_more hfront
      rw [fits_message_iff hfront, ← collectMessage_isSome s r m]
      simp only [Option.bind_eq_bind, Option.bind_some]
      cases hcollect : collectMessage s r m with
      | none => simp [Survives]
      | some next =>
        obtain ⟨done, s', r'⟩ := next
        have hdone := collectMessage_done hcollect
        simp only [Option.bind_some, Option.isSome_some, true_and, Survives, answered_message_iff hfront]
        by_cases hready : m.type = 90
        · rw [if_pos (hdone.mpr hready)]
          simp [hready]
        · rw [if_neg (mt hdone.mp hready)]
          have hmore := ih s' r' c' later' (by rw [hrest]; omega)
          rw [hrest] at hmore
          simp only [ne_eq, hready, not_false_eq_true, forall_const]
          exact hmore

theorem dubnaCollect_survives_iff (s : Session) (c : DubnaConn) (later : Receives) :
    Survives (dubnaCollect s c later) (c.stream later) ↔ Fits (c.stream later) := by
  rw [dubnaCollect]
  exact collectLoop_survives_iff _ s dubnaNewResult c later (Nat.lt_succ_self _)

theorem request_survives_iff (send : List UInt8 → Int) (bytes : List UInt8) (s : Session) (c : DubnaConn)
    (later : Receives) :
    Survives (request send bytes s c later) (c.stream later) ↔ send bytes ≠ 0 ∨ Fits (c.stream later) := by
  rw [request]
  by_cases hsend : send bytes ≠ 0
  · rw [if_pos hsend]
    have herror : ascii "dubna: could not send the query" ≠ [] := by decide
    exact ⟨fun _ => .inl hsend, fun _ => ⟨_, rfl, fun _ => herror⟩⟩
  · rw [if_neg hsend, dubnaCollect_survives_iff]
    exact ⟨.inr, fun h => h.resolve_left hsend⟩

/-- Whatever bytes are in the buffer and arrive later, in chunks of any length: a query, and a
statement whose parameters have a text, returns if and only if it cannot be sent or the bytes fit. -/
theorem queries_survive_iff (send : List UInt8 → Int) (s : Session) (c : DubnaConn) (later : Receives)
    (sql : CString) (params : List UnoValue) :
    (Survives (dubnaQuery send s c later sql) (c.stream later) ↔
      send (dubnaQueryMessage sql) ≠ 0 ∨ Fits (c.stream later)) ∧
    (Survives (dubnaExec send s c later sql params) (c.stream later) ↔
      ∃ bytes, dubnaExecMessages sql params = some bytes ∧ (send bytes ≠ 0 ∨ Fits (c.stream later))) := by
  refine ⟨request_survives_iff send _ s c later, ?_⟩
  rw [dubnaExec]
  cases hbytes : dubnaExecMessages sql params with
  | none =>
    constructor
    · intro h
      obtain ⟨_, h, _⟩ := h
      cases h
    · intro h
      obtain ⟨_, h, _⟩ := h
      cases h
  | some bytes =>
    rw [Option.bind_eq_bind, Option.bind_some, request_survives_iff]
    refine ⟨fun h => ⟨bytes, rfl, h⟩, ?_⟩
    intro h
    obtain ⟨_, heq, h⟩ := h
    cases heq
    exact h

def shortRow : List UInt8 := [68, 0, 0, 0, 6, 0, 1]

theorem shortRow_stops : ¬Survives (dubnaQuery (fun _ => 0) ⟨[], ascii "I", [], []⟩ ⟨false, [], 0, true, by decide⟩
    [some shortRow] ⟨ascii "select 1", by decide +kernel⟩)
    ((⟨false, [], 0, true, by decide⟩ : DubnaConn).stream [some shortRow]) := by
  intro h
  obtain ⟨reply, hreply, _⟩ := h
  have hstops : dubnaQuery (fun _ => 0) ⟨[], ascii "I", [], []⟩ ⟨false, [], 0, true, by decide⟩
      [some shortRow] ⟨ascii "select 1", by decide +kernel⟩ = none := by rfl
  rw [hstops] at hreply
  cases hreply

end Ussr.Dubna
