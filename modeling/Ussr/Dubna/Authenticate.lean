import Ussr.Dubna.Wire
import Ussr.Strings

/-! Base64 and the messages of SCRAM-SHA-256. -/

namespace Ussr.Dubna
open Real64
open Stalin (Text)

def dubnaB64Alphabet : Text :=
  ascii "ABCDEFGHIJKLMNOPQRSTUVWXYZabcdefghijklmnopqrstuvwxyz0123456789+/"

def b64Letter (k : Nat) : UInt8 := dubnaB64Alphabet.getD (k &&& 63) 0

def b64Word (a b c : UInt8) : Nat := a.toNat <<< 16 ||| b.toNat <<< 8 ||| c.toNat

def dubnaBase64 : List UInt8 → Text
  | [] => []
  | [a] => [b64Letter (b64Word a 0 0 >>> 18), b64Letter (b64Word a 0 0 >>> 12), 61, 61]
  | [a, b] =>
    [b64Letter (b64Word a b 0 >>> 18), b64Letter (b64Word a b 0 >>> 12),
      b64Letter (b64Word a b 0 >>> 6), 61]
  | a :: b :: c :: rest =>
    b64Letter (b64Word a b c >>> 18) :: b64Letter (b64Word a b c >>> 12) ::
      b64Letter (b64Word a b c >>> 6) :: b64Letter (b64Word a b c) :: dubnaBase64 rest

/-- `dubna_b64_value`, `none` for -1. -/
def dubnaB64Value (b : UInt8) : Option Nat :=
  if 65 ≤ b.toNat ∧ b.toNat ≤ 90 then some (b.toNat - 65)
  else if 97 ≤ b.toNat ∧ b.toNat ≤ 122 then some (b.toNat - 71)
  else if 48 ≤ b.toNat ∧ b.toNat ≤ 57 then some (b.toNat + 4)
  else if b = 43 then some 62
  else if b = 47 then some 63
  else none

/-- One letter of a group: the bits so far and the number of `=`. -/
def unbase64Letter (v : Nat × Nat) (b : UInt8) : Option (Nat × Nat) :=
  if b = 61 then some (v.1 <<< 6, v.2 + 1)
  else do
    let x ← dubnaB64Value b
    if 0 < v.2 then none else some (v.1 <<< 6 ||| x, v.2)

def dubnaUnbase64 : Text → Option (List UInt8)
  | [] => some []
  | a :: b :: c :: d :: rest => do
    let (w, pad) ← [a, b, c, d].foldlM unbase64Letter (0, 0)
    let later ← dubnaUnbase64 rest
    return UInt8.ofNat (w >>> 16 &&& 255) :: (if pad < 2 then [UInt8.ofNat (w >>> 8 &&& 255)] else []) ++
      (if pad < 1 then [UInt8.ofNat (w &&& 255)] else []) ++ later
  | _ => none

structure Digests where
  sha256 : (data : List UInt8) → List UInt8
  hmac : (key data : List UInt8) → List UInt8
  pbkdf2 : (password : Text) → (salt : List UInt8) → (iterations : Nat) → List UInt8
  md5 : (data : List UInt8) → List UInt8
  length_hmac : ∀ key data, (hmac key data).length = 32

/-- The builtin `pbkdf2_sha256`, which takes an integer from 1 to 10000000. -/
def Digests.pbkdf2Sha256 (digests : Digests) (password : Text) (salt : List UInt8) :
    Number → Option (List UInt8)
  | .integer n =>
    if 1 ≤ n.toInt ∧ n.toInt ≤ 10000000 then some (digests.pbkdf2 password salt n.toInt.toNat) else none
  | .real _ => none

def dubnaScramAttr (text key : Text) : Text :=
  let head := key ++ ascii "="
  match (text.splitOn 44).find? fun part => part.take head.length = head with
  | some part => part.drop head.length
  | none => []

def dubnaScramFirst (user nonce : Text) : Text := ascii "n=" ++ user ++ ascii ",r=" ++ nonce

/-- `dubna_xor`; a shorter second vector would be read outside. -/
def dubnaXor (a b : List UInt8) : Option (List UInt8) :=
  if a.length ≤ b.length then some (List.zipWith (· ^^^ ·) a b) else none

/-- `dubna_scram_final`: the client's final message and the signature to expect; the inner
`none` for `null`. -/
def dubnaScramFinal (digests : Digests) (password clientFirstBare serverFirst : Text) :
    Option (Option (Text × Text)) :=
  let nonce := dubnaScramAttr serverFirst (ascii "r")
  let cnonce := dubnaScramAttr clientFirstBare (ascii "r")
  match dubnaUnbase64 (dubnaScramAttr serverFirst (ascii "s")),
      strToNumber (dubnaScramAttr serverFirst (ascii "i")) with
  | some salt, some iterations =>
    if nonce.length ≤ cnonce.length ∨ nonce.take cnonce.length ≠ cnonce ∨
        iterations.lt (.integer 1) = true then some none
    else do
      let salted ← digests.pbkdf2Sha256 password salt iterations
      let clientKey := digests.hmac salted (ascii "Client Key")
      let storedKey := digests.sha256 clientKey
      let withoutProof := ascii "c=biws,r=" ++ nonce
      let auth := clientFirstBare ++ ascii "," ++ serverFirst ++ ascii "," ++ withoutProof
      let proof ← dubnaXor clientKey (digests.hmac storedKey auth)
      let serverKey := digests.hmac salted (ascii "Server Key")
      return some (withoutProof ++ ascii ",p=" ++ dubnaBase64 proof,
        dubnaBase64 (digests.hmac serverKey auth))
  | _, _ => some none

def dubnaHex (v : List UInt8) : Text :=
  v.flatMap fun b => [(ascii "0123456789abcdef").getD (b.toNat >>> 4) 0,
    (ascii "0123456789abcdef").getD (b.toNat &&& 15) 0]

def dubnaMd5Password (digests : Digests) (user password : Text) (salt : List UInt8) : Text :=
  ascii "md5" ++ dubnaHex (digests.md5 (dubnaHex (digests.md5 (password ++ user)) ++ salt))

/-! The login of the PostgreSQL client: a loop over the messages of the server, which a
server may send in any order. -/

/-- The loop of `dubna_error_text` over the fields of a body; `turns` bounds its length. -/
def errorFields (body : List UInt8) : (turns i : Nat) → (fields : UInt8 → Text) → Option (UInt8 → Text)
  | 0, i, fields => if i < body.length then none else some fields
  | turns + 1, i, fields =>
    if i < body.length then do
      let f ← body[i]?
      if f = 0 then return fields
      let j := dubnaZero body (i + 1)
      let v ← bytesText body (i + 1) ((j : Int) - i - 1)
      let v := v.getD []
      -- The severity: V, or S while it is empty.
      let key := if f = 83 ∧ fields 86 = [] then 86 else f
      errorFields body turns (j + 1) (if f = 83 ∧ fields 86 ≠ [] then fields else
        fun k => if k = key then v else fields k)
    else some fields

/-- `dubna_error_text` without `out`. -/
def dubnaErrorText (body : List UInt8) : Option Text := do
  let fields ← errorFields body body.length 0 fun _ => []
  let r := fields 86 ++ ascii " " ++ fields 67 ++ ascii ": " ++ fields 77
  return if fields 68 = [] then r else r ++ ascii " (" ++ fields 68 ++ ascii ")"

inductive Answer where
  | password (text : Text)
  | initial (nonce : Text)
  | final (text : Text)
deriving DecidableEq

/-- The bytes of an answer, as `dubna_send` gets them. -/
def Answer.bytes : Answer → List UInt8
  | password text => dubnaMessage (ascii "p") (dubnaPutCstr text)
  | initial nonce =>
    let first := ascii "n,," ++ dubnaScramFirst [] nonce
    dubnaMessage (ascii "p") (dubnaPutCstr (ascii "SCRAM-SHA-256") ++ dubnaPutInt32 first.length ++ first)
  | final text => dubnaMessage (ascii "p") text

abbrev Round := Message × Option Answer

/-- The variables of `dubna_authenticate`, the number of nonces drawn, and the rounds so far. -/
structure Login where
  expect : Text
  clientFirst : Text
  drawn : Nat
  log : List Round

def offersScram (body : List UInt8) : (turns i : Nat) → (found : Bool) → Option Bool
  | 0, i, found => if i < body.length then none else some found
  | turns + 1, i, found =>
    if i < body.length then do
      let j := dubnaZero body i
      if j = i then return found
      let mech ← bytesText body i ((j : Int) - i)
      offersScram body turns (j + 1) (found || mech = some (ascii "SCRAM-SHA-256"))
    else some found

/-- The bytes behind the code, as text; `dubna_scram_attr` stops on `null`. -/
def saslText (m : Message) : Option Text := do
  let text ← bytesText m.body 4 ((m.body.length : Int) - 4)
  text

structure Client where
  user : Text
  password : Text
  digests : Digests
  draw : (k : Nat) → List UInt8
  length_draw : ∀ k, (draw k).length = 18

def Client.dubnaNonce (client : Client) (k : Nat) : Text := dubnaBase64 (client.draw k)

inductive Turn where
  | next (answer : Option Answer) (v : Login)
  | returns (r : Text)

def authCode (m : Message) : Option Int := if m.type = 82 then dubnaInt32 m.body 0 else none

def needsPassword : Text := ascii "dubna: the server wants a password and none was given"

def answerTo (client : Client) (v : Login) (m : Message) (code : Int) : Option Turn :=
  if code = 3 then some (.next (some (.password client.password)) v)
  else if code = 5 then do
    let salt ← dubnaVslice m.body 4 4
    return .next (some (.password (dubnaMd5Password client.digests client.user client.password salt))) v
  else if code = 10 then do
    let found ← offersScram m.body m.body.length 4 false
    if !found then
      return .returns (ascii
        "dubna: the server offers no SASL mechanism Dubna knows (it speaks SCRAM-SHA-256)")
    let nonce := client.dubnaNonce v.drawn
    return .next (some (.initial nonce))
      { v with clientFirst := dubnaScramFirst [] nonce, drawn := v.drawn + 1 }
  else if code = 11 then do
    let serverFirst ← saslText m
    match ← dubnaScramFinal client.digests client.password v.clientFirst serverFirst with
    | none => return .returns (ascii "dubna: the server's SCRAM message is malformed")
    | some (clientFinal, signature) =>
      return .next (some (.final clientFinal)) { v with expect := signature }
  else if code = 12 then do
    let serverFinal ← saslText m
    if v.expect = [] ∨ dubnaScramAttr serverFinal (ascii "v") ≠ v.expect then
      return .returns (ascii
        "dubna: the server's SCRAM signature is wrong; it does not know the password")
    return .next none { v with expect := [] }
  else
    some (.returns (ascii "dubna: unsupported authentication method " ++ strFromInt (BitVec.ofInt 64 code) ++
      ascii " (Dubna speaks trust, password, md5 and SCRAM-SHA-256)"))

/-- One turn of the loop of `dubna_authenticate`, with a message. -/
def authenticateTurn (client : Client) (v : Login) (m : Message) : Option Turn :=
  if m.type = 69 then do
    let text ← dubnaErrorText m.body
    return .returns (ascii "dubna: " ++ text)
  else if m.type ≠ 82 then
    some (.returns (ascii "dubna: unexpected message " ++ [m.type] ++ ascii " during login"))
  else do
    let code ← dubnaInt32 m.body 0
    if code = 0 then
      return .returns (if v.expect = [] then [] else ascii "dubna: the server skipped its SCRAM signature")
    if (code = 3 ∨ code = 5 ∨ code = 10) ∧ client.password = [] then return .returns needsPassword
    answerTo client v m code

/-- The rounds of a login and what it returned, `none` after a run-time error. -/
structure Outcome where
  log : List Round
  result : Option Text

/-- `dubna_authenticate` on the messages that `dubna_read` returns. -/
def dubnaAuthenticate (client : Client) (v : Login) : List Message → Outcome
  | [] => ⟨v.log, some (ascii "dubna: the server closed the connection during login")⟩
  | m :: ms =>
    match authenticateTurn client v m with
    | none => ⟨v.log ++ [(m, none)], none⟩
    | some (.returns r) => ⟨v.log ++ [(m, none)], some r⟩
    | some (.next answer v) => dubnaAuthenticate client { v with log := v.log ++ [(m, answer)] } ms

def Login.start : Login := ⟨[], [], 0, []⟩

end Ussr.Dubna
