import Ussr.Dubna.Authenticate

/-! Whether a login proves that the server knows the password. -/

namespace Ussr.Dubna
open Real64
open Stalin (Text)

section

variable (client : Client)

def nonces (log : List Round) : List Text :=
  log.filterMap fun e => match e.2 with
    | some (.initial nonce) => some nonce
    | _ => none

def lastNonce (log : List Round) : Option Text := (nonces log).getLast?

def isInitial (e : Round) : Prop := ∃ nonce, e.2 = some (.initial nonce)

def isFinal (e : Round) : Prop := ∃ text, e.2 = some (.final text)

def IsServerSignature (nonce serverFirst : Text) (signature : List UInt8) : Prop :=
  ∃ salt iterations, dubnaUnbase64 (dubnaScramAttr serverFirst (ascii "s")) = some salt ∧
    strToNumber (dubnaScramAttr serverFirst (ascii "i")) = some (.integer iterations) ∧
    signature = client.digests.hmac
      (client.digests.hmac (client.digests.pbkdf2 client.password salt iterations.toInt.toNat)
        (ascii "Server Key"))
      (ascii "n=,r=" ++ nonce ++ ascii "," ++ serverFirst ++ ascii "," ++
        (ascii "c=biws,r=" ++ dubnaScramAttr serverFirst (ascii "r")))

/-- A client-final message, and after it the server's final message with its signature, before
the last message. -/
def Verified (log : List Round) : Prop :=
  ∃ a m text b m' answer c ok nonce serverFirst serverFinal signature,
    log = a ++ (m, some (.final text)) :: b ++ (m', answer) :: c ++ [ok] ∧
    lastNonce a = some nonce ∧ saslText m = some serverFirst ∧
    IsServerSignature client nonce serverFirst signature ∧
    authCode m' = some 12 ∧ saslText m' = some serverFinal ∧
    dubnaScramAttr serverFinal (ascii "v") = dubnaBase64 signature

def Extended (log : List Round) : Prop :=
  ∀ a m text b, log = a ++ (m, some (.final text)) :: b →
    ∃ nonce serverFirst, lastNonce a = some nonce ∧ saslText m = some serverFirst ∧
      nonce <+: dubnaScramAttr serverFirst (ascii "r") ∧
      nonce.length < (dubnaScramAttr serverFirst (ascii "r")).length

structure AuthenticatesServer (o : Outcome) : Prop where
  extended : Extended o.log
  verified : o.result = some [] → (∃ e ∈ o.log, isInitial e ∨ isFinal e) → Verified client o.log

def RefusedUnasked (m : Message) : Prop :=
  ∀ serverFirst answer, saslText m = some serverFirst →
    dubnaScramFinal client.digests client.password [] serverFirst ≠ some (some answer)

def Offered (ms : List Message) : Prop :=
  ∀ a m b, ms = a ++ m :: b → authCode m = some 11 →
    (∃ x ∈ a, authCode x = some 10) ∨ RefusedUnasked client m

def Continued (ms : List Message) : Prop :=
  ∀ a m, ms = a ++ [m] → authCode m = some 0 → (∃ x ∈ a, authCode x = some 10) →
    ∃ y ∈ a, authCode y = some 11

end

theorem comma_notMem_b64Alphabet : 44 ∉ dubnaB64Alphabet := by
  intro h
  unfold dubnaB64Alphabet at h
  exact absurd (mem_ascii_ofList h) (by decide +kernel)

theorem b64Letter_ne_comma (k : Nat) : b64Letter k ≠ 44 := by
  intro hcomma
  rw [b64Letter, List.getD_eq_getElem?_getD] at hcomma
  cases hletter : dubnaB64Alphabet[k &&& 63]? with
  | none =>
    rw [hletter] at hcomma
    exact absurd hcomma (by decide)
  | some b =>
    rw [hletter, Option.getD_some] at hcomma
    exact comma_notMem_b64Alphabet (hcomma ▸ List.mem_of_getElem? hletter)

theorem comma_notMem_base64 (v : List UInt8) : 44 ∉ dubnaBase64 v := by
  have hletter := fun k => (b64Letter_ne_comma k).symm
  induction v using dubnaBase64.induct with
  | case1 => simp [dubnaBase64]
  | case2 a => simp [dubnaBase64, hletter]
  | case3 a b => simp [dubnaBase64, hletter]
  | case4 a b c rest ih => simp [dubnaBase64, hletter, ih]

theorem base64_ne_nil {v : List UInt8} (h : v ≠ []) : dubnaBase64 v ≠ [] := by
  match v, h with
  | [a], _ => simp [dubnaBase64]
  | [a, b], _ => simp [dubnaBase64]
  | a :: b :: c :: rest, _ => simp [dubnaBase64]

theorem dubnaScramAttr_first {nonce : Text} (h : 44 ∉ nonce) :
    dubnaScramAttr (dubnaScramFirst [] nonce) (ascii "r") = nonce := by
  have hfirst : dubnaScramFirst [] nonce = ascii "n=" ++ 44 :: (ascii "r=" ++ nonce) := by
    simp only [dubnaScramFirst, List.append_nil]
    rfl
  have hlast : 44 ∉ ascii "r=" ++ nonce := by
    rw [List.mem_append, not_or]
    exact ⟨by decide +kernel, h⟩
  have hparts : (dubnaScramFirst [] nonce).splitOn 44 = [ascii "n=", ascii "r=" ++ nonce] := by
    rw [hfirst, List.splitOn_append_cons_self_of_not_mem (by decide +kernel),
      List.splitOn_eq_singleton hlast]
  unfold dubnaScramAttr
  rw [hparts]
  rfl

section

variable {client : Client} {first serverFirst text signature : Text}

theorem dubnaScramFinal_spec
    (h : dubnaScramFinal client.digests client.password first serverFirst =
      some (some (text, signature))) :
    (dubnaScramAttr first (ascii "r")).length < (dubnaScramAttr serverFirst (ascii "r")).length ∧
    dubnaScramAttr first (ascii "r") <+: dubnaScramAttr serverFirst (ascii "r") ∧
    ∃ salt iterations, dubnaUnbase64 (dubnaScramAttr serverFirst (ascii "s")) = some salt ∧
      strToNumber (dubnaScramAttr serverFirst (ascii "i")) = some (.integer iterations) ∧
      signature = dubnaBase64 (client.digests.hmac
        (client.digests.hmac (client.digests.pbkdf2 client.password salt iterations.toInt.toNat)
          (ascii "Server Key"))
        (first ++ ascii "," ++ serverFirst ++ ascii "," ++
          (ascii "c=biws,r=" ++ dubnaScramAttr serverFirst (ascii "r")))) := by
  unfold dubnaScramFinal at h
  dsimp only at h
  split at h
  · rename_i salt iterations hsalt hiterations
    split at h
    · cases h
    · rename_i hgood
      simp only [not_or, not_le, not_not] at hgood
      obtain ⟨hlength, hprefix, -⟩ := hgood
      refine ⟨hlength, ?_, ?_⟩
      · rw [← hprefix]
        exact List.take_prefix _ _
      · cases iterations with
        | real x => cases h
        | integer n =>
          refine ⟨salt, n, hsalt, hiterations, ?_⟩
          unfold Digests.pbkdf2Sha256 at h
          dsimp only at h
          split at h
          · simp only [Option.bind_eq_bind, Option.bind_some, Option.bind_eq_some_iff] at h
            obtain ⟨proof, -, h⟩ := h
            exact (Prod.mk.inj (Option.some.inj (Option.some.inj h))).2.symm
          · cases h
  · cases h

theorem signature_ne_nil
    (h : dubnaScramFinal client.digests client.password first serverFirst =
      some (some (text, signature))) : signature ≠ [] := by
  obtain ⟨-, -, salt, iterations, -, -, rfl⟩ := dubnaScramFinal_spec h
  refine base64_ne_nil fun hnil => ?_
  have hlength := client.digests.length_hmac
    (client.digests.hmac (client.digests.pbkdf2 client.password salt iterations.toInt.toNat)
      (ascii "Server Key"))
    (first ++ ascii "," ++ serverFirst ++ ascii "," ++
      (ascii "c=biws,r=" ++ dubnaScramAttr serverFirst (ascii "r")))
  rw [hnil] at hlength
  cases hlength

def clientFirstOf (log : List Round) : Text :=
  match lastNonce log with
  | some nonce => dubnaScramFirst [] nonce
  | none => []

def Answers (client : Client) (a : List Round) (m : Message) (text signature : Text) : Prop :=
  ∃ serverFirst, saslText m = some serverFirst ∧
    dubnaScramFinal client.digests client.password (clientFirstOf a) serverFirst =
      some (some (text, signature))

end

section

variable {client : Client} {v v' : Login} {m : Message} {answer : Option Answer}

theorem turn_cases (h : authenticateTurn client v m = some (.next answer v')) :
    (∃ code text, authCode m = some code ∧ code ≠ 0 ∧ code ≠ 10 ∧ code ≠ 11 ∧ answer = some (.password text) ∧
      v' = v) ∨
    (authCode m = some 10 ∧ answer = some (.initial (client.dubnaNonce v.drawn)) ∧
      v' = { v with
        clientFirst := dubnaScramFirst [] (client.dubnaNonce v.drawn), drawn := v.drawn + 1 }) ∨
    (authCode m = some 11 ∧ ∃ serverFirst text signature, saslText m = some serverFirst ∧
      dubnaScramFinal client.digests client.password v.clientFirst serverFirst =
        some (some (text, signature)) ∧
      answer = some (.final text) ∧ v' = { v with expect := signature }) ∨
    (authCode m = some 12 ∧ v.expect ≠ [] ∧ (∃ serverFinal, saslText m = some serverFinal ∧
      dubnaScramAttr serverFinal (ascii "v") = v.expect) ∧
      answer = none ∧ v' = { v with expect := [] }) := by
  unfold authenticateTurn at h
  split at h
  · simp only [Option.bind_eq_bind, Option.bind_eq_some_iff] at h
    obtain ⟨_, -, h⟩ := h
    cases h
  split at h
  · cases h
  rename_i hrequest
  simp only [Option.bind_eq_bind, Option.bind_eq_some_iff] at h
  obtain ⟨code, hcode, h⟩ := h
  have hauth : authCode m = some code := by rw [authCode, if_pos (not_not.mp hrequest), hcode]
  split at h
  · cases h
  split at h
  · cases h
  unfold answerTo at h
  split at h
  · rename_i h3
    cases h
    exact .inl ⟨code, client.password, hauth, by omega, by omega, by omega, rfl, rfl⟩
  split at h
  · rename_i h5
    simp only [Option.bind_eq_bind, Option.bind_eq_some_iff] at h
    obtain ⟨salt, -, h⟩ := h
    cases h
    exact .inl ⟨code, _, hauth, by omega, by omega, by omega, rfl, rfl⟩
  split at h
  · rename_i h10
    simp only [Option.bind_eq_bind, Option.bind_eq_some_iff] at h
    obtain ⟨found, -, h⟩ := h
    split at h
    · cases h
    · cases h
      exact .inr (.inl ⟨h10 ▸ hauth, rfl, rfl⟩)
  split at h
  · rename_i h11
    simp only [Option.bind_eq_bind, Option.bind_eq_some_iff] at h
    obtain ⟨serverFirst, hserver, final, hfinal, h⟩ := h
    cases final with
    | none => cases h
    | some final =>
      cases h
      exact .inr (.inr (.inl ⟨h11 ▸ hauth, serverFirst, final.1, final.2, hserver, hfinal, rfl, rfl⟩))
  split at h
  · rename_i h12
    simp only [Option.bind_eq_bind, Option.bind_eq_some_iff] at h
    obtain ⟨serverFinal, hserver, h⟩ := h
    split at h
    · cases h
    · rename_i hsigned
      rw [not_or, not_not] at hsigned
      cases h
      exact .inr (.inr (.inr ⟨h12 ▸ hauth, hsigned.1, ⟨serverFinal, hserver, hsigned.2⟩, rfl, rfl⟩))
  · cases h

theorem turn_log (h : authenticateTurn client v m = some (.next answer v')) : v'.log = v.log := by
  obtain ⟨_, _, -, -, -, -, -, rfl⟩ | ⟨-, -, rfl⟩ | ⟨-, _, _, _, -, -, -, rfl⟩ | ⟨-, -, -, -, rfl⟩ :=
    turn_cases h <;> rfl

end

theorem snoc_eq_append_cons {α : Type} {l a b : List α} {x y : α} (h : l ++ [x] = a ++ y :: b) :
    (b = [] ∧ l = a ∧ x = y) ∨ ∃ b', b = b' ++ [x] ∧ l = a ++ y :: b' := by
  obtain rfl | ⟨b', z, rfl⟩ := List.eq_nil_or_concat b
  · obtain ⟨hl, hx⟩ := List.append_inj' h rfl
    exact .inl ⟨rfl, hl, List.head_eq_of_cons_eq hx⟩
  · rw [List.concat_eq_append, ← List.cons_append, ← List.append_assoc] at h
    obtain ⟨hl, hx⟩ := List.append_inj' h rfl
    refine .inr ⟨b', ?_, hl⟩
    rw [List.concat_eq_append, List.head_eq_of_cons_eq hx]

theorem lastNonce_initial (log : List Round) (m : Message) (nonce : Text) :
    lastNonce (log ++ [(m, some (.initial nonce))]) = some nonce := by
  simp [lastNonce, nonces]

theorem nonces_other {log : List Round} {e : Round} (h : ¬isInitial e) :
    nonces (log ++ [e]) = nonces log := by
  obtain ⟨m, answer⟩ := e
  rw [nonces, List.filterMap_append]
  match answer with
  | none => exact List.append_nil _
  | some (.password _) => exact List.append_nil _
  | some (.final _) => exact List.append_nil _
  | some (.initial nonce) => exact absurd ⟨nonce, rfl⟩ h

theorem clientFirstOf_initial (log : List Round) (m : Message) (nonce : Text) :
    clientFirstOf (log ++ [(m, some (.initial nonce))]) = dubnaScramFirst [] nonce := by
  rw [clientFirstOf, lastNonce_initial]

theorem clientFirstOf_other {log : List Round} {e : Round} (h : ¬isInitial e) :
    clientFirstOf (log ++ [e]) = clientFirstOf log := by
  rw [clientFirstOf, clientFirstOf, lastNonce, lastNonce, nonces_other h]

theorem lastNonce_isSome {log : List Round} {e : Round} (he : e ∈ log) (h : isInitial e) :
    ∃ nonce, lastNonce log = some nonce := by
  obtain ⟨nonce, hnonce⟩ := h
  have hmem : nonce ∈ nonces log := List.mem_filterMap.mpr ⟨e, he, by rw [hnonce]⟩
  rw [lastNonce]
  cases hlast : (nonces log).getLast? with
  | none =>
    rw [List.getLast?_eq_none_iff] at hlast
    rw [hlast] at hmem
    exact absurd hmem List.not_mem_nil
  | some last => exact ⟨last, rfl⟩

theorem isInitial_of_lastNonce {log : List Round} {nonce : Text} (h : lastNonce log = some nonce) :
    ∃ e ∈ log, isInitial e := by
  obtain ⟨e, he, hnonce⟩ := List.mem_filterMap.mp (List.mem_of_getLast? h)
  refine ⟨e, he, ?_⟩
  split at hnonce
  · exact ⟨_, ‹_›⟩
  · cases hnonce

section

variable {client : Client} {v v' : Login} {m : Message} {answer : Option Answer}

def Settled (client : Client) (log : List Round) : Prop :=
  ∃ a m text b m' answer c serverFinal signature,
    log = a ++ (m, some (.final text)) :: b ++ (m', answer) :: c ∧
    Answers client a m text signature ∧ authCode m' = some 12 ∧ saslText m' = some serverFinal ∧
    dubnaScramAttr serverFinal (ascii "v") = signature

theorem Settled.snoc {log : List Round} (h : Settled client log) (e : Round) :
    Settled client (log ++ [e]) := by
  obtain ⟨a, m, text, b, m', answer, c, serverFinal, signature, rfl, hrest⟩ := h
  exact ⟨a, m, text, b, m', answer, c ++ [e], serverFinal, signature, by simp, hrest⟩

structure Login.Valid (client : Client) (v : Login) : Prop where
  initials : ∀ e ∈ v.log, authCode e.1 = some 10 ↔ isInitial e
  finals : ∀ e ∈ v.log, authCode e.1 = some 11 ↔ isFinal e
  first : v.clientFirst = clientFirstOf v.log
  nonces : ∀ nonce ∈ nonces v.log, nonce ≠ [] ∧ 44 ∉ nonce
  unfinished : ∀ e ∈ v.log, authCode e.1 ≠ some 0
  answered : ∀ a m text b, v.log = a ++ (m, some (.final text)) :: b →
    ∃ signature, Answers client a m text signature
  pending : v.expect ≠ [] → ∃ a m text b, v.log = a ++ (m, some (.final text)) :: b ∧
    Answers client a m text v.expect
  settled : v.expect = [] → (∃ e ∈ v.log, isFinal e) → Settled client v.log

theorem Login.start_valid (client : Client) : Login.start.Valid client where
  initials := fun _ h => absurd h List.not_mem_nil
  finals := fun _ h => absurd h List.not_mem_nil
  first := rfl
  nonces := fun _ h => absurd h List.not_mem_nil
  unfinished := fun _ h => absurd h List.not_mem_nil
  answered := fun a _ _ _ h =>
    absurd h.symm (List.append_ne_nil_of_right_ne_nil a (List.cons_ne_nil _ _))
  pending := fun h => absurd rfl h
  settled := fun _ ⟨_, h, _⟩ => absurd h List.not_mem_nil

theorem turn_kinds (h : authenticateTurn client v m = some (.next answer v')) :
    (authCode m = some 10 ↔ isInitial (m, answer)) ∧ (authCode m = some 11 ↔ isFinal (m, answer)) := by
  obtain ⟨code, text, hcode, -, h10, h11, rfl, -⟩ | ⟨hcode, rfl, -⟩ | ⟨hcode, s, t, g, -, -, rfl, -⟩ |
    ⟨hcode, -, -, rfl, -⟩ := turn_cases h
  all_goals simp_all [isInitial, isFinal]

theorem dubnaNonce_good (client : Client) (k : Nat) :
    client.dubnaNonce k ≠ [] ∧ 44 ∉ client.dubnaNonce k := by
  refine ⟨base64_ne_nil fun hnil => ?_, comma_notMem_base64 _⟩
  have hlength := client.length_draw k
  rw [hnil] at hlength
  cases hlength

theorem Login.Valid.turn (hv : v.Valid client)
    (h : authenticateTurn client v m = some (.next answer v')) :
    ({ v' with log := v'.log ++ [(m, answer)] } : Login).Valid client := by
  obtain ⟨hinitial, hfinal⟩ := turn_kinds h
  have hlog : v'.log = v.log := turn_log h
  constructor <;> dsimp only <;> rw [hlog]
  · intro e he
    obtain he | he := List.mem_append.mp he
    · exact hv.initials e he
    · rw [List.mem_singleton.mp he]
      exact hinitial
  · intro e he
    obtain he | he := List.mem_append.mp he
    · exact hv.finals e he
    · rw [List.mem_singleton.mp he]
      exact hfinal
  · obtain ⟨code, text, hcode, -, h10, -, -, rfl⟩ | ⟨-, rfl, rfl⟩ | ⟨hcode, _, _, _, -, -, -, rfl⟩ |
      ⟨hcode, -, -, -, rfl⟩ := turn_cases h
    · rw [clientFirstOf_other (by rw [← hinitial, hcode]; simpa using h10)]
      exact hv.first
    · rw [clientFirstOf_initial]
    · rw [clientFirstOf_other (by rw [← hinitial, hcode]; simp)]
      exact hv.first
    · rw [clientFirstOf_other (by rw [← hinitial, hcode]; simp)]
      exact hv.first
  · intro nonce hnonce
    by_cases hi : isInitial (m, answer)
    · rw [Dubna.nonces, List.filterMap_append, List.mem_append] at hnonce
      obtain hnonce | hnonce := hnonce
      · exact hv.nonces nonce hnonce
      · obtain ⟨_, _, hcode, -, h10, -⟩ | ⟨-, rfl, -⟩ | ⟨hcode, -⟩ | ⟨hcode, -⟩ := turn_cases h
        · rw [hcode] at hinitial
          exact absurd (Option.some.inj (hinitial.mpr hi)) h10
        · obtain rfl := List.mem_singleton.mp hnonce
          exact dubnaNonce_good client v.drawn
        · rw [hcode] at hinitial
          exact absurd (hinitial.mpr hi) (by simp)
        · rw [hcode] at hinitial
          exact absurd (hinitial.mpr hi) (by simp)
    · rw [nonces_other hi] at hnonce
      exact hv.nonces nonce hnonce
  · intro e he
    obtain he | he := List.mem_append.mp he
    · exact hv.unfinished e he
    · rw [List.mem_singleton.mp he]
      obtain ⟨_, _, hcode, h0, -⟩ | ⟨hcode, -⟩ | ⟨hcode, -⟩ | ⟨hcode, -⟩ := turn_cases h
      · dsimp only
        rw [hcode]
        simpa using h0
      all_goals simp [hcode]
  · intro a m₁ text b hsplit
    obtain ⟨-, rfl, hlast⟩ | ⟨b', -, hold⟩ := snoc_eq_append_cons hsplit
    · obtain ⟨rfl, hanswer⟩ := Prod.mk.inj hlast
      have hcode := hfinal.mpr ⟨text, hanswer⟩
      obtain ⟨_, _, hother, -, -, h11, -⟩ | ⟨hother, -⟩ |
        ⟨-, serverFirst, t, signature, hserver, hscram, heq, -⟩ | ⟨hother, -⟩ := turn_cases h
      · rw [hcode] at hother
        exact absurd (Option.some.inj hother).symm h11
      · rw [hcode] at hother
        cases hother
      · rw [heq] at hanswer
        cases hanswer
        rw [hv.first] at hscram
        exact ⟨signature, serverFirst, hserver, hscram⟩
      · rw [hcode] at hother
        cases hother
    · exact hv.answered a m₁ text b' hold
  · intro hexpect
    have hextend : v'.expect = v.expect → ∃ a m₁ text b,
        v.log ++ [(m, answer)] = a ++ (m₁, some (.final text)) :: b ∧
          Answers client a m₁ text v'.expect := by
      intro heq
      rw [heq] at hexpect ⊢
      obtain ⟨a, m₁, text, b, hold, hanswers⟩ := hv.pending hexpect
      exact ⟨a, m₁, text, b ++ [(m, answer)], by simp [hold], hanswers⟩
    obtain ⟨_, _, -, -, -, -, -, rfl⟩ | ⟨-, -, rfl⟩ |
      ⟨-, serverFirst, text, signature, hserver, hscram, rfl, rfl⟩ | ⟨-, -, -, -, rfl⟩ := turn_cases h
    · exact hextend rfl
    · exact hextend rfl
    · rw [hv.first] at hscram
      exact ⟨v.log, m, text, [], rfl, serverFirst, hserver, hscram⟩
    · exact absurd rfl hexpect
  · rintro hexpect ⟨e, he, hisFinal⟩
    have hextend : v'.expect = v.expect → ¬isFinal (m, answer) →
        Settled client (v.log ++ [(m, answer)]) := by
      intro heq hnot
      obtain he | he := List.mem_append.mp he
      · exact (hv.settled (heq ▸ hexpect) ⟨e, he, hisFinal⟩).snoc _
      · rw [List.mem_singleton.mp he] at hisFinal
        exact absurd hisFinal hnot
    obtain ⟨_, _, hcode, -, -, h11, -, rfl⟩ | ⟨hcode, -, rfl⟩ | ⟨-, _, _, _, -, hscram, -, rfl⟩ |
      ⟨hcode, hpending, ⟨serverFinal, hserver, hsigned⟩, rfl, rfl⟩ := turn_cases h
    · exact hextend rfl (by rw [← hfinal, hcode]; simpa using h11)
    · exact hextend rfl (by rw [← hfinal, hcode]; simp)
    · exact absurd hexpect (signature_ne_nil hscram)
    · obtain ⟨a, m₁, text, b, hold, hanswers⟩ := hv.pending hpending
      exact ⟨a, m₁, text, b, m, none, [], serverFinal, v.expect, by simp [hold], hanswers, hcode,
        hserver, hsigned⟩

end

section

variable {client : Client} {v : Login} {m : Message}

theorem dubnaAuthenticate_cases (hv : v.Valid client) (ms : List Message) :
    ∃ v' : Login, v'.Valid client ∧
      ((dubnaAuthenticate client v ms).log = v'.log ∧ (dubnaAuthenticate client v ms).result ≠ some [] ∨
        ∃ m, (dubnaAuthenticate client v ms).log = v'.log ++ [(m, none)] ∧
          (∀ answer v'', authenticateTurn client v' m ≠ some (.next answer v'')) ∧
          ((dubnaAuthenticate client v ms).result = some [] ↔
            authenticateTurn client v' m = some (.returns []))) := by
  induction ms generalizing v with
  | nil => exact ⟨v, hv, .inl ⟨rfl, fun h => absurd (Option.some.inj h) (by decide +kernel)⟩⟩
  | cons m ms ih =>
    cases hturn : authenticateTurn client v m with
    | none =>
      have heq : dubnaAuthenticate client v (m :: ms) = ⟨v.log ++ [(m, none)], none⟩ := by
        rw [dubnaAuthenticate, hturn]
      rw [heq]
      exact ⟨v, hv, .inr ⟨m, rfl, by simp [hturn], by simp [hturn]⟩⟩
    | some turn =>
      cases turn with
      | returns r =>
        have heq : dubnaAuthenticate client v (m :: ms) = ⟨v.log ++ [(m, none)], some r⟩ := by
          rw [dubnaAuthenticate, hturn]
        rw [heq]
        exact ⟨v, hv, .inr ⟨m, rfl, by simp [hturn], by simp [hturn]⟩⟩
      | next answer v' =>
        have heq : dubnaAuthenticate client v (m :: ms) =
            dubnaAuthenticate client { v' with log := v'.log ++ [(m, answer)] } ms := by
          rw [dubnaAuthenticate, hturn]
        rw [heq]
        exact ih (hv.turn hturn)

theorem turn_ok (hcode : authCode m = some 0) :
    ∃ r, authenticateTurn client v m = some (.returns r) ∧ (r = [] ↔ v.expect = []) := by
  unfold authCode at hcode
  split at hcode
  · rename_i htype
    refine ⟨if v.expect = [] then [] else ascii "dubna: the server skipped its SCRAM signature", ?_, ?_⟩
    · unfold authenticateTurn
      rw [if_neg (by rw [htype]; decide), if_neg (not_not.mpr htype), hcode]
      rfl
    · split
      · simp [*]
      · rename_i h
        exact iff_of_false (by decide +kernel) h
  · cases hcode

theorem returns_message {text : Text} (htext : text ≠ []) : ¬some (Turn.returns text) = some (.returns []) :=
  fun h => htext (Turn.returns.inj (Option.some.inj h))

theorem answerTo_fails {code : Int} : ¬answerTo client v m code = some (.returns []) := by
  intro h
  unfold answerTo at h
  split at h
  · cases h
  split at h
  · obtain ⟨_, -, h⟩ := Option.bind_eq_some_iff.mp h
    cases h
  split at h
  · obtain ⟨_, -, h⟩ := Option.bind_eq_some_iff.mp h
    split at h
    · exact returns_message (ascii_ofList_ne_nil (by decide)) h
    · cases h
  split at h
  · obtain ⟨_, -, h⟩ := Option.bind_eq_some_iff.mp h
    obtain ⟨final, -, h⟩ := Option.bind_eq_some_iff.mp h
    cases final with
    | none => exact returns_message (ascii_ofList_ne_nil (by decide)) h
    | some final => cases h
  split at h
  · obtain ⟨_, -, h⟩ := Option.bind_eq_some_iff.mp h
    split at h
    · exact returns_message (ascii_ofList_ne_nil (by decide)) h
    · cases h
  · have hfirst : ascii "dubna: unsupported authentication method " ≠ [] := ascii_ofList_ne_nil (by decide)
    refine returns_message (fun hnil => hfirst ?_) h
    exact (List.append_eq_nil_iff.mp (List.append_eq_nil_iff.mp hnil).1).1

theorem turn_success (h : authenticateTurn client v m = some (.returns [])) : authCode m = some 0 := by
  unfold authenticateTurn at h
  split at h
  · obtain ⟨_, -, h⟩ := Option.bind_eq_some_iff.mp h
    have hfirst : ascii "dubna: " ≠ [] := ascii_ofList_ne_nil (by decide)
    exact absurd h (returns_message fun hnil => hfirst (List.append_eq_nil_iff.mp hnil).1)
  split at h
  · have hfirst : ascii "dubna: unexpected message " ≠ [] := ascii_ofList_ne_nil (by decide)
    refine absurd h (returns_message fun hnil => hfirst ?_)
    exact (List.append_eq_nil_iff.mp (List.append_eq_nil_iff.mp hnil).1).1
  rename_i hrequest
  obtain ⟨code, hcode, h⟩ := Option.bind_eq_some_iff.mp h
  have hauth : authCode m = some code := by rw [authCode, if_pos (not_not.mp hrequest), hcode]
  split at h
  · rename_i h0
    rw [hauth, h0]
  split at h
  · exact absurd h (returns_message (ascii_ofList_ne_nil (by decide)))
  · exact absurd h answerTo_fails

theorem turn_answered {serverFirst text signature : Text} (hcode : authCode m = some 11)
    (hserver : saslText m = some serverFirst)
    (hfinal : dubnaScramFinal client.digests client.password v.clientFirst serverFirst =
      some (some (text, signature))) :
    authenticateTurn client v m = some (.next (some (.final text)) { v with expect := signature }) := by
  unfold authCode at hcode
  split at hcode
  · rename_i htype
    unfold authenticateTurn
    rw [if_neg (by rw [htype]; decide), if_neg (not_not.mpr htype), hcode]
    simp only [Option.bind_eq_bind, Option.bind_some]
    rw [if_neg (by decide), if_neg (by omega), answerTo, if_neg (by decide), if_neg (by decide),
      if_neg (by decide), if_pos rfl]
    simp only [hserver, hfinal, Option.bind_eq_bind, Option.bind_some]
    rfl
  · cases hcode

end

section

def eager : Client where
  user := ascii "u"
  password := ascii "p"
  digests :=
    { sha256 := fun _ => List.replicate 32 0
      hmac := fun _ _ => List.replicate 32 0
      pbkdf2 := fun _ _ _ => List.replicate 32 0
      md5 := fun _ => List.replicate 16 0
      length_hmac := fun _ _ => rfl }
  draw := fun _ => List.replicate 18 1
  length_draw := fun _ => rfl

def offer : Message := ⟨82, [0, 0, 0, 10] ++ ascii "SCRAM-SHA-256" ++ [0, 0], by decide⟩

def accepted : Message := ⟨82, [0, 0, 0, 0], by decide⟩

variable {client : Client} {v : Login} {m : Message} {log : List Round}

theorem map_fst_split {a : List Message} {m : Message} {b : List Message}
    (h : log.map Prod.fst = a ++ m :: b) :
    ∃ a' answer b', log = a' ++ (m, answer) :: b' ∧ a'.map Prod.fst = a ∧ b'.map Prod.fst = b := by
  obtain ⟨a', rest, rfl, ha, hrest⟩ := List.map_eq_append_iff.mp h
  obtain ⟨e, b', rfl, he, hb⟩ := List.map_eq_cons_iff.mp hrest
  exact ⟨a', e.2, b', by rw [← he], ha, hb⟩

theorem Login.Valid.offered_iff (hv : v.Valid client) :
    Extended v.log ↔ Offered client (v.log.map Prod.fst) := by
  constructor
  · intro hextended a m b hsplit hcode
    obtain ⟨a', answer, b', hlog, rfl, -⟩ := map_fst_split hsplit
    obtain ⟨text, htext⟩ := (hv.finals (m, answer) (by simp [hlog])).mp hcode
    dsimp only at htext
    rw [htext] at hlog
    obtain ⟨nonce, -, hnonce, -⟩ := hextended a' m text b' hlog
    obtain ⟨e, he, hinitial⟩ := isInitial_of_lastNonce hnonce
    exact .inl ⟨e.1, List.mem_map_of_mem he, (hv.initials e (by simp [hlog, he])).mpr hinitial⟩
  · intro hoffered a m text b hlog
    obtain ⟨signature, serverFirst, hserver, hfinal⟩ := hv.answered a m text b hlog
    have hcode : authCode m = some 11 :=
      (hv.finals (m, some (.final text)) (by simp [hlog])).mpr ⟨text, rfl⟩
    have hsplit : v.log.map Prod.fst = a.map Prod.fst ++ m :: b.map Prod.fst := by simp [hlog]
    have hnonce : ∃ nonce, lastNonce a = some nonce := by
      obtain ⟨x, hx, hx10⟩ | hrefused := hoffered _ m _ hsplit hcode
      · obtain ⟨e, he, rfl⟩ := List.mem_map.mp hx
        exact lastNonce_isSome he ((hv.initials e (by simp [hlog, he])).mp hx10)
      · cases hlast : lastNonce a with
        | some nonce => exact ⟨nonce, rfl⟩
        | none =>
          rw [clientFirstOf, hlast] at hfinal
          exact absurd hfinal (hrefused serverFirst _ hserver)
    obtain ⟨nonce, hnonce⟩ := hnonce
    have hgood : nonce ≠ [] ∧ 44 ∉ nonce := by
      refine hv.nonces nonce ?_
      rw [hlog, Dubna.nonces, List.filterMap_append]
      exact List.mem_append_left _ (List.mem_of_getLast? hnonce)
    obtain ⟨hlength, hprefix, -⟩ := dubnaScramFinal_spec hfinal
    rw [clientFirstOf, hnonce, dubnaScramAttr_first hgood.2] at hlength hprefix
    exact ⟨nonce, serverFirst, hnonce, hserver, hprefix, hlength⟩

theorem extended_snoc : Extended (log ++ [(m, none)]) ↔ Extended log := by
  constructor
  · intro h a m₁ text b hlog
    exact h a m₁ text (b ++ [(m, none)]) (by simp [hlog])
  · intro h a m₁ text b hlog
    obtain ⟨-, -, hlast⟩ | ⟨b', -, hold⟩ := snoc_eq_append_cons hlog
    · cases hlast
    · exact h a m₁ text b' hold

theorem Login.Valid.offered_snoc (hv : v.Valid client)
    (hturn : ∀ answer v', authenticateTurn client v m ≠ some (.next answer v')) :
    Offered client ((v.log ++ [(m, none)]).map Prod.fst) ↔ Offered client (v.log.map Prod.fst) := by
  rw [List.map_append]
  constructor
  · intro h a m₁ b hsplit hcode
    exact h a m₁ (b ++ [m]) (by simp [hsplit]) hcode
  · intro h a m₁ b hsplit hcode
    obtain ⟨-, rfl, rfl⟩ | ⟨b', -, hold⟩ := snoc_eq_append_cons hsplit
    · cases hlast : lastNonce v.log with
      | some nonce =>
        obtain ⟨e, he, hinitial⟩ := isInitial_of_lastNonce hlast
        exact .inl ⟨e.1, List.mem_map_of_mem he, (hv.initials e he).mpr hinitial⟩
      | none =>
        right
        rintro serverFirst ⟨text, signature⟩ hserver hfinal
        have hclient : v.clientFirst = [] := by rw [hv.first, clientFirstOf, hlast]
        rw [← hclient] at hfinal
        exact hturn _ _ (turn_answered hcode hserver hfinal)
    · exact h a m₁ b' hold hcode

theorem Settled.verified (hextended : Extended log) (h : Settled client log) (ok : Round) :
    Verified client (log ++ [ok]) := by
  obtain ⟨a, m, text, b, m', answer, c, serverFinal, signature, hlog,
    ⟨serverFirst, hserver, hfinal⟩, hcode, hserverFinal, hsigned⟩ := h
  have hsplit : log = a ++ (m, some (.final text)) :: (b ++ (m', answer) :: c) := by simp [hlog]
  obtain ⟨nonce, -, hnonce, -⟩ := hextended a m text _ hsplit
  obtain ⟨-, -, salt, iterations, hsalt, hiterations, heq⟩ := dubnaScramFinal_spec hfinal
  rw [clientFirstOf, hnonce] at heq
  refine ⟨a, m, text, b, m', answer, c, ok, nonce, serverFirst, serverFinal, _, by rw [hlog], hnonce,
    hserver, ⟨salt, iterations, hsalt, hiterations, rfl⟩, hcode, hserverFinal, ?_⟩
  rw [hsigned, heq]
  simp only [dubnaScramFirst, List.append_nil]
  rfl

theorem Login.Valid.verified_iff (hv : v.Valid client) (hextended : Extended v.log) :
    (v.expect = [] → (∃ e ∈ v.log ++ [(m, none)], isInitial e ∨ isFinal e) →
      Verified client (v.log ++ [(m, none)])) ↔
    ((∃ x ∈ v.log.map Prod.fst, authCode x = some 10) → ∃ y ∈ v.log.map Prod.fst, authCode y = some 11) := by
  constructor
  · rintro h ⟨x, hx, hx10⟩
    obtain ⟨e, he, rfl⟩ := List.mem_map.mp hx
    have hinitial := (hv.initials e he).mp hx10
    have hfinal : ∃ e ∈ v.log, isFinal e := by
      by_cases hexpect : v.expect = []
      · obtain ⟨a, m₁, text, b, m', answer, c, ok, -, -, -, -, hlog, -⟩ :=
          h hexpect ⟨e, List.mem_append_left _ he, .inl hinitial⟩
        have hinit : v.log = a ++ (m₁, some (.final text)) :: b ++ (m', answer) :: c :=
          (List.append_inj' hlog rfl).1
        exact ⟨(m₁, some (.final text)), by simp [hinit], text, rfl⟩
      · obtain ⟨a, m₁, text, b, hlog, -⟩ := hv.pending hexpect
        exact ⟨(m₁, some (.final text)), by simp [hlog], text, rfl⟩
    obtain ⟨f, hf, hisFinal⟩ := hfinal
    exact ⟨f.1, List.mem_map_of_mem hf, (hv.finals f hf).mpr hisFinal⟩
  · rintro h hexpect ⟨e, he, hsasl⟩
    have hfinal : ∃ e ∈ v.log, isFinal e := by
      obtain he | he := List.mem_append.mp he
      · obtain hinitial | hfinal := hsasl
        · obtain ⟨y, hy, hy11⟩ := h ⟨e.1, List.mem_map_of_mem he, (hv.initials e he).mpr hinitial⟩
          obtain ⟨f, hf, rfl⟩ := List.mem_map.mp hy
          exact ⟨f, hf, (hv.finals f hf).mp hy11⟩
        · exact ⟨e, he, hfinal⟩
      · rw [List.mem_singleton.mp he] at hsasl
        obtain ⟨_, hnone⟩ | ⟨_, hnone⟩ := hsasl <;> cases hnone
    exact (hv.settled hexpect hfinal).verified hextended (m, none)

/-- A login proves that the server knows the password exactly if, among the messages it
reads, the server's first SCRAM message follows an offer of SCRAM and every offer is followed
by one before AuthenticationOk. -/
theorem authenticates_iff (client : Client) (ms : List Message) :
    AuthenticatesServer client (dubnaAuthenticate client .start ms) ↔
      Offered client ((dubnaAuthenticate client .start ms).log.map Prod.fst) ∧
      Continued ((dubnaAuthenticate client .start ms).log.map Prod.fst) := by
  obtain ⟨v, hv, ⟨hlog, hresult⟩ | ⟨m, hlog, hturn, hresult⟩⟩ :=
    dubnaAuthenticate_cases (Login.start_valid client) ms
  · have hcontinued : Continued (v.log.map Prod.fst) := by
      intro a m hsplit hcode
      obtain ⟨a', answer, b', hv', -, -⟩ := map_fst_split hsplit
      exact absurd hcode (hv.unfinished (m, answer) (by simp [hv']))
    constructor
    · rintro ⟨hextended, -⟩
      rw [hlog] at hextended ⊢
      exact ⟨hv.offered_iff.mp hextended, hcontinued⟩
    · rintro ⟨hoffered, -⟩
      refine ⟨?_, fun h => absurd h hresult⟩
      rw [hlog] at hoffered ⊢
      exact hv.offered_iff.mpr hoffered
  · have hextended : Extended (v.log ++ [(m, none)]) ↔
        Offered client ((v.log ++ [(m, none)]).map Prod.fst) :=
      extended_snoc.trans (hv.offered_iff.trans (hv.offered_snoc hturn).symm)
    have hcontinued : Continued ((v.log ++ [(m, none)]).map Prod.fst) ↔ (authCode m = some 0 →
        (∃ x ∈ v.log.map Prod.fst, authCode x = some 10) →
          ∃ y ∈ v.log.map Prod.fst, authCode y = some 11) := by
      rw [List.map_append]
      constructor
      · exact fun h => h _ m rfl
      · intro h a m₁ hsplit
        obtain ⟨ha, hm⟩ := List.append_inj' hsplit rfl
        obtain rfl := List.head_eq_of_cons_eq hm
        rw [← ha]
        exact h
    have hsuccess : (dubnaAuthenticate client .start ms).result = some [] ↔
        authCode m = some 0 ∧ v.expect = [] := by
      rw [hresult]
      constructor
      · intro h
        obtain ⟨r, hr, hempty⟩ := turn_ok (turn_success h)
        rw [h] at hr
        cases hr
        exact ⟨turn_success h, hempty.mp rfl⟩
      · rintro ⟨hcode, hexpect⟩
        obtain ⟨r, hr, hempty⟩ := turn_ok hcode
        rw [hr, hempty.mpr hexpect]
    constructor
    · rintro ⟨hext, hver⟩
      rw [hsuccess] at hver
      rw [hlog] at hext hver ⊢
      refine ⟨hextended.mp hext, hcontinued.mpr fun hcode => ?_⟩
      exact (hv.verified_iff (extended_snoc.mp hext)).mp fun hexpect => hver ⟨hcode, hexpect⟩
    · rintro ⟨hoffered, hcont⟩
      rw [hlog] at hoffered hcont
      have hext := hextended.mpr hoffered
      refine ⟨hlog ▸ hext, fun h => ?_⟩
      obtain ⟨hcode, hexpect⟩ := hsuccess.mp h
      rw [hlog]
      exact (hv.verified_iff (extended_snoc.mp hext)).mpr (hcontinued.mp hcont hcode) hexpect

/-- A server that offers SCRAM and then accepts the login at once. -/
theorem authenticates_fails :
    ¬AuthenticatesServer eager (dubnaAuthenticate eager .start [offer, accepted]) := by
  have hlog : (dubnaAuthenticate eager .start [offer, accepted]).log =
      [(offer, some (.initial (eager.dubnaNonce 0))), (accepted, none)] := by decide +kernel
  rintro ⟨-, hverified⟩
  rw [hlog] at hverified
  obtain ⟨a, m, text, b, m', answer, c, ok, -, -, -, -, hsplit, -⟩ :=
    hverified (by decide +kernel)
      ⟨(offer, some (.initial (eager.dubnaNonce 0))), List.mem_cons_self, .inl ⟨_, rfl⟩⟩
  have hmem : (m, some (Answer.final text)) ∈
      [(offer, some (Answer.initial (eager.dubnaNonce 0))), (accepted, none)] := by
    rw [hsplit]
    simp
  obtain h | h := List.mem_cons.mp hmem
  · cases (Prod.mk.inj h).2
  · cases (Prod.mk.inj (List.mem_singleton.mp h)).2

end

end Ussr.Dubna
