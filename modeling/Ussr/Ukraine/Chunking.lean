import Ussr.TextSearch

/-! How a server of Ukraine takes a request from a connection, chunk by chunk. -/

namespace Ussr.Ukraine
open Stalin (Text strTrim strLower)
open Real64 (ascii)

/-- `uk_find`, `none` for -1. -/
def ukFind (text needle : Text) (start : Nat) : Option Nat := strFind text needle start

def lineEnd : Text := ascii "\r\n"

def headEnd : Text := ascii "\r\n\r\n"

def ukRequestHeader (request name : Text) : Text :=
  (ukFind request headEnd 0).elim [] fun stop =>
    let head := request.take (stop + 2)
    let key := lineEnd ++ strLower name ++ ascii ":"
    (ukFind (strLower head) key 0).elim [] fun place =>
      let start := place + key.length
      (ukFind head lineEnd start).elim [] fun stop => strTrim ((head.drop start).take (stop - start))

def ukRequestBody (request : Text) : Text :=
  (ukFind request headEnd 0).elim [] fun place => request.drop (place + 4)

def lengthOf : Number → Int
  | .integer n => n.toInt
  | .real _ => -1

/-- How long the body is by the head of the request; -1 when its `Content-Length` is no integer. -/
def statedBody (request : Text) : Int :=
  let length := ukRequestHeader request (ascii "content-length")
  if length = [] then 0 else (strToNumber length).elim (-1) lengthOf

/-- What `uk_read_request` gives: `""`, 413 or the request. -/
inductive Answer
  | nothing
  | tooLarge
  | request (text : Text)
  deriving DecidableEq, Repr

/-- The variables of `uk_read_request`. -/
structure Reading where
  result : Text
  failed : Nat
  stop : Option Nat
  start : Nat
  need : Int

def ukReadHead (limit : Int) (v : Reading) : Reading :=
  let total := v.result.length
  (ukFind v.result headEnd v.start).elim
    { v with start := total - 3, failed := if 16384 < total then 1 else 0 }
    fun stop =>
      let v := { v with stop := some stop, start := total - 3 }
      if 16380 < stop then { v with failed := 1 }
      else
        let body := statedBody v.result
        { v with
          failed := if limit < body then 2 else if body < 0 then 1 else 0
          need := stop + 4 + body }

/-- The loop of `uk_read_request` over the chunks that come until the other side closes or fails. -/
def ukReadLoop (limit : Int) : Reading → List Text → Answer
  | _, [] => .nothing
  | v, chunk :: chunks =>
    if chunk = [] then .nothing
    else
      let v := { v with result := v.result ++ chunk }
      let v := if v.stop = none then ukReadHead limit v else v
      if v.failed = 2 then .tooLarge
      else if v.failed = 1 then .nothing
      else if v.stop ≠ none ∧ v.need ≤ v.result.length then .request v.result
      else ukReadLoop limit v chunks

/-- `uk_read_request`; `uk_max_body` is 1 MiB where the application sets none. -/
def ukReadRequest (ukMaxBody : Option Int) (chunks : List Text) : Answer :=
  ukReadLoop (ukMaxBody.getD 1048576) ⟨[], 0, none, 0, 0⟩ chunks

/-! What a server makes of a stream of bytes, for every way of cutting it into chunks. -/

section

variable {r t : Text} {stop : Nat}

theorem ukRequestHeader_append (h : ukFind r headEnd 0 = some stop) (name : Text) :
    ukRequestHeader (r ++ t) name = ukRequestHeader r name := by
  have hwhole : ukFind (r ++ t) headEnd 0 = some stop := strFind_append h
  have hend : stop + 4 ≤ r.length := (strFind_eq_some.mp h).2.1
  unfold ukRequestHeader
  rw [hwhole, h, Option.elim_some, Option.elim_some, List.take_append_of_le_length (by omega)]

theorem statedBody_append (h : ukFind r headEnd 0 = some stop) : statedBody (r ++ t) = statedBody r := by
  unfold statedBody
  rw [ukRequestHeader_append h]

end

section

variable {limit : Int}

/-- The number of bytes there are when at least `need` have come, `total` being there before. -/
def firstReach (need : Int) : (total : Nat) → List Text → Option Nat
  | _, [] => none
  | total, c :: chunks =>
    if need ≤ (total + c.length : Nat) then some (total + c.length) else firstReach need (total + c.length) chunks

/-- The request that ends with the chunk in which the `need`-th byte comes. -/
def upTo (need : Int) (s : Text) (total : Nat) (chunks : List Text) : Answer :=
  (firstReach need total chunks).elim .nothing fun n => .request (s.take n)

/-- The answer to a stream whose first `total` bytes came before the chunks. -/
def answerTo (limit : Int) (s : Text) (total : Nat) (chunks : List Text) : Answer :=
  (ukFind s headEnd 0).elim .nothing fun stop =>
    if 16380 < stop then .nothing
    else if limit < statedBody s then .tooLarge
    else if statedBody s < 0 then .nothing
    else upTo (stop + 4 + statedBody s) s total chunks

theorem loop_body {chunks : List Text} (hchunks : ∀ c ∈ chunks, c ≠ []) (result : Text) (stop start : Nat) (need : Int) :
    ukReadLoop limit ⟨result, 0, some stop, start, need⟩ chunks = upTo need (result ++ chunks.flatten) result.length chunks := by
  induction chunks generalizing result with
  | nil => rfl
  | cons c chunks ih =>
    have hgoes := ih (fun x hx => hchunks x (List.mem_cons_of_mem c hx)) (result ++ c)
    have hlength : (result ++ c).length = result.length + c.length := List.length_append
    rw [ukReadLoop, if_neg (hchunks c List.mem_cons_self)]
    dsimp only
    rw [if_neg (Option.some_ne_none stop)]
    dsimp only
    rw [if_neg (by decide), if_neg (by decide), hgoes, hlength, List.flatten_cons, ← List.append_assoc]
    unfold upTo
    rw [firstReach]
    by_cases hreach : need ≤ (result.length + c.length : Nat)
    · rw [if_pos hreach, if_pos ⟨Option.some_ne_none stop, hreach⟩, Option.elim_some,
        List.take_append_of_le_length hlength.ge, List.take_of_length_le hlength.le]
    · rw [if_neg hreach, if_neg (fun h => hreach h.2)]

theorem loop_head {chunks : List Text} (hchunks : ∀ c ∈ chunks, c ≠ []) {result : Text}
    (hnone : ukFind result headEnd 0 = none) (need : Int) :
    ukReadLoop limit ⟨result, 0, none, result.length - 3, need⟩ chunks =
      answerTo limit (result ++ chunks.flatten) result.length chunks := by
  induction chunks generalizing result need with
  | nil =>
    rw [List.flatten_nil, List.append_nil, answerTo, hnone]
    rfl
  | cons c chunks ih =>
    have hrest : ∀ x ∈ chunks, x ≠ [] := fun x hx => hchunks x (List.mem_cons_of_mem c hx)
    have hlength : (result ++ c).length = result.length + c.length := List.length_append
    have hresume : ukFind (result ++ c) headEnd (result.length - 3) = ukFind (result ++ c) headEnd 0 := by
      by_cases hshort : result.length < 3
      · rw [Nat.sub_eq_zero_of_le hshort.le]
      · exact strFind_resume hnone (by change _ + 4 ≤ _; omega)
    rw [List.flatten_cons, ← List.append_assoc, ukReadLoop, if_neg (hchunks c List.mem_cons_self)]
    dsimp only
    rw [if_pos rfl]
    unfold ukReadHead answerTo
    dsimp only
    rw [hresume]
    cases hfind : ukFind (result ++ c) headEnd 0 with
    | none =>
      rw [Option.elim_none]
      dsimp only
      have hgoes := ih hrest hfind need
      have hfar (stop : Nat) (hwhole : ukFind (result ++ c ++ chunks.flatten) headEnd 0 = some stop) :
          ¬stop + 4 ≤ (result ++ c).length := fun hend =>
        Option.some_ne_none stop ((strFind_of_append hwhole hend).symm.trans hfind)
      by_cases hlong : 16384 < (result ++ c).length
      · rw [if_pos hlong, if_neg (by decide), if_pos rfl]
        cases hwhole : ukFind (result ++ c ++ chunks.flatten) headEnd 0 with
        | none => rfl
        | some stop =>
          have hbeyond := hfar stop hwhole
          rw [Option.elim_some, if_pos (by omega)]
      · rw [if_neg hlong, if_neg (by decide), if_neg (by decide), if_neg (fun h => h.1 rfl), hgoes]
        unfold answerTo
        cases hwhole : ukFind (result ++ c ++ chunks.flatten) headEnd 0 with
        | none => rfl
        | some stop =>
          have hbeyond := hfar stop hwhole
          rw [Option.elim_some, Option.elim_some]
          split_ifs
          · rfl
          · rfl
          · rfl
          · unfold upTo
            rw [firstReach, if_neg (by omega), hlength]
    | some stop =>
      have hwhole : ukFind (result ++ c ++ chunks.flatten) headEnd 0 = some stop := strFind_append hfind
      rw [hwhole, Option.elim_some, Option.elim_some, statedBody_append hfind]
      by_cases hfar : 16380 < stop
      · rw [if_pos hfar, if_pos hfar]
        dsimp only
        rw [if_neg (by decide), if_pos rfl]
      · rw [if_neg hfar, if_neg hfar]
        dsimp only
        by_cases hlarge : limit < statedBody (result ++ c)
        · rw [if_pos hlarge, if_pos hlarge, if_pos rfl]
        · rw [if_neg hlarge, if_neg hlarge]
          by_cases hbad : statedBody (result ++ c) < 0
          · rw [if_pos hbad, if_pos hbad, if_neg (by decide), if_pos rfl]
          · rw [if_neg hbad, if_neg hbad, if_neg (by decide), if_neg (by decide), loop_body hrest]
            unfold upTo
            rw [firstReach, hlength]
            by_cases hreach : (stop : Int) + 4 + statedBody (result ++ c) ≤ (result.length + c.length : Nat)
            · rw [if_pos hreach, if_pos ⟨Option.some_ne_none stop, hreach⟩, Option.elim_some,
                List.take_append_of_le_length hlength.ge, List.take_of_length_le hlength.le]
            · rw [if_neg hreach, if_neg (fun h => hreach h.2)]

theorem ukReadRequest_eq (ukMaxBody : Option Int) {chunks : List Text} (hchunks : ∀ c ∈ chunks, c ≠ []) :
    ukReadRequest ukMaxBody chunks = answerTo (ukMaxBody.getD 1048576) chunks.flatten 0 chunks := by
  have hnone : ukFind [] headEnd 0 = none := rfl
  exact loop_head hchunks hnone 0

end

section

/-- The chunks that `uk_recv` may deliver a stream in. -/
structure Cuts (s : Text) (chunks : List Text) : Prop where
  whole : chunks.flatten = s
  sizes : ∀ c ∈ chunks, c ≠ [] ∧ c.length ≤ 4096

/-- However the stream is cut the answer is the same, and a request has a complete head of at most
16384 bytes and the body that its `Content-Length` says, which the limit allows. -/
def Faithful (ukMaxBody : Option Int) (s : Text) : Prop :=
  ∀ chunks₁ chunks₂, Cuts s chunks₁ → Cuts s chunks₂ →
    ukReadRequest ukMaxBody chunks₁ = ukReadRequest ukMaxBody chunks₂ ∧
      ∀ r, ukReadRequest ukMaxBody chunks₁ = .request r →
        ∃ stop, ukFind r headEnd 0 = some stop ∧ stop + 4 ≤ 16384 ∧
          (ukRequestBody r).length = statedBody r ∧ statedBody r ≤ ukMaxBody.getD 1048576

def EndsWithBody (ukMaxBody : Option Int) (s : Text) : Prop :=
  ∀ stop, ukFind s headEnd 0 = some stop → stop ≤ 16380 → 0 ≤ statedBody s →
    statedBody s ≤ ukMaxBody.getD 1048576 → (s.length : Int) ≤ stop + 4 + statedBody s

theorem Cuts.ne_nil {s : Text} {chunks : List Text} (h : Cuts s chunks) : ∀ c ∈ chunks, c ≠ [] := fun c hc =>
  (h.sizes c hc).1

variable {ukMaxBody : Option Int} {s : Text} {chunks : List Text} {need : Int}

theorem firstReach_append {as : List Text} {total : Nat} (h : ((total + as.flatten.length : Nat) : Int) < need) (bs : List Text) :
    firstReach need total (as ++ bs) = firstReach need (total + as.flatten.length) bs := by
  induction as generalizing total with
  | nil => rfl
  | cons a as ih =>
    rw [List.flatten_cons, List.length_append, ← Nat.add_assoc] at h
    rw [List.cons_append, firstReach, if_neg (by omega), ih h, List.flatten_cons, List.length_append, ← Nat.add_assoc]

theorem firstReach_some {total n : Nat} (h : firstReach need total chunks = some n) :
    need ≤ n ∧ n ≤ total + chunks.flatten.length := by
  induction chunks generalizing total with
  | nil => cases h
  | cons c chunks ih =>
    rw [firstReach] at h
    rw [List.flatten_cons, List.length_append]
    split_ifs at h with hreach
    · cases h
      exact ⟨hreach, by omega⟩
    · obtain ⟨hneed, hle⟩ := ih h
      exact ⟨hneed, by omega⟩

theorem firstReach_none {total : Nat} (h : firstReach need total chunks = none) (hless : (total : Int) < need) :
    ((total + chunks.flatten.length : Nat) : Int) < need := by
  induction chunks generalizing total with
  | nil => exact hless
  | cons c chunks ih =>
    rw [firstReach] at h
    rw [List.flatten_cons, List.length_append, ← Nat.add_assoc]
    split_ifs at h with hreach
    exact ih h (by omega)

theorem upTo_of_le (hcuts : Cuts s chunks) (hpos : 0 < need) (hfits : (s.length : Int) ≤ need) :
    upTo need s 0 chunks = if (s.length : Int) = need then .request s else .nothing := by
  have hlength : chunks.flatten.length = s.length := congrArg List.length hcuts.whole
  unfold upTo
  cases hreach : firstReach need 0 chunks with
  | none =>
    have hless := firstReach_none hreach hpos
    rw [Option.elim_none, if_neg (by omega)]
  | some n =>
    obtain ⟨hneed, hle⟩ := firstReach_some hreach
    rw [Option.elim_some, if_pos (by omega), List.take_of_length_le (by omega)]

theorem length_ukRequestBody {r : Text} {stop : Nat} (h : ukFind r headEnd 0 = some stop) :
    (ukRequestBody r).length = r.length - (stop + 4) := by
  rw [ukRequestBody, h, Option.elim_some, List.length_drop]

theorem answer_of_ends (h : EndsWithBody ukMaxBody s) (hcuts : Cuts s chunks) :
    ukReadRequest ukMaxBody chunks = (ukFind s headEnd 0).elim .nothing fun stop =>
      if 16380 < stop then .nothing
      else if ukMaxBody.getD 1048576 < statedBody s then .tooLarge
      else if statedBody s < 0 then .nothing
      else if (s.length : Int) = stop + 4 + statedBody s then .request s else .nothing := by
  rw [ukReadRequest_eq ukMaxBody hcuts.ne_nil, hcuts.whole, answerTo]
  cases hfind : ukFind s headEnd 0 with
  | none => rfl
  | some stop =>
    rw [Option.elim_some, Option.elim_some]
    by_cases hfar : 16380 < stop
    · rw [if_pos hfar, if_pos hfar]
    by_cases hlarge : ukMaxBody.getD 1048576 < statedBody s
    · rw [if_neg hfar, if_neg hfar, if_pos hlarge, if_pos hlarge]
    by_cases hbad : statedBody s < 0
    · rw [if_neg hfar, if_neg hfar, if_neg hlarge, if_neg hlarge, if_pos hbad, if_pos hbad]
    · rw [if_neg hfar, if_neg hfar, if_neg hlarge, if_neg hlarge, if_neg hbad, if_neg hbad]
      exact upTo_of_le hcuts (by omega) (h stop hfind (by omega) (by omega) (by omega))

theorem faithful_of_ends (h : EndsWithBody ukMaxBody s) : Faithful ukMaxBody s := by
  intro chunks₁ chunks₂ hcuts₁ hcuts₂
  refine ⟨(answer_of_ends h hcuts₁).trans (answer_of_ends h hcuts₂).symm, fun r hr => ?_⟩
  rw [answer_of_ends h hcuts₁] at hr
  cases hfind : ukFind s headEnd 0 with
  | none =>
    rw [hfind] at hr
    cases hr
  | some stop =>
    rw [hfind, Option.elim_some] at hr
    split_ifs at hr with hfar hlarge hbad hwhole
    cases hr
    refine ⟨stop, hfind, by omega, ?_, by omega⟩
    rw [length_ukRequestBody hfind]
    omega

def singles (s : Text) : List Text := s.map fun b => [b]

theorem flatten_singles (s : Text) : (singles s).flatten = s := by
  induction s with
  | nil => rfl
  | cons b s ih => exact congrArg (b :: ·) ih

theorem singles_sizes (s : Text) : ∀ c ∈ singles s, c ≠ [] ∧ c.length ≤ 4096 := by
  intro c hc
  obtain ⟨b, -, rfl⟩ := List.mem_map.mp hc
  exact ⟨List.cons_ne_nil b [], Nat.le_of_ble_eq_true rfl⟩

/-- A cut where the byte behind the first `n` comes in one chunk with the last of them. -/
def surplus (s : Text) (n : Nat) : List Text :=
  singles (s.take (n - 1)) ++ (s.drop (n - 1)).take 2 :: singles (s.drop (n + 1))

theorem cuts_surplus {n : Nat} (hpos : 0 < n) (hlt : n < s.length) : Cuts s (surplus s n) := by
  constructor
  · unfold surplus
    rw [List.flatten_append, List.flatten_cons, flatten_singles, flatten_singles]
    have hdrop : s.drop (n + 1) = (s.drop (n - 1)).drop 2 := by
      rw [List.drop_drop]
      congr 1
      omega
    rw [hdrop, List.take_append_drop, List.take_append_drop]
  · intro c hc
    obtain hsingle | hc := List.mem_append.mp hc
    · exact singles_sizes _ c hsingle
    · obtain rfl | hsingle := List.mem_cons.mp hc
      · refine ⟨fun hnil => ?_, ?_⟩
        · have hlength := congrArg List.length hnil
          rw [List.length_take, List.length_drop, List.length_nil] at hlength
          omega
        · rw [List.length_take]
          omega
      · exact singles_sizes _ c hsingle

theorem firstReach_surplus {n : Nat} (hpos : 0 < n) (hlt : n < s.length) : firstReach n 0 (surplus s n) = some (n + 1) := by
  have htake : (s.take (n - 1)).length = n - 1 := by
    rw [List.length_take]
    omega
  have htwo : ((s.drop (n - 1)).take 2).length = 2 := by
    rw [List.length_take, List.length_drop]
    omega
  unfold surplus
  rw [firstReach_append (by rw [flatten_singles, htake]; omega), flatten_singles, htake, firstReach, htwo, if_pos (by omega)]
  congr 1
  omega

theorem ends_of_faithful (h : Faithful ukMaxBody s) : EndsWithBody ukMaxBody s := by
  intro stop hfind hnear hbody hlimit
  by_contra hsurplus
  obtain ⟨n, hn⟩ := Int.eq_ofNat_of_zero_le (show 0 ≤ stop + 4 + statedBody s by omega)
  have hcuts := cuts_surplus (s := s) (n := n) (by omega) (by omega)
  have hanswer : ukReadRequest ukMaxBody (surplus s n) = .request (s.take (n + 1)) := by
    rw [ukReadRequest_eq ukMaxBody hcuts.ne_nil, hcuts.whole, answerTo, hfind, Option.elim_some, if_neg (by omega), if_neg (by omega),
      if_neg (by omega), hn, upTo, firstReach_surplus (by omega) (by omega), Option.elim_some]
  obtain ⟨stop', hfind', -, hlength, -⟩ := (h _ _ hcuts hcuts).2 _ hanswer
  have hsplit : ukFind (s.take (n + 1) ++ s.drop (n + 1)) headEnd 0 = some stop := by
    rw [List.take_append_drop]
    exact hfind
  have htake : (s.take (n + 1)).length = n + 1 := by
    rw [List.length_take]
    omega
  have hhead : ukFind (s.take (n + 1)) headEnd 0 = some stop := strFind_of_append hsplit (by change stop + 4 ≤ _; omega)
  have hstated : statedBody (s.take (n + 1)) = statedBody s := by
    rw [← statedBody_append (t := s.drop (n + 1)) hhead, List.take_append_drop]
  rw [length_ukRequestBody hhead, htake, hstated] at hlength
  omega

/-- The answer does not depend on the cuts, and a request has the body that its head announces,
exactly for the streams in which nothing follows that body. -/
theorem faithful_iff_ends (ukMaxBody : Option Int) (s : Text) : Faithful ukMaxBody s ↔ EndsWithBody ukMaxBody s :=
  ⟨ends_of_faithful, faithful_of_ends⟩

/-- Two bytes that come with a request without a body are taken for its body, and not when they
come in a chunk of their own. -/
theorem surplus_taken_for_body : ¬∀ ukMaxBody s, Faithful ukMaxBody s := by
  intro h
  have hcuts₁ : Cuts (Real64.ascii "GET / HTTP/1.1\r\n\r\nXY") [Real64.ascii "GET / HTTP/1.1\r\n\r\nXY"] :=
    ⟨by decide +kernel, by decide +kernel⟩
  have hcuts₂ : Cuts (Real64.ascii "GET / HTTP/1.1\r\n\r\nXY") [Real64.ascii "GET / HTTP/1.1\r\n\r\n", Real64.ascii "XY"] :=
    ⟨by decide +kernel, by decide +kernel⟩
  exact absurd (h none _ _ _ hcuts₁ hcuts₂).1 (by decide +kernel)

end

end Ussr.Ukraine
