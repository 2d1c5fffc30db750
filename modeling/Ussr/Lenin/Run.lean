import Ussr.Strings

/-! Lenin: code from several models, the calls to them counted. What a model is asked is left to
the world, which answers anything. -/

namespace Ussr.Lenin
open Stalin (Text strTrim)
open Real64 (ascii)

section

inductive Criteria
  | size
  | speed
  deriving DecidableEq, Repr

inductive Method
  | rounds
  | chain
  | enrich
  deriving DecidableEq, Repr

structure Args where
  models : List Text
  criteria : Criteria
  method : Method
  dir : Text
  ext : Text
  cycles : Int
  test : Bool
  score : Bool
  holdout : Bool
  baseline : Bool
  window : Int
  refine : Bool
  refineRounds : Int
  patience : Int
  target : Int
  budget : Int
  tasks : List Text

/-- The test that `lenin_main` makes before a run; `str_trunc` has read the numbers. -/
structure Args.Accepted (a : Args) : Prop where
  models : a.models ≠ []
  cycles : 1 ≤ a.cycles ∧ a.cycles ≤ 4611686018427387904
  rounds : -4611686018427387904 ≤ a.refineRounds ∧ a.refineRounds ≤ 4611686018427387904
  budget : -4611686018427387904 ≤ a.budget ∧ a.budget ≤ 4611686018427387904
  speed : a.criteria = .speed → a.test ∨ a.score
  holdout : a.holdout → a.test ∨ a.score
  target : 0 ≤ a.target → a.score
  patience : 1 ≤ a.patience
  enrich : a.method = .enrich → a.test ∨ a.score

inductive Reply
  | noKey
  | failed
  | text (t : Text)

structure World where
  reply : Nat → Reply
  status : Nat → Int
  said : Nat → Option Text
  clock : Nat → Int

structure Session where
  calls : Nat
  asks : Nat
  shells : Nat
  reads : Nat
  times : Nat

variable (w : World)

def leninSpent (budget : Int) (s : Session) : Bool := 0 ≤ budget && budget ≤ s.calls

def leninAsk (budget : Int) (s : Session) : Option Text × Session :=
  if leninSpent budget s then (none, s)
  else
    match w.reply s.asks with
    | .noKey => (none, { s with asks := s.asks + 1 })
    | .failed => (none, { s with asks := s.asks + 1, calls := s.calls + 1 })
    | .text t => (some t, { s with asks := s.asks + 1, calls := s.calls + 1 })

def leninShell (s : Session) : Int × Session := (w.status s.shells, { s with shells := s.shells + 1 })

def leninRead (s : Session) : Option Text × Session := (w.said s.reads, { s with reads := s.reads + 1 })

/-- `time` -/
def readClock (s : Session) : Int × Session := (w.clock s.times, { s with times := s.times + 1 })

end

def leninSafe (name : Text) : Text :=
  name.map fun b =>
    let n := b.toNat
    if (48 ≤ n ∧ n ≤ 57) ∨ (65 ≤ n ∧ n ≤ 90) ∨ (97 ≤ n ∧ n ≤ 122) ∨ n = 45 ∨ n = 46 then b else 95

def leninCode (reply : Text) : Text :=
  let fence := ascii "```"
  (strFind reply fence 0).elim (strTrim reply) fun a =>
    (strFind reply (ascii "\n") a).elim (strTrim reply) fun i =>
      let start := i + 1
      (reply.drop start).take ((strFind reply fence start).getD reply.length - start)

def leninLastNumber (text : Text) : Number :=
  let rest := text.reverse.dropWhile fun b => !isDigit b
  let digits := (rest.takeWhile isDigit).reverse
  if digits = [] then .integer (-1) else (strToNumber digits).getD (.integer (-1))

/-- One line of a reply in `lenin_subtasks`. -/
def subtaskLine (known r : List Text) (line : Text) : List Text :=
  let line := strTrim line
  if 2 < line.length ∧ (line.take 2 = ascii "- " ∨ line.take 2 = ascii "* ") then
    let t := strTrim (line.drop 2)
    if t ≠ [] ∧ known.contains t = false ∧ r.contains t = false then r ++ [t] else r
  else r

def leninSubtasks (reply : Text) (known : List Text) : List Text := (reply.splitOn 10).foldl (subtaskLine known) []

section

inductive Hidden
  | none
  | passed
  | failed
  deriving DecidableEq, Repr

structure Candidate where
  path : Text
  cycle : Nat
  size : Nat
  tested : Bool
  passed : Bool
  rate : Number
  score : Number
  hidden : Hidden
  deriving DecidableEq

variable (w : World)

/-- The last loop of `lenin_measure`: how often the test ran and when it was over, or `none` when it failed. -/
def runWindow (window t0 : Int) : (turns runs : Nat) → (now : Int) → Session → Option (Option (Nat × Int) × Session)
  | 0, _, _, _ => none
  | turns + 1, runs, now, s =>
    if now - t0 < window then
      let (st, s) := leninShell w s
      if st ≠ 0 then some (none, s)
      else
        let (now, s) := readClock w s
        runWindow window t0 turns (runs + 1) now s
    else some (some (runs, now), s)

def runTest (test : Bool) (c : Candidate) (s : Session) : Candidate × Session :=
  if test then
    let (st, s) := leninShell w s
    ({ c with passed := st = 0 }, s)
  else (c, s)

def runScore (test score : Bool) (c : Candidate) (s : Session) : Candidate × Session :=
  if score then
    let (st, s) := leninShell w s
    let (said, s) := leninRead w s
    let n := leninLastNumber (said.getD [])
    let n := if n.lt (.integer 0) then .integer 0 else n
    ({ c with score := n, passed := c.passed && (test || st = 0) }, s)
  else (c, s)

def runHoldout (holdout : Bool) (c : Candidate) (s : Session) : Candidate × Session :=
  if holdout ∧ c.passed then
    let (st, s) := leninShell w s
    (if st = 0 then { c with hidden := .passed } else { c with hidden := .failed, passed := false }, s)
  else (c, s)

def runTimed (turns : Nat) (window : Int) (c : Candidate) (s : Session) : Option (Candidate × Session) :=
  if c.passed = false ∨ window ≤ 0 then some (c, s)
  else
    let (t0, s) := readClock w s
    (runWindow w window t0 turns 0 t0 s).map fun (timed, s) =>
      (timed.elim { c with passed := false } fun (runs, now) =>
        { c with rate := Number.div (.integer (BitVec.ofNat 64 runs)) (.integer (BitVec.ofInt 64 (now - t0))) }, s)

def leninMeasure (turns : Nat) (a : Args) (path code : Text) (cycle : Nat) (window : Int) (s : Session) :
    Option (Candidate × Session) :=
  let c : Candidate := ⟨path, cycle, code.length, false, true, .integer 0, .integer (-1), .none⟩
  if a.test = false ∧ a.score = false then some (c, s)
  else
    let (c, s) := runTest w a.test { c with tested := true } s
    let (c, s) := runScore w a.test a.score c s
    let (c, s) := runHoldout w a.holdout c s
    runTimed w turns window c s

def leninBetter (a b : Candidate) (criteria : Criteria) : Bool :=
  if a.passed ≠ b.passed then a.passed
  else if a.score.eq b.score = false then b.score.lt a.score
  else if criteria = .speed ∧ a.rate.eq b.rate = false then b.rate.lt a.rate
  else if a.size ≠ b.size then a.size < b.size
  else b.rate.lt a.rate

def leninBest (candidates : List Candidate) (criteria : Criteria) : Option Candidate :=
  candidates.foldl (fun r c => some (r.elim c fun r => if leninBetter c r criteria then c else r)) none

end

section

variable (w : World)

def voteOf (answer : Text) (count : Nat) : Option Nat :=
  match strTrim answer with
  | [b] => if 65 ≤ b.toNat ∧ b.toNat - 65 < count then some (b.toNat - 65) else none
  | _ => none

/-- The loop of `lenin_vote` over the models. -/
def voteLoop (budget : Int) (count : Nat) : List Text → (votes : List Nat) → (any : Bool) → Session → (List Nat × Bool) × Session
  | [], votes, any, s => ((votes, any), s)
  | _ :: models, votes, any, s =>
    let (answer, s) := leninAsk w budget s
    ((answer.bind fun t => voteOf t count).elim (voteLoop budget count models votes any s) fun k =>
      voteLoop budget count models (votes.modify k (· + 1)) true s)

def mostVotes : List (Nat × Candidate) → (top : Int) → Option Candidate → Option Candidate
  | [], _, r => r
  | (v, c) :: rest, top, r => if top < v then mostVotes rest v (some c) else mostVotes rest top r

def leninVote (budget : Int) (models : List Text) (candidates : List Candidate) (s : Session) : Option Candidate × Session :=
  let ((votes, any), s) := voteLoop w budget candidates.length models (List.replicate candidates.length 0) false s
  (if any then mostVotes (votes.zip candidates) (-1) none else none, s)

end

section

variable (w : World)

def draftPath (a : Args) (k : Nat) : Text :=
  a.dir ++ ascii "/refine" ++ strFromInt (BitVec.ofNat 64 k) ++ ascii "_draft" ++ a.ext

/-- The rounds of `lenin_refine` from the `k`-th on: the sub-tasks found. -/
def refineLoop (turns : Nat) (a : Args) : (left k : Nat) → (found : List Text) → Session → Option (List Text × Session)
  | 0, _, found, s => some (found, s)
  | left + 1, k, found, s =>
    let (reply, s) := leninAsk w a.budget s
    reply.elim (some (found, s)) fun reply =>
      (leninMeasure w turns a (draftPath a k) (leninCode reply) 0 0 s).bind fun (_, s) =>
        let (listed, s) := leninAsk w a.budget s
        listed.elim (some (found, s)) fun listed =>
          let new := leninSubtasks listed (a.tasks ++ found)
          if new = [] then some (found, s) else refineLoop turns a left (k + 1) (found ++ new) s

/-- `lenin_refine`: all the sub-tasks. -/
def leninRefine (turns : Nat) (a : Args) (s : Session) : Option (List Text × Session) :=
  if a.refine = false ∨ a.refineRounds < 1 then some (a.tasks, s)
  else
    let (better, s) := leninAsk w a.budget s
    better.elim (some (a.tasks, s)) fun _ =>
      (refineLoop w turns a (a.refineRounds - 1).toNat 2 [] s).map fun (found, s) => (a.tasks ++ found, s)

end

section

variable (w : World)

/-- The variables of the cycles of `lenin_run`. -/
structure Centrifuge where
  all : List Candidate
  best : Option Candidate
  reqs : List Text
  stale : Nat
  go : Bool
  session : Session

def Args.runsFor (a : Args) : Int := if a.criteria = .speed then a.window else 0

def Args.measured (a : Args) : Bool := a.test || a.score

def cyclePath (a : Args) (c : Nat) (model : Text) : Text :=
  a.dir ++ ascii "/cycle" ++ strFromInt (BitVec.ofNat 64 c) ++ ascii "_" ++ leninSafe model ++ a.ext

/-- One model in cycle `c`. -/
def askModel (turns : Nat) (a : Args) (c : Nat) (v : Centrifuge) (model : Text) : Option Centrifuge :=
  if v.go = false then some v
  else if leninSpent a.budget v.session then some { v with go := false }
  else
    let (reply, session) := leninAsk w a.budget v.session
    reply.elim (some { v with session }) fun reply =>
      (leninMeasure w turns a (cyclePath a c model) (leninCode reply) c a.runsFor session).map fun (cand, session) =>
        let reached := 0 ≤ a.target ∧ cand.passed ∧ (Number.integer (BitVec.ofInt 64 a.target)).le cand.score
        { v with all := v.all ++ [cand], go := ¬reached, session }

def refineAgain (a : Args) (v : Centrifuge) : Centrifuge :=
  let (listed, session) := leninAsk w a.budget v.session
  let new := listed.elim [] fun t => leninSubtasks t v.reqs
  if new ≠ [] then { v with reqs := v.reqs ++ new, stale := 0, session } else { v with go := false, session }

/-- The end of cycle `c`. -/
def endCycle (a : Args) (c : Nat) (v : Centrifuge) : Centrifuge :=
  let best := leninBest v.all a.criteria
  let stale := if best.elim [] Candidate.path = v.best.elim [] Candidate.path then v.stale + 1 else 0
  let v := { v with best, stale }
  if a.method = .enrich ∧ v.go ∧ a.patience ≤ stale ∧ c < a.cycles then
    if a.refine ∧ 0 < a.refineRounds ∧ best.elim true Candidate.passed = false then refineAgain w a v
    else { v with go := false }
  else v

/-- The cycles from the `c`-th on. -/
def cycleLoop (turns : Nat) (a : Args) : (left c : Nat) → Centrifuge → Option Centrifuge
  | 0, _, v => some v
  | left + 1, c, v =>
    if v.go = false then some v
    else (a.models.foldlM (askModel w turns a c) v).bind fun v => cycleLoop turns a left (c + 1) (endCycle w a c v)

/-- The `calls` of `lenin_run`. -/
def Args.calls (a : Args) : BitVec 64 :=
  let nm := BitVec.ofNat 64 a.models.length
  let cycles := BitVec.ofInt 64 a.cycles
  let rounds := BitVec.ofInt 64 a.refineRounds
  let calls := nm * cycles
  let calls := if a.refine ∧ 0 < a.refineRounds then calls + 1 + 2 * (rounds - 1) else calls
  let calls := if a.measured = false then calls + nm else calls
  if a.method = .enrich ∧ a.refine ∧ 0 < a.refineRounds then calls + cycles - 1 else calls

/-- The figure that `lenin_run` announces. -/
def Args.announced (a : Args) : BitVec 64 :=
  let budget := BitVec.ofInt 64 a.budget
  if (0 : BitVec 64).sle budget && budget.slt a.calls then budget else a.calls

def measureBaseline (turns : Nat) (a : Args) (s : Session) : Option Session :=
  if a.baseline then
    let (code, s) := leninRead w s
    code.elim (some s) fun code => (leninMeasure w turns a [] code 0 a.runsFor s).map Prod.snd
  else some s

/-- `lenin_run`: 0 when the winner passes, and what of the world has been. -/
def leninRun (turns : Nat) (a : Args) : Option (Int × Session) :=
  (leninRefine w turns a ⟨0, 0, 0, 0, 0⟩).bind fun (reqs, s) =>
    (cycleLoop w turns a a.cycles.toNat 1 ⟨[], none, reqs, 0, true, s⟩).bind fun v =>
      if v.all = [] then some (1, v.session)
      else
        let (voted, s) := if a.measured then (none, v.session) else leninVote w a.budget a.models v.all v.session
        let best := voted.elim v.best some
        (measureBaseline w turns a s).map fun s => (if best.elim false Candidate.passed then 0 else 1, s)

end

end Ussr.Lenin
