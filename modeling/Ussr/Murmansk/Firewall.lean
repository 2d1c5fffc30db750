import Ussr.Strings
import Ussr.Library.OrdMap

/-! The rules of Murmansk, the firewall, and the texts that they are read from and written to. -/

namespace Ussr.Murmansk
open Stalin (Text)
open Real64 (ascii)

inductive Verdict
  | allow
  | deny
  deriving DecidableEq, Repr

inductive Dir
  | inward
  | outward
  deriving DecidableEq, Repr

inductive Proto
  | tcp
  | udp
  | icmp
  | any
  deriving DecidableEq, Repr

def Verdict.text : Verdict → Text
  | allow => ascii "allow"
  | deny => ascii "deny"

def Dir.text : Dir → Text
  | inward => ascii "in"
  | outward => ascii "out"

def Proto.text : Proto → Text
  | tcp => ascii "tcp"
  | udp => ascii "udp"
  | icmp => ascii "icmp"
  | any => ascii "any"

def Verdict.ofText (s : Text) : Option Verdict := [Verdict.allow, .deny].find? fun v => v.text = s

def Dir.ofText (s : Text) : Option Dir := [Dir.inward, .outward].find? fun d => d.text = s

def Proto.ofText (s : Text) : Option Proto := [Proto.tcp, .udp, .icmp, .any].find? fun p => p.text = s

def Dir.want : Dir → Text
  | .inward => ascii "from"
  | .outward => ascii "to"

/-- A rule as `mu_parse` puts it together. -/
structure Rule where
  action : Verdict
  dir : Dir
  proto : Proto
  lo : Nat
  hi : Nat
  net : Nat
  bits : Nat
  hits : Nat
  deriving DecidableEq, Repr

def push (words : List Text) (w : Text) : List Text := if w ≠ [] then words ++ [w] else words

def isSpace (b : UInt8) : Bool := b = 32 || b = 9 || b = 13 || b = 10

/-- The loop of `mu_words`: the text left, the word begun and the words so far. -/
def muWordsLoop : Text → (w : Text) → (words : List Text) → List Text
  | [], w, words => push words w
  | b :: s, w, words =>
    if b = 35 then push words w
    else if isSpace b then muWordsLoop s [] (push words w)
    else muWordsLoop s (w ++ [b]) words

def muWords (s : Text) : List Text := muWordsLoop s [] []

/-- `mu_number`, `none` for -1. -/
def muNumber (s : Text) : Option Nat :=
  if s.length = 0 ∨ 9 < s.length then none
  else if s.all isDigit then some (s.foldl (fun v b => v * 10 + b.toNat - 48) 0)
  else none

/-- The loop of `mu_ip` over the parts. -/
def muOctets : List Text → (v : Nat) → Option Nat
  | [], v => some v
  | p :: parts, v => (muNumber p).bind fun x => if 255 < x then none else muOctets parts (v <<< 8 ||| x)

def muIp (s : Text) : Option Nat :=
  let parts := s.splitOn 46
  if parts.length ≠ 4 then none else muOctets parts 0

/-- `str_from_int` of a number that is not negative. -/
def natText (n : Nat) : Text := strFromInt (BitVec.ofNat 64 n)

def muIpText (ip : Nat) : Text :=
  natText (ip >>> 24 &&& 255) ++ ascii "." ++ natText (ip >>> 16 &&& 255) ++ ascii "." ++
    natText (ip >>> 8 &&& 255) ++ ascii "." ++ natText (ip &&& 255)

def muMask (bits : Nat) : Nat := if 0 < bits then 4294967295 <<< (32 - bits) &&& 4294967295 else 0

def ruleForm : Text :=
  ascii "a rule is: allow|deny in|out [tcp|udp|icmp|any] [port|lo-hi] [from|to a.b.c.d[/bits]]"

def readAction (s : Text) : Except Text Verdict :=
  (Verdict.ofText s).elim (.error (ascii "a rule starts with allow or deny, not " ++ s)) .ok

def readDir (s : Text) : Except Text Dir := (Dir.ofText s).elim (.error (ascii "in or out, not " ++ s)) .ok

def readProto : List Text → Proto × List Text
  | [] => (.any, [])
  | x :: w => (Proto.ofText x).elim (.any, x :: w) fun proto => (proto, w)

/-- The two ends of a range: of one port alone when there is no `-`. -/
def rangeOf (x : Text) : Option Nat × Option Nat :=
  (strFind x (ascii "-") 0).elim (muNumber x, muNumber x) fun dash =>
    (muNumber (x.take dash), muNumber (x.drop (dash + 1)))

def readPorts (proto : Proto) : List Text → Except Text ((Nat × Nat) × List Text)
  | [] => .ok ((0, 65535), [])
  | x :: w =>
    if x ≠ ascii "from" ∧ x ≠ ascii "to" then
      if proto ≠ .tcp ∧ proto ≠ .udp then .error (ascii "a port needs tcp or udp: " ++ x)
      else
        match rangeOf x with
        | (some lo, some hi) =>
          if 65535 < hi ∨ hi < lo then .error (ascii "not a port or a port range: " ++ x) else .ok ((lo, hi), w)
        | _ => .error (ascii "not a port or a port range: " ++ x)
    else .ok ((0, 65535), x :: w)

def networkOf (a : Text) : Option Nat × Option Nat :=
  (strFind a (ascii "/") 0).elim (muIp a, some 32) fun slash => (muIp (a.take slash), muNumber (a.drop (slash + 1)))

def readNetwork (dir : Dir) : List Text → Except Text ((Nat × Nat) × List Text)
  | [] => .ok ((0, 0), [])
  | x :: w =>
    if x ≠ dir.want then
      .error (ascii "after the port comes " ++ dir.want ++ ascii " a.b.c.d[/bits], not " ++ x)
    else
      match w with
      | [] => .error (dir.want ++ ascii " needs an address")
      | a :: w =>
        match networkOf a with
        | (some net, some bits) =>
          if 32 < bits then .error (ascii "not an address or a network: " ++ a)
          else .ok ((net &&& muMask bits, bits), w)
        | _ => .error (ascii "not an address or a network: " ++ a)

def readEnd : List Text → Except Text Unit
  | [] => .ok ()
  | x :: _ => .error (ascii "more than a rule holds: " ++ x)

/-- `mu_parse`, with the text of the error. -/
def muParse (text : Text) : Except Text Rule :=
  match muWords text with
  | action :: dir :: w => do
    let action ← readAction action
    let dir ← readDir dir
    let (proto, w) := readProto w
    let ((lo, hi), w) ← readPorts proto w
    let ((net, bits), w) ← readNetwork dir w
    readEnd w
    return { action, dir, proto, lo, hi, net, bits, hits := 0 }
  | _ => .error ruleForm

def muRuleText (r : Rule) : Text :=
  r.action.text ++ ascii " " ++ r.dir.text ++
    (if r.proto ≠ .any ∨ r.lo ≠ 0 ∨ r.hi ≠ 65535 then ascii " " ++ r.proto.text else []) ++
    (if r.lo ≠ 0 ∨ r.hi ≠ 65535 then
      ascii " " ++ natText r.lo ++ (if r.hi ≠ r.lo then ascii "-" ++ natText r.hi else [])
    else []) ++
    (if 0 < r.bits then
      ascii " " ++ r.dir.want ++ ascii " " ++ muIpText r.net ++ (if r.bits < 32 then ascii "/" ++ natText r.bits else [])
    else [])

def policyForm : Text := ascii "a policy is: policy in|out allow|deny"

/-- `mu_policy`: the direction and what is done there, or `none` when the text is no policy. -/
def muPolicy (text : Text) : Except Text (Option (Dir × Verdict)) :=
  match muWords text with
  | [] => .ok none
  | first :: w =>
    if first ≠ ascii "policy" then .ok none
    else
      match w with
      | [dir, action] =>
        match Dir.ofText dir, Verdict.ofText action with
        | some dir, some action => .ok (some (dir, action))
        | _, _ => .error policyForm
      | _ => .error policyForm

/-! The firewall's state, its commands and its decisions. -/

/-- The globals of `murmansk.su`. A rule is an object of its own, which `rules` refers to by
its position in `objects`. -/
structure Firewall where
  objects : List Rule
  rules : OrdMap Nat Nat
  inPolicy : Verdict
  outPolicy : Verdict
  drops : Nat
  log : OrdMap Nat Text
  logn : Nat
  error : Text

structure Packet where
  dir : Dir
  proto : Proto
  ip : Nat
  port : Nat
  ip_lt : ip < 2 ^ 32
  port_le : port ≤ 65535

def murmanskReset : Firewall := ⟨[], .empty, .deny, .allow, 0, .empty, 0, []⟩

namespace Firewall

def policy (f : Firewall) : Dir → Verdict
  | .inward => f.inPolicy
  | .outward => f.outPolicy

def setPolicy (f : Firewall) (dir : Dir) (action : Verdict) : Firewall :=
  match dir with
  | .inward => { f with inPolicy := action }
  | .outward => { f with outPolicy := action }

/-- The `i`-th rule, with its reference. -/
def rule (f : Firewall) (i : Nat) : Option (Nat × Rule) :=
  (f.rules.get i).bind fun ref => f.objects[ref]?.map fun r => (ref, r)

def fail (f : Firewall) (m : Text) : Firewall × Int := ({ f with error := m }, -1)

def append (f : Firewall) (r : Rule) : Firewall :=
  { f with objects := f.objects ++ [r], rules := f.rules.put (f.rules.len + 1) f.objects.length }

def murmanskAdd (f : Firewall) (text : Text) : Firewall × Int :=
  match muPolicy text with
  | .error m => f.fail m
  | .ok (some (dir, action)) => (f.setPolicy dir action, 0)
  | .ok none =>
    match muParse text with
    | .error m => f.fail m
    | .ok r => (f.append r, 0)

/-- The loop of `murmansk_delete`: from key `i` on each rule moves one key down; `none` where
a rule is missing. -/
def shiftDown : (turns i : Nat) → OrdMap Nat Nat → Option (OrdMap Nat Nat)
  | 0, _, rules => some rules
  | turns + 1, i, rules => (rules.get (i + 1)).bind fun next => shiftDown turns (i + 1) (rules.put i next)

/-- `murmansk_delete`; the number is `none` for a value that is no integer. -/
def murmanskDelete (f : Firewall) (n : Option Int) : Option (Firewall × Int) :=
  match n with
  | none => some (f.fail (ascii "delete takes a rule's number"))
  | some n =>
    if n < 1 ∨ f.rules.len < n then some (f.fail (ascii "no rule of that number"))
    else
      (shiftDown (f.rules.len - n.toNat) n.toNat f.rules).map fun rules =>
        ({ f with rules := rules.del f.rules.len }, 0)

def loadLine (v : Firewall × Nat × Text) (line : Text) : Firewall × Nat × Text :=
  if muWords line = [] then v
  else
    let (f, st) := v.1.murmanskAdd line
    if st ≠ 0 then (f, v.2.1 + 1, if v.2.2 = [] then f.error else v.2.2) else (f, v.2)

/-- `murmansk_load_text`: the number of wrong lines; the first one's error is kept. -/
def murmanskLoadText (f : Firewall) (text : Text) : Firewall × Nat :=
  let (f, wrong, first) := (text.splitOn 10).foldl loadLine (f, 0, [])
  (if first ≠ [] then { f with error := first } else f, wrong)

/-- The loop of `murmansk_text`. -/
def ruleLines (f : Firewall) : (turns i : Nat) → Option Text
  | 0, _ => some []
  | turns + 1, i => (f.rule i).bind fun r => (ruleLines f turns (i + 1)).map fun t => muRuleText r.2 ++ ascii "\n" ++ t

def murmanskText (f : Firewall) : Option Text :=
  (f.ruleLines f.rules.len 1).map fun t =>
    ascii "# Murmansk, the firewall: the first rule that matches decides\n" ++
      (ascii "policy in " ++ f.inPolicy.text ++ ascii "\npolicy out " ++ f.outPolicy.text ++ ascii "\n") ++ t

section

variable (p : Packet)

/-- The test that `mu_match` makes of a rule. -/
def fits (r : Rule) : Bool :=
  r.dir = p.dir && (r.proto = .any || r.proto = p.proto) &&
    (r.lo ≤ p.port && p.port ≤ r.hi && p.ip &&& muMask r.bits = r.net)

/-- The loop of `mu_match`. -/
def muMatchFrom (f : Firewall) : (turns i : Nat) → Option (Option (Nat × Rule))
  | 0, _ => some none
  | turns + 1, i => (f.rule i).bind fun r => if fits p r.2 then some (some r) else muMatchFrom f turns (i + 1)

/-- `mu_match`: the first rule for the packet, if any. -/
def muMatch (f : Firewall) : Option (Option (Nat × Rule)) := f.muMatchFrom p f.rules.len 1

def murmanskAllows (f : Firewall) : Option Bool :=
  (f.muMatch p).map fun rule =>
    rule.elim (f.policy p.dir = .allow) fun r => r.2.action = .allow

/-- The line of the log for a packet that `why` denies. -/
def dropLine (why : Text) : Text :=
  p.dir.text ++ ascii " " ++ p.proto.text ++ ascii " " ++ muIpText p.ip ++
    (if p.proto ≠ .icmp then ascii " port " ++ natText p.port else []) ++ ascii ": denied by " ++ why

def countHit (r : Rule) : Rule := { r with hits := r.hits + 1 }

def logDrop (f : Firewall) (line : Text) : Firewall :=
  let log := f.log.put (f.logn + 1) line
  { f with
    drops := f.drops + 1
    logn := f.logn + 1
    log := if 16 < log.len then log.first.elim log log.del else log }

def afterCheck (f : Firewall) (allowed : Bool) (line : Text) : Firewall := if allowed then f else f.logDrop line

def murmanskCheck (f : Firewall) : Option (Firewall × Bool) :=
  (f.muMatch p).map fun rule =>
    let allowed : Bool := rule.elim (f.policy p.dir = .allow) fun r => r.2.action = .allow
    let f : Firewall := rule.elim f fun r => { f with objects := f.objects.modify r.1 countHit }
    let why := rule.elim (ascii "policy") fun r => muRuleText r.2
    (f.afterCheck allowed (dropLine p why), allowed)

end

end Firewall

inductive Call
  | add (text : Text)
  | delete (n : Option Int)
  | check (p : Packet)

def Firewall.call (f : Firewall) : Call → Option Firewall
  | .add text => some (f.murmanskAdd text).1
  | .delete n => (f.murmanskDelete n).map Prod.fst
  | .check p => (f.murmanskCheck p).map Prod.fst

/-- The firewall after some calls from `murmansk_reset` on. -/
def runCalls (calls : List Call) : Option Firewall := calls.foldlM Firewall.call murmanskReset

/-! The rules as a list, and how the firewall's maps and objects stand for it. -/

/-- The first `bits` bits of two 32-bit addresses are the same. -/
def SamePrefix (bits a b : Nat) : Prop := a / 2 ^ (32 - bits) = b / 2 ^ (32 - bits)

structure Matches (p : Packet) (r : Rule) : Prop where
  dir : r.dir = p.dir
  proto : r.proto = .any ∨ r.proto = p.proto
  low : r.lo ≤ p.port
  high : p.port ≤ r.hi
  net : SamePrefix r.bits p.ip r.net

theorem matches_iff (p : Packet) (r : Rule) : Matches p r ↔
    r.dir = p.dir ∧ (r.proto = .any ∨ r.proto = p.proto) ∧ r.lo ≤ p.port ∧ p.port ≤ r.hi ∧
      p.ip / 2 ^ (32 - r.bits) = r.net / 2 ^ (32 - r.bits) :=
  ⟨fun h => ⟨h.dir, h.proto, h.low, h.high, h.net⟩, fun h => ⟨h.1, h.2.1, h.2.2.1, h.2.2.2.1, h.2.2.2.2⟩⟩

instance decidableMatches (p : Packet) (r : Rule) : Decidable (Matches p r) := decidable_of_iff' _ (matches_iff p r)

structure Ruleset where
  rules : List Rule
  inPolicy : Verdict
  outPolicy : Verdict
  dropped : List Text

namespace Ruleset

def start : Ruleset := ⟨[], .deny, .allow, []⟩

def policy (s : Ruleset) : Dir → Verdict
  | .inward => s.inPolicy
  | .outward => s.outPolicy

def decides (s : Ruleset) (p : Packet) : Verdict :=
  (s.rules.find? fun r => Matches p r).elim (s.policy p.dir) Rule.action

def reason (s : Ruleset) (p : Packet) : Text :=
  (s.rules.find? fun r => Matches p r).elim (Real64.ascii "policy") muRuleText

def countFirst (p : Packet) : List Rule → List Rule
  | [] => []
  | r :: rules => if Matches p r then Firewall.countHit r :: rules else r :: countFirst p rules

def add (s : Ruleset) (text : Text) : Ruleset :=
  match muPolicy text with
  | .error _ => s
  | .ok (some (.inward, action)) => { s with inPolicy := action }
  | .ok (some (.outward, action)) => { s with outPolicy := action }
  | .ok none =>
    match muParse text with
    | .error _ => s
    | .ok r => { s with rules := s.rules ++ [r] }

/-- The `n`-th rule goes, counted from 1. -/
def delete (s : Ruleset) (n : Int) : Ruleset :=
  if 1 ≤ n then { s with rules := s.rules.eraseIdx (n.toNat - 1) } else s

def check (s : Ruleset) (p : Packet) : Ruleset :=
  { s with
    rules := countFirst p s.rules
    dropped := if s.decides p = .deny then s.dropped ++ [Firewall.dropLine p (s.reason p)] else s.dropped }

def call (s : Ruleset) : Call → Ruleset
  | .add text => s.add text
  | .delete n => n.elim s s.delete
  | .check p => s.check p

def run (calls : List Call) : Ruleset := calls.foldl call start

end Ruleset

theorem testBit_muMask {bits : Nat} (hbits : bits ≤ 32) (i : Nat) :
    (muMask bits).testBit i = (decide (32 - bits ≤ i) && decide (i < 32)) := by
  unfold muMask
  split_ifs with hpos
  · rw [show (4294967295 : Nat) = 2 ^ 32 - 1 from rfl, Nat.testBit_and, Nat.testBit_shiftLeft,
      Nat.testBit_two_pow_sub_one, Nat.testBit_two_pow_sub_one]
    by_cases hlow : 32 - bits ≤ i
    · by_cases hi : i < 32
      · simp [hlow, hi, show i - (32 - bits) < 32 by omega]
      · simp [hi]
    · simp [hlow]
  · rw [Nat.zero_testBit]
    by_cases hi : i < 32
    · simp [show ¬32 - bits ≤ i by omega]
    · simp [hi]

theorem and_muMask {bits a : Nat} (hbits : bits ≤ 32) (ha : a < 2 ^ 32) :
    a &&& muMask bits = a / 2 ^ (32 - bits) * 2 ^ (32 - bits) := by
  refine Nat.eq_of_testBit_eq fun i => ?_
  rw [Nat.testBit_and, testBit_muMask hbits, Nat.testBit_mul_two_pow, Nat.testBit_div_two_pow]
  by_cases hlow : 32 - bits ≤ i
  · rw [show i - (32 - bits) + (32 - bits) = i by omega]
    by_cases hi : i < 32
    · simp [hlow, hi]
    · have hout : a.testBit i = false :=
        Nat.testBit_lt_two_pow (ha.trans_le (Nat.pow_le_pow_right (by decide) (by omega)))
      simp [hout]
  · simp [hlow]

/-- What `mu_parse` promises about a rule. -/
structure Rule.Sound (r : Rule) : Prop where
  low : r.lo ≤ r.hi
  high : r.hi ≤ 65535
  ports : r.lo ≠ 0 ∨ r.hi ≠ 65535 → r.proto = .tcp ∨ r.proto = .udp
  bits : r.bits ≤ 32
  net : r.net < 2 ^ 32
  masked : r.net &&& muMask r.bits = r.net

theorem muMask_lt (bits : Nat) : muMask bits < 2 ^ 32 := by
  unfold muMask
  split_ifs
  · exact Nat.and_lt_two_pow _ (by decide)
  · decide

theorem fits_eq {p : Packet} {r : Rule} (hr : r.Sound) : Firewall.fits p r = decide (Matches p r) := by
  have hnet : p.ip &&& muMask r.bits = r.net ↔ p.ip / 2 ^ (32 - r.bits) = r.net / 2 ^ (32 - r.bits) := by
    have hpos : 0 < 2 ^ (32 - r.bits) := Nat.pow_pos (by decide)
    conv_lhs => rw [← hr.masked]
    rw [and_muMask hr.bits p.ip_lt, and_muMask hr.bits hr.net]
    exact ⟨fun h => Nat.eq_of_mul_eq_mul_right hpos h, fun h => by rw [h]⟩
  rw [Bool.eq_iff_iff, decide_eq_true_eq, matches_iff]
  unfold Firewall.fits
  simp only [Bool.and_eq_true, Bool.or_eq_true, decide_eq_true_eq, hnet]
  tauto

end Ussr.Murmansk
