import Ussr.Regex.Decode

/-! The search of a compiled regular expression: every thread of the code is followed at once, in the order of their
priority, and no thread comes to an instruction twice at one position of the text. -/

namespace Ussr.Regex

/-- `re_inst_t`: the operations, each with the fields it uses. -/
inductive Inst where
  | opChar (x : Nat)
  | opChari (x : Nat)
  | opAny
  | opAnynl
  | opClass (x y : Nat) (z : Bool)
  | opClassi (x y : Nat) (z : Bool)
  | opSplit (x y : Int)
  | opJmp (x : Int)
  | opSave (x : Nat)
  | opBol
  | opEol
  | opMbol
  | opMeol
  | opWordb
  | opNwordb
  | opMatch
  deriving DecidableEq

/-- `ussr_regex_t`, less the working memory. -/
structure UssrRegex where
  code : List Inst
  ranges : List (Nat × Nat)
  groups : Nat
  deriving DecidableEq

/-- `re->slots` -/
def UssrRegex.slots (re : UssrRegex) : Nat := (re.groups + 1) * 2

/-- `re->code[pc]`, where there is one. -/
def UssrRegex.instAt (re : UssrRegex) (pc : Int) : Option Inst := if 0 ≤ pc then re.code[pc.toNat]? else none

def reLower (c : Nat) : Nat := if 'A'.toNat ≤ c ∧ c ≤ 'Z'.toNat then c + 32 else c

def reIsWord (c : Nat) : Bool :=
  ('0'.toNat ≤ c && c ≤ '9'.toNat) || ('A'.toNat ≤ c && c ≤ 'Z'.toNat) || ('a'.toNat ≤ c && c ≤ 'z'.toNat) || c == '_'.toNat

def reWordAt (text : List UInt8) (at' : Nat) : Bool := (text[at']?.map fun b => reIsWord b.toNat).getD false

def reClassHas (re : UssrRegex) (x y c : Nat) : Bool := ((re.ranges.drop x).take y).any fun r => r.1 ≤ c && c ≤ r.2

/-- Whether an instruction takes a character; `none` stands for the end of the text. -/
def takes (re : UssrRegex) (i : Inst) : Option Nat → Bool
  | none => false
  | some c =>
    match i with
    | .opChar x => c == x
    | .opChari x => reLower c == x
    | .opAny => c != 10
    | .opAnynl => true
    | .opClass x y z => reClassHas re x y c != z
    | .opClassi x y z =>
      (reClassHas re x y c || ('a'.toNat ≤ c && c ≤ 'z'.toNat && reClassHas re x y (c - 32)) ||
        ('A'.toNat ≤ c && c ≤ 'Z'.toNat && reClassHas re x y (c + 32))) != z
    | _ => false

section

/-- What `re_add_thread` does with an instruction. -/
inductive Way where
  | go (x : Int)
  | fork (x y : Int)
  | save (slot : Nat)
  | stop
  | wait
  deriving DecidableEq

def goIf (holds : Bool) : Way := if holds then .go 1 else .stop

def wordBefore (text : List UInt8) (at' : Nat) : Bool := 0 < at' && reWordAt text (at' - 1)

/-- The `switch` of `re_add_thread` -/
def Inst.way (text : List UInt8) (at' : Nat) : Inst → Way
  | .opJmp x => .go x
  | .opSplit x y => .fork x y
  | .opSave x => .save x
  | .opBol => goIf (at' == 0)
  | .opEol => goIf (at' == text.length)
  | .opMbol => goIf (at' == 0 || text[at' - 1]? == some 10)
  | .opMeol => goIf (at' == text.length || text[at']? == some 10)
  | .opWordb => goIf (wordBefore text at' != reWordAt text at')
  | .opNwordb => goIf (wordBefore text at' == reWordAt text at')
  | _ => .wait

structure Thread where
  pc : Int
  slots : List Int
  deriving DecidableEq

/-- The working memory: of `threads` it holds the list that is being made. -/
structure Memory where
  marks : Int → Nat
  generation : Nat
  saves : List Int
  threads : List Thread

/-- The memory that `ussr_regex_compile` makes. -/
def Memory.start : Memory := ⟨fun _ => 0, 0, [], []⟩

/-- `re->marks[pc] = re->generation` -/
def Memory.mark (m : Memory) (pc : Int) : Memory := { m with marks := Function.update m.marks pc m.generation }

/-- An entry of the stack of `re_add_thread` -/
inductive Entry where
  | way (pc : Int)
  | restore (slot : Nat) (old : Int)
  deriving DecidableEq

variable (re : UssrRegex) (text : List UInt8)

/-- A turn of the loop of `re_add_thread`: what it leaves on the stack for an entry; `none` where it would read outside of
the code or of the slots. -/
def addEntry (at' : Nat) : Entry → Memory → Option (List Entry × Memory)
  | .restore slot old, m => some ([], { m with saves := m.saves.set slot old })
  | .way pc, m => do
    let i ← re.instAt pc
    if m.marks pc = m.generation then some ([], m)
    else
      match i.way text at' with
      | .go x => some ([.way (pc + x)], m.mark pc)
      -- the second way waits under the first
      | .fork x y => some ([.way (pc + x), .way (pc + y)], m.mark pc)
      | .save slot =>
        let old ← m.saves[slot]?
        some ([.way (pc + 1), .restore slot old], { m.mark pc with saves := m.saves.set slot at' })
      | .stop => some ([], m.mark pc)
      | .wait => some ([], { m.mark pc with threads := m.threads ++ [⟨pc, m.saves⟩] })

/-- The loop of `re_add_thread` -/
def addLoop (at' : Nat) : (turns : Nat) → List Entry → Memory → Option Memory
  | _, [], m => some m
  | 0, _ :: _, _ => none
  | turns + 1, entry :: stack, m => do
    let (left, m) ← addEntry re text at' entry m
    addLoop at' turns (left ++ stack) m

/-- `re_add_thread`: every turn of its loop takes an entry, and an instruction that is marked leaves two at most. -/
def reAddThread (at' : Nat) (pc : Int) (m : Memory) : Option Memory :=
  addLoop re text at' (2 * re.code.length + 1) [.way pc] m

/-- The loop over the threads of one position, before the character `next` that ends at `after`. -/
def runThreads (at' : Nat) (next : Option Nat) (after : Nat) :
    List Thread → Memory → (spans : Option (List Int)) → Option (Memory × Option (List Int))
  | [], m, spans => some (m, spans)
  | th :: rest, m, spans => do
    let i ← re.instAt th.pc
    -- those after a match have lower priority
    if i = .opMatch then some (m, some (th.slots.set 1 at'))
    else if takes re i next then
      let m ← reAddThread re text after (th.pc + 1) { m with saves := th.slots }
      runThreads at' next after rest m spans
    else runThreads at' next after rest m spans

def charAt (text : List UInt8) (at' : Nat) : Option (Nat × Nat) :=
  match text.drop at' with
  | [] => none
  | b :: rest => some (reDecode b rest)

def freshSlots (at' : Nat) : List Int := (List.replicate re.slots (-1)).set 0 at'

def startThread (at' : Nat) (spans : Option (List Int)) (m : Memory) : Option Memory :=
  if spans.isNone then reAddThread re text at' 0 { m with saves := freshSlots re at' } else some m

/-- `re->generation++` -/
def bump (generation : Nat) : Nat := (generation + 1) % 2 ^ 32

/-- The loop of `ussr_regex_search`, over how the generation is counted; the spans are there where a match was found. -/
def searchLoop (count : Nat → Nat) : (turns : Nat) → (at' : Nat) → (spans : Option (List Int)) → Memory →
    Option (Memory × Option (List Int))
  | 0, _, _, _ => none
  | turns + 1, at', spans, m => do
    let m ← startThread re text at' spans m
    if m.threads = [] ∧ (spans.isSome ∨ text.length ≤ at') then some (m, spans)
    else
      let next := charAt text at'
      let after := at' + (next.map Prod.snd).getD 1
      let (m, spans) ← runThreads re text at' (next.map Prod.fst) after m.threads
        { m with generation := count m.generation, threads := [] } spans
      if next.isNone then some (m, spans) else searchLoop count turns after spans m

/-- `ussr_regex_search`: every turn of its loop takes a character or is the last. -/
def searchWith (count : Nat → Nat) (m : Memory) (start : Nat) : Option (Memory × Option (List Int)) :=
  if text.length < start then some ({ m with threads := [] }, none)
  else searchLoop re text count (text.length - start + 1) start none { m with generation := count m.generation, threads := [] }

/-- `ussr_regex_search` with the counter of the code. -/
def ussrRegexSearch (m : Memory) (start : Nat) : Option (Memory × Option (List Int)) := searchWith re text bump m start

end

end Ussr.Regex
