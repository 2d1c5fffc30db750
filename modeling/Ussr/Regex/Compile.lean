import Ussr.Regex.Search

/-! The compiler of regular expressions: recursive descent, with the code made as the pattern is read. -/

namespace Ussr.Regex

def reMaxCode : Nat := 4096
def reMaxRanges : Nat := 4096
def reMaxRepeat : Nat := 1000
def reMaxDepth : Nat := 100
def reMaxGroups : Nat := 32

/-- Why a pattern is not read to its end: `ps->error`, or the turns of the model. -/
inductive Halt where
  | error (text : String)
  | turns
  deriving DecidableEq

def tooBig : Halt := .error "too big"

/-- `re_parser_t` and what is made of the regular expression so far; `p` is what is left of the pattern. -/
structure Parser where
  code : List Inst
  ranges : List (Nat × Nat)
  groups : Nat
  depth : Nat
  p : List UInt8

structure Flags where
  icase : Bool
  multi : Bool
  dotall : Bool

/-- `*ps->p` -/
def peek (p : List UInt8) : UInt8 := p.head?.getD 0

def byteOf (c : Char) : UInt8 := UInt8.ofNat c.toNat

def reEmit (ps : Parser) (i : Inst) : Except Halt Parser :=
  if reMaxCode ≤ ps.code.length then .error tooBig else .ok { ps with code := ps.code ++ [i] }

def reInsert (ps : Parser) (at' : Nat) (i : Inst) : Except Halt Parser :=
  if reMaxCode ≤ ps.code.length then .error tooBig
  else .ok { ps with code := ps.code.take at' ++ i :: ps.code.drop at' }

/-- `re_copy` of so many instructions from a place on -/
def reCopy (ps : Parser) (start size : Nat) : Except Halt Parser :=
  if reMaxCode < ps.code.length + size then .error tooBig
  else .ok { ps with code := ps.code ++ (ps.code.drop start).take size }

def reAddRange (ranges : List (Nat × Nat)) (r : Nat × Nat) : Except Halt (List (Nat × Nat)) :=
  if reMaxRanges ≤ ranges.length then .error tooBig else .ok (ranges ++ [r])

def reAddRanges (ranges pairs : List (Nat × Nat)) : Except Halt (List (Nat × Nat)) := pairs.foldlM reAddRange ranges

def reDigit : List (Nat × Nat) := [('0'.toNat, '9'.toNat)]
def reNotDigit : List (Nat × Nat) := [(0, '0'.toNat - 1), ('9'.toNat + 1, reBadByte + 255)]
def reWord : List (Nat × Nat) :=
  [('0'.toNat, '9'.toNat), ('A'.toNat, 'Z'.toNat), ('_'.toNat, '_'.toNat), ('a'.toNat, 'z'.toNat)]
def reNotWord : List (Nat × Nat) :=
  [(0, '0'.toNat - 1), ('9'.toNat + 1, 'A'.toNat - 1), ('Z'.toNat + 1, '_'.toNat - 1), ('_'.toNat + 1, 'a'.toNat - 1),
    ('z'.toNat + 1, reBadByte + 255)]
def reSpace : List (Nat × Nat) := [(9, 13), (' '.toNat, ' '.toNat)]
def reNotSpace : List (Nat × Nat) := [(0, 8), (14, ' '.toNat - 1), (' '.toNat + 1, reBadByte + 255)]

/-- The ranges of `re_shorthand`, where the letter is one. -/
def reShorthand (letter : UInt8) : Option (List (Nat × Nat)) :=
  if letter = byteOf 'd' then some reDigit
  else if letter = byteOf 'D' then some reNotDigit
  else if letter = byteOf 'w' then some reWord
  else if letter = byteOf 'W' then some reNotWord
  else if letter = byteOf 's' then some reSpace
  else if letter = byteOf 'S' then some reNotSpace
  else none

def reHex (c : UInt8) : Option Nat :=
  if byteOf '0' ≤ c ∧ c ≤ byteOf '9' then some (c.toNat - '0'.toNat)
  else if byteOf 'a' ≤ c ∧ c ≤ byteOf 'f' then some (c.toNat - 'a'.toNat + 10)
  else if byteOf 'A' ≤ c ∧ c ≤ byteOf 'F' then some (c.toNat - 'A'.toNat + 10)
  else none

def decodeChar : List UInt8 → Nat × List UInt8
  | [] => (0, [])
  | b :: rest => ((reDecode b rest).1, (b :: rest).drop (reDecode b rest).2)

def isLetter (c : UInt8) : Bool := (byteOf 'a' ≤ c && c ≤ byteOf 'z') || (byteOf 'A' ≤ c && c ≤ byteOf 'Z')

/-- `re_escape`: the character behind a backslash, and what is left. -/
def reEscape (p : List UInt8) : Except Halt (Nat × List UInt8) :=
  let c := peek p
  if c = 0 then .error (.error "\\ at the end")
  else if byteOf '1' ≤ c ∧ c ≤ byteOf '9' then .error (.error "backreferences are not supported")
  else if isLetter c ∨ c = byteOf '0' then
    if c = byteOf 'n' then .ok (10, p.tail)
    else if c = byteOf 't' then .ok (9, p.tail)
    else if c = byteOf 'r' then .ok (13, p.tail)
    else if c = byteOf 'f' then .ok (12, p.tail)
    else if c = byteOf 'v' then .ok (11, p.tail)
    else if c = byteOf 'x' then
      match reHex (peek p.tail), reHex (peek p.tail.tail) with
      | some high, some low => .ok (high * 16 + low, p.tail.tail.tail)
      | _, _ => .error (.error "\\x takes two hex digits")
    else .error (.error "unknown escape")
  else .ok (decodeChar p)

def classLow (p : List UInt8) : Except Halt (Nat × List UInt8) :=
  if peek p = byteOf '\\' then if peek p.tail = byteOf 'b' then .ok (8, p.tail.tail) else reEscape p.tail
  else .ok (decodeChar p)

def classHigh (p : List UInt8) : Except Halt (Nat × List UInt8) :=
  if peek p = byteOf '\\' then reEscape p.tail else .ok (decodeChar p)

/-- The loop of `re_parse_class`; every turn takes a byte of the pattern. -/
def classLoop : (turns : Nat) → (any : Bool) → List (Nat × Nat) → List UInt8 → Except Halt (List (Nat × Nat) × List UInt8)
  | 0, _, _, _ => .error .turns
  | turns + 1, any, ranges, p =>
    if peek p = 0 then .error (.error "missing ]")
    else if peek p = byteOf ']' ∧ any then .ok (ranges, p.tail)
    else
      match if peek p = byteOf '\\' then reShorthand (peek p.tail) else none with
      | some pairs => do
        let ranges ← reAddRanges ranges pairs
        classLoop turns true ranges p.tail.tail
      | none => do
        let (low, p) ← classLow p
        if peek p = byteOf '-' ∧ peek p.tail ≠ byteOf ']' ∧ peek p.tail ≠ 0 then
          let (high, p) ← classHigh p.tail
          if high < low then .error (.error "bad range")
          else
            let ranges ← reAddRange ranges (low, high)
            classLoop turns true ranges p
        else
          let ranges ← reAddRange ranges (low, low)
          classLoop turns true ranges p

def readClass (flags : Flags) (ranges : List (Nat × Nat)) (p : List UInt8) : Except Halt (Inst × List (Nat × Nat) × List UInt8) :=
  let negated := peek p == byteOf '^'
  let p := if negated then p.tail else p
  do
    let (all, p) ← classLoop (p.length + 1) false ranges p
    let first := ranges.length
    let count := all.length - first
    return (if flags.icase then .opClassi first count negated else .opClass first count negated, all, p)

/-- The atoms of `re_parse_atom` that are one instruction, with all ranges so far and what is left. -/
def readOne (flags : Flags) (ranges : List (Nat × Nat)) (p : List UInt8) : Except Halt (Inst × List (Nat × Nat) × List UInt8) :=
  let c := peek p
  let letter (r : Nat × List UInt8) : Inst × List (Nat × Nat) × List UInt8 :=
    (if flags.icase then .opChari (reLower r.1) else .opChar r.1, ranges, r.2)
  if c = byteOf '[' then readClass flags ranges p.tail
  else if c = byteOf '.' then .ok (if flags.dotall then .opAnynl else .opAny, ranges, p.tail)
  else if c = byteOf '^' then .ok (if flags.multi then .opMbol else .opBol, ranges, p.tail)
  else if c = byteOf '$' then .ok (if flags.multi then .opMeol else .opEol, ranges, p.tail)
  else if c = byteOf '*' ∨ c = byteOf '+' ∨ c = byteOf '?' then .error (.error "nothing to repeat")
  else if c = byteOf '\\' then
    if peek p.tail = byteOf 'b' then .ok (.opWordb, ranges, p.tail.tail)
    else if peek p.tail = byteOf 'B' then .ok (.opNwordb, ranges, p.tail.tail)
    else
      match reShorthand (peek p.tail) with
      -- no case to fold in these
      | some pairs => do
        let all ← reAddRanges ranges pairs
        return (.opClass ranges.length (all.length - ranges.length) false, all, p.tail.tail)
      | none => (reEscape p.tail).map letter
  else .ok (letter (decodeChar p))

/-- The start of a group: `(?:`, or a group of its own. -/
def openGroup (plain : Bool) (ps : Parser) : Except Halt Parser :=
  if plain then .ok { ps with p := ps.p.tail.tail.tail }
  else reEmit { ps with p := ps.p.tail, groups := ps.groups + 1 } (.opSave ((ps.groups + 1) * 2))

def closeGroup (plain : Bool) (group : Nat) (ps : Parser) : Except Halt Parser :=
  if plain then .ok { ps with depth := ps.depth - 1, p := ps.p.tail }
  else reEmit { ps with depth := ps.depth - 1, p := ps.p.tail } (.opSave (group * 2 + 1))

/-- `re_parse_atom`; `alternatives` reads what stands in a group. -/
def reParseAtom (flags : Flags) (alternatives : Parser → Except Halt Parser) (ps : Parser) : Except Halt Parser :=
  if peek ps.p = byteOf '(' then
    let plain := peek ps.p.tail == byteOf '?'
    let group := ps.groups + 1
    if plain ∧ peek ps.p.tail.tail ≠ byteOf ':' then .error (.error "of (? only (?: is supported")
    else if ¬ plain ∧ reMaxGroups ≤ ps.groups then .error (.error "too many groups")
    else do
      let ps ← openGroup plain ps
      if reMaxDepth < ps.depth + 1 then .error tooBig
      else
        let ps ← alternatives { ps with depth := ps.depth + 1 }
        if peek ps.p ≠ byteOf ')' then .error (.error "missing )") else closeGroup plain group ps
  else do
    let (i, ranges, p) ← readOne flags ps.ranges ps.p
    reEmit { ps with ranges := ranges, p := p } i

def isDigitByte (c : UInt8) : Bool := byteOf '0' ≤ c && c ≤ byteOf '9'

def badCounts : Halt := .error "bad \x7bn,m\x7d"

def readCount : (n : Nat) → List UInt8 → Except Halt (Nat × List UInt8)
  | n, [] => .ok (n, [])
  | n, c :: rest =>
    if isDigitByte c then
      let n := n * 10 + (c.toNat - '0'.toNat)
      if reMaxRepeat < n then .error badCounts else readCount n rest
    else .ok (n, c :: rest)

/-- `re_parse_counts` at a brace: nothing where it is none of counts; the upper count is missing where there is no limit. -/
def reParseCounts (p : List UInt8) : Option (Except Halt (Nat × Option Nat × List UInt8)) :=
  let q := p.tail
  if ¬ isDigitByte (peek q) then none
  else
    match readCount 0 q with
    | .error e => some (.error e)
    | .ok (low, q) =>
      if peek q = byteOf '}' then some (.ok (low, some low, q.tail))
      else if peek q = byteOf ',' then
        let q := q.tail
        if peek q = byteOf '}' then some (.ok (low, none, q.tail))
        else if ¬ isDigitByte (peek q) then none
        else
          match readCount 0 q with
          | .error e => some (.error e)
          | .ok (high, q) =>
            if high < low then some (.error badCounts)
            else if peek q = byteOf '}' then some (.ok (low, some high, q.tail))
            else none
      else none

/-- What stands behind an atom: the least and the most times, whether few are tried first, and what is left; nothing
where it is not repeated. -/
def readRepeat (p : List UInt8) : Option (Except Halt (Nat × Option Nat × Bool × List UInt8)) :=
  let c := peek p
  let counts :=
    if c = byteOf '*' then some (.ok (0, none, p.tail))
    else if c = byteOf '+' then some (.ok (1, none, p.tail))
    else if c = byteOf '?' then some (.ok (0, some 1, p.tail))
    else if c = byteOf '{' then reParseCounts p
    else none
  counts.map fun r => do
    let (n, m, p) ← r
    let lazy := peek p == byteOf '?'
    let p := if lazy then p.tail else p
    if peek p = byteOf '*' ∨ peek p = byteOf '+' ∨ peek p = byteOf '?' ∨ (peek p = byteOf '{' ∧ (reParseCounts p).isSome) then
      .error (.error "nothing to repeat")
    else .ok (n, m, lazy, p)

def splitOf (lazy : Bool) (on off : Int) : Inst := if lazy then .opSplit off on else .opSplit on off

def copies (start size : Nat) : (times : Nat) → Parser → Except Halt Parser
  | 0, ps => .ok ps
  | times + 1, ps => do copies start size times (← reCopy ps start size)

def optionals (start size : Nat) (lazy : Bool) : (left : Nat) → Parser → Except Halt Parser
  | 0, ps => .ok ps
  | left + 1, ps => do
    let ps ← reEmit ps (splitOf lazy 1 ((left + 1) * (size + 1) : Nat))
    optionals start size lazy left (← reCopy ps start size)

/-- `re_repeat` of the code from `start` on -/
def reRepeat (ps : Parser) (start n : Nat) (m : Option Nat) (lazy : Bool) : Except Halt Parser :=
  let size := ps.code.length - start
  if n = 0 ∧ m = some 0 then .ok { ps with code := ps.code.take start }
  else do
    let ps ← copies start size (n - 1) ps
    match m with
    | none =>
      if n = 0 then
        let ps ← reInsert ps start (splitOf lazy 1 (size + 2))
        reEmit ps (.opJmp (-(size + 1)))
      else reEmit ps (splitOf lazy (-size) 1)
    | some m =>
      if n = 0 then
        let left := m - 1
        let total := (left + 1) * (size + 1)
        if reMaxCode < total then .error tooBig
        else
          let ps ← reInsert ps start (splitOf lazy 1 total)
          optionals (start + 1) size lazy left ps
      else optionals start size lazy (m - n) ps

def reParsePiece (flags : Flags) (alternatives : Parser → Except Halt Parser) (ps : Parser) : Except Halt Parser := do
  let start := ps.code.length
  let ps ← reParseAtom flags alternatives ps
  match readRepeat ps.p with
  | none => return ps
  | some r =>
    let (n, m, lazy, p) ← r
    reRepeat { ps with p := p } start n m lazy

def endsPieces (p : List UInt8) : Bool := peek p == 0 || peek p == byteOf '|' || peek p == byteOf ')'

/-- The loop of `re_parse_alternatives`; every piece takes a byte of the pattern. -/
def pieces (piece : Parser → Except Halt Parser) : (turns : Nat) → Parser → Except Halt Parser
  | 0, ps => if endsPieces ps.p then .ok ps else .error .turns
  | turns + 1, ps => if endsPieces ps.p then .ok ps else do pieces piece turns (← piece ps)

def reParseAlternatives (flags : Flags) : (turns : Nat) → Parser → Except Halt Parser
  | 0, _ => .error .turns
  | turns + 1, ps => do
    let start := ps.code.length
    let ps ← pieces (reParsePiece flags (reParseAlternatives flags turns)) ps.p.length ps
    if peek ps.p = byteOf '|' then
      let size := ps.code.length - start
      -- split A B; A: ...; jmp end; B: ...
      let ps ← reInsert { ps with p := ps.p.tail } start (.opSplit 1 (size + 2))
      let jump := ps.code.length
      let ps ← reEmit ps (.opJmp 0)
      let ps ← reParseAlternatives flags turns ps
      return { ps with code := ps.code.set jump (.opJmp (ps.code.length - jump)) }
    else return ps

def readFlags : List UInt8 → Flags → Except Halt Flags
  | [], flags => .ok flags
  | c :: rest, flags =>
    if c = byteOf 'i' then readFlags rest { flags with icase := true }
    else if c = byteOf 'm' then readFlags rest { flags with multi := true }
    else if c = byteOf 's' then readFlags rest { flags with dotall := true }
    else .error (.error "the flags are i, m and s")

/-- `ussr_regex_compile` of a pattern up to its NUL -/
def ussrRegexCompile (pattern flags : List UInt8) : Except Halt UssrRegex := do
  let flags ← readFlags flags ⟨false, false, false⟩
  let p := pattern.takeWhile (· != 0)
  let ps ← reParseAlternatives flags (p.length + 1) ⟨[], [], 0, 0, p⟩
  if peek ps.p = byteOf ')' then .error (.error "unmatched )")
  else
    let ps ← reEmit ps .opMatch
    return ⟨ps.code, ps.ranges, ps.groups⟩

end Ussr.Regex
