import Ussr.Siberia.Values
import Ussr.Library.Memo

/-! The tokens of formulas. -/

namespace Ussr.Siberia
open Real64
open Stalin (Text)

inductive Token where
  | num (text : Text) (v : Number)
  | str (text : Text)
  /-- The index is negative for what is no cell. -/
  | ref (text : Text) (index : Int)
  | name (text : Text)
  | op (text : Text)
  | bad (text : Text)
deriving DecidableEq

def sbIsLetter (b : UInt8) : Bool :=
  (65 ≤ b.toNat && b.toNat ≤ 90) || (97 ≤ b.toNat && b.toNat ≤ 122) || b = 95 || b = 36

def sbOfRef (s : Text) : Text := (s.reverse.takeWhile (· ≠ 46)).reverse

def inNumber (b : UInt8) : Bool := isDigit b || b = 46

def exponent : Text → Text
  | c :: c2 :: s =>
    if c = 69 ∨ c = 101 then
      if isDigit c2 then c :: (c2 :: s).takeWhile inNumber
      else if (c2 = 43 ∨ c2 = 45) ∧ s.head?.any isDigit then c :: c2 :: s.takeWhile inNumber
      else []
    else []
  | _ => []

def numberTail (s : Text) : Text := s.takeWhile inNumber ++ exponent (s.dropWhile inNumber)

def quoted : Text → Text × Text
  | [] => ([], [])
  | 34 :: 34 :: s => (34 :: (quoted s).1, (quoted s).2)
  | 34 :: s => ([], s)
  | c :: s => (c :: (quoted s).1, (quoted s).2)

def bracketed (inner : Text) : List Token :=
  let ref := fun s => Token.ref (sbUpper (sbOfRef s)) (sbRef (sbOfRef s))
  match strFind inner (ascii ":") 0 with
  | none => [ref inner]
  | some colon => [ref (inner.take colon), .op (ascii ":"), ref (inner.drop (colon + 1))]

def inWord (b : UInt8) : Bool := sbIsLetter b || isDigit b || b = 46

def wordToken (word after : Text) : Token :=
  if (after.dropWhile (· = 32)).head? = some 40 then .name word
  else if sbRef word ≠ -1 then .ref word (sbRef word)
  else .name word

def isPair (two : Text) : Bool := two = ascii "<=" || two = ascii ">=" || two = ascii "<>"

def firstTokens (b : UInt8) (s : Text) : List Token × Text :=
  if b = 32 ∨ b = 9 ∨ b = 10 ∨ b = 13 then ([], s)
  else if isDigit b ∨ (b = 46 ∧ s.head?.any isDigit) then
    let text := b :: numberTail s
    let token :=
      match strToNumber text with
      | none => .bad text
      | some v => .num text v
    ([token], s.drop (numberTail s).length)
  else if b = 34 then ([.str (quoted s).1], (quoted s).2)
  else if b = 91 then
    let close := (strFind s (ascii "]") 0).getD s.length
    (bracketed (s.take close), s.drop (close + 1))
  else if sbIsLetter b then
    let after := s.dropWhile inWord
    ([wordToken (sbUpper (b :: s.takeWhile inWord)) after], after)
  else if isPair (b :: s.take 1) then ([.op (b :: s.take 1)], s.drop 1)
  else if b ∈ ascii "+-*/^&=<>%:,;()" then ([.op [b]], s)
  else ([.bad [b]], s)

/-- `sb_tokens`; `turns` bounds the text. -/
def tokensLoop : (turns : Nat) → Text → List Token
  | 0, _ => []
  | _ + 1, [] => []
  | turns + 1, b :: s => (firstTokens b s).1 ++ tokensLoop turns (firstTokens b s).2

def sbTokens (s : Text) : List Token := tokensLoop s.length s

example : sbTokens (ascii "IF (a1>=1.5e1,\"x\",[.B2:.C3])") =
    [.name (ascii "IF"), .op (ascii "("), .ref (ascii "A1") 0, .op (ascii ">="),
      .num (ascii "1.5e1") (.real (ofInt 15)), .op (ascii ","), .str (ascii "x"), .op (ascii ","),
      .ref (ascii "B2") 53, .op (ascii ":"), .ref (ascii "C3") 106, .op (ascii ")")] := by
  decide +kernel

/-! Formulas: they are evaluated as they are parsed, and ask for the values of cells. Every
function has the number of frames that are open in it, from the one of `sb_value` on. -/

open Memo

abbrev Eval (α : Type) := Calc Nat Value α

abbrev Parse (α : Type) := StateT Nat (Calc Nat Value) α

def orFail {α : Type} : Option α → Eval α
  | some a => .done a
  | none => .fail

section

abbrev Collected := List Number ⊕ Value

/-- A range in `sb_collect`: text and empty cells are skipped. -/
def collectCells (k : Nat) : (cells : List Nat) → List Number → Eval Collected
  | [], ns => .done (.inl ns)
  | cell :: cells, ns => .ask cell k fun v =>
    if sbIsErr v then .done (.inr v)
    else
      match v with
      | .number n => collectCells k cells (ns ++ [n])
      | _ => collectCells k cells ns

def rangeCells (r1 c1 r2 c2 : Nat) : List Nat :=
  (List.range' r1 (r2 + 1 - r1)).flatMap fun row =>
    (List.range' c1 (c2 + 1 - c1)).map fun col => row * sbCols + col

def collectLoop (k : Nat) : (args : List Value) → List Number → Eval Collected
  | [], ns => .done (.inl ns)
  | .range r1 c1 r2 c2 :: args, ns => do
    match ← collectCells k (rangeCells r1 c1 r2 c2) ns with
    | .inl ns => collectLoop k args ns
    | .inr e => pure (.inr e)
  | .null :: args, ns => collectLoop k args ns
  | a :: args, ns =>
    match sbNum a with
    | .inl n => collectLoop k args (ns ++ [n])
    | .inr e => .done (.inr e)

def sbCollect (k : Nat) (args : List Value) : Eval Collected := .frame k (collectLoop k args [])

variable (math : Mathematics)

/-- `SUM`, `AVERAGE`, `MIN`, `MAX` and `COUNT` of numbers. -/
def aggregate (name : Text) (ns : List Number) : Option Value :=
  let sum := ns.foldl Number.add (int 0)
  if name = ascii "SUM" then some (.number sum)
  else if name = ascii "COUNT" then some (.number (int ns.length))
  else
    match ns with
    | [] => if name = ascii "AVERAGE" then some (sbErr "#DIV/0!") else some (.number (int 0))
    | n :: rest =>
      if name = ascii "AVERAGE" then sbArith math (.number sum) (.number (int ns.length)) .div
      else if name = ascii "MIN" then some (.number (rest.foldl (fun r x => if x.lt r then x else r) n))
      else some (.number (rest.foldl (fun r x => if r.lt x then x else r) n))

/-- `IF`: every argument has been evaluated. -/
def callIf : List Value → Value
  | c :: yes :: rest =>
    match sbNum c with
    | .inr e => e
    | .inl c => if !c.eq (int 0) then yes else rest.headD (.boolean false)
  | _ => sbErr "#VALUE!"

/-- `AND` and `OR` of numbers. -/
def callLogic (name : Text) (ns : List Number) : Value :=
  if name = ascii "AND" then .boolean (ns.all fun x => !x.eq (int 0))
  else .boolean (ns.any fun x => !x.eq (int 0))

def sbTextOf : Value → Text
  | .number n => sbFmt n
  | v => sbShowValue v

/-- `LEN`, `UPPER` and `LOWER`. -/
def callText (name : Text) : List Value → Value
  | [.range ..] => sbErr "#VALUE!"
  | [a] =>
    if sbIsErr a then a
    else if name = ascii "LEN" then .number (int (utf8Count (sbTextOf a)))
    else if name = ascii "UPPER" then .text (sbUpper (sbTextOf a))
    else .text (Stalin.strLower (sbTextOf a))
  | _ => sbErr "#VALUE!"

def callSqrt (x : Number) : Option Value :=
  if x.lt (int 0) then some (sbErr "#NUM!")
  else if x.eq (int 0) then some (.number (int 0))
  else (math.sqrt x).map fun r =>
    let whole := Number.integer (strTrunc r)
    .number (if (whole.mul whole).eq x then whole else r)

def callMod (x y : Number) : Option Value :=
  if y.eq (int 0) then some (sbErr "#DIV/0!")
  else
    match x, y with
    | .integer m, .integer n =>
      let r := ussrIntMod m n
      some (.number (.integer (if r ≠ 0 ∧ r.slt 0 ≠ n.slt 0 then r + n else r)))
    | x, y => (math.floor (x.div y)).map fun f => .number (x.sub (y.mul f))

def callNumeric (name : Text) (x y : Number) : Option Value :=
  if name = ascii "ABS" then some (.number (if x.lt (int 0) then (int 0).sub x else x))
  else if name = ascii "INT" then (math.floor x).map .number
  else if name = ascii "NOT" then some (.boolean (x.eq (int 0)))
  else if name = ascii "SQRT" then callSqrt math x
  else if name = ascii "POWER" then sbPow math x y
  else if name = ascii "MOD" then callMod math x y
  else some (.number (sbRound x (min 12 (max 0 (strTrunc y).toInt).toNat)))

def callNumbers (name : Text) (a : Value) (b : Option Value) : Option Value :=
  match sbNum a, (b.map sbNum).getD (.inl (int 0)) with
  | .inr e, _ => some e
  | _, .inr e => some e
  | .inl x, .inl y => callNumeric math name x y

def sbCall (k : Nat) (name : Text) (args : List Value) : Eval Value := .frame k <|
  if name ∈ [ascii "SUM", ascii "AVERAGE", ascii "MIN", ascii "MAX", ascii "COUNT"] then do
    match ← sbCollect (k + 1) args with
    | .inr e => pure e
    | .inl ns => orFail (aggregate math name ns)
  else if name = ascii "PI" then .done (.number (realLiteral 314159265358979323846 100000000000000000000))
  else if name = ascii "IF" then .done (callIf args)
  else if name ∈ [ascii "AND", ascii "OR"] then do
    match ← sbCollect (k + 1) args with
    | .inr e => pure e
    | .inl ns => pure (callLogic name ns)
  else if name ∈ [ascii "LEN", ascii "UPPER", ascii "LOWER"] then .done (callText name args)
  else if name ∈ [ascii "ABS", ascii "INT", ascii "SQRT", ascii "NOT"] then
    match args with
    | [a] => orFail (callNumbers math name a none)
    | _ => .done (sbErr "#VALUE!")
  else if name ∈ [ascii "MOD", ascii "POWER", ascii "ROUND"] then
    match args with
    | [a, b] => orFail (callNumbers math name a (some b))
    | [a] => if name = ascii "ROUND" then orFail (callNumbers math name a none) else .done (sbErr "#VALUE!")
    | _ => .done (sbErr "#VALUE!")
  else .done (sbErr "#NAME?")

end

section

variable (math : Mathematics) (toks : List Token)

def takeFrame (k : Nat) : Parse Unit := StateT.lift (.frame k (.done ()))

def sbPeekOp : Parse Text := do
  match toks[← get]? with
  | some (.op text) => pure text
  | _ => pure []

def sbAccept (op : String) : Parse Bool := do
  let pos ← get
  if toks[pos]? = some (.op (ascii op)) then
    set (pos + 1)
    pure true
  else pure false

def sbRange (a b : Int) : Value :=
  if a < 0 ∨ b < 0 then sbErr "#REF!"
  else
    let (ra, ca) := (a.toNat / sbCols, a.toNat % sbCols)
    let (rb, cb) := (b.toNat / sbCols, b.toNat % sbCols)
    .range (min ra rb) (min ca cb) (max ra rb) (max ca cb)

def argsLoop (expr : Parse Value) : (turns : Nat) → List Value → Parse (List Value)
  | 0, args => pure args
  | turns + 1, args => do
    let a ← expr
    let comma ← sbAccept toks ","
    let semi ← sbAccept toks ";"
    if comma || semi then argsLoop expr turns (args ++ [a]) else pure (args ++ [a])

/-- The arguments and the closing parenthesis, `none` where that is missing. -/
def callArgs (expr : Parse Value) : Parse (Option (List Value)) := do
  if ← sbAccept toks ")" then pure (some [])
  else
    let args ← argsLoop toks expr (toks.length + 1) []
    if ← sbAccept toks ")" then pure (some args) else pure none

def rangeEnd (a : Int) : Parse Value := do
  let pos ← get
  match toks[pos]? with
  | some (.ref _ b) =>
    set (pos + 1)
    pure (sbRange a b)
  | _ => pure (sbErr "#ERROR!")

def sbPrimary (expr : (k : Nat) → Parse Value) (k : Nat) : Parse Value := do
  takeFrame k
  let pos ← get
  match toks[pos]? with
  | none => pure (sbErr "#ERROR!")
  | some token =>
    set (pos + 1)
    match token with
    | .num _ v => pure (.number v)
    | .str text => pure (.text text)
    | .ref _ index =>
      if ← sbAccept toks ":" then rangeEnd toks index
      else if index < 0 then pure (sbErr "#REF!")
      else StateT.lift (.ask index.toNat k .done)
    | .name text =>
      if ← sbAccept toks "(" then
        match ← callArgs toks (expr (k + 1)) with
        | some args => StateT.lift (sbCall math (k + 1) text args)
        | none => pure (sbErr "#ERROR!")
      else if text = ascii "TRUE" then pure (.boolean true)
      else if text = ascii "FALSE" then pure (.boolean false)
      else pure (sbErr "#NAME?")
    | .op text =>
      if text = ascii "(" then
        let r ← expr (k + 1)
        if ← sbAccept toks ")" then pure r else pure (sbErr "#ERROR!")
      else pure (sbErr "#ERROR!")
    | .bad _ => pure (sbErr "#ERROR!")

/-- The loop of `sb_unary`; every turn takes a token, as in the loops below. -/
def percentLoop : (turns : Nat) → Value → Parse Value
  | 0, r => pure r
  | turns + 1, r => do
    if ← sbAccept toks "%" then
      let r ← StateT.lift (orFail (sbArith math r (.number (int 100)) .div))
      percentLoop turns r
    else pure r

def ofResult : Result → Value
  | .inl n => .number n
  | .inr e => e

/-- `sb_unary`; each of `calls` takes a frame. -/
def sbUnary (expr : (k : Nat) → Parse Value) : (calls : Nat) → (k : Nat) → Parse Value
  | 0, _ => StateT.lift .fail
  | calls + 1, k => do
    takeFrame k
    if ← sbAccept toks "-" then
      let v ← sbUnary expr calls (k + 1)
      StateT.lift (orFail (sbArith math (.number (int 0)) v .sub))
    else if ← sbAccept toks "+" then
      let v ← sbUnary expr calls (k + 1)
      pure (ofResult (sbNum v))
    else
      let r ← sbPrimary math toks expr (k + 1)
      percentLoop math toks toks.length r

/-- The loops of `sb_pow_expr`, `sb_mul_expr` and `sb_add_expr`. -/
def arithLoop (next : Parse Value) (opOf : Text → Option Arith) : (turns : Nat) → Value → Parse Value
  | 0, r => pure r
  | turns + 1, r => do
    match opOf (← sbPeekOp toks) with
    | none => pure r
    | some op =>
      modify (· + 1)
      let b ← next
      let r ← StateT.lift (orFail (sbArith math r b op))
      arithLoop next opOf turns r

def powOp (op : Text) : Option Arith := if op = ascii "^" then some .pow else none

def mulOp (op : Text) : Option Arith :=
  if op = ascii "*" then some .mul else if op = ascii "/" then some .div else none

def addOp (op : Text) : Option Arith :=
  if op = ascii "+" then some .add else if op = ascii "-" then some .sub else none

def sbPowExpr (unary : (k : Nat) → Parse Value) (k : Nat) : Parse Value := do
  takeFrame k
  let r ← unary (k + 1)
  arithLoop math toks (unary (k + 1)) powOp toks.length r

def sbMulExpr (unary : (k : Nat) → Parse Value) (k : Nat) : Parse Value := do
  takeFrame k
  let r ← sbPowExpr math toks unary (k + 1)
  arithLoop math toks (sbPowExpr math toks unary (k + 1)) mulOp toks.length r

def sbAddExpr (unary : (k : Nat) → Parse Value) (k : Nat) : Parse Value := do
  takeFrame k
  let r ← sbMulExpr math toks unary (k + 1)
  arithLoop math toks (sbMulExpr math toks unary (k + 1)) addOp toks.length r

/-- `a & b` -/
def sbJoin (a b : Value) : Value :=
  if sbIsErr b then b else if sbIsErr a then a else .text (sbTextOf a ++ sbTextOf b)

def concatLoop (next : Parse Value) : (turns : Nat) → Value → Parse Value
  | 0, r => pure r
  | turns + 1, r => do
    if ← sbAccept toks "&" then
      let b ← next
      concatLoop next turns (sbJoin r b)
    else pure r

def sbConcatExpr (unary : (k : Nat) → Parse Value) (k : Nat) : Parse Value := do
  takeFrame k
  let r ← sbAddExpr math toks unary (k + 1)
  concatLoop toks (sbAddExpr math toks unary (k + 1)) toks.length r

def comparisonOf (op : Text) : Option Comparison :=
  if op = ascii "=" then some .eq
  else if op = ascii "<>" then some .ne
  else if op = ascii "<" then some .lt
  else if op = ascii ">" then some .gt
  else if op = ascii "<=" then some .le
  else if op = ascii ">=" then some .ge
  else none

/-- `sb_expr`; each of `calls` takes frames, and so does each sign in `sb_unary`. -/
def sbExpr (limit : Nat) : (calls : Nat) → (k : Nat) → Parse Value
  | 0, _ => StateT.lift .fail
  | calls + 1, k => do
    takeFrame k
    let unary := sbUnary math toks (sbExpr limit calls) limit
    let r ← sbConcatExpr math toks unary (k + 1)
    match comparisonOf (← sbPeekOp toks) with
    | none => pure r
    | some op =>
      modify (· + 1)
      let b ← sbConcatExpr math toks unary (k + 1)
      StateT.lift (orFail (sbCompareOp r b op))

end

section

variable (math : Mathematics) (limit : Nat)

/-- The end of `sb_formula`, at the position where the parser stopped. -/
def formulaEnd (toks : List Token) (r : Value) (pos : Nat) : Value :=
  if pos < toks.length ∧ sbIsErr r = false then sbErr "#ERROR!"
  else
    match r with
    | .range .. => sbErr "#VALUE!"
    | r => r

/-- `sb_formula`; `limit` frames bound the calls within one another. -/
def sbFormula (k : Nat) (text : Text) : Eval Value := .frame k do
  let toks := sbTokens text
  let (r, pos) ← (sbExpr math toks limit limit (k + 1)).run 0
  pure (formulaEnd toks r pos)

def sbCompute (k : Nat) (text : Text) : Eval Value := .frame k <|
  match text with
  | [] => .done .null
  | 61 :: b :: s => sbFormula math limit (k + 1) (b :: s)
  | text =>
    match if Stalin.strTrim text = [] then none else strToNumber (Stalin.strTrim text) with
    | some n => .done (.number n)
    | none => .done (.text text)

end

end Ussr.Siberia
