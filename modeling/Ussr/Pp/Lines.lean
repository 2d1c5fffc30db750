import Ussr.Stalin.Fields
import Ussr.Uno.Text

/-! The macros of the preprocessor, as `pp.c` keeps and expands them: a table of
names, or signatures, with their values, and the expansion of a text. -/

namespace Ussr.Pp
open Real64 (ascii)
open Stalin (Text)
open Uno (byte isSpace isIdentStart isIdentPart)

structure Define where
  name : Text
  value : Text
deriving DecidableEq

def ppSkipSpace (text : Text) : Text := text.dropWhile isSpace

def ppFindDefine (defines : List Define) (name : Text) : Option Define := defines.find? fun d => d.name = name

def setValue (name value : Text) : List Define → List Define
  | [] => []
  | d :: ds => if d.name = name then { d with value := value } :: ds else d :: setValue name value ds

def ppDefine (defines : List Define) (name value : Text) : List Define :=
  match ppFindDefine defines name with
  | some _ => setValue name value defines
  | none => ⟨name, value⟩ :: defines

/-- `pp_is_defined`, `depth` files deep. -/
def ppIsDefined (defines : List Define) (depth : Nat) (name : Text) : Bool :=
  if name = ascii "__MAIN__" ∧ ppFindDefine defines name = none then depth = 1 else (ppFindDefine defines name).isSome

/-- The loop of `pp_macro_signature` over the parameters. -/
def signatureParameters : (turns : Nat) → Text → Option (List Text)
  | 0, _ => none
  | turns + 1, text =>
    let parameter := text.takeWhile isIdentPart
    if parameter = [] then none
    else
      match ppSkipSpace (text.dropWhile isIdentPart) with
      | c :: cs =>
        if c = byte ')' then (if cs = [] then some [parameter] else none)
        else if c = byte ',' then (signatureParameters turns (ppSkipSpace cs)).map (parameter :: ·)
        else none
      | [] => none

/-- `pp_macro_signature` of the name of a definition: the parameters where it is a signature of `name`;
the outer `none` is its error. -/
def ppMacroSignature (signature name : Text) : Option (Option (List Text)) :=
  match signature.dropWhile (· ≠ byte '(') with
  | [] => some none
  | _ :: rest =>
    if signature.takeWhile (· ≠ byte '(') ≠ name then some none
    else
      match ppSkipSpace rest with
      | [] => (signatureParameters rest.length (ppSkipSpace rest)).map some
      | c :: cs =>
        if c = byte ')' then (if cs = [] then some (some []) else some none)
        else (signatureParameters rest.length (ppSkipSpace rest)).map some

def ppFindFunctionDefine (name : Text) : List Define → Option (Define × List Text)
  | [] => none
  | d :: ds =>
    if byte '(' ∉ d.name then ppFindFunctionDefine name ds
    else
      match ppMacroSignature d.name name with
      | none => none
      | some none => ppFindFunctionDefine name ds
      | some (some parameters) => some (d, parameters)

def scanString : Text → (escaped : Bool) → Text × Text
  | [], _ => ([], [])
  | c :: cs, escaped =>
    if !escaped ∧ c = byte '"' then ([c], cs)
    else
      let rest := scanString cs (!escaped ∧ c = byte '\\')
      (c :: rest.1, rest.2)

def ppTrimmed (text : Text) : Text := ((ppSkipSpace text).reverse.dropWhile isSpace).reverse

/-- Where `pp_extract_macro_arguments` stands: the arguments read, and the one it reads. -/
structure Arguments where
  read : List Text
  argument : Text
  parens : Nat
  braces : Nat
  inString : Bool
  escaped : Bool

def Arguments.push (s : Arguments) (c : UInt8) : Arguments := { s with argument := s.argument ++ [c] }

/-- What a turn of `pp_extract_macro_arguments` comes to. -/
inductive Turn where
  | go (s : Arguments)
  | fail
  | done (read : List Text)

/-- The turn at the byte `c`. -/
def Arguments.turn (s : Arguments) (c : UInt8) : Turn :=
  if s.inString then
    if s.escaped then .go { s.push c with escaped := false }
    else if c = byte '\\' then .go { s.push c with escaped := true }
    else if c = byte '"' then .go { s.push c with inString := false }
    else .go (s.push c)
  else if c = byte '"' then .go { s.push c with inString := true }
  else if c = byte '(' then .go { s.push c with parens := s.parens + 1 }
  else if c = byte ')' then
    if 0 < s.parens then .go { s.push c with parens := s.parens - 1 }
    else if s.braces ≠ 0 then .fail
    else if s.argument ≠ [] ∨ s.read ≠ [] then .done (s.read ++ [ppTrimmed s.argument])
    else .done s.read
  else if c = byte '{' then .go { s.push c with braces := s.braces + 1 }
  else if c = byte '}' ∧ 0 < s.braces then .go { s.push c with braces := s.braces - 1 }
  else if c = byte ',' ∧ s.parens = 0 ∧ s.braces = 0 then .go { s with read := s.read ++ [ppTrimmed s.argument], argument := [] }
  else .go (s.push c)

/-- The loop of `pp_extract_macro_arguments`: the arguments and what is behind them. -/
def argumentsFrom : Text → Arguments → Option (List Text × Text)
  | [], _ => none
  | c :: cs, s =>
    match s.turn c with
    | .go s' => argumentsFrom cs s'
    | .fail => none
    | .done read => some (read, cs)

/-- `pp_extract_macro_arguments` from behind the opening parenthesis. -/
def ppExtractMacroArguments (text : Text) : Option (List Text × Text) := argumentsFrom text ⟨[], [], 0, 0, false, false⟩

/-- The loop of `pp_substitute_macro`. -/
def substituteFrom (bindings : List (Text × Text)) : (turns : Nat) → Text → (inString escaped : Bool) → Text
  | 0, _, _, _ => []
  | _, [], _, _ => []
  | turns + 1, c :: cs, true, escaped =>
    c :: substituteFrom bindings turns cs (escaped || c ≠ byte '"') (!escaped && c = byte '\\')
  | turns + 1, c :: cs, false, escaped =>
    if c = byte '"' then c :: substituteFrom bindings turns cs true escaped
    else if !isIdentStart c then c :: substituteFrom bindings turns cs false escaped
    else
      let name := c :: cs.takeWhile isIdentPart
      ((bindings.find? fun p => p.1 = name).map Prod.snd).getD name ++
        substituteFrom bindings turns (cs.dropWhile isIdentPart) false escaped

def ppSubstituteMacro (body : Text) (parameters arguments : List Text) : Text :=
  substituteFrom (parameters.zip arguments) body.length body false false

/-- The loop of `pp_expand_text_depth`; `deeper` expands what a macro stands for. -/
def expandFrom (defines : List Define) (deeper : Text → Option Text) : (turns : Nat) → Text → Option Text
  | _, [] => some []
  | 0, _ :: _ => none
  | turns + 1, c :: cs =>
    if c = byte '"' then
      let (string, rest) := scanString cs false
      (expandFrom defines deeper turns rest).map fun out => c :: string ++ out
    else if !isIdentStart c then (expandFrom defines deeper turns cs).map (c :: ·)
    else
      let name := c :: cs.takeWhile isIdentPart
      let rest := cs.dropWhile isIdentPart
      let lookahead := ppSkipSpace rest
      let function := if lookahead.head? = some (byte '(') then ppFindFunctionDefine name defines else none
      match function with
      | some (define, parameters) => do
        let (arguments, after) ← ppExtractMacroArguments lookahead.tail
        if arguments.length ≠ parameters.length then none
        else do
          let out ← deeper (ppSubstituteMacro define.value parameters arguments)
          let more ← expandFrom defines deeper turns after
          return out ++ more
      | none =>
        match ppFindDefine defines name with
        | some define =>
          if byte '(' ∉ define.name then do
            let out ← deeper define.value
            let more ← expandFrom defines deeper turns rest
            return out ++ more
          else (expandFrom defines deeper turns rest).map (name ++ ·)
        | none => (expandFrom defines deeper turns rest).map (name ++ ·)

/-- `pp_expand_text_depth`, with so many levels left. -/
def ppExpandTextDepth (defines : List Define) : (levels : Nat) → Text → Option Text
  | 0, _ => none
  | levels + 1, text => expandFrom defines (ppExpandTextDepth defines levels) text.length text

def ppExpandText (defines : List Define) (text : Text) : Option Text := ppExpandTextDepth defines 65 text

/-- The scan of `pp_parse_define` for the parenthesis that closes a signature. -/
def scanSignature : Text → (depth : Int) → (inString escaped : Bool) → Option (Text × Text)
  | [], _, _, _ => none
  | c :: cs, depth, true, escaped =>
    (scanSignature cs depth (escaped || c ≠ byte '"') (!escaped && c = byte '\\')).map fun p => (c :: p.1, p.2)
  | c :: cs, depth, false, escaped =>
    if c = byte ')' ∧ depth - 1 = 0 then some ([c], cs)
    else
      let depth := if c = byte '(' then depth + 1 else if c = byte ')' then depth - 1 else depth
      (scanSignature cs depth (c = byte '"') escaped).map fun p => (c :: p.1, p.2)

def chomp (value : Text) : Text := (value.reverse.dropWhile fun c => c = byte '\n' || c = byte '\r').reverse

/-- `pp_parse_define`: the table with the new definition. -/
def ppParseDefine (defines : List Define) (text : Text) : Option (List Define) :=
  match ppSkipSpace text with
  | [] => none
  | c :: cs =>
    if !isIdentStart c then none
    else
      let name := c :: cs.takeWhile isIdentPart
      let rest := cs.dropWhile isIdentPart
      let gap := rest.takeWhile isSpace
      let cursor := rest.dropWhile isSpace
      if cursor.head? = some (byte '(') then do
        let (parens, after) ← scanSignature cursor 0 false false
        let signature := name ++ gap ++ parens
        match ppMacroSignature signature name with
        | some (some _) => return ppDefine defines signature (chomp (ppSkipSpace after))
        | _ => none
      else some (ppDefine defines name (chomp cursor))

/-- `pp_parse_include`: the filename. -/
def ppParseInclude (text : Text) : Option Text :=
  match ppSkipSpace text with
  | [] => none
  | c :: cs =>
    if c = byte '"' then
      if byte '"' ∈ cs then some (cs.takeWhile (· ≠ byte '"')) else none
    else some ((c :: cs).takeWhile fun c => !isSpace c)

def ppParseDefined (defines : List Define) (depth : Nat) (text : Text) : Option Bool :=
  let cursor := ppSkipSpace text
  if cursor.take 7 ≠ ascii "defined" then none
  else
    let start := cursor.drop 7
    let cursor := ppSkipSpace start
    let parenthesized : Bool := cursor.head? = some (byte '(')
    if !parenthesized ∧ cursor = start then none
    else
      let start := if parenthesized then ppSkipSpace cursor.tail else cursor
      let name := start.takeWhile isIdentPart
      if name = [] then none
      else if parenthesized ∧ (ppSkipSpace (start.dropWhile isIdentPart)).head? ≠ some (byte ')') then none
      else some (ppIsDefined defines depth name)

/-! The preprocessor line by line, as `pp.c` reads its files: conditionals,
directives, included files, and the map from the lines of the output to the lines
they came from. -/

open Uno (isAlpha)

def maxIncludeDepth : Nat := 32

structure Condition where
  active : Bool
  seenElse : Bool
  taken : Bool
deriving DecidableEq

structure Setting where
  defines : List Define
  includeStack : List Text
  onceFiles : List Text
  conditions : List Condition
  currentActive : Bool

/-- `ussr_preprocessor_t`; `lines` has an index into `mapFiles` and a line number for every line of the output. -/
structure Pp extends Setting where
  output : Text
  mapFiles : List Text
  lines : List (Nat × Int)
  mapLength : Nat
  currentLine : Int

def Setting.init : Setting := ⟨[], [], [], [], true⟩

def ussrPpInit : Pp := ⟨.init, [], [], [], 0, 0⟩

structure Disk where
  read : Text → Option Text
  realpath : Text → Option Text

def ppConditionPush (s : Setting) (condition : Bool) : Option Setting :=
  if maxIncludeDepth ≤ s.conditions.length then none
  else
    let active := s.currentActive && condition
    some { s with conditions := ⟨active, false, active⟩ :: s.conditions, currentActive := active }

def parentActive : List Condition → Bool
  | [] => true
  | c :: _ => c.active

def ppConditionElse (s : Setting) : Option Setting :=
  match s.conditions with
  | [] => none
  | c :: cs =>
    if c.seenElse then none
    else
      let active := parentActive cs && !c.taken
      some { s with conditions := ⟨active, true, true⟩ :: cs, currentActive := active }

def ppConditionElif (s : Setting) (condition : Bool) : Option Setting :=
  match s.conditions with
  | [] => none
  | c :: cs =>
    if c.seenElse then none
    else
      let active := parentActive cs && !c.taken && condition
      some { s with conditions := ⟨active, c.seenElse, c.taken || active⟩ :: cs, currentActive := active }

def ppConditionPop (s : Setting) : Option Setting :=
  match s.conditions with
  | [] => none
  | _ :: cs => some { s with conditions := cs, currentActive := parentActive cs }

/-- The word of a directive and what is behind it; `none` for a line of text. -/
def directive (line : Text) : Option (Text × Text) :=
  match ppSkipSpace line with
  | [] => none
  | c :: cs => if c = byte '$' then some (cs.takeWhile isIdentPart, ppSkipSpace (cs.dropWhile isIdentPart)) else none

def ppCanonicalPath (disk : Disk) (path : Text) : Text := (disk.realpath path).getD path

/-- The `$ifdef` of a name. -/
def ppIfdef (defines : List Define) (depth : Nat) (rest : Text) : Option Bool :=
  let name := rest.takeWhile isIdentPart
  if name = [] then none else some (ppIsDefined defines depth name)

/-- `pp_process_directive` for every directive but `$include`. -/
def ppDirective (disk : Disk) (s : Setting) (word rest : Text) : Option Setting :=
  if word = ascii "define" then (ppParseDefine s.defines rest).map fun defines => { s with defines := defines }
  else if word = ascii "ifdef" then (ppIfdef s.defines s.includeStack.length rest).bind (ppConditionPush s)
  else if word = ascii "if" then (ppParseDefined s.defines s.includeStack.length rest).bind (ppConditionPush s)
  else if word = ascii "elif" then (ppParseDefined s.defines s.includeStack.length rest).bind (ppConditionElif s)
  else if word = ascii "else" then ppConditionElse s
  else if word = ascii "endif" then ppConditionPop s
  else if word = ascii "once" then
    match s.includeStack with
    | [] => some s
    | file :: _ => if s.currentActive then some { s with onceFiles := s.onceFiles ++ [ppCanonicalPath disk file] } else some s
  else none

def pathMax : Nat := 4096

def isSeparator (c : UInt8) : Bool := c = byte '/' || c = byte '\\'

def isAbsolute : Text → Bool
  | [] => false
  | c :: cs => isSeparator c || (isAlpha c && cs.head? = some (byte ':') && cs.tail.head?.any isSeparator)

def ppResolveIncludePath (includeStack : List Text) (filename : Text) : Option Text :=
  let directory := if isAbsolute filename then []
    else ((includeStack.head?.getD []).reverse.dropWhile fun c => !isSeparator c).reverse
  if directory.length + filename.length < pathMax then some (directory ++ filename) else none

/-- `pp_process_directive`; `file` is `ussr_pp_process_file`. -/
def ppProcessDirective (file : Pp → Text → Option Pp) (disk : Disk) (pp : Pp) (word rest : Text) : Option Pp :=
  if word = ascii "include" then
    if pp.currentActive then do
      let filename ← ppParseInclude rest
      let resolved ← ppResolveIncludePath pp.includeStack filename
      file pp resolved
    else some pp
  else (ppDirective disk pp.toSetting word rest).map fun s => { pp with toSetting := s }

/-- `pp_map_flush`: what was put out since the last time came from the present line. -/
def ppMapFlush (pp : Pp) : Pp :=
  if pp.output.length ≤ pp.mapLength then pp
  else
    let file := pp.includeStack.head?.getD (ascii "<stdin>")
    let index := pp.mapFiles.idxOf file
    let ends := (pp.output.drop pp.mapLength).filter (· = byte '\n')
    { pp with
      mapFiles := if index = pp.mapFiles.length then pp.mapFiles ++ [file] else pp.mapFiles
      lines := pp.lines ++ ends.map fun _ => (index, pp.currentLine)
      mapLength := pp.output.length }

/-- `ussr_pp_locate`: file and line number of a line of the output. -/
def ussrPpLocate (pp : Pp) (outputLine : Int) : Option (Text × Int) :=
  if outputLine < 1 ∨ pp.lines = [] then none
  else
    let index := (outputLine - 1).toNat
    if pp.lines.length < index then none
    else do
      let (file, number) ← pp.lines[if pp.lines.length ≤ index then pp.lines.length - 1 else index]?
      let name ← pp.mapFiles[file]?
      return (name, number)

def ended (line text : Text) : Text := if line.getLast? = some (byte '\n') then text else text ++ [byte '\n']

def ppProcessLineBody (file : Pp → Text → Option Pp) (disk : Disk) (pp : Pp) (line : Text) : Option Pp :=
  match directive line with
  | some (word, rest) => ppProcessDirective file disk pp word rest
  | none =>
    if pp.currentActive then (ppExpandText pp.defines line).map fun text => { pp with output := pp.output ++ ended line text }
    else some pp

/-- `++pp->current_line`, 32 bits wide. -/
def Pp.countLine (pp : Pp) : Pp := { pp with currentLine := (pp.currentLine + 1).bmod 4294967296 }

/-- `ussr_pp_process_line`. -/
def ppProcessLine (file : Pp → Text → Option Pp) (disk : Disk) (pp : Pp) (line : Text) : Option Pp :=
  (ppProcessLineBody file disk (if pp.includeStack = [] then pp.countLine else pp) line).map ppMapFlush

def ppPushInclude (includeStack : List Text) (filename : Text) : Option (List Text) :=
  if maxIncludeDepth ≤ includeStack.length then none
  else if includeStack.contains filename then none
  else some (filename :: includeStack)

/-- What `pp_process_file_body` does before its loop: the open files and the text of this one, or the inner `none`
for a file that is to be read once and was. -/
def ppOpen (disk : Disk) (onceFiles includeStack : List Text) (filename : Text) : Option (Option (List Text × Text)) :=
  if onceFiles.contains (ppCanonicalPath disk filename) then some none
  else do
    let includeStack ← ppPushInclude includeStack filename
    let text ← disk.read filename
    return some (includeStack, text)

/-- `fgets` into a buffer with room for so many bytes, and what is left in the file. -/
def fgets : (room : Nat) → Text → Text × Text
  | 0, text => ([], text)
  | _, [] => ([], [])
  | room + 1, c :: cs =>
    if c = byte '\n' then ([c], cs)
    else
      let rest := fgets room cs
      (c :: rest.1, rest.2)

/-- What the loop of `pp_process_file_body` reads, up to a NUL as C reads it, with the mark that tells where a line starts. -/
def pieces (atLineStart : Bool) : (turns : Nat) → Text → List (Bool × Text)
  | 0, _ => []
  | turns + 1, text =>
    if text = [] then []
    else
      let read := fgets 4095 text
      let line := read.1.takeWhile (· ≠ 0)
      (atLineStart, line) :: pieces (line.getLast? = some (byte '\n')) turns read.2

def ppProcessPiece (file : Pp → Text → Option Pp) (disk : Disk) (pp : Pp) (piece : Bool × Text) : Option Pp :=
  ppProcessLine file disk (if piece.1 then pp.countLine else pp) piece.2

def ppProcessFileBody (file : Pp → Text → Option Pp) (disk : Disk) (pp : Pp) (filename : Text) : Option Pp := do
  match ← ppOpen disk pp.onceFiles pp.includeStack filename with
  | none => return pp
  | some (includeStack, text) =>
    let pp ← (pieces true text.length text).foldlM (ppProcessPiece file disk) { pp with includeStack := includeStack }
    if pp.conditions ≠ [] ∧ pp.includeStack.length = 1 then none
    else return { pp with includeStack := pp.includeStack.tail }

/-- `ussr_pp_process_file` where so many more files can be open; the last one finds no room among the open files. -/
def ppProcessFile (disk : Disk) : (levels : Nat) → Pp → Text → Option Pp
  | 0, _, _ => none
  | levels + 1, pp, filename =>
    (ppProcessFileBody (ppProcessFile disk levels) disk { pp with currentLine := 0 } filename).map fun pp' =>
      { pp' with currentLine := pp.currentLine }

def ussrPpProcessFile (disk : Disk) (pp : Pp) (filename : Text) : Option Pp := ppProcessFile disk (maxIncludeDepth + 1) pp filename

def ussrPpProcessLine (disk : Disk) (pp : Pp) (line : Text) : Option Pp :=
  ppProcessLine (ppProcessFile disk (maxIncludeDepth + 1)) disk pp line

end Ussr.Pp
