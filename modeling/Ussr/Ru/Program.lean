import Ussr.Program
import Ussr.Ru.Block

/-! The `.ru` file: a header, the program's code, pools, functions and call
sites, and a checksum of everything before it. -/

namespace Ussr.Ru
open Codec

abbrev ruFormatVersion : Nat := 3
abbrev ruVmAbi : Nat := 3
abbrev ruProducer : Nat := 0 * 65536 + 4 * 256 + 9
abbrev ruHeaderSize : Nat := 24
abbrev ruMaxFileSize : Nat := 256 * 1024 * 1024

def ruMagic : List UInt8 := [0x89, 0x55, 0x53, 0x53, 0x52, 0x0d, 0x0a, 0x1a]

def crcBits : (turns : Nat) → Nat → Nat
  | 0, crc => crc
  | turns + 1, crc =>
    crcBits turns (if crc % 2 = 1 then (crc / 2) ^^^ 0xedb88320 else crc / 2)

def ruCrc32 (data : List UInt8) : Nat :=
  data.foldl (fun crc b => crcBits 8 (crc ^^^ b.toNat)) 0xffffffff ^^^ 0xffffffff

def putInstruction (ins : Instruction) : List UInt8 :=
  UInt8.ofNat ins.opcode.toByte :: ins.a :: ins.b :: ins.c :: putLE 4 ins.immediate.toNat

def putAll {α : Type} (put : α → Option (List UInt8)) : List α → Option (List UInt8)
  | [] => some []
  | a :: as => do return (← put a) ++ (← putAll put as)

def putSection {α : Type} (put : α → Option (List UInt8)) (as : List α) : Option (List UInt8) := do
  return putLE 4 as.length ++ (← putAll put as)

def putRequired (text : CString) : Option (List UInt8) := putString (some text)

def putFunction (f : Function) : Option (List UInt8) := do
  let name ← putString (some f.name)
  let returnName ← putString f.returnName
  let parameters ← putSection putRequired f.parameters
  let locals ← putSection putRequired f.locals
  return name ++ (returnName ++ (putLE 4 f.entry.toNat ++ (parameters ++ locals)))

def putSiteArgument : Argument → Option (List UInt8)
  | .commandList assignment list => do return 2 :: putFlag assignment :: (← putBlock 1 list)
  | .advancedList assignment list => do return 3 :: putFlag assignment :: (← putBlock 1 list)
  | .expression assignment (.variable name) => do
    return 1 :: putFlag assignment :: (← putString (some name))
  | .expression assignment _ => some [0, putFlag assignment]
  | .value assignment _ => some [0, putFlag assignment]
  | .lookup assignment _ => some [0, putFlag assignment]
  | .unoLiteral assignment _ => some [0, putFlag assignment]

def putSite (site : Site) : Option (List UInt8) := do
  guard (site.arguments.length ≤ 255)
  let name ← putString site.name
  let returnName ← putString site.returnName
  let arguments ← putAll putSiteArgument site.arguments
  return putLE 4 site.instruction.toNat ++
    (name ++ (returnName ++ (UInt8.ofNat site.arguments.length :: arguments)))

def putBody (p : Program) : Option (List UInt8) := do
  let code ← putSection (fun ins => some (putInstruction ins)) p.code
  let constants ← putSection putConstant p.constants
  let strings ← putSection putString p.strings
  let functions ← putSection putFunction p.functions
  let oopSites ← putSection putSite p.oopSites
  let scanSites ← putSection putSite p.scanSites
  return code ++ (constants ++ (strings ++ (functions ++ (oopSites ++ scanSites))))

def putHeader (payload : Nat) : List UInt8 :=
  ruMagic ++ putLE 2 ruFormatVersion ++ putLE 2 0 ++ putLE 4 ruVmAbi ++ putLE 4 ruProducer ++
    putLE 4 payload

/-- `ussr_ru_write_file`: the bytes of the file. -/
def writeFile (p : Program) : Option (List UInt8) := do
  let body ← putBody p
  let data := putHeader body.length ++ body
  return data ++ putLE 4 (ruCrc32 data)

def getInstruction : Reader Instruction := do
  let opcode ← getU8
  let a ← getU8
  let b ← getU8
  let c ← getU8
  let immediate ← getU32
  match Opcode.ofByte opcode with
  | some opcode =>
    return ⟨opcode, .ofNat a, .ofNat b, .ofNat c, .ofNat immediate⟩
  | none => fail "unknown opcode"

/-- A counted section whose records take at least `minSize` bytes. -/
def getSection {α : Type} (minSize : Nat) (get : Reader α) : Reader (List α) := do
  let count ← getCount minSize
  many count get

def getCode : Reader (List Instruction) := do
  let count ← getCount 8
  if count = 0 ∨ count > bcMaxCode then
    fail "invalid instruction count"
  else
    let code ← many count getInstruction
    if (code.getLast?.map Instruction.opcode) ≠ some .halt then
      fail "program does not end with HALT"
    else
      return code

def getFunction (codeCount : Nat) : Reader Function := do
  let name ← getRequiredString
  let returnName ← getString
  let entry ← getU32
  let parameterCount ← getCount 4
  if entry ≥ codeCount then
    fail "a function entry is outside the program"
  else if parameterCount > bcMaxRegs then
    fail "a function has too many parameters"
  else
    let parameters ← many parameterCount getRequiredString
    let localCount ← getCount 4
    if localCount < parameterCount + 1 then
      fail "a function lists too few local names"
    else
      let locals ← many localCount getRequiredString
      return ⟨name, returnName, parameters, .ofNat entry, locals⟩

def operandError (p : Program) (ins : Instruction) : Option String :=
  let missing := if (p.strings[ins.imm]?).join.isNone then
    some "a string index is out of range" else none
  match ins.opcode with
  | .jmp | .jmpTrue | .jmpFalse =>
    if ins.imm ≥ p.code.length then some "a jump leaves the program" else none
  | .loadConst =>
    if ins.imm ≥ p.constants.length then some "a constant index is out of range" else none
  | .call =>
    if ins.imm ≥ p.functions.length then some "a function index is out of range" else none
  | .loadVar | .storeVar =>
    if ins.rb > varGlobal then some "a variable has an unknown scope" else missing
  | .loadHash | .storeHash | .decodeUno | .oop | .scan | .external => missing
  | _ => none

def checkOperands (p : Program) : Reader Unit :=
  match p.code.findSome? (operandError p) with
  | some message => fail message
  | none => pure ()

def getSiteArgument : Reader Argument := do
  let kind ← getU8
  let flag ← getU8
  if flag > 1 then
    fail "invalid argument flag in a call site"
  else
    match kind with
    | 2 => return .commandList (flag == 1) (← getBlock 1)
    | 3 => return .advancedList (flag == 1) (← getBlock 1)
    | 1 => return .expression (flag == 1) (.variable (← getRequiredString))
    | 0 => return .value (flag == 1) .null
    | _ => fail "unknown argument kind in a call site"

def getSite (code : List Instruction) (opcode : Opcode) : Reader Site := do
  let instruction ← getU32
  let name ← getString
  let returnName ← getString
  let count ← getU8
  let arguments ← many count getSiteArgument
  if (code[instruction]?).map Instruction.opcode ≠ some opcode then
    fail "a call site does not point at its instruction"
  else
    return ⟨.ofNat instruction, name, returnName, arguments⟩

def getBody : Reader Program := do
  let code ← getCode
  let constants ← getSection 1 getConstant
  let strings ← getSection 4 getString
  let functions ← getSection 16 (getFunction code.length)
  checkOperands ⟨code, constants, strings, functions, [], []⟩
  let oopSites ← getSection 13 (getSite code .oop)
  let scanSites ← getSection 13 (getSite code .scan)
  return ⟨code, constants, strings, functions, oopSites, scanSites⟩

/-- `size` bytes of the file at `offset`, as a number. -/
def field (data : List UInt8) (offset size : Nat) : Nat := ofLE ((data.drop offset).take size)

def checkHeader (data : List UInt8) : Except String Unit :=
  let payload := field data 20 4
  let available := data.length - ruHeaderSize - 4
  if data.take 8 ≠ ruMagic then .error "not a USSR bytecode file (bad signature)"
  else if data.length < ruHeaderSize + 4 then .error "file is truncated"
  else if field data 8 2 ≠ ruFormatVersion then .error "unsupported .ru format version"
  else if field data 10 2 ≠ 0 then .error "unsupported .ru flags"
  else if field data 12 4 ≠ ruVmAbi then
    .error "compiled for an incompatible VM (ABI mismatch)"
  else if payload ≠ available then
    .error (if payload > available then "file is truncated"
      else "unexpected data after the end of the program")
  else if field data (data.length - 4) 4 ≠ ruCrc32 (data.take (data.length - 4)) then
    .error "checksum mismatch (file is corrupted)"
  else .ok ()

/-- `ru_parse` -/
def parse (data : List UInt8) : Except String Program :=
  match checkHeader data with
  | .error e => .error e
  | .ok _ =>
    match getBody ((data.take (data.length - 4)).drop ruHeaderSize) with
    | .error e => .error e
    | .ok (p, rest) =>
      if rest ≠ [] then .error "unexpected data after the last section" else .ok p

end Ussr.Ru
