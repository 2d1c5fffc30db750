import Ussr.Syntax

/-! Bytecode programs: instructions over 32 registers, pools of constants and
strings, functions, and the source commands that instructions refer back to. -/

namespace Ussr

abbrev bcMaxCode : Nat := 1000000
abbrev bcMaxRegs : Nat := 32
abbrev bcReturnReg : Nat := 31

inductive Binary where
  | add | sub | mul | div | mod
  | eq | ne | lt | le | gt | ge
  | land | lor | xor | band | bor | shl | shr
deriving DecidableEq

inductive Opcode where
  | nop
  | loadConst | loadVar | storeVar | loadHash | storeHash | decodeUno
  | get | vectorGet | vectorSet
  | binary (operation : Binary) | neg
  | jmp | jmpTrue | jmpFalse
  | set | print | concat | external | oop | eval
  | random64 | seed64 | scan | time | chain | file | cd | template
  | call | ret | return_ | halt
deriving DecidableEq

def Binary.toByte : Binary → Nat
  | add => 0x10 | sub => 0x11 | mul => 0x12 | div => 0x13 | mod => 0x14
  | eq => 0x16 | ne => 0x17 | lt => 0x18 | le => 0x19 | gt => 0x1a | ge => 0x1b
  | land => 0x1c | lor => 0x1d | xor => 0x1e | band => 0x1f | bor => 0x20
  | shl => 0x21 | shr => 0x22

namespace Opcode

def toByte : Opcode → Nat
  | nop => 0x00
  | loadConst => 0x01 | loadVar => 0x02 | storeVar => 0x03 | loadHash => 0x04
  | storeHash => 0x05 | decodeUno => 0x06
  | get => 0x07 | vectorGet => 0x08 | vectorSet => 0x09
  | binary operation => operation.toByte
  | neg => 0x15
  | jmp => 0x30 | jmpTrue => 0x31 | jmpFalse => 0x32
  | set => 0x40 | print => 0x41 | concat => 0x42 | external => 0x43 | oop => 0x44 | eval => 0x45
  | random64 => 0x46 | seed64 => 0x47 | scan => 0x48 | time => 0x49 | chain => 0x4a | file => 0x4b
  | cd => 0x4c | template => 0x4d
  | call => 0x50 | ret => 0x51 | return_ => 0x52
  | halt => 0xf0

def ofByte : Nat → Option Opcode
  | 0x00 => some nop
  | 0x01 => some loadConst | 0x02 => some loadVar | 0x03 => some storeVar | 0x04 => some loadHash
  | 0x05 => some storeHash | 0x06 => some decodeUno
  | 0x07 => some get | 0x08 => some vectorGet | 0x09 => some vectorSet
  | 0x10 => some (binary .add) | 0x11 => some (binary .sub) | 0x12 => some (binary .mul)
  | 0x13 => some (binary .div) | 0x14 => some (binary .mod) | 0x15 => some neg
  | 0x16 => some (binary .eq) | 0x17 => some (binary .ne) | 0x18 => some (binary .lt)
  | 0x19 => some (binary .le) | 0x1a => some (binary .gt) | 0x1b => some (binary .ge)
  | 0x1c => some (binary .land) | 0x1d => some (binary .lor) | 0x1e => some (binary .xor)
  | 0x1f => some (binary .band) | 0x20 => some (binary .bor) | 0x21 => some (binary .shl)
  | 0x22 => some (binary .shr)
  | 0x30 => some jmp | 0x31 => some jmpTrue | 0x32 => some jmpFalse
  | 0x40 => some set | 0x41 => some print | 0x42 => some concat | 0x43 => some external
  | 0x44 => some oop | 0x45 => some eval | 0x46 => some random64 | 0x47 => some seed64
  | 0x48 => some scan | 0x49 => some time | 0x4a => some chain | 0x4b => some file
  | 0x4c => some cd | 0x4d => some template
  | 0x50 => some call | 0x51 => some ret | 0x52 => some return_
  | 0xf0 => some halt
  | _ => none

theorem ofByte_toByte (opcode : Opcode) : ofByte opcode.toByte = some opcode := by
  cases opcode with
  | binary operation => cases operation <;> rfl
  | _ => rfl

theorem toByte_lt (opcode : Opcode) : opcode.toByte < 256 := by
  cases opcode with
  | binary operation => cases operation <;> decide
  | _ => decide

end Opcode

structure Instruction where
  opcode : Opcode
  a : UInt8 := 0
  b : UInt8 := 0
  c : UInt8 := 0
  immediate : UInt32 := 0
deriving DecidableEq

namespace Instruction

abbrev ra (ins : Instruction) : Nat := ins.a.toNat
abbrev rb (ins : Instruction) : Nat := ins.b.toNat
abbrev rc (ins : Instruction) : Nat := ins.c.toNat
abbrev imm (ins : Instruction) : Nat := ins.immediate.toNat

end Instruction

abbrev varByName : Nat := 0
abbrev varGlobal : Nat := 2

structure Function where
  name : CString
  returnName : Option CString
  parameters : List CString
  entry : UInt32
  /-- Parameters, the return variable and what the body assigns. -/
  locals : List CString
deriving DecidableEq

structure Site where
  instruction : UInt32
  name : Option CString
  returnName : Option CString
  arguments : List Argument

structure Program where
  code : List Instruction
  constants : List Value
  strings : List (Option CString)
  functions : List Function
  oopSites : List Site
  scanSites : List Site

end Ussr
