import Ussr.Stalin.Table

/-! The commands that change a table: `add`, `rm` and `edit`. Each loads the device,
changes the partitions in memory and commits them. -/

namespace Ussr.Stalin
open ByteFields Codec Real64

structure Numbers where
  Number : Type
  strToNumber : Text → Option Number
  integer : Number → Option (BitVec 64)
  times : Number → Int → Number
  strTrunc : Number → BitVec 64

/-- The options of a command line; `none` was not given. -/
structure Options where
  start : Option Text
  size : Option Text
  type : Option Text
  name : Option Text
  boot : Option Text
  uuid : Option Text
  attrs : Option Text
  num : Option Text
deriving DecidableEq

inductive Refusal where
  | load (message : String)
  | noTable
  | badStart (text : Text)
  | badSize (text : Text)
  | doesNotFit (free : Int) (start : Int)
  | notFree (start : Int)
  | noSpace
  | unknownType (kind : Kind) (text : Text)
  | protectiveType
  | mbrNames
  | mbrGuids
  | badGuid (text : Text)
  | mbrAttributes
  | badAttrs (text : Text)
  | badBoot
  | numRange (slots : Int)
  | partitionExists (num : Int)
  | slotsUsed (kind : Kind)
  | badNumber (text : Text)
  | noPartition (text : Text)
  | logical
deriving DecidableEq

/-- `st_type_table`: name, GPT type GUID, MBR type. -/
def stTypeTable : List (String × String × String) := [
  ("linux", "0FC63DAF-8483-4772-8E79-3D69D8477DE4", "83"),
  ("swap", "0657FD6D-A4AB-43C4-84E5-0933C84B4F4F", "82"),
  ("home", "933AC7E1-2EB4-4F13-B844-0E14E2AEF915", ""),
  ("lvm", "E6D6D379-F507-44C2-A23C-238F2A3DF928", "8E"),
  ("raid", "A19D880F-05FC-4D3B-A006-743F0F84911E", "FD"),
  ("ntfs", "EBD0A0A2-B9E5-4433-87C0-68B6B72699C7", "07"),
  ("fat32", "EBD0A0A2-B9E5-4433-87C0-68B6B72699C7", "0C"),
  ("fat16", "EBD0A0A2-B9E5-4433-87C0-68B6B72699C7", "0E"),
  ("fat32-chs", "", "0B"),
  ("fat16-chs", "", "06"),
  ("efi", "C12A7328-F81F-11D2-BA4B-00A0C93EC93B", "EF"),
  ("msr", "E3C9E316-0B5C-4DB8-817D-F92DF00215AE", ""),
  ("winre", "DE94BBA4-06D1-4D40-A16A-BFD50179D6AC", "27"),
  ("belarus", "B3E1A2C5-5553-4252-8E4C-42454C415255", "7F"),
  ("bios-boot", "21686148-6449-6E6F-744E-656564454649", ""),
  ("ufs", "516E7CB6-6ECF-11D6-8FF8-00022D09712B", "A5"),
  ("freebsd-boot", "83BD6B9D-7F41-11DC-BE0B-001560B84F0F", ""),
  ("freebsd-swap", "516E7CB5-6ECF-11D6-8FF8-00022D09712B", ""),
  ("freebsd-zfs", "516E7CBA-6ECF-11D6-8FF8-00022D09712B", ""),
  ("ffs2", "824CC7A0-36A8-11E3-890A-952519AD3F61", "A6"),
  ("netbsd", "49F48D5A-B10E-11DC-B99B-0019D1879648", "A9"),
  ("extended", "", "05"),
  ("extended-lba", "", "0F")]

def stTypeAlias : List (String × String) := [
  ("ext2", "linux"), ("ext3", "linux"), ("ext4", "linux"), ("linux-swap", "swap"),
  ("windows", "ntfs"), ("exfat", "ntfs"), ("fat", "fat32"), ("vfat", "fat32"), ("esp", "efi"),
  ("ufs2", "ufs"), ("ufs1", "ufs"), ("freebsd", "ufs"), ("openbsd", "ffs2"), ("ffs", "netbsd")]

def rowCode (kind : Kind) (row : String × String × String) : Text :=
  ascii (if kind = .gpt then row.2.1 else row.2.2)

def stTypeCode (name : Text) (kind : Kind) : Option Text :=
  let want := stTypeAlias.foldl (fun want row => if ascii row.1 = want then ascii row.2 else want)
    (strLower name)
  match stTypeTable.find? fun row => ascii row.1 = want ∧ rowCode kind row ≠ [] with
  | some row => some (rowCode kind row)
  | none =>
    if kind = .gpt then stGuidClean name
    else
      match stParseHexByte name with
      | none => none
      | some b => if 0 < b then some (stHex b) else none

/-- `st_parse_size` in sectors: -1 for no size, -2 for the largest. -/
def stParseSize (N : Numbers) (sector : Nat) (text : Text) : Int :=
  let s := strLower text
  let n := s.length
  if s = ascii "max" ∨ s = ascii "rest" then -2
  else if n = 0 then -1
  else
    -- the b of "MiB", "MB" and "KB", and an i before it, say nothing
    let e :=
      if byteAt s (n - 1) = 98 ∧ 1 < n then
        if byteAt s (n - 2) = 105 ∧ 2 < n then n - 2 else n - 1
      else n
    let c := byteAt s (e - 1)
    let mult := if c = 107 then 1024 else if c = 103 then 1073741824
      else if c = 116 then 1099511627776 else 1048576
    let e := if c = 115 ∨ c = 107 ∨ c = 109 ∨ c = 103 ∨ c = 116 then e - 1 else e
    if e < 1 then -1
    else if (s.take e).any fun d => (d.toNat < 48 || 57 < d.toNat) && d ≠ 46 then -1
    else
      match N.strToNumber (s.take e) with
      | none => -1
      | some x =>
        if c = 115 then (N.strTrunc x).toInt
        else stDiv (N.strTrunc (N.times x mult)).toInt sector

/-- `st_sorted`, by insertion from the right. -/
def insertPart (sorted : List StPart) (p : StPart) : List StPart :=
  let behind := (sorted.reverse.takeWhile fun a => 0 < wrap (a.start - p.start)).reverse
  sorted.take (sorted.length - behind.length) ++ p :: behind

def stSorted (parts : List StPart) : List StPart := parts.foldl insertPart []

def stUsable (d : Device) (t : Table) : Int × Int :=
  if t.kind = .gpt then (t.first, t.last) else (1, min ((d.lbas : Int) - 1) 0xFFFFFFFF)

/-- The loop of `st_free`: the ranges between the partitions, and where the rest begins. -/
def freeLoop (hi : Int) : (used : List StPart) → (from_ : Int) → List (Int × Int)
  | [], from_ => if from_ ≤ hi then [(from_, hi)] else []
  | p :: used, from_ =>
    let last := min (wrap (p.start - 1)) hi
    let next := if from_ < wrap (p.end_ + 1) then wrap (p.end_ + 1) else from_
    (if from_ < p.start ∧ from_ ≤ last then [(from_, last)] else []) ++ freeLoop hi used next

def stFree (d : Device) (t : Table) (skip : Int) : List (Int × Int) :=
  freeLoop (stUsable d t).2
    (stSorted (t.parts.filter fun p => p.num ≠ skip ∧ p.logical = false)) (stUsable d t).1

def stAlign (d : Device) : Int := max 1 (stDiv 1048576 d.sector)

def stAlignUp (d : Device) (x : Int) : Int := wrap (stDivUp x (stAlign d) * stAlign d)

/-- The loop of `st_place` over the free ranges. -/
def placeLoop (d : Device) (start size : Int) : List (Int × Int) → Except Refusal (Int × Int)
  | [] => .error (if 0 ≤ start then .notFree start else .noSpace)
  | (a, b) :: free =>
    let s := if start < 0 then stAlignUp d a else start
    if a ≤ s ∧ s ≤ b then
      let e := if 0 < size then wrap (s + size - 1) else b
      if e ≤ b then .ok (s, e)
      else if 0 ≤ start then .error (.doesNotFit (wrap (b - s + 1)) s)
      else placeLoop d start size free
    else placeLoop d start size free

def stPlace (N : Numbers) (d : Device) (t : Table) (o : Options) (skip oldStart oldSize : Int) :
    Except Refusal (Int × Int) := do
  let start ← match o.start with
    | none => pure oldStart
    | some text =>
      if stParseSize N d.sector text < 0 then .error (.badStart text)
      else pure (stParseSize N d.sector text)
  let size ← match o.size with
    | none => pure oldSize
    | some text =>
      if stParseSize N d.sector text = -1 ∨ stParseSize N d.sector text = 0 then .error (.badSize text)
      else pure (stParseSize N d.sector text)
  placeLoop d start size (stFree d t skip)

/-- `--type` in `st_apply`. -/
def applyType (kind : Kind) (o : Options) (p : StPart) : Except Refusal StPart :=
  match o.type with
  | none => .ok p
  | some text =>
    match stTypeCode text kind with
    | none => .error (.unknownType kind text)
    | some code =>
      if kind = .mbr ∧ code = ascii "EE" then .error .protectiveType else .ok { p with type := code }

/-- `--name` in `st_apply`. -/
def applyName (kind : Kind) (o : Options) (p : StPart) : Except Refusal StPart :=
  match o.name with
  | none => .ok p
  | some text => if kind = .mbr then .error .mbrNames else .ok { p with name := text }

/-- `--uuid` in `st_apply`. -/
def applyUuid (kind : Kind) (o : Options) (p : StPart) : Except Refusal StPart :=
  match o.uuid with
  | none => .ok p
  | some text =>
    if kind = .mbr then .error .mbrGuids
    else
      match stGuidClean text with
      | none => .error (.badGuid text)
      | some g => .ok { p with uuid := g }

def bootable (attrs : Int) : Bool := attrs / 4 % 2 = 1

/-- `--attrs` in `st_apply`. -/
def applyAttrs (N : Numbers) (kind : Kind) (o : Options) (p : StPart) : Except Refusal StPart :=
  match o.attrs with
  | none => .ok p
  | some text =>
    if kind = .mbr then .error .mbrAttributes
    else
      match (N.strToNumber text).bind N.integer with
      | none => .error (.badAttrs text)
      | some a => .ok { p with attrs := a.toInt, boot := bootable a.toInt }

/-- `--boot`: on, off, or no such word. -/
def bootWord (text : Text) : Option Bool :=
  let b := strLower text
  if b = ascii "on" ∨ b = ascii "yes" ∨ b = ascii "1" ∨ b = ascii "true" then some true
  else if b = ascii "off" ∨ b = ascii "no" ∨ b = ascii "0" ∨ b = ascii "false" then some false
  else none

/-- `--boot` in `st_apply`. -/
def applyBoot (kind : Kind) (o : Options) (p : StPart) : Except Refusal StPart :=
  match o.boot with
  | none => .ok p
  | some text =>
    match bootWord text with
    | none => .error .badBoot
    | some on =>
      if kind = .mbr then .ok { p with boot := on }
      else
        let cleared := if bootable p.attrs then p.attrs - 4 else p.attrs
        .ok { p with attrs := if on then cleared + 4 else cleared, boot := on }

/-- `st_apply` on the partition itself. -/
def stApply (N : Numbers) (kind : Kind) (o : Options) (p : StPart) : Except Refusal StPart := do
  let p ← applyType kind o p
  let p ← applyName kind o p
  let p ← applyUuid kind o p
  let p ← applyAttrs N kind o p
  applyBoot kind o p

/-- An MBR has one active partition: `--boot on` takes the flag from the others. -/
def takeBoot (kind : Kind) (o : Options) (parts : List StPart) : List StPart :=
  if kind = .mbr ∧ o.boot.bind bootWord = some true then parts.map fun q => { q with boot := false }
  else parts

def stFind (parts : List StPart) (num : Int) : Option StPart :=
  parts.reverse.find? fun p => p.num = num

def stTarget (N : Numbers) (t : Table) (text : Text) : Except Refusal StPart :=
  match (N.strToNumber text).bind N.integer with
  | none => .error (.badNumber text)
  | some num =>
    match stFind t.parts num.toInt with
    | none => .error (.noPartition text)
    | some p => .ok p

def stNewNum (N : Numbers) (t : Table) (o : Options) : Except Refusal Int :=
  let slots := if t.kind = .gpt then t.entryCount else 4
  match o.num with
  | some text =>
    let num := match (N.strToNumber text).bind N.integer with
      | none => 0
      | some num => num.toInt
    if num < 1 ∨ slots < num then .error (.numRange slots)
    else if (stFind t.parts num).isSome then .error (.partitionExists num)
    else .ok num
  | none =>
    match (List.range slots.toNat).find? fun k : Nat => stFind t.parts ((k : Int) + 1) = none with
    | none => .error (.slotsUsed t.kind)
    | some k => .ok (k + 1)

/-- `st_guid_new` from the 16 bytes of `st_random16`. -/
def stGuidNew (random : List UInt8) : Text :=
  let t := (random.set 6 (byteAt random 6 &&& 15 ||| 64)).set 8 (byteAt random 8 &&& 63 ||| 128)
  guidText (bytesAt t 0 16)

/-- `st_cmd_add` up to its commit. -/
def stCmdAdd (N : Numbers) (random : List UInt8) (o : Options) (d : Device) (t : Table) :
    Except Refusal Table := do
  let num ← stNewNum N t o
  let code := (stTypeCode (ascii "linux") t.kind).getD []
  let uuid := if t.kind = .gpt then stGuidNew random else []
  let part ← stApply N t.kind o ⟨num, 0, 0, code, [], uuid, 0, false, false⟩
  let place ← stPlace N d t o 0 (-1) (-1)
  return { t with
    parts := takeBoot t.kind o t.parts ++ [{ part with start := place.1, end_ := place.2 }] }

/-- `st_cmd_rm` up to its commit. -/
def stCmdRm (N : Numbers) (target : Text) (t : Table) : Except Refusal Table := do
  let part ← stTarget N t target
  if part.logical then .error .logical
  else
    return { t with
      parts := t.parts.filter fun q =>
        q.num ≠ part.num ∧ (q.logical = false ∨ stIsExtended part.type = false ∨ t.kind ≠ .mbr) }

/-- Where `st_cmd_edit` moves a partition. -/
def editPlace (N : Numbers) (o : Options) (d : Device) (t : Table) (p : StPart) :
    Except Refusal StPart :=
  if o.start = none ∧ o.size = none then .ok p
  else do
    let place ← stPlace N d t o p.num p.start (wrap (p.end_ - p.start + 1))
    return { p with start := place.1, end_ := place.2 }

/-- `st_cmd_edit` up to its commit. -/
def stCmdEdit (N : Numbers) (target : Text) (o : Options) (d : Device) (t : Table) :
    Except Refusal Table := do
  let part ← stTarget N t target
  if part.logical then .error .logical
  else
    let moved ← editPlace N o d t part
    let changed ← stApply N t.kind o moved
    return { t with
      parts := (takeBoot t.kind o t.parts).map fun q => if q.num = part.num then changed else q }

inductive Command where
  | add (random : List UInt8)
  | rm (target : Text)
  | edit (target : Text)

def Command.change (N : Numbers) (o : Options) (d : Device) (t : Table) :
    Command → Except Refusal Table
  | .add random => stCmdAdd N random o d t
  | .rm target => stCmdRm N target t
  | .edit target => stCmdEdit N target o d t

def stPrepare (d : Device) : Except Refusal Table :=
  match stLoad d with
  | .error message => .error (.load message)
  | .ok t => if t.kind = .none then .error .noTable else .ok t

def stChanged (N : Numbers) (o : Options) (d : Device) (command : Command) :
    Except Refusal Table := do
  let t ← stPrepare d
  command.change N o d t

end Ussr.Stalin
