import Ussr.Library.BlockDevice
import Ussr.Stalin.Fields

/-! Partition tables and how they are read from a device: a GPT from the copy whose
checksums hold, the primary one first, and an MBR with the logical partitions of its
extended partitions. -/

namespace Ussr.Stalin
open ByteFields Codec Real64

structure Device where
  sector : Nat
  lbas : Nat
  data : Nat → List UInt8

/-- What `st_open` accepts. -/
structure Device.Sound (d : Device) : Prop where
  sector : d.sector = 512 ∨ d.sector = 1024 ∨ d.sector = 2048 ∨ d.sector = 4096
  lbas : 128 ≤ d.lbas
  bytes : d.sector * d.lbas < 2 ^ 63
  whole : ∀ lba, (d.data lba).length = d.sector

structure StPart where
  num : Int
  start : Int
  end_ : Int
  type : Text
  name : Text
  uuid : Text
  attrs : Int
  boot : Bool
  logical : Bool
deriving DecidableEq

inductive Kind where
  | none | gpt | mbr
deriving DecidableEq

/-- What `st_load` leaves in the globals. -/
structure Table where
  kind : Kind
  parts : List StPart
  notes : List String
  diskGuid : Text
  diskSig : Int
  first : Int
  last : Int
  entryCount : Int
  entrySize : Int
deriving DecidableEq

def Table.blank : Table := ⟨.none, [], [], [], 0, 0, 0, 0, 0⟩

/-- `st_read`, `none` for null. -/
def stRead (d : Device) (lba count : Nat) : Option (List UInt8) :=
  if lba + count ≤ d.lbas then some (BlockDevice.read d.data lba count).flatten else none

section

def stGptHeader (d : Device) (lba : Nat) : Option (List UInt8) := do
  let h ← stRead d lba 1
  let size := stLe h 12 4
  let crc := stLe h 16 4
  let cleared := stPut h 16 4 0
  if stAscii h 0 8 ≠ ascii "EFI PART" then none
  else if size < 92 ∨ (d.sector : Int) < size then none
  else if stCrc32 cleared 0 size.toNat = crc then some (stPut cleared 16 4 crc)
  else none

/-- The sectors of `count` entries of `size` bytes. -/
def entrySectors (d : Device) (count size : Int) : Int := stDivUp (count * size) d.sector

def stGptEntries (d : Device) (h : List UInt8) : Option (List UInt8) :=
  let lba := stLe h 72 8
  let count := stLe h 80 4
  let size := stLe h 84 4
  let crc := stLe h 88 4
  let sectors := entrySectors d count size
  if count < 1 ∨ 4096 < count ∨ size < 128 ∨ 4096 < size ∨ size % 8 ≠ 0 then none
  else if lba < 1 ∨ (d.lbas : Int) < lba + sectors then none
  else do
    let e ← stRead d lba.toNat sectors.toNat
    if stCrc32 e 0 (count * size).toNat = crc then some e else none

attribute [irreducible] stGptHeader stGptEntries

def gptCopy (d : Device) (lba : Nat) : Option (List UInt8 × List UInt8) := do
  let h ← stGptHeader d lba
  let e ← stGptEntries d h
  return (h, e)

def zeroGuid : Text := ascii "00000000-0000-0000-0000-000000000000"

def nameUnits (size : Nat) : Nat := min 36 ((size - 56) / 2)

/-- The partition of entry `k`. -/
def gptPart (e : List UInt8) (size k : Nat) : Option StPart :=
  let base := k * size
  let attrs := stLe e (base + 48) 8
  if stGuidText e base = zeroGuid then none
  else some {
    num := k + 1
    start := stLe e (base + 32) 8
    end_ := stLe e (base + 40) 8
    type := stGuidText e base
    name := stUtf16Text e (base + 56) (nameUnits size)
    uuid := stGuidText e (base + 16)
    attrs := attrs
    boot := attrs / 4 % 2 = 1
    logical := false }

def gptParts (e : List UInt8) (count size : Nat) : List StPart :=
  (List.range count).filterMap (gptPart e size)

def gptTable (h e : List UInt8) (notes : List String) : Table where
  kind := .gpt
  parts := gptParts e (stLe h 80 4).toNat (stLe h 84 4).toNat
  notes := notes
  diskGuid := stGuidText h 56
  diskSig := 0
  first := stLe h 40 8
  last := stLe h 48 8
  entryCount := stLe h 80 4
  entrySize := stLe h 84 4

def primaryNotes (d : Device) : List String :=
  if (stGptHeader d 1).isSome then
    ["the primary GPT partition array is damaged; using the backup"]
  else ["the primary GPT header is damaged; using the backup"]

def stLoadGpt (d : Device) : Except String Table :=
  match gptCopy d 1, gptCopy d (d.lbas - 1) with
  | some (h, e), none =>
    .ok (gptTable h e ["the backup GPT is missing or damaged; any write rewrites it"])
  | some (h, e), some _ =>
    .ok (gptTable h e (if stLe h 32 8 = (d.lbas : Int) - 1 then []
      else ["the backup GPT is not at the end of the disk (was the disk resized?)"]))
  | none, some (h, e) => .ok (gptTable h e (primaryNotes d))
  | none, none => .error "the disk has a protective MBR but no readable GPT"

end

def stIsExtended (code : Text) : Bool := code = ascii "05" || code = ascii "0F" || code = ascii "85"

/-- The loop of `st_load_logical` with `turns` of its 256 turns left. -/
def loadLogical (d : Device) (ext : Nat) : (turns ebr num : Nat) → List StPart
  | 0, _, _ => []
  | turns + 1, ebr, num =>
    if ebr = 0 then [] else
    match stRead d ebr 1 with
    | none => []
    | some e =>
      if byteAt e 510 ≠ 85 ∨ byteAt e 511 ≠ 170 then [] else
      let type := (byteAt e 450).toNat
      let rel := ofLE (bytesAt e 454 4)
      let count := ofLE (bytesAt e 458 4)
      let rel2 := ofLE (bytesAt e 470 4)
      let found := type ≠ 0 ∧ 0 < count
      let part : StPart := ⟨num, ebr + rel, ebr + rel + count - 1, stHex type, [], [], 0, false, true⟩
      let next := if stIsExtended (stHex (byteAt e 466).toNat) ∧ 0 < rel2 then ext + rel2 else 0
      (if found then [part] else []) ++
        loadLogical d ext turns next (if found then num + 1 else num)

def stLoadLogical (d : Device) (ext : Nat) : List StPart := loadLogical d ext 256 ext 5

/-- The partition of slot `k` of the MBR. -/
def mbrPart (s0 : List UInt8) (k : Nat) : Option StPart :=
  let base := 446 + k * 16
  let type := (byteAt s0 (base + 4)).toNat
  let start := stLe s0 (base + 8) 4
  let count := stLe s0 (base + 12) 4
  if type ≠ 0 ∧ 0 < count then
    some ⟨k + 1, start, start + count - 1, stHex type, [], [], 0, byteAt s0 base = 128, false⟩
  else none

/-- The logical partitions in `p`, none where it is no extended partition. -/
def logicalsOf (d : Device) (p : StPart) : List StPart :=
  if stIsExtended p.type then stLoadLogical d p.start.toNat else []

def mbrParts (d : Device) (s0 : List UInt8) : List StPart :=
  (List.range 4).flatMap fun k =>
    match mbrPart s0 k with
    | none => []
    | some p => p :: logicalsOf d p

def flagsValid (s0 : List UInt8) : Bool :=
  (List.range 4).all fun k => byteAt s0 (446 + k * 16) = 0 || byteAt s0 (446 + k * 16) = 128

def isProtective (s0 : List UInt8) : Bool :=
  (List.range 4).any fun k => byteAt s0 (446 + k * 16 + 4) = 238

/-- `st_load` of a device that was opened. -/
def stLoad (d : Device) : Except String Table :=
  let s0 := (stRead d 0 1).getD []
  if byteAt s0 510 ≠ 85 ∨ byteAt s0 511 ≠ 170 then .ok Table.blank
  else if ¬ flagsValid s0 then .ok Table.blank
  else if isProtective s0 then stLoadGpt d
  else .ok { Table.blank with
    kind := .mbr
    diskSig := stLe s0 440 4
    parts := mbrParts d s0 }

/-! How a changed table is written: an MBR into sector 0, a GPT in five writes, the
primary copy before the backup. A write that stops early leaves a prefix of its sectors. -/

structure Write where
  lba : Nat
  bytes : List UInt8

/-- `bytes` in sectors of `size`. -/
def slices (size : Nat) (bytes : List UInt8) : List (List UInt8) :=
  (List.range (bytes.length / size)).map fun k => (bytes.drop (k * size)).take size

def Write.sectors (size : Nat) (w : Write) : List (Nat × List UInt8) :=
  BlockDevice.run w.lba (slices size w.bytes)

/-- `bwrite` of single sectors; writing past the end of an image grows it. -/
def Device.store (d : Device) (sectors : List (Nat × List UInt8)) : Device where
  sector := d.sector
  lbas := sectors.foldl (fun n w => max n (w.1 + 1)) d.lbas
  data := BlockDevice.writeAll sectors d.data

def sectorWrites (size : Nat) (writes : List Write) : List (Nat × List UInt8) :=
  writes.flatMap (Write.sectors size)

def Device.apply (d : Device) (writes : List Write) : Device :=
  d.store (sectorWrites d.sector writes)

/-- The device after the first `k` sectors of the writes. -/
def Device.cut (d : Device) (writes : List Write) (k : Nat) : Device :=
  d.store ((sectorWrites d.sector writes).take k)

/-- `st_chs`; a negative sector leaves a number behind that is no byte and cannot be written. -/
def stChs (v : List UInt8) (i : Nat) (lba : Int) : Option (List UInt8) :=
  if 1023 * 255 * 63 ≤ lba then some (putBytes v i [254, 255, 255])
  else if lba < 0 then none
  else
    let c := stDiv lba 16065
    let rest := lba - c * 16065
    let h := stDiv rest 63
    let s := rest - h * 63 + 1
    some (putBytes v i [UInt8.ofInt h, UInt8.ofInt s ||| UInt8.ofInt (c / 4) &&& 192, UInt8.ofInt c])

def stMbrEntry (v : List UInt8) (slot : Nat) (boot : Bool) (code : Text) (start count : Int) :
    Option (List UInt8) := do
  let base := 446 + slot * 16
  let v := putBytes v base [if boot then 128 else 0]
  let v ← stChs v (base + 1) start
  let t ← stParseHexByte code
  let v := putBytes v (base + 4) [UInt8.ofNat t]
  let v ← stChs v (base + 5) (wrap (start + count - 1))
  return stPut (stPut v (base + 8) 4 start) (base + 12) 4 count

def stSector0 (d : Device) : List UInt8 :=
  let r := stFill ((stRead d 0 1).getD []) 446 64 0
  let r := putBytes r 510 [85, 170]
  if 512 < d.sector then stFill r 512 (d.sector - 512) 0 else r

/-- Places a partition in its slot of the MBR, the loop of `st_write_mbr`. -/
def placeMbr (v : List UInt8) (p : StPart) : Option (List UInt8) :=
  if p.logical then some v
  else stMbrEntry v (p.num - 1).toNat p.boot p.type p.start (wrap (p.end_ - p.start + 1))

def stWriteMbr (d : Device) (t : Table) : Option (List Write) := do
  let s0 ← t.parts.foldlM placeMbr (stPut (stPut (stSector0 d) 440 4 t.diskSig) 444 2 0)
  return [⟨0, s0⟩]

def headerFields (d : Device) (t : Table) (my alt entriesLba crc : Int) : Option (List UInt8) :=
  let h := putBytes (stZeros d.sector) 0 (ascii "EFI PART")
  let h := stPut (stPut h 8 4 0x00010000) 12 4 92
  let h := stPut (stPut h 24 8 my) 32 8 alt
  let h := stPut (stPut h 40 8 t.first) 48 8 t.last
  (stGuidPut h 56 t.diskGuid).map fun h =>
    let h := stPut h 72 8 entriesLba
    let h := stPut (stPut h 80 4 t.entryCount) 84 4 t.entrySize
    stPut h 88 4 crc

def stGptHeaderBytes (d : Device) (t : Table) (my alt entriesLba crc : Int) : Option (List UInt8) :=
  (headerFields d t my alt entriesLba crc).map fun h => stPut h 16 4 (stCrc32 h 0 92)

def nameBytes (size : Nat) (name : Text) : List UInt8 :=
  ((stUtf16Units name).take ((size - 56) / 2)).flatMap fun u : Nat => leBytes 2 u

/-- Places a partition in its entry, the loop of `st_write_gpt`. -/
def placeGpt (size : Nat) (e : List UInt8) (p : StPart) : Option (List UInt8) := do
  let base := (p.num - 1).toNat * size
  let e ← stGuidPut e base p.type
  let e ← stGuidPut e (base + 16) p.uuid
  let e := stPut (stPut e (base + 32) 8 p.start) (base + 40) 8 p.end_
  return putBytes (stPut e (base + 48) 8 p.attrs) (base + 56) (nameBytes size p.name)

def gptArray (d : Device) (t : Table) : Option (List UInt8) :=
  t.parts.foldlM (placeGpt t.entrySize.toNat)
    (stZeros ((entrySectors d t.entryCount t.entrySize).toNat * d.sector))

def protectiveMbr (d : Device) : Option (List UInt8) :=
  stMbrEntry (stSector0 d) 0 false (ascii "EE") 1 (min ((d.lbas : Int) - 1) 0xFFFFFFFF)

/-- `st_write_gpt`, its writes in their order. -/
def stWriteGpt (d : Device) (t : Table) : Option (List Write) := do
  let e ← gptArray d t
  let crc := stCrc32 e 0 (t.entryCount * t.entrySize).toNat
  let last := d.lbas - 1
  let backupEntries := last - (entrySectors d t.entryCount t.entrySize).toNat
  let primary ← stGptHeaderBytes d t 1 last 2 crc
  let backup ← stGptHeaderBytes d t last 1 backupEntries crc
  let s0 ← protectiveMbr d
  return [⟨2, e⟩, ⟨1, primary⟩, ⟨backupEntries, e⟩, ⟨last, backup⟩, ⟨0, s0⟩]

def stCommit (d : Device) (t : Table) : Option (List Write) :=
  if t.kind = .gpt then stWriteGpt d t else stWriteMbr d t

end Ussr.Stalin
