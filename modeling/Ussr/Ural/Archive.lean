import Ussr.Library.Codec
import Ussr.RealText

/-! Ural's packages: how a tree becomes a ZIP archive, and how the archive becomes files again.
Deflation and the checksum are left to the caller. -/

namespace Ussr.Ural
open Real64 (ascii)
open Codec

/-- `join_path`: what a directory's path keeps, read from its end. -/
def trimBack : List UInt8 → List UInt8
  | b :: c :: rest => if b = 47 ∨ b = 92 then trimBack (c :: rest) else b :: c :: rest
  | bs => bs

def trimEnd (path : List UInt8) : List UInt8 := (trimBack path.reverse).reverse

def withSlash (left : List UInt8) : List UInt8 := if left ≠ [] ∧ left.getLast? ≠ some 47 then left ++ [47] else left

def joinPath (left right : List UInt8) : List UInt8 := withSlash (trimEnd left) ++ right

/-- One component in `ural_archive_path_is_safe`. -/
def safeComponent (component : List UInt8) : Bool := component != [] && component != [46] && component != [46, 46]

def safeFrom : (path component : List UInt8) → Bool
  | [], component => safeComponent component
  | b :: rest, component =>
    if b = 47 then safeComponent component && safeFrom rest [] else 32 ≤ b.toNat && safeFrom rest (component ++ [b])

/-- `ural_archive_path_is_safe` -/
def pathIsSafe (path : List UInt8) : Bool :=
  path != [] && path.head? != some 47 && path.head? != some 92 && !path.contains 58 && !path.contains 92 && safeFrom path []

/-- `strrchr` of a slash. -/
def lastSlash : List UInt8 → Option Nat
  | [] => none
  | b :: bs => (lastSlash bs).elim (if b = 47 then some 0 else none) fun i => some (i + 1)

inductive Node
  | dir
  | file (data : List UInt8)
  deriving DecidableEq

abbrev Disk := List (List UInt8) → Option Node

/-- The components of a path after `word`. -/
def namesFrom : (path word : List UInt8) → List (List UInt8)
  | [], word => if word = [] then [] else [word]
  | b :: rest, word =>
    if b = 47 then (if word = [] then [] else [word]) ++ namesFrom rest [] else namesFrom rest (word ++ [b])

def place (path : List UInt8) : List (List UInt8) := (if path.head? = some 47 then [[]] else []) ++ namesFrom path []

/-- `mkdir`, where a directory that exists is no failure. -/
def mkdir (d : Disk) (path : List UInt8) : Option Disk :=
  if path = [] then none
  else if d (place path) ≠ none then some d
  else if d (place path).dropLast = some .dir then some (Function.update d (place path) (some .dir))
  else none

/-- `make_directories` from the end of `done` on. -/
def makeDirectoriesFrom (d : Disk) : (rest done : List UInt8) → Option Disk
  | [], done => mkdir d done
  | b :: rest, done =>
    if (b = 47 ∨ b = 92) ∧ done ≠ [] then (mkdir d done).bind fun d => makeDirectoriesFrom d rest (done ++ [b])
    else makeDirectoriesFrom d rest (done ++ [b])

def makeDirectories (d : Disk) (path : List UInt8) : Option Disk := makeDirectoriesFrom d path []

/-- `fopen` for writing, `fwrite` and `fclose`. -/
def writeFile (d : Disk) (path data : List UInt8) : Option Disk :=
  if d (place path).dropLast = some .dir ∧ d (place path) ≠ some .dir then
    some (Function.update d (place path) (some (.file data)))
  else none

section

structure Name where
  bytes : List UInt8
  ne_nil : bytes ≠ []
  no_slash : (47 : UInt8) ∉ bytes
  no_nul : (0 : UInt8) ∉ bytes
  ne_dot : bytes ≠ [46]
  ne_dots : bytes ≠ [46, 46]

/-- A directory, item by item as `readdir` gives them. -/
inductive Listing
  | nil
  | file (name : Name) (data : List UInt8) (rest : Listing)
  | folder (name : Name) (items rest : Listing)

structure Entry where
  name : List UInt8
  crc : Nat
  compressedSize : Nat
  size : Nat
  offset : Nat

structure Pack where
  out : List UInt8
  entries : List Entry

variable (deflate : List UInt8 → List UInt8) (crc32 : List UInt8 → UInt32)

def stays (relative : List UInt8) : Bool :=
  (ascii ".ural").isSuffixOf relative || (ascii "-box.uno").isSuffixOf relative || relative == ascii "ussr.boxes"

def localRecord (e : Entry) : List UInt8 :=
  putLE 4 0x04034b50 ++ putLE 2 20 ++ putLE 2 0 ++ putLE 2 8 ++ putLE 2 0 ++ putLE 2 0 ++ putLE 4 e.crc ++
    putLE 4 e.compressedSize ++ putLE 4 e.size ++ putLE 2 e.name.length ++ putLE 2 0 ++ e.name

def centralRecord (e : Entry) : List UInt8 :=
  putLE 4 0x02014b50 ++ putLE 2 20 ++ putLE 2 20 ++ putLE 2 0 ++ putLE 2 8 ++ putLE 2 0 ++ putLE 2 0 ++ putLE 4 e.crc ++
    putLE 4 e.compressedSize ++ putLE 4 e.size ++ putLE 2 e.name.length ++ putLE 2 0 ++ putLE 2 0 ++ putLE 2 0 ++ putLE 2 0 ++
    putLE 4 0 ++ putLE 4 e.offset ++ e.name

def packFile (relative data : List UInt8) (s : Pack) : Option Pack :=
  if stays relative then some s
  else if 134217728 < data.length ∨ 65535 < relative.length then none
  else
    let compressed := deflate data
    if 4294967295 < compressed.length ∨ 4294967295 < s.out.length then none
    else
      let entry : Entry := ⟨relative, (crc32 data).toNat, compressed.length, data.length, s.out.length⟩
      some ⟨s.out ++ localRecord entry ++ compressed, s.entries ++ [entry]⟩

/-- The path of an item below `relative`. -/
def childPath (relative : List UInt8) (name : Name) : List UInt8 :=
  relative ++ (if relative ≠ [] then [47] else []) ++ name.bytes

def packWalk : (relative : List UInt8) → Listing → Pack → Option Pack
  | _, .nil, s => some s
  | relative, .file name data rest, s =>
    (packFile deflate crc32 (childPath relative name) data s).bind (packWalk relative rest)
  | relative, .folder name items rest, s => (packWalk (childPath relative name) items s).bind (packWalk relative rest)

def endRecord (count start stop : Nat) : List UInt8 :=
  putLE 4 0x06054b50 ++ putLE 2 0 ++ putLE 2 0 ++ putLE 2 count ++ putLE 2 count ++ putLE 4 (stop - start) ++ putLE 4 start ++
    putLE 2 0

/-- `ural_archive_pack`: the archive, where 0 is returned. -/
def uralArchivePack (tree : Listing) : Option (List UInt8) :=
  (packWalk deflate crc32 [] tree ⟨[], []⟩).bind fun s =>
    if 65535 < s.entries.length then none
    else
      let central := s.entries.flatMap centralRecord
      some (s.out ++ central ++ endRecord s.entries.length s.out.length (s.out.length + central.length))

end

section

variable (inflate : List UInt8 → Option (List UInt8)) (crc32 : List UInt8 → UInt32)

def readU16 : Reader Nat := do return ofLE (← take 2 "")

def readU32 : Reader Nat := do return ofLE (← take 4 "")

structure Header where
  flags : Nat
  method : Nat
  crc : Nat
  compressedSize : Nat
  size : Nat
  nameLength : Nat
  extraLength : Nat

def readHeader : Reader Header := do
  let _ ← readU16
  let flags ← readU16
  let method ← readU16
  let _ ← readU16
  let _ ← readU16
  let crc ← readU32
  let compressedSize ← readU32
  let size ← readU32
  let nameLength ← readU16
  let extraLength ← readU16
  return ⟨flags, method, crc, compressedSize, size, nameLength, extraLength⟩

/-- The bytes of an entry, as `extract_entry` gets them back. -/
def entryData (h : Header) (compressed : List UInt8) : Option (List UInt8) :=
  if h.method = 0 then if h.compressedSize = h.size then some compressed else none
  else (inflate compressed).bind fun raw => if raw.length = h.size then some raw else none

/-- Where the directory of an extracted file ends, if `extract_entry` finds it. -/
def parentOf (root path : List UInt8) : List UInt8 :=
  (lastSlash path).elim path fun i => if root.length ≤ i then path.take i else path

/-- The end of `extract_entry`, where the bytes go to the disk. -/
def writeEntry (root name raw : List UInt8) (d : Disk) : Option Disk :=
  let path := joinPath root name
  let parent := parentOf root path
  (if path ≠ parent then makeDirectories d parent else makeDirectories d root).bind fun d => writeFile d path raw

/-- `extract_entry`: the disk and the rest of the archive. -/
def extractEntry (root : List UInt8) (h : Header) (name bytes : List UInt8) (d : Disk) : Option (Disk × List UInt8) :=
  if pathIsSafe name = false ∨ 134217728 < h.size ∨ 134217728 < h.compressedSize ∨ (h.method ≠ 0 ∧ h.method ≠ 8) then none
  else if bytes.length < h.compressedSize then none
  else
    (entryData inflate h (bytes.take h.compressedSize)).bind fun raw =>
      if (crc32 raw).toNat ≠ h.crc then none
      else (writeEntry root name raw d).map fun d => (d, bytes.drop h.compressedSize)

/-- The loop of `ural_archive_extract`; a turn takes four bytes at least. -/
def extractLoop (root : List UInt8) : (turns : Nat) → List UInt8 → Disk → Option Disk
  | 0, _, _ => none
  | turns + 1, bytes, d =>
    (readU32 bytes).toOption.bind fun (signature, bytes) =>
      if signature = 0x02014b50 ∨ signature = 0x06054b50 then some d
      else if signature ≠ 0x04034b50 then none
      else
        (readHeader bytes).toOption.bind fun (h, bytes) =>
          if h.nameLength = 0 ∨ 4096 < h.nameLength ∨ h.flags ≠ 0 then none
          else
            (take h.nameLength "" bytes).toOption.bind fun (name, bytes) =>
              if name.contains 0 then none
              else
                (extractEntry inflate crc32 root h name (bytes.drop h.extraLength) d).bind fun (d, bytes) =>
                  extractLoop root turns bytes d

/-- `ural_archive_extract`: the disk, where 0 is returned. -/
def uralArchiveExtract (archive root : List UInt8) (d : Disk) : Option Disk :=
  (makeDirectories d root).bind fun d => extractLoop inflate crc32 root archive.length archive d

end

end Ussr.Ural
