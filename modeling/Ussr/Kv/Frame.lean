import Ussr.RealText

/-! The pages of a store's file. Page texts stand behind a magic, their length
and their CRC-32; the file is a number of pages of 4096 bytes, read and
written by whole pages. -/

namespace Ussr.Kv
open Real64

def hexDigit (d : Nat) : UInt8 :=
  if d < 10 then UInt8.ofNat (48 + d) else UInt8.ofNat (87 + d)

def dkvHex8 (n : Nat) : List UInt8 :=
  [28, 24, 20, 16, 12, 8, 4, 0].map fun i => hexDigit (n >>> i % 16)

def unhexDigit (b : UInt8) : Option Nat :=
  if 48 ≤ b.toNat ∧ b.toNat ≤ 57 then some (b.toNat - 48)
  else if 97 ≤ b.toNat ∧ b.toNat ≤ 102 then some (b.toNat - 87)
  else none

/-- `dkv_unhex8`, `none` for -1. -/
def dkvUnhex8 (s : List UInt8) : Option Nat :=
  s.foldlM (fun r b => (unhexDigit b).map fun d => 16 * r + d) 0

def crcRound (crc : BitVec 32) : BitVec 32 :=
  (crc >>> 1) ^^^ (if crc.getLsbD 0 then 0xEDB88320#32 else 0#32)

/-- The builtin `crc32`. -/
def crc32 (bytes : List UInt8) : BitVec 32 :=
  ~~~(bytes.foldl (fun crc b => crcRound^[8] (crc ^^^ b.toBitVec.setWidth 32)) 0xFFFFFFFF#32)

/-- The builtin `bytes_text`: a text has no byte 0. -/
def bytesText (bytes : List UInt8) : Option (List UInt8) :=
  if 0 ∈ bytes then none else some bytes

def dkvFrame (magic : String) (text : List UInt8) (pages : Nat) : List UInt8 :=
  let s := ascii magic ++ dkvHex8 text.length ++ dkvHex8 (crc32 text).toNat ++ text
  s ++ List.replicate (4096 * pages - s.length) 32

/-- `dkv_unframe`; no bytes are none that could be read. -/
def dkvUnframe (bytes : Option (List UInt8)) (magic : String) : Option (List UInt8) := do
  let bytes ← bytes
  if bytes.length < 24 then none
  else
    let head ← bytesText (bytes.take 24)
    if head.take 8 ≠ ascii magic then none
    else
      let size ← dkvUnhex8 ((head.drop 8).take 8)
      if bytes.length - 24 < size then none
      else
        let text ← bytesText ((bytes.drop 24).take size)
        if some (crc32 text).toNat = dkvUnhex8 (head.drop 16) then some text else none

def dkvPagesFor (n : Nat) : Nat :=
  (n + 24 + 4095) / 4096

structure KvFile where
  size : Nat
  page : Nat → List UInt8

def KvFile.blank : KvFile := ⟨0, fun _ => List.replicate 4096 0⟩

/-- `bread` of whole pages: an error above 16 MiB, null past the end of the file. -/
def bread (file : KvFile) (page count : Nat) : Option (Option (List UInt8)) :=
  if 4096 < count then none
  else if file.size < page + count then some none
  else some (some ((List.range' page count).flatMap file.page))

/-- What `bwrite` leaves behind. -/
def KvFile.write (file : KvFile) (page : Nat) (bytes : List UInt8) : KvFile where
  size := max file.size (page + bytes.length / 4096)
  page q :=
    if page ≤ q ∧ q < page + bytes.length / 4096 then
      (bytes.drop (4096 * (q - page))).take 4096
    else file.page q

def maxPages : Nat := 2 ^ 51

/-- `bwrite` of whole pages: an error for other lengths, -1 past the last file offset. -/
def bwrite (file : KvFile) (page : Nat) (bytes : List UInt8) : Option (Option KvFile) :=
  if bytes.length = 0 ∨ bytes.length % 4096 ≠ 0 then none
  else if maxPages < page + bytes.length / 4096 then some none
  else some (some (file.write page bytes))

end Ussr.Kv
