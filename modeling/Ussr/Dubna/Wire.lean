import Ussr.Stalin.Fields

/-! The wire of the PostgreSQL client: integers and messages as bytes, and the input buffer
of a connection. A read outside a vector gives `none`. -/

namespace Ussr.Dubna
open Real64
open Stalin (Text)

/-- `dubna_put_int32`: the bytes it pushes for `n`, a negative number as its complement. -/
def dubnaPutInt32 (n : Int) : List UInt8 :=
  let n := (if n < 0 then n + 4294967296 else n).toNat
  [UInt8.ofNat (n >>> 24 &&& 255), UInt8.ofNat (n >>> 16 &&& 255), UInt8.ofNat (n >>> 8 &&& 255),
    UInt8.ofNat (n &&& 255)]

def dubnaPutCstr (s : Text) : List UInt8 := s ++ [0]

def dubnaInt32 (v : List UInt8) (i : Nat) : Option Int := do
  let a ← v[i]?
  let b ← v[i + 1]?
  let c ← v[i + 2]?
  let d ← v[i + 3]?
  let r := a.toNat <<< 24 ||| b.toNat <<< 16 ||| c.toNat <<< 8 ||| d.toNat
  return if 2147483648 ≤ r then (r : Int) - 4294967296 else r

def dubnaZero (v : List UInt8) (i : Nat) : Nat := i + ((v.drop i).takeWhile (· ≠ 0)).length

def dubnaVslice (v : List UInt8) (start count : Nat) : Option (List UInt8) :=
  if start + count ≤ v.length ∨ count = 0 then some ((v.drop start).take count) else none

/-- The builtin `bytes_text`: the inner `none` where a byte is 0. -/
def bytesText (v : List UInt8) (start : Nat) (count : Int) : Option (Option Text) :=
  if count < 0 ∨ (v.length : Int) < start + count then none
  else
    let text := (v.drop start).take count.toNat
    some (if 0 ∈ text then none else some text)

def dubnaMessage (type : Text) (body : List UInt8) : List UInt8 :=
  type.take 1 ++ dubnaPutInt32 (body.length + 4) ++ body

/-- A message from the server; its type is a byte that `chr` accepts. -/
structure Message where
  type : UInt8
  body : List UInt8
  typed : type ≠ 0
deriving DecidableEq

structure DubnaConn where
  tls : Bool
  inbuf : List UInt8
  inpos : Nat
  open_ : Bool
  inside : inpos ≤ inbuf.length

def DubnaConn.unread (c : DubnaConn) : List UInt8 := c.inbuf.drop c.inpos

/-- What successive receive calls return, `none` for `null`; after the last the connection
is closed. -/
abbrev Receives := List (Option (List UInt8))

def DubnaConn.put (c : DubnaConn) (chunk : List UInt8) : DubnaConn :=
  if c.inbuf.length ≤ c.inpos then
    { c with inbuf := chunk, inpos := 0, inside := Nat.zero_le _ }
  else
    { c with
      inbuf := c.inbuf ++ chunk
      inside := by rw [List.length_append]; exact Nat.le_add_right_of_le c.inside }

def dubnaFill (c : DubnaConn) : Receives → Bool × DubnaConn × Receives
  | [] => (false, c, [])
  | none :: later => if c.tls then dubnaFill c later else (false, c, later)
  | some chunk :: later => if chunk = [] then (false, c, later) else (true, c.put chunk, later)

/-- What one turn of the loop of `dubna_read` finds in the buffer. -/
inductive Taken where
  | message (m : Message) (c : DubnaConn)
  | malformed
  | incomplete

def dubnaTake (c : DubnaConn) : Option Taken :=
  if c.inbuf.length < c.inpos + 5 then some .incomplete
  else do
    let size ← dubnaInt32 c.inbuf (c.inpos + 1)
    if size < 4 then return .malformed
    if h : c.inpos + (size.toNat + 1) ≤ c.inbuf.length then
      let type ← c.inbuf[c.inpos]?
      let body ← dubnaVslice c.inbuf (c.inpos + 5) (size.toNat - 4)
      if typed : type ≠ 0 then
        return .message ⟨type, body, typed⟩
          { c with inpos := c.inpos + 1 + size.toNat, inside := by omega }
      else none
    else return .incomplete

/-- The loop of `dubna_read`, the inner `none` for `null`. -/
def dubnaReadLoop : (turns : Nat) → DubnaConn → Receives → Option (Option Message × DubnaConn × Receives)
  | 0, _, _ => none
  | turns + 1, c, later => do
    match ← dubnaTake c with
    | .message m c => return (some m, c, later)
    | .malformed => return (none, c, later)
    | .incomplete =>
      match dubnaFill c later with
      | (true, c, later) => dubnaReadLoop turns c later
      | (false, c, later) => return (none, { c with open_ := false }, later)

/-- `dubna_read`: a turn that does not return receives a chunk. -/
def dubnaRead (c : DubnaConn) (later : Receives) : Option (Option Message × DubnaConn × Receives) :=
  dubnaReadLoop (later.length + 1) c later

/-- The messages of `n` calls of `dubna_read`, all of which return one. -/
def dubnaReads : (n : Nat) → DubnaConn → Receives → Option (List Message × DubnaConn × Receives)
  | 0, c, later => some ([], c, later)
  | n + 1, c, later => do
    match ← dubnaRead c later with
    | (some m, c, later) =>
      let (ms, c, later) ← dubnaReads n c later
      return (m :: ms, c, later)
    | (none, _, _) => none

end Ussr.Dubna
