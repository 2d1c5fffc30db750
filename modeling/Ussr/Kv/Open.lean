import Ussr.Kv.Model

/-! Opening a store: the newest valid meta page says where the tree and the free list
are, and the free list which pages may be used now and which from the next commit on. -/

namespace Ussr.Kv
open Uno

structure Meta where
  txn : Nat
  root : Nat
  pages : Nat
  freelist : Nat × Nat
  count : Int

def metaUno (m : Meta) : UnoValue :=
  .vector [pageUno m.txn, pageUno m.root, pageUno m.pages,
    .vector [pageUno m.freelist.1, pageUno m.freelist.2], .integer (BitVec.ofInt 64 m.count)]

def dkvMetaText (m : Meta) : Option (List UInt8) :=
  ussrUnoEncode (metaUno m)

def unoMeta : UnoValue → Option Meta
  | .vector (.integer txn :: .integer root :: .integer pages ::
      .vector (.integer flp :: .integer fln :: _) :: .integer count :: _) =>
    some ⟨txn.toNat, root.toNat, pages.toNat, (flp.toNat, fln.toNat), count.toInt⟩
  | _ => none

def dkvMeta (registry : Registry) (file : KvFile) (slot : Nat) : Option (Option Meta) := do
  match dkvUnframe (← bread file slot 1) "DKVMETA1" with
  | none => return none
  | some text =>
    let value ← (ussrUnoDecode registry text).toOption
    return some (← unoMeta value)

def newestMeta : Option Meta → Option Meta → Option Meta
  | none, m1 => m1
  | some m0, none => some m0
  | some m0, some m1 => if m0.txn < m1.txn then some m1 else some m0

def unoPages : UnoValue → Option (List Nat)
  | .vector items => items.mapM unoPage
  | _ => none

/-- `dkv_read_data` of a free list; null when it is not a vector. -/
def dkvReadLists (registry : Registry) (file : KvFile) (p : Nat) :
    Option (Option (List Nat × List Nat)) := do
  match ← dkvReadText file p with
  | none => return none
  | some text =>
    match ← (ussrUnoDecode registry text).toOption with
    | .vector (a :: b :: _) => return some (← unoPages a, ← unoPages b)
    | .vector _ => none
    | _ => return none

def pageSet (ps : List Nat) : OrdMap Nat Bool :=
  ps.foldl (fun m p => m.put p true) .empty

section

variable {K : Type} [LinearOrder K]

def Db.meta (db : Db K) : Meta :=
  ⟨db.txn, db.root, db.space.pages, db.freelist, db.space.count⟩

def Db.atMeta (db : Db K) (m : Meta) : Db K where
  txn := m.txn
  root := m.root
  freelist := m.freelist
  space := { db.space with pages := m.pages, freed := .empty, data := .empty, count := m.count }
  cache := .empty
  file := db.file

def Db.withLists (db : Db K) (now later : List Nat) : Db K :=
  { db with space := { db.space with free := pageSet now, soon := pageSet later } }

def dkvLoad (registry : Registry) (db : Db K) : Option (Int × Db K) := do
  let m0 ← dkvMeta registry db.file 0
  let m1 ← dkvMeta registry db.file 1
  match newestMeta m0 m1 with
  | none => return (-1, db)
  | some m =>
    if 0 < m.freelist.1 then
      match ← dkvReadLists registry db.file m.freelist.1 with
      | none => return (-1, db.atMeta m)
      | some (now, later) => return (0, (db.atMeta m).withLists now later)
    else return (0, (db.atMeta m).withLists [] [])

def Db.unread (file : KvFile) : Db K :=
  ⟨0, 0, (0, 0), ⟨2, .empty, .empty, .empty, .empty, 0⟩, .empty, file⟩

def dkvFormat (db : Db K) : Option (Option KvFile) := do
  let text ← dkvMetaText db.meta
  let bytes := dkvFrame "DKVMETA1" text 1
  match ← bwrite db.file 0 bytes with
  | none => return none
  | some file => bwrite file 1 bytes

/-- `dubna_kv_open` of a file that can be made and read; null for a file that is no store. -/
def dubnaKvOpen (registry : Registry) (file : KvFile) : Option (Option (Db K)) := do
  let db : Db K := Db.unread file
  let made ← if file.size = 0 then dkvFormat db else some (some file)
  match made with
  | none => return none
  | some file =>
    let (st, db) ← dkvLoad registry { db with file }
    return if st = 0 then some db else none

theorem dubnaKvOpen_empty {registry : Registry} {file made : KvFile} (hsize : file.size = 0)
    (hformat : dkvFormat (Db.unread (K := K) file) = some (some made)) :
    dubnaKvOpen (K := K) registry file =
      (dkvLoad registry { Db.unread (K := K) file with file := made }).bind
        fun r => some (if r.1 = 0 then some r.2 else none) := by
  unfold dubnaKvOpen
  rw [if_pos hsize, hformat]
  rfl

end

end Ussr.Kv
