import Ussr.BTree.Soundness
import Ussr.Kv.Frame
import Ussr.Library.OrdMap
import Ussr.Uno.Text

/-! A key-value store in one file: a copy-on-write tree of pages behind two meta
pages. Maps from keys, pages and data runs are trees of the `btree` container,
which on keys that it orders totally is an ordered map. A node of the page
cache is an entry of it, so that changing the node is a new entry for its
page. An outer `none` stands for an error that ends the script. -/

namespace Ussr.Kv
open Uno

def unoKey : UnoValue → Option Value
  | .integer n => some (.integer n)
  | .real x => some (.real x)
  | .string s => some (.string s)
  | _ => none

def keyUno : Value → UnoValue
  | .integer n => .integer n
  | .real x => .real x
  | .string s => .string s
  | _ => .null

/-- Keys as values of the script. -/
class KvKey (K : Type) [LinearOrder K] where
  toUno : K → UnoValue
  ofUno : UnoValue → Option K
  ofUno_toUno : ∀ k, ofUno (toUno k) = some k

open BTree in
theorem keyUno_key {v : Value} (h : keyOk v = true) : unoKey (keyUno v) = some v := by
  cases v <;> first | rfl | cases h

abbrev valueKvKey (S : Set Value) [DecidablePred (· ∈ S)] (hS : BTree.TotalOrderOn BTree.valueKeys S) :
    @KvKey S hS.linearOrder :=
  @KvKey.mk S hS.linearOrder (fun k => keyUno k.1)
    (fun u => (unoKey u).bind fun v => if h : v ∈ S then some ⟨v, h⟩ else none)
    (fun k => by rw [keyUno_key (hS.ok k.1 k.2), Option.bind_some, dif_pos k.2])

/-- A value in a leaf: `["=", value]`, or `["s", page, length]` and `["u", page, length]`. -/
inductive Entry where
  | inline (value : UnoValue)
  | run (isUno : Bool) (page length : Nat)

inductive Body (K : Type) [LinearOrder K] where
  | leaf (map : OrdMap K Entry)
  | branch (map : OrdMap K Nat)

structure Node (K : Type) [LinearOrder K] where
  body : Body K
  page : Nat
  dirty : Bool

structure Job where
  text : List UInt8
  pages : Nat

structure Space where
  pages : Nat
  free : OrdMap Nat Bool
  soon : OrdMap Nat Bool
  freed : OrdMap Nat Bool
  data : OrdMap Nat Job
  count : Int

structure Db (K : Type) [LinearOrder K] where
  txn : Nat
  root : Nat
  freelist : Nat × Nat
  space : Space
  cache : OrdMap Nat (Node K)
  file : KvFile

def dkvNewPage (s : Space) : Nat × Space :=
  match s.free.first with
  | some r => (r, { s with free := s.free.del r })
  | none => (s.pages, { s with pages := s.pages + 1 })

def dkvNewRun (s : Space) (count : Nat) : Nat × Space :=
  (s.pages, { s with pages := s.pages + count })

def dkvDrop (s : Space) (page count : Nat) : Space :=
  { s with freed := (List.range' page count).foldl (fun freed p => freed.put p true) s.freed }

def dkvFreeNew (s : Space) (p : Nat) : Space :=
  { s with free := s.free.put p true }

def dkvClean (s : CString) (max : Nat) : Bool :=
  decide (s.bytes.length ≤ max) && s.bytes.all fun b => b ≠ 96 && b ≠ 10 && b ≠ 13

/-- The end of `dkv_value_in`: data pages for a big value. -/
def dkvBigValue (s : Space) (isUno : Bool) (text : List UInt8) : Entry × Space :=
  let np := dkvPagesFor text.length
  let (p, s) := dkvNewRun s np
  (.run isUno p text.length, { s with data := s.data.put p ⟨text, np⟩ })

def dkvValueIn (s : Space) (value : UnoValue) : Option (Entry × Space) :=
  match value with
  | .string text =>
    if dkvClean text 200 then some (.inline value, s) else some (dkvBigValue s false text.bytes)
  | _ => do
    let text ← ussrUnoEncode value
    if 1000 < text.length then some (dkvBigValue s true text) else some (.inline value, s)

def dkvDropValue (s : Space) : Entry → Space
  | .inline _ => s
  | .run _ p n =>
    if s.data.has p then { s with data := s.data.del p } else dkvDrop s p (dkvPagesFor n)

variable {K : Type} [LinearOrder K] [KvKey K]

def pageUno (p : Nat) : UnoValue :=
  .integer (BitVec.ofNat 64 p)

def entryUno : Entry → UnoValue
  | .inline value => .vector [.string (CString.lit "="), value]
  | .run isUno p n =>
    .vector [.string (CString.lit (if isUno then "u" else "s")), pageUno p, pageUno n]

def pairUno (toUno : V → UnoValue) (e : K × V) : UnoValue :=
  .vector [KvKey.toUno e.1, toUno e.2]

def bodyUno : Body K → UnoValue
  | .leaf map =>
    .vector [.string (CString.lit "L"), .vector (map.entries.map (pairUno entryUno))]
  | .branch map =>
    .vector [.string (CString.lit "B"), .vector (map.entries.map (pairUno pageUno))]

def dkvNodeText (body : Body K) : Option (List UInt8) :=
  ussrUnoEncode (bodyUno body)

def unoPage : UnoValue → Option Nat
  | .integer n => some n.toNat
  | _ => none

def unoEntry : UnoValue → Option Entry
  | .vector (.string kind :: rest) =>
    if kind = CString.lit "=" then rest.head?.map Entry.inline
    else
      match rest with
      | p :: n :: _ => do return .run (kind = CString.lit "u") (← unoPage p) (← unoPage n)
      | _ => none
  | _ => none

/-- The loop of `dkv_node` that fills the map. -/
def unoMap (ofUno : UnoValue → Option V) (pairs : List UnoValue) : Option (OrdMap K V) :=
  pairs.foldlM (fun map pair =>
    match pair with
    | .vector (k :: x :: _) => do return map.put (← KvKey.ofUno k) (← ofUno x)
    | _ => none) OrdMap.empty

def unoBody : UnoValue → Option (Body K)
  | .vector (.string kind :: .vector pairs :: _) =>
    if kind = CString.lit "L" then (unoMap unoEntry pairs).map Body.leaf
    else (unoMap unoPage pairs).map Body.branch
  | _ => none

def dkvReadNode (registry : Registry) (file : KvFile) (p : Nat) : Option (Option (Body K)) := do
  match dkvUnframe (← bread file p 1) "DKVNODE1" with
  | none => return none
  | some text =>
    let value ← (ussrUnoDecode registry text).toOption
    let body ← unoBody value
    return some body

namespace Db

def keep (db : Db K) (node : Node K) : Db K :=
  { db with cache := db.cache.put node.page node }

end Db

/-- `dkv_node_new`, filled with what its caller puts into it. -/
def dkvNodeNew (db : Db K) (body : Body K) : Node K × Db K :=
  let (p, space) := dkvNewPage db.space
  let node := ⟨body, p, true⟩
  (node, { db with space }.keep node)

def dkvNode (registry : Registry) (db : Db K) (p : Nat) : Option (Option (Node K) × Db K) :=
  match db.cache.get p with
  | some node => some (some node, db)
  | none => do
    match ← dkvReadNode registry db.file p with
    | none => return (none, db)
    | some body =>
      let node := ⟨body, p, false⟩
      return (some node, db.keep node)

/-- `dkv_node` where null would be an error. -/
def dkvNodeOk (registry : Registry) (db : Db K) (p : Nat) : Option (Node K × Db K) := do
  let (node, db) ← dkvNode registry db p
  return (← node, db)

def dkvWritable (db : Db K) (node : Node K) : Node K × Db K :=
  if node.dirty then (node, db)
  else
    let (r, db) := dkvNodeNew db node.body
    (r, { db with cache := db.cache.del node.page, space := dkvDrop db.space node.page 1 })

def dkvRoute (map : OrdMap K V) (key : K) : Option (K × V) := do
  let k ← (map.floor key).or map.first
  return (k, ← map.get k)

def dkvReadText (file : KvFile) (p : Nat) : Option (Option (List UInt8)) := do
  match ← bread file p 1 with
  | none => return none
  | some first =>
    match bytesText (first.take 24) with
    | none => return none
    | some head =>
      match dkvUnhex8 ((head.drop 8).take 8) with
      | none => return none
      | some n =>
        let np := dkvPagesFor n
        let all ← if 1 < np then bread file p np else some (some first)
        return dkvUnframe all "DKVDATA1"

/-- `dkv_value_out`; null for a text that cannot be read. -/
def dkvValueOut (registry : Registry) (db : Db K) : Entry → Option UnoValue
  | .inline value => some value
  | .run isUno p _ => do
    let text ← match db.space.data.get p with
      | some job => some (some job.text)
      | none => dkvReadText db.file p
    match text with
    | none => return .null
    | some text =>
      if isUno then (ussrUnoDecode registry text).toOption else some (.string (CString.ofBytes text))

def dkvKeyOk (key : K) : Bool :=
  match KvKey.toUno key with
  | .integer _ | .real _ => true
  | .string s => dkvClean s 200
  | _ => false

/-- The loop of `dkv_find`. -/
def dkvFind (registry : Registry) : (fuel : Nat) → Db K → Nat → K → Option (Option Entry × Db K)
  | 0, _, _, _ => none
  | fuel + 1, db, p, key =>
    if p = 0 then some (none, db)
    else do
      let (node, db) ← dkvNode registry db p
      match node with
      | none => return (none, db)
      | some node =>
        match node.body with
        | .leaf map => return (map.get key, db)
        | .branch map =>
          let (_, child) ← dkvRoute map key
          dkvFind registry fuel db child key

def Db.fuel (db : Db K) : Nat :=
  db.space.pages + 1

def dubnaKvGet (registry : Registry) (db : Db K) (key : K) : Option (UnoValue × Db K) :=
  if dkvKeyOk key then do
    let (x, db) ← dkvFind registry db.fuel db db.root key
    match x with
    | none => return (.null, db)
    | some x => return (← dkvValueOut registry db x, db)
  else some (.null, db)

def dubnaKvCount (db : Db K) : Int :=
  db.space.count

/-- The loop of `dkv_collect` over the entries of a leaf. -/
def dkvCollectPairs (registry : Registry) (db : Db K) (max : Int) :
    List (K × Entry) → List (K × UnoValue) → Option (List (K × UnoValue))
  | [], out => some out
  | (k, x) :: pairs, out =>
    if 0 ≤ max ∧ max ≤ out.length then some out
    else do
      let v ← dkvValueOut registry db x
      dkvCollectPairs registry db max pairs (out ++ [(k, v)])

/-- The loop of `dkv_collect` over the children of a branch. -/
def dkvCollectKids
    (collect : Db K → Nat → List (K × UnoValue) → Option (List (K × UnoValue) × Db K)) :
    Db K → List (K × Nat) → List (K × UnoValue) → Option (List (K × UnoValue) × Db K)
  | db, [], out => some (out, db)
  | db, (_, child) :: kids, out => do
    let (out, db) ← collect db child out
    dkvCollectKids collect db kids out

def dkvCollect (registry : Registry) (lo hi : Option K) (max : Int) : (fuel : Nat) →
    Db K → Nat → List (K × UnoValue) → Option (List (K × UnoValue) × Db K)
  | 0, _, _, _ => none
  | fuel + 1, db, p, out => do
    let (node, db) ← dkvNode registry db p
    match node with
    | none => return (out, db)
    | some node =>
      match node.body with
      | .leaf map => return (← dkvCollectPairs registry db max (map.range lo hi) out, db)
      | .branch map =>
        dkvCollectKids (dkvCollect registry lo hi max fuel) db (map.range (lo.bind map.floor) hi) out

def dubnaKvRange (registry : Registry) (db : Db K) (lo hi : Option K) (max : Int) :
    Option (List (K × UnoValue) × Db K) :=
  if db.root = 0 then some ([], db)
  else dkvCollect registry lo hi max db.fuel db db.root []

end Ussr.Kv
