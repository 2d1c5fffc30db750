import Ussr.BTree.Key
import Ussr.Library.Bisection

/-! The B+ tree of the `btree` container: insertion with splits, deletion with
borrowing and merging, and the two leaf links. A leaf is named by the number
of its allocation; `none` stands for an access past the end of a node's
arrays, which have room for 33 keys and 34 children. -/

namespace Ussr.BTree

abbrev btMax : Nat := 32

abbrev btMin : Nat := btMax / 2

inductive Node (K V : Type) where
  | leaf (id : Nat) (entries : List (K × V))
  | inner (keys : List K) (kids : List (Node K V))

namespace Node

variable {K V : Type}

/-- The field `n`, the number of keys. -/
def n : Node K V → Nat
  | .leaf _ es => es.length
  | .inner ks _ => ks.length

def keys : Node K V → List K
  | .leaf _ es => es.map Prod.fst
  | .inner ks _ => ks

end Node

/-- The key count of the tree, the links of the leaves, and the node allocator:
`mem i` tells whether the `i`-th allocation succeeds. -/
structure Heap where
  count : Nat
  fresh : Nat
  next : Nat → Option Nat
  prev : Nat → Option Nat
  mem : Nat → Bool

namespace Heap

/-- `bt_node_new`; the new node is named `h.fresh`. -/
def nodeNew (h : Heap) : Heap :=
  { h with
    fresh := h.fresh + 1
    next := Function.update h.next h.fresh none
    prev := Function.update h.prev h.fresh none }

/-- Hangs the new leaf `r` behind the leaf `a`. -/
def linkAfter (h : Heap) (a r : Nat) : Heap :=
  let next := Function.update h.next r (h.next a)
  let prev := Function.update h.prev r (some a)
  { h with
    prev := match h.next a with
      | none => prev
      | some x => Function.update prev x (some r)
    next := Function.update next a (some r) }

/-- Takes the leaf `b` behind `a` out of the list. -/
def unlinkAfter (h : Heap) (a b : Nat) : Heap :=
  { h with
    next := Function.update h.next a (h.next b)
    prev := match h.next b with
      | none => h.prev
      | some x => Function.update h.prev x (some a) }

end Heap

structure Tree (K V : Type) where
  root : Option (Node K V)
  heap : Heap

/-- `ussr_btree_create`. -/
def create {K V : Type} (mem : Nat → Bool) : Tree K V where
  root := none
  heap := { count := 0, fresh := 0, next := fun _ => none, prev := fun _ => none, mem := mem }

/-- Moves the elements from `i` on one place up and stores `x`, in an array of `room` places. -/
def insertAt {α : Type} (room : Nat) (xs : List α) (i : Nat) (x : α) : Option (List α) :=
  if i ≤ xs.length ∧ xs.length < room then some (xs.take i ++ x :: xs.drop i) else none

section

variable {K : Type} (ops : KeyOps K)

/-- `bt_upper`: the number of keys that are `<= key`. -/
def btUpper (keys : List K) (key : K) : Nat :=
  Bisection.bisect (fun k => ops.compare k key != .gt) keys keys.length 0 keys.length

/-- `bt_lower`: the number of keys that are `< key`. -/
def btLower (keys : List K) (key : K) : Nat :=
  Bisection.bisect (fun k => ops.compare k key == .lt) keys keys.length 0 keys.length

end

section

variable {K V : Type} (ops : KeyOps K)

/-- The node after `bt_insert`, the outputs `*sep` and `*right`, and whether it returned 0. -/
structure Insertion (K V : Type) where
  heap : Heap
  node : Node K V
  right : Option (K × Node K V)
  ok : Bool

def splitLeaf (heap : Heap) (id : Nat) (es : List (K × V)) : Option (Insertion K V) :=
  if es.length ≤ btMax then some ⟨heap, .leaf id es, none, true⟩
  else
    let r := heap.fresh
    if heap.mem r then
      let half := es.length / 2
      match es.drop half with
      | [] => none
      | e :: rest =>
        some ⟨heap.nodeNew.linkAfter id r, .leaf id (es.take half),
          some (e.1, .leaf r (e :: rest)), true⟩
    else some ⟨heap.nodeNew, .leaf id es, none, false⟩

def insertLeaf (key : K) (value : V) (heap : Heap) (id : Nat) (es : List (K × V)) :
    Option (Insertion K V) :=
  let i := btLower ops (es.map Prod.fst) key
  let fresh := do
    let es' ← insertAt (btMax + 1) es i (key, value)
    splitLeaf { heap with count := heap.count + 1 } id es'
  match es[i]? with
  | some e =>
    if ops.compare e.1 key = .eq then some ⟨heap, .leaf id (es.set i (e.1, value)), none, true⟩
    else fresh
  | none => fresh

def splitInner (heap : Heap) (ks : List K) (kids : List (Node K V)) :
    Option (Insertion K V) :=
  if ks.length ≤ btMax then some ⟨heap, .inner ks kids, none, true⟩
  else if heap.mem heap.fresh then
    let half := ks.length / 2
    match ks[half]? with
    | none => none
    | some sep =>
      some ⟨heap.nodeNew, .inner (ks.take half) (kids.take (half + 1)),
        some (sep, .inner (ks.drop (half + 1)) (kids.drop (half + 1))), true⟩
  else some ⟨heap.nodeNew, .inner ks kids, none, false⟩

/-- The inner node `ks`, `kids` after its child `i` has been inserted into. -/
def insertInner (ks : List K) (kids : List (Node K V)) (i : Nat) (kid : Insertion K V) :
    Option (Insertion K V) :=
  let kids := kids.set i kid.node
  if !kid.ok then some ⟨kid.heap, .inner ks kids, none, false⟩
  else
    match kid.right with
    | none => some ⟨kid.heap, .inner ks kids, none, true⟩
    | some (sep, right) => do
      let ks' ← insertAt (btMax + 1) ks i sep
      let kids' ← insertAt (btMax + 2) kids (i + 1) right
      splitInner kid.heap ks' kids'

mutual

def btInsert (key : K) (value : V) (heap : Heap) : Node K V → Option (Insertion K V)
  | .leaf id es => insertLeaf ops key value heap id es
  | .inner ks kids =>
    match btInsertKid key value heap kids (btUpper ops ks key) with
    | none => none
    | some kid => insertInner ks kids (btUpper ops ks key) kid

/-- `bt_insert` on `kids[i]`. -/
def btInsertKid (key : K) (value : V) (heap : Heap) :
    List (Node K V) → Nat → Option (Insertion K V)
  | [], _ => none
  | kid :: _, 0 => btInsert key value heap kid
  | _ :: kids, i + 1 => btInsertKid key value heap kids i

end

/-- The end of `ussr_btree_put`: a root that was split gets a new root above it. -/
def growRoot (r : Insertion K V) : Bool × Tree K V :=
  if !r.ok then (false, ⟨some r.node, r.heap⟩)
  else
    match r.right with
    | none => (true, ⟨some r.node, r.heap⟩)
    | some (sep, right) =>
      if r.heap.mem r.heap.fresh then
        (true, ⟨some (.inner [sep] [r.node, right]), r.heap.nodeNew⟩)
      else (false, ⟨some r.node, r.heap.nodeNew⟩)

/-- `ussr_btree_put`; the flag tells whether it returned 0. -/
def btPut (tree : Tree K V) (key : K) (value : V) : Option (Bool × Tree K V) :=
  if !ops.ok key then some (false, tree)
  else
    match tree.root with
    | some root => (btInsert ops key value tree.heap root).map growRoot
    | none =>
      if tree.heap.mem tree.heap.fresh then
        (btInsert ops key value tree.heap.nodeNew (.leaf tree.heap.fresh [])).map growRoot
      else some (false, ⟨none, tree.heap.nodeNew⟩)

end

section

variable {K V : Type}

/-- The last key of `l` moves over the separator into `c`: the new left node,
separator and right node. -/
def borrowLeft (l : Node K V) (sep : K) (c : Node K V) :
    Option (Node K V × K × Node K V) :=
  match l, c with
  | .leaf lid les, .leaf cid ces => do
    let e ← les.getLast?
    let ces' ← insertAt (btMax + 1) ces 0 e
    some (.leaf lid les.dropLast, e.1, .leaf cid ces')
  | .inner lks lkids, .inner cks ckids => do
    let k ← lks.getLast?
    let kid ← lkids.getLast?
    let cks' ← insertAt (btMax + 1) cks 0 sep
    let ckids' ← insertAt (btMax + 2) ckids 0 kid
    some (.inner lks.dropLast lkids.dropLast, k, .inner cks' ckids')
  | _, _ => none

/-- The first key of `r` moves over the separator into `c`. -/
def borrowRight (c : Node K V) (sep : K) (r : Node K V) :
    Option (Node K V × K × Node K V) :=
  match c, r with
  | .leaf cid ces, .leaf rid (e :: e' :: res) => do
    let ces' ← insertAt (btMax + 1) ces ces.length e
    some (.leaf cid ces', e'.1, .leaf rid (e' :: res))
  | .inner cks ckids, .inner (k :: rks) (kid :: rkids) => do
    let cks' ← insertAt (btMax + 1) cks cks.length sep
    let ckids' ← insertAt (btMax + 2) ckids ckids.length kid
    some (.inner cks' ckids', k, .inner rks rkids)
  | _, _ => none

/-- The node `b` right of `sep` is emptied into `a`. -/
def mergeInto (heap : Heap) (a : Node K V) (sep : K) (b : Node K V) :
    Option (Heap × Node K V) :=
  match a, b with
  | .leaf aid aes, .leaf bid bes =>
    if aes.length + bes.length ≤ btMax + 1 then
      some (heap.unlinkAfter aid bid, .leaf aid (aes ++ bes))
    else none
  | .inner aks akids, .inner bks bkids =>
    if aks.length + 1 + bks.length ≤ btMax + 1 ∧ akids.length + bkids.length ≤ btMax + 2 then
      some (heap, .inner (aks ++ sep :: bks) (akids ++ bkids))
    else none
  | _, _ => none

/-- `bt_fix` on the arrays of the parent, for its child `i`. -/
def btFix (heap : Heap) (ks : List K) (kids : List (Node K V)) (i : Nat) :
    Option (Heap × List K × List (Node K V)) := do
  let c ← kids[i]?
  let l := if 0 < i then kids[i - 1]? else none
  let r := if i < ks.length then kids[i + 1]? else none
  if (l.map Node.n).getD 0 > btMin then
    let l ← l
    let sep ← ks[i - 1]?
    let (l', sep', c') ← borrowLeft l sep c
    some (heap, ks.set (i - 1) sep', (kids.set (i - 1) l').set i c')
  else if (r.map Node.n).getD 0 > btMin then
    let r ← r
    let sep ← ks[i]?
    let (c', sep', r') ← borrowRight c sep r
    some (heap, ks.set i sep', (kids.set i c').set (i + 1) r')
  else
    let j := if l.isSome then i - 1 else i
    let a ← kids[j]?
    let b ← kids[j + 1]?
    let sep ← ks[j]?
    let (heap', a') ← mergeInto heap a sep b
    some (heap', ks.eraseIdx j, (kids.set j a').eraseIdx (j + 1))

/-- The node after `bt_delete` and its result. -/
structure Deletion (K V : Type) where
  heap : Heap
  node : Node K V
  found : Bool

variable (ops : KeyOps K)

def deleteLeaf (key : K) (heap : Heap) (id : Nat) (es : List (K × V)) : Deletion K V :=
  let i := btLower ops (es.map Prod.fst) key
  match es[i]? with
  | some e =>
    if ops.compare e.1 key = .eq then
      ⟨{ heap with count := heap.count - 1 }, .leaf id (es.eraseIdx i), true⟩
    else ⟨heap, .leaf id es, false⟩
  | none => ⟨heap, .leaf id es, false⟩

/-- The inner node `ks`, `kids` after its child `i` has been deleted from. -/
def deleteInner (ks : List K) (kids : List (Node K V)) (i : Nat) (kid : Deletion K V) :
    Option (Deletion K V) :=
  if !kid.found then some ⟨kid.heap, .inner ks kids, false⟩
  else if kid.node.n < btMin then do
    let (heap, ks', kids') ← btFix kid.heap ks (kids.set i kid.node) i
    some ⟨heap, .inner ks' kids', true⟩
  else some ⟨kid.heap, .inner ks (kids.set i kid.node), true⟩

mutual

def btDelete (key : K) (heap : Heap) : Node K V → Option (Deletion K V)
  | .leaf id es => some (deleteLeaf ops key heap id es)
  | .inner ks kids =>
    match btDeleteKid key heap kids (btUpper ops ks key) with
    | none => none
    | some kid => deleteInner ks kids (btUpper ops ks key) kid

/-- `bt_delete` on `kids[i]`. -/
def btDeleteKid (key : K) (heap : Heap) :
    List (Node K V) → Nat → Option (Deletion K V)
  | [], _ => none
  | kid :: _, 0 => btDelete key heap kid
  | _ :: kids, i + 1 => btDeleteKid key heap kids i

end

def shrinkRoot : Node K V → Option (Node K V)
  | .inner [] kids => kids.head?
  | .leaf _ [] => none
  | node => some node

/-- `ussr_btree_delete`. -/
def btDel (tree : Tree K V) (key : K) : Option (Bool × Tree K V) :=
  match tree.root with
  | none => some (false, tree)
  | some root =>
    if !ops.ok key then some (false, tree)
    else do
      let r ← btDelete ops key tree.heap root
      if !r.found then some (false, tree)
      else some (true, ⟨shrinkRoot r.node, r.heap⟩)

end

inductive Op (K V : Type) where
  | put (key : K) (value : V)
  | delete (key : K)

def Op.run {K V : Type} (ops : KeyOps K) (tree : Tree K V) : Op K V → Option (Tree K V)
  | .put k v => (btPut ops tree k v).map Prod.snd
  | .delete k => (btDel ops tree k).map Prod.snd

/-- A sequence of calls; `none` if one of them indexes an array out of its bounds. -/
def runOps {K V : Type} (ops : KeyOps K) : Tree K V → List (Op K V) → Option (Tree K V)
  | tree, [] => some tree
  | tree, op :: rest => (op.run ops tree).bind fun tree' => runOps ops tree' rest

end Ussr.BTree
