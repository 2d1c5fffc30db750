import Ussr.BTree.Invariant

/-! The queries of the `btree` container. A position is a leaf and an index in
it, or none when the leaf pointer is NULL; the searches step along the leaf
links. An outer `none` stands for a dangling leaf pointer or for a walk that
has not ended when its fuel is used up. -/

namespace Ussr.BTree

variable {K V : Type}

abbrev Pos := Option (Nat × Nat)

namespace Tree

def leaves (t : Tree K V) : List (Nat × List (K × V)) :=
  (t.root.map Node.leaves).getD []

def leafAt (t : Tree K V) (id : Nat) : Option (List (K × V)) :=
  (t.leaves.find? fun leaf => leaf.1 == id).map Prod.snd

end Tree

section

variable (ops : KeyOps K)

mutual

/-- `bt_leaf_for` below a node. -/
def leafFor (key : K) : Node K V → Option (Nat × List (K × V))
  | .leaf id es => some (id, es)
  | .inner ks kids => leafForKid key kids (btUpper ops ks key)

def leafForKid (key : K) : List (Node K V) → Nat → Option (Nat × List (K × V))
  | [], _ => none
  | kid :: _, 0 => leafFor key kid
  | _ :: kids, i + 1 => leafForKid key kids i

end

mutual

def firstLeaf : Node K V → Option (Nat × List (K × V))
  | .leaf id es => some (id, es)
  | .inner _ kids => firstLeafKid kids

def firstLeafKid : List (Node K V) → Option (Nat × List (K × V))
  | [] => none
  | kid :: _ => firstLeaf kid

end

mutual

def lastLeaf : Node K V → Option (Nat × List (K × V))
  | .leaf id es => some (id, es)
  | .inner ks kids => lastLeafKid kids ks.length

def lastLeafKid : List (Node K V) → Nat → Option (Nat × List (K × V))
  | [], _ => none
  | kid :: _, 0 => lastLeaf kid
  | _ :: kids, i + 1 => lastLeafKid kids i

end

end

section

/-- `while (p.leaf != NULL && p.i >= p.leaf->n)`: on to the next leaf. -/
def skipForward (t : Tree K V) : (fuel : Nat) → Option Nat → Nat → Option Pos
  | 0, _, _ => none
  | _ + 1, none, _ => some none
  | fuel + 1, some id, i => do
    let es ← t.leafAt id
    if es.length ≤ i then skipForward t fuel (t.heap.next id) 0 else some (some (id, i))

/-- `while (p.leaf != NULL && p.i < 0)`: back to the end of the previous leaf. -/
def skipBack (t : Tree K V) : (fuel : Nat) → Option Nat → Int → Option Pos
  | 0, _, _ => none
  | _ + 1, none, _ => some none
  | fuel + 1, some id, i =>
    if i < 0 then
      match t.heap.prev id with
      | none => some none
      | some id' => do
        let es ← t.leafAt id'
        skipBack t fuel (some id') (es.length - 1)
    else some (some (id, i.toNat))

variable (ops : KeyOps K) (t : Tree K V)

/-- `bt_seek`: the first key `>= key`, or `> key` when strict. -/
def seek (key : K) (strict : Bool) : Option Pos :=
  match t.root.bind (leafFor ops key) with
  | none => some none
  | some (id, es) =>
    let keys := es.map Prod.fst
    skipForward t (t.leaves.length + 1) (some id)
      (if strict then btUpper ops keys key else btLower ops keys key)

/-- `bt_seek_back`: the last key `<= key`, or `< key` when strict. -/
def seekBack (key : K) (strict : Bool) : Option Pos :=
  match t.root.bind (leafFor ops key) with
  | none => some none
  | some (id, es) =>
    let keys := es.map Prod.fst
    skipBack t (t.leaves.length + 1) (some id)
      ((if strict then btLower ops keys key else btUpper ops keys key) - 1)

/-- `bt_first`. -/
def first : Pos :=
  match t.root.bind firstLeaf with
  | none => none
  | some (id, es) => if es.length = 0 then none else some (id, 0)

/-- `bt_last`. -/
def last : Pos :=
  match t.root.bind lastLeaf with
  | none => none
  | some (id, es) => if es.length = 0 then none else some (id, es.length - 1)

def entryAt : Pos → Option (Option (K × V))
  | none => some none
  | some (id, i) => do
    let es ← t.leafAt id
    let e ← es[i]?
    some (some e)

/-- `bt_key_out`. -/
def keyOut (p : Pos) : Option (Option K) :=
  (entryAt t p).map (Option.map Prod.fst)

end

/-- `for (; node != NULL; node = node->next)`: the values of a leaf and of those behind it. -/
def eachFrom (t : Tree K V) : (fuel : Nat) → Option Nat → Option (List V)
  | 0, _ => none
  | _ + 1, none => some []
  | fuel + 1, some id => do
    let es ← t.leafAt id
    let rest ← eachFrom t fuel (t.heap.next id)
    return es.map Prod.snd ++ rest

/-- `ussr_btree_each_value`: the values in the order in which they are visited. -/
def eachValue (t : Tree K V) : Option (List V) :=
  eachFrom t (t.leaves.length + 1) ((t.root.bind firstLeaf).map Prod.fst)

section

variable (ops : KeyOps K) (t : Tree K V)

/-- `ussr_btree_get`. -/
def btGet (key : K) : Option V :=
  match t.root.bind (leafFor ops key) with
  | none => none
  | some (_, es) =>
    match es[btLower ops (es.map Prod.fst) key]? with
    | some e => if ops.compare e.1 key = .eq then some e.2 else none
    | none => none

def btHas (key : K) : Bool :=
  (btGet ops t key).isSome

def btLen : Nat :=
  t.heap.count

def btFirst : Option (Option K) :=
  keyOut t (first t)

def btLast : Option (Option K) :=
  keyOut t (last t)

def btFloor (key : K) : Option (Option K) :=
  (seekBack ops t key false).bind (keyOut t)

def btPrev (key : K) : Option (Option K) :=
  (seekBack ops t key true).bind (keyOut t)

def btCeil (key : K) : Option (Option K) :=
  (seek ops t key false).bind (keyOut t)

def btNext (key : K) : Option (Option K) :=
  (seek ops t key true).bind (keyOut t)

/-- The loop of `bt_range`: `taken` entries are in the result, the next is at `p`. -/
def rangeLoop (hi : Option K) (limit : Int) : (fuel taken : Nat) → Pos → Option (List (K × V))
  | 0, _, _ => none
  | _ + 1, _, none => some []
  | fuel + 1, taken, some (id, i) =>
    if limit < 0 ∨ (taken : Int) < limit then do
      let es ← t.leafAt id
      let e ← es[i]?
      if hi.any fun h => ops.compare e.1 h != .lt then some []
      else
        let p := if es.length ≤ i + 1 then (t.heap.next id).map (·, 0) else some (id, i + 1)
        let rest ← rangeLoop hi limit fuel (taken + 1) p
        some (e :: rest)
    else some []

def rangeStart : Option K → Option Pos
  | none => some (first t)
  | some lo => seek ops t lo false

/-- `btrange`: null bounds are open, a negative limit is none. -/
def btRange (lo hi : Option K) (limit : Int) : Option (List (K × V)) :=
  (rangeStart ops t lo).bind (rangeLoop ops t hi limit (t.heap.count + 1) 0)

def btKeys (lo hi : Option K) (limit : Int) : Option (List K) :=
  (btRange ops t lo hi limit).map (List.map Prod.fst)

end

end Ussr.BTree
