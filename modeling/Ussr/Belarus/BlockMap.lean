import Ussr.Library.OrdMap

/-! The block maps of Belarus, as `belarus.su` keeps them: a B+ tree for every
inode, from the index of a block in the file to its LBA, with one node to a block
of the disk and the root in the inode. -/

namespace Ussr.Belarus

inductive NodeKind where
  | L | I
deriving DecidableEq

/-- A node; `next` is a leaf's right neighbour, 0 for none. -/
structure Node where
  kind : NodeKind
  next : Nat
  map : OrdMap Nat Nat
  block : Nat
  dirty : Bool
  inode : Bool

/-- A file system: its free extents, the nodes in memory, and what `bl_read_meta` makes of a block on
the disk, as a node of a map or as an inode. -/
structure Fs where
  free : OrdMap Nat Nat
  nodes : Nat → Option Node
  disk : Nat → (inode : Bool) → Option Node

def Fs.setNode (blk : Nat) (node : Node) (fs : Fs) : Fs :=
  { fs with nodes := Function.update fs.nodes blk (some node) }

/-- The pieces of free extents that make up `left` blocks, and what stays free. -/
def allocPieces : (left : Nat) → List (Nat × Nat) → OrdMap Nat Nat → List (Nat × Nat) × OrdMap Nat Nat
  | _, [], free => ([], free)
  | left, (s, l) :: spans, free =>
    if left = 0 then ([], free)
    else
      let take := if left < l then left else l
      let free := free.del s
      let free := if take < l then free.put (s + take) (l - take) else free
      let rest := allocPieces (left - take) spans free
      ((s, take) :: rest.1, rest.2)

/-- `bl_alloc`: the extents taken, and what stays free; `none` where there is not enough room. -/
def blAlloc (count : Nat) (free : OrdMap Nat Nat) : Option (List (Nat × Nat) × OrdMap Nat Nat) :=
  match free.entries.find? fun p => count ≤ p.2 with
  | some (s, l) =>
    let free := free.del s
    some ([(s, count)], if count < l then free.put (s + count) (l - count) else free)
  | none =>
    if (free.entries.map Prod.snd).sum < count then none
    else some (allocPieces count free.entries free)

def blFanout : Nat := 128

/-- `bl_node`: the node in block `blk`, which stays in memory. -/
def blNode (fs : Fs) (blk : Nat) (inode : Bool) : Option (Node × Fs) :=
  match fs.nodes blk with
  | some node => some (node, fs)
  | none => (fs.disk blk inode).map fun node =>
    let node := { node with block := blk, dirty := false, inode := inode }
    (node, fs.setNode blk node)

/-- `bl_node_new` for a node of a map; `none` where there is no room for it. -/
def blNodeNew (fs : Fs) (kind : NodeKind) : Option (Node × Fs) :=
  match blAlloc 1 fs.free with
  | some ((blk, _) :: _, free) =>
    let node : Node := { kind := kind, next := 0, map := OrdMap.empty, block := blk, dirty := true, inode := false }
    some (node, { fs with free := free }.setNode blk node)
  | _ => none

def blTouch (node : Node) : Node := { node with dirty := true }

/-- The loop of `bl_map_path` from block `blk` on, in at most `turns` turns. -/
def mapPathFrom (idx : Nat) : (turns : Nat) → Fs → (blk : Nat) → (isino : Bool) → Option (List Nat × Fs)
  | 0, _, _, _ => none
  | turns + 1, fs, blk, isino => do
    let (node, fs) ← blNode fs blk isino
    match node.kind with
    | .L => return ([blk], fs)
    | .I => do
      let sep ← node.map.floor idx
      let child ← node.map.get sep
      let (path, fs) ← mapPathFrom idx turns fs child false
      return (blk :: path, fs)

def blMapPath (turns : Nat) (fs : Fs) (ino idx : Nat) : Option (List Nat × Fs) :=
  mapPathFrom idx turns fs ino true

def blBmap (turns : Nat) (fs : Fs) (ino idx : Nat) : Option (Option Nat × Fs) := do
  let (path, fs) ← blMapPath turns fs ino idx
  let blk ← path[path.length - 1]?
  let (leaf, fs) ← blNode fs blk (path.length = 1)
  return (leaf.map.get idx, fs)

/-- The loop of `bl_split` over the upper half of the entries. -/
def moveEntries (pairs : List (Nat × Nat)) (map rmap : OrdMap Nat Nat) : OrdMap Nat Nat × OrdMap Nat Nat :=
  pairs.foldl (fun m p => (m.1.del p.1, m.2.put p.1 p.2)) (map, rmap)

/-- `bl_split` of a node that is in memory: the separator and the right block, or `none` where there is
no room for the right node. -/
def blSplit (fs : Fs) (node : Node) : Option (Option (Nat × Nat) × Fs) :=
  let pairs := node.map.entries
  let half := pairs.length >>> 1
  match blNodeNew fs node.kind with
  | none => some (none, fs)
  | some (right, fs) => do
    let (sep, _) ← pairs[half]?
    let (map, rmap) := moveEntries (pairs.drop half) node.map right.map
    let right := { right with map := rmap, next := if node.kind = .L then node.next else right.next }
    let node := blTouch { node with map := map, next := if node.kind = .L then right.block else node.next }
    return (some (sep, right.block), (fs.setNode right.block right).setNode node.block node)

def moveDown (fs : Fs) (node : Node) : Option (Node × Fs) :=
  match blNodeNew fs node.kind with
  | none => none
  | some (down, fs) =>
    let down := { down with map := node.map, next := node.next }
    let node := blTouch { node with map := OrdMap.empty.put 0 down.block, kind := .I, next := 0 }
    some (down, (fs.setNode down.block down).setNode node.block node)

/-- The part of the loop of `bl_bmap_put` behind the check of the root: `node` is split, and the right
half goes to its parent `path[i - 1]`. -/
def splitInto (fs : Fs) (path : List Nat) (i : Nat) (node : Node) : Option (Bool × Fs) := do
  match ← blSplit fs node with
  | (none, fs) => return (false, fs)
  | (some (sep, rblk), fs) =>
    let pblk ← path[i - 1]?
    let (parent, fs) ← blNode fs pblk (i - 1 = 0)
    return (true, fs.setNode parent.block (blTouch { parent with map := parent.map.put sep rblk }))

/-- The loop of `bl_bmap_put` from `i` on. -/
def splitFull : (turns : Nat) → Fs → (path : List Nat) → (i : Nat) → Option (Int × Fs)
  | 0, _, _, _ => none
  | turns + 1, fs, path, i => do
    let blk ← path[i]?
    let (node, fs) ← blNode fs blk (i = 0)
    if node.map.len ≤ blFanout then return (0, fs)
    else if i = 0 then
      match moveDown fs node with
      | none => return (-1, fs)
      | some (down, fs) =>
        let path := [blk, down.block]
        match ← splitInto fs path 1 down with
        | (false, fs) => return (-1, fs)
        | (true, fs) => splitFull turns fs path 0
    else
      match ← splitInto fs path i node with
      | (false, fs) => return (-1, fs)
      | (true, fs) => splitFull turns fs path (i - 1)

/-- `bl_bmap_put`: 0, or -1 where a node finds no room. -/
def blBmapPut (turns : Nat) (fs : Fs) (ino idx lba : Nat) : Option (Int × Fs) := do
  let (path, fs) ← blMapPath turns fs ino idx
  let blk ← path[path.length - 1]?
  let (leaf, fs) ← blNode fs blk (path.length = 1)
  let fs := fs.setNode leaf.block (blTouch { leaf with map := leaf.map.put idx lba })
  splitFull turns fs path (path.length - 1)

/-- The first loop of `bl_bmap_all`: the leftmost leaf under a node. -/
def firstLeaf : (turns : Nat) → Fs → Node → Option (Node × Fs)
  | 0, _, _ => none
  | turns + 1, fs, node =>
    match node.kind with
    | .L => some (node, fs)
    | .I => do
      let f ← node.map.first
      let child ← node.map.get f
      let (node, fs) ← blNode fs child false
      firstLeaf turns fs node

/-- The second loop of `bl_bmap_all`, along the chain of leaves. -/
def leafChain : (turns : Nat) → Fs → Node → Option (List (Nat × Nat) × Fs)
  | 0, _, _ => none
  | turns + 1, fs, node =>
    if node.next ≠ 0 then do
      let (right, fs) ← blNode fs node.next false
      let (rest, fs) ← leafChain turns fs right
      return (node.map.entries ++ rest, fs)
    else some (node.map.entries, fs)

def blBmapAll (turns : Nat) (fs : Fs) (ino : Nat) : Option (List (Nat × Nat) × Fs) := do
  let (node, fs) ← blNode fs ino true
  let (leaf, fs) ← firstLeaf turns fs node
  leafChain turns fs leaf

/-- The loop of `bl_map_nodes`; the top of the stack is first. -/
def mapNodesFrom (ino : Nat) : (turns : Nat) → Fs → (stack : List Nat) → Option (List Nat × Fs)
  | _, fs, [] => some ([], fs)
  | 0, _, _ :: _ => none
  | turns + 1, fs, blk :: stack => do
    let (node, fs) ← blNode fs blk (blk = ino)
    let children := if node.kind = .I then node.map.entries.map Prod.snd else []
    let (rest, fs) ← mapNodesFrom ino turns fs (children.reverse ++ stack)
    return (if blk ≠ ino then blk :: rest else rest, fs)

def blMapNodes (turns : Nat) (fs : Fs) (ino : Nat) : Option (List Nat × Fs) := mapNodesFrom ino turns fs [ino]

end Ussr.Belarus
