import Ussr.Belarus.BlockMap
import Ussr.Library.Extents
import Ussr.Stalin.Fields

/-! The check of a mounted file system, `bl_fsck`, over maps and a free-space map that may hold any
numbers. The numbers are integers that wrap around at 64 bits; `none` is a run-time error or a loop
that has no turns left. -/

namespace Ussr.Belarus.Fsck
open Stalin (Text)

def wrap (n : Int) : Int := n.bmod (2 ^ 64)

inductive FileType where
  | d | f
deriving DecidableEq

structure Node where
  kind : NodeKind
  next : Int
  map : OrdMap Int Int
  file : Option (FileType × Int)

structure Rec where
  type : FileType
  size : Int
  ino : Int

/-- A mounted file system. `node` is what `bl_node` gives in a block and `dir` what `bl_dir` gives in an
inode, by name: both keep in memory what they read, so it is the same for a whole check. -/
structure Fs where
  base : Int
  blocks : Nat
  root : Int
  free : OrdMap Int Int
  node : Int → Option Node
  dir : Int → Option (List (Text × Int))

namespace Fs

variable (fs : Fs)

def recOf (ino : Int) : Option Rec := do
  let node ← fs.node ino
  let (type, size) ← node.file
  return ⟨type, size, ino⟩

/-- The entries of a directory in `bl_walk`, the first name first. -/
def below (ep : Text) (er : Rec) : Option (List (Text × Rec)) :=
  if er.type = .d then do
    let names ← fs.dir er.ino
    names.mapM fun e => (fs.recOf e.2).map fun cr => (if ep = [47] then 47 :: e.1 else ep ++ 47 :: e.1, cr)
  else some []

/-- The loop of `bl_walk`; the top of the stack is first. -/
def walkFrom : (turns : Nat) → (stack : List (Text × Rec)) → Option (List (Text × Rec))
  | _, [] => some []
  | 0, _ :: _ => none
  | turns + 1, e :: stack => do
    let names ← fs.below e.1 e.2
    let rest ← walkFrom turns (names ++ stack)
    return e :: rest

/-- `bl_walk` from the root on. -/
def blWalk (turns : Nat) : Option (List (Text × Rec)) :=
  if fs.root = 0 then some []
  else do
    let top ← fs.recOf fs.root
    fs.walkFrom turns [([47], top)]

/-- The loop of `bl_map_nodes`; the top of the stack is first. -/
def mapNodesFrom (ino : Int) : (turns : Nat) → (stack : List Int) → Option (List Int)
  | _, [] => some []
  | 0, _ :: _ => none
  | turns + 1, blk :: stack => do
    let node ← fs.node blk
    let children := if node.kind = .I then node.map.entries.map Prod.snd else []
    let rest ← mapNodesFrom ino turns (children.reverse ++ stack)
    return if blk ≠ ino then blk :: rest else rest

def blMapNodes (turns : Nat) (ino : Int) : Option (List Int) := fs.mapNodesFrom ino turns [ino]

/-- `bl_map_path` from a block on. -/
def blMapPath (idx : Int) : (turns : Nat) → (blk : Int) → Option (List Int)
  | 0, _ => none
  | turns + 1, blk => do
    let node ← fs.node blk
    match node.kind with
    | .L => return [blk]
    | .I => do
      let sep ← node.map.floor idx
      let child ← node.map.get sep
      let path ← blMapPath idx turns child
      return blk :: path

/-- The first loop of `bl_bmap_all`: the leftmost leaf under a node. -/
def firstLeaf : (turns : Nat) → Node → Option Node
  | 0, _ => none
  | turns + 1, node =>
    match node.kind with
    | .L => some node
    | .I => do
      let f ← node.map.first
      let child ← node.map.get f
      let node ← fs.node child
      firstLeaf turns node

/-- The second loop of `bl_bmap_all`, along the chain of leaves. -/
def leafChain : (turns : Nat) → Node → Option (List (Int × Int))
  | 0, _ => none
  | turns + 1, node =>
    if node.next ≠ 0 then do
      let right ← fs.node node.next
      let rest ← leafChain turns right
      return node.map.entries ++ rest
    else some node.map.entries

def blBmapAll (turns : Nat) (ino : Int) : Option (List (Int × Int)) := do
  let node ← fs.node ino
  let leaf ← fs.firstLeaf turns node
  fs.leafChain turns leaf

end Fs

structure Listed where
  path : Text
  size : Int
  ino : Int
  nodes : List Int
  maps : List (Int × Int)

/-- What `bl_fsck` reads of a file; it goes down the map for the depth that it prints. -/
def Fs.listed (fs : Fs) (turns : Nat) (path : Text) (r : Rec) : Option Listed := do
  let nodes ← fs.blMapNodes turns r.ino
  let _ ← fs.blMapPath 0 turns r.ino
  let maps ← fs.blBmapAll turns r.ino
  return ⟨path, r.size, r.ino, nodes, maps⟩

/-- The files and directories of a file system, as `bl_walk` finds them. -/
def Fs.files (fs : Fs) (turns : Nat) : Option (List Listed) := do
  let all ← fs.blWalk turns
  all.mapM fun e => fs.listed turns e.1 e.2

/-- What `bl_fsck` prints about a problem. -/
inductive Problem where
  | maps (path : Text) (blocks : Nat) (want : Int)
  | notMapped (path : Text) (j : Nat)
  | twice (path : Text) (b : Int)
  | clash (b : Int)
  | lost (n : Int)

def want (size : Int) : Int := wrap (size + 4095) >>> (12 : Nat)

def blockOf (base lba : Int) : Int := wrap (lba - base) >>> (3 : Nat)

def mapLoop (base : Int) : (j : Nat) → List (Int × Int) → List Int × Option Nat
  | _, [] => ([], none)
  | j, (idx, lba) :: maps =>
    if idx ≠ j then ([blockOf base lba], some j)
    else
      let rest := mapLoop base (j + 1) maps
      (blockOf base lba :: rest.1, rest.2)

def useLoop (path : Text) : List Int → (used : OrdMap Int Unit) → OrdMap Int Unit × List Problem
  | [], used => (used, [])
  | b :: mine, used =>
    let rest := useLoop path mine (used.put b ())
    (rest.1, if used.has b then .twice path b :: rest.2 else rest.2)

def checkFile (base : Int) (used : OrdMap Int Unit) (file : Listed) : OrdMap Int Unit × List Problem :=
  let nb := file.maps.length
  let size := if nb ≠ want file.size then [.maps file.path nb (want file.size)] else []
  let mapped := mapLoop base 0 file.maps
  let gap := mapped.2.toList.map (.notMapped file.path)
  let uses := useLoop file.path (file.ino :: file.nodes ++ mapped.1) used
  (uses.1, size ++ gap ++ uses.2)

def checkFiles (base : Int) : List Listed → (used : OrdMap Int Unit) → OrdMap Int Unit × List Problem
  | [], used => (used, [])
  | file :: files, used =>
    let first := checkFile base used file
    let rest := checkFiles base files first.1
    (rest.1, first.2 ++ rest.2)

def metaBlocks : List Int := (List.range 17).map Int.ofNat

def checkExtent (used : OrdMap Int Unit) (e : Int × Int) : List Problem :=
  match used.ceil e.1 with
  | some clash => if clash < wrap (e.1 + e.2) then [.clash clash] else []
  | none => []

def checkLost (blocks nused : Nat) (spans : List (Int × Int)) : List Problem :=
  let nfree := spans.foldl (fun n e => wrap (n + e.2)) 0
  let lost := wrap (wrap (blocks - nused) - nfree)
  if lost ≠ 0 then [.lost lost] else []

/-- `bl_fsck`: what it prints; the result is how many lines that are. -/
def blFsck (turns : Nat) (fs : Fs) : Option (List Problem) := do
  let files ← fs.files turns
  let used := metaBlocks.foldl (fun used b => used.put b ()) OrdMap.empty
  let (used, problems) := checkFiles fs.base files used
  return problems ++ fs.free.entries.flatMap (checkExtent used) ++ checkLost fs.blocks used.len fs.free.entries

end Ussr.Belarus.Fsck
