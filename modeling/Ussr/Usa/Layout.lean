import Ussr.Usa.Types
import Ussr.Library.Decimal

/-! Objects of C as bytes. In usa's memory a scalar has one cell, at the offset of its first byte; the
layout of a type is a text that the compiler makes (`p_desc`), and the C library reads it (`__layout`) to
make bytes of an object and an object of bytes. The types here are those of integers and pointers. -/

namespace Ussr.Usa.Layout

inductive Scalar where
  | int (t : Ty)
  | pointer
deriving DecidableEq

namespace Scalar

def size : Scalar → Nat
  | int t => t.bits / 8
  | pointer => 8

/-- The code of a scalar in `p_desc_into`. -/
def code : Scalar → UInt8
  | int t =>
    if t.kind ≤ 2 then if t.unsigned then 66 else 98
    else if t.kind = 3 then if t.unsigned then 72 else 104
    else if t.kind = 4 then if t.unsigned then 73 else 105
    else if t.unsigned then 81 else 113
  | pointer => 81

end Scalar

/-- An anonymous struct is a member like others: `p_struct` lists its members at the same places. -/
inductive Obj where
  | scalar (s : Scalar)
  | array (b : Obj) (n : Nat)
  | struct (ms : List Obj)

/-- `{(off + al - 1) - (off + al - 1) % al}` -/
def roundUp (off al : Nat) : Nat := (off + al - 1) - (off + al - 1) % al

mutual

/-- `ty_sz` and `ty_al` -/
def Obj.extent : Obj → Nat × Nat
  | .scalar s => (s.size, s.size)
  | .array b n => (n * b.extent.1, b.extent.2)
  | .struct ms => (roundUp (pStruct 0 1 ms).1 (pStruct 0 1 ms).2, (pStruct 0 1 ms).2)

/-- The loop over the members in `p_struct`, with `off` and `al`. -/
def pStruct : (off al : Nat) → List Obj → Nat × Nat
  | off, al, [] => (off, al)
  | off, al, t :: ms =>
    pStruct (roundUp off t.extent.2 + t.extent.1) (if al < t.extent.2 then t.extent.2 else al) ms

end

namespace Obj

def size (t : Obj) : Nat := t.extent.1

def align (t : Obj) : Nat := t.extent.2

end Obj

mutual

def pDescInto : Obj → (base : Nat) → (out : List (List UInt8)) → List (List UInt8)
  | .array b n, base, out =>
    if 4096 < out.length then out
    else (List.range n).foldl (fun out i => pDescInto b (base + i * b.size) out) out
  | .struct ms, base, out => if 4096 < out.length then out else pDescMembers 0 ms base out
  | .scalar s, base, out =>
    if 4096 < out.length then out else out ++ [s.code :: Decimal.decimal base]

/-- Its loop over the members of a struct, the first of which comes behind `off`. -/
def pDescMembers : (off : Nat) → List Obj → (base : Nat) → (out : List (List UInt8)) → List (List UInt8)
  | _, [], _, out => out
  | off, t :: ms, base, out =>
    pDescMembers (roundUp off t.align + t.size) ms base (pDescInto t (base + roundUp off t.align) out)

end

def pDesc (t : Obj) : List UInt8 := [44].intercalate (pDescInto t 0 [])

/-- The stride that `p_bytecall` passes with the layout. -/
def strideOf (t : Obj) : Nat := if pDesc t = [] then 1 else t.size

section

abbrev Cells := Nat → BitVec 64

structure Floats where
  dbits : BitVec 64 → BitVec 64
  fbits : BitVec 64 → BitVec 64
  dfrombits : BitVec 64 → BitVec 64
  ffrombits : BitVec 64 → BitVec 64

def layoutOffset : (off : Int) → List UInt8 → Int × List UInt8
  | off, [] => (off, [])
  | off, c :: d => if c = 44 then (off, d) else layoutOffset (off * 10 + (c.toNat - 48)) d

/-- `__layout`, with the tables of codes and of offsets as one. -/
def layout : (max : Nat) → List UInt8 → List (UInt8 × Int)
  | 0, _ => []
  | _ + 1, [] => []
  | max + 1, c :: d => (c, (layoutOffset 0 d).1) :: layout max (layoutOffset 0 d).2

def codewidth (c : UInt8) : Nat :=
  if c = 98 ∨ c = 66 then 1
  else if c = 104 ∨ c = 72 then 2
  else if c = 105 ∨ c = 73 ∨ c = 102 then 4
  else 8

/-- A conversion to an unsigned type of `n` bits. -/
def unsignedCast (n : Nat) (x : BitVec 64) : BitVec 64 := (x.setWidth n).setWidth 64

/-- A conversion to a signed type of `n` bits. -/
def signedCast (n : Nat) (x : BitVec 64) : BitVec 64 := (x.setWidth n).signExtend 64

variable (r : Floats)

/-- The bits of a scalar in `__pack`. -/
def packed (c : UInt8) (x : BitVec 64) : BitVec 64 :=
  if c = 100 then r.dbits x
  else if c = 102 then r.fbits x
  else if codewidth c = 1 then unsignedCast 8 x
  else if codewidth c = 2 then unsignedCast 16 x
  else if codewidth c = 4 then unsignedCast 32 x
  else x

def putBytes : (n p : Nat) → (v : BitVec 64) → Cells → Cells
  | 0, _, _, m => m
  | n + 1, p, v, m => putBytes n (p + 1) (v >>> 8) (Function.update m p (v &&& 255))

theorem codewidth_pos (c : UInt8) : 0 < codewidth c := by
  unfold codewidth
  split_ifs <;> decide

/-- `__pack` from the byte `b` on, with the rest of the tables. -/
def pack (out obj stride b : Nat) (table : List (UInt8 × Int)) (m : Cells) : Cells :=
  if b < stride then
    match table with
    | [] => pack out obj stride (b + 1) [] (Function.update m (out + b) (unsignedCast 8 (m (obj + b))))
    | (c, o) :: rest =>
      if o = b then
        have := codewidth_pos c
        pack out obj stride (b + codewidth c) rest
          (putBytes (min (codewidth c) (stride - b)) (out + b) (packed r c (m (obj + b))) m)
      else pack out obj stride (b + 1) table (Function.update m (out + b) (unsignedCast 8 (m (obj + b))))
  else m
termination_by stride - b

/-- The loop that shifts `j` bytes into `v`, the last of them first. -/
def gather (byte : Nat → BitVec 64) : (j : Nat) → (v : BitVec 64) → BitVec 64
  | 0, v => v
  | j + 1, v => gather byte j (v <<< 8 ||| byte j)

/-- The scalar of some bits in `__unpack`. -/
def unpacked (c : UInt8) (v : BitVec 64) : BitVec 64 :=
  if c = 98 then signedCast 8 v
  else if c = 66 then unsignedCast 8 v
  else if c = 104 then signedCast 16 v
  else if c = 72 then unsignedCast 16 v
  else if c = 105 then signedCast 32 v
  else if c = 73 then unsignedCast 32 v
  else if c = 102 then r.ffrombits v
  else if c = 100 then r.dfrombits v
  else v

/-- `__unpack` from the byte `b` on, with the rest of the tables. -/
def unpack (obj inp stride b : Nat) (table : List (UInt8 × Int)) (m : Cells) : Cells :=
  if b < stride then
    match table with
    | [] => unpack obj inp stride (b + 1) [] (Function.update m (obj + b) (m (inp + b)))
    | (c, o) :: rest =>
      if o = b then
        have := codewidth_pos c
        let v := gather (fun j => if b + j < stride then m (inp + b + j) else 0) (codewidth c) 0
        unpack obj inp stride (b + codewidth c) rest (Function.update m (obj + b) (unpacked r c v))
      else unpack obj inp stride (b + 1) table (Function.update m (obj + b) (m (inp + b)))
  else m
termination_by stride - b

/-- The loops over whole objects: how much is done, or `none` when no turns are left. -/
def strides (stride total : Nat) (step : (done : Nat) → Cells → Cells) :
    (turns done : Nat) → Cells → Option (Nat × Cells)
  | 0, _, _ => none
  | turns + 1, done, m =>
    if done + stride ≤ total then strides stride total step turns (done + stride) (step done m) else some (done, m)

/-- `n` cells, one after the other. -/
def copyCells : (d s n : Nat) → Cells → Cells
  | _, _, 0, m => m
  | d, s, n + 1, m => copyCells (d + 1) (s + 1) n (Function.update m d (m s))

def memcpyT (turns d s n : Nat) (ddesc : List UInt8) (dstride : Nat) (sdesc : List UInt8) (sstride : Nat) (m : Cells) :
    Option Cells := do
  let (done, m) ←
    if 0 < sdesc.length then
      strides sstride n (fun done => pack r (d + done) (s + done) sstride 0 (layout 512 sdesc)) turns 0 m
    else strides dstride n (fun done => unpack r (d + done) (s + done) dstride 0 (layout 512 ddesc)) turns 0 m
  return copyCells (d + done) (s + done) (n - done) m

/-- `fputc` of `n` cells to a file that takes all. -/
def fputCells (p n : Nat) (f : List (BitVec 8)) (m : Cells) : List (BitVec 8) :=
  f ++ (List.range n).map fun i => (m (p + i)).setWidth 8

/-- The loop of `__fwrite_t` over whole objects. -/
def fwriteLoop (buf p stride total : Nat) (table : List (UInt8 × Int)) :
    (turns done : Nat) → List (BitVec 8) → Cells → Option (Nat × List (BitVec 8) × Cells)
  | 0, _, _, _ => none
  | turns + 1, done, f, m =>
    if done + stride ≤ total then
      let m := pack r buf (p + done) stride 0 table m
      fwriteLoop buf p stride total table turns (done + stride) (fputCells buf stride f m) m
    else some (done, f, m)

/-- `__fwrite_t`, with the block at `buf` that `malloc` gives: what it returns and what is in the file. -/
def fwriteT (turns buf p size n : Nat) (f : List (BitVec 8)) (desc : List UInt8) (stride : Nat) (m : Cells) :
    Option (Nat × List (BitVec 8) × Cells) :=
  if stride = 0 ∨ size * n = 0 then some (0, f, m)
  else do
    let (done, f, m) ← fwriteLoop r buf p stride (size * n) (layout 512 desc) turns 0 f m
    return (if size = 0 then 0 else n, fputCells (p + done) (size * n - done) f m, m)

/-- `fgetc` into `n` cells: how many there were, the rest of the file, and the memory. -/
def fgetCells : (p n : Nat) → List (BitVec 8) → Cells → Nat × List (BitVec 8) × Cells
  | _, 0, f, m => (0, f, m)
  | _, _ + 1, [], m => (0, [], m)
  | p, n + 1, c :: f, m =>
    let (i, f, m) := fgetCells (p + 1) n f (Function.update m p (c.setWidth 64))
    (i + 1, f, m)

/-- The loop of `__fread_t`. -/
def freadLoop (buf p stride total : Nat) (table : List (UInt8 × Int)) :
    (turns done : Nat) → List (BitVec 8) → Cells → Option (Nat × List (BitVec 8) × Cells)
  | 0, _, _, _ => none
  | turns + 1, done, f, m =>
    if done < total then
      let chunk := if total - done < stride then total - done else stride
      let (i, f, m) := fgetCells buf chunk f m
      if i < chunk then some (done + i, f, m)
      else
        let m := if chunk = stride then unpack r (p + done) buf stride 0 table m else copyCells (p + done) buf chunk m
        freadLoop buf p stride total table turns (done + chunk) f m
    else some (done, f, m)

/-- `__fread_t`, with the block at `buf` that `malloc` gives: what it returns and what is left of the file. -/
def freadT (turns buf p size n : Nat) (f : List (BitVec 8)) (desc : List UInt8) (stride : Nat) (m : Cells) :
    Option (Nat × List (BitVec 8) × Cells) :=
  if stride = 0 ∨ size = 0 then some (0, f, m)
  else do
    let (done, f, m) ← freadLoop r buf p stride (size * n) (layout 512 desc) turns 0 f m
    return (done / size, f, m)

end

inductive Part where
  | pad (n : Nat)
  | scalar (s : Scalar)

def Part.size : Part → Nat
  | pad n => n
  | scalar s => s.size

def total (ps : List Part) : Nat := (ps.map Part.size).sum

/-- The padding at `off` before something of alignment `al`. -/
def padding (off al : Nat) : Nat := (al - off % al) % al

mutual

/-- An object on an LP64 machine: a member stands at the next multiple of its alignment, and a struct is
filled up to a multiple of its own. -/
def Obj.parts : Obj → List Part
  | .scalar s => [.scalar s]
  | .array b n => (List.replicate n b.parts).flatten
  | .struct ms => partsFrom 0 ms ++ [.pad (padding (total (partsFrom 0 ms)) (Obj.struct ms).align)]

def partsFrom : (off : Nat) → List Obj → List Part
  | _, [] => []
  | off, t :: ms =>
    .pad (padding off t.align) :: (t.parts ++ partsFrom (off + padding off t.align + total t.parts) ms)

end

/-- The scalars of an object at `p`, with their addresses. -/
def leaves : (p : Nat) → List Part → List (Nat × Scalar)
  | _, [] => []
  | p, .pad n :: ps => leaves (p + n) ps
  | p, .scalar s :: ps => (p, s) :: leaves (p + s.size) ps

def littleEndian : (n : Nat) → BitVec 64 → List (BitVec 8)
  | 0, _ => []
  | n + 1, x => x.setWidth 8 :: littleEndian n (x >>> 8)

def imageOf : List Part → List (BitVec 64) → List (Option (BitVec 8))
  | [], _ => []
  | .pad n :: ps, xs => List.replicate n none ++ imageOf ps xs
  | .scalar _ :: _, [] => []
  | .scalar s :: ps, x :: xs => (littleEndian s.size x).map some ++ imageOf ps xs

def Scalar.Fits : Scalar → BitVec 64 → Prop
  | .int t, x => ∃ v, t.Holds v ∧ x = BitVec.ofInt 64 v
  | .pointer, _ => True

def Shows (image : List (Option (BitVec 8))) (cells : List (BitVec 64)) : Prop :=
  List.Forall₂ (fun b x => ∀ y, b = some y → x = y.setWidth 64) image cells

/-- Two ranges of `n` cells have none in common. -/
def Apart (p q n : Nat) : Prop := p + n ≤ q ∨ q + n ≤ p

namespace Obj

def scalars (t : Obj) : List Scalar := (leaves 0 t.parts).map Prod.snd

/-- The cells at `p` are an object of the type. -/
def IsObject (t : Obj) (m : Cells) (p : Nat) : Prop := ∀ e ∈ leaves p t.parts, e.2.Fits (m e.1)

/-- The scalars of the object at `p`. -/
def values (t : Obj) (m : Cells) (p : Nat) : List (BitVec 64) := (leaves p t.parts).map fun e => m e.1

structure RoundTrips (t : Obj) : Prop where
  memory : ∀ (r : Floats) (m : Cells) (s d p : Nat), t.IsObject m s → Apart s d t.size → Apart d p t.size →
    ∃ turns m' m'', memcpyT r turns d s t.size [] 1 (pDesc t) (strideOf t) m = some m' ∧
      Shows (imageOf t.parts (t.values m s)) ((List.range' d t.size).map m') ∧
      memcpyT r turns p d t.size (pDesc t) (strideOf t) [] 1 m' = some m'' ∧ t.values m'' p = t.values m s
  file : ∀ (r : Floats) (m : Cells) (s buf p : Nat) (f f' : List (BitVec 8)), t.IsObject m s → Apart s buf t.size →
    Apart buf p t.size → ∃ turns n n' bytes m' m'',
      fwriteT r turns buf s t.size 1 f (pDesc t) (strideOf t) m = some (n, f ++ bytes, m') ∧
      Shows (imageOf t.parts (t.values m s)) (bytes.map fun b => b.setWidth 64) ∧
      freadT r turns buf p t.size 1 (bytes ++ f') (pDesc t) (strideOf t) m' = some (n', f', m'') ∧
      t.values m'' p = t.values m s

end Obj

theorem roundUp_eq (off : Nat) {al : Nat} (hal : 0 < al) : roundUp off al = off + padding off al := by
  have hrest := Nat.mod_lt off hal
  have hoff := Nat.div_add_mod off al
  unfold roundUp padding
  by_cases hzero : off % al = 0
  · have hsum : off + al - 1 = al - 1 + al * (off / al) := by omega
    have hmod : (off + al - 1) % al = al - 1 := by
      rw [hsum, Nat.add_mul_mod_self_left, Nat.mod_eq_of_lt (by omega)]
    rw [hmod, hzero, Nat.sub_zero, Nat.mod_self]
    omega
  · have hsum : off + al - 1 = off % al - 1 + al * (off / al + 1) := by
      rw [Nat.mul_add]
      omega
    have hmod : (off + al - 1) % al = off % al - 1 := by
      rw [hsum, Nat.add_mul_mod_self_left, Nat.mod_eq_of_lt (by omega)]
    rw [hmod, Nat.mod_eq_of_lt (by omega : al - off % al < al)]
    omega

theorem Scalar.size_pos (s : Scalar) : 0 < s.size := by
  cases s with
  | int t => cases t <;> decide
  | pointer => decide

theorem pStruct_align_pos (ms : List Obj) (off al : Nat) (hal : 0 < al) : 0 < (pStruct off al ms).2 := by
  induction ms generalizing off al with
  | nil => exact hal
  | cons t ms ih =>
    refine ih _ _ ?_
    split_ifs with hless
    · exact Nat.zero_lt_of_lt hless
    · exact hal

theorem Obj.align_pos : ∀ t : Obj, 0 < t.align
  | .scalar s => s.size_pos
  | .array b _ => b.align_pos
  | .struct ms => pStruct_align_pos ms 0 1 (by decide)

@[simp] theorem total_nil : total [] = 0 := rfl

@[simp] theorem total_cons (part : Part) (ps : List Part) : total (part :: ps) = part.size + total ps := rfl

@[simp] theorem total_append (ps qs : List Part) : total (ps ++ qs) = total ps + total qs := by
  simp [total]

theorem total_replicate (ps : List Part) (n : Nat) : total (List.replicate n ps).flatten = n * total ps := by
  induction n with
  | zero => simp
  | succ n ih => rw [List.replicate_succ, List.flatten_cons, total_append, ih, Nat.succ_mul, Nat.add_comm]

mutual

theorem Obj.total_parts : ∀ t : Obj, total t.parts = t.size
  | .scalar s => rfl
  | .array b n => by
    rw [Obj.parts, total_replicate, b.total_parts]
    rfl
  | .struct ms => by
    have hms := total_partsFrom ms 0 1
    have halign := (Obj.struct ms).align_pos
    have hsize : (Obj.struct ms).size = roundUp (pStruct 0 1 ms).1 (Obj.struct ms).align := by
      rw [Obj.size, Obj.extent]
      rfl
    rw [Nat.zero_add] at hms
    rw [hsize, ← hms, roundUp_eq _ halign, Obj.parts, total_append]
    rfl

theorem total_partsFrom : ∀ (ms : List Obj) (off al : Nat), off + total (partsFrom off ms) = (pStruct off al ms).1
  | [], _, _ => rfl
  | t :: ms, off, al => by
    have ht := t.total_parts
    have hms := total_partsFrom ms (off + padding off t.align + total t.parts) (if al < t.align then t.align else al)
    have hround : roundUp off t.extent.2 = off + padding off t.align := roundUp_eq off t.align_pos
    rw [ht] at hms
    rw [pStruct, hround, partsFrom, total_cons, total_append, ht]
    refine Eq.trans ?_ hms
    rw [Part.size]
    omega

end

@[simp] theorem leaves_append (p : Nat) (ps qs : List Part) :
    leaves p (ps ++ qs) = leaves p ps ++ leaves (p + total ps) qs := by
  induction ps generalizing p with
  | nil => rfl
  | cons part ps ih =>
    cases part with
    | pad n => rw [List.cons_append, leaves, leaves, ih, total_cons, Part.size, Nat.add_assoc]
    | scalar s => rw [List.cons_append, leaves, leaves, ih, total_cons, Part.size, Nat.add_assoc, List.cons_append]

theorem leaves_replicate (p : Nat) (ps : List Part) (n : Nat) : leaves p (List.replicate n ps).flatten =
    (List.range n).flatMap fun i => leaves (p + i * total ps) ps := by
  induction n with
  | zero => rfl
  | succ n ih =>
    rw [List.replicate_succ', List.flatten_append, leaves_append, ih, List.range_succ, List.flatMap_append,
      total_replicate]
    simp

def text (e : Nat × Scalar) : List UInt8 := e.2.code :: Decimal.decimal e.1

/-- What `p_desc_into` makes of `out` and more scalars: it stops when there are more than 4096. -/
def fill (out texts : List (List UInt8)) : List (List UInt8) := out ++ texts.take (4097 - out.length)

theorem fill_fill (out texts texts' : List (List UInt8)) : fill (fill out texts) texts' = fill out (texts ++ texts') := by
  unfold fill
  rw [List.append_assoc, List.take_append, List.length_append, List.length_take]
  have hrest : 4097 - (out.length + min (4097 - out.length) texts.length) = 4097 - out.length - texts.length := by omega
  rw [hrest]

theorem fill_full (out texts : List (List UInt8)) : (if 4096 < out.length then out else fill out texts) = fill out texts := by
  split_ifs with hfull
  · have hnone : 4097 - out.length = 0 := by omega
    rw [fill, hnone, List.take_zero, List.append_nil]
  · rfl

theorem foldl_fill {f : List (List UInt8) → Nat → List (List UInt8)} {texts : Nat → List (List UInt8)}
    (h : ∀ out i, f out i = fill out (texts i)) (n : Nat) (out : List (List UInt8)) :
    (List.range n).foldl f out = fill out ((List.range n).flatMap texts) := by
  induction n with
  | zero => simp [fill]
  | succ n ih => simp [List.range_succ, ih, h, fill_fill]

mutual

theorem pDescInto_eq : ∀ (t : Obj) (base : Nat) (out : List (List UInt8)),
    pDescInto t base out = fill out ((leaves base t.parts).map text)
  | .scalar s, base, out => by
    rw [← fill_full, pDescInto]
    refine ite_congr rfl (fun _ => rfl) fun hroom => ?_
    have hone : 4097 - out.length = 4096 - out.length + 1 := by omega
    rw [fill, hone, Obj.parts]
    simp [leaves, text]
  | .array b n, base, out => by
    have hstep (out : List (List UInt8)) (i : Nat) :
        pDescInto b (base + i * b.size) out = fill out ((leaves (base + i * b.size) b.parts).map text) :=
      pDescInto_eq b _ out
    rw [pDescInto, foldl_fill hstep, fill_full, Obj.parts, leaves_replicate, List.map_flatMap, b.total_parts]
  | .struct ms, base, out => by
    rw [pDescInto, pDescMembers_eq ms 0 base out, fill_full, Obj.parts, leaves_append]
    simp [leaves]

theorem pDescMembers_eq : ∀ (ms : List Obj) (off base : Nat) (out : List (List UInt8)),
    pDescMembers off ms base out = fill out ((leaves (base + off) (partsFrom off ms)).map text)
  | [], _, _, out => by simp [pDescMembers, partsFrom, leaves, fill]
  | t :: ms, off, base, out => by
    have hround := roundUp_eq off t.align_pos
    rw [pDescMembers, pDescInto_eq t, pDescMembers_eq ms, fill_fill, hround, partsFrom, leaves, leaves_append,
      List.map_append, t.total_parts]
    simp only [Nat.add_assoc]

end

theorem leaves_ge {p : Nat} {ps : List Part} : ∀ e ∈ leaves p ps, p ≤ e.1 := by
  induction ps generalizing p with
  | nil => exact fun e he => absurd he List.not_mem_nil
  | cons part ps ih =>
    cases part with
    | pad n => exact fun e he => Nat.le_of_add_right_le (ih e he)
    | scalar s =>
      intro e he
      obtain rfl | he := List.mem_cons.mp he
      · exact Nat.le_refl _
      · exact Nat.le_of_add_right_le (ih e he)

theorem layoutOffset_digits {ds : List UInt8} (hds : ∀ b ∈ ds, Decimal.isDigit b = true) (rest : List UInt8) (a : Nat) :
    layoutOffset a (ds ++ rest) = layoutOffset ((ds.foldl (fun n b => 10 * n + (b.toNat - 48)) a : Nat) : Int) rest := by
  induction ds generalizing a with
  | nil => rfl
  | cons b ds ih =>
    have hdigit := hds b List.mem_cons_self
    simp only [Decimal.isDigit, Bool.and_eq_true, decide_eq_true_eq] at hdigit
    have hcomma : b ≠ 44 := by
      rintro rfl
      simp at hdigit
    have hstep : (a : Int) * 10 + (b.toNat - 48) = ((10 * a + (b.toNat - 48) : Nat) : Int) := by omega
    rw [List.cons_append, layoutOffset, if_neg hcomma, hstep, ih fun b hb => hds b (List.mem_cons_of_mem _ hb)]
    rfl

theorem layoutOffset_decimal (n : Nat) (rest : List UInt8) :
    layoutOffset 0 (Decimal.decimal n ++ rest) = layoutOffset n rest := by
  have hdigits := layoutOffset_digits (Decimal.decimal_digits n) rest 0
  have hvalue := Decimal.ofDecimal_decimal n
  rw [Decimal.ofDecimal] at hvalue
  rw [hvalue] at hdigits
  exact hdigits

def entry (e : Nat × Scalar) : UInt8 × Int := (e.2.code, e.1)

theorem layout_texts (es : List (Nat × Scalar)) (max : Nat) :
    layout max ([44].intercalate (es.map text)) = (es.take max).map entry := by
  induction es generalizing max with
  | nil => cases max <;> rfl
  | cons e es ih =>
    cases max with
    | zero => rfl
    | succ max =>
      have hrest := ih max
      cases es with
      | nil =>
        have hone : [44].intercalate ([e].map text) = e.2.code :: (Decimal.decimal e.1 ++ []) := by
          simp [text, List.intercalate]
        rw [hone, layout, layoutOffset_decimal]
        cases max <;> rfl
      | cons e' es =>
        have hmore : [44].intercalate ((e :: e' :: es).map text) =
            e.2.code :: (Decimal.decimal e.1 ++ 44 :: [44].intercalate ((e' :: es).map text)) := by
          simp [text, List.intercalate]
        have hcomma (off : Int) (d : List UInt8) : layoutOffset off (44 :: d) = (off, d) := rfl
        rw [hmore, layout, layoutOffset_decimal, hcomma, hrest]
        rfl

theorem layout_pDesc (t : Obj) : layout 512 (pDesc t) = ((leaves 0 t.parts).take 512).map entry := by
  have hfill : pDescInto t 0 [] = ((leaves 0 t.parts).take 4097).map text := by
    rw [pDescInto_eq, fill, List.nil_append, List.map_take]
    rfl
  rw [pDesc, hfill, layout_texts, List.take_take]
  rfl

theorem pDesc_eq_nil {t : Obj} : pDesc t = [] ↔ leaves 0 t.parts = [] := by
  have hfill : pDescInto t 0 [] = ((leaves 0 t.parts).take 4097).map text := by
    rw [pDescInto_eq, fill, List.nil_append, List.map_take]
    rfl
  rw [pDesc, hfill]
  cases leaves 0 t.parts with
  | nil => exact iff_of_true rfl rfl
  | cons e es =>
    refine iff_of_false (fun h => ?_) (List.cons_ne_nil _ _)
    rw [List.take_succ_cons, List.map_cons] at h
    cases hes : (es.take 4096).map text with
    | nil =>
      rw [hes] at h
      simp [List.intercalate, text] at h
    | cons e' es' =>
      rw [hes] at h
      simp [List.intercalate, text] at h

end Ussr.Usa.Layout
