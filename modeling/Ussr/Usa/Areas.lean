import Mathlib.Algebra.Order.Ring.Int
import Mathlib.Data.List.Nodup

/-! The memory of a compiled C program: static data, then the stack, which moves SP without a check, then
the heap of `malloc`. Addresses are indexes into the memory vector. -/

namespace Ussr.Usa.Areas

/-- `__STACK` -/
def stackCells : Int := 2 ^ 20

inductive Entry where
  /-- the frame of a call at `fp`; only a function that `keeps` its frame pointer puts SP back -/
  | frame (fp : Int) (size : Nat) (keeps : Bool)
  /-- SP as a scope with variable length arrays, or the call of a variadic function, found it -/
  | mark (sp : Int)
  /-- variadic arguments or a variable length array -/
  | area (base : Int) (size : Int)

def Entry.isFrame : Entry → Bool
  | frame .. => true
  | _ => false

structure Block where
  ptr : Int
  asked : Nat

structure State where
  mem : Int → Int
  memlen : Int
  sp : Int
  stack : List Entry
  brk : Int
  freel : Nat → Int
  live : List Block

/-- The loop of `__start` that doubles the cells. -/
def doubled (need n : Nat) (hn : 0 < n) : Nat :=
  if n < need then doubled need (n + n) (Nat.add_pos_left hn n) else n
termination_by need - n

/-- `__start` and `__start2` with static data from 8 to `dataEnd`. -/
def start (dataEnd : Nat) : State where
  mem := fun _ => 0
  memlen := doubled (dataEnd + 2 ^ 20 + 262144) 1 Nat.one_pos
  sp := dataEnd
  stack := []
  brk := dataEnd + stackCells
  freel := fun _ => 0
  live := []

namespace State

/-- The loop of `malloc` over the sizes: a size and its class. After 64 turns `size` is 0 and stays so. -/
def sizeClass (n : BitVec 64) : (turns : Nat) → (size : BitVec 64) → (c : Nat) → Option (BitVec 64 × Nat)
  | 0, _, _ => none
  | turns + 1, size, c => if size.slt (n + 8) then sizeClass n turns (size + size) (c + 1) else some (size, c)

def grow (s : State) (need : Int) : State :=
  let chunk := if need - s.memlen > 65536 then need - s.memlen else 65536
  { s with
    mem := fun q => if s.memlen ≤ q ∧ q < s.memlen + chunk then 0 else s.mem q
    memlen := s.memlen + chunk }

/-- `malloc`, which does not end where there is no result. -/
def malloc (s : State) (n : BitVec 64) : Option (Int × State) := do
  let (size, c) ← sizeClass n 64 16 4
  if s.freel c ≠ 0 then
    let p := s.freel c
    let next := s.mem p
    return (p + 8, { s with freel := Function.update s.freel c next, mem := Function.update s.mem p c })
  else
    let p := s.brk
    let s := if p + size.toInt > s.memlen then s.grow (p + size.toInt) else s
    return (p + 8, { s with brk := p + size.toInt, mem := Function.update s.mem p c })

/-- `free`, which has no result where it aborts. -/
def free (s : State) (ptr : Int) : Option State :=
  if ptr = 0 then some s
  else
    let p := ptr - 8
    let c := (s.mem p).bmod (2 ^ 32)
    if c < 4 ∨ c > 62 then none
    else some { s with mem := Function.update s.mem p (s.freel c.toNat), freel := Function.update s.freel c.toNat p }

def msize (s : State) (ptr : Int) : Int := 2 ^ (s.mem (ptr - 8)).toNat - 8

/-- `memset` with 0 -/
def clear (s : State) (p : Int) (n : Nat) : State :=
  { s with mem := fun q => if p ≤ q ∧ q < p + n then 0 else s.mem q }

/-- `memcpy` between two blocks -/
def copy (s : State) (dst src : Int) (n : Int) : State :=
  { s with mem := fun q => if dst ≤ q ∧ q < dst + n then s.mem (src + (q - dst)) else s.mem q }

def calloc (s : State) (n size : BitVec 64) : Option (Int × State) := do
  let (p, s) ← s.malloc (n * size)
  return (p, s.clear p (n * size).toNat)

def realloc (s : State) (ptr : Int) (n : BitVec 64) : Option (Int × State) :=
  if ptr = 0 then s.malloc n
  else
    let old := s.msize ptr
    if n.toInt ≤ old then some (ptr, s)
    else do
      let (q, s) ← s.malloc n
      let s ← (s.copy q ptr old).free ptr
      return (q, s)

def keeps (s : State) : Bool :=
  match s.stack.find? Entry.isFrame with
  | some (.frame _ _ keeps) => keeps
  | _ => false

end State

inductive Act where
  | call (size : Nat) (keeps : Bool)
  | ret
  | enter
  | varargs (count : Nat)
  | array (n : BitVec 64) (elem : Nat)
  | leave (k : Nat)
  | malloc (n : BitVec 64)
  | calloc (n size : BitVec 64)
  | realloc (ptr : Int) (n : BitVec 64)
  | free (ptr : Int)
  | store (p v : Int)

/-- The bytes of a variable length array as `gen_stmt` rounds them. -/
def arrayCells (n : BitVec 64) (elem : Nat) : BitVec 64 := (n * BitVec.ofNat 64 elem + 7) &&& -8#64

structure Range where
  lo : Int
  size : Int

namespace Range

def hi (r : Range) : Int := r.lo + r.size

def Apart (r r' : Range) : Prop := r.hi ≤ r'.lo ∨ r'.hi ≤ r.lo

def Has (r : Range) (p : Int) : Prop := r.lo ≤ p ∧ p < r.hi

instance decidableHas (r : Range) (p : Int) : Decidable (r.Has p) := inferInstanceAs (Decidable (_ ∧ _))

end Range

def Entry.range : Entry → Option Range
  | frame fp size _ => some ⟨fp, size⟩
  | mark _ => none
  | area base size => some ⟨base, size⟩

namespace State

def lower (s : State) (dataEnd : Int) : List Range := ⟨8, dataEnd - 8⟩ :: s.stack.filterMap Entry.range

def forget (s : State) (ptr : Int) : State := { s with live := s.live.filter fun b => b.ptr ≠ ptr }

def record (s : State) (ptr : Int) (asked : Nat) : State := { s with live := ⟨ptr, asked⟩ :: s.live }

def has (s : State) (ptr : Int) : Bool := s.live.any fun b => b.ptr = ptr

end State

/-- A step of a program, with the pointer that it gives; `none` is a step that is not possible, or that
does not end. The program passes blocks that it has to `free` and `realloc`, and writes to its own areas. -/
def step (dataEnd : Int) (s : State) : Act → Option (Int × State)
  | .call size keeps =>
    if keeps ∨ size = 0 then some (0, { s with stack := .frame s.sp size keeps :: s.stack, sp := s.sp + size }) else none
  | .ret =>
    match s.stack.dropWhile (!·.isFrame) with
    | .frame fp _ true :: rest => some (0, { s with stack := rest, sp := fp })
    | .frame _ _ false :: rest =>
      if s.stack.takeWhile (!·.isFrame) = [] then some (0, { s with stack := rest }) else none
    | _ => none
  | .enter => some (0, { s with stack := .mark s.sp :: s.stack })
  | .varargs count =>
    some (0, { s with stack := .area s.sp (8 * count + 8) :: .mark s.sp :: s.stack, sp := s.sp + (8 * count + 8) })
  | .array n elem =>
    if s.keeps then
      some (0, { s with
        stack := .area s.sp (n.toInt * elem) :: s.stack
        sp := s.sp + (arrayCells n elem).toInt })
    else none
  | .leave k =>
    if (s.stack.take k).any Entry.isFrame then none
    else
      match s.stack.drop k with
      | .mark sp :: rest => some (0, { s with stack := rest, sp := sp })
      | _ => none
  | .malloc n => do
    let (p, s) ← s.malloc n
    return (p, s.record p n.toNat)
  | .calloc n size => do
    let (p, s) ← s.calloc n size
    return (p, s.record p (n.toNat * size.toNat))
  | .realloc ptr n =>
    if ptr = 0 ∨ s.has ptr then do
      let (p, s) ← s.realloc ptr n
      return (p, (s.forget ptr).record p n.toNat)
    else none
  | .free ptr =>
    if ptr = 0 ∨ s.has ptr then do
      let s ← s.free ptr
      return (0, s.forget ptr)
    else none
  | .store p v =>
    if (s.lower dataEnd).any (·.Has p) ∨ s.live.any (fun b => Range.Has ⟨b.ptr, b.asked⟩ p) then
      some (0, { s with mem := Function.update s.mem p v })
    else none

def run (dataEnd : Int) (s : State) : List Act → Option State
  | [] => some s
  | a :: as => do
    let (_, s) ← step dataEnd s a
    run dataEnd s as

def State.blocks (s : State) : List Range := s.live.map fun b => ⟨b.ptr, s.msize b.ptr⟩

structure State.Good (dataEnd : Int) (s : State) : Prop where
  apart : (s.lower dataEnd ++ s.blocks).Pairwise Range.Apart
  inside : ∀ r ∈ s.lower dataEnd ++ s.blocks, 0 ≤ r.lo ∧ r.hi ≤ s.memlen
  enough : ∀ b ∈ s.live, b.asked ≤ s.msize b.ptr

/-- `realloc` keeps what was in the block, and `free` changes no block that the program still has. -/
def Act.Keeps (s : State) (r : Int) (s' : State) : Act → Prop
  | .realloc ptr n => ∀ b ∈ s.live, b.ptr = ptr → ∀ i : Nat, i < b.asked → i < n.toNat → s'.mem (r + i) = s.mem (ptr + i)
  | .free _ => ∀ b ∈ s'.live, ∀ i : Nat, i < b.asked → s'.mem (b.ptr + i) = s.mem (b.ptr + i)
  | _ => True

/-- The stack stays below the heap, and what is asked of `malloc` has a size as a `long`. -/
def Act.Roomy (dataEnd : Int) (s : State) : Act → Prop
  | .call size _ => s.sp + size ≤ dataEnd + stackCells
  | .varargs count => s.sp + (8 * count + 8) ≤ dataEnd + stackCells
  | .array n elem => 0 ≤ n.toInt ∧ s.sp + (n.toInt * elem + 7) / 8 * 8 ≤ dataEnd + stackCells
  | .malloc n => n.toNat + 8 < 2 ^ 63
  | .calloc n size => n.toNat * size.toNat + 8 < 2 ^ 63
  | .realloc _ n => n.toNat + 8 < 2 ^ 63
  | _ => True

inductive Reached (dataEnd : Nat) : State → Prop
  | start : Reached dataEnd (start dataEnd)
  | step {s s' : State} {a : Act} {r : Int} : Reached dataEnd s → a.Roomy dataEnd s → step dataEnd s a = some (r, s') →
      Reached dataEnd s'

section

/-- What lies on the stack is in order from `lo` up to `sp`. -/
def Stacked (lo : Int) : List Entry → (sp : Int) → Prop
  | [], sp => lo ≤ sp
  | .frame fp size _ :: es, sp => fp + size ≤ sp ∧ Stacked lo es fp
  | .mark m :: es, sp => m ≤ sp ∧ Stacked lo es m
  | .area base size :: es, sp => 0 ≤ size ∧ base + size ≤ sp ∧ Stacked lo es base

variable {lo sp sp' : Int} {es rest : List Entry}
variable {b : Block} {mem' : Int → Int}

theorem Stacked.mono (h : Stacked lo es sp) (hle : sp ≤ sp') : Stacked lo es sp' := by
  cases es with
  | nil => exact le_trans h hle
  | cons e es =>
    cases e with
    | frame fp size keeps => exact ⟨le_trans h.1 hle, h.2⟩
    | mark m => exact ⟨le_trans h.1 hle, h.2⟩
    | area base size => exact ⟨h.1, le_trans h.2.1 hle, h.2.2⟩

theorem Stacked.le (h : Stacked lo es sp) : lo ≤ sp := by
  induction es generalizing sp with
  | nil => exact h
  | cons e es ih =>
    cases e with
    | frame fp size keeps =>
      have hfp := ih h.2
      have htop := h.1
      omega
    | mark m => exact le_trans (ih h.2) h.1
    | area base size =>
      have hbase := ih h.2.2
      have hsize := h.1
      have htop := h.2.1
      omega

theorem Stacked.below (h : Stacked lo (es ++ rest) sp) : ∃ sp' ≤ sp, Stacked lo rest sp' := by
  induction es generalizing sp with
  | nil => exact ⟨sp, le_refl sp, h⟩
  | cons e es ih =>
    cases e with
    | frame fp size keeps =>
      obtain ⟨sp', hle, hrest⟩ := ih h.2
      have htop := h.1
      exact ⟨sp', by omega, hrest⟩
    | mark m =>
      obtain ⟨sp', hle, hrest⟩ := ih h.2
      exact ⟨sp', hle.trans h.1, hrest⟩
    | area base size =>
      obtain ⟨sp', hle, hrest⟩ := ih h.2.2
      have hsize := h.1
      have htop := h.2.1
      exact ⟨sp', by omega, hrest⟩

theorem Stacked.ranges (h : Stacked lo es sp) : (es.filterMap Entry.range).Pairwise Range.Apart ∧
    ∀ r ∈ es.filterMap Entry.range, lo ≤ r.lo ∧ r.hi ≤ sp := by
  induction es generalizing sp with
  | nil => exact ⟨.nil, fun r hr => absurd hr List.not_mem_nil⟩
  | cons e es ih =>
    have hcons {r : Range} {base : Int} (hbase : r.lo = base) (hhi : r.hi ≤ sp) (hup : base ≤ sp) (hrest : Stacked lo es base) :
        (r :: es.filterMap Entry.range).Pairwise Range.Apart ∧
          ∀ r' ∈ r :: es.filterMap Entry.range, lo ≤ r'.lo ∧ r'.hi ≤ sp := by
      obtain ⟨hpairs, hbounds⟩ := ih hrest
      have hle := hrest.le
      refine ⟨List.pairwise_cons.mpr ⟨fun r' hr' => .inr ?_, hpairs⟩, fun r' hr' => ?_⟩
      · rw [hbase]
        exact (hbounds r' hr').2
      · obtain rfl | hr' := List.mem_cons.mp hr'
        · exact ⟨hbase ▸ hle, hhi⟩
        · exact ⟨(hbounds r' hr').1, (hbounds r' hr').2.trans hup⟩
    cases e with
    | frame fp size keeps =>
      have htop := h.1
      have hup : fp ≤ sp := by omega
      exact hcons rfl htop hup h.2
    | mark m =>
      obtain ⟨hpairs, hbounds⟩ := ih h.2
      exact ⟨hpairs, fun r hr => ⟨(hbounds r hr).1, (hbounds r hr).2.trans h.1⟩⟩
    | area base size =>
      have hsize := h.1
      have htop := h.2.1
      have hup : base ≤ sp := by omega
      exact hcons rfl htop hup h.2.2

theorem arrayCells_toInt {n : BitVec 64} {elem : Nat} (hn : 0 ≤ n.toInt) (hsize : n.toInt * elem < 2 ^ 62) :
    (arrayCells n elem).toInt = (n.toInt * elem + 7) / 8 * 8 := by
  have hnat : n.toInt = n.toNat := by
    rw [BitVec.toInt_eq_toNat_cond] at hn ⊢
    split_ifs at hn ⊢ <;> omega
  have hprod : n.toNat * elem < 2 ^ 62 := by
    rw [hnat] at hsize
    exact_mod_cast hsize
  have hsum : (n * BitVec.ofNat 64 elem + 7).toNat = n.toNat * elem + 7 := by
    have hseven : (7 : BitVec 64).toNat = 7 := rfl
    rw [BitVec.toNat_add, BitVec.toNat_mul, BitVec.toNat_ofNat, Nat.mul_mod_mod, hseven, Nat.mod_eq_of_lt (by omega),
      Nat.mod_eq_of_lt (by omega)]
  have hmask (x : BitVec 64) : x &&& -8#64 = x >>> 3 <<< 3 := by
    apply BitVec.eq_of_getLsbD_eq
    intro i hi
    have hbits : (-8#64).getLsbD i = decide (3 ≤ i) := by
      have hall : ∀ i < 64, (-8#64).getLsbD i = decide (3 ≤ i) := by decide
      exact hall i hi
    rw [BitVec.getLsbD_and, hbits, BitVec.getLsbD_shiftLeft, BitVec.getLsbD_ushiftRight, decide_eq_true hi]
    by_cases hlow : i < 3
    · simp [hlow]
    · have hindex : 3 + (i - 3) = i := by omega
      simp [hlow, hindex, Nat.not_lt.mp hlow]
  have htoNat : (arrayCells n elem).toNat = (n.toNat * elem + 7) / 8 * 8 := by
    rw [arrayCells, hmask, BitVec.toNat_shiftLeft, BitVec.toNat_ushiftRight, hsum, Nat.shiftRight_eq_div_pow,
      Nat.shiftLeft_eq, Nat.mod_eq_of_lt (by omega)]
  rw [BitVec.toInt_eq_toNat_cond, htoNat, if_pos (by omega), hnat]
  push_cast
  rfl

end

section

def Chain (mem : Int → Int) : (head : Int) → List Int → Prop
  | head, [] => head = 0
  | head, p :: ps => head = p ∧ Chain mem (mem p) ps

structure Slots where
  at_ : Int → Nat → Prop
  free : Nat → List Int

variable {bottom : Int} {sl : Slots} {s s' : State} {p ptr : Int} {c : Nat}

/-- The heap from `bottom` on: slots that are apart, the free ones in the list of their class, and the
blocks of the program in other slots. -/
structure Heap (bottom : Int) (sl : Slots) (s : State) : Prop where
  positive : 0 < bottom
  top : bottom ≤ s.brk
  len : s.brk ≤ s.memlen
  inside : ∀ p c, sl.at_ p c → bottom ≤ p ∧ p + 2 ^ c ≤ s.brk ∧ 4 ≤ c ∧ c ≤ 62
  apart : ∀ p c p' c', sl.at_ p c → sl.at_ p' c' → p = p' ∧ c = c' ∨ p + 2 ^ c ≤ p' ∨ p' + 2 ^ c' ≤ p
  chain : ∀ c, Chain s.mem (s.freel c) (sl.free c)
  listed : ∀ c, ∀ p ∈ sl.free c, sl.at_ p c
  nodup : ∀ c, (sl.free c).Nodup
  live : ∀ b ∈ s.live, ∃ c, sl.at_ (b.ptr - 8) c ∧ s.mem (b.ptr - 8) = c ∧ b.asked + 8 ≤ 2 ^ c
  used : ∀ b ∈ s.live, ∀ c, b.ptr - 8 ∉ sl.free c
  distinct : (s.live.map Block.ptr).Nodup

structure Fresh (sl : Slots) (s : State) (ptr : Int) (c : Nat) : Prop where
  slot : sl.at_ (ptr - 8) c
  header : s.mem (ptr - 8) = c
  unlisted : ∀ c', ptr - 8 ∉ sl.free c'
  unused : ∀ b ∈ s.live, b.ptr ≠ ptr

theorem Chain.congr {mem : Int → Int} {head : Int} {ps : List Int} (h : Chain mem head ps)
    (hsame : ∀ p ∈ ps, mem' p = mem p) : Chain mem' head ps := by
  induction ps generalizing head with
  | nil => exact h
  | cons p ps ih =>
    refine ⟨h.1, ?_⟩
    rw [hsame p List.mem_cons_self]
    exact ih h.2 fun q hq => hsame q (List.mem_cons_of_mem p hq)

theorem two_pow_pos (c : Nat) : (0 : Int) < 2 ^ c := pow_pos (by decide) c

theorem Heap.slot_eq (h : Heap bottom sl s) (hb : b ∈ s.live) {c : Nat} (hc : sl.at_ (b.ptr - 8) c) :
    s.mem (b.ptr - 8) = c ∧ b.asked + 8 ≤ 2 ^ c := by
  obtain ⟨c', hslot, hheader, hasked⟩ := h.live b hb
  have hpos := two_pow_pos c
  have hpos' := two_pow_pos c'
  obtain ⟨-, rfl⟩ | hlt | hlt := h.apart _ _ _ _ hc hslot
  · exact ⟨hheader, hasked⟩
  · omega
  · omega

theorem Heap.msize_eq (h : Heap bottom sl s) (hb : b ∈ s.live) {c : Nat} (hc : sl.at_ (b.ptr - 8) c) :
    s.msize b.ptr = 2 ^ c - 8 := by
  rw [State.msize, (h.slot_eq hb hc).1]
  rfl

theorem Heap.write (h : Heap bottom sl s) (hsame : ∀ p c, sl.at_ p c → mem' p = s.mem p) :
    Heap bottom sl { s with mem := mem' } where
  positive := h.positive
  top := h.top
  len := h.len
  inside := h.inside
  apart := h.apart
  chain := fun c => (h.chain c).congr fun p hp => hsame p c (h.listed c p hp)
  listed := h.listed
  nodup := h.nodup
  live := by
    intro b hb
    obtain ⟨c, hslot, hheader, hasked⟩ := h.live b hb
    exact ⟨c, hslot, (hsame _ _ hslot).trans hheader, hasked⟩
  used := h.used
  distinct := h.distinct

theorem Heap.not_header (h : Heap bottom sl s) (hp : sl.at_ p c) {q : Int} (hlo : p < q) (hhi : q < p + 2 ^ c) {p' : Int}
    {c' : Nat} (hp' : sl.at_ p' c') : p' ≠ q := by
  rintro rfl
  have hpos := two_pow_pos c'
  obtain ⟨rfl, -⟩ | hlt | hlt := h.apart _ _ _ _ hp hp' <;> omega

theorem Heap.write_data (h : Heap bottom sl s) (hp : sl.at_ p c)
    (hsame : ∀ q, q ≤ p ∨ p + 2 ^ c ≤ q → mem' q = s.mem q) : Heap bottom sl { s with mem := mem' } := by
  refine h.write fun p' c' hp' => hsame p' ?_
  by_contra hin
  exact h.not_header hp (q := p') (by omega) (by omega) hp' rfl

theorem Heap.with_stack (h : Heap bottom sl s) (stack : List Entry) (sp : Int) :
    Heap bottom sl { s with stack := stack, sp := sp } :=
  ⟨h.positive, h.top, h.len, h.inside, h.apart, h.chain, h.listed, h.nodup, h.live, h.used, h.distinct⟩

theorem Heap.grow (h : Heap bottom sl s) (need : Int) : Heap bottom sl (s.grow need) := by
  have hlen := h.len
  have hmore : s.memlen ≤ (s.grow need).memlen := by
    unfold State.grow
    dsimp only
    split_ifs <;> omega
  have hmem : ∀ p c, sl.at_ p c → (s.grow need).mem p = s.mem p := by
    intro p c hp
    have hin := h.inside p c hp
    have hpos := two_pow_pos c
    exact if_neg (by omega)
  have hwrite := h.write hmem
  exact ⟨h.positive, h.top, hlen.trans hmore, h.inside, h.apart, hwrite.chain, h.listed, h.nodup, hwrite.live, h.used,
    h.distinct⟩

theorem Heap.record (h : Heap bottom sl s) (hfresh : Fresh sl s ptr c) {asked : Nat} (hasked : asked + 8 ≤ 2 ^ c) :
    Heap bottom sl (s.record ptr asked) where
  positive := h.positive
  top := h.top
  len := h.len
  inside := h.inside
  apart := h.apart
  chain := h.chain
  listed := h.listed
  nodup := h.nodup
  live := List.forall_mem_cons.mpr ⟨⟨c, hfresh.slot, hfresh.header, hasked⟩, h.live⟩
  used := List.forall_mem_cons.mpr ⟨hfresh.unlisted, h.used⟩
  distinct := by
    refine List.nodup_cons.mpr ⟨fun hin => ?_, h.distinct⟩
    obtain ⟨b, hb, hptr⟩ := List.mem_map.mp hin
    exact hfresh.unused b hb hptr

theorem Heap.forget (h : Heap bottom sl s) (hb : b ∈ s.live) :
    Heap bottom sl (s.forget b.ptr) ∧ ∃ c : Nat, Fresh sl (s.forget b.ptr) b.ptr c := by
  have hsub : ∀ b' ∈ (s.forget b.ptr).live, b' ∈ s.live := fun b' hb' => (List.mem_filter.mp hb').1
  obtain ⟨c, hslot, hheader, -⟩ := h.live b hb
  refine ⟨⟨h.positive, h.top, h.len, h.inside, h.apart, h.chain, h.listed, h.nodup, fun b' hb' => h.live b' (hsub b' hb'),
    fun b' hb' => h.used b' (hsub b' hb'), ?_⟩, c, hslot, hheader, h.used b hb, fun b' hb' => ?_⟩
  · exact h.distinct.sublist (List.filter_sublist.map _)
  · exact of_decide_eq_true (List.mem_filter.mp hb').2

end

theorem sizeClass_zero {n : BitVec 64} (hn : (0 : BitVec 64).slt (n + 8) = true) (turns c : Nat) :
    State.sizeClass n turns 0 c = none := by
  induction turns generalizing c with
  | zero => rfl
  | succ turns ih =>
    rw [State.sizeClass, if_pos hn]
    exact ih (c + 1)

theorem sizeClass_spec {n : BitVec 64} (hn : n.toNat + 8 < 2 ^ 63) {turns c : Nat} (hc : c ≤ 62) {size : BitVec 64} {c' : Nat}
    (h : State.sizeClass n turns (BitVec.ofNat 64 (2 ^ c)) c = some (size, c')) :
    c ≤ c' ∧ c' ≤ 62 ∧ size.toInt = 2 ^ c' ∧ n.toNat + 8 ≤ 2 ^ c' := by
  have hneed : (n + 8).toInt = n.toNat + 8 := by
    have height : (8 : BitVec 64).toNat = 8 := rfl
    rw [BitVec.toInt_eq_toNat_cond, BitVec.toNat_add, height, Nat.mod_eq_of_lt (by omega), if_pos (by omega)]
    rfl
  have hpow {k : Nat} (hk : k ≤ 62) : (BitVec.ofNat 64 (2 ^ k)).toInt = 2 ^ k := by
    have hlt : 2 ^ k < 2 ^ 63 := Nat.pow_lt_pow_right (by decide) (by omega)
    rw [BitVec.toInt_eq_toNat_cond, BitVec.toNat_ofNat, Nat.mod_eq_of_lt (by omega), if_pos (by omega)]
    push_cast
    rfl
  induction turns generalizing c with
  | zero => cases h
  | succ turns ih =>
    rw [State.sizeClass] at h
    split_ifs at h with hsmall
    · have hdouble (k : Nat) : BitVec.ofNat 64 (2 ^ k) + BitVec.ofNat 64 (2 ^ k) = BitVec.ofNat 64 (2 ^ (k + 1)) := by
        rw [← BitVec.ofNat_add, pow_succ, Nat.mul_two]
      rw [hdouble] at h
      by_cases hmore : c + 1 ≤ 62
      · obtain ⟨hle, hrest⟩ := ih hmore h
        exact ⟨by omega, hrest⟩
      · -- the size turns negative and then 0
        have hlast : c + 1 = 63 := by omega
        rw [hlast] at h
        cases turns with
        | zero => cases h
        | succ turns =>
          have hnegative : (BitVec.ofNat 64 (2 ^ 63)).slt (n + 8) = true := by
            have hval : (BitVec.ofNat 64 (2 ^ 63)).toInt = -2 ^ 63 := by decide
            rw [BitVec.slt_eq_decide, hval, hneed]
            exact decide_eq_true (by omega)
          have hzero : BitVec.ofNat 64 (2 ^ (63 + 1)) = 0 := by decide
          have hpositive : (0 : BitVec 64).slt (n + 8) = true := by
            have hval : (0 : BitVec 64).toInt = 0 := by decide
            rw [BitVec.slt_eq_decide, hval, hneed]
            exact decide_eq_true (by omega)
          rw [State.sizeClass, if_pos hnegative, hdouble, hzero, sizeClass_zero hpositive] at h
          cases h
    · cases h
      refine ⟨Nat.le_refl c', hc, hpow hc, ?_⟩
      rw [BitVec.slt_eq_decide, hpow hc, hneed] at hsmall
      have hle : (n.toNat : Int) + 8 ≤ 2 ^ c' := Int.not_lt.mp fun hlt => hsmall (decide_eq_true hlt)
      exact_mod_cast hle

section

variable {bottom : Int} {sl : Slots} {s s' : State} {ptr : Int} {n : BitVec 64} {c : Nat}

structure SameStack (s s' : State) : Prop where
  stack : s'.stack = s.stack
  sp : s'.sp = s.sp
  len : s.memlen ≤ s'.memlen

theorem Heap.extend (h : Heap bottom sl s) (hc : 4 ≤ c ∧ c ≤ 62) (hroom : s.brk + 2 ^ c ≤ s.memlen) :
    Heap bottom ⟨fun p c' => sl.at_ p c' ∨ p = s.brk ∧ c' = c, sl.free⟩
      { s with brk := s.brk + 2 ^ c, mem := Function.update s.mem s.brk c } ∧
    Fresh ⟨fun p c' => sl.at_ p c' ∨ p = s.brk ∧ c' = c, sl.free⟩
      { s with brk := s.brk + 2 ^ c, mem := Function.update s.mem s.brk c } (s.brk + 8) c := by
  have hpos := two_pow_pos c
  have htop := h.top
  have hold : ∀ p c', sl.at_ p c' → p < s.brk := by
    intro p c' hp
    have hin := h.inside p c' hp
    have hpos' := two_pow_pos c'
    omega
  have hptr : s.brk + 8 - 8 = s.brk := by omega
  have hwrite : Heap bottom sl { s with mem := Function.update s.mem s.brk c } := h.write fun p c' hp =>
    Function.update_of_ne (hold p c' hp).ne _ _
  constructor
  · refine ⟨h.positive, by dsimp only; omega, hroom, ?_, ?_, hwrite.chain, fun c' p hp => .inl (h.listed c' p hp), h.nodup,
      fun b hb => ?_, h.used, h.distinct⟩
    · rintro p c' (hp | ⟨rfl, rfl⟩)
      · have hin := h.inside p c' hp
        dsimp only
        omega
      · exact ⟨htop, le_refl _, hc⟩
    · rintro p c' p' c'' (hp | ⟨rfl, rfl⟩) (hp' | ⟨rfl, rfl⟩)
      · exact h.apart p c' p' c'' hp hp'
      · exact .inr (.inl (h.inside p c' hp).2.1)
      · exact .inr (.inr (h.inside p' c'' hp').2.1)
      · exact .inl ⟨rfl, rfl⟩
    · obtain ⟨c', hslot, hrest⟩ := hwrite.live b hb
      exact ⟨c', .inl hslot, hrest⟩
  · refine ⟨?_, ?_, fun c' hin => ?_, fun b hb heq => ?_⟩
    · rw [hptr]
      exact .inr ⟨rfl, rfl⟩
    · dsimp only
      rw [hptr, Function.update_self]
    · rw [hptr] at hin
      exact absurd (hold _ c' (h.listed c' _ hin)) (lt_irrefl _)
    · obtain ⟨c', hslot, -⟩ := h.live b hb
      have hlt := hold _ c' hslot
      omega

theorem Heap.reuse (h : Heap bottom sl s) {p : Int} {ps : List Int} (hfree : sl.free c = p :: ps) :
    Heap bottom ⟨sl.at_, Function.update sl.free c ps⟩
      { s with freel := Function.update s.freel c (s.mem p), mem := Function.update s.mem p c } ∧
    Fresh ⟨sl.at_, Function.update sl.free c ps⟩
      { s with freel := Function.update s.freel c (s.mem p), mem := Function.update s.mem p c } (p + 8) c := by
  obtain ⟨hhead, htail⟩ := hfree ▸ h.chain c
  have hslot : sl.at_ p c := h.listed c p (hfree ▸ List.mem_cons_self)
  have hnodup := h.nodup c
  rw [hfree, List.nodup_cons] at hnodup
  -- no other list has the slot
  have hother : ∀ c', c' ≠ c → p ∉ sl.free c' := by
    intro c' hne hin
    have hpos := two_pow_pos c
    have hpos' := two_pow_pos c'
    obtain ⟨-, heq⟩ | hlt | hlt := h.apart _ _ _ _ hslot (h.listed c' p hin)
    · exact hne heq.symm
    · omega
    · omega
  have hptr : p + 8 - 8 = p := by omega
  constructor
  · refine ⟨h.positive, h.top, h.len, h.inside, h.apart, fun c' => ?_, fun c' q hq => ?_, fun c' => ?_, fun b hb => ?_,
      fun b hb c' => ?_, h.distinct⟩
    · dsimp only
      by_cases hc' : c' = c
      · subst hc'
        rw [Function.update_self, Function.update_self]
        refine htail.congr fun q hq => Function.update_of_ne (fun heq => ?_) _ _
        exact hnodup.1 (heq ▸ hq)
      · rw [Function.update_of_ne hc', Function.update_of_ne hc']
        refine (h.chain c').congr fun q hq => Function.update_of_ne (fun heq => ?_) _ _
        exact hother c' hc' (heq ▸ hq)
    · dsimp only at hq
      by_cases hc' : c' = c
      · subst hc'
        rw [Function.update_self] at hq
        exact h.listed c' q (hfree ▸ List.mem_cons_of_mem p hq)
      · rw [Function.update_of_ne hc'] at hq
        exact h.listed c' q hq
    · dsimp only
      by_cases hc' : c' = c
      · subst hc'
        rw [Function.update_self]
        exact hnodup.2
      · rw [Function.update_of_ne hc']
        exact h.nodup c'
    · obtain ⟨cb, hb', hheader, hasked⟩ := h.live b hb
      refine ⟨cb, hb', ?_, hasked⟩
      dsimp only
      have hne : b.ptr - 8 ≠ p := fun heq => h.used b hb c (heq ▸ hfree ▸ List.mem_cons_self)
      rw [Function.update_of_ne hne]
      exact hheader
    · dsimp only
      by_cases hc' : c' = c
      · subst hc'
        rw [Function.update_self]
        exact fun hin => h.used b hb c' (hfree ▸ List.mem_cons_of_mem p hin)
      · rw [Function.update_of_ne hc']
        exact h.used b hb c'
  · refine ⟨?_, ?_, fun c' => ?_, fun b hb heq => ?_⟩
    · rw [hptr]
      exact hslot
    · dsimp only
      rw [hptr, Function.update_self]
    · dsimp only
      rw [hptr]
      by_cases hc' : c' = c
      · subst hc'
        rw [Function.update_self]
        exact hnodup.1
      · rw [Function.update_of_ne hc']
        exact hother c' hc'
    · refine h.used b hb c ?_
      have hblock : b.ptr - 8 = p := by omega
      rw [hblock, hfree]
      exact List.mem_cons_self

theorem malloc_spec (h : Heap bottom sl s) (hn : n.toNat + 8 < 2 ^ 63) (hrun : s.malloc n = some (ptr, s')) :
    ∃ sl' c, Heap bottom sl' s' ∧ Fresh sl' s' ptr c ∧ n.toNat + 8 ≤ 2 ^ c ∧ s'.live = s.live ∧ SameStack s s' ∧
      (∀ p c, sl.at_ p c → sl'.at_ p c) ∧ ∀ q < s.brk, q ≠ ptr - 8 → s'.mem q = s.mem q := by
  rw [State.malloc] at hrun
  obtain ⟨⟨size, c⟩, hclass, hrun⟩ := Option.bind_eq_some_iff.mp hrun
  have hsixteen : (16 : BitVec 64) = BitVec.ofNat 64 (2 ^ 4) := by decide
  rw [hsixteen] at hclass
  obtain ⟨hfour, hmost, hsize, hroom⟩ := sizeClass_spec hn (by decide) hclass
  dsimp only at hrun
  split_ifs at hrun with hlist
  · -- the first block of the list
    cases hrun
    have hchain := h.chain c
    cases hfree : sl.free c with
    | nil =>
      rw [hfree] at hchain
      exact absurd hchain hlist
    | cons p ps =>
      rw [hfree] at hchain
      rw [hchain.1]
      obtain ⟨hheap, hfresh⟩ := h.reuse hfree
      refine ⟨_, c, hheap, hfresh, hroom, rfl, ⟨rfl, rfl, le_refl _⟩, fun _ _ hp => hp, fun q _ hne => ?_⟩
      exact Function.update_of_ne (by omega) _ _
  · -- a new slot at the end of a memory vector that had to grow
    cases hrun
    have hgrown := h.grow (s.brk + size.toInt)
    have hlen : s.memlen ≤ (s.grow (s.brk + size.toInt)).memlen ∧ s.brk + 2 ^ c ≤ (s.grow (s.brk + size.toInt)).memlen := by
      rw [← hsize]
      unfold State.grow
      dsimp only
      split_ifs <;> omega
    have hmem : ∀ q < s.brk, (s.grow (s.brk + size.toInt)).mem q = s.mem q := by
      intro q hq
      have hle := h.len
      exact if_neg (by omega)
    obtain ⟨hheap, hfresh⟩ := hgrown.extend ⟨hfour, hmost⟩ hlen.2
    rw [← hsize] at hheap hfresh
    refine ⟨_, c, hheap, hfresh, hroom, rfl, ⟨rfl, rfl, hlen.1⟩, fun _ _ hp => .inl hp, fun q hq hne => ?_⟩
    exact (Function.update_of_ne (by omega) _ _).trans (hmem q hq)
  · -- and of one that has room
    cases hrun
    obtain ⟨hheap, hfresh⟩ := h.extend ⟨hfour, hmost⟩ (by omega)
    rw [← hsize] at hheap hfresh
    refine ⟨_, c, hheap, hfresh, hroom, rfl, ⟨rfl, rfl, le_refl _⟩, fun _ _ hp => .inl hp, fun q hq hne => ?_⟩
    exact Function.update_of_ne (by omega) _ _

end

section

variable {bottom dataEnd : Int} {sl : Slots} {s s' : State} {p q ptr : Int} {n : BitVec 64} {c : Nat}

theorem Heap.ptr_ne (h : Heap bottom sl s) (hp : sl.at_ (ptr - 8) c) : ptr ≠ 0 := by
  have hin := h.inside _ _ hp
  have hpos := h.positive
  omega

theorem Heap.data_ne (h : Heap bottom sl s) (hb : b ∈ s.live) {i : Nat} (hi : i < b.asked) (hp : sl.at_ p c) :
    p ≠ b.ptr + i := by
  obtain ⟨cb, hslot, _, hasked⟩ := h.live b hb
  have hroom : ((b.asked + 8 : Nat) : Int) ≤ ((2 ^ cb : Nat) : Int) := by exact_mod_cast hasked
  push_cast at hroom
  exact h.not_header hslot (by omega) (by omega) hp

theorem free_spec (h : Heap bottom sl s) (hfresh : Fresh sl s ptr c) : ∃ s', s.free ptr = some s' ∧
    Heap bottom ⟨sl.at_, Function.update sl.free c ((ptr - 8) :: sl.free c)⟩ s' ∧ s'.live = s.live ∧ SameStack s s' ∧
      ∀ q ≠ ptr - 8, s'.mem q = s.mem q := by
  have hin := h.inside _ _ hfresh.slot
  have hclass : (s.mem (ptr - 8)).bmod (2 ^ 32) = c := by
    rw [hfresh.header]
    exact Int.bmod_eq_of_le (by omega) (by omega)
  have hlisted : ∀ c', ∀ q ∈ sl.free c', q ≠ ptr - 8 := by
    intro c' q hq heq
    exact hfresh.unlisted c' (heq ▸ hq)
  refine ⟨{ s with mem := Function.update s.mem (ptr - 8) (s.freel c), freel := Function.update s.freel c (ptr - 8) }, ?_,
    ⟨h.positive, h.top, h.len, h.inside, h.apart, fun c' => ?_, fun c' q hq => ?_, fun c' => ?_, fun b hb => ?_,
      fun b hb c' => ?_, h.distinct⟩, rfl, ⟨rfl, rfl, le_refl _⟩, fun q hq => Function.update_of_ne hq _ _⟩
  · rw [State.free, if_neg (h.ptr_ne hfresh.slot)]
    dsimp only
    rw [hclass, if_neg (by omega)]
    rfl
  · dsimp only
    by_cases hc : c' = c
    · subst hc
      rw [Function.update_self, Function.update_self]
      refine ⟨rfl, ?_⟩
      rw [Function.update_self]
      exact (h.chain c').congr fun q hq => Function.update_of_ne (hlisted c' q hq) _ _
    · rw [Function.update_of_ne hc, Function.update_of_ne hc]
      exact (h.chain c').congr fun q hq => Function.update_of_ne (hlisted c' q hq) _ _
  · dsimp only at hq
    by_cases hc : c' = c
    · subst hc
      rw [Function.update_self] at hq
      obtain rfl | hq := List.mem_cons.mp hq
      · exact hfresh.slot
      · exact h.listed c' q hq
    · rw [Function.update_of_ne hc] at hq
      exact h.listed c' q hq
  · dsimp only
    by_cases hc : c' = c
    · subst hc
      rw [Function.update_self]
      exact List.nodup_cons.mpr ⟨hfresh.unlisted c', h.nodup c'⟩
    · rw [Function.update_of_ne hc]
      exact h.nodup c'
  · obtain ⟨cb, hslot, hheader, hasked⟩ := h.live b hb
    have hne : b.ptr - 8 ≠ ptr - 8 := by
      have hunused := hfresh.unused b hb
      omega
    exact ⟨cb, hslot, (Function.update_of_ne hne _ _).trans hheader, hasked⟩
  · dsimp only
    have hunused := hfresh.unused b hb
    by_cases hc : c' = c
    · subst hc
      rw [Function.update_self]
      intro hmem
      obtain heq | hmem := List.mem_cons.mp hmem
      · omega
      · exact h.used b hb c' hmem
    · rw [Function.update_of_ne hc]
      exact h.used b hb c'

theorem Fresh.write (hfresh : Fresh sl s ptr c) (hsame : mem' (ptr - 8) = s.mem (ptr - 8)) :
    Fresh sl { s with mem := mem' } ptr c :=
  ⟨hfresh.slot, hsame.trans hfresh.header, hfresh.unlisted, hfresh.unused⟩

theorem calloc_spec {size : BitVec 64} (h : Heap bottom sl s) (hn : n.toNat * size.toNat + 8 < 2 ^ 63)
    (hrun : s.calloc n size = some (ptr, s')) :
    ∃ sl' c, Heap bottom sl' s' ∧ Fresh sl' s' ptr c ∧ n.toNat * size.toNat + 8 ≤ 2 ^ c ∧ SameStack s s' := by
  have hprod : (n * size).toNat = n.toNat * size.toNat := by
    rw [BitVec.toNat_mul]
    exact Nat.mod_eq_of_lt (by omega)
  rw [State.calloc] at hrun
  obtain ⟨⟨q, s₁⟩, hmalloc, hrun⟩ := Option.bind_eq_some_iff.mp hrun
  cases hrun
  obtain ⟨sl', c, hheap, hfresh, hroom, _, hsame, _, _⟩ := malloc_spec h (by rw [hprod]; exact hn) hmalloc
  rw [hprod] at hroom
  have hcells : ((n.toNat * size.toNat + 8 : Nat) : Int) ≤ ((2 ^ c : Nat) : Int) := by exact_mod_cast hroom
  push_cast at hcells
  rw [hprod]
  refine ⟨sl', c, hheap.write_data hfresh.slot fun q hq => ?_, hfresh.write ?_, hroom, hsame.stack, hsame.sp, hsame.len⟩
  · refine if_neg fun hin => ?_
    push_cast at hin
    omega
  · refine if_neg fun hin => ?_
    omega

theorem free_forget (s : State) (ptr gone : Int) : (s.forget gone).free ptr = (s.free ptr).map fun s => s.forget gone := by
  unfold State.free
  dsimp only [State.forget]
  split_ifs <;> rfl

/-- What `realloc` leaves of the block that it got. -/
structure Moved (s : State) (b : Block) (n : Nat) (r : Int) (s' : State) : Prop where
  same : SameStack s s'
  kept : ∀ i : Nat, i < b.asked → i < n → s'.mem (r + i) = s.mem (b.ptr + i)

theorem realloc_spec (h : Heap bottom sl s) (hb : b ∈ s.live) (hn : n.toNat + 8 < 2 ^ 63) {r : Int}
    (hrun : s.realloc b.ptr n = some (r, s')) :
    ∃ sl' c, Heap bottom sl' (s'.forget b.ptr) ∧ Fresh sl' (s'.forget b.ptr) r c ∧ n.toNat + 8 ≤ 2 ^ c ∧
      Moved s b n.toNat r s' := by
  obtain ⟨hforget, c, hfresh⟩ := h.forget hb
  have hmsize := h.msize_eq hb hfresh.slot
  have hasked := (h.slot_eq hb hfresh.slot).2
  have hcells : ((b.asked + 8 : Nat) : Int) ≤ ((2 ^ c : Nat) : Int) := by exact_mod_cast hasked
  push_cast at hcells
  have hsigned : n.toInt = n.toNat := by
    rw [BitVec.toInt_eq_toNat_cond, if_pos (by omega)]
  rw [State.realloc, if_neg (h.ptr_ne hfresh.slot)] at hrun
  dsimp only at hrun
  rw [hmsize, hsigned] at hrun
  split_ifs at hrun with hfits
  · -- the block is large enough
    cases hrun
    refine ⟨sl, c, hforget, hfresh, ?_, ⟨rfl, rfl, le_refl _⟩, fun _ _ _ => rfl⟩
    have hroom : ((n.toNat + 8 : Nat) : Int) ≤ ((2 ^ c : Nat) : Int) := by
      push_cast
      omega
    exact_mod_cast hroom
  · -- the cells of the block go to a fresh slot
    obtain ⟨⟨q, s₁⟩, hmalloc, hrun⟩ := Option.bind_eq_some_iff.mp hrun
    obtain ⟨s₂, hfree, hrun⟩ := Option.bind_eq_some_iff.mp hrun
    cases hrun
    obtain ⟨sl₁, c₁, hheap, hnew, hroom, hlive, hsame, hslots, hold⟩ := malloc_spec h hn hmalloc
    have hcells₁ : ((n.toNat + 8 : Nat) : Int) ≤ ((2 ^ c₁ : Nat) : Int) := by exact_mod_cast hroom
    push_cast at hcells₁
    have hb₁ : b ∈ s₁.live := hlive ▸ hb
    have hcopied : ∀ p, (s₁.copy q b.ptr (2 ^ c - 8)).mem p = if q ≤ p ∧ p < q + (2 ^ c - 8) then s₁.mem (b.ptr + (p - q)) else s₁.mem p :=
      fun _ => rfl
    have hcopy : Heap bottom sl₁ (s₁.copy q b.ptr (2 ^ c - 8)) := by
      refine hheap.write_data hnew.slot fun p hp => if_neg ?_
      omega
    have hheader : (s₁.copy q b.ptr (2 ^ c - 8)).mem (q - 8) = s₁.mem (q - 8) := if_neg (by omega)
    have hnew' : Fresh sl₁ (s₁.copy q b.ptr (2 ^ c - 8)) q c₁ := hnew.write hheader
    obtain ⟨hforget₁, c', hfresh₁⟩ := hcopy.forget hb₁
    obtain ⟨s₃, hfree₃, hheap₃, hlive₃, hsame₃, hmem₃⟩ := free_spec hforget₁ hfresh₁
    rw [free_forget, hfree] at hfree₃
    cases hfree₃
    have hne : q ≠ b.ptr := fun heq => hnew.unused b hb₁ heq.symm
    refine ⟨_, c₁, hheap₃, ⟨hnew.slot, ?_, fun k hk => ?_, fun b' hb' => ?_⟩, hroom,
      ⟨hsame₃.stack.trans hsame.stack, hsame₃.sp.trans hsame.sp, hsame.len.trans hsame₃.len⟩, fun i hi hin => ?_⟩
    · exact (hmem₃ (q - 8) (by omega)).trans hnew'.header
    · dsimp only at hk
      by_cases hc : k = c'
      · subst hc
        rw [Function.update_self] at hk
        obtain heq | hk := List.mem_cons.mp hk
        · omega
        · exact hnew.unlisted k hk
      · rw [Function.update_of_ne hc] at hk
        exact hnew.unlisted k hk
    · rw [hlive₃] at hb'
      exact hnew.unused b' (List.mem_filter.mp hb').1
    · have hdata := hheap.not_header hnew.slot (q := q + i) (by omega) (by omega) hfresh₁.slot
      have hsource := hheap.data_ne hb₁ hi hnew.slot
      have hin := h.inside _ _ hfresh.slot
      calc s'.mem (q + i) = (s₁.copy q b.ptr (2 ^ c - 8)).mem (q + i) := hmem₃ (q + i) (Ne.symm hdata)
        _ = s₁.mem (b.ptr + i) := by rw [hcopied, if_pos (by omega), add_sub_cancel_left]
        _ = s.mem (b.ptr + i) := hold (b.ptr + i) (by omega) (Ne.symm hsource)

end

section

variable {dataEnd : Int} {sl : Slots} {s s' : State} {a : Act} {r : Int}

structure Inv (dataEnd : Int) (sl : Slots) (s : State) : Prop where
  data : 8 ≤ dataEnd
  stacked : Stacked dataEnd s.stack s.sp
  low : s.sp ≤ dataEnd + stackCells
  heap : Heap (dataEnd + stackCells) sl s

theorem doubled_ge (need n : Nat) (hn : 0 < n) : need ≤ doubled need n hn := by
  induction n, hn using doubled.induct need with
  | case1 n hn hless ih =>
    rw [doubled, if_pos hless]
    exact ih
  | case2 n hn henough =>
    rw [doubled, if_neg henough]
    omega

theorem start_inv {dataEnd : Nat} (hdata : 8 ≤ dataEnd) : Inv dataEnd ⟨fun _ _ => False, fun _ => []⟩ (start dataEnd) where
  data := by omega
  stacked := le_refl (dataEnd : Int)
  low := by
    change (dataEnd : Int) ≤ dataEnd + 2 ^ 20
    omega
  heap := by
    have hlen := doubled_ge (dataEnd + 2 ^ 20 + 262144) 1 Nat.one_pos
    have hroom : (dataEnd : Int) + stackCells ≤ doubled (dataEnd + 2 ^ 20 + 262144) 1 Nat.one_pos := by
      unfold stackCells
      omega
    refine ⟨?_, le_refl _, hroom, fun _ _ h => h.elim, fun _ _ _ _ h => h.elim, fun _ => rfl, fun _ _ h => absurd h List.not_mem_nil,
      fun _ => .nil, fun _ h => absurd h List.not_mem_nil, fun _ h => absurd h List.not_mem_nil, .nil⟩
    unfold stackCells
    omega

theorem Inv.with_stack (h : Inv dataEnd sl s) {stack : List Entry} {sp : Int} (hstacked : Stacked dataEnd stack sp)
    (hlow : sp ≤ dataEnd + stackCells) : Inv dataEnd sl { s with stack := stack, sp := sp } :=
  ⟨h.data, hstacked, hlow, h.heap.with_stack stack sp⟩

theorem Inv.call (h : Inv dataEnd sl s) {size : Nat} {keeps : Bool} (hroom : s.sp + size ≤ dataEnd + stackCells) :
    Inv dataEnd sl { s with stack := .frame s.sp size keeps :: s.stack, sp := s.sp + size } :=
  h.with_stack ⟨le_refl _, h.stacked⟩ hroom

theorem Inv.ret (h : Inv dataEnd sl s) (hrun : step dataEnd s .ret = some (r, s')) : Inv dataEnd sl s' := by
  have hsplit : s.stack.takeWhile (!·.isFrame) ++ s.stack.dropWhile (!·.isFrame) = s.stack := List.takeWhile_append_dropWhile
  have hstacked := h.stacked
  have hlow := h.low
  rw [← hsplit] at hstacked
  obtain ⟨sp', hle, hbelow⟩ := hstacked.below
  rw [step] at hrun
  split at hrun
  next fp size rest hdrop =>
    cases hrun
    rw [hdrop] at hbelow
    have htop := hbelow.1
    exact h.with_stack hbelow.2 (by omega)
  next fp size rest hdrop =>
    split_ifs at hrun with htop
    cases hrun
    rw [hdrop] at hbelow
    have hframe := hbelow.1
    exact h.with_stack (hbelow.2.mono (by omega)) hlow
  next => cases hrun

theorem Inv.leave (h : Inv dataEnd sl s) {k : Nat} (hrun : step dataEnd s (.leave k) = some (r, s')) : Inv dataEnd sl s' := by
  have hstacked := h.stacked
  have hlow := h.low
  rw [← List.take_append_drop k s.stack] at hstacked
  obtain ⟨sp', hle, hbelow⟩ := hstacked.below
  rw [step] at hrun
  split_ifs at hrun
  split at hrun
  next sp rest hdrop =>
    cases hrun
    rw [hdrop] at hbelow
    have hmark := hbelow.1
    exact h.with_stack hbelow.2 (by omega)
  next => cases hrun

theorem Inv.array (h : Inv dataEnd sl s) {n : BitVec 64} {elem : Nat} (hn : 0 ≤ n.toInt)
    (hroom : s.sp + (n.toInt * elem + 7) / 8 * 8 ≤ dataEnd + stackCells) :
    Inv dataEnd sl { s with stack := .area s.sp (n.toInt * elem) :: s.stack, sp := s.sp + (arrayCells n elem).toInt } := by
  have hle := h.stacked.le
  have hcells : 0 ≤ n.toInt * elem := mul_nonneg hn (Int.natCast_nonneg elem)
  have hlimit : stackCells = 2 ^ 20 := rfl
  have hsize : (arrayCells n elem).toInt = (n.toInt * elem + 7) / 8 * 8 := arrayCells_toInt hn (by omega)
  refine h.with_stack ⟨hcells, ?_, h.stacked⟩ ?_
  · rw [hsize]
    omega
  · rw [hsize]
    exact hroom

theorem Inv.store (h : Inv dataEnd sl s) {p v : Int}
    (hown : (s.lower dataEnd).any (·.Has p) ∨ s.live.any (fun b => Range.Has ⟨b.ptr, b.asked⟩ p)) :
    Inv dataEnd sl { s with mem := Function.update s.mem p v } := by
  refine ⟨h.data, h.stacked, h.low, h.heap.write fun p' c hp' => Function.update_of_ne ?_ _ _⟩
  have hin := h.heap.inside p' c hp'
  obtain hlower | hblock := hown
  · obtain ⟨range, hrange, hhas⟩ := List.any_eq_true.mp hlower
    have hhi := (of_decide_eq_true hhas).2
    have hle : range.hi ≤ dataEnd + stackCells := by
      have hlow := h.low
      obtain rfl | hrange := List.mem_cons.mp hrange
      · have hle := h.stacked.le
        change 8 + (dataEnd - 8) ≤ _
        omega
      · exact (h.stacked.ranges.2 range hrange).2.trans hlow
    omega
  · obtain ⟨b, hb, hhas⟩ := List.any_eq_true.mp hblock
    have hin := of_decide_eq_true hhas
    have hlo : b.ptr ≤ p := hin.1
    have hhi : p < b.ptr + b.asked := hin.2
    have hne := h.heap.data_ne hb (i := (p - b.ptr).toNat) (by omega) hp'
    omega

theorem Inv.of_same (h : Inv dataEnd sl s) (hsame : SameStack s s') {sl' : Slots} (hheap : Heap (dataEnd + stackCells) sl' s') :
    Inv dataEnd sl' s' := by
  refine ⟨h.data, ?_, ?_, hheap⟩
  · rw [hsame.stack, hsame.sp]
    exact h.stacked
  · rw [hsame.sp]
    exact h.low

theorem has_iff {ptr : Int} (h : s.has ptr = true) : ∃ b ∈ s.live, b.ptr = ptr := by
  obtain ⟨b, hb, hptr⟩ := List.any_eq_true.mp h
  exact ⟨b, hb, of_decide_eq_true hptr⟩

theorem forget_absent {ptr : Int} (h : ∀ b ∈ s.live, b.ptr ≠ ptr) : s.forget ptr = s := by
  have hall : s.live.filter (fun b => b.ptr ≠ ptr) = s.live := by
    refine List.filter_eq_self.mpr fun b hb => ?_
    exact decide_eq_true (h b hb)
  unfold State.forget
  rw [hall]

theorem Inv.null_free (h : Inv dataEnd sl s) : ∀ b ∈ s.live, b.ptr ≠ 0 := by
  intro b hb
  obtain ⟨c, hslot, -⟩ := h.heap.live b hb
  exact h.heap.ptr_ne hslot

theorem Inv.record (h : Inv dataEnd sl s) (hsame : SameStack s s') {sl' : Slots} {ptr : Int} {c asked : Nat}
    (hheap : Heap (dataEnd + stackCells) sl' s') (hfresh : Fresh sl' s' ptr c) (hasked : asked + 8 ≤ 2 ^ c) :
    Inv dataEnd sl' (s'.record ptr asked) :=
  have hsame' : SameStack s (s'.record ptr asked) := ⟨hsame.stack, hsame.sp, hsame.len⟩
  h.of_same hsame' (hheap.record hfresh hasked)

theorem Inv.malloc (h : Inv dataEnd sl s) {n : BitVec 64} {ptr : Int} (hn : n.toNat + 8 < 2 ^ 63)
    (hrun : s.malloc n = some (ptr, s')) : ∃ sl', Inv dataEnd sl' (s'.record ptr n.toNat) := by
  obtain ⟨sl', c, hheap, hfresh, hroom, _, hsame, _, _⟩ := malloc_spec h.heap hn hrun
  exact ⟨sl', h.record hsame hheap hfresh hroom⟩

theorem Inv.calloc (h : Inv dataEnd sl s) {n size : BitVec 64} {ptr : Int} (hn : n.toNat * size.toNat + 8 < 2 ^ 63)
    (hrun : s.calloc n size = some (ptr, s')) : ∃ sl', Inv dataEnd sl' (s'.record ptr (n.toNat * size.toNat)) := by
  obtain ⟨sl', c, hheap, hfresh, hroom, hsame⟩ := calloc_spec h.heap hn hrun
  exact ⟨sl', h.record hsame hheap hfresh hroom⟩

theorem Inv.realloc (h : Inv dataEnd sl s) {ptr : Int} {n : BitVec 64} (hn : n.toNat + 8 < 2 ^ 63)
    (hptr : ptr = 0 ∨ s.has ptr = true) (hrun : s.realloc ptr n = some (r, s')) :
    (∃ sl', Inv dataEnd sl' ((s'.forget ptr).record r n.toNat)) ∧
      (Act.realloc ptr n).Keeps s r ((s'.forget ptr).record r n.toNat) := by
  obtain rfl | hhas := hptr
  · rw [State.realloc, if_pos rfl] at hrun
    have hlive : s'.live = s.live := by
      obtain ⟨_, _, _, _, _, hlive, _⟩ := malloc_spec h.heap hn hrun
      exact hlive
    rw [forget_absent (hlive ▸ h.null_free)]
    exact ⟨h.malloc hn hrun, fun b hb hnull => absurd hnull (h.null_free b hb)⟩
  · obtain ⟨b, hb, rfl⟩ := has_iff hhas
    obtain ⟨sl', c, hheap, hfresh, hroom, hmoved⟩ := realloc_spec h.heap hb hn hrun
    have hsame : SameStack s (s'.forget b.ptr) := ⟨hmoved.same.stack, hmoved.same.sp, hmoved.same.len⟩
    refine ⟨⟨sl', h.record hsame hheap hfresh hroom⟩, fun b' hb' heq i hi hin => ?_⟩
    have hown : b' = b := List.inj_on_of_nodup_map h.heap.distinct hb' hb heq
    exact hmoved.kept i (hown ▸ hi) hin

theorem Inv.free (h : Inv dataEnd sl s) {ptr : Int} (hptr : ptr = 0 ∨ s.has ptr = true) (hrun : s.free ptr = some s') :
    (∃ sl', Inv dataEnd sl' (s'.forget ptr)) ∧ (Act.free ptr).Keeps s 0 (s'.forget ptr) := by
  obtain rfl | hhas := hptr
  · rw [State.free, if_pos rfl] at hrun
    cases hrun
    rw [forget_absent h.null_free]
    exact ⟨⟨sl, h⟩, fun _ _ _ _ => rfl⟩
  · obtain ⟨b, hb, rfl⟩ := has_iff hhas
    obtain ⟨hheap, c, hfresh⟩ := h.heap.forget hb
    obtain ⟨s₁, hfree, hheap₁, hlive, hsame, hmem⟩ := free_spec hheap hfresh
    rw [free_forget, hrun] at hfree
    cases hfree
    refine ⟨⟨_, h.of_same ⟨hsame.stack, hsame.sp, hsame.len⟩ hheap₁⟩, fun b' hb' i hi => hmem _ ?_⟩
    rw [hlive] at hb'
    exact (hheap.data_ne hb' hi hfresh.slot).symm

theorem step_inv (h : Inv dataEnd sl s) (hroom : a.Roomy dataEnd s) (hrun : step dataEnd s a = some (r, s')) :
    (∃ sl', Inv dataEnd sl' s') ∧ a.Keeps s r s' := by
  cases a with
  | call size keeps =>
    rw [step] at hrun
    split_ifs at hrun
    cases hrun
    exact ⟨⟨sl, h.call hroom⟩, trivial⟩
  | ret => exact ⟨⟨sl, h.ret hrun⟩, trivial⟩
  | enter =>
    rw [step] at hrun
    cases hrun
    exact ⟨⟨sl, h.with_stack ⟨le_refl _, h.stacked⟩ h.low⟩, trivial⟩
  | varargs count =>
    rw [step] at hrun
    cases hrun
    exact ⟨⟨sl, h.with_stack ⟨by omega, le_refl _, le_refl _, h.stacked⟩ hroom⟩, trivial⟩
  | array n elem =>
    rw [step] at hrun
    split_ifs at hrun
    cases hrun
    exact ⟨⟨sl, h.array hroom.1 hroom.2⟩, trivial⟩
  | leave k => exact ⟨⟨sl, h.leave hrun⟩, trivial⟩
  | malloc n =>
    rw [step] at hrun
    obtain ⟨⟨p, s₁⟩, hmalloc, hrun⟩ := Option.bind_eq_some_iff.mp hrun
    cases hrun
    exact ⟨h.malloc hroom hmalloc, trivial⟩
  | calloc n size =>
    rw [step] at hrun
    obtain ⟨⟨p, s₁⟩, hcalloc, hrun⟩ := Option.bind_eq_some_iff.mp hrun
    cases hrun
    exact ⟨h.calloc hroom hcalloc, trivial⟩
  | realloc ptr n =>
    rw [step] at hrun
    split_ifs at hrun with hptr
    obtain ⟨⟨p, s₁⟩, hrealloc, hrun⟩ := Option.bind_eq_some_iff.mp hrun
    cases hrun
    exact h.realloc hroom hptr hrealloc
  | free ptr =>
    rw [step] at hrun
    split_ifs at hrun with hptr
    obtain ⟨s₁, hfree, hrun⟩ := Option.bind_eq_some_iff.mp hrun
    cases hrun
    exact h.free hptr hfree
  | store p v =>
    rw [step] at hrun
    split_ifs at hrun with hown
    cases hrun
    exact ⟨⟨sl, h.store hown⟩, trivial⟩

theorem Reached.inv {dataEnd : Nat} (hdata : 8 ≤ dataEnd) {s : State} (h : Reached dataEnd s) : ∃ sl, Inv dataEnd sl s := by
  induction h with
  | start => exact ⟨_, start_inv hdata⟩
  | step _ hroom hrun ih =>
    obtain ⟨sl, hinv⟩ := ih
    exact (step_inv hinv hroom hrun).1

theorem Inv.block (h : Inv dataEnd sl s) (hb : b ∈ s.live) :
    ∃ c, sl.at_ (b.ptr - 8) c ∧ s.msize b.ptr = 2 ^ c - 8 ∧ b.asked + 8 ≤ 2 ^ c := by
  obtain ⟨c, hslot, _, hasked⟩ := h.heap.live b hb
  exact ⟨c, hslot, h.heap.msize_eq hb hslot, hasked⟩

theorem Inv.blocks_apart (h : Inv dataEnd sl s) : s.blocks.Pairwise Range.Apart := by
  have hdistinct : s.live.Pairwise fun b b' => b.ptr ≠ b'.ptr := List.pairwise_map.mp h.heap.distinct
  refine List.pairwise_map.mpr (hdistinct.imp_of_mem fun {b b'} hb hb' hne => ?_)
  obtain ⟨c, hslot, hsize, _⟩ := h.block hb
  obtain ⟨c', hslot', hsize', _⟩ := h.block hb'
  change b.ptr + s.msize b.ptr ≤ b'.ptr ∨ b'.ptr + s.msize b'.ptr ≤ b.ptr
  rw [hsize, hsize']
  obtain ⟨heq, -⟩ | hlt | hlt := h.heap.apart _ _ _ _ hslot hslot'
  · omega
  · exact .inl (by omega)
  · exact .inr (by omega)

theorem Inv.lower_bounds (h : Inv dataEnd sl s) : ∀ range ∈ s.lower dataEnd, 8 ≤ range.lo ∧ range.hi ≤ dataEnd + stackCells := by
  have hdata := h.data
  have hlow := h.low
  refine List.forall_mem_cons.mpr ⟨⟨le_refl _, ?_⟩, fun range hrange => ?_⟩
  · have hle := h.stacked.le
    change 8 + (dataEnd - 8) ≤ _
    omega
  · obtain ⟨hlo, hhi⟩ := h.stacked.ranges.2 range hrange
    exact ⟨by omega, by omega⟩

theorem Inv.lower_apart (h : Inv dataEnd sl s) : (s.lower dataEnd).Pairwise Range.Apart := by
  refine List.pairwise_cons.mpr ⟨fun range hrange => .inl ?_, h.stacked.ranges.1⟩
  have hlo := (h.stacked.ranges.2 range hrange).1
  change 8 + (dataEnd - 8) ≤ _
  omega

theorem Inv.block_bounds (h : Inv dataEnd sl s) : ∀ range ∈ s.blocks, dataEnd + stackCells ≤ range.lo ∧ range.hi ≤ s.memlen := by
  intro range hrange
  obtain ⟨b, hb, rfl⟩ := List.mem_map.mp hrange
  obtain ⟨c, hslot, hsize, _⟩ := h.block hb
  have hin := h.heap.inside _ _ hslot
  have hlen := h.heap.len
  change dataEnd + stackCells ≤ b.ptr ∧ b.ptr + s.msize b.ptr ≤ s.memlen
  rw [hsize]
  omega

theorem Inv.good (h : Inv dataEnd sl s) : s.Good dataEnd := by
  have hdata := h.data
  have hlen := h.heap.top.trans h.heap.len
  have hlimit : stackCells = 2 ^ 20 := rfl
  refine ⟨List.pairwise_append.mpr ⟨h.lower_apart, h.blocks_apart, fun range hrange range' hrange' => .inl ?_⟩,
    fun range hrange => ?_, fun b hb => ?_⟩
  · exact (h.lower_bounds range hrange).2.trans (h.block_bounds range' hrange').1
  · obtain hrange | hrange := List.mem_append.mp hrange
    · have hbounds := h.lower_bounds range hrange
      exact ⟨by omega, by omega⟩
    · have hbounds := h.block_bounds range hrange
      exact ⟨by omega, hbounds.2⟩
  · obtain ⟨c, _, hsize, hasked⟩ := h.block hb
    have hcells : ((b.asked + 8 : Nat) : Int) ≤ ((2 ^ c : Nat) : Int) := by exact_mod_cast hasked
    push_cast at hcells
    rw [hsize]
    omega

/-- Over every run whose steps have room. -/
theorem areas_apart {dataEnd : Nat} (hdata : 8 ≤ dataEnd) {s : State} (h : Reached dataEnd s) :
    s.Good dataEnd ∧ ∀ a r s', a.Roomy dataEnd s → step dataEnd s a = some (r, s') → a.Keeps s r s' := by
  obtain ⟨sl, hinv⟩ := h.inv hdata
  exact ⟨hinv.good, fun a r s' hroom hrun => (step_inv hinv hroom hrun).2⟩

theorem start_eight : start 8 = ⟨fun _ => 0, 2 ^ 21, 8, [], 8 + 2 ^ 20, fun _ => 0, []⟩ := by
  have hdoubled : doubled (8 + 2 ^ 20 + 262144) 1 Nat.one_pos = 2 ^ 21 := by simp [doubled]
  rw [start, hdoubled]
  rfl

instance decidableRoomy (dataEnd : Int) (s : State) : (a : Act) → Decidable (a.Roomy dataEnd s)
  | .call _ _ | .varargs _ => inferInstanceAs (Decidable ((_ : Int) ≤ _))
  | .malloc _ | .calloc _ _ | .realloc _ _ => inferInstanceAs (Decidable ((_ : Nat) < _))
  | .array _ _ => inferInstanceAs (Decidable (_ ∧ _))
  | .ret | .enter | .leave _ | .free _ | .store _ _ => .isTrue trivial

/-- A run whose steps have room. -/
def roomyRun (dataEnd : Int) (s : State) : List Act → Option State
  | [] => some s
  | a :: as => if a.Roomy dataEnd s then (step dataEnd s a).bind fun next => roomyRun dataEnd next.2 as else none

theorem Reached.run {dataEnd : Nat} {s s' : State} {as : List Act} (h : Reached dataEnd s)
    (hrun : roomyRun dataEnd s as = some s') : Reached dataEnd s' := by
  induction as generalizing s with
  | nil =>
    cases hrun
    exact h
  | cons a as ih =>
    rw [roomyRun] at hrun
    split_ifs at hrun with hroom
    obtain ⟨⟨r, t⟩, hstep, hrun⟩ := Option.bind_eq_some_iff.mp hrun
    exact ih (h.step hroom hstep) hrun

/-- Two calls; the second one gets the cells that `realloc` gave back. -/
def nestedRun : List Act :=
  [.call 16 true, .malloc 100, .malloc 8, .realloc 1048592 200, .call 8 true, .malloc 90, .store 1048720 7]

theorem called_apart : ∃ s, roomyRun 8 (start 8) nestedRun = some s ∧ s.stack.length = 2 ∧
    s.live.map Block.ptr = [1048592, 1048736, 1048720] ∧
    s.Good 8 ∧ ∀ a r s', a.Roomy 8 s → step 8 s a = some (r, s') → a.Keeps s r s' := by
  have hrun : (roomyRun 8 (start 8) nestedRun).any (fun s =>
      decide (s.stack.length = 2 ∧ s.live.map Block.ptr = [1048592, 1048736, 1048720])) = true := by
    rw [start_eight]
    decide +kernel
  obtain ⟨s, hs, hcheck⟩ := (Option.any_eq_true ..).mp hrun
  obtain ⟨hstack, hlive⟩ := of_decide_eq_true hcheck
  have hright := @areas_apart 8 (le_refl 8) s (Reached.start.run hs)
  exact ⟨s, hs, hstack, hlive, hright⟩

/-- A function with a frame of more than `stackCells`, which asks for a block. -/
def deepRun : List Act := [.call (2 ^ 20 + 16) true, .malloc 8]

/-- The product of the two sizes is 0 in a `long`. -/
def wrappedRun : List Act := [.calloc 0x100000000 0x100000000]

instance decidableApart (r r' : Range) : Decidable (r.Apart r') := inferInstanceAs (Decidable (_ ∨ _))

theorem deepRun_overlaps :
    (∃ s, run 8 (start 8) deepRun = some s ∧ ¬s.Good 8) ∧ ∃ s, run 8 (start 8) wrappedRun = some s ∧ ¬s.Good 8 := by
  have hdeep : (run 8 (start 8) deepRun).any (fun s =>
      !decide ((s.lower 8 ++ s.blocks).Pairwise Range.Apart)) = true := by
    rw [start_eight]
    decide +kernel
  have hwrapped : (run 8 (start 8) wrappedRun).any (fun s =>
      s.live.any fun b => decide (s.msize b.ptr < b.asked)) = true := by
    rw [start_eight]
    decide +kernel
  obtain ⟨s, hs, hcheck⟩ := (Option.any_eq_true ..).mp hdeep
  obtain ⟨s', hs', hcheck'⟩ := (Option.any_eq_true ..).mp hwrapped
  obtain ⟨b, hb, hsmall⟩ := List.any_eq_true.mp hcheck'
  have hsmall := of_decide_eq_true hsmall
  refine ⟨⟨s, hs, fun hgood => ?_⟩, s', hs', fun hgood => ?_⟩
  · rw [decide_eq_true hgood.apart] at hcheck
    cases hcheck
  · have henough := hgood.enough b hb
    omega

end

end Ussr.Usa.Areas
