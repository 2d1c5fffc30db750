import Ussr.Omsk.Samples
import Ussr.Library.MsbBits

/-! Omsk's JPEG writer, and how the scan of a JPEG reads the coefficients of its blocks. What the scan makes
of the coefficients is left to the caller. -/

namespace Ussr.Omsk

def omskZz : List Nat := [
  0, 1, 8, 16, 9, 2, 3, 10, 17, 24, 32, 25, 18, 11, 4, 5, 12, 19, 26, 33, 40, 48, 41, 34, 27, 20, 13, 6, 7, 14, 21,
  28, 35, 42, 49, 56, 57, 50, 43, 36, 29, 22, 15, 23, 30, 37, 44, 51, 58, 59, 52, 45, 38, 31, 39, 46, 53, 60, 61, 54,
  47, 55, 62, 63]

def omskFdct : List Int := [
  1448, 1448, 1448, 1448, 1448, 1448, 1448, 1448, 2009, 1703, 1138, 400, -400, -1138, -1703, -2009, 1892, 784, -784,
  -1892, -1892, -784, 784, 1892, 1703, -400, -2009, -1138, 1138, 2009, 400, -1703, 1448, -1448, -1448, 1448, 1448,
  -1448, -1448, 1448, 1138, -2009, 400, 1703, -1703, -400, 2009, -1138, 784, -1892, 1892, -784, -784, 1892, -1892,
  784, 400, -1138, 1703, -2009, 2009, -1703, 1138, -400]

def omskRlum : List Nat := [
  13107, 21845, 16384, 16384, 16384, 21845, 13107, 16384, 16384, 16384, 13107, 13107, 13107, 10923, 9362, 5461, 8192,
  9362, 9362, 9362, 9362, 4369, 5958, 5958, 7282, 5461, 3855, 4369, 3641, 3641, 3855, 4369, 3855, 3855, 3449, 2979,
  2341, 2849, 3449, 3277, 2521, 3121, 3855, 3855, 2731, 1986, 2731, 2521, 2260, 2260, 2114, 2114, 2114, 3449, 2849,
  1928, 1820, 1928, 2185, 1820, 2341, 2185, 2114, 2185]

def omskRchr : List Nat := [
  13107, 13107, 13107, 9362, 10923, 9362, 4681, 8192, 8192, 4681, 2185, 3277, 3855, 3277, 2185, 2185, 2185, 2185,
  2185, 2185, 2185, 2185, 2185, 2185, 2185, 2185, 2185, 2185, 2185, 2185, 2185, 2185, 2185, 2185, 2185, 2185, 2185,
  2185, 2185, 2185, 2185, 2185, 2185, 2185, 2185, 2185, 2185, 2185, 2185, 2185, 2185, 2185, 2185, 2185, 2185, 2185,
  2185, 2185, 2185, 2185, 2185, 2185, 2185, 2185]

def omskEdcl : List Nat := [
  2, 67, 99, 131, 163, 195, 452, 965, 1990, 4039, 8136, 16329]

def omskEdcc : List Nat := [
  2, 34, 66, 195, 452, 965, 1990, 4039, 8136, 16329, 32714, 65483]

def omskEacl : List Nat := [
  324, 2, 34, 131, 356, 837, 3847, 7944, 32458, 2093136, 2093168, 0, 0, 0, 0, 0, 0, 388, 869, 3879, 16073, 65227,
  2093200, 2093232, 2093264, 2093296, 2093328, 0, 0, 0, 0, 0, 0, 901, 7976, 32490, 130700, 2093360, 2093392, 2093424,
  2093456, 2093488, 2093520, 0, 0, 0, 0, 0, 0, 1862, 16105, 130732, 2093552, 2093584, 2093616, 2093648, 2093680,
  2093712, 2093744, 0, 0, 0, 0, 0, 0, 1894, 32522, 2093776, 2093808, 2093840, 2093872, 2093904, 2093936, 2093968,
  2094000, 0, 0, 0, 0, 0, 0, 3911, 65259, 2094032, 2094064, 2094096, 2094128, 2094160, 2094192, 2094224, 2094256, 0,
  0, 0, 0, 0, 0, 3943, 130764, 2094288, 2094320, 2094352, 2094384, 2094416, 2094448, 2094480, 2094512, 0, 0, 0, 0, 0,
  0, 8008, 130796, 2094544, 2094576, 2094608, 2094640, 2094672, 2094704, 2094736, 2094768, 0, 0, 0, 0, 0, 0, 16137,
  1046543, 2094800, 2094832, 2094864, 2094896, 2094928, 2094960, 2094992, 2095024, 0, 0, 0, 0, 0, 0, 16169, 2095056,
  2095088, 2095120, 2095152, 2095184, 2095216, 2095248, 2095280, 2095312, 0, 0, 0, 0, 0, 0, 16201, 2095344, 2095376,
  2095408, 2095440, 2095472, 2095504, 2095536, 2095568, 2095600, 0, 0, 0, 0, 0, 0, 32554, 2095632, 2095664, 2095696,
  2095728, 2095760, 2095792, 2095824, 2095856, 2095888, 0, 0, 0, 0, 0, 0, 32586, 2095920, 2095952, 2095984, 2096016,
  2096048, 2096080, 2096112, 2096144, 2096176, 0, 0, 0, 0, 0, 0, 65291, 2096208, 2096240, 2096272, 2096304, 2096336,
  2096368, 2096400, 2096432, 2096464, 0, 0, 0, 0, 0, 0, 2096496, 2096528, 2096560, 2096592, 2096624, 2096656, 2096688,
  2096720, 2096752, 2096784, 0, 0, 0, 0, 0, 65323, 2096816, 2096848, 2096880, 2096912, 2096944, 2096976, 2097008,
  2097040, 2097072, 2097104, 0, 0, 0, 0, 0]

def omskEacc : List Nat := [
  2, 34, 131, 324, 773, 805, 1798, 3847, 16009, 32458, 130700, 0, 0, 0, 0, 0, 0, 356, 1830, 7880, 16041, 65227,
  130732, 2093328, 2093360, 2093392, 2093424, 0, 0, 0, 0, 0, 0, 837, 7912, 32490, 130764, 1046607, 2093456, 2093488,
  2093520, 2093552, 2093584, 0, 0, 0, 0, 0, 0, 869, 7944, 32522, 130796, 2093616, 2093648, 2093680, 2093712, 2093744,
  2093776, 0, 0, 0, 0, 0, 0, 1862, 16073, 2093808, 2093840, 2093872, 2093904, 2093936, 2093968, 2094000, 2094032, 0,
  0, 0, 0, 0, 0, 1894, 32554, 2094064, 2094096, 2094128, 2094160, 2094192, 2094224, 2094256, 2094288, 0, 0, 0, 0, 0,
  0, 3879, 65259, 2094320, 2094352, 2094384, 2094416, 2094448, 2094480, 2094512, 2094544, 0, 0, 0, 0, 0, 0, 3911,
  65291, 2094576, 2094608, 2094640, 2094672, 2094704, 2094736, 2094768, 2094800, 0, 0, 0, 0, 0, 0, 7976, 2094832,
  2094864, 2094896, 2094928, 2094960, 2094992, 2095024, 2095056, 2095088, 0, 0, 0, 0, 0, 0, 16105, 2095120, 2095152,
  2095184, 2095216, 2095248, 2095280, 2095312, 2095344, 2095376, 0, 0, 0, 0, 0, 0, 16137, 2095408, 2095440, 2095472,
  2095504, 2095536, 2095568, 2095600, 2095632, 2095664, 0, 0, 0, 0, 0, 0, 16169, 2095696, 2095728, 2095760, 2095792,
  2095824, 2095856, 2095888, 2095920, 2095952, 0, 0, 0, 0, 0, 0, 16201, 2095984, 2096016, 2096048, 2096080, 2096112,
  2096144, 2096176, 2096208, 2096240, 0, 0, 0, 0, 0, 0, 65323, 2096272, 2096304, 2096336, 2096368, 2096400, 2096432,
  2096464, 2096496, 2096528, 0, 0, 0, 0, 0, 0, 523278, 2096560, 2096592, 2096624, 2096656, 2096688, 2096720, 2096752,
  2096784, 2096816, 0, 0, 0, 0, 0, 32586, 1046639, 2096848, 2096880, 2096912, 2096944, 2096976, 2097008, 2097040,
  2097072, 2097104, 0, 0, 0, 0, 0]

def omskJhead : List Nat := [
  255, 219, 0, 67, 0, 5, 3, 4, 4, 4, 3, 5, 4, 4, 4, 5, 5, 5, 6, 7, 12, 8, 7, 7, 7, 7, 15, 11, 11, 9, 12, 17, 15, 18,
  18, 17, 15, 17, 17, 19, 22, 28, 23, 19, 20, 26, 21, 17, 17, 24, 33, 24, 26, 29, 29, 31, 31, 31, 19, 23, 34, 36, 34,
  30, 36, 28, 30, 31, 30, 255, 219, 0, 67, 1, 5, 5, 5, 7, 6, 7, 14, 8, 8, 14, 30, 20, 17, 20, 30, 30, 30, 30, 30, 30,
  30, 30, 30, 30, 30, 30, 30, 30, 30, 30, 30, 30, 30, 30, 30, 30, 30, 30, 30, 30, 30, 30, 30, 30, 30, 30, 30, 30, 30,
  30, 30, 30, 30, 30, 30, 30, 30, 30, 30, 30, 30, 30, 30, 30, 255, 196, 0, 31, 0, 0, 1, 5, 1, 1, 1, 1, 1, 1, 0, 0, 0,
  0, 0, 0, 0, 0, 1, 2, 3, 4, 5, 6, 7, 8, 9, 10, 11, 255, 196, 0, 181, 16, 0, 2, 1, 3, 3, 2, 4, 3, 5, 5, 4, 4, 0, 0, 1,
  125, 1, 2, 3, 0, 4, 17, 5, 18, 33, 49, 65, 6, 19, 81, 97, 7, 34, 113, 20, 50, 129, 145, 161, 8, 35, 66, 177, 193,
  21, 82, 209, 240, 36, 51, 98, 114, 130, 9, 10, 22, 23, 24, 25, 26, 37, 38, 39, 40, 41, 42, 52, 53, 54, 55, 56, 57,
  58, 67, 68, 69, 70, 71, 72, 73, 74, 83, 84, 85, 86, 87, 88, 89, 90, 99, 100, 101, 102, 103, 104, 105, 106, 115, 116,
  117, 118, 119, 120, 121, 122, 131, 132, 133, 134, 135, 136, 137, 138, 146, 147, 148, 149, 150, 151, 152, 153, 154,
  162, 163, 164, 165, 166, 167, 168, 169, 170, 178, 179, 180, 181, 182, 183, 184, 185, 186, 194, 195, 196, 197, 198,
  199, 200, 201, 202, 210, 211, 212, 213, 214, 215, 216, 217, 218, 225, 226, 227, 228, 229, 230, 231, 232, 233, 234,
  241, 242, 243, 244, 245, 246, 247, 248, 249, 250, 255, 196, 0, 31, 1, 0, 3, 1, 1, 1, 1, 1, 1, 1, 1, 1, 0, 0, 0, 0,
  0, 0, 1, 2, 3, 4, 5, 6, 7, 8, 9, 10, 11, 255, 196, 0, 181, 17, 0, 2, 1, 2, 4, 4, 3, 4, 7, 5, 4, 4, 0, 1, 2, 119, 0,
  1, 2, 3, 17, 4, 5, 33, 49, 6, 18, 65, 81, 7, 97, 113, 19, 34, 50, 129, 8, 20, 66, 145, 161, 177, 193, 9, 35, 51, 82,
  240, 21, 98, 114, 209, 10, 22, 36, 52, 225, 37, 241, 23, 24, 25, 26, 38, 39, 40, 41, 42, 53, 54, 55, 56, 57, 58, 67,
  68, 69, 70, 71, 72, 73, 74, 83, 84, 85, 86, 87, 88, 89, 90, 99, 100, 101, 102, 103, 104, 105, 106, 115, 116, 117,
  118, 119, 120, 121, 122, 130, 131, 132, 133, 134, 135, 136, 137, 138, 146, 147, 148, 149, 150, 151, 152, 153, 154,
  162, 163, 164, 165, 166, 167, 168, 169, 170, 178, 179, 180, 181, 182, 183, 184, 185, 186, 194, 195, 196, 197, 198,
  199, 200, 201, 202, 210, 211, 212, 213, 214, 215, 216, 217, 218, 226, 227, 228, 229, 230, 231, 232, 233, 234, 242,
  243, 244, 245, 246, 247, 248, 249, 250]

def omskQlum : List Nat := [
  5, 3, 4, 4, 4, 3, 5, 4, 4, 4, 5, 5, 5, 6, 7, 12, 8, 7, 7, 7, 7, 15, 11, 11, 9, 12, 17, 15, 18, 18, 17, 15, 17, 17,
  19, 22, 28, 23, 19, 20, 26, 21, 17, 17, 24, 33, 24, 26, 29, 29, 31, 31, 31, 19, 23, 34, 36, 34, 30, 36, 28, 30, 31,
  30]

def omskQchr : List Nat := [
  5, 5, 5, 7, 6, 7, 14, 8, 8, 14, 30, 20, 17, 20, 30, 30, 30, 30, 30, 30, 30, 30, 30, 30, 30, 30, 30, 30, 30, 30, 30,
  30, 30, 30, 30, 30, 30, 30, 30, 30, 30, 30, 30, 30, 30, 30, 30, 30, 30, 30, 30, 30, 30, 30, 30, 30, 30, 30, 30, 30,
  30, 30, 30, 30]

def omskNbits : List Nat := 0 :: (List.range 12).flatMap fun s => List.replicate (1 <<< s) (s + 1)

/-- What must not happen in the encoder: an `at` outside its vector, an entry of a code table that is no code,
and a bit of `acc` that does not fit. -/
inductive Lapse
  | outside
  | noCode
  | lost
  deriving DecidableEq

def checkedAt {α : Type} (v : List α) (i : Nat) : Except Lapse α := v[i]?.elim (.error .outside) .ok

/-- `out`, `acc` and `cnt` of `omsk_encode` -/
structure Writer where
  out : List Nat
  acc : Nat
  cnt : Nat

def pushByte (out : List Nat) (ob : Nat) : List Nat := if ob = 255 then out ++ [ob] ++ [0] else out ++ [ob]

/-- The loop that writes the whole bytes of `acc`. -/
def flush (out : List Nat) (acc cnt : Nat) : List Nat × Nat :=
  if 8 ≤ cnt then flush (pushByte out ((acc >>> (cnt - 8)) &&& 255)) acc (cnt - 8) else (out, cnt)
termination_by cnt

def emit (size value : Nat) (s : Writer) : Except Lapse Writer :=
  let acc := s.acc <<< size ||| value
  if 2 ^ 63 ≤ acc then .error .lost
  else
    let (out, cnt) := flush s.out acc (s.cnt + size)
    .ok ⟨out, acc &&& ((1 <<< cnt) - 1), cnt⟩

/-- The code at `index`, and `s` bits behind it. -/
def emitCode (codes : List Nat) (index s bits : Nat) (st : Writer) : Except Lapse Writer := do
  let e ← checkedAt codes index
  if e = 0 then .error .noCode
  else emit ((e &&& 31) + s) ((e >>> 5) <<< s ||| bits) st

/-- A difference or a coefficient behind its code, which is at `base` and its bit count. -/
def emitValue (codes : List Nat) (base : Nat) (d : Int) (st : Writer) : Except Lapse Writer := do
  let s ← checkedAt omskNbits d.natAbs
  let bits := if d < 0 then d + (1 <<< s : Nat) - 1 else d
  emitCode codes (base + s) s bits.toNat st

def emitRuns (eac : List Nat) (run : Nat) (st : Writer) : Except Lapse (Nat × Writer) :=
  if 15 < run then do
    let st ← emitCode eac 240 0 0 st
    emitRuns eac (run - 16) st
  else .ok (run, st)
termination_by run

def emitAc (eac : List Nat) : (qs : List Int) → (run : Nat) → Writer → Except Lapse Writer
  | [], run, st => if 0 < run then emitCode eac 0 0 0 st else .ok st
  | q :: qs, run, st =>
    if q = 0 then emitAc eac qs (run + 1) st
    else do
      let (run, st) ← emitRuns eac run st
      let st ← emitValue eac (run * 16) q st
      emitAc eac qs 0 st

def emitBlock (edc eac : List Nat) (pred : Int) : (qs : List Int) → Writer → Except Lapse Writer
  | [], st => .ok st
  | dc :: qs, st => do
    let st ← emitValue edc 0 (dc - pred) st
    emitAc eac qs 0 st

def luma (r g b : Int) : Int := ((19595 * r + 38470 * g + 7471 * b + 32768) >>> (16 : Nat)) - 128

def chromaBlue (r g b : Int) : Int := (0 - 11059 * r - 21709 * g + 32768 * b + 32768) >>> (16 : Nat)

def chromaRed (r g b : Int) : Int := (32768 * r - 27439 * g - 5329 * b + 32768) >>> (16 : Nat)

/-- `py`, `pcb` or `pcr` -/
def encodePlane (channel : (r g b : Int) → Int) (rgb : List UInt8) (n : Nat) : Except Lapse (List Int) :=
  (List.range n).mapM fun i => do
    let r ← checkedAt rgb (3 * i)
    let g ← checkedAt rgb (3 * i + 1)
    let b ← checkedAt rgb (3 * i + 2)
    return channel r.toNat g.toNat b.toNat

def encodeSamples (plane : List Int) (w h bx by_ : Nat) : Except Lapse (List Int) :=
  (List.range 64).mapM fun i =>
    let sy := if h ≤ by_ * 8 + i / 8 then h - 1 else by_ * 8 + i / 8
    let sx := if w ≤ bx * 8 + i % 8 then w - 1 else bx * 8 + i % 8
    checkedAt plane (sy * w + sx)

def dot (f a : Nat → Int) : Int := (List.range 8).foldl (fun sum x => sum + f x * a x) 0

/-- `t[y][u]`, the sum over `x` of `A[u][x] f(x, y)` -/
def dctRows (f : List Int) : List Int :=
  (List.range 64).map fun i => dot (fun x => f.getD (i / 8 * 8 + x) 0) fun x => omskFdct.getD (i % 8 * 8 + x) 0

/-- `F(u, v)`, the sum over `y` of `A[v][y] t[y][u]` -/
def dctColumns (t : List Int) : List Int :=
  (List.range 64).map fun i => dot (fun y => t.getD (y * 8 + i % 8) 0) fun y => omskFdct.getD (i / 8 * 8 + y) 0

def quantize (fv : Int) (rk : Nat) : Int :=
  let qv : Int := ((fv.natAbs * rk + 549755813888) >>> 40 : Nat)
  if fv < 0 then 0 - qv else qv

def encodeCoefs (rq : List Nat) (f : List Int) : List Int :=
  let coef := dctColumns (dctRows f)
  (List.range 64).map fun k => quantize (coef.getD (omskZz.getD k 0) 0) (rq.getD k 0)

def encodeBlock (w h : Nat) (place : Nat × Nat) (plane : List Int × List Nat) : Except Lapse (List Int) := do
  let f ← encodeSamples plane.1 w h place.1 place.2
  return encodeCoefs plane.2 f

def encodeOrder (w h : Nat) : List (Nat × Nat) :=
  (List.range ((h + 7) >>> 3)).flatMap fun by_ => (List.range ((w + 7) >>> 3)).map fun bx => (bx, by_)

/-- The coefficients that `omsk_encode` writes: Y, Cb and Cr for each place. -/
def omskCoefs (rgb : List UInt8) (w h : Nat) : Except Lapse (List (List (List Int))) := do
  let py ← encodePlane luma rgb (w * h)
  let pcb ← encodePlane chromaBlue rgb (w * h)
  let pcr ← encodePlane chromaRed rgb (w * h)
  (encodeOrder w h).mapM fun place => [(py, omskRlum), (pcb, omskRchr), (pcr, omskRchr)].mapM (encodeBlock w h place)

def emitMcu : (tables : List (List Nat × List Nat)) → (preds : List Int) → (blocks : List (List Int)) → Writer → Except Lapse Writer
  | (edc, eac) :: tables, pred :: preds, qs :: blocks, st => do
    let st ← emitBlock edc eac pred qs st
    emitMcu tables preds blocks st
  | _, _, _, st => .ok st

def encoderTables : List (List Nat × List Nat) := [(omskEdcl, omskEacl), (omskEdcc, omskEacc), (omskEdcc, omskEacc)]

def lastDcs (blocks : List (List Int)) : List Int := blocks.map (·.headD 0)

/-- All places, `pred0` to `pred2` being 0 at first. -/
def emitMcus : (preds : List Int) → (mcus : List (List (List Int))) → Writer → Except Lapse Writer
  | _, [], st => .ok st
  | preds, blocks :: mcus, st => do
    let st ← emitMcu encoderTables preds blocks st
    emitMcus (lastDcs blocks) mcus st

def encodeHead : List Nat :=
  [255, 216, 255, 224, 0, 16, 74, 70, 73, 70, 0, 1, 1, 0, 0, 1, 0, 1, 0, 0] ++ omskJhead ++ [255, 192, 0, 17, 8]

def encodeFrame : List Nat := [3, 1, 17, 0, 2, 17, 1, 3, 17, 1] ++ [255, 218, 0, 12, 3, 1, 0, 2, 17, 3, 17, 0, 63, 0]

def finish (st : Writer) : List Nat :=
  if 0 < st.cnt then
    let pad := 8 - st.cnt
    pushByte st.out ((st.acc <<< pad ||| (1 <<< pad) - 1) &&& 255)
  else st.out

/-- `omsk_encode`, which works out the coefficients of a block before it writes it. -/
def omskEncode (rgb : List UInt8) (w h : Nat) : Except Lapse (List UInt8) := do
  let mcus ← omskCoefs rgb w h
  let st ← emitMcus [0, 0, 0] mcus ⟨encodeHead ++ [h >>> 8, h &&& 255, w >>> 8, w &&& 255] ++ encodeFrame, 0, 0⟩
  return (finish st ++ [255] ++ [217]).map UInt8.ofNat

/-- `p`, `bb`, `bc` and `marker` of `omsk_jpeg_scan`; `bc` has the bits that the caller takes. -/
structure BitState where
  p : Nat
  bb : Nat
  bc : Nat
  marker : Bool

def BitState.feed (s : BitState) (x : Nat) : BitState :=
  { s with bb := (s.bb &&& 4294967295) <<< 8 ||| x, bc := s.bc + 8 }

/-- One turn of the loop that fills `bb`. -/
def fillTurn (v : List UInt8) (s : BitState) : Except Fault BitState :=
  if s.marker = false ∧ s.p < v.length then do
    let x ← byteAt v s.p
    if x = 255 then do
      let x2 ← byteAt v (s.p + 1)
      if x2 = 0 then return { s.feed x with p := s.p + 2 }
      else return { s.feed 0 with marker := true }
    else return { s.feed x with p := s.p + 1 }
  else return s.feed 0

/-- The loop that fills `bb`: five turns do for any `bc`. -/
def fill (v : List UInt8) : (turns : Nat) → BitState → Except Fault BitState
  | 0, s => return s
  | turns + 1, s =>
    if s.bc ≤ 32 then do
      let s ← fillTurn v s
      fill v turns s
    else return s

def longCode (t : Huffman) : (turns l code : Nat) → BitState → Except Fault (Nat × BitState)
  | 0, _, _, _ => .error (.fail "bad code in the JPEG image data")
  | turns + 1, l, code, s => do
    let bc := s.bc - 1
    let code := code <<< 1 ||| ((s.bb >>> bc) &&& 1)
    let f ← itemAt t.first l
    let tcn ← itemAt t.cnt l
    if f ≤ code ∧ code - f < tcn then do
      let o ← itemAt t.offs l
      let sym ← itemAt t.sorted (o + (code - f))
      return (sym, { s with bc })
    else longCode t turns (l + 1) code { s with bc }

def readSymbol (t : Huffman) (s : BitState) : Except Fault (Nat × BitState) := do
  let e ← itemAt t.tab ((s.bb >>> (s.bc - 10)) &&& 1023)
  if 0 < e then return (e >>> 5, { s with bc := s.bc - (e &&& 31) })
  else longCode t 6 11 ((s.bb >>> (s.bc - 10)) &&& 1023) { s with bc := s.bc - 10 }

/-- The `n` bits of a value, and what they stand for. -/
def readValue (n : Nat) (s : BitState) : Int × BitState :=
  let val := (s.bb >>> (s.bc - n)) &&& ((1 <<< n) - 1)
  (if val < 1 <<< (n - 1) then (val : Int) - (1 <<< n : Nat) + 1 else val, { s with bc := s.bc - n })

def padTo (n : Nat) (blk : List Int) : List Int := blk ++ List.replicate (n - blk.length) 0

def pushCoefficient (q : List Nat) (cn kmax kk : Nat) (val : Int) (blk : List Int) : Except Fault (List Int) :=
  if kk ≤ kmax ∧ 1 < cn then do
    let qk ← itemAt q kk
    return padTo kk blk ++ [val * qk]
  else return blk

def readAc (v : List UInt8) (act : Huffman) (q : List Nat) (cn kmax : Nat) :
    (turns kk : Nat) → (blk : List Int) → BitState → Except Fault (Nat × List Int × BitState)
  | 0, kk, blk, s => return (kk, blk, s)
  | turns + 1, kk, blk, s =>
    if kk < 64 then do
      let s ← fill v 5 s
      let (sym, s) ← readSymbol act s
      let run := sym >>> 4
      let n := sym &&& 15
      if n = 0 then
        if run ≠ 15 then return (kk, blk, s)
        else readAc v act q cn kmax turns (kk + 16) blk s
      else do
        let kk := kk + run
        let value := readValue n s
        let blk ← pushCoefficient q cn kmax kk value.1 blk
        readAc v act q cn kmax turns (kk + 1) blk value.2
    else return (kk, blk, s)

/-- The coefficients of a block, each times its quantiser: the first of them, and where the scale
needs more of them, those up to `kmax`. -/
structure Coefficients where
  dc : Int
  blk : List Int
  deriving DecidableEq

def readBlock (v : List UInt8) (dct act : Huffman) (q : List Nat) (cn kmax : Nat) (pred : Int) (s : BitState) :
    Except Fault (Int × Coefficients × BitState) := do
  let s ← fill v 5 s
  let (n, s) ← readSymbol dct s
  let value := if 0 < n then readValue n s else (0, s)
  let pred := pred + value.1
  let qk ← itemAt q 0
  let dc := pred * qk
  let (kk, blk, s) ← readAc v act q cn kmax 64 1 (if 1 < cn then [dc] else []) value.2
  if 64 < kk then .error (.fail "bad JPEG block")
  else return (pred, ⟨dc, if cn = 1 then [] else padTo (kmax + 1) blk⟩, s)

structure Component where
  nb : Nat
  dct : Huffman
  act : Huffman
  q : List Nat
  cn : Nat
  kmax : Nat

def readBlocks (v : List UInt8) (c : Component) : (nb : Nat) → (pred : Int) → BitState → Except Fault (Int × List Coefficients × BitState)
  | 0, pred, s => return (pred, [], s)
  | nb + 1, pred, s => do
    let (pred, block, s) ← readBlock v c.dct c.act c.q c.cn c.kmax pred s
    let (pred, blocks, s) ← readBlocks v c nb pred s
    return (pred, block :: blocks, s)

/-- The components of an MCU, each with its `pred`. -/
def readMcu (v : List UInt8) : (cs : List Component) → (preds : List Int) → BitState → Except Fault
    (List Int × List (List Coefficients) × BitState)
  | c :: cs, pred :: preds, s => do
    let (pred, blocks, s) ← readBlocks v c c.nb pred s
    let (preds, rest, s) ← readMcu v cs preds s
    return (pred :: preds, blocks :: rest, s)
  | _, _, s => return ([], [], s)

def restart (v : List UInt8) : (turns p : Nat) → Except Fault Nat
  | 0, p => return p
  | turns + 1, p =>
    if p + 1 < v.length then do
      let a ← byteAt v p
      let b ← byteAt v (p + 1)
      if a = 255 ∧ 208 ≤ b ∧ b ≤ 215 then return p + 2
      else restart v turns (p + 1)
    else return p

def restartMcu (v : List UInt8) (ri left : Nat) (preds : List Int) (s : BitState) : Except Fault (Nat × List Int × BitState) :=
  if 0 < ri ∧ left = 0 then do
    let p ← restart v v.length s.p
    return (ri, [0, 0, 0], ⟨p, 0, 0, false⟩)
  else return (left, preds, s)

/-- The MCUs; `left` of them come before the next restart. -/
def readMcus (v : List UInt8) (cs : List Component) (ri : Nat) :
    (mcus left : Nat) → (preds : List Int) → BitState → Except Fault (List (List (List Coefficients)) × BitState)
  | 0, _, _, s => return ([], s)
  | mcus + 1, left, preds, s => do
    let (left, preds, s) ← restartMcu v ri left preds s
    let (preds, blocks, s) ← readMcu v cs preds s
    let (rest, s) ← readMcus v cs ri mcus (left - 1) preds s
    return (blocks :: rest, s)

def component (f : Scan) (cn kmax c : Nat) : Except Fault Component := do
  let hs ← itemAt f.chs c
  let vs ← itemAt f.cvs c
  let dct ← itemAt f.sdc c
  let act ← itemAt f.sac c
  let q ← itemAt f.sq c
  match dct, act, q with
  | some dct, some act, some q => return ⟨hs * vs, dct, act, q, cn, kmax⟩
  | _, _, _ => .error .outside

/-- The coefficients that `omsk_jpeg_scan` reads; `cn` and `kmax` are what each component's scale needs. -/
def readScan (v : List UInt8) (f : Scan) (cn kmax : Nat → Nat) : Except Fault (List (List (List Coefficients)) × BitState) := do
  let mcux := if f.nc = 1 then (f.w + 7) >>> 3 else omskIdiv (f.w + 8 * f.hmax - 1) (8 * f.hmax)
  let mcuy := if f.nc = 1 then (f.h + 7) >>> 3 else omskIdiv (f.h + 8 * f.vmax - 1) (8 * f.vmax)
  let cs ← (List.range f.nc).mapM fun c => component f (cn c) (kmax c) c
  readMcus v cs f.ri (mcux * mcuy) f.ri [0, 0, 0] ⟨f.p, 0, 0, false⟩

end Ussr.Omsk
