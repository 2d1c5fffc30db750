import Ussr.Strings

/-! Omsk: what a picture's headers say before its pixels are decoded. The pixels themselves are left
to the caller. -/

namespace Ussr.Omsk

/-- How a call ends without a value: an `at` outside its vector stops the program, `omsk_fail` gives null. -/
inductive Fault
  | outside
  | fail (why : String)
  deriving DecidableEq

/-- `at` -/
def itemAt {α : Type} (v : List α) (i : Nat) : Except Fault α := v[i]?.elim (.error .outside) .ok

def byteAt (v : List UInt8) (p : Nat) : Except Fault Nat := (itemAt v p).map UInt8.toNat

def omskU16 (v : List UInt8) (p : Nat) : Except Fault Nat := do
  let a ← byteAt v p
  let b ← byteAt v (p + 1)
  return a <<< 8 ||| b

def omskU32 (v : List UInt8) (p : Nat) : Except Fault Nat := do
  let a ← byteAt v p
  let b ← byteAt v (p + 1)
  let c ← byteAt v (p + 2)
  let d ← byteAt v (p + 3)
  return a <<< 24 ||| b <<< 16 ||| c <<< 8 ||| d

/-- The loops that copy `l` bytes from `q` on. -/
def copyBytes (v : List UInt8) (q l : Nat) : Except Fault (List Nat) := (List.range l).mapM fun i => byteAt v (q + i)

inductive Kind
  | png
  | jpeg
  deriving DecidableEq

structure Info where
  kind : Kind
  w : Nat
  h : Nat
  deriving DecidableEq

def isFrame (m : Nat) : Bool := 192 ≤ m && m ≤ 207 && m != 196 && m != 200 && m != 204

/-- The loop of `omsk_info`. Each turn steps on, so that there are fewer turns than bytes. -/
def infoLoop (v : List UInt8) : (turns p : Nat) → Except Fault (Option Info)
  | 0, _ => return none
  | turns + 1, p =>
    if p + 9 < v.length then do
      let a ← byteAt v p
      let m ← byteAt v (p + 1)
      if a ≠ 255 then return none
      else if m = 255 then infoLoop v turns (p + 1)
      else if isFrame m then
        let h ← omskU16 v (p + 5)
        let w ← omskU16 v (p + 7)
        return some ⟨.jpeg, w, h⟩
      else
        let l ← omskU16 v (p + 2)
        infoLoop v turns (p + 2 + l)
    else return none

def omskInfo (v : List UInt8) : Except Fault (Option Info) :=
  if v.length < 24 then return none
  else do
    let a ← byteAt v 0
    let b ← byteAt v 1
    if a = 137 ∧ b = 80 then
      let w ← omskU32 v 16
      let h ← omskU32 v 20
      return some ⟨.png, w, h⟩
    else if a ≠ 255 ∨ b ≠ 216 then return none
    else infoLoop v v.length 2

/-- The shorter side `a` where the longer one, `b`, becomes `side`. -/
def fitShorter (a b : Nat) (side : BitVec 64) : Int :=
  (strTrunc (((Number.integer (BitVec.ofNat 64 a * side)).div (.integer (BitVec.ofNat 64 b))).add
    (.real (BitVec.ofNat 64 (Real64.ofRatio 1 2))))).toInt

def omskFit (w h : Nat) (side : BitVec 64) : Int × Int :=
  let (tw, th) : Int × Int :=
    if side.toInt < w ∨ side.toInt < h then
      if h ≤ w then (side.toInt, fitShorter h w side) else (fitShorter w h side, side.toInt)
    else (w, h)
  (if tw < 1 then 1 else tw, if th < 1 then 1 else th)

structure Png where
  w : Nat
  h : Nat
  depth : Nat
  ctype : Nat
  interlace : Nat
  plte : Option (List Nat)
  trns : List Nat
  idat : List Nat
  deriving DecidableEq

/-- One chunk, its `l` bytes from `q` on. -/
def pngChunk (v : List UInt8) (type q l : Nat) (s : Png) : Except Fault Png :=
  if type = 1229472850 then do
    let w ← omskU32 v q
    let h ← omskU32 v (q + 4)
    let depth ← byteAt v (q + 8)
    let ctype ← byteAt v (q + 9)
    let interlace ← byteAt v (q + 12)
    return { s with w, h, depth, ctype, interlace }
  else if type = 1347179589 then do
    let plte ← copyBytes v q l
    return { s with plte := some plte }
  else if type = 1951551059 then do
    let trns ← copyBytes v q l
    return { s with trns }
  else if type = 1229209940 then do
    let idat ← copyBytes v q l
    return { s with idat := s.idat ++ idat }
  else return s

/-- The loop of `omsk_png` over the chunks. -/
def pngLoop (v : List UInt8) : (turns p : Nat) → Png → Except Fault Png
  | 0, _, s => return s
  | turns + 1, p, s =>
    if p + 12 ≤ v.length then do
      let l ← omskU32 v p
      let type ← omskU32 v (p + 4)
      let q := p + 8
      if v.length < q + l + 4 then .error (.fail "the PNG is cut short")
      else if type = 1229278788 then return s
      else
        let s ← pngChunk v type q l s
        pngLoop v turns (q + l + 4) s
    else return s

def pngChannels (ctype depth : Nat) : Nat :=
  if ctype = 0 ∧ (depth = 1 ∨ depth = 2 ∨ depth = 4 ∨ depth = 8 ∨ depth = 16) then 1
  else if ctype = 2 ∧ (depth = 8 ∨ depth = 16) then 3
  else if ctype = 3 ∧ (depth = 1 ∨ depth = 2 ∨ depth = 4 ∨ depth = 8) then 1
  else if ctype = 4 ∧ (depth = 8 ∨ depth = 16) then 2
  else if ctype = 6 ∧ (depth = 8 ∨ depth = 16) then 4
  else 0

/-- `omsk_png` up to the call of `omsk_inflate`. -/
def omskPngHead (v : List UInt8) : Except Fault Png := do
  let sig ← copyBytes v 0 8
  if sig ≠ [137, 80, 78, 71, 13, 10, 26, 10] then .error (.fail "not a PNG image")
  else
    let s ← pngLoop v v.length 8 ⟨0, 0, 0, 0, 0, none, [], []⟩
    if s.w = 0 then .error (.fail "the PNG has no header")
    else if s.interlace ≠ 0 then .error (.fail "interlaced PNG is not supported")
    else if pngChannels s.ctype s.depth = 0 then .error (.fail "unknown PNG colour type or depth")
    else if s.ctype = 3 ∧ s.plte = none then .error (.fail "the PNG has no palette")
    else return s

/-- `[tab first offs sorted cnt]` -/
structure Huffman where
  tab : List Nat
  first : List Nat
  offs : List Nat
  sorted : List Nat
  cnt : List Nat
  deriving DecidableEq

/-- `omsk_huff_build`: the entries of the codes of length `l`, the first of them at `k`. -/
def huffEntries (cnt sorted : List Nat) : (lengths l k : Nat) → Except Fault (List Nat)
  | 0, _, _ => return []
  | lengths + 1, l, k => do
    let n ← itemAt cnt l
    let entries ← (List.range n).mapM fun i => do
      let sym ← itemAt sorted (k + i)
      return List.replicate (1 <<< (10 - l)) (sym * 32 + l)
    let rest ← huffEntries cnt sorted lengths (l + 1) (k + n)
    return entries.flatten ++ rest

def huffFirst (cnt : List Nat) : (lengths l code idx : Nat) → Except Fault (List Nat × List Nat)
  | 0, _, _, _ => return ([], [])
  | lengths + 1, l, code, idx => do
    let n ← itemAt cnt l
    let (first, offs) ← huffFirst cnt lengths (l + 1) ((code + n) <<< 1) (idx + n)
    return (code :: first, idx :: offs)

def omskHuffBuild (cnt sorted : List Nat) : Except Fault (Option Huffman) := do
  let tab ← huffEntries cnt sorted 10 1 0
  if 1024 < tab.length then return none
  else
    let (first, offs) ← huffFirst cnt 17 0 0 0
    return some ⟨tab ++ List.replicate (1024 - tab.length) 0, first, offs, sorted, cnt⟩

structure Jpeg where
  qt : List (Option (List Nat))
  hdc : List (Option Huffman)
  hac : List (Option Huffman)
  ri : Nat
  w : Nat
  h : Nat
  nc : Nat
  cid : List Nat
  chs : List Nat
  cvs : List Nat
  ctq : List Nat
  hmax : Nat
  vmax : Nat
  deriving DecidableEq

def dqtValues (v : List UInt8) (pq q : Nat) : Except Fault (List Nat) :=
  (List.range 64).mapM fun k => if pq = 0 then byteAt v (q + k) else omskU16 v (q + 2 * k)

def dqtLoop (v : List UInt8) (se : Nat) : (turns q : Nat) → List (Option (List Nat)) → Except Fault (List (Option (List Nat)))
  | 0, _, qt => return qt
  | turns + 1, q, qt =>
    if q < se then do
      let b ← byteAt v q
      let t ← dqtValues v (b >>> 4) (q + 1)
      dqtLoop v se turns (q + 1 + if b >>> 4 = 0 then 64 else 128) (qt.set (b &&& 3) (some t))
    else return qt

def dhtLoop (v : List UInt8) (se : Nat) :
    (turns q : Nat) → (hdc hac : List (Option Huffman)) → Except Fault (List (Option Huffman) × List (Option Huffman))
  | 0, _, hdc, hac => return (hdc, hac)
  | turns + 1, q, hdc, hac =>
    if q < se then do
      let b ← byteAt v q
      let cnt ← copyBytes v (q + 1) 16
      let vals ← copyBytes v (q + 17) cnt.sum
      let t ← omskHuffBuild (0 :: cnt) vals
      if t = none then .error (.fail "bad JPEG Huffman table")
      else if b >>> 4 = 0 then dhtLoop v se turns (q + 17 + cnt.sum) (hdc.set (b &&& 3) t) hac
      else dhtLoop v se turns (q + 17 + cnt.sum) hdc (hac.set (b &&& 3) t)
    else return (hdc, hac)

/-- One component of SOF0 or SOF1, the `k`-th. -/
def frameComponent (v : List UInt8) (q k : Nat) (s : Jpeg) : Except Fault Jpeg := do
  let o := q + 6 + k * 3
  let id ← byteAt v o
  let x ← byteAt v (o + 1)
  let hs := x >>> 4
  let vs := x &&& 15
  if (hs ≠ 1 ∧ hs ≠ 2 ∧ hs ≠ 4) ∨ (vs ≠ 1 ∧ vs ≠ 2 ∧ vs ≠ 4) then .error (.fail "unsupported JPEG sampling")
  else
    let tq ← byteAt v (o + 2)
    return { s with cid := s.cid ++ [id], chs := s.chs ++ [hs], cvs := s.cvs ++ [vs], ctq := s.ctq ++ [tq &&& 3],
                    hmax := max s.hmax hs, vmax := max s.vmax vs }

def frameHeader (v : List UInt8) (q : Nat) (s : Jpeg) : Except Fault Jpeg := do
  let prec ← byteAt v q
  let h ← omskU16 v (q + 1)
  let w ← omskU16 v (q + 3)
  let nc ← byteAt v (q + 5)
  if prec ≠ 8 ∨ (nc ≠ 1 ∧ nc ≠ 3) then .error (.fail "only 8-bit greyscale or colour JPEG is supported")
  else
    (List.range nc).foldlM (fun s k => frameComponent v q k s)
      { s with w, h, nc, cid := [], chs := [], cvs := [], ctq := [], hmax := 1, vmax := 1 }

/-- What `omsk_jpeg_scan` is called with, the thumbnail's size apart. -/
structure Scan where
  p : Nat
  w : Nat
  h : Nat
  nc : Nat
  chs : List Nat
  cvs : List Nat
  hmax : Nat
  vmax : Nat
  sdc : List (Option Huffman)
  sac : List (Option Huffman)
  sq : List (Option (List Nat))
  ri : Nat
  deriving DecidableEq

/-- The tables of the `k`-th component of a scan. -/
def scanComponent (v : List UInt8) (q k : Nat) (s : Jpeg) :
    Except Fault (Option Huffman × Option Huffman × Option (List Nat)) := do
  let id ← byteAt v (q + 1 + k * 2)
  let x ← byteAt v (q + 2 + k * 2)
  let want ← itemAt s.cid k
  if id ≠ want then .error (.fail "the JPEG scan does not match its frame")
  else
    let dc ← itemAt s.hdc (x >>> 4 &&& 3)
    let ac ← itemAt s.hac (x &&& 3)
    let tq ← itemAt s.ctq k
    let t ← itemAt s.qt tq
    return (dc, ac, t)

def scanHeader (v : List UInt8) (q se : Nat) (s : Jpeg) : Except Fault Scan :=
  if s.nc = 0 then .error (.fail "the JPEG has no frame header")
  else do
    let ns ← byteAt v q
    if ns ≠ s.nc then .error (.fail "JPEG with several scans is not supported")
    else
      let tables ← (List.range ns).mapM fun k => scanComponent v q k s
      if tables.any fun t => t.1 = none || t.2.1 = none || t.2.2 = none then
        .error (.fail "the JPEG lacks a table its scan uses")
      else
        let scan : Scan := ⟨se, s.w, s.h, s.nc, s.chs, s.cvs, s.hmax, s.vmax, tables.map (·.1), tables.map (·.2.1),
          tables.map (·.2.2), s.ri⟩
        return if s.nc = 1 then { scan with chs := [1], cvs := [1], hmax := 1, vmax := 1 } else scan

def jpegSegment (v : List UInt8) (m q se : Nat) (s : Jpeg) : Except Fault Jpeg :=
  if m = 219 then do
    let qt ← dqtLoop v se se q s.qt
    return { s with qt }
  else if m = 196 then do
    let (hdc, hac) ← dhtLoop v se se q s.hdc s.hac
    return { s with hdc, hac }
  else if m = 192 ∨ m = 193 then frameHeader v q s
  else if isFrame m then .error (.fail "progressive or arithmetic JPEG is not supported")
  else if m = 221 then do
    let ri ← omskU16 v q
    return { s with ri }
  else return s

/-- The loop of `omsk_jpeg` over the segments. -/
def jpegLoop (v : List UInt8) : (turns p : Nat) → Jpeg → Except Fault Scan
  | 0, _, _ => .error (.fail "the JPEG is cut short")
  | turns + 1, p, s =>
    if v.length < p + 4 then .error (.fail "the JPEG is cut short")
    else do
      let a ← byteAt v p
      let m ← byteAt v (p + 1)
      if a ≠ 255 then .error (.fail "bad JPEG marker")
      else if m = 255 then jpegLoop v turns (p + 1) s
      else if m = 217 then .error (.fail "the JPEG has no image data")
      else
        let l ← omskU16 v (p + 2)
        let se := p + 2 + l
        if v.length < se then .error (.fail "the JPEG is cut short")
        else if m = 218 then scanHeader v (p + 4) se s
        else
          let s ← jpegSegment v m (p + 4) se s
          jpegLoop v turns se s

/-- `omsk_jpeg` up to the call of `omsk_jpeg_scan`. -/
def omskJpegHead (v : List UInt8) : Except Fault Scan :=
  jpegLoop v v.length 2 ⟨List.replicate 4 none, List.replicate 4 none, List.replicate 4 none, 0, 0, 0, 0, [], [], [], [], 1, 1⟩

inductive Picture
  | png (s : Png)
  | jpeg (s : Scan)
  deriving DecidableEq

def Picture.w : Picture → Nat
  | png s => s.w
  | jpeg s => s.w

def Picture.h : Picture → Nat
  | png s => s.h
  | jpeg s => s.h

structure Decode where
  info : Info
  picture : Picture
  tw : Int
  th : Int
  deriving DecidableEq

/-- `omsk_thumb` up to where the pixels are decoded; `maxPixels` is the global `omsk_max_pixels`. -/
def omskDecode (maxPixels : Int) (v : List UInt8) (side : BitVec 64) : Except Fault Decode := do
  let info ← omskInfo v
  info.elim (.error (.fail "not a PNG or JPEG image")) fun info =>
    if info.w < 1 ∨ info.h < 1 ∨ 65535 < info.w ∨ 65535 < info.h ∨ maxPixels < (info.w * info.h : Nat) then
      .error (.fail "the picture is empty or too large")
    else
      let (tw, th) := omskFit info.w info.h (if side.toInt < 1 then 1 else side)
      match info.kind with
      | .png => (omskPngHead v).map fun s => ⟨info, .png s, tw, th⟩
      | .jpeg => (omskJpegHead v).map fun s => ⟨info, .jpeg s, tw, th⟩

/-- `[w h tw th jpeg]` -/
structure Thumb where
  w : Nat
  h : Nat
  tw : Int
  th : Int
  jpeg : List UInt8

/-- `omsk_thumb`, by what the decoders make of the pixels and `omsk_encode` of the thumbnail. -/
def omskThumb {Rgb : Type} (pixels : Picture → (tw th : Int) → Except Fault Rgb)
    (encode : Rgb → (tw th : Int) → Except Fault (List UInt8)) (maxPixels : Int) (v : List UInt8) (side : BitVec 64) :
    Except Fault Thumb := do
  let d ← omskDecode maxPixels v side
  let rgb ← pixels d.picture d.tw d.th
  let jpeg ← encode rgb d.tw d.th
  return ⟨d.info.w, d.info.h, d.tw, d.th, jpeg⟩

end Ussr.Omsk
