import Ussr.Omsk.Headers
import Ussr.Truncation

/-! Where the scan of a JPEG puts the samples of its components, and where the thumbnail looks for
them. The values of the samples are left to the caller. -/

namespace Ussr.Omsk

variable {a b c nb cn factor : Nat} {α : Type}

def omskIdiv (a b : Nat) : Nat :=
  (strTrunc ((Number.integer (BitVec.ofNat 64 a)).div (.integer (BitVec.ofNat 64 b)))).toNat

/-- What `omsk_axis` returns. -/
structure Axis where
  off : List Nat
  cnt : List Nat
  pos : List Nat

/-- The samples of a thumbnail pixel that has the source from `a` to `b`. -/
def axisPixel (S a b : Nat) (r : Axis) : Axis :=
  let span := if b - a < 1 then 1 else b - a
  let k := if 4 < span then 4 else span
  ⟨r.off ++ [r.pos.length], r.cnt ++ [k], r.pos ++ (List.range k).map fun j =>
    let x := a + omskIdiv ((2 * j + 1) * span) (2 * k)
    if S ≤ x then S - 1 else x⟩

def axisLoop (S T : Nat) : (turns o a : Nat) → Axis → Axis
  | 0, _, _, r => r
  | turns + 1, o, a, r => axisLoop S T turns (o + 1) (omskIdiv ((o + 1) * S) T) (axisPixel S a (omskIdiv ((o + 1) * S) T) r)

def omskAxis (S T : Nat) : Axis := axisLoop S T T 0 0 ⟨[], [], []⟩

theorem omskIdiv_eq (hb : 0 < b) (hsmall : 2 * (a + b) ≤ 2 ^ 51) : omskIdiv a b = a / b := by
  have hquotient : a / b ≤ a := Nat.div_le_self a b
  rw [omskIdiv, strTrunc_div hb hsmall, BitVec.toNat_ofNat]
  exact Nat.mod_eq_of_lt (by omega)

theorem axisLoop_pos_lt {S T : Nat} (hS : 0 < S) (turns o a : Nat) {r : Axis} (hr : ∀ x ∈ r.pos, x < S) :
    ∀ x ∈ (axisLoop S T turns o a r).pos, x < S := by
  induction turns generalizing o a r with
  | zero => exact hr
  | succ turns ih =>
    refine ih (o + 1) _ fun x hx => ?_
    obtain hx | hx := List.mem_append.mp hx
    · exact hr x hx
    · have hinside (x : Nat) : (if S ≤ x then S - 1 else x) < S := by
        split <;> omega
      obtain ⟨j, _, rfl⟩ := List.mem_map.mp hx
      exact hinside _

theorem omskAxis_pos_lt {S T : Nat} (hS : 0 < S) : ∀ x ∈ (omskAxis S T).pos, x < S :=
  axisLoop_pos_lt hS T 0 0 fun _ hx => absurd hx List.not_mem_nil

structure Factors where
  hs : Nat
  vs : Nat
  hs_factor : hs = 1 ∨ hs = 2 ∨ hs = 4
  vs_factor : vs = 1 ∨ vs = 2 ∨ vs = 4

theorem Factors.hs_pos (p : Factors) : 0 < p.hs := by
  have h := p.hs_factor
  omega

theorem Factors.vs_pos (p : Factors) : 0 < p.vs := by
  have h := p.vs_factor
  omega

structure Frame where
  w : Nat
  h : Nat
  parts : List Factors
  count : parts.length = 1 ∨ parts.length = 3
  w_size : 0 < w ∧ w ≤ 65535
  h_size : 0 < h ∧ h ≤ 65535

def Frame.scanned (f : Frame) : List Factors :=
  if f.parts.length = 1 then [⟨1, 1, .inl rfl, .inl rfl⟩] else f.parts

def Frame.hmax (f : Frame) : Nat := f.scanned.foldl (fun m p => if m < p.hs then p.hs else m) 1

def Frame.vmax (f : Frame) : Nat := f.scanned.foldl (fun m p => if m < p.vs then p.vs else m) 1

/-- The loop that chooses `N` for a thumbnail. -/
def scaleLoop (w h tw th : Nat) : (turns nn : Nat) → Nat
  | 0, nn => nn
  | turns + 1, nn =>
    if nn < 8 ∧ ((w * nn + 7) >>> 3 < tw ∨ (h * nn + 7) >>> 3 < th) then scaleLoop w h tw th turns (nn * 2) else nn

def Frame.scale (f : Frame) (tw th : Nat) : Nat := scaleLoop f.w f.h tw th 8 1

/-- `logn` -/
def scaleLog (nn : Nat) : Nat := if nn = 2 then 1 else if nn = 4 then 2 else if nn = 8 then 3 else 0

/-- `e`, by which colour keeps its resolution. -/
def Frame.ext (f : Frame) (nn : Nat) (p : Factors) : Nat :=
  if p.hs < f.hmax ∧ p.vs < f.vmax ∧ nn < 8 then
    if 4 * p.hs ≤ f.hmax ∧ 4 * p.vs ≤ f.vmax ∧ nn < 4 then 2 else 1
  else 0

/-- `cn` -/
def Frame.side (f : Frame) (nn : Nat) (p : Factors) : Nat := nn <<< f.ext nn p

def Frame.mcux (f : Frame) : Nat :=
  if f.parts.length = 1 then (f.w + 7) >>> 3 else omskIdiv (f.w + 8 * f.hmax - 1) (8 * f.hmax)

def Frame.mcuy (f : Frame) : Nat :=
  if f.parts.length = 1 then (f.h + 7) >>> 3 else omskIdiv (f.h + 8 * f.vmax - 1) (8 * f.vmax)

/-- `shx` and `shy` before `e` is taken off. -/
def shift (most factor : Nat) : Nat := if factor < most then if most = 4 * factor then 2 else 1 else 0

/-- `lhs` and `lvs` -/
def factorLog (factor : Nat) : Nat := if factor = 2 then 1 else if factor = 4 then 2 else 0

def Frame.columnPart (f : Frame) (nn : Nat) (p : Factors) (sx : Nat) : Nat :=
  let cn := f.side nn p
  let px := sx >>> (shift f.hmax p.hs - f.ext nn p)
  let bx := px >>> (scaleLog nn + f.ext nn p)
  (bx >>> factorLog p.hs) * (p.hs * p.vs * (cn * cn)) + (bx &&& (p.hs - 1)) * (cn * cn) + (px &&& (cn - 1))

def Frame.rowPart (f : Frame) (nn : Nat) (p : Factors) (sy : Nat) : Nat :=
  let cn := f.side nn p
  let py := sy >>> (shift f.vmax p.vs - f.ext nn p)
  let by_ := py >>> (scaleLog nn + f.ext nn p)
  (by_ >>> factorLog p.vs) * f.mcux * (p.hs * p.vs * (cn * cn)) + (by_ &&& (p.vs - 1)) * p.hs * (cn * cn) +
    (py &&& (cn - 1)) * cn

section

variable {β : Type}
variable {p : Factors} {nn n most : Nat}

def pushBlock (cn : Nat) (pixel : (yy xx : Nat) → β) (pl : List β) : List β :=
  (List.range cn).foldl (fun pl yy => (List.range cn).foldl (fun pl xx => pl ++ [pixel yy xx]) pl) pl

def pushBlocks (nb cn : Nat) (pixel : (bi yy xx : Nat) → β) (pl : List β) : List β :=
  (List.range nb).foldl (fun pl bi => pushBlock cn (pixel bi) pl) pl

def pushMcu (parts : List (Nat × Nat)) (pixel : (c bi yy xx : Nat) → β) (planes : List (List β)) : List (List β) :=
  (List.range parts.length).foldl (fun planes c =>
    planes.modify c (pushBlocks (parts.getD c (0, 0)).1 (parts.getD c (0, 0)).2 (pixel c))) planes

/-- The decode loop of `omsk_jpeg_scan`, when no block fails; `pixel` is what it computes for a
component, an MCU and a block there. -/
def Frame.decodeLoop (f : Frame) (nn : Nat) (pixel : (c mi bi yy xx : Nat) → β) : List (List β) :=
  (List.range (f.mcux * f.mcuy)).foldl (fun planes mi =>
    pushMcu (f.scanned.map fun p => (p.hs * p.vs, f.side nn p)) (fun c => pixel c mi) planes)
    (List.replicate f.scanned.length [])

theorem foldl_push (g : α → List β) (as : List α) (pl : List β) :
    as.foldl (fun pl a => pl ++ g a) pl = pl ++ as.flatMap g := by
  induction as generalizing pl with
  | nil => simp
  | cons a as ih => rw [List.foldl_cons, ih, List.flatMap_cons, List.append_assoc]

theorem pushBlock_eq (cn : Nat) (pixel : (yy xx : Nat) → β) (pl : List β) : pushBlock cn pixel pl =
    pl ++ (List.range cn).flatMap fun yy => (List.range cn).flatMap fun xx => [pixel yy xx] := by
  simp only [pushBlock, foldl_push]

theorem pushBlocks_eq (nb cn : Nat) (pixel : (bi yy xx : Nat) → β) (pl : List β) : pushBlocks nb cn pixel pl =
    pl ++ (List.range nb).flatMap fun bi => (List.range cn).flatMap fun yy => (List.range cn).flatMap fun xx =>
      [pixel bi yy xx] := by
  simp only [pushBlocks, pushBlock_eq, foldl_push]

theorem foldl_modify (g : Nat → α → α) (n c : Nat) (as : List α) :
    ((List.range n).foldl (fun as i => as.modify i (g i)) as)[c]? = (as[c]?).map (if c < n then g c else id) := by
  induction n with
  | zero => simp
  | succ n ih =>
    rw [List.range_succ, List.foldl_append, List.foldl_cons, List.foldl_nil, List.getElem?_modify, ih]
    obtain hlt | rfl | hgt := Nat.lt_trichotomy c n
    · rw [if_pos hlt, if_pos (by omega)]
      simp only [if_neg hlt.ne']
      exact congrFun Option.map_id _
    · rw [if_neg (Nat.lt_irrefl c), if_pos (Nat.lt_succ_self c), Option.map_id]
      simp only [if_true]
      rfl
    · rw [if_neg (by omega), if_neg (by omega), Option.map_id]
      simp only [if_neg hgt.ne]
      exact congrFun Option.map_id _

theorem pushMcu_get {parts : List (Nat × Nat)} (h : parts[c]? = some (nb, cn))
    (pixel : (c bi yy xx : Nat) → β) (planes : List (List β)) :
    (pushMcu parts pixel planes)[c]? = (planes[c]?).map (pushBlocks nb cn (pixel c)) := by
  have hc : c < parts.length := (List.getElem?_eq_some_iff.mp h).1
  rw [pushMcu, foldl_modify, if_pos hc, List.getD_eq_getElem?_getD, h]
  rfl

def planeOf (mcus nb cn : Nat) (pixel : (mi bi yy xx : Nat) → β) : List β :=
  (List.range mcus).flatMap fun mi => (List.range nb).flatMap fun bi => (List.range cn).flatMap fun yy =>
    (List.range cn).flatMap fun xx => [pixel mi bi yy xx]

theorem foldl_pushMcu {parts : List (Nat × Nat)} (h : parts[c]? = some (nb, cn))
    (pixel : (c mi bi yy xx : Nat) → β) (mcus : Nat) :
    ((List.range mcus).foldl (fun planes mi => pushMcu parts (fun c => pixel c mi) planes)
      (List.replicate parts.length []))[c]? = some (planeOf mcus nb cn (pixel c)) := by
  have hc : c < parts.length := (List.getElem?_eq_some_iff.mp h).1
  induction mcus with
  | zero => exact List.getElem?_replicate_of_lt hc
  | succ mcus ih =>
    rw [List.range_succ, List.foldl_append, List.foldl_cons, List.foldl_nil, pushMcu_get h, ih, Option.map_some, pushBlocks_eq,
      planeOf, planeOf, List.range_succ, List.flatMap_append, List.flatMap_singleton]

theorem decodeLoop_get (f : Frame) (nn : Nat) (pixel : (c mi bi yy xx : Nat) → β)
    (h : f.scanned[c]? = some p) :
    (f.decodeLoop nn pixel)[c]? = some (planeOf (f.mcux * f.mcuy) (p.hs * p.vs) (f.side nn p) (pixel c)) := by
  have hpart : (f.scanned.map fun p => (p.hs * p.vs, f.side nn p))[c]? = some (p.hs * p.vs, f.side nn p) := by
    rw [List.getElem?_map, h]
    rfl
  rw [Frame.decodeLoop, ← List.length_map (fun p : Factors => (p.hs * p.vs, f.side nn p)), foldl_pushMcu hpart]

theorem length_flatMap_range {l : Nat} {g : Nat → List β} (hg : ∀ q < n, (g q).length = l) :
    ((List.range n).flatMap g).length = n * l := by
  rw [List.length_flatMap, List.map_congr_left fun q hq => hg q (List.mem_range.mp hq), List.map_const', List.sum_replicate,
    List.length_range, nsmul_eq_mul, Nat.cast_id]

theorem get_flatMap_range {l q r : Nat} {g : Nat → List β} (hg : ∀ q < n, (g q).length = l) (hq : q < n) (hr : r < l) :
    ((List.range n).flatMap g)[q * l + r]? = (g q)[r]? := by
  induction n with
  | zero => exact absurd hq (Nat.not_lt_zero q)
  | succ n ih =>
    have hlength := length_flatMap_range (n := n) (l := l) (g := g) fun i hi => hg i (by omega)
    rw [List.range_succ, List.flatMap_append, List.flatMap_singleton]
    obtain rfl | hne := eq_or_ne q n
    · rw [List.getElem?_append_right (by omega), hlength, Nat.add_sub_cancel_left]
    · have hbound : q * l + r < n * l := by
        calc q * l + r < (q + 1) * l := by rw [Nat.succ_mul]; omega
          _ ≤ n * l := Nat.mul_le_mul_right l (by omega)
      rw [List.getElem?_append_left (by omega)]
      exact ih (fun i hi => hg i (by omega)) (by omega)

theorem length_rows (cn : Nat) (pixel : (yy xx : Nat) → β) (yy : Nat) :
    ((List.range cn).flatMap fun xx => [pixel yy xx]).length = cn := by
  rw [length_flatMap_range (l := 1) fun _ _ => rfl, Nat.mul_one]

theorem length_block (cn : Nat) (pixel : (yy xx : Nat) → β) :
    ((List.range cn).flatMap fun yy => (List.range cn).flatMap fun xx => [pixel yy xx]).length = cn * cn :=
  length_flatMap_range fun yy _ => length_rows cn pixel yy

theorem length_mcu (nb cn : Nat) (pixel : (bi yy xx : Nat) → β) :
    ((List.range nb).flatMap fun bi => (List.range cn).flatMap fun yy =>
      (List.range cn).flatMap fun xx => [pixel bi yy xx]).length = nb * (cn * cn) :=
  length_flatMap_range fun bi _ => length_block cn (pixel bi)

theorem planeOf_get {mcus mi bi yy xx : Nat} (pixel : (mi bi yy xx : Nat) → β) (hmi : mi < mcus) (hbi : bi < nb)
    (hyy : yy < cn) (hxx : xx < cn) :
    (planeOf mcus nb cn pixel)[mi * (nb * (cn * cn)) + (bi * (cn * cn) + (yy * cn + xx))]? = some (pixel mi bi yy xx) := by
  have hpixel : yy * cn + xx < cn * cn := by
    calc yy * cn + xx < (yy + 1) * cn := by rw [Nat.succ_mul]; omega
      _ ≤ cn * cn := Nat.mul_le_mul_right cn hyy
  have hblock : bi * (cn * cn) + (yy * cn + xx) < nb * (cn * cn) := by
    calc bi * (cn * cn) + (yy * cn + xx) < (bi + 1) * (cn * cn) := by rw [Nat.succ_mul]; omega
      _ ≤ nb * (cn * cn) := Nat.mul_le_mul_right _ hbi
  rw [planeOf, get_flatMap_range (fun i _ => length_mcu nb cn (pixel i)) hmi hblock,
    get_flatMap_range (fun i _ => length_block cn (pixel mi i)) hbi hpixel,
    get_flatMap_range (fun i _ => length_rows cn (pixel mi bi) i) hyy hxx]
  have hlast := get_flatMap_range (n := cn) (l := 1) (q := xx) (r := 0) (g := fun i => [pixel mi bi yy i]) (fun _ _ => rfl) hxx
    Nat.one_pos
  rwa [Nat.mul_one, Nat.add_zero] at hlast

end

theorem foldl_most (g : α → Nat) (as : List α) (m : Nat) :
    m ≤ as.foldl (fun m a => if m < g a then g a else m) m ∧
      (∀ a ∈ as, g a ≤ as.foldl (fun m a => if m < g a then g a else m) m) ∧
      (as.foldl (fun m a => if m < g a then g a else m) m = m ∨
        ∃ a ∈ as, as.foldl (fun m a => if m < g a then g a else m) m = g a) := by
  induction as generalizing m with
  | nil => exact ⟨Nat.le_refl m, fun _ h => absurd h List.not_mem_nil, .inl rfl⟩
  | cons a as ih =>
    obtain ⟨hleast, hall, hsome⟩ := ih (if m < g a then g a else m)
    rw [List.foldl_cons]
    have hboth : m ≤ (if m < g a then g a else m) ∧ g a ≤ if m < g a then g a else m := by
      split <;> omega
    refine ⟨hboth.1.trans hleast, fun b hb => ?_, ?_⟩
    · obtain rfl | hb := List.mem_cons.mp hb
      · exact hboth.2.trans hleast
      · exact hall b hb
    · obtain hfold | ⟨b, hb, hfold⟩ := hsome
      · rw [hfold]
        split
        · exact .inr ⟨a, List.mem_cons_self, rfl⟩
        · exact .inl rfl
      · exact .inr ⟨b, List.mem_cons_of_mem a hb, hfold⟩

theorem most_factor {as : List Factors} {g : Factors → Nat} (hg : ∀ p, g p = 1 ∨ g p = 2 ∨ g p = 4) (hp : p ∈ as)
    (hmost : as.foldl (fun m p => if m < g p then g p else m) 1 = most) :
    (most = 1 ∨ most = 2 ∨ most = 4) ∧ g p ≤ most ∧ g p * 2 ^ shift most (g p) = most := by
  obtain ⟨_, hall, hsome⟩ := foldl_most g as 1
  rw [hmost] at hall hsome
  have hle := hall p hp
  have hfactor : most = 1 ∨ most = 2 ∨ most = 4 := by
    obtain h | ⟨q, _, h⟩ := hsome
    · exact .inl h
    · rw [h]
      exact hg q
  refine ⟨hfactor, hle, ?_⟩
  have hown := hg p
  generalize g p = factor at hle hown
  obtain rfl | rfl | rfl := hfactor <;> obtain rfl | rfl | rfl := hown <;> first | omega | decide

theorem Frame.hs_le (f : Frame) (hp : p ∈ f.scanned) :
    (f.hmax = 1 ∨ f.hmax = 2 ∨ f.hmax = 4) ∧ p.hs ≤ f.hmax ∧ p.hs * 2 ^ shift f.hmax p.hs = f.hmax :=
  most_factor Factors.hs_factor hp rfl

theorem Frame.vs_le (f : Frame) (hp : p ∈ f.scanned) :
    (f.vmax = 1 ∨ f.vmax = 2 ∨ f.vmax = 4) ∧ p.vs ≤ f.vmax ∧ p.vs * 2 ^ shift f.vmax p.vs = f.vmax :=
  most_factor Factors.vs_factor hp rfl

theorem le_shift (h : most = 1 ∨ most = 2 ∨ most = 4) (hpos : 0 < factor) :
    (factor < most → 1 ≤ shift most factor) ∧ (4 * factor ≤ most → 2 ≤ shift most factor) := by
  unfold shift
  constructor
  · intro hless
    rw [if_pos hless]
    split <;> omega
  · intro hfour
    rw [if_pos (by omega), if_pos (by omega)]

theorem Frame.ext_le (f : Frame) (nn : Nat) (hp : p ∈ f.scanned) :
    f.ext nn p ≤ shift f.hmax p.hs ∧ f.ext nn p ≤ shift f.vmax p.vs := by
  have hh := le_shift (f.hs_le hp).1 p.hs_pos
  have hv := le_shift (f.vs_le hp).1 p.vs_pos
  unfold Frame.ext
  split
  next hboth =>
    split
    next hfour => exact ⟨hh.2 hfour.1, hv.2 hfour.2.1⟩
    next => exact ⟨hh.1 hboth.1, hv.1 hboth.2.1⟩
  next => exact ⟨Nat.zero_le _, Nat.zero_le _⟩

theorem scaleLog_eq (hnn : nn = 1 ∨ nn = 2 ∨ nn = 4 ∨ nn = 8) : 2 ^ scaleLog nn = nn := by
  obtain rfl | rfl | rfl | rfl := hnn <;> decide

theorem factorLog_eq (h : factor = 1 ∨ factor = 2 ∨ factor = 4) : 2 ^ factorLog factor = factor := by
  obtain rfl | rfl | rfl := h <;> decide

theorem Frame.side_eq (f : Frame) (hnn : nn = 1 ∨ nn = 2 ∨ nn = 4 ∨ nn = 8) (p : Factors) :
    f.side nn p = 2 ^ (scaleLog nn + f.ext nn p) := by
  rw [Frame.side, Nat.shiftLeft_eq, Nat.pow_add, scaleLog_eq hnn]

def Frame.address (f : Frame) (nn : Nat) (p : Factors) (px py : Nat) : Nat :=
  let cn := f.side nn p
  let mi := py / cn / p.vs * f.mcux + px / cn / p.hs
  let bi := py / cn % p.vs * p.hs + px / cn % p.hs
  mi * (p.hs * p.vs * (cn * cn)) + (bi * (cn * cn) + (py % cn * cn + px % cn))

theorem and_pred {k : Nat} (h : 2 ^ k = n) (x : Nat) : x &&& (n - 1) = x % n := by
  rw [← h, Nat.and_two_pow_sub_one_eq_mod]

theorem shiftRight_div {k : Nat} (h : 2 ^ k = n) (x : Nat) : x >>> k = x / n := by
  rw [Nat.shiftRight_eq_div_pow, h]

theorem Frame.parts_eq (f : Frame) (hnn : nn = 1 ∨ nn = 2 ∨ nn = 4 ∨ nn = 8) (p : Factors) (x y : Nat) :
    f.rowPart nn p y + f.columnPart nn p x =
      f.address nn p (x >>> (shift f.hmax p.hs - f.ext nn p)) (y >>> (shift f.vmax p.vs - f.ext nn p)) := by
  have hside := (f.side_eq hnn p).symm
  have hhs := factorLog_eq p.hs_factor
  have hvs := factorLog_eq p.vs_factor
  simp only [Frame.rowPart, Frame.columnPart, Frame.address, and_pred hside, and_pred hhs, and_pred hvs, shiftRight_div hside,
    shiftRight_div hhs, shiftRight_div hvs]
  ring

theorem axis_covered {t e s size units : Nat} (hfactor : 0 < factor) (hmost : factor * 2 ^ t = most) (he : e ≤ t)
    (hnn : 0 < nn) (hs : s < (size * nn + 7) >>> 3) (hunits : size ≤ 8 * most * units) :
    s >>> (t - e) = s * factor * 2 ^ e / most ∧ s >>> (t - e) / (nn <<< e) / factor < units := by
  have hpow : 2 ^ t = 2 ^ e * 2 ^ (t - e) := by rw [← Nat.pow_add, Nat.add_sub_cancel' he]
  rw [Nat.shiftRight_eq_div_pow, Nat.shiftLeft_eq]
  constructor
  · rw [← hmost, Nat.mul_comm s factor, Nat.mul_assoc, Nat.mul_div_mul_left _ _ hfactor, hpow, Nat.mul_comm s,
      Nat.mul_div_mul_left _ _ (Nat.two_pow_pos e)]
  · have hall : 2 ^ (t - e) * (nn * 2 ^ e * factor) = nn * most := by
      rw [← hmost, hpow]
      ring
    rw [Nat.div_div_eq_div_mul, Nat.div_div_eq_div_mul, hall, Nat.div_lt_iff_lt_mul (Nat.mul_pos hnn (by rw [← hmost]; positivity))]
    have hless : 8 * s < size * nn := by
      rw [Nat.shiftRight_eq_div_pow] at hs
      omega
    have hroom : size * nn ≤ 8 * (units * (nn * most)) := by
      calc size * nn ≤ 8 * most * units * nn := Nat.mul_le_mul_right nn hunits
        _ = 8 * (units * (nn * most)) := by ring
    omega

theorem units_cover {size : Nat} (hsize : 0 < size ∧ size ≤ 65535) (hmost : most = 1 ∨ most = 2 ∨ most = 4) :
    size ≤ 8 * most * omskIdiv (size + 8 * most - 1) (8 * most) := by
  rw [omskIdiv_eq (by omega) (by omega)]
  obtain rfl | rfl | rfl := hmost <;> omega

theorem units_cover_grey (size : Nat) : size ≤ 8 * 1 * ((size + 7) >>> 3) := by
  rw [Nat.shiftRight_eq_div_pow]
  omega

theorem Frame.grey_most {f : Frame} (h : f.parts.length = 1) : f.hmax = 1 ∧ f.vmax = 1 := by
  rw [Frame.hmax, Frame.vmax, Frame.scanned, if_pos h]
  exact ⟨rfl, rfl⟩

theorem Frame.w_le (f : Frame) (hp : p ∈ f.scanned) : f.w ≤ 8 * f.hmax * f.mcux := by
  unfold Frame.mcux
  split
  next h =>
    rw [(Frame.grey_most h).1]
    exact units_cover_grey f.w
  next => exact units_cover f.w_size (f.hs_le hp).1

theorem Frame.h_le (f : Frame) (hp : p ∈ f.scanned) : f.h ≤ 8 * f.vmax * f.mcuy := by
  unfold Frame.mcuy
  split
  next h =>
    rw [(Frame.grey_most h).2]
    exact units_cover_grey f.h
  next => exact units_cover f.h_size (f.vs_le hp).1

theorem place_lt {m : Nat} (ha : a < n) (hb : b < m) : a * m + b < m * n := by
  calc a * m + b < (a + 1) * m := by rw [Nat.succ_mul]; omega
    _ ≤ n * m := Nat.mul_le_mul_right m ha
    _ = m * n := Nat.mul_comm n m

theorem place_div {m : Nat} (hb : b < m) : (a * m + b) / m = a ∧ (a * m + b) % m = b := by
  refine ⟨?_, Nat.mul_add_mod_of_lt hb⟩
  rw [Nat.add_comm, Nat.add_mul_div_right b a (by omega), Nat.div_eq_of_lt hb, Nat.zero_add]

/-- A sample of the scaled picture is in the plane, and its address is that of the pixel that
covers it. -/
theorem sample_found {β : Type} (f : Frame) {nn : Nat} (hnn : nn = 1 ∨ nn = 2 ∨ nn = 4 ∨ nn = 8) (tw th : Nat)
    (pixel : (c mi bi yy xx : Nat) → β) {c : Nat} {p : Factors} (hc : f.scanned[c]? = some p) {x y : Nat}
    (hx : x ∈ (omskAxis ((f.w * nn + 7) >>> 3) tw).pos) (hy : y ∈ (omskAxis ((f.h * nn + 7) >>> 3) th).pos) :
    ∃ plane, (f.decodeLoop nn pixel)[c]? = some plane ∧ f.rowPart nn p y + f.columnPart nn p x < plane.length ∧
      ∃ mi bi yy xx, mi < f.mcux * f.mcuy ∧ bi < p.hs * p.vs ∧ yy < f.side nn p ∧ xx < f.side nn p ∧
        (mi % f.mcux * p.hs + bi % p.hs) * f.side nn p + xx = x * p.hs * 2 ^ f.ext nn p / f.hmax ∧
        (mi / f.mcux * p.vs + bi / p.hs) * f.side nn p + yy = y * p.vs * 2 ^ f.ext nn p / f.vmax ∧
        plane[f.rowPart nn p y + f.columnPart nn p x]? = some (pixel c mi bi yy xx) := by
  have hp : p ∈ f.scanned := List.mem_of_getElem? hc
  have hpos : 0 < nn := by omega
  have hscaled {size : Nat} (hsize : 0 < size) : 0 < (size * nn + 7) >>> 3 := by
    have hmul := Nat.mul_pos hsize hpos
    rw [Nat.shiftRight_eq_div_pow]
    omega
  obtain ⟨hcolumn, hunit⟩ := axis_covered p.hs_pos (f.hs_le hp).2.2 (f.ext_le nn hp).1 hpos
    (omskAxis_pos_lt (hscaled f.w_size.1) x hx) (f.w_le hp)
  obtain ⟨hrow, hunits⟩ := axis_covered p.vs_pos (f.vs_le hp).2.2 (f.ext_le nn hp).2 hpos
    (omskAxis_pos_lt (hscaled f.h_size.1) y hy) (f.h_le hp)
  rw [f.parts_eq hnn, decodeLoop_get f nn pixel hc, ← hcolumn, ← hrow]
  generalize x >>> (shift f.hmax p.hs - f.ext nn p) = px at *
  generalize y >>> (shift f.vmax p.vs - f.ext nn p) = py at *
  have hside : 0 < f.side nn p := by
    rw [f.side_eq hnn]
    positivity
  change px / f.side nn p / p.hs < f.mcux at hunit
  change py / f.side nn p / p.vs < f.mcuy at hunits
  have hblock := place_lt (Nat.mod_lt (py / f.side nn p) p.vs_pos) (Nat.mod_lt (px / f.side nn p) p.hs_pos)
  have hget := planeOf_get (pixel c) (place_lt hunits hunit) hblock (Nat.mod_lt py hside) (Nat.mod_lt px hside)
  refine ⟨_, rfl, (List.getElem?_eq_some_iff.mp hget).1, _, _, _, _, place_lt hunits hunit, hblock, Nat.mod_lt py hside,
    Nat.mod_lt px hside, ?_, ?_, hget⟩
  · rw [(place_div hunit).2, (place_div (Nat.mod_lt _ p.hs_pos)).2, Nat.div_add_mod', Nat.div_add_mod']
  · rw [(place_div hunit).1, (place_div (Nat.mod_lt _ p.hs_pos)).1, Nat.div_add_mod', Nat.div_add_mod']

def halved : Frame := ⟨16, 16, [⟨2, 2, by decide, by decide⟩, ⟨1, 1, by decide, by decide⟩, ⟨1, 1, by decide, by decide⟩],
  by decide, by decide, by decide⟩

theorem halved_found : let p : Factors := ⟨1, 1, .inl rfl, .inl rfl⟩
    ∃ plane, (halved.decodeLoop 1 fun c mi bi yy xx => [c, mi, bi, yy, xx])[1]? = some plane ∧
      halved.rowPart 1 p 1 + halved.columnPart 1 p 1 < plane.length ∧
      ∃ mi bi yy xx, mi < halved.mcux * halved.mcuy ∧ bi < p.hs * p.vs ∧ yy < halved.side 1 p ∧ xx < halved.side 1 p ∧
        (mi % halved.mcux * p.hs + bi % p.hs) * halved.side 1 p + xx = 1 * p.hs * 2 ^ halved.ext 1 p / halved.hmax ∧
        (mi / halved.mcux * p.vs + bi / p.hs) * halved.side 1 p + yy = 1 * p.vs * 2 ^ halved.ext 1 p / halved.vmax ∧
        plane[halved.rowPart 1 p 1 + halved.columnPart 1 p 1]? = some [1, mi, bi, yy, xx] :=
  sample_found halved (.inl rfl) 2 2 _ rfl (by decide +kernel) (by decide +kernel)

end Ussr.Omsk
