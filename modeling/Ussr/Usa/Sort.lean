import Ussr.Library.InPlace
import Mathlib.Tactic.Ring
import Mathlib.Data.Nat.Log

/-! `qsort` of usa's C library. A pointer is the index of a cell of the memory vector; `none` is a cell
that is not there, a call that is nested too deep, or a loop that has no turns left. -/

namespace Ussr.Usa.Sort
open InPlace

abbrev Memory (κ : Type) := Nat → Option κ

abbrev Comparison (κ σ : Type) := σ → Memory κ → (a b : Nat) → Option (Int × σ)

variable {κ σ : Type}

def store (m : Memory κ) (p : Nat) (x : κ) : Option (Memory κ) :=
  (m p).map fun _ => Function.update m p (some x)

def swap : (a b n : Nat) → Memory κ → Option (Memory κ)
  | _, _, 0, m => some m
  | a, b, n + 1, m => do
    let t ← m a
    let u ← m b
    let m ← store m a u
    let m ← store m b t
    swap (a + 1) (b + 1) n m

section

variable (cmp : Comparison κ σ) (size : Nat)

/-- The first loop of `__qsort` for the `left` elements from `i` on: what `last` is behind it. -/
def partitionLoop (base : Nat) : (left i last : Nat) → Memory κ → σ → Option (Nat × Memory κ × σ)
  | 0, _, last, m, s => some (last, m, s)
  | left + 1, i, last, m, s => do
    let (r, s) ← cmp s m (base + i * size) base
    if r < 0 then do
      let m ← swap (base + (last + 1) * size) (base + i * size) size m
      partitionLoop base left (i + 1) (last + 1) m s
    else partitionLoop base left (i + 1) last m s

/-- The inner loop of the insertion sort, from `j` down. -/
def sinkLoop (base : Nat) : (j : Nat) → Memory κ → σ → Option (Memory κ × σ)
  | 0, m, s => some (m, s)
  | j + 1, m, s => do
    let (r, s) ← cmp s m (base + j * size) (base + (j + 1) * size)
    if 0 < r then do
      let m ← swap (base + j * size) (base + (j + 1) * size) size m
      sinkLoop base j m s
    else some (m, s)

/-- The outer loop of the insertion sort, for the `left` elements from `i` on. -/
def insertLoop (base : Nat) : (left i : Nat) → Memory κ → σ → Option (Memory κ × σ)
  | 0, _, m, s => some (m, s)
  | left + 1, i, m, s => do
    let (m, s) ← sinkLoop cmp size base i m s
    insertLoop base left (i + 1) m s

/-- The loop of `__qsort` and the insertion sort behind it; `call` is the recursive call. -/
def qsortLoop (call : (base n : Nat) → Memory κ → σ → Option (Memory κ × σ)) :
    (turns base n : Nat) → Memory κ → σ → Option (Memory κ × σ)
  | 0, _, _, _, _ => none
  | turns + 1, base, n, m, s =>
    if 8 < n then do
      let m ← swap base (base + n / 2 * size) size m
      let (last, m, s) ← partitionLoop cmp size base (n - 1) 1 0 m s
      let m ← swap base (base + last * size) size m
      if last < n - last - 1 then do
        let (m, s) ← call base last m s
        qsortLoop call turns (base + (last + 1) * size) (n - (last + 1)) m s
      else do
        let (m, s) ← call (base + (last + 1) * size) (n - last - 1) m s
        qsortLoop call turns base last m s
    else insertLoop cmp size base (n - 1) 1 m s

/-- `__qsort`, with at most `depth` calls nested. -/
def innerQsort (turns : Nat) : (depth base n : Nat) → Memory κ → σ → Option (Memory κ × σ)
  | 0, _, _, _, _ => none
  | depth + 1, base, n, m, s => qsortLoop cmp size (innerQsort turns depth) turns base n m s

def qsort (turns depth base n : Nat) (m : Memory κ) (s : σ) : Option (Memory κ × σ) :=
  innerQsort cmp size turns depth base n m s

end

/-! `qsort` sorts in place, for every comparison function. -/

variable {org size lo n i j : Nat} {m m' m'' m₀ : Memory κ}

/-- The elements of an array at `org`, with the cells that are not there. -/
def elems (org size : Nat) (m : Memory κ) (k : Nat) (c : Fin size) : Option κ := m (org + k * size + c)

/-- The `n` elements from `lo` on are there. -/
def There (org size lo n : Nat) (m : Memory κ) : Prop :=
  ∀ k, lo ≤ k → k < lo + n → ∀ c, (elems org size m k c).isSome

/-- Only the `n` elements from `lo` on have been moved, as whole elements. -/
structure Moved (org size lo n : Nat) (m m' : Memory κ) : Prop where
  rearranged : Rearranged lo n (elems org size m) (elems org size m')
  outside : ∀ p, p < org + lo * size ∨ org + (lo + n) * size ≤ p → m' p = m p

theorem Moved.refl (org size lo n : Nat) (m : Memory κ) : Moved org size lo n m m :=
  ⟨.refl lo n _, fun _ _ => rfl⟩

theorem Moved.trans (h : Moved org size lo n m m') (h' : Moved org size lo n m' m'') : Moved org size lo n m m'' :=
  ⟨h.rearranged.trans h'.rearranged, fun p hp => (h'.outside p hp).trans (h.outside p hp)⟩

theorem Moved.mono {lo' n' : Nat} (h : Moved org size lo' n' m m') (hlo : lo ≤ lo') (hhi : lo' + n' ≤ lo + n) :
    Moved org size lo n m m' := by
  refine ⟨h.rearranged.mono hlo hhi, fun p hp => h.outside p ?_⟩
  have hstart : lo * size ≤ lo' * size := Nat.mul_le_mul_right size hlo
  have hend : (lo' + n') * size ≤ (lo + n) * size := Nat.mul_le_mul_right size hhi
  omega

theorem Moved.there (h : Moved org size lo n m m') (hm : There org size lo n m) : There org size lo n m' :=
  h.rearranged.forall_range (p := fun e => ∀ c, (e c).isSome) hm

theorem store_some {p : Nat} {x y : κ} (h : m p = some y) : store m p x = some (Function.update m p (some x)) := by
  rw [store, h, Option.map_some]

theorem swap_cells {a b : Nat} (ha : ∀ c < n, (m (a + c)).isSome) (hb : ∀ c < n, (m (b + c)).isSome)
    (hapart : a = b ∨ a + n ≤ b ∨ b + n ≤ a) : ∃ m', swap a b n m = some m' ∧
      (∀ c < n, m' (a + c) = m (b + c) ∧ m' (b + c) = m (a + c)) ∧
      ∀ p, (p < a ∨ a + n ≤ p) → (p < b ∨ b + n ≤ p) → m' p = m p := by
  induction n generalizing a b m with
  | zero => exact ⟨m, rfl, fun c hc => absurd hc (Nat.not_lt_zero c), fun p _ _ => rfl⟩
  | succ n ih =>
    obtain ⟨t, ht⟩ := Option.isSome_iff_exists.mp (ha 0 n.succ_pos)
    obtain ⟨u, hu⟩ := Option.isSome_iff_exists.mp (hb 0 n.succ_pos)
    rw [Nat.add_zero] at ht hu
    let m₁ := Function.update (Function.update m a (some u)) b (some t)
    have hsecond : ∃ y, Function.update m a (some u) b = some y := by
      by_cases hab : b = a
      · exact ⟨u, by rw [hab, Function.update_self]⟩
      · exact ⟨u, by rw [Function.update_of_ne hab, hu]⟩
    obtain ⟨y, hy⟩ := hsecond
    have hrest (p : Nat) (hpa : p ≠ a) (hpb : p ≠ b) : m₁ p = m p := by
      rw [show m₁ p = _ from Function.update_of_ne hpb _ _, Function.update_of_ne hpa]
    have hfirst : m₁ a = m b := by
      by_cases hab : a = b
      · rw [hab, show m₁ b = _ from Function.update_self _ _ _, ← ht, hab]
      · rw [show m₁ a = _ from Function.update_of_ne hab _ _, Function.update_self, hu]
    have hlast : m₁ b = m a := by
      rw [show m₁ b = _ from Function.update_self _ _ _, ht]
    have hkept (c : Nat) (hc : c < n) : m₁ (a + 1 + c) = m (a + 1 + c) ∧ m₁ (b + 1 + c) = m (b + 1 + c) :=
      ⟨hrest _ (by omega) (by omega), hrest _ (by omega) (by omega)⟩
    have ha' (c : Nat) (hc : c < n) : (m₁ (a + 1 + c)).isSome := by
      rw [(hkept c hc).1, Nat.add_right_comm]
      exact ha (c + 1) (by omega)
    have hb' (c : Nat) (hc : c < n) : (m₁ (b + 1 + c)).isSome := by
      rw [(hkept c hc).2, Nat.add_right_comm]
      exact hb (c + 1) (by omega)
    obtain ⟨m', hswap, hmoved, hout⟩ := ih ha' hb' (by omega)
    refine ⟨m', ?_, fun c hc => ?_, fun p hpa hpb => ?_⟩
    · rw [swap, ht, hu]
      simp only [Option.bind_eq_bind, Option.bind_some, store_some ht, store_some hy]
      exact hswap
    · cases c with
      | zero =>
        rw [Nat.add_zero, Nat.add_zero, hout a (by omega) (by omega), hout b (by omega) (by omega)]
        exact ⟨hfirst, hlast⟩
      | succ c =>
        have hc' : c < n := by omega
        have hcell := hmoved c hc'
        rw [(hkept c hc').1, (hkept c hc').2, Nat.add_right_comm a, Nat.add_right_comm b] at hcell
        exact hcell
    · rw [hout p (by omega) (by omega)]
      exact hrest p (by omega) (by omega)

theorem swap_elems (hm : There org size lo n m) (hi : lo ≤ i ∧ i < lo + n) (hj : lo ≤ j ∧ j < lo + n) :
    ∃ m', swap (org + i * size) (org + j * size) size m = some m' ∧ Moved org size lo n m m' ∧
      elems org size m' = elems org size m ∘ Equiv.swap i j := by
  have hrow (k : Nat) (hk : lo ≤ k ∧ k < lo + n) : lo * size ≤ k * size ∧ k * size + size ≤ (lo + n) * size := by
    rw [← Nat.succ_mul]
    exact ⟨Nat.mul_le_mul_right size hk.1, Nat.mul_le_mul_right size hk.2⟩
  have hless (k l : Nat) (h : k < l) : k * size + size ≤ l * size := by
    rw [← Nat.succ_mul]
    exact Nat.mul_le_mul_right size h
  have hapart : org + i * size = org + j * size ∨ org + i * size + size ≤ org + j * size ∨
      org + j * size + size ≤ org + i * size := by
    obtain hij | rfl | hij := Nat.lt_trichotomy i j
    · have := hless i j hij
      omega
    · exact .inl rfl
    · have := hless j i hij
      omega
  obtain ⟨m', hswap, hmoved, hout⟩ := swap_cells (fun c hc => hm i hi.1 hi.2 ⟨c, hc⟩) (fun c hc => hm j hj.1 hj.2 ⟨c, hc⟩) hapart
  have helems : elems org size m' = elems org size m ∘ Equiv.swap i j := by
    funext k c
    rw [Function.comp_apply, Equiv.swap_apply_def]
    split
    next hki =>
      rw [hki]
      exact (hmoved c c.isLt).1
    next hki =>
      split
      next hkj =>
        rw [hkj]
        exact (hmoved c c.isLt).2
      next hkj =>
        have hdistinct (l : Nat) (hl : k ≠ l) :
            org + k * size + c < org + l * size ∨ org + l * size + size ≤ org + k * size + c := by
          have := c.isLt
          obtain h | h := Nat.lt_or_gt_of_ne hl
          · have := hless k l h
            omega
          · have := hless l k h
            omega
        exact hout _ (hdistinct i hki) (hdistinct j hkj)
  refine ⟨m', hswap, ⟨helems ▸ Rearranged.swap hi hj _, fun p hp => ?_⟩, helems⟩
  have := hrow i hi
  have := hrow j hj
  exact hout p (by omega) (by omega)

section

variable {cmp : Comparison κ σ} {N : Nat}

/-- The comparison function gives an answer for any two elements of an array, as often as it is called
while the elements are moved around. -/
def Answers (cmp : Comparison κ σ) (org size N : Nat) (m₀ : Memory κ) : Prop :=
  ∀ m, Moved org size 0 N m₀ m → ∀ s i j, i < N → j < N →
    ∃ r s', cmp s m (org + i * size) (org + j * size) = some (r, s')

def Decides (cmp : Comparison κ σ) (org size N : Nat) (m₀ : Memory κ) (le : (Fin size → Option κ) → (Fin size → Option κ) → Prop) :
    Prop :=
  ∀ m, Moved org size 0 N m₀ m → ∀ s i j r s', i < N → j < N →
    cmp s m (org + i * size) (org + j * size) = some (r, s') →
      (r < 0 ↔ ¬le (elems org size m j) (elems org size m i)) ∧ (0 < r ↔ ¬le (elems org size m i) (elems org size m j))

structure Orders (cmp : Comparison κ σ) (org size N : Nat) (m₀ : Memory κ)
    (le : (Fin size → Option κ) → (Fin size → Option κ) → Prop) : Prop where
  total : ∀ x y, le x y ∨ le y x
  trans : ∀ x y z, le x y → le y z → le x z
  decides : Decides cmp org size N m₀ le

variable (hm₀ : There org size 0 N m₀) (hanswers : Answers cmp org size N m₀)
include hm₀ hanswers

/-- Where the first loop of `__qsort` is at element `i`: which elements are below the pivot. -/
structure Parted (le : (Fin size → Option κ) → (Fin size → Option κ) → Prop) (lo last i : Nat)
    (e : Nat → Fin size → Option κ) : Prop where
  below : ∀ k, lo < k → k ≤ lo + last → ¬le (e lo) (e k)
  above : ∀ k, lo + last < k → k < lo + i → le (e lo) (e k)

theorem partitionLoop_spec (left last : Nat) (s : σ) (hm : Moved org size 0 N m₀ m) (hn : lo + n ≤ N) (hleft : left + i = n)
    (hlast : last < i) : ∃ last' m' s', partitionLoop cmp size (org + lo * size) left i last m s = some (last', m', s') ∧
      Moved org size lo n m m' ∧ last' < n ∧
      ∀ le, Orders cmp org size N m₀ le → Parted le lo last i (elems org size m) → Parted le lo last' n (elems org size m') := by
  induction left generalizing i last m s with
  | zero =>
    obtain rfl : i = n := by omega
    exact ⟨last, m, s, rfl, .refl _ _ _ _ _, hlast, fun le _ h => h⟩
  | succ left ih =>
    have haddr (k : Nat) : org + lo * size + k * size = org + (lo + k) * size := by ring
    obtain ⟨r, s₁, hcmp⟩ := hanswers m hm s (lo + i) lo (by omega) (by omega)
    rw [partitionLoop, haddr, haddr, hcmp, Option.bind_eq_bind, Option.bind_some]
    by_cases hr : r < 0
    · have hthere : There org size lo n m := fun k hlo hhi => hm.there hm₀ k (Nat.zero_le k) (by omega)
      obtain ⟨m₁, hswap, hmoved, helems⟩ := swap_elems hthere (i := lo + (last + 1)) (j := lo + i) (by omega) (by omega)
      have hm₁ := hm.trans (hmoved.mono (Nat.zero_le lo) (by omega))
      obtain ⟨last', m', s', hrun, hmoved', hlast', hparted⟩ := ih (last + 1) s₁ hm₁ (i := i + 1) (by omega) (by omega)
      refine ⟨last', m', s', ?_, hmoved.trans hmoved', hlast', fun le hle h => hparted le hle ?_⟩
      · simp only [if_pos hr, hswap]
        exact hrun
      · have hlt := ((hle.decides m hm s (lo + i) lo r s₁ (by omega) (by omega) hcmp).1).mp hr
        have hpivot : elems org size m₁ lo = elems org size m lo := by
          rw [helems, Function.comp_apply, Equiv.swap_apply_of_ne_of_ne (by omega) (by omega)]
        refine ⟨fun k hk hk' => ?_, fun k hk hk' => ?_⟩
        · rw [hpivot, helems, Function.comp_apply, Equiv.swap_apply_def]
          split_ifs with h₁ h₂
          · exact hlt
          · exact h.below _ (by omega) (by omega)
          · exact h.below k hk (by omega)
        · rw [hpivot, helems, Function.comp_apply, Equiv.swap_apply_def]
          split_ifs with h₁ h₂
          · omega
          · exact h.above _ (by omega) (by omega)
          · exact h.above k (by omega) (by omega)
    · obtain ⟨last', m', s', hrun, hmoved', hlast', hparted⟩ := ih last s₁ hm (i := i + 1) (by omega) (by omega)
      refine ⟨last', m', s', ?_, hmoved', hlast', fun le hle h => hparted le hle ⟨h.below, fun k hk hk' => ?_⟩⟩
      · simp only [if_neg hr]
        exact hrun
      · have hge := ((hle.decides m hm s (lo + i) lo r s₁ (by omega) (by omega) hcmp).1).not.mp hr
        obtain hki | hki := Nat.lt_or_ge k (lo + i)
        · exact h.above k hk hki
        · obtain rfl : k = lo + i := by omega
          exact not_not.mp hge

/-- Where the inner loop of the insertion sort is at element `j`, which sinks: the others up to `i` are
sorted, and those above it are not below it. -/
structure Sinking (le : (Fin size → Option κ) → (Fin size → Option κ) → Prop) (lo i j : Nat)
    (e : Nat → Fin size → Option κ) : Prop where
  others : ∀ a b, lo ≤ a → a < b → b ≤ lo + i → a ≠ lo + j → b ≠ lo + j → le (e a) (e b)
  above : ∀ b, lo + j < b → b ≤ lo + i → le (e (lo + j)) (e b)

omit hm₀ hanswers in
theorem Sinking.sorted {le : (Fin size → Option κ) → (Fin size → Option κ) → Prop} {e : Nat → Fin size → Option κ}
    (h : Sinking le lo i j e) (hbelow : ∀ a, lo ≤ a → a < lo + j → le (e a) (e (lo + j))) : SortedOn le lo (i + 1) e := by
  intro a b ha hab hb
  by_cases haj : a = lo + j
  · rw [haj]
    exact h.above b (by omega) (by omega)
  · by_cases hbj : b = lo + j
    · rw [hbj]
      exact hbelow a ha (by omega)
    · exact h.others a b ha hab (by omega) haj hbj

omit hm₀ hanswers in
theorem Sinking.step {le : (Fin size → Option κ) → (Fin size → Option κ) → Prop} {e : Nat → Fin size → Option κ}
    (h : Sinking le lo i (j + 1) e) (hlt : le (e (lo + (j + 1))) (e (lo + j))) :
    Sinking le lo i j (e ∘ Equiv.swap (lo + j) (lo + (j + 1))) := by
  refine ⟨fun a b ha hab hb haj hbj => ?_, fun b hjb hb => ?_⟩
  · rw [Function.comp_apply, Function.comp_apply, Equiv.swap_apply_def, Equiv.swap_apply_def, if_neg haj, if_neg hbj]
    split_ifs with h₁ h₂ h₂
    · omega
    · exact h.others _ b (by omega) (by omega) hb (by omega) h₂
    · exact h.others a _ ha (by omega) (by omega) h₁ (by omega)
    · exact h.others a b ha hab hb h₁ h₂
  · rw [Function.comp_apply, Function.comp_apply, Equiv.swap_apply_left, Equiv.swap_apply_def, if_neg (by omega)]
    split_ifs with h₁
    · exact hlt
    · exact h.above b (by omega) hb

theorem sinkLoop_spec (s : σ) (hm : Moved org size 0 N m₀ m) (hn : lo + n ≤ N) (hj : j ≤ i) (hi : i < n) :
    ∃ m' s', sinkLoop cmp size (org + lo * size) j m s = some (m', s') ∧ Moved org size lo n m m' ∧
      ∀ le, Orders cmp org size N m₀ le → Sinking le lo i j (elems org size m) → SortedOn le lo (i + 1) (elems org size m') := by
  induction j generalizing m s with
  | zero =>
    refine ⟨m, s, rfl, .refl _ _ _ _ _, fun le hle h => h.sorted fun a ha ha' => ?_⟩
    omega
  | succ j ih =>
    have haddr (k : Nat) : org + lo * size + k * size = org + (lo + k) * size := by ring
    obtain ⟨r, s₁, hcmp⟩ := hanswers m hm s (lo + j) (lo + (j + 1)) (by omega) (by omega)
    rw [sinkLoop, haddr, haddr, hcmp, Option.bind_eq_bind, Option.bind_some]
    by_cases hr : 0 < r
    · have hthere : There org size lo n m := fun k hlo hhi => hm.there hm₀ k (Nat.zero_le k) (by omega)
      obtain ⟨m₁, hswap, hmoved, helems⟩ := swap_elems hthere (i := lo + j) (j := lo + (j + 1)) (by omega) (by omega)
      have hm₁ := hm.trans (hmoved.mono (Nat.zero_le lo) (by omega))
      obtain ⟨m', s', hrun, hmoved', hsorted⟩ := ih s₁ hm₁ (by omega)
      refine ⟨m', s', ?_, hmoved.trans hmoved', fun le hle h => hsorted le hle ?_⟩
      · simp only [if_pos hr, hswap]
        exact hrun
      · have hgt := ((hle.decides m hm s (lo + j) (lo + (j + 1)) r s₁ (by omega) (by omega) hcmp).2).mp hr
        rw [helems]
        exact h.step ((hle.total _ _).resolve_left hgt)
    · refine ⟨m, s₁, ?_, .refl _ _ _ _ _, fun le hle h => h.sorted fun a ha ha' => ?_⟩
      · simp only [if_neg hr]
      · have hle' := not_not.mp (((hle.decides m hm s (lo + j) (lo + (j + 1)) r s₁ (by omega) (by omega) hcmp).2).not.mp hr)
        by_cases haj : a = lo + j
        · rwa [haj]
        · exact hle.trans _ _ _ (h.others a (lo + j) ha (by omega) (by omega) (by omega) (by omega)) hle'

theorem insertLoop_spec (left : Nat) (s : σ) (hm : Moved org size 0 N m₀ m) (hn : lo + n ≤ N) (hleft : left + i = n) :
    ∃ m' s', insertLoop cmp size (org + lo * size) left i m s = some (m', s') ∧ Moved org size lo n m m' ∧
      ∀ le, Orders cmp org size N m₀ le → SortedOn le lo i (elems org size m) → SortedOn le lo n (elems org size m') := by
  induction left generalizing i m s with
  | zero =>
    obtain rfl : i = n := by omega
    exact ⟨m, s, rfl, .refl _ _ _ _ _, fun le _ h => h⟩
  | succ left ih =>
    obtain ⟨m₁, s₁, hsink, hmoved, hsunk⟩ := sinkLoop_spec hm₀ hanswers s hm hn (Nat.le_refl i) (by omega)
    have hm₁ := hm.trans (hmoved.mono (Nat.zero_le lo) (by omega))
    obtain ⟨m', s', hrun, hmoved', hsorted⟩ := ih s₁ hm₁ (i := i + 1) (by omega)
    refine ⟨m', s', ?_, hmoved.trans hmoved', fun le hle h => hsorted le hle (hsunk le hle ⟨?_, ?_⟩)⟩
    · rw [insertLoop, hsink, Option.bind_eq_bind, Option.bind_some]
      exact hrun
    · exact fun a b ha hab hb _ hbi => h a b ha hab (by omega)
    · intro b hb hb'
      omega

end

section

variable {cmp : Comparison κ σ} {N : Nat} (hm₀ : There org size 0 N m₀) (hanswers : Answers cmp org size N m₀)

/-- A run sorts `n` elements from `lo` on. -/
def Sorts (cmp : Comparison κ σ) (org size N : Nat) (m₀ : Memory κ) (run : Memory κ → σ → Option (Memory κ × σ)) (lo n : Nat) : Prop :=
  ∀ m, Moved org size 0 N m₀ m → ∀ s, ∃ m' s', run m s = some (m', s') ∧ Moved org size lo n m m' ∧
    ∀ le, Orders cmp org size N m₀ le → SortedOn le lo n (elems org size m')

include hm₀ hanswers

theorem insertionSort_sorts (hn : lo + n ≤ N) : Sorts cmp org size N m₀ (insertLoop cmp size (org + lo * size) (n - 1) 1) lo n := by
  intro m hm s
  by_cases h : n = 0
  · subst h
    exact ⟨m, s, rfl, .refl _ _ _ _ _, fun le _ => .of_le_one (Nat.zero_le 1)⟩
  · obtain ⟨m', s', hrun, hmoved, hsorted⟩ := insertLoop_spec hm₀ hanswers (n - 1) s hm hn (i := 1) (by omega)
    exact ⟨m', s', hrun, hmoved, fun le hle => hsorted le hle (.of_le_one (Nat.le_refl 1))⟩

/-- The element in place `last` of the range, with none above it before it and none below it behind it. -/
structure Split (le : (Fin size → Option κ) → (Fin size → Option κ) → Prop) (lo n last : Nat)
    (e : Nat → Fin size → Option κ) : Prop where
  below : ∀ k, lo ≤ k → k < lo + last → le (e k) (e (lo + last))
  above : ∀ k, lo + (last + 1) ≤ k → k < lo + n → le (e (lo + last)) (e k)

omit hm₀ hanswers in
theorem Split.moved {le : (Fin size → Option κ) → (Fin size → Option κ) → Prop} {e e' : Nat → Fin size → Option κ}
    {last lo₁ n₁ : Nat} (h : Split le lo n last e) (hside : lo ≤ lo₁ ∧ lo₁ + n₁ ≤ lo + last ∨ lo + (last + 1) ≤ lo₁ ∧ lo₁ + n₁ ≤ lo + n)
    (hmoved : Rearranged lo₁ n₁ e e') : Split le lo n last e' := by
  have hpivot : e' (lo + last) = e (lo + last) := hmoved.outside (by omega)
  refine ⟨fun k hk hk' => ?_, fun k hk hk' => ?_⟩
  · rw [hpivot]
    by_cases hin : lo₁ ≤ k ∧ k < lo₁ + n₁
    · obtain ⟨l, hl, hsame⟩ := hmoved.inside hin
      rw [hsame]
      exact h.below l (by omega) (by omega)
    · rw [hmoved.outside (by omega)]
      exact h.below k hk hk'
  · rw [hpivot]
    by_cases hin : lo₁ ≤ k ∧ k < lo₁ + n₁
    · obtain ⟨l, hl, hsame⟩ := hmoved.inside hin
      rw [hsame]
      exact h.above l (by omega) (by omega)
    · rw [hmoved.outside (by omega)]
      exact h.above k hk hk'

theorem pivot_spec (s : σ) (hm : Moved org size 0 N m₀ m) (hn : lo + n ≤ N) (hpos : 0 < n) :
    ∃ m₁ last m₂ s₂ m₃, swap (org + lo * size) (org + lo * size + n / 2 * size) size m = some m₁ ∧
      partitionLoop cmp size (org + lo * size) (n - 1) 1 0 m₁ s = some (last, m₂, s₂) ∧
      swap (org + lo * size) (org + lo * size + last * size) size m₂ = some m₃ ∧
      Moved org size lo n m m₃ ∧ last < n ∧ ∀ le, Orders cmp org size N m₀ le → Split le lo n last (elems org size m₃) := by
  have haddr (k : Nat) : org + lo * size + k * size = org + (lo + k) * size := by ring
  have hthere (m : Memory κ) (hm : Moved org size 0 N m₀ m) : There org size lo n m :=
    fun k hlo hhi => hm.there hm₀ k (Nat.zero_le k) (by omega)
  have hwide (m m' : Memory κ) (h : Moved org size lo n m m') : Moved org size 0 N m m' := h.mono (Nat.zero_le lo) (by omega)
  obtain ⟨m₁, hswap₁, hmoved₁, -⟩ := swap_elems (hthere m hm) (i := lo) (j := lo + n / 2) (by omega) (by omega)
  have hm₁ := hm.trans (hwide m m₁ hmoved₁)
  obtain ⟨last, m₂, s₂, hpart, hmoved₂, hlast, hparted⟩ :=
    partitionLoop_spec hm₀ hanswers (n - 1) 0 s hm₁ hn (i := 1) (by omega) Nat.one_pos
  have hm₂ := hm₁.trans (hwide m₁ m₂ hmoved₂)
  obtain ⟨m₃, hswap₃, hmoved₃, helems⟩ := swap_elems (hthere m₂ hm₂) (i := lo) (j := lo + last) (by omega) (by omega)
  refine ⟨m₁, last, m₂, s₂, m₃, (haddr _).symm ▸ hswap₁, hpart, (haddr _).symm ▸ hswap₃,
    (hmoved₁.trans hmoved₂).trans hmoved₃, hlast, fun le hle => ?_⟩
  have hstart : Parted le lo 0 1 (elems org size m₁) := ⟨fun k _ _ => by omega, fun k _ _ => by omega⟩
  have h := hparted le hle hstart
  have hless (k : Nat) (hk : lo < k) (hk' : k ≤ lo + last) : le (elems org size m₂ k) (elems org size m₂ lo) :=
    (hle.total _ _).resolve_right (h.below k hk hk')
  rw [helems]
  refine ⟨fun k hk hk' => ?_, fun k hk hk' => ?_⟩
  · rw [Function.comp_apply, Function.comp_apply, Equiv.swap_apply_right, Equiv.swap_apply_def]
    split_ifs with h₁ h₂
    · exact hless (lo + last) (by omega) (Nat.le_refl _)
    · omega
    · exact hless k (by omega) (by omega)
  · rw [Function.comp_apply, Function.comp_apply, Equiv.swap_apply_right,
      Equiv.swap_apply_of_ne_of_ne (by omega) (by omega)]
    exact h.above k (by omega) hk'

omit hm₀ hanswers in
theorem Sorts.sides {last lo₁ n₁ lo₂ n₂ : Nat} {first second : Memory κ → σ → Option (Memory κ × σ)}
    (hfirst : Sorts cmp org size N m₀ first lo₁ n₁) (hsecond : Sorts cmp org size N m₀ second lo₂ n₂)
    (hsides : (lo₁, n₁, lo₂, n₂) = (lo, last, lo + (last + 1), n - (last + 1)) ∨
      (lo₂, n₂, lo₁, n₁) = (lo, last, lo + (last + 1), n - (last + 1)))
    (s : σ) (hm : Moved org size 0 N m₀ m) (hn : lo + n ≤ N) (hlast : last < n) :
    ∃ m₁ s₁ m' s', first m s = some (m₁, s₁) ∧ second m₁ s₁ = some (m', s') ∧ Moved org size lo n m m' ∧
      ∀ le, Orders cmp org size N m₀ le → Split le lo n last (elems org size m) → SortedOn le lo n (elems org size m') := by
  simp only [Prod.mk.injEq] at hsides
  obtain ⟨m₁, s₁, hrun₁, hmoved₁, hsorted₁⟩ := hfirst m hm s
  have hm₁ := hm.trans (hmoved₁.mono (Nat.zero_le lo₁) (by omega))
  obtain ⟨m', s', hrun₂, hmoved₂, hsorted₂⟩ := hsecond m₁ hm₁ s₁
  refine ⟨m₁, s₁, m', s', hrun₁, hrun₂, (hmoved₁.mono (by omega) (by omega)).trans (hmoved₂.mono (by omega) (by omega)),
    fun le hle h => ?_⟩
  have hsplit := (h.moved (by omega) hmoved₁.rearranged).moved (by omega) hmoved₂.rearranged
  have hkept : SortedOn le lo₁ n₁ (elems org size m') := (hsorted₁ le hle).congr fun k hk hk' => hmoved₂.rearranged.outside (by omega)
  obtain ⟨rfl, rfl, rfl, rfl⟩ | ⟨rfl, rfl, rfl, rfl⟩ := hsides
  · exact .join hle.trans hlast hkept (hsorted₂ le hle) hsplit.below hsplit.above
  · exact .join hle.trans hlast (hsorted₂ le hle) hkept hsplit.below hsplit.above

theorem qsortLoop_sorts {call : (base n : Nat) → Memory κ → σ → Option (Memory κ × σ)} {K : Nat}
    (hcall : ∀ lo k, lo + k ≤ N → k < K → Sorts cmp org size N m₀ (call (org + lo * size) k) lo k) (turns : Nat) (hturns : n < turns)
    (hK : 8 < n → (n - 1) / 2 < K) (hn : lo + n ≤ N) : Sorts cmp org size N m₀ (qsortLoop cmp size call turns (org + lo * size) n) lo n := by
  induction turns generalizing lo n with
  | zero => omega
  | succ turns ih =>
    by_cases hlong : 8 < n
    · intro m hm s
      obtain ⟨m₁, last, m₂, s₂, m₃, hswap₁, hpart, hswap₃, hmoved, hlast, hsplit⟩ := pivot_spec hm₀ hanswers s hm hn (by omega)
      have hm₃ := hm.trans (hmoved.mono (Nat.zero_le lo) (by omega))
      have haddr : org + lo * size + (last + 1) * size = org + (lo + (last + 1)) * size := by ring
      have hhalf := hK hlong
      rw [qsortLoop, if_pos hlong, hswap₁]
      simp only [Option.bind_eq_bind, Option.bind_some, hpart, hswap₃, haddr, Nat.sub_sub]
      by_cases hless : last < n - (last + 1)
      · have hleft := hcall lo last (by omega) (by omega)
        have hright := @ih (lo + (last + 1)) (n - (last + 1)) (by omega) (by omega) (by omega)
        obtain ⟨m₄, s₄, m', s', hrun₄, hrun, hmoved', hsorted⟩ := hleft.sides hright (.inl rfl) s₂ hm₃ hn hlast
        refine ⟨m', s', ?_, hmoved.trans hmoved', fun le hle => hsorted le hle (hsplit le hle)⟩
        simp only [if_pos hless, hrun₄, Option.bind_some]
        exact hrun
      · have hright := hcall (lo + (last + 1)) (n - (last + 1)) (by omega) (by omega)
        have hleft := @ih lo last (by omega) (by omega) (by omega)
        obtain ⟨m₄, s₄, m', s', hrun₄, hrun, hmoved', hsorted⟩ := hright.sides hleft (.inr rfl) s₂ hm₃ hn hlast
        refine ⟨m', s', ?_, hmoved.trans hmoved', fun le hle => hsorted le hle (hsplit le hle)⟩
        simp only [if_neg hless, hrun₄, Option.bind_some]
        exact hrun
    · have hshort : qsortLoop cmp size call (turns + 1) (org + lo * size) n =
          insertLoop cmp size (org + lo * size) (n - 1) 1 := by
        funext m s
        rw [qsortLoop, if_neg hlong]
      rw [hshort]
      exact insertionSort_sorts hm₀ hanswers hn

theorem innerQsort_sorts (turns depth : Nat) (hturns : n < turns) (hdepth : Nat.log 2 n < depth) (hn : lo + n ≤ N) :
    Sorts cmp org size N m₀ (innerQsort cmp size turns depth (org + lo * size) n) lo n := by
  induction depth generalizing lo n with
  | zero => omega
  | succ depth ih =>
    by_cases hlong : 8 < n
    · refine qsortLoop_sorts hm₀ hanswers (K := (n - 1) / 2 + 1) (fun lo k hk hhalf => ?_) turns hturns (fun _ => Nat.lt_succ_self _) hn
      have hlog : Nat.log 2 k + 1 ≤ Nat.log 2 n := by
        have hhalved : Nat.log 2 (n / 2) + 1 = Nat.log 2 n := by
          have := Nat.log_pos Nat.one_lt_two (by omega : 2 ≤ n)
          rw [Nat.log_div_base]
          omega
        have := Nat.log_mono_right (b := 2) (by omega : k ≤ n / 2)
        omega
      exact ih (by omega) (by omega) hk
    · exact qsortLoop_sorts hm₀ hanswers (K := 0) (fun _ _ _ hk => absurd hk (Nat.not_lt_zero _)) turns hturns
        (fun h => absurd h hlong) hn

end

section

structure ByPreorder (cmp : Comparison κ σ) (base size n : Nat) (m : Memory κ)
    (le : (Fin size → Option κ) → (Fin size → Option κ) → Prop) : Prop where
  total : ∀ i < n, ∀ j < n, le (elems base size m i) (elems base size m j) ∨ le (elems base size m j) (elems base size m i)
  trans : ∀ i < n, ∀ j < n, ∀ k < n, le (elems base size m i) (elems base size m j) →
    le (elems base size m j) (elems base size m k) → le (elems base size m i) (elems base size m k)
  decides : Decides cmp base size n m le

variable {cmp : Comparison κ σ} {base : Nat} {le : (Fin size → Option κ) → (Fin size → Option κ) → Prop}

/-- One of the `n` elements has these contents. -/
def IsValue (base size n : Nat) (m : Memory κ) (x : Fin size → Option κ) : Prop := ∃ i < n, elems base size m i = x

theorem Moved.isValue (h : Moved base size 0 n m m') {k : Nat} (hk : k < n) : IsValue base size n m (elems base size m' k) := by
  obtain ⟨l, hl, hsame⟩ := h.rearranged.inside (k := k) (by omega)
  exact ⟨l, by omega, hsame.symm⟩

theorem ByPreorder.orders (h : ByPreorder cmp base size n m le) :
    Orders cmp base size n m (Within (IsValue base size n m) le) := by
  refine ⟨within_total ?_, within_trans ?_, fun m' hm' s i j r s' hi hj hcmp => ?_⟩
  · rintro _ _ ⟨i, hi, rfl⟩ ⟨j, hj, rfl⟩
    exact h.total i hi j hj
  · rintro _ _ _ ⟨i, hi, rfl⟩ ⟨j, hj, rfl⟩ ⟨k, hk, rfl⟩
    exact h.trans i hi j hj k hk
  · rw [within_iff (hm'.isValue hj) (hm'.isValue hi), within_iff (hm'.isValue hi) (hm'.isValue hj)]
    exact h.decides m' hm' s i j r s' hi hj hcmp

/-- `qsort` of an array ends for every comparison function that gives an answer for any two elements of
the array, with at most `log₂ n` calls nested in the first. Only the cells of the array need to be there,
and only they change: the elements end up in another order, and in one that does not go down where the
answers are those of a total preorder. -/
theorem qsort_sorts (cmp : Comparison κ σ) (base n size : Nat) (m : Memory κ) (s : σ) (turns depth : Nat)
    (hthere : There base size 0 n m) (hanswers : Answers cmp base size n m) (hturns : n < turns)
    (hdepth : Nat.log 2 n < depth) : ∃ m' s', qsort cmp size turns depth base n m s = some (m', s') ∧
      (∀ p, p < base ∨ base + n * size ≤ p → m' p = m p) ∧
      ((List.range n).map (elems base size m')).Perm ((List.range n).map (elems base size m)) ∧
      ∀ le, ByPreorder cmp base size n m le → ∀ i j, i < j → j < n → le (elems base size m' i) (elems base size m' j) := by
  have hsorts := innerQsort_sorts hthere hanswers turns depth hturns hdepth (Nat.zero_add n).le
  obtain ⟨m', s', hrun, hmoved, hsorted⟩ := hsorts m (.refl _ _ _ _ m) s
  rw [Nat.zero_mul, Nat.add_zero] at hrun
  refine ⟨m', s', hrun, fun p hp => hmoved.outside p (by rwa [Nat.zero_mul, Nat.zero_add]), ?_, fun le hle i j hij hj => ?_⟩
  · rw [List.range_eq_range']
    exact hmoved.rearranged.perm
  · have hle' := hsorted _ hle.orders i j (Nat.zero_le i) hij (by omega)
    exact (within_iff (hmoved.isValue (by omega)) (hmoved.isValue hj)).mp hle'

def numberCmp : Comparison Nat Unit := fun s m a b => do
  let x ← m a
  let y ← m b
  return ((x : Int) - y, s)

/-- Twelve numbers from 8 on: more than the insertion sort is for. -/
def numbers (p : Nat) : Option Nat := [9, 7, 8, 3, 12, 1, 7, 5, 11, 2, 10, 6][p - 8]?

theorem qsort_sorts_numbers : ∃ m' s', qsort numberCmp 1 13 4 8 12 numbers () = some (m', s') ∧
    (∀ p, p < 8 ∨ 8 + 12 * 1 ≤ p → m' p = numbers p) ∧
    ((List.range 12).map (elems 8 1 m')).Perm ((List.range 12).map (elems 8 1 numbers)) ∧
    ∀ le, ByPreorder numberCmp 8 1 12 numbers le →
      ∀ i j, i < j → j < 12 → le (elems 8 1 m' i) (elems 8 1 m' j) := by
  have hthere : There 8 1 0 12 numbers := by
    intro k _ hk c
    have := c.isLt
    rw [elems, numbers, List.getElem?_eq_getElem (by simp only [List.length_cons, List.length_nil]; omega)]
    rfl
  refine qsort_sorts numberCmp 8 12 1 _ () 13 4 hthere ?_ (by decide) (by decide)
  intro m hm s i j hi hj
  have hthere' := hm.there hthere
  obtain ⟨x, hx⟩ := Option.isSome_iff_exists.mp (hthere' i (Nat.zero_le i) (by omega) 0)
  obtain ⟨y, hy⟩ := Option.isSome_iff_exists.mp (hthere' j (Nat.zero_le j) (by omega) 0)
  refine ⟨x - y, s, ?_⟩
  rw [numberCmp, show m (8 + i * 1) = some x from hx, show m (8 + j * 1) = some y from hy]
  rfl

end

end Ussr.Usa.Sort
