import Mathlib.Order.WithBot
import Ussr.Library.SortedEntries

/-! Alternating sequences `child, key, child, ..., key, child` in which every
child covers the half-open interval between its neighbouring keys. The ends
are bounds in a line extended at both sides. Any stretch of children can be
taken out and replaced by another chain over the same interval. -/

namespace Ussr.SeparatorChain
open SortedEntries

abbrev Bound (K : Type*) := WithBot (WithTop K)

def key {K : Type*} (k : K) : Bound K := ((k : WithTop K) : WithBot (WithTop K))

section

variable {K : Type*} [LinearOrder K]
variable {lo hi : Bound K} {ks ks' : List K} {k : K}

@[simp] theorem key_lt_key {a b : K} : key a < key b ↔ a < b := by
  simp [key]

@[simp] theorem key_le_key {a b : K} : key a ≤ key b ↔ a ≤ b := by
  simp [key]

@[simp] theorem key_lt_top (a : K) : key a < (⊤ : Bound K) :=
  WithBot.coe_lt_coe.mpr (WithTop.coe_lt_top a)

end

variable {K V α : Type*} {R R' : Bound K → Bound K → α → Prop}

def Chain (R : Bound K → Bound K → α → Prop) (lo : Bound K) :
    List K → List α → Bound K → Prop
  | [], [a], hi => R lo hi a
  | k :: ks, a :: as, hi => R lo (key k) a ∧ Chain R (key k) ks as hi
  | _, _, _ => False

@[simp] theorem chain_single {a : α} : Chain R lo [] [a] hi ↔ R lo hi a :=
  Iff.rfl

@[simp] theorem chain_cons {a : α} {as : List α} :
    Chain R lo (k :: ks) (a :: as) hi ↔ R lo (key k) a ∧ Chain R (key k) ks as hi :=
  Iff.rfl

theorem Chain.length {as : List α}
    (h : Chain R lo ks as hi) : as.length = ks.length + 1 := by
  induction ks generalizing lo as with
  | nil =>
    match as, h with
    | [a], _ => rfl
  | cons k ks ih =>
    match as, h with
    | a :: as, h => rw [List.length_cons, ih h.2, List.length_cons]

theorem Chain.imp {as : List α}
    (h : Chain R lo ks as hi) (hR : ∀ x y a, a ∈ as → R x y a → R' x y a) :
    Chain R' lo ks as hi := by
  induction ks generalizing lo as with
  | nil =>
    match as, h with
    | [a], h => exact hR _ _ a List.mem_cons_self h
  | cons k ks ih =>
    match as, h with
    | a :: as, h =>
      exact ⟨hR _ _ a List.mem_cons_self h.1,
        ih h.2 fun x y b hb => hR x y b (List.mem_cons_of_mem a hb)⟩

theorem Chain.exists_of_mem {as : List α}
    (h : Chain R lo ks as hi) {a : α} (ha : a ∈ as) : ∃ x y, R x y a := by
  induction ks generalizing lo as with
  | nil =>
    match as, h with
    | [b], h =>
      obtain rfl := List.mem_singleton.mp ha
      exact ⟨_, _, h⟩
  | cons k ks ih =>
    match as, h with
    | b :: as, h =>
      rcases List.mem_cons.mp ha with rfl | ha
      · exact ⟨_, _, h.1⟩
      · exact ih h.2 ha

theorem Chain.exists_at {as : List α}
    (h : Chain R lo ks as hi) {i : Nat} {a : α} (ha : as[i]? = some a) :
    ∃ x y, R x y a ∧ (i = 0 → x = lo) ∧ (∀ j s, i = j + 1 → ks[j]? = some s → x = key s) ∧
      (∀ s, ks[i]? = some s → y = key s) := by
  induction ks generalizing lo as i with
  | nil =>
    match as, h with
    | [b], h =>
      obtain ⟨rfl, rfl⟩ : i = 0 ∧ b = a := by
        cases i <;> simp_all
      exact ⟨lo, hi, h, by simp, by simp, by simp⟩
  | cons k ks ih =>
    match as, h with
    | b :: as, h =>
      cases i with
      | zero =>
        obtain rfl : b = a := by simpa using ha
        refine ⟨lo, key k, h.1, fun _ => rfl, by simp, fun s hs => ?_⟩
        obtain rfl : k = s := by simpa using hs
        rfl
      | succ i =>
        obtain ⟨x, y, hxy, hzero, hx, hy⟩ := ih h.2 (by simpa using ha)
        refine ⟨x, y, hxy, by simp, fun j s hj hs => ?_, fun s hs => hy s (by simpa using hs)⟩
        obtain rfl : j = i := by omega
        cases j with
        | zero =>
          obtain rfl : k = s := by simpa using hs
          exact hzero rfl
        | succ j => exact hx j s rfl (by simpa using hs)

theorem chain_append {as as' : List α}
    (hlen : as.length = ks.length + 1) :
    Chain R lo (ks ++ k :: ks') (as ++ as') hi ↔
      Chain R lo ks as (key k) ∧ Chain R (key k) ks' as' hi := by
  induction ks generalizing lo as with
  | nil =>
    match as, hlen with
    | [a], _ => rfl
  | cons x ks ih =>
    match as, hlen with
    | a :: as, hlen =>
      have hlen' : as.length = ks.length + 1 := by simpa using hlen
      rw [List.cons_append, List.cons_append, chain_cons, ih hlen', chain_cons, and_assoc]

section

variable [LinearOrder K]

theorem Chain.bounds (hR : ∀ {x y a}, R x y a → x < y)
    {as : List α} (h : Chain R lo ks as hi) :
    lo < hi ∧ (∀ k ∈ ks, lo < key k ∧ key k < hi) ∧ ks.Pairwise (· < ·) := by
  induction ks generalizing lo as with
  | nil =>
    match as, h with
    | [a], h => exact ⟨hR h, by simp, List.Pairwise.nil⟩
  | cons k ks ih =>
    match as, h with
    | a :: as, h =>
      obtain ⟨hlt, hks, hsorted⟩ := ih h.2
      have hlo : lo < key k := hR h.1
      refine ⟨hlo.trans hlt, ?_, List.pairwise_cons.mpr ⟨fun x hx => ?_, hsorted⟩⟩
      · rintro x (_ | ⟨_, hx⟩)
        · exact ⟨hlo, hlt⟩
        · exact ⟨hlo.trans (hks x hx).1, (hks x hx).2⟩
      · exact key_lt_key.mp (hks x hx).1

theorem Chain.between (hR : ∀ {x y a}, R x y a → x < y)
    {as : List α} (h : Chain R lo ks as hi) {a : α} (ha : a ∈ as) :
    ∃ x y, R x y a ∧ lo ≤ x ∧ y ≤ hi := by
  induction ks generalizing lo as with
  | nil =>
    match as, h with
    | [b], h =>
      obtain rfl := List.mem_singleton.mp ha
      exact ⟨lo, hi, h, le_rfl, le_rfl⟩
  | cons k ks ih =>
    match as, h with
    | b :: as, h =>
      rcases List.mem_cons.mp ha with rfl | ha
      · exact ⟨lo, key k, h.1, le_rfl, (Chain.bounds hR h.2).1.le⟩
      · obtain ⟨x, y, hxy, hx, hy⟩ := ih h.2 ha
        exact ⟨x, y, hxy, (hR h.1).le.trans hx, hy⟩

/-- What surrounds a stretch over `[l, h)` of a chain over `[lo, hi)`. -/
structure Focus (R : Bound K → Bound K → α → Prop) (lo hi l h : Bound K)
    (ks ks' : List K) (as as' : List α) : Prop where
  refill : ∀ ms bs, Chain R l ms bs h → Chain R lo (ks ++ ms ++ ks') (as ++ bs ++ as') hi
  left : ∀ a ∈ as, ∃ x y, R x y a ∧ y ≤ l
  right : ∀ a ∈ as', ∃ x y, R x y a ∧ h ≤ x
  lower : l = lo ∨ ∃ k ∈ ks, l = key k
  upper : h = hi ∨ ∃ k ∈ ks', h = key k

theorem Chain.focus (hR : ∀ {x y a}, R x y a → x < y)
    {ms : List K} {as bs as' : List α} (has : as.length = ks.length)
    (hbs : bs.length = ms.length + 1)
    (hc : Chain R lo (ks ++ ms ++ ks') (as ++ bs ++ as') hi) :
    ∃ l h, Chain R l ms bs h ∧ Focus R lo hi l h ks ks' as as' := by
  induction ks generalizing lo as with
  | nil =>
    obtain rfl : as = [] := List.length_eq_zero_iff.mp has
    cases ks' with
    | nil =>
      have hnil : as' = [] := by
        have := hc.length
        simp only [List.nil_append, List.append_nil, List.length_append] at this
        exact List.length_eq_zero_iff.mp (by omega)
      subst hnil
      simp only [List.nil_append, List.append_nil] at hc
      exact ⟨lo, hi, hc, ⟨by simp, by simp, by simp, Or.inl rfl, Or.inl rfl⟩⟩
    | cons k ks' =>
      obtain ⟨hms, hrest⟩ := (chain_append hbs).mp hc
      refine ⟨lo, key k, hms, ⟨?_, by simp, ?_, Or.inl rfl, Or.inr ⟨k, by simp, rfl⟩⟩⟩
      · exact fun ms' bs' hm => (chain_append hm.length).mpr ⟨hm, hrest⟩
      · intro a ha
        obtain ⟨x, y, hxy, hx, -⟩ := hrest.between hR ha
        exact ⟨x, y, hxy, hx⟩
  | cons k ks ih =>
    match as, has with
    | a :: as, has =>
      obtain ⟨ha, hrest⟩ := hc
      obtain ⟨l, h, hms, hf⟩ := ih (Nat.succ.inj has) hrest
      have hkl : key k ≤ l := by
        rcases hf.lower with rfl | ⟨x, hx, rfl⟩
        · exact le_rfl
        · exact ((hrest.bounds hR).2.1 x (by simp [hx])).1.le
      refine ⟨l, h, hms, ⟨fun ms' bs' hm => ⟨ha, hf.refill ms' bs' hm⟩, ?_, hf.right, ?_,
        hf.upper⟩⟩
      · rintro b (_ | ⟨_, hb⟩)
        · exact ⟨lo, key k, ha, hkl⟩
        · exact hf.left b hb
      · rcases hf.lower with rfl | ⟨x, hx, rfl⟩
        · exact Or.inr ⟨k, List.mem_cons_self, rfl⟩
        · exact Or.inr ⟨x, List.mem_cons_of_mem k hx, rfl⟩

theorem Focus.contains {l h : Bound K} {as as' : List α}
    (hf : Focus R lo hi l h ks ks' as as') (hlo : lo ≤ key k) (hhi : key k < hi)
    (hks : ∀ x ∈ ks, x ≤ k) (hks' : ∀ x ∈ ks', k < x) : l ≤ key k ∧ key k < h := by
  constructor
  · rcases hf.lower with rfl | ⟨x, hx, rfl⟩
    · exact hlo
    · exact key_le_key.mpr (hks x hx)
  · rcases hf.upper with rfl | ⟨x, hx, rfl⟩
    · exact hhi
    · exact key_lt_key.mpr (hks' x hx)

/-- Entries in strictly increasing order with all keys in `[lo, hi)`. -/
structure Within (lo hi : Bound K) (es : List (K × V)) : Prop where
  sorted : Sorted es
  lower : ∀ e ∈ es, lo ≤ key e.1
  upper : ∀ e ∈ es, key e.1 < hi

theorem Within.append {mid : Bound K} {es fs : List (K × V)}
    (he : Within lo mid es) (hf : Within mid hi fs) (hlo : lo ≤ mid) (hhi : mid ≤ hi) :
    Within lo hi (es ++ fs) := by
  refine ⟨he.sorted.append hf.sorted fun a ha b hb => ?_, ?_, ?_⟩
  · exact key_lt_key.mp ((he.upper a ha).trans_le (hf.lower b hb))
  · intro e h
    rcases List.mem_append.mp h with h | h
    · exact he.lower e h
    · exact hlo.trans (hf.lower e h)
  · intro e h
    rcases List.mem_append.mp h with h | h
    · exact (he.upper e h).trans_le hhi
    · exact hf.upper e h

theorem Within.split {es fs : List (K × V)} {e : K × V}
    (h : Within lo hi (es ++ e :: fs)) :
    Within lo (key e.1) es ∧ Within (key e.1) hi (e :: fs) := by
  obtain ⟨hleft, hright, hcross⟩ := sorted_append.mp h.sorted
  refine ⟨⟨hleft, ?_, ?_⟩, ⟨hright, ?_, ?_⟩⟩
  · exact fun x hx => h.lower x (List.mem_append_left _ hx)
  · exact fun x hx => key_lt_key.mpr (hcross x hx e List.mem_cons_self)
  · rintro x (_ | ⟨_, hx⟩)
    · exact le_rfl
    · exact (key_lt_key.mpr ((List.pairwise_cons.mp hright).1 x hx)).le
  · exact fun x hx => h.upper x (List.mem_append_right _ hx)

theorem Within.lt {es : List (K × V)} (h : Within lo hi es)
    (hne : es ≠ []) : lo < hi := by
  obtain ⟨e, fs, rfl⟩ := List.exists_cons_of_ne_nil hne
  exact (h.lower e List.mem_cons_self).trans_lt (h.upper e List.mem_cons_self)

theorem Within.put {es : List (K × V)} (h : Within lo hi es)
    (hlo : lo ≤ key k) (hhi : key k < hi) (v : V) : Within lo hi (put k v es) := by
  have hkeys : ∀ {e}, e ∈ SortedEntries.put k v es → e.1 = k ∨ ∃ x ∈ es, x.1 = e.1 :=
    fun he => (mem_keys_put.mp (List.mem_map_of_mem he)).imp_right List.mem_map.mp
  refine ⟨h.sorted.put k v, fun e he => ?_, fun e he => ?_⟩
  · rcases hkeys he with rfl | ⟨x, hx, hxe⟩
    · exact hlo
    · exact hxe ▸ h.lower x hx
  · rcases hkeys he with rfl | ⟨x, hx, hxe⟩
    · exact hhi
    · exact hxe ▸ h.upper x hx

theorem Within.erase {es : List (K × V)} (h : Within lo hi es) (k : K) :
    Within lo hi (erase k es) :=
  ⟨h.sorted.erase k, fun e he => h.lower e (mem_erase.mp he).2,
    fun e he => h.upper e (mem_erase.mp he).2⟩

theorem Chain.within {f : α → List (K × V)} (hR : ∀ {x y a}, R x y a → x < y)
    (hf : ∀ {x y a}, R x y a → Within x y (f a))
    {as : List α} (h : Chain R lo ks as hi) : Within lo hi (as.flatMap f) := by
  induction ks generalizing lo as with
  | nil =>
    match as, h with
    | [a], h => simpa using hf h
  | cons k ks ih =>
    match as, h with
    | a :: as, h =>
      rw [List.flatMap_cons]
      exact (hf h.1).append (ih h.2) (hR h.1).le (Chain.bounds hR h.2).1.le

theorem Focus.lt_left {f : α → List (K × V)} (hf : ∀ {x y a}, R x y a → Within x y (f a))
    {l h : Bound K} {as as' : List α}
    (hfoc : Focus R lo hi l h ks ks' as as') (hk : l ≤ key k) :
    ∀ e ∈ as.flatMap f, e.1 < k := by
  intro e he
  obtain ⟨a, ha, hea⟩ := List.mem_flatMap.mp he
  obtain ⟨x, y, hxy, hy⟩ := hfoc.left a ha
  exact key_lt_key.mp (((hf hxy).upper e hea).trans_le (hy.trans hk))

theorem Focus.lt_right {f : α → List (K × V)} (hf : ∀ {x y a}, R x y a → Within x y (f a))
    {l h : Bound K} {as as' : List α}
    (hfoc : Focus R lo hi l h ks ks' as as') (hk : key k < h) :
    ∀ e ∈ as'.flatMap f, k < e.1 := by
  intro e he
  obtain ⟨a, ha, hea⟩ := List.mem_flatMap.mp he
  obtain ⟨x, y, hxy, hx⟩ := hfoc.right a ha
  exact key_lt_key.mp (hk.trans_le (hx.trans ((hf hxy).lower e hea)))

end

end Ussr.SeparatorChain
