import Mathlib.Algebra.Order.BigOperators.Group.List
import Mathlib.Data.Int.ConditionallyCompleteOrder
import Mathlib.Data.Int.Interval
import Mathlib.Data.Set.Card
import Mathlib.Order.CompletePartialOrder
import Mathlib.Order.Interval.Set.Disjoint

/-! Lists of extents of the integers, each a first number and a length, and the numbers
they hold. -/

namespace Ussr.Extents

def span (e : Int × Int) : Set Int := Set.Ico e.1 (e.1 + e.2)

def blocks (es : List (Int × Int)) : Set Int := {b | ∃ e ∈ es, b ∈ span e}

def total (es : List (Int × Int)) : Int := (es.map Prod.snd).sum

structure Neat (es : List (Int × Int)) : Prop where
  positive : ∀ e ∈ es, 0 < e.2
  apart : es.Pairwise fun d e => d.1 + d.2 < e.1

variable {e : Int × Int} {es as bs : List (Int × Int)} {b s l n : Int}

@[simp] theorem mem_span : b ∈ span e ↔ e.1 ≤ b ∧ b < e.1 + e.2 := Iff.rfl

@[simp] theorem blocks_nil : blocks [] = ∅ := by simp [blocks]

@[simp] theorem blocks_cons (e : Int × Int) (es : List (Int × Int)) : blocks (e :: es) = span e ∪ blocks es := by
  ext b
  simp [blocks]

@[simp] theorem blocks_append (as bs : List (Int × Int)) : blocks (as ++ bs) = blocks as ∪ blocks bs := by
  ext b
  simp [blocks, or_and_right, exists_or]

@[simp] theorem total_nil : total [] = 0 := rfl

@[simp] theorem total_cons (e : Int × Int) (es : List (Int × Int)) : total (e :: es) = e.2 + total es := rfl

theorem total_nonneg (h : ∀ e ∈ es, 0 ≤ e.2) : 0 ≤ total es := by
  refine List.sum_nonneg fun n hn => ?_
  obtain ⟨e, he, rfl⟩ := List.mem_map.mp hn
  exact h e he

theorem span_subset_blocks (h : e ∈ es) : span e ⊆ blocks es := fun _ hb => ⟨e, h, hb⟩

theorem span_split (hn : 0 ≤ n) (hl : n ≤ l) : span (s, l) = span (s, n) ∪ span (s + n, l - n) := by
  ext b
  simp only [mem_span, Set.mem_union]
  omega

def numbers (e : Int × Int) : List Int := (List.range e.2.toNat).map fun k : Nat => e.1 + k

theorem mem_numbers : b ∈ numbers e ↔ e.1 ≤ b ∧ b < e.1 + e.2 := by
  simp only [numbers, List.mem_map, List.mem_range]
  constructor
  · rintro ⟨k, hk, rfl⟩
    omega
  · exact fun h => ⟨(b - e.1).toNat, by omega, by omega⟩

theorem numbers_nodup (h : es.Pairwise fun d e => d.1 + d.2 ≤ e.1) : (es.flatMap numbers).Nodup := by
  refine List.nodup_flatMap.mpr ⟨fun e _ => List.nodup_range.map fun k k' hk => ?_, h.imp fun hde => ?_⟩
  · exact Int.ofNat.inj (add_left_cancel hk)
  · intro b hd he
    rw [mem_numbers] at hd he
    omega

theorem length_numbers (h : ∀ e ∈ es, 0 ≤ e.2) : ((es.flatMap numbers).length : Int) = total es := by
  induction es with
  | nil => rfl
  | cons e es ih =>
    obtain ⟨he, hes⟩ := List.forall_mem_cons.mp h
    rw [List.flatMap_cons, List.length_append, Nat.cast_add, ih hes, numbers, List.length_map, List.length_range,
      total_cons, Int.toNat_of_nonneg he]

theorem blocks_finite (es : List (Int × Int)) : (blocks es).Finite := by
  induction es with
  | nil => simp
  | cons e es ih => exact blocks_cons e es ▸ (Set.finite_Ico _ _).union ih

theorem ncard_span (e : Int × Int) : (span e).ncard = e.2.toNat := by
  rw [span, ← Finset.coe_Ico, Set.ncard_coe_finset, Int.card_Ico, add_sub_cancel_left]

theorem neat_append : Neat (as ++ bs) ↔ Neat as ∧ Neat bs ∧ ∀ a ∈ as, ∀ b ∈ bs, a.1 + a.2 < b.1 := by
  constructor
  · intro h
    have hapart := List.pairwise_append.mp h.apart
    exact ⟨⟨fun e he => h.positive e (List.mem_append_left _ he), hapart.1⟩,
      ⟨fun e he => h.positive e (List.mem_append_right _ he), hapart.2.1⟩, hapart.2.2⟩
  · rintro ⟨ha, hb, hcross⟩
    refine ⟨fun e he => ?_, List.pairwise_append.mpr ⟨ha.apart, hb.apart, hcross⟩⟩
    exact (List.mem_append.mp he).elim (ha.positive e) (hb.positive e)

theorem neat_cons : Neat (e :: es) ↔ 0 < e.2 ∧ Neat es ∧ ∀ b ∈ es, e.1 + e.2 < b.1 := by
  constructor
  · intro h
    have hapart := List.pairwise_cons.mp h.apart
    exact ⟨h.positive e List.mem_cons_self, ⟨fun d hd => h.positive d (List.mem_cons_of_mem e hd), hapart.2⟩, hapart.1⟩
  · rintro ⟨hpos, hes, hbefore⟩
    exact ⟨List.forall_mem_cons.mpr ⟨hpos, hes.positive⟩, List.pairwise_cons.mpr ⟨hbefore, hes.apart⟩⟩

theorem neat_nil : Neat [] := ⟨fun _ he => absurd he List.not_mem_nil, List.Pairwise.nil⟩

theorem disjoint_of_before (has : ∀ a ∈ as, a.1 + a.2 ≤ n) (hbs : ∀ b ∈ bs, n ≤ b.1) : Disjoint (blocks as) (blocks bs) := by
  rw [Set.disjoint_left]
  rintro x ⟨a, ha, hxa⟩ ⟨b, hb, hxb⟩
  have hend := has a ha
  have hstart := hbs b hb
  simp only [mem_span] at hxa hxb
  omega

theorem Neat.head_disjoint (h : Neat (e :: es)) : Disjoint (span e) (blocks es) := by
  have hbefore := (neat_cons.mp h).2.2
  have hsingle : blocks [e] = span e := by simp
  rw [← hsingle]
  refine disjoint_of_before (List.forall_mem_singleton.mpr le_rfl) fun b hb => (hbefore b hb).le

theorem Neat.ncard_blocks (h : Neat es) : ((blocks es).ncard : Int) = total es := by
  induction es with
  | nil => simp
  | cons e es ih =>
    have hcons := neat_cons.mp h
    rw [blocks_cons, Set.ncard_union_eq h.head_disjoint (Set.finite_Ico _ _) (blocks_finite es), Nat.cast_add, ih hcons.2.1,
      ncard_span, total_cons, Int.toNat_of_nonneg hcons.1.le]

theorem Neat.insert (has : Neat as) (hbs : Neat bs) (hpos : 0 < e.2) (hbefore : ∀ a ∈ as, a.1 + a.2 < e.1)
    (hbehind : ∀ b ∈ bs, e.1 + e.2 < b.1) : Neat (as ++ e :: bs) := by
  refine neat_append.mpr ⟨has, neat_cons.mpr ⟨hpos, hbs, hbehind⟩, fun a ha b hb => ?_⟩
  rcases List.mem_cons.mp hb with rfl | hb
  · exact hbefore a ha
  · have := hbefore a ha
    have := hbehind b hb
    omega

end Ussr.Extents
