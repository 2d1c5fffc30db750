import Mathlib.Data.List.Nodup
import Mathlib.Order.Lattice

/-! Association lists in strictly increasing key order, the list view of an
ordered map. Insertion and erasure act locally: on a concatenation they
change only the part whose keys surround the argument. -/

namespace Ussr.SortedEntries

variable {K V : Type*} [LinearOrder K]
variable {as bs : List (K × V)}
variable {es : List (K × V)} {k : K} {m : K → Option V}

def Sorted (es : List (K × V)) : Prop :=
  es.Pairwise fun a b => a.1 < b.1

def put (k : K) (v : V) : List (K × V) → List (K × V)
  | [] => [(k, v)]
  | e :: es =>
    if k < e.1 then (k, v) :: e :: es
    else if e.1 < k then e :: put k v es
    else (k, v) :: es

def erase (k : K) (es : List (K × V)) : List (K × V) :=
  es.filter fun e => decide (e.1 ≠ k)

/-- `es` lists exactly the graph of the partial map `m`. -/
structure Represents (es : List (K × V)) (m : K → Option V) : Prop where
  sorted : Sorted es
  mem_iff : ∀ k v, (k, v) ∈ es ↔ m k = some v

theorem Sorted.append (ha : Sorted as) (hb : Sorted bs)
    (h : ∀ a ∈ as, ∀ b ∈ bs, a.1 < b.1) : Sorted (as ++ bs) :=
  List.pairwise_append.mpr ⟨ha, hb, h⟩

theorem sorted_append :
    Sorted (as ++ bs) ↔ Sorted as ∧ Sorted bs ∧ ∀ a ∈ as, ∀ b ∈ bs, a.1 < b.1 :=
  List.pairwise_append

theorem Sorted.nodup_keys (h : Sorted es) : (es.map Prod.fst).Nodup :=
  List.pairwise_map.mpr (h.imp fun hab => hab.ne)

theorem Sorted.unique (h : Sorted es) {a b : K × V}
    (ha : a ∈ es) (hb : b ∈ es) (hab : a.1 = b.1) : a = b :=
  List.inj_on_of_nodup_map h.nodup_keys ha hb hab

theorem put_append_left (v : V) (bs : List (K × V))
    (h : ∀ a ∈ as, a.1 < k) : put k v (as ++ bs) = as ++ put k v bs := by
  induction as with
  | nil => rfl
  | cons a as ih =>
    have ha : a.1 < k := h a List.mem_cons_self
    have hrest : ∀ x ∈ as, x.1 < k := fun x hx => h x (List.mem_cons_of_mem a hx)
    simp only [List.cons_append, put, if_neg ha.not_gt, if_pos ha, ih hrest]

theorem put_of_lt (v : V) (h : ∀ e ∈ es, k < e.1) :
    put k v es = (k, v) :: es := by
  cases es with
  | nil => rfl
  | cons e es => rw [put, if_pos (h e List.mem_cons_self)]

theorem put_append_right (v : V) (as : List (K × V))
    (h : ∀ b ∈ bs, k < b.1) : put k v (as ++ bs) = put k v as ++ bs := by
  induction as with
  | nil => rw [List.nil_append, put_of_lt v h]; rfl
  | cons a as ih =>
    simp only [List.cons_append, put, ih]
    split_ifs <;> rfl

theorem erase_append (k : K) (as bs : List (K × V)) :
    erase k (as ++ bs) = erase k as ++ erase k bs :=
  List.filter_append ..

theorem erase_of_notMem (h : k ∉ es.map Prod.fst) :
    erase k es = es := by
  rw [erase, List.filter_eq_self]
  intro e he
  simp only [decide_eq_true_eq]
  rintro rfl
  exact h (List.mem_map_of_mem he)

theorem mem_put {q : K} {v w : V} (h : Sorted es) :
    (q, w) ∈ put k v es ↔ (q = k ∧ w = v) ∨ (q ≠ k ∧ (q, w) ∈ es) := by
  induction es with
  | nil => simp [put]
  | cons e es ih =>
    obtain ⟨hhead, htail⟩ := List.pairwise_cons.mp h
    have hlater : ∀ {x : K × V}, x ∈ es → x.1 ≠ e.1 := fun hx => (hhead _ hx).ne'
    unfold put
    split_ifs with hlt hgt
    · have hk : ∀ x ∈ e :: es, x.1 ≠ k := by
        rintro x (_ | ⟨_, hx⟩)
        · exact hlt.ne'
        · exact (hlt.trans (hhead x hx)).ne'
      have hq : (q, w) ∈ e :: es → q ≠ k := fun hx => hk _ hx
      rw [List.mem_cons, Prod.mk.injEq]
      tauto
    · have he : (q, w) = e → q ≠ k := by
        rintro rfl
        exact hgt.ne
      rw [List.mem_cons, ih htail, List.mem_cons]
      tauto
    · have hk : e.1 = k := le_antisymm (not_lt.mp hlt) (not_lt.mp hgt)
      have hq : (q, w) ∈ es → q ≠ k := fun hx => hk ▸ hlater hx
      have he : (q, w) = e → q = k := by
        rintro rfl
        exact hk
      rw [List.mem_cons, List.mem_cons, Prod.mk.injEq]
      tauto

theorem mem_keys_put {q : K} {v : V} :
    q ∈ (put k v es).map Prod.fst ↔ q = k ∨ q ∈ es.map Prod.fst := by
  induction es with
  | nil => simp [put]
  | cons e es ih =>
    unfold put
    split_ifs with hlt hgt
    · simp
    · simp only [List.map_cons, List.mem_cons, ih]
      tauto
    · have hk : e.1 = k := le_antisymm (not_lt.mp hlt) (not_lt.mp hgt)
      simp only [List.map_cons, List.mem_cons, hk]
      tauto

theorem Sorted.put (h : Sorted es) (k : K) (v : V) :
    Sorted (put k v es) := by
  induction es with
  | nil => exact List.pairwise_singleton _ _
  | cons e es ih =>
    obtain ⟨hhead, htail⟩ := List.pairwise_cons.mp h
    unfold SortedEntries.put
    split_ifs with hlt hgt
    · refine List.pairwise_cons.mpr ⟨?_, h⟩
      rintro x (_ | ⟨_, hx⟩)
      · exact hlt
      · exact hlt.trans (hhead x hx)
    · refine List.pairwise_cons.mpr ⟨fun x hx => ?_, ih htail⟩
      rcases mem_keys_put.mp (List.mem_map_of_mem hx) with hk | hold
      · exact hk ▸ hgt
      · obtain ⟨y, hy, hyx⟩ := List.mem_map.mp hold
        exact hyx ▸ hhead y hy
    · have hk : e.1 = k := le_antisymm (not_lt.mp hlt) (not_lt.mp hgt)
      exact List.pairwise_cons.mpr ⟨fun x hx => hk ▸ hhead x hx, htail⟩

theorem Sorted.erase (h : Sorted es) (k : K) : Sorted (erase k es) :=
  h.filter _

theorem mem_erase {e : K × V} :
    e ∈ erase k es ↔ e.1 ≠ k ∧ e ∈ es := by
  simp [SortedEntries.erase, and_comm]

theorem length_erase (h : Sorted es)
    (hk : k ∈ es.map Prod.fst) : (erase k es).length + 1 = es.length := by
  obtain ⟨e, he, rfl⟩ := List.mem_map.mp hk
  obtain ⟨as, bs, rfl⟩ := List.append_of_mem he
  obtain ⟨-, hright, hcross⟩ := sorted_append.mp h
  have has : e.1 ∉ as.map Prod.fst := by
    intro hin
    obtain ⟨x, hx, hxe⟩ := List.mem_map.mp hin
    exact (hcross x hx e List.mem_cons_self).ne hxe
  have hbs : e.1 ∉ bs.map Prod.fst := by
    intro hin
    obtain ⟨x, hx, hxe⟩ := List.mem_map.mp hin
    exact ((List.pairwise_cons.mp hright).1 x hx).ne hxe.symm
  have hself : SortedEntries.erase e.1 (e :: bs) = SortedEntries.erase e.1 bs := by
    simp [SortedEntries.erase]
  rw [erase_append, hself, erase_of_notMem has, erase_of_notMem hbs]
  simp only [List.length_append, List.length_cons]
  omega

theorem Represents.put (h : Represents es m)
    (k : K) (v : V) : Represents (put k v es) (Function.update m k (some v)) := by
  refine ⟨h.sorted.put k v, fun q w => ?_⟩
  rw [mem_put h.sorted, h.mem_iff]
  by_cases hq : q = k
  · subst hq
    simp [eq_comm]
  · simp [hq]

theorem Represents.erase (h : Represents es m)
    (k : K) : Represents (erase k es) (Function.update m k none) := by
  refine ⟨h.sorted.erase k, fun q w => ?_⟩
  rw [mem_erase, h.mem_iff]
  by_cases hq : q = k
  · subst hq
    simp
  · simp [hq]

theorem Represents.isSome_iff (h : Represents es m) (q : K) :
    (m q).isSome ↔ ∃ e ∈ es, e.1 = q := by
  rw [Option.isSome_iff_exists]
  constructor
  · rintro ⟨v, hv⟩
    exact ⟨(q, v), (h.mem_iff q v).mpr hv, rfl⟩
  · rintro ⟨⟨_, v⟩, he, rfl⟩
    exact ⟨v, (h.mem_iff _ v).mp he⟩

theorem Represents.unique {fs : List (K × V)}
    (he : Represents es m) (hf : Represents fs m) : es = fs := by
  have hanti : ∀ a b : K × V, a ∈ es → b ∈ fs → a.1 < b.1 → b.1 < a.1 → a = b :=
    fun a b _ _ hab hba => absurd (hab.trans hba) (lt_irrefl _)
  have hperm : es.Perm fs := by
    refine (List.perm_ext_iff_of_nodup ?_ ?_).mpr fun e => ?_
    · exact he.sorted.nodup_keys.of_map _
    · exact hf.sorted.nodup_keys.of_map _
    · rw [he.mem_iff, hf.mem_iff]
  exact List.Perm.eq_of_pairwise hanti he.sorted hf.sorted hperm

end Ussr.SortedEntries
