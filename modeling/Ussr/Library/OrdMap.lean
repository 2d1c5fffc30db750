import Mathlib.Algebra.BigOperators.Group.List.Basic
import Mathlib.Algebra.Order.Ring.Nat
import Ussr.Library.SortedEntries

/-! Ordered maps: entries in increasing key order, with the queries that an
ordered container answers. -/

namespace Ussr
open SortedEntries

structure OrdMap (K V : Type) [LinearOrder K] where
  entries : List (K × V)
  sorted : Sorted entries

namespace OrdMap

variable {K V W : Type} [LinearOrder K]

def empty : OrdMap K V := ⟨[], List.Pairwise.nil⟩

def get (m : OrdMap K V) (k : K) : Option V :=
  (m.entries.find? fun e => e.1 = k).map Prod.snd

def has (m : OrdMap K V) (k : K) : Bool :=
  (m.get k).isSome

def put (m : OrdMap K V) (k : K) (v : V) : OrdMap K V :=
  ⟨SortedEntries.put k v m.entries, m.sorted.put k v⟩

def del (m : OrdMap K V) (k : K) : OrdMap K V :=
  ⟨erase k m.entries, m.sorted.erase k⟩

def len (m : OrdMap K V) : Nat :=
  m.entries.length

def keys (m : OrdMap K V) : List K :=
  m.entries.map Prod.fst

def first (m : OrdMap K V) : Option K :=
  m.entries.head?.map Prod.fst

/-- The largest key `≤ k`. -/
def floor (m : OrdMap K V) (k : K) : Option K :=
  (m.entries.filter fun e => e.1 ≤ k).getLast?.map Prod.fst

/-- The smallest key `≥ k`. -/
def ceil (m : OrdMap K V) (k : K) : Option K :=
  (m.entries.find? fun e => k ≤ e.1).map Prod.fst

/-- The entries with `lo ≤ key < hi`; an absent bound is open. -/
def range (m : OrdMap K V) (lo hi : Option K) : List (K × V) :=
  m.entries.filter fun e => lo.all (fun lo => lo ≤ e.1) && hi.all (fun hi => e.1 < hi)

def map (f : V → W) (m : OrdMap K V) : OrdMap K W where
  entries := m.entries.map fun e => (e.1, f e.2)
  sorted := by
    have hsorted := m.sorted
    rw [Sorted] at hsorted ⊢
    exact List.pairwise_map.mpr hsorted

/-- The first `n` entries. -/
def take (m : OrdMap K V) (n : Nat) : OrdMap K V :=
  ⟨m.entries.take n, m.sorted.sublist (List.take_sublist n _)⟩

def drop (m : OrdMap K V) (n : Nat) : OrdMap K V :=
  ⟨m.entries.drop n, m.sorted.sublist (List.drop_sublist n _)⟩

theorem entries_put (m : OrdMap K V) (k : K) (v : V) :
    (m.put k v).entries = SortedEntries.put k v m.entries := rfl

theorem entries_del (m : OrdMap K V) (k : K) : (m.del k).entries = erase k m.entries := rfl

theorem ext_entries {m n : OrdMap K V} (h : m.entries = n.entries) : m = n := by
  cases m
  cases n
  cases h
  rfl

section

variable {m : OrdMap K V} {k q : K} {v : V}

theorem get_eq_some_iff : m.get k = some v ↔ (k, v) ∈ m.entries := by
  unfold get
  rw [Option.map_eq_some_iff]
  constructor
  · rintro ⟨⟨q, w⟩, hfind, rfl⟩
    obtain rfl : q = k := by simpa using List.find?_some hfind
    exact List.mem_of_find?_eq_some hfind
  · intro hmem
    refine ⟨(k, v), ?_, rfl⟩
    cases hfind : m.entries.find? fun e => e.1 = k with
    | none => simpa using List.find?_eq_none.mp hfind _ hmem
    | some e =>
      have hkey : e.1 = k := by simpa using List.find?_some hfind
      rw [m.sorted.unique (List.mem_of_find?_eq_some hfind) hmem hkey]

theorem get_eq_none_iff : m.get k = none ↔ ∀ e ∈ m.entries, e.1 ≠ k := by
  rw [get, Option.map_eq_none_iff, List.find?_eq_none]
  simp

theorem represents (m : OrdMap K V) : Represents m.entries m.get :=
  ⟨m.sorted, fun _ _ => get_eq_some_iff.symm⟩

theorem ext_get {m n : OrdMap K V} (h : m.get = n.get) : m = n :=
  ext_entries (m.represents.unique (h ▸ n.represents))

theorem get_put (m : OrdMap K V) (k q : K) (v : V) :
    (m.put k v).get q = if q = k then some v else m.get q := by
  refine Option.ext fun w => ?_
  rw [get_eq_some_iff, put, mem_put m.sorted]
  split_ifs with hq
  · simp [hq, eq_comm]
  · simp [hq, get_eq_some_iff]

theorem get_del (m : OrdMap K V) (k q : K) :
    (m.del k).get q = if q = k then none else m.get q := by
  refine Option.ext fun w => ?_
  rw [get_eq_some_iff, del, mem_erase]
  split_ifs with hq
  · simp [hq]
  · simp [hq, get_eq_some_iff]

@[simp] theorem get_put_self (m : OrdMap K V) (k : K) (v : V) : (m.put k v).get k = some v := by
  rw [get_put, if_pos rfl]

theorem get_put_ne (h : q ≠ k) : (m.put k v).get q = m.get q := by
  rw [get_put, if_neg h]

theorem get_put_cases {w : V} (h : (m.put k v).get q = some w) :
    (q = k ∧ w = v) ∨ (q ≠ k ∧ m.get q = some w) := by
  rw [get_put] at h
  split_ifs at h with hq
  · exact Or.inl ⟨hq, (Option.some.inj h).symm⟩
  · exact Or.inr ⟨hq, h⟩

theorem get_del_ne (h : q ≠ k) : (m.del k).get q = m.get q := by
  rw [get_del, if_neg h]

theorem has_iff : m.has k = true ↔ ∃ v, m.get k = some v :=
  Option.isSome_iff_exists

theorem get_of_take {n : Nat} (h : (m.take n).get k = some v) : m.get k = some v :=
  get_eq_some_iff.mpr (List.mem_of_mem_take (get_eq_some_iff.mp h))

theorem get_of_drop {n : Nat} (h : (m.drop n).get k = some v) : m.get k = some v :=
  get_eq_some_iff.mpr (List.mem_of_mem_drop (get_eq_some_iff.mp h))

theorem mem_keys : k ∈ m.keys ↔ ∃ v, m.get k = some v := by
  simp only [keys, List.mem_map, get_eq_some_iff]
  constructor
  · rintro ⟨e, he, rfl⟩
    exact ⟨e.2, he⟩
  · rintro ⟨v, hv⟩
    exact ⟨_, hv, rfl⟩

end

section

variable {m : OrdMap K V} {k : K} {v w : V} {as bs : List (K × V)}

/-- The keys of `as` lie before `k` and those of `bs` behind it. -/
structure Around (k : K) (as bs : List (K × V)) : Prop where
  before : ∀ a ∈ as, a.1 < k
  behind : ∀ b ∈ bs, k < b.1

theorem around_of_entries (h : m.entries = as ++ (k, v) :: bs) : Around k as bs := by
  obtain ⟨-, hright, hcross⟩ := sorted_append.mp (h ▸ m.sorted)
  exact ⟨fun a ha => hcross a ha _ List.mem_cons_self, (List.pairwise_cons.mp hright).1⟩

theorem entries_of_get (h : m.get k = some v) :
    ∃ as bs, m.entries = as ++ (k, v) :: bs ∧ Around k as bs := by
  obtain ⟨as, bs, hentries⟩ := List.append_of_mem (get_eq_some_iff.mp h)
  exact ⟨as, bs, hentries, around_of_entries hentries⟩

theorem put_of_entries (h : m.entries = as ++ (k, v) :: bs) (w : V) :
    (m.put k w).entries = as ++ (k, w) :: bs := by
  rw [entries_put, h, put_append_left w _ (around_of_entries h).before]
  simp [SortedEntries.put]

theorem put_of_around (h : m.entries = as ++ bs) (hk : Around k as bs) (w : V) :
    (m.put k w).entries = as ++ (k, w) :: bs := by
  rw [entries_put, h, put_append_left w _ hk.before, put_of_lt w hk.behind]

theorem erase_middle (hk : Around k as bs) : erase k (as ++ (k, v) :: bs) = as ++ bs := by
  have has : k ∉ as.map Prod.fst := by
    intro hin
    obtain ⟨a, ha, hak⟩ := List.mem_map.mp hin
    exact (hk.before a ha).ne hak
  have hbs : k ∉ bs.map Prod.fst := by
    intro hin
    obtain ⟨b, hb, hbk⟩ := List.mem_map.mp hin
    exact (hk.behind b hb).ne' hbk
  rw [erase_append, erase_of_notMem has]
  simpa [erase] using erase_of_notMem hbs

theorem del_of_entries (h : m.entries = as ++ (k, v) :: bs) : (m.del k).entries = as ++ bs := by
  rw [entries_del, h]
  exact erase_middle (around_of_entries h)

theorem around_of_get_none (h : m.get k = none) (v : V) :
    ∃ as bs, m.entries = as ++ bs ∧ Around k as bs := by
  have hput : (m.put k v).get k = some v := get_put_self m k v
  obtain ⟨as, bs, hentries, haround⟩ := entries_of_get hput
  have hdel : (m.put k v).del k = m := by
    refine ext_get (funext fun q => ?_)
    rw [get_del]
    split_ifs with hq
    · rw [hq, h]
    · exact get_put_ne hq
  exact ⟨as, bs, hdel ▸ del_of_entries hentries, haround⟩

theorem keys_nodup (m : OrdMap K V) : m.keys.Nodup := m.sorted.nodup_keys

theorem keys_put_of_none (h : m.get k = none) (v : V) : (m.put k v).keys.Perm (k :: m.keys) := by
  obtain ⟨as, bs, hentries, haround⟩ := around_of_get_none h v
  rw [keys, keys, put_of_around hentries haround, hentries, List.map_append, List.map_append, List.map_cons]
  exact List.perm_middle

theorem del_of_get_none (h : m.get k = none) : m.del k = m := by
  refine ext_get (funext fun q => ?_)
  rw [get_del]
  split_ifs with hq
  · rw [hq, h]
  · rfl

end

section

variable {m : OrdMap K V} {k q : K}

theorem floor_eq_none_iff : m.floor k = none ↔ ∀ e ∈ m.entries, k < e.1 := by
  rw [floor, Option.map_eq_none_iff, List.getLast?_eq_none_iff, List.filter_eq_nil_iff]
  simp

theorem floor_eq_some_iff : m.floor k = some q ↔
    ∃ v as bs, m.entries = as ++ (q, v) :: bs ∧ q ≤ k ∧ ∀ b ∈ bs, k < b.1 := by
  constructor
  · intro h
    obtain ⟨⟨p, v⟩, hlast, rfl⟩ := Option.map_eq_some_iff.mp h
    have hmem := List.mem_filter.mp (List.mem_of_getLast? hlast)
    obtain ⟨as, bs, hentries, haround⟩ := entries_of_get (get_eq_some_iff.mpr hmem.1)
    refine ⟨v, as, bs, hentries, by simpa using hmem.2, fun b hb => ?_⟩
    by_contra hbk
    have hnonempty : (bs.filter fun e => decide (e.1 ≤ k)) ≠ [] :=
      List.ne_nil_of_mem (List.mem_filter.mpr ⟨hb, by simpa using hbk⟩)
    rw [hentries, List.filter_append, List.filter_cons, if_pos hmem.2,
      List.getLast?_append_of_ne_nil _ (by simp)] at hlast
    rw [List.getLast?_cons, Option.some.injEq, List.getLast?_eq_some_getLast hnonempty,
      Option.getD_some] at hlast
    have hlater := List.mem_filter.mp (hlast ▸ List.getLast_mem hnonempty)
    exact absurd (haround.behind _ hlater.1) (lt_irrefl _)
  · rintro ⟨v, as, bs, hentries, hle, hbs⟩
    have hright : (bs.filter fun e => decide (e.1 ≤ k)) = [] := by
      rw [List.filter_eq_nil_iff]
      exact fun b hb => by simpa using hbs b hb
    rw [floor, hentries, List.filter_append, List.filter_cons, if_pos (by simpa using hle), hright,
      List.getLast?_concat]
    rfl

theorem ceil_lt_iff {t : K} : (∃ q, m.ceil k = some q ∧ q < t) ↔ ∃ q ∈ m.keys, k ≤ q ∧ q < t := by
  constructor
  · rintro ⟨q, hq, hlt⟩
    obtain ⟨e, he, rfl⟩ := Option.map_eq_some_iff.mp hq
    have hle := List.find?_some (p := fun e : K × V => decide (k ≤ e.1)) he
    exact ⟨e.1, List.mem_map_of_mem (List.mem_of_find?_eq_some he), of_decide_eq_true hle, hlt⟩
  · rintro ⟨q, hq, hle, hlt⟩
    obtain ⟨e, he, rfl⟩ := List.mem_map.mp hq
    obtain ⟨found, hfound⟩ : ∃ found, m.entries.find? (fun e => k ≤ e.1) = some found :=
      Option.isSome_iff_exists.mp (List.find?_isSome.mpr ⟨e, he, decide_eq_true hle⟩)
    refine ⟨found.1, by rw [ceil, hfound]; rfl, lt_of_le_of_lt ?_ hlt⟩
    obtain ⟨-, as, bs, hentries, has⟩ := List.find?_eq_some_iff_append.mp hfound
    have hin : e ∈ as ++ found :: bs := hentries ▸ he
    obtain hin | hin := List.mem_append.mp hin
    · have hnot := has e hin
      simp [hle] at hnot
    obtain rfl | hin := List.mem_cons.mp hin
    · exact le_rfl
    · have hsorted := m.sorted
      rw [hentries, Sorted, List.pairwise_append, List.pairwise_cons] at hsorted
      exact (hsorted.2.1.1 e hin).le

theorem first_of_cons {e : K × V} {es : List (K × V)} (h : m.entries = e :: es) :
    m.first = some e.1 := by
  rw [first, h]
  rfl

theorem get_first (h : m.first = some k) : ∃ v es, m.entries = (k, v) :: es := by
  cases hentries : m.entries with
  | nil => simp [first, hentries] at h
  | cons e es =>
    rw [first_of_cons hentries] at h
    cases h
    exact ⟨e.2, es, rfl⟩

end

section

variable (f : V → W) (m : OrdMap K V) (k : K)

theorem map_sortedPut (v : V) (es : List (K × V)) :
    (SortedEntries.put k v es).map (fun e => (e.1, f e.2)) =
      SortedEntries.put k (f v) (es.map fun e => (e.1, f e.2)) := by
  induction es with
  | nil => rfl
  | cons e es ih =>
    simp only [SortedEntries.put, List.map_cons]
    split_ifs <;> simp [ih]

@[simp] theorem map_put (v : V) : (m.put k v).map f = (m.map f).put k (f v) :=
  ext_entries (map_sortedPut f k v m.entries)

@[simp] theorem map_del : (m.del k).map f = (m.map f).del k := by
  refine ext_entries ?_
  simp [map, del, erase, List.filter_map, Function.comp_def]

@[simp] theorem get_map : (m.map f).get k = (m.get k).map f := by
  simp [get, map, List.find?_map, Function.comp_def]

@[simp] theorem keys_map : (m.map f).keys = m.keys := by
  simp [keys, map, Function.comp_def]

@[simp] theorem len_map : (m.map f).len = m.len := by
  simp [len, map]

@[simp] theorem first_map : (m.map f).first = m.first := by
  simp [first, map, Function.comp_def]

@[simp] theorem floor_map : (m.map f).floor k = m.floor k := by
  simp [floor, map, List.filter_map, Function.comp_def, List.getLast?_map]

@[simp] theorem take_map (n : Nat) : (m.map f).take n = (m.take n).map f :=
  ext_entries (by simp [map, take])

@[simp] theorem drop_map (n : Nat) : (m.map f).drop n = (m.drop n).map f :=
  ext_entries (by simp [map, drop])

@[simp] theorem map_empty : (empty : OrdMap K V).map f = empty := rfl

theorem range_map (lo hi : Option K) :
    (m.map f).range lo hi = (m.range lo hi).map fun e => (e.1, f e.2) := by
  simp [range, map, List.filter_map, Function.comp_def]

end

section

variable (g : V → Nat) {m : OrdMap K V} {k : K} {v : V}

def sum (m : OrdMap K V) : Nat :=
  (m.entries.map fun e => g e.2).sum

@[simp] theorem sum_empty : (empty : OrdMap K V).sum g = 0 := rfl

theorem sum_del (h : m.get k = some v) : (m.del k).sum g + g v = m.sum g := by
  obtain ⟨as, bs, hentries, -⟩ := entries_of_get h
  simp only [sum, del_of_entries hentries, hentries, List.map_append, List.map_cons,
    List.sum_append, List.sum_cons]
  omega

theorem sum_put_of_get (h : m.get k = some v) (w : V) : (m.put k w).sum g + g v = m.sum g + g w := by
  obtain ⟨as, bs, hentries, -⟩ := entries_of_get h
  simp only [sum, put_of_entries hentries, hentries, List.map_append, List.map_cons,
    List.sum_append, List.sum_cons]
  omega

theorem sum_put_of_none (h : m.get k = none) (w : V) : (m.put k w).sum g = m.sum g + g w := by
  obtain ⟨as, bs, hentries, haround⟩ := around_of_get_none h w
  simp only [sum, put_of_around hentries haround, hentries, List.map_append, List.map_cons,
    List.sum_append, List.sum_cons]
  omega

theorem sum_put_le (m : OrdMap K V) (k : K) (w : V) : (m.put k w).sum g ≤ m.sum g + g w := by
  cases hget : m.get k with
  | none => exact Nat.le_of_eq (sum_put_of_none g hget w)
  | some v => exact Nat.le_trans (Nat.le_add_right _ _) (Nat.le_of_eq (sum_put_of_get g hget w))

theorem le_sum (h : m.get k = some v) : g v ≤ m.sum g := by
  have := sum_del g h
  omega

theorem add_le_sum {q : K} {w : V} (h : m.get k = some v) (hq : m.get q = some w) (hne : q ≠ k) :
    g v + g w ≤ m.sum g := by
  have hrest : g w ≤ (m.del k).sum g := le_sum g ((get_del_ne hne).trans hq)
  have := sum_del g h
  omega

theorem len_eq_sum (m : OrdMap K V) : m.len = m.sum fun _ => 1 := by
  simp [len, sum]

theorem len_put_of_get (h : m.get k = some v) (w : V) : (m.put k w).len = m.len := by
  have := sum_put_of_get (fun _ => 1) h w
  simp only [len_eq_sum]
  omega

theorem len_put_of_none (h : m.get k = none) (w : V) : (m.put k w).len = m.len + 1 := by
  simp only [len_eq_sum, sum_put_of_none _ h]

theorem len_put_le (m : OrdMap K V) (k : K) (w : V) : (m.put k w).len ≤ m.len + 1 := by
  simp only [len_eq_sum]
  exact sum_put_le (fun _ => 1) m k w

theorem len_del (h : m.get k = some v) : (m.del k).len + 1 = m.len := by
  simp only [len_eq_sum]
  exact sum_del (fun _ => 1) h

theorem sum_take_drop (m : OrdMap K V) (n : Nat) : (m.take n).sum g + (m.drop n).sum g = m.sum g := by
  simp only [sum, take, drop]
  rw [← List.sum_append, ← List.map_append, List.take_append_drop]

end

end OrdMap

end Ussr
