import Mathlib.Data.List.Nodup

/-! Doubly linked lists of cells named by identifiers. `Segment` says that the
two pointer maps visit exactly the listed cells, from left to right and from
right to left, between two given neighbours. Inserting a cell after another
and removing a cell are pointer updates that keep it. -/

namespace Ussr.LinkedList

variable {Id : Type*} {next prev next' prev' : Id → Option Id}
variable {xs : List Id} {p q : Option Id}

/-- The cells `ids` are linked in this order; `p` comes before the first and
`q` after the last of them. -/
def Segment (next prev : Id → Option Id) (p : Option Id) : List Id → Option Id → Prop
  | [], _ => True
  | x :: xs, q => prev x = p ∧ next x = xs.head?.or q ∧ Segment next prev (some x) xs q

theorem segment_append {ys : List Id} :
    Segment next prev p (xs ++ ys) q ↔
      Segment next prev p xs (ys.head?.or q) ∧ Segment next prev (xs.getLast?.or p) ys q := by
  induction xs generalizing p with
  | nil => simp [Segment]
  | cons x xs ih =>
    have hlast : ((x :: xs).getLast?).or p = xs.getLast?.or (some x) := by
      cases h : xs.getLast? <;> simp [List.getLast?_cons, h]
    have hhead : (xs ++ ys).head?.or q = xs.head?.or (ys.head?.or q) := by
      cases xs <;> simp
    rw [List.cons_append, Segment, Segment, ih, hhead, hlast]
    tauto

theorem Segment.congr (h : Segment next prev p xs q)
    (hn : ∀ x ∈ xs, next' x = next x) (hp : ∀ x ∈ xs, prev' x = prev x) :
    Segment next' prev' p xs q := by
  induction xs generalizing p with
  | nil => trivial
  | cons x xs ih =>
    obtain ⟨hprev, hnext, hrest⟩ := h
    refine ⟨(hp x List.mem_cons_self).trans hprev, (hn x List.mem_cons_self).trans hnext, ?_⟩
    exact ih hrest (fun y hy => hn y (List.mem_cons_of_mem x hy))
      (fun y hy => hp y (List.mem_cons_of_mem x hy))

theorem Segment.next_getElem (h : Segment next prev p xs none)
    {i : Nat} {x : Id} (hx : xs[i]? = some x) : next x = xs[i + 1]? := by
  induction xs generalizing p i with
  | nil => simp at hx
  | cons y ys ih =>
    obtain ⟨-, hnext, hrest⟩ := h
    cases i with
    | zero =>
      obtain rfl : y = x := by simpa using hx
      rw [hnext, Option.or_none, List.head?_eq_getElem?]
      rfl
    | succ i => exact ih hrest (by simpa using hx)

theorem Segment.prev_getElem (h : Segment next prev p xs q)
    {i : Nat} {x : Id} (hx : xs[i]? = some x) :
    prev x = if i = 0 then p else xs[i - 1]? := by
  induction xs generalizing p i with
  | nil => simp at hx
  | cons y ys ih =>
    obtain ⟨hprev, -, hrest⟩ := h
    cases i with
    | zero =>
      obtain rfl : y = x := by simpa using hx
      exact hprev
    | succ i =>
      rw [ih hrest (by simpa using hx), if_neg (Nat.succ_ne_zero i)]
      cases i <;> simp

structure Linked (next prev : Id → Option Id) (ids : List Id) : Prop where
  nodup : ids.Nodup
  segment : Segment next prev none ids none

theorem Linked.nil (next prev : Id → Option Id) : Linked next prev [] :=
  ⟨List.nodup_nil, trivial⟩

/-- The cells `ids` are linked in this order by the pointers forward alone, and the last of them has none. -/
def Chain (next : Id → Option Id) : List Id → Prop
  | [] => True
  | x :: xs => next x = xs.head? ∧ Chain next xs

theorem Chain.congr (h : Chain next xs) (hn : ∀ x ∈ xs, next' x = next x) : Chain next' xs := by
  induction xs with
  | nil => trivial
  | cons x xs ih =>
    refine ⟨(hn x List.mem_cons_self).trans h.1, ih h.2 fun y hy => hn y (List.mem_cons_of_mem x hy)⟩

theorem Chain.push {r : Id} (h : Chain next xs) (hd : xs.Nodup) (hr : next' r = none)
    (hlast : ∀ x ∈ xs, xs.getLast? = some x → next' x = some r) (hn : ∀ x ∈ xs, xs.getLast? ≠ some x → next' x = next x) :
    Chain next' (xs ++ [r]) := by
  induction xs with
  | nil => exact ⟨hr, trivial⟩
  | cons x xs ih =>
    obtain ⟨hx, hxs⟩ := h
    obtain ⟨hmem, hd⟩ := List.nodup_cons.mp hd
    cases xs with
    | nil => exact ⟨hlast x List.mem_cons_self rfl, hr, trivial⟩
    | cons y ys =>
      have hsame : (x :: y :: ys).getLast? = (y :: ys).getLast? := rfl
      have hother : (y :: ys).getLast? ≠ some x := fun hx => hmem (List.mem_of_getLast? hx)
      refine ⟨(hn x List.mem_cons_self (hsame ▸ hother)).trans hx, ih hxs hd ?_ ?_⟩
      · exact fun z hz => hsame ▸ hlast z (List.mem_cons_of_mem x hz)
      · exact fun z hz => hsame ▸ hn z (List.mem_cons_of_mem x hz)

variable [DecidableEq Id]

theorem Segment.rehang {p' : Option Id} (h : Segment next prev p xs q)
    (hd : xs.Nodup) (hn : ∀ x ∈ xs, next' x = next x)
    (hp : ∀ x ∈ xs, prev' x = if xs.head? = some x then p' else prev x) :
    Segment next' prev' p' xs q := by
  cases xs with
  | nil => trivial
  | cons x xs =>
    obtain ⟨-, hnext, hrest⟩ := h
    refine ⟨by simpa using hp x List.mem_cons_self,
      (hn x List.mem_cons_self).trans hnext, hrest.congr ?_ ?_⟩
    · exact fun y hy => hn y (List.mem_cons_of_mem x hy)
    · intro y hy
      have hxy : x ≠ y := fun hxy => (List.nodup_cons.mp hd).1 (hxy ▸ hy)
      simpa [hxy] using hp y (List.mem_cons_of_mem x hy)

theorem Linked.insertAfter {ys : List Id} {a r : Id}
    (h : Linked next prev (xs ++ a :: ys)) (hr : r ∉ xs ++ a :: ys)
    (hnr : next' r = next a) (hna : next' a = some r)
    (hn : ∀ x ∈ xs ++ a :: ys, x ≠ a → next' x = next x)
    (hpr : prev' r = some a)
    (hp : ∀ x ∈ xs ++ a :: ys, prev' x = if next a = some x then some r else prev x) :
    Linked next' prev' (xs ++ a :: r :: ys) := by
  have hnodup : (xs ++ a :: r :: ys).Nodup := by
    rw [← List.singleton_append, ← List.append_assoc]
    rw [← List.singleton_append, ← List.append_assoc] at h hr
    rw [List.nodup_middle, List.nodup_cons]
    exact ⟨hr, h.nodup⟩
  obtain ⟨hxs, haprev, hanext, hys⟩ := segment_append.mp h.segment
  rw [Option.or_none] at hanext
  have hxsA : ∀ x ∈ xs, x ≠ a := by
    rintro x hx rfl
    exact List.disjoint_of_nodup_append h.nodup hx List.mem_cons_self
  have hysA : ∀ y ∈ ys, y ≠ a := by
    rintro y hy rfl
    exact (List.nodup_cons.mp h.nodup.of_append_right).1 hy
  have hheadXs : ∀ x ∈ xs, ys.head? ≠ some x := by
    intro x hx hhead
    exact List.disjoint_of_nodup_append h.nodup hx
      (List.mem_cons_of_mem a (List.mem_of_mem_head? hhead))
  have hheadA : ys.head? ≠ some a := fun hhead => hysA a (List.mem_of_mem_head? hhead) rfl
  refine ⟨hnodup, segment_append.mpr ⟨?_, ?_, ?_, ?_, ?_, ?_⟩⟩
  · refine hxs.congr (fun x hx => hn x (List.mem_append_left _ hx) (hxsA x hx)) ?_
    intro x hx
    rw [hp x (List.mem_append_left _ hx), hanext, if_neg (hheadXs x hx)]
  · rw [hp a (by simp), hanext, if_neg hheadA, haprev]
  · rw [hna]
    rfl
  · exact hpr
  · rw [hnr, hanext, Option.or_none]
  · refine hys.rehang h.nodup.of_append_right.of_cons ?_ ?_
    · exact fun y hy => hn y (by simp [hy]) (hysA y hy)
    · intro y hy
      rw [hp y (by simp [hy]), hanext]

theorem Linked.removeAfter {ys : List Id} {a b : Id}
    (h : Linked next prev (xs ++ a :: b :: ys)) (hna : next' a = next b)
    (hn : ∀ x ∈ xs ++ ys, next' x = next x)
    (hp : ∀ x ∈ xs ++ a :: ys, prev' x = if next b = some x then some a else prev x) :
    Linked next' prev' (xs ++ a :: ys) := by
  have hnodup : (xs ++ a :: ys).Nodup :=
    h.nodup.sublist (List.Sublist.append_left (by simp) xs)
  obtain ⟨hxs, haprev, -, -, hbnext, hys⟩ := segment_append.mp h.segment
  rw [Option.or_none] at hbnext
  have hheadXs : ∀ x ∈ xs, ys.head? ≠ some x := by
    intro x hx hhead
    exact List.disjoint_of_nodup_append hnodup hx
      (List.mem_cons_of_mem a (List.mem_of_mem_head? hhead))
  have hheadA : ys.head? ≠ some a := fun hhead =>
    (List.nodup_cons.mp hnodup.of_append_right).1 (List.mem_of_mem_head? hhead)
  refine ⟨hnodup, segment_append.mpr ⟨?_, ?_, ?_, ?_⟩⟩
  · refine hxs.congr (fun x hx => hn x (List.mem_append_left _ hx)) ?_
    intro x hx
    rw [hp x (List.mem_append_left _ hx), hbnext, if_neg (hheadXs x hx)]
  · rw [hp a (by simp), hbnext, if_neg hheadA, haprev]
  · rw [hna, hbnext, Option.or_none]
  · refine hys.rehang hnodup.of_append_right.of_cons ?_ ?_
    · exact fun y hy => hn y (List.mem_append_right _ hy)
    · intro y hy
      rw [hp y (by simp [hy]), hbnext]

end Ussr.LinkedList
