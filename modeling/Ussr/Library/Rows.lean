import Ussr.Library.SortedEntries

/-! Rows of a search tree of even depth. A row is a list of separators, each with
the part behind it; the entries of the parts, one behind the other, are the row
below. Insertion into a part and the split of a part keep the order of the row. -/

namespace Ussr.Rows
open SortedEntries

variable {K B V : Type} [LinearOrder K]

/-- The last entry of a row that is not behind `k`. -/
def rank (k : K) (ps : List (K × B)) : Option (K × B) := (ps.filter fun p => p.1 ≤ k).getLast?

def line (entries : B → List (K × V)) (ps : List (K × B)) : List (K × V) := ps.flatMap fun p => entries p.2

structure Ranged (entries : B → List (K × V)) (ps : List (K × B)) : Prop where
  low : ∀ p ∈ ps, ∀ e ∈ entries p.2, p.1 ≤ e.1
  high : ps.Pairwise fun p q => ∀ e ∈ entries p.2, e.1 < q.1

section

variable {k : K} {p : K × B} {as bs : List (K × B)}

theorem filter_behind (h : ∀ q ∈ bs, k < q.1) : (bs.filter fun p => p.1 ≤ k) = [] := by
  rw [List.filter_eq_nil_iff]
  intro q hq
  simpa using h q hq

theorem rank_append_behind (h : ∀ q ∈ bs, k < q.1) : rank k (as ++ bs) = rank k as := by
  rw [rank, List.filter_append, filter_behind h, List.append_nil, rank]

theorem rank_append (h : rank k bs = some p) : rank k (as ++ bs) = some p := by
  unfold rank at h ⊢
  have hne : (bs.filter fun p => p.1 ≤ k) ≠ [] := by
    intro hnil
    rw [hnil] at h
    cases h
  rw [List.filter_append, List.getLast?_append_of_ne_nil _ hne, h]

theorem rank_of_split (hp : p.1 ≤ k) (h : ∀ q ∈ bs, k < q.1) : rank k (as ++ p :: bs) = some p := by
  refine rank_append ?_
  rw [rank, List.filter_cons, if_pos (by simpa using hp), filter_behind h]
  rfl

theorem rank_split {ps : List (K × B)} (h : rank k ps = some p) :
    ∃ as bs, ps = as ++ p :: bs ∧ p.1 ≤ k ∧ ∀ q ∈ bs, k < q.1 := by
  induction ps with
  | nil => cases h
  | cons q ps ih =>
    by_cases hrest : ∃ r, rank k ps = some r
    · obtain ⟨r, hr⟩ := hrest
      have hsame : rank k ([q] ++ ps) = some r := rank_append hr
      obtain ⟨as, bs, hps, hle, hbs⟩ := ih (hr.trans (hsame.symm.trans h))
      exact ⟨q :: as, bs, congrArg (q :: ·) hps, hle, hbs⟩
    · have hbehind : ∀ r ∈ ps, k < r.1 := by
        intro r hr
        by_contra hle
        have hne : (ps.filter fun p => p.1 ≤ k) ≠ [] :=
          List.ne_nil_of_mem (List.mem_filter.mpr ⟨hr, by simpa using hle⟩)
        exact hrest ⟨_, List.getLast?_eq_some_getLast hne⟩
      have hone : rank k (q :: ps) = rank k [q] :=
        (rank_append_behind hbehind : rank k ([q] ++ ps) = _)
      rw [hone, rank, List.filter_cons] at h
      split_ifs at h with hq
      · cases h
        exact ⟨[], ps, rfl, by simpa using hq, hbehind⟩
      · cases h

end

section

variable {entries entries' : B → List (K × V)} {ps as bs : List (K × B)} {s : K} {b : B}

omit [LinearOrder K] in
theorem line_append (entries : B → List (K × V)) (as bs : List (K × B)) :
    line entries (as ++ bs) = line entries as ++ line entries bs := List.flatMap_append

omit [LinearOrder K] in
theorem line_cons (entries : B → List (K × V)) (p : K × B) (bs : List (K × B)) :
    line entries (p :: bs) = entries p.2 ++ line entries bs := List.flatMap_cons

omit [LinearOrder K] in
theorem line_congr (h : ∀ p ∈ ps, entries' p.2 = entries p.2) : line entries' ps = line entries ps :=
  List.flatMap_congr h

theorem Ranged.congr (hranged : Ranged entries ps) (h : ∀ p ∈ ps, entries' p.2 = entries p.2) : Ranged entries' ps where
  low p hp e he := hranged.low p hp e (h p hp ▸ he)
  high := hranged.high.imp_of_mem fun hp _ hlt e he => hlt e (h _ hp ▸ he)

theorem Ranged.before (h : Ranged entries (as ++ (s, b) :: bs)) : ∀ e ∈ line entries as, e.1 < s := by
  intro e he
  obtain ⟨p, hp, he⟩ := List.mem_flatMap.mp he
  exact (List.pairwise_append.mp h.high).2.2 p hp (s, b) List.mem_cons_self e he

theorem Ranged.behind (h : Ranged entries (as ++ (s, b) :: bs)) {k : K} (hk : ∀ q ∈ bs, k < q.1) :
    ∀ e ∈ line entries bs, k < e.1 := by
  intro e he
  obtain ⟨q, hq, he⟩ := List.mem_flatMap.mp he
  exact lt_of_lt_of_le (hk q hq) (h.low q (List.mem_append_right _ (List.mem_cons_of_mem _ hq)) e he)

theorem Ranged.sorted (h : Ranged entries ps) (hsorted : ∀ p ∈ ps, Sorted (entries p.2)) : Sorted (line entries ps) := by
  induction ps with
  | nil => exact List.Pairwise.nil
  | cons p ps ih =>
    obtain ⟨hnext, hhigh⟩ := List.pairwise_cons.mp h.high
    rw [line_cons]
    refine (hsorted p List.mem_cons_self).append
      (ih ⟨fun q hq => h.low q (List.mem_cons_of_mem _ hq), hhigh⟩ fun q hq => hsorted q (List.mem_cons_of_mem _ hq)) ?_
    intro e he f hf
    obtain ⟨q, hq, hf⟩ := List.mem_flatMap.mp hf
    exact lt_of_lt_of_le (hnext q hq e he) (h.low q (List.mem_cons_of_mem _ hq) f hf)

theorem Ranged.rank_line (h : Ranged entries (as ++ (s, b) :: bs)) {k : K} (hk : ∀ q ∈ bs, k < q.1) {e : K × V}
    (he : rank k (entries b) = some e) : rank k (line entries (as ++ (s, b) :: bs)) = some e := by
  rw [line_append, line_cons]
  refine rank_append ?_
  rw [rank_append_behind (h.behind hk)]
  exact he

theorem mem_line_iff (h : Ranged entries (as ++ (s, b) :: bs)) {k : K} (hs : s ≤ k) (hk : ∀ q ∈ bs, k < q.1) {v : V} :
    (k, v) ∈ line entries (as ++ (s, b) :: bs) ↔ (k, v) ∈ entries b := by
  rw [line_append, line_cons, List.mem_append, List.mem_append]
  constructor
  · rintro (hbefore | hin | hbehind)
    · exact absurd (h.before _ hbefore) (not_lt_of_ge hs)
    · exact hin
    · exact absurd (h.behind hk _ hbehind) (lt_irrefl _)
  · exact fun hin => .inr (.inl hin)

theorem Ranged.put (h : Ranged entries (as ++ (s, b) :: bs)) {k : K} (hs : s ≤ k) (hk : ∀ q ∈ bs, k < q.1) (v : V)
    (hb : entries' b = SortedEntries.put k v (entries b)) (has : ∀ p ∈ as, entries' p.2 = entries p.2)
    (hbs : ∀ p ∈ bs, entries' p.2 = entries p.2) :
    Ranged entries' (as ++ (s, b) :: bs) ∧
      line entries' (as ++ (s, b) :: bs) = SortedEntries.put k v (line entries (as ++ (s, b) :: bs)) := by
  obtain ⟨hhighas, hhighb, hcross⟩ := List.pairwise_append.mp h.high
  obtain ⟨hnext, hhighbs⟩ := List.pairwise_cons.mp hhighb
  have hput : ∀ e ∈ entries' b, e.1 = k ∨ ∃ f ∈ entries b, f.1 = e.1 := by
    intro e he
    have hmem : e.1 ∈ (SortedEntries.put k v (entries b)).map Prod.fst := List.mem_map_of_mem (hb ▸ he)
    obtain hkey | hkey := mem_keys_put.mp hmem
    · exact .inl hkey
    · obtain ⟨f, hf, heq⟩ := List.mem_map.mp hkey
      exact .inr ⟨f, hf, heq⟩
  have hlow := h.low
  refine ⟨⟨fun p hp e he => ?_, List.pairwise_append.mpr ⟨?_, List.pairwise_cons.mpr ⟨fun q hq e he => ?_, ?_⟩, ?_⟩⟩, ?_⟩
  · rcases List.mem_append.mp hp with hp' | hp'
    · exact hlow p hp e (has p hp' ▸ he)
    rcases List.mem_cons.mp hp' with rfl | hp'
    · rcases hput e he with hkey | ⟨f, hf, hkey⟩
      · exact hkey ▸ hs
      · exact hkey ▸ hlow _ hp f hf
    · exact hlow p hp e (hbs p hp' ▸ he)
  · exact hhighas.imp_of_mem fun hp _ hlt e he => hlt e (has _ hp ▸ he)
  · rcases hput e he with hkey | ⟨f, hf, hkey⟩
    · exact hkey ▸ hk q hq
    · exact hkey ▸ hnext q hq f hf
  · exact hhighbs.imp_of_mem fun hp _ hlt e he => hlt e (hbs _ hp ▸ he)
  · exact fun p hp q hq e he => hcross p hp q hq e (has p hp ▸ he)
  · rw [line_append, line_cons, line_append, line_cons, line_congr has, line_congr hbs, hb,
      put_append_left v _ fun e he => lt_of_lt_of_le (h.before e he) hs, put_append_right v _ (h.behind hk)]

theorem Ranged.split (h : Ranged entries (as ++ (s, b) :: bs)) (hsorted : Sorted (entries b)) {r : B} {sep : K} {c : V}
    {es : List (K × V)} (hb : entries' b ++ entries' r = entries b) (hne : entries' b ≠ []) (hr : entries' r = (sep, c) :: es)
    (has : ∀ p ∈ as, entries' p.2 = entries p.2) (hbs : ∀ p ∈ bs, entries' p.2 = entries p.2) :
    Ranged entries' (as ++ (s, b) :: (sep, r) :: bs) ∧
      line entries' (as ++ (s, b) :: (sep, r) :: bs) = line entries (as ++ (s, b) :: bs) ∧ s < sep ∧ ∀ q ∈ bs, sep < q.1 := by
  obtain ⟨hhighas, hhighb, hcross⟩ := List.pairwise_append.mp h.high
  obtain ⟨hnext, hhighbs⟩ := List.pairwise_cons.mp hhighb
  obtain ⟨-, hsortedr, hparts⟩ := sorted_append.mp (hb ▸ hsorted)
  have hleft : ∀ e ∈ entries' b, e ∈ entries b := fun e he => hb ▸ List.mem_append_left _ he
  have hright : ∀ e ∈ entries' r, e ∈ entries b := fun e he => hb ▸ List.mem_append_right _ he
  have hfirst : (sep, c) ∈ entries' r := hr ▸ List.mem_cons_self
  have hbmem : (s, b) ∈ as ++ (s, b) :: bs := List.mem_append_right _ List.mem_cons_self
  have hsep : s < sep := by
    obtain ⟨e, he⟩ := List.exists_mem_of_ne_nil _ hne
    exact lt_of_le_of_lt (h.low _ hbmem e (hleft e he)) (hparts e he _ hfirst)
  have hseplow : ∀ e ∈ entries' r, sep ≤ e.1 := by
    intro e he
    rw [hr] at he hsortedr
    rcases List.mem_cons.mp he with rfl | he
    · exact le_refl _
    · exact ((List.pairwise_cons.mp hsortedr).1 e he).le
  have hsephigh : ∀ q ∈ bs, sep < q.1 := fun q hq => hnext q hq _ (hright _ hfirst)
  refine ⟨⟨fun p hp e he => ?_, List.pairwise_append.mpr ⟨?_, ?_, ?_⟩⟩, ?_, hsep, hsephigh⟩
  · rcases List.mem_append.mp hp with hp | hp
    · exact h.low p (List.mem_append_left _ hp) e (has p hp ▸ he)
    rcases List.mem_cons.mp hp with rfl | hp
    · exact h.low _ hbmem e (hleft e he)
    rcases List.mem_cons.mp hp with rfl | hp
    · exact hseplow e he
    · exact h.low p (List.mem_append_right _ (List.mem_cons_of_mem _ hp)) e (hbs p hp ▸ he)
  · exact hhighas.imp_of_mem fun hp _ hlt e he => hlt e (has _ hp ▸ he)
  · refine List.pairwise_cons.mpr ⟨fun q hq e he => ?_, List.pairwise_cons.mpr ⟨fun q hq e he => ?_, ?_⟩⟩
    · rcases List.mem_cons.mp hq with rfl | hq
      · exact hparts e he _ hfirst
      · exact hnext q hq e (hleft e he)
    · exact hnext q hq e (hright e he)
    · exact hhighbs.imp_of_mem fun hp _ hlt e he => hlt e (hbs _ hp ▸ he)
  · intro p hp q hq e he
    have hold := has p hp ▸ he
    rcases List.mem_cons.mp hq with rfl | hq
    · exact hcross p hp _ List.mem_cons_self e hold
    rcases List.mem_cons.mp hq with rfl | hq
    · exact (hcross p hp _ List.mem_cons_self e hold).trans hsep
    · exact hcross p hp q (List.mem_cons_of_mem _ hq) e hold
  · rw [line_append, line_cons, line_cons, line_append, line_cons, line_congr has, line_congr hbs, ← hb, List.append_assoc]

end

end Ussr.Rows
