import Ussr.BTree.Insert

/-! Deletion keeps the representation invariant. A child left with 15 keys is
rejoined with a neighbour: borrowing moves the separator between the two,
merging drops it, and in each case the pair is again a chain over the same
interval with the same entries. -/

namespace Ussr.BTree
open SortedEntries SeparatorChain LinkedList

variable {K V : Type}

section

variable [LinearOrder K]

/-- The children `x`, `y` around one separator became `bs` around `ms`. -/
structure Rejoined (d : Nat) (a b : Bound K) (x y : Node K V) (heap heap' : Heap)
    (ms : List K) (bs : List (Node K V)) : Prop where
  chain : Chain (Wf d btMin) a ms bs b
  entries : bs.flatMap Node.entries = x.entries ++ y.entries
  links : ∀ xs ys, LeafLinks heap (xs ++ (x.leafIds ++ y.leafIds) ++ ys) →
    LeafLinks heap' (xs ++ bs.flatMap Node.leafIds ++ ys)
  count : heap'.count = heap.count
  mem : heap'.mem = heap.mem
  short : ms.length ≤ 1

variable {d : Nat} {a b : Bound K} {sep : K} (heap : Heap)

theorem borrowLeft_spec {l c : Node K V} (hl : Wf d (btMin - 1) a (key sep) l)
    (hc : Wf d (btMin - 1) (key sep) b c) (hspare : btMin < l.n) (hfew : c.n < btMin) :
    ∃ l' sep' c', borrowLeft l sep c = some (l', sep', c') ∧
      Rejoined d a b l c heap heap [sep'] [l', c'] := by
  match d, l, c, hl, hc with
  | 0, .leaf lid les, .leaf cid ces, ⟨_, hlmax, _, hles⟩, ⟨hcmin, _, hlt, hces⟩ =>
    simp only [Node.n] at hspare hfew
    obtain ⟨les, e, rfl⟩ := List.eq_nil_or_concat'  les |>.resolve_left
      (List.ne_nil_of_length_pos (by omega))
    have hroom : insertAt (btMax + 1) ces 0 e = some (e :: ces) :=
      insertAt_append [] ces e (by simp only [List.nil_append]; omega)
    simp only [List.length_append, List.length_singleton] at hspare hlmax
    obtain ⟨hleft, hright⟩ := hles.split
    have hwhole := hright.append hces (hright.lt (by simp)).le hlt.le
    have hne : les ≠ [] := List.ne_nil_of_length_pos (by omega)
    refine ⟨.leaf lid les, e.1, .leaf cid (e :: ces), by simp [borrowLeft, hroom], ⟨⟨?_, ?_⟩,
      by simp, fun xs ys h => by simpa using h, rfl, rfl, by simp⟩⟩
    · exact ⟨by omega, by omega, hleft.lt hne, hleft⟩
    · exact ⟨by rw [List.length_cons]; omega, by rw [List.length_cons]; omega,
        hwhole.lt (by simp), hwhole⟩
  | d + 1, .inner lks lkids, .inner cks ckids, ⟨_, hlmax, hlc⟩, ⟨hcmin, _, hcc⟩ =>
    simp only [Node.n] at hspare hfew
    obtain ⟨lks, k, rfl⟩ := List.eq_nil_or_concat' lks |>.resolve_left
      (List.ne_nil_of_length_pos (by omega))
    have hlkids := hlc.length
    have hckids := hcc.length
    obtain ⟨lkids, kid, rfl⟩ := List.eq_nil_or_concat' lkids |>.resolve_left
      (List.ne_nil_of_length_pos (by omega))
    simp only [List.length_append, List.length_singleton] at hspare hlmax hlkids
    have hkeys : insertAt (btMax + 1) cks 0 sep = some (sep :: cks) :=
      insertAt_append [] cks sep (by simp only [List.nil_append]; omega)
    have hkids : insertAt (btMax + 2) ckids 0 kid = some (kid :: ckids) :=
      insertAt_append [] ckids kid (by simp only [List.nil_append]; omega)
    obtain ⟨hleft, hkid⟩ := (chain_append (by omega)).mp hlc
    refine ⟨.inner lks lkids, k, .inner (sep :: cks) (kid :: ckids),
      by simp [borrowLeft, hkeys, hkids], ⟨⟨?_, ?_⟩, by simp,
      fun xs ys h => by simpa using h, rfl, rfl, by simp⟩⟩
    · exact ⟨by omega, by omega, hleft⟩
    · exact ⟨by rw [List.length_cons]; omega, by rw [List.length_cons]; omega, hkid, hcc⟩

theorem borrowRight_spec {c r : Node K V} (hc : Wf d (btMin - 1) a (key sep) c)
    (hr : Wf d (btMin - 1) (key sep) b r) (hspare : btMin < r.n) (hfew : c.n < btMin) :
    ∃ c' sep' r', borrowRight c sep r = some (c', sep', r') ∧
      Rejoined d a b c r heap heap [sep'] [c', r'] := by
  match d, c, r, hc, hr with
  | 0, .leaf cid ces, .leaf rid [], _, _ => simp [Node.n] at hspare
  | 0, .leaf cid ces, .leaf rid [e], _, _ =>
    exact absurd hspare (show ¬ btMin < 1 by decide)
  | 0, .leaf cid ces, .leaf rid (e :: e' :: res), ⟨hcmin, _, hlt, hces⟩, ⟨_, hrmax, _, hres⟩ =>
    simp only [Node.n, List.length_cons] at hspare hfew hrmax
    have hroom : insertAt (btMax + 1) ces ces.length e = some (ces ++ [e]) := by
      simpa using insertAt_append ces [] e (by rw [List.append_nil]; omega)
    obtain ⟨hfirst, hrest⟩ := Within.split (show Within _ _ ([e] ++ e' :: res) from hres)
    have hwhole := hces.append hfirst hlt.le (hfirst.lt (by simp)).le
    refine ⟨.leaf cid (ces ++ [e]), e'.1, .leaf rid (e' :: res), by simp [borrowRight, hroom],
      ⟨⟨?_, ?_⟩, by simp, fun xs ys h => by simpa using h, rfl, rfl, by simp⟩⟩
    · exact ⟨by simp only [List.length_append, List.length_singleton]; omega,
        by simp only [List.length_append, List.length_singleton]; omega,
        hwhole.lt (by simp), hwhole⟩
    · exact ⟨by rw [List.length_cons]; omega, by rw [List.length_cons]; omega,
        hrest.lt (by simp), hrest⟩
  | d + 1, .inner cks ckids, .inner [] rkids, _, _ => simp [Node.n] at hspare
  | d + 1, .inner cks ckids, .inner (k :: rks) [], _, hr => exact absurd hr.2.2.length (by simp)
  | d + 1, .inner cks ckids, .inner (k :: rks) (kid :: rkids), ⟨hcmin, _, hcc⟩,
      ⟨_, hrmax, hkid, hrc⟩ =>
    simp only [Node.n, List.length_cons] at hspare hfew hrmax
    have hckids := hcc.length
    have hkeys : insertAt (btMax + 1) cks cks.length sep = some (cks ++ [sep]) := by
      simpa using insertAt_append cks [] sep (by rw [List.append_nil]; omega)
    have hkids : insertAt (btMax + 2) ckids ckids.length kid = some (ckids ++ [kid]) := by
      simpa using insertAt_append ckids [] kid (by rw [List.append_nil]; omega)
    refine ⟨.inner (cks ++ [sep]) (ckids ++ [kid]), k, .inner rks rkids,
      by simp [borrowRight, hkeys, hkids], ⟨⟨?_, ?_⟩, by simp,
      fun xs ys h => by simpa using h, rfl, rfl, by simp⟩⟩
    · exact ⟨by simp only [List.length_append, List.length_singleton]; omega,
        by simp only [List.length_append, List.length_singleton]; omega,
        (chain_append hckids).mpr ⟨hcc, hkid⟩⟩
    · exact ⟨by omega, by omega, hrc⟩

theorem mergeInto_spec {x y : Node K V} (hx : Wf d (btMin - 1) a (key sep) x)
    (hy : Wf d (btMin - 1) (key sep) b y) (hroom : x.n + y.n < btMax) :
    ∃ heap' z, mergeInto heap x sep y = some (heap', z) ∧
      Rejoined d a b x y heap heap' [] [z] := by
  have hmin : btMin + btMin ≤ btMax := le_rfl
  match d, x, y, hx, hy with
  | 0, .leaf xid xes, .leaf yid yes, ⟨hxmin, _, hxlt, hxes⟩, ⟨hymin, _, hylt, hyes⟩ =>
    simp only [Node.n] at hroom
    have hbound : 1 < btMin := by decide
    refine ⟨heap.unlinkAfter xid yid, .leaf xid (xes ++ yes),
      by rw [mergeInto, if_pos (by omega)], ⟨?_, by simp, fun xs ys h => ?_, rfl, rfl, by simp⟩⟩
    · exact ⟨by rw [List.length_append]; omega, by rw [List.length_append]; omega,
        hxlt.trans hylt, hxes.append hyes hxlt.le hylt.le⟩
    · have h' : LeafLinks heap (xs ++ xid :: yid :: ys) := by simpa using h
      simpa using h'.unlinkAfter
  | d + 1, .inner xks xkids, .inner yks ykids, ⟨hxmin, _, hxc⟩, ⟨hymin, _, hyc⟩ =>
    simp only [Node.n] at hroom
    have hxkids := hxc.length
    have hykids := hyc.length
    refine ⟨heap, .inner (xks ++ sep :: yks) (xkids ++ ykids),
      by rw [mergeInto, if_pos (by omega)], ⟨?_, by simp, fun xs ys h => by simpa using h, rfl,
        rfl, by simp⟩⟩
    exact ⟨by rw [List.length_append, List.length_cons]; omega,
      by rw [List.length_append, List.length_cons]; omega,
      (chain_append hxkids).mpr ⟨hxc, hyc⟩⟩

end

section

variable [LinearOrder K] {d : Nat} {lo hi : Bound K} {heap : Heap} {xs ys : List Nat}

/-- What `bt_fix` does to the arrays of a node whose children lie in `[lo, hi)`. -/
structure FixSpec (d : Nat) (lo hi : Bound K) (ks : List K) (kids : List (Node K V))
    (heap heap' : Heap) (xs ys : List Nat) (ks' : List K) (kids' : List (Node K V)) : Prop where
  chain : Chain (Wf d btMin) lo ks' kids' hi
  entries : kids'.flatMap Node.entries = kids.flatMap Node.entries
  links : LeafLinks heap' (xs ++ kids'.flatMap Node.leafIds ++ ys)
  count : heap'.count = heap.count
  mem : heap'.mem = heap.mem
  few : ks'.length ≤ ks.length
  many : ks.length ≤ ks'.length + 1

theorem fix_pair {ks₁ ks₂ : List K} {sep : K} {as₁ as₂ : List (Node K V)} {x y : Node K V}
    (hlen : as₁.length = ks₁.length)
    (hchain : Chain (Wf d (btMin - 1)) lo (ks₁ ++ sep :: ks₂) (as₁ ++ x :: y :: as₂) hi)
    (hfull : ∀ a ∈ as₁ ++ as₂, btMin ≤ a.n)
    (hlinks : LeafLinks heap (xs ++ (as₁ ++ x :: y :: as₂).flatMap Node.leafIds ++ ys)) :
    ∃ a b, Wf d (btMin - 1) a (key sep) x ∧ Wf d (btMin - 1) (key sep) b y ∧
      ∀ heap' ms bs, Rejoined d a b x y heap heap' ms bs →
        FixSpec d lo hi (ks₁ ++ sep :: ks₂) (as₁ ++ x :: y :: as₂) heap heap' xs ys
          (ks₁ ++ ms ++ ks₂) (as₁ ++ bs ++ as₂) := by
  have hchain' : Chain (Wf d (btMin - 1)) lo (ks₁ ++ [sep] ++ ks₂) (as₁ ++ [x, y] ++ as₂) hi := by
    simpa using hchain
  obtain ⟨a, b, hpair, hfoc⟩ := Chain.focus Wf.lt hlen rfl hchain'
  refine ⟨a, b, hpair.1, hpair.2, fun heap' ms bs h => ⟨?_, ?_, ?_, h.count, h.mem, ?_, ?_⟩⟩
  · have hweak : Chain (Wf d (btMin - 1)) a ms bs b :=
      h.chain.imp fun _ _ _ _ hw => hw.withMin ((Nat.sub_le _ _).trans hw.le_n)
    have hmany : ∀ z ∈ as₁ ++ bs ++ as₂, btMin ≤ z.n := by
      intro z hz
      simp only [List.mem_append] at hz hfull
      rcases hz with (hz | hz) | hz
      · exact hfull z (Or.inl hz)
      · obtain ⟨_, _, hw⟩ := h.chain.exists_of_mem hz
        exact hw.le_n
      · exact hfull z (Or.inr hz)
    exact (hfoc.refill ms bs hweak).imp fun _ _ z hz hw => hw.withMin (hmany z hz)
  · simp [h.entries]
  · have := h.links (xs ++ as₁.flatMap Node.leafIds) (as₂.flatMap Node.leafIds ++ ys)
      (by simpa using hlinks)
    simpa using this
  · have := h.short
    simp only [List.length_append, List.length_cons]
    omega
  · simp only [List.length_append, List.length_cons]
    omega

end

section

variable {α : Type} (as bs : List α) (x y x' y' : α)

private theorem getElem?_fst : (as ++ x :: y :: bs)[as.length]? = some x := by
  simp

private theorem getElem?_snd : (as ++ x :: y :: bs)[as.length + 1]? = some y := by
  rw [List.getElem?_append_right (by omega), Nat.add_sub_cancel_left]
  rfl

private theorem set_pair :
    ((as ++ x :: y :: bs).set as.length x').set (as.length + 1) y' = as ++ [x', y'] ++ bs := by
  induction as with
  | nil => rfl
  | cons a as ih => simp

private theorem set_one : (as ++ x :: bs).set as.length x' = as ++ [x'] ++ bs := by
  simp

private theorem erase_one : (as ++ x :: bs).eraseIdx as.length = as ++ bs := by
  induction as with
  | nil => rfl
  | cons a as ih => simpa using ih

private theorem erase_pair :
    ((as ++ x :: y :: bs).set as.length x').eraseIdx (as.length + 1) = as ++ [x'] ++ bs := by
  induction as with
  | nil => rfl
  | cons a as ih => simpa using ih

end

section

variable {heap heap' : Heap} {ks₁ ks₂ : List K} {sep sep' : K} {as₁ as₂ : List (Node K V)}
  {x y x' y' : Node K V}

private theorem btFix_borrowLeft (hlen : as₁.length = ks₁.length) (hspare : btMin < x.n)
    (h : borrowLeft x sep y = some (x', sep', y')) :
    btFix heap (ks₁ ++ sep :: ks₂) (as₁ ++ x :: y :: as₂) (as₁.length + 1) =
      some (heap, ks₁ ++ [sep'] ++ ks₂, as₁ ++ [x', y'] ++ as₂) := by
  have hkey : (ks₁ ++ sep :: ks₂)[as₁.length]? = some sep := by rw [hlen]; simp
  have hset : (ks₁ ++ sep :: ks₂).set as₁.length sep' = ks₁ ++ [sep'] ++ ks₂ := by
    rw [hlen, set_one]
  unfold btFix
  simp only [getElem?_snd, Nat.add_sub_cancel, Nat.succ_pos, if_true, getElem?_fst,
    Option.bind_eq_bind, Option.bind_some, Option.map_some, Option.getD_some, gt_iff_lt,
    hspare, hkey, h, hset, set_pair]

private theorem btFix_borrowRight (hlen : as₁.length = ks₁.length)
    (hleft : ∀ l ∈ as₁.getLast?, l.n ≤ btMin) (hspare : btMin < y.n)
    (h : borrowRight x sep y = some (x', sep', y')) :
    btFix heap (ks₁ ++ sep :: ks₂) (as₁ ++ x :: y :: as₂) as₁.length =
      some (heap, ks₁ ++ [sep'] ++ ks₂, as₁ ++ [x', y'] ++ as₂) := by
  have hkey : (ks₁ ++ sep :: ks₂)[as₁.length]? = some sep := by rw [hlen]; simp
  have hset : (ks₁ ++ sep :: ks₂).set as₁.length sep' = ks₁ ++ [sep'] ++ ks₂ := by
    rw [hlen, set_one]
  have hlast : ((if 0 < as₁.length then (as₁ ++ x :: y :: as₂)[as₁.length - 1]?
      else none).map Node.n).getD 0 ≤ btMin := by
    rcases List.eq_nil_or_concat' as₁ with rfl | ⟨bs, b, rfl⟩
    · exact Nat.zero_le _
    · have hb : b.n ≤ btMin := hleft b (by simp)
      simpa using hb
  have hinside : as₁.length < (ks₁ ++ sep :: ks₂).length := by
    simp only [List.length_append, List.length_cons]
    omega
  unfold btFix
  simp only [getElem?_fst, Option.bind_eq_bind, Option.bind_some, gt_iff_lt, hlast.not_gt,
    if_false, hinside, if_true, getElem?_snd, Option.map_some, Option.getD_some, hspare, hkey,
    h, hset, set_pair]

private theorem btFix_mergeLeft (hlen : as₁.length = ks₁.length)
    (hlen₂ : as₂.length = ks₂.length) (hpoor : x.n ≤ btMin)
    (hright : ∀ r ∈ as₂.head?, r.n ≤ btMin)
    (h : mergeInto heap x sep y = some (heap', x')) :
    btFix heap (ks₁ ++ sep :: ks₂) (as₁ ++ x :: y :: as₂) (as₁.length + 1) =
      some (heap', ks₁ ++ [] ++ ks₂, as₁ ++ [x'] ++ as₂) := by
  have hkey : (ks₁ ++ sep :: ks₂)[as₁.length]? = some sep := by rw [hlen]; simp
  have herase : (ks₁ ++ sep :: ks₂).eraseIdx as₁.length = ks₁ ++ ks₂ := by
    rw [hlen, erase_one]
  have hnext : ((if as₁.length + 1 < (ks₁ ++ sep :: ks₂).length then
      (as₁ ++ x :: y :: as₂)[as₁.length + 1 + 1]? else none).map Node.n).getD 0 ≤ btMin := by
    cases as₂ with
    | nil =>
      obtain rfl : ks₂ = [] := List.length_eq_zero_iff.mp hlen₂.symm
      simp [hlen]
    | cons r as₂ =>
      have hr : r.n ≤ btMin := hright r (by simp)
      split_ifs
      · rw [List.getElem?_append_right (by omega)]
        simpa [Nat.add_assoc] using hr
      · exact Nat.zero_le _
  unfold btFix
  simp only [getElem?_snd, Nat.add_sub_cancel, Nat.succ_pos, if_true, getElem?_fst,
    Option.bind_eq_bind, Option.bind_some, Option.map_some, Option.getD_some, gt_iff_lt,
    hpoor.not_gt, if_false, hnext.not_gt, Option.isSome_some, hkey, h, herase, erase_pair,
    List.append_nil]

private theorem btFix_mergeRight (hpoor : y.n ≤ btMin)
    (h : mergeInto heap x sep y = some (heap', x')) :
    btFix heap (sep :: ks₂) (x :: y :: as₂) 0 = some (heap', ks₂, x' :: as₂) := by
  unfold btFix
  simp [hpoor.not_gt, h]

end

section

variable [LinearOrder K] {d : Nat} {lo hi : Bound K} {heap : Heap} {xs ys : List Nat}

/-- `bt_fix` on the child right of a separator. It borrows from the left neighbour
if that has keys to spare, else from the right one, else it merges to the left. -/
theorem btFix_left {ks₁ ks₂ : List K} {sep : K} {as₁ as₂ : List (Node K V)} {l c : Node K V}
    (hlen : as₁.length = ks₁.length) (hlen₂ : as₂.length = ks₂.length)
    (hchain : Chain (Wf d (btMin - 1)) lo (ks₁ ++ sep :: ks₂) (as₁ ++ l :: c :: as₂) hi)
    (hfull : ∀ a ∈ as₁ ++ l :: as₂, btMin ≤ a.n) (hfew : c.n < btMin)
    (hlinks : LeafLinks heap (xs ++ (as₁ ++ l :: c :: as₂).flatMap Node.leafIds ++ ys)) :
    ∃ heap' ks' kids', btFix heap (ks₁ ++ sep :: ks₂) (as₁ ++ l :: c :: as₂)
        (as₁.length + 1) = some (heap', ks', kids') ∧
      FixSpec d lo hi (ks₁ ++ sep :: ks₂) (as₁ ++ l :: c :: as₂) heap heap' xs ys ks' kids' := by
  have hothers : ∀ a ∈ as₁ ++ as₂, btMin ≤ a.n := by
    intro a ha
    refine hfull a ?_
    simp only [List.mem_append, List.mem_cons] at ha ⊢
    tauto
  obtain ⟨a, b, hl, hc, hspec⟩ := fix_pair hlen hchain hothers hlinks
  by_cases hspare : btMin < l.n
  · obtain ⟨l', sep', c', hrun, hjoin⟩ := borrowLeft_spec heap hl hc hspare hfew
    exact ⟨_, _, _, btFix_borrowLeft hlen hspare hrun, hspec _ _ _ hjoin⟩
  by_cases hright : ∀ r ∈ as₂.head?, r.n ≤ btMin
  · have hroom : l.n + c.n < btMax := by
      have : btMin + btMin = btMax := rfl
      omega
    obtain ⟨heap', z, hrun, hjoin⟩ := mergeInto_spec heap hl hc hroom
    exact ⟨_, _, _, btFix_mergeLeft hlen hlen₂ (not_lt.mp hspare) hright hrun,
      hspec _ _ _ hjoin⟩
  · push Not at hright
    obtain ⟨r, hr, hrspare⟩ := hright
    obtain ⟨as₃, rfl⟩ : ∃ as₃, as₂ = r :: as₃ := by
      cases as₂ with
      | nil => simp at hr
      | cons r' as₃ =>
        obtain rfl : r' = r := by simpa using hr
        exact ⟨as₃, rfl⟩
    obtain ⟨sep₂, ks₃, rfl⟩ := List.exists_cons_of_length_eq_add_one hlen₂.symm
    have hkids : as₁ ++ l :: c :: r :: as₃ = (as₁ ++ [l]) ++ c :: r :: as₃ := by simp
    have hkeys : ks₁ ++ sep :: sep₂ :: ks₃ = (ks₁ ++ [sep]) ++ sep₂ :: ks₃ := by simp
    have hidx : as₁.length + 1 = (as₁ ++ [l]).length := by simp
    rw [hkids, hkeys] at hchain
    rw [hkids] at hlinks
    obtain ⟨a', b', hc', hr', hspec'⟩ := fix_pair (by simp [hlen]) hchain (by
      intro a ha
      refine hfull a ?_
      simp only [List.mem_append, List.mem_cons, List.not_mem_nil] at ha ⊢
      tauto) hlinks
    obtain ⟨c', sep', r', hrun, hjoin⟩ :=
      borrowRight_spec heap hc' hr' hrspare hfew
    rw [hkids, hkeys, hidx]
    refine ⟨_, _, _, btFix_borrowRight (by simp [hlen]) ?_ hrspare hrun, hspec' _ _ _ hjoin⟩
    intro l' hl'
    obtain rfl : l = l' := by simpa using hl'
    exact not_lt.mp hspare

theorem btFix_first {ks₂ : List K} {sep : K} {as₂ : List (Node K V)} {c r : Node K V}
    (hchain : Chain (Wf d (btMin - 1)) lo (sep :: ks₂) (c :: r :: as₂) hi)
    (hfull : ∀ a ∈ r :: as₂, btMin ≤ a.n) (hfew : c.n < btMin)
    (hlinks : LeafLinks heap (xs ++ (c :: r :: as₂).flatMap Node.leafIds ++ ys)) :
    ∃ heap' ks' kids', btFix heap (sep :: ks₂) (c :: r :: as₂) 0 = some (heap', ks', kids') ∧
      FixSpec d lo hi (sep :: ks₂) (c :: r :: as₂) heap heap' xs ys ks' kids' := by
  have hnil : ([] : List (Node K V)).length = ([] : List K).length := rfl
  obtain ⟨a, b, hc, hr, hspec⟩ := fix_pair hnil hchain
    (fun z hz => hfull z (List.mem_cons_of_mem _ hz)) hlinks
  by_cases hspare : btMin < r.n
  · obtain ⟨c', sep', r', hrun, hjoin⟩ := borrowRight_spec heap hc hr hspare hfew
    exact ⟨_, _, _, btFix_borrowRight hnil (by simp) hspare hrun,
      hspec _ _ _ hjoin⟩
  · have hroom : c.n + r.n < btMax := by
      have : btMin + btMin = btMax := rfl
      omega
    obtain ⟨heap', z, hrun, hjoin⟩ := mergeInto_spec heap hc hr hroom
    exact ⟨_, _, _, btFix_mergeRight (not_lt.mp hspare) hrun, hspec _ _ _ hjoin⟩

theorem btFix_spec {ks : List K} {as₁ as₂ : List (Node K V)} {c : Node K V}
    (hks : ks ≠ [])
    (hchain : Chain (Wf d (btMin - 1)) lo ks (as₁ ++ c :: as₂) hi)
    (hfull : ∀ a ∈ as₁ ++ as₂, btMin ≤ a.n) (hfew : c.n < btMin)
    (hlinks : LeafLinks heap (xs ++ (as₁ ++ c :: as₂).flatMap Node.leafIds ++ ys)) :
    ∃ heap' ks' kids', btFix heap ks (as₁ ++ c :: as₂) as₁.length =
        some (heap', ks', kids') ∧
      FixSpec d lo hi ks (as₁ ++ c :: as₂) heap heap' xs ys ks' kids' := by
  have hlength := hchain.length
  simp only [List.length_append, List.length_cons] at hlength
  rcases List.eq_nil_or_concat' as₁ with rfl | ⟨as₁, l, rfl⟩
  · obtain ⟨sep, ks₂, rfl⟩ := List.exists_cons_of_ne_nil hks
    obtain ⟨r, as₂, rfl⟩ := List.exists_cons_of_length_pos (l := as₂) (by
      simp only [List.length_cons, List.length_nil] at hlength
      omega)
    exact btFix_first hchain hfull hfew hlinks
  · simp only [List.length_append, List.length_singleton] at hlength
    have hlt : as₁.length < ks.length := by omega
    have hcut : ks = ks.take as₁.length ++ ks[as₁.length] :: ks.drop (as₁.length + 1) := by
      rw [← List.drop_eq_getElem_cons hlt, List.take_append_drop]
    have hkids : as₁ ++ [l] ++ c :: as₂ = as₁ ++ l :: c :: as₂ := by simp
    have hidx : (as₁ ++ [l]).length = as₁.length + 1 := by simp
    rw [hkids] at hchain hlinks ⊢
    rw [hcut] at hchain ⊢
    rw [hidx]
    refine btFix_left (List.length_take_of_le hlt.le).symm ?_ hchain ?_ hfew hlinks
    · rw [List.length_drop]
      omega
    · simpa using hfull

end

section

variable [LinearOrder K] {heap : Heap} {xs ys : List Nat} {lo hi : Bound K}

/-- What `bt_delete` does to a subtree whose leaves stand between `xs` and `ys`. -/
structure DeleteSpec (d m : Nat) (lo hi : Bound K) (node : Node K V) (k : K) (heap : Heap)
    (xs ys : List Nat) (r : Deletion K V) : Prop where
  wf : Wf d (m - 1) lo hi r.node
  entries : r.node.entries = erase k node.entries
  links : LeafLinks r.heap (xs ++ r.node.leafIds ++ ys)
  found_iff : r.found = true ↔ k ∈ node.entries.map Prod.fst
  unchanged : r.found = false → r.node = node ∧ r.heap = heap
  count : r.heap.count + node.entries.length = heap.count + r.node.entries.length
  mem : r.heap.mem = heap.mem

theorem DeleteSpec.of_notMem {d m : Nat} {node : Node K V} {k : K}
    (hw : Wf d m lo hi node) (hk : k ∉ node.entries.map Prod.fst)
    (hlinks : LeafLinks heap (xs ++ node.leafIds ++ ys)) :
    DeleteSpec d m lo hi node k heap xs ys ⟨heap, node, false⟩ where
  wf := hw.withMin ((Nat.sub_le _ _).trans hw.le_n)
  entries := (erase_of_notMem hk).symm
  links := hlinks
  found_iff := by simp [hk]
  unchanged := fun _ => ⟨rfl, rfl⟩
  count := rfl
  mem := rfl

variable {ops : KeyOps K}

theorem deleteLeaf_spec (hops : ∀ a b, ops.compare a b = compare a b) {m id : Nat}
    {es : List (K × V)} {k : K} (hw : Wf 0 m lo hi (.leaf id es))
    (hcount : es.length ≤ heap.count) (hlinks : LeafLinks heap (xs ++ [id] ++ ys)) :
    DeleteSpec 0 m lo hi (.leaf id es) k heap xs ys (deleteLeaf ops k heap id es) := by
  obtain ⟨hmin, hmax, hlt, hes⟩ := hw
  obtain ⟨as, bs, rfl, hidx, has, hbs⟩ := btLower_entries hops hes.sorted k
  have hleft : k ∉ as.map Prod.fst := by
    intro hin
    obtain ⟨x, hx, hxk⟩ := List.mem_map.mp hin
    exact (has x hx).ne hxk
  have hmiss : (∀ b ∈ bs, k < b.1) →
      DeleteSpec 0 m lo hi (.leaf id (as ++ bs)) k heap xs ys ⟨heap, .leaf id (as ++ bs), false⟩ := by
    intro hgt
    refine DeleteSpec.of_notMem ⟨hmin, hmax, hlt, hes⟩ ?_ hlinks
    rw [Node.entries_leaf, List.map_append, List.mem_append, not_or]
    refine ⟨hleft, fun hin => ?_⟩
    obtain ⟨x, hx, hxk⟩ := List.mem_map.mp hin
    exact (hgt x hx).ne hxk.symm
  unfold deleteLeaf
  simp only [hidx]
  cases bs with
  | nil =>
    rw [List.getElem?_eq_none (by simp)]
    exact hmiss (by simp)
  | cons e bs =>
    have hget : (as ++ e :: bs)[as.length]? = some e := by simp
    have hrest : ∀ b ∈ bs, e.1 < b.1 :=
      (List.pairwise_cons.mp (sorted_append.mp hes.sorted).2.1).1
    rw [hget]
    dsimp only
    by_cases heq : ops.compare e.1 k = .eq
    · have hk : e.1 = k := compare_eq_iff_eq.mp ((hops _ _).symm.trans heq)
      have hmem : k ∈ (as ++ e :: bs).map Prod.fst := by simp [hk]
      have herase : erase k (as ++ e :: bs) = as ++ bs := by
        have hright : k ∉ bs.map Prod.fst := by
          intro hin
          obtain ⟨x, hx, hxk⟩ := List.mem_map.mp hin
          exact (hrest x hx).ne (hk.trans hxk.symm)
        have hcons : erase k (e :: bs) = erase k bs := by simp [erase, hk]
        rw [erase_append, erase_of_notMem hleft, hcons, erase_of_notMem hright]
      have hlength := length_erase hes.sorted hmem
      rw [if_pos heq, erase_one]
      have hes' := hes.erase k
      rw [herase] at hes' hlength
      refine ⟨⟨by omega, by omega, hlt, hes'⟩, by simp [herase], by simpa using hlinks.setCount _,
        by simp [hk], by simp, ?_, rfl⟩
      simp only [Node.entries_leaf]
      omega
    · have hke : k < e.1 := by
        refine lt_of_le_of_ne (hbs e List.mem_cons_self) fun hk => heq ?_
        rw [hops, hk, compare_eq_iff_eq]
      rw [if_neg heq]
      refine hmiss ?_
      rintro b (_ | ⟨_, hb⟩)
      · exact hke
      · exact hke.trans (hrest b hb)

omit [LinearOrder K] in
theorem btDeleteKid_append (k : K) (heap : Heap) (as bs : List (Node K V)) (kid : Node K V) :
    btDeleteKid ops k heap (as ++ kid :: bs) as.length = btDelete ops k heap kid := by
  induction as with
  | nil => rfl
  | cons a as ih => exact ih

theorem deleteInner_spec {d m : Nat} {l h : Bound K} {ks₁ ks₂ : List K}
    {as₁ as₂ : List (Node K V)} {kid : Node K V} {k : K} {r : Deletion K V}
    (hlen : as₁.length = ks₁.length) (hm : 0 < m)
    (hw : Wf (d + 1) m lo hi (.inner (ks₁ ++ ks₂) (as₁ ++ kid :: as₂)))
    (hl : l ≤ key k) (hh : key k < h)
    (hfoc : Focus (Wf d (btMin - 1)) lo hi l h ks₁ ks₂ as₁ as₂)
    (hlinks : LeafLinks heap (xs ++ (as₁ ++ kid :: as₂).flatMap Node.leafIds ++ ys))
    (hr : DeleteSpec d btMin l h kid k heap (xs ++ as₁.flatMap Node.leafIds)
      (as₂.flatMap Node.leafIds ++ ys) r) :
    ∃ r', deleteInner (ks₁ ++ ks₂) (as₁ ++ kid :: as₂) ks₁.length r = some r' ∧
      DeleteSpec (d + 1) m lo hi (.inner (ks₁ ++ ks₂) (as₁ ++ kid :: as₂)) k heap xs ys r' := by
  obtain ⟨hmin, hmax, hchain⟩ := hw
  have hleft := hfoc.lt_left Wf.within hl
  have hright := hfoc.lt_right Wf.within hh
  have hnotLeft : k ∉ (as₁.flatMap Node.entries).map Prod.fst := by
    intro hin
    obtain ⟨x, hx, hxk⟩ := List.mem_map.mp hin
    exact (hleft x hx).ne hxk
  have hnotRight : k ∉ (as₂.flatMap Node.entries).map Prod.fst := by
    intro hin
    obtain ⟨x, hx, hxk⟩ := List.mem_map.mp hin
    exact (hright x hx).ne hxk.symm
  have hmem : k ∈ (Node.inner (ks₁ ++ ks₂) (as₁ ++ kid :: as₂)).entries.map Prod.fst ↔
      k ∈ kid.entries.map Prod.fst := by
    simp only [Node.entries_inner, List.flatMap_append, List.flatMap_cons, List.map_append,
      List.mem_append]
    tauto
  unfold deleteInner
  by_cases hfound : r.found = true
  · have hset : (as₁ ++ kid :: as₂).set ks₁.length r.node = as₁ ++ r.node :: as₂ := by
      rw [← hlen]
      simp
    have hentries : (as₁ ++ r.node :: as₂).flatMap Node.entries =
        erase k (Node.inner (ks₁ ++ ks₂) (as₁ ++ kid :: as₂)).entries := by
      rw [Node.entries_inner, List.flatMap_append, List.flatMap_append, List.flatMap_cons,
        List.flatMap_cons, erase_append, erase_append, erase_of_notMem hnotLeft,
        erase_of_notMem hnotRight, hr.entries]
    have hlinks' : LeafLinks r.heap
        (xs ++ (as₁ ++ r.node :: as₂).flatMap Node.leafIds ++ ys) := by
      simpa using hr.links
    have hweak : Chain (Wf d (btMin - 1)) lo (ks₁ ++ ks₂) (as₁ ++ r.node :: as₂) hi := by
      simpa using hfoc.refill [] [r.node] hr.wf
    have hfull : ∀ a ∈ as₁ ++ as₂, btMin ≤ a.n := by
      intro a ha
      obtain ⟨_, _, hwa⟩ := hchain.exists_of_mem (a := a) (by
        simp only [List.mem_append, List.mem_cons] at ha ⊢
        tauto)
      exact hwa.le_n
    have hcount := hr.count
    have hcount' : r.heap.count + (Node.inner (ks₁ ++ ks₂) (as₁ ++ kid :: as₂)).entries.length =
        heap.count + ((as₁ ++ r.node :: as₂).flatMap Node.entries).length := by
      simp only [Node.entries_inner, List.flatMap_append, List.flatMap_cons, List.length_append]
      omega
    rw [hfound, hset]
    simp only [Bool.not_true, Bool.false_eq_true, if_false]
    by_cases hfew : r.node.n < btMin
    · obtain ⟨heap', ks', kids', hrun, hfix⟩ := btFix_spec
        (List.ne_nil_of_length_pos (hm.trans_le hmin)) hweak hfull hfew hlinks'
      rw [if_pos hfew, ← hlen, hrun]
      refine ⟨_, rfl, ⟨⟨?_, hfix.few.trans hmax, hfix.chain⟩, ?_, ?_, ?_, by simp, ?_,
        hfix.mem.trans hr.mem⟩⟩
      · have hmany := hfix.many
        change m - 1 ≤ ks'.length
        omega
      · rw [Node.entries_inner, hfix.entries, hentries]
      · simpa using hfix.links
      · exact ⟨fun _ => hmem.mpr (hr.found_iff.mp hfound), fun _ => rfl⟩
      · rw [Node.entries_inner ks', hfix.entries, hfix.count]
        exact hcount'
    · rw [if_neg hfew]
      refine ⟨_, rfl, ⟨⟨by omega, hmax, ?_⟩, ?_, ?_, ?_, by simp, ?_, hr.mem⟩⟩
      · refine hweak.imp fun _ _ a ha hwa => hwa.withMin ?_
        simp only [List.mem_append, List.mem_cons] at ha
        rcases ha with ha | rfl | ha
        · exact hfull a (List.mem_append_left _ ha)
        · exact not_lt.mp hfew
        · exact hfull a (List.mem_append_right _ ha)
      · rw [Node.entries_inner, hentries]
      · simpa using hlinks'
      · exact ⟨fun _ => hmem.mpr (hr.found_iff.mp hfound), fun _ => rfl⟩
      · rw [Node.entries_inner (ks₁ ++ ks₂) (as₁ ++ r.node :: as₂)]
        exact hcount'
  · have hnot : r.found = false := by simpa using hfound
    have hout : k ∉ kid.entries.map Prod.fst := fun hin => hfound (hr.found_iff.mpr hin)
    rw [hnot, (hr.unchanged hnot).2]
    refine ⟨_, rfl, DeleteSpec.of_notMem ⟨hmin, hmax, hchain⟩ (mt hmem.mp hout) ?_⟩
    simpa using hlinks

theorem btDelete_spec (hops : ∀ a b, ops.compare a b = compare a b) {d m : Nat}
    {node : Node K V} {k : K} (hm : 0 < m) (hw : Wf d m lo hi node)
    (hlo : lo ≤ key k) (hhi : key k < hi) (hcount : node.entries.length ≤ heap.count)
    (hlinks : LeafLinks heap (xs ++ node.leafIds ++ ys)) :
    ∃ r, btDelete ops k heap node = some r ∧ DeleteSpec d m lo hi node k heap xs ys r := by
  induction d generalizing m lo hi node xs ys with
  | zero =>
    match node, hw with
    | .leaf id es, hw =>
      rw [Node.entries_leaf] at hcount
      exact ⟨_, rfl, deleteLeaf_spec hops hw hcount hlinks⟩
  | succ d ih =>
    match node, hw with
    | .inner ks kids, ⟨hmin, hmax, hchain⟩ =>
      have hweak : Chain (Wf d (btMin - 1)) lo ks kids hi :=
        hchain.imp fun _ _ _ _ hwa => hwa.withMin ((Nat.sub_le _ _).trans hwa.le_n)
      obtain ⟨ks₁, ks₂, as₁, kid, as₂, l, h, rfl, rfl, hlen₁, -, hidx, hkid, hl, hh, hfoc⟩ :=
        exists_descent hops hweak hlo hhi
      obtain ⟨_, _, hkidFull⟩ := hchain.exists_of_mem (a := kid) (by simp)
      have hkidCount : kid.entries.length ≤ heap.count := by
        refine le_trans ?_ hcount
        simp only [Node.entries_inner, List.flatMap_append, List.flatMap_cons,
          List.length_append]
        omega
      have hlinks' : LeafLinks heap (xs ++ (as₁ ++ kid :: as₂).flatMap Node.leafIds ++ ys) := by
        simpa using hlinks
      have hkidLinks : LeafLinks heap ((xs ++ as₁.flatMap Node.leafIds) ++ kid.leafIds ++
          (as₂.flatMap Node.leafIds ++ ys)) := by simpa using hlinks'
      obtain ⟨r, hr, hspec⟩ := ih (show 0 < btMin by decide) (hkid.withMin hkidFull.le_n) hl hh
        hkidCount hkidLinks
      obtain ⟨r', hr', hspec'⟩ :=
        deleteInner_spec hlen₁ hm ⟨hmin, hmax, hchain⟩ hl hh hfoc hlinks' hspec
      refine ⟨r', ?_, hspec'⟩
      rw [btDelete, hidx, ← hlen₁, btDeleteKid_append, hr]
      exact hlen₁ ▸ hr'

end

end Ussr.BTree
