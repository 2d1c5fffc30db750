import Ussr.BTree.Invariant

/-! Insertion keeps the representation invariant. The result of `bt_insert` is
one node or two nodes around a separator, in both cases a chain over the
interval of the node it replaces, whose entries are those of the node with
the new pair put in. -/

namespace Ussr.BTree
open SortedEntries SeparatorChain LinkedList

variable {K V : Type}
variable {m d : Nat} {es : List (K × V)}

namespace Insertion

def seps (r : Insertion K V) : List K :=
  (r.right.map Prod.fst).toList

def parts (r : Insertion K V) : List (Node K V) :=
  r.node :: (r.right.map Prod.snd).toList

end Insertion

theorem insertAt_append {α : Type} {room : Nat} (as bs : List α) (x : α)
    (h : (as ++ bs).length < room) :
    insertAt room (as ++ bs) as.length x = some (as ++ x :: bs) := by
  rw [insertAt, if_pos ⟨by simp, h⟩, List.take_left, List.drop_left]

theorem exists_halves {α : Type} {xs : List α} (h : xs.length = btMax + 1) :
    ∃ as x bs, xs = as ++ x :: bs ∧ as.length = btMin ∧ bs.length = btMin := by
  have hlt : btMin < xs.length := by rw [h]; decide
  refine ⟨xs.take btMin, xs[btMin], xs.drop (btMin + 1), ?_, ?_, ?_⟩
  · rw [← List.drop_eq_getElem_cons hlt, List.take_append_drop]
  · exact List.length_take_of_le hlt.le
  · rw [List.length_drop, h]
    rfl

variable [LinearOrder K]

/-- What `bt_insert` does to a subtree whose leaves stand between `xs` and `ys`. -/
structure InsertSpec (d m : Nat) (lo hi : Bound K) (es : List (K × V)) (heap : Heap)
    (count : Nat) (xs ys : List Nat) (r : Insertion K V) : Prop where
  ok : r.ok = true
  shape : r.right = none ∧ Wf d m lo hi r.node ∨
    r.right.isSome ∧ Chain (Wf d btMin) lo r.seps r.parts hi
  entries : r.parts.flatMap Node.entries = es
  links : LeafLinks r.heap (xs ++ r.parts.flatMap Node.leafIds ++ ys)
  count : r.heap.count + count = heap.count + es.length
  mem : r.heap.mem = heap.mem

theorem InsertSpec.chain {lo hi : Bound K} {heap : Heap}
    {count : Nat} {xs ys : List Nat} {r : Insertion K V}
    (h : InsertSpec d btMin lo hi es heap count xs ys r) :
    Chain (Wf d btMin) lo r.seps r.parts hi := by
  rcases h.shape with ⟨hnone, hwf⟩ | ⟨-, hchain⟩
  · simpa [Insertion.seps, Insertion.parts, hnone] using hwf
  · exact hchain

section

variable {heap : Heap} {id : Nat} {xs ys : List Nat} {lo hi : Bound K}

theorem splitLeaf_spec (hmem : ∀ i, heap.mem i = true)
    (hlen : m ≤ es.length) (hroom : es.length ≤ btMax + 1) (hlt : lo < hi)
    (hes : Within lo hi es) (hlinks : LeafLinks heap (xs ++ [id] ++ ys)) :
    ∃ r, splitLeaf heap id es = some r ∧
      InsertSpec 0 m lo hi es heap es.length xs ys r := by
  unfold splitLeaf
  by_cases hfit : es.length ≤ btMax
  · rw [if_pos hfit]
    refine ⟨_, rfl, ⟨rfl, Or.inl ⟨rfl, hlen, hfit, hlt, hes⟩, ?_, ?_, rfl, rfl⟩⟩
    · simp [Insertion.parts]
    · simpa [Insertion.parts] using hlinks
  · obtain ⟨as, e, bs, rfl, has, hbs⟩ := exists_halves (show es.length = btMax + 1 by omega)
    have hhalf : (as ++ e :: bs).length / 2 = as.length := by
      simp only [List.length_append, List.length_cons, has, hbs]
      rfl
    obtain ⟨hleft, hright⟩ := hes.split
    have hne : as ≠ [] := List.ne_nil_of_length_pos (by rw [has]; decide)
    rw [if_neg hfit]
    dsimp only
    rw [if_pos (hmem _), hhalf, List.drop_left, List.take_left]
    refine ⟨_, rfl, ⟨rfl, Or.inr ⟨rfl, ?_⟩, ?_, ?_, rfl, rfl⟩⟩
    · exact ⟨⟨has.ge, by omega, hleft.lt hne, hleft⟩,
        ⟨by simp [hbs], by rw [List.length_cons, hbs]; decide, hright.lt (by simp), hright⟩⟩
    · simp [Insertion.parts]
    · have hlinks' : LeafLinks heap (xs ++ id :: ys) := by simpa using hlinks
      simpa [Insertion.parts] using hlinks'.linkAfter

variable {ops : KeyOps K} (hops : ∀ a b, ops.compare a b = compare a b)
include hops

theorem insertLeaf_spec (hmem : ∀ i, heap.mem i = true)
    {k : K} {v : V} (hw : Wf 0 m lo hi (.leaf id es)) (hlo : lo ≤ key k) (hhi : key k < hi)
    (hlinks : LeafLinks heap (xs ++ [id] ++ ys)) :
    ∃ r, insertLeaf ops k v heap id es = some r ∧
      InsertSpec 0 m lo hi (put k v es) heap es.length xs ys r := by
  obtain ⟨hmin, hmax, hlt, hes⟩ := hw
  obtain ⟨as, bs, rfl, hidx, has, hbs⟩ := btLower_entries hops hes.sorted k
  have hput : put k v (as ++ bs) = as ++ put k v bs := put_append_left v bs has
  have hnew : (∀ b ∈ bs, k < b.1) →
      ∃ r, (do let es' ← insertAt (btMax + 1) (as ++ bs) as.length (k, v)
               splitLeaf { heap with count := heap.count + 1 } id es') = some r ∧
        InsertSpec 0 m lo hi (put k v (as ++ bs)) heap (as ++ bs).length xs ys r := by
    intro hgt
    rw [insertAt_append as bs (k, v) (by omega), hput, put_of_lt v hgt]
    have hwithin : Within lo hi (as ++ (k, v) :: bs) := by
      rw [← put_of_lt v hgt, ← hput]
      exact hes.put hlo hhi v
    have hlength : (as ++ (k, v) :: bs).length = (as ++ bs).length + 1 := by
      simp only [List.length_append, List.length_cons]
      omega
    have hmem' : ∀ i, ({ heap with count := heap.count + 1 } : Heap).mem i = true := hmem
    obtain ⟨r, hr, hspec⟩ := splitLeaf_spec (m := m) hmem' (by omega) (by omega) hlt hwithin (hlinks.setCount _)
    refine ⟨r, hr, ⟨hspec.ok, hspec.shape, hspec.entries, hspec.links, ?_, hspec.mem⟩⟩
    have hcount := hspec.count
    dsimp only at hcount
    omega
  unfold insertLeaf
  simp only [hidx]
  cases bs with
  | nil =>
    rw [List.getElem?_eq_none (by simp)]
    exact hnew (by simp)
  | cons e bs =>
    have hget : (as ++ e :: bs)[as.length]? = some e := by simp
    have hrest : ∀ b ∈ bs, e.1 < b.1 :=
      (List.pairwise_cons.mp (sorted_append.mp hes.sorted).2.1).1
    rw [hget]
    dsimp only
    by_cases heq : ops.compare e.1 k = .eq
    · have hk : e.1 = k := compare_eq_iff_eq.mp ((hops _ _).symm.trans heq)
      have hbucket : put k v (e :: bs) = (e.1, v) :: bs := by
        simp [put, hk]
      have hset : (as ++ e :: bs).set as.length (e.1, v) = put k v (as ++ e :: bs) := by
        rw [hput, hbucket, List.set_append_right _ _ le_rfl, Nat.sub_self, List.set_cons_zero]
      have hlength : (put k v (as ++ e :: bs)).length = (as ++ e :: bs).length := by
        rw [← hset, List.length_set]
      rw [if_pos heq, hset]
      refine ⟨_, rfl, ⟨rfl, Or.inl ⟨rfl, ?_, ?_, hlt, hes.put hlo hhi v⟩, ?_, ?_, ?_, rfl⟩⟩
      · exact hlength ▸ hmin
      · exact hlength ▸ hmax
      · simp [Insertion.parts]
      · simpa [Insertion.parts] using hlinks
      · rw [hlength]
    · have hke : k < e.1 := by
        refine lt_of_le_of_ne (hbs e List.mem_cons_self) fun hk => heq ?_
        rw [hops, hk, compare_eq_iff_eq]
      rw [if_neg heq]
      refine hnew ?_
      rintro b (_ | ⟨_, hb⟩)
      · exact hke
      · exact hke.trans (hrest b hb)

end

section

variable {heap : Heap} {xs ys : List Nat} {lo hi : Bound K}

theorem splitInner_spec (hmem : ∀ i, heap.mem i = true) {ks : List K}
    {kids : List (Node K V)} (hlen : m ≤ ks.length) (hroom : ks.length ≤ btMax + 1)
    (hchain : Chain (Wf d btMin) lo ks kids hi)
    (hlinks : LeafLinks heap (xs ++ kids.flatMap Node.leafIds ++ ys)) :
    ∃ r, splitInner heap ks kids = some r ∧
      InsertSpec (d + 1) m lo hi (kids.flatMap Node.entries) heap
        (kids.flatMap Node.entries).length xs ys r := by
  unfold splitInner
  by_cases hfit : ks.length ≤ btMax
  · rw [if_pos hfit]
    refine ⟨_, rfl, ⟨rfl, Or.inl ⟨rfl, hlen, hfit, hchain⟩, ?_, ?_, rfl, rfl⟩⟩
    · simp [Insertion.parts]
    · simpa [Insertion.parts] using hlinks
  · obtain ⟨ks₁, sep, ks₂, rfl, hk₁, hk₂⟩ := exists_halves (show ks.length = btMax + 1 by omega)
    have hhalf : (ks₁ ++ sep :: ks₂).length / 2 = ks₁.length := by
      simp only [List.length_append, List.length_cons, hk₁, hk₂]
      rfl
    have hkids : (kids.take (ks₁.length + 1)).length = ks₁.length + 1 := by
      have := hchain.length
      simp only [List.length_append, List.length_cons] at this
      exact List.length_take_of_le (by omega)
    obtain ⟨hleft, hright⟩ := (chain_append hkids).mp
      ((List.take_append_drop (ks₁.length + 1) kids).symm ▸ hchain)
    rw [if_neg hfit, if_pos (hmem _)]
    dsimp only
    rw [hhalf]
    have hget : (ks₁ ++ sep :: ks₂)[ks₁.length]? = some sep := by simp
    have hdrop : (ks₁ ++ sep :: ks₂).drop (ks₁.length + 1) = ks₂ := by
      rw [← List.drop_drop, List.drop_left]
      rfl
    rw [hget, List.take_left, hdrop]
    refine ⟨_, rfl, ⟨rfl, Or.inr ⟨rfl, ⟨hk₁.ge, by omega, hleft⟩, ⟨hk₂.ge, by omega, hright⟩⟩,
      ?_, ?_, rfl, rfl⟩⟩
    · simp only [Insertion.parts, Option.map_some, Option.toList_some, List.flatMap_cons,
        List.flatMap_nil, List.append_nil, Node.entries_inner]
      rw [← List.flatMap_append, List.take_append_drop]
    · simp only [Insertion.parts, Option.map_some, Option.toList_some, List.flatMap_cons,
        List.flatMap_nil, List.append_nil, Node.leafIds_inner]
      rw [← List.flatMap_append, List.take_append_drop]
      exact hlinks.nodeNew

theorem insertInner_spec {l h : Bound K} {ks₁ ks₂ : List K}
    {as₁ as₂ : List (Node K V)} {kid : Node K V} {r : Insertion K V}
    (hmem : ∀ i, heap.mem i = true) (hlen : as₁.length = ks₁.length)
    (hmin : m ≤ (ks₁ ++ ks₂).length) (hmax : (ks₁ ++ ks₂).length ≤ btMax)
    (hlen₂ : as₂.length = ks₂.length)
    (hfoc : Focus (Wf d btMin) lo hi l h ks₁ ks₂ as₁ as₂)
    (hr : InsertSpec d btMin l h es heap kid.entries.length
      (xs ++ as₁.flatMap Node.leafIds) (as₂.flatMap Node.leafIds ++ ys) r) :
    ∃ r', insertInner (ks₁ ++ ks₂) (as₁ ++ kid :: as₂) ks₁.length r = some r' ∧
      InsertSpec (d + 1) m lo hi
        (as₁.flatMap Node.entries ++ es ++ as₂.flatMap Node.entries) heap
        (Node.inner (ks₁ ++ ks₂) (as₁ ++ kid :: as₂)).entries.length xs ys r' := by
  have hchain := hfoc.refill _ _ hr.chain
  have hset : (as₁ ++ kid :: as₂).set ks₁.length r.node = as₁ ++ r.node :: as₂ := by
    rw [List.set_append_right _ _ hlen.le, hlen, Nat.sub_self, List.set_cons_zero]
  have hentries : (as₁ ++ r.parts ++ as₂).flatMap Node.entries =
      as₁.flatMap Node.entries ++ es ++ as₂.flatMap Node.entries := by
    rw [List.flatMap_append, List.flatMap_append, hr.entries]
  have hlinks : LeafLinks r.heap (xs ++ (as₁ ++ r.parts ++ as₂).flatMap Node.leafIds ++ ys) := by
    simpa only [List.flatMap_append, List.append_assoc] using hr.links
  have hmem' : ∀ i, r.heap.mem i = true := fun i => hr.mem ▸ hmem i
  have hcount := hr.count
  unfold insertInner
  simp only [hr.ok, hset, Bool.not_true, Bool.false_eq_true, if_false]
  obtain ⟨heap', node, right, ok⟩ := r
  cases right with
  | none =>
    simp only [Insertion.seps, Insertion.parts, Option.map_none, Option.toList_none,
      List.append_nil, List.append_assoc, List.singleton_append] at hchain hentries hlinks
    refine ⟨_, rfl, ⟨rfl, Or.inl ⟨rfl, hmin, hmax, hchain⟩, ?_, ?_, ?_, hr.mem⟩⟩
    · simpa [Insertion.parts] using hentries
    · simpa [Insertion.parts] using hlinks
    · simp only [Node.entries_inner, List.flatMap_append, List.flatMap_cons,
        List.length_append] at hcount ⊢
      omega
  | some pair =>
    obtain ⟨sep, right⟩ := pair
    simp only [Insertion.seps, Insertion.parts, Option.map_some, Option.toList_some,
      List.append_assoc, List.cons_append, List.nil_append] at hchain hentries hlinks
    have hkids : insertAt (btMax + 2) (as₁ ++ node :: as₂) (ks₁.length + 1) right =
        some (as₁ ++ node :: right :: as₂) := by
      have hroom : (as₁ ++ [node] ++ as₂).length < btMax + 2 := by
        simp only [List.length_append, List.length_cons, List.length_nil] at hmax ⊢
        omega
      simpa [hlen] using insertAt_append (as₁ ++ [node]) as₂ right hroom
    dsimp only
    rw [insertAt_append ks₁ ks₂ sep (by omega), hkids]
    dsimp only [Option.bind_eq_bind, Option.bind_some]
    have hroom : (ks₁ ++ sep :: ks₂).length = (ks₁ ++ ks₂).length + 1 := by
      simp only [List.length_append, List.length_cons]
      omega
    rw [← List.append_assoc] at hlinks hentries
    obtain ⟨r', hr', hspec⟩ := splitInner_spec (m := m) hmem' (by omega) (by omega) hchain hlinks
    refine ⟨r', hr', ⟨hspec.ok, hspec.shape, hspec.entries.trans hentries, hspec.links, ?_,
      hspec.mem.trans hr.mem⟩⟩
    have hcount' := hspec.count
    rw [hentries] at hcount'
    simp only [Node.entries_inner, List.flatMap_append, List.flatMap_cons,
      List.length_append] at hcount hcount' ⊢
    omega

end

variable {ops : KeyOps K}

omit [LinearOrder K] in
theorem btInsertKid_append (k : K) (v : V) (heap : Heap) (as bs : List (Node K V))
    (kid : Node K V) :
    btInsertKid ops k v heap (as ++ kid :: bs) as.length = btInsert ops k v heap kid := by
  induction as with
  | nil => rfl
  | cons a as ih => exact ih

theorem btInsert_spec (hops : ∀ a b, ops.compare a b = compare a b)
    {lo hi : Bound K} {node : Node K V} {heap : Heap} {k : K} {v : V} {xs ys : List Nat}
    (hmem : ∀ i, heap.mem i = true) (hw : Wf d m lo hi node) (hlo : lo ≤ key k)
    (hhi : key k < hi) (hlinks : LeafLinks heap (xs ++ node.leafIds ++ ys)) :
    ∃ r, btInsert ops k v heap node = some r ∧
      InsertSpec d m lo hi (put k v node.entries) heap node.entries.length xs ys r := by
  induction d generalizing m lo hi node xs ys with
  | zero =>
    match node, hw with
    | .leaf id es, hw =>
      rw [Node.entries_leaf]
      exact insertLeaf_spec hops hmem hw hlo hhi hlinks
  | succ d ih =>
    match node, hw with
    | .inner ks kids, ⟨hmin, hmax, hchain⟩ =>
      obtain ⟨ks₁, ks₂, as₁, kid, as₂, l, h, rfl, rfl, hlen₁, hlen₂, hidx, hkid, hl, hh,
        hfoc⟩ := exists_descent hops hchain hlo hhi
      have hkidLinks : LeafLinks heap ((xs ++ as₁.flatMap Node.leafIds) ++ kid.leafIds ++
          (as₂.flatMap Node.leafIds ++ ys)) := by simpa using hlinks
      obtain ⟨r, hr, hspec⟩ := ih hkid hl hh hkidLinks
      obtain ⟨r', hr', hspec'⟩ := insertInner_spec hmem hlen₁ hmin hmax hlen₂ hfoc hspec
      have hentries : put k v (Node.inner (ks₁ ++ ks₂) (as₁ ++ kid :: as₂)).entries =
          as₁.flatMap Node.entries ++ put k v kid.entries ++ as₂.flatMap Node.entries := by
        rw [Node.entries_inner, List.flatMap_append, List.flatMap_cons,
          put_append_left v _ (hfoc.lt_left Wf.within hl),
          put_append_right v _ (hfoc.lt_right Wf.within hh), List.append_assoc]
      refine ⟨r', ?_, hentries ▸ hspec'⟩
      rw [btInsert, hidx, ← hlen₁, btInsertKid_append, hr]
      exact hlen₁ ▸ hr'

end Ussr.BTree
