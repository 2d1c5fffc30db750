import Ussr.BTree.Soundness

/-! Puts that run out of memory. Nothing here depends on the order of the keys: the shape of the nodes and the number
of the pairs are kept by every call that returns 0. -/

namespace Ussr.BTree

variable {K V : Type}
variable {heap heap' : Heap} {kids : List (Node K V)} {i : Nat} {r : Insertion K V} {k sep : K} {ks : List K}
  {t' t : Tree K V} {v : V}

namespace Node

mutual

def Shaped : Node K V → Prop
  | .leaf _ _ => True
  | .inner ks kids => kids.length = ks.length + 1 ∧ ShapedAll kids

def ShapedAll : List (Node K V) → Prop
  | [] => True
  | kid :: kids => Shaped kid ∧ ShapedAll kids

end

theorem shapedAll_iff : ShapedAll kids ↔ ∀ kid ∈ kids, kid.Shaped := by
  induction kids with
  | nil => simp [ShapedAll]
  | cons kid kids ih => simp [ShapedAll, ih]

theorem shaped_inner :
    (inner ks kids).Shaped ↔ kids.length = ks.length + 1 ∧ ∀ kid ∈ kids, kid.Shaped := by
  rw [Shaped, shapedAll_iff]

def size (node : Node K V) : Nat := node.entries.length

theorem size_leaf (id : Nat) (es : List (K × V)) : (leaf id es).size = es.length := by
  rw [size, entries_leaf]

theorem size_inner (ks : List K) (kids : List (Node K V)) : (inner ks kids).size = (kids.map size).sum := by
  rw [size, entries_inner, List.length_flatMap]
  rfl

end Node

open Node

theorem insertAt_eq_some {α : Type} {room : Nat} {xs ys : List α} {x : α} (h : insertAt room xs i x = some ys) :
    ys.length = xs.length + 1 ∧ (∀ y, y ∈ ys ↔ y = x ∨ y ∈ xs) ∧ ∀ f : α → Nat, (ys.map f).sum = (xs.map f).sum + f x := by
  unfold insertAt at h
  split at h
  · obtain rfl := Option.some.inj h
    rename_i hi
    have hlen : (xs.take i).length = i := List.length_take_of_le hi.1
    refine ⟨?_, fun y => ?_, fun f => ?_⟩
    · rw [List.length_append, List.length_cons, List.length_drop, hlen]
      omega
    · nth_rewrite 3 [← List.take_append_drop i xs]
      rw [List.mem_append, List.mem_append, List.mem_cons]
      tauto
    · nth_rewrite 3 [← List.take_append_drop i xs]
      simp only [List.map_append, List.map_cons, List.sum_append, List.sum_cons]
      omega
  · cases h

theorem sum_map_set {α : Type} {xs : List α} {x : α} (h : xs[i]? = some x) (y : α) (f : α → Nat) :
    ((xs.set i y).map f).sum + f x = (xs.map f).sum + f y := by
  induction xs generalizing i with
  | nil => cases h
  | cons a xs ih =>
    cases i with
    | zero =>
      cases h
      simp only [List.set_cons_zero, List.map_cons, List.sum_cons]
      omega
    | succ i =>
      have hrest := ih h
      simp only [List.set_cons_succ, List.map_cons, List.sum_cons]
      omega

theorem sum_map_eraseIdx {α : Type} {xs : List α} {x : α} (h : xs[i]? = some x) (f : α → Nat) :
    ((xs.eraseIdx i).map f).sum + f x = (xs.map f).sum := by
  induction xs generalizing i with
  | nil => cases h
  | cons a xs ih =>
    cases i with
    | zero =>
      cases h
      simp only [List.eraseIdx_cons_zero, List.map_cons, List.sum_cons]
      omega
    | succ i =>
      have hrest := ih h
      simp only [List.eraseIdx_cons_succ, List.map_cons, List.sum_cons]
      omega

/-- What an insertion does to the count, whatever the order of the keys; where it splits or fails, there was a new key. -/
structure Inserts (heap : Heap) (size : Nat) (r : Insertion K V) : Prop where
  shaped : r.ok = true → ∀ part ∈ r.parts, part.Shaped
  count : r.ok = true → r.heap.count + size = heap.count + (r.parts.map Node.size).sum
  grown : r.ok = false ∨ r.right ≠ none → r.heap.count = heap.count + 1

theorem inserts_failed {size : Nat} {node : Node K V} (hgrown : heap'.count = heap.count + 1) :
    Inserts heap size ⟨heap', node, none, false⟩ :=
  ⟨fun hok => (by cases hok), fun hok => (by cases hok), fun _ => hgrown⟩

theorem inserts_one {size : Nat} {node : Node K V} (hshaped : node.Shaped)
    (hcount : heap'.count + size = heap.count + node.size) : Inserts heap size ⟨heap', node, none, true⟩ := by
  refine ⟨fun _ => ?_, fun _ => ?_, fun hgrown => ?_⟩
  · simpa [Insertion.parts] using hshaped
  · simpa [Insertion.parts] using hcount
  · simp at hgrown

theorem inserts_two {size : Nat} {node right : Node K V} (hnode : node.Shaped) (hright : right.Shaped)
    (hcount : heap'.count + size = heap.count + (node.size + right.size)) (hgrown : heap'.count = heap.count + 1) :
    Inserts heap size ⟨heap', node, some (sep, right), true⟩ := by
  refine ⟨fun _ => ?_, fun _ => ?_, fun _ => hgrown⟩
  · simpa [Insertion.parts] using ⟨hnode, hright⟩
  · simpa [Insertion.parts] using hcount

theorem splitLeaf_inserts {id size : Nat} {es : List (K × V)}
    (h : splitLeaf { heap with count := heap.count + 1 } id es = some r) (hsize : es.length = size + 1) :
    Inserts heap size r := by
  unfold splitLeaf at h
  split at h
  · obtain rfl := Option.some.inj h
    refine inserts_one trivial ?_
    rw [size_leaf]
    show heap.count + 1 + size = _
    omega
  · extract_lets r' half at h
    split at h
    · cases hdrop : es.drop half with
      | nil =>
        rw [hdrop] at h
        cases h
      | cons e rest =>
        rw [hdrop] at h
        obtain rfl := Option.some.inj h
        have hparts : (es.take half).length + (e :: rest).length = es.length := by
          rw [← hdrop, ← List.length_append, List.take_append_drop]
        refine inserts_two trivial trivial ?_ rfl
        rw [size_leaf, size_leaf, hparts]
        show heap.count + 1 + size = _
        omega
    · obtain rfl := Option.some.inj h
      exact inserts_failed rfl

theorem insertLeaf_inserts {ops : KeyOps K} {id : Nat} {es : List (K × V)}
    (h : insertLeaf ops k v heap id es = some r) : Inserts heap es.length r := by
  unfold insertLeaf at h
  extract_lets i fresh at h
  have hfresh : fresh = some r → Inserts heap es.length r := by
    intro hnew
    obtain ⟨es', hes', hsplit⟩ := Option.bind_eq_some_iff.mp hnew
    exact splitLeaf_inserts hsplit (insertAt_eq_some hes').1
  split at h
  · split at h
    · obtain rfl := Option.some.inj h
      refine inserts_one trivial ?_
      rw [size_leaf, List.length_set]
    · exact hfresh h
  · exact hfresh h

theorem splitInner_inserts {size : Nat}
    (h : splitInner heap' ks kids = some r) (hlen : kids.length = ks.length + 1) (hkids : ∀ kid ∈ kids, kid.Shaped)
    (hsize : heap'.count + size = heap.count + (kids.map Node.size).sum) (hgrown : heap'.count = heap.count + 1) :
    Inserts heap size r := by
  unfold splitInner at h
  split at h
  · obtain rfl := Option.some.inj h
    exact inserts_one (shaped_inner.mpr ⟨hlen, hkids⟩) (by rw [size_inner]; exact hsize)
  · split at h
    · extract_lets half at h
      split at h
      · cases h
      · rename_i sep hsep
        obtain rfl := Option.some.inj h
        have hhalf : half < ks.length := (List.getElem?_eq_some_iff.mp hsep).1
        have hparts : ((kids.take (half + 1)).map Node.size).sum + ((kids.drop (half + 1)).map Node.size).sum =
            (kids.map Node.size).sum := by
          rw [← List.sum_append, ← List.map_append, List.take_append_drop]
        refine inserts_two (shaped_inner.mpr ⟨?_, fun kid hkid => hkids kid (List.mem_of_mem_take hkid)⟩)
          (shaped_inner.mpr ⟨?_, fun kid hkid => hkids kid (List.mem_of_mem_drop hkid)⟩) ?_ hgrown
        · rw [List.length_take, List.length_take]
          omega
        · rw [List.length_drop, List.length_drop]
          omega
        · rw [size_inner, size_inner, hparts]
          exact hsize
    · obtain rfl := Option.some.inj h
      exact inserts_failed hgrown

theorem insertInner_inserts {kid : Node K V} {part : Insertion K V}
    (h : insertInner ks kids i part = some r) (hlen : kids.length = ks.length + 1) (hkids : ∀ kid ∈ kids, kid.Shaped)
    (hkid : kids[i]? = some kid) (hpart : Inserts heap kid.size part) :
    Inserts heap (kids.map Node.size).sum r := by
  unfold insertInner at h
  extract_lets kids' at h
  have hset : (kids'.map Node.size).sum + kid.size = (kids.map Node.size).sum + part.node.size :=
    sum_map_set hkid part.node Node.size
  have hlength : kids'.length = ks.length + 1 := (List.length_set ..).trans hlen
  cases hok : part.ok with
  | false =>
    rw [hok, if_pos (show (!false) = true from rfl)] at h
    obtain rfl := Option.some.inj h
    exact inserts_failed (hpart.grown (.inl hok))
  | true =>
    have hshaped : ∀ x ∈ kids', x.Shaped := by
      intro x hx
      obtain hx | rfl := List.mem_or_eq_of_mem_set hx
      · exact hkids x hx
      · exact hpart.shaped hok _ List.mem_cons_self
    have hcount := hpart.count hok
    rw [hok, if_neg (by decide)] at h
    cases hright : part.right with
    | none =>
      rw [hright] at h
      obtain rfl := Option.some.inj h
      refine inserts_one (shaped_inner.mpr ⟨hlength, hshaped⟩) ?_
      simp only [Insertion.parts, hright, Option.map_none, Option.toList_none, List.map_cons, List.map_nil, List.sum_cons,
        List.sum_nil] at hcount
      rw [size_inner]
      omega
    | some pair =>
      obtain ⟨sep, right⟩ := pair
      rw [hright] at h
      obtain ⟨ks', hks', h⟩ := Option.bind_eq_some_iff.mp h
      obtain ⟨kids'', hkids'', h⟩ := Option.bind_eq_some_iff.mp h
      obtain ⟨hlen₁, -, -⟩ := insertAt_eq_some hks'
      obtain ⟨hlen₂, hmem, hsum⟩ := insertAt_eq_some hkids''
      refine splitInner_inserts h (by rw [hlen₁, hlen₂, hlength]) (fun x hx => ?_) ?_ (hpart.grown (.inr (by rw [hright]; simp)))
      · obtain rfl | hx := (hmem x).mp hx
        · exact hpart.shaped hok x (by simp [Insertion.parts, hright])
        · exact hshaped x hx
      · have hsum' := hsum Node.size
        simp only [Insertion.parts, hright, Option.map_some, Option.toList_some, List.map_cons, List.map_nil, List.sum_cons,
          List.sum_nil] at hcount
        omega

theorem btInsertKid_eq_some {ops : KeyOps K}
    (h : btInsertKid ops k v heap kids i = some r) : ∃ kid ∈ kids, kids[i]? = some kid ∧ btInsert ops k v heap kid = some r := by
  induction kids generalizing i with
  | nil => rw [btInsertKid] at h; cases h
  | cons kid kids ih =>
    cases i with
    | zero => exact ⟨kid, List.mem_cons_self, rfl, h⟩
    | succ i =>
      obtain ⟨x, hx, hget, hrun⟩ := ih h
      exact ⟨x, List.mem_cons_of_mem _ hx, hget, hrun⟩

theorem btInsert_inserts {ops : KeyOps K} {k : K} {v : V} {heap : Heap} (node : Node K V) {r : Insertion K V}
    (h : btInsert ops k v heap node = some r) (hshaped : node.Shaped) : Inserts heap node.size r := by
  match node with
  | .leaf id es =>
    rw [size_leaf]
    exact insertLeaf_inserts h
  | .inner ks kids =>
    rw [btInsert] at h
    cases hpart : btInsertKid ops k v heap kids (btUpper ops ks k) with
    | none =>
      rw [hpart] at h
      cases h
    | some part =>
      rw [hpart] at h
      obtain ⟨kid, hmem, hget, hrun⟩ := btInsertKid_eq_some hpart
      obtain ⟨hlen, hkids⟩ := shaped_inner.mp hshaped
      rw [size_inner]
      exact insertInner_inserts h hlen hkids hget (btInsert_inserts kid hrun (hkids kid hmem))
termination_by sizeOf node
decreasing_by
  have hlt := List.sizeOf_lt_of_mem hmem
  simp only [Node.inner.sizeOf_spec]
  omega

theorem borrowLeft_size {l c l' c' : Node K V} {s : K} (h : borrowLeft l sep c = some (l', s, c')) (hl : l.Shaped) (hc : c.Shaped) :
    l'.Shaped ∧ c'.Shaped ∧ l'.size + c'.size = l.size + c.size := by
  unfold borrowLeft at h
  split at h
  · rename_i lid les cid ces
    obtain ⟨e, he, h⟩ := Option.bind_eq_some_iff.mp h
    obtain ⟨ces', hces', h⟩ := Option.bind_eq_some_iff.mp h
    obtain ⟨rfl, -, rfl⟩ : _ ∧ _ ∧ _ := by simpa using h
    have hlen := (insertAt_eq_some hces').1
    have hpos : 0 < les.length := List.length_pos_iff.mpr fun hnil => by simp [hnil] at he
    refine ⟨trivial, trivial, ?_⟩
    rw [size_leaf, size_leaf, size_leaf, size_leaf, List.length_dropLast]
    omega
  · rename_i lks lkids cks ckids
    obtain ⟨k, hk, h⟩ := Option.bind_eq_some_iff.mp h
    obtain ⟨kid, hkid, h⟩ := Option.bind_eq_some_iff.mp h
    obtain ⟨cks', hcks', h⟩ := Option.bind_eq_some_iff.mp h
    obtain ⟨ckids', hckids', h⟩ := Option.bind_eq_some_iff.mp h
    obtain ⟨rfl, -, rfl⟩ : _ ∧ _ ∧ _ := by simpa using h
    obtain ⟨hlen, hlkids⟩ := shaped_inner.mp hl
    obtain ⟨hclen, hckids⟩ := shaped_inner.mp hc
    obtain ⟨hlen₁, -, -⟩ := insertAt_eq_some hcks'
    obtain ⟨hlen₂, hmem, hsum⟩ := insertAt_eq_some hckids'
    have hpos : 0 < lks.length := List.length_pos_iff.mpr fun hnil => by simp [hnil] at hk
    have hlast : lkids = lkids.dropLast ++ [kid] := by
      obtain ⟨front, rfl⟩ := List.getLast?_eq_some_iff.mp hkid
      rw [List.dropLast_concat]
    have hkidmem : kid ∈ lkids := by
      rw [hlast]
      exact List.mem_append_right _ List.mem_cons_self
    have hsplit : (lkids.map Node.size).sum = (lkids.dropLast.map Node.size).sum + kid.size := by
      conv_lhs => rw [hlast]
      simp
    refine ⟨shaped_inner.mpr ⟨?_, fun x hx => hlkids x ((List.dropLast_sublist _).subset hx)⟩, shaped_inner.mpr ⟨by omega, fun x hx => ?_⟩, ?_⟩
    · rw [List.length_dropLast, List.length_dropLast]
      omega
    · obtain rfl | hx := (hmem x).mp hx
      · exact hlkids x hkidmem
      · exact hckids x hx
    · have hsum' := hsum Node.size
      rw [size_inner, size_inner, size_inner, size_inner]
      omega
  · cases h

theorem borrowRight_size {c r c' r' : Node K V} {s : K} (h : borrowRight c sep r = some (c', s, r')) (hc : c.Shaped) (hr : r.Shaped) :
    c'.Shaped ∧ r'.Shaped ∧ c'.size + r'.size = c.size + r.size := by
  unfold borrowRight at h
  split at h
  · rename_i cid ces rid e e' res
    obtain ⟨ces', hces', h⟩ := Option.bind_eq_some_iff.mp h
    obtain ⟨rfl, -, rfl⟩ : _ ∧ _ ∧ _ := by simpa using h
    have hlen := (insertAt_eq_some hces').1
    refine ⟨trivial, trivial, ?_⟩
    rw [size_leaf, size_leaf, size_leaf, size_leaf, hlen]
    simp only [List.length_cons]
    omega
  · rename_i cks ckids k rks kid rkids
    obtain ⟨cks', hcks', h⟩ := Option.bind_eq_some_iff.mp h
    obtain ⟨ckids', hckids', h⟩ := Option.bind_eq_some_iff.mp h
    obtain ⟨rfl, -, rfl⟩ : _ ∧ _ ∧ _ := by simpa using h
    obtain ⟨hclen, hckids⟩ := shaped_inner.mp hc
    obtain ⟨hrlen, hrkids⟩ := shaped_inner.mp hr
    obtain ⟨hlen₁, -, -⟩ := insertAt_eq_some hcks'
    obtain ⟨hlen₂, hmem, hsum⟩ := insertAt_eq_some hckids'
    rw [List.length_cons, List.length_cons] at hrlen
    refine ⟨shaped_inner.mpr ⟨by omega, fun x hx => ?_⟩,
      shaped_inner.mpr ⟨by omega, fun x hx => hrkids x (List.mem_cons_of_mem _ hx)⟩, ?_⟩
    · obtain rfl | hx := (hmem x).mp hx
      · exact hrkids x List.mem_cons_self
      · exact hckids x hx
    · have hsum' := hsum Node.size
      rw [size_inner, size_inner, size_inner, size_inner, List.map_cons, List.sum_cons]
      omega
  · cases h

theorem mergeInto_size {a b a' : Node K V} (h : mergeInto heap a sep b = some (heap', a'))
    (ha : a.Shaped) (hb : b.Shaped) : heap'.count = heap.count ∧ a'.Shaped ∧ a'.size = a.size + b.size := by
  unfold mergeInto at h
  split at h
  · split at h
    · cases h
      refine ⟨rfl, trivial, ?_⟩
      rw [size_leaf, size_leaf, size_leaf, List.length_append]
    · cases h
  · split at h
    · cases h
      obtain ⟨halen, hakids⟩ := shaped_inner.mp ha
      obtain ⟨hblen, hbkids⟩ := shaped_inner.mp hb
      refine ⟨rfl, shaped_inner.mpr ⟨?_, fun x hx => ?_⟩, ?_⟩
      · rw [List.length_append, List.length_append, List.length_cons]
        omega
      · obtain hx | hx := List.mem_append.mp hx
        · exact hakids x hx
        · exact hbkids x hx
      · rw [size_inner, size_inner, size_inner, List.map_append, List.sum_append]
    · cases h
  · cases h

theorem replace_two {j : Nat} {a b a' b' : Node K V} (hij : i ≠ j) (ha : kids[i]? = some a)
    (hb : kids[j]? = some b) (hkids : ∀ kid ∈ kids, kid.Shaped) (ha' : a'.Shaped) (hb' : b'.Shaped)
    (hsize : a'.size + b'.size = a.size + b.size) :
    ((kids.set i a').set j b').length = kids.length ∧ (∀ kid ∈ (kids.set i a').set j b', kid.Shaped) ∧
      (((kids.set i a').set j b').map Node.size).sum = (kids.map Node.size).sum := by
  refine ⟨by rw [List.length_set, List.length_set], fun kid hkid => ?_, ?_⟩
  · obtain hkid | rfl := List.mem_or_eq_of_mem_set hkid
    · obtain hkid | rfl := List.mem_or_eq_of_mem_set hkid
      · exact hkids kid hkid
      · exact ha'
    · exact hb'
  · have hfirst := sum_map_set ha a' Node.size
    have hb₁ : (kids.set i a')[j]? = some b := by rw [List.getElem?_set_ne hij, hb]
    have hsecond := sum_map_set hb₁ b' Node.size
    omega

theorem btFix_size {ks' : List K} {kids' : List (Node K V)}
    (h : btFix heap ks kids i = some (heap', ks', kids')) (hlen : kids.length = ks.length + 1) (hkids : ∀ kid ∈ kids, kid.Shaped) :
    heap'.count = heap.count ∧ kids'.length = ks'.length + 1 ∧ (∀ kid ∈ kids', kid.Shaped) ∧
      (kids'.map Node.size).sum = (kids.map Node.size).sum := by
  unfold btFix at h
  obtain ⟨c, hc, h⟩ := Option.bind_eq_some_iff.mp h
  have hcs := hkids c (List.mem_of_getElem? hc)
  extract_lets l r j at h
  split at h
  · rename_i hleft
    obtain ⟨l₀, hl₀, h⟩ := Option.bind_eq_some_iff.mp h
    obtain ⟨sep, hsep, h⟩ := Option.bind_eq_some_iff.mp h
    obtain ⟨⟨l', s, c'⟩, hborrow, h⟩ := Option.bind_eq_some_iff.mp h
    obtain ⟨rfl, rfl, rfl⟩ : _ ∧ _ ∧ _ := by simpa using h
    have hpos : 0 < i := by
      by_contra hzero
      simp [l, hzero] at hl₀
    have hl : kids[i - 1]? = some l₀ := by simpa [l, hpos] using hl₀
    obtain ⟨hl', hc', hsize⟩ := borrowLeft_size hborrow (hkids l₀ (List.mem_of_getElem? hl)) hcs
    obtain ⟨hlen', hshaped, hsum⟩ := replace_two (by omega) hl hc hkids hl' hc' hsize
    exact ⟨rfl, by rw [hlen', List.length_set, hlen], hshaped, hsum⟩
  · split at h
    · rename_i hright
      obtain ⟨r₀, hr₀, h⟩ := Option.bind_eq_some_iff.mp h
      obtain ⟨sep, hsep, h⟩ := Option.bind_eq_some_iff.mp h
      obtain ⟨⟨c', s, r'⟩, hborrow, h⟩ := Option.bind_eq_some_iff.mp h
      obtain ⟨rfl, rfl, rfl⟩ : _ ∧ _ ∧ _ := by simpa using h
      have hr : kids[i + 1]? = some r₀ := by
        by_cases hi : i < ks.length
        · simpa [r, hi] using hr₀
        · simp [r, hi] at hr₀
      obtain ⟨hc', hr', hsize⟩ := borrowRight_size hborrow hcs (hkids r₀ (List.mem_of_getElem? hr))
      obtain ⟨hlen', hshaped, hsum⟩ := replace_two (by omega) hc hr hkids hc' hr' hsize
      exact ⟨rfl, by rw [hlen', List.length_set, hlen], hshaped, hsum⟩
    · obtain ⟨a, ha, h⟩ := Option.bind_eq_some_iff.mp h
      obtain ⟨b, hb, h⟩ := Option.bind_eq_some_iff.mp h
      obtain ⟨sep, hsep, h⟩ := Option.bind_eq_some_iff.mp h
      obtain ⟨⟨heap'', a'⟩, hmerge, h⟩ := Option.bind_eq_some_iff.mp h
      obtain ⟨rfl, rfl, rfl⟩ : _ ∧ _ ∧ _ := by simpa using h
      obtain ⟨hcount, ha', hsize⟩ := mergeInto_size hmerge (hkids a (List.mem_of_getElem? ha)) (hkids b (List.mem_of_getElem? hb))
      have hj : j < ks.length := (List.getElem?_eq_some_iff.mp hsep).1
      have hb₁ : (kids.set j a')[j + 1]? = some b := by rw [List.getElem?_set_ne (by omega), hb]
      refine ⟨hcount, ?_, fun kid hkid => ?_, ?_⟩
      · rw [List.length_eraseIdx_of_lt (by rw [List.length_set]; omega), List.length_eraseIdx_of_lt hj, List.length_set]
        omega
      · obtain hkid | rfl := List.mem_or_eq_of_mem_set (List.mem_of_mem_eraseIdx hkid)
        · exact hkids kid hkid
        · exact ha'
      · have hfirst := sum_map_set ha a' Node.size
        have hsecond := sum_map_eraseIdx hb₁ Node.size
        omega

structure Deletes (heap : Heap) (size : Nat) (r : Deletion K V) : Prop where
  shaped : r.node.Shaped
  size : r.node.size + 1 = size
  count : r.heap.count = heap.count - 1

theorem deleteLeaf_deletes {ops : KeyOps K} {id : Nat} {es : List (K × V)}
    (hfound : (deleteLeaf ops k heap id es).found = true) : Deletes heap es.length (deleteLeaf ops k heap id es) := by
  unfold deleteLeaf at hfound ⊢
  extract_lets i at hfound ⊢
  split at hfound
  · rename_i e he
    split at hfound
    · rename_i heq
      rw [if_pos heq]
      have hi : i < es.length := (List.getElem?_eq_some_iff.mp he).1
      refine ⟨trivial, ?_, rfl⟩
      rw [size_leaf, List.length_eraseIdx_of_lt hi]
      omega
    · cases hfound
  · cases hfound

theorem deleteInner_deletes {kid : Node K V} {part r : Deletion K V}
    (h : deleteInner ks kids i part = some r) (hlen : kids.length = ks.length + 1) (hkids : ∀ kid ∈ kids, kid.Shaped)
    (hkid : kids[i]? = some kid) (hpart : part.found = true → Deletes heap kid.size part) (hfound : r.found = true) :
    Deletes heap (kids.map Node.size).sum r := by
  unfold deleteInner at h
  cases hpartFound : part.found with
  | false =>
    rw [hpartFound, if_pos (show (!false) = true from rfl)] at h
    rw [← Option.some.inj h] at hfound
    cases hfound
  | true =>
    obtain ⟨hshaped, hsize, hcount⟩ := hpart hpartFound
    have hset := sum_map_set hkid part.node Node.size
    have hlength : (kids.set i part.node).length = ks.length + 1 := (List.length_set ..).trans hlen
    have hall : ∀ x ∈ kids.set i part.node, x.Shaped := by
      intro x hx
      obtain hx | rfl := List.mem_or_eq_of_mem_set hx
      · exact hkids x hx
      · exact hshaped
    rw [hpartFound, if_neg (by decide)] at h
    split at h
    · obtain ⟨⟨heap', ks', kids'⟩, hfix, h⟩ := Option.bind_eq_some_iff.mp h
      obtain rfl := Option.some.inj h
      obtain ⟨hcount', hlen', hkids', hsum'⟩ := btFix_size hfix hlength hall
      refine ⟨shaped_inner.mpr ⟨hlen', hkids'⟩, ?_, hcount'.trans hcount⟩
      rw [size_inner]
      omega
    · obtain rfl := Option.some.inj h
      refine ⟨shaped_inner.mpr ⟨hlength, hall⟩, ?_, hcount⟩
      rw [size_inner]
      omega

theorem btDeleteKid_eq_some {ops : KeyOps K} {r : Deletion K V}
    (h : btDeleteKid ops k heap kids i = some r) : ∃ kid ∈ kids, kids[i]? = some kid ∧ btDelete ops k heap kid = some r := by
  induction kids generalizing i with
  | nil => rw [btDeleteKid] at h; cases h
  | cons kid kids ih =>
    cases i with
    | zero => exact ⟨kid, List.mem_cons_self, rfl, h⟩
    | succ i =>
      obtain ⟨x, hx, hget, hrun⟩ := ih h
      exact ⟨x, List.mem_cons_of_mem _ hx, hget, hrun⟩

theorem btDelete_deletes {ops : KeyOps K} {k : K} {heap : Heap} (node : Node K V) {r : Deletion K V}
    (h : btDelete ops k heap node = some r) (hshaped : node.Shaped) (hfound : r.found = true) : Deletes heap node.size r := by
  match node with
  | .leaf id es =>
    rw [btDelete] at h
    obtain rfl := Option.some.inj h
    rw [size_leaf]
    exact deleteLeaf_deletes hfound
  | .inner ks kids =>
    rw [btDelete] at h
    cases hpart : btDeleteKid ops k heap kids (btUpper ops ks k) with
    | none =>
      rw [hpart] at h
      cases h
    | some part =>
      rw [hpart] at h
      obtain ⟨kid, hmem, hget, hrun⟩ := btDeleteKid_eq_some hpart
      obtain ⟨hlen, hkids⟩ := shaped_inner.mp hshaped
      rw [size_inner]
      exact deleteInner_deletes h hlen hkids hget (btDelete_deletes kid hrun (hkids kid hmem)) hfound
termination_by sizeOf node
decreasing_by
  have hlt := List.sizeOf_lt_of_mem hmem
  simp only [Node.inner.sizeOf_spec]
  omega

section

variable {ops : KeyOps K} {mem : Nat → Bool}

structure Counted (t : Tree K V) : Prop where
  shaped : ∀ root, t.root = some root → root.Shaped
  count : t.heap.count = t.entries.length

theorem growRoot_counted {size : Nat} (h : Inserts heap size r)
    (hcount : heap.count = size) (hgrow : growRoot r = (true, t')) : Counted t' := by
  unfold growRoot at hgrow
  cases hok : r.ok with
  | false =>
    rw [hok, if_pos (show (!false) = true from rfl)] at hgrow
    cases hgrow
  | true =>
    have hshaped := h.shaped hok
    have htotal := h.count hok
    rw [hok, if_neg (by decide)] at hgrow
    cases hright : r.right with
    | none =>
      rw [hright] at hgrow
      simp only [Insertion.parts, hright, Option.map_none, Option.toList_none, List.map_cons, List.map_nil, List.sum_cons,
        List.sum_nil, List.mem_singleton, forall_eq] at hshaped htotal
      obtain ⟨-, rfl⟩ := Prod.mk.inj hgrow
      refine ⟨fun root hroot => Option.some.inj hroot ▸ hshaped, ?_⟩
      show r.heap.count = r.node.size
      omega
    | some pair =>
      obtain ⟨sep, right⟩ := pair
      rw [hright] at hgrow
      simp only [Insertion.parts, hright, Option.map_some, Option.toList_some, List.map_cons, List.map_nil, List.sum_cons,
        List.sum_nil, List.mem_cons, List.not_mem_nil, or_false, forall_eq_or_imp, forall_eq] at hshaped htotal
      simp only at hgrow
      split at hgrow
      · obtain ⟨-, rfl⟩ := Prod.mk.inj hgrow
        refine ⟨fun root hroot => Option.some.inj hroot ▸ shaped_inner.mpr ⟨rfl, by simpa using hshaped⟩, ?_⟩
        have hsize : (Node.inner [sep] [r.node, right]).size = r.node.size + right.size := by
          rw [size_inner]
          simp
        show r.heap.count = (Node.inner [sep] [r.node, right]).size
        omega
      · cases hgrow

theorem growRoot_failed {size : Nat} (h : Inserts heap size r)
    (hgrow : growRoot r = (false, t')) : t'.heap.count = heap.count + 1 := by
  unfold growRoot at hgrow
  split at hgrow
  · rename_i hok
    obtain ⟨-, rfl⟩ := Prod.mk.inj hgrow
    exact h.grown (.inl (by simpa using hok))
  · split at hgrow
    · cases hgrow
    · rename_i hright
      split at hgrow
      · cases hgrow
      · obtain ⟨-, rfl⟩ := Prod.mk.inj hgrow
        exact h.grown (.inr (by rw [hright]; exact Option.some_ne_none _))

theorem btInsert_empty (k : K) (v : V) (heap : Heap) (id : Nat) :
    btInsert ops k v heap (.leaf id []) = some ⟨{ heap with count := heap.count + 1 }, .leaf id [(k, v)], none, true⟩ := rfl

theorem btPut_counted (ht : Counted t) (h : btPut ops t k v = some (true, t')) : Counted t' := by
  unfold btPut at h
  split at h
  · cases h
  cases hroot : t.root with
  | none =>
    rw [hroot] at h
    simp only at h
    split at h
    · rw [btInsert_empty] at h
      obtain ⟨r, hr, hgrow⟩ := Option.map_eq_some_iff.mp h
      have hinserts : Inserts t.heap 0 r := by
        rw [← Option.some.inj hr]
        exact inserts_one trivial rfl
      have hcount : t.heap.count = 0 := by
        rw [ht.count, Tree.entries, hroot]
        rfl
      exact growRoot_counted hinserts hcount hgrow
    · cases h
  | some root =>
    rw [hroot] at h
    obtain ⟨r, hr, hgrow⟩ := Option.map_eq_some_iff.mp h
    refine growRoot_counted (btInsert_inserts root hr (ht.shaped root hroot)) ?_ hgrow
    rw [ht.count, Tree.entries, hroot]
    rfl

theorem btDel_counted (ht : Counted t) {found : Bool} (h : btDel ops t k = some (found, t')) :
    Counted t' := by
  unfold btDel at h
  cases hroot : t.root with
  | none =>
    rw [hroot] at h
    cases h
    exact ht
  | some root =>
    rw [hroot] at h
    simp only at h
    split at h
    · cases h
      exact ht
    obtain ⟨r, hr, h⟩ := Option.bind_eq_some_iff.mp h
    split at h
    · cases h
      exact ht
    rename_i hfound
    cases h
    obtain ⟨hshaped, hsize, hcount⟩ := btDelete_deletes root hr (ht.shaped root hroot) (by simpa using hfound)
    have htotal : t.heap.count = root.size := by
      rw [ht.count, Tree.entries, hroot]
      rfl
    have hleft : r.heap.count = r.node.size := by omega
    cases hnode : r.node with
    | leaf id es =>
      rw [hnode] at hshaped hleft
      cases es with
      | nil => exact ⟨fun _ hnone => (by cases hnone), by rw [hleft]; rfl⟩
      | cons e es => exact ⟨fun _ hsome => Option.some.inj hsome ▸ hshaped, hleft⟩
    | inner ks kids =>
      rw [hnode] at hshaped hleft
      cases ks with
      | nil =>
        obtain ⟨hlen, hkids⟩ := shaped_inner.mp hshaped
        obtain ⟨kid, rfl⟩ := List.length_eq_one_iff.mp hlen
        refine ⟨fun _ hsome => Option.some.inj hsome ▸ hkids kid List.mem_cons_self, ?_⟩
        rw [hleft, size_inner]
        exact Nat.add_zero _
      | cons sep ks => exact ⟨fun _ hsome => Option.some.inj hsome ▸ hshaped, hleft⟩

inductive Reaches (ops : KeyOps K) (mem : Nat → Bool) : Tree K V → Prop
  | create : Reaches ops mem (create mem)
  | put {t t' : Tree K V} {k : K} {v : V} : Reaches ops mem t → btPut ops t k v = some (true, t') → Reaches ops mem t'
  | failed {t t' : Tree K V} {k : K} {v : V} : Reaches ops mem t → t.root = none → btPut ops t k v = some (false, t') →
    Reaches ops mem t'
  | delete {t t' : Tree K V} {k : K} {found : Bool} : Reaches ops mem t → btDel ops t k = some (found, t') → Reaches ops mem t'

theorem btPut_rootless (hroot : t.root = none) (h : btPut ops t k v = some (false, t')) :
    t'.root = none ∧ t'.heap.count = t.heap.count := by
  unfold btPut at h
  split at h
  · obtain ⟨-, rfl⟩ := Prod.mk.inj (Option.some.inj h)
    exact ⟨hroot, rfl⟩
  rw [hroot] at h
  simp only at h
  split at h
  · rw [btInsert_empty] at h
    cases h
  · obtain ⟨-, rfl⟩ := Prod.mk.inj (Option.some.inj h)
    exact ⟨rfl, rfl⟩

theorem Reaches.counted (h : Reaches ops mem t) : Counted t := by
  induction h with
  | create => exact ⟨fun _ hnone => (by cases hnone), rfl⟩
  | put _ hput ih => exact btPut_counted ih hput
  | failed _ hroot hput ih =>
    obtain ⟨hnone, hcount⟩ := btPut_rootless hroot hput
    refine ⟨fun root hsome => (by rw [hnone] at hsome; cases hsome), ?_⟩
    rw [hcount, ih.count, Tree.entries, Tree.entries, hroot, hnone]
  | delete _ hdel ih => exact btDel_counted ih hdel

structure Kept (t t' : Tree K V) : Prop where
  room : ∀ node ∈ t'.nodes, node.n ≤ btMax
  count : t'.heap.count = t'.storedKeys.length
  entries : t'.entries = t.entries

/-- A put for which there is no memory leaves the tree as it was exactly if there was no root. -/
theorem failed_put_kept_iff {t t' : Tree K V} {k : K} {v : V} (h : Reaches ops mem t) (hok : ops.ok k = true)
    (hput : btPut ops t k v = some (false, t')) : Kept t t' ↔ t.root = none := by
  have hcounted := h.counted
  constructor
  · intro hkept
    by_contra hsome
    obtain ⟨root, hroot⟩ := Option.ne_none_iff_exists'.mp hsome
    unfold btPut at hput
    rw [hok, if_neg (by decide), hroot] at hput
    obtain ⟨r, hr, hgrow⟩ := Option.map_eq_some_iff.mp hput
    have hmore := growRoot_failed (btInsert_inserts root hr (hcounted.shaped root hroot)) hgrow
    have hcount := hkept.count
    rw [Tree.storedKeys, List.length_map, hkept.entries] at hcount
    have hbefore := hcounted.count
    omega
  · intro hroot
    obtain ⟨hnone, hcount⟩ := btPut_rootless hroot hput
    have hentries : t'.entries = t.entries := by rw [Tree.entries, Tree.entries, hroot, hnone]
    refine ⟨fun node hnode => ?_, ?_, hentries⟩
    · rw [Tree.nodes, hnone] at hnode
      exact absurd hnode List.not_mem_nil
    · rw [hcount, hcounted.count, Tree.storedKeys, List.length_map, hentries]

theorem failed_put_kept_iff_first : ∃ t' : Tree Value Unit,
    btPut valueKeys (create fun _ => false) (.integer 1) () = some (false, t') ∧ Kept (create fun _ => false) t' :=
  ⟨_, rfl, (@failed_put_kept_iff _ _ valueKeys (fun _ => false) _ _ (.integer 1) () .create rfl rfl).mpr rfl⟩

def putAll (ops : KeyOps K) (t : Tree K V) (l : List (K × V)) : Option (Tree K V) :=
  l.foldlM (fun t e => (btPut ops t e.1 e.2).bind fun r => if r.1 then some r.2 else none) t

theorem Reaches.putAll {t t' : Tree K V} {l : List (K × V)} (h : Reaches ops mem t) (hrun : putAll ops t l = some t') :
    Reaches ops mem t' := by
  induction l generalizing t with
  | nil =>
    rw [← Option.some.inj hrun]
    exact h
  | cons e l ih =>
    obtain ⟨t₁, ht₁, hrest⟩ := Option.bind_eq_some_iff.mp hrun
    obtain ⟨⟨ok, t₂⟩, hput, hok⟩ := Option.bind_eq_some_iff.mp ht₁
    cases ok with
    | false => cases hok
    | true =>
      have heq : t₂ = t₁ := Option.some.inj hok
      exact ih (h.put (heq ▸ hput)) hrest

/-- The leaf is full, and there is no memory for a second one. -/
theorem failed_put_stored : ∃ t t' : Tree Value Unit, Reaches valueKeys (fun i => i == 0) t ∧
    btPut valueKeys t (.integer 32) () = some (false, t') ∧ ¬ Kept t t' := by
  let keys : List (Value × Unit) := (List.range 32).map fun i => (.integer (BitVec.ofNat 64 i), ())
  let run := putAll valueKeys (create fun i => i == 0) keys
  have hfull : run.map (fun t => t.entries.length) = some 32 := by decide +kernel
  have hfails : (run.bind fun t => btPut valueKeys t (.integer 32) ()).map (fun r => (r.1, r.2.entries.length)) =
      some (false, 33) := by
    decide +kernel
  obtain ⟨t, ht, hlength⟩ := Option.map_eq_some_iff.mp hfull
  rw [ht] at hfails
  obtain ⟨⟨ok, t'⟩, hput, hflag⟩ := Option.map_eq_some_iff.mp hfails
  obtain ⟨rfl, hlength'⟩ := Prod.mk.inj hflag
  refine ⟨t, t', Reaches.create.putAll ht, hput, fun hkept => ?_⟩
  rw [hkept.entries, hlength] at hlength'
  exact absurd hlength' (by decide)

end

end Ussr.BTree
