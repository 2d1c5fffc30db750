import Ussr.Belarus.Puts

/-! What a block map answers after any puts: lookups, the entries in order, and the
list of its nodes. -/

namespace Ussr.Belarus
open SortedEntries Rows

section

variable {fs : Fs} {ino d idx : Nat} {ps : List (Nat × Nat)} {blocks : List Nat} {content : List (Nat × Nat)}
variable {s turns : Nat}

theorem floor_eq_rank (m : OrdMap Nat Nat) (idx : Nat) : m.floor idx = (rank idx m.entries).map Prod.fst := rfl

theorem mapPathFrom_spec {b : Nat} (h : Stands fs ps d blocks content) (hrank : rank idx ps = some (s, b)) :
    ∃ path, (∀ turns isino, d < turns → mapPathFrom idx turns fs b isino = some (path, fs)) ∧ Route fs idx ps path ∧
      path.length = d + 1 := by
  induction h generalizing s b with
  | @leaves ps hL =>
    obtain ⟨as, bs, rfl, -, -⟩ := rank_split hrank
    obtain ⟨node, hnode, hkind, -⟩ := hL (s, b) (List.mem_append_right _ List.mem_cons_self)
    refine ⟨[b], fun turns isino hturns => ?_, .cons hrank (.nil _), rfl⟩
    obtain ⟨turns, rfl⟩ : ∃ more, turns = more + 1 := ⟨turns - 1, by omega⟩
    simp only [mapPathFrom, blNode_cached hnode, Option.bind_eq_bind, Option.bind_some, hkind]
    rfl
  | @inner ps d blocks content hI hranged hstands ih =>
    obtain ⟨as, bs, hps, hs, hbs⟩ := rank_split hrank
    obtain ⟨⟨node, hnode, hkind, -⟩, c, es, hfirst⟩ := hI (s, b) (hps ▸ List.mem_append_right _ List.mem_cons_self)
    rw [Fs.entries_of_node hnode] at hfirst
    have hown : ∃ e, rank idx node.map.entries = some e := by
      have hne : (node.map.entries.filter fun e => e.1 ≤ idx) ≠ [] := by
        rw [hfirst, List.filter_cons, if_pos (by simpa using hs)]
        exact List.cons_ne_nil _ _
      exact ⟨_, List.getLast?_eq_some_getLast hne⟩
    obtain ⟨⟨sep, child⟩, he⟩ := hown
    have hnext : rank idx (line fs.entries ps) = some (sep, child) := by
      rw [hps]
      exact (hps ▸ hranged).rank_line hbs ((Fs.entries_of_node hnode).symm ▸ he)
    have hfloor : node.map.floor idx = some sep := by rw [floor_eq_rank, he, Option.map_some]
    have hget : node.map.get sep = some child := by
      obtain ⟨as', bs', hentries, -, -⟩ := rank_split he
      exact OrdMap.get_eq_some_iff.mpr (hentries ▸ List.mem_append_right _ List.mem_cons_self)
    obtain ⟨path, hpath, hroute, hlength⟩ := ih hnext
    refine ⟨b :: path, fun turns isino hturns => ?_, .cons hrank hroute, by rw [List.length_cons, hlength]⟩
    obtain ⟨turns, rfl⟩ : ∃ more, turns = more + 1 := ⟨turns - 1, by omega⟩
    simp only [mapPathFrom, blNode_cached hnode, Option.bind_eq_bind, Option.bind_some, hkind, hfloor, hget,
      hpath turns false (Nat.lt_of_succ_lt_succ hturns)]
    rfl

theorem blMapPath_spec (h : Standing fs ino d blocks content) (idx : Nat) :
    ∃ pre b, (∀ turns, d < turns → blMapPath turns fs ino idx = some (pre ++ [b], fs)) ∧
      Route fs idx [(0, ino)] (pre ++ [b]) ∧ pre.length = d := by
  obtain ⟨path, hpath, hroute, hlength⟩ := mapPathFrom_spec h.stands (rank_only idx ino)
  have hne : path ≠ [] := List.ne_nil_of_length_pos (by omega)
  refine ⟨path.dropLast, path.getLast hne, ?_, ?_, ?_⟩
  · rw [List.dropLast_append_getLast]
    exact fun turns hturns => hpath turns true hturns
  · rw [List.dropLast_append_getLast]
    exact hroute
  · rw [List.length_dropLast, hlength]
    exact Nat.add_sub_cancel d 1

theorem Standing.leaf (h : Standing fs ino d blocks content) {pre : List Nat} {b : Nat}
    (hroute : Route fs idx [(0, ino)] (pre ++ [b])) (hlength : pre.length = d) :
    ∃ leaf, fs.nodes b = some leaf ∧ leaf.block = b ∧ b ∈ blocks ∧ ∀ lba, (idx, lba) ∈ content ↔ leaf.map.get idx = some lba := by
  obtain ⟨upper, qs, lower, d', rfl, hd, -, hstands, hrest, -⟩ := h.stands.descend hroute hlength.le
  obtain rfl : d' = 0 := by omega
  cases hrest with
  | cons hrank =>
    cases hstands with
    | leaves hL hranged =>
      obtain ⟨as, bs, rfl, hs, hbs⟩ := rank_split hrank
      obtain ⟨leaf, hleaf, -, hblock⟩ := hL _ (List.mem_append_right _ List.mem_cons_self)
      refine ⟨leaf, hleaf, hblock, List.mem_append_right _ (List.mem_map_of_mem (List.mem_append_right _ List.mem_cons_self)),
        fun lba => ?_⟩
      rw [mem_line_iff hranged hs hbs, Fs.entries_of_node hleaf, OrdMap.get_eq_some_iff]

theorem getElem?_last (pre : List Nat) (b : Nat) : (pre ++ [b])[(pre ++ [b]).length - 1]? = some b := by
  rw [List.length_append, List.length_singleton, Nat.add_sub_cancel]
  simp

theorem blBmap_spec (h : Standing fs ino d blocks content) (idx : Nat) :
    ∃ found, (∀ turns, d < turns → blBmap turns fs ino idx = some (found, fs)) ∧ ∀ lba, found = some lba ↔ (idx, lba) ∈ content := by
  obtain ⟨pre, b, hpath, hroute, hlength⟩ := blMapPath_spec h idx
  obtain ⟨leaf, hleaf, -, -, hcontent⟩ := h.leaf hroute hlength
  refine ⟨leaf.map.get idx, fun turns hturns => ?_, fun lba => (hcontent lba).symm⟩
  simp only [blBmap, hpath turns hturns, Option.bind_eq_bind, Option.bind_some, getElem?_last, blNode_cached hleaf]
  rfl

theorem blBmapPut_spec (h : Standing fs ino d blocks content) (hroom : Roomy fs blocks) (idx lba : Nat) :
    ∃ r fs', (∀ turns, d + 2 ≤ turns → blBmapPut turns fs ino idx lba = some (r, fs')) ∧
      (r = -1 ∧ fs'.Full ∨ r = 0 ∧ ∃ d' blocks', Standing fs' ino d' blocks' (put idx lba content) ∧ Roomy fs' blocks') := by
  obtain ⟨pre, b, hpath, hroute, hlength⟩ := blMapPath_spec h idx
  obtain ⟨leaf, hleaf, hself, hbmem, -⟩ := h.leaf hroute hlength
  let leaf' : Node := blTouch { leaf with map := leaf.map.put idx lba }
  let fs₁ := fs.setNode b leaf'
  have hatLeaf : fs₁.nodes b = some leaf' := Function.update_self _ _ _
  have hother : ∀ x, x ≠ b → fs₁.nodes x = fs.nodes x := fun x hx => Function.update_of_ne hx _ _
  obtain ⟨upper, qs, lower, d', rfl, hd, -, hstands, hrest, hback⟩ := h.stands.descend hroute hlength.le
  obtain rfl : d' = 0 := by omega
  obtain ⟨-, hnodup, hcross⟩ := List.nodup_append.mp h.nodup
  have hstanding : Standing fs₁ ino d (upper ++ lower) (put idx lba content) ∧ Route fs₁ idx [(0, ino)] (pre ++ [b]) := by
    cases hrest with
    | @cons _ s _ _ hrank _ =>
      have hblow : b ∈ lower := by
        obtain ⟨as, bs, rfl, -, -⟩ := rank_split hrank
        exact hstands.tops (s, b) (List.mem_append_right _ List.mem_cons_self)
      have hput := hstands.putLeaf hnodup hrank lba hleaf hatLeaf rfl rfl rfl rfl fun x _ hx => hother x hx
      obtain ⟨hwhole, hroutes⟩ := hback fs₁ lower _ (fun x hx => hother x (hcross x hx b hblow)) hput
      refine ⟨⟨hwhole, h.nodup, h.nonzero, h.sound.setNode fun hspare => h.notMem_of_spare hspare hbmem⟩, hroutes _ (.cons hrank (.nil _))⟩
  have hkept : ∀ x ∈ upper ++ lower, x ≠ b → (fs₁.entries x).length ≤ blFanout := fun x hx hxb => by
    rw [entries_congr (hother x hxb)]
    exact hroom x hx
  have hover : (fs₁.entries b).length ≤ blFanout + 1 := by
    have hold := hroom b hbmem
    rw [Fs.entries_of_node hleaf] at hold
    rw [Fs.entries_of_node hatLeaf]
    have hle : (leaf.map.put idx lba).len ≤ leaf.map.len + 1 := by
      rw [OrdMap.len_eq_sum, OrdMap.len_eq_sum]
      exact OrdMap.sum_put_le _ _ _ _
    exact hle.trans (Nat.succ_le_succ hold)
  have hset : fs.setNode leaf.block leaf' = fs₁ := by
    show fs.setNode leaf.block leaf' = fs.setNode b leaf'
    rw [hself]
  have hloop : ∀ turns, d + 2 ≤ turns → blBmapPut turns fs ino idx lba = splitFull turns fs₁ (pre ++ b :: []) pre.length := by
    intro turns hturns
    simp only [blBmapPut, hpath turns (Nat.lt_of_succ_lt hturns), Option.bind_eq_bind, Option.bind_some, getElem?_last,
      blNode_cached hleaf]
    rw [List.length_append, List.length_singleton, Nat.add_sub_cancel]
    exact congrArg (fun fs => splitFull turns fs (pre ++ [b]) pre.length) hset
  obtain ⟨r, fs', hsplit, hcases⟩ := splitFull_spec hstanding.1 hstanding.2 hlength.le hkept hover
  exact ⟨r, fs', fun turns hturns => (hloop turns hturns).trans (hsplit turns (by omega)), hcases⟩

end

section

variable {fs : Fs} {ino d : Nat} {ps : List (Nat × Nat)} {blocks : List Nat} {content : List (Nat × Nat)}

theorem firstLeaf_spec {b : Nat} (h : Stands fs ((s, b) :: ps) d blocks content) {node : Node} (hnode : fs.nodes b = some node) (hturns : d < turns) : ∃ t c qs upper lower leaf, Stands fs ((t, c) :: qs) 0 lower content ∧
      blocks = upper ++ lower ∧ fs.nodes c = some leaf ∧ firstLeaf turns fs node = some (leaf, fs) := by
  induction d generalizing s b ps blocks node turns with
  | zero =>
    obtain ⟨turns, rfl⟩ : ∃ more, turns = more + 1 := ⟨turns - 1, by omega⟩
    refine ⟨s, b, ps, [], blocks, node, h, rfl, hnode, ?_⟩
    cases h with
    | leaves hL =>
      obtain ⟨node', hnode', hkind, -⟩ := hL (s, b) List.mem_cons_self
      cases hnode'.symm.trans hnode
      rw [firstLeaf, hkind]
  | succ d ih =>
    obtain ⟨turns, rfl⟩ : ∃ more, turns = more + 1 := ⟨turns - 1, by omega⟩
    cases h with
    | @inner _ _ low _ hI _ hstands =>
      obtain ⟨⟨node', hnode', hkind, -⟩, c, es, hfirst⟩ := hI (s, b) List.mem_cons_self
      cases hnode'.symm.trans hnode
      rw [line_cons, hfirst, List.cons_append] at hstands
      obtain ⟨child, hchild, -⟩ := hstands.has c (hstands.tops (s, c) List.mem_cons_self)
      obtain ⟨t, c', qs, upper, lower, leaf, hleaves, rfl, hleaf, hloop⟩ := ih hstands hchild (Nat.lt_of_succ_lt_succ hturns)
      refine ⟨t, c', qs, _ ++ upper, lower, leaf, hleaves, (List.append_assoc _ _ _).symm, hleaf, ?_⟩
      rw [Fs.entries_of_node hnode] at hfirst
      have hget : node.map.get s = some c := OrdMap.get_eq_some_iff.mpr (hfirst ▸ List.mem_cons_self)
      rw [firstLeaf, hkind]
      simp only [OrdMap.first_of_cons hfirst, Option.bind_eq_bind, Option.bind_some, hget, blNode_cached hchild]
      exact hloop

theorem leafChain_spec {t c : Nat} {qs : List (Nat × Nat)} (hL : ∀ p ∈ (t, c) :: qs, fs.Has .L p.2)
    (hlinked : Linked fs ((t, c) :: qs)) (hnonzero : ∀ p ∈ (t, c) :: qs, p.2 ≠ 0) {leaf : Node} (hleaf : fs.nodes c = some leaf) (hturns : qs.length < turns) : leafChain turns fs leaf = some (line fs.entries ((t, c) :: qs), fs) := by
  induction qs generalizing t c leaf turns with
  | nil =>
    obtain ⟨turns, rfl⟩ : ∃ more, turns = more + 1 := ⟨turns - 1, by omega⟩
    have hnext : leaf.next = 0 := (Fs.next_of_node hleaf).symm.trans hlinked.1
    rw [leafChain, hnext, if_neg (not_not.mpr rfl), line_cons, Fs.entries_of_node hleaf]
    exact congrArg (fun es => some (es, fs)) (List.append_nil _).symm
  | cons q qs ih =>
    obtain ⟨turns, rfl⟩ : ∃ more, turns = more + 1 := ⟨turns - 1, by omega⟩
    have hnext : leaf.next = q.2 := (Fs.next_of_node hleaf).symm.trans hlinked.1
    have hq : q ∈ (t, c) :: q :: qs := List.mem_cons_of_mem _ List.mem_cons_self
    obtain ⟨right, hright, -⟩ := hL q hq
    have hrest : leafChain turns fs right = some (line fs.entries (q :: qs), fs) :=
      ih (fun p hp => hL p (List.mem_cons_of_mem _ hp)) hlinked.2 (fun p hp => hnonzero p (List.mem_cons_of_mem _ hp)) hright
        (Nat.lt_of_succ_lt_succ hturns)
    rw [leafChain, hnext, if_pos (hnonzero q hq), line_cons, Fs.entries_of_node hleaf]
    simp only [blNode_cached hright, Option.bind_eq_bind, Option.bind_some, hrest]
    rfl

theorem blBmapAll_spec (h : Standing fs ino d blocks content) (hturns : d + blocks.length < turns) :
    blBmapAll turns fs ino = some (content, fs) := by
  obtain ⟨node, hnode, -⟩ := h.stands.has ino (h.stands.tops (0, ino) (List.mem_singleton.mpr rfl))
  have hdown : d < turns := by omega
  obtain ⟨t, c, qs, upper, lower, leaf, hleaves, rfl, hleaf, hloop⟩ := firstLeaf_spec h.stands hnode hdown
  cases hleaves with
  | leaves hL _ hlinked =>
    have hnonzero : ∀ p ∈ (t, c) :: qs, p.2 ≠ 0 := fun p hp heq =>
      h.nonzero (List.mem_append_right _ (heq ▸ List.mem_map_of_mem hp))
    have hlength : qs.length < turns := by
      rw [List.length_append, List.length_map, List.length_cons] at hturns
      omega
    have hchain := leafChain_spec hL hlinked hnonzero hleaf hlength
    simp only [blBmapAll, blNode_cached hnode, Option.bind_eq_bind, Option.bind_some, hloop, hchain]

end

/-! The nodes below an inode: how far down they lie, and the list that `bl_map_nodes`
makes of them. -/

open scoped List

/-- Node `b` lies `k` levels below node `a`. -/
inductive Below (fs : Fs) : (a k b : Nat) → Prop where
  | here (a : Nat) : Below fs a 0 a
  | child {a s c k b : Nat} : fs.Has .I a → (s, c) ∈ fs.entries a → Below fs c k b → Below fs a (k + 1) b

variable {fs : Fs} {ps : List (Nat × Nat)} {ino d idx k a b : Nat} {blocks : List Nat} {content : List (Nat × Nat)}

theorem Fs.Has.kind_eq {kind kind' : NodeKind} (h : fs.Has kind b) (h' : fs.Has kind' b) : kind = kind' := by
  obtain ⟨node, hnode, hkind, -⟩ := h
  obtain ⟨node', hnode', hkind', -⟩ := h'
  cases hnode.symm.trans hnode'
  exact hkind.symm.trans hkind'

theorem Stands.row_below (h : Stands fs ps d blocks content) (ha : (s, a) ∈ ps) (hbelow : Below fs a k b) :
    ∃ t qs d' lower, Stands fs qs d' lower content ∧ lower ⊆ blocks ∧ (t, b) ∈ qs ∧ d = k + d' := by
  induction hbelow generalizing s ps d blocks with
  | here a => exact ⟨s, ps, d, blocks, h, List.Subset.refl _, ha, (Nat.zero_add d).symm⟩
  | @child a s' c k b hI hc _ ih =>
    cases h with
    | leaves hL => cases hI.kind_eq (hL (s, a) ha)
    | @inner _ d blocks _ _ _ hstands =>
      have hmem : (s', c) ∈ line fs.entries ps := List.mem_flatMap.mpr ⟨(s, a), ha, hc⟩
      obtain ⟨t, qs, d', lower, hlow, hsub, hb, rfl⟩ := ih hstands hmem
      exact ⟨t, qs, d', lower, hlow, List.subset_append_of_subset_right _ hsub, hb, Nat.add_right_comm k d' 1⟩

theorem Stands.low {leaf : Nat} (h : Stands fs ps d blocks content) (ha : (s, a) ∈ ps) (hbelow : Below fs a k leaf)
    (hL : fs.Has .L leaf) {lba : Nat} (hidx : (idx, lba) ∈ fs.entries leaf) : s ≤ idx := by
  induction hbelow generalizing s ps d blocks with
  | here a => exact h.ranged.low (s, a) ha _ hidx
  | @child a s' c k b hI hc _ ih =>
    cases h with
    | leaves hleaf => cases hI.kind_eq (hleaf (s, a) ha)
    | inner _ hranged hstands =>
      have hmem : (s', c) ∈ line fs.entries ps := List.mem_flatMap.mpr ⟨(s, a), ha, hc⟩
      exact (hranged.low (s, a) ha _ hc).trans (ih hstands hmem hL hidx)

/-- The nodes from `b` down, the way the stack of `bl_map_nodes` gives them. -/
def under (fs : Fs) : (d b : Nat) → List Nat
  | 0, b => [b]
  | d + 1, b => b :: ((fs.entries b).map Prod.snd).reverse.flatMap (under fs d)

theorem Stands.under_perm (h : Stands fs ps d blocks content) : (ps.map Prod.snd).flatMap (under fs d) ~ blocks := by
  induction h with
  | @leaves ps =>
    have hsame : (ps.map Prod.snd).flatMap (under fs 0) = ps.map Prod.snd := List.flatMap_singleton' _
    rw [hsame]
  | @inner ps d blocks content _ _ _ ih =>
    let rows := ps.map Prod.snd
    let row (b : Nat) := (fs.entries b).map Prod.snd
    calc rows.flatMap (under fs (d + 1))
      _ = rows.flatMap fun b => b :: (row b).reverse.flatMap (under fs d) := rfl
      _ ~ (rows.map id ++ rows.flatMap fun b => (row b).reverse.flatMap (under fs d)) :=
          (List.map_append_flatMap_perm rows id _).symm
      _ ~ (rows ++ rows.flatMap fun b => (row b).flatMap (under fs d)) := by
          rw [List.map_id]
          exact (List.Perm.flatMap_left _ fun b _ => (List.reverse_perm _).flatMap_right _).append_left _
      _ = rows ++ ((line fs.entries ps).map Prod.snd).flatMap (under fs d) := by
          rw [← List.flatMap_assoc, line, List.map_flatMap, List.flatMap_map]
      _ ~ (rows ++ blocks) := ih.append_left _

def Tall (fs : Fs) : (d b : Nat) → Prop
  | 0, b => fs.Has .L b
  | d + 1, b => fs.Has .I b ∧ ∀ p ∈ fs.entries b, Tall fs d p.2

theorem Stands.tall (h : Stands fs ps d blocks content) : ∀ p ∈ ps, Tall fs d p.2 := by
  induction h with
  | leaves hL => exact hL
  | inner hI _ _ ih => exact fun p hp => ⟨(hI p hp).1, fun q hq => ih q (List.mem_flatMap.mpr ⟨p, hp, hq⟩)⟩

theorem Tall.under_eq (h : Tall fs d a) : ∃ rest, under fs d a = a :: rest ∧ ∀ b, b ∈ rest ↔ ∃ k, Below fs a (k + 1) b := by
  induction d generalizing a with
  | zero =>
    refine ⟨[], rfl, fun b => ⟨fun hb => absurd hb List.not_mem_nil, fun ⟨k, hbelow⟩ => ?_⟩⟩
    cases hbelow with
    | child hI => cases hI.kind_eq h
  | succ d ih =>
    refine ⟨_, rfl, fun b => List.mem_flatMap.trans ⟨?_, ?_⟩⟩
    · rintro ⟨c, hc, hb⟩
      obtain ⟨p, hp, rfl⟩ := List.mem_map.mp (List.mem_reverse.mp hc)
      obtain ⟨rest, hrest, hiff⟩ := ih (h.2 p hp)
      rcases List.mem_cons.mp (hrest ▸ hb) with rfl | hb
      · exact ⟨0, .child h.1 hp (.here p.2)⟩
      · obtain ⟨k, hbelow⟩ := (hiff b).mp hb
        exact ⟨k + 1, .child h.1 hp hbelow⟩
    · rintro ⟨k, hbelow⟩
      cases hbelow with
      | @child _ s c _ _ _ hc hbelow =>
        obtain ⟨rest, hrest, hiff⟩ := ih (h.2 (s, c) hc)
        refine ⟨c, List.mem_reverse.mpr (List.mem_map_of_mem hc), hrest ▸ ?_⟩
        cases hbelow with
        | here => exact List.mem_cons_self
        | child hI' hc' hbelow' => exact List.mem_cons_of_mem _ ((hiff b).mpr ⟨_, .child hI' hc' hbelow'⟩)

theorem Tall.children (h : Tall fs d b) : ∃ (node : Node) (pushed : List (Nat × Nat)), fs.nodes b = some node ∧
    pushed.map Prod.snd = (if node.kind = .I then node.map.entries.map Prod.snd else []).reverse ∧
    (∀ q ∈ pushed, Tall fs q.1 q.2) ∧ under fs d b = b :: pushed.flatMap fun q => under fs q.1 q.2 := by
  cases d with
  | zero =>
    obtain ⟨node, hnode, hkind, -⟩ := h
    exact ⟨node, [], hnode, by rw [hkind]; rfl, fun q hq => absurd hq List.not_mem_nil, rfl⟩
  | succ d =>
    obtain ⟨⟨node, hnode, hkind, -⟩, hbelow⟩ := h
    refine ⟨node, ((fs.entries b).map fun p => (d, p.2)).reverse, hnode, ?_, fun q hq => ?_, ?_⟩
    · rw [hkind, if_pos rfl, List.map_reverse, List.map_map, Fs.entries_of_node hnode]
      rfl
    · obtain ⟨p, hp, rfl⟩ := List.mem_map.mp (List.mem_reverse.mp hq)
      exact hbelow p hp
    · rw [under, ← List.map_reverse, ← List.map_reverse, List.flatMap_map, List.flatMap_map]

theorem mapNodesFrom_spec (ino : Nat) {stack : List (Nat × Nat)} (h : ∀ q ∈ stack, Tall fs q.1 q.2)
    (hturns : (stack.flatMap fun q => under fs q.1 q.2).length ≤ turns) :
    mapNodesFrom ino turns fs (stack.map Prod.snd) = some ((stack.flatMap fun q => under fs q.1 q.2).filter (· ≠ ino), fs) := by
  induction turns generalizing stack with
  | zero =>
    cases stack with
    | nil => rfl
    | cons q stack =>
      obtain ⟨node, pushed, -, -, -, hunder⟩ := (h q List.mem_cons_self).children
      rw [List.flatMap_cons, hunder] at hturns
      cases hturns
  | succ turns ih =>
    cases stack with
    | nil => rfl
    | cons q stack =>
      obtain ⟨d, b⟩ := q
      obtain ⟨node, pushed, hnode, hpushed, htall, hunder⟩ := (h (d, b) List.mem_cons_self).children
      have hlist : ((d, b) :: stack).flatMap (fun q => under fs q.1 q.2) = b :: (pushed ++ stack).flatMap fun q => under fs q.1 q.2 := by
        rw [List.flatMap_cons, hunder, List.flatMap_append, List.cons_append]
      have hall : ∀ q ∈ pushed ++ stack, Tall fs q.1 q.2 := fun q hq =>
        (List.mem_append.mp hq).elim (htall q) fun hq => h q (List.mem_cons_of_mem _ hq)
      rw [hlist] at hturns ⊢
      have hrest := ih hall (Nat.le_of_succ_le_succ hturns)
      rw [List.map_append, hpushed] at hrest
      rw [List.map_cons, mapNodesFrom]
      simp only [blNode_cached hnode, Option.bind_eq_bind, Option.bind_some, hrest, List.filter_cons, decide_eq_true_eq]
      rfl

theorem blMapNodes_spec (h : Standing fs ino d blocks content) :
    ∃ nodes, (∀ turns, blocks.length ≤ turns → blMapNodes turns fs ino = some (nodes, fs)) ∧ nodes.Nodup ∧
      ∀ b, b ∈ nodes ↔ ∃ k, Below fs ino (k + 1) b := by
  have hperm : under fs d ino ~ blocks := by simpa using h.stands.under_perm
  have htall : Tall fs d ino := h.stands.tall (0, ino) (List.mem_singleton.mpr rfl)
  have hloop : ∀ turns, blocks.length ≤ turns →
      mapNodesFrom ino turns fs [ino] = some ((under fs d ino).filter (· ≠ ino), fs) := by
    intro turns hturns
    have hone : ∀ q ∈ [(d, ino)], Tall fs q.1 q.2 := fun q hq => List.mem_singleton.mp hq ▸ htall
    have hlist : ([(d, ino)].flatMap fun q => under fs q.1 q.2).length ≤ turns := by
      rw [List.flatMap_singleton, hperm.length_eq]
      exact hturns
    have hspec := mapNodesFrom_spec ino hone hlist
    rw [List.flatMap_singleton] at hspec
    exact hspec
  obtain ⟨rest, hunder, hiff⟩ := htall.under_eq
  have hnodup : (ino :: rest).Nodup := hunder ▸ hperm.nodup_iff.mpr h.nodup
  obtain ⟨hout, hnodup⟩ := List.nodup_cons.mp hnodup
  refine ⟨rest, ?_, hnodup, hiff⟩
  have hfilter : (under fs d ino).filter (· ≠ ino) = rest := by
    rw [hunder, List.filter_cons, if_neg (by simp), List.filter_eq_self]
    exact fun b hb => decide_eq_true fun heq => hout (heq ▸ hb)
  rw [← hfilter]
  exact hloop

end Ussr.Belarus
