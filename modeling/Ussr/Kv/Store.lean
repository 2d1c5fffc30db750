import Ussr.Kv.Contents
import Ussr.Kv.Simulation

/-! The store as a whole has a tree: its root page is that of the tree, and no page
has two holders. Each call of the store is the operation of the tree. -/

namespace Ussr.Kv
open Uno

variable {K : Type} [LinearOrder K] {V : Type} {d : Nat}
variable {key : K} {t : Tree K d} {node : Node K} {fuel : Nat}

theorem Tree.spine {P : K → Prop} {E : Entry → Prop} (hsound : t.Sound P E)
    (hroom : ∀ a, t.owns a ≤ 1) :
    ∃ l : List Nat, l.Nodup ∧ l.length = d + 1 ∧ ∀ a ∈ l, t.owns a ≠ 0 := by
  induction d with
  | zero =>
    refine ⟨[t.page], List.nodup_singleton _, rfl, fun a ha => ?_⟩
    obtain rfl := List.mem_singleton.mp ha
    rw [t.owns_eq, isAt, if_pos rfl]
    omega
  | succ d ih =>
    obtain ⟨e, es, hentries⟩ := List.exists_cons_of_ne_nil hsound.1
    have hget : t.map.get e.1 = some e.2 := OrdMap.get_eq_some_iff.mpr (by simp [hentries])
    have hshare : ∀ a, Tree.owns a (d := d) e.2 + isAt a t.page ≤ t.owns a := by
      intro a
      have := OrdMap.le_sum (Kv.owns a) hget
      have : Kv.owns a e.2 = Tree.owns a (d := d) e.2 := rfl
      rw [t.owns_eq a]
      omega
    obtain ⟨l, hnodup, hlen, hown⟩ := ih (t := e.2) (hsound.2 e.1 e.2 hget).2 fun a => by
      have := hshare a
      have := hroom a
      omega
    refine ⟨t.page :: l, List.nodup_cons.mpr ⟨fun hin => ?_, hnodup⟩, by rw [List.length_cons, hlen],
      fun a ha => ?_⟩
    · have := hown t.page hin
      have := hshare t.page
      have := hroom t.page
      rw [isAt, if_pos rfl] at *
      omega
    · rcases List.mem_cons.mp ha with rfl | ha
      · have := hshare t.page
        rw [isAt, if_pos rfl] at this
        omega
      · have := hown a ha
        have := hshare a
        omega

theorem nodup_length_le {l : List Nat} {n : Nat} (hnodup : l.Nodup) (h : ∀ a ∈ l, a < n) :
    l.length ≤ n := by
  have hsub : l ⊆ List.range n := fun a ha => List.mem_range.mpr (h a ha)
  exact (hnodup.subperm hsub).length_le.trans_eq List.length_range

section

def Root.page : Root K → Nat
  | none => 0
  | some t => t.2.page

structure Stands [KvKey K] (registry : Registry) (db : Db K) (root : Root K) : Prop where
  page : root.page = db.root
  holds : ∀ t, root = some t → Tree.Holds registry db.file db.cache t.2
  room : ∀ a, root.owns a + db.space.holds a ≤ 1
  /-- The meta pages belong to nobody. -/
  metas : ∀ a, a < 2 → root.owns a + db.space.holds a = 0

variable [KvKey K] {registry : Registry} {db : Db K} {root : Root K}

theorem Stands.page_ne {t : Σ d, Tree K d} (h : Stands registry db (some t)) : db.root ≠ 0 := by
  have hpage : t.2.page = db.root := h.page
  have hmeta := h.metas t.2.page
  simp only [Root.owns, t.2.owns_eq, isAt, if_true] at hmeta
  omega

theorem Stands.root_eq_zero (h : Stands registry db none) : db.root = 0 :=
  h.page.symm

omit [KvKey K] in
theorem Tree.depth_lt {P : K → Prop} {E : Entry → Prop} (hsound : t.Sound P E)
    {s : Space} (hroom : ∀ a, t.owns a + s.holds a ≤ 1) : d < s.pages := by
  obtain ⟨l, hnodup, hlen, hown⟩ := t.spine hsound fun a => by
    have := hroom a
    omega
  have hle := nodup_length_le (n := s.pages) hnodup fun a ha => by
    have := hown a ha
    have := hroom a
    by_contra hge
    simp only [Space.holds, past, if_pos (not_lt.mp hge)] at this
    omega
  omega

theorem Stands.depth {P : K → Prop} {E : Entry → Prop} {t : Σ d, Tree K d}
    (h : Stands registry db (some t)) (hsound : t.2.Sound P E) : t.1 < db.fuel :=
  Nat.lt_succ_of_lt (Tree.depth_lt hsound h.room)

end

section

variable [KvKey K] {registry : Registry}

theorem dkvNode_of_pageNode {db : Db K} {p : Nat}
    (h : pageNode registry db.file db.cache p = some node) :
    ∃ cache, dkvNode registry db p = some (some node, { db with cache }) ∧
      pageNode registry db.file cache = pageNode registry db.file db.cache := by
  obtain ⟨cache, hok, hsame⟩ := dkvNodeOk_of_pageNode h
  obtain ⟨⟨found, db'⟩, hnode, hok⟩ := Option.bind_eq_some_iff.mp hok
  obtain ⟨node', rfl, hok⟩ := Option.bind_eq_some_iff.mp hok
  cases hok
  exact ⟨cache, hnode, hsame⟩

theorem dkvFind_sim {d fuel : Nat} (hfuel : d < fuel) (db : Db K) {t : Tree K d}
    {P : K → Prop} {E : Entry → Prop} (hsound : t.Sound P E)
    (hholds : Tree.Holds registry db.file db.cache t) (hmeta : t.owns 0 = 0) (key : K) :
    ∃ cache, dkvFind registry fuel db t.page key = some (t.find key, { db with cache }) ∧
      pageNode registry db.file cache = pageNode registry db.file db.cache := by
  obtain ⟨fuel, rfl⟩ := Nat.exists_eq_add_one_of_ne_zero (by omega : fuel ≠ 0)
  have hne : t.page ≠ 0 := by
    intro hzero
    simp only [t.owns_eq, isAt, hzero, if_true] at hmeta
    omega
  obtain ⟨hnode, hkids⟩ := hholds
  obtain ⟨cr, hread, hsame⟩ := dkvNode_of_pageNode hnode
  cases d with
  | zero =>
    refine ⟨cr, ?_, hsame⟩
    rw [dkvFind, if_neg hne, hread]
    rfl
  | succ d =>
    obtain ⟨ck, child, hroute⟩ := dkvRoute_some hsound.1 key
    have hget := dkvRoute_get hroute
    have hroutePage : dkvRoute (t.map.map TreeNode.page) key = some (ck, child.page) :=
      (dkvRoute_map TreeNode.page t.map key).trans (congrArg _ hroute)
    have hshare := OrdMap.le_sum (Kv.owns 0) hget
    obtain ⟨cache, hfind, hrest⟩ := dkvFind_sim (Nat.lt_of_succ_lt_succ hfuel)
      { db with cache := cr } (t := child) (hsound.2 ck child hget).2
      (item_frame (hkids ck child hget) fun q _ => by rw [hsame])
      (by
        have hown : Kv.owns 0 (d := d + 1) child = Tree.owns 0 child := rfl
        rw [t.owns_eq] at hmeta
        omega) key
    refine ⟨cache, ?_, hrest.trans hsame⟩
    rw [dkvFind, if_neg hne, hread, Tree.find, hroute]
    simp only [Option.bind_eq_bind, Option.bind_some]
    show (dkvRoute (t.map.map TreeNode.page) key).bind _ = _
    rw [hroutePage, Option.bind_some]
    exact hfind
  termination_by d

end

section

variable {registry : Registry}

theorem dkvValueOut_cache (db : Db K) (cache : Cache K) (x : Entry) :
    dkvValueOut registry { db with cache } x = dkvValueOut registry db x := rfl

theorem dkvCollectPairs_cache (db : Db K) (cache : Cache K) (max : Int) (xs : List (K × Entry))
    (out : List (K × UnoValue)) : dkvCollectPairs registry { db with cache } max xs out =
      dkvCollectPairs registry db max xs out := by
  induction xs generalizing out with
  | nil => rfl
  | cons x xs ih => simp only [dkvCollectPairs, dkvValueOut_cache, ih]

theorem dkvCollectPairs_full (db : Db K) {max : Int} {out : List (K × UnoValue)}
    (h : 0 ≤ max ∧ max ≤ out.length) (xs : List (K × Entry)) :
    dkvCollectPairs registry db max xs out = some out := by
  cases xs with
  | nil => rfl
  | cons x xs => rw [dkvCollectPairs, if_pos h]

theorem dkvCollectPairs_append (db : Db K) (max : Int) (xs ys : List (K × Entry))
    (out : List (K × UnoValue)) : dkvCollectPairs registry db max (xs ++ ys) out =
      (dkvCollectPairs registry db max xs out).bind (dkvCollectPairs registry db max ys) := by
  induction xs generalizing out with
  | nil => rfl
  | cons x xs ih =>
    by_cases hmax : 0 ≤ max ∧ max ≤ out.length
    · simp only [dkvCollectPairs_full db hmax, Option.bind_some]
    · rw [List.cons_append, dkvCollectPairs, dkvCollectPairs, if_neg hmax, if_neg hmax]
      cases dkvValueOut registry db x.2 with
      | none => rfl
      | some v => exact ih _

variable [KvKey K]

theorem dkvCollectKids_sim {lo hi : Option K} {max : Int} {file : KvFile}
    {nodes : Nat → Option (Node K)} (es : List (K × Item K (d + 1)))
    (hkid : ∀ e ∈ es, ∀ db : Db K, db.file = file → pageNode registry file db.cache = nodes →
      ∀ out, ∃ cache, dkvCollect registry lo hi max fuel db (TreeNode.page (V := Item K d) e.2) out =
          (dkvCollectPairs registry db max (Tree.range lo hi (d := d) e.2) out).map
            (fun out => (out, { db with cache })) ∧
        pageNode registry file cache = nodes)
    (db : Db K) (hfile : db.file = file) (hnodes : pageNode registry file db.cache = nodes)
    (out : List (K × UnoValue)) :
    ∃ cache, dkvCollectKids (dkvCollect registry lo hi max fuel) db
          (es.map fun e => (e.1, TreeNode.page (V := Item K d) e.2)) out =
        (dkvCollectPairs registry db max (es.flatMap fun e => Tree.range lo hi (d := d) e.2) out).map
          (fun out => (out, { db with cache })) ∧
      pageNode registry file cache = nodes := by
  induction es generalizing db out with
  | nil => exact ⟨db.cache, rfl, hnodes⟩
  | cons e es ih =>
    obtain ⟨cache, hcollect, hsame⟩ := hkid e List.mem_cons_self db hfile hnodes out
    have hrest := fun out => ih (fun e he => hkid e (List.mem_cons_of_mem _ he))
      { db with cache } hfile hsame out
    rw [List.flatMap_cons, dkvCollectPairs_append, List.map_cons, dkvCollectKids, hcollect]
    cases hpairs : dkvCollectPairs registry db max (Tree.range lo hi (d := d) e.2) out with
    | none => exact ⟨cache, rfl, hsame⟩
    | some mid =>
      obtain ⟨cache', hkids, hsame'⟩ := hrest mid
      rw [dkvCollectPairs_cache] at hkids
      exact ⟨cache', hkids, hsame'⟩

theorem dkvCollect_sim {d fuel : Nat} (hfuel : d < fuel) (lo hi : Option K) (max : Int) (db : Db K)
    {t : Tree K d} (hholds : Tree.Holds registry db.file db.cache t) (out : List (K × UnoValue)) :
    ∃ cache, dkvCollect registry lo hi max fuel db t.page out =
        (dkvCollectPairs registry db max (t.range lo hi) out).map
          (fun out => (out, { db with cache })) ∧
      pageNode registry db.file cache = pageNode registry db.file db.cache := by
  obtain ⟨fuel, rfl⟩ := Nat.exists_eq_add_one_of_ne_zero (by omega : fuel ≠ 0)
  obtain ⟨hnode, hkids⟩ := hholds
  obtain ⟨cr, hread, hsame⟩ := dkvNode_of_pageNode hnode
  cases d with
  | zero =>
    refine ⟨cr, ?_, hsame⟩
    have hpairs : dkvCollectPairs registry { db with cache := cr } max (t.map.range lo hi) out = _ :=
      dkvCollectPairs_cache ..
    rw [dkvCollect, hread, Option.bind_eq_bind, Option.bind_some]
    show (dkvCollectPairs registry { db with cache := cr } max (t.map.range lo hi) out).bind _ = _
    rw [hpairs, Tree.range]
    cases dkvCollectPairs registry db max (t.map.range lo hi) out <;> rfl
  | succ d =>
    let kids := t.map.range (lo.bind t.map.floor) hi
    have hkid : ∀ e ∈ kids, ∀ db' : Db K, db'.file = db.file →
        pageNode registry db.file db'.cache = pageNode registry db.file db.cache →
        ∀ out, ∃ cache, dkvCollect registry lo hi max fuel db' (TreeNode.page (V := Item K d) e.2) out =
            (dkvCollectPairs registry db' max (Tree.range lo hi (d := d) e.2) out).map
              (fun out => (out, { db' with cache })) ∧
          pageNode registry db.file cache = pageNode registry db.file db.cache := by
      intro e he db' hfile hnodes out
      have hget : t.map.get e.1 = some e.2 := OrdMap.get_eq_some_iff.mpr (List.mem_of_mem_filter he)
      obtain ⟨cache, hkid, hsame⟩ := dkvCollect_sim (Nat.lt_of_succ_lt_succ hfuel) lo hi max db'
        (t := e.2)
        (by
          rw [hfile]
          exact item_frame (hkids e.1 e.2 hget) fun q _ => by rw [hnodes]) out
      rw [hfile] at hsame
      exact ⟨cache, hkid, hsame.trans hnodes⟩
    obtain ⟨cache, hcollect, hrest⟩ := dkvCollectKids_sim kids hkid { db with cache := cr } rfl hsame out
    refine ⟨cache, ?_, hrest⟩
    rw [dkvCollectPairs_cache] at hcollect
    rw [dkvCollect, hread, Option.bind_eq_bind, Option.bind_some]
    have hfloor : lo.bind (t.map.map (TreeNode.page (V := Item K d))).floor = lo.bind t.map.floor :=
      congrArg lo.bind (funext fun k => OrdMap.floor_map _ t.map k)
    have hrange : (t.map.map (TreeNode.page (V := Item K d))).range
        (lo.bind (t.map.map (TreeNode.page (V := Item K d))).floor) hi =
          kids.map fun e => (e.1, TreeNode.page (V := Item K d) e.2) := by
      rw [hfloor]
      exact OrdMap.range_map _ t.map _ hi
    show dkvCollectKids (dkvCollect registry lo hi max fuel) { db with cache := cr }
      ((t.map.map (TreeNode.page (V := Item K d))).range
        (lo.bind (t.map.map (TreeNode.page (V := Item K d))).floor) hi) out = _
    rw [hrange]
    exact hcollect
  termination_by d

end

section

variable [KvKey K] {registry : Registry}

def Root.Holds (registry : Registry) (file : KvFile) (cache : Cache K) (root : Root K) : Prop :=
  ∀ t, root = some t → Tree.Holds registry file cache t.2

omit [KvKey K] in
theorem dkvPutRoot_empty {db : Db K} (h : db.root = 0) : dkvPutRoot db =
    ((dkvNewPage db.space).1,
      { db with
        space := (dkvNewPage db.space).2
        cache := db.cache.put (dkvNewPage db.space).1
          ⟨.leaf .empty, (dkvNewPage db.space).1, true⟩ }) := by
  rw [dkvPutRoot, if_pos h, dkvNodeNew_eq]

theorem dkvPutRoot_sim {db : Db K} {root : Root K} (hpage : root.page = db.root)
    (hne : ∀ t, root = some t → t.2.page ≠ 0)
    (hholds : Root.Holds registry db.file db.cache root) :
    ∃ cache, dkvPutRoot db = ((root.plant db.space).1.2.page,
        { db with space := (root.plant db.space).2, cache }) ∧
      Tree.Holds registry db.file cache (root.plant db.space).1.2 := by
  cases root with
  | none =>
    exact ⟨_, dkvPutRoot_empty hpage.symm, (pageNode_put ..).trans (if_pos rfl), nofun⟩
  | some t =>
    have hroot : db.root ≠ 0 := hpage ▸ hne t rfl
    refine ⟨db.cache, ?_, hholds t rfl⟩
    rw [dkvPutRoot, if_neg hroot]
    exact congrArg (Prod.mk · db) hpage.symm

theorem dkvGrowRoot_sim (db : Db K) {split : Option (K × Tree K d)} {s' : Space}
    {root : Root K} (h : Tree.grow db.space (t, split) = some (root, s'))
    (hleft : Tree.Holds registry db.file db.cache t)
    (hright : SplitHolds registry db.file db.cache split)
    (hroom : ∀ a, t.owns a + splitOwns a split + db.space.holds a ≤ 1) :
    ∃ cache, dkvGrowRoot registry db (t.page, splitPage split) =
        some { db with root := root.page, space := s', cache } ∧
      Root.Holds registry db.file cache root := by
  cases split with
  | none =>
    cases h
    refine ⟨db.cache, rfl, ?_⟩
    rintro _ ⟨⟩
    exact hleft
  | some e =>
    obtain ⟨sep, right⟩ := e
    obtain ⟨lk, hlk, h⟩ := Option.bind_eq_some_iff.mp h
    cases h
    let top := (dkvNewPage db.space).1
    let made : Db K := (dkvNodeNew db (.branch .empty)).2
    have hnew : ∀ q, t.owns q + right.owns q ≠ 0 → q ≠ top := by
      intro q hq
      have := hroom q
      simp only [splitOwns] at this
      exact newPage_ne (by omega)
    have hmade : ∀ q, t.owns q + right.owns q ≠ 0 →
        pageNode registry db.file made.cache q = pageNode registry db.file db.cache q :=
      fun q hq => (pageNode_put ..).trans (if_neg (hnew q hq))
    have hpage : t.owns t.page + right.owns t.page ≠ 0 := by
      rw [t.owns_eq, isAt, if_pos rfl]
      omega
    have hnode : pageNode registry made.file made.cache t.page = some (Tree.node t) :=
      (hmade t.page hpage).trans hleft.1
    obtain ⟨cr, hread, hsame⟩ := dkvNodeOk_of_pageNode hnode
    let map : OrdMap K (Item K (d + 1)) := (OrdMap.empty.put lk t).put sep right
    let root : Tree K (d + 1) := ⟨top, true, map⟩
    have hkids : ∀ q, t.owns q + right.owns q ≠ 0 →
        pageNode registry db.file (cr.put top (Tree.node root)) q =
          pageNode registry db.file db.cache q := by
      intro q hq
      rw [pageNode_put, if_neg (hnew q hq)]
      exact (congrFun hsame q).trans (hmade q hq)
    refine ⟨cr.put top (Tree.node root), ?_, ?_⟩
    · have hfirst : (Tree.node t).body.first = some lk := (mapBody_first t.map).trans hlk
      have hbody : Body.branch ((OrdMap.empty.put lk t.page).put sep right.page) = mapBody map := by
        show _ = Body.branch (((OrdMap.empty.put lk t).put sep right).map TreeNode.page)
        rw [OrdMap.map_put, OrdMap.map_put, OrdMap.map_empty]
      show dkvGrowRoot registry db (t.page, some (sep, right.page)) = _
      rw [dkvGrowRoot]
      show ((dkvNodeOk registry made t.page).bind fun r => _) = _
      rw [hread, Option.bind_some]
      show ((Tree.node t).body.first.bind fun r => _) = _
      rw [hfirst, Option.bind_some, hbody]
      rfl
    · rintro _ ⟨⟩
      refine ⟨(pageNode_put ..).trans (if_pos rfl), fun k c hget => ?_⟩
      rcases OrdMap.get_put_cases hget with ⟨-, hc⟩ | ⟨-, hget⟩
      · rw [hc]
        exact item_frame (d := d + 1) (hright _ rfl) fun q hq => hkids q (by
          have : Kv.owns q (d := d + 1) right = right.owns q := rfl
          omega)
      · rcases OrdMap.get_put_cases hget with ⟨-, hc⟩ | ⟨-, hget⟩
        · rw [hc]
          exact item_frame (d := d + 1) hleft fun q hq => hkids q (by
            have : Kv.owns q (d := d + 1) t = t.owns q := rfl
            omega)
        · cases hget

end

section

variable [KvKey K] {registry : Registry}

theorem Root.holds_some {file : KvFile} {cache : Cache K}
    (h : Tree.Holds registry file cache t) : Root.Holds registry file cache (some ⟨d, t⟩) := by
  rintro _ ⟨⟩
  exact h

theorem dkvShrinkRoot_leaf {db read : Db K} {map : OrdMap K Entry}
    (hread : dkvNodeOk registry db db.root = some (node, read)) (hbody : node.body = .leaf map) :
    dkvShrinkRoot registry (fuel + 1) db = some read := by
  simp [dkvShrinkRoot, hread, hbody]

theorem dkvShrinkRoot_stays {db read : Db K} {map : OrdMap K Nat}
    (hread : dkvNodeOk registry db db.root = some (node, read)) (hbody : node.body = .branch map)
    (hlen : 1 < map.len) : dkvShrinkRoot registry (fuel + 1) db = some read := by
  simp [dkvShrinkRoot, hread, hbody, hlen]

theorem dkvShrinkRoot_leaves {child : Nat} {db read : Db K} {k : K}
    {map : OrdMap K Nat} (hread : dkvNodeOk registry db db.root = some (node, read))
    (hbody : node.body = .branch map) (hlen : ¬1 < map.len) (hfirst : map.first = some k)
    (hget : map.get k = some child) : dkvShrinkRoot registry (fuel + 1) db =
      dkvShrinkRoot registry fuel { dkvLeaveRoot read node with root := child } := by
  simp [dkvShrinkRoot, hread, hbody, hlen, hfirst, hget]

theorem dkvShrinkRoot_sim {d fuel : Nat} (hfuel : d < fuel) (db : Db K) {t : Tree K d} {s' : Space}
    {root : Root K} (hroot : db.root = t.page) (h : Tree.shrink db.space t = some (root, s'))
    (hholds : Tree.Holds registry db.file db.cache t)
    (hroom : ∀ a, t.owns a + db.space.holds a ≤ 1) :
    ∃ cache, dkvShrinkRoot registry fuel db =
        some { db with root := root.page, space := s', cache } ∧
      Root.Holds registry db.file cache root := by
  obtain ⟨fuel, rfl⟩ := Nat.exists_eq_add_one_of_ne_zero (by omega : fuel ≠ 0)
  obtain ⟨cr, hread, hsame⟩ := dkvNodeOk_of_pageNode (hroot ▸ hholds.1)
  have hsameHolds : Tree.Holds registry db.file cr t :=
    item_frame (d := d + 1) hholds fun q _ => by rw [hsame]
  have hstays : { db with root := t.page, cache := cr } = { db with cache := cr } := by
    rw [← hroot]
  cases d with
  | zero =>
    cases h
    refine ⟨cr, ?_, Root.holds_some hsameHolds⟩
    rw [dkvShrinkRoot_leaf hread (show (Tree.node t).body = .leaf t.map from rfl)]
    exact congrArg some hstays.symm
  | succ d =>
    have hlen : (t.map.map (TreeNode.page (V := Item K d))).len = t.map.len := OrdMap.len_map ..
    rw [Tree.shrink] at h
    split_ifs at h with hmany
    · cases h
      refine ⟨cr, ?_, Root.holds_some hsameHolds⟩
      rw [dkvShrinkRoot_stays hread (show (Tree.node t).body = .branch (t.map.map
        (TreeNode.page (V := Item K d))) from rfl) (hlen ▸ hmany)]
      exact congrArg some hstays.symm
    · obtain ⟨k, hk, h⟩ := Option.bind_eq_some_iff.mp h
      obtain ⟨child, hget, h⟩ := Option.bind_eq_some_iff.mp h
      have hshare : ∀ a, Tree.owns a child + isAt a t.page ≤ t.owns a := by
        intro a
        have := OrdMap.le_sum (Kv.owns a) hget
        have : Kv.owns a (d := d + 1) child = Tree.owns a child := rfl
        rw [t.owns_eq a]
        omega
      let left : Db K := { dkvLeaveRoot { db with cache := cr } (Tree.node t) with root := child.page }
      have hspace : left.space = t.leave db.space := by
        show (if t.dirty then dkvFreeNew db.space db.root else dkvDrop db.space db.root 1) = _
        rw [hroot]
        rfl
      have hkeeps : ∀ q, Tree.owns q child ≠ 0 → pageNode registry db.file left.cache q =
          pageNode registry db.file db.cache q := by
        intro q hq
        have hne : q ≠ db.root := by
          rintro rfl
          have hone := hroom db.root
          have := hshare db.root
          rw [hroot] at *
          simp only [isAt, if_true] at this
          omega
        rw [← hsame]
        exact pageNode_del_ne hne
      obtain ⟨cache, hshrink, hroot'⟩ := dkvShrinkRoot_sim (Nat.lt_of_succ_lt_succ hfuel) left rfl
        (t := child) (show Tree.shrink left.space child = some (root, s') from hspace ▸ h)
        (item_frame (d := d + 1) (hholds.2 k child hget) hkeeps) (fun a => by
          have := hshare a
          have := hroom a
          have := t.leave_holds_le a db.space
          rw [hspace]
          omega)
      refine ⟨cache, ?_, hroot'⟩
      rw [dkvShrinkRoot_leaves hread rfl (hlen ▸ hmany) ((OrdMap.first_map ..).trans hk)
        ((OrdMap.get_map ..).trans (congrArg _ hget))]
      exact hshrink
  termination_by d

end

section

variable [KvKey K] {registry : Registry} {P : K → Prop} {E : Entry → Prop} {db : Db K}
  {root : Root K}

theorem Stands.page_ne_of (h : Stands registry db root) :
    ∀ t, root = some t → t.2.page ≠ 0 := by
  rintro t rfl
  have hne := h.page_ne
  rwa [← h.page] at hne

theorem Stands.owns_zero {t : Σ d, Tree K d} (h : Stands registry db (some t)) :
    t.2.owns 0 = 0 := by
  have hroom := h.metas 0 (by omega)
  simp only [Root.owns] at hroom
  omega

theorem Stands.next (h : Stands registry db root) {root' : Root K} {s' : Space} {cache : Cache K}
    (hle : ∀ a, root'.owns a + s'.holds a ≤ root.owns a + db.space.holds a)
    (hholds : Root.Holds registry db.file cache root') :
    Stands registry { db with root := root'.page, space := s', cache } root' where
  page := rfl
  holds := hholds
  room a := (hle a).trans (h.room a)
  metas a ha := Nat.le_zero.mp ((hle a).trans_eq (h.metas a ha))

theorem Stands.cached (h : Stands registry db root) {cache : Cache K}
    (hsame : pageNode registry db.file cache = pageNode registry db.file db.cache) :
    Stands registry { db with cache } root where
  page := h.page
  holds t ht := item_frame (d := t.1 + 1) (h.holds t ht) fun q _ => by rw [hsame]
  room := h.room
  metas := h.metas

theorem dubnaKvGet_sim (h : Stands registry db root) (hsound : root.Sound P E)
    (hkey : dkvKeyOk key = true) : ∃ cache, dubnaKvGet registry db key =
        (((root.find key).map (dkvValueOut registry db)).getD (some .null)).map
          (fun v => (v, { db with cache })) ∧
      Stands registry { db with cache } root := by
  have hfind : ∃ cache, dkvFind registry db.fuel db db.root key =
      some (root.find key, { db with cache }) ∧
        pageNode registry db.file cache = pageNode registry db.file db.cache := by
    cases root with
    | none =>
      refine ⟨db.cache, ?_, rfl⟩
      rw [Db.fuel, dkvFind, if_pos h.root_eq_zero]
      rfl
    | some t =>
      have hfind := dkvFind_sim (h.depth hsound) db hsound (h.holds t rfl) h.owns_zero key
      rwa [show t.2.page = db.root from h.page] at hfind
  obtain ⟨cache, hfind, hsame⟩ := hfind
  refine ⟨cache, ?_, h.cached hsame⟩
  rw [dubnaKvGet, if_pos hkey, hfind, Option.bind_eq_bind, Option.bind_some]
  cases root.find key with
  | none => rfl
  | some x =>
    show (dkvValueOut registry { db with cache } x).bind _ = (dkvValueOut registry db x).map _
    rw [dkvValueOut_cache]
    cases dkvValueOut registry db x <;> rfl

theorem dubnaKvRange_sim (h : Stands registry db root) (hsound : root.Sound P E) (lo hi : Option K)
    (max : Int) : ∃ cache, dubnaKvRange registry db lo hi max =
        (dkvCollectPairs registry db max (root.range lo hi) []).map
          (fun out => (out, { db with cache })) ∧
      Stands registry { db with cache } root := by
  cases root with
  | none =>
    refine ⟨db.cache, ?_, h⟩
    rw [dubnaKvRange, if_pos h.root_eq_zero]
    rfl
  | some t =>
    obtain ⟨cache, hcollect, hsame⟩ := dkvCollect_sim (h.depth hsound) lo hi max db (h.holds t rfl) []
    refine ⟨cache, ?_, h.cached hsame⟩
    rw [show t.2.page = db.root from h.page] at hcollect
    rw [dubnaKvRange, if_neg h.page_ne]
    exact hcollect

theorem dubnaKvPut_eq {value : UnoValue} (hkey : dkvKeyOk key = true)
    (hvalue : value ≠ .null) {x : Entry} {space : Space}
    (hin : dkvValueIn db.space value = some (x, space)) {p : Nat} {rooted below db' : Db K}
    (hroot : dkvPutRoot { db with space } = (p, rooted)) {placed : Placed K}
    (hinsert : dkvInsert registry rooted.fuel rooted p key x = some (placed, below))
    (hgrow : dkvGrowRoot registry below placed = some db') :
    dubnaKvPut registry db key value = some (0, db') := by
  rw [dubnaKvPut, if_pos hkey]
  simp only [hin, hroot, hinsert, hgrow, Option.bind_eq_bind, Option.bind_some]
  · rfl
  · exact hvalue

theorem dubnaKvPut_sim (hP : ∀ k, P k → KeyFits k) (hE : ∀ x, E x → EntryFits x)
    (h : Stands registry db root) (hsound : root.Sound P E) {value : UnoValue}
    (hkey : dkvKeyOk key = true) (hPkey : P key) (hvalue : value ≠ .null) {x : Entry} {s : Space}
    (hin : dkvValueIn db.space value = some (x, s)) (hx : E x) :
    ∃ root' s' cache, Root.put s root key x = some (root', s') ∧
      dubnaKvPut registry db key value =
        some (0, { db with root := root'.page, space := s', cache }) ∧
      root'.Sound P E ∧ Stands registry { db with root := root'.page, space := s', cache } root' := by
  obtain ⟨root', s', hput, hsound'⟩ := Root.put_sound hP hE hsound hPkey hx s
  obtain ⟨⟨⟨t, split⟩, si⟩, hinsert, hgrow⟩ := Option.bind_eq_some_iff.mp hput
  dsimp only at hgrow
  have hvalueIn := fun a => dkvValueIn_holds a hin
  have hplant := fun a => root.plant_owns a s
  have hroom : ∀ a, (root.plant s).1.2.owns a + (root.plant s).2.holds a + entryOwns a x ≤ 1 := by
    intro a
    have := h.room a
    have := hvalueIn a
    have := hplant a
    omega
  let started : Db K := { db with space := s }
  obtain ⟨cp, hrooted, hplanted⟩ := dkvPutRoot_sim (show root.page = started.root from h.page)
    h.page_ne_of h.holds
  have hdepth : (root.plant s).1.1 < (root.plant s).2.pages + 1 := by
    cases root with
    | none => exact Nat.succ_pos _
    | some t =>
      refine Nat.lt_succ_of_lt (Tree.depth_lt hsound fun a => ?_)
      have := hroom a
      exact (Nat.le_add_right _ _).trans this
  obtain ⟨ci, hinserted, hleft, hright, -⟩ := dkvInsert_sim hdepth
    { db with space := (root.plant s).2, cache := cp } hinsert hplanted hroom
  obtain ⟨cg, hgrown, hholds⟩ := dkvGrowRoot_sim { db with space := si, cache := ci } hgrow hleft
    hright (fun a => (Tree.insert_owns_le a hinsert).trans (hroom a))
  refine ⟨root', s', cg, hput, dubnaKvPut_eq hkey hvalue hin hrooted hinserted hgrown, hsound', ?_⟩
  refine h.next (fun a => ?_) hholds
  have := Root.put_owns_le a hput
  have := hvalueIn a
  omega

theorem dubnaKvDel_empties (hkey : dkvKeyOk key = true) (hroot : db.root ≠ 0) {np : Nat}
    {gone : Bool} {below : Db K}
    (hremove : dkvRemove registry db.fuel db db.root key = some ((np, gone, true), below)) :
    dubnaKvDel registry db key = some (gone, { below with
      cache := below.cache.del np, space := dkvFreeNew below.space np, root := 0 }) := by
  simp [dubnaKvDel, hkey, hroot, hremove]

theorem dubnaKvDel_shrinks (hkey : dkvKeyOk key = true) (hroot : db.root ≠ 0) {np : Nat}
    {gone : Bool} {below db' : Db K}
    (hremove : dkvRemove registry db.fuel db db.root key = some ((np, gone, false), below))
    (hshrink : dkvShrinkRoot registry below.fuel { below with root := np } = some db') :
    dubnaKvDel registry db key = some (gone, db') := by
  simp [dubnaKvDel, hkey, hroot, hremove, hshrink]

theorem dubnaKvDel_sim (h : Stands registry db root) (hsound : root.Sound P E)
    (hkey : dkvKeyOk key = true) :
    ∃ gone root' s' cache, Root.del db.space root key = some ((gone, root'), s') ∧
      dubnaKvDel registry db key =
        some (gone, { db with root := root'.page, space := s', cache }) ∧
      root'.Sound P E ∧ Stands registry { db with root := root'.page, space := s', cache } root' := by
  cases root with
  | none =>
    have hsame : { db with root := Root.page (K := K) none } = db := by
      rw [h.page]
    refine ⟨false, none, db.space, db.cache, rfl, ?_, trivial, hsame.symm ▸ h⟩
    rw [dubnaKvDel, if_neg fun hroot => hroot.2 h.root_eq_zero]
    exact congrArg (fun db => some (false, db)) hsame.symm
  | some t =>
    obtain ⟨r, sr, hremove, hr⟩ := Tree.remove_sound hsound db.space key
    obtain ⟨cr, hremoved, hleft, -⟩ := dkvRemove_sim (h.depth hsound) db hremove (h.holds t rfl) h.room
    rw [show t.2.page = db.root from h.page] at hremoved
    have hle := fun a => Tree.remove_owns_le a hremove
    cases hempty : r.empty with
    | true =>
      have hdel : Root.del db.space (some t) key =
          some ((r.gone, none), dkvFreeNew sr r.tree.page) := by
        simp [Root.del, hremove, hempty]
      rw [hempty] at hremoved
      refine ⟨r.gone, none, _, _, hdel, dubnaKvDel_empties hkey h.page_ne hremoved, trivial, ?_⟩
      exact h.next (fun a => Root.del_owns_le a hdel) fun t ht => absurd ht (Option.some_ne_none t).symm
    | false =>
      have hrsound := hr.left hempty
      have hroom : ∀ a, r.tree.owns a + sr.holds a ≤ 1 := fun a => (hle a).trans (h.room a)
      obtain ⟨root', s', hshrink, hsound'⟩ := Tree.shrink_sound hrsound sr
      have hdel : Root.del db.space (some t) key = some ((r.gone, root'), s') := by
        simp [Root.del, hremove, hempty, hshrink]
      rw [hempty] at hremoved
      obtain ⟨cache, hshrunk, hholds⟩ := dkvShrinkRoot_sim
        (Nat.lt_succ_of_lt (Tree.depth_lt hrsound hroom))
        { db with root := r.tree.page, space := sr, cache := cr } rfl hshrink hleft hroom
      refine ⟨r.gone, root', s', cache, hdel, dubnaKvDel_shrinks hkey h.page_ne hremoved hshrunk,
        hsound', ?_⟩
      exact h.next (fun a => Root.del_owns_le a hdel) hholds

end

end Ussr.Kv
