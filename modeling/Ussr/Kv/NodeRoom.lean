import Mathlib.Algebra.Order.BigOperators.Group.List
import Ussr.Kv.Shape
import Ussr.RealLength
import Ussr.Kv.Simulation

/-! The length of the text of a node: those of its pairs, the commas between them and
eight bytes around. Only one thing makes a node longer than its page: what is put into it. -/

namespace Ussr.Kv
open Uno Real64

variable {s' : Space}

def unoLength (v : UnoValue) : Nat :=
  ((unoEncodeValue v).map List.length).getD 0

theorem unoLength_of_text {v : UnoValue} {text : List UInt8} (h : unoEncodeValue v = some text) :
    unoLength v = text.length := by
  rw [unoLength, h]
  rfl

theorem Encodes.length_le {v : UnoValue} {n : Nat} (h : Encodes v n) : unoLength v ≤ n := by
  obtain ⟨text, htext, hle⟩ := h
  exact (unoLength_of_text htext).trans_le hle

def nodeSize (ls : List Nat) : Nat :=
  8 + ls.sum + (ls.length - 1)

theorem nodeSize_sublist {ls ls' : List Nat} (h : ls.Sublist ls') : nodeSize ls ≤ nodeSize ls' := by
  have hsum : ls.sum ≤ ls'.sum := h.sum_le_sum fun _ _ => Nat.zero_le _
  have hlen := h.length_le
  unfold nodeSize
  omega

theorem unoEncodeItems_length {items : List UnoValue} {first : Bool} {text : List UInt8}
    (h : unoEncodeItems first items = some text) : text.length =
      (items.map unoLength).sum + (if first then items.length - 1 else items.length) := by
  induction items generalizing first text with
  | nil =>
    cases h
    cases first <;> rfl
  | cons item items ih =>
    rw [unoEncodeItems] at h
    obtain ⟨head, hhead, h⟩ := Option.bind_eq_some_iff.mp h
    obtain ⟨rest, hrest, h⟩ := Option.bind_eq_some_iff.mp h
    obtain rfl := Option.some.inj h
    have hlen := ih hrest
    have hitem := unoLength_of_text hhead
    cases first <;> simp [comma] at hlen ⊢ <;> omega

section

variable {K : Type} [LinearOrder K] [KvKey K]

def Body.lengths : Body K → List Nat
  | .leaf map => map.entries.map fun e => unoLength (pairUno entryUno e)
  | .branch map => map.entries.map fun e => unoLength (pairUno pageUno e)

theorem encode_node_length {kind : CString} (hkind : kind.bytes.length = 1) {pairs : List UnoValue}
    {text : List UInt8} (h : unoEncodeValue (.vector [.string kind, .vector pairs]) = some text) :
    text.length = nodeSize (pairs.map unoLength) := by
  rw [unoEncodeValue] at h
  obtain ⟨items, hitems, h⟩ := Option.bind_eq_some_iff.mp h
  obtain rfl := Option.some.inj h
  have hlen := unoEncodeItems_length hitems
  rw [unoEncodeItems] at hitems
  obtain ⟨name, hname, hitems⟩ := Option.bind_eq_some_iff.mp hitems
  obtain ⟨rest, hrest, hitems⟩ := Option.bind_eq_some_iff.mp hitems
  rw [unoEncodeItems] at hrest
  obtain ⟨vector, hvector, hrest⟩ := Option.bind_eq_some_iff.mp hrest
  have hkindText : unoLength (.string kind) = 3 := by
    rw [unoLength_of_text hname]
    rw [unoEncodeValue] at hname
    split_ifs at hname
    obtain rfl := Option.some.inj hname
    simp [hkind]
  have hpairs := unoLength_of_text hvector
  rw [unoEncodeValue] at hvector
  obtain ⟨inner, hinner, hvector⟩ := Option.bind_eq_some_iff.mp hvector
  obtain rfl := Option.some.inj hvector
  have hinside := unoEncodeItems_length hinner
  simp only [List.map_cons, List.map_nil, List.sum_cons, List.sum_nil, List.length_cons,
    List.length_nil, List.length_append, if_true, hkindText, hpairs] at hlen hinside ⊢
  rw [nodeSize, List.length_map]
  omega

theorem dkvNodeText_length {body : Body K} {text : List UInt8} (h : dkvNodeText body = some text) :
    text.length = nodeSize body.lengths := by
  cases body with
  | leaf map =>
    rw [@encode_node_length (CString.lit "L") rfl _ _ h, Body.lengths, List.map_map]
    rfl
  | branch map =>
    rw [@encode_node_length (CString.lit "B") rfl _ _ h, Body.lengths, List.map_map]
    rfl

theorem Body.length_lengths (body : Body K) : body.lengths.length = body.keys.length := by
  cases body <;> simp [Body.lengths, Body.keys, OrdMap.keys]

theorem Body.lengths_take (body : Body K) (n : Nat) :
    (body.take n).lengths = body.lengths.take n := by
  cases body <;> simp [Body.lengths, Body.take, OrdMap.take]

theorem Body.lengths_drop (body : Body K) (n : Nat) :
    (body.drop n).lengths = body.lengths.drop n := by
  cases body <;> simp [Body.lengths, Body.drop, OrdMap.drop]

end

section

variable {K : Type} [LinearOrder K] [KvKey K]

theorem encodes_real (x : BitVec 64) : Encodes (.real x) 33 := by
  have hlen := length_formatG_le x
  refine ⟨unoEncodeReal x, by rw [unoEncodeValue], ?_⟩
  unfold unoEncodeReal
  dsimp only
  split_ifs
  · rw [List.length_append, show (ascii ".0").length = 2 from rfl]
    omega
  · omega

theorem keyFits_of_keyOk (k : K) (h : dkvKeyOk k = true) : KeyFits k := by
  unfold dkvKeyOk at h
  unfold KeyFits
  cases hk : KvKey.toUno k with
  | integer n => exact (encodes_integer n).mono (by decide)
  | real x => exact (encodes_real x).mono (by decide)
  | string s =>
    rw [hk] at h
    obtain ⟨hlen, hok⟩ := dkvClean_string h
    exact (encodes_string hok).mono (by omega)
  | _ =>
    rw [hk] at h
    cases h

end

/-! A node that has become longer than its page is split once, by the number of its entries.
What a put or a del makes of the nodes on the way of its key is told here from the lengths of
their entries; where all of that has room in pages, so has every node of the tree. -/

variable {K : Type} [LinearOrder K]

section

/-- What a call makes of a node on its way and of those below: whether they have room in their
pages, what the node above is told, and what is left of the space. -/
structure Outlook (A : Type) where
  room : Bool
  told : A
  space : Space

def pageWritten (s : Space) (node : Node K) : Nat × Space :=
  if node.dirty then (node.page, s)
  else ((dkvNewPage s).1, dkvDrop (dkvNewPage s).2 node.page 1)

def halvesFit (ls : List Nat) : Bool :=
  decide (nodeSize (ls.take (ls.length / 2)) ≤ nodeRoom) &&
    decide (nodeSize (ls.drop (ls.length / 2)) ≤ nodeRoom)

def dkvWay [KvKey K] (registry : Registry) : (fuel : Nat) → Db K → Nat → K → List (Node K)
  | 0, _, _, _ => []
  | fuel + 1, db, p, key =>
    match dkvNode registry db p with
    | some (some node, db) =>
      node :: match node.body with
        | .leaf _ => []
        | .branch map =>
          match dkvRoute map key with
          | some (_, child) => dkvWay registry fuel db child key
          | none => []
    | _ => []

def Db.way [KvKey K] (registry : Registry) (db : Db K) (key : K) : List (Node K) :=
  if db.root = 0 then [] else dkvWay registry db.fuel db db.root key

variable [KvKey K]

def splitOutlook (s : Space) (page : Nat) (body : Body K) : Outlook (Placed K) :=
  match body.keys[body.keys.length / 2]? with
  | some sep =>
    if nodeSize body.lengths ≤ nodeRoom then ⟨true, (page, none), s⟩
    else ⟨halvesFit body.lengths, (page, some (sep, (dkvNewPage s).1)), (dkvNewPage s).2⟩
  | none => ⟨true, (page, none), s⟩

/-- What a put makes of the nodes on its way: the leaf has the new entry, a branch the page of
its child and the separator of a child that was split. -/
def putOutlook : Space → List (Node K) → K → Entry → Outlook (Placed K)
  | s, [], _, _ => ⟨true, (0, none), s⟩
  | s, node :: way, key, x =>
    let (page, s) := pageWritten s node
    match node.body with
    | .leaf map => splitOutlook (dkvReplace s (map.get key)) page (.leaf (map.put key x))
    | .branch map =>
      let below := putOutlook s way key x
      match dkvRoute map key with
      | none => below
      | some (ck, _) =>
        let o := splitOutlook below.space page (.branch (putChild map ck below.told.1 below.told.2))
        { o with room := below.room && o.room }

/-- A branch of a del: without its empty child, or with the page that the child has now, which
may be a longer number. -/
def childOutlook (node : Node K) (map : OrdMap K Nat) (ck : K) (below : Outlook Removed) :
    Outlook Removed :=
  if below.told.2.1 then
    let (page, s) := pageWritten below.space node
    if below.told.2.2 then
      ⟨below.room, (page, true, (map.del ck).len = 0), dkvFreeNew s below.told.1⟩
    else
      let map := map.put ck below.told.1
      ⟨below.room && decide (nodeSize (Body.branch map).lengths ≤ nodeRoom),
        (page, true, map.len = 0), s⟩
  else ⟨true, (node.page, false, false), below.space⟩

def delOutlook : Space → List (Node K) → K → Outlook Removed
  | s, [], _ => ⟨true, (0, false, false), s⟩
  | s, node :: way, key =>
    match node.body with
    | .leaf map =>
      match map.get key with
      | none => ⟨true, (node.page, false, false), s⟩
      | some was =>
        let (page, s) := pageWritten s node
        let s := dkvDropValue s was
        ⟨true, (page, true, (map.del key).len = 0), { s with count := s.count - 1 }⟩
    | .branch map =>
      let below := delOutlook s way key
      match dkvRoute map key with
      | none => below
      | some (ck, _) => childOutlook node map ck below

variable {s : Space} {node : Node K} {way : List (Node K)} {key : K}

theorem delOutlook_absent {map : OrdMap K Entry} (hbody : node.body = .leaf map)
    (hget : map.get key = none) :
    delOutlook s (node :: way) key = ⟨true, (node.page, false, false), s⟩ := by
  simp [delOutlook, hbody, hget]

theorem delOutlook_entry {map : OrdMap K Entry} {was : Entry} (hbody : node.body = .leaf map)
    (hget : map.get key = some was) : delOutlook s (node :: way) key =
      ⟨true, ((pageWritten s node).1, true, (map.del key).len = 0),
        { dkvDropValue (pageWritten s node).2 was with
          count := (dkvDropValue (pageWritten s node).2 was).count - 1 }⟩ := by
  simp [delOutlook, hbody, hget]

theorem delOutlook_branch {map : OrdMap K Nat} {ck : K} {child : Nat}
    (hbody : node.body = .branch map) (hroute : dkvRoute map key = some (ck, child)) :
    delOutlook s (node :: way) key = childOutlook node map ck (delOutlook s way key) := by
  simp [delOutlook, hbody, hroute]

end

section

variable [KvKey K] {d : Nat}

def ItemRoom : {d : Nat} → Item K d → Prop
  | 0, _ => True
  | _ + 1, t => nodeSize (mapBody t.map).lengths ≤ nodeRoom ∧
      ∀ k c, t.map.get k = some c → ItemRoom c

def MapRoom (map : OrdMap K (Item K d)) : Prop :=
  ∀ k c, map.get k = some c → ItemRoom c

def Tree.Short (t : Tree K d) : Prop :=
  nodeSize (mapBody t.map).lengths ≤ nodeRoom

def Tree.Room (t : Tree K d) : Prop :=
  t.Short ∧ MapRoom t.map

def SplitRoom (split : Option (K × Tree K d)) : Prop :=
  ∀ e, split = some e → Tree.Room e.2

theorem MapRoom.put {map : OrdMap K (Item K d)} (h : MapRoom map) (k : K) {c : Item K d}
    (hc : ItemRoom c) : MapRoom (map.put k c) := by
  intro q w hget
  rcases OrdMap.get_put_cases hget with ⟨-, rfl⟩ | ⟨-, hget⟩
  · exact hc
  · exact h q w hget

theorem MapRoom.del {map : OrdMap K (Item K d)} (h : MapRoom map) (k : K) :
    MapRoom (map.del k) := by
  intro q w hget
  rw [OrdMap.get_del] at hget
  split_ifs at hget
  exact h q w hget

theorem MapRoom.take {map : OrdMap K (Item K d)} (h : MapRoom map) (n : Nat) :
    MapRoom (map.take n) :=
  fun k c hget => h k c (OrdMap.get_of_take hget)

theorem MapRoom.drop {map : OrdMap K (Item K d)} (h : MapRoom map) (n : Nat) :
    MapRoom (map.drop n) :=
  fun k c hget => h k c (OrdMap.get_of_drop hget)

theorem MapRoom.putChild {map : OrdMap K (Item K (d + 1))} (h : MapRoom map) (ck : K)
    {child : Tree K d} (hchild : child.Room) {split : Option (K × Tree K d)}
    (hsplit : SplitRoom split) : MapRoom (Kv.putChild map ck child split) := by
  cases split with
  | none => exact h.put ck hchild
  | some e => exact (h.put ck hchild).put e.1 (hsplit e rfl)

theorem Tree.room_leaf (map : OrdMap K (Item K 0)) : MapRoom map :=
  fun _ _ _ => trivial

end

section

variable [KvKey K] {d : Nat}

def Tree.way : {d : Nat} → Tree K d → K → List (Node K)
  | 0, t, _ => [Tree.node (d := 0) t]
  | d + 1, t, key =>
    Tree.node (d := d + 1) t :: match dkvRoute t.map key with
      | some (_, child) => Tree.way (d := d) child key
      | none => []

omit [KvKey K] in
theorem pageWritten_node (s : Space) (t : Tree K d) :
    pageWritten s (Tree.node t) = ((t.writable s).1.page, (t.writable s).2) := by
  unfold pageWritten TreeNode.writable Tree.node
  dsimp only
  split_ifs <;> rfl

/-- The outlook of a changed node is what becomes of it: it has room if and only if the node
that stays and the right half have. -/
theorem Tree.fit_outlook {s : Space} {t t' : Tree K d} {split : Option (K × Tree K d)}
    (hne : t.map.entries ≠ []) (h : Tree.fit s t = some ((t', split), s')) :
    (splitOutlook s t.page (mapBody t.map)).told = (t'.page, splitPage split) ∧
      (splitOutlook s t.page (mapBody t.map)).space = s' ∧
      ((splitOutlook s t.page (mapBody t.map)).room = true ↔
        t'.Short ∧ ∀ e, split = some e → Tree.Short e.2) := by
  have hsep : ∃ sep, (mapBody t.map).keys[(mapBody t.map).keys.length / 2]? = some sep := by
    refine ⟨_, List.getElem?_eq_getElem (Nat.div_lt_self ?_ (by decide))⟩
    rw [mapBody_keys, OrdMap.keys, List.length_map]
    exact List.length_pos_iff.mpr hne
  obtain ⟨sep, hsep⟩ := hsep
  have hhalf : (mapBody t.map).lengths.length / 2 = t.half := by
    rw [Body.length_lengths, mapBody_keys, TreeNode.half]
  unfold splitOutlook
  rw [hsep]
  obtain ⟨text, htext, ⟨hfits, hr⟩ | ⟨sep', hlong, hsep', hr⟩⟩ := Tree.fit_cases h
  · rw [dkvNodeText_length htext] at hfits
    cases hr
    dsimp only
    rw [if_pos hfits]
    exact ⟨rfl, rfl, fun _ => ⟨hfits, fun e he => absurd he (Option.some_ne_none e).symm⟩, fun _ => rfl⟩
  · rw [dkvNodeText_length htext] at hlong
    rw [mapBody_keys, ← TreeNode.half, hsep'] at hsep
    obtain rfl := Option.some.inj hsep
    cases hr
    dsimp only
    rw [if_neg (not_le.mpr hlong)]
    refine ⟨rfl, rfl, ?_⟩
    rw [halvesFit, hhalf, Bool.and_eq_true, decide_eq_true_eq, decide_eq_true_eq,
      ← Body.lengths_take, ← Body.lengths_drop, mapBody_take, mapBody_drop]
    exact ⟨fun hroom => ⟨hroom.1, fun e he => Option.some.inj he ▸ hroom.2⟩,
      fun hshort => ⟨hshort.1, hshort.2 _ rfl⟩⟩

theorem Tree.fit_mapRoom {s : Space} {t t' : Tree K d} {split : Option (K × Tree K d)}
    (hmap : MapRoom t.map) (h : Tree.fit s t = some ((t', split), s')) :
    MapRoom t'.map ∧ ∀ e, split = some e → MapRoom e.2.map := by
  obtain ⟨text, -, ⟨-, hr⟩ | ⟨sep, -, -, hr⟩⟩ := Tree.fit_cases h
  · cases hr
    exact ⟨hmap, nofun⟩
  · cases hr
    exact ⟨hmap.take t.half, fun e he => Option.some.inj he ▸ hmap.drop t.half⟩

theorem Tree.fit_room {s : Space} {t t' : Tree K d} {split : Option (K × Tree K d)}
    (hne : t.map.entries ≠ []) (h : Tree.fit s t = some ((t', split), s'))
    (hroom : (splitOutlook s t.page (mapBody t.map)).room = true) (hmap : MapRoom t.map) :
    t'.Room ∧ SplitRoom split := by
  obtain ⟨hleft, hright⟩ := (Tree.fit_outlook hne h).2.2.mp hroom
  obtain ⟨hleftMap, hrightMap⟩ := Tree.fit_mapRoom hmap h
  exact ⟨⟨hleft, hleftMap⟩, fun e he => ⟨hright e he, hrightMap e he⟩⟩

omit [KvKey K] in
theorem Tree.way_branch {d : Nat} {t : Tree K (d + 1)} {key ck : K} {child : Tree K d}
    (hroute : dkvRoute t.map key = some (ck, child)) :
    dkvRoute (t.map.map (TreeNode.page (V := Item K d))) key = some (ck, child.page) ∧
      t.way key = Tree.node t :: Tree.way (d := d) child key := by
  refine ⟨(dkvRoute_map TreeNode.page t.map key).trans (congrArg _ hroute), ?_⟩
  rw [Tree.way, hroute]

theorem Tree.insert_outlook {s : Space} {t t' : Tree K d} {split : Option (K × Tree K d)}
    {key : K} {x : Entry} (h : Tree.insert s t key x = some ((t', split), s')) :
    (putOutlook s (t.way key) key x).told = (t'.page, splitPage split) ∧
      (putOutlook s (t.way key) key x).space = s' ∧
      ((putOutlook s (t.way key) key x).room = true → MapRoom t.map → t'.Room ∧ SplitRoom split) := by
  induction d generalizing s s' with
  | zero =>
    rw [Tree.insert] at h
    have hne : (t.map.put key x).entries ≠ [] := entries_put_ne_nil _ _ _
    obtain ⟨htold, hspace, -⟩ := Tree.fit_outlook
      (t := { (t.writable s).1 with map := t.map.put key x }) hne h
    rw [Tree.way, putOutlook, pageWritten_node]
    exact ⟨htold, hspace, fun hr _ => Tree.fit_room (t := { (t.writable s).1 with map := t.map.put key x })
      hne h hr (Tree.room_leaf _)⟩
  | succ d ih =>
    rw [Tree.insert] at h
    obtain ⟨⟨ck, child⟩, hroute, h⟩ := Option.bind_eq_some_iff.mp h
    obtain ⟨⟨⟨child', below⟩, sb⟩, hbelow, h⟩ := Option.bind_eq_some_iff.mp h
    dsimp only at h
    obtain ⟨htold, hspace, hroom⟩ := ih hbelow
    have hne := putChild_ne_nil t.map ck child' below
    obtain ⟨hfitTold, hfitSpace, -⟩ := Tree.fit_outlook
      (t := { (t.writable s).1 with map := putChild t.map ck child' below }) hne h
    have hfitRoom := Tree.fit_room
      (t := { (t.writable s).1 with map := putChild t.map ck child' below }) hne h
    have hpages : mapBody (putChild t.map ck child' below) = .branch
        (putChild (t.map.map TreeNode.page) ck child'.page (splitPage below)) :=
      congrArg Body.branch (putChild_map TreeNode.page t.map ck child' below).symm
    obtain ⟨hroutePage, hway⟩ := Tree.way_branch hroute
    dsimp only at hfitTold hfitSpace hfitRoom
    rw [hpages] at hfitTold hfitSpace hfitRoom
    rw [hway, putOutlook, pageWritten_node]
    dsimp only [Tree.node, mapBody]
    rw [hroutePage]
    dsimp only
    rw [htold, hspace]
    refine ⟨hfitTold, hfitSpace, fun hr hmap => ?_⟩
    rw [Bool.and_eq_true] at hr
    have hchild := hmap ck child (dkvRoute_get hroute)
    obtain ⟨hleft, hright⟩ := hroom hr.1 hchild.2
    exact hfitRoom hr.2 (hmap.putChild ck hleft hright)

end

section

variable [KvKey K] {d : Nat}

theorem Body.size_del (map : OrdMap K (Item K d)) (k : K) :
    nodeSize (mapBody (map.del k)).lengths ≤ nodeSize (mapBody map).lengths := by
  cases d with
  | zero => exact nodeSize_sublist (List.filter_sublist.map _)
  | succ d =>
    have hpages : mapBody (map.del k) = .branch ((map.map TreeNode.page).del k) :=
      congrArg Body.branch (OrdMap.map_del ..)
    rw [hpages]
    exact nodeSize_sublist (List.filter_sublist.map _)

theorem Tree.removeChild_outlook {s : Space} (t : Tree K (d + 1)) (ck : K) {below : Remains K d}
    {o : Outlook Removed} (htold : o.told = (below.tree.page, below.gone, below.empty))
    (hspace : o.space = s) (hgone : below.gone = true) :
    (childOutlook (Tree.node t) (t.map.map TreeNode.page) ck o).told =
        ((Tree.removeChild s t ck below).1.tree.page, true, (Tree.removeChild s t ck below).1.empty) ∧
      (childOutlook (Tree.node t) (t.map.map TreeNode.page) ck o).space =
        (Tree.removeChild s t ck below).2 ∧
      ((childOutlook (Tree.node t) (t.map.map TreeNode.page) ck o).room = true →
        o.room = true ∧ (t.Room → (below.empty = false → below.tree.Room) →
          (Tree.removeChild s t ck below).1.tree.Room)) := by
  have hpages : mapBody (t.map.put ck below.tree) =
      .branch ((t.map.map TreeNode.page).put ck below.tree.page) :=
    congrArg Body.branch (OrdMap.map_put ..)
  unfold childOutlook
  rw [htold, hspace, pageWritten_node]
  dsimp only
  rw [if_pos hgone]
  cases hempty : below.empty with
  | true =>
    rw [Tree.removeChild_empty hempty, if_pos rfl]
    have hlen : ((t.map.map TreeNode.page).del ck).len = (t.map.del ck).len :=
      (congrArg OrdMap.len (OrdMap.map_del TreeNode.page t.map ck)).symm.trans (OrdMap.len_map ..)
    refine ⟨?_, rfl, fun hroom => ⟨hroom, fun ht _ => ⟨?_, ht.2.del ck⟩⟩⟩
    · dsimp only
      rw [hlen]
      rfl
    · exact (Body.size_del t.map ck).trans ht.1
  | false =>
    rw [Tree.removeChild_left hempty, if_neg Bool.false_ne_true]
    have hlen : ((t.map.map TreeNode.page).put ck below.tree.page).len =
        (t.map.put ck below.tree).len :=
      (congrArg OrdMap.len (OrdMap.map_put TreeNode.page t.map ck below.tree)).symm.trans
        (OrdMap.len_map ..)
    refine ⟨?_, rfl, fun hroom => ?_⟩
    · dsimp only
      rw [hlen]
      rfl
    · rw [Bool.and_eq_true, decide_eq_true_eq, ← hpages] at hroom
      exact ⟨hroom.1, fun ht hbelow => ⟨hroom.2, ht.2.put ck (hbelow rfl)⟩⟩

theorem Tree.remove_outlook {s : Space} {t : Tree K d} {r : Remains K d} {key : K}
    (h : Tree.remove s t key = some (r, s')) :
    (delOutlook s (t.way key) key).told = (r.tree.page, r.gone, r.empty) ∧
      (delOutlook s (t.way key) key).space = s' ∧
      ((delOutlook s (t.way key) key).room = true → t.Room → r.tree.Room) := by
  induction d generalizing s s' with
  | zero =>
    have hbody : (Tree.node t).body = .leaf t.map := rfl
    rw [Tree.way]
    rw [Tree.remove] at h
    cases hget : t.map.get key with
    | none =>
      rw [hget] at h
      cases h
      rw [delOutlook_absent hbody hget]
      exact ⟨rfl, rfl, fun _ ht => ht⟩
    | some was =>
      rw [hget] at h
      cases h
      rw [delOutlook_entry hbody hget, pageWritten_node]
      exact ⟨rfl, rfl, fun _ ht => ⟨(Body.size_del t.map key).trans ht.1, Tree.room_leaf _⟩⟩
  | succ d ih =>
    obtain ⟨ck, child, below, sb, hroute, hbelow, hr⟩ := Tree.remove_branch h
    obtain ⟨htold, hspace, hroom⟩ := ih hbelow
    obtain ⟨hroutePage, hway⟩ := Tree.way_branch hroute
    rw [hway, delOutlook_branch (show (Tree.node t).body = .branch (t.map.map TreeNode.page) from rfl)
      hroutePage]
    cases hgone : below.gone with
    | true =>
      rw [hgone, if_pos rfl] at hr
      obtain ⟨hoTold, hoSpace, hoRoom⟩ := Tree.removeChild_outlook t ck htold hspace hgone
      obtain rfl : r = (Tree.removeChild sb t ck below).1 := congrArg Prod.fst hr
      obtain rfl : s' = (Tree.removeChild sb t ck below).2 := congrArg Prod.snd hr
      rw [Tree.removeChild_gone]
      refine ⟨hoTold, hoSpace, fun hroomy ht => ?_⟩
      obtain ⟨hlow, hkeeps⟩ := hoRoom hroomy
      exact hkeeps ht fun _ => hroom hlow (ht.2 ck child (dkvRoute_get hroute))
    | false =>
      rw [hgone, if_neg Bool.false_ne_true] at hr
      obtain ⟨rfl, rfl⟩ := Prod.mk.inj hr
      unfold childOutlook
      rw [htold, hgone, if_neg Bool.false_ne_true]
      exact ⟨rfl, hspace, fun _ ht => ht⟩

end

section

variable [KvKey K] {d : Nat}

def Root.Room : Root K → Prop
  | none => True
  | some t => t.2.Room

def Root.way (root : Root K) (key : K) : List (Node K) :=
  match root with
  | none => []
  | some t => t.2.way key

theorem nodeSize_le {ls : List Nat} {n : Nat} (h : ∀ l ∈ ls, l ≤ n) :
    nodeSize ls ≤ 8 + ls.length * (n + 1) := by
  have hsum : ls.sum ≤ ls.length * n := List.sum_le_card_nsmul ls n h
  rw [nodeSize, Nat.mul_succ]
  omega

theorem branch_room {map : OrdMap K Nat} (hkeys : ∀ k p, map.get k = some p → KeyFits k)
    (hlen : map.len ≤ 2) : nodeSize (Body.branch map).lengths ≤ nodeRoom := by
  have hpair : ∀ l ∈ (Body.branch map).lengths, l ≤ 1023 := by
    intro l hl
    obtain ⟨e, he, rfl⟩ := List.mem_map.mp hl
    have hkey := hkeys e.1 e.2 (OrdMap.get_eq_some_iff.mpr he)
    exact ((hkey.pair (encodes_integer (BitVec.ofNat 64 e.2))).mono (by decide)).length_le
  have hsize := nodeSize_le hpair
  have hcount : (Body.branch map).lengths.length = map.len := by
    rw [Body.lengths, List.length_map, OrdMap.len]
  rw [hcount] at hsize
  have : 8 + map.len * (1023 + 1) ≤ 4072 := by omega
  exact hsize.trans this

theorem Tree.grow_room {P : K → Prop} (hP : ∀ k, P k → KeyFits k) {E : Entry → Prop} {s : Space}
    {t : Tree K d} {split : Option (K × Tree K d)} {root : Root K} (ht : t.Room) (hsplit : SplitRoom split)
    (hroot : root.Sound P E) (h : Tree.grow s (t, split) = some (root, s')) : root.Room := by
  cases split with
  | none =>
    cases h
    exact ht
  | some e =>
    obtain ⟨lk, hlk, h⟩ := Option.bind_eq_some_iff.mp h
    cases h
    have hnone : MapRoom (K := K) (d := d + 1) OrdMap.empty := nofun
    refine ⟨?_, (hnone.put lk ht).put e.1 (hsplit e rfl)⟩
    refine branch_room (fun k p hget => ?_) ?_
    · obtain ⟨c, hc, -⟩ := Option.map_eq_some_iff.mp ((OrdMap.get_map ..).symm.trans hget)
      exact hP k (hroot.2 k c hc).1
    · have hfirst := OrdMap.len_put_le (OrdMap.empty (K := K)) lk t
      have hsecond := OrdMap.len_put_le (OrdMap.empty.put lk t) e.1 e.2
      exact (OrdMap.len_map ..).trans_le (hsecond.trans (Nat.succ_le_succ hfirst))

theorem Tree.single_room {key : K} (hkey : KeyFits key) {x : Entry} (hx : EntryFits x) :
    nodeSize (Body.leaf (OrdMap.empty.put key x)).lengths ≤ nodeRoom := by
  have hpair : unoLength (pairUno entryUno (key, x)) ≤ 3003 := (Encodes.pair hkey hx).length_le
  show 8 + (unoLength (pairUno entryUno (key, x)) + 0) + (1 - 1) ≤ 4072
  omega

theorem splitOutlook_fits {s : Space} {page : Nat} {body : Body K}
    (h : nodeSize body.lengths ≤ nodeRoom) : (splitOutlook s page body).room = true := by
  unfold splitOutlook
  split
  · rw [if_pos h]
  · rfl

theorem Root.put_room {P : K → Prop} {E : Entry → Prop} (hP : ∀ k, P k → KeyFits k)
    (hE : ∀ x, E x → EntryFits x) {s : Space} {root root' : Root K} {key : K} {x : Entry}
    (hkey : P key) (hx : E x) (hroot : root.Room) (hsound : root'.Sound P E)
    (h : Root.put s root key x = some (root', s'))
    (hroom : (putOutlook s (root.way key) key x).room = true) : root'.Room := by
  obtain ⟨⟨⟨t, split⟩, si⟩, hinsert, hgrow⟩ := Option.bind_eq_some_iff.mp h
  cases root with
  | none =>
    have hleaf : (putOutlook (Root.plant s (none : Root K)).2
        (Tree.way (Root.plant s (none : Root K)).1.2 key) key x).room = true :=
      splitOutlook_fits (Tree.single_room (hP key hkey) (hE x hx))
    obtain ⟨-, -, hrooms⟩ := Tree.insert_outlook hinsert
    obtain ⟨ht, hsplit⟩ := hrooms hleaf (Tree.room_leaf _)
    exact Tree.grow_room hP ht hsplit hsound hgrow
  | some t₀ =>
    obtain ⟨-, -, hrooms⟩ := Tree.insert_outlook hinsert
    obtain ⟨ht, hsplit⟩ := hrooms hroom hroot.2
    exact Tree.grow_room hP ht hsplit hsound hgrow

theorem Tree.shrink_room {s : Space} {t : Tree K d} {root : Root K} (ht : t.Room)
    (h : Tree.shrink s t = some (root, s')) : root.Room := by
  induction d generalizing s with
  | zero =>
    cases h
    exact ht
  | succ d ih =>
    rw [Tree.shrink] at h
    split_ifs at h
    · cases h
      exact ht
    · obtain ⟨k, hk, h⟩ := Option.bind_eq_some_iff.mp h
      obtain ⟨child, hget, h⟩ := Option.bind_eq_some_iff.mp h
      exact ih (ht.2 k child hget) h

theorem Root.del_room {s : Space} {root root' : Root K} {key : K} {gone : Bool}
    (hroot : root.Room) (h : Root.del s root key = some ((gone, root'), s'))
    (hroom : (delOutlook s (root.way key) key).room = true) : root'.Room := by
  cases root with
  | none =>
    cases h
    trivial
  | some t =>
    obtain ⟨⟨r, sr⟩, hremove, h⟩ := Option.bind_eq_some_iff.mp h
    obtain ⟨-, -, hrooms⟩ := Tree.remove_outlook hremove
    have hleft := hrooms hroom hroot
    dsimp only at h
    split_ifs at h
    · cases h
      trivial
    · obtain ⟨⟨shrunk, ss⟩, hshrink, h⟩ := Option.bind_eq_some_iff.mp h
      cases h
      exact Tree.shrink_room hleft hshrink

end

end Ussr.Kv
