import Ussr.Kv.Shape

/-! Trees in key order: a child has the keys from its separator up to the next one.
Where no key goes before all separators of a branch, the operations act on
the entries as on an ordered list. -/

namespace Ussr.Kv
open SortedEntries

variable {K : Type} [LinearOrder K] {V W : Type} {d : Nat}
variable {x : Item K d} {s s' : Space}
variable {ck key : K} {map : OrdMap K (Item K d)} {t : Tree K d} {child : Item K (d + 1)} {m : OrdMap K V}
  {as bs : List (K × Item K (d + 1))}

/-- The leaf entries below, where `k` is the key above. -/
def itemEntries : {d : Nat} → K → Item K d → List (K × Entry)
  | 0, k, x => [(k, x)]
  | _ + 1, _, t => t.map.entries.flatMap fun e => itemEntries e.1 e.2

def mapEntries (es : List (K × Item K d)) : List (K × Entry) :=
  es.flatMap fun e => itemEntries e.1 e.2

def Tree.entries (t : Tree K d) : List (K × Entry) :=
  mapEntries t.map.entries

theorem mapEntries_append (as bs : List (K × Item K d)) :
    mapEntries (as ++ bs) = mapEntries as ++ mapEntries bs :=
  List.flatMap_append ..

theorem mapEntries_cons (e : K × Item K d) (es : List (K × Item K d)) :
    mapEntries (e :: es) = itemEntries e.1 e.2 ++ mapEntries es := rfl

theorem mapEntries_around {k : K}
    {as bs : List (K × Item K d)} (h : map.entries = as ++ (k, x) :: bs) :
    mapEntries map.entries = mapEntries as ++ (itemEntries k x ++ mapEntries bs) := by
  rw [h, mapEntries_append, mapEntries_cons]

theorem mapEntries_leaf (es : List (K × Item K 0)) : mapEntries es = es :=
  List.flatMap_singleton' es

theorem mem_mapEntries {es : List (K × Item K d)} {x : K × Entry} :
    x ∈ mapEntries es ↔ ∃ e ∈ es, x ∈ itemEntries e.1 e.2 :=
  List.mem_flatMap

/-- The keys that belong to the child at `k`. -/
def Region (R : K → Prop) (map : OrdMap K V) (k q : K) : Prop :=
  k ≤ q ∧ (∀ e ∈ map.entries, k < e.1 → q < e.1) ∧ R q

/-- All keys satisfy `R`, and every child has those of its region. -/
def ItemOrdered (R : K → Prop) : {d : Nat} → Item K d → Prop
  | 0, _ => True
  | _ + 1, t => ∀ e ∈ t.map.entries, R e.1 ∧ ItemOrdered (Region R t.map e.1) e.2

def MapOrdered (R : K → Prop) (map : OrdMap K (Item K d)) : Prop :=
  ∀ e ∈ map.entries, R e.1 ∧ ItemOrdered (Region R map e.1) e.2

abbrev Tree.Ordered (R : K → Prop) (t : Tree K d) : Prop := MapOrdered R t.map

theorem ItemOrdered.mono {R R' : K → Prop} (h : ∀ q, R q → R' q)
    (hx : ItemOrdered R x) : ItemOrdered R' x := by
  induction d generalizing R R' with
  | zero => trivial
  | succ d ih =>
    intro e he
    obtain ⟨hkey, hbelow⟩ := hx e he
    exact ⟨h _ hkey, ih (fun q hq => ⟨hq.1, hq.2.1, h q hq.2.2⟩) hbelow⟩

theorem ItemOrdered.entries {R : K → Prop} (hx : ItemOrdered R x) {k : K}
    (hk : R k) : ∀ e ∈ itemEntries k x, R e.1 := by
  induction d generalizing R k with
  | zero =>
    intro e he
    obtain rfl := List.mem_singleton.mp he
    exact hk
  | succ d ih =>
    intro e he
    obtain ⟨c, hc, he⟩ := mem_mapEntries.mp he
    obtain ⟨hkey, hbelow⟩ := hx c hc
    have hself : Region R x.map c.1 c.1 := ⟨le_refl _, fun _ _ h => h, hkey⟩
    exact (ih hbelow hself e he).2.2

theorem MapOrdered.region {R : K → Prop} (h : MapOrdered R map)
    {c : K × Item K d} (hc : c ∈ map.entries) : ∀ e ∈ itemEntries c.1 c.2, Region R map c.1 e.1 :=
  (h c hc).2.entries ⟨le_refl _, fun _ _ hlt => hlt, (h c hc).1⟩

theorem MapOrdered.around {R : K → Prop} (h : MapOrdered R map) {c : Item K d} {as bs : List (K × Item K d)}
    (hentries : map.entries = as ++ (ck, c) :: bs) :
    (∀ e ∈ mapEntries as, e.1 < ck) ∧ ∀ e ∈ mapEntries bs, ∃ b ∈ bs, b.1 ≤ e.1 := by
  have haround := OrdMap.around_of_entries hentries
  constructor
  · intro e he
    obtain ⟨a, ha, he⟩ := mem_mapEntries.mp he
    have hregion := h.region (by simp [hentries, ha]) e he
    exact hregion.2.1 (ck, c) (by simp [hentries]) (haround.before a ha)
  · intro e he
    obtain ⟨b, hb, he⟩ := mem_mapEntries.mp he
    exact ⟨b, hb, (h.region (by simp [hentries, hb]) e he).1⟩

theorem sorted_mapEntries {R : K → Prop} (h : MapOrdered R map) :
    Sorted (mapEntries map.entries) := by
  induction d generalizing R with
  | zero => exact (mapEntries_leaf map.entries).symm ▸ map.sorted
  | succ d ih =>
    have hsome : ∀ es, (∃ as, map.entries = as ++ es) → Sorted (mapEntries es) := by
      intro es
      induction es with
      | nil => exact fun _ => List.Pairwise.nil
      | cons e es ihes =>
        rintro ⟨as, hentries⟩
        have htail := ihes ⟨as ++ [e], by simp [hentries]⟩
        have he : e ∈ map.entries := by simp [hentries]
        have hhead : Sorted (itemEntries e.1 e.2) := ih (h e he).2
        refine hhead.append htail fun a ha b hb => ?_
        obtain ⟨c, hc, hcb⟩ := (h.around hentries).2 b hb
        have hlt := (OrdMap.around_of_entries hentries).behind c hc
        exact lt_of_lt_of_le ((h.region he a ha).2.1 c (by simp [hentries, hc]) hlt) hcb
    exact hsome _ ⟨[], rfl⟩

section

variable {R : K → Prop}

def splitEntries : Option (K × Tree K d) → List (K × Entry)
  | none => []
  | some (_, r) => r.entries

def HalvesOrdered (R : K → Prop) (t : Tree K d) : Option (K × Tree K d) → Prop
  | none => t.Ordered R
  | some (sep, r) =>
    R sep ∧ t.Ordered (fun q => R q ∧ q < sep) ∧ r.Ordered fun q => R q ∧ sep ≤ q

theorem OrdMap.entries_at {n : Nat} {sep : K} (h : m.keys[n]? = some sep) :
    ∃ v, m.entries = m.entries.take n ++ (sep, v) :: m.entries.drop (n + 1) ∧
      m.entries.drop n = (sep, v) :: m.entries.drop (n + 1) := by
  rw [OrdMap.keys, List.getElem?_map] at h
  obtain ⟨⟨k, v⟩, hentry, rfl⟩ := Option.map_eq_some_iff.mp h
  obtain ⟨hlt, hget⟩ := List.getElem?_eq_some_iff.mp hentry
  have hdrop := List.drop_eq_getElem_cons hlt
  rw [hget] at hdrop
  exact ⟨v, by rw [← hdrop, List.take_append_drop], hdrop⟩

theorem MapOrdered.split (h : MapOrdered R map) {n : Nat} {sep : K}
    (hsep : map.keys[n]? = some sep) :
    R sep ∧ MapOrdered (fun q => R q ∧ q < sep) (map.take n) ∧
      MapOrdered (fun q => R q ∧ sep ≤ q) (map.drop n) := by
  obtain ⟨v, hentries, hdrop⟩ := OrdMap.entries_at hsep
  have haround := OrdMap.around_of_entries hentries
  have hmem : (sep, v) ∈ map.entries := by
    rw [hentries]
    simp
  refine ⟨(h _ hmem).1, fun e he => ?_, fun e he => ?_⟩
  · have hin : e ∈ map.entries := List.mem_of_mem_take he
    have hlt : e.1 < sep := haround.before e he
    refine ⟨⟨(h e hin).1, hlt⟩, (h e hin).2.mono fun q hq => ?_⟩
    exact ⟨hq.1, fun c hc => hq.2.1 c (List.mem_of_mem_take hc), hq.2.2, hq.2.1 _ hmem hlt⟩
  · have hin : e ∈ map.entries := List.mem_of_mem_drop he
    have hle : sep ≤ e.1 := by
      rw [show (map.drop n).entries = _ from hdrop] at he
      rcases List.mem_cons.mp he with rfl | he
      · exact le_refl _
      · exact (haround.behind e he).le
    refine ⟨⟨(h e hin).1, hle⟩, (h e hin).2.mono fun q hq => ?_⟩
    exact ⟨hq.1, fun c hc => hq.2.1 c (List.mem_of_mem_drop hc), hq.2.2, hle.trans hq.1⟩

theorem Tree.fit_ordered [KvKey K] {t' : Tree K d} {split : Option (K × Tree K d)} (h : Tree.fit s t = some ((t', split), s')) (ht : t.Ordered R) :
    t'.entries ++ splitEntries split = t.entries ∧ HalvesOrdered R t' split := by
  obtain ⟨text, -, ⟨-, hr⟩ | ⟨sep, -, hsep, hr⟩⟩ := Tree.fit_cases h
  · cases hr
    exact ⟨List.append_nil _, ht⟩
  · cases hr
    refine ⟨?_, MapOrdered.split ht hsep⟩
    rw [splitEntries, Tree.entries, Tree.entries, Tree.entries, ← mapEntries_append]
    exact congrArg mapEntries (List.take_append_drop ..)

def splitItems : Option (K × Tree K d) → List (K × Item K (d + 1))
  | none => []
  | some e => [e]

theorem splitItems_entries (split : Option (K × Tree K d)) :
    mapEntries (splitItems split) = splitEntries split := by
  cases split with
  | none => rfl
  | some e => exact List.append_nil _

theorem putChild_entries {map : OrdMap K (Item K (d + 1))} {child' : Item K (d + 1)} (hentries : map.entries = as ++ (ck, child) :: bs)
    (hne : OrdMap.entries (TreeNode.map (V := Item K d) child') ≠ [])
    {split : Option (K × Tree K d)}
    (hhalves : HalvesOrdered (d := d) (Region R map ck) child' split) :
    OrdMap.entries (putChild map ck child' split) =
      as ++ (ck, child') :: (splitItems split ++ bs) := by
  have hput := OrdMap.put_of_entries hentries child'
  cases split with
  | none => exact hput
  | some e =>
    obtain ⟨sep, right⟩ := e
    obtain ⟨⟨-, hnext, -⟩, hleft, -⟩ := hhalves
    have haround := OrdMap.around_of_entries hentries
    have hsep : ck < sep := by
      obtain ⟨c, es, hchild⟩ := List.exists_cons_of_ne_nil hne
      obtain ⟨⟨hck, -⟩, hlt⟩ := (hleft c (hchild ▸ List.mem_cons_self)).1
      exact lt_of_le_of_lt hck hlt
    have hassoc : (map.put ck child').entries = (as ++ [(ck, child')]) ++ bs := by
      rw [hput, List.append_assoc]
      rfl
    have hsides : OrdMap.Around sep (as ++ [(ck, child')]) bs := by
      refine ⟨fun a ha => ?_, fun b hb => hnext b (by simp [hentries, hb]) (haround.behind b hb)⟩
      rcases List.mem_append.mp ha with ha | ha
      · exact (haround.before a ha).trans hsep
      · obtain rfl := List.mem_singleton.mp ha
        exact hsep
    have hboth := OrdMap.put_of_around hassoc hsides right
    rw [List.append_assoc] at hboth
    exact hboth

theorem MapOrdered.putChild {map : OrdMap K (Item K (d + 1))} (h : MapOrdered R map)
    {child' : Item K (d + 1)}
    (hentries : map.entries = as ++ (ck, child) :: bs)
    (hne : OrdMap.entries (TreeNode.map (V := Item K d) child') ≠ [])
    {split : Option (K × Tree K d)}
    (hhalves : HalvesOrdered (d := d) (Region R map ck) child' split) :
    MapOrdered R (Kv.putChild map ck child' split) := by
  have hplaces := putChild_entries hentries hne hhalves
  have haround := OrdMap.around_of_entries hentries
  have hck := (h (ck, child) (by simp [hentries])).1
  have has : ∀ e ∈ as, e ∈ map.entries := fun e he => by simp [hentries, he]
  have hbs : ∀ e ∈ bs, e ∈ map.entries := fun e he => by simp [hentries, he]
  -- the keys of the new map are those of the old one and the separator
  have hregion : ∀ {k q : K}, Region R map k q → (∀ e ∈ splitItems split, k < e.1 → q < e.1) →
      Region R (Kv.putChild map ck child' split) k q := by
    intro k q hq hsep
    refine ⟨hq.1, fun e he => ?_, hq.2.2⟩
    rw [hplaces] at he
    simp only [List.mem_append, List.mem_cons] at he
    rcases he with he | rfl | he | he
    · exact hq.2.1 e (has e he)
    · exact hq.2.1 (ck, child) (by simp [hentries])
    · exact hsep e he
    · exact hq.2.1 e (hbs e he)
  intro e he
  rw [hplaces] at he
  cases split with
  | none =>
    simp only [splitItems, List.nil_append, List.mem_append, List.mem_cons] at he
    rcases he with he | rfl | he
    · exact ⟨(h e (has e he)).1, (h e (has e he)).2.mono fun q hq => hregion hq nofun⟩
    · exact ⟨hck, ItemOrdered.mono (fun q hq => hregion hq nofun) hhalves⟩
    · exact ⟨(h e (hbs e he)).1, (h e (hbs e he)).2.mono fun q hq => hregion hq nofun⟩
  | some sr =>
    obtain ⟨sep, right⟩ := sr
    obtain ⟨⟨hle, hnext, hsep⟩, hleft, hright⟩ := hhalves
    have hleft : ItemOrdered (d := d + 1) (fun q => Region R map ck q ∧ q < sep) child' := hleft
    have hright : ItemOrdered (d := d + 1) (fun q => Region R map ck q ∧ sep ≤ q) right := hright
    have honly : ∀ {k q : K}, (k < sep → q < sep) →
        ∀ e ∈ splitItems (some (sep, right)), k < e.1 → q < e.1 := by
      intro k q hkq e he
      obtain rfl := List.mem_singleton.mp he
      exact hkq
    simp only [splitItems, List.mem_append, List.mem_cons] at he
    rcases he with he | rfl | hs | he
    · refine ⟨(h e (has e he)).1, (h e (has e he)).2.mono fun q hq => hregion hq (honly fun _ => ?_)⟩
      exact (hq.2.1 (ck, child) (by simp [hentries]) (haround.before e he)).trans_le hle
    · exact ⟨hck, hleft.mono fun q hq => hregion hq.1 (honly fun _ => hq.2)⟩
    · obtain rfl := List.mem_singleton.mp hs
      refine ⟨hsep, hright.mono fun q hq => hregion ⟨hq.2, ?_, hq.1.2.2⟩ (honly ?_)⟩
      · exact fun c hc hlt => hq.1.2.1 c hc (hle.trans_lt hlt)
      · exact fun hlt => absurd hlt (lt_irrefl _)
    · have hlt : sep < e.1 := hnext e (hbs e he) (haround.behind e he)
      exact ⟨(h e (hbs e he)).1, (h e (hbs e he)).2.mono fun q hq =>
        hregion hq (honly fun hback => absurd (hback.trans hlt) (lt_irrefl _))⟩

end

section

variable {R : K → Prop}

def Tree.Clear (key : K) : {d : Nat} → Tree K d → Prop
  | 0, _ => True
  | d + 1, t => ∃ ck child, t.map.floor key = some ck ∧ t.map.get ck = some child ∧
      Tree.Clear key (d := d) child

theorem dkvRoute_floor {child : V} (hfloor : m.floor key = some ck)
    (hget : m.get ck = some child) : dkvRoute m key = some (ck, child) := by
  simp [dkvRoute, hfloor, hget]

theorem region_of_floor {child : V}
    (hfloor : m.floor key = some ck) (hget : m.get ck = some child) (hkey : R key) :
    ∃ as bs, m.entries = as ++ (ck, child) :: bs ∧ (∀ b ∈ bs, key < b.1) ∧ Region R m ck key := by
  obtain ⟨v, as, bs, hentries, hle, hbs⟩ := OrdMap.floor_eq_some_iff.mp hfloor
  have hv : m.get ck = some v := OrdMap.get_eq_some_iff.mpr (by simp [hentries])
  obtain rfl : child = v := by
    rw [hv] at hget
    exact (Option.some.inj hget).symm
  refine ⟨as, bs, hentries, hbs, hle, fun e he hlt => ?_, hkey⟩
  rw [hentries, List.mem_append, List.mem_cons] at he
  rcases he with he | rfl | he
  · exact absurd (hlt.trans ((OrdMap.around_of_entries hentries).before e he)) (lt_irrefl _)
  · exact absurd hlt (lt_irrefl _)
  · exact hbs e he

theorem MapOrdered.put_below {map : OrdMap K (Item K (d + 1))} (h : MapOrdered R map) (x : Entry)
    (hentries : map.entries = as ++ (ck, child) :: bs) (hle : ck ≤ key)
    (hbs : ∀ b ∈ bs, key < b.1) : put key x (mapEntries map.entries) =
      mapEntries as ++ (put key x (itemEntries ck child) ++ mapEntries bs) := by
  obtain ⟨hbefore, hbehind⟩ := h.around hentries
  rw [mapEntries_around hentries, put_append_left x _ fun e he => (hbefore e he).trans_le hle]
  refine congrArg (mapEntries as ++ ·) (put_append_right x _ fun e he => ?_)
  obtain ⟨b, hb, hlt⟩ := hbehind e he
  exact (hbs b hb).trans_le hlt

variable [KvKey K] {P : K → Prop} {E : Entry → Prop}

theorem Tree.insert_ordered (hP : ∀ k, P k → KeyFits k) (hE : ∀ x, E x → EntryFits x)
    {t' : Tree K d} (hne : d ≠ 0 → t.map.entries ≠ []) (hmap : MapSound P E t.map)
    (ht : t.Ordered R) {x : Entry} (hkey : P key) (hx : E x) (hin : R key)
    (hclear : t.Clear key) {split : Option (K × Tree K d)}
    (h : Tree.insert s t key x = some ((t', split), s')) :
    t'.entries ++ splitEntries split = put key x t.entries ∧ HalvesOrdered R t' split := by
  induction d generalizing R s s' with
  | zero =>
    rw [Tree.insert] at h
    obtain ⟨hentries, hhalves⟩ := Tree.fit_ordered (R := R) h fun e he => by
      refine ⟨?_, trivial⟩
      rcases (mem_put t.map.sorted).mp he with ⟨hek, -⟩ | ⟨-, he⟩
      · exact hek ▸ hin
      · exact (ht e he).1
    refine ⟨hentries.trans ?_, hhalves⟩
    rw [Tree.entries, Tree.entries, mapEntries_leaf, mapEntries_leaf]
    rfl
  | succ d ih =>
    obtain ⟨ck, child, hfloor, hget, hbelow⟩ := hclear
    obtain ⟨as, bs, hentries, hbs, hregion⟩ := region_of_floor hfloor hget hin
    obtain ⟨hck, hchild⟩ := hmap ck child hget
    have hordered := (ht (ck, child) (by simp [hentries])).2
    rw [Tree.insert, dkvRoute_floor hfloor hget, Option.bind_eq_bind, Option.bind_some] at h
    obtain ⟨⟨⟨child', below⟩, sb⟩, hinsert, h⟩ := Option.bind_eq_some_iff.mp h
    obtain ⟨_, _, _, hsame, hsound, -⟩ := Tree.insert_sound hP hE (t := child)
      (fun _ => hchild.1) hchild.2 hkey hx (t.writable s).2
    rw [hinsert] at hsame
    cases hsame
    obtain ⟨hput, hhalves⟩ := ih (t := child) (fun _ => hchild.1) hchild.2 hordered hregion
      hbelow hinsert
    obtain ⟨hnew, hhalves'⟩ := Tree.fit_ordered h (ht.putChild hentries hsound.1 hhalves)
    refine ⟨hnew.trans ?_, hhalves'⟩
    refine Eq.trans ?_ (ht.put_below x hentries hregion.1 hbs).symm
    rw [Tree.entries, mapEntries_around (putChild_entries hentries hsound.1 hhalves),
      mapEntries_append, splitItems_entries]
    refine congrArg (mapEntries as ++ ·) ((List.append_assoc ..).symm.trans ?_)
    exact congrArg (· ++ mapEntries bs) hput

end

section

variable {R : K → Prop}

def Tree.find : {d : Nat} → Tree K d → K → Option Entry
  | 0, t, key => t.map.get key
  | d + 1, t, key => do
    let (_, child) ← dkvRoute t.map key
    Tree.find (d := d) child key

theorem dkvRoute_cases {child : V}
    (h : dkvRoute m key = some (ck, child)) :
    (ck ≤ key ∧ ∀ e ∈ m.entries, ck < e.1 → key < e.1) ∨ ∀ e ∈ m.entries, key < e.1 := by
  have hget := dkvRoute_get h
  obtain ⟨k, hk, h⟩ := Option.bind_eq_some_iff.mp h
  obtain ⟨v, -, h⟩ := Option.bind_eq_some_iff.mp h
  cases h
  cases hfloor : m.floor key with
  | none => exact Or.inr (OrdMap.floor_eq_none_iff.mp hfloor)
  | some q =>
    rw [hfloor] at hk
    cases hk
    obtain ⟨-, -, -, -, hle, hnext, -⟩ := region_of_floor (R := fun _ => True) hfloor hget trivial
    exact Or.inl ⟨hle, hnext⟩

theorem MapOrdered.route_apart {map : OrdMap K (Item K (d + 1))} (h : MapOrdered R map) (hroute : dkvRoute map key = some (ck, child)) :
    ∃ as bs, map.entries = as ++ (ck, child) :: bs ∧ key ∉ (mapEntries as).map Prod.fst ∧
      key ∉ (mapEntries bs).map Prod.fst := by
  obtain ⟨as, bs, hentries, haround⟩ := OrdMap.entries_of_get (dkvRoute_get hroute)
  obtain ⟨hbefore, hbehind⟩ := h.around hentries
  have hbs : ∀ b ∈ bs, key < b.1 := by
    intro b hb
    have hb' : b ∈ map.entries := by simp [hentries, hb]
    rcases dkvRoute_cases hroute with ⟨-, hnext⟩ | hall
    · exact hnext b hb' (haround.behind b hb)
    · exact hall b hb'
  refine ⟨as, bs, hentries, fun hin => ?_, fun hin => ?_⟩
  · obtain ⟨e, he, rfl⟩ := List.mem_map.mp hin
    rcases dkvRoute_cases hroute with ⟨hle, -⟩ | hall
    · exact absurd ((hbefore e he).trans_le hle) (lt_irrefl _)
    · obtain ⟨a, ha, he⟩ := mem_mapEntries.mp he
      have ha' : a ∈ map.entries := by simp [hentries, ha]
      exact absurd ((hall a ha').trans_le (h.region ha' e he).1) (lt_irrefl _)
  · obtain ⟨e, he, rfl⟩ := List.mem_map.mp hin
    obtain ⟨b, hb, hle⟩ := hbehind e he
    exact absurd ((hbs b hb).trans_le hle) (lt_irrefl _)

theorem Tree.find_eq_some_iff {P : K → Prop} {E : Entry → Prop}
    (hsound : t.Sound P E) (ht : t.Ordered R) {x : Entry} :
    t.find key = some x ↔ (key, x) ∈ t.entries := by
  induction d generalizing R with
  | zero =>
    rw [Tree.find, Tree.entries, mapEntries_leaf]
    exact OrdMap.get_eq_some_iff
  | succ d ih =>
    obtain ⟨ck, child, hroute⟩ := dkvRoute_some hsound.1 key
    obtain ⟨as, bs, hentries, has, hbs⟩ := ht.route_apart hroute
    have hchild := hsound.2 ck child (dkvRoute_get hroute)
    have hordered := (ht (ck, child) (by simp [hentries])).2
    have hkid := ih (t := child) hchild.2 hordered
    rw [Tree.find, hroute, Option.bind_eq_bind, Option.bind_some]
    have hall : t.entries = mapEntries as ++ (Tree.entries (d := d) child ++ mapEntries bs) :=
      mapEntries_around hentries
    have hout : ∀ {es : List (K × Entry)}, key ∉ es.map Prod.fst → (key, x) ∉ es :=
      fun hes hmem => hes (List.mem_map_of_mem hmem)
    simp only [hall, List.mem_append, hout has, hout hbs, or_false, false_or]
    exact hkid

end

section

variable {R : K → Prop} {P : K → Prop} {E : Entry → Prop}

theorem MapOrdered.del (h : MapOrdered R map) (k : K) :
    MapOrdered R (map.del k) := by
  have hsub : ∀ e ∈ (map.del k).entries, e ∈ map.entries := fun e he => (mem_erase.mp he).2
  intro e he
  obtain ⟨hkey, hbelow⟩ := h e (hsub e he)
  exact ⟨hkey, hbelow.mono fun q hq => ⟨hq.1, fun c hc => hq.2.1 c (hsub c hc), hq.2.2⟩⟩

theorem Tree.removeChild_ordered {t : Tree K (d + 1)} (ht : t.Ordered R)
    (hentries : t.map.entries = as ++ (ck, child) :: bs) {below : Remains K d}
    (hbelow : below.Sound P E) (hleft : below.tree.Ordered (Region R t.map ck)) (s : Space) :
    (Tree.removeChild s t ck below).1.tree.entries =
        mapEntries as ++ (below.tree.entries ++ mapEntries bs) ∧
      (Tree.removeChild s t ck below).1.tree.Ordered R := by
  cases hempty : below.empty with
  | true =>
    have hnil : below.tree.entries = [] := by
      rw [Tree.entries, (hbelow.empty hempty).2]
      rfl
    rw [Tree.removeChild_empty hempty, hnil, List.nil_append, ← mapEntries_append]
    exact ⟨congrArg mapEntries (OrdMap.del_of_entries hentries), ht.del ck⟩
  | false =>
    have hput := OrdMap.put_of_entries hentries below.tree
    have hhalves : HalvesOrdered (Region R t.map ck) below.tree none := hleft
    rw [Tree.removeChild_left hempty]
    exact ⟨mapEntries_around hput, ht.putChild hentries (hbelow.left hempty).1 hhalves⟩

theorem Tree.remove_ordered (hsound : t.Sound P E) (ht : t.Ordered R) {r : Remains K d} (h : Tree.remove s t key = some (r, s')) :
    r.tree.entries = erase key t.entries ∧ r.tree.Ordered R ∧
      (r.gone = true ↔ key ∈ t.entries.map Prod.fst) := by
  induction d generalizing R s s' with
  | zero =>
    rw [Tree.remove] at h
    rw [Tree.entries, Tree.entries, mapEntries_leaf, mapEntries_leaf]
    cases hget : t.map.get key with
    | none =>
      rw [hget] at h
      cases h
      have hout : key ∉ t.map.entries.map Prod.fst := by
        intro hin
        obtain ⟨e, he, hek⟩ := List.mem_map.mp hin
        exact OrdMap.get_eq_none_iff.mp hget e he hek
      exact ⟨(erase_of_notMem hout).symm, ht, iff_of_false Bool.false_ne_true hout⟩
    | some was =>
      rw [hget] at h
      cases h
      refine ⟨rfl, ht.del key, iff_of_true rfl ?_⟩
      exact List.mem_map_of_mem (f := Prod.fst) (OrdMap.get_eq_some_iff.mp hget)
  | succ d ih =>
    obtain ⟨ck, child, below, sb, hroute, hbelow, hr⟩ := Tree.remove_branch h
    obtain ⟨as, bs, hentries, has, hbs⟩ := ht.route_apart hroute
    have hchild := (hsound.2 ck child (dkvRoute_get hroute)).2
    have hordered := (ht (ck, child) (by simp [hentries])).2
    obtain ⟨herase, hleft, hgone⟩ := ih (t := child) hchild hordered hbelow
    have hall : t.entries = mapEntries as ++ (Tree.entries (d := d) child ++ mapEntries bs) :=
      mapEntries_around hentries
    have hkey : key ∈ t.entries.map Prod.fst ↔ key ∈ (Tree.entries (d := d) child).map Prod.fst := by
      simp only [hall, List.map_append, List.mem_append, has, hbs, or_false, false_or]
    split_ifs at hr with hg
    · have hrgone : r.gone = true := by
        rw [show r = (Tree.removeChild sb t ck below).1 from congrArg Prod.fst hr]
        exact Tree.removeChild_gone sb t ck below
      obtain ⟨_, _, hsame, hsoundb⟩ := Tree.remove_sound (t := child) hchild s key
      rw [hbelow] at hsame
      cases hsame
      have hparts := Tree.removeChild_ordered ht hentries hsoundb hleft sb
      rw [show Tree.removeChild sb t ck below = (r, s') from hr.symm] at hparts
      refine ⟨hparts.1.trans ?_, hparts.2, iff_of_true hrgone (hkey.mpr (hgone.mp hg))⟩
      rw [hall, erase_append, erase_append, erase_of_notMem has, erase_of_notMem hbs, herase]
    · have hout : key ∉ t.entries.map Prod.fst := fun hin => hg (hgone.mpr (hkey.mp hin))
      cases hr
      exact ⟨(erase_of_notMem hout).symm, ht, iff_of_false Bool.false_ne_true hout⟩

end

section

variable {R : K → Prop} {P : K → Prop} {E : Entry → Prop} (lo hi : Option K)

def Tree.range : {d : Nat} → Tree K d → List (K × Entry)
  | 0, t => t.map.range lo hi
  | d + 1, t =>
    (t.map.range (lo.bind t.map.floor) hi).flatMap fun e => Tree.range (d := d) e.2

/-- `lo ≤ key < hi`; an absent bound is open. -/
def within (e : K × V) : Bool :=
  lo.all (fun lo => lo ≤ e.1) && hi.all (fun hi => e.1 < hi)

theorem within_iff {e : K × V} :
    within lo hi e = true ↔ (∀ k ∈ lo, k ≤ e.1) ∧ ∀ k ∈ hi, e.1 < k := by
  simp [within, Option.all_eq_true]

theorem flatMap_filter_of {l : List V} {q : V → Bool} {f g : V → List W}
    (hin : ∀ v ∈ l, q v = true → f v = g v) (hout : ∀ v ∈ l, q v = false → g v = []) :
    (l.filter q).flatMap f = l.flatMap g := by
  induction l with
  | nil => rfl
  | cons v l ih =>
    have hrest := ih (fun w hw => hin w (List.mem_cons_of_mem v hw))
      fun w hw => hout w (List.mem_cons_of_mem v hw)
    cases hq : q v with
    | true =>
      rw [List.filter_cons_of_pos hq, List.flatMap_cons, List.flatMap_cons, hrest,
        hin v List.mem_cons_self hq]
    | false =>
      rw [List.filter_cons_of_neg (by simp [hq]), List.flatMap_cons, hrest,
        hout v List.mem_cons_self hq, List.nil_append]

theorem MapOrdered.pruned {map : OrdMap K (Item K (d + 1))} (h : MapOrdered R map)
    {c : K × Item K (d + 1)} (hc : c ∈ map.entries) (hout : within (lo.bind map.floor) hi c = false) :
    (itemEntries c.1 c.2).filter (within lo hi) = [] := by
  rw [List.filter_eq_nil_iff]
  intro e he hin
  obtain ⟨hle, hnext, -⟩ := h.region hc e he
  obtain ⟨hlo, hhi⟩ := (within_iff lo hi).mp hin
  refine Bool.eq_false_iff.mp hout ((within_iff _ hi).mpr ⟨fun k hk => ?_, fun k hk => ?_⟩)
  · obtain ⟨l, hl, hfloor⟩ := Option.bind_eq_some_iff.mp hk
    obtain ⟨v, as, bs, hentries, hkl, -⟩ := OrdMap.floor_eq_some_iff.mp hfloor
    refine not_lt.mp fun hlt => ?_
    have hek := hnext (k, v) (by simp [hentries]) hlt
    exact absurd ((hek.trans_le hkl).trans_le (hlo l hl)) (lt_irrefl _)
  · exact hle.trans_lt (hhi k hk)

theorem Tree.range_eq (ht : t.Ordered R) :
    t.range lo hi = t.entries.filter (within lo hi) := by
  induction d generalizing R with
  | zero =>
    rw [Tree.entries, mapEntries_leaf]
    rfl
  | succ d ih =>
    rw [Tree.entries, mapEntries, List.filter_flatMap]
    exact flatMap_filter_of (fun c hc _ => ih (t := c.2) (ht c hc).2)
      fun c hc hout => ht.pruned lo hi hc hout

end

end Ussr.Kv
