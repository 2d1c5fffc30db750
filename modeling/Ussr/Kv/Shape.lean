import Ussr.Kv.Ledger

/-! Trees without empty nodes whose keys and entries have short texts. Every
operation keeps them so, and none of them fails. -/

namespace Ussr.Kv
open Uno Real64

/-- The value has a text of at most `n` bytes. -/
def Encodes (value : UnoValue) (n : Nat) : Prop :=
  ∃ text, unoEncodeValue value = some text ∧ text.length ≤ n

theorem unoEncodeItems_cons {first : Bool} {item : UnoValue} {items : List UnoValue}
    {text rest : List UInt8} (h : unoEncodeValue item = some text)
    (hrest : unoEncodeItems false items = some rest) :
    unoEncodeItems first (item :: items) = some (comma first ++ (text ++ rest)) := by
  rw [unoEncodeItems, h, Option.bind_eq_bind, Option.bind_some, hrest]
  rfl

theorem encode_vector {items : List UnoValue} {text : List UInt8}
    (h : unoEncodeItems true items = some text) :
    unoEncodeValue (.vector items) = some (byte '[' :: (text ++ [byte ']'])) := by
  rw [unoEncodeValue, h]
  rfl

theorem unoEncodeItems_some {items : List UnoValue} (h : ∀ v ∈ items, ∃ n, Encodes v n) :
    ∀ first, ∃ text, unoEncodeItems first items = some text := by
  induction items with
  | nil => exact fun _ => ⟨[], rfl⟩
  | cons item items ih =>
    intro first
    obtain ⟨n, text, htext, -⟩ := h item List.mem_cons_self
    obtain ⟨rest, hrest⟩ := ih (fun v hv => h v (List.mem_cons_of_mem _ hv)) false
    exact ⟨_, unoEncodeItems_cons htext hrest⟩

theorem Encodes.pair {a b : UnoValue} {m n : Nat} (ha : Encodes a m) (hb : Encodes b n) :
    Encodes (.vector [a, b]) (m + n + 3) := by
  obtain ⟨s, hs, hsl⟩ := ha
  obtain ⟨t, ht, htl⟩ := hb
  refine ⟨_, encode_vector (unoEncodeItems_cons hs (unoEncodeItems_cons ht rfl)), ?_⟩
  simp [comma]
  omega

theorem Encodes.vector {items : List UnoValue} (h : ∀ v ∈ items, ∃ n, Encodes v n) :
    ∃ n, Encodes (.vector items) n := by
  obtain ⟨text, htext⟩ := unoEncodeItems_some h true
  exact ⟨_, _, encode_vector htext, Nat.le_refl _⟩

theorem Encodes.single {a : UnoValue} {n : Nat} (h : Encodes a n) :
    Encodes (.vector [a]) (n + 2) := by
  obtain ⟨text, htext, hle⟩ := h
  refine ⟨_, encode_vector (unoEncodeItems_cons htext rfl), ?_⟩
  simp [comma]
  omega

theorem Encodes.mono {a : UnoValue} {m n : Nat} (h : Encodes a m) (hle : m ≤ n) : Encodes a n :=
  h.imp fun _ ht => ⟨ht.1, ht.2.trans hle⟩

theorem encodes_string {s : CString} (h : unoStringOk s = true) :
    Encodes (.string s) (s.bytes.length + 2) := by
  refine ⟨_, by rw [unoEncodeValue, if_pos h], ?_⟩
  simp

theorem encodes_integer (n : BitVec 64) : Encodes (.integer n) 20 := by
  have hlow := n.le_two_mul_toInt
  have hhigh := n.two_mul_toInt_lt
  have hle : (Decimal.decimal n.toInt.natAbs).length ≤ 19 :=
    Decimal.decimal_length_le (by omega) (by decide)
  refine ⟨formatInt n, rfl, ?_⟩
  unfold formatInt
  split_ifs
  · simp only [List.length_cons]
    omega
  · omega

def EntryFits (x : Entry) : Prop := Encodes (entryUno x) 2000

theorem dkvClean_string {s : CString} {max : Nat} (h : dkvClean s max = true) :
    s.bytes.length ≤ max ∧ unoStringOk s = true := by
  simp only [dkvClean, Bool.and_eq_true, decide_eq_true_eq, List.all_eq_true] at h
  obtain ⟨hlen, hbytes⟩ := h
  refine ⟨hlen, ?_⟩
  have hquote : byte '`' ∉ s.bytes := fun hin => by simpa [byte] using hbytes _ hin
  have hline : byte '\n' ∉ s.bytes := fun hin => by simpa [byte] using hbytes _ hin
  rw [unoStringOk, decide_eq_true hquote, decide_eq_true hline]
  rfl

theorem entryFits_run (isUno : Bool) (p n : Nat) : EntryFits (.run isUno p n) := by
  have hkind : Encodes (.string (CString.lit (if isUno then "u" else "s"))) 3 := by
    cases isUno <;> exact ⟨_, rfl, by decide⟩
  obtain ⟨kind, hkind, hkl⟩ := hkind
  obtain ⟨pt, hp, hpl⟩ := encodes_integer (BitVec.ofNat 64 p)
  obtain ⟨nt, hn, hnl⟩ := encodes_integer (BitVec.ofNat 64 n)
  refine ⟨_, encode_vector (unoEncodeItems_cons hkind (unoEncodeItems_cons hp
    (unoEncodeItems_cons hn rfl))), ?_⟩
  simp [comma]
  omega

theorem entryFits_inline {value : UnoValue} (h : Encodes value 1000) : EntryFits (.inline value) := by
  have hkind : Encodes (.string (CString.lit "=")) 3 := ⟨_, rfl, by decide⟩
  exact (hkind.pair h).mono (by decide)

theorem dkvValueIn_fits {s s' : Space} {value : UnoValue} {x : Entry}
    (h : dkvValueIn s value = some (x, s')) : EntryFits x := by
  have hbig : ∀ isUno text, dkvBigValue s isUno text = (x, s') → EntryFits x := by
    rintro isUno text hrun
    cases hrun
    exact entryFits_run ..
  unfold dkvValueIn at h
  split at h
  · split_ifs at h with hclean
    · cases h
      obtain ⟨hlen, hok⟩ := dkvClean_string hclean
      exact entryFits_inline ((encodes_string hok).mono (by omega))
    · exact hbig _ _ (Option.some.inj h)
  · obtain ⟨text, htext, h⟩ := Option.bind_eq_some_iff.mp h
    split_ifs at h with hlong
    · exact hbig _ _ (Option.some.inj h)
    · cases h
      exact entryFits_inline ⟨text, htext, not_lt.mp hlong⟩

section

variable {K : Type} [LinearOrder K] [KvKey K] {d : Nat}

def KeyFits (k : K) : Prop := Encodes (KvKey.toUno k) 1000

omit [KvKey K] in
def ItemFits : {d : Nat} → Item K d → Prop
  | 0, x => EntryFits x
  | _ + 1, _ => True

def itemUno : {d : Nat} → Item K d → UnoValue
  | 0, x => entryUno x
  | _ + 1, t => pageUno t.page

def bodyKind (d : Nat) : CString :=
  CString.lit (if d = 0 then "L" else "B")

theorem bodyUno_mapBody (map : OrdMap K (Item K d)) : bodyUno (mapBody map) =
    .vector [.string (bodyKind d), .vector (map.entries.map (pairUno itemUno))] := by
  cases d with
  | zero => rfl
  | succ d =>
    simp only [mapBody, bodyUno, OrdMap.map, List.map_map]
    rfl

omit [KvKey K] in
theorem itemUno_encodes {x : Item K d} (h : ItemFits x) : Encodes (itemUno x) 2000 := by
  cases d with
  | zero => exact h
  | succ d => exact (encodes_integer _).mono (by decide)

theorem dkvNodeText_some {map : OrdMap K (Item K d)}
    (h : ∀ k c, map.get k = some c → KeyFits k ∧ ItemFits c) :
    ∃ text, dkvNodeText (mapBody map) = some text ∧
      (nodeRoom < text.length → 2 ≤ map.keys.length) := by
  have hkind : Encodes (.string (bodyKind d)) 3 := by
    unfold bodyKind
    split_ifs <;> exact ⟨_, rfl, by decide⟩
  have hpair : ∀ e ∈ map.entries, Encodes (pairUno itemUno e) 3003 := by
    intro e he
    obtain ⟨hk, hc⟩ := h e.1 e.2 (OrdMap.get_eq_some_iff.mpr he)
    exact (Encodes.pair hk (itemUno_encodes hc)).mono (by decide)
  have hshort : ∀ {pairs : List UnoValue} {n : Nat}, Encodes (.vector pairs) n → n ≤ 4000 →
      ∃ text, unoEncodeValue (.vector [.string (bodyKind d), .vector pairs]) = some text ∧
        text.length ≤ nodeRoom := by
    intro pairs n hpairs hn
    obtain ⟨text, htext, hle⟩ := hkind.pair hpairs
    exact ⟨text, htext, hle.trans (show 3 + n + 3 ≤ 4072 by omega)⟩
  simp only [dkvNodeText, ussrUnoEncode, bodyUno_mapBody]
  match hentries : map.entries, hpair with
  | [], _ =>
    obtain ⟨text, htext, hle⟩ := @hshort [] _ ⟨_, rfl, Nat.le_refl _⟩ (by decide)
    exact ⟨text, htext, fun hlt => absurd hle (not_le.mpr hlt)⟩
  | [e], hpair =>
    obtain ⟨text, htext, hle⟩ := hshort (hpair e List.mem_cons_self).single (by decide)
    exact ⟨text, htext, fun hlt => absurd hle (not_le.mpr hlt)⟩
  | a :: b :: es, hpair =>
    have hall : ∀ v ∈ (a :: b :: es).map (pairUno itemUno), ∃ n, Encodes v n := by
      intro v hv
      obtain ⟨e, he, rfl⟩ := List.mem_map.mp hv
      exact ⟨_, hpair e he⟩
    obtain ⟨n, hpairs⟩ := Encodes.vector hall
    obtain ⟨text, htext, -⟩ := hkind.pair hpairs
    exact ⟨text, htext, fun _ => by simp [OrdMap.keys, hentries]⟩

end

section

variable {K : Type} [LinearOrder K] {P : K → Prop} {E : Entry → Prop} {d : Nat}

/-- No node is empty; the keys satisfy `P` and the entries `E`. -/
def ItemSound (P : K → Prop) (E : Entry → Prop) : {d : Nat} → Item K d → Prop
  | 0, x => E x
  | _ + 1, t => t.map.entries ≠ [] ∧ ∀ k c, t.map.get k = some c → P k ∧ ItemSound P E c

def MapSound (P : K → Prop) (E : Entry → Prop) {d : Nat} (map : OrdMap K (Item K d)) : Prop :=
  ∀ k c, map.get k = some c → P k ∧ ItemSound P E c

def Tree.Sound (P : K → Prop) (E : Entry → Prop) {d : Nat} (t : Tree K d) : Prop :=
  t.map.entries ≠ [] ∧ MapSound P E t.map

def SplitSound (P : K → Prop) (E : Entry → Prop) {d : Nat} (split : Option (K × Tree K d)) : Prop :=
  ∀ e, split = some e → P e.1 ∧ Tree.Sound P E e.2

theorem MapSound.take {map : OrdMap K (Item K d)} (h : MapSound P E map) (n : Nat) :
    MapSound P E (map.take n) :=
  fun k c hget => h k c (OrdMap.get_of_take hget)

theorem MapSound.drop {map : OrdMap K (Item K d)} (h : MapSound P E map) (n : Nat) :
    MapSound P E (map.drop n) :=
  fun k c hget => h k c (OrdMap.get_of_drop hget)

theorem MapSound.put {map : OrdMap K (Item K d)} (h : MapSound P E map) {k : K} {c : Item K d}
    (hk : P k) (hc : ItemSound P E c) : MapSound P E (map.put k c) := by
  intro q w hget
  rcases OrdMap.get_put_cases hget with ⟨rfl, rfl⟩ | ⟨-, hget⟩
  · exact ⟨hk, hc⟩
  · exact h q w hget

theorem MapSound.del {map : OrdMap K (Item K d)} (h : MapSound P E map) (k : K) :
    MapSound P E (map.del k) := by
  intro q w hget
  rw [OrdMap.get_del] at hget
  split_ifs at hget
  exact h q w hget

theorem MapSound.putChild {map : OrdMap K (Item K (d + 1))} (h : MapSound P E map) {ck : K}
    (hck : P ck) {child : Tree K d} (hchild : child.Sound P E) {split : Option (K × Tree K d)}
    (hsplit : SplitSound P E split) : MapSound P E (Kv.putChild map ck child split) := by
  cases split with
  | none => exact h.put hck hchild
  | some e => exact (h.put hck hchild).put (hsplit e rfl).1 (hsplit e rfl).2

theorem entries_put_ne_nil {V : Type} (m : OrdMap K V) (k : K) (v : V) :
    (m.put k v).entries ≠ [] := by
  intro hnil
  have hmem := OrdMap.get_eq_some_iff.mp (OrdMap.get_put_self m k v)
  rw [hnil] at hmem
  cases hmem

theorem putChild_ne_nil {V : Type} (m : OrdMap K V) (ck : K) (child : V)
    (split : Option (K × V)) : (putChild m ck child split).entries ≠ [] := by
  cases split with
  | none => exact entries_put_ne_nil m ck child
  | some e => exact entries_put_ne_nil (m.put ck child) e.1 e.2

theorem dkvRoute_some {V : Type} {m : OrdMap K V} (h : m.entries ≠ []) (key : K) :
    ∃ ck child, dkvRoute m key = some (ck, child) := by
  have hkey : ∃ k v, (m.floor key).or m.first = some k ∧ m.get k = some v := by
    cases hfloor : m.floor key with
    | some k =>
      obtain ⟨v, as, bs, hentries, -⟩ := OrdMap.floor_eq_some_iff.mp hfloor
      exact ⟨k, v, rfl, OrdMap.get_eq_some_iff.mpr (by simp [hentries])⟩
    | none =>
      obtain ⟨e, es, hentries⟩ := List.exists_cons_of_ne_nil h
      exact ⟨e.1, e.2, OrdMap.first_of_cons hentries,
        OrdMap.get_eq_some_iff.mpr (by simp [hentries])⟩
  obtain ⟨k, v, hk, hv⟩ := hkey
  exact ⟨k, v, by rw [dkvRoute, hk, Option.bind_eq_bind, Option.bind_some, hv]; rfl⟩

variable [KvKey K] (hP : ∀ k, P k → KeyFits k) (hE : ∀ x, E x → EntryFits x)

include hE in
omit [KvKey K] in
theorem ItemSound.fits {x : Item K d} (h : ItemSound P E x) : ItemFits x := by
  cases d with
  | zero => exact hE x h
  | succ d => trivial

include hP hE

theorem Tree.fit_sound {t : Tree K d} (h : t.Sound P E) (s : Space) :
    ∃ t' split s', Tree.fit s t = some ((t', split), s') ∧ t'.Sound P E ∧ SplitSound P E split := by
  obtain ⟨hne, hmap⟩ := h
  obtain ⟨text, htext, htwo⟩ := dkvNodeText_some fun k c hget =>
    ⟨hP k (hmap k c hget).1, (hmap k c hget).2.fits hE⟩
  by_cases hfits : text.length ≤ nodeRoom
  · refine ⟨t, none, s, Tree.fit_fits htext hfits s, ⟨hne, hmap⟩, ?_⟩
    rintro e he
    cases he
  · have hlen := htwo (not_le.mp hfits)
    have hentries : t.map.keys.length = t.map.entries.length := by simp [OrdMap.keys]
    have hhalf : 0 < t.half ∧ t.half < t.map.entries.length := by
      unfold TreeNode.half
      omega
    obtain ⟨sep, hsep⟩ : ∃ sep, t.map.keys[t.half]? = some sep :=
      ⟨_, List.getElem?_eq_getElem (hentries ▸ hhalf.2)⟩
    refine ⟨_, _, _, Tree.fit_splits htext (not_le.mp hfits) hsep s, ⟨?_, hmap.take t.half⟩, ?_⟩
    · exact List.ne_nil_of_length_pos (by simp [OrdMap.take]; omega)
    · rintro e he
      cases he
      refine ⟨?_, ?_, hmap.drop t.half⟩
      · obtain ⟨v, hv⟩ := OrdMap.mem_keys.mp (List.mem_of_getElem? hsep)
        exact (hmap sep v hv).1
      · exact List.ne_nil_of_length_pos (by simp [OrdMap.drop]; omega)

theorem Tree.insert_sound {t : Tree K d} (hne : d ≠ 0 → t.map.entries ≠ [])
    (hmap : MapSound P E t.map) {key : K} {x : Entry} (hkey : P key) (hx : E x) (s : Space) :
    ∃ t' split s', Tree.insert s t key x = some ((t', split), s') ∧ t'.Sound P E ∧
      SplitSound P E split := by
  induction d generalizing s with
  | zero =>
    rw [Tree.insert]
    exact Tree.fit_sound hP hE (t := { (t.writable s).1 with map := t.map.put key x })
      ⟨entries_put_ne_nil _ _ _, hmap.put hkey hx⟩ _
  | succ d ih =>
    obtain ⟨ck, child, hroute⟩ := dkvRoute_some (hne (Nat.succ_ne_zero d)) key
    obtain ⟨hck, hchild⟩ := hmap ck child (dkvRoute_get hroute)
    obtain ⟨child', below, sb, hbelow, hchild', hsplit⟩ :=
      ih (t := child) (fun _ => hchild.1) hchild.2 (t.writable s).2
    obtain ⟨t', split, s', hfit, ht', hsplit'⟩ := Tree.fit_sound hP hE
      (t := { (t.writable s).1 with map := putChild t.map ck child' below })
      ⟨putChild_ne_nil _ _ _ _, hmap.putChild hck hchild' hsplit⟩ sb
    refine ⟨t', split, s', ?_, ht', hsplit'⟩
    rw [Tree.insert, hroute, Option.bind_eq_bind, Option.bind_some]
    dsimp only
    rw [hbelow]
    exact hfit

end

section

variable {K : Type} [LinearOrder K] {P : K → Prop} {E : Entry → Prop} {d : Nat}

structure Remains.Sound (P : K → Prop) (E : Entry → Prop) (r : Remains K d) : Prop where
  left : r.empty = false → r.tree.Sound P E
  empty : r.empty = true → r.gone = true ∧ r.tree.map.entries = []

theorem Tree.removed_sound {t : Tree K d} {map : OrdMap K (Item K d)} (hmap : MapSound P E map) :
    (Tree.removed t map).Sound P E where
  left hleft := by
    refine ⟨fun hnil => ?_, hmap⟩
    have hlen : map.len = 0 := by rw [OrdMap.len, show map.entries = [] from hnil]; rfl
    simp [Tree.removed, hlen] at hleft
  empty hempty := ⟨rfl, List.length_eq_zero_iff.mp (of_decide_eq_true hempty)⟩

theorem Tree.removeChild_sound {t : Tree K (d + 1)} (ht : MapSound P E t.map) {ck : K} (hck : P ck)
    {below : Remains K d} (hbelow : below.Sound P E) (s : Space) :
    (Tree.removeChild s t ck below).1.Sound P E := by
  cases hempty : below.empty with
  | true =>
    rw [Tree.removeChild_empty hempty]
    exact Tree.removed_sound (ht.del ck)
  | false =>
    rw [Tree.removeChild_left hempty]
    exact Tree.removed_sound (ht.put hck (hbelow.left hempty))

theorem Tree.remove_sound {t : Tree K d} (ht : t.Sound P E) (s : Space) (key : K) :
    ∃ r s', Tree.remove s t key = some (r, s') ∧ r.Sound P E := by
  have habsent : Remains.Sound P E ⟨t, false, false⟩ :=
    ⟨fun _ => ht, fun h => absurd h Bool.false_ne_true⟩
  induction d generalizing s with
  | zero =>
    rw [Tree.remove]
    cases hget : t.map.get key with
    | none => exact ⟨_, _, rfl, habsent⟩
    | some was => exact ⟨_, _, rfl, Tree.removed_sound (ht.2.del key)⟩
  | succ d ih =>
    obtain ⟨ck, child, hroute⟩ := dkvRoute_some ht.1 key
    obtain ⟨hck, hchild⟩ := ht.2 ck child (dkvRoute_get hroute)
    obtain ⟨below, sb, hbelow, hsound⟩ := ih hchild s ⟨fun _ => hchild, fun h => absurd h Bool.false_ne_true⟩
    rw [Tree.remove, hroute, Option.bind_eq_bind, Option.bind_some]
    dsimp only
    rw [hbelow, Option.bind_eq_bind, Option.bind_some]
    dsimp only
    split_ifs with hgone
    · exact ⟨(Tree.removeChild sb t ck below).1, (Tree.removeChild sb t ck below).2, rfl,
        Tree.removeChild_sound ht.2 hck hsound sb⟩
    · exact ⟨_, _, rfl, habsent⟩

end

section

variable {K : Type} [LinearOrder K] {P : K → Prop} {E : Entry → Prop} {d : Nat}

def Root.Sound (P : K → Prop) (E : Entry → Prop) : Root K → Prop
  | none => True
  | some t => t.2.Sound P E

theorem Tree.grow_sound {t : Tree K d} (ht : t.Sound P E) {split : Option (K × Tree K d)}
    (hsplit : SplitSound P E split) (s : Space) :
    ∃ root s', Tree.grow s (t, split) = some (root, s') ∧ root.Sound P E := by
  cases split with
  | none => exact ⟨_, _, rfl, ht⟩
  | some e =>
    obtain ⟨sep, right⟩ := e
    obtain ⟨a, as, hentries⟩ := List.exists_cons_of_ne_nil ht.1
    have hfirst := OrdMap.first_of_cons hentries
    have hkey : P a.1 := (ht.2 a.1 a.2 (OrdMap.get_eq_some_iff.mpr (by simp [hentries]))).1
    obtain ⟨hsep, hright⟩ := hsplit _ rfl
    have hnone : MapSound P E (d := d + 1) OrdMap.empty := nofun
    let top : Tree K (d + 1) :=
      ⟨(dkvNewPage s).1, true, (OrdMap.empty.put a.1 t).put sep right⟩
    have htop : top.Sound P E := ⟨entries_put_ne_nil _ _ _, (hnone.put hkey ht).put hsep hright⟩
    exact ⟨some ⟨d + 1, top⟩, (dkvNewPage s).2, by rw [Tree.grow, hfirst]; rfl, htop⟩

theorem Tree.shrink_sound {t : Tree K d} (ht : t.Sound P E) (s : Space) :
    ∃ root s', Tree.shrink s t = some (root, s') ∧ root.Sound P E := by
  induction d generalizing s with
  | zero => exact ⟨_, _, rfl, ht⟩
  | succ d ih =>
    rw [Tree.shrink]
    split_ifs with hlen
    · exact ⟨_, _, rfl, ht⟩
    · obtain ⟨a, as, hentries⟩ := List.exists_cons_of_ne_nil ht.1
      have hget : t.map.get a.1 = some a.2 := OrdMap.get_eq_some_iff.mpr (by simp [hentries])
      rw [OrdMap.first_of_cons hentries, Option.bind_eq_bind, Option.bind_some, hget,
        Option.bind_eq_bind, Option.bind_some]
      exact ih (ht.2 a.1 a.2 hget).2 _

variable [KvKey K]

theorem Root.put_sound (hP : ∀ k, P k → KeyFits k) (hE : ∀ x, E x → EntryFits x) {root : Root K}
    (h : root.Sound P E) {key : K} {x : Entry} (hkey : P key) (hx : E x) (s : Space) :
    ∃ root' s', Root.put s root key x = some (root', s') ∧ root'.Sound P E := by
  have hplant : ((root.plant s).1.1 ≠ 0 → (root.plant s).1.2.map.entries ≠ []) ∧
      MapSound P E (root.plant s).1.2.map := by
    cases root with
    | none => exact ⟨fun hd => absurd rfl hd, nofun⟩
    | some t => exact ⟨fun _ => h.1, h.2⟩
  obtain ⟨t, split, si, hinsert, ht, hsplit⟩ :=
    Tree.insert_sound hP hE hplant.1 hplant.2 hkey hx (root.plant s).2
  obtain ⟨root', s', hgrow, hroot⟩ := Tree.grow_sound ht hsplit si
  refine ⟨root', s', ?_, hroot⟩
  rw [Root.put, hinsert]
  exact hgrow

end

end Ussr.Kv
