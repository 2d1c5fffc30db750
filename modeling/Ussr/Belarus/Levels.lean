import Ussr.Belarus.BlockMap
import Ussr.Library.Rows

/-! The map of an inode, level by level. A level is the row of its nodes with their
separators, and the entries of an internal level are the row of the level below. -/

namespace Ussr.Belarus
open SortedEntries Rows

section

def Fs.entries (fs : Fs) (b : Nat) : List (Nat × Nat) :=
  match fs.nodes b with
  | some node => node.map.entries
  | none => []

def Fs.next (fs : Fs) (b : Nat) : Nat :=
  match fs.nodes b with
  | some node => node.next
  | none => 0

/-- Block `b` has a node of that kind in memory, which knows its block. -/
def Fs.Has (fs : Fs) (kind : NodeKind) (b : Nat) : Prop := ∃ node, fs.nodes b = some node ∧ node.kind = kind ∧ node.block = b

def Linked (fs : Fs) : List (Nat × Nat) → Prop
  | [] => True
  | p :: ps => fs.next p.2 = (ps.head?.map Prod.snd).getD 0 ∧ Linked fs ps

/-- The nodes of the row `ps` are the tops of trees of depth `d`: with the blocks of these, and the
entries of their leaves. An internal node starts with its own separator. -/
inductive Stands (fs : Fs) : List (Nat × Nat) → (d : Nat) → (blocks : List Nat) → (content : List (Nat × Nat)) → Prop where
  | leaves {ps : List (Nat × Nat)} : (∀ p ∈ ps, fs.Has .L p.2) → Ranged fs.entries ps → Linked fs ps →
    Stands fs ps 0 (ps.map Prod.snd) (line fs.entries ps)
  | inner {ps : List (Nat × Nat)} {d : Nat} {blocks : List Nat} {content : List (Nat × Nat)} :
    (∀ p ∈ ps, fs.Has .I p.2 ∧ ∃ c es, fs.entries p.2 = (p.1, c) :: es) → Ranged fs.entries ps →
    Stands fs (line fs.entries ps) d blocks content → Stands fs ps (d + 1) (ps.map Prod.snd ++ blocks) content

/-- The nodes that hold the place of `idx`, from the row `ps` down. -/
inductive Route (fs : Fs) (idx : Nat) : List (Nat × Nat) → (path : List Nat) → Prop where
  | nil (ps : List (Nat × Nat)) : Route fs idx ps []
  | cons {ps : List (Nat × Nat)} {s b : Nat} {path : List Nat} : rank idx ps = some (s, b) →
    Route fs idx (line fs.entries ps) path → Route fs idx ps (b :: path)

variable {fs fs' : Fs} {ps : List (Nat × Nat)} {d idx b : Nat} {blocks : List Nat} {content : List (Nat × Nat)}
variable {node : Node} {sep : Nat}

theorem entries_congr (h : fs'.nodes b = fs.nodes b) : fs'.entries b = fs.entries b := by
  rw [Fs.entries, h, Fs.entries]

theorem next_congr (h : fs'.nodes b = fs.nodes b) : fs'.next b = fs.next b := by
  rw [Fs.next, h, Fs.next]

theorem Fs.entries_of_node (h : fs.nodes b = some node) : fs.entries b = node.map.entries := by
  rw [Fs.entries, h]

theorem Fs.next_of_node (h : fs.nodes b = some node) : fs.next b = node.next := by
  rw [Fs.next, h]

theorem entries_sorted (fs : Fs) (b : Nat) : Sorted (fs.entries b) := by
  unfold Fs.entries
  split
  · exact OrdMap.sorted _
  · exact List.Pairwise.nil

theorem Fs.Has.congr {kind : NodeKind} (h : fs.Has kind b) (hsame : fs'.nodes b = fs.nodes b) : fs'.Has kind b := by
  obtain ⟨node, hnode, hkind⟩ := h
  exact ⟨node, hsame.trans hnode, hkind⟩

theorem Linked.congr (h : Linked fs ps) (hsame : ∀ p ∈ ps, fs'.next p.2 = fs.next p.2) : Linked fs' ps := by
  induction ps with
  | nil => trivial
  | cons p ps ih =>
    exact ⟨(hsame p List.mem_cons_self).trans h.1, ih h.2 fun q hq => hsame q (List.mem_cons_of_mem _ hq)⟩

theorem Stands.tops (h : Stands fs ps d blocks content) : ∀ p ∈ ps, p.2 ∈ blocks := by
  intro p hp
  cases h with
  | leaves => exact List.mem_map_of_mem hp
  | inner => exact List.mem_append_left _ (List.mem_map_of_mem hp)

theorem Stands.ranged (h : Stands fs ps d blocks content) : Ranged fs.entries ps := by
  cases h <;> assumption

theorem Stands.congr (h : Stands fs ps d blocks content) (hsame : ∀ b ∈ blocks, fs'.nodes b = fs.nodes b) :
    Stands fs' ps d blocks content := by
  induction h with
  | @leaves ps hhas hranged hlinked =>
    have htop : ∀ p ∈ ps, fs'.nodes p.2 = fs.nodes p.2 := fun p hp => hsame _ (List.mem_map_of_mem hp)
    rw [← line_congr fun p hp => entries_congr (htop p hp)]
    exact .leaves (fun p hp => (hhas p hp).congr (htop p hp)) (hranged.congr fun p hp => entries_congr (htop p hp))
      (hlinked.congr fun p hp => next_congr (htop p hp))
  | @inner ps d blocks content hhas hranged _ ih =>
    have htop : ∀ p ∈ ps, fs'.nodes p.2 = fs.nodes p.2 := fun p hp =>
      hsame _ (List.mem_append_left _ (List.mem_map_of_mem hp))
    refine .inner (fun p hp => ⟨(hhas p hp).1.congr (htop p hp), ?_⟩) (hranged.congr fun p hp => entries_congr (htop p hp)) ?_
    · rw [entries_congr (htop p hp)]
      exact (hhas p hp).2
    · rw [line_congr fun p hp => entries_congr (htop p hp)]
      exact ih fun b hb => hsame b (List.mem_append_right _ hb)

/-- A route splits what stands into the levels above its rest and the levels from there on; the levels
above stay as they are when those below change. -/
theorem Stands.descend {pre rest : List Nat} (h : Stands fs ps d blocks content) (hroute : Route fs idx ps (pre ++ rest))
    (hlength : pre.length ≤ d) : ∃ upper qs lower d', blocks = upper ++ lower ∧ d = pre.length + d' ∧ (∀ b ∈ pre, b ∈ upper) ∧
      Stands fs qs d' lower content ∧ Route fs idx qs rest ∧
      ∀ (fs' : Fs) (lower' : List Nat) (content' : List (Nat × Nat)), (∀ b ∈ upper, fs'.nodes b = fs.nodes b) →
        Stands fs' qs d' lower' content' → Stands fs' ps d (upper ++ lower') content' ∧
          ∀ rest', Route fs' idx qs rest' → Route fs' idx ps (pre ++ rest') := by
  induction pre generalizing ps d blocks with
  | nil =>
    refine ⟨[], ps, blocks, d, rfl, (Nat.zero_add d).symm, fun b hb => absurd hb List.not_mem_nil, h, hroute, ?_⟩
    exact fun fs' lower' content' _ hstands => ⟨hstands, fun _ hroute => hroute⟩
  | cons x pre ih =>
    cases h with
    | leaves => exact absurd hlength (Nat.not_succ_le_zero _)
    | @inner _ d blocks _ hhas hranged hstands =>
      rw [List.cons_append] at hroute
      cases hroute with
      | @cons _ s _ _ hrank hroute =>
        obtain ⟨upper, qs, lower, d', rfl, rfl, hpre, hlow, hrest, hback⟩ := ih hstands hroute (Nat.le_of_succ_le_succ hlength)
        obtain ⟨as, bs, hps, -, -⟩ := rank_split hrank
        have hx : x ∈ ps.map Prod.snd := by
          rw [hps]
          exact List.mem_map_of_mem (List.mem_append_right _ List.mem_cons_self)
        refine ⟨ps.map Prod.snd ++ upper, qs, lower, d', by rw [List.append_assoc], by rw [List.length_cons]; omega, ?_, hlow,
          hrest, fun fs' lower' content' hsame hlow' => ?_⟩
        · intro b hb
          rcases List.mem_cons.mp hb with rfl | hb
          · exact List.mem_append_left _ hx
          · exact List.mem_append_right _ (hpre b hb)
        · have htop : ∀ p ∈ ps, fs'.nodes p.2 = fs.nodes p.2 := fun p hp =>
            hsame _ (List.mem_append_left _ (List.mem_map_of_mem hp))
          have hline : line fs'.entries ps = line fs.entries ps := line_congr fun p hp => entries_congr (htop p hp)
          obtain ⟨hstands', hroute'⟩ := hback fs' lower' content' (fun b hb => hsame b (List.mem_append_right _ hb)) hlow'
          refine ⟨?_, fun rest' hrest' => .cons hrank (hline ▸ hroute' rest' hrest')⟩
          rw [List.append_assoc]
          refine .inner (fun p hp => ⟨(hhas p hp).1.congr (htop p hp), ?_⟩)
            (hranged.congr fun p hp => entries_congr (htop p hp)) (hline ▸ hstands')
          rw [entries_congr (htop p hp)]
          exact (hhas p hp).2

end

section

variable {fs fs' : Fs} {ps as bs : List (Nat × Nat)} {d idx s b : Nat} {blocks : List Nat} {content : List (Nat × Nat)}

theorem row_apart (h : ((as ++ (s, b) :: bs).map Prod.snd).Nodup) : (∀ p ∈ as, p.2 ≠ b) ∧ ∀ p ∈ bs, p.2 ≠ b := by
  rw [List.map_append, List.map_cons] at h
  obtain ⟨-, hright, hcross⟩ := List.nodup_append.mp h
  refine ⟨fun p hp => hcross _ (List.mem_map_of_mem hp) b List.mem_cons_self, fun p hp heq => ?_⟩
  have hin : p.2 ∈ bs.map Prod.snd := List.mem_map_of_mem hp
  exact (List.nodup_cons.mp hright).1 (heq ▸ hin)

theorem Stands.putLeaf (h : Stands fs ps 0 blocks content) (hnodup : blocks.Nodup) (hrank : rank idx ps = some (s, b))
    (lba : Nat) {leaf leaf' : Node} (hleaf : fs.nodes b = some leaf) (hleaf' : fs'.nodes b = some leaf')
    (hkind : leaf'.kind = leaf.kind) (hblock : leaf'.block = leaf.block) (hnext : leaf'.next = leaf.next)
    (hmap : leaf'.map = leaf.map.put idx lba) (hother : ∀ x ∈ blocks, x ≠ b → fs'.nodes x = fs.nodes x) :
    Stands fs' ps 0 blocks (put idx lba content) := by
  cases h with
  | leaves hhas hranged hlinked =>
    obtain ⟨as, bs, rfl, hs, hbs⟩ := rank_split hrank
    obtain ⟨hapart, hapart'⟩ := row_apart hnodup
    have hsame : ∀ p ∈ as, fs'.nodes p.2 = fs.nodes p.2 := fun p hp =>
      hother _ (List.mem_map_of_mem (List.mem_append_left _ hp)) (hapart p hp)
    have hsame' : ∀ p ∈ bs, fs'.nodes p.2 = fs.nodes p.2 := fun p hp =>
      hother _ (List.mem_map_of_mem (List.mem_append_right _ (List.mem_cons_of_mem _ hp))) (hapart' p hp)
    have hput : fs'.entries b = put idx lba (fs.entries b) := by
      rw [Fs.entries_of_node hleaf', Fs.entries_of_node hleaf, hmap, OrdMap.entries_put]
    obtain ⟨hranged', hline⟩ := hranged.put hs hbs lba hput (fun p hp => entries_congr (hsame p hp))
      fun p hp => entries_congr (hsame' p hp)
    rw [← hline]
    refine .leaves (fun p hp => ?_) hranged' (hlinked.congr fun p hp => ?_)
    · rcases List.mem_append.mp hp with hp' | hp'
      · exact (hhas p hp).congr (hsame p hp')
      rcases List.mem_cons.mp hp' with rfl | hp'
      · obtain ⟨node, hnode, hL, hown⟩ := hhas _ hp
        cases hnode.symm.trans hleaf
        exact ⟨leaf', hleaf', hkind.trans hL, hblock.trans hown⟩
      · exact (hhas p hp).congr (hsame' p hp')
    · rcases List.mem_append.mp hp with hp' | hp'
      · exact next_congr (hsame p hp')
      rcases List.mem_cons.mp hp' with rfl | hp'
      · rw [Fs.next_of_node hleaf', Fs.next_of_node hleaf, hnext]
      · exact next_congr (hsame' p hp')

/-- `node` cut in two at the separator `sep`. -/
structure Splits (node left right : Node) (sep : Nat) : Prop where
  entries : left.map.entries ++ right.map.entries = node.map.entries
  nonempty : left.map.entries ≠ []
  first : ∃ c es, right.map.entries = (sep, c) :: es
  kind : left.kind = node.kind ∧ right.kind = node.kind
  block : left.block = node.block
  next : node.kind = .L → left.next = right.block ∧ right.next = node.next

theorem Linked.split {r : Nat} (h : Linked fs (as ++ (s, b) :: bs)) (hb : fs'.next b = r) (hr : fs'.next r = fs.next b)
    (has : ∀ p ∈ as, fs'.next p.2 = fs.next p.2) (hbs : ∀ p ∈ bs, fs'.next p.2 = fs.next p.2) :
    Linked fs' (as ++ (s, b) :: (sep, r) :: bs) := by
  induction as with
  | nil => exact ⟨hb, hr.trans h.1, Linked.congr h.2 hbs⟩
  | cons a as ih =>
    refine ⟨(has a List.mem_cons_self).trans (h.1.trans ?_), ih h.2 fun p hp => has p (List.mem_cons_of_mem _ hp)⟩
    cases as <;> rfl

theorem Stands.split (h : Stands fs (as ++ (s, b) :: bs) d blocks content) (hnodup : blocks.Nodup) {left right : Node} (hnode : fs.nodes b = some node) (hright : right.block ∉ blocks) (hsplits : Splits node left right sep)
    (hleft' : fs'.nodes b = some left) (hright' : fs'.nodes right.block = some right)
    (hother : ∀ x ∈ blocks, x ≠ b → fs'.nodes x = fs.nodes x) :
    ∃ blocks', Stands fs' (as ++ (s, b) :: (sep, right.block) :: bs) d blocks' content ∧ blocks'.Perm (right.block :: blocks) ∧
      s < sep ∧ ∀ q ∈ bs, sep < q.1 := by
  obtain ⟨c, es, hfirst⟩ := hsplits.first
  have hentries : fs'.entries b ++ fs'.entries right.block = fs.entries b := by
    rw [Fs.entries_of_node hleft', Fs.entries_of_node hright', Fs.entries_of_node hnode, hsplits.entries]
  have hne : fs'.entries b ≠ [] := by
    rw [Fs.entries_of_node hleft']
    exact hsplits.nonempty
  have hcons : fs'.entries right.block = (sep, c) :: es := by rw [Fs.entries_of_node hright', hfirst]
  have hsub : ∀ p ∈ as ++ (s, b) :: bs, p.2 ∈ blocks := h.tops
  have htops : ((as ++ (s, b) :: bs).map Prod.snd).Nodup := by
    cases h with
    | leaves => exact hnodup
    | inner => exact (List.nodup_append.mp hnodup).1
  obtain ⟨hapart, hapart'⟩ := row_apart htops
  have hsame : ∀ p ∈ as, fs'.nodes p.2 = fs.nodes p.2 := fun p hp =>
    hother _ (hsub p (List.mem_append_left _ hp)) (hapart p hp)
  have hsame' : ∀ p ∈ bs, fs'.nodes p.2 = fs.nodes p.2 := fun p hp =>
    hother _ (hsub p (List.mem_append_right _ (List.mem_cons_of_mem _ hp))) (hapart' p hp)
  obtain ⟨hranged, hline, hsep, hsep'⟩ := h.ranged.split (entries_sorted fs b) hentries hne hcons
    (fun p hp => entries_congr (hsame p hp)) fun p hp => entries_congr (hsame' p hp)
  have hperm : ((as ++ (s, b) :: (sep, right.block) :: bs).map Prod.snd).Perm
      (right.block :: (as ++ (s, b) :: bs).map Prod.snd) := by
    simp only [List.map_append, List.map_cons]
    exact (List.Perm.append_left _ (List.Perm.swap _ _ _)).trans List.perm_middle
  have hhas : ∀ kind, (∀ p ∈ as ++ (s, b) :: bs, fs.Has kind p.2) →
      ∀ p ∈ as ++ (s, b) :: (sep, right.block) :: bs, fs'.Has kind p.2 := by
    intro kind hhas p hp
    obtain ⟨node', hnode', hkind, hblock⟩ := hhas (s, b) (List.mem_append_right _ List.mem_cons_self)
    cases hnode'.symm.trans hnode
    rcases List.mem_append.mp hp with hp | hp
    · exact (hhas p (List.mem_append_left _ hp)).congr (hsame p hp)
    rcases List.mem_cons.mp hp with rfl | hp
    · exact ⟨left, hleft', hsplits.kind.1.trans hkind, hsplits.block.trans hblock⟩
    rcases List.mem_cons.mp hp with rfl | hp
    · exact ⟨right, hright', hsplits.kind.2.trans hkind, rfl⟩
    · exact (hhas p (List.mem_append_right _ (List.mem_cons_of_mem _ hp))).congr (hsame' p hp)
  cases h with
  | leaves hL _ hlinked =>
    refine ⟨_, hline ▸ .leaves (hhas .L hL) hranged ?_, hperm, hsep, hsep'⟩
    obtain ⟨node', hnode', hkind, -⟩ := hL (s, b) (List.mem_append_right _ List.mem_cons_self)
    cases hnode'.symm.trans hnode
    obtain ⟨hnext, hnext'⟩ := hsplits.next hkind
    refine hlinked.split ?_ ?_ (fun p hp => next_congr (hsame p hp)) fun p hp => next_congr (hsame' p hp)
    · rw [Fs.next_of_node hleft', hnext]
    · rw [Fs.next_of_node hright', Fs.next_of_node hnode, hnext']
  | @inner _ d low _ hI _ hstands =>
    obtain ⟨-, hlow, hcross⟩ := List.nodup_append.mp hnodup
    have hbmem : b ∈ (as ++ (s, b) :: bs).map Prod.snd := List.mem_map_of_mem (List.mem_append_right _ List.mem_cons_self)
    have hlow' : ∀ x ∈ low, fs'.nodes x = fs.nodes x := fun x hx =>
      hother x (List.mem_append_right _ hx) fun heq => hcross b hbmem x hx heq.symm
    refine ⟨_, .inner (fun p hp => ⟨hhas .I (fun p hp => (hI p hp).1) p hp, ?_⟩) hranged (hline ▸ hstands.congr hlow'),
      (hperm.append_right _), hsep, hsep'⟩
    rcases List.mem_append.mp hp with hp | hp
    · rw [entries_congr (hsame p hp)]
      exact (hI p (List.mem_append_left _ hp)).2
    rcases List.mem_cons.mp hp with rfl | hp
    · obtain ⟨c', es', hold⟩ := (hI (s, b) (List.mem_append_right _ List.mem_cons_self)).2
      rw [← hentries] at hold
      obtain ⟨e, rest, hleft⟩ := List.exists_cons_of_ne_nil hne
      rw [hleft, List.cons_append] at hold
      rw [hleft]
      exact ⟨c', rest, by rw [(List.cons.inj hold).1]⟩
    rcases List.mem_cons.mp hp with rfl | hp
    · exact ⟨c, es, hcons⟩
    · rw [entries_congr (hsame' p hp)]
      exact (hI p (List.mem_append_right _ (List.mem_cons_of_mem _ hp))).2

theorem Stands.splitUnder {p t : Nat} (h : Stands fs ps (d + 1) blocks content) (hnodup : blocks.Nodup)
    (hp : rank idx ps = some (s, p)) (hb : rank idx (line fs.entries ps) = some (t, b)) {left right parent parent' : Node} (hnode : fs.nodes b = some node) (hright : right.block ∉ blocks) (hsplits : Splits node left right sep)
    (hparent : fs.nodes p = some parent) (hleft' : fs'.nodes b = some left) (hright' : fs'.nodes right.block = some right)
    (hparent' : fs'.nodes p = some parent') (hkind : parent'.kind = parent.kind) (hblock : parent'.block = parent.block)
    (hmap : parent'.map = parent.map.put sep right.block)
    (hother : ∀ x ∈ blocks, x ≠ b → x ≠ p → fs'.nodes x = fs.nodes x) :
    ∃ blocks', Stands fs' ps (d + 1) blocks' content ∧ blocks'.Perm (right.block :: blocks) := by
  cases h with
  | @inner _ _ low _ hI hranged hstands =>
    obtain ⟨htops, hlow, hcross⟩ := List.nodup_append.mp hnodup
    obtain ⟨as, bs, rfl, hs, hbs⟩ := rank_split hp
    have hpmem : (s, p) ∈ as ++ (s, p) :: bs := List.mem_append_right _ List.mem_cons_self
    -- the parent's own entries decide about the place in the level below
    obtain ⟨c₀, es₀, hfirst⟩ := (hI _ hpmem).2
    have hown : ∃ e, rank idx (fs.entries p) = some e := by
      have hne : ((fs.entries p).filter fun e => e.1 ≤ idx) ≠ [] := by
        rw [hfirst, List.filter_cons, if_pos (by simpa using hs)]
        exact List.cons_ne_nil _ _
      exact ⟨_, List.getLast?_eq_some_getLast hne⟩
    obtain ⟨e, he⟩ := hown
    obtain rfl := Option.some.inj ((hranged.rank_line hbs he).symm.trans hb)
    obtain ⟨as₂, bs₂, hentries, ht, hbs₂⟩ := rank_split he
    have hrow : line fs.entries (as ++ (s, p) :: bs) =
        (line fs.entries as ++ as₂) ++ (t, b) :: (bs₂ ++ line fs.entries bs) := by
      rw [line_append, line_cons, hentries]
      simp only [List.append_assoc, List.cons_append]
    have hrightlow : right.block ∉ low := fun hin => hright (List.mem_append_right _ hin)
    have hpnotlow : ∀ x ∈ low, x ≠ p := fun x hx heq => hcross p (List.mem_map_of_mem hpmem) x hx heq.symm
    rw [hrow] at hstands
    have hblow : b ∈ low := hstands.tops (t, b) (List.mem_append_right _ List.mem_cons_self)
    obtain ⟨low', hstands', hperm, hsep, hsep'⟩ := hstands.split hlow hnode hrightlow hsplits hleft' hright'
      fun x hx hne => hother x (List.mem_append_right _ hx) hne (hpnotlow x hx)
    obtain ⟨hapart, hapart'⟩ := row_apart htops
    have htop : ∀ q ∈ as ++ (s, p) :: bs, q.2 ≠ p → fs'.nodes q.2 = fs.nodes q.2 := fun q hq hne =>
      hother _ (List.mem_append_left _ (List.mem_map_of_mem hq))
        (fun heq => hcross _ (List.mem_map_of_mem hq) b hblow heq) hne
    have hsame : ∀ q ∈ as, fs'.nodes q.2 = fs.nodes q.2 := fun q hq => htop q (List.mem_append_left _ hq) (hapart q hq)
    have hsame' : ∀ q ∈ bs, fs'.nodes q.2 = fs.nodes q.2 := fun q hq =>
      htop q (List.mem_append_right _ (List.mem_cons_of_mem _ hq)) (hapart' q hq)
    have hst : s ≤ t := hranged.low _ hpmem (t, b) (hentries ▸ List.mem_append_right _ List.mem_cons_self)
    have hput : fs'.entries p = put sep right.block (fs.entries p) := by
      rw [Fs.entries_of_node hparent', Fs.entries_of_node hparent, hmap, OrdMap.entries_put]
    have hinserted : fs'.entries p = as₂ ++ (t, b) :: (sep, right.block) :: bs₂ := by
      have hsorted := entries_sorted fs p
      have hbefore := (sorted_append.mp (hentries ▸ hsorted)).2.2
      rw [hput, hentries, ← List.singleton_append, ← List.append_assoc, put_append_left]
      · rw [put_of_lt _ fun q hq => hsep' q (List.mem_append_left _ hq), List.append_assoc]
        rfl
      · intro a ha
        rcases List.mem_append.mp ha with ha | ha
        · exact (hbefore a ha (t, b) List.mem_cons_self).trans hsep
        · rw [List.mem_singleton.mp ha]
          exact hsep
    have hsephigh : ∀ q ∈ bs, sep < q.1 := by
      intro q hq
      obtain ⟨c, es, hq'⟩ := (hI q (List.mem_append_right _ (List.mem_cons_of_mem _ hq))).2
      refine hsep' (q.1, c) (List.mem_append_right _ ?_)
      exact List.mem_flatMap.mpr ⟨q, hq, hq' ▸ List.mem_cons_self⟩
    obtain ⟨hranged', -⟩ := hranged.put (hst.trans hsep.le) hsephigh right.block hput
      (fun q hq => entries_congr (hsame q hq)) fun q hq => entries_congr (hsame' q hq)
    have hrow' : line fs'.entries (as ++ (s, p) :: bs) =
        (line fs.entries as ++ as₂) ++ (t, b) :: (sep, right.block) :: (bs₂ ++ line fs.entries bs) := by
      rw [line_append, line_cons, hinserted, line_congr fun q hq => entries_congr (hsame q hq),
        line_congr fun q hq => entries_congr (hsame' q hq)]
      simp only [List.append_assoc, List.cons_append]
    refine ⟨_, .inner (fun q hq => ?_) hranged' (hrow' ▸ hstands'), (hperm.append_left _).trans List.perm_middle⟩
    by_cases hqp : q = (s, p)
    · subst hqp
      obtain ⟨parent₀, hparent₀, hkind₀, hblock₀⟩ := (hI _ hpmem).1
      cases hparent₀.symm.trans hparent
      refine ⟨⟨parent', hparent', hkind.trans hkind₀, hblock.trans hblock₀⟩, ?_⟩
      rw [hinserted]
      rw [hentries] at hfirst
      cases as₂ with
      | nil => exact ⟨_, _, by rw [List.nil_append, (List.cons.inj hfirst).1]⟩
      | cons a as₂ => exact ⟨c₀, _, by rw [List.cons_append, (List.cons.inj hfirst).1]⟩
    · have hne : q.2 ≠ p := by
        rcases List.mem_append.mp hq with hq | hq
        · exact hapart q hq
        rcases List.mem_cons.mp hq with hq | hq
        · exact absurd hq hqp
        · exact hapart' q hq
      refine ⟨(hI q hq).1.congr (htop q hq hne), ?_⟩
      rw [entries_congr (htop q hq hne)]
      exact (hI q hq).2

theorem Stands.rename {c : Nat} (h : Stands fs [(s, b)] d blocks content) (hnodup : blocks.Nodup) {node' : Node}
    (hnode : fs.nodes b = some node) (hnode' : fs'.nodes c = some node') (hkind : node'.kind = node.kind)
    (hmap : node'.map = node.map) (hnext : node'.next = node.next) (hblock : node'.block = c)
    (hother : ∀ x ∈ blocks, x ≠ b → fs'.nodes x = fs.nodes x) :
    ∃ low, blocks = b :: low ∧ Stands fs' [(s, c)] d (c :: low) content := by
  have hentries : fs'.entries c = fs.entries b := by rw [Fs.entries_of_node hnode', Fs.entries_of_node hnode, hmap]
  have hline : line fs'.entries [(s, c)] = line fs.entries [(s, b)] := by
    rw [line_cons, line_cons, hentries]
    rfl
  have hranged : Ranged fs'.entries [(s, c)] := by
    refine ⟨fun p hp e he => ?_, List.pairwise_singleton _ _⟩
    obtain rfl := List.mem_singleton.mp hp
    exact h.ranged.low (s, b) (List.mem_singleton.mpr rfl) e (hentries ▸ he)
  cases h with
  | leaves hL _ hlinked =>
    refine ⟨[], rfl, hline ▸ .leaves (fun p hp => ?_) hranged ⟨?_, trivial⟩⟩
    · obtain rfl := List.mem_singleton.mp hp
      obtain ⟨node₀, hnode₀, hL', -⟩ := hL (s, b) (List.mem_singleton.mpr rfl)
      cases hnode₀.symm.trans hnode
      exact ⟨node', hnode', hkind.trans hL', hblock⟩
    · have hlast := hlinked.1
      rw [Fs.next_of_node hnode] at hlast
      rw [Fs.next_of_node hnode', hnext, hlast]
  | @inner _ _ low _ hI _ hstands =>
    refine ⟨low, rfl, .inner (fun p hp => ?_) hranged (hline ▸ hstands.congr fun x hx => ?_)⟩
    · obtain rfl := List.mem_singleton.mp hp
      obtain ⟨⟨node₀, hnode₀, hI', -⟩, hfirst⟩ := hI (s, b) (List.mem_singleton.mpr rfl)
      cases hnode₀.symm.trans hnode
      exact ⟨⟨node', hnode', hkind.trans hI', hblock⟩, by rw [hentries]; exact hfirst⟩
    · refine hother x (List.mem_append_right _ hx) fun heq => ?_
      exact (List.nodup_cons.mp hnodup).1 (heq ▸ hx)

theorem Stands.grow {down : Nat} (h : Stands fs [(0, b)] d blocks content) (hnodup : blocks.Nodup) {top low : Node}
    (hnode : fs.nodes b = some node) (hown : node.block = b) (htop : fs'.nodes b = some top) (hlow : fs'.nodes down = some low)
    (hkind : low.kind = node.kind) (hmap : low.map = node.map) (hnext : low.next = node.next) (hblock : low.block = down)
    (hI : top.kind = .I) (hentries : top.map.entries = [(0, down)]) (hself : top.block = node.block)
    (hother : ∀ x ∈ blocks, x ≠ b → fs'.nodes x = fs.nodes x) :
    ∃ blocks', Stands fs' [(0, b)] (d + 1) blocks' content ∧ blocks'.Perm (down :: blocks) := by
  obtain ⟨rest, rfl, hstands⟩ := h.rename hnodup hnode hlow hkind hmap hnext hblock hother
  have hline : line fs'.entries [(0, b)] = [(0, down)] := by
    rw [line_cons, Fs.entries_of_node htop, hentries]
    rfl
  refine ⟨_, .inner (fun p hp => ?_) ⟨fun p hp e he => ?_, List.pairwise_singleton _ _⟩ (hline ▸ hstands), List.Perm.swap _ _ _⟩
  · obtain rfl := List.mem_singleton.mp hp
    exact ⟨⟨top, htop, hI, hself.trans hown⟩, down, [], by rw [Fs.entries_of_node htop, hentries]⟩
  · obtain rfl := List.mem_singleton.mp hp
    exact Nat.zero_le _

end

end Ussr.Belarus
