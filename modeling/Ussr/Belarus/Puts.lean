import Mathlib.Data.List.Induction
import Ussr.Belarus.Levels

/-! Puts into a block map. A put descends to the leaf of its index and splits full
nodes on the way back; what stands before it stands behind it, with one entry
changed. -/

namespace Ussr.Belarus
open SortedEntries Rows

/-- Block `b` is in a free extent. -/
def Fs.Spare (fs : Fs) (b : Nat) : Prop := ∃ p ∈ fs.free.entries, p.1 ≤ b ∧ b < p.1 + p.2

structure Fs.Sound (fs : Fs) : Prop where
  apart : fs.free.entries.Pairwise fun p q => p.1 + p.2 ≤ q.1
  unused : ∀ b, fs.Spare b → b ≠ 0 ∧ fs.nodes b = none

theorem take_block {free free' : OrdMap Nat Nat} {s l : Nat} {as bs : List (Nat × Nat)} (h : free.entries = as ++ (s, l) :: bs)
    (hl : 1 ≤ l) (happart : free.entries.Pairwise fun p q => p.1 + p.2 ≤ q.1)
    (hfree : free' = if 1 < l then (free.del s).put (s + 1) (l - 1) else free.del s) :
    (free'.entries.Pairwise fun p q => p.1 + p.2 ≤ q.1) ∧
      ∀ b, (∃ p ∈ free'.entries, p.1 ≤ b ∧ b < p.1 + p.2) → b ≠ s ∧ ∃ p ∈ free.entries, p.1 ≤ b ∧ b < p.1 + p.2 := by
  rw [h] at happart
  obtain ⟨has, hright, hcross⟩ := List.pairwise_append.mp happart
  obtain ⟨hnext, hbs⟩ := List.pairwise_cons.mp hright
  have hbefore : ∀ p ∈ as, p.1 + p.2 ≤ s := fun p hp => hcross p hp (s, l) List.mem_cons_self
  have haround := OrdMap.around_of_entries h
  have hdel : (free.del s).entries = as ++ bs := OrdMap.del_of_entries h
  have hmem : (s, l) ∈ free.entries := h ▸ List.mem_append_right _ List.mem_cons_self
  have hsub : ∀ p ∈ as ++ bs, p ∈ free.entries := by
    intro p hp
    rw [h]
    rcases List.mem_append.mp hp with hp | hp
    · exact List.mem_append_left _ hp
    · exact List.mem_append_right _ (List.mem_cons_of_mem _ hp)
  have hout : ∀ b, (∃ p ∈ as ++ bs, p.1 ≤ b ∧ b < p.1 + p.2) → b ≠ s := by
    rintro b ⟨p, hp, hlow, hhigh⟩
    rcases List.mem_append.mp hp with hp | hp
    · have := hbefore p hp
      omega
    · have : s + l ≤ p.1 := hnext p hp
      omega
  by_cases hmore : 1 < l
  · have hput : free'.entries = as ++ (s + 1, l - 1) :: bs := by
      rw [hfree, if_pos hmore]
      refine OrdMap.put_of_around hdel ⟨fun a ha => ?_, fun q hq => ?_⟩ _
      · exact (haround.before a ha).trans (Nat.lt_succ_self s)
      · have : s + l ≤ q.1 := hnext q hq
        omega
    rw [hput]
    refine ⟨List.pairwise_append.mpr ⟨has, List.pairwise_cons.mpr ⟨fun q hq => ?_, hbs⟩, fun p hp q hq => ?_⟩, ?_⟩
    · have : s + l ≤ q.1 := hnext q hq
      show s + 1 + (l - 1) ≤ q.1
      omega
    · rcases List.mem_cons.mp hq with rfl | hq
      · exact (hbefore p hp).trans (Nat.le_succ s)
      · exact hcross p hp q (List.mem_cons_of_mem _ hq)
    · rintro b ⟨p, hp, hlow, hhigh⟩
      rcases List.mem_append.mp hp with hp | hp
      · exact ⟨hout b ⟨p, List.mem_append_left _ hp, hlow, hhigh⟩, p, hsub p (List.mem_append_left _ hp), hlow, hhigh⟩
      rcases List.mem_cons.mp hp with rfl | hp
      · have hlow' : s + 1 ≤ b := hlow
        have hhigh' : b < s + 1 + (l - 1) := hhigh
        refine ⟨by omega, (s, l), hmem, ?_, ?_⟩
        · show s ≤ b
          omega
        · show b < s + l
          omega
      · exact ⟨hout b ⟨p, List.mem_append_right _ hp, hlow, hhigh⟩, p, hsub p (List.mem_append_right _ hp), hlow, hhigh⟩
  · have hput : free'.entries = as ++ bs := by rw [hfree, if_neg hmore, hdel]
    rw [hput]
    refine ⟨List.pairwise_append.mpr ⟨has, hbs, fun p hp q hq => hcross p hp q (List.mem_cons_of_mem _ hq)⟩, ?_⟩
    exact fun b hb => ⟨hout b hb, hb.imp fun p hp => ⟨hsub p hp.1, hp.2⟩⟩

structure Fresh (fs fs' : Fs) (kind : NodeKind) (node : Node) : Prop where
  kind : node.kind = kind
  next : node.next = 0
  map : node.map = OrdMap.empty
  spare : fs.Spare node.block
  nodes : fs'.nodes = Function.update fs.nodes node.block (some node)
  sound : fs'.Sound
  spent : ∀ b, fs'.Spare b → b ≠ node.block ∧ fs.Spare b

theorem blNodeNew_fresh {fs fs' : Fs} {kind : NodeKind} (hsound : fs.Sound)
    (h : blNodeNew fs kind = some (node, fs')) : Fresh fs fs' kind node := by
  unfold blNodeNew at h
  cases halloc : blAlloc 1 fs.free with
  | none =>
    rw [halloc] at h
    cases h
  | some taken =>
    rw [halloc] at h
    unfold blAlloc at halloc
    cases hfind : fs.free.entries.find? fun p => decide (1 ≤ p.2) with
    | none =>
      rw [hfind] at halloc
      have hzero : (fs.free.entries.map Prod.snd).sum = 0 := by
        refine List.sum_eq_zero fun n hn => ?_
        obtain ⟨p, hp, rfl⟩ := List.mem_map.mp hn
        have := List.find?_eq_none.mp hfind p hp
        simpa using this
      simp only at halloc
      rw [hzero, if_pos Nat.one_pos] at halloc
      cases halloc
    | some p =>
      rw [hfind] at halloc
      obtain ⟨s, l⟩ := p
      cases halloc
      cases h
      have hl : 1 ≤ l := by simpa using List.find?_some hfind
      obtain ⟨as, bs, hentries, -⟩ := OrdMap.entries_of_get (OrdMap.get_eq_some_iff.mpr (List.mem_of_find?_eq_some hfind))
      obtain ⟨happart, hspent⟩ := take_block hentries hl hsound.apart rfl
      have hmem : (s, l) ∈ fs.free.entries := List.mem_of_find?_eq_some hfind
      refine ⟨rfl, rfl, rfl, ⟨(s, l), hmem, Nat.le_refl s, by show s < s + l; omega⟩, rfl, ⟨happart, fun b hb => ?_⟩,
        fun b hb => hspent b hb⟩
      obtain ⟨hne, hspare⟩ := hspent b hb
      refine ⟨(hsound.unused b hspare).1, ?_⟩
      exact (Function.update_of_ne hne _ _).trans (hsound.unused b hspare).2

def Fs.Full (fs : Fs) : Prop := ∀ kind, blNodeNew fs kind = none

theorem full_of_blNodeNew {fs : Fs} {kind : NodeKind} (h : blNodeNew fs kind = none) : fs.Full := by
  intro kind'
  unfold blNodeNew at h ⊢
  split at h
  · cases h
  · rfl

section

structure Standing (fs : Fs) (ino d : Nat) (blocks : List Nat) (content : List (Nat × Nat)) : Prop where
  stands : Stands fs [(0, ino)] d blocks content
  nodup : blocks.Nodup
  nonzero : 0 ∉ blocks
  sound : fs.Sound

theorem Stands.has {fs : Fs} {d : Nat} {blocks : List Nat} {content : List (Nat × Nat)}
    (h : Stands fs ps d blocks content) : ∀ b ∈ blocks, ∃ node, fs.nodes b = some node ∧ node.block = b := by
  induction h with
  | leaves hL =>
    intro b hb
    obtain ⟨p, hp, rfl⟩ := List.mem_map.mp hb
    obtain ⟨node, hnode, -, hblock⟩ := hL p hp
    exact ⟨node, hnode, hblock⟩
  | inner hI _ _ ih =>
    intro b hb
    rcases List.mem_append.mp hb with hb | hb
    · obtain ⟨p, hp, rfl⟩ := List.mem_map.mp hb
      obtain ⟨node, hnode, -, hblock⟩ := (hI p hp).1
      exact ⟨node, hnode, hblock⟩
    · exact ih b hb

variable {fs fs' : Fs} {ino d idx b : Nat} {blocks : List Nat} {content : List (Nat × Nat)}
variable {node : Node} {ps : List (Nat × Nat)} {pre : List Nat}

theorem Standing.notMem_of_spare (h : Standing fs ino d blocks content) (hspare : fs.Spare b) : b ∉ blocks := by
  intro hb
  obtain ⟨node, hnode, -⟩ := h.stands.has b hb
  cases hnode.symm.trans (h.sound.unused b hspare).2

theorem Standing.grown {right : Nat} {blocks' : List Nat} (h : Standing fs ino d blocks content) (hspare : fs.Spare right)
    (hperm : blocks'.Perm (right :: blocks)) : blocks'.Nodup ∧ 0 ∉ blocks' := by
  refine ⟨hperm.nodup_iff.mpr (List.nodup_cons.mpr ⟨h.notMem_of_spare hspare, h.nodup⟩), fun hzero => ?_⟩
  rcases List.mem_cons.mp (hperm.subset hzero) with heq | hzero
  · exact (h.sound.unused right hspare).1 heq.symm
  · exact h.nonzero hzero

theorem Fresh.notMem {kind : NodeKind} (h : Fresh fs fs' kind node) (hstanding : Standing fs ino d blocks content) :
    node.block ∉ blocks := hstanding.notMem_of_spare h.spare

theorem blNode_cached (h : fs.nodes b = some node) (inode : Bool) : blNode fs b inode = some (node, fs) := by
  rw [blNode, h]

theorem Fs.Sound.setNode (h : fs.Sound) (hb : ¬ fs.Spare b) : (fs.setNode b node).Sound := by
  refine ⟨h.apart, fun x hx => ⟨(h.unused x hx).1, ?_⟩⟩
  have hne : x ≠ b := fun heq => hb (heq ▸ hx)
  exact (Function.update_of_ne hne _ _).trans (h.unused x hx).2

end

section

variable {fs : Fs} {ino d idx b : Nat} {blocks : List Nat} {content : List (Nat × Nat)}

theorem moveEntries_eq {map rmap : OrdMap Nat Nat} {as bs rs : List (Nat × Nat)} (hmap : map.entries = as ++ bs)
    (hrmap : rmap.entries = rs) (hlt : ∀ r ∈ rs, ∀ q ∈ bs, r.1 < q.1) :
    (moveEntries bs map rmap).1.entries = as ∧ (moveEntries bs map rmap).2.entries = rs ++ bs := by
  induction bs generalizing map rmap rs with
  | nil => exact ⟨hmap.trans (List.append_nil as), hrmap.trans (List.append_nil rs).symm⟩
  | cons q bs ih =>
    have hlater : ∀ q' ∈ bs, q.1 < q'.1 := (OrdMap.around_of_entries hmap).behind
    have hput : (rmap.put q.1 q.2).entries = rs ++ [q] :=
      OrdMap.put_of_around (hrmap.trans (List.append_nil rs).symm)
        ⟨fun a ha => hlt a ha q List.mem_cons_self, fun x hx => absurd hx List.not_mem_nil⟩ q.2
    obtain ⟨hleft, hright⟩ := ih (OrdMap.del_of_entries hmap) hput fun r hr q' hq' => by
      rcases List.mem_append.mp hr with hr | hr
      · exact hlt r hr q' (List.mem_cons_of_mem _ hq')
      · rw [List.mem_singleton.mp hr]
        exact hlater q' hq'
    refine ⟨hleft, hright.trans ?_⟩
    rw [List.append_assoc]
    rfl

/-- What `bl_split` does: `node` is cut in two, the right part in a new block. -/
structure Cut (fs fs' : Fs) (node left right : Node) (sep : Nat) : Prop where
  splits : Splits node left right sep
  spare : fs.Spare right.block
  sound : fs'.Sound
  spent : ∀ x, fs'.Spare x → fs.Spare x
  atLeft : fs'.nodes node.block = some left
  atRight : fs'.nodes right.block = some right
  other : ∀ x, x ≠ node.block → x ≠ right.block → fs'.nodes x = fs.nodes x
  halves : left.map.entries.length ≤ node.map.entries.length / 2 + 1 ∧ right.map.entries.length ≤ node.map.entries.length / 2 + 1

theorem blSplit_cut (hsound : fs.Sound) (hnode : fs.nodes node.block = some node)
    (hsize : 2 ≤ node.map.entries.length) :
    (blSplit fs node = some (none, fs) ∧ fs.Full) ∨
      ∃ sep left right fs', blSplit fs node = some (some (sep, right.block), fs') ∧ Cut fs fs' node left right sep := by
  unfold blSplit
  extract_lets pairs half
  cases hnew : blNodeNew fs node.kind with
  | none => exact .inl ⟨rfl, full_of_blNodeNew hnew⟩
  | some new =>
    obtain ⟨right, fs₁⟩ := new
    have hfresh := blNodeNew_fresh hsound hnew
    have hhalf : half = node.map.entries.length / 2 := Nat.shiftRight_one _
    have hlt : half < pairs.length := by
      show half < node.map.entries.length
      omega
    obtain ⟨hleft, hright⟩ := moveEntries_eq (List.take_append_drop half pairs).symm
      (show right.map.entries = [] by rw [hfresh.map]; rfl) fun r hr => absurd hr List.not_mem_nil
    rw [List.nil_append] at hright
    have hne : node.block ≠ right.block := by
      intro heq
      cases hnode.symm.trans (heq ▸ (hsound.unused _ hfresh.spare).2)
    have hbusy : ¬ fs₁.Spare right.block := fun hspare => (hfresh.spent _ hspare).1 rfl
    have hbusy' : ¬ fs₁.Spare node.block := fun hspare => by
      cases hnode.symm.trans (hsound.unused _ (hfresh.spent _ hspare).2).2
    let moved := moveEntries (pairs.drop half) node.map right.map
    let right' : Node := { right with map := moved.2, next := if node.kind = .L then node.next else right.next }
    let left : Node := blTouch { node with map := moved.1, next := if node.kind = .L then right.block else node.next }
    let fs₂ := (fs₁.setNode right.block right').setNode node.block left
    refine .inr ⟨pairs[half].1, left, right', fs₂, ?_, ⟨?_, hfresh.spare, ?_, fun x hx => (hfresh.spent x hx).2, ?_, ?_, ?_, ?_⟩⟩
    · simp only [List.getElem?_eq_getElem hlt]
      rfl
    · refine ⟨?_, ?_, ?_, ⟨rfl, hfresh.kind⟩, rfl, fun hL => ⟨if_pos hL, if_pos hL⟩⟩
      · show moved.1.entries ++ moved.2.entries = _
        rw [hleft, hright, List.take_append_drop]
      · show moved.1.entries ≠ []
        rw [hleft]
        refine List.ne_nil_of_length_pos ?_
        rw [List.length_take]
        omega
      · refine ⟨pairs[half].2, pairs.drop (half + 1), ?_⟩
        show moved.2.entries = _
        rw [hright, List.drop_eq_getElem_cons hlt]
    · exact (hfresh.sound.setNode hbusy).setNode hbusy'
    · exact Function.update_self _ _ _
    · exact (Function.update_of_ne hne.symm _ _).trans (Function.update_self _ _ _)
    · intro x hx hx'
      have hkept : fs₁.nodes x = fs.nodes x := by
        rw [hfresh.nodes]
        exact Function.update_of_ne hx' _ _
      exact (Function.update_of_ne hx _ _).trans ((Function.update_of_ne hx' _ _).trans hkept)
    · constructor
      · show moved.1.entries.length ≤ _
        rw [hleft, List.length_take]
        omega
      · show moved.2.entries.length ≤ _
        have hlength : pairs.length = node.map.entries.length := rfl
        rw [hright, List.length_drop]
        omega

theorem Stands.pair_mem {s p t : Nat} (h : Stands fs ps (d + 1) blocks content) (hnodup : blocks.Nodup)
    (hp : rank idx ps = some (s, p)) (hb : rank idx (line fs.entries ps) = some (t, b)) : p ∈ blocks ∧ b ∈ blocks ∧ b ≠ p := by
  cases h with
  | @inner _ _ low _ _ _ hlow =>
    obtain ⟨as, bs, hrow, -, -⟩ := rank_split hb
    obtain ⟨as', bs', hrow', -, -⟩ := rank_split hp
    have hblow : b ∈ low := hlow.tops (t, b) (hrow ▸ List.mem_append_right _ List.mem_cons_self)
    have hptop : p ∈ ps.map Prod.snd := by
      rw [hrow']
      exact List.mem_map_of_mem (List.mem_append_right _ List.mem_cons_self)
    refine ⟨List.mem_append_left _ hptop, List.mem_append_right _ hblow, fun heq => ?_⟩
    exact (List.nodup_append.mp hnodup).2.2 p hptop b hblow heq.symm

theorem Stands.route_pair {p : Nat} (h : Stands fs ps d blocks content)
    (hnodup : blocks.Nodup) (hroute : Route fs idx ps (pre ++ [p, b])) (hlength : pre.length < d) : p ∈ blocks ∧ p ≠ b := by
  obtain ⟨upper, qs, lower, d', rfl, hd, -, hstands, hrest, -⟩ := h.descend hroute hlength.le
  cases hrest with
  | cons hp hrest =>
  cases hrest with
  | cons hb _ =>
  obtain _ | d' := d'
  · omega
  obtain ⟨hpmem, -, hne⟩ := hstands.pair_mem (List.nodup_append.mp hnodup).2.1 hp hb
  exact ⟨List.mem_append_right _ hpmem, hne.symm⟩

theorem splitInto_spec (h : Standing fs ino d blocks content) {p : Nat}
    (hroute : Route fs idx [(0, ino)] (pre ++ [p, b])) (hlength : pre.length < d) (hnode : fs.nodes b = some node)
    (hsize : 2 ≤ node.map.entries.length) {path : List Nat} {i : Nat} (hpath : path[i - 1]? = some p) :
    (splitInto fs path i node = some (false, fs) ∧ fs.Full) ∨
      ∃ fs' blocks', splitInto fs path i node = some (true, fs') ∧ Standing fs' ino d blocks' content ∧
        Route fs' idx [(0, ino)] (pre ++ [p]) ∧ (fs'.entries p).length ≤ (fs.entries p).length + 1 ∧
        ∀ x ∈ blocks', x ≠ p → (fs'.entries x).length ≤ node.map.entries.length / 2 + 1 ∨
          (x ∈ blocks ∧ x ≠ b ∧ fs'.entries x = fs.entries x) := by
  obtain ⟨upper, qs, lower, d', rfl, hd, hpre, hstands, hrest, hback⟩ := h.stands.descend hroute hlength.le
  obtain ⟨hnodupu, hnodupl, hcross⟩ := List.nodup_append.mp h.nodup
  cases hrest with
  | @cons _ s _ _ hp hrest =>
  cases hrest with
  | @cons _ t _ _ hb hrest =>
  obtain _ | d' := d'
  · omega
  obtain ⟨hpmem, hbmem⟩ := hstands.pair_mem hnodupl hp hb
  obtain ⟨parent, hparent, hparentBlock⟩ := hstands.has p hpmem
  have hown : node.block = b := by
    obtain ⟨node', hnode', hblock⟩ := hstands.has b hbmem.1
    cases hnode'.symm.trans hnode
    exact hblock
  subst hown
  unfold splitInto
  obtain ⟨hfailed, hfull⟩ | ⟨sep, left, right, fs₁, hsplit, hcut⟩ := blSplit_cut h.sound hnode hsize
  · exact .inl ⟨by rw [hfailed]; rfl, hfull⟩
  have hout : right.block ∉ upper ++ lower := h.notMem_of_spare hcut.spare
  have hrightp : p ≠ right.block := fun heq => hout (heq ▸ List.mem_append_right _ hpmem)
  have hrightb : node.block ≠ right.block := fun heq => hout (heq ▸ List.mem_append_right _ hbmem.1)
  have hparent₁ : fs₁.nodes p = some parent := (hcut.other p hbmem.2.symm hrightp).trans hparent
  let parent' : Node := blTouch { parent with map := parent.map.put sep right.block }
  let fs₂ := fs₁.setNode p parent'
  have hother : ∀ x, x ≠ node.block → x ≠ right.block → x ≠ p → fs₂.nodes x = fs.nodes x := fun x hx hx' hxp =>
    (Function.update_of_ne hxp _ _).trans (hcut.other x hx hx')
  have hatp : fs₂.nodes p = some parent' := Function.update_self _ _ _
  have hatb : fs₂.nodes node.block = some left := (Function.update_of_ne hbmem.2 _ _).trans hcut.atLeft
  have hatr : fs₂.nodes right.block = some right := (Function.update_of_ne hrightp.symm _ _).trans hcut.atRight
  obtain ⟨lower', hstands', hperm⟩ := hstands.splitUnder hnodupl hp hb hnode
    (fun hin => hout (List.mem_append_right _ hin)) hcut.splits hparent hatb hatr hatp rfl rfl rfl
    fun x hx hne hnep => hother x hne (fun heq => hout (heq ▸ List.mem_append_right _ hx)) hnep
  have hupper : ∀ x ∈ upper, fs₂.nodes x = fs.nodes x := fun x hx =>
    hother x (fun heq => hcross x hx _ hbmem.1 heq) (fun heq => hout (heq ▸ List.mem_append_left _ hx))
      fun heq => hcross x hx p hpmem heq
  obtain ⟨hwhole, hroutes⟩ := hback fs₂ lower' content hupper hstands'
  have hpermAll : (upper ++ lower').Perm (right.block :: (upper ++ lower)) :=
    (hperm.append_left upper).trans List.perm_middle
  obtain ⟨hnodup', hnonzero'⟩ := h.grown hcut.spare hpermAll
  refine .inr ⟨fs₂, upper ++ lower', ?_, ⟨hwhole, hnodup', hnonzero', ?_⟩, hroutes [p] (.cons hp (.nil _)), ?_, fun x hx hxp => ?_⟩
  · have hset : fs₁.setNode parent.block parent' = fs₂ := by
      show fs₁.setNode parent.block parent' = fs₁.setNode p parent'
      rw [hparentBlock]
    simp only [hsplit, hpath, Option.bind_eq_bind, Option.bind_some, blNode_cached hparent₁]
    exact congrArg (fun fs => some (true, fs)) hset
  · refine hcut.sound.setNode fun hspare => ?_
    exact h.notMem_of_spare (hcut.spent p hspare) (List.mem_append_right _ hpmem)
  · rw [Fs.entries_of_node hatp, Fs.entries_of_node hparent]
    show (put sep right.block parent.map.entries).length ≤ _
    have hle : (parent.map.put sep right.block).len ≤ parent.map.len + 1 := by
      rw [OrdMap.len_eq_sum, OrdMap.len_eq_sum]
      exact OrdMap.sum_put_le _ _ _ _
    exact hle
  · rcases List.mem_cons.mp (hpermAll.subset hx) with rfl | hx
    · refine .inl ?_
      rw [Fs.entries_of_node hatr]
      exact hcut.halves.2
    · by_cases hxb : x = node.block
      · subst hxb
        refine .inl ?_
        rw [Fs.entries_of_node hatb]
        exact hcut.halves.1
      · exact .inr ⟨hx, hxb, entries_congr (hother x hxb (fun heq => hout (heq ▸ hx)) hxp)⟩

end

section

variable {fs : Fs} {ino d idx : Nat} {blocks : List Nat} {content : List (Nat × Nat)}

def Roomy (fs : Fs) (blocks : List Nat) : Prop := ∀ x ∈ blocks, (fs.entries x).length ≤ blFanout

theorem route_top {b : Nat} {path : List Nat} (h : Route fs idx [(0, ino)] (b :: path)) : b = ino := by
  cases h with
  | cons hrank =>
    obtain ⟨as, bs, hps, -, -⟩ := rank_split hrank
    cases as with
    | nil => exact (congrArg Prod.snd (List.cons.inj hps).1).symm
    | cons a as => cases as <;> cases (List.cons.inj hps).2

theorem rank_only (idx b : Nat) : rank idx [(0, b)] = some (0, b) := by
  have hnone : ∀ q ∈ ([] : List (Nat × Nat)), idx < q.1 := fun q hq => absurd hq List.not_mem_nil
  exact (rank_of_split (Nat.zero_le idx) hnone : rank idx ([] ++ [(0, b)]) = _)

theorem moveDown_spec (idx : Nat) (h : Standing fs ino d blocks content) (hnode : fs.nodes ino = some node)
    (hself : node.block = ino) :
    (moveDown fs node = none ∧ fs.Full) ∨ ∃ down fs' blocks', moveDown fs node = some (down, fs') ∧
      Standing fs' ino (d + 1) blocks' content ∧ Route fs' idx [(0, ino)] [ino, down.block] ∧
      fs'.nodes down.block = some down ∧ down.map = node.map ∧ (fs'.entries ino).length = 1 ∧
      ∀ x ∈ blocks', x = ino ∨ x = down.block ∨ (x ∈ blocks ∧ x ≠ ino ∧ fs'.entries x = fs.entries x) := by
  unfold moveDown
  cases hnew : blNodeNew fs node.kind with
  | none => exact .inl ⟨rfl, full_of_blNodeNew hnew⟩
  | some new =>
    obtain ⟨down, fs₁⟩ := new
    have hfresh := blNodeNew_fresh h.sound hnew
    have hout := hfresh.notMem h
    have hino : ino ∈ blocks := h.stands.tops (0, ino) (List.mem_singleton.mpr rfl)
    have hne : ino ≠ down.block := fun heq => hout (heq ▸ hino)
    let down' : Node := { down with map := node.map, next := node.next }
    let top : Node := blTouch { node with map := OrdMap.empty.put 0 down.block, kind := .I, next := 0 }
    let fs₂ := (fs₁.setNode down.block down').setNode ino top
    have hatTop : fs₂.nodes ino = some top := Function.update_self _ _ _
    have hatDown : fs₂.nodes down.block = some down' :=
      (Function.update_of_ne hne.symm _ _).trans (Function.update_self _ _ _)
    have hother : ∀ x, x ≠ ino → x ≠ down.block → fs₂.nodes x = fs.nodes x := by
      intro x hx hx'
      have hkept : fs₁.nodes x = fs.nodes x := by
        rw [hfresh.nodes]
        exact Function.update_of_ne hx' _ _
      exact (Function.update_of_ne hx _ _).trans ((Function.update_of_ne hx' _ _).trans hkept)
    obtain ⟨blocks', hstands, hperm⟩ := h.stands.grow h.nodup hnode hself hatTop hatDown hfresh.kind rfl rfl rfl rfl rfl rfl
      fun x hx hxi => hother x hxi fun heq => hout (heq ▸ hx)
    have hset : (fs₁.setNode down.block down').setNode node.block top = fs₂ := by
      show (fs₁.setNode down.block down').setNode node.block top = (fs₁.setNode down.block down').setNode ino top
      rw [hself]
    obtain ⟨hnodup', hnonzero'⟩ := h.grown hfresh.spare hperm
    refine .inr ⟨down', fs₂, blocks', congrArg (fun fs => some (down', fs)) hset, ⟨hstands, hnodup', hnonzero', ?_⟩, ?_, hatDown, rfl,
      ?_, ?_⟩
    · refine (hfresh.sound.setNode fun hspare => (hfresh.spent _ hspare).1 rfl).setNode fun hspare => ?_
      exact h.notMem_of_spare (hfresh.spent ino hspare).2 hino
    · have hrow : line fs₂.entries [(0, ino)] = [(0, down.block)] := by
        rw [line_cons, Fs.entries_of_node hatTop]
        rfl
      exact .cons (rank_only idx ino) (hrow ▸ .cons (rank_only idx down.block) (.nil _))
    · rw [Fs.entries_of_node hatTop]
      rfl
    · intro x hx
      rcases List.mem_cons.mp (hperm.subset hx) with rfl | hx
      · exact .inr (.inl rfl)
      · by_cases hxi : x = ino
        · exact .inl hxi
        · exact .inr (.inr ⟨hx, hxi, entries_congr (hother x hxi fun heq => hout (heq ▸ hx))⟩)

theorem Stands.route_mem {b : Nat} (h : Stands fs ps d blocks content)
    (hroute : Route fs idx ps (pre ++ [b])) (hlength : pre.length ≤ d) : b ∈ blocks := by
  obtain ⟨upper, qs, lower, d', rfl, -, -, hstands, hrest, -⟩ := h.descend hroute hlength
  cases hrest with
  | cons hrank =>
    obtain ⟨as, bs, rfl, -, -⟩ := rank_split hrank
    exact List.mem_append_right _ (hstands.tops (_, b) (List.mem_append_right _ List.mem_cons_self))

theorem splitFull_spec {post : List Nat} {b : Nat} (h : Standing fs ino d blocks content)
    (hroute : Route fs idx [(0, ino)] (pre ++ [b])) (hlength : pre.length ≤ d)
    (hroom : ∀ x ∈ blocks, x ≠ b → (fs.entries x).length ≤ blFanout) (hb : (fs.entries b).length ≤ blFanout + 1) :
    ∃ r fs', (∀ turns, pre.length + 2 ≤ turns → splitFull turns fs (pre ++ b :: post) pre.length = some (r, fs')) ∧
      (r = -1 ∧ fs'.Full ∨ r = 0 ∧ ∃ d' blocks', Standing fs' ino d' blocks' content ∧ Roomy fs' blocks') := by
  have hfanout : blFanout = 128 := rfl
  induction pre using List.reverseRecOn generalizing fs d blocks b post with
  | nil =>
    obtain rfl := route_top hroute
    obtain ⟨node, hnode, hself⟩ := h.stands.has b (h.stands.route_mem hroute hlength)
    have hmore : ∀ turns, ([] : List Nat).length + 2 ≤ turns → ∃ more, turns = more + 2 := fun turns hturns =>
      ⟨turns - 2, (Nat.sub_add_cancel hturns).symm⟩
    rw [Fs.entries_of_node hnode] at hb
    by_cases hfits : node.map.len ≤ blFanout
    · refine ⟨0, fs, fun turns hturns => ?_, .inr ⟨rfl, d, blocks, h, fun x hx => ?_⟩⟩
      · obtain ⟨turns, rfl⟩ := hmore turns hturns
        simp [splitFull, blNode_cached hnode, hfits]
      · by_cases hxb : x = b
        · subst hxb
          rw [Fs.entries_of_node hnode]
          exact hfits
        · exact hroom x hx hxb
    have hsize : 128 < node.map.entries.length := Nat.lt_of_not_le hfits
    obtain ⟨hdown, hfull⟩ | ⟨down, fs₁, blocks₁, hdown, hstanding, hroute₁, hnode₁, hmap, hone, hold⟩ :=
      moveDown_spec idx h hnode hself
    · refine ⟨-1, fs, fun turns hturns => ?_, .inl ⟨rfl, hfull⟩⟩
      obtain ⟨turns, rfl⟩ := hmore turns hturns
      simp [splitFull, blNode_cached hnode, hfits, hdown]
    have hsize₁ : 2 ≤ down.map.entries.length := by
      rw [hmap]
      omega
    obtain ⟨hfailed, hfull⟩ | ⟨fs₂, blocks₂, hinto, hstanding₂, hroute₂, hgrown, hnew⟩ :=
      splitInto_spec hstanding (show Route fs₁ idx [(0, b)] ([] ++ [b, down.block]) from hroute₁) (Nat.succ_pos _) hnode₁ hsize₁
        (show [b, down.block][1 - 1]? = some b from rfl)
    · refine ⟨-1, fs₁, fun turns hturns => ?_, .inl ⟨rfl, hfull⟩⟩
      obtain ⟨turns, rfl⟩ := hmore turns hturns
      simp [splitFull, blNode_cached hnode, hfits, hdown, hfailed]
    obtain ⟨top, htop, -⟩ := hstanding₂.stands.has b (hstanding₂.stands.route_mem hroute₂ (Nat.zero_le _))
    rw [Fs.entries_of_node htop, hone] at hgrown
    have htopFits : top.map.len ≤ blFanout := hgrown.trans (by decide)
    refine ⟨0, fs₂, fun turns hturns => ?_, .inr ⟨rfl, _, blocks₂, hstanding₂, fun x hx => ?_⟩⟩
    · obtain ⟨turns, rfl⟩ := hmore turns hturns
      simp [splitFull, blNode_cached hnode, hfits, hdown, hinto, blNode_cached htop, htopFits]
    · by_cases hxb : x = b
      · subst hxb
        rw [Fs.entries_of_node htop]
        exact htopFits
      · rcases hnew x hx hxb with hhalf | ⟨hx₁, hxd, hsame⟩
        · rw [hmap] at hhalf
          omega
        · rcases hold x hx₁ with hx' | hx' | ⟨hx', _, hsame'⟩
          · exact absurd hx' hxb
          · exact absurd hx' hxd
          · rw [hsame, hsame']
            exact hroom x hx' hxb
  | append_singleton pre p ih =>
    obtain ⟨node, hnode, hself⟩ := h.stands.has b (h.stands.route_mem hroute hlength)
    rw [List.length_append, List.length_singleton] at hlength ⊢
    have hmore : ∀ turns, pre.length + 1 + 2 ≤ turns → ∃ more, turns = more + 1 := fun turns hturns =>
      ⟨turns - 1, (Nat.sub_add_cancel (Nat.one_le_of_lt hturns)).symm⟩
    have hat : (pre ++ [p] ++ b :: post)[pre.length + 1]? = some b := by simp
    have hat' : (pre ++ [p] ++ b :: post)[pre.length + 1 - 1]? = some p := by simp
    rw [Fs.entries_of_node hnode] at hb
    by_cases hfits : node.map.len ≤ blFanout
    · refine ⟨0, fs, fun turns hturns => ?_, .inr ⟨rfl, d, blocks, h, fun x hx => ?_⟩⟩
      · obtain ⟨turns, rfl⟩ := hmore turns hturns
        unfold splitFull
        simp [blNode_cached hnode, hfits]
      · by_cases hxb : x = b
        · subst hxb
          rw [Fs.entries_of_node hnode]
          exact hfits
        · exact hroom x hx hxb
    have hsize : 128 < node.map.entries.length := Nat.lt_of_not_le hfits
    rw [List.append_assoc] at hroute
    obtain ⟨hfailed, hfull⟩ | ⟨fs₁, blocks₁, hinto, hstanding₁, hroute₁, hgrown, hnew⟩ :=
      splitInto_spec h hroute (Nat.lt_of_succ_le hlength) hnode (by omega) hat'
    · refine ⟨-1, fs, fun turns hturns => ?_, .inl ⟨rfl, hfull⟩⟩
      obtain ⟨turns, rfl⟩ := hmore turns hturns
      unfold splitFull
      simp only [hat, Option.bind_eq_bind, Option.bind_some, blNode_cached hnode, if_neg hfits,
        if_neg (Nat.succ_ne_zero pre.length), hfailed]
      rfl
    obtain ⟨hpmem, hpb⟩ := h.stands.route_pair h.nodup hroute (Nat.lt_of_succ_le hlength)
    have hroom₁ : ∀ x ∈ blocks₁, x ≠ p → (fs₁.entries x).length ≤ blFanout := by
      intro x hx hxp
      rcases hnew x hx hxp with hhalf | ⟨hx', hxb, hsame⟩
      · have hle : node.map.entries.length ≤ 129 := hb
        omega
      · rw [hsame]
        exact hroom x hx' hxb
    have hstep : ∀ turns, splitFull (turns + 1) fs (pre ++ [p] ++ b :: post) (pre.length + 1) =
        splitFull turns fs₁ (pre ++ p :: b :: post) pre.length := by
      intro turns
      rw [splitFull]
      simp only [hat, Option.bind_eq_bind, Option.bind_some, blNode_cached hnode, if_neg hfits,
        if_neg (Nat.succ_ne_zero pre.length), hinto]
      rw [List.append_assoc]
      rfl
    obtain ⟨r, fs', hloop, hcases⟩ := ih hstanding₁ hroute₁ (Nat.le_of_succ_le hlength) hroom₁
      (hgrown.trans (Nat.succ_le_succ (hroom p hpmem hpb)))
    refine ⟨r, fs', fun turns hturns => ?_, hcases⟩
    obtain ⟨turns, rfl⟩ := hmore turns hturns
    rw [hstep]
    exact hloop turns (Nat.le_of_succ_le_succ hturns)

end

end Ussr.Belarus
