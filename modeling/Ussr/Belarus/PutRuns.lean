import Ussr.Belarus.Nodes

/-! Puts into the empty map of an inode, one after the other: what the map answers
behind all of them. -/

namespace Ussr.Belarus
open SortedEntries Rows

/-- A function of the turns its loops may take ends, with `r`. -/
def Gives {α : Type} (f : (turns : Nat) → Option α) (r : α) : Prop := ∃ bound, ∀ turns, bound ≤ turns → f turns = some r

structure EmptyMap (fs : Fs) (ino : Nat) : Prop where
  node : ∃ node fs', blNode fs ino true = some (node, fs') ∧ node.kind = .L ∧ node.next = 0 ∧ node.map = OrdMap.empty ∧ node.block = ino
  nonzero : ino ≠ 0
  busy : ¬ fs.Spare ino
  sound : fs.Sound

/-- `fs` is what `fs₀` is after these puts, where every one found room. -/
inductive Puts (fs₀ : Fs) (ino : Nat) : List (Nat × Nat) → Fs → Prop where
  | nil : Puts fs₀ ino [] fs₀
  | put {puts : List (Nat × Nat)} {fs fs' : Fs} {idx lba : Nat} : Puts fs₀ ino puts fs →
    Gives (fun turns => blBmapPut turns fs ino idx lba) (0, fs') → Puts fs₀ ino (puts ++ [(idx, lba)]) fs'

def lastPut (puts : List (Nat × Nat)) (idx : Nat) : Option Nat := (puts.filter fun p => p.1 = idx).getLast?.map Prod.snd

/-- The map of an inode stands for `m`. -/
structure Mapped (fs : Fs) (ino : Nat) (m : Nat → Option Nat) : Prop where
  bmap : ∀ idx, ∃ fs', Gives (fun turns => blBmap turns fs ino idx) (m idx, fs')
  all : ∃ pairs fs', Gives (fun turns => blBmapAll turns fs ino) (pairs, fs') ∧ pairs.Pairwise (fun p q => p.1 < q.1) ∧
    ∀ idx lba, (idx, lba) ∈ pairs ↔ m idx = some lba
  nodes : ∃ nodes fs', Gives (fun turns => blMapNodes turns fs ino) (nodes, fs') ∧ nodes.Nodup ∧
    ∀ b, b ∈ nodes ↔ ∃ k, Below fs ino (k + 1) b
  room : ∀ k b, Below fs ino k b → (fs.entries b).length ≤ blFanout
  level : ∃ d, ∀ k b, Below fs ino k b → fs.Has .L b → k = d
  least : ∀ k b, Below fs ino k b → fs.Has .I b → ∃ s c rest, fs.entries b = (s, c) :: rest ∧
    ∀ j leaf idx lba, Below fs b j leaf → fs.Has .L leaf → (idx, lba) ∈ fs.entries leaf → s ≤ idx
  put : ∀ idx lba, ∃ r fs', Gives (fun turns => blBmapPut turns fs ino idx lba) (r, fs') ∧ (r = 0 ∨ r = -1 ∧ fs'.Full)

variable {fs fs₀ : Fs} {ps : List (Nat × Nat)} {ino d : Nat} {blocks : List Nat} {content puts : List (Nat × Nat)} {m : Nat → Option Nat}

theorem Gives.eq {α : Type} {f : Nat → Option α} {r r' : α} (h : Gives f r) (h' : Gives f r') : r = r' := by
  obtain ⟨bound, h⟩ := h
  obtain ⟨bound', h'⟩ := h'
  exact Option.some.inj ((h _ (Nat.le_max_left bound bound')).symm.trans (h' _ (Nat.le_max_right bound bound')))

theorem lastPut_append (puts : List (Nat × Nat)) (i v idx : Nat) :
    lastPut (puts ++ [(i, v)]) idx = if idx = i then some v else lastPut puts idx := by
  rw [lastPut, List.filter_append, List.filter_singleton, lastPut]
  by_cases h : idx = i
  · subst h
    simp
  · have hne : ¬ i = idx := fun heq => h heq.symm
    simp [h, hne]

theorem Stands.sorted (h : Stands fs ps d blocks content) : Sorted content := by
  induction h with
  | leaves _ hranged => exact hranged.sorted fun p _ => entries_sorted fs p.2
  | inner _ _ _ ih => exact ih

theorem Standing.mapped (h : Standing fs ino d blocks content) (hroom : Roomy fs blocks)
    (hm : ∀ idx lba, (idx, lba) ∈ content ↔ m idx = some lba) : Mapped fs ino m where
  bmap idx := by
    obtain ⟨found, hfound, hiff⟩ := blBmap_spec h idx
    have hsame : found = m idx := Option.ext fun lba => (hiff lba).trans (hm idx lba)
    exact ⟨fs, d + 1, fun turns hturns => hsame ▸ hfound turns hturns⟩
  all := ⟨content, fs, ⟨d + blocks.length + 1, fun _ hturns => blBmapAll_spec h hturns⟩, h.stands.sorted, hm⟩
  nodes := by
    obtain ⟨nodes, hnodes, hnodup, hiff⟩ := blMapNodes_spec h
    exact ⟨nodes, fs, ⟨blocks.length, hnodes⟩, hnodup, hiff⟩
  room k b hbelow := by
    obtain ⟨t, qs, d', lower, hstands, hsub, hb, -⟩ := h.stands.row_below (List.mem_singleton.mpr rfl) hbelow
    exact hroom b (hsub (hstands.tops (t, b) hb))
  level := by
    refine ⟨d, fun k b hbelow hL => ?_⟩
    obtain ⟨t, qs, d', lower, hstands, -, hb, rfl⟩ := h.stands.row_below (List.mem_singleton.mpr rfl) hbelow
    cases hstands with
    | leaves => rfl
    | inner hI => cases hL.kind_eq (hI (t, b) hb).1
  least k b hbelow hI := by
    obtain ⟨t, qs, d', lower, hstands, -, hb, -⟩ := h.stands.row_below (List.mem_singleton.mpr rfl) hbelow
    cases hstands with
    | leaves hL => cases hI.kind_eq (hL (t, b) hb)
    | inner hinner hranged hstands =>
      obtain ⟨-, c, rest, hentries⟩ := hinner (t, b) hb
      exact ⟨t, c, rest, hentries, fun j leaf idx lba hleaf hL hidx =>
        (Stands.inner hinner hranged hstands).low hb hleaf hL hidx⟩
  put idx lba := by
    obtain ⟨r, fs', hr, hcases⟩ := blBmapPut_spec h hroom idx lba
    exact ⟨r, fs', ⟨d + 2, hr⟩, hcases.symm.imp And.left id⟩

section

variable {fs' : Fs} {node : Node}

theorem blNode_loaded {b : Nat} {inode : Bool} (h : blNode fs b inode = some (node, fs')) :
    fs'.nodes b = some node ∧ fs'.free = fs.free ∧ ∀ x, x ≠ b → fs'.nodes x = fs.nodes x := by
  unfold blNode at h
  split at h
  · cases h
    exact ⟨‹_›, rfl, fun _ _ => rfl⟩
  · obtain ⟨read, -, hread⟩ := Option.map_eq_some_iff.mp h
    cases hread
    exact ⟨Function.update_self _ _ _, rfl, fun x hx => Function.update_of_ne hx _ _⟩

theorem blMapPath_loaded (h : blNode fs ino true = some (node, fs')) (turns idx : Nat) :
    blMapPath turns fs ino idx = blMapPath turns fs' ino idx := by
  cases turns with
  | zero => rfl
  | succ turns =>
    unfold blMapPath mapPathFrom
    rw [h, blNode_cached (blNode_loaded h).1]

theorem blBmap_loaded (h : blNode fs ino true = some (node, fs')) (turns idx : Nat) :
    blBmap turns fs ino idx = blBmap turns fs' ino idx := by
  unfold blBmap
  rw [blMapPath_loaded h]

theorem blBmapPut_loaded (h : blNode fs ino true = some (node, fs')) (turns idx lba : Nat) :
    blBmapPut turns fs ino idx lba = blBmapPut turns fs' ino idx lba := by
  unfold blBmapPut
  rw [blMapPath_loaded h]

theorem blBmapAll_loaded (h : blNode fs ino true = some (node, fs')) (turns : Nat) :
    blBmapAll turns fs ino = blBmapAll turns fs' ino := by
  unfold blBmapAll
  rw [h, blNode_cached (blNode_loaded h).1]

theorem blMapNodes_loaded (h : blNode fs ino true = some (node, fs')) (turns : Nat) :
    blMapNodes turns fs ino = blMapNodes turns fs' ino := by
  cases turns with
  | zero => rfl
  | succ turns =>
    unfold blMapNodes mapNodesFrom
    rw [decide_eq_true rfl, h, blNode_cached (blNode_loaded h).1]

theorem EmptyMap.standing (h : EmptyMap fs ino) : ∃ node fs', blNode fs ino true = some (node, fs') ∧ node.kind = .L ∧
    Standing fs' ino 0 [ino] [] ∧ Roomy fs' [ino] := by
  obtain ⟨node, fs', hload, hL, hnext, hmap, hblock⟩ := h.node
  obtain ⟨hnode, hfree, hother⟩ := blNode_loaded hload
  have hentries : fs'.entries ino = [] := by rw [Fs.entries_of_node hnode, hmap]; rfl
  have hline : line fs'.entries [(0, ino)] = [] := by rw [line_cons, hentries]; rfl
  refine ⟨node, fs', hload, hL, ⟨?_, List.nodup_singleton _, by simpa using h.nonzero.symm, ?_⟩, fun x hx => ?_⟩
  · have hstands : Stands fs' [(0, ino)] 0 [ino] (line fs'.entries [(0, ino)]) := by
      refine .leaves (fun p hp => ?_) ⟨fun p _ e _ => ?_, List.pairwise_singleton _ _⟩ ⟨?_, trivial⟩
      · exact List.mem_singleton.mp hp ▸ ⟨node, hnode, hL, hblock⟩
      · exact List.mem_singleton.mp ‹p ∈ _› ▸ Nat.zero_le _
      · exact (Fs.next_of_node hnode).trans hnext
    rw [hline] at hstands
    exact hstands
  · have hspare : ∀ b, fs'.Spare b → fs.Spare b := fun b hb => by
      unfold Fs.Spare at hb ⊢
      rwa [hfree] at hb
    refine ⟨hfree ▸ h.sound.apart, fun b hb => ⟨(h.sound.unused b (hspare b hb)).1, ?_⟩⟩
    have hne : b ≠ ino := fun heq => h.busy (heq ▸ hspare b hb)
    exact (hother b hne).trans (h.sound.unused b (hspare b hb)).2
  · rw [List.mem_singleton.mp hx, hentries]
    exact Nat.zero_le _

theorem Below.of_leaf {a k b : Nat} (h : Below fs a k b) (hI : ¬ fs.Has .I a) : k = 0 ∧ b = a := by
  cases h with
  | here => exact ⟨rfl, rfl⟩
  | child hinner => exact absurd hinner hI

theorem EmptyMap.mapped (h : EmptyMap fs ino) : Mapped fs ino fun _ => none := by
  obtain ⟨node, fs', hload, hL, hstanding, hroom⟩ := h.standing
  have hmapped : Mapped fs' ino fun _ => none := hstanding.mapped hroom fun idx lba => by simp
  have hnode := (blNode_loaded hload).1
  have hleaf' : ¬ fs'.Has .I ino := by
    rintro ⟨inner, hinner, hI, -⟩
    cases hinner.symm.trans hnode
    cases hI.symm.trans hL
  have hsame : ∀ inner, fs.nodes ino = some inner → inner = node := fun inner hinner => by
    rw [blNode_cached hinner] at hload
    exact congrArg Prod.fst (Option.some.inj hload)
  have hleaf : ¬ fs.Has .I ino := by
    rintro ⟨inner, hinner, hI, -⟩
    exact absurd (hI.symm.trans (hsame inner hinner ▸ hL)) (by decide)
  refine ⟨fun idx => ?_, ?_, ?_, fun k b hbelow => ?_, ⟨0, fun k b hbelow _ => (hbelow.of_leaf hleaf).1⟩, fun k b hbelow hI => ?_,
    fun idx lba => ?_⟩
  · obtain ⟨found, hfound⟩ := hmapped.bmap idx
    exact ⟨found, by simpa only [blBmap_loaded hload] using hfound⟩
  · obtain ⟨pairs, fs₁, hall, hpairs⟩ := hmapped.all
    exact ⟨pairs, fs₁, by simpa only [blBmapAll_loaded hload] using hall, hpairs⟩
  · obtain ⟨nodes, fs₁, hnodes, hnodup, hiff⟩ := hmapped.nodes
    refine ⟨nodes, fs₁, by simpa only [blMapNodes_loaded hload] using hnodes, hnodup, fun b => (hiff b).trans ?_⟩
    exact ⟨fun ⟨k, hk⟩ => absurd (hk.of_leaf hleaf').1 k.succ_ne_zero, fun ⟨k, hk⟩ => absurd (hk.of_leaf hleaf).1 k.succ_ne_zero⟩
  · obtain ⟨-, rfl⟩ := hbelow.of_leaf hleaf
    cases hcached : fs.nodes b with
    | none =>
      have hnil : fs.entries b = [] := by rw [Fs.entries, hcached]
      rw [hnil]
      exact Nat.zero_le _
    | some inner =>
      have heq : fs.entries b = fs'.entries b := by
        rw [Fs.entries_of_node hcached, Fs.entries_of_node hnode, hsame inner hcached]
      rw [heq]
      exact hroom b (List.mem_singleton.mpr rfl)
  · obtain ⟨-, rfl⟩ := hbelow.of_leaf hleaf
    exact absurd hI hleaf
  · obtain ⟨r, fs₁, hput, hr⟩ := hmapped.put idx lba
    exact ⟨r, fs₁, by simpa only [blBmapPut_loaded hload] using hput, hr⟩

end

theorem Puts.standing (hempty : EmptyMap fs₀ ino) (h : Puts fs₀ ino puts fs) :
    (puts = [] ∧ fs = fs₀) ∨ ∃ d blocks content, Standing fs ino d blocks content ∧ Roomy fs blocks ∧
      ∀ idx lba, (idx, lba) ∈ content ↔ lastPut puts idx = some lba := by
  induction h with
  | nil => exact .inl ⟨rfl, rfl⟩
  | @put puts fs fs' idx lba _ hput ih =>
    refine .inr ?_
    obtain ⟨d, blocks, content, fs₁, hstanding, hroom, hm, hsame⟩ : ∃ d blocks content fs₁, Standing fs₁ ino d blocks content ∧
        Roomy fs₁ blocks ∧ (∀ idx lba, (idx, lba) ∈ content ↔ lastPut puts idx = some lba) ∧
        ∀ turns, blBmapPut turns fs ino idx lba = blBmapPut turns fs₁ ino idx lba := by
      rcases ih with ⟨rfl, rfl⟩ | ⟨d, blocks, content, hstanding, hroom, hm⟩
      · obtain ⟨node, fs₁, hload, -, hstanding, hroom⟩ := hempty.standing
        exact ⟨_, _, _, fs₁, hstanding, hroom, fun idx lba => by simp [lastPut], fun turns => blBmapPut_loaded hload turns idx lba⟩
      · exact ⟨d, blocks, content, fs, hstanding, hroom, hm, fun _ => rfl⟩
    obtain ⟨r, fs₂, hruns, hcases⟩ := blBmapPut_spec hstanding hroom idx lba
    have hgives : Gives (fun turns => blBmapPut turns fs ino idx lba) (r, fs₂) :=
      ⟨d + 2, fun turns hturns => (hsame turns).trans (hruns turns hturns)⟩
    cases hput.eq hgives
    obtain ⟨hfailed, -⟩ | ⟨-, d', blocks', hstanding', hroom'⟩ := hcases
    · cases hfailed
    refine ⟨d', blocks', _, hstanding', hroom', fun i v => ?_⟩
    rw [mem_put hstanding.stands.sorted, lastPut_append, hm]
    by_cases hi : i = idx
    · simp [hi, eq_comm]
    · simp [hi]

/-- Behind any puts into an empty map, in any order, that all found room for their nodes, the map stands for what was put last. -/
theorem puts_mapped (hempty : EmptyMap fs₀ ino) (h : Puts fs₀ ino puts fs) : Mapped fs ino (lastPut puts) := by
  rcases h.standing hempty with ⟨rfl, rfl⟩ | ⟨d, blocks, content, hstanding, hroom, hm⟩
  · exact hempty.mapped
  · exact hstanding.mapped hroom hm

theorem bind_more {α β : Type} {x : Option α} {f g : α → Option β} {r : β} (hfg : ∀ a, f a = some r → g a = some r)
    (h : x.bind f = some r) : x.bind g = some r := by
  obtain ⟨a, hx, hf⟩ := Option.bind_eq_some_iff.mp h
  exact Option.bind_eq_some_iff.mpr ⟨a, hx, hfg a hf⟩

theorem mapPathFrom_more {idx turns turns' blk : Nat} {isino : Bool} {r : List Nat × Fs} (hle : turns ≤ turns')
    (h : mapPathFrom idx turns fs blk isino = some r) : mapPathFrom idx turns' fs blk isino = some r := by
  induction turns generalizing turns' fs blk isino r with
  | zero => cases h
  | succ turns ih =>
    obtain ⟨turns', rfl⟩ : ∃ more, turns' = more + 1 := ⟨turns' - 1, by omega⟩
    rw [mapPathFrom] at h ⊢
    refine bind_more (fun read h => ?_) h
    obtain ⟨node, fs₁⟩ := read
    dsimp only at h ⊢
    cases hkind : node.kind with
    | L =>
      rw [hkind] at h
      exact h
    | I =>
      rw [hkind] at h
      refine bind_more (fun sep h => bind_more (fun child h => ?_) h) h
      obtain ⟨found, hfound, h⟩ := Option.bind_eq_some_iff.mp h
      exact Option.bind_eq_some_iff.mpr ⟨found, ih (by omega) hfound, h⟩

theorem splitFull_more {turns turns' i : Nat} {path : List Nat} {r : Int × Fs} (hle : turns ≤ turns')
    (h : splitFull turns fs path i = some r) : splitFull turns' fs path i = some r := by
  induction turns generalizing turns' fs path i r with
  | zero => cases h
  | succ turns ih =>
    obtain ⟨turns', rfl⟩ : ∃ more, turns' = more + 1 := ⟨turns' - 1, by omega⟩
    rw [splitFull] at h ⊢
    refine bind_more (fun blk h => bind_more (fun read h => ?_) h) h
    obtain ⟨node, fs₁⟩ := read
    dsimp only at h ⊢
    split_ifs at h ⊢ with hfull hroot
    · exact h
    · cases hdown : moveDown fs₁ node with
      | none =>
        rw [hdown] at h
        exact h
      | some down =>
        rw [hdown] at h
        refine bind_more (fun made h => ?_) h
        obtain ⟨_ | _, fs⟩ := made
        · exact h
        · exact ih (by omega) h
    · refine bind_more (fun made h => ?_) h
      obtain ⟨_ | _, fs⟩ := made
      · exact h
      · exact ih (by omega) h

theorem blBmapPut_gives {turns idx lba : Nat} {r : Int × Fs} (h : blBmapPut turns fs ino idx lba = some r) :
    Gives (fun turns => blBmapPut turns fs ino idx lba) r := by
  refine ⟨turns, fun turns' hle => ?_⟩
  obtain ⟨found, hfound, h⟩ := Option.bind_eq_some_iff.mp h
  obtain ⟨blk, hblk, h⟩ := Option.bind_eq_some_iff.mp h
  obtain ⟨leaf, hleaf, h⟩ := Option.bind_eq_some_iff.mp h
  exact Option.bind_eq_some_iff.mpr ⟨found, mapPathFrom_more hle hfound, Option.bind_eq_some_iff.mpr ⟨blk, hblk,
    Option.bind_eq_some_iff.mpr ⟨leaf, hleaf, splitFull_more hle h⟩⟩⟩

/-- Puts in turn, as far as they find room. -/
def runPuts (turns : Nat) (fs : Fs) (ino : Nat) (puts : List (Nat × Nat)) : Option Fs :=
  puts.foldlM (fun fs p => (blBmapPut turns fs ino p.1 p.2).bind fun r => if r.1 = 0 then some r.2 else none) fs

theorem Puts.run {turns : Nat} {puts' : List (Nat × Nat)} {fs' : Fs} (h : Puts fs₀ ino puts fs)
    (hrun : runPuts turns fs ino puts' = some fs') : Puts fs₀ ino (puts ++ puts') fs' := by
  induction puts' generalizing puts fs with
  | nil =>
    cases hrun
    rw [List.append_nil]
    exact h
  | cons p puts' ih =>
    obtain ⟨fs₁, hput, hrun⟩ := Option.bind_eq_some_iff.mp hrun
    obtain ⟨⟨r, fs₂⟩, hgives, hzero⟩ := Option.bind_eq_some_iff.mp hput
    split_ifs at hzero with hr
    obtain rfl : r = 0 := hr
    cases hzero
    have hall := ih (h.put (blBmapPut_gives hgives)) hrun
    rwa [List.append_assoc] at hall

def rootNode : Node := ⟨.L, 0, OrdMap.empty, 5, false, true⟩

def emptyFs : Fs := ⟨OrdMap.empty.put 6 90, fun b => if b = 5 then some rootNode else none, fun _ _ => none⟩

theorem emptyFs_emptyMap : EmptyMap emptyFs 5 := by
  have hspare : ∀ b, emptyFs.Spare b → 6 ≤ b := by
    rintro b ⟨p, hp, hlow, -⟩
    obtain rfl := List.mem_singleton.mp hp
    exact hlow
  refine ⟨⟨rootNode, emptyFs, rfl, rfl, rfl, rfl, rfl⟩, by decide, fun h => absurd (hspare 5 h) (by decide), ?_, fun b hb => ?_⟩
  · exact List.pairwise_singleton _ _
  · have hb := hspare b hb
    exact ⟨by omega, if_neg (by omega)⟩

/-- 140 blocks of a file with holes: more than a node takes. -/
def manyPuts : List (Nat × Nat) := (List.range 140).map fun i => (7 * i, 800 + i)

theorem puts_mapped_many : ∃ fs, Puts emptyFs 5 manyPuts fs ∧
    ((fs.nodes 5).map fun root => (root.kind, root.map.entries)) = some (.I, [(0, 6), (448, 7)]) ∧
    Mapped fs 5 (lastPut manyPuts) := by
  have hrun : (runPuts 4 emptyFs 5 manyPuts).any (fun fs => decide
      (((fs.nodes 5).map fun root => (root.kind, root.map.entries)) = some (.I, [(0, 6), (448, 7)]))) = true := by
    decide +kernel
  obtain ⟨fs, hfs, hroot⟩ := (Option.any_eq_true ..).mp hrun
  have hputs : Puts emptyFs 5 manyPuts fs := Puts.nil.run hfs
  exact ⟨fs, hputs, of_decide_eq_true hroot, puts_mapped emptyFs_emptyMap hputs⟩

end Ussr.Belarus
