import Ussr.Library.Extents
import Ussr.Library.OrdMap

/-! The free-space map of Belarus as a component of its own: the extents that are free,
by first block, under any calls of `bl_alloc` and `bl_free`. The numbers are integers
here, as the program's are, so that a call with a count below 0 has a meaning too. -/

namespace Ussr.Belarus.FreeMap
open Extents

/-- The btree `"free"`: lengths by first block. -/
abbrev Map := OrdMap Int Int

/-- The loop of `bl_alloc` over the spans for `left` more blocks; `none` is a run-time error. -/
def allocPieces : (left : Int) → List (Int × Int) → Map → Option (List (Int × Int) × Map)
  | left, [], free => if 0 < left then none else some ([], free)
  | left, (s, l) :: spans, free =>
    if 0 < left then
      let take := if left < l then left else l
      let free := free.del s
      let free := if take < l then free.put (s + take) (l - take) else free
      (allocPieces (left - take) spans free).map fun rest => ((s, take) :: rest.1, rest.2)
    else some ([], free)

/-- `bl_alloc`: the extents taken, the inner `none` for null, and the map behind the call. -/
def blAlloc (free : Map) (count : Int) : Option (Option (List (Int × Int)) × Map) :=
  match free.entries.find? fun p => count ≤ p.2 with
  | some (s, l) =>
    let left := free.del s
    some (some [(s, count)], if count < l then left.put (s + count) (l - count) else left)
  | none =>
    if total free.entries < count then some (none, free)
    else (allocPieces count free.entries free).map fun taken => (some taken.1, taken.2)

/-- The first half of `bl_free`: the span that ends where the range starts joins it. -/
def joinLeft (free : Map) (start count : Int) : Map × Int × Int :=
  match (free.floor start).bind fun p => (free.get p).map fun pl => (p, pl) with
  | some (p, pl) => if p + pl = start then (free.del p, p, count + pl) else (free, start, count)
  | none => (free, start, count)

def blFree (free : Map) (start count : Int) : Map :=
  let (free, start, count) := joinLeft free start count
  match free.get (start + count) with
  | some al => (free.del (start + count)).put start (count + al)
  | none => free.put start count

section

variable {free free' : Map} {es : List (Int × Int)} {s l count left : Int} {as bs spans : List (Int × Int)}

theorem take_front (hentries : free.entries = as ++ (s, l) :: bs) (hneat : Neat free.entries) (hcount : 0 ≤ count) :
    (if count < l then (free.del s).put (s + count) (l - count) else free.del s).entries =
      if count < l then as ++ (s + count, l - count) :: bs else as ++ bs := by
  have hdel : (free.del s).entries = as ++ bs := OrdMap.del_of_entries hentries
  split_ifs with hmore
  · have haround := OrdMap.around_of_entries hentries
    have hbehind := (neat_cons.mp (neat_append.mp (hentries ▸ hneat)).2.1).2.2
    refine OrdMap.put_of_around hdel ⟨fun a ha => ?_, fun b hb => ?_⟩ _
    · have := haround.before a ha
      omega
    · have := hbehind b hb
      simp only at this
      omega
  · exact hdel

structure Taken (free : List (Int × Int)) (count : Int) (given : List (Int × Int)) (left : List (Int × Int)) : Prop where
  apart : given.Pairwise fun d e => Disjoint (span d) (span e)
  lengths : ∀ e ∈ given, 0 ≤ e.2
  total : Extents.total given = count
  neat : Neat left
  disjoint : Disjoint (blocks given) (blocks left)
  whole : blocks given ∪ blocks left = blocks free

theorem taken_front (hneat : Neat (as ++ (s, l) :: bs)) (hcount : 0 ≤ count) (hl : count ≤ l) :
    Taken (as ++ (s, l) :: bs) count [(s, count)] (if count < l then as ++ (s + count, l - count) :: bs else as ++ bs) := by
  have happend := neat_append.mp hneat
  have hcons := neat_cons.mp happend.2.1
  have hbefore : ∀ a ∈ as, a.1 + a.2 < s := fun a ha => happend.2.2 a ha _ List.mem_cons_self
  have hbehind : ∀ b ∈ bs, s + l < b.1 := hcons.2.2
  have hin : ∀ b, b ∈ blocks as → b < s := by
    rintro b ⟨a, ha, hb⟩
    have := hbefore a ha
    simp only [mem_span] at hb
    omega
  have hout : ∀ b, b ∈ blocks bs → s + l < b := by
    rintro b ⟨e, he, hb⟩
    have := hbehind e he
    simp only [mem_span] at hb
    omega
  refine ⟨List.pairwise_singleton _ _, List.forall_mem_singleton.mpr hcount, by simp, ?_, ?_, ?_⟩
  · split_ifs with hmore
    · refine happend.1.insert hcons.2.1 (by simpa using hmore) (fun a ha => ?_) (fun b hb => ?_)
      · have := hbefore a ha
        simp only
        omega
      · have := hbehind b hb
        simp only
        omega
    · refine neat_append.mpr ⟨happend.1, hcons.2.1, fun a ha b hb => ?_⟩
      have := hbefore a ha
      have := hbehind b hb
      have := hcons.1
      omega
  · rw [Set.disjoint_left]
    intro b hb hb'
    simp only [blocks_cons, blocks_nil, Set.union_empty, mem_span] at hb
    split_ifs at hb' with hmore
    · simp only [blocks_append, blocks_cons, Set.mem_union, mem_span] at hb'
      rcases hb' with hb' | hb' | hb'
      · have := hin b hb'
        omega
      · omega
      · have := hout b hb'
        omega
    · rcases (blocks_append as bs ▸ hb' : b ∈ blocks as ∪ blocks bs) with hb' | hb'
      · have := hin b hb'
        omega
      · have := hout b hb'
        omega
  · split_ifs with hmore
    · simp only [blocks_append, blocks_cons, blocks_nil, Set.union_empty, span_split hcount hl]
      ac_rfl
    · obtain rfl : count = l := le_antisymm hl (not_lt.mp hmore)
      simp only [blocks_append, blocks_cons, blocks_nil, Set.union_empty]
      ac_rfl

theorem allocPieces_spec (hentries : free.entries = spans) (hneat : Neat spans) (hleft : 0 ≤ left) (hroom : left ≤ total spans) :
    ∃ given free', allocPieces left spans free = some (given, free') ∧ Taken spans left given free'.entries := by
  induction spans generalizing left free with
  | nil =>
    obtain rfl : left = 0 := le_antisymm hroom hleft
    refine ⟨[], free, by simp [allocPieces], .nil, by simp, rfl, hentries ▸ neat_nil, by simp, by simp [hentries]⟩
  | cons e spans ih =>
    obtain ⟨s, l⟩ := e
    have hcons := neat_cons.mp hneat
    have hpos : 0 < l := hcons.1
    have hfirst : free.entries = [] ++ (s, l) :: spans := hentries
    rw [allocPieces]
    by_cases hmore : 0 < left
    · rw [if_pos hmore]
      have hneat' : Neat free.entries := hentries ▸ hneat
      by_cases hpart : left < l
      · -- The last piece is the front of a span.
        have hfree := take_front hfirst hneat' hleft
        have htaken := taken_front (hfirst ▸ hneat') hleft hpart.le
        rw [if_pos hpart] at hfree htaken
        simp only [if_pos hpart, sub_self] at hfree ⊢
        refine ⟨[(s, left)], (free.del s).put (s + left) (l - left), ?_, hfree ▸ htaken⟩
        cases spans <;> simp [allocPieces]
      · -- A whole span goes, and the rest comes from the spans behind it.
        have hdel : (free.del s).entries = spans := OrdMap.del_of_entries hfirst
        rw [total_cons] at hroom
        have hleft' : 0 ≤ left - l := by omega
        obtain ⟨given, free', hrest, htaken⟩ := ih hdel hcons.2.1 hleft' (by omega)
        simp only [if_neg hpart, lt_irrefl, if_false, hrest, Option.map_some]
        have hhead := hneat.head_disjoint
        have hsub : blocks given ⊆ blocks spans := htaken.whole ▸ Set.subset_union_left
        have hleave : blocks free'.entries ⊆ blocks spans := htaken.whole ▸ Set.subset_union_right
        refine ⟨_, _, rfl, ?_, ?_, ?_, htaken.neat, ?_, ?_⟩
        · exact List.pairwise_cons.mpr ⟨fun e he => hhead.mono_right ((span_subset_blocks he).trans hsub), htaken.apart⟩
        · exact List.forall_mem_cons.mpr ⟨hpos.le, htaken.lengths⟩
        · rw [total_cons, htaken.total]
          omega
        · rw [blocks_cons, Set.disjoint_union_left]
          exact ⟨hhead.mono_right hleave, htaken.disjoint⟩
        · rw [blocks_cons, blocks_cons, Set.union_assoc, htaken.whole]
    · rw [if_neg hmore]
      obtain rfl : left = 0 := le_antisymm (not_lt.mp hmore) hleft
      exact ⟨[], free, rfl, .nil, by simp, rfl, hentries ▸ hneat, by simp, by simp [hentries]⟩

theorem blAlloc_spec (hneat : Neat free.entries) (hcount : 0 ≤ count) :
    (total free.entries < count ∧ blAlloc free count = some (none, free)) ∨
      ∃ given free', count ≤ total free.entries ∧ blAlloc free count = some (some given, free') ∧
        Taken free.entries count given free'.entries := by
  unfold blAlloc
  cases hfind : free.entries.find? fun p => decide (count ≤ p.2) with
  | some p =>
    obtain ⟨s, l⟩ := p
    right
    have hl : count ≤ l := by simpa using List.find?_some hfind
    obtain ⟨as, bs, hentries⟩ := List.append_of_mem (List.mem_of_find?_eq_some hfind)
    refine ⟨_, _, ?_, rfl, ?_⟩
    · have hrest := fun es (h : ∀ e ∈ es, 0 < e.2) => total_nonneg fun e he => (h e he).le
      have happend := neat_append.mp (hentries ▸ hneat)
      have has := hrest as happend.1.positive
      have hbs := hrest bs (neat_cons.mp happend.2.1).2.1.positive
      have htotal : total free.entries = total as + (l + total bs) := by simp [hentries, total]
      omega
    · rw [take_front hentries hneat hcount, hentries]
      exact taken_front (hentries ▸ hneat) hcount hl
  | none =>
    by_cases hroom : total free.entries < count
    · exact .inl ⟨hroom, by simp only [if_pos hroom]⟩
    · right
      obtain ⟨given, free', hpieces, htaken⟩ := allocPieces_spec rfl hneat hcount (not_lt.mp hroom)
      exact ⟨given, free', not_lt.mp hroom, by simp only [if_neg hroom, hpieces, Option.map_some], htaken⟩

end

section

variable {free : Map} {start count : Int} {as bs : List (Int × Int)}

structure Beside (free : Map) (start count : Int) (as bs : List (Int × Int)) : Prop where
  entries : free.entries = as ++ bs
  neat : Neat (as ++ bs)
  pos : 0 < count
  before : ∀ a ∈ as, a.1 + a.2 ≤ start
  behind : ∀ b ∈ bs, start + count ≤ b.1

theorem exists_beside (hneat : Neat free.entries) (hpos : 0 < count)
    (hout : Disjoint (span (start, count)) (blocks free.entries)) : ∃ as bs, Beside free start count as bs := by
  have hapart : ∀ e ∈ free.entries, e.1 + e.2 ≤ start ∨ start + count ≤ e.1 := by
    intro e he
    by_contra h
    push Not at h
    have hlen := hneat.positive e he
    have hmem : max e.1 start ∈ span (start, count) := by
      simp only [mem_span]
      omega
    have hmem' : max e.1 start ∈ span e := by
      simp only [mem_span]
      omega
    exact Set.disjoint_left.mp hout hmem ⟨e, he, hmem'⟩
  have hget : free.get start = none := by
    refine OrdMap.get_eq_none_iff.mpr fun e he heq => ?_
    have := hapart e he
    have := hneat.positive e he
    omega
  obtain ⟨as, bs, hentries, haround⟩ := OrdMap.around_of_get_none hget (0 : Int)
  have hmem : ∀ e, e ∈ as ∨ e ∈ bs → e ∈ free.entries := fun e he => hentries ▸ List.mem_append.mpr he
  refine ⟨as, bs, hentries, hentries ▸ hneat, hpos, fun a ha => ?_, fun b hb => ?_⟩
  · have := hapart a (hmem a (.inl ha))
    have := haround.before a ha
    omega
  · have := hapart b (hmem b (.inr hb))
    have := haround.behind b hb
    have := hneat.positive b (hmem b (.inr hb))
    omega

theorem joinLeft_spec (h : Beside free start count as bs) : ∃ free' start' count' as',
    joinLeft free start count = (free', start', count') ∧ Beside free' start' count' as' bs ∧
      start' + count' = start + count ∧ (∀ a ∈ as', a.1 + a.2 < start') ∧
      blocks as' ∪ span (start', count') = blocks as ∪ span (start, count) := by
  have happend := neat_append.mp h.neat
  have hbehind : ∀ b ∈ bs, start < b.1 := fun b hb => by
    have := h.behind b hb
    have := h.pos
    omega
  unfold joinLeft
  cases List.eq_nil_or_concat as with
  | inl hnil =>
    subst hnil
    have hfloor : free.floor start = none := OrdMap.floor_eq_none_iff.mpr fun e he => hbehind e (by simpa [h.entries] using he)
    exact ⟨_, _, _, [], by rw [hfloor]; rfl, h, rfl, by simp, rfl⟩
  | inr hlast =>
    obtain ⟨as, ⟨p, pl⟩, rfl⟩ := hlast
    have hentries : free.entries = as ++ (p, pl) :: bs := by rw [h.entries, List.concat_append]
    have hneat : Neat (as ++ (p, pl) :: bs) := hentries ▸ h.entries ▸ h.neat
    have hsplit := neat_append.mp hneat
    have hcons := neat_cons.mp hsplit.2.1
    have hp : p + pl ≤ start := h.before (p, pl) (by simp)
    have hpl : 0 < pl := hcons.1
    have hfloor : free.floor start = some p := OrdMap.floor_eq_some_iff.mpr ⟨pl, as, bs, hentries, by omega, hbehind⟩
    have hget : free.get p = some pl := OrdMap.get_eq_some_iff.mpr (hentries ▸ by simp)
    have hbefore : ∀ a ∈ as, a.1 + a.2 < p := fun a ha => hsplit.2.2 a ha _ List.mem_cons_self
    simp only [hfloor, Option.bind_some, hget, Option.map_some]
    by_cases htouch : p + pl = start
    · rw [if_pos htouch]
      refine ⟨_, _, _, as, rfl, ⟨OrdMap.del_of_entries hentries, ?_, ?_, fun a ha => (hbefore a ha).le, fun b hb => ?_⟩, ?_,
        hbefore, ?_⟩
      · refine neat_append.mpr ⟨hsplit.1, hcons.2.1, fun a ha b hb => ?_⟩
        have := hbefore a ha
        have := hbehind b hb
        omega
      · have := h.pos
        omega
      · have := h.behind b hb
        omega
      · omega
      · have hjoin : span (p, count + pl) = span (p, pl) ∪ span (start, count) := by
          ext b
          have := h.pos
          simp only [mem_span, Set.mem_union]
          omega
        simp only [List.concat_eq_append, blocks_append, blocks_cons, blocks_nil, Set.union_empty, hjoin, Set.union_assoc]
    · rw [if_neg htouch]
      refine ⟨_, _, _, _, rfl, h, rfl, fun a ha => ?_, rfl⟩
      rcases List.mem_append.mp (List.concat_eq_append ▸ ha) with ha | ha
      · have := hbefore a ha
        omega
      · obtain rfl := List.mem_singleton.mp ha
        exact lt_of_le_of_ne hp htouch

theorem blFree_spec (hneat : Neat free.entries) (hpos : 0 < count)
    (hout : Disjoint (span (start, count)) (blocks free.entries)) : Neat (blFree free start count).entries ∧
      blocks (blFree free start count).entries = blocks free.entries ∪ span (start, count) := by
  obtain ⟨as₀, bs, h₀⟩ := exists_beside hneat hpos hout
  obtain ⟨free', start', count', as, hjoin, h, hend, hbefore, hleft⟩ := joinLeft_spec h₀
  have hwhole : blocks free.entries ∪ span (start, count) = blocks as ∪ span (start', count') ∪ blocks bs := by
    rw [hleft, h₀.entries, blocks_append]
    ac_rfl
  have happend := neat_append.mp h.neat
  have haround : OrdMap.Around start' as bs := by
    refine ⟨fun a ha => ?_, fun b hb => ?_⟩
    · have := hbefore a ha
      have := happend.1.positive a ha
      omega
    · have := h.behind b hb
      have := h.pos
      omega
  simp only [blFree, hjoin, hwhole]
  cases hget : free'.get (start' + count') with
  | none =>
    have hput := OrdMap.put_of_around h.entries haround count'
    simp only [hput]
    refine ⟨happend.1.insert happend.2.1 h.pos hbefore fun b hb => lt_of_le_of_ne (h.behind b hb) fun heq => ?_, ?_⟩
    · exact OrdMap.get_eq_none_iff.mp hget b (h.entries ▸ List.mem_append_right _ hb) heq.symm
    · rw [blocks_append, blocks_cons, Set.union_assoc]
  | some al =>
    -- The span that starts where the range ends is the first one behind it.
    obtain ⟨bs', rfl⟩ : ∃ bs', bs = (start' + count', al) :: bs' := by
      have hmem := h.entries ▸ OrdMap.get_eq_some_iff.mp hget
      rcases List.mem_append.mp hmem with hmem | hmem
      · have := hbefore _ hmem
        have := happend.1.positive _ hmem
        have := h.pos
        simp only at *
        omega
      · cases bs with
        | nil => cases hmem
        | cons b bs' =>
          rcases List.mem_cons.mp hmem with rfl | hmem
          · exact ⟨bs', rfl⟩
          · have hcons := neat_cons.mp happend.2.1
            have := hcons.2.2 _ hmem
            have := hcons.1
            have := h.behind b List.mem_cons_self
            simp only at *
            omega
    have hcons := neat_cons.mp happend.2.1
    have hal : 0 < al := hcons.1
    have hdel : (free'.del (start' + count')).entries = as ++ bs' := OrdMap.del_of_entries h.entries
    have haround' : OrdMap.Around start' as bs' := ⟨haround.before, fun b hb => haround.behind b (List.mem_cons_of_mem _ hb)⟩
    have hput := OrdMap.put_of_around hdel haround' (count' + al)
    simp only [hput]
    have hpos' : 0 < count' + al := add_pos h.pos hal
    refine ⟨happend.1.insert hcons.2.1 hpos' hbefore fun b hb => ?_, ?_⟩
    · have := hcons.2.2 b hb
      simp only at *
      omega
    · have hjoin' : span (start', count' + al) = span (start', count') ∪ span (start' + count', al) := by
        ext b
        have := h.pos
        simp only [mem_span, Set.mem_union]
        omega
      rw [blocks_append, blocks_cons, blocks_cons, hjoin']
      ac_rfl

end

section

inductive Call where
  | alloc (count : Int)
  | free (start count : Int)

structure Space where
  free : Map
  taken : Set Int

inductive Does : Space → Call → Space → Prop where
  | given {s : Space} {count : Int} {es : List (Int × Int)} {free' : Map} : blAlloc s.free count = some (some es, free') →
      Does s (.alloc count) ⟨free', s.taken ∪ blocks es⟩
  | refused {s : Space} {count : Int} {free' : Map} : blAlloc s.free count = some (none, free') →
      Does s (.alloc count) ⟨free', s.taken⟩
  | freed {s : Space} {start count : Int} : span (start, count) ⊆ s.taken →
      Does s (.free start count) ⟨blFree s.free start count, s.taken \ span (start, count)⟩

inductive Runs (allowed : Call → Prop) (start : Map) : Space → Prop where
  | start : Runs allowed start ⟨start, ∅⟩
  | call {s s' : Space} {c : Call} : Runs allowed start s → allowed c → Does s c s' → Runs allowed start s'

def Call.Counted : Call → Prop
  | .alloc count => 0 ≤ count
  | .free _ count => 0 < count

structure Partitions (start : Map) (s : Space) : Prop where
  neat : Neat s.free.entries
  disjoint : Disjoint (blocks s.free.entries) s.taken
  whole : blocks s.free.entries ∪ s.taken = blocks start.entries

/-- What a call of `bl_alloc` answers. -/
def Allocates (free : Map) (count : Int) : Prop :=
  ∃ given free', blAlloc free count = some (given, free') ∧
    (given = none ↔ ((blocks free.entries).ncard : Int) < count) ∧ (given = none → free' = free) ∧
    ∀ es, given = some es → (es.Pairwise fun d e => Disjoint (span d) (span e)) ∧ (∀ e ∈ es, 0 ≤ e.2) ∧
      blocks es ⊆ blocks free.entries ∧ total es = count

variable {start : Map} {s s' : Space} {c : Call}

theorem blAlloc_allocates {free : Map} {count : Int} (hneat : Neat free.entries) (hcount : 0 ≤ count) :
    Allocates free count := by
  have hcard := hneat.ncard_blocks
  rcases blAlloc_spec hneat hcount with ⟨hroom, halloc⟩ | ⟨es, free', hroom, halloc, htaken⟩
  · refine ⟨none, free, halloc, ⟨fun _ => by omega, fun _ => rfl⟩, fun _ => rfl, fun es hes => (nomatch hes)⟩
  · refine ⟨some es, free', halloc, ⟨fun h => (nomatch h), fun h => by omega⟩, fun h => (nomatch h), ?_⟩
    rintro _ ⟨⟩
    exact ⟨htaken.apart, htaken.lengths, htaken.whole ▸ Set.subset_union_left, htaken.total⟩

theorem Partitions.step (h : Partitions start s) (hcounted : c.Counted) (hdoes : Does s c s') : Partitions start s' := by
  cases hdoes with
  | @given count es free' halloc =>
    rcases blAlloc_spec h.neat hcounted with ⟨-, hnone⟩ | ⟨es', free'', -, hsome, htaken⟩
    · cases hnone.symm.trans halloc
    cases hsome.symm.trans halloc
    have hwhole := htaken.whole
    have hrest : blocks free'.entries ⊆ blocks s.free.entries := hwhole ▸ Set.subset_union_right
    refine ⟨htaken.neat, ?_, ?_⟩
    · exact Set.disjoint_union_right.mpr ⟨h.disjoint.mono_left hrest, htaken.disjoint.symm⟩
    · show blocks free'.entries ∪ (s.taken ∪ blocks es) = _
      rw [← h.whole, ← hwhole]
      ac_rfl
  | refused halloc =>
    rcases blAlloc_spec h.neat hcounted with ⟨-, hnone⟩ | ⟨es', free'', -, hsome, -⟩
    · cases hnone.symm.trans halloc
      exact h
    · cases hsome.symm.trans halloc
  | @freed start count hsub =>
    have hout : Disjoint (span (start, count)) (blocks s.free.entries) := h.disjoint.symm.mono_left hsub
    obtain ⟨hneat, hblocks⟩ := blFree_spec h.neat hcounted hout
    refine ⟨hneat, ?_, ?_⟩
    · rw [hblocks]
      refine Set.disjoint_union_left.mpr ⟨h.disjoint.mono_right Set.sdiff_subset, Set.disjoint_sdiff_right⟩
    · rw [hblocks, Set.union_assoc, Set.union_sdiff_cancel hsub]
      exact h.whole

theorem Runs.partitions (hneat : Neat start.entries) (h : Runs Call.Counted start s) : Partitions start s := by
  induction h with
  | start => exact ⟨hneat, Set.disjoint_empty _, Set.union_empty _⟩
  | call _ hcounted hdoes ih => exact ih.step hcounted hdoes

/-- Behind any calls the free map is neat and shares the blocks of the start with those that are taken, and a
call of `bl_alloc` gets free blocks, exactly as many as it asks for, or nothing, exactly where fewer are free. -/
theorem calls_partition (hneat : Neat start.entries) (h : Runs Call.Counted start s) :
    Partitions start s ∧ ∀ count, 0 ≤ count → Allocates s.free count :=
  ⟨h.partitions hneat, fun _ => blAlloc_allocates (h.partitions hneat).neat⟩

def hundredBlocks : Map := OrdMap.empty.put 17 83

theorem hundredBlocks_neat : Neat hundredBlocks.entries :=
  ⟨List.forall_mem_singleton.mpr (by decide), List.pairwise_singleton _ _⟩

/-- Two extents are taken; the second one to come back has a free neighbour on either side. -/
theorem calls_partition_hundred : ∃ s, Runs Call.Counted hundredBlocks s ∧ s.free.entries = [(17, 83)] ∧
    Partitions hundredBlocks s ∧ ∀ count, 0 ≤ count → Allocates s.free count := by
  have hfirst : Runs Call.Counted hundredBlocks ⟨hundredBlocks.del 17 |>.put 22 78, ∅ ∪ blocks [(17, 5)]⟩ :=
    .call .start (c := .alloc 5) (by decide : (0 : Int) ≤ 5) (.given rfl)
  have hsecond := hfirst.call (c := .alloc 3) (by decide : (0 : Int) ≤ 3) (.given rfl)
  have hfreed := hsecond.call (c := .free 17 5) (by decide : (0 : Int) < 5) (.freed fun b hb => by simpa [blocks] using .inl hb)
  have hjoined := hfreed.call (c := .free 22 3) (by decide : (0 : Int) < 3) (.freed fun b hb => ?_)
  · exact ⟨_, hjoined, rfl, calls_partition hundredBlocks_neat hjoined⟩
  · -- the second piece is still in use: the first `free` gave back 17..21 only
    have hspan : 22 ≤ b ∧ b < 25 := by simpa using hb
    exact ⟨.inr ⟨(22, 3), List.mem_singleton.mpr rfl, hb⟩, fun hfirst => by
      have : 17 ≤ b ∧ b < 22 := by simpa using hfirst
      omega⟩

/-- A call for -3 blocks makes three blocks free that were not there. -/
theorem negative_count_frees : ¬ ∀ start s, Neat start.entries → Runs (fun _ => True) start s →
    Partitions start s ∧ ∀ count, Allocates s.free count := by
  intro h
  have hrun : Runs (fun _ => True) hundredBlocks ⟨hundredBlocks.del 17 |>.put 14 86, ∅ ∪ blocks [(17, -3)]⟩ :=
    .call .start (c := .alloc (-3)) trivial (.given rfl)
  have hwhole := (h _ _ hundredBlocks_neat hrun).1.whole
  have hmem : (14 : Int) ∈ blocks hundredBlocks.entries := hwhole ▸ .inl ⟨(14, 86), List.mem_singleton.mpr rfl, by simp⟩
  obtain ⟨e, he, hin⟩ := hmem
  obtain rfl : e = (17, 83) := List.mem_singleton.mp he
  simp at hin

end

end Ussr.Belarus.FreeMap
