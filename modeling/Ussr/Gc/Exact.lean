import Ussr.Gc.Mark

/-! The sweep. The first pass takes counts off garbage only and the second keeps
the marked objects, so what is left is exactly what was marked, as it was. -/

namespace Ussr.Gc

open Heap

def HeapObject.uncounted (object : HeapObject) : HeapObject :=
  { object with refcount := 0 }

structure SameMarked (heap heap' : Heap) : Prop where
  objects : heap'.map HeapObject.uncounted = heap.map HeapObject.uncounted
  marked : heap'.filter HeapObject.gcMark = heap.filter HeapObject.gcMark

namespace SameMarked

variable {heap heap' heap'' : Heap}

theorem refl (heap : Heap) : SameMarked heap heap :=
  ⟨rfl, rfl⟩

theorem trans (h : SameMarked heap heap') (h' : SameMarked heap' heap'') :
    SameMarked heap heap'' :=
  ⟨h'.objects.trans h.objects, h'.marked.trans h.marked⟩

theorem symm (h : SameMarked heap heap') : SameMarked heap' heap :=
  ⟨h.objects.symm, h.marked.symm⟩

theorem refs_eq (h : SameMarked heap heap') : heap'.refs = heap.refs := by
  have hmap := congrArg (List.map HeapObject.ref) h.objects
  rwa [List.map_map, List.map_map] at hmap

theorem exists_mem (h : SameMarked heap heap') {object : HeapObject} (hmem : object ∈ heap') :
    ∃ original ∈ heap, original.ref = object.ref ∧ original.contents = object.contents ∧
      original.gcMark = object.gcMark := by
  have hin := List.mem_map_of_mem (f := HeapObject.uncounted) hmem
  rw [h.objects] at hin
  obtain ⟨original, horiginal, heq⟩ := List.mem_map.mp hin
  refine ⟨original, horiginal, ?_, ?_, ?_⟩
  · have := congrArg HeapObject.ref heq
    exact this
  · have := congrArg HeapObject.contents heq
    exact this
  · have := congrArg HeapObject.gcMark heq
    exact this

theorem closed (h : SameMarked heap heap') (hclosed : heap.Closed) : heap'.Closed where
  distinct := h.refs_eq ▸ hclosed.distinct
  sound object hmem := by
    obtain ⟨original, horiginal, -, hcontents, -⟩ := h.exists_mem hmem
    exact hcontents ▸ hclosed.sound original horiginal
  registered object hmem := by
    obtain ⟨original, horiginal, -, hcontents, -⟩ := h.exists_mem hmem
    rw [h.refs_eq, ← hcontents]
    exact hclosed.registered original horiginal

end SameMarked

theorem modify_unref_same {heap : Heap} (hclosed : heap.Closed) {ref : ObjectRef}
    {child : HeapObject} (hfound : heap.lookup ref = some child) (hmark : child.gcMark = false) :
    SameMarked heap (heap.modify ref HeapObject.unref) := by
  have hunmarked : ∀ object ∈ heap, object.ref = ref → object.gcMark = false := by
    rintro object hmem rfl
    rw [lookup_of_mem hclosed.distinct hmem] at hfound
    cases hfound
    exact hmark
  constructor
  · unfold Heap.modify
    rw [List.map_map]
    refine List.map_congr_left fun object _ => ?_
    simp only [Function.comp_apply]
    split <;> rfl
  · unfold Heap.modify
    clear hfound hclosed
    induction heap with
    | nil => rfl
    | cons object heap ih =>
      have ih := ih fun o ho => hunmarked o (List.mem_cons_of_mem object ho)
      rw [List.map_cons]
      by_cases href : object.ref = ref
      · have hobject := hunmarked object List.mem_cons_self href
        rw [if_pos href, List.filter_cons_of_neg, List.filter_cons_of_neg, ih]
        · simp [hobject]
        · simp [hobject, HeapObject.unref]
      · rw [if_neg href, List.filter_cons, List.filter_cons, ih]

theorem gcUnrefGarbageChild_same {heap : Heap} (hclosed : heap.Closed) {value : Value}
    (hregistered : ∀ ref ∈ reference value, ref ∈ heap.refs) :
    ∃ heap', gcUnrefGarbageChild heap value = some heap' ∧ SameMarked heap heap' := by
  unfold gcUnrefGarbageChild
  cases href : reference value with
  | none => exact ⟨heap, rfl, SameMarked.refl heap⟩
  | some ref =>
    obtain ⟨child, hfound⟩ := exists_lookup (hregistered ref href)
    dsimp only
    rw [hfound]
    dsimp only
    cases hmark : child.gcMark with
    | true =>
      rw [if_pos rfl]
      exact ⟨heap, rfl, SameMarked.refl heap⟩
    | false =>
      rw [if_neg Bool.false_ne_true]
      exact ⟨_, rfl, modify_unref_same hclosed hfound hmark⟩

theorem detachObject_same {heap heap' : Heap} (hclosed : heap.Closed) (h : SameMarked heap heap')
    {object : HeapObject} (hmem : object ∈ heap) :
    ∃ heap'', detachObject heap' object = some heap'' ∧ SameMarked heap heap'' := by
  unfold detachObject
  split
  · exact ⟨heap', rfl, h⟩
  · rw [Contents.eachValue_eq (hclosed.sound object hmem)]
    refine foldlM_ends (I := SameMarked heap) (fun value hvalue heap₁ h₁ => ?_) h
    have hregistered : ∀ ref ∈ reference value, ref ∈ heap₁.refs := by
      rw [h₁.refs_eq]
      exact hclosed.registered object hmem value hvalue
    obtain ⟨heap₂, hunref, h₂⟩ := gcUnrefGarbageChild_same (h₁.closed hclosed) hregistered
    exact ⟨heap₂, hunref, h₁.trans h₂⟩

theorem detachKind_same {heap : Heap} (hclosed : heap.Closed) (kind : HeapKind) :
    ∃ heap', detachKind kind heap = some heap' ∧ SameMarked heap heap' :=
  foldlM_ends (I := SameMarked heap)
    (fun _ hmem _ h => detachObject_same hclosed h (List.mem_filter.mp hmem).1)
    (SameMarked.refl heap)

def unmarked (kind : HeapKind) (heap : Heap) : List ObjectRef :=
  refs ((heap.registry kind).filter fun object => !object.gcMark)

theorem unregister_eq {heap : Heap} (h : heap.refs.Nodup) (ref : ObjectRef) :
    heap.unregister ref = heap.filter fun object => object.ref ≠ ref := by
  induction heap with
  | nil => rfl
  | cons object heap ih =>
    obtain ⟨hnotin, hrest⟩ := List.nodup_cons.mp h
    unfold unregister
    by_cases href : object.ref = ref
    · rw [List.eraseP_cons_of_pos (by simpa using href), List.filter_cons_of_neg (by simpa using href)]
      refine (List.filter_eq_self.mpr fun other hother => ?_).symm
      have hne : other.ref ≠ ref := fun heq =>
        hnotin (href.trans heq.symm ▸ List.mem_map_of_mem hother)
      simpa using hne
    · rw [List.eraseP_cons_of_neg (by simpa using href), List.filter_cons_of_pos (by simpa using href)]
      exact congrArg _ (ih hrest)

theorem refs_filter_nodup {heap : Heap} (h : heap.refs.Nodup) (p : HeapObject → Bool) :
    (refs (heap.filter p)).Nodup :=
  h.sublist (List.filter_sublist.map _)

theorem foldl_reclaimObject (objects : List HeapObject) {heap : Heap} (h : heap.refs.Nodup)
    (destroyed : List ObjectRef) :
    objects.foldl reclaimObject ⟨heap, destroyed⟩ =
      ⟨heap.filter fun object => object.ref ∉ refs (objects.filter fun object => !object.gcMark),
        destroyed ++ refs (objects.filter fun object => !object.gcMark)⟩ := by
  induction objects generalizing heap destroyed with
  | nil => simp [refs]
  | cons object objects ih =>
    rw [List.foldl_cons]
    cases hmark : object.gcMark with
    | true => simp [reclaimObject, hmark, ih h]
    | false =>
      have hstep : reclaimObject ⟨heap, destroyed⟩ object =
          ⟨heap.filter fun other => other.ref ≠ object.ref, destroyed ++ [object.ref]⟩ := by
        simp [reclaimObject, hmark, unregister_eq h]
      have hcons : refs ((object :: objects).filter fun object => !object.gcMark) =
          object.ref :: refs (objects.filter fun object => !object.gcMark) := by
        rw [List.filter_cons_of_pos (by simp [hmark])]
        rfl
      rw [hstep, ih (refs_filter_nodup h _), List.filter_filter, hcons]
      simp [Bool.and_comm]

theorem reclaimKind_eq {heap : Heap} (h : heap.refs.Nodup) (destroyed : List ObjectRef)
    (kind : HeapKind) :
    reclaimKind ⟨heap, destroyed⟩ kind =
      ⟨heap.filter fun object => object.gcMark || object.contents.kind ≠ kind,
        destroyed ++ unmarked kind heap⟩ := by
  have hkept : ∀ object ∈ heap, decide (object.ref ∉ unmarked kind heap) =
      (object.gcMark || decide (object.contents.kind ≠ kind)) := by
    intro object hmem
    have hin : object.ref ∈ unmarked kind heap ↔
        object.contents.kind = kind ∧ object.gcMark = false := by
      simp only [unmarked, refs, registry, List.mem_map, List.mem_filter]
      constructor
      · rintro ⟨other, ⟨⟨hother, hkind⟩, hmark⟩, href⟩
        obtain rfl := List.inj_on_of_nodup_map h hother hmem href
        exact ⟨by simpa using hkind, by simpa using hmark⟩
      · rintro ⟨hkind, hmark⟩
        exact ⟨object, ⟨⟨hmem, by simpa using hkind⟩, by simp [hmark]⟩, rfl⟩
    cases hmark : object.gcMark <;> simp [hin, hmark]
  unfold reclaimKind
  rw [foldl_reclaimObject _ h]
  exact congrArg₂ Swept.mk (List.filter_congr hkept) rfl

theorem mem_unmarked {heap : Heap} {kind : HeapKind} {ref : ObjectRef} :
    ref ∈ unmarked kind heap ↔
      ref.kind = kind ∧ ∃ object ∈ heap, object.ref = ref ∧ object.gcMark = false := by
  simp only [unmarked, refs, registry, List.mem_map, List.mem_filter]
  constructor
  · rintro ⟨object, ⟨⟨hmem, hkind⟩, hmark⟩, rfl⟩
    exact ⟨of_decide_eq_true hkind, object, hmem, rfl, by simpa using hmark⟩
  · rintro ⟨hkind, object, hmem, rfl, hmark⟩
    exact ⟨object, ⟨⟨hmem, decide_eq_true hkind⟩, by simp [hmark]⟩, rfl⟩

theorem unmarked_nodup {heap : Heap} (h : heap.refs.Nodup) (kind : HeapKind) :
    (unmarked kind heap).Nodup :=
  refs_filter_nodup (refs_filter_nodup h _) _

theorem unmarked_filter (kind : HeapKind) {heap : Heap} {p : HeapObject → Bool}
    (hp : ∀ object ∈ heap, object.contents.kind = kind → p object = true) :
    unmarked kind (heap.filter p) = unmarked kind heap := by
  have hregistry : registry kind (heap.filter p) = registry kind heap := by
    unfold registry
    rw [List.filter_filter]
    refine List.filter_congr fun object hmem => ?_
    by_cases hkind : object.contents.kind = kind
    · simp [hp object hmem hkind]
    · simp [hkind]
  rw [unmarked, hregistry, unmarked]

theorem reclaim_spec {heap : Heap} (h : heap.refs.Nodup) :
    ∃ destroyed : List ObjectRef, destroyed.Nodup ∧
      (∀ ref, ref ∈ destroyed ↔ ∃ object ∈ heap, object.ref = ref ∧ object.gcMark = false) ∧
      [HeapKind.vector, .instance_, .btree].foldl reclaimKind ⟨heap, []⟩ =
        ⟨heap.filter HeapObject.gcMark, destroyed⟩ := by
  refine ⟨unmarked .vector heap ++ unmarked .instance_ heap ++ unmarked .btree heap, ?_, ?_, ?_⟩
  · have hkinds : ∀ {a b : HeapKind}, a ≠ b → (unmarked a heap).Disjoint (unmarked b heap) :=
      fun hab ref ha hb => hab ((mem_unmarked.mp ha).1.symm.trans (mem_unmarked.mp hb).1)
    refine ((unmarked_nodup h _).append (unmarked_nodup h _) (hkinds (by decide))).append
      (unmarked_nodup h _) ?_
    exact List.disjoint_append_left.mpr ⟨hkinds (by decide), hkinds (by decide)⟩
  · intro ref
    simp only [List.mem_append, mem_unmarked]
    constructor
    · rintro ((⟨-, hobject⟩ | ⟨-, hobject⟩) | ⟨-, hobject⟩) <;> exact hobject
    · intro hobject
      cases hkind : ref.kind with
      | vector => exact .inl (.inl ⟨rfl, hobject⟩)
      | instance_ => exact .inl (.inr ⟨rfl, hobject⟩)
      | btree => exact .inr ⟨rfl, hobject⟩
  · simp only [List.foldl_cons, List.foldl_nil]
    rw [reclaimKind_eq h, reclaimKind_eq (refs_filter_nodup h _),
      reclaimKind_eq (refs_filter_nodup (refs_filter_nodup h _) _), List.filter_filter,
      List.filter_filter, unmarked_filter .instance_, unmarked_filter .btree,
      unmarked_filter .btree]
    · refine congrArg₂ Swept.mk (List.filter_congr fun object _ => ?_) rfl
      cases object.contents.kind <;> cases object.gcMark <;> rfl
    all_goals
      intro object _ hkind
      simp [hkind]

/-! A whole collection. It destroys exactly what no root leads to, but a destroyed
object that referred to a survivor leaves its reference in the survivor's count. -/

open Heap

/-- The number of references to `ref` among `values`. -/
def references (ref : ObjectRef) (values : List Value) : Nat :=
  values.countP fun value => reference value = some ref

def held (heap : Heap) : List Value :=
  heap.flatMap fun object => object.contents.values

def Counted (roots : List Value) (heap : Heap) : Prop :=
  ∀ object ∈ heap, object.refcount = references object.ref (roots ++ held heap)

/-- What a collection of `heap` should leave and destroy. -/
structure Exact (roots : List Value) (heap : Heap) (swept : Swept) : Prop where
  once : swept.destroyed.Nodup
  destroyed : ∀ ref, ref ∈ swept.destroyed ↔ ref ∈ heap.refs ∧ ¬ Reachable roots heap ref
  distinct : swept.heap.refs.Nodup
  survivors : ∀ ref contents,
    (∃ object ∈ swept.heap, object.ref = ref ∧ object.contents = contents) ↔
      Reachable roots heap ref ∧ ∃ object ∈ heap, object.ref = ref ∧ object.contents = contents
  counted : Counted roots swept.heap

theorem detach_same {heap : Heap} (hclosed : heap.Closed) :
    ∃ heap', SameMarked heap heap' ∧ ussrGcSweep heap =
      some ([HeapKind.vector, .instance_, .btree].foldl reclaimKind ⟨heap', []⟩) := by
  obtain ⟨heap₁, hvector, h₁⟩ := detachKind_same hclosed .vector
  obtain ⟨heap₂, hinstance, h₂⟩ := detachKind_same (h₁.closed hclosed) .instance_
  obtain ⟨heap₃, hbtree, h₃⟩ := detachKind_same (h₂.closed (h₁.closed hclosed)) .btree
  refine ⟨heap₃, (h₁.trans h₂).trans h₃, ?_⟩
  unfold ussrGcSweep
  simp only [hvector, hinstance, hbtree, Option.bind_eq_bind, Option.bind_some]
  rfl

theorem ussrGcSweep_spec {heap : Heap} (hclosed : heap.Closed) :
    ∃ destroyed : List ObjectRef, destroyed.Nodup ∧
      (∀ ref, ref ∈ destroyed ↔ ∃ object ∈ heap, object.ref = ref ∧ object.gcMark = false) ∧
      ussrGcSweep heap = some ⟨heap.filter HeapObject.gcMark, destroyed⟩ := by
  obtain ⟨heap', hsame, hsweep⟩ := detach_same hclosed
  obtain ⟨destroyed, hnodup, hmem, hreclaim⟩ := reclaim_spec (hsame.closed hclosed).distinct
  refine ⟨destroyed, hnodup, fun ref => (hmem ref).trans ⟨?_, ?_⟩, ?_⟩
  · rintro ⟨object, hobject, rfl, hmark⟩
    obtain ⟨original, horiginal, href, -, hsamemark⟩ := hsame.exists_mem hobject
    exact ⟨original, horiginal, href, hsamemark.trans hmark⟩
  · rintro ⟨object, hobject, rfl, hmark⟩
    obtain ⟨left, hleft, href, -, hsamemark⟩ := hsame.symm.exists_mem hobject
    exact ⟨left, hleft, href, hsamemark.trans hmark⟩
  · rw [hsweep, hreclaim, hsame.marked]

structure WellFormed (roots : List Value) (heap : Heap) : Prop where
  closed : heap.Closed
  roots : ∀ root ∈ roots, ∀ ref ∈ reference root, ref ∈ heap.refs

def survivors (M : Finset ObjectRef) (heap : Heap) : Heap :=
  heap.filter fun object => object.ref ∈ M

theorem filter_withMarks (M : Finset ObjectRef) (heap : Heap) :
    (heap.withMarks M).filter HeapObject.gcMark = (survivors M heap).withMarks M :=
  List.filter_map

theorem gcCycle_spec {roots : List Value} {heap : Heap} (h : WellFormed roots heap) :
    ∃ (M : Finset ObjectRef) (destroyed : List ObjectRef), (∀ ref ∈ M, ref ∈ heap.refs) ∧
      (∀ ref, ref ∈ M ↔ Reachable roots heap ref) ∧ destroyed.Nodup ∧
      (∀ ref, ref ∈ destroyed ↔ ref ∈ heap.refs ∧ ref ∉ M) ∧
      ∀ fuel, heap.length + 1 < fuel →
        gcCycle fuel roots heap = some ⟨(survivors M heap).withMarks M, destroyed⟩ := by
  obtain ⟨M, hM, hreach, -⟩ := markRoots_spec h.closed h.roots (Nat.lt_succ_self heap.length)
  obtain ⟨destroyed, hnodup, hmem, hsweep⟩ := ussrGcSweep_spec (h.closed.withMarks M)
  refine ⟨M, destroyed, hM, hreach, hnodup, fun ref => (hmem ref).trans ⟨?_, ?_⟩, ?_⟩
  · rintro ⟨object, hobject, rfl, hmark⟩
    obtain ⟨original, horiginal, rfl⟩ := List.mem_map.mp hobject
    exact ⟨List.mem_map.mpr ⟨original, horiginal, rfl⟩, of_decide_eq_false hmark⟩
  · rintro ⟨href, hnotin⟩
    obtain ⟨original, horiginal, rfl⟩ := List.mem_map.mp href
    exact ⟨_, List.mem_map_of_mem horiginal, rfl, decide_eq_false hnotin⟩
  · intro fuel hfuel
    obtain ⟨fuel, rfl⟩ := Nat.exists_eq_add_one_of_ne_zero (by omega : fuel ≠ 0)
    obtain ⟨M', -, hreach', hmark⟩ := markRoots_spec h.closed h.roots (Nat.lt_of_succ_lt_succ hfuel)
    obtain rfl : M' = M := Finset.ext fun ref => (hreach' ref).trans (hreach ref).symm
    rw [gcCycle, hmark, Option.bind_some, hsweep, filter_withMarks]

theorem references_append (ref : ObjectRef) (values values' : List Value) :
    references ref (values ++ values') = references ref values + references ref values' :=
  List.countP_append

theorem references_held (ref : ObjectRef) (M : Finset ObjectRef) (heap : Heap) :
    references ref (held heap) = references ref (held (survivors M heap)) +
      references ref (held (heap.filter fun object => object.ref ∉ M)) := by
  have hperm := (List.filter_append_perm (fun object : HeapObject => decide (object.ref ∈ M)) heap)
  have hheld := (hperm.flatMap_right fun object => object.contents.values).countP_eq
    fun value => decide (reference value = some ref)
  rw [List.flatMap_append, List.countP_append] at hheld
  simpa [references, held, survivors] using hheld.symm

theorem held_withMarks (M : Finset ObjectRef) (heap : Heap) :
    held (heap.withMarks M) = held heap :=
  List.flatMap_map ..

theorem references_pos {ref : ObjectRef} {heap : Heap} {object : HeapObject} {value : Value}
    (hobject : object ∈ heap) (hvalue : value ∈ object.contents.values)
    (href : reference value = some ref) : 0 < references ref (held heap) :=
  List.countP_pos_iff.mpr ⟨value, List.mem_flatMap.mpr ⟨object, hobject, hvalue⟩,
    decide_eq_true href⟩

theorem counted_survivors_iff {roots : List Value} {heap : Heap} (hcounted : Counted roots heap)
    {M : Finset ObjectRef} (hM : ∀ ref ∈ M, ref ∈ heap.refs) :
    Counted roots ((survivors M heap).withMarks M) ↔
      ∀ object ∈ heap, object.ref ∉ M → ∀ value ∈ object.contents.values,
        ∀ ref ∈ reference value, ref ∉ M := by
  constructor
  · intro hleft object hobject hgarbage value hvalue ref href hsurvivor
    obtain ⟨target, htarget, rfl⟩ := List.mem_map.mp (hM ref hsurvivor)
    have hkept : target ∈ survivors M heap := List.mem_filter.mpr ⟨htarget, decide_eq_true hsurvivor⟩
    have hafter := hleft _ (List.mem_map.mpr ⟨target, hkept, rfl⟩)
    have hbefore := hcounted target htarget
    have hdropped : object ∈ heap.filter fun object => object.ref ∉ M :=
      List.mem_filter.mpr ⟨hobject, decide_eq_true hgarbage⟩
    have hpos := references_pos hdropped hvalue href
    rw [held_withMarks, references_append] at hafter
    rw [references_append, references_held target.ref M heap] at hbefore
    have hsame : target.refcount = references target.ref roots +
      references target.ref (held (survivors M heap)) := hafter
    omega
  · intro hnone object hobject
    obtain ⟨target, hkept, rfl⟩ := List.mem_map.mp hobject
    obtain ⟨htarget, hsurvivor⟩ := List.mem_filter.mp hkept
    have hzero : references target.ref (held (heap.filter fun object => object.ref ∉ M)) = 0 := by
      refine List.countP_eq_zero.mpr fun value hvalue href => ?_
      obtain ⟨source, hsource, hheld⟩ := List.mem_flatMap.mp hvalue
      obtain ⟨hmem, hgarbage⟩ := List.mem_filter.mp hsource
      exact hnone source hmem (of_decide_eq_true hgarbage) value hheld target.ref
        (of_decide_eq_true href) (of_decide_eq_true hsurvivor)
    have hbefore := hcounted target htarget
    rw [references_append, references_held target.ref M heap, hzero, Nat.add_zero] at hbefore
    rw [held_withMarks, references_append]
    exact hbefore

/-- A collection always ends; it is exact where no garbage refers to a survivor. -/
theorem gcCycle_exact_iff {roots : List Value} {heap : Heap} (h : WellFormed roots heap)
    (hcounted : Counted roots heap) :
    (∃ swept, (∀ fuel, heap.length + 1 < fuel → gcCycle fuel roots heap = some swept) ∧
        Exact roots heap swept) ↔
      ∀ object ∈ heap, ¬ Reachable roots heap object.ref → ∀ value ∈ object.contents.values,
        ∀ ref ∈ reference value, ¬ Reachable roots heap ref := by
  obtain ⟨M, destroyed, hM, hreach, hnodup, hmem, hcycle⟩ := gcCycle_spec h
  simp only [← hreach]
  rw [← counted_survivors_iff hcounted hM]
  constructor
  · rintro ⟨swept, hswept, hexact⟩
    have heq := (hcycle _ (Nat.lt_succ_self _)).symm.trans (hswept _ (Nat.lt_succ_self _))
    cases heq
    exact hexact.counted
  · intro hleft
    refine ⟨_, hcycle, hnodup, fun ref => ?_, ?_, fun ref contents => ?_, hleft⟩
    · rw [hmem, hreach]
    · rw [refs_withMarks]
      exact refs_filter_nodup h.closed.distinct _
    · rw [← hreach]
      constructor
      · rintro ⟨object, hobject, rfl, rfl⟩
        obtain ⟨original, hkept, rfl⟩ := List.mem_map.mp hobject
        obtain ⟨horiginal, hsurvivor⟩ := List.mem_filter.mp hkept
        exact ⟨of_decide_eq_true hsurvivor, original, horiginal, rfl, rfl⟩
      · rintro ⟨hsurvivor, object, hobject, rfl, rfl⟩
        have hkept : object ∈ survivors M heap :=
          List.mem_filter.mpr ⟨hobject, decide_eq_true hsurvivor⟩
        exact ⟨_, List.mem_map.mpr ⟨object, hkept, rfl⟩, rfl, rfl⟩

theorem Reachable.within {roots : List Value} {heap : Heap} (S : List ObjectRef)
    (hroots : ∀ root ∈ roots.filterMap reference, root ∈ S)
    (hclosed : ∀ a ∈ S, ∀ b ∈ heap.children a, b ∈ S) {ref : ObjectRef}
    (h : Reachable roots heap ref) : ref ∈ S := by
  obtain ⟨root, hroot, hleads⟩ := h
  induction hleads with
  | refl => exact hroots root hroot
  | tail _ hchild ih => exact hclosed _ ih _ hchild

def selfCycle : Heap :=
  [⟨0, 1, false, .vector []⟩, ⟨1, 1, false, .vector [.vector 1]⟩]

def cycleHoldingRoot : Heap :=
  [⟨0, 2, false, .vector []⟩, ⟨1, 1, false, .vector [.vector 1, .vector 0]⟩]

theorem selfCycle_wellFormed : WellFormed [.vector 0] selfCycle where
  closed := ⟨by decide, by simp [selfCycle, Contents.Sound], by decide⟩
  roots := by decide

theorem cycleHoldingRoot_wellFormed : WellFormed [.vector 0] cycleHoldingRoot where
  closed := ⟨by decide, by simp [cycleHoldingRoot, Contents.Sound], by decide⟩
  roots := by decide

theorem gcCycle_exact_selfCycle : ∃ swept,
    (∀ fuel, 3 < fuel → gcCycle fuel [.vector 0] selfCycle = some swept) ∧
      Exact [.vector 0] selfCycle swept := by
  refine (gcCycle_exact_iff selfCycle_wellFormed (by unfold Counted; decide)).mpr ?_
  intro object hobject hgarbage value hvalue ref href hreach
  have hkept := hreach.within [⟨.vector, 0⟩] (by decide) (by decide)
  have hheld : ∀ object ∈ selfCycle, ∀ value ∈ object.contents.values, ∀ ref ∈ reference value,
    ref ∉ [(⟨.vector, 0⟩ : ObjectRef)] := by decide
  exact hheld object hobject value hvalue ref href hkept

theorem gcCycle_exact_fails : ¬ ∀ (roots : List Value) (heap : Heap), WellFormed roots heap →
    Counted roots heap → ∃ swept,
      (∀ fuel, heap.length + 1 < fuel → gcCycle fuel roots heap = some swept) ∧
        Exact roots heap swept := by
  intro hclaim
  obtain ⟨swept, hswept, hexact⟩ := hclaim [.vector 0] cycleHoldingRoot cycleHoldingRoot_wellFormed
    (by unfold Counted; decide)
  have hrun : gcCycle 4 [.vector 0] cycleHoldingRoot =
      some ⟨[⟨0, 2, true, .vector []⟩], [⟨.vector, 1⟩]⟩ := rfl
  have heq := hrun.symm.trans (hswept 4 (by decide))
  cases heq
  have hcount := hexact.counted _ List.mem_cons_self
  revert hcount
  decide

end Ussr.Gc
