import Ussr.BTree.Refinement
import Ussr.Library.Marking

/-! The mark and sweep collector. All heap objects are in one list, newest
first; the registry of a kind is its sublist of that kind. `none` stands for
a dangling pointer or for a recursion deeper than the fuel. -/

namespace Ussr.Gc

variable {heap : Heap}

inductive HeapKind where
  | vector
  | instance_
  | btree
deriving DecidableEq

structure ObjectRef where
  kind : HeapKind
  address : Nat
deriving DecidableEq

def reference : Value → Option ObjectRef
  | .vector address => some ⟨.vector, address⟩
  | .instance_ address => some ⟨.instance_, address⟩
  | .btree address => some ⟨.btree, address⟩
  | _ => none

inductive Contents where
  | vector (items : List Value)
  | instance_ (fields : List Value)
  | btree (tree : BTree.Tree Value Value)

namespace Contents

def kind : Contents → HeapKind
  | .vector _ => .vector
  | .instance_ _ => .instance_
  | .btree _ => .btree

/-- The loop over the items or the fields, or `ussr_btree_each_value`. -/
def eachValue : Contents → Option (List Value)
  | .vector items => some items
  | .instance_ fields => some fields
  | .btree tree => BTree.eachValue tree

end Contents

structure HeapObject where
  address : Nat
  refcount : Nat
  gcMark : Bool
  contents : Contents

namespace HeapObject

def ref (object : HeapObject) : ObjectRef :=
  ⟨object.contents.kind, object.address⟩

def mark (object : HeapObject) : HeapObject :=
  { object with gcMark := true }

def unref (object : HeapObject) : HeapObject :=
  { object with refcount := object.refcount - 1 }

end HeapObject

abbrev Heap := List HeapObject

namespace Heap

def lookup (heap : Heap) (ref : ObjectRef) : Option HeapObject :=
  heap.find? fun object => object.ref = ref

def modify (ref : ObjectRef) (f : HeapObject → HeapObject) (heap : Heap) : Heap :=
  heap.map fun object => if object.ref = ref then f object else object

def registry (kind : HeapKind) (heap : Heap) : List HeapObject :=
  heap.filter fun object => object.contents.kind = kind

def unregister (ref : ObjectRef) (heap : Heap) : Heap :=
  heap.eraseP fun object => object.ref = ref

end Heap

def ussrGcBegin (heap : Heap) : Heap :=
  heap.map fun object => { object with gcMark := false }

/-- `ussr_gc_mark_value` and the marking of the three kinds of object. -/
def ussrGcMarkValue : (fuel : Nat) → Heap → Value → Option Heap
  | 0, _, _ => none
  | fuel + 1, heap, value =>
    match reference value with
    | none => some heap
    | some ref =>
      match heap.lookup ref with
      | none => none
      | some object =>
        if object.gcMark then some heap
        else
          match object.contents.eachValue with
          | none => none
          | some values => values.foldlM (ussrGcMarkValue fuel) (heap.modify ref HeapObject.mark)

def gcUnrefGarbageChild (heap : Heap) (value : Value) : Option Heap :=
  match reference value with
  | none => some heap
  | some ref =>
    match heap.lookup ref with
    | none => none
    | some child => some (if child.gcMark then heap else heap.modify ref HeapObject.unref)

def detachObject (heap : Heap) (object : HeapObject) : Option Heap :=
  if object.gcMark then some heap
  else
    match object.contents.eachValue with
    | none => none
    | some values => values.foldlM gcUnrefGarbageChild heap

def detachKind (kind : HeapKind) (heap : Heap) : Option Heap :=
  (heap.registry kind).foldlM detachObject heap

structure Swept where
  heap : Heap
  destroyed : List ObjectRef

def reclaimObject (swept : Swept) (object : HeapObject) : Swept :=
  if object.gcMark then swept
  else ⟨swept.heap.unregister object.ref, swept.destroyed ++ [object.ref]⟩

def reclaimKind (swept : Swept) (kind : HeapKind) : Swept :=
  (swept.heap.registry kind).foldl reclaimObject swept

/-- `ussr_gc_sweep`, which returns the number of destroyed objects. -/
def ussrGcSweep (heap : Heap) : Option Swept := do
  let heap ← detachKind .vector heap
  let heap ← detachKind .instance_ heap
  let heap ← detachKind .btree heap
  return [HeapKind.vector, .instance_, .btree].foldl reclaimKind ⟨heap, []⟩

def gcCycle (fuel : Nat) (roots : List Value) (heap : Heap) : Option Swept :=
  (roots.foldlM (ussrGcMarkValue fuel) (ussrGcBegin heap)).bind ussrGcSweep

/-! Marking from the roots. The heap with a set of its objects marked stands for the
set, and one call of the collector's recursion for one step of the graph walk. -/

namespace Contents

def values : Contents → List Value
  | .vector items => items
  | .instance_ fields => fields
  | .btree tree => tree.entries.map Prod.snd

def Sound : Contents → Prop
  | .btree tree => BTree.Chained tree
  | _ => True

theorem eachValue_eq {contents : Contents} (h : contents.Sound) :
    contents.eachValue = some contents.values := by
  cases contents with
  | vector items => rfl
  | instance_ fields => rfl
  | btree tree => exact BTree.Chained.eachValue_eq h

end Contents

namespace Heap

def refs (heap : Heap) : List ObjectRef :=
  heap.map HeapObject.ref

/-- What the object at `ref` refers to. -/
def children (heap : Heap) (ref : ObjectRef) : List ObjectRef :=
  match heap.lookup ref with
  | none => []
  | some object => object.contents.values.filterMap reference

structure Closed (heap : Heap) : Prop where
  distinct : heap.refs.Nodup
  sound : ∀ object ∈ heap, object.contents.Sound
  registered : ∀ object ∈ heap, ∀ value ∈ object.contents.values,
    ∀ ref ∈ reference value, ref ∈ heap.refs

theorem lookup_eq_some {ref : ObjectRef} {object : HeapObject}
    (h : heap.lookup ref = some object) : object ∈ heap ∧ object.ref = ref :=
  ⟨List.mem_of_find?_eq_some h, by simpa using List.find?_some h⟩

theorem exists_lookup {ref : ObjectRef} (h : ref ∈ heap.refs) :
    ∃ object, heap.lookup ref = some object := by
  obtain ⟨object, hmem, href⟩ := List.mem_map.mp h
  exact Option.isSome_iff_exists.mp (List.find?_isSome.mpr ⟨object, hmem, by simpa using href⟩)

theorem lookup_of_mem (h : heap.refs.Nodup) {object : HeapObject}
    (hmem : object ∈ heap) : heap.lookup object.ref = some object := by
  obtain ⟨found, hfound⟩ := exists_lookup (List.mem_map_of_mem (f := HeapObject.ref) hmem)
  obtain ⟨hmem', href⟩ := lookup_eq_some hfound
  rw [hfound, List.inj_on_of_nodup_map h hmem' hmem href]

theorem Closed.mem_children (h : heap.Closed) {object : HeapObject}
    (hmem : object ∈ heap) : heap.children object.ref = object.contents.values.filterMap reference := by
  rw [children, lookup_of_mem h.distinct hmem]

theorem Closed.children_registered (h : heap.Closed) {ref child : ObjectRef}
    (hchild : child ∈ heap.children ref) : child ∈ heap.refs := by
  unfold children at hchild
  split at hchild
  · exact absurd hchild List.not_mem_nil
  · rename_i object hfound
    obtain ⟨value, hvalue, href⟩ := List.mem_filterMap.mp hchild
    exact h.registered object (lookup_eq_some hfound).1 value hvalue child href

def withMarks (M : Finset ObjectRef) (heap : Heap) : Heap :=
  heap.map fun object => { object with gcMark := decide (object.ref ∈ M) }

theorem lookup_withMarks (M : Finset ObjectRef) (heap : Heap) (ref : ObjectRef) :
    (heap.withMarks M).lookup ref =
      (heap.lookup ref).map fun object => { object with gcMark := decide (object.ref ∈ M) } :=
  List.find?_map ..

theorem mark_withMarks (M : Finset ObjectRef) (heap : Heap) (ref : ObjectRef) :
    (heap.withMarks M).modify ref HeapObject.mark = heap.withMarks (insert ref M) := by
  unfold modify withMarks
  rw [List.map_map]
  refine List.map_congr_left fun object _ => ?_
  by_cases href : object.ref = ref
  · simp [HeapObject.ref, HeapObject.mark, ← href]
  · have hsame : object.ref ∈ insert ref M ↔ object.ref ∈ M := by simp [href]
    simp only [Function.comp_apply, hsame]
    exact if_neg href

theorem refs_withMarks (M : Finset ObjectRef) (heap : Heap) :
    (heap.withMarks M).refs = heap.refs := by
  unfold refs withMarks
  rw [List.map_map]
  rfl

theorem Closed.withMarks (h : heap.Closed) (M : Finset ObjectRef) :
    (heap.withMarks M).Closed where
  distinct := (refs_withMarks M heap).symm ▸ h.distinct
  sound object hmem := by
    obtain ⟨original, horiginal, rfl⟩ := List.mem_map.mp hmem
    exact h.sound original horiginal
  registered object hmem := by
    obtain ⟨original, horiginal, rfl⟩ := List.mem_map.mp hmem
    rw [refs_withMarks]
    exact h.registered original horiginal

end Heap

open Heap

theorem ussrGcMarkValue_scalar {value : Value} (h : reference value = none) (fuel : Nat)
    (heap : Heap) : ussrGcMarkValue (fuel + 1) heap value = some heap := by
  rw [ussrGcMarkValue, h]

theorem foldlM_references {fuel : Nat}
    {g : Finset ObjectRef → ObjectRef → Option (Finset ObjectRef)} {values : List Value}
    (hreference : ∀ value ∈ values, ∀ ref, reference value = some ref →
      ∀ M M' : Finset ObjectRef, g M ref = some M' →
        ussrGcMarkValue (fuel + 1) (heap.withMarks M) value = some (heap.withMarks M'))
    {M M' : Finset ObjectRef} (h : (values.filterMap reference).foldlM g M = some M') :
    values.foldlM (ussrGcMarkValue (fuel + 1)) (heap.withMarks M) = some (heap.withMarks M') := by
  induction values generalizing M with
  | nil =>
    cases h
    rfl
  | cons value values ih =>
    replace ih := @ih fun v hv => hreference v (List.mem_cons_of_mem value hv)
    rw [List.foldlM_cons]
    cases href : reference value with
    | none =>
      rw [List.filterMap_cons_none href] at h
      rw [ussrGcMarkValue_scalar href]
      exact ih h
    | some ref =>
      rw [List.filterMap_cons_some href, List.foldlM_cons] at h
      obtain ⟨M₁, hfirst, hrest⟩ := Option.bind_eq_some_iff.mp h
      rw [hreference value List.mem_cons_self ref href M M₁ hfirst]
      exact ih hrest

theorem ussrGcMarkValue_reference (h : heap.Closed) {fuel : Nat}
    {M M' : Finset ObjectRef} {value : Value} {ref : ObjectRef} (href : reference value = some ref)
    (hregistered : ref ∈ heap.refs) (hmark : markFrom heap.children fuel M ref = some M') :
    ussrGcMarkValue (fuel + 1) (heap.withMarks M) value = some (heap.withMarks M') := by
  induction fuel generalizing M M' value ref with
  | zero => cases hmark
  | succ fuel ih =>
    obtain ⟨object, hfound⟩ := exists_lookup hregistered
    obtain ⟨hmem, hself⟩ := lookup_eq_some hfound
    have hchildren : heap.children ref = object.contents.values.filterMap reference :=
      hself ▸ h.mem_children hmem
    unfold markFrom at hmark
    unfold ussrGcMarkValue
    simp only [href, lookup_withMarks, hfound, Option.map_some, hself]
    split_ifs at hmark with hmarked
    · cases hmark
      rw [if_pos (decide_eq_true hmarked)]
    · rw [if_neg (by simpa using hmarked), Contents.eachValue_eq (h.sound object hmem),
        mark_withMarks]
      rw [hchildren] at hmark
      refine foldlM_references (fun child hchild ref hchildref M M' => ?_) hmark
      exact ih hchildref (h.registered object hmem child hchild ref hchildref)

theorem ussrGcBegin_eq (heap : Heap) : ussrGcBegin heap = heap.withMarks ∅ := by
  simp [ussrGcBegin, withMarks]

def Reachable (roots : List Value) (heap : Heap) (ref : ObjectRef) : Prop :=
  ∃ root ∈ roots.filterMap reference, Leads heap.children root ref

theorem markRoots_spec (h : heap.Closed) {roots : List Value}
    (hroots : ∀ root ∈ roots, ∀ ref ∈ reference root, ref ∈ heap.refs) {fuel : Nat}
    (hfuel : heap.length < fuel) :
    ∃ M : Finset ObjectRef, (∀ ref ∈ M, ref ∈ heap.refs) ∧
      (∀ ref, ref ∈ M ↔ Reachable roots heap ref) ∧
      roots.foldlM (ussrGcMarkValue (fuel + 1)) (ussrGcBegin heap) = some (heap.withMarks M) := by
  have hclosed : ∀ a ∈ heap.refs.toFinset, ∀ b ∈ heap.children a, b ∈ heap.refs.toFinset :=
    fun _ _ _ hchild => List.mem_toFinset.mpr (h.children_registered hchild)
  have hregistered : ∀ a ∈ roots.filterMap reference, a ∈ heap.refs.toFinset := by
    intro a ha
    obtain ⟨root, hroot, href⟩ := List.mem_filterMap.mp ha
    exact List.mem_toFinset.mpr (hroots root hroot a href)
  have hcard : heap.refs.toFinset.card < fuel :=
    (List.toFinset_card_le _).trans_lt (by simpa [refs] using hfuel)
  obtain ⟨M, hmark, hM, hiff⟩ := markAll_reachable hclosed hregistered hcard
  refine ⟨M, fun ref href => List.mem_toFinset.mp (hM href), hiff, ?_⟩
  rw [ussrGcBegin_eq]
  exact foldlM_references (fun root hroot ref href M M' =>
    ussrGcMarkValue_reference h href (hroots root hroot ref href)) hmark

end Ussr.Gc
