import Mathlib.Data.List.Nodup
import Mathlib.Data.List.Count
import Mathlib.Data.Nat.Bitwise
import Ussr.Library.Probing
import Ussr.Scope

/-! The name index of a scope: a table of positions of `vars`, rebuilt, extended in place or
dropped as variables come and go. -/

open Function (update)

namespace Ussr.ScopeIndex

open Ussr.Probing

/-- `ussr_scope_t` as the index sees it. A slot holds a position plus one, or zero when it is
free; `index` is empty when there is none. -/
structure Store where
  vars : List (CString × Value)
  index : List Nat
deriving DecidableEq

/-- `ussr_scope_name_hash` -/
def nameHash (name : CString) : Nat :=
  (name.bytes.foldl (fun hash byte => (hash ^^^ byte.toUInt64) * 16777619) (2166136261 : UInt64)).toNat

/-- `ussr_scope_index_drop` -/
def indexDrop (store : Store) : Store := { store with index := [] }

def held (store : Store) (slot : Nat) : Option (CString × Value) :=
  store.vars[store.index.getD slot 0 - 1]?

/-- `ussr_scope_index_put`: none when no slot is ever found free. -/
def indexPut (store : Store) (position : Nat) : Option Store := do
  let entry ← store.vars[position]?
  let mask := store.index.length - 1
  let slot ← probe (fun slot => store.index.getD slot 0 == 0) (fun slot => (slot + 1) &&& mask)
    store.index.length (nameHash entry.1 &&& mask)
  return { store with index := store.index.set slot (position + 1) }

/-- `while (scope->count * 2 >= size) size *= 2;` -/
def grownSize (count size : Nat) : Nat :=
  if 0 < size ∧ size ≤ count * 2 then grownSize count (size * 2) else size
termination_by count * 2 + 1 - size

/-- `ussr_scope_index_ready`, the allocation of a new index succeeding or not. -/
def indexReady (store : Store) (allocated : Bool) : Option (Bool × Store) :=
  if store.index ≠ [] ∧ store.vars.length * 2 < store.index.length then some (true, store)
  else
    let size := grownSize store.vars.length (if store.index.length = 0 then 64 else store.index.length)
    if allocated then
      ((List.range store.vars.length).foldlM indexPut
        { store with index := List.replicate size 0 }).map fun store => (true, store)
    else some (false, indexDrop store)

/-- `ussr_scope_position` -/
def position (store : Store) (name : CString) (allocated : Bool) : Option (Option Nat × Store) := do
  let (ready, store) ← indexReady store allocated
  if ready then
    let mask := store.index.length - 1
    let slot ← probe (fun slot => store.index.getD slot 0 == 0 ||
      decide ((held store slot).map Prod.fst = some name)) (fun slot => (slot + 1) &&& mask)
      store.index.length (nameHash name &&& mask)
    return (if store.index.getD slot 0 = 0 then none else some (store.index.getD slot 0 - 1), store)
  else return (store.vars.findIdx? (fun entry => entry.1 = name), store)

/-- `ussr_scope_lookup` -/
def lookup (store : Store) (name : CString) (allocated : Bool) : Option (Option Value × Store) := do
  let (position, store) ← position store name allocated
  return (position.bind fun position => store.vars[position]?.map Prod.snd, store)

/-- `ussr_scope_set` -/
def set (store : Store) (name : CString) (value : Value) (allocated : Bool) : Option Store := do
  let (position, store) ← position store name allocated
  match position with
  | some position =>
    return { store with vars := store.vars.modify position fun entry => (entry.1, value) }
  | none =>
    let store := { store with vars := Scope.varsSet name value store.vars }
    if store.index ≠ [] ∧ store.vars.length * 2 < store.index.length then
      indexPut store (store.vars.length - 1)
    else return indexDrop store

/-- `ussr_remove_variable`, outside of every call -/
def remove (store : Store) (name : CString) : Store :=
  match store.vars.findIdx? (fun entry => entry.1 = name) with
  | none => store
  | some position => indexDrop { store with vars := store.vars.eraseIdx position }

inductive Call
  | set (name : CString) (value : Value) (allocated : Bool)
  | remove (name : CString)
  | lookup (name : CString) (allocated : Bool)

def call (store : Store) : Call → Option Store
  | .set name value allocated => set store name value allocated
  | .remove name => some (remove store name)
  | .lookup name allocated => (lookup store name allocated).map Prod.snd

def run (calls : List Call) : Option Store := calls.foldlM call ⟨[], []⟩

def effect (values : CString → Option Value) : Call → CString → Option Value
  | .set name value _ => update values name (some value)
  | .remove name => update values name none
  | .lookup _ _ => values

def lastSet (calls : List Call) : CString → Option Value := calls.foldl effect fun _ => none

/-! The invariant -/

def names (vars : List (CString × Value)) : List CString := vars.map Prod.fst

def Taken (index : List Nat) (slot : Nat) : Prop := index.getD slot 0 ≠ 0

/-- The index covers the first `count` names: it holds their positions and no others, each
where the probing for its name comes. -/
structure Covers (names : List CString) (count : Nat) (index : List Nat) : Prop where
  power : ∃ bits, index.length = 2 ^ bits
  sparse : index.countP (· ≠ 0) ≤ count
  live : ∀ slot, Taken index slot → index.getD slot 0 ≤ count ∧
    ∃ name, names[index.getD slot 0 - 1]? = some name ∧
      WalksTo (Taken index) index.length (nameHash name % index.length) slot
  every : ∀ position < count, ∃ slot < index.length, index.getD slot 0 = position + 1

structure Sound (store : Store) : Prop where
  distinct : (names store.vars).Nodup
  covers : store.index ≠ [] → Covers (names store.vars) store.vars.length store.index
  room : store.index ≠ [] → store.vars.length * 2 < store.index.length

section

variable {known : List CString} {count bits slot : Nat} {index : List Nat}

theorem mask_step (hpower : index.length = 2 ^ bits) (slot : Nat) :
    (slot + 1) &&& (index.length - 1) = (slot + 1) % index.length := by
  rw [hpower, Nat.and_two_pow_sub_one_eq_mod]

theorem mask_start (hpower : index.length = 2 ^ bits) (hash : Nat) :
    hash &&& (index.length - 1) = hash % index.length := by
  rw [hpower, Nat.and_two_pow_sub_one_eq_mod]

theorem Covers.free (h : Covers known count index) (hroom : count < index.length) :
    ∃ slot < index.length, index.getD slot 0 = 0 := by
  by_contra hfull
  push Not at hfull
  have hall : index.countP (· ≠ 0) = index.length := by
    refine List.countP_eq_length.mpr fun entry hentry => ?_
    obtain ⟨slot, hslot, rfl⟩ := List.getElem_of_mem hentry
    have := hfull slot hslot
    rw [List.getD_eq_getElem _ _ hslot] at this
    simpa using this
  have := h.sparse
  omega

theorem getD_set (slot other entry : Nat) (hslot : slot < index.length) :
    (index.set slot entry).getD other 0 = if slot = other then entry else index.getD other 0 := by
  simp only [List.getD_eq_getElem?_getD, List.getElem?_set]
  by_cases heq : slot = other
  · subst heq
    simp only [if_pos hslot, Option.getD_some, reduceIte]
  · simp only [if_neg heq]

theorem countP_set (hslot : slot < index.length) (hfree : index.getD slot 0 = 0) (entry : Nat) :
    (index.set slot entry).countP (· ≠ 0) ≤ index.countP (· ≠ 0) + 1 := by
  induction index generalizing slot with
  | nil => exact absurd hslot (Nat.not_lt_zero _)
  | cons first index ih =>
    cases slot with
    | zero =>
      simp only [List.set_cons_zero, List.countP_cons]
      split <;> split <;> omega
    | succ slot =>
      have := @ih slot (by simpa using hslot) (by simpa using hfree)
      simp only [List.set_cons_succ, List.countP_cons] at this ⊢
      omega

/-- The name at position `count` gets a slot of its own. -/
theorem Covers.put {name : CString} (h : Covers known count index)
    (hname : known[count]? = some name) (hslot : slot < index.length) (hfree : index.getD slot 0 = 0)
    (hreach : WalksTo (Taken index) index.length (nameHash name % index.length) slot) :
    Covers known (count + 1) (index.set slot (count + 1)) := by
  have hmore : ∀ other, Taken index other → Taken (index.set slot (count + 1)) other := by
    intro other htaken
    simp only [Taken, getD_set slot other _ hslot]
    split
    · exact Nat.succ_ne_zero _
    · exact htaken
  refine ⟨?_, ?_, fun other htaken => ?_, fun position hlt => ?_⟩
  · simpa only [List.length_set] using h.power
  · have := countP_set hslot hfree (count + 1)
    have := h.sparse
    omega
  · simp only [Taken, getD_set slot other _ hslot] at htaken ⊢
    by_cases heq : slot = other
    · subst heq
      simp only [if_pos, List.length_set, Nat.add_sub_cancel]
      exact ⟨le_refl _, name, hname, hreach.mono hmore⟩
    · simp only [if_neg heq, List.length_set] at htaken ⊢
      obtain ⟨hle, found, hfound, hfar⟩ := h.live other htaken
      exact ⟨by omega, found, hfound, hfar.mono hmore⟩
  · by_cases hlast : position = count
    · subst hlast
      exact ⟨slot, by simpa using hslot, by rw [getD_set slot slot _ hslot, if_pos rfl]⟩
    · obtain ⟨other, hother, hentry⟩ := h.every position (by omega)
      refine ⟨other, by simpa using hother, ?_⟩
      rw [getD_set slot other _ hslot, if_neg, hentry]
      rintro rfl
      omega

theorem Covers.append (h : Covers known count index) (name : CString) :
    Covers (known ++ [name]) count index := by
  refine ⟨h.power, h.sparse, fun slot htaken => ?_, h.every⟩
  obtain ⟨hle, found, hfound, hreach⟩ := h.live slot htaken
  have hlt := (List.getElem?_eq_some_iff.mp hfound).1
  exact ⟨hle, found, by rw [List.getElem?_append_left hlt, hfound], hreach⟩

theorem covers_replicate (known : List CString) (bits : Nat) :
    Covers known 0 (List.replicate (2 ^ bits) 0) := by
  refine ⟨⟨bits, List.length_replicate⟩, ?_, fun slot htaken => ?_, fun _ hlt => absurd hlt (Nat.not_lt_zero _)⟩
  · simp [List.countP_replicate]
  · refine absurd ?_ htaken
    simp only [List.getD_eq_getElem?_getD, List.getElem?_replicate]
    split <;> rfl

end

theorem grownSize_spec (count size : Nat) (hpower : ∃ bits, size = 2 ^ bits) :
    (∃ bits, grownSize count size = 2 ^ bits) ∧ count * 2 < grownSize count size := by
  fun_induction grownSize count size with
  | case1 size hmore ih =>
    obtain ⟨bits, rfl⟩ := hpower
    exact ih ⟨bits + 1, by rw [pow_succ]⟩
  | case2 size hdone =>
    have hpositive : 0 < size := by
      obtain ⟨bits, rfl⟩ := hpower
      exact Nat.two_pow_pos bits
    exact ⟨hpower, by omega⟩

theorem indexPut_spec {vars : List (CString × Value)} {count : Nat} {index : List Nat}
    (h : Covers (names vars) count index) (hcount : count < vars.length) (hroom : count < index.length) :
    ∃ grown, indexPut ⟨vars, index⟩ count = some ⟨vars, grown⟩ ∧ grown.length = index.length ∧
      Covers (names vars) (count + 1) grown := by
  obtain ⟨bits, hpower⟩ := h.power
  obtain ⟨entry, hentry⟩ : ∃ entry, vars[count]? = some entry := ⟨_, List.getElem?_eq_getElem hcount⟩
  obtain ⟨free, hfreeLt, hfree⟩ := h.free hroom
  obtain ⟨slot, hslot, hprobe, hstop, hreach⟩ :=
    @probe_ends (fun slot => index.getD slot 0 == 0) _ index.length _ free (mask_step hpower)
      (Nat.mod_lt (nameHash entry.1) (by omega)) hfreeLt (by simpa using hfree)
  have hzero : index.getD slot 0 = 0 := by simpa using hstop
  refine ⟨index.set slot (count + 1), ?_, List.length_set, ?_⟩
  · rw [← mask_start hpower (nameHash entry.1)] at hprobe
    simp only [indexPut, hentry, Option.bind_eq_bind, Option.bind_some, hprobe]
    rfl
  · refine @Covers.put _ _ _ _ entry.1 h ?_ hslot hzero (hreach.mono fun other hother => ?_)
    · rw [names, List.getElem?_map, hentry, Option.map_some]
    · simpa [Taken] using hother

theorem indexPut_foldlM {vars : List (CString × Value)} (size count : Nat) (hcount : count ≤ vars.length)
    (index : List Nat) (hsize : index.length = size) (hroom : vars.length * 2 < size)
    (h : Covers (names vars) 0 index) :
    ∃ grown, (List.range count).foldlM indexPut ⟨vars, index⟩ = some ⟨vars, grown⟩ ∧
      grown.length = size ∧ Covers (names vars) count grown := by
  induction count with
  | zero => exact ⟨index, rfl, hsize, h⟩
  | succ count ih =>
    obtain ⟨before, hbefore, hlength, hcovers⟩ := ih (by omega)
    obtain ⟨grown, hput, hgrown, hfinal⟩ := indexPut_spec hcovers (by omega) (by omega)
    refine ⟨grown, ?_, hgrown.trans hlength, hfinal⟩
    rw [List.range_succ, List.foldlM_append, hbefore]
    simp only [Option.bind_eq_bind, Option.bind_some, List.foldlM_cons, List.foldlM_nil, hput]
    rfl

theorem Sound.drop {store : Store} (h : (names store.vars).Nodup) : Sound (indexDrop store) :=
  ⟨h, fun hne => absurd rfl hne, fun hne => absurd rfl hne⟩

theorem indexReady_spec {store : Store} (h : Sound store) (allocated : Bool) :
    ∃ ready after, indexReady store allocated = some (ready, after) ∧ after.vars = store.vars ∧
      Sound after ∧ (ready = true → after.index ≠ []) := by
  obtain ⟨vars, index⟩ := store
  by_cases hready : index ≠ [] ∧ vars.length * 2 < index.length
  · exact ⟨true, ⟨vars, index⟩, by rw [indexReady, if_pos hready], rfl, h, fun _ => hready.1⟩
  cases allocated with
  | false =>
    exact ⟨false, indexDrop ⟨vars, index⟩, by rw [indexReady, if_neg hready]; rfl, rfl, Sound.drop h.distinct,
      fun hno => absurd hno Bool.false_ne_true⟩
  | true =>
    have hstart : ∃ bits, (if index.length = 0 then 64 else index.length) = 2 ^ bits := by
      split
      · exact ⟨6, rfl⟩
      · next hsome => exact (h.covers (by simpa using hsome)).power
    obtain ⟨⟨bits, hbits⟩, hroom⟩ := grownSize_spec vars.length _ hstart
    obtain ⟨grown, hput, hlength, hcovers⟩ :=
      indexPut_foldlM (2 ^ bits) vars.length (le_refl _) (List.replicate (2 ^ bits) 0)
        List.length_replicate (hbits ▸ hroom) (covers_replicate (names vars) bits)
    have hne : grown ≠ [] := by
      rintro rfl
      rw [List.length_nil] at hlength
      exact absurd hlength (Nat.two_pow_pos bits).ne
    refine ⟨true, ⟨vars, grown⟩, ?_, rfl, ⟨h.distinct, fun _ => hcovers, fun _ => ?_⟩, fun _ => hne⟩
    · simp only [indexReady, if_neg hready, hbits, if_pos, hput, Option.map_some]
    · rw [hlength, ← hbits]
      exact hroom

theorem findIdx?_of_names {vars : List (CString × Value)} {name : CString} {place : Nat}
    (hdistinct : (names vars).Nodup) (hplace : (vars[place]?).map Prod.fst = some name) :
    vars.findIdx? (fun entry => entry.1 = name) = some place := by
  obtain ⟨entry, hentry, rfl⟩ := Option.map_eq_some_iff.mp hplace
  obtain ⟨hlt, rfl⟩ := List.getElem?_eq_some_iff.mp hentry
  refine List.findIdx?_eq_some_iff_getElem.mpr ⟨hlt, by simp, fun before hbefore => ?_⟩
  have hbound : before < vars.length := by omega
  rw [decide_eq_true_eq]
  intro hsame
  have hknown : before < (names vars).length := by simpa [names] using hbound
  have heq := (List.getElem?_inj hknown hdistinct).mp
    (by simp only [names, List.getElem?_map, hbound, hlt, List.getElem?_eq_getElem, Option.map_some, hsame] :
      (names vars)[before]? = (names vars)[place]?)
  omega

theorem position_spec {store : Store} (h : Sound store) (name : CString) (allocated : Bool) :
    ∃ after, position store name allocated =
        some (store.vars.findIdx? (fun entry => entry.1 = name), after) ∧
      after.vars = store.vars ∧ Sound after := by
  obtain ⟨ready, after, hready, hvars, hsound, hindex⟩ := indexReady_spec h allocated
  refine ⟨after, ?_, hvars, hsound⟩
  cases ready with
  | false => simp only [position, hready, Option.bind_eq_bind, Option.bind_some, hvars]; rfl
  | true =>
    have hne := hindex rfl
    have hcovers := hsound.covers hne
    have hroom := hsound.room hne
    obtain ⟨bits, hpower⟩ := hcovers.power
    obtain ⟨free, hfreeLt, hfree⟩ := hcovers.free (by omega)
    obtain ⟨slot, hslot, hprobe, hstop, hreach⟩ :=
      @probe_ends (fun slot => after.index.getD slot 0 == 0 ||
        decide ((held after slot).map Prod.fst = some name)) _ after.index.length _ free
        (mask_step hpower) (Nat.mod_lt (nameHash name) (by omega)) hfreeLt (by simp only [hfree, beq_self_eq_true, Bool.true_or])
    rw [← mask_start hpower (nameHash name)] at hprobe
    simp only [position, hready, Option.bind_eq_bind, Option.bind_some, if_pos, hprobe]
    rw [← hvars]
    by_cases hzero : after.index.getD slot 0 = 0
    · -- a free slot is met first: no position holds the name
      rw [if_pos hzero]
      have hnone : after.vars.findIdx? (fun entry => entry.1 = name) = none := by
        rw [List.findIdx?_eq_none_iff]
        intro entry hentry
        rw [decide_eq_false_iff_not]
        rintro rfl
        obtain ⟨place, hplace, rfl⟩ := List.getElem_of_mem hentry
        obtain ⟨target, -, htarget⟩ := hcovers.every place hplace
        have htaken : Taken after.index target := by rw [Taken, htarget]; omega
        obtain ⟨-, known, hknown, htargetReach⟩ := hcovers.live target htaken
        rw [htarget, Nat.add_sub_cancel, names, List.getElem?_map, List.getElem?_eq_getElem hplace,
          Option.map_some, Option.some_inj] at hknown
        rw [← hknown] at htargetReach
        have hheld : (held after target).map Prod.fst = some (after.vars[place]).1 := by
          rw [held, htarget, Nat.add_sub_cancel, List.getElem?_eq_getElem hplace, Option.map_some]
        rcases htargetReach.stops_before hreach (by simp [hheld]) with rfl | htakenSlot
        · exact htaken hzero
        · exact htakenSlot hzero
      rw [hnone]
      rfl
    · rw [if_neg hzero]
      have hheld : (held after slot).map Prod.fst = some name := by
        rcases Bool.or_eq_true_iff.mp hstop with hfreeSlot | hname
        · exact absurd (eq_of_beq hfreeSlot) hzero
        · exact of_decide_eq_true hname
      rw [findIdx?_of_names hsound.distinct hheld]
      rfl

/-! The variables as a list -/

section

variable (name other : CString) (value : Value) (vars : List (CString × Value))

theorem lookup_findIdx? :
    (vars.findIdx? (fun entry => entry.1 = name)).bind (fun place => vars[place]?.map Prod.snd) =
      vars.lookup name := by
  induction vars with
  | nil => rfl
  | cons entry vars ih =>
    obtain ⟨known, held⟩ := entry
    by_cases hname : known = name
    · subst hname
      simp [List.findIdx?_cons]
    · have hother : (name == known) = false := by simpa using fun h => hname h.symm
      rw [List.lookup_cons, hother, ← ih]
      simp [List.findIdx?_cons, hname, Option.bind_map]

theorem varsSet_of_some {place : Nat} (h : vars.findIdx? (fun entry => entry.1 = name) = some place) :
    vars.modify place (fun entry => (entry.1, value)) = Scope.varsSet name value vars := by
  induction vars generalizing place with
  | nil => exact absurd h (by simp)
  | cons entry vars ih =>
    by_cases hname : entry.1 = name
    · obtain rfl : 0 = place := by simpa [List.findIdx?_cons, hname] using h
      simp [Scope.varsSet, hname]
    · rw [List.findIdx?_cons, if_neg (by simpa using hname)] at h
      obtain ⟨before, hbefore, rfl⟩ := Option.map_eq_some_iff.mp h
      simp only [List.modify_succ_cons, Scope.varsSet, if_neg hname, ih hbefore]

theorem varsSet_of_none (h : vars.findIdx? (fun entry => entry.1 = name) = none) :
    Scope.varsSet name value vars = vars ++ [(name, value)] := by
  induction vars with
  | nil => rfl
  | cons entry vars ih =>
    rw [List.findIdx?_cons] at h
    by_cases hname : entry.1 = name
    · exact absurd h (by simp [hname])
    · rw [if_neg (by simpa using hname), Option.map_eq_none_iff] at h
      rw [Scope.varsSet, if_neg hname, ih h, List.cons_append]

theorem lookup_varsSet :
    (Scope.varsSet name value vars).lookup other = if other = name then some value else vars.lookup other := by
  induction vars with
  | nil =>
    by_cases hother : other = name
    · simp [Scope.varsSet, hother]
    · have hno : (other == name) = false := by simpa using hother
      simp [Scope.varsSet, List.lookup_cons, hno, hother]
  | cons entry vars ih =>
    obtain ⟨known, held⟩ := entry
    by_cases hname : known = name
    · subst hname
      by_cases hother : other = known
      · simp [Scope.varsSet, hother]
      · have hno : (other == known) = false := by simpa using hother
        simp [Scope.varsSet, List.lookup_cons, hno, hother]
    · rw [Scope.varsSet, if_neg hname, List.lookup_cons, List.lookup_cons, ih]
      by_cases hother : other = known
      · have hne : ¬other = name := fun heq => hname (hother.symm.trans heq)
        simp only [hother, beq_self_eq_true, if_neg hname]
      · have hno : (other == known) = false := by simpa using hother
        simp only [hno]

theorem names_modify (place : Nat) :
    names (vars.modify place fun entry => (entry.1, value)) = names vars := by
  induction vars generalizing place with
  | nil => simp [names]
  | cons entry vars ih =>
    cases place with
    | zero => rfl
    | succ place => simpa [names] using ih place

theorem not_mem_names (h : vars.findIdx? (fun entry => entry.1 = name) = none) : name ∉ names vars := by
  rw [List.findIdx?_eq_none_iff] at h
  intro hmem
  obtain ⟨entry, hentry, rfl⟩ := List.mem_map.mp hmem
  exact absurd (h entry hentry) (by simp)

theorem lookup_eq_none (h : name ∉ names vars) : vars.lookup name = none := by
  rw [List.lookup_eq_none_iff]
  intro entry hentry
  have hne : name ≠ entry.1 := by
    rintro rfl
    exact h (List.mem_map_of_mem hentry)
  simpa using hne

theorem lookup_eraseIdx {place : Nat} (hdistinct : (names vars).Nodup)
    (h : vars.findIdx? (fun entry => entry.1 = name) = some place) :
    (vars.eraseIdx place).lookup other = if other = name then none else vars.lookup other := by
  induction vars generalizing place with
  | nil => exact absurd h (by simp)
  | cons entry vars ih =>
    obtain ⟨known, held⟩ := entry
    obtain ⟨hnew, hrest⟩ := List.nodup_cons.mp hdistinct
    by_cases hname : known = name
    · subst hname
      obtain rfl : 0 = place := by simpa [List.findIdx?_cons] using h
      rw [List.eraseIdx_cons_zero, List.lookup_cons]
      by_cases hother : other = known
      · rw [if_pos hother, hother, lookup_eq_none known vars hnew]
      · have hno : (other == known) = false := by simpa using hother
        rw [if_neg hother, hno]
    · rw [List.findIdx?_cons, if_neg (by simpa using hname)] at h
      obtain ⟨before, hbefore, rfl⟩ := Option.map_eq_some_iff.mp h
      rw [List.eraseIdx_cons_succ, List.lookup_cons, List.lookup_cons, ih hrest hbefore]
      by_cases hother : other = known
      · simp only [hother, beq_self_eq_true, if_neg hname]
      · have hno : (other == known) = false := by simpa using hother
        simp only [hno]

end

/-! One call, and every run -/

variable {store : Store}

theorem lookup_spec (h : Sound store) (name : CString) (allocated : Bool) :
    ∃ after, lookup store name allocated = some (store.vars.lookup name, after) ∧
      after.vars = store.vars ∧ Sound after := by
  obtain ⟨after, hposition, hvars, hsound⟩ := position_spec h name allocated
  refine ⟨after, ?_, hvars, hsound⟩
  simp only [lookup, hposition, Option.bind_eq_bind, Option.bind_some, hvars, lookup_findIdx?]
  rfl

theorem set_spec (h : Sound store) (name : CString) (value : Value) (allocated : Bool) :
    ∃ after, set store name value allocated = some after ∧
      after.vars = Scope.varsSet name value store.vars ∧ Sound after := by
  obtain ⟨⟨vars, index⟩, hposition, hvars, hsound⟩ := position_spec h name allocated
  subst hvars
  cases hfind : store.vars.findIdx? (fun entry => entry.1 = name) with
  | some place =>
    rw [hfind] at hposition
    refine ⟨⟨store.vars.modify place fun entry => (entry.1, value), index⟩, ?_,
      varsSet_of_some name value _ hfind, ?_, fun hne => ?_, fun hne => ?_⟩
    · simp only [set, hposition, Option.bind_eq_bind, Option.bind_some]
      rfl
    · rw [names_modify]
      exact hsound.distinct
    · rw [names_modify, List.length_modify]
      exact hsound.covers hne
    · rw [List.length_modify]
      exact hsound.room hne
  | none =>
    rw [hfind] at hposition
    have hvars := varsSet_of_none name value _ hfind
    have hnames : names (store.vars ++ [(name, value)]) = names store.vars ++ [name] := List.map_append
    have hdistinct : (names (store.vars ++ [(name, value)])).Nodup := by
      rw [hnames, List.nodup_append]
      refine ⟨hsound.distinct, List.nodup_singleton _, fun known hknown other hother => ?_⟩
      rintro rfl
      exact not_mem_names name _ hfind (by simpa using List.mem_singleton.mp hother ▸ hknown)
    by_cases hroom : index ≠ [] ∧ (store.vars ++ [(name, value)]).length * 2 < index.length
    · have hlength : (store.vars ++ [(name, value)]).length = store.vars.length + 1 := List.length_append
      have hcovers : Covers (names (store.vars ++ [(name, value)])) store.vars.length index := by
        rw [hnames]
        exact (hsound.covers hroom.1).append name
      obtain ⟨grown, hput, hgrown, hfinal⟩ := indexPut_spec hcovers (by omega) (by omega)
      refine ⟨⟨store.vars ++ [(name, value)], grown⟩, ?_, hvars.symm, hdistinct, fun _ => ?_, fun _ => ?_⟩
      · simp only [set, hposition, Option.bind_eq_bind, Option.bind_some, hvars]
        rw [if_pos hroom, hlength, Nat.add_sub_cancel, hput]
      · rw [hlength]
        exact hfinal
      · rw [hgrown]
        exact hroom.2
    · refine ⟨indexDrop ⟨store.vars ++ [(name, value)], index⟩, ?_, hvars.symm, Sound.drop hdistinct⟩
      simp only [set, hposition, Option.bind_eq_bind, Option.bind_some, hvars]
      rw [if_neg hroom]
      rfl

theorem remove_spec (h : Sound store) (name other : CString) :
    (remove store name).vars.lookup other = (if other = name then none else store.vars.lookup other) ∧
      Sound (remove store name) := by
  cases hfind : store.vars.findIdx? (fun entry => entry.1 = name) with
  | none =>
    simp only [remove, hfind]
    refine ⟨?_, h⟩
    split
    · next heq => rw [heq, lookup_eq_none name _ (not_mem_names name _ hfind)]
    · rfl
  | some place =>
    simp only [remove, hfind]
    refine ⟨lookup_eraseIdx name other _ h.distinct hfind, Sound.drop ?_⟩
    exact h.distinct.sublist ((List.eraseIdx_sublist _ _).map Prod.fst)

structure Holds (store : Store) (values : CString → Option Value) : Prop where
  sound : Sound store
  values_eq : ∀ name, store.vars.lookup name = values name

theorem Holds.call {values : CString → Option Value} (h : Holds store values) (next : Call) :
    ∃ after, call store next = some after ∧ Holds after (effect values next) := by
  cases next with
  | set name value allocated =>
    obtain ⟨after, hset, hvars, hsound⟩ := set_spec h.sound name value allocated
    refine ⟨after, hset, hsound, fun other => ?_⟩
    rw [hvars, lookup_varsSet, effect, Function.update_apply, h.values_eq]
  | remove name =>
    refine ⟨remove store name, rfl, (remove_spec h.sound name name).2, fun other => ?_⟩
    rw [(remove_spec h.sound name other).1, effect, Function.update_apply, h.values_eq]
  | lookup name allocated =>
    obtain ⟨after, hlookup, hvars, hsound⟩ := lookup_spec h.sound name allocated
    refine ⟨after, by rw [ScopeIndex.call, hlookup, Option.map_some], hsound, fun other => ?_⟩
    rw [hvars, h.values_eq, effect]

theorem Holds.run {values : CString → Option Value} (h : Holds store values) (calls : List Call) :
    ∃ after, calls.foldlM ScopeIndex.call store = some after ∧ Holds after (calls.foldl effect values) := by
  induction calls generalizing store values with
  | nil => exact ⟨store, rfl, h⟩
  | cons next calls ih =>
    obtain ⟨between, hcall, hbetween⟩ := h.call next
    obtain ⟨after, hrun, hafter⟩ := ih hbetween
    exact ⟨after, by rw [List.foldlM_cons, hcall]; exact hrun, hafter⟩

theorem holds_empty : Holds ⟨[], []⟩ fun _ => none :=
  ⟨⟨List.nodup_nil, fun hne => absurd rfl hne, fun hne => absurd rfl hne⟩, fun _ => rfl⟩

theorem Holds.count {values : CString → Option Value} (h : Holds store values) (name : CString) :
    (names store.vars).count name = if (values name).isSome then 1 else 0 := by
  rw [h.sound.distinct.count, ← h.values_eq]
  congr 1
  rw [eq_iff_iff]
  constructor
  · intro hmem
    by_contra hnone
    obtain ⟨entry, hentry, rfl⟩ := List.mem_map.mp hmem
    rw [Option.not_isSome_iff_eq_none, List.lookup_eq_none_iff] at hnone
    exact absurd (hnone entry hentry) (by simp)
  · intro hsome
    by_contra hmem
    rw [lookup_eq_none name _ hmem] at hsome
    exact absurd hsome (by simp)

/-- After any calls, with any of the index's allocations failing, the calls have ended and a lookup
ends with the value last set and not removed; a name that has a value stands at one position,
others at none; and a slot that is taken holds a position whose probing comes to it. -/
theorem variables_kept (calls : List Call) :
    ∃ store, run calls = some store ∧
      (∀ name allocated, ∃ after, lookup store name allocated = some (lastSet calls name, after)) ∧
      (∀ name, (names store.vars).count name = if (lastSet calls name).isSome then 1 else 0) ∧
      ∀ slot, Taken store.index slot →
        ∃ name, (names store.vars)[store.index.getD slot 0 - 1]? = some name ∧
          WalksTo (Taken store.index) store.index.length (nameHash name &&& (store.index.length - 1)) slot := by
  obtain ⟨store, hrun, hholds⟩ := holds_empty.run calls
  refine ⟨store, hrun, fun name allocated => ?_, hholds.count, fun slot htaken => ?_⟩
  · obtain ⟨after, hlookup, -⟩ := lookup_spec hholds.sound name allocated
    exact ⟨after, by rw [hlookup, hholds.values_eq, lastSet]⟩
  · have hne : store.index ≠ [] := by
      rintro hnil
      rw [Taken, hnil] at htaken
      exact htaken rfl
    have hcovers := hholds.sound.covers hne
    obtain ⟨bits, hpower⟩ := hcovers.power
    obtain ⟨-, name, hname, hreach⟩ := hcovers.live slot htaken
    exact ⟨name, hname, by rwa [mask_start hpower]⟩

end Ussr.ScopeIndex
