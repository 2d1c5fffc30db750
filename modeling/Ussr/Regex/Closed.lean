import Ussr.Regex.Tree

/-! A compiled pattern never leads a search outside of its code and its slots, and a search always ends. -/

namespace Ussr.Regex

section

def Inst.leads : Inst → List Int
  | .opSplit x y => [x, y]
  | .opJmp x => [x]
  | .opMatch => []
  | _ => [1]

/-- Every instruction of a code at `k` leads to a place from `low` to `high`. -/
def Within (low high : Int) : (k : Int) → List Inst → Prop
  | _, [] => True
  | k, i :: c => (∀ x ∈ i.leads, low ≤ k + x ∧ k + x ≤ high) ∧ Within low high (k + 1) c

variable {low high : Int}
variable {k : Int} {i : Inst}

theorem Within.append {a b : List Inst} (ha : Within low high k a) (hb : Within low high (k + a.length) b) :
    Within low high k (a ++ b) := by
  induction a generalizing k with
  | nil => simpa using hb
  | cons i a ih =>
    refine ⟨ha.1, ih ha.2 ?_⟩
    rw [show k + 1 + (a.length : Int) = k + ((i :: a).length : Int) by rw [List.length_cons]; omega]
    exact hb

theorem Within.mono {low' high' : Int} {c : List Inst} (h : Within low high k c) (hlow : low' ≤ low) (hhigh : high ≤ high') :
    Within low' high' k c := by
  induction c generalizing k with
  | nil => trivial
  | cons i c ih => exact ⟨fun x hx => ⟨hlow.trans (h.1 x hx).1, (h.1 x hx).2.trans hhigh⟩, ih h.2⟩

theorem Within.get {code : List Inst} (h : Within low high k code) {j : Nat} (hi : code[j]? = some i)
    {x : Int} (hx : x ∈ i.leads) : low ≤ k + j + x ∧ k + j + x ≤ high := by
  induction code generalizing k j with
  | nil => cases hi
  | cons i' code ih =>
    cases j with
    | zero =>
      obtain rfl := Option.some.inj hi
      simpa using h.1 x hx
    | succ j =>
      have hrest := ih h.2 hi
      rw [show k + ((j + 1 : Nat) : Int) = k + 1 + j by omega]
      exact hrest

theorem within_one (h : ∀ x ∈ i.leads, low ≤ k + x ∧ k + x ≤ high) : Within low high k [i] := ⟨h, trivial⟩

theorem leads_alone (h : i.Alone) : i.leads = [1] := by
  cases i with
  | opSplit x y => exact h.elim
  | opJmp x => exact h.elim
  | opMatch => exact h.elim
  | _ => rfl

theorem mem_leads_splitOf {lazy : Bool} {on off x : Int} (h : x ∈ (splitOf lazy on off).leads) : x = on ∨ x = off := by
  cases lazy
  · simpa [splitOf, Inst.leads] using h
  · simpa [splitOf, Inst.leads, or_comm] using h

theorem optionalCode_length (lazy : Bool) (c : List Inst) (left : Nat) : (optionalCode lazy c left).length = left * (c.length + 1) := by
  induction left with
  | zero => rw [optionalCode, List.length_nil, Nat.zero_mul]
  | succ left ih =>
    rw [optionalCode, List.length_append, List.length_cons, ih]
    ring

def Closed (c : List Inst) : Prop := ∀ k : Int, Within k (k + c.length) k c

variable {c : List Inst}

theorem Closed.within (h : Closed c) (hlow : low ≤ k) (hhigh : k + c.length ≤ high) : Within low high k c :=
  (h k).mono hlow hhigh

theorem Closed.replicate (h : Closed c) (n : Nat) (hlow : low ≤ k) (hhigh : k + (n * c.length : Nat) ≤ high) :
    Within low high k (List.replicate n c).flatten := by
  induction n generalizing k with
  | zero => trivial
  | succ n ih =>
    have hsplit : (((n + 1) * c.length : Nat) : Int) = (n * c.length : Nat) + c.length := by
      rw [Nat.succ_mul]
      exact Nat.cast_add _ _
    rw [List.replicate_succ, List.flatten_cons]
    exact (h.within hlow (by omega)).append (ih (by omega) (by omega))

theorem Closed.optional (h : Closed c) (lazy : Bool) (left : Nat) (hlow : low ≤ k)
    (hhigh : k + (left * (c.length + 1) : Nat) ≤ high) : Within low high k (optionalCode lazy c left) := by
  induction left generalizing k with
  | zero => trivial
  | succ left ih =>
    have hsplit : (((left + 1) * (c.length + 1) : Nat) : Int) = (left * (c.length + 1) : Nat) + (c.length + 1) := by
      rw [Nat.succ_mul]
      exact Nat.cast_add _ _
    refine ⟨fun x hx => ?_, (h.within (by omega) (by omega)).append (ih (by omega) (by omega))⟩
    obtain rfl | rfl := mem_leads_splitOf hx
    · omega
    · omega

theorem Closed.repeat (h : Closed c) (n : Nat) (m : Option Nat) (lazy : Bool) : Closed (repeatCode n m lazy c) := by
  intro k
  cases m with
  | none =>
    unfold repeatCode
    split_ifs with hn
    · have hlength : ((splitOf lazy 1 (c.length + 2) :: c ++ [Inst.opJmp (-(c.length + 1))]).length : Int) = c.length + 2 := by
        simp
        omega
      rw [hlength]
      refine ⟨fun x hx => ?_, (h.within (by omega) (by omega)).append (within_one fun x hx => ?_)⟩
      · obtain rfl | rfl := mem_leads_splitOf hx
        · omega
        · omega
      · obtain rfl := List.mem_singleton.mp hx
        omega
    · obtain ⟨n, rfl⟩ := Nat.exists_eq_succ_of_ne_zero hn
      have hall : (List.replicate (n + 1) c).flatten.length = n * c.length + c.length := by simp [Nat.succ_mul]
      have hsplit : (((n + 1) * c.length : Nat) : Int) = (n * c.length : Nat) + c.length := by
        rw [Nat.succ_mul]
        exact Nat.cast_add _ _
      rw [List.length_append, List.length_singleton, hall]
      refine (h.replicate (n + 1) le_rfl (by omega)).append (within_one fun x hx => ?_)
      rw [hall]
      obtain rfl | rfl := mem_leads_splitOf hx
      · omega
      · omega
  | some m =>
    have hall : (List.replicate n c).flatten.length = n * c.length := by simp
    unfold repeatCode
    rw [List.length_append, hall, optionalCode_length]
    refine (h.replicate n le_rfl (by omega)).append (h.optional lazy _ ?_ ?_)
    · omega
    · rw [hall]
      omega

theorem Tree.code_closed {groups : Nat} {t : Tree} (h : t.Proper groups) : Closed t.code := by
  have hsave (k x : Int) (slot : Nat) (hx : x ∈ (Inst.opSave slot).leads) : x = 1 := List.mem_singleton.mp hx
  induction t with
  | empty => exact fun k => trivial
  | one i =>
    refine fun k => within_one fun x hx => ?_
    rw [leads_alone h] at hx
    obtain rfl := List.mem_singleton.mp hx
    rw [Tree.code, List.length_singleton]
    omega
  | group g body ih =>
    cases g with
    | none => exact ih h
    | some g =>
      intro k
      have hlength : ((Tree.group (some g) body).code.length : Int) = body.code.length + 2 := by
        simp [Tree.code]
        omega
      rw [hlength]
      refine ⟨fun x hx => ?_, ((ih h.2).within (by omega) (by omega)).append (within_one fun x hx => ?_)⟩
      · obtain rfl := hsave k x _ hx
        omega
      · obtain rfl := hsave k x _ hx
        omega
  | seq a b iha ihb =>
    intro k
    rw [Tree.code, List.length_append]
    exact ((iha h.1).within le_rfl (by omega)).append ((ihb h.2).within (by omega) (by omega))
  | alt a b iha ihb =>
    intro k
    have hlength : ((Tree.alt a b).code.length : Int) = a.code.length + b.code.length + 2 := by
      simp [Tree.code]
      omega
    rw [hlength]
    refine ⟨fun x hx => ?_, ((iha h.1).within (by omega) (by omega)).append ⟨fun x hx => ?_, (ihb h.2).within (by omega) (by omega)⟩⟩
    · obtain rfl | rfl : x = 1 ∨ x = a.code.length + 2 := by simpa [Inst.leads] using hx
      · omega
      · omega
    · obtain rfl := List.mem_singleton.mp hx
      omega
  | rep n m lazy body ih => exact (ih h).repeat n m lazy

end

section

/-- Every save of a code has its slot below `slots`. -/
def Saves (slots : Nat) (c : List Inst) : Prop := ∀ slot, .opSave slot ∈ c → slot < slots

variable {slots : Nat} {c : List Inst}

theorem splitOf_ne_save (lazy : Bool) (on off : Int) (slot : Nat) : Inst.opSave slot ≠ splitOf lazy on off := by
  cases lazy <;> exact Inst.noConfusion

theorem Saves.optional (h : Saves slots c) (lazy : Bool) (left : Nat) : Saves slots (optionalCode lazy c left) := by
  induction left with
  | zero => exact fun slot hmem => absurd hmem List.not_mem_nil
  | succ left ih =>
    intro slot hmem
    rw [optionalCode, List.cons_append, List.mem_cons, List.mem_append] at hmem
    obtain heq | hmem | hmem := hmem
    · exact absurd heq (splitOf_ne_save _ _ _ _)
    · exact h slot hmem
    · exact ih slot hmem

theorem Saves.replicate (h : Saves slots c) (n : Nat) : Saves slots (List.replicate n c).flatten := by
  intro slot hmem
  obtain ⟨l, hl, hmem⟩ := List.mem_flatten.mp hmem
  exact h slot (List.eq_of_mem_replicate hl ▸ hmem)

theorem Saves.repeat (h : Saves slots c) (n : Nat) (m : Option Nat) (lazy : Bool) : Saves slots (repeatCode n m lazy c) := by
  intro slot hmem
  cases m with
  | none =>
    unfold repeatCode at hmem
    split_ifs at hmem
    · rw [List.cons_append, List.mem_cons, List.mem_append, List.mem_singleton] at hmem
      obtain heq | hmem | heq := hmem
      · exact absurd heq (splitOf_ne_save _ _ _ _)
      · exact h slot hmem
      · cases heq
    · obtain hmem | hmem := List.mem_append.mp hmem
      · exact h.replicate n slot hmem
      · exact absurd (List.mem_singleton.mp hmem) (splitOf_ne_save _ _ _ _)
  | some m =>
    obtain hmem | hmem := List.mem_append.mp hmem
    · exact h.replicate n slot hmem
    · exact h.optional lazy _ slot hmem

theorem Tree.code_saves {groups : Nat} {t : Tree} (h : t.Proper groups) : Saves ((groups + 1) * 2) t.code := by
  induction t with
  | empty => exact fun slot hmem => absurd hmem List.not_mem_nil
  | one i =>
    intro slot hmem
    obtain rfl := List.mem_singleton.mp hmem
    exact h.elim
  | group g body ih =>
    cases g with
    | none => exact ih h
    | some g =>
      intro slot hmem
      have hle := h.1
      rw [Tree.code, List.cons_append, List.mem_cons, List.mem_append, List.mem_singleton] at hmem
      obtain heq | hmem | heq := hmem
      · obtain rfl := Inst.opSave.inj heq
        omega
      · exact ih h.2 slot hmem
      · obtain rfl := Inst.opSave.inj heq
        omega
  | seq a b iha ihb =>
    intro slot hmem
    obtain hmem | hmem := List.mem_append.mp hmem
    · exact iha h.1 slot hmem
    · exact ihb h.2 slot hmem
  | alt a b iha ihb =>
    intro slot hmem
    rw [Tree.code, List.cons_append, List.mem_cons, List.mem_append, List.mem_cons] at hmem
    obtain heq | hmem | heq | hmem := hmem
    · cases heq
    · exact iha h.1 slot hmem
    · cases heq
    · exact ihb h.2 slot hmem
  | rep n m lazy body ih => exact (ih h).repeat n m lazy

end

end Ussr.Regex
