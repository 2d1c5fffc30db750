import Mathlib.Data.Nat.Find

/-! Computations that ask for the values of keys, each value computed once and kept. While
a key is being computed it is marked as busy, and asking for it then gives a value that
stands for the cycle. The frames that calls take are limited. A key whose value is defined
by recursion alone has the same value whatever was computed before. -/

namespace Ussr.Memo

variable {κ κ' ν α β : Type}
variable {v : ν} {d m N : Nat}

/-- A computation: it asks for keys, each under some frames of its own, and at times only
takes frames. -/
inductive Calc (κ ν α : Type) where
  | done (a : α)
  | fail
  | ask (key : κ) (k : Nat) (rest : ν → Calc κ ν α)
  | frame (k : Nat) (rest : Calc κ ν α)

namespace Calc

def bind : Calc κ ν α → (α → Calc κ ν β) → Calc κ ν β
  | done a, f => f a
  | fail, _ => fail
  | ask key k rest, f => ask key k fun v => (rest v).bind f
  | frame k rest, f => frame k (rest.bind f)

instance instMonad : Monad (Calc κ ν) where
  pure := done
  bind := bind

def mapKey (g : κ → κ') : Calc κ ν α → Calc κ' ν α
  | done a => done a
  | fail => fail
  | ask key k rest => ask (g key) k fun v => (rest v).mapKey g
  | frame k rest => frame k (rest.mapKey g)

end Calc

section

variable (limit : Nat)

/-- The result of a computation under `d` frames, the keys given by `value`; `none` after a
failure or when the frames run out. -/
def Calc.run (value : κ → Nat → Option ν) : Calc κ ν α → (d : Nat) → Option α
  | done a, _ => some a
  | fail, _ => none
  | ask key k rest, d => (value key (d + k)).bind fun v => (rest v).run value d
  | frame k rest, d => if limit < d + k then none else rest.run value d

/-- The value of a key by recursion, to a nesting of `n` keys, asked for under `d` frames. -/
def value (body : κ → Calc κ ν ν) : (n : Nat) → κ → (d : Nat) → Option ν
  | 0, _, _ => none
  | n + 1, key, d => if limit < d + 1 then none else (body key).run limit (value body n) (d + 1)

variable {limit : Nat} {body : κ → Calc κ ν ν}

theorem Calc.run_mono {f g : κ → Nat → Option ν} (d : Nat)
    (h : ∀ key k v, f key (d + k) = some v → g key (d + k) = some v)
    (t : Calc κ ν α) (a : α) (ht : t.run limit f d = some a) : t.run limit g d = some a := by
  induction t with
  | done b => exact ht
  | fail => cases ht
  | ask key k rest ih =>
    rw [run, Option.bind_eq_some_iff] at ht
    obtain ⟨v, hv, hrest⟩ := ht
    rw [run, h key k v hv]
    exact ih v hrest
  | frame k rest ih =>
    rw [run] at ht ⊢
    split at ht
    · cases ht
    · rw [if_neg ‹_›]
      exact ih ht

theorem value_succ {n : Nat} {key : κ} (h : value limit body n key d = some v) :
    value limit body (n + 1) key d = some v := by
  induction n generalizing key d v with
  | zero => cases h
  | succ n ih =>
    rw [value] at h ⊢
    split at h
    · cases h
    · rw [if_neg ‹_›]
      exact Calc.run_mono _ (fun _ _ _ => ih) _ _ h

theorem value_mono {n : Nat} (hmn : m ≤ n) {key : κ}
    (h : value limit body m key d = some v) : value limit body n key d = some v := by
  induction hmn with
  | refl => exact h
  | step _ ih => exact value_succ ih

theorem value_enough {n : Nat} {key : κ} (hm : limit < m + d)
    (h : value limit body n key d = some v) : value limit body m key d = some v := by
  induction m generalizing n key d v with
  | zero =>
    cases n with
    | zero => cases h
    | succ n =>
      rw [value, if_pos (by omega)] at h
      cases h
  | succ m ih =>
    cases n with
    | zero => cases h
    | succ n =>
      rw [value] at h ⊢
      split at h
      · cases h
      · rw [if_neg ‹_›]
        exact Calc.run_mono _ (fun _ k _ => ih (by omega)) _ _ h

theorem Calc.run_agree {f g : κ → Nat → Option ν}
    (h : ∀ key d e v w, f key d = some v → g key e = some w → v = w ∧ g key d = some v)
    (t : Calc κ ν α) (d e : Nat) (a b : α) (hf : t.run limit f d = some a)
    (hg : t.run limit g e = some b) : a = b ∧ t.run limit g d = some a := by
  induction t with
  | done c => exact ⟨(Option.some.inj hf).symm.trans (Option.some.inj hg), hf⟩
  | fail => cases hf
  | ask key k rest ih =>
    rw [run, Option.bind_eq_some_iff] at hf hg
    obtain ⟨v, hv, hfrest⟩ := hf
    obtain ⟨w, hw, hgrest⟩ := hg
    obtain ⟨rfl, hgd⟩ := h key _ _ v w hv hw
    rw [run, hgd]
    exact ih v hfrest hgrest
  | frame k rest ih =>
    rw [run] at hf hg ⊢
    split at hf
    · cases hf
    split at hg
    · cases hg
    rw [if_neg ‹_›]
    exact ih hf hg

/-- A value does not depend on the nesting and the frames at which it is found, and where one
nesting is enough under some frames it is enough under all frames with a value. -/
theorem value_agree {n : Nat} {key : κ} {e : Nat} {w : ν}
    (hn : value limit body n key d = some v) (hm : value limit body m key e = some w) :
    v = w ∧ value limit body m key d = some v := by
  induction n generalizing m key d e v w with
  | zero => cases hn
  | succ n ih =>
    cases m with
    | zero => cases hm
    | succ m =>
      rw [value] at hn hm ⊢
      split at hn
      · cases hn
      split at hm
      · cases hm
      rw [if_neg ‹_›]
      exact Calc.run_agree (f := value limit body n) (g := value limit body m)
        (fun _ _ _ _ _ hf hg => ih hf hg) _ _ _ _ _ hn hm

theorem Calc.run_mapKey (g : κ → κ') {f : κ → Nat → Option ν} {f' : κ' → Nat → Option ν}
    (h : ∀ key d, f' (g key) d = f key d) (t : Calc κ ν α) (d : Nat) :
    (t.mapKey g).run limit f' d = t.run limit f d := by
  induction t with
  | done a => rfl
  | fail => rfl
  | ask key k rest ih =>
    simp only [mapKey, run, h, ih]
  | frame k rest ih => simp only [mapKey, run, ih]

theorem value_mapKey (g : κ → κ') {body' : κ' → Calc κ' ν ν}
    (hbody : ∀ key, body' (g key) = (body key).mapKey g) (n : Nat) (key : κ) (d : Nat) :
    value limit body' n (g key) d = value limit body n key d := by
  induction n generalizing key d with
  | zero => rfl
  | succ n ih => rw [value, value, hbody, Calc.run_mapKey g ih]

end

section

inductive Mark (ν : Type) where
  | unknown
  | busy
  | known (v : ν)

structure Store (σ κ ν : Type) where
  look : σ → κ → Mark ν
  start : σ → κ → σ
  finish : σ → κ → ν → σ

structure Store.Lawful [DecidableEq κ] (M : Store σ κ ν) : Prop where
  look_start : ∀ s key other, M.look (M.start s key) other = if other = key then .busy else M.look s other
  look_finish : ∀ s key v other,
    M.look (M.finish s key v) other = if other = key then .known v else M.look s other

variable {σ : Type} (M : Store σ κ ν) (limit : Nat) (cycle : ν)

/-- A computation on a store; `none` after a failure, which leaves the marks as they are. -/
def Calc.exec (lookup : κ → Nat → σ → Option ν × σ) : Calc κ ν α → (d : Nat) → σ → Option α × σ
  | done a, _, s => (some a, s)
  | fail, _, s => (none, s)
  | ask key k rest, d, s =>
    match lookup key (d + k) s with
    | (some v, s) => (rest v).exec lookup d s
    | (none, s) => (none, s)
  | frame k rest, d, s => if limit < d + k then (none, s) else rest.exec lookup d s

/-- The value of a key on a store, computed where it is not known. A key within another takes
a frame, so a nesting of `limit` keys is as much as the frames allow. -/
def lookup (body : κ → Calc κ ν ν) : (n : Nat) → κ → (d : Nat) → σ → Option ν × σ
  | 0, _, _, s => (none, s)
  | n + 1, key, d, s =>
    if limit < d + 1 then (none, s)
    else
      match M.look s key with
      | .known v => (some v, s)
      | .busy => (some cycle, s)
      | .unknown =>
        match (body key).exec limit (lookup body n) (d + 1) (M.start s key) with
        | (some v, s) => (some v, M.finish s key v)
        | (none, s) => (none, s)

end

section

variable {σ : Type} {M : Store σ κ ν} {limit : Nat} {cycle : ν} {body : κ → Calc κ ν ν}

theorem lookup_cases {key : κ} {s t : σ}
    (h : lookup M limit cycle body N key d s = (some v, t)) :
    (M.look s key = .known v ∧ t = s) ∨ (M.look s key = .busy ∧ v = cycle ∧ t = s) ∨
    ∃ m u, N = m + 1 ∧ M.look s key = .unknown ∧ t = M.finish u key v ∧
      (body key).exec limit (lookup M limit cycle body m) (d + 1) (M.start s key) = (some v, u) := by
  cases N with
  | zero => cases h
  | succ m =>
    rw [lookup] at h
    split at h
    · cases h
    cases hlook : M.look s key with
    | known w =>
      rw [hlook] at h
      cases h
      exact .inl ⟨rfl, rfl⟩
    | busy =>
      rw [hlook] at h
      cases h
      exact .inr (.inl ⟨rfl, rfl, rfl⟩)
    | unknown =>
      rw [hlook] at h
      dsimp only at h
      split at h
      · rename_i w u hexec
        cases h
        exact .inr (.inr ⟨m, u, rfl, rfl, rfl, hexec⟩)
      · cases h

theorem Calc.exec_keeps {P : σ → Prop} {f : κ → Nat → σ → Option ν × σ}
    (h : ∀ key d s, P s → P (f key d s).2) (t : Calc κ ν α) (d : Nat) (s : σ) (hs : P s) :
    P (t.exec limit f d s).2 := by
  induction t generalizing s with
  | done a => exact hs
  | fail => exact hs
  | ask key k rest ih =>
    have hnext := h key (d + k) s hs
    rw [exec]
    split
    · rename_i v u hf
      rw [hf] at hnext
      exact ih v u hnext
    · rename_i u hf
      rw [hf] at hnext
      exact hnext
  | frame k rest ih =>
    rw [exec]
    split
    · exact hs
    · exact ih s hs

theorem lookup_keeps {P : σ → Prop} (hstart : ∀ s key, P s → P (M.start s key))
    (hfinish : ∀ s key v, P s → P (M.finish s key v)) (N : Nat) (key : κ) (d : Nat) (s : σ) (hs : P s) :
    P (lookup M limit cycle body N key d s).2 := by
  induction N generalizing key d s with
  | zero => exact hs
  | succ N ih =>
    rw [lookup]
    split
    · exact hs
    cases M.look s key with
    | known w => exact hs
    | busy => exact hs
    | unknown =>
      have hrun : P ((body key).exec limit (lookup M limit cycle body N) (d + 1) (M.start s key)).2 :=
        Calc.exec_keeps ih (body key) (d + 1) _ (hstart s key hs)
      dsimp only
      split
      · rename_i v u hexec
        rw [hexec] at hrun
        exact hfinish u key v hrun
      · rename_i u hexec
        rw [hexec] at hrun
        exact hrun

/-- A relation that holds between the start of every key and its finish holds across a lookup
that gives a value. -/
theorem Calc.exec_relates {R : σ → σ → Prop} {f : κ → Nat → σ → Option ν × σ} (hrefl : ∀ s, R s s)
    (htrans : ∀ s t u, R s t → R t u → R s u)
    (h : ∀ key d s v t, f key d s = (some v, t) → R s t) (t : Calc κ ν α) (d : Nat) (s u : σ) (a : α)
    (hexec : t.exec limit f d s = (some a, u)) : R s u := by
  induction t generalizing s with
  | done b =>
    cases hexec
    exact hrefl _
  | fail => cases hexec
  | ask key k rest ih =>
    rw [exec] at hexec
    split at hexec
    · rename_i v w hf
      exact htrans _ _ _ (h key (d + k) s v w hf) (ih v w hexec)
    · cases hexec
  | frame k rest ih =>
    rw [exec] at hexec
    split at hexec
    · cases hexec
    · exact ih s hexec

theorem lookup_relates {R : σ → σ → Prop} (hrefl : ∀ s, R s s) (htrans : ∀ s t u, R s t → R t u → R s u)
    (hkey : ∀ f d s u key v, (body key).exec limit f d (M.start s key) = (some v, u) →
      R (M.start s key) u → R s (M.finish u key v))
    (N : Nat) (key : κ) (d : Nat) (s t : σ) (v : ν)
    (hlookup : lookup M limit cycle body N key d s = (some v, t)) : R s t := by
  induction N generalizing key d s t v with
  | zero => cases hlookup
  | succ N ih =>
    obtain ⟨-, rfl⟩ | ⟨-, -, rfl⟩ | ⟨m, u, hm, -, rfl, hexec⟩ := lookup_cases hlookup
    · exact hrefl _
    · exact hrefl _
    · obtain rfl := Nat.succ.inj hm
      have hrun := Calc.exec_relates hrefl htrans (fun key d s v t => ih key d s t v) _ _ _ _ _ hexec
      exact hkey _ _ _ _ _ _ hexec hrun

end

section

variable {σ : Type} {M : Store σ κ ν} {limit : Nat} {cycle : ν} {body : κ → Calc κ ν ν}

/-- A known value is the one of the recursion, if there is one, and no busy key has a value
to a nesting of `n`. -/
structure Good (M : Store σ κ ν) (limit : Nat) (body : κ → Calc κ ν ν) (n : Nat) (s : σ) : Prop where
  known : ∀ key v, M.look s key = .known v → ∀ m d w, value limit body m key d = some w → v = w
  busy : ∀ key, M.look s key = .busy → ∀ d, value limit body n key d = none

def SameBusy (M : Store σ κ ν) (s t : σ) : Prop := ∀ key, M.look t key = .busy ↔ M.look s key = .busy

theorem SameBusy.refl (s : σ) : SameBusy M s s := fun _ => Iff.rfl

theorem SameBusy.trans {s t u : σ} (h : SameBusy M s t) (h' : SameBusy M t u) : SameBusy M s u :=
  fun key => (h' key).trans (h key)

theorem Good.weaken {n : Nat} {s : σ} (hmn : m ≤ n) (h : Good M limit body n s) :
    Good M limit body m s where
  known := h.known
  busy := fun key hbusy d => by
    cases hvalue : value limit body m key d with
    | none => rfl
    | some v =>
      rw [← h.busy key hbusy d]
      exact (value_mono hmn hvalue).symm

section

variable [DecidableEq κ] {n : Nat} {key : κ} {s u : σ}

theorem Good.start (hM : M.Lawful) (hnone : ∀ d, value limit body n key d = none)
    (h : Good M limit body n s) : Good M limit body n (M.start s key) where
  known := fun other v hother => by
    rw [hM.look_start] at hother
    split at hother
    · cases hother
    · exact h.known other v hother
  busy := fun other hother d => by
    rw [hM.look_start] at hother
    split at hother
    · rename_i heq
      rw [heq]
      exact hnone d
    · exact h.busy other hother d

theorem SameBusy.finish (hM : M.Lawful) (hunknown : M.look s key = .unknown)
    (h : SameBusy M (M.start s key) u) : SameBusy M s (M.finish u key v) := by
  intro other
  rw [hM.look_finish]
  split
  · rename_i heq
    rw [heq, hunknown]
    constructor <;> intro hmark <;> cases hmark
  · rename_i hne
    rw [h other, hM.look_start, if_neg hne]

theorem Good.finish (hM : M.Lawful) (hs : Good M limit body n s)
    (hu : ∀ other w, M.look u other = .known w → ∀ m d x, value limit body m other d = some x → w = x)
    (hbusy : SameBusy M (M.start s key) u) (hv : ∀ m d w, value limit body m key d = some w → v = w) :
    Good M limit body n (M.finish u key v) where
  known := fun other w hother => by
    rw [hM.look_finish] at hother
    split at hother
    · rename_i heq
      cases hother
      rw [heq]
      exact hv
    · exact hu other w hother
  busy := fun other hother d => by
    rw [hM.look_finish] at hother
    split at hother
    · cases hother
    · rename_i hne
      rw [hbusy other, hM.look_start, if_neg hne] at hother
      exact hs.busy other hother d

end

/-- A lookup of a key with a value to a nesting of `n` gives that value or fails. -/
def Agrees (M : Store σ κ ν) (limit : Nat) (cycle : ν) (body : κ → Calc κ ν ν) (n : Nat) : Prop :=
  ∀ N key d e v w s t, value limit body n key e = some v → Good M limit body n s →
    lookup M limit cycle body N key d s = (some w, t) → w = v ∧ Good M limit body n t ∧ SameBusy M s t

theorem Calc.exec_agrees {n : Nat} (hagrees : Agrees M limit cycle body n) (t : Calc κ ν α)
    (d e : Nat) (a b : α) (s u : σ) (ht : t.run limit (value limit body n) e = some a)
    (hgood : Good M limit body n s)
    (hexec : t.exec limit (lookup M limit cycle body N) d s = (some b, u)) :
    b = a ∧ Good M limit body n u ∧ SameBusy M s u := by
  induction t generalizing s with
  | done c =>
    cases ht
    cases hexec
    exact ⟨rfl, hgood, .refl _⟩
  | fail => cases ht
  | ask key k rest ih =>
    rw [run, Option.bind_eq_some_iff] at ht
    obtain ⟨v, hv, hrest⟩ := ht
    rw [exec] at hexec
    split at hexec
    · rename_i w r hlookup
      obtain ⟨rfl, hr, hbusy⟩ := hagrees N key (d + k) (e + k) v w s r hv hgood hlookup
      obtain ⟨hb, hu, hbusy'⟩ := ih w r hrest hr hexec
      exact ⟨hb, hu, hbusy.trans hbusy'⟩
    · cases hexec
  | frame k rest ih =>
    rw [run] at ht
    rw [exec] at hexec
    split at ht
    · cases ht
    split at hexec
    · cases hexec
    · exact ih s ht hgood hexec

theorem least_nesting {n : Nat} {key : κ} {e : Nat} (h : value limit body n key e = some v) :
    ∃ m, m < n ∧ (∀ d, value limit body m key d = none) ∧
      (body key).run limit (value limit body m) (e + 1) = some v := by
  classical
  have hsome : ∃ m d w, value limit body m key d = some w := ⟨n, e, v, h⟩
  obtain ⟨d, w, hw⟩ := Nat.find_spec hsome
  have hle : Nat.find hsome ≤ n := Nat.find_min' hsome ⟨e, v, h⟩
  cases hfind : Nat.find hsome with
  | zero =>
    rw [hfind] at hw
    cases hw
  | succ m =>
    rw [hfind] at hw hle
    refine ⟨m, hle, fun c => ?_, ?_⟩
    · cases hc : value limit body m key c with
      | none => rfl
      | some x => exact absurd ⟨c, x, hc⟩ (Nat.find_min hsome (by omega))
    · have hbody := (value_agree h hw).2
      rw [value] at hbody
      split at hbody
      · cases hbody
      · exact hbody

/-- A key with a value is computed while it is busy, at the least nesting at which it has one,
so it never asks for itself. -/
theorem agrees [DecidableEq κ] (hM : M.Lawful) (n : Nat) : Agrees M limit cycle body n := by
  induction n using Nat.strongRecOn with
  | ind n ih =>
    intro N key d e v w s t hvalue hgood hlookup
    obtain ⟨hknown, rfl⟩ | ⟨hbusy, -, -⟩ | ⟨N, u, rfl, hunknown, rfl, hexec⟩ := lookup_cases hlookup
    · exact ⟨hgood.known key w hknown n e v hvalue, hgood, .refl t⟩
    · rw [hgood.busy key hbusy e] at hvalue
      cases hvalue
    · obtain ⟨m, hm, hnone, hrun⟩ := least_nesting hvalue
      have hstart : Good M limit body m (M.start s key) := (hgood.weaken (by omega)).start hM hnone
      obtain ⟨rfl, hu, hbusy⟩ := Calc.exec_agrees (ih m hm) (body key) _ _ _ _ _ _ hrun hstart hexec
      refine ⟨rfl, hgood.finish hM hu.known hbusy fun m' d' x hx => ?_, hbusy.finish hM hunknown⟩
      exact (value_agree hvalue hx).1

theorem Calc.exec_isSome {n : Nat} (hagrees : Agrees M limit cycle body n)
    (hfinds : ∀ key d v s, value limit body n key d = some v → Good M limit body n s →
      ∃ w t, lookup M limit cycle body N key d s = (some w, t))
    (t : Calc κ ν α) (d : Nat) (a : α) (s : σ) (ht : t.run limit (value limit body n) d = some a)
    (hgood : Good M limit body n s) :
    ∃ b u, t.exec limit (lookup M limit cycle body N) d s = (some b, u) := by
  induction t generalizing s with
  | done c => exact ⟨c, s, rfl⟩
  | fail => cases ht
  | ask key k rest ih =>
    rw [run, Option.bind_eq_some_iff] at ht
    obtain ⟨v, hv, hrest⟩ := ht
    obtain ⟨w, r, hlookup⟩ := hfinds key (d + k) v s hv hgood
    obtain ⟨rfl, hr, -⟩ := hagrees N key (d + k) (d + k) v w s r hv hgood hlookup
    rw [exec, hlookup]
    exact ih w r hrest hr
  | frame k rest ih =>
    rw [run] at ht
    rw [exec]
    split at ht
    · cases ht
    · rw [if_neg ‹_›]
      exact ih s ht hgood

theorem lookup_isSome [DecidableEq κ] (hM : M.Lawful) (n N : Nat) (hN : n ≤ N) (key : κ) (d : Nat) (v : ν)
    (s : σ) (hvalue : value limit body n key d = some v) (hgood : Good M limit body n s) :
    ∃ w t, lookup M limit cycle body N key d s = (some w, t) := by
  induction N generalizing n key d v s with
  | zero =>
    obtain rfl := Nat.le_zero.mp hN
    cases hvalue
  | succ N ih =>
    have hframe : ¬limit < d + 1 := by
      intro hlimit
      cases n with
      | zero => cases hvalue
      | succ n =>
        rw [value, if_pos hlimit] at hvalue
        cases hvalue
    rw [lookup, if_neg hframe]
    cases hlook : M.look s key with
    | known w => exact ⟨w, s, rfl⟩
    | busy => exact ⟨cycle, s, rfl⟩
    | unknown =>
      obtain ⟨m, hm, hnone, hrun⟩ := least_nesting hvalue
      obtain ⟨w, u, hexec⟩ := Calc.exec_isSome (agrees hM m) (fun key d v s => ih m (by omega) key d v s)
        (body key) (d + 1) v _ hrun ((hgood.weaken (by omega)).start hM hnone)
      exact ⟨w, M.finish u key w, by simp only [hexec]⟩

theorem lookup_value [DecidableEq κ] (hM : M.Lawful) {n : Nat} {key : κ} {s : σ}
    (hvalue : value limit body n key d = some v) (hgood : ∀ n, Good M limit body n s) :
    (lookup M limit cycle body (limit + 1) key d s).1 = some v := by
  have hlimit : value limit body (limit + 1) key d = some v := value_enough (by omega) hvalue
  obtain ⟨w, t, hlookup⟩ : ∃ w t, lookup M limit cycle body (limit + 1) key d s = (some w, t) :=
    lookup_isSome hM (limit + 1) (limit + 1) (Nat.le_refl _) key d v s hlimit (hgood _)
  rw [hlookup, (agrees hM _ _ _ _ _ _ _ _ _ hlimit (hgood _) hlookup).1]

theorem Calc.exec_good {f : κ → Nat → σ → Option ν × σ}
    (h : ∀ key d s v t, f key d s = (some v, t) → (∀ n, Good M limit body n s) →
      (∀ n, Good M limit body n t) ∧ SameBusy M s t)
    (t : Calc κ ν α) (d : Nat) (a : α) (s u : σ) (hexec : t.exec limit f d s = (some a, u))
    (hgood : ∀ n, Good M limit body n s) : (∀ n, Good M limit body n u) ∧ SameBusy M s u := by
  induction t generalizing s with
  | done b =>
    cases hexec
    exact ⟨hgood, .refl _⟩
  | fail => cases hexec
  | ask key k rest ih =>
    rw [exec] at hexec
    split at hexec
    · rename_i v r hf
      obtain ⟨hr, hbusy⟩ := h key (d + k) s v r hf hgood
      obtain ⟨hu, hbusy'⟩ := ih v r hexec hr
      exact ⟨hu, hbusy.trans hbusy'⟩
    · cases hexec
  | frame k rest ih =>
    rw [exec] at hexec
    split at hexec
    · cases hexec
    · exact ih s hexec hgood

/-- A lookup that gives a value keeps what is known right, also where it meets a cycle: a key
without a value by recursion may be known to have any. -/
theorem lookup_good [DecidableEq κ] (hM : M.Lawful) (N : Nat) (key : κ) (d : Nat) (s : σ) (w : ν) (t : σ)
    (hlookup : lookup M limit cycle body N key d s = (some w, t))
    (hgood : ∀ n, Good M limit body n s) : (∀ n, Good M limit body n t) ∧ SameBusy M s t := by
  induction N generalizing key d s w t with
  | zero => cases hlookup
  | succ N ih =>
    by_cases hvalue : ∃ n e v, value limit body n key e = some v
    · obtain ⟨n, e, v, hv⟩ := hvalue
      have hlater : ∀ m, Good M limit body (n + m) t ∧ SameBusy M s t := fun m =>
        (agrees hM _ _ _ _ _ _ _ _ _ (value_mono (by omega) hv) (hgood (n + m)) hlookup).2
      exact ⟨fun m => (hlater m).1.weaken (by omega), (hlater 0).2⟩
    · have hnone : ∀ n e v, value limit body n key e ≠ some v := fun n e v hv => hvalue ⟨n, e, v, hv⟩
      obtain ⟨-, rfl⟩ | ⟨-, -, rfl⟩ | ⟨m, u, hm, hunknown, rfl, hexec⟩ := lookup_cases hlookup
      · exact ⟨hgood, .refl t⟩
      · exact ⟨hgood, .refl t⟩
      · obtain rfl := Nat.succ.inj hm
        have hstart : ∀ n, Good M limit body n (M.start s key) := fun n =>
          (hgood n).start hM fun e => Option.eq_none_iff_forall_ne_some.mpr (hnone n e)
        obtain ⟨hu, hbusy⟩ := Calc.exec_good
          (fun key d s v t hf hs => ih key d s v t hf hs) (body key) _ w _ u hexec hstart
        refine ⟨fun n => (hgood n).finish hM (hu n).known hbusy fun m' d' x hx => ?_,
          hbusy.finish hM hunknown⟩
        exact absurd hx (hnone m' d' x)

end

end Ussr.Memo
