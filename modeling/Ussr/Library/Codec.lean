import Mathlib.Data.List.Basic
import Mathlib.Tactic.Ring

/-! Byte strings as little-endian numbers, and readers that take values off the
front of a byte string. `Decodes` says what a reader makes of given bytes,
`Yields` what all its results satisfy, and `Limits` compares a reader with a
more permissive one. -/

namespace Ussr.Codec

def putLE : (width : Nat) → Nat → List UInt8
  | 0, _ => []
  | width + 1, n => UInt8.ofNat n :: putLE width (n / 256)

def ofLE : List UInt8 → Nat
  | [] => 0
  | b :: bs => b.toNat + 256 * ofLE bs

@[simp] theorem length_putLE (width n : Nat) : (putLE width n).length = width := by
  induction width generalizing n with
  | zero => rfl
  | succ width ih => simp [putLE, ih]

theorem ofLE_putLE {width n : Nat} (h : n < 256 ^ width) : ofLE (putLE width n) = n := by
  induction width generalizing n with
  | zero => simp_all [putLE, ofLE]
  | succ width ih =>
    have hdiv : n / 256 < 256 ^ width := by
      rw [Nat.div_lt_iff_lt_mul (by omega)]
      rwa [pow_succ] at h
    rw [putLE, ofLE, ih hdiv, UInt8.toNat_ofNat']
    omega

theorem ofLE_lt (bs : List UInt8) : ofLE bs < 256 ^ bs.length := by
  induction bs with
  | nil => simp [ofLE]
  | cons b bs ih =>
    have hb : b.toNat < 256 := UInt8.toNat_lt b
    rw [ofLE, List.length_cons, pow_succ]
    omega

abbrev Reader := StateT (List UInt8) (Except String)

variable {α β : Type}

def fail (message : String) : Reader α := fun _ => .error message

def remaining : Reader Nat := fun bs => .ok (bs.length, bs)

def take (n : Nat) (message : String) : Reader (List UInt8) := fun bs =>
  if bs.length < n then .error message else .ok (bs.take n, bs.drop n)

def many : Nat → Reader α → Reader (List α)
  | 0, _ => pure []
  | n + 1, get => do
    let a ← get
    let as ← many n get
    pure (a :: as)

theorem run_pure (a : α) (bs : List UInt8) : (pure a : Reader α) bs = .ok (a, bs) := rfl

theorem run_bind_ok {get : Reader α} {f : α → Reader β} {bs rest : List UInt8} {a : α}
    (h : get bs = .ok (a, rest)) : (get >>= f) bs = f a rest := by
  show (get bs >>= fun p => f p.1 p.2) = _
  rw [h]
  rfl

theorem run_bind_error {get : Reader α} {f : α → Reader β} {bs : List UInt8} {e : String}
    (h : get bs = .error e) : (get >>= f) bs = .error e := by
  show (get bs >>= fun p => f p.1 p.2) = _
  rw [h]
  rfl

theorem except_bind_ok {ε α β : Type} {x : Except ε α} {f : α → Except ε β} {b : β}
    (h : (x >>= f) = .ok b) : ∃ a, x = .ok a ∧ f a = .ok b := by
  cases x with
  | error e => cases h
  | ok a => exact ⟨a, rfl, h⟩

theorem bind_eq_ok {get : Reader α} {f : α → Reader β} {bs rest : List UInt8} {b : β}
    (h : (get >>= f) bs = .ok (b, rest)) :
    ∃ a mid, get bs = .ok (a, mid) ∧ f a mid = .ok (b, rest) := by
  cases hget : get bs with
  | error e => simp [run_bind_error hget] at h
  | ok p => exact ⟨p.1, p.2, rfl, by rwa [run_bind_ok hget] at h⟩

/-- On `bs`, whatever follows them, `get` reads exactly `bs` and returns `a`. -/
def Decodes (get : Reader α) (bs : List UInt8) (a : α) : Prop :=
  ∀ rest, get (bs ++ rest) = .ok (a, rest)

namespace Decodes

variable {get : Reader α} {f : α → Reader β} {a : α} {b : β} {bs cs : List UInt8}

theorem pure (a : α) : Decodes (pure a) [] a := fun _ => rfl

theorem bind (hget : Decodes get bs a) (hf : Decodes (f a) cs b) :
    Decodes (get >>= f) (bs ++ cs) b := by
  intro rest
  rw [List.append_assoc, run_bind_ok (hget _)]
  exact hf rest

theorem last (hget : Decodes get bs a) (hf : Decodes (f a) [] b) : Decodes (get >>= f) bs b := by
  have h := hget.bind hf
  rwa [List.append_nil] at h

theorem map (hget : Decodes get bs a) (g : α → β) :
    Decodes (get >>= fun x => Pure.pure (g x)) bs (g a) :=
  hget.last (Decodes.pure (g a))

theorem take {n : Nat} (message : String) (h : bs.length = n) :
    Decodes (take n message) bs bs := by
  intro rest
  simp [Codec.take, ← h]

theorem many {get : Reader α} {encode : α → List UInt8} {as : List α}
    (h : ∀ a ∈ as, Decodes get (encode a) a) :
    Decodes (many as.length get) (as.flatMap encode) as := by
  induction as with
  | nil => exact Decodes.pure []
  | cons a as ih =>
    have htail := (ih fun x hx => h x (List.mem_cons_of_mem a hx)).map (a :: ·)
    exact (h a List.mem_cons_self).bind htail

end Decodes

/-- Every value that `get` returns satisfies `P`. -/
def Yields (get : Reader α) (P : α → Prop) : Prop :=
  ∀ bs a rest, get bs = .ok (a, rest) → P a

namespace Yields

variable {get : Reader α} {f : α → Reader β} {P : α → Prop} {Q : β → Prop}

theorem fail (message : String) : Yields (fail message) P := by
  intro bs a rest h
  simp [Codec.fail] at h

theorem pure {a : α} (h : P a) : Yields (pure a) P := by
  rintro bs b rest hb
  rw [run_pure] at hb
  cases hb
  exact h

theorem bind (hget : Yields get P) (hf : ∀ a, P a → Yields (f a) Q) : Yields (get >>= f) Q := by
  intro bs b rest h
  obtain ⟨a, mid, ha, hb⟩ := bind_eq_ok h
  exact hf a (hget bs a mid ha) mid b rest hb

theorem any (get : Reader α) : Yields get fun _ => True := fun _ _ _ _ => trivial

theorem many (h : Yields get P) (n : Nat) :
    Yields (many n get) fun as => as.length = n ∧ ∀ a ∈ as, P a := by
  induction n with
  | zero => exact Yields.pure (by simp)
  | succ n ih =>
    refine h.bind fun a ha => ih.bind fun as has => Yields.pure ⟨by simp [has.1], ?_⟩
    intro b hb
    rcases List.mem_cons.mp hb with rfl | hb
    · exact ha
    · exact has.2 b hb

end Yields

/-- `get` does what `get'` does, or stops with `message`. -/
def Limits (message : String) (get get' : Reader α) : Prop :=
  ∀ bs, get bs = get' bs ∨ get bs = .error message

namespace Limits

variable {message : String} {get get' : Reader α} {f f' : α → Reader β}

theorem refl (message : String) (get : Reader α) : Limits message get get := fun _ => Or.inl rfl

theorem bind (hget : Limits message get get') (hf : ∀ a, Limits message (f a) (f' a)) :
    Limits message (get >>= f) (get' >>= f') := by
  intro bs
  rcases hget bs with h | h
  · cases hrun : get' bs with
    | error e =>
      left
      rw [run_bind_error (h.trans hrun), run_bind_error hrun]
    | ok p =>
      rw [run_bind_ok (h.trans hrun), run_bind_ok hrun]
      exact hf p.1 p.2
  · exact Or.inr (run_bind_error h)

theorem many (h : Limits message get get') (n : Nat) :
    Limits message (many n get) (many n get') := by
  induction n with
  | zero => exact refl _ _
  | succ n ih => exact h.bind fun a => ih.bind fun as => refl _ _

end Limits

end Ussr.Codec
