import Mathlib.Data.List.Basic

/-! Byte vectors with fields at fixed places. A field is read and written byte by byte;
what is written into a field is read back from it, and the fields beside it stay. -/

namespace Ussr.ByteFields

variable {v bs cs : List UInt8} {i j n : Nat}

def byteAt (v : List UInt8) (i : Nat) : UInt8 := v.getD i 0

def bytesAt (v : List UInt8) (i n : Nat) : List UInt8 := (List.range' i n).map (byteAt v)

def putBytes (v : List UInt8) (i : Nat) : List UInt8 → List UInt8
  | [] => v
  | b :: bs => putBytes (v.set i b) (i + 1) bs

@[simp] theorem length_bytesAt (v : List UInt8) (i n : Nat) : (bytesAt v i n).length = n := by
  simp [bytesAt]

@[simp] theorem length_putBytes (v : List UInt8) (i : Nat) (bs : List UInt8) :
    (putBytes v i bs).length = v.length := by
  induction bs generalizing v i with
  | nil => rfl
  | cons b bs ih => rw [putBytes, ih, List.length_set]

theorem byteAt_set (hi : i < v.length) (b : UInt8) (j : Nat) :
    byteAt (v.set i b) j = if i = j then b else byteAt v j := by
  unfold byteAt
  by_cases hij : i = j
  · subst hij
    simp [hi]
  · simp [List.getD_eq_getElem?_getD, List.getElem?_set_ne hij, hij]

theorem byteAt_putBytes (h : i + bs.length ≤ v.length) (j : Nat) :
    byteAt (putBytes v i bs) j =
      if i ≤ j ∧ j < i + bs.length then byteAt bs (j - i) else byteAt v j := by
  induction bs generalizing v i with
  | nil =>
    rw [putBytes, if_neg]
    exact fun hj => absurd hj.2 (by simpa using hj.1)
  | cons b bs ih =>
    rw [List.length_cons] at h ⊢
    rw [putBytes, ih (by rw [List.length_set]; omega), byteAt_set (by omega)]
    by_cases hij : i = j
    · subst hij
      rw [if_neg (by omega), if_pos rfl, if_pos (by omega), Nat.sub_self]
      rfl
    · rw [if_neg hij]
      by_cases hin : i + 1 ≤ j ∧ j < i + 1 + bs.length
      · have hsub : j - i = (j - (i + 1)) + 1 := by omega
        rw [if_pos hin, if_pos (by omega), hsub]
        rfl
      · rw [if_neg hin, if_neg (by omega)]

theorem bytesAt_congr {w : List UInt8} (h : ∀ j, i ≤ j → j < i + n → byteAt v j = byteAt w j) :
    bytesAt v i n = bytesAt w i n := by
  refine List.map_congr_left fun j hj => ?_
  rw [List.mem_range'_1] at hj
  exact h j hj.1 hj.2

theorem bytesAt_self (v : List UInt8) : bytesAt v 0 v.length = v := by
  refine List.ext_getElem (by simp) fun k hk hk' => ?_
  simp [bytesAt, byteAt, hk']

theorem ext_bytes {w : List UInt8} (hlen : v.length = w.length)
    (h : ∀ j, j < v.length → byteAt v j = byteAt w j) : v = w := by
  rw [← bytesAt_self v, ← bytesAt_self w, ← hlen]
  exact bytesAt_congr fun j _ hj => h j (by omega)

theorem bytesAt_putBytes (h : i + bs.length ≤ v.length) :
    bytesAt (putBytes v i bs) i bs.length = bs := by
  conv_rhs => rw [← bytesAt_self bs]
  refine List.ext_getElem (by simp) fun k hk _ => ?_
  rw [length_bytesAt] at hk
  simp only [bytesAt, List.getElem_map, List.getElem_range', Nat.one_mul, Nat.zero_add]
  rw [byteAt_putBytes h, if_pos (by omega), Nat.add_sub_cancel_left]

theorem bytesAt_putBytes_eq (h : i + bs.length ≤ v.length) (hlen : bs.length = n) :
    bytesAt (putBytes v i bs) i n = bs :=
  hlen ▸ bytesAt_putBytes h

theorem bytesAt_putBytes_apart (h : i + bs.length ≤ v.length)
    (hapart : j + n ≤ i ∨ i + bs.length ≤ j) :
    bytesAt (putBytes v i bs) j n = bytesAt v j n := by
  refine bytesAt_congr fun k hj hk => ?_
  rw [byteAt_putBytes h, if_neg (by omega)]

theorem putBytes_putBytes (h : i + bs.length ≤ v.length) (hlen : bs.length = cs.length) :
    putBytes (putBytes v i bs) i cs = putBytes v i cs := by
  refine ext_bytes (by simp) fun j _ => ?_
  rw [byteAt_putBytes (by simpa [← hlen] using h), byteAt_putBytes (by omega),
    byteAt_putBytes (by omega), hlen]
  split_ifs <;> rfl

theorem putBytes_same (h : i + bs.length ≤ v.length) (hsame : bytesAt v i bs.length = bs) :
    putBytes v i bs = v := by
  refine ext_bytes (by simp) fun j _ => ?_
  rw [byteAt_putBytes h]
  split_ifs with hin
  · conv_lhs => rw [← hsame]
    have hk : j - i < bs.length := by omega
    simp [byteAt, bytesAt, hk, List.getD_eq_getElem?_getD, Nat.add_sub_cancel' hin.1]
  · rfl

section

variable {fields : List (Nat × List UInt8)}

def putFields (v : List UInt8) (fields : List (Nat × List UInt8)) : List UInt8 :=
  fields.foldl (fun v f => putBytes v f.1 f.2) v

def Apart (f g : Nat × List UInt8) : Prop := f.1 + f.2.length ≤ g.1 ∨ g.1 + g.2.length ≤ f.1

@[simp] theorem length_putFields (v : List UInt8) (fields : List (Nat × List UInt8)) :
    (putFields v fields).length = v.length := by
  induction fields generalizing v with
  | nil => rfl
  | cons f fields ih => exact (ih _).trans (length_putBytes _ _ _)

theorem bytesAt_putFields_apart (hfit : ∀ f ∈ fields, f.1 + f.2.length ≤ v.length)
    (h : ∀ f ∈ fields, j + n ≤ f.1 ∨ f.1 + f.2.length ≤ j) :
    bytesAt (putFields v fields) j n = bytesAt v j n := by
  induction fields generalizing v with
  | nil => rfl
  | cons f fields ih =>
    rw [List.forall_mem_cons] at hfit h
    refine (ih (fun g hg => ?_) h.2).trans (bytesAt_putBytes_apart hfit.1 h.1)
    rw [length_putBytes]
    exact hfit.2 g hg

theorem bytesAt_putFields (hfit : ∀ f ∈ fields, f.1 + f.2.length ≤ v.length)
    (hapart : fields.Pairwise Apart) (hmem : (i, bs) ∈ fields) :
    bytesAt (putFields v fields) i bs.length = bs := by
  induction fields generalizing v with
  | nil => cases hmem
  | cons f fields ih =>
    rw [List.forall_mem_cons] at hfit
    rw [List.pairwise_cons] at hapart
    have hrest : ∀ g ∈ fields, g.1 + g.2.length ≤ (putBytes v f.1 f.2).length := fun g hg => by
      rw [length_putBytes]
      exact hfit.2 g hg
    cases List.mem_cons.mp hmem with
    | inl heq =>
      subst heq
      exact (bytesAt_putFields_apart hrest hapart.1).trans (bytesAt_putBytes hfit.1)
    | inr hin => exact ih hrest hapart.2 hin

end

end Ussr.ByteFields
