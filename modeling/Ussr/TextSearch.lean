import Ussr.Strings

/-! Where a text occurs in another, and what more text behind it changes. -/

namespace Ussr
open Stalin (Text)

/-- `needle` stands at place `i` of `s`. -/
def StandsAt (s needle : Text) (i : Nat) : Prop := (s.drop i).take needle.length = needle

variable {s t needle : Text} {start i : Nat}

theorem strFind_eq_some : strFind s needle start = some i ↔
    start ≤ i ∧ i + needle.length ≤ s.length ∧ StandsAt s needle i ∧ ∀ j, start ≤ j → j < i → ¬StandsAt s needle j := by
  unfold strFind StandsAt
  rw [List.find?_range'_eq_some, List.mem_range'_1]
  constructor
  · rintro ⟨hat, ⟨hstart, hlt⟩, hbefore⟩
    exact ⟨hstart, by omega, of_decide_eq_true hat, fun j hj hji => by simpa using hbefore j hj hji⟩
  · rintro ⟨hstart, hend, hat, hbefore⟩
    exact ⟨decide_eq_true hat, ⟨hstart, by omega⟩, fun j hj hji => by simpa using hbefore j hj hji⟩

theorem strFind_eq_none : strFind s needle start = none ↔
    ∀ j, start ≤ j → j + needle.length ≤ s.length → ¬StandsAt s needle j := by
  unfold strFind StandsAt
  rw [List.find?_range'_eq_none]
  constructor
  · exact fun h j hj hend => by simpa using h j hj (by omega)
  · exact fun h j hj hlt => by simpa using h j hj (by omega)

theorem StandsAt.le (h : StandsAt s needle i) (hneedle : needle ≠ []) : i + needle.length ≤ s.length := by
  have hlength := congrArg List.length h
  have hpos := List.length_pos_iff.mpr hneedle
  rw [List.length_take, List.length_drop] at hlength
  omega

theorem StandsAt.byte (h : StandsAt s needle i) {k : Nat} (hk : k < needle.length) : s[i + k]? = needle[k]? := by
  have hbyte : ((s.drop i).take needle.length)[k]? = needle[k]? := by rw [h]
  rw [← hbyte, List.getElem?_take_of_lt hk, List.getElem?_drop]

theorem standsAt_append (hend : i + needle.length ≤ s.length) : StandsAt (s ++ t) needle i ↔ StandsAt s needle i := by
  unfold StandsAt
  rw [List.drop_append_of_le_length (by omega), List.take_append_of_le_length (by rw [List.length_drop]; omega)]

theorem strFind_append (h : strFind s needle start = some i) : strFind (s ++ t) needle start = some i := by
  obtain ⟨hstart, hend, hat, hbefore⟩ := strFind_eq_some.mp h
  refine strFind_eq_some.mpr ⟨hstart, ?_, (standsAt_append hend).mpr hat, fun j hj hji hat' => ?_⟩
  · rw [List.length_append]
    omega
  · exact hbefore j hj hji ((standsAt_append (by omega)).mp hat')

theorem strFind_of_append (h : strFind (s ++ t) needle start = some i) (hend : i + needle.length ≤ s.length) :
    strFind s needle start = some i := by
  obtain ⟨hstart, -, hat, hbefore⟩ := strFind_eq_some.mp h
  refine strFind_eq_some.mpr ⟨hstart, hend, (standsAt_append hend).mp hat, fun j hj hji hat' => ?_⟩
  exact hbefore j hj hji ((standsAt_append (by omega)).mpr hat')

theorem strFind_resume (h : strFind s needle 0 = none) (hstart : start + needle.length ≤ s.length + 1) :
    strFind (s ++ t) needle start = strFind (s ++ t) needle 0 := by
  have hnone (j : Nat) (hj : j < start) : ¬StandsAt (s ++ t) needle j := fun hat =>
    strFind_eq_none.mp h j (Nat.zero_le j) (by omega) ((standsAt_append (by omega)).mp hat)
  cases hfind : strFind (s ++ t) needle 0 with
  | none => exact strFind_eq_none.mpr fun j _ => strFind_eq_none.mp hfind j (Nat.zero_le j)
  | some i =>
    obtain ⟨-, hend, hat, hbefore⟩ := strFind_eq_some.mp hfind
    refine strFind_eq_some.mpr ⟨?_, hend, hat, fun j _ => hbefore j (Nat.zero_le j)⟩
    by_contra hlt
    exact hnone i (by omega) hat

end Ussr
