import Ussr.Novgorod.Rendering
import Ussr.TextSearch

/-! The posts that a text refers to, by `nvm_refs` and by the links of its rendering. -/

namespace Ussr.Novgorod
open Decimal (ofDecimal)

variable {j p : Nat} {b : UInt8} {tag : Text}
open Real64 Rewrite
open Stalin (Text strTrim)

/-- The digits after the two bytes at `j`, ten at most. -/
def refDigits (text : Text) (j : Nat) : Text := ((text.drop (j + 2)).take 10).takeWhile nvmIsDigit

/-- The loop of `nvm_refs`. -/
def nvmRefsLoop (text : Text) : (turns start : Nat) → Option (List Nat)
  | 0, start => if start < text.length then none else some []
  | turns + 1, start =>
    if start < text.length then
      match nvmFind text (ascii ">>") start with
      | none => some []
      | some j => do
        let rest ← nvmRefsLoop text turns (j + 2 + (refDigits text j).length)
        return if refDigits text j = [] then rest else ofDecimal (refDigits text j) :: rest
    else some []

def nvmRefs (text : Text) : Option (List Nat) := nvmRefsLoop text text.length 0

/-- A reference stands at `p`: two `>` and digits. -/
structure RefAt (text : Text) (p : Nat) : Prop where
  first : text[p]? = some 62
  second : text[p + 1]? = some 62
  digits : refDigits text p ≠ []

theorem standsAt_two {text : Text} :
    StandsAt text [62, 62] j ↔ text[j]? = some 62 ∧ text[j + 1]? = some 62 := by
  constructor
  · intro h
    exact ⟨h.byte (by decide : 0 < 2), h.byte (by decide : 1 < 2)⟩
  · intro ⟨hfirst, hsecond⟩
    obtain ⟨hlt, hbyte⟩ := List.getElem?_eq_some_iff.mp hfirst
    obtain ⟨hlt', hbyte'⟩ := List.getElem?_eq_some_iff.mp hsecond
    rw [StandsAt, List.drop_eq_getElem_cons hlt, List.drop_eq_getElem_cons hlt', hbyte, hbyte']
    rfl

theorem nvmFind_two (text : Text) (start : Nat) : nvmFind text (ascii ">>") start = strFind text [62, 62] start := by
  rw [show ascii ">>" = [62, 62] by decide]
  rfl

theorem refDigits_spec {text : Text} {p q : Nat} (hq : p + 2 ≤ q) (hlt : q < p + 2 + (refDigits text p).length) :
    ∃ b, text[q]? = some b ∧ nvmIsDigit b = true := by
  have hindex : q - (p + 2) < (refDigits text p).length := by omega
  have hbyte : (refDigits text p)[q - (p + 2)]? = text[q]? := by
    have hprefix : refDigits text p <+: text.drop (p + 2) :=
      (List.takeWhile_prefix _).trans (List.take_prefix _ _)
    obtain ⟨rest, hrest⟩ := hprefix
    have hget : (text.drop (p + 2))[q - (p + 2)]? = text[q]? := by
      rw [List.getElem?_drop, show p + 2 + (q - (p + 2)) = q by omega]
    rw [← hget, ← hrest, List.getElem?_append_left hindex]
  refine ⟨_, hbyte ▸ List.getElem?_eq_getElem hindex, ?_⟩
  exact List.all_eq_true.mp List.all_takeWhile _ (List.getElem_mem hindex)

/-- A run of `>` reaches from `r` to the digits of the reference at `p`. -/
structure RunTo (text : Text) (r p : Nat) : Prop where
  le : r ≤ p
  begins : ∀ b ∈ text[r - 1]?, 0 < r → b ≠ 62
  run : ∀ q, r ≤ q → q ≤ p + 1 → text[q]? = some 62

theorem not_digit_greater (h : nvmIsDigit b = true) : b ≠ 62 := by
  rintro rfl
  cases h

/-- A search may begin at `start`: no `>` stands before it, or an even number of them. -/
def Aligned (text : Text) (start : Nat) : Prop :=
  start = 0 ∨ text[start - 1]? ≠ some 62 ∨
    ∃ r, r ≤ start ∧ (0 < r → text[r - 1]? ≠ some 62) ∧ (∀ q, r ≤ q → q < start → text[q]? = some 62) ∧
      (start - r) % 2 = 0

theorem Aligned.runTo {text : Text} {start : Nat} (h : Aligned text start) (hj : start ≤ j)
    (hat : StandsAt text [62, 62] j) (hbefore : ∀ q, start ≤ q → q < j → ¬StandsAt text [62, 62] q) :
    ∃ r, RunTo text r j ∧ (j - r) % 2 = 0 := by
  obtain ⟨hfirst, hsecond⟩ := standsAt_two.mp hat
  by_cases hprev : 0 < j ∧ text[j - 1]? = some 62
  · have hsame : j = start := by
      by_contra hne
      refine hbefore (j - 1) (by omega) (by omega) (standsAt_two.mpr ⟨hprev.2, ?_⟩)
      rwa [Nat.sub_add_cancel hprev.1]
    subst hsame
    obtain hzero | hother | ⟨r, hr, hbegins, hrun, heven⟩ := h
    · omega
    · exact absurd hprev.2 hother
    · refine ⟨r, ⟨hr, fun b hb hpos heq => hbegins hpos (heq ▸ hb), fun q hq hle => ?_⟩, heven⟩
      obtain hlt | rfl | rfl : q < j ∨ q = j ∨ q = j + 1 := by omega
      · exact hrun q hq hlt
      · exact hfirst
      · exact hsecond
  · refine ⟨j, ⟨le_rfl, fun b hb hpos heq => hprev ⟨hpos, heq ▸ hb⟩, fun q hq hle => ?_⟩, by omega⟩
    obtain rfl | rfl : q = j ∨ q = j + 1 := by omega
    · exact hfirst
    · exact hsecond

theorem RunTo.aligned {text : Text} {r : Nat} (h : RunTo text r j) (heven : (j - r) % 2 = 0) :
    Aligned text (j + 2 + (refDigits text j).length) := by
  have hle := h.le
  by_cases hdigits : (refDigits text j).length = 0
  · refine .inr (.inr ⟨r, by omega, fun hpos hprev => h.begins 62 hprev hpos rfl, fun q hq hlt => ?_, by omega⟩)
    exact h.run q hq (by omega)
  · refine .inr (.inl fun hlast => ?_)
    obtain ⟨b, hb, hdigit⟩ := @refDigits_spec text j (j + 2 + (refDigits text j).length - 1) (by omega) (by omega)
    rw [hlast] at hb
    exact not_digit_greater hdigit (Option.some.inj hb).symm

theorem nvmRefsLoop_order (text : Text) (turns start : Nat) (h : text.length ≤ start + turns)
    (haligned : Aligned text start) :
    ∃ ps : List Nat, nvmRefsLoop text turns start = some (ps.map fun p => ofDecimal (refDigits text p)) ∧
      ps.Pairwise (· < ·) ∧
      ∀ p ∈ ps, start ≤ p ∧ RefAt text p ∧ ∃ r, RunTo text r p ∧ (p - r) % 2 = 0 := by
  induction turns generalizing start with
  | zero => exact ⟨[], by rw [nvmRefsLoop, if_neg (by omega)]; rfl, .nil, by simp⟩
  | succ turns ih =>
    rw [nvmRefsLoop, nvmFind_two]
    split_ifs with hlt
    · cases hfind : strFind text [62, 62] start with
      | none => exact ⟨[], rfl, .nil, by simp⟩
      | some j =>
        obtain ⟨hstart, hend, hat, hbefore⟩ := strFind_eq_some.mp hfind
        obtain ⟨hfirst, hsecond⟩ := standsAt_two.mp hat
        obtain ⟨r, hrun, heven⟩ := haligned.runTo hstart hat hbefore
        obtain ⟨ps, hps, hsorted, hall⟩ := ih (j + 2 + (refDigits text j).length) (by omega) (hrun.aligned heven)
        simp only [hps, Option.bind_eq_bind, Option.bind_some]
        by_cases hdigits : refDigits text j = []
        · refine ⟨ps, by rw [if_pos hdigits]; rfl, hsorted, fun p hp => ?_⟩
          obtain ⟨hle, href⟩ := hall p hp
          exact ⟨by omega, href⟩
        · refine ⟨j :: ps, by rw [if_neg hdigits]; rfl, ?_, ?_⟩
          · refine List.pairwise_cons.mpr ⟨fun p hp => ?_, hsorted⟩
            have hle := (hall p hp).1
            omega
          · refine List.forall_mem_cons.mpr ⟨⟨hstart, ⟨hfirst, hsecond, hdigits⟩, r, hrun, heven⟩, fun p hp => ?_⟩
            obtain ⟨hle, href⟩ := hall p hp
            exact ⟨by omega, href⟩
    · exact ⟨[], rfl, .nil, by simp⟩

theorem nvmRefsLoop_even {text : Text} {r : Nat} (href : RefAt text p) (hrun : RunTo text r p)
    (heven : (p - r) % 2 = 0) (turns start : Nat) (h : text.length ≤ start + turns) (hp : start ≤ p)
    (hstart : start ≤ r ∨ (start - r) % 2 = 0) {refs : List Nat} (hrefs : nvmRefsLoop text turns start = some refs) :
    ofDecimal (refDigits text p) ∈ refs := by
  have hlt : p < text.length := (List.getElem?_eq_some_iff.mp href.first).1
  have hle := hrun.le
  induction turns generalizing start refs with
  | zero => omega
  | succ turns ih =>
    rw [nvmRefsLoop, nvmFind_two, if_pos (by omega)] at hrefs
    cases hfind : strFind text [62, 62] start with
    | none =>
      have hat := standsAt_two.mpr ⟨href.first, href.second⟩
      exact absurd hat (strFind_eq_none.mp hfind p hp (hat.le (by decide)))
    | some j =>
      obtain ⟨hj, hend, hat, hbefore⟩ := strFind_eq_some.mp hfind
      obtain ⟨hfirst, hsecond⟩ := standsAt_two.mp hat
      have hjp : j ≤ p := by
        by_contra hmore
        exact hbefore p hp (by omega) (standsAt_two.mpr ⟨href.first, href.second⟩)
      rw [hfind, Option.bind_eq_bind, Option.bind_eq_some_iff] at hrefs
      obtain ⟨rest, hrest, hrefs⟩ := hrefs
      obtain rfl | hjp := hjp.eq_or_lt
      · rw [if_neg href.digits] at hrefs
        cases hrefs
        exact List.mem_cons_self
      · -- the digits at `j` stop at the run, so the next search starts at a whole number of pairs of it
        have hnext : j + 2 + (refDigits text j).length ≤ p ∧ (j + 2 + (refDigits text j).length ≤ r ∨
            (j + 2 + (refDigits text j).length - r) % 2 = 0) := by
          obtain hbelow | habove := Nat.lt_or_ge j r
          · have hclear : j + 2 ≤ r := by
              by_contra hmore
              obtain rfl : r = j + 1 := by omega
              exact hrun.begins 62 (by simpa using hfirst) (by omega) rfl
            have hstop : j + 2 + (refDigits text j).length ≤ r := by
              by_contra hmore
              obtain ⟨b, hb, hdigit⟩ := refDigits_spec hclear (Nat.lt_of_not_le hmore)
              rw [hrun.run r le_rfl (by omega)] at hb
              exact not_digit_greater hdigit (Option.some.inj hb).symm
            omega
          · have hsame : (j - r) % 2 = 0 := by
              by_cases hinside : start ≤ r
              · have hatr := standsAt_two.mpr ⟨hrun.run r le_rfl (by omega), hrun.run (r + 1) (by omega) (by omega)⟩
                have hjr : j ≤ r := by
                  by_contra hmore
                  exact hbefore r hinside (by omega) hatr
                omega
              · have hats := standsAt_two.mpr
                  ⟨hrun.run start (by omega) (by omega), hrun.run (start + 1) (by omega) (by omega)⟩
                have hjs : j ≤ start := by
                  by_contra hmore
                  exact hbefore start le_rfl (by omega) hats
                omega
            have hnone : (refDigits text j).length = 0 := by
              by_contra hsome
              obtain ⟨b, hb, hdigit⟩ := @refDigits_spec text j (j + 2) le_rfl (by omega)
              rw [hrun.run (j + 2) (by omega) (by omega)] at hb
              exact not_digit_greater hdigit (Option.some.inj hb).symm
            omega
        have hmem := ih _ (by omega) hnext.1 hnext.2 hrest
        cases hrefs
        split_ifs
        · exact hmem
        · exact List.mem_cons_of_mem _ hmem

section

/-- Texts and whole tags, each of which has `Q` between its brackets. -/
inductive Tagged (Q : Text → Prop) : Text → Prop
  | nil : Tagged Q []
  | byte {b : UInt8} {t : Text} : b ≠ 60 → Tagged Q t → Tagged Q (b :: t)
  | tag {tag t : Text} : 60 ∉ tag → 62 ∉ tag → Q tag → Tagged Q t → Tagged Q (60 :: (tag ++ 62 :: t))

variable {Q : Text → Prop} {t u : Text}

theorem Tagged.append (ht : Tagged Q t) (hu : Tagged Q u) : Tagged Q (t ++ u) := by
  induction ht with
  | nil => exact hu
  | byte hb _ ih => exact .byte hb ih
  | tag hopen hclose hQ _ ih =>
    rw [List.cons_append, List.append_assoc, List.cons_append]
    exact .tag hopen hclose hQ ih

theorem Tagged.of_plain (h : 60 ∉ t) : Tagged Q t := by
  induction t with
  | nil => exact .nil
  | cons b t ih =>
    rw [List.mem_cons, not_or] at h
    exact .byte (Ne.symm h.1) (ih h.2)

theorem Tagged.single (hopen : 60 ∉ tag) (hclose : 62 ∉ tag) (hQ : Q tag) :
    Tagged Q (60 :: (tag ++ [62])) :=
  .tag hopen hclose hQ .nil

theorem infix_after {w x t : Text} (hw : 60 ∉ w) (h : (60 :: x) <:+: w ++ t) : (60 :: x) <:+: t := by
  induction w with
  | nil => exact h
  | cons b w ih =>
    rw [List.mem_cons, not_or] at hw
    rw [List.cons_append, List.infix_cons_iff] at h
    obtain hprefix | hpart := h
    · exact absurd (List.cons_prefix_cons.mp hprefix).1 hw.1
    · exact ih hw.2 hpart

theorem Tagged.of_infix (h : Tagged Q t) (hclose : 62 ∉ tag)
    (hpart : (60 :: (tag ++ [62])) <:+: t) : Q tag := by
  induction h with
  | nil => exact absurd (List.eq_nil_of_infix_nil hpart) (by simp)
  | @byte b t hb _ ih => exact ih (infix_after (w := [b]) (by simpa using Ne.symm hb) hpart)
  | @tag tag' t hopen hclose' hQ _ ih =>
    rw [List.infix_cons_iff] at hpart
    obtain hprefix | hinner := hpart
    · have hsame : tag ++ [62] <+: tag' ++ 62 :: t := (List.cons_prefix_cons.mp hprefix).2
      obtain ⟨rest, hrest⟩ := hsame
      have htake (w v : Text) (hw : 62 ∉ w) : (w ++ 62 :: v).takeWhile (· ≠ 62) = w := by
        have hall : ∀ b ∈ w, decide (b ≠ 62) = true := by
          intro b hb
          exact decide_eq_true fun h => hw (h ▸ hb)
        rw [List.takeWhile_append_of_pos hall]
        simp
      have heq := congrArg (List.takeWhile (· ≠ 62)) hrest
      rw [List.append_assoc, List.singleton_append, htake _ _ hclose, htake _ _ hclose'] at heq
      exact heq ▸ hQ
    · have hsplit : tag' ++ 62 :: t = (tag' ++ [62]) ++ t := by simp
      rw [hsplit] at hinner
      refine ih (infix_after ?_ hinner)
      rw [List.mem_append, not_or]
      exact ⟨hopen, by decide⟩

theorem entity_ne (h : entity b = none) : b ≠ 60 ∧ b ≠ 62 ∧ b ≠ 34 := by
  refine ⟨?_, ?_, ?_⟩ <;>
  · rintro rfl
    cases h

theorem Escaped.not_mem {t : Text} (h : Escaped t) : 60 ∉ t ∧ 62 ∉ t ∧ 34 ∉ t := by
  have hentity {b : UInt8} {e : Text} (he : Novgorod.entity b = some e) : 60 ∉ e ∧ 62 ∉ e ∧ 34 ∉ e := by
    unfold Novgorod.entity at he
    split_ifs at he <;> (cases he; decide)
  induction h with
  | nil => exact ⟨List.not_mem_nil, List.not_mem_nil, List.not_mem_nil⟩
  | byte hb _ ih =>
    have hne := entity_ne hb
    simp only [List.mem_cons, not_or]
    exact ⟨⟨hne.1.symm, ih.1⟩, ⟨hne.2.1.symm, ih.2.1⟩, ⟨hne.2.2.symm, ih.2.2⟩⟩
  | entity he _ ih =>
    have hne := hentity he
    simp only [List.mem_append, not_or]
    exact ⟨⟨hne.1, ih.1⟩, ⟨hne.2.1, ih.2.1⟩, ⟨hne.2.2, ih.2.2⟩⟩

theorem Escaped.tagged {t : Text} (h : Escaped t) : Tagged Q t := .of_plain h.not_mem.1

end

section

/-- `s` is a part of the text after which no digit stands. -/
def Slice (text s : Text) : Prop :=
  ∃ o after, text.drop o = s ++ after ∧ ∀ b ∈ after.head?, nvmIsDigit b = false

variable {text s : Text}

theorem takeWhile_take_append {p : UInt8 → Bool} {a after : Text} (n : Nat) (h : ∀ b ∈ after.head?, p b = false) :
    ((a ++ after).take n).takeWhile p = (a.take n).takeWhile p := by
  rw [List.take_append, List.takeWhile_append]
  split_ifs with hall
  · have hstop : (after.take (n - a.length)).takeWhile p = [] := by
      cases after with
      | nil => simp
      | cons b after =>
        cases n - a.length with
        | zero => rfl
        | succ m => rw [List.take_succ_cons, List.takeWhile_cons_of_neg (by rw [h b rfl]; decide)]
    rw [hstop, List.append_nil]
    exact ((List.takeWhile_prefix p).eq_of_length hall).symm
  · rfl

theorem Slice.refAt (h : Slice text s) {i : Nat} (href : RefAt s i) :
    ∃ p, RefAt text p ∧ refDigits text p = refDigits s i := by
  obtain ⟨o, after, hdrop, hafter⟩ := h
  have hsecond := (List.getElem?_eq_some_iff.mp href.second).1
  have hbyte {k : Nat} (hk : k < s.length) : text[o + k]? = s[k]? := by
    rw [← List.getElem?_drop, hdrop, List.getElem?_append_left hk]
  have hdigits : refDigits text (o + i) = refDigits s i := by
    unfold refDigits
    rw [Nat.add_assoc, ← List.drop_drop, hdrop, List.drop_append_of_le_length (by omega),
      takeWhile_take_append 10 hafter]
  refine ⟨o + i, ⟨?_, ?_, ?_⟩, hdigits⟩
  · rw [hbyte (by omega), href.first]
  · rw [Nat.add_assoc, hbyte hsecond, href.second]
  · rw [hdigits]
    exact href.digits

theorem Slice.inner (h : Slice text s) {a j : Nat} {d : UInt8} (hj : s[j]? = some d) (hd : nvmIsDigit d = false)
    (ha : a ≤ j) : Slice text ((s.drop a).take (j - a)) := by
  obtain ⟨o, after, hdrop, hafter⟩ := h
  obtain ⟨hlt, hbyte⟩ := List.getElem?_eq_some_iff.mp hj
  refine ⟨o + a, s.drop j ++ after, ?_, ?_⟩
  · rw [← List.drop_drop, hdrop, List.drop_append_of_le_length (by omega), ← List.append_assoc]
    congr 1
    rw [show s.drop j = (s.drop a).drop (j - a) by rw [List.drop_drop]; congr 1; omega, List.take_append_drop]
  · intro b hb
    rw [List.drop_eq_getElem_cons hlt, hbyte] at hb
    cases hb
    exact hd

theorem Slice.tail (h : Slice text s) : Slice text (s.drop 1) := by
  obtain ⟨o, after, hdrop, hafter⟩ := h
  cases s with
  | nil => exact ⟨o, after, hdrop, hafter⟩
  | cons b s => exact ⟨o + 1, after, by rw [← List.drop_drop, hdrop]; rfl, hafter⟩

theorem Slice.cons (h : Slice text s) (b : UInt8) : Slice (b :: text) s := by
  obtain ⟨o, after, hdrop, hafter⟩ := h
  exact ⟨o + 1, after, hdrop, hafter⟩

theorem nvmLines_slices (text : Text) : ∃ line lines, nvmLines text = line :: lines ∧
    (∃ after, text = line ++ after ∧ ∀ b ∈ after.head?, nvmIsDigit b = false) ∧ ∀ l ∈ lines, Slice text l := by
  induction text with
  | nil => exact ⟨[], [], rfl, ⟨[], rfl, by simp⟩, by simp⟩
  | cons b text ih =>
    obtain ⟨line, lines, heq, ⟨after, htext, hafter⟩, hall⟩ := ih
    by_cases hb : b = 10
    · refine ⟨[], line :: lines, by rw [nvmLines, heq]; exact if_pos hb, ⟨b :: text, rfl, ?_⟩, ?_⟩
      · intro c hc
        cases hc
        rw [hb]
        rfl
      · exact List.forall_mem_cons.mpr ⟨⟨1, after, htext, hafter⟩, fun l hl => (hall l hl).cons b⟩
    · refine ⟨b :: line, lines, by rw [nvmLines, heq]; exact if_neg hb, ⟨after, by rw [htext]; rfl, hafter⟩, ?_⟩
      exact fun l hl => (hall l hl).cons b

theorem nvmLines_slice {line : Text} (h : line ∈ nvmLines text) : Slice text line := by
  obtain ⟨first, lines, heq, ⟨after, htext, hafter⟩, hall⟩ := nvmLines_slices text
  rw [heq] at h
  obtain rfl | hmem := List.mem_cons.mp h
  · exact ⟨0, after, htext, hafter⟩
  · exact hall line hmem

end

section

def postTag (pre no : Text) : Text :=
  ascii "a class=\"ref\" href=\"" ++ pre ++ ascii "/p/" ++ no ++ ascii "\" data-ref=\"" ++ no ++ ascii "\""

/-- The link that is put for `>>no`. -/
def postLink (pre no : Text) : Text := 60 :: (postTag pre no ++ 62 :: (ascii "&gt;&gt;" ++ no ++ ascii "</a>"))

variable {pre : Prefix} {text s : Text} {i : Nat}

def Refers (pre text tag : Text) : Prop := ∀ no : Digits, tag = postTag pre no.1 → ∃ p, RefAt text p ∧ refDigits text p = no.1

/-- What a turn of `nvm_inline` puts is tagged, and the turn advances. -/
def Emits (Q : Text → Prop) (x : Option (Option (Text × Nat))) : Prop :=
  x = some none ∨ ∃ html skip, x = some (some (html, skip)) ∧ 0 < skip ∧ Tagged Q html

variable {Q : Text → Prop}

theorem Emits.nothing : Emits Q (some none) := .inl rfl

theorem Emits.html {t : Text} {skip : Nat} (hskip : 0 < skip) (h : Tagged Q t) :
    Emits Q (some (some (t, skip))) :=
  .inr ⟨t, skip, rfl, hskip, h⟩

theorem refers_of_head (h : tag.take 9 ≠ ascii "a class=\"") : Refers pre.path text tag := by
  intro no heq
  have hhead : ascii "a class=\"ref\" href=\"" = ascii "a class=\"" ++ ascii "ref\" href=\"" := by decide
  have hlength : (ascii "a class=\"").length = 9 := by decide
  rw [heq, postTag, hhead] at h
  simp only [List.append_assoc] at h
  rw [← hlength, List.take_left] at h
  exact absurd rfl h

def fixedTags : List String :=
  ["b", "/b", "i", "/i", "s", "/s", "code", "/code", "/a", "/span", "/pre", "br", "span class=\"quote\"",
    "span class=\"spoiler\"", "pre class=\"code\""]

theorem fixedTag {tag : String} (h : tag ∈ fixedTags) :
    Tagged (Refers pre.path text) (60 :: (ascii tag ++ [62])) := by
  have hall : ∀ tag ∈ fixedTags, 60 ∉ ascii tag ∧ 62 ∉ ascii tag ∧ (ascii tag).take 9 ≠ ascii "a class=\"" := by
    decide
  obtain ⟨hopen, hclose, hhead⟩ := hall tag h
  exact .single hopen hclose (refers_of_head hhead)

theorem Element.tagged (e : Element) : Tagged (Refers pre.path text) e.opening ∧
    Tagged (Refers pre.path text) e.closing := by
  have hopening : ∃ tag ∈ fixedTags, e.opening = 60 :: (ascii tag ++ [62]) := by
    cases e <;> decide
  have hclosing : ∃ tag ∈ fixedTags, e.closing = 60 :: (ascii tag ++ [62]) := by
    cases e <;> decide
  obtain ⟨tag, hmem, heq⟩ := hopening
  obtain ⟨tag', hmem', heq'⟩ := hclosing
  exact ⟨heq ▸ fixedTag hmem, heq' ▸ fixedTag hmem'⟩

theorem endLink_tagged : Tagged (Refers pre.path text) (ascii "</a>") := by
  have heq : ascii "</a>" = 60 :: (ascii "/a" ++ [62]) := by decide
  exact heq ▸ fixedTag (by decide)

theorem inlineBackslash_emits (hi : i + 1 < s.length) : Emits Q (inlineBackslash s i) := by
  unfold inlineBackslash
  rw [List.getElem?_eq_getElem hi]
  simp only [nvmEscape_eq, Option.bind_eq_bind, Option.bind_some]
  split
  · exact .html (by decide) (escape_escaped _).tagged
  · exact .nothing

theorem inlineCode_emits : Emits (Refers pre.path text) (inlineCode s i) := by
  have htags := @Element.tagged pre text .code
  unfold inlineCode
  split
  · split
    · simp only [nvmEscape_eq, Option.bind_eq_bind, Option.bind_some]
      exact .html (by omega) ((htags.1.append (escape_escaped _).tagged).append htags.2)
    · exact .nothing
  · exact .nothing

theorem nvmFind_at {s needle : Text} {start : Nat} (h : nvmFind s needle start = some j) :
    (s.drop j).take needle.length = needle := by
  unfold nvmFind at h
  split at h
  · cases h
  · have hfound := List.find?_some h
    exact of_decide_eq_true hfound

theorem nvmCloserLoop_at {delim : Text} {k : Nat} (turns start : Nat)
    (h : nvmCloserLoop s k delim turns start = some (some j)) : start ≤ j ∧ (s.drop j).take delim.length = delim := by
  induction turns generalizing start with
  | zero =>
    rw [nvmCloserLoop] at h
    split_ifs at h
    cases h
  | succ turns ih =>
    rw [nvmCloserLoop] at h
    split_ifs at h with hlt
    · cases hfind : nvmFind s delim start with
      | none =>
        rw [hfind] at h
        cases h
      | some j' =>
        obtain ⟨hle, hlt'⟩ := nvmFind_bounds hfind
        have hbefore : s[j' - 1]? = some (s.get ⟨j' - 1, by omega⟩) := List.getElem?_eq_getElem _
        obtain ⟨half, hhalf⟩ := halfOfTwo_total s j' k delim
        simp only [hfind, hbefore, hhalf, Option.bind_eq_bind, Option.bind_some] at h
        split_ifs at h
        · cases h
          exact ⟨hle, nvmFind_at hfind⟩
        · obtain ⟨hle', hat⟩ := ih (j' + 1) h
          exact ⟨by omega, hat⟩
    · cases h

theorem nvmCloser_at {delim : Text} {k : Nat} (h : nvmCloser s i k delim = some (some j)) :
    i + k < j ∧ (s.drop j).take delim.length = delim := by
  unfold nvmCloser at h
  split_ifs at h with hend
  · cases h
  · rw [List.getElem?_eq_getElem (by omega)] at h
    simp only [Option.bind_eq_bind, Option.bind_some] at h
    split_ifs at h
    · cases h
    · exact nvmCloserLoop_at _ _ h

theorem inlineDelimited_emits {inner : Option (Text → Option Text)} (hb : s[i]? = some b)
    (hdigit : nvmIsDigit b = false) (hslice : Slice text s)
    (hinner : ∀ render ∈ inner, ∀ t, Slice text t → ∃ html, render t = some html ∧ Tagged (Refers pre.path text) html) :
    Emits (Refers pre.path text) (inlineDelimited s i inner b) := by
  unfold inlineDelimited
  dsimp only
  generalize hk : (if s[i + 1]? = some b then 2 else 1) = k
  have hpos : 0 < k := by
    rw [← hk]
    split <;> decide
  split
  · rename_i opening closing render htags
    obtain ⟨e, rfl, rfl⟩ := delimiterTags_element htags
    obtain ⟨r, hr⟩ := nvmCloser_total s i k ((s.drop i).take k)
    simp only [hr, Option.bind_eq_bind, Option.bind_some]
    cases r with
    | none => exact .nothing
    | some j =>
      obtain ⟨hlt, hat⟩ := nvmCloser_at hr
      have hj : s[j]? = some b := by
        obtain ⟨hilt, hbyte⟩ := List.getElem?_eq_some_iff.mp hb
        obtain ⟨m, rfl⟩ : ∃ m, k = m + 1 := ⟨k - 1, by omega⟩
        rw [List.drop_eq_getElem_cons hilt, hbyte, List.take_succ_cons, List.length_cons] at hat
        have hhead := congrArg List.head? hat
        rwa [List.head?_take, if_neg (by omega), List.head?_drop, List.head?_cons] at hhead
      obtain ⟨html, heq, hhtml⟩ := hinner render rfl _ (hslice.inner hj hdigit hlt.le)
      rw [show j - (i + k) = j - i - k by omega] at heq
      simp only [heq, Option.bind_some]
      exact .html (by omega) ((e.tagged.1.append hhtml).append e.tagged.2)
  · exact .nothing

theorem digit_ne (h : nvmIsDigit b = true) : b ≠ 60 ∧ b ≠ 62 ∧ b ≠ 61 := by
  refine ⟨?_, ?_, ?_⟩ <;>
  · rintro rfl
    cases h

theorem postTag_brackets (pre : Prefix) (no : Digits) : 60 ∉ postTag pre.path no.1 ∧ 62 ∉ postTag pre.path no.1 := by
  have hfixed : ∀ t ∈ ["a class=\"ref\" href=\"", "/p/", "\" data-ref=\"", "\""], 60 ∉ ascii t ∧ 62 ∉ ascii t := by
    decide
  have hno : 60 ∉ no.1 ∧ 62 ∉ no.1 :=
    ⟨fun h => (digit_ne (no.2 _ h)).1 rfl, fun h => (digit_ne (no.2 _ h)).2.1 rfl⟩
  have hpre : 60 ∉ pre.path ∧ 62 ∉ pre.path :=
    ⟨fun h => (entity_ne (pre.plain _ h)).1 rfl, fun h => (entity_ne (pre.plain _ h)).2.1 rfl⟩
  have h₁ := hfixed _ (by decide : "a class=\"ref\" href=\"" ∈ _)
  have h₂ := hfixed _ (by decide : "/p/" ∈ _)
  have h₃ := hfixed _ (by decide : "\" data-ref=\"" ∈ _)
  have h₄ := hfixed _ (by decide : "\"" ∈ _)
  constructor
  · simp only [postTag, List.mem_append, h₁.1, hpre.1, h₂.1, hno.1, h₃.1, h₄.1, or_self, not_false_eq_true]
  · simp only [postTag, List.mem_append, h₁.2, hpre.2, h₂.2, hno.2, h₃.2, h₄.2, or_self, not_false_eq_true]

theorem postTag_injective {pre no no' : Text} (h : postTag pre no = postTag pre no') : no = no' := by
  have hlength := congrArg List.length h
  simp only [postTag, List.length_append] at hlength
  simp only [postTag, List.append_assoc] at h
  have hrest := List.append_cancel_left (List.append_cancel_left (List.append_cancel_left h))
  exact List.append_inj_left hrest (by omega)

theorem inlinePost_eq (pre s : Text) (i : Nat) :
    inlinePost pre s i = some (postLink pre (refDigits s i), (refDigits s i).length + 2) := by
  have hopen : ascii "<a class=\"ref\" href=\"" = 60 :: ascii "a class=\"ref\" href=\"" := by decide
  have hclose : ascii "\">&gt;&gt;" = ascii "\"" ++ 62 :: ascii "&gt;&gt;" := by decide
  unfold inlinePost postLink postTag refDigits
  simp only [hopen, hclose, List.cons_append, List.append_assoc]

theorem inlinePost_emits (hslice : Slice text s) (href : RefAt s i) :
    Emits (Refers pre.path text) (some (inlinePost pre.path s i)) := by
  have hdigits : ∀ b ∈ refDigits s i, nvmIsDigit b = true :=
    fun b hb => List.all_eq_true.mp List.all_takeWhile b hb
  have hbrackets := postTag_brackets pre ⟨refDigits s i, hdigits⟩
  have hrefers : Refers pre.path text (postTag pre.path (refDigits s i)) := by
    intro no heq
    rw [← postTag_injective heq]
    exact hslice.refAt href
  have hlabel : Escaped (ascii "&gt;&gt;" ++ refDigits s i) :=
    .append (greater_escaped.append greater_escaped) (Digits.escaped ⟨_, hdigits⟩)
  rw [inlinePost_eq]
  refine .html (by omega) (.tag hbrackets.1 hbrackets.2 hrefers ?_)
  exact hlabel.tagged.append endLink_tagged

theorem inlineBoard_emits : Emits (Refers pre.path text) (some (inlineBoard pre.path s i)) := by
  have hbytes : ∀ b ∈ ((s.drop (i + 4)).take 20).takeWhile boardByte, boardByte b = true :=
    fun b hb => List.all_eq_true.mp List.all_takeWhile b hb
  unfold inlineBoard
  dsimp only
  generalize ((s.drop (i + 4)).take 20).takeWhile boardByte = board at hbytes
  have hplain : Escaped board := .of_plain fun b hb => board_plain (hbytes b hb)
  have hno : 61 ∉ board := by
    intro h
    exact absurd (hbytes 61 h) (by decide)
  let tag := ascii "a class=\"ref\" href=\"" ++ (pre.path ++ (ascii "/" ++ (board ++ ascii "/\"")))
  have hfixed : ∀ t ∈ ["a class=\"ref\" href=\"", "/", "/\""], 60 ∉ ascii t ∧ 62 ∉ ascii t := by decide
  have h₁ := hfixed _ (by decide : "a class=\"ref\" href=\"" ∈ _)
  have h₂ := hfixed _ (by decide : "/" ∈ _)
  have h₃ := hfixed _ (by decide : "/\"" ∈ _)
  have hpre : 60 ∉ pre.path ∧ 62 ∉ pre.path :=
    ⟨fun h => (entity_ne (pre.plain _ h)).1 rfl, fun h => (entity_ne (pre.plain _ h)).2.1 rfl⟩
  have hopen : 60 ∉ tag := by
    simp only [tag, List.mem_append, not_or]
    exact ⟨h₁.1, hpre.1, h₂.1, hplain.not_mem.1, h₃.1⟩
  have hclose : 62 ∉ tag := by
    simp only [tag, List.mem_append, not_or]
    exact ⟨h₁.2, hpre.2, h₂.2, hplain.not_mem.2.1, h₃.2⟩
  -- the tag of a link to a post has a second attribute
  have hrefers : Refers pre.path text tag := by
    intro no heq
    simp only [tag, postTag, List.append_assoc] at heq
    have hrest := List.append_cancel_left (List.append_cancel_left heq)
    have hmem : 61 ∈ ascii "/" ++ (board ++ ascii "/\"") := by
      rw [hrest]
      have hdata : 61 ∈ ascii "\" data-ref=\"" := by decide
      simp only [List.mem_append]
      exact .inr (.inr (.inl hdata))
    have hslash : 61 ∉ ascii "/" ∧ 61 ∉ ascii "/\"" := by decide
    simp only [List.mem_append] at hmem
    tauto
  have hlabel : Escaped (ascii "&gt;&gt;&gt;/" ++ (board ++ ascii "/")) :=
    .append (greater_escaped.append (greater_escaped.append (greater_escaped.append
      (.byte rfl .nil)))) (hplain.append (.byte rfl .nil))
  split
  · refine .html (by omega) ?_
    have h := (Tagged.single hopen hclose hrefers).append (hlabel.tagged.append (@endLink_tagged pre text))
    have hfirst : ascii "<a class=\"ref\" href=\"" = 60 :: ascii "a class=\"ref\" href=\"" := by decide
    have hlast : ascii "/\">&gt;&gt;&gt;/" = ascii "/\"" ++ 62 :: ascii "&gt;&gt;&gt;/" := by decide
    have hend : ascii "/</a>" = ascii "/" ++ ascii "</a>" := by decide
    simp only [tag, List.append_assoc, List.cons_append, List.nil_append] at h
    simp only [hfirst, hlast, hend, List.append_assoc, List.cons_append]
    exact h
  · exact .nothing

theorem inlineReference_emits (hi : i + 2 < s.length) (hslice : Slice text s) :
    Emits (Refers pre.path text) (inlineReference pre.path s i) := by
  unfold inlineReference
  split
  · exact .nothing
  rename_i htwo
  rw [ne_eq, not_not, show ascii ">>" = [62, 62] by decide] at htwo
  obtain ⟨hfirst, hsecond⟩ := standsAt_two.mp htwo
  rw [List.getElem?_eq_getElem hi]
  simp only [Option.bind_eq_bind, Option.bind_some]
  split
  · rename_i hdigit
    refine inlinePost_emits hslice ⟨hfirst, hsecond, ?_⟩
    rw [refDigits, List.drop_eq_getElem_cons hi, List.take_succ_cons, List.takeWhile_cons_of_pos hdigit]
    exact List.cons_ne_nil _ _
  split
  · rename_i h
    rw [List.getElem?_eq_getElem (by omega : i + 3 < s.length)]
    simp only [Option.bind_some]
    split
    · exact inlineBoard_emits
    · exact .nothing
  · exact .nothing

theorem inlineUrl_emits (hi : i < s.length) : Emits (Refers pre.path text) (inlineUrl s i) := by
  obtain ⟨k, hk, _⟩ := nvmUrlLen_spec hi
  unfold inlineUrl
  simp only [hk, Option.bind_eq_bind, Option.bind_some]
  split
  · exact .nothing
  · simp only [nvmEscape_eq, Option.bind_some]
    have hurl := escape_escaped ((s.drop i).take k)
    generalize escape ((s.drop i).take k) = url at hurl
    let last := ascii "\" rel=\"nofollow noopener noreferrer ugc\" target=\"_blank\""
    have hfixed : (60 ∉ ascii "a href=\"" ∧ 62 ∉ ascii "a href=\"") ∧ 60 ∉ last ∧ 62 ∉ last := by decide
    have hopen : 60 ∉ ascii "a href=\"" ++ (url ++ last) := by
      simp only [List.mem_append, not_or]
      exact ⟨hfixed.1.1, hurl.not_mem.1, hfixed.2.1⟩
    have hclose : 62 ∉ ascii "a href=\"" ++ (url ++ last) := by
      simp only [List.mem_append, not_or]
      exact ⟨hfixed.1.2, hurl.not_mem.2.1, hfixed.2.2⟩
    have hrefers : Refers pre.path text (ascii "a href=\"" ++ (url ++ last)) := by
      refine refers_of_head fun heq => ?_
      have hthree := congrArg (List.take 3) heq
      rw [List.take_take, List.take_append_of_le_length (by decide)] at hthree
      revert hthree
      decide
    have h := (Tagged.single hopen hclose hrefers).append (hurl.tagged.append (@endLink_tagged pre text))
    have hfirst : ascii "<a href=\"" = 60 :: ascii "a href=\"" := by decide
    have hlast : ascii "\" rel=\"nofollow noopener noreferrer ugc\" target=\"_blank\">" = last ++ [62] := by
      decide
    refine .html (by omega) ?_
    simp only [List.append_assoc, List.cons_append, List.nil_append] at h
    simp only [hfirst, hlast, List.append_assoc, List.cons_append, List.nil_append]
    exact h

theorem inlineMarkup_emits {inner : Option (Text → Option Text)} (hb : s[i]? = some b)
    (hslice : Slice text s) (hinner : ∀ render ∈ inner, ∀ t, Slice text t →
      ∃ html, render t = some html ∧ Tagged (Refers pre.path text) html) :
    Emits (Refers pre.path text) (inlineMarkup pre.path s i inner b) := by
  obtain ⟨hi, -⟩ := List.getElem?_eq_some_iff.mp hb
  unfold inlineMarkup
  split
  · rename_i h
    exact inlineBackslash_emits h.2
  split
  · exact inlineCode_emits
  split
  · rename_i hdelimiter
    refine inlineDelimited_emits hb ?_ hslice hinner
    obtain rfl | rfl | rfl := hdelimiter <;> rfl
  split
  · rename_i h
    exact inlineReference_emits h.2 hslice
  split
  · exact inlineUrl_emits hi
  · exact .nothing

theorem nvmInlineStep_tagged {inner : Option (Text → Option Text)} (hslice : Slice text s)
    (hinner : ∀ render ∈ inner, ∀ t, Slice text t → ∃ html, render t = some html ∧ Tagged (Refers pre.path text) html) :
    Keeps (fun i => nvmInlineStep pre.path s i inner) s (Tagged (Refers pre.path text)) := by
  intro i b hb
  unfold nvmInlineStep
  simp only [hb, Option.bind_eq_bind, Option.bind_some]
  obtain hnothing | ⟨html, skip, hsome, hskip, hhtml⟩ := inlineMarkup_emits hb hslice hinner
  · simp only [hnothing, Option.bind_some]
    split
    · right
      exact ⟨escape [b], 1, by rw [nvmEscape_eq]; rfl, by decide, (escape_escaped _).tagged⟩
    · rename_i h
      left
      exact ⟨rfl, .byte (entity_ne (special_of_entity h)).1 .nil⟩
  · right
    simp only [hsome, Option.bind_some]
    exact ⟨html, skip, rfl, hskip, hhtml⟩

theorem nvmInline_tagged (pre : Prefix) (levels : Nat) (hslice : Slice text s) :
    ∃ html, nvmInline pre.path levels s = some html ∧ Tagged (Refers pre.path text) html := by
  induction levels generalizing s with
  | zero =>
    exact rewrite_keeps (nvmInlineStep_tagged hslice fun _ h => absurd h (by simp)) .nil fun _ _ => .append
  | succ levels ih =>
    refine rewrite_keeps (nvmInlineStep_tagged hslice fun render h t ht => ?_) .nil fun _ _ => .append
    obtain rfl := Option.some.inj h
    exact ih ht

theorem blockOpening_tagged (lang : Option Lang) : Tagged (Refers pre.path text) (blockOpening lang) := by
  have hcode : Tagged (Refers pre.path text) (60 :: (ascii "code" ++ [62])) := fixedTag (by decide)
  cases lang with
  | none =>
    have heq : blockOpening none = 60 :: (ascii "pre class=\"code\"" ++ [62]) ++ 60 :: (ascii "code" ++ [62]) := by
      decide
    rw [heq]
    exact (fixedTag (by decide)).append hcode
  | some lang =>
    have hlang : Escaped lang.1 := .of_plain fun b hb => lang_plain (lang.2.2 b hb)
    have hfixed : (60 ∉ ascii "pre class=\"code\" data-lang=\"" ∧ 62 ∉ ascii "pre class=\"code\" data-lang=\"") ∧
        60 ∉ ascii "\"" ∧ 62 ∉ ascii "\"" := by decide
    have hopen : 60 ∉ ascii "pre class=\"code\" data-lang=\"" ++ (lang.1 ++ ascii "\"") := by
      simp only [List.mem_append, not_or]
      exact ⟨hfixed.1.1, hlang.not_mem.1, hfixed.2.1⟩
    have hclose : 62 ∉ ascii "pre class=\"code\" data-lang=\"" ++ (lang.1 ++ ascii "\"") := by
      simp only [List.mem_append, not_or]
      exact ⟨hfixed.1.2, hlang.not_mem.2.1, hfixed.2.2⟩
    have hrefers : Refers pre.path text (ascii "pre class=\"code\" data-lang=\"" ++ (lang.1 ++ ascii "\"")) := by
      refine refers_of_head fun heq => ?_
      rw [List.take_append_of_le_length (by decide)] at heq
      revert heq
      decide
    have h := (Tagged.single hopen hclose hrefers).append hcode
    have hfirst : ascii "<pre class=\"code\" data-lang=\"" = 60 :: ascii "pre class=\"code\" data-lang=\"" := by
      decide
    have hlast : ascii "\"><code>" = ascii "\"" ++ 62 :: 60 :: (ascii "code" ++ [62]) := by decide
    simp only [List.append_assoc, List.cons_append, List.nil_append] at h
    simp only [blockOpening, hfirst, hlast, List.append_assoc, List.cons_append]
    exact h

theorem blockEnd_tagged : Tagged (Refers pre.path text) (ascii "</code></pre>") := by
  have heq : ascii "</code></pre>" = 60 :: (ascii "/code" ++ [62]) ++ 60 :: (ascii "/pre" ++ [62]) := by decide
  rw [heq]
  exact (fixedTag (by decide)).append (fixedTag (by decide))

theorem renderText_tagged {line : Text} (hslice : Slice text line) :
    ∃ html, renderText pre.path line = some html ∧ Tagged (Refers pre.path text) html := by
  unfold renderText
  split
  · obtain ⟨html, heq, hhtml⟩ := nvmInline_tagged pre 8 hslice.tail
    refine ⟨ascii "<span class=\"quote\">&gt;" ++ html ++ ascii "</span>", by rw [heq]; rfl, ?_⟩
    have htags := @Element.tagged pre text .quote
    have hopening : ascii "<span class=\"quote\">&gt;" = Element.quote.opening ++ ascii "&gt;" := by decide
    rw [hopening]
    exact ((htags.1.append greater_escaped.tagged).append hhtml).append htags.2
  · exact nvmInline_tagged pre 8 hslice

theorem nvmRenderLine_tagged {v : Rendering} (h : Tagged (Refers pre.path text) v.r) {line : Text}
    (hslice : Slice text line) :
    ∃ v', nvmRenderLine pre.path v line = some v' ∧ Tagged (Refers pre.path text) v'.r := by
  have hbr : Tagged (Refers pre.path text) (ascii "<br>\n") := by
    have heq : ascii "<br>\n" = 60 :: (ascii "br" ++ [62]) ++ [10] := by decide
    rw [heq]
    exact (fixedTag (by decide)).append (.of_plain (by decide))
  have hfeed : Tagged (Refers pre.path text) (ascii "\n") := .of_plain (by decide)
  unfold nvmRenderLine
  by_cases hcode : v.inCode = true
  · rw [if_pos hcode]
    split
    · exact ⟨_, rfl, h.append blockEnd_tagged⟩
    · rw [nvmEscape_eq]
      refine ⟨_, rfl, ?_⟩
      dsimp only
      split
      · exact (h.append hfeed).append (escape_escaped line).tagged
      · exact h.append (escape_escaped line).tagged
  · rw [if_neg hcode]
    split
    · obtain ⟨lang, hlang⟩ := openFence_block line
      rw [hlang]
      exact ⟨_, rfl, h.append (blockOpening_tagged lang)⟩
    · dsimp only
      generalize (if strTrim line = [] then v.blanks + 1 else 0) = blanks
      split
      · exact ⟨_, rfl, h⟩
      · obtain ⟨html, heq, hhtml⟩ := @renderText_tagged pre text line hslice
        rw [heq]
        refine ⟨_, rfl, ?_⟩
        dsimp only
        split
        · exact (h.append hbr).append hhtml
        · exact h.append hhtml

theorem renderLines_tagged (lines : List Text) (hlines : ∀ line ∈ lines, Slice text line) {v : Rendering}
    (h : Tagged (Refers pre.path text) v.r) :
    ∃ v', lines.foldlM (nvmRenderLine pre.path) v = some v' ∧ Tagged (Refers pre.path text) v'.r := by
  induction lines generalizing v with
  | nil => exact ⟨v, rfl, h⟩
  | cons line lines ih =>
    obtain ⟨v', hv', htagged⟩ := nvmRenderLine_tagged h (hlines line List.mem_cons_self)
    rw [List.foldlM_cons, hv']
    exact ih (fun l hl => hlines l (List.mem_cons_of_mem line hl)) htagged

theorem nvmRender_tagged (pre : Prefix) (text : Text) :
    ∃ html, nvmRender pre.path text = some html ∧ Tagged (Refers pre.path text) html := by
  obtain ⟨v, hv, htagged⟩ := renderLines_tagged (nvmLines text) (fun _ => nvmLines_slice)
    (v := ⟨[], false, false, 0, 0⟩) (@Tagged.nil (Refers pre.path text))
  unfold nvmRender
  rw [hv]
  refine ⟨_, rfl, ?_⟩
  split
  · exact htagged.append blockEnd_tagged
  · exact htagged

theorem postLink_refAt {html : Text} (h : Tagged (Refers pre.path text) html) {no : Digits}
    (hlink : postLink pre.path no.1 <:+: html) : ∃ p, RefAt text p ∧ refDigits text p = no.1 := by
  have htag : (60 :: (postTag pre.path no.1 ++ [62])) <:+: postLink pre.path no.1 := by
    refine ⟨[], ascii "&gt;&gt;" ++ no.1 ++ ascii "</a>", ?_⟩
    simp [postLink]
  exact h.of_infix (postTag_brackets pre no).2 (htag.trans hlink) no rfl

end

/-- The renderer and the scan end, the scan's numbers are references in the order of the text,
and the number of each link to a post is among them. -/
def Covered (pre : Prefix) (text : Text) : Prop :=
  ∃ html refs, nvmRender pre.path text = some html ∧ nvmRefs text = some refs ∧
    (∃ ps : List Nat, refs = ps.map (fun p => ofDecimal (refDigits text p)) ∧ ps.Pairwise (· < ·) ∧
      ∀ p ∈ ps, RefAt text p) ∧
    ∀ no : Digits, postLink pre.path no.1 <:+: html → ofDecimal no.1 ∈ refs

/-- Every number after two or more `>` stands after an even number of them as well. -/
def EvenRuns (text : Text) : Prop :=
  ∀ p, RefAt text p → ∃ q, RefAt text q ∧ ofDecimal (refDigits text q) = ofDecimal (refDigits text p) ∧
    ∃ r, RunTo text r q ∧ (q - r) % 2 = 0

theorem EvenRuns.covered {text : Text} (pre : Prefix) (h : EvenRuns text) : Covered pre text := by
  obtain ⟨html, hhtml, htagged⟩ := nvmRender_tagged pre text
  obtain ⟨ps, hps, hsorted, hall⟩ := nvmRefsLoop_order text text.length 0 (by omega) (.inl rfl)
  refine ⟨html, _, hhtml, hps, ⟨ps, rfl, hsorted, fun p hp => (hall p hp).2.1⟩, ?_⟩
  intro no hlink
  obtain ⟨p, href, hdigits⟩ := postLink_refAt htagged hlink
  obtain ⟨q, href', hnumber, r, hrun, heven⟩ := h p href
  rw [← hdigits, ← hnumber]
  exact nvmRefsLoop_even href' hrun heven text.length 0 (by omega) (Nat.zero_le q) (.inl (Nat.zero_le r)) hps

/-- Texts without markup other than `>`: one line with no escapes, delimiters, addresses, boards. -/
def NoMarkup (text : Text) : Prop := ∀ b ∈ text, b ∉ ([92, 96, 42, 126, 124, 104, 47, 10] : List UInt8)

section

variable {pre s text : Text} {inner : Option (Text → Option Text)}

theorem refAt_digit {i : Nat} (h : RefAt s i) : ∃ d, s[i + 2]? = some d ∧ nvmIsDigit d = true :=
  refDigits_spec le_rfl (by have := List.length_pos_iff.mpr h.digits; omega)

theorem RefAt.next {i p : Nat} (h : RefAt s i) (hp : RefAt s p) (hlt : i < p) :
    i + 2 + (refDigits s i).length ≤ p := by
  obtain ⟨d, hd, hdigit⟩ := refAt_digit h
  have hne : p ≠ i + 1 := by
    rintro rfl
    rw [hp.second] at hd
    exact not_digit_greater hdigit (Option.some.inj hd).symm
  by_contra hinside
  obtain ⟨b, hb, hdigit'⟩ := @refDigits_spec s i p (by omega) (by omega)
  rw [hp.first] at hb
  exact not_digit_greater hdigit' (Option.some.inj hb).symm

theorem step_refAt {i : Nat} (h : RefAt s i) : nvmInlineStep pre s i inner =
    some (some (postLink pre (refDigits s i), (refDigits s i).length + 2)) := by
  obtain ⟨d, hd, hdigit⟩ := refAt_digit h
  have hlt : i + 2 < s.length := (List.getElem?_eq_some_iff.mp hd).1
  have htwo : (s.drop i).take 2 = ascii ">>" := by
    rw [show ascii ">>" = [62, 62] by decide]
    exact standsAt_two.mpr ⟨h.first, h.second⟩
  have hreference : inlineReference pre s i = some (inlinePost pre s i) := by
    unfold inlineReference
    rw [if_neg (not_not.mpr htwo), hd]
    simp only [Option.bind_eq_bind, Option.bind_some, hdigit, if_true]
    rfl
  have hmarkup : inlineMarkup pre s i inner 62 = some (inlinePost pre s i) := by
    simp [inlineMarkup, hlt, hreference]
  simp only [nvmInlineStep, h.first, Option.bind_eq_bind, Option.bind_some, hmarkup, inlinePost_eq]
  rfl

theorem step_noMarkup (hplain : NoMarkup s) {i : Nat} (hi : i < s.length) (h : ¬RefAt s i) :
    nvmInlineStep pre s i inner = some none ∨ ∃ out, nvmInlineStep pre s i inner = some (some (out, 1)) := by
  have hbyte := List.getElem?_eq_getElem hi
  have hb := hplain _ (List.getElem_mem hi)
  generalize s[i] = b at hbyte hb
  have hmarkup : inlineMarkup pre s i inner b = some none := by
    have hother : b ≠ 92 ∧ b ≠ 96 ∧ b ≠ 42 ∧ b ≠ 126 ∧ b ≠ 124 ∧ b ≠ 104 := by
      simp only [List.mem_cons, not_or] at hb
      tauto
    by_cases hgreater : b = 62 ∧ i + 2 < s.length
    · have hreference : inlineReference pre s i = some none := by
        unfold inlineReference
        by_cases htwo : (s.drop i).take 2 = ascii ">>"
        · have hthird := List.getElem?_eq_getElem hgreater.2
          have hdigit : nvmIsDigit s[i + 2] = false := by
            by_contra hdigit
            rw [show ascii ">>" = [62, 62] by decide] at htwo
            obtain ⟨hfirst, hsecond⟩ := standsAt_two.mp htwo
            refine h ⟨hfirst, hsecond, ?_⟩
            rw [refDigits, List.drop_eq_getElem_cons hgreater.2, List.take_succ_cons,
              List.takeWhile_cons_of_pos (by simpa using hdigit)]
            exact List.cons_ne_nil _ _
          rw [if_neg (not_not.mpr htwo), hthird]
          generalize s[i + 2] = third at hdigit
          simp only [Option.bind_eq_bind, Option.bind_some, hdigit, Bool.false_eq_true, if_false]
          by_cases hboard : third = 62 ∧ i + 4 < s.length
          · have hslash := List.getElem?_eq_getElem (show i + 3 < s.length by omega)
            have hne : s[i + 3] ≠ 47 := by
              intro heq
              have hmem := hplain _ (List.getElem_mem (show i + 3 < s.length by omega))
              rw [heq] at hmem
              exact hmem (by decide)
            rw [if_pos hboard, hslash, Option.bind_some, if_neg hne]
            rfl
          · rw [if_neg hboard]
            rfl
        · rw [if_pos htwo]
          rfl
      simp [inlineMarkup, hgreater, hreference]
    · simp [inlineMarkup, hother, hgreater]
  simp only [nvmInlineStep, hbyte, Option.bind_eq_bind, Option.bind_some, hmarkup, nvmEscape_eq]
  split
  · exact .inr ⟨_, rfl⟩
  · exact .inl rfl

theorem loop_prefix {α : Type} {step : Step α} {s t r : List α} {turns i run : Nat} (hrun : 0 < run) (hi : run ≤ i)
    (h : loop step s turns i run r = some t) : r <+: t := by
  have hfinish : r <+: finish s run r := by
    rw [finish, if_neg (by omega)]
    exact List.prefix_append _ _
  induction turns generalizing i run r with
  | zero =>
    rw [loop] at h
    split_ifs at h
    cases h
    exact hfinish
  | succ turns ih =>
    rw [loop] at h
    split_ifs at h with hlt
    · obtain ⟨out, hout, h⟩ := Option.bind_eq_some_iff.mp h
      cases out with
      | none => exact ih hrun (by omega) h hfinish
      | some p =>
        refine List.IsPrefix.trans ?_ (@ih _ (i + p.2) (i + p.2) (by omega) le_rfl h ?_)
        · rw [List.append_assoc]
          exact List.prefix_append _ _
        · rw [finish, if_neg (by omega)]
          exact List.prefix_append _ _
    · cases h
      exact hfinish

theorem loop_links (hplain : NoMarkup s) (hp : RefAt s p) (turns i run : Nat) (r : Text) {t : Text}
    (hi : i ≤ p) (hturns : s.length ≤ i + turns)
    (h : loop (fun i => nvmInlineStep pre s i inner) s turns i run r = some t) :
    postLink pre (refDigits s p) <:+: t := by
  have hlt : p < s.length := (List.getElem?_eq_some_iff.mp hp.first).1
  induction turns generalizing i run r with
  | zero => omega
  | succ turns ih =>
    rw [loop, if_pos (by omega)] at h
    by_cases href : RefAt s i
    · simp only [step_refAt href, Option.bind_eq_bind, Option.bind_some] at h
      obtain rfl | hless := hi.eq_or_lt
      · have hprefix := loop_prefix (by omega) le_rfl h
        exact (List.suffix_append _ _).isInfix.trans hprefix.isInfix
      · have hnext := href.next hp hless
        exact ih _ _ _ (by omega) (by omega) h
    · have hne : i ≠ p := by
        rintro rfl
        exact href hp
      obtain hcopy | ⟨out, hout⟩ := @step_noMarkup pre s inner hplain i (by omega) href
      · simp only [hcopy, Option.bind_eq_bind, Option.bind_some] at h
        exact ih _ _ _ (by omega) (by omega) h
      · simp only [hout, Option.bind_eq_bind, Option.bind_some] at h
        exact ih _ _ _ (by omega) (by omega) h

theorem nvmInline_links (hplain : NoMarkup s) {p : Nat} (hp : RefAt s p) {t : Text}
    (h : nvmInline pre 8 s = some t) : postLink pre (refDigits s p) <:+: t := by
  rw [nvmInline, rewrite] at h
  exact loop_links hplain hp s.length 0 0 [] (Nat.zero_le p) (by omega) h

theorem RefAt.tail (h : RefAt (b :: s) (p + 1)) :
    RefAt s p ∧ refDigits (b :: s) (p + 1) = refDigits s p :=
  ⟨⟨h.first, h.second, h.digits⟩, rfl⟩

theorem renderText_links (hplain : NoMarkup s) (hp : RefAt s p) {t : Text}
    (h : renderText pre s = some t) : postLink pre (refDigits s p) <:+: t := by
  unfold renderText at h
  split_ifs at h with hquote
  · obtain ⟨html, hhtml, h⟩ := Option.bind_eq_some_iff.mp h
    cases h
    cases s with
    | nil => cases hquote
    | cons b s =>
      -- a quote does not begin with a reference
      obtain ⟨q, rfl⟩ : ∃ q, p = q + 1 := by
        refine ⟨p - 1, (Nat.sub_add_cancel (Nat.pos_of_ne_zero fun hzero => ?_)).symm⟩
        subst hzero
        obtain ⟨d, hd, hdigit⟩ := refAt_digit hp
        cases s with
        | nil => cases hp.second
        | cons c s =>
          cases s with
          | nil => cases hd
          | cons third s =>
            cases hp.first
            cases hp.second
            cases hd
            simp [nvmIsQuote, hdigit] at hquote
      obtain ⟨hp', hsame⟩ := hp.tail
      rw [hsame]
      have hinner := @nvmInline_links pre s (fun c hc => hplain c (List.mem_cons_of_mem b hc)) q hp' html hhtml
      exact hinner.trans ((List.suffix_append _ _).isInfix.trans (List.prefix_append _ _).isInfix)
  · exact nvmInline_links hplain hp h

theorem nvmLines_single (h : 10 ∉ text) : nvmLines text = [text] := by
  induction text with
  | nil => rfl
  | cons b text ih =>
    rw [List.mem_cons, not_or] at h
    rw [nvmLines, ih h.2]
    exact if_neg (Ne.symm h.1)

theorem nvmRender_noMarkup (hplain : NoMarkup text) : nvmRender pre text = renderText pre text := by
  have hline : 10 ∉ text := fun h => hplain 10 h (by decide)
  have hfence : text.take 3 ≠ fence := by
    intro heq
    have hmem : 96 ∈ text.take 3 := by
      rw [heq]
      decide
    exact hplain 96 (List.mem_of_mem_take hmem) (by decide)
  have hblanks : ¬2 ≤ (if strTrim text = [] then 0 + 1 else 0) := by
    split_ifs <;> omega
  unfold nvmRender
  rw [nvmLines_single hline, List.foldlM_cons]
  cases hrender : renderText pre text with
  | none => simp [nvmRenderLine, hfence, hblanks, hrender]
  | some html => simp [nvmRenderLine, hfence, hblanks, hrender]

theorem Covered.evenRuns {pre : Prefix} (hplain : NoMarkup text) (h : Covered pre text) : EvenRuns text := by
  obtain ⟨html, refs, hhtml, hrefs, _, hlinks⟩ := h
  obtain ⟨ps, hps, _, hall⟩ := nvmRefsLoop_order text text.length 0 (by omega) (.inl rfl)
  rw [nvmRefs, hps] at hrefs
  cases hrefs
  intro p hp
  have hdigits : ∀ b ∈ refDigits text p, nvmIsDigit b = true :=
    fun b hb => List.all_eq_true.mp List.all_takeWhile b hb
  rw [nvmRender_noMarkup hplain] at hhtml
  have hmem := hlinks ⟨refDigits text p, hdigits⟩ (renderText_links hplain hp hhtml)
  obtain ⟨q, hq, hnumber⟩ := List.mem_map.mp hmem
  exact ⟨q, (hall q hq).2.1, hnumber, (hall q hq).2.2⟩

end

/-- The numbers of all links are among those of the scan if every number stands after an even
number of `>`, and where there is no other markup only then. -/
theorem refs_cover_links (pre : Prefix) (text : Text) :
    (EvenRuns text → Covered pre text) ∧ (NoMarkup text → (Covered pre text ↔ EvenRuns text)) :=
  ⟨EvenRuns.covered pre, fun hplain => ⟨Covered.evenRuns hplain, EvenRuns.covered pre⟩⟩

/-- `>>12` -/
theorem refs_cover_twelve : Covered ⟨[], .inl rfl⟩ [62, 62, 49, 50] := by
  refine (refs_cover_links ⟨[], .inl rfl⟩ [62, 62, 49, 50]).1 fun p hp => ?_
  have hlt : p < 4 := (List.getElem?_eq_some_iff.mp hp.first).1
  have hzero : p = 0 := by
    have hsecond := hp.second
    interval_cases p
    · rfl
    all_goals simp at hsecond
  subst hzero
  refine ⟨0, hp, rfl, 0, ⟨le_rfl, fun _ _ h => absurd h (by decide), fun q _ hq => ?_⟩, rfl⟩
  interval_cases q <;> rfl

/-- `>>>5` -/
theorem third_greater_hides : ¬Covered ⟨[], .inl rfl⟩ [62, 62, 62, 53] := by
  intro ⟨html, refs, hhtml, hrefs, _, hlinks⟩
  have hrendered : nvmRender [] [62, 62, 62, 53] = some (ascii "&gt;" ++ postLink [] [53]) := by decide +kernel
  have hscanned : nvmRefs [62, 62, 62, 53] = some [] := by decide +kernel
  cases hrefs.symm.trans hscanned
  cases hhtml.symm.trans hrendered
  have hno : ∀ b ∈ ([53] : Text), nvmIsDigit b = true := by simp [nvmIsDigit]
  have hlink : postLink [] [53] <:+: ascii "&gt;" ++ postLink [] [53] := (List.suffix_append _ _).isInfix
  exact List.not_mem_nil (hlinks ⟨[53], hno⟩ hlink)

end Ussr.Novgorod
