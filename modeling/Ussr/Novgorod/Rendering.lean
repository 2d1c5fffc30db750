import Ussr.Novgorod.Html

/-! Every post renders, and to HTML of the expected kind. -/

namespace Ussr.Novgorod
open Real64 Rewrite

variable {b : UInt8} {inner : Option (Text → Option Text)} {v : Rendering}
open Stalin (Text strTrim)

/-- The text that `nvm_escape` gives. -/
def escape (s : Text) : Text := s.flatMap fun b => (entity b).getD [b]

theorem nvmEscape_eq (s : Text) : nvmEscape s = some (escape s) := rewrite_flatMap entity s

theorem escape_escaped (s : Text) : Escaped (escape s) := by
  induction s with
  | nil => exact .nil
  | cons b s ih =>
    cases hb : entity b with
    | none =>
      have heq : escape (b :: s) = b :: escape s := by simp [escape, hb]
      rw [heq]
      exact .byte hb ih
    | some e =>
      have heq : escape (b :: s) = e ++ escape s := by simp [escape, hb]
      rw [heq]
      exact .entity hb ih

theorem escape_append (s t : Text) : escape (s ++ t) = escape s ++ escape t := List.flatMap_append

theorem escape_plain {s : Text} (h : ∀ b ∈ s, entity b = none) : escape s = s := by
  induction s with
  | nil => rfl
  | cons b s ih =>
    have hs : escape s = s := ih fun c hc => h c (by simp [hc])
    calc escape (b :: s) = [b] ++ escape s := by simp [escape, h b (by simp)]
      _ = b :: s := by rw [hs]; rfl

theorem escape_starts {p s : Text} (hplain : ∀ b ∈ p, entity b = none) (h : p <+: s) :
    p <+: escape s := by
  obtain ⟨t, rfl⟩ := h
  rw [escape_append, escape_plain hplain]
  exact List.prefix_append p _

theorem entity_eq_none (h : b.toNat ≠ 38 ∧ b.toNat ≠ 60 ∧ b.toNat ≠ 62 ∧ b.toNat ≠ 34 ∧
    b.toNat ≠ 39) : entity b = none := by
  obtain ⟨hamp, hlt, hgt, hquot, hapos⟩ := h
  unfold entity
  rw [if_neg (fun hb => hamp (by rw [hb]; rfl)), if_neg (fun hb => hlt (by rw [hb]; rfl)),
    if_neg (fun hb => hgt (by rw [hb]; rfl)), if_neg (fun hb => hquot (by rw [hb]; rfl)),
    if_neg (fun hb => hapos (by rw [hb]; rfl))]

theorem digit_plain (h : nvmIsDigit b = true) : entity b = none := by
  simp only [nvmIsDigit, Bool.and_eq_true, decide_eq_true_eq] at h
  exact entity_eq_none (by omega)

theorem board_plain (h : boardByte b = true) : entity b = none := by
  simp only [boardByte, Bool.or_eq_true, Bool.and_eq_true, decide_eq_true_eq] at h
  obtain h | h := h
  · exact entity_eq_none (by omega)
  · exact digit_plain h

theorem lang_plain (h : langByte b = true) : entity b = none := by
  simp only [langByte, nvmIsDigit, Bool.or_eq_true, Bool.and_eq_true, decide_eq_true_eq] at h
  obtain (((((h | h) | h) | rfl) | rfl) | rfl) | rfl := h
  · exact entity_eq_none (by omega)
  · exact entity_eq_none (by omega)
  · exact entity_eq_none (by omega)
  all_goals rfl

theorem Digits.escaped (no : Digits) : Escaped no.1 := .of_plain fun b hb => digit_plain (no.2 b hb)

theorem Prefix.plain (pre : Prefix) : ∀ b ∈ pre.path, entity b = none := by
  intro b hb
  obtain hempty | hok := pre.usable
  · rw [hempty] at hb
    exact absurd hb List.not_mem_nil
  · rw [nvPrefixOk, Bool.and_eq_true, List.all_eq_true] at hok
    have h := hok.2 b hb
    simp only [nvmIsDigit, Bool.or_eq_true, Bool.and_eq_true, decide_eq_true_eq] at h
    obtain ((((h | h) | h) | rfl) | rfl) | rfl := h
    · exact entity_eq_none (by omega)
    · exact entity_eq_none (by omega)
    · exact entity_eq_none (by omega)
    all_goals rfl

theorem nvmFind_bounds {s needle : Text} {start j : Nat} (h : nvmFind s needle start = some j) :
    start ≤ j ∧ j < s.length := by
  unfold nvmFind at h
  split at h
  · cases h
  · rename_i hneedle
    have hpos := List.length_pos_iff.mpr hneedle
    have hmem := List.mem_of_find?_eq_some h
    rw [List.mem_range'_1] at hmem
    omega

theorem halfOfTwo_total (s : Text) (j k : Nat) (delim : Text) :
    ∃ half, halfOfTwo s j k delim = some half := by
  unfold halfOfTwo
  split
  · rename_i h
    exact ⟨_, by rw [List.getElem?_eq_getElem h.2.2]; rfl⟩
  · exact ⟨false, rfl⟩

theorem nvmCloserLoop_total (s : Text) (k : Nat) (delim : Text) (turns start : Nat)
    (hturns : s.length ≤ start + turns) :
    ∃ r, nvmCloserLoop s k delim turns start = some r := by
  induction turns generalizing start with
  | zero => exact ⟨none, by rw [nvmCloserLoop, if_neg (by omega)]⟩
  | succ turns ih =>
    rw [nvmCloserLoop]
    split
    · cases hfind : nvmFind s delim start with
      | none => exact ⟨none, rfl⟩
      | some j =>
        obtain ⟨hle, hlt⟩ := nvmFind_bounds hfind
        obtain ⟨r, hr⟩ := ih (j + 1) (by omega)
        have hbefore : s[j - 1]? = some (s.get ⟨j - 1, by omega⟩) := List.getElem?_eq_getElem _
        generalize s.get ⟨j - 1, by omega⟩ = before at hbefore
        obtain ⟨half, hhalf⟩ := halfOfTwo_total s j k delim
        simp only [hbefore, hhalf, hr, Option.bind_eq_bind, Option.bind_some]
        split
        · exact ⟨_, rfl⟩
        · exact ⟨r, rfl⟩
    · exact ⟨none, rfl⟩

theorem nvmCloser_total (s : Text) (i k : Nat) (delim : Text) : ∃ r, nvmCloser s i k delim = some r := by
  unfold nvmCloser
  split
  · exact ⟨none, rfl⟩
  · rename_i hlt
    have hafter : s[i + k]? = some (s.get ⟨i + k, by omega⟩) := List.getElem?_eq_getElem _
    obtain ⟨r, hr⟩ := nvmCloserLoop_total s k delim s.length (i + k + 1) (by omega)
    simp only [hafter, hr, Option.bind_eq_bind, Option.bind_some]
    split
    · exact ⟨none, rfl⟩
    · exact ⟨r, rfl⟩

theorem wordBefore_total {s : Text} {i : Nat} (hi : i < s.length) :
    ∃ word, wordBefore s i = some word := by
  unfold wordBefore
  split
  · exact ⟨_, by rw [List.getElem?_eq_getElem (by omega)]; rfl⟩
  · exact ⟨false, rfl⟩

theorem nvmUrlLen_spec {s : Text} {i : Nat} (hi : i < s.length) :
    ∃ k, nvmUrlLen s i = some k ∧ (0 < k →
      ascii "http://" <+: (s.drop i).take k ∨ ascii "https://" <+: (s.drop i).take k) := by
  unfold nvmUrlLen
  split
  · exact ⟨0, rfl, fun h => absurd h (by omega)⟩
  · rename_i hhead
    obtain ⟨word, hword⟩ := wordBefore_total hi
    simp only [hword, Option.bind_eq_bind, Option.bind_some]
    split
    · exact ⟨0, rfl, fun h => absurd h (by omega)⟩
    · refine ⟨_, rfl, fun hpos => ?_⟩
      split at hpos
      · exact absurd hpos (by omega)
      · rename_i hlong
        rw [if_neg hlong]
        by_cases h8 : (s.drop i).take 8 = ascii "https://"
        · right
          rw [← h8]
          exact List.take_prefix_take_left (by omega)
        · left
          have h7 : (s.drop i).take 7 = ascii "http://" := by tauto
          rw [← h7]
          exact List.take_prefix_take_left (by omega)

section

variable {pre : Prefix} {s : Text} {i : Nat}

/-- What a turn of `nvm_inline` puts is HTML, and the turn advances. -/
def Renders (pre : Prefix) (x : Option (Option (Text × Nat))) : Prop :=
  x = some none ∨ ∃ html skip, x = some (some (html, skip)) ∧ 0 < skip ∧ IsHtml pre html

theorem Renders.nothing : Renders pre (some none) := .inl rfl

theorem Renders.html {t : Text} {skip : Nat} (hskip : 0 < skip) (h : IsHtml pre t) :
    Renders pre (some (some (t, skip))) :=
  .inr ⟨t, skip, rfl, hskip, h⟩

theorem inlineBackslash_renders (hi : i + 1 < s.length) : Renders pre (inlineBackslash s i) := by
  unfold inlineBackslash
  rw [List.getElem?_eq_getElem hi]
  simp only [nvmEscape_eq, Option.bind_eq_bind, Option.bind_some]
  split
  · exact .html (by decide) (.of_escaped (escape_escaped _))
  · exact .nothing

theorem inlineCode_renders : Renders pre (inlineCode s i) := by
  unfold inlineCode
  split
  · split
    · simp only [nvmEscape_eq, Option.bind_eq_bind, Option.bind_some]
      exact .html (by omega) (IsHtml.element .code (.of_escaped (escape_escaped _)))
    · exact .nothing
  · exact .nothing

theorem delimiterTags_element {k : Nat} {opening closing : Text}
    (h : delimiterTags b k = some (opening, closing)) :
    ∃ e : Element, opening = e.opening ∧ closing = e.closing := by
  unfold delimiterTags at h
  split at h
  · cases h
    exact ⟨.b, rfl, rfl⟩
  split at h
  · cases h
    exact ⟨.i, rfl, rfl⟩
  split at h
  · cases h
    exact ⟨.s, rfl, rfl⟩
  split at h
  · cases h
    exact ⟨.spoiler, rfl, rfl⟩
  · cases h

theorem inlineDelimited_renders (b : UInt8)
    (hinner : ∀ render ∈ inner, ∀ t, ∃ html, render t = some html ∧ IsHtml pre html) :
    Renders pre (inlineDelimited s i inner b) := by
  unfold inlineDelimited
  dsimp only
  generalize hk : (if s[i + 1]? = some b then 2 else 1) = k
  have hpos : 0 < k := by
    rw [← hk]
    split <;> decide
  split
  · rename_i opening closing render htags
    obtain ⟨e, rfl, rfl⟩ := delimiterTags_element htags
    obtain ⟨r, hr⟩ := nvmCloser_total s i k ((s.drop i).take k)
    simp only [hr, Option.bind_eq_bind, Option.bind_some]
    cases r with
    | none => exact .nothing
    | some j =>
      obtain ⟨html, heq, hhtml⟩ := hinner render rfl ((s.drop (i + k)).take (j - i - k))
      simp only [heq, Option.bind_some]
      exact .html (by omega) (hhtml.element e)
  · exact .nothing

def Href.site (pre : Prefix) (path : Text) (h : Escaped path) : Href pre where
  text := pre.path ++ (ascii "/" ++ path)
  escaped := .append (.of_plain pre.plain) (.byte rfl h)
  scheme := .inr (.inr (by
    rw [← List.append_assoc]
    exact List.prefix_append _ _))

theorem greater_escaped : Escaped (ascii "&gt;") :=
  Escaped.entity (rfl : entity 62 = some (ascii "&gt;")) .nil

theorem inlinePost_renders : Renders pre (some (inlinePost pre.path s i)) := by
  have hdigits : ∀ b ∈ ((s.drop (i + 2)).take 10).takeWhile nvmIsDigit, nvmIsDigit b = true :=
    fun b hb => List.all_eq_true.mp List.all_takeWhile b hb
  unfold inlinePost
  dsimp only
  generalize ((s.drop (i + 2)).take 10).takeWhile nvmIsDigit = no at hdigits
  have hno : Escaped no := Digits.escaped ⟨no, hdigits⟩
  have hpath : Escaped (ascii "p/" ++ no) := .append (.byte rfl (.byte rfl .nil)) hno
  have htext : Escaped (ascii "&gt;&gt;" ++ no) :=
    .append (greater_escaped.append greater_escaped) hno
  refine .html (by omega) ?_
  have h := IsHtml.link (.post ⟨no, hdigits⟩) (Href.site pre _ hpath) htext
  simp only [Link.opening, Href.site, List.append_assoc] at h ⊢
  exact h

theorem inlineBoard_renders : Renders pre (some (inlineBoard pre.path s i)) := by
  have hbytes : ∀ b ∈ ((s.drop (i + 4)).take 20).takeWhile boardByte, entity b = none :=
    fun b hb => board_plain (List.all_eq_true.mp List.all_takeWhile b hb)
  unfold inlineBoard
  dsimp only
  generalize ((s.drop (i + 4)).take 20).takeWhile boardByte = board at hbytes
  have hboard : Escaped (board ++ ascii "/") := .append (.of_plain hbytes) (.byte rfl .nil)
  have htext : Escaped (ascii "&gt;&gt;&gt;/" ++ (board ++ ascii "/")) :=
    .append (greater_escaped.append (greater_escaped.append (greater_escaped.append
      (.byte rfl .nil)))) hboard
  split
  · refine .html (by omega) ?_
    have h := IsHtml.link .board (Href.site pre _ hboard) htext
    simp only [Link.opening, Href.site, List.append_assoc] at h ⊢
    exact h
  · exact .nothing

theorem inlineReference_renders (hi : i + 2 < s.length) : Renders pre (inlineReference pre.path s i) := by
  unfold inlineReference
  split
  · exact .nothing
  rw [List.getElem?_eq_getElem hi]
  simp only [Option.bind_eq_bind, Option.bind_some]
  split
  · exact inlinePost_renders
  split
  · rename_i h
    rw [List.getElem?_eq_getElem (by omega : i + 3 < s.length)]
    simp only [Option.bind_some]
    split
    · exact inlineBoard_renders
    · exact .nothing
  · exact .nothing

theorem inlineUrl_renders (hi : i < s.length) : Renders pre (inlineUrl s i) := by
  obtain ⟨k, hk, hscheme⟩ := nvmUrlLen_spec hi
  unfold inlineUrl
  simp only [hk, Option.bind_eq_bind, Option.bind_some]
  split
  · exact .nothing
  · rename_i hpos
    simp only [nvmEscape_eq, Option.bind_some]
    generalize (s.drop i).take k = url at hscheme
    let href : Href pre := {
      text := escape url
      escaped := escape_escaped url
      scheme := by
        have hhttp : ∀ b ∈ ascii "http://", entity b = none := by decide +kernel
        have hhttps : ∀ b ∈ ascii "https://", entity b = none := by decide +kernel
        obtain h | h := hscheme (by omega)
        · exact .inl (escape_starts hhttp h)
        · exact .inr (.inl (escape_starts hhttps h)) }
    exact .html (by omega) (IsHtml.link .url href (escape_escaped url))

theorem special_of_entity (h : ¬(b = 38 ∨ b = 60 ∨ b = 62 ∨ b = 34 ∨ b = 39)) :
    entity b = none := by
  simp only [not_or] at h
  obtain ⟨hamp, hlt, hgt, hquot, hapos⟩ := h
  unfold entity
  rw [if_neg hamp, if_neg hlt, if_neg hgt, if_neg hquot, if_neg hapos]

theorem inlineMarkup_renders (b : UInt8) (hi : i < s.length)
    (hinner : ∀ render ∈ inner, ∀ t, ∃ html, render t = some html ∧ IsHtml pre html) :
    Renders pre (inlineMarkup pre.path s i inner b) := by
  unfold inlineMarkup
  split
  · rename_i h
    exact inlineBackslash_renders h.2
  split
  · exact inlineCode_renders
  split
  · exact inlineDelimited_renders b hinner
  split
  · rename_i h
    exact inlineReference_renders h.2
  split
  · exact inlineUrl_renders hi
  · exact .nothing

theorem nvmInlineStep_keeps
    (hinner : ∀ render ∈ inner, ∀ t, ∃ html, render t = some html ∧ IsHtml pre html) :
    Keeps (fun i => nvmInlineStep pre.path s i inner) s (IsHtml pre) := by
  intro i b hb
  obtain ⟨hi, -⟩ := List.getElem?_eq_some_iff.mp hb
  unfold nvmInlineStep
  simp only [hb, Option.bind_eq_bind, Option.bind_some]
  obtain hnothing | ⟨html, skip, hsome, hskip, hhtml⟩ := inlineMarkup_renders b hi hinner
  · simp only [hnothing, Option.bind_some]
    split
    · right
      exact ⟨escape [b], 1, by rw [nvmEscape_eq]; rfl, by decide, .of_escaped (escape_escaped _)⟩
    · rename_i h
      left
      exact ⟨rfl, .of_escaped (.byte (special_of_entity h) .nil)⟩
  · right
    simp only [hsome, Option.bind_some]
    exact ⟨html, skip, rfl, hskip, hhtml⟩

theorem nvmInline_html (pre : Prefix) (levels : Nat) (s : Text) :
    ∃ html, nvmInline pre.path levels s = some html ∧ IsHtml pre html := by
  induction levels generalizing s with
  | zero => exact rewrite_keeps (nvmInlineStep_keeps fun _ h => absurd h (by simp)) .nil fun _ _ => .append
  | succ levels ih =>
    refine rewrite_keeps (nvmInlineStep_keeps fun render h t => ?_) .nil fun _ _ => .append
    obtain rfl := Option.some.inj h
    exact ih t

end

section

variable {pre : Prefix}

def Rendering.Valid (pre : Prefix) (v : Rendering) : Prop :=
  if v.inCode then
    ∃ html lang t, v.r = html ++ blockOpening lang ++ t ∧ IsHtml pre html ∧ Escaped t
  else IsHtml pre v.r

theorem Rendering.Valid.close (h : v.Valid pre) (hcode : v.inCode = true) :
    IsHtml pre (v.r ++ ascii "</code></pre>") := by
  rw [Valid, if_pos hcode] at h
  obtain ⟨html, lang, t, hr, hhtml, ht⟩ := h
  rw [hr, List.append_assoc, List.append_assoc]
  refine hhtml.append ?_
  rw [← List.append_assoc]
  exact IsHtml.block lang ht

theorem openFence_block (line : Text) :
    ∃ lang, openFence (nvmFenceLang line) = some (blockOpening lang) := by
  have hbytes : ∀ b ∈ nvmFenceLang line, langByte b = true :=
    fun b hb => List.all_eq_true.mp List.all_takeWhile b hb
  unfold openFence
  split
  · exact ⟨none, rfl⟩
  · rename_i hlang
    refine ⟨some ⟨_, hlang, hbytes⟩, ?_⟩
    rw [nvmEscape_eq, escape_plain fun b hb => lang_plain (hbytes b hb)]
    rfl

theorem renderText_html (line : Text) :
    ∃ html, renderText pre.path line = some html ∧ IsHtml pre html := by
  unfold renderText
  split
  · obtain ⟨html, heq, hhtml⟩ := nvmInline_html pre 8 (line.drop 1)
    refine ⟨ascii "<span class=\"quote\">&gt;" ++ html ++ ascii "</span>", by rw [heq]; rfl, ?_⟩
    exact IsHtml.element .quote ((IsHtml.of_escaped greater_escaped).append hhtml)
  · exact nvmInline_html pre 8 line

theorem nvmRenderLine_valid (h : v.Valid pre) (line : Text) :
    ∃ v', nvmRenderLine pre.path v line = some v' ∧ v'.Valid pre := by
  unfold nvmRenderLine
  by_cases hcode : v.inCode = true
  · rw [if_pos hcode]
    split
    · exact ⟨_, rfl, h.close hcode⟩
    · rw [nvmEscape_eq]
      refine ⟨_, rfl, ?_⟩
      rw [Rendering.Valid, if_pos hcode] at h ⊢
      obtain ⟨html, lang, t, hr, hhtml, ht⟩ := h
      dsimp only
      split
      · refine ⟨html, lang, t ++ ascii "\n" ++ escape line, ?_, hhtml, ?_⟩
        · simp [hr]
        · exact (ht.append (.byte rfl .nil)).append (escape_escaped line)
      · refine ⟨html, lang, t ++ escape line, ?_, hhtml, ht.append (escape_escaped line)⟩
        simp [hr]
  · rw [if_neg hcode]
    rw [Rendering.Valid, if_neg hcode] at h
    split
    · obtain ⟨lang, hlang⟩ := openFence_block line
      rw [hlang]
      exact ⟨_, rfl, v.r, lang, [], (List.append_nil _).symm, h, .nil⟩
    · dsimp only
      generalize (if strTrim line = [] then v.blanks + 1 else 0) = blanks
      split
      · refine ⟨_, rfl, ?_⟩
        rw [Rendering.Valid, if_neg hcode]
        exact h
      · obtain ⟨html, heq, hhtml⟩ := renderText_html line
        rw [heq]
        refine ⟨_, rfl, ?_⟩
        rw [Rendering.Valid, if_neg hcode]
        dsimp only
        split
        · exact (h.append .br).append hhtml
        · exact h.append hhtml

theorem renderLines_valid (lines : List Text) (h : v.Valid pre) :
    ∃ v', lines.foldlM (nvmRenderLine pre.path) v = some v' ∧ v'.Valid pre := by
  induction lines generalizing v with
  | nil => exact ⟨v, rfl, h⟩
  | cons line lines ih =>
    obtain ⟨v', hv', hvalid⟩ := nvmRenderLine_valid h line
    rw [List.foldlM_cons, hv']
    exact ih hvalid

/-- A post cannot inject HTML: rendering ends, and gives text and closed elements only. -/
theorem nvmRender_html (pre : Prefix) (text : Text) :
    ∃ html : Html pre, nvmRender pre.path text = some html.write := by
  have hstart : (⟨[], false, false, 0, 0⟩ : Rendering).Valid pre := IsHtml.nil
  obtain ⟨v, hv, hvalid⟩ := renderLines_valid (nvmLines text) hstart
  unfold nvmRender
  rw [hv]
  by_cases hcode : v.inCode = true
  · obtain ⟨html, heq⟩ := hvalid.close hcode
    exact ⟨html, by simp [hcode, heq]⟩
  · rw [Rendering.Valid, if_neg hcode] at hvalid
    obtain ⟨html, heq⟩ := hvalid
    exact ⟨html, by simp [hcode, heq]⟩

end

end Ussr.Novgorod
