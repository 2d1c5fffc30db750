import Ussr.Library.Rewrite
import Ussr.Stalin.Fields

/-! The markup of posts: the renderer from a post's text to HTML. Texts are their bytes;
a read outside a text, or a loop that does not end, gives `none`. -/

namespace Ussr.Novgorod
open Real64 Rewrite
open Stalin (Text strTrim)

def entity (b : UInt8) : Option Text :=
  if b = 38 then some (ascii "&amp;")
  else if b = 60 then some (ascii "&lt;")
  else if b = 62 then some (ascii "&gt;")
  else if b = 34 then some (ascii "&quot;")
  else if b = 39 then some (ascii "&#39;")
  else none

def nvmEscape (s : Text) : Option Text :=
  rewrite (fun i => s[i]?.map fun b => (entity b).map fun rep => (rep, 1)) s

/-- `nvm_find`, `none` for -1. -/
def nvmFind (s needle : Text) (start : Nat) : Option Nat :=
  if needle = [] then none
  else (List.range' start (s.length + 1 - needle.length - start)).find? fun i =>
    (s.drop i).take needle.length = needle

def nvmIsSpace (b : UInt8) : Bool := b = 32 || b = 9 || b = 10

def nvmIsDigit (b : UInt8) : Bool := 48 ≤ b.toNat && b.toNat ≤ 57

def nvmIsWord (b : UInt8) : Bool :=
  nvmIsDigit b || (65 ≤ b.toNat && b.toNat ≤ 90) || (97 ≤ b.toNat && b.toNat ≤ 122) || b = 95

/-- Whether a single `*` at `j` is half of a `**`. -/
def halfOfTwo (s : Text) (j k : Nat) (delim : Text) : Option Bool :=
  if k = 1 ∧ delim = ascii "*" ∧ j + 1 < s.length then (s[j + 1]?).map fun next => decide (next = 42)
  else some false

/-- The loop of `nvm_closer`. -/
def nvmCloserLoop (s : Text) (k : Nat) (delim : Text) : (turns start : Nat) → Option (Option Nat)
  | 0, start => if start < s.length then none else some none
  | turns + 1, start =>
    if start < s.length then
      match nvmFind s delim start with
      | none => some none
      | some j => do
        let before ← s[j - 1]?
        let half ← halfOfTwo s j k delim
        if !nvmIsSpace before && !half then return some j
        nvmCloserLoop s k delim turns (j + 1)
    else some none

/-- `nvm_closer`, the inner `none` for -1. -/
def nvmCloser (s : Text) (i k : Nat) (delim : Text) : Option (Option Nat) :=
  if s.length ≤ i + k then some none
  else do
    let after ← s[i + k]?
    if nvmIsSpace after then return none
    nvmCloserLoop s k delim s.length (i + k + 1)

def endsUrl (b : UInt8) : Bool :=
  b.toNat ≤ 32 || b = 34 || b = 39 || b = 60 || b = 62 || b = 96 || b = 127

def punctuation (b : UInt8) : Bool :=
  b = 46 || b = 44 || b = 59 || b = 58 || b = 33 || b = 63 || b = 41 || b = 93 || b = 42 || b = 126 ||
    b = 124

def wordBefore (s : Text) (i : Nat) : Option Bool :=
  if 0 < i then (s[i - 1]?).map nvmIsWord else some false

def nvmUrlLen (s : Text) (i : Nat) : Option Nat :=
  if (s.drop i).take 8 ≠ ascii "https://" ∧ (s.drop i).take 7 ≠ ascii "http://" then some 0
  else do
    let word ← wordBefore s i
    if word then return 0
    let url := ((s.drop i).takeWhile fun b => !endsUrl b).reverse.dropWhile punctuation
    return if url.length ≤ 8 then 0 else url.length

section

variable (pre s : Text) (i : Nat)

/-- `\x` -/
def inlineBackslash : Option (Option (Text × Nat)) := do
  let next ← s[i + 1]?
  if next = 92 || next = 96 || next = 42 || next = 126 || next = 124 || next = 62 || next = 95 then
    let out ← nvmEscape [next]
    return some (out, 2)
  return none

def inlineCode : Option (Option (Text × Nat)) :=
  match nvmFind s (ascii "`") (i + 1) with
  | some j =>
    if i + 1 < j then do
      let code ← nvmEscape ((s.drop (i + 1)).take (j - i - 1))
      return some (ascii "<code>" ++ code ++ ascii "</code>", j - i + 1)
    else some none
  | none => some none

/-- The tags of a delimiter of `k` bytes `b`. -/
def delimiterTags (b : UInt8) (k : Nat) : Option (Text × Text) :=
  if b = 42 ∧ k = 2 then some (ascii "<b>", ascii "</b>")
  else if b = 42 then some (ascii "<i>", ascii "</i>")
  else if b = 126 ∧ k = 2 then some (ascii "<s>", ascii "</s>")
  else if b = 124 ∧ k = 2 then some (ascii "<span class=\"spoiler\">", ascii "</span>")
  else none

/-- Bold, italic, strike and spoiler; `inner` renders the text between the delimiters and
is absent at the greatest depth. -/
def inlineDelimited (inner : Option (Text → Option Text)) (b : UInt8) :
    Option (Option (Text × Nat)) :=
  let k := if s[i + 1]? = some b then 2 else 1
  match delimiterTags b k, inner with
  | some (opening, closing), some render => do
    match ← nvmCloser s i k ((s.drop i).take k) with
    | some j =>
      let html ← render ((s.drop (i + k)).take (j - i - k))
      return some (opening ++ html ++ closing, j - i + k)
    | none => return none
  | _, _ => some none

/-- `>>123` -/
def inlinePost : Option (Text × Nat) :=
  let no := ((s.drop (i + 2)).take 10).takeWhile nvmIsDigit
  some (ascii "<a class=\"ref\" href=\"" ++ pre ++ ascii "/p/" ++ no ++ ascii "\" data-ref=\"" ++ no ++
    ascii "\">&gt;&gt;" ++ no ++ ascii "</a>", no.length + 2)

def boardByte (b : UInt8) : Bool := (97 ≤ b.toNat && b.toNat ≤ 122) || nvmIsDigit b

/-- `>>>/board/`; the slash is at `i + 3`. -/
def inlineBoard : Option (Text × Nat) :=
  let board := ((s.drop (i + 4)).take 20).takeWhile boardByte
  let j := i + 4 + board.length
  if j < s.length ∧ i + 4 < j ∧ s[j]? = some 47 then
    some (ascii "<a class=\"ref\" href=\"" ++ pre ++ ascii "/" ++ board ++ ascii "/\">&gt;&gt;&gt;/" ++
      board ++ ascii "/</a>", j - i + 1)
  else none

def inlineReference : Option (Option (Text × Nat)) := do
  if (s.drop i).take 2 ≠ ascii ">>" then return none
  let third ← s[i + 2]?
  if nvmIsDigit third then return inlinePost pre s i
  if third = 62 ∧ i + 4 < s.length then
    let slash ← s[i + 3]?
    if slash = 47 then return inlineBoard pre s i
  return none

def inlineUrl : Option (Option (Text × Nat)) := do
  let k ← nvmUrlLen s i
  if k = 0 then return none
  let url ← nvmEscape ((s.drop i).take k)
  return some (ascii "<a href=\"" ++ url ++
    ascii "\" rel=\"nofollow noopener noreferrer ugc\" target=\"_blank\">" ++ url ++ ascii "</a>", k)

/-- The markup that may start at `i` with the byte `b`. -/
def inlineMarkup (inner : Option (Text → Option Text)) (b : UInt8) : Option (Option (Text × Nat)) :=
  if b = 92 ∧ i + 1 < s.length then inlineBackslash s i
  else if b = 96 then inlineCode s i
  else if b = 42 ∨ b = 126 ∨ b = 124 then inlineDelimited s i inner b
  else if b = 62 ∧ i + 2 < s.length then inlineReference pre s i
  else if b = 104 then inlineUrl s i
  else some none

/-- One turn of the loop of `nvm_inline`: `out` and `skip`. -/
def nvmInlineStep (inner : Option (Text → Option Text)) : Option (Option (Text × Nat)) := do
  let b ← s[i]?
  match ← inlineMarkup pre s i inner b with
  | some out => return some out
  | none =>
    if b = 38 ∨ b = 60 ∨ b = 62 ∨ b = 34 ∨ b = 39 then
      let rep ← nvmEscape [b]
      return some (rep, 1)
    return none

end

/-- `nvm_inline` at depth `8 - levels`. -/
def nvmInline (pre : Text) : (levels : Nat) → (s : Text) → Option Text
  | 0, s => rewrite (fun i => nvmInlineStep pre s i none) s
  | levels + 1, s => rewrite (fun i => nvmInlineStep pre s i (some (nvmInline pre levels))) s

def nvmLines : Text → List Text
  | [] => [[]]
  | b :: s =>
    match nvmLines s with
    | line :: lines => if b = 10 then [] :: line :: lines else (b :: line) :: lines
    | [] => [[b]]

def langByte (b : UInt8) : Bool :=
  (97 ≤ b.toNat && b.toNat ≤ 122) || (65 ≤ b.toNat && b.toNat ≤ 90) || nvmIsDigit b || b = 43 ||
    b = 35 || b = 45 || b = 46

def nvmFenceLang (line : Text) : Text := ((line.drop 3).take 16).takeWhile langByte

def nvmIsQuote (line : Text) : Bool :=
  match line with
  | 62 :: 62 :: third :: _ => !(nvmIsDigit third || third = 62)
  | 62 :: _ => true
  | _ => false

/-- The variables of `nvm_render`. -/
structure Rendering where
  r : Text
  inCode : Bool
  prevText : Bool
  blanks : Nat
  codeLines : Nat

def fence : Text := ascii "\x60\x60\x60"

def openFence (lang : Text) : Option Text := do
  if lang = [] then return ascii "<pre class=\"code\"><code>"
  let lang ← nvmEscape lang
  return ascii "<pre class=\"code\" data-lang=\"" ++ lang ++ ascii "\"><code>"

def renderText (pre line : Text) : Option Text := do
  if nvmIsQuote line then
    let html ← nvmInline pre 8 (line.drop 1)
    return ascii "<span class=\"quote\">&gt;" ++ html ++ ascii "</span>"
  nvmInline pre 8 line

/-- One turn of the loop of `nvm_render`. -/
def nvmRenderLine (pre : Text) (v : Rendering) (line : Text) : Option Rendering := do
  if v.inCode then
    if line.take 3 = fence then
      return { v with r := v.r ++ ascii "</code></pre>", inCode := false, prevText := false }
    let esc ← nvmEscape line
    let r := if 0 < v.codeLines then v.r ++ ascii "\n" else v.r
    return { v with r := r ++ esc, codeLines := v.codeLines + 1 }
  if line.take 3 = fence then
    let opening ← openFence (nvmFenceLang line)
    return { v with r := v.r ++ opening, inCode := true, codeLines := 0, blanks := 0 }
  let blanks := if strTrim line = [] then v.blanks + 1 else 0
  -- At most one empty line in a row.
  if 2 ≤ blanks then return { v with blanks }
  let html ← renderText pre line
  let r := if v.prevText then v.r ++ ascii "<br>\n" else v.r
  return { v with r := r ++ html, prevText := true, blanks }

def nvmRender (pre text : Text) : Option Text := do
  let v ← (nvmLines text).foldlM (nvmRenderLine pre) ⟨[], false, false, 0, 0⟩
  return if v.inCode then v.r ++ ascii "</code></pre>" else v.r

def nvPrefixOk (p : Text) : Bool :=
  2 ≤ p.length && p.length ≤ 64 && p.head? = some 47 && p.getLast? ≠ some 47 &&
    p.all fun b => (97 ≤ b.toNat && b.toNat ≤ 122) || (65 ≤ b.toNat && b.toNat ≤ 90) ||
      nvmIsDigit b || b = 45 || b = 95 || b = 47

example : nvmRender [] (ascii "**a *b** c* <") = some (ascii "<b>a *b</b> c* &lt;") := by
  decide +kernel

/-! The HTML that a post may become. Escaped text, addresses and languages carry their
well-formedness; elements are closed and nested by construction. -/

/-- Texts in which `<`, `>` and the quotes are entities and every `&` starts one. -/
inductive Escaped : Text → Prop
  | nil : Escaped []
  | byte {b : UInt8} {t : Text} : entity b = none → Escaped t → Escaped (b :: t)
  | entity {b : UInt8} {e t : Text} : entity b = some e → Escaped t → Escaped (e ++ t)

theorem Escaped.append {t u : Text} (ht : Escaped t) (hu : Escaped u) : Escaped (t ++ u) := by
  induction ht with
  | nil => exact hu
  | byte hb _ ih => exact .byte hb ih
  | entity he _ ih =>
    rw [List.append_assoc]
    exact .entity he ih

theorem Escaped.of_plain {t : Text} (h : ∀ b ∈ t, Novgorod.entity b = none) : Escaped t := by
  induction t with
  | nil => exact .nil
  | cons b t ih => exact .byte (h b (by simp)) (ih fun c hc => h c (by simp [hc]))

abbrev EscapedText := { t : Text // Escaped t }

/-- The prefix of the site's paths: empty, or accepted for `--prefix`. -/
structure Prefix where
  path : Text
  usable : path = [] ∨ nvPrefixOk path = true

structure Href (pre : Prefix) where
  text : Text
  escaped : Escaped text
  scheme : ascii "http://" <+: text ∨ ascii "https://" <+: text ∨ pre.path ++ ascii "/" <+: text

abbrev Digits := { t : Text // ∀ b ∈ t, nvmIsDigit b = true }

abbrev Lang := { t : Text // t ≠ [] ∧ ∀ b ∈ t, langByte b = true }

inductive Element where
  | b | i | s | code | quote | spoiler
deriving DecidableEq

def Element.opening : Element → Text
  | b => ascii "<b>"
  | i => ascii "<i>"
  | s => ascii "<s>"
  | code => ascii "<code>"
  | quote => ascii "<span class=\"quote\">"
  | spoiler => ascii "<span class=\"spoiler\">"

def Element.closing : Element → Text
  | b => ascii "</b>"
  | i => ascii "</i>"
  | s => ascii "</s>"
  | code => ascii "</code>"
  | quote | spoiler => ascii "</span>"

/-- What an `a` element has besides its address. -/
inductive Link where
  | post (no : Digits)
  | board
  | url

def Link.opening (href : Text) : Link → Text
  | post no =>
    ascii "<a class=\"ref\" href=\"" ++ href ++ ascii "\" data-ref=\"" ++ no.1 ++ ascii "\">"
  | board => ascii "<a class=\"ref\" href=\"" ++ href ++ ascii "\">"
  | url =>
    ascii "<a href=\"" ++ href ++ ascii "\" rel=\"nofollow noopener noreferrer ugc\" target=\"_blank\">"

def blockOpening : Option Lang → Text
  | none => ascii "<pre class=\"code\"><code>"
  | some lang => ascii "<pre class=\"code\" data-lang=\"" ++ lang.1 ++ ascii "\"><code>"

inductive Html (pre : Prefix) where
  | empty
  | text (t : EscapedText) (rest : Html pre)
  | br (rest : Html pre)
  | element (e : Element) (inner rest : Html pre)
  | link (l : Link) (href : Href pre) (t : EscapedText) (rest : Html pre)
  | block (lang : Option Lang) (t : EscapedText) (rest : Html pre)

namespace Html

variable {pre : Prefix}

def write : Html pre → Text
  | empty => []
  | text t rest => t.1 ++ rest.write
  | br rest => ascii "<br>" ++ rest.write
  | element e inner rest => e.opening ++ inner.write ++ e.closing ++ rest.write
  | link l href t rest => l.opening href.text ++ t.1 ++ ascii "</a>" ++ rest.write
  | block lang t rest => blockOpening lang ++ t.1 ++ ascii "</code></pre>" ++ rest.write

def append : Html pre → Html pre → Html pre
  | empty, h => h
  | text t rest, h => text t (rest.append h)
  | br rest, h => br (rest.append h)
  | element e inner rest, h => element e inner (rest.append h)
  | link l href t rest, h => link l href t (rest.append h)
  | block lang t rest, h => block lang t (rest.append h)

@[simp] theorem write_append (g h : Html pre) : (g.append h).write = g.write ++ h.write := by
  induction g with
  | empty => rfl
  | text t rest ih => simp [append, write, ih]
  | br rest ih => simp [append, write, ih]
  | element e inner rest _ ih => simp [append, write, ih]
  | link l href t rest ih => simp [append, write, ih]
  | block lang t rest ih => simp [append, write, ih]

end Html

def IsHtml (pre : Prefix) (t : Text) : Prop := ∃ h : Html pre, h.write = t

namespace IsHtml

variable {pre : Prefix} {t u : Text}

theorem nil : IsHtml pre [] := ⟨.empty, rfl⟩

theorem append (ht : IsHtml pre t) (hu : IsHtml pre u) : IsHtml pre (t ++ u) := by
  obtain ⟨g, rfl⟩ := ht
  obtain ⟨h, rfl⟩ := hu
  exact ⟨g.append h, g.write_append h⟩

theorem of_escaped (h : Escaped t) : IsHtml pre t := ⟨.text ⟨t, h⟩ .empty, by simp [Html.write]⟩

theorem br : IsHtml pre (ascii "<br>\n") :=
  ⟨.br (.text ⟨ascii "\n", .byte rfl .nil⟩ .empty), rfl⟩

theorem element (e : Element) (h : IsHtml pre t) : IsHtml pre (e.opening ++ t ++ e.closing) := by
  obtain ⟨inner, rfl⟩ := h
  exact ⟨.element e inner .empty, by simp [Html.write]⟩

theorem link (l : Link) (href : Href pre) (h : Escaped t) :
    IsHtml pre (l.opening href.text ++ t ++ ascii "</a>") :=
  ⟨.link l href ⟨t, h⟩ .empty, by simp [Html.write]⟩

theorem block (lang : Option Lang) (h : Escaped t) :
    IsHtml pre (blockOpening lang ++ t ++ ascii "</code></pre>") :=
  ⟨.block lang ⟨t, h⟩ .empty, by simp [Html.write]⟩

end IsHtml

end Ussr.Novgorod
