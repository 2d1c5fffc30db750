import Ussr.Pp.Lines

/-! What the expansion of a line makes of its end, and which bytes it can bring. -/

namespace Ussr.Pp
open Stalin (Text)

variable {s : Arguments} {after name : Text}
open Uno (byte isSpace isIdentStart isIdentPart)

def newline : UInt8 := byte '\n'

section

theorem skipSpace_line (text : Text) : ppSkipSpace (text ++ [newline]) = if ppSkipSpace text = [] then [] else ppSkipSpace text ++ [newline] := by
  unfold ppSkipSpace
  rw [List.dropWhile_append]
  cases text.dropWhile isSpace <;> rfl

theorem takeWhile_line (text : Text) : (text ++ [newline]).takeWhile isIdentPart = text.takeWhile isIdentPart := by
  rw [List.takeWhile_append]
  split
  · rename_i hall
    rw [show [newline].takeWhile isIdentPart = [] from rfl, List.append_nil]
    exact ((List.takeWhile_prefix _).eq_of_length hall).symm
  · rfl

theorem dropWhile_line (text : Text) : (text ++ [newline]).dropWhile isIdentPart = text.dropWhile isIdentPart ++ [newline] := by
  rw [List.dropWhile_append]
  cases text.dropWhile isIdentPart <;> rfl

theorem scanString_append (text : Text) (escaped : Bool) : (scanString text escaped).1 ++ (scanString text escaped).2 = text := by
  induction text generalizing escaped with
  | nil => rfl
  | cons c cs ih =>
    unfold scanString
    split
    · rfl
    · exact congrArg (c :: ·) (ih _)

theorem scanString_line (text : Text) (escaped : Bool) :
    scanString (text ++ [newline]) escaped = ((scanString text escaped).1, (scanString text escaped).2 ++ [newline]) ∨
      (scanString text escaped).2 = [] ∧ scanString (text ++ [newline]) escaped = ((scanString text escaped).1 ++ [newline], []) := by
  induction text generalizing escaped with
  | nil => exact .inr ⟨rfl, by cases escaped <;> rfl⟩
  | cons c cs ih =>
    rw [List.cons_append]
    unfold scanString
    split
    · exact .inl rfl
    · rcases ih (!escaped ∧ c = byte '\\') with hrest | ⟨hnil, hrest⟩
      · exact .inl (by rw [hrest])
      · exact .inr ⟨hnil, by rw [hrest]; rfl⟩

theorem turn_newline (s : Arguments) : ∃ s', s.turn newline = .go s' := by
  unfold Arguments.turn
  split_ifs <;> first | exact ⟨_, rfl⟩ | exact absurd ‹newline = _› (by decide)

theorem argumentsFrom_line (text : Text) (s : Arguments) :
    argumentsFrom (text ++ [newline]) s = (argumentsFrom text s).map fun p => (p.1, p.2 ++ [newline]) := by
  induction text generalizing s with
  | nil =>
    obtain ⟨s', hturn⟩ := turn_newline s
    have hone : argumentsFrom [newline] s = none := by
      rw [argumentsFrom, hturn]
      rfl
    rw [List.nil_append, hone, argumentsFrom]
    rfl
  | cons c cs ih =>
    rw [List.cons_append, argumentsFrom, argumentsFrom]
    cases s.turn c with
    | go s' => exact ih s'
    | fail => rfl
    | done read => rfl

theorem argumentsFrom_length {text : Text} {read : List Text}
    (h : argumentsFrom text s = some (read, after)) : after.length < text.length := by
  induction text generalizing s with
  | nil => cases h
  | cons c cs ih =>
    rw [argumentsFrom] at h
    cases hturn : s.turn c with
    | go s' =>
      rw [hturn] at h
      exact (ih h).trans (Nat.lt_succ_self _)
    | fail =>
      rw [hturn] at h
      cases h
    | done read' =>
      rw [hturn] at h
      cases h
      exact Nat.lt_succ_self _

variable {defines : List Define} {deeper : Text → Option Text}

theorem lookahead_line (rest : Text) :
    (ppSkipSpace (rest ++ [newline])).head? = (ppSkipSpace rest).head? ∧
      (ppSkipSpace rest ≠ [] → (ppSkipSpace (rest ++ [newline])).tail = (ppSkipSpace rest).tail ++ [newline]) := by
  rw [skipSpace_line]
  cases ppSkipSpace rest with
  | nil => exact ⟨rfl, fun h => absurd rfl h⟩
  | cons c cs => exact ⟨rfl, fun _ => rfl⟩

theorem expandFrom_nil (turns : Nat) : expandFrom defines deeper turns [] = some [] := by
  cases turns <;> rfl

theorem expandFrom_newline (turns : Nat) : expandFrom defines deeper (turns + 1) [newline] = some [newline] := by
  have hstep : expandFrom defines deeper (turns + 1) [newline] = (expandFrom defines deeper turns []).map (newline :: ·) := rfl
  rw [hstep, expandFrom_nil]
  rfl

theorem expandFrom_line {text : Text} {turns turns' : Nat} (hturns : text.length ≤ turns) (hturns' : text.length < turns') :
    expandFrom defines deeper turns' (text ++ [newline]) = (expandFrom defines deeper turns text).map (· ++ [newline]) := by
  induction turns generalizing text turns' with
  | zero =>
    obtain rfl := List.eq_nil_of_length_eq_zero (Nat.le_zero.mp hturns)
    obtain ⟨turns', rfl⟩ : ∃ more, turns' = more + 1 := ⟨turns' - 1, by omega⟩
    rw [List.nil_append, expandFrom_newline, expandFrom_nil]
    rfl
  | succ turns ih =>
    obtain ⟨turns', rfl⟩ : ∃ more, turns' = more + 1 := ⟨turns' - 1, by omega⟩
    cases text with
    | nil =>
      rw [List.nil_append, expandFrom_newline, expandFrom_nil]
      rfl
    | cons c cs =>
      have hlength : cs.length ≤ turns := Nat.le_of_succ_le_succ hturns
      have hlength' : cs.length < turns' := Nat.lt_of_succ_lt_succ hturns'
      rw [List.cons_append, expandFrom, expandFrom]
      by_cases hquote : c = byte '"'
      · rw [if_pos hquote, if_pos hquote]
        have hparts := scanString_append cs false
        rcases scanString_line cs false with hline | ⟨hnil, hline⟩
        · have hrest : (scanString cs false).2.length ≤ cs.length := by
            rw [← congrArg List.length hparts, List.length_append]
            exact Nat.le_add_left _ _
          simp only [hline, ih (hrest.trans hlength) (Nat.lt_of_le_of_lt hrest hlength'), Option.map_map]
          refine congrArg (fun f => Option.map f _) (funext fun out => ?_)
          exact (List.append_assoc _ _ _).symm
        · simp only [hline, hnil, expandFrom_nil, Option.map_some]
          simp
      rw [if_neg hquote, if_neg hquote]
      by_cases hstart : (!isIdentStart c) = true
      · rw [if_pos hstart, if_pos hstart, ih hlength hlength', Option.map_map, Option.map_map]
        rfl
      rw [if_neg hstart, if_neg hstart, takeWhile_line, dropWhile_line]
      have hrest : (cs.dropWhile isIdentPart).length ≤ cs.length := (List.dropWhile_suffix _).length_le
      have hmore := ih (hrest.trans hlength) (Nat.lt_of_le_of_lt hrest hlength')
      obtain ⟨hhead, htail⟩ := lookahead_line (cs.dropWhile isIdentPart)
      simp only [hhead]
      split
      · rename_i define parameters hfunction
        have hparen : (ppSkipSpace (cs.dropWhile isIdentPart)).head? = some (byte '(') := by
          by_contra hno
          rw [if_neg hno] at hfunction
          cases hfunction
        have hne : ppSkipSpace (cs.dropWhile isIdentPart) ≠ [] := fun hnil => by
          rw [hnil] at hparen
          cases hparen
        have hargs : ppExtractMacroArguments (ppSkipSpace (cs.dropWhile isIdentPart ++ [newline])).tail =
            (ppExtractMacroArguments (ppSkipSpace (cs.dropWhile isIdentPart)).tail).map fun p => (p.1, p.2 ++ [newline]) := by
          rw [htail hne]
          exact argumentsFrom_line _ _
        rw [hargs]
        cases harguments : ppExtractMacroArguments (ppSkipSpace (cs.dropWhile isIdentPart)).tail with
        | none => rfl
        | some p =>
          obtain ⟨arguments, after⟩ := p
          have hafter : after.length ≤ cs.length := by
            have hlt := argumentsFrom_length harguments
            have hskip : (ppSkipSpace (cs.dropWhile isIdentPart)).length ≤ _ := (List.dropWhile_suffix _).length_le
            rw [List.length_tail] at hlt
            omega
          simp only [Option.map_some, Option.bind_eq_bind, Option.bind_some]
          split
          · rfl
          · cases deeper (ppSubstituteMacro define.value parameters arguments) with
            | none => rfl
            | some out =>
              simp only [Option.bind_some, ih (hafter.trans hlength) (Nat.lt_of_le_of_lt hafter hlength')]
              cases expandFrom defines deeper turns after with
              | none => rfl
              | some more => exact congrArg some (List.append_assoc _ _ _).symm
      · split
        · split
          · rename_i define _ _
            cases deeper define.value with
            | none => rfl
            | some out =>
              simp only [Option.bind_eq_bind, Option.bind_some, hmore]
              cases expandFrom defines deeper turns (cs.dropWhile isIdentPart) with
              | none => rfl
              | some more => exact congrArg some (List.append_assoc _ _ _).symm
          · rw [hmore, Option.map_map, Option.map_map]
            refine congrArg (fun f => Option.map f _) (funext fun out => ?_)
            exact (List.append_assoc _ _ _).symm
        · rw [hmore, Option.map_map, Option.map_map]
          refine congrArg (fun f => Option.map f _) (funext fun out => ?_)
          exact (List.append_assoc _ _ _).symm

theorem ppExpandText_line (defines : List Define) (text : Text) :
    ppExpandText defines (text ++ [newline]) = (ppExpandText defines text).map (· ++ [newline]) := by
  refine expandFrom_line (le_refl _) ?_
  rw [List.length_append]
  exact Nat.lt_succ_self _

end

section

/-- Every byte of the text is one that `p` allows. -/
def Within (p : UInt8 → Prop) (text : Text) : Prop := ∀ b ∈ text, p b

def ValuesWithin (p : UInt8 → Prop) (defines : List Define) : Prop := ∀ d ∈ defines, Within p d.value

variable {p : UInt8 → Prop} {text out : Text} {defines : List Define}

theorem Within.append {other : Text} (h : Within p text) (h' : Within p other) : Within p (text ++ other) := fun b hb =>
  (List.mem_append.mp hb).elim (h b) (h' b)

theorem Within.cons {c : UInt8} (hc : p c) (h : Within p text) : Within p (c :: text) := List.forall_mem_cons.mpr ⟨hc, h⟩

theorem within_cons {c : UInt8} : Within p (c :: text) ↔ p c ∧ Within p text := List.forall_mem_cons

theorem Within.suffix {rest : Text} (h : Within p text) (hrest : rest <:+ text) : Within p rest := fun b hb => h b (hrest.subset hb)

theorem Within.pre {first : Text} (h : Within p text) (hfirst : first <+: text) : Within p first := fun b hb => h b (hfirst.subset hb)

theorem Within.trimmed (h : Within p text) : Within p (ppTrimmed text) := by
  intro b hb
  have hmem := (List.dropWhile_suffix _).subset (List.mem_reverse.mp hb)
  exact h b ((List.dropWhile_suffix _).subset (List.mem_reverse.mp hmem))

structure Arguments.Within (p : UInt8 → Prop) (s : Arguments) : Prop where
  read : ∀ t ∈ s.read, Pp.Within p t
  argument : Pp.Within p s.argument

theorem turn_within {c : UInt8} (hc : p c) (h : s.Within p) :
    (∀ s', s.turn c = .go s' → s'.Within p) ∧ ∀ read, s.turn c = .done read → ∀ t ∈ read, Within p t := by
  have hpush : Within p (s.argument ++ [c]) := h.argument.append (Within.cons hc fun b hb => absurd hb List.not_mem_nil)
  have hread : ∀ t ∈ s.read ++ [ppTrimmed s.argument], Within p t := by
    intro t ht
    rcases List.mem_append.mp ht with ht | ht
    · exact h.read t ht
    · exact List.mem_singleton.mp ht ▸ h.argument.trimmed
  constructor
  · intro s' hturn
    unfold Arguments.turn at hturn
    split_ifs at hturn <;> cases hturn <;>
      first | exact ⟨h.read, hpush⟩ | exact ⟨hread, fun b hb => absurd hb List.not_mem_nil⟩
  · intro read hturn
    unfold Arguments.turn at hturn
    split_ifs at hturn <;> cases hturn
    · exact hread
    · exact h.read

theorem argumentsFrom_within {read : List Text} (htext : Within p text) (h : s.Within p)
    (hsome : argumentsFrom text s = some (read, after)) : (∀ t ∈ read, Within p t) ∧ Within p after := by
  induction text generalizing s with
  | nil => cases hsome
  | cons c cs ih =>
    obtain ⟨hc, hcs⟩ := within_cons.mp htext
    obtain ⟨hgo, hdone⟩ := turn_within hc h
    rw [argumentsFrom] at hsome
    cases hturn : s.turn c with
    | go s' =>
      rw [hturn] at hsome
      exact ih hcs (hgo s' hturn) hsome
    | fail =>
      rw [hturn] at hsome
      cases hsome
    | done read' =>
      rw [hturn] at hsome
      cases hsome
      exact ⟨hdone _ hturn, hcs⟩

theorem substituteFrom_within {bindings : List (Text × Text)} (hbindings : ∀ q ∈ bindings, Within p q.2) (turns : Nat) {body : Text}
    (hbody : Within p body) (inString escaped : Bool) : Within p (substituteFrom bindings turns body inString escaped) := by
  induction turns generalizing body inString escaped with
  | zero => exact fun b hb => absurd hb List.not_mem_nil
  | succ turns ih =>
    cases body with
    | nil => exact fun b hb => absurd hb List.not_mem_nil
    | cons c cs =>
      obtain ⟨hc, hcs⟩ := within_cons.mp hbody
      cases inString with
      | true => exact Within.cons hc (ih hcs _ _)
      | false =>
        unfold substituteFrom
        split_ifs
        · exact Within.cons hc (ih hcs _ _)
        · exact Within.cons hc (ih hcs _ _)
        · refine Within.append ?_ (ih (hcs.suffix (List.dropWhile_suffix _)) _ _)
          cases hfind : bindings.find? fun p => p.1 = c :: cs.takeWhile isIdentPart with
          | none => exact Within.cons hc (hcs.pre (List.takeWhile_prefix _))
          | some q => exact hbindings q (List.mem_of_find?_eq_some hfind)

theorem ppFindFunctionDefine_mem {d : Define} {parameters : List Text}
    (h : ppFindFunctionDefine name defines = some (d, parameters)) : d ∈ defines := by
  induction defines with
  | nil => cases h
  | cons e es ih =>
    unfold ppFindFunctionDefine at h
    split_ifs at h
    · split at h
      · cases h
      · exact List.mem_cons_of_mem _ (ih h)
      · cases h
        exact List.mem_cons_self
    · exact List.mem_cons_of_mem _ (ih h)

theorem expandFrom_within {deeper : Text → Option Text} (hvalues : ValuesWithin p defines)
    (hdeeper : ∀ t out, Within p t → deeper t = some out → Within p out) {turns : Nat} (htext : Within p text)
    (h : expandFrom defines deeper turns text = some out) : Within p out := by
  induction turns generalizing text out with
  | zero =>
    cases text with
    | nil =>
      cases h
      exact htext
    | cons => cases h
  | succ turns ih =>
    cases text with
    | nil =>
      cases h
      exact htext
    | cons c cs =>
      obtain ⟨hc, hcs⟩ := within_cons.mp htext
      have hrest : Within p (cs.dropWhile isIdentPart) := hcs.suffix (List.dropWhile_suffix _)
      have hname : Within p (c :: cs.takeWhile isIdentPart) := Within.cons hc (hcs.pre (List.takeWhile_prefix _))
      rw [expandFrom] at h
      by_cases hquote : c = byte '"'
      · rw [if_pos hquote] at h
        obtain ⟨more, hmore, rfl⟩ := Option.map_eq_some_iff.mp h
        have hparts := scanString_append cs false
        have hstring : Within p (scanString cs false).1 := hcs.pre ⟨_, hparts⟩
        exact (Within.cons hc hstring).append (ih (hcs.suffix ⟨_, hparts⟩) hmore)
      rw [if_neg hquote] at h
      by_cases hstart : (!isIdentStart c) = true
      · rw [if_pos hstart] at h
        obtain ⟨more, hmore, rfl⟩ := Option.map_eq_some_iff.mp h
        exact Within.cons hc (ih hcs hmore)
      rw [if_neg hstart] at h
      simp only at h
      split at h
      · rename_i define parameters hfunction
        have hdefine : define ∈ defines := by
          split_ifs at hfunction
          exact ppFindFunctionDefine_mem hfunction
        obtain ⟨⟨arguments, after⟩, harguments, h⟩ := Option.bind_eq_some_iff.mp h
        have hlookahead : Within p (ppSkipSpace (cs.dropWhile isIdentPart)).tail :=
          (hrest.suffix (List.dropWhile_suffix _)).suffix (List.tail_suffix _)
        have hnone : Arguments.Within p ⟨[], [], 0, 0, false, false⟩ :=
          ⟨fun t ht => absurd ht List.not_mem_nil, fun b hb => absurd hb List.not_mem_nil⟩
        obtain ⟨hread, hafter⟩ := argumentsFrom_within hlookahead hnone harguments
        simp only at h
        split_ifs at h
        obtain ⟨first, hfirst, h⟩ := Option.bind_eq_some_iff.mp h
        obtain ⟨more, hmore, h⟩ := Option.bind_eq_some_iff.mp h
        cases h
        have hbody : Within p (ppSubstituteMacro define.value parameters arguments) :=
          substituteFrom_within (fun q hq => hread q.2 (List.of_mem_zip hq).2) _ (hvalues define hdefine) _ _
        exact (hdeeper _ _ hbody hfirst).append (ih hafter hmore)
      · split at h
        · rename_i define hdefine
          split_ifs at h
          · obtain ⟨more, hmore, rfl⟩ := Option.map_eq_some_iff.mp h
            exact hname.append (ih hrest hmore)
          · obtain ⟨first, hfirst, h⟩ := Option.bind_eq_some_iff.mp h
            obtain ⟨more, hmore, h⟩ := Option.bind_eq_some_iff.mp h
            cases h
            have hvalue : Within p define.value := hvalues define (List.mem_of_find?_eq_some hdefine)
            exact (hdeeper _ _ hvalue hfirst).append (ih hrest hmore)
        · obtain ⟨more, hmore, rfl⟩ := Option.map_eq_some_iff.mp h
          exact hname.append (ih hrest hmore)

theorem ppExpandText_within (hvalues : ValuesWithin p defines) (htext : Within p text) (h : ppExpandText defines text = some out) :
    Within p out := by
  have hdepth : ∀ levels text out, Within p text → ppExpandTextDepth defines levels text = some out → Within p out := by
    intro levels
    induction levels with
    | zero => exact fun _ _ _ h => absurd h (Option.some_ne_none _).symm
    | succ levels ih => exact fun text out htext h => expandFrom_within hvalues ih htext h
  exact hdepth 65 text out htext h

theorem late_suffix {rest : Text} (h : newline ∉ text.dropLast) (hrest : rest <:+ text) : newline ∉ rest.dropLast := by
  obtain ⟨first, rfl⟩ := hrest
  by_cases hnil : rest = []
  · rw [hnil]
    exact List.not_mem_nil
  · rw [List.dropLast_append_of_ne_nil hnil] at h
    exact fun hmem => h (List.mem_append_right _ hmem)

theorem chomp_within (h : newline ∉ text.dropLast) : Within (· ≠ newline) (chomp text) := by
  unfold chomp
  rcases List.eq_nil_or_concat text with rfl | ⟨first, c, rfl⟩
  · exact fun b hb => absurd hb List.not_mem_nil
  have hfirst : newline ∉ first := by simpa using h
  intro b hb heq
  have hmem := List.mem_reverse.mp hb
  rw [List.concat_eq_append, List.reverse_append, List.reverse_singleton, List.singleton_append, List.dropWhile_cons] at hmem
  split_ifs at hmem with hc
  · exact hfirst (List.mem_reverse.mp ((List.dropWhile_suffix _).subset (heq ▸ hmem)))
  · rcases List.mem_cons.mp hmem with rfl | hmem
    · exact hc (by simp [heq, newline])
    · exact hfirst (List.mem_reverse.mp (heq ▸ hmem))

theorem scanSignature_suffix {depth : Int} {inString escaped : Bool} {parens : Text}
    (h : scanSignature text depth inString escaped = some (parens, after)) : after <:+ text := by
  induction text generalizing depth inString escaped parens with
  | nil => cases inString <;> cases h
  | cons c cs ih =>
    cases inString with
    | true =>
      obtain ⟨rest, hrest, heq⟩ := Option.map_eq_some_iff.mp h
      cases heq
      exact (ih hrest).trans (List.suffix_cons c cs)
    | false =>
      unfold scanSignature at h
      by_cases hclose : c = byte ')' ∧ depth - 1 = 0
      · rw [if_pos hclose] at h
        cases h
        exact List.suffix_cons c _
      · rw [if_neg hclose] at h
        obtain ⟨rest, hrest, heq⟩ := Option.map_eq_some_iff.mp h
        cases heq
        exact (ih hrest).trans (List.suffix_cons c cs)

theorem setValue_within {value : Text} (hvalues : ValuesWithin p defines) (hvalue : Within p value) :
    ValuesWithin p (setValue name value defines) := by
  induction defines with
  | nil => exact hvalues
  | cons e es ih =>
    obtain ⟨he, hes⟩ := List.forall_mem_cons.mp hvalues
    unfold setValue
    split
    · exact List.forall_mem_cons.mpr ⟨hvalue, hes⟩
    · exact List.forall_mem_cons.mpr ⟨he, ih hes⟩

theorem ppDefine_within {value : Text} (hvalues : ValuesWithin p defines) (hvalue : Within p value) :
    ValuesWithin p (ppDefine defines name value) := by
  unfold ppDefine
  split
  · exact setValue_within hvalues hvalue
  · exact List.forall_mem_cons.mpr ⟨hvalue, hvalues⟩

theorem ppParseDefine_within {defines' : List Define} (hvalues : ValuesWithin (· ≠ newline) defines) (htext : newline ∉ text.dropLast)
    (h : ppParseDefine defines text = some defines') : ValuesWithin (· ≠ newline) defines' := by
  unfold ppParseDefine at h
  split at h
  · cases h
  rename_i c cs hcursor
  have hcs : cs <:+ text := (List.suffix_cons c cs).trans (hcursor ▸ List.dropWhile_suffix _)
  have hrest : (cs.dropWhile isIdentPart).dropWhile isSpace <:+ text :=
    (List.dropWhile_suffix _).trans ((List.dropWhile_suffix _).trans hcs)
  simp only at h
  split_ifs at h with hstart hparen
  · obtain ⟨⟨parens, after⟩, hscan, h⟩ := Option.bind_eq_some_iff.mp h
    have hafter : ppSkipSpace after <:+ text := (List.dropWhile_suffix _).trans ((scanSignature_suffix hscan).trans hrest)
    simp only at h
    split at h
    · cases h
      exact ppDefine_within hvalues (chomp_within (late_suffix htext hafter))
    · cases h
  · cases h
    exact ppDefine_within hvalues (chomp_within (late_suffix htext hrest))

end

end Ussr.Pp
