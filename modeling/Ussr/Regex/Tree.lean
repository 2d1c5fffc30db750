import Ussr.Library.Codec
import Ussr.Regex.Compile

/-! The syntax tree of a pattern, and the code that the compiler makes of it. -/

namespace Ussr.Regex

inductive Tree where
  | empty
  | one (i : Inst)
  | group (group : Option Nat) (body : Tree)
  | seq (a b : Tree)
  | alt (a b : Tree)
  | rep (n : Nat) (m : Option Nat) (lazy : Bool) (body : Tree)

def optionalCode (lazy : Bool) (c : List Inst) : (left : Nat) → List Inst
  | 0 => []
  | left + 1 => splitOf lazy 1 ((left + 1) * (c.length + 1) : Nat) :: c ++ optionalCode lazy c left

def repeatCode (n : Nat) (m : Option Nat) (lazy : Bool) (c : List Inst) : List Inst :=
  match m with
  | none =>
    if n = 0 then splitOf lazy 1 (c.length + 2) :: c ++ [.opJmp (-(c.length + 1))]
    else (List.replicate n c).flatten ++ [splitOf lazy (-c.length) 1]
  | some m => (List.replicate n c).flatten ++ optionalCode lazy c (m - n)

def Tree.code : Tree → List Inst
  | empty => []
  | one i => [i]
  | group none body => body.code
  | group (some g) body => .opSave (g * 2) :: body.code ++ [.opSave (g * 2 + 1)]
  | seq a b => a.code ++ b.code
  | alt a b => .opSplit 1 (a.code.length + 2) :: a.code ++ .opJmp (b.code.length + 1) :: b.code
  | rep n m lazy body => repeatCode n m lazy body.code

/-- An instruction that stands for itself: it goes on to the next one, or takes a character, or does not. -/
def Inst.Alone : Inst → Prop
  | .opSplit _ _ | .opJmp _ | .opSave _ | .opMatch => False
  | _ => True

def Tree.Proper (groups : Nat) : Tree → Prop
  | empty => True
  | one i => i.Alone
  | group none body => body.Proper groups
  | group (some g) body => g ≤ groups ∧ body.Proper groups
  | seq a b => a.Proper groups ∧ b.Proper groups
  | alt a b => a.Proper groups ∧ b.Proper groups
  | rep _ _ _ body => body.Proper groups

theorem Tree.Proper.mono {groups groups' : Nat} (hle : groups ≤ groups') {t : Tree} (h : t.Proper groups) : t.Proper groups' := by
  induction t with
  | empty => trivial
  | one i => exact h
  | group g body ih =>
    cases g with
    | none => exact ih h
    | some g => exact ⟨h.1.trans hle, ih h.2⟩
  | seq a b iha ihb => exact ⟨iha h.1, ihb h.2⟩
  | alt a b iha ihb => exact ⟨iha h.1, ihb h.2⟩
  | rep n m lazy body ih => exact ih h

structure Reading where
  ranges : List (Nat × Nat)
  groups : Nat
  depth : Nat
  p : List UInt8

def Parser.reading (ps : Parser) : Reading := ⟨ps.ranges, ps.groups, ps.depth, ps.p⟩

def treeAtom (flags : Flags) (alternatives : Reading → Except Halt (Tree × Reading)) (r : Reading) : Except Halt (Tree × Reading) :=
  if peek r.p = byteOf '(' then
    let plain := peek r.p.tail == byteOf '?'
    let group := r.groups + 1
    if plain ∧ peek r.p.tail.tail ≠ byteOf ':' then .error (.error "of (? only (?: is supported")
    else if ¬ plain ∧ reMaxGroups ≤ r.groups then .error (.error "too many groups")
    else
      let r := if plain then { r with p := r.p.tail.tail.tail } else { r with p := r.p.tail, groups := group }
      if reMaxDepth < r.depth + 1 then .error tooBig
      else do
        let (body, r) ← alternatives { r with depth := r.depth + 1 }
        if peek r.p ≠ byteOf ')' then .error (.error "missing )")
        else return (.group (if plain then none else some group) body, { r with depth := r.depth - 1, p := r.p.tail })
  else do
    let (i, ranges, p) ← readOne flags r.ranges r.p
    return (.one i, { r with ranges := ranges, p := p })

def treePiece (flags : Flags) (alternatives : Reading → Except Halt (Tree × Reading)) (r : Reading) :
    Except Halt (Tree × Reading) := do
  let (body, r) ← treeAtom flags alternatives r
  match readRepeat r.p with
  | none => return (body, r)
  | some counts =>
    let (n, m, lazy, p) ← counts
    return (.rep n m lazy body, { r with p := p })

def treePieces (piece : Reading → Except Halt (Tree × Reading)) : (turns : Nat) → Reading → Except Halt (Tree × Reading)
  | 0, r => if endsPieces r.p then .ok (.empty, r) else .error .turns
  | turns + 1, r =>
    if endsPieces r.p then .ok (.empty, r)
    else do
      let (a, r) ← piece r
      let (b, r) ← treePieces piece turns r
      return (.seq a b, r)

def treeAlternatives (flags : Flags) : (turns : Nat) → Reading → Except Halt (Tree × Reading)
  | 0, _ => .error .turns
  | turns + 1, r => do
    let (a, r) ← treePieces (treePiece flags (treeAlternatives flags turns)) r.p.length r
    if peek r.p = byteOf '|' then
      let (b, r) ← treeAlternatives flags turns { r with p := r.p.tail }
      return (.alt a b, r)
    else return (a, r)

def patternTree (pattern flags : List UInt8) : Except Halt Tree := do
  let flags ← readFlags flags ⟨false, false, false⟩
  let p := pattern.takeWhile (· != 0)
  let (t, _) ← treeAlternatives flags (p.length + 1) ⟨[], 0, 0, p⟩
  return t

section

theorem reEmit_ok (h : reEmit ps i = .ok ps') : ps' = { ps with code := ps.code ++ [i] } := by
  unfold reEmit at h
  split_ifs at h
  exact (Except.ok.inj h).symm

theorem reInsert_ok {pre c : List Inst} (hcode : ps.code = pre ++ c)
    (h : reInsert ps pre.length i = .ok ps') : ps' = { ps with code := pre ++ i :: c } := by
  unfold reInsert at h
  split_ifs at h
  rw [← Except.ok.inj h, hcode, List.take_left, List.drop_left]

variable {pre c post : List Inst}
variable {ps ps' : Parser} {i : Inst}

theorem reCopy_ok (hcode : ps.code = pre ++ c ++ post) (h : reCopy ps pre.length c.length = .ok ps') :
    ps' = { ps with code := ps.code ++ c } := by
  unfold reCopy at h
  split_ifs at h
  have htake : (ps.code.drop pre.length).take c.length = c := by
    rw [hcode, List.append_assoc, List.drop_left, List.take_left]
  rw [← Except.ok.inj h, htake]

theorem copies_ok {times : Nat} (hcode : ps.code = pre ++ c ++ post)
    (h : copies pre.length c.length times ps = .ok ps') :
    ps' = { ps with code := ps.code ++ (List.replicate times c).flatten } := by
  induction times generalizing ps post with
  | zero =>
    rw [← Except.ok.inj h, List.replicate_zero, List.flatten_nil, List.append_nil]
  | succ times ih =>
    obtain ⟨ps₁, hcopy, h⟩ := Codec.except_bind_ok h
    obtain rfl := reCopy_ok hcode hcopy
    have hlonger : ps.code ++ c = pre ++ c ++ (post ++ c) := by rw [hcode, List.append_assoc (pre ++ c)]
    rw [ih hlonger h, List.replicate_succ, List.flatten_cons, List.append_assoc]

theorem optionals_ok {lazy : Bool} {left : Nat} (hcode : ps.code = pre ++ c ++ post)
    (h : optionals pre.length c.length lazy left ps = .ok ps') :
    ps' = { ps with code := ps.code ++ optionalCode lazy c left } := by
  induction left generalizing ps post with
  | zero => rw [← Except.ok.inj h, optionalCode, List.append_nil]
  | succ left ih =>
    obtain ⟨ps₁, hemit, h⟩ := Codec.except_bind_ok h
    obtain rfl := reEmit_ok hemit
    obtain ⟨ps₂, hcopy, h⟩ := Codec.except_bind_ok h
    let split := splitOf lazy 1 ((left + 1) * (c.length + 1) : Nat)
    have hsplit : ps.code ++ [split] = pre ++ c ++ (post ++ [split]) := by simp only [hcode, List.append_assoc]
    obtain rfl := reCopy_ok hsplit hcopy
    have hlonger : ps.code ++ [split] ++ c = pre ++ c ++ (post ++ [split] ++ c) := by simp only [hcode, List.append_assoc]
    rw [ih hlonger h]
    simp only [optionalCode, List.append_assoc, List.cons_append, List.nil_append]

theorem reRepeat_ok {n : Nat} {m : Option Nat} {lazy : Bool} (hcode : ps.code = pre ++ c)
    (h : reRepeat ps pre.length n m lazy = .ok ps') : ps' = { ps with code := pre ++ repeatCode n m lazy c } := by
  unfold reRepeat at h
  have hsize : ps.code.length - pre.length = c.length := by rw [hcode, List.length_append, Nat.add_sub_cancel_left]
  simp only [hsize] at h
  by_cases hnone : n = 0 ∧ m = some 0
  · rw [if_pos hnone] at h
    obtain ⟨rfl, rfl⟩ := hnone
    rw [← Except.ok.inj h, hcode, List.take_left]
    exact congrArg (fun code => { ps with code := code }) (List.append_nil pre).symm
  · rw [if_neg hnone] at h
    obtain ⟨ps₁, hcopies, h⟩ := Codec.except_bind_ok h
    have halone : ps.code = pre ++ c ++ [] := by rw [hcode, List.append_nil]
    obtain rfl := copies_ok halone hcopies
    have hall (n : Nat) : ps.code ++ (List.replicate n c).flatten = pre ++ (List.replicate (n + 1) c).flatten := by
      rw [hcode, List.replicate_succ, List.flatten_cons, List.append_assoc]
    cases n with
    | zero =>
      rw [List.replicate_zero, List.flatten_nil, List.append_nil] at h
      cases m with
      | none =>
        obtain ⟨ps₂, hinsert, h⟩ := Codec.except_bind_ok h
        obtain rfl := reInsert_ok hcode hinsert
        rw [reEmit_ok h]
        simp [repeatCode]
      | some m =>
        obtain ⟨m, rfl⟩ : ∃ k, m = k + 1 := Nat.exists_eq_succ_of_ne_zero fun hm => hnone ⟨rfl, congrArg some hm⟩
        simp only [if_true] at h
        split_ifs at h
        obtain ⟨ps₂, hinsert, h⟩ := Codec.except_bind_ok h
        obtain rfl := reInsert_ok hcode hinsert
        have hlength (i : Inst) : pre.length + 1 = (pre ++ [i]).length := by simp
        rw [hlength (splitOf lazy 1 ((m + 1 - 1 + 1) * (c.length + 1) : Nat))] at h
        have hsplit (i : Inst) : pre ++ i :: c = pre ++ [i] ++ c ++ [] := by simp
        rw [optionals_ok (hsplit _) h]
        simp [repeatCode, optionalCode]
    | succ n =>
      simp only [Nat.add_sub_cancel, hall] at h
      cases m with
      | none =>
        rw [reEmit_ok h]
        simp [repeatCode]
      | some m =>
        simp only [Nat.add_one_ne_zero, if_false] at h
        have hfirst : pre ++ (List.replicate (n + 1) c).flatten = pre ++ c ++ (List.replicate n c).flatten := by
          simp [List.replicate_succ]
        rw [optionals_ok hfirst h]
        simp [repeatCode]

end

section

theorem alone_ite {b : Bool} {i' : Inst} (h : i.Alone) (h' : i'.Alone) : (if b then i else i').Alone := by
  split_ifs
  · exact h
  · exact h'

theorem readClass_alone {flags : Flags} {ranges ranges' : List (Nat × Nat)} {p p' : List UInt8}
    (h : readClass flags ranges p = .ok (i, ranges', p')) : i.Alone := by
  obtain ⟨⟨all, rest⟩, _, h⟩ := Codec.except_bind_ok h
  obtain ⟨rfl, _⟩ := Prod.mk.inj (Except.ok.inj h)
  exact alone_ite trivial trivial

theorem readOne_alone {flags : Flags} {ranges ranges' : List (Nat × Nat)} {p p' : List UInt8}
    (h : readOne flags ranges p = .ok (i, ranges', p')) : i.Alone := by
  have hmade {j : Inst} {q : List (Nat × Nat) × List UInt8} (h : (.ok (j, q) : Except Halt _) = .ok (i, ranges', p')) (hj : j.Alone) :
      i.Alone := (Prod.mk.inj (Except.ok.inj h)).1 ▸ hj
  unfold readOne at h
  extract_lets c letter at h
  have hletter (r : Nat × List UInt8) (h : (.ok (letter r) : Except Halt _) = .ok (i, ranges', p')) : i.Alone :=
    hmade h (alone_ite trivial trivial)
  split at h
  · exact readClass_alone h
  split at h
  · exact hmade h (alone_ite trivial trivial)
  split at h
  · exact hmade h (alone_ite trivial trivial)
  split at h
  · exact hmade h (alone_ite trivial trivial)
  split at h
  · cases h
  split at h
  · split at h
    · exact hmade h trivial
    split at h
    · exact hmade h trivial
    split at h
    · obtain ⟨all, _, h⟩ := Codec.except_bind_ok h
      exact hmade h trivial
    · cases hesc : reEscape p.tail with
      | error e =>
        rw [hesc] at h
        cases h
      | ok r =>
        rw [hesc] at h
        exact hletter r h
  · exact hletter _ h

structure Adds (ps ps' : Parser) (t : Tree) : Prop where
  code : ps'.code = ps.code ++ t.code
  groups : ps.groups ≤ ps'.groups
  proper : t.Proper ps'.groups

def Mirrors (f : Parser → Except Halt Parser) (g : Reading → Except Halt (Tree × Reading)) : Prop :=
  ∀ ps ps', f ps = .ok ps' → ∃ t, g ps.reading = .ok (t, ps'.reading) ∧ Adds ps ps' t

variable {flags : Flags} {f : Parser → Except Halt Parser} {g : Reading → Except Halt (Tree × Reading)}

theorem ok_bind {α β : Type} (a : α) (f : α → Except Halt β) : ((.ok a : Except Halt α) >>= f) = f a := rfl

theorem atom_mirrors (h : Mirrors f g) : Mirrors (reParseAtom flags f) (treeAtom flags g) := by
  intro ps ps' hok
  obtain ⟨code, ranges, groups, depth, p⟩ := ps
  show ∃ t, treeAtom flags g ⟨ranges, groups, depth, p⟩ = _ ∧ _
  unfold reParseAtom at hok
  unfold treeAtom
  dsimp only at hok ⊢
  by_cases hparen : peek p = byteOf '('
  · rw [if_pos hparen] at hok
    simp only [if_pos hparen]
    by_cases hbad : (peek p.tail == byteOf '?') ∧ peek p.tail.tail ≠ byteOf ':'
    · rw [if_pos hbad] at hok
      cases hok
    rw [if_neg hbad] at hok
    simp only [if_neg hbad]
    by_cases hmany : ¬ (peek p.tail == byteOf '?') ∧ reMaxGroups ≤ groups
    · rw [if_pos hmany] at hok
      cases hok
    rw [if_neg hmany] at hok
    simp only [if_neg hmany]
    obtain ⟨ps₁, hopen, hok⟩ := Codec.except_bind_ok hok
    cases hplain : peek p.tail == byteOf '?' with
    | true =>
      rw [hplain] at hopen hok
      obtain rfl := Except.ok.inj hopen
      simp only [if_true]
      by_cases hdeep : reMaxDepth < depth + 1
      · rw [if_pos hdeep] at hok
        cases hok
      rw [if_neg hdeep] at hok
      simp only [if_neg hdeep]
      obtain ⟨ps₂, hbody, hok⟩ := Codec.except_bind_ok hok
      obtain ⟨t, hread, hadds⟩ := h _ _ hbody
      split_ifs at hok with hclose
      obtain rfl := Except.ok.inj hok
      refine ⟨.group none t, ?_, hadds.code, hadds.groups, hadds.proper⟩
      refine (congrArg (· >>= _) hread).trans ?_
      exact if_neg hclose
    | false =>
      rw [hplain] at hopen hok
      obtain rfl := reEmit_ok hopen
      simp only [Bool.false_eq_true, if_false]
      by_cases hdeep : reMaxDepth < depth + 1
      · rw [if_pos hdeep] at hok
        cases hok
      rw [if_neg hdeep] at hok
      simp only [if_neg hdeep]
      obtain ⟨ps₂, hbody, hok⟩ := Codec.except_bind_ok hok
      obtain ⟨t, hread, hadds⟩ := h _ _ hbody
      split_ifs at hok with hclose
      obtain rfl := reEmit_ok hok
      refine ⟨.group (some (groups + 1)) t, ?_, ?_, (Nat.le_succ _).trans hadds.groups, hadds.groups, hadds.proper⟩
      · refine (congrArg (· >>= _) hread).trans ?_
        exact if_neg hclose
      · show ps₂.code ++ _ = _
        rw [hadds.code]
        simp [Tree.code]
  · rw [if_neg hparen] at hok
    simp only [if_neg hparen]
    obtain ⟨⟨i, ranges', p'⟩, hone, hok⟩ := Codec.except_bind_ok hok
    obtain rfl := reEmit_ok hok
    refine ⟨.one i, ?_, rfl, le_rfl, readOne_alone hone⟩
    rw [hone]
    rfl

theorem piece_mirrors (h : Mirrors f g) : Mirrors (reParsePiece flags f) (treePiece flags g) := by
  intro ps ps' hok
  obtain ⟨ps₁, hatom, hok⟩ := Codec.except_bind_ok hok
  obtain ⟨t, hread, hadds⟩ := atom_mirrors h _ _ hatom
  have hp : ps₁.reading.p = ps₁.p := rfl
  unfold treePiece
  cases hcounts : readRepeat ps₁.p with
  | none =>
    rw [hcounts] at hok
    obtain rfl := Except.ok.inj hok
    simp only [hread, ok_bind, hp, hcounts]
    exact ⟨t, rfl, hadds⟩
  | some counts =>
    rw [hcounts] at hok
    obtain ⟨⟨n, m, lazy, p⟩, rfl, hok⟩ := Codec.except_bind_ok hok
    simp only [hread, ok_bind, hp, hcounts]
    have hcode : ({ ps₁ with p := p } : Parser).code = _ := hadds.code
    obtain rfl := reRepeat_ok hcode hok
    exact ⟨.rep n m lazy t, rfl, rfl, hadds.groups, hadds.proper⟩

theorem Adds.trans {ps₁ ps₂ ps₃ : Parser} {a b : Tree} (h : Adds ps₁ ps₂ a) (h' : Adds ps₂ ps₃ b) : Adds ps₁ ps₃ (.seq a b) where
  code := by rw [h'.code, h.code, List.append_assoc]; rfl
  groups := h.groups.trans h'.groups
  proper := ⟨h.proper.mono h'.groups, h'.proper⟩

theorem pieces_mirror (h : Mirrors f g) (turns : Nat) : Mirrors (pieces f turns) (treePieces g turns) := by
  have hend (ps : Parser) : Adds ps ps .empty := ⟨(List.append_nil _).symm, le_rfl, trivial⟩
  induction turns with
  | zero =>
    intro ps ps' hok
    rw [pieces] at hok
    rw [treePieces]
    split_ifs at hok with hends
    obtain rfl := Except.ok.inj hok
    exact ⟨.empty, if_pos hends, hend ps⟩
  | succ turns ih =>
    intro ps ps' hok
    rw [pieces] at hok
    rw [treePieces]
    by_cases hends : endsPieces ps.p
    · rw [if_pos hends] at hok
      obtain rfl := Except.ok.inj hok
      exact ⟨.empty, if_pos hends, hend ps⟩
    · rw [if_neg hends] at hok
      obtain ⟨ps₁, hpiece, hok⟩ := Codec.except_bind_ok hok
      obtain ⟨a, hreada, hadda⟩ := h _ _ hpiece
      obtain ⟨b, hreadb, haddb⟩ := ih _ _ hok
      refine ⟨.seq a b, ?_, hadda.trans haddb⟩
      rw [if_neg (show ¬ endsPieces ps.reading.p from hends), hreada]
      show (treePieces g turns ps₁.reading >>= _) = _
      rw [hreadb]
      rfl

theorem set_jump {pre b code : List Inst} (h : code = pre ++ [i] ++ b) :
    code.set pre.length (.opJmp (code.length - pre.length)) = pre ++ .opJmp (b.length + 1) :: b := by
  have hlength : (code.length : Int) - pre.length = b.length + 1 := by
    simp only [h, List.length_append, List.length_singleton]
    omega
  rw [hlength, h, List.append_assoc, List.set_append_right _ _ le_rfl, Nat.sub_self]
  rfl

theorem alternatives_mirror (turns : Nat) : Mirrors (reParseAlternatives flags turns) (treeAlternatives flags turns) := by
  induction turns with
  | zero =>
    intro ps ps' hok
    cases hok
  | succ turns ih =>
    intro ps ps' hok
    obtain ⟨ps₁, hpieces, hok⟩ := Codec.except_bind_ok hok
    obtain ⟨a, hreada, hadda⟩ := pieces_mirror (piece_mirrors ih) _ _ _ hpieces
    rw [treeAlternatives]
    show ∃ t, (treePieces (treePiece flags (treeAlternatives flags turns)) ps.p.length ps.reading >>= _) = _ ∧ _
    simp only [hreada, ok_bind]
    by_cases hbar : peek ps₁.p = byteOf '|'
    · rw [if_pos hbar] at hok
      simp only [if_pos (show peek ps₁.reading.p = byteOf '|' from hbar)]
      obtain ⟨ps₂, hinsert, hok⟩ := Codec.except_bind_ok hok
      have hcode : ({ ps₁ with p := ps₁.p.tail } : Parser).code = _ := hadda.code
      obtain rfl := reInsert_ok hcode hinsert
      obtain ⟨ps₃, hjump, hok⟩ := Codec.except_bind_ok hok
      obtain rfl := reEmit_ok hjump
      obtain ⟨ps₄, hrest, hok⟩ := Codec.except_bind_ok hok
      obtain ⟨b, hreadb, haddb⟩ := ih _ _ hrest
      obtain rfl := Except.ok.inj hok
      refine ⟨.alt a b, ?_, ?_, hadda.groups.trans haddb.groups, hadda.proper.mono haddb.groups, haddb.proper⟩
      · show (treeAlternatives flags turns ⟨ps₁.ranges, ps₁.groups, ps₁.depth, ps₁.p.tail⟩ >>= _) = _
        refine (congrArg (· >>= _) hreadb).trans ?_
        rfl
      · have hsize : ps₁.code.length - ps.code.length = a.code.length := by
          rw [hadda.code, List.length_append, Nat.add_sub_cancel_left]
        rw [hsize] at haddb ⊢
        exact (set_jump haddb.code).trans (List.append_assoc _ _ _)
    · rw [if_neg hbar] at hok
      simp only [if_neg (show ¬ peek ps₁.reading.p = byteOf '|' from hbar)]
      obtain rfl := Except.ok.inj hok
      exact ⟨a, rfl, hadda⟩

theorem ussrRegexCompile_tree {pattern flags : List UInt8} {re : UssrRegex} (h : ussrRegexCompile pattern flags = .ok re) :
    ∃ t, patternTree pattern flags = .ok t ∧ re.code = t.code ++ [.opMatch] ∧ t.Proper re.groups := by
  obtain ⟨fl, hflags, h⟩ := Codec.except_bind_ok h
  obtain ⟨ps, hread, h⟩ := Codec.except_bind_ok h
  obtain ⟨t, htree, hadds⟩ := alternatives_mirror _ _ _ hread
  split_ifs at h
  obtain ⟨ps', hemit, h⟩ := Codec.except_bind_ok h
  obtain rfl := reEmit_ok hemit
  obtain rfl := Except.ok.inj h
  refine ⟨t, ?_, congrArg (· ++ [Inst.opMatch]) hadds.code, hadds.proper⟩
  unfold patternTree
  rw [hflags]
  exact congrArg (· >>= fun r => .ok r.1) htree

end

end Ussr.Regex
