import Ussr.Program

/-! The program under construction. A step of the compiler that fails ends the
compilation, so it has no program to show for it. -/

namespace Ussr

/-- `bc_emit`; the new instruction is at the former end of the code. -/
def bcEmit (ins : Instruction) (p : Program) : Option Program :=
  if p.code.length ≥ bcMaxCode then none else some { p with code := p.code ++ [ins] }

/-- `bc_add_constant`; an index that is no positive `int` is a failure. -/
def bcAddConstant (v : Value) (p : Program) : Option (Nat × Program) :=
  if p.constants.length ≥ 2 ^ 31 then none
  else some (p.constants.length, { p with constants := p.constants ++ [v] })

def bcAddString (s : CString) (p : Program) : Option (Nat × Program) :=
  if p.strings.length ≥ 2 ^ 31 then none
  else some (p.strings.length, { p with strings := p.strings ++ [some s] })

def bcPatch (instruction target : Nat) (p : Program) : Option Program :=
  if instruction ≥ p.code.length ∨ target ≥ 2 ^ 32 then none
  else some { p with code := p.code.modify instruction fun ins =>
    { ins with immediate := UInt32.ofNat target } }

/-- `p` with more code and larger pools. -/
structure Program.Extends (p p' : Program) : Prop where
  code : p.code <+: p'.code
  constants : p.constants <+: p'.constants
  strings : p.strings <+: p'.strings

namespace Program.Extends

theorem refl (p : Program) : p.Extends p :=
  ⟨List.prefix_refl _, List.prefix_refl _, List.prefix_refl _⟩

theorem trans {p p' p'' : Program} (h : p.Extends p') (h' : p'.Extends p'') : p.Extends p'' :=
  ⟨h.code.trans h'.code, h.constants.trans h'.constants, h.strings.trans h'.strings⟩

theorem length_le {p p' : Program} (h : p.Extends p') : p.code.length ≤ p'.code.length :=
  h.code.length_le

theorem getElem? {p p' : Program} (h : p.Extends p') (hi : i < p.code.length) :
    p'.code[i]? = p.code[i]? := by
  obtain ⟨rest, hrest⟩ := h.code
  rw [← hrest, List.getElem?_append_left hi]

end Program.Extends

section

variable {p p' : Program}
variable {i target : Nat} {ins : Instruction}

theorem bcEmit_eq_some (h : bcEmit ins p = some p') :
    p' = { p with code := p.code ++ [ins] } := by
  unfold bcEmit at h
  split_ifs at h
  exact (Option.some.inj h).symm

theorem bcEmit_extends (h : bcEmit ins p = some p') : p.Extends p' := by
  rw [bcEmit_eq_some h]
  exact ⟨List.prefix_append _ _, List.prefix_refl _, List.prefix_refl _⟩

theorem bcAddConstant_eq_some {v : Value} (h : bcAddConstant v p = some (i, p')) :
    i < 2 ^ 31 ∧ i = p.constants.length ∧ p' = { p with constants := p.constants ++ [v] } := by
  unfold bcAddConstant at h
  split_ifs at h with hfull
  cases h
  exact ⟨Nat.lt_of_not_ge hfull, rfl, rfl⟩

theorem bcAddString_eq_some {s : CString} (h : bcAddString s p = some (i, p')) :
    i < 2 ^ 31 ∧ i = p.strings.length ∧ p' = { p with strings := p.strings ++ [some s] } := by
  unfold bcAddString at h
  split_ifs at h with hfull
  cases h
  exact ⟨Nat.lt_of_not_ge hfull, rfl, rfl⟩

theorem bcPatch_eq_some (h : bcPatch i target p = some p') :
    i < p.code.length ∧ target < 2 ^ 32 ∧ p' = { p with code := p.code.modify i fun ins =>
      { ins with immediate := UInt32.ofNat target } } := by
  unfold bcPatch at h
  split_ifs at h with hout
  cases h
  exact ⟨by omega, by omega, rfl⟩

theorem bcPatch_extends {p₃ : Program} (h : p.Extends p₃)
    (hpatch : bcPatch i target p₃ = some p') (hi : p.code.length ≤ i) : p.Extends p' := by
  obtain ⟨_, _, rfl⟩ := bcPatch_eq_some hpatch
  refine ⟨?_, h.constants, h.strings⟩
  rw [List.prefix_iff_getElem?]
  intro j hj
  rw [List.getElem?_modify_ne _ _ (by omega), h.getElem? hj]
  exact List.getElem?_eq_getElem hj

end

/-- `q` has the code that leads from `p` to `p'` in its place, the pools of `p'`, and an
instruction behind that code. -/
structure Program.Holds (q p p' : Program) : Prop where
  code : ∀ i, p.code.length ≤ i → i < p'.code.length → q.code[i]? = p'.code[i]?
  constants : p'.constants <+: q.constants
  strings : p'.strings <+: q.strings
  room : p'.code.length < q.code.length

namespace Program.Holds

variable {q p p₁ p₂ p' : Program}

theorem part (h : q.Holds p p') (hstart : p.Extends p₁) (hend : p₂.Extends p') :
    q.Holds p₁ p₂ where
  code i hlow hhigh := by
    have hfirst := hstart.length_le
    have hlast := hend.length_le
    rw [h.code i (by omega) (by omega), hend.getElem? hhigh]
  constants := hend.constants.trans h.constants
  strings := hend.strings.trans h.strings
  room := Nat.lt_of_le_of_lt hend.length_le h.room

theorem last (h : q.Holds p p') (hemit : bcEmit ins p₁ = some p') (hle : p.code.length ≤ p₁.code.length) :
    q.code[p₁.code.length]? = some ins := by
  have hp' := bcEmit_eq_some hemit
  rw [h.code _ hle (by simp [hp']), hp']
  simp

theorem unpatched (h : q.Holds p p') {p₃ : Program}
    (hpatch : bcPatch i target p₃ = some p') (hstart : p.Extends p₁) (hend : p₂.Extends p₃)
    (hout : ¬ (p₁.code.length ≤ i ∧ i < p₂.code.length)) : q.Holds p₁ p₂ := by
  obtain ⟨_, _, rfl⟩ := bcPatch_eq_some hpatch
  have hfirst := hstart.length_le
  have hlast := hend.length_le
  have hroom : p₃.code.length < q.code.length := by simpa using h.room
  refine ⟨fun j hlow hhigh => ?_, hend.constants.trans h.constants, hend.strings.trans h.strings,
    by omega⟩
  have hne : i ≠ j := by omega
  rw [h.code j (by omega) (by simp; omega), List.getElem?_modify_ne _ _ hne, hend.getElem? hhigh]

theorem patched (h : q.Holds p p') {p₃ : Program}
    (hpatch : bcPatch i target p₃ = some p') (hlow : p.code.length ≤ i)
    (hins : p₃.code[i]? = some ins) :
    q.code[i]? = some { ins with immediate := UInt32.ofNat target } := by
  obtain ⟨hlt, _, rfl⟩ := bcPatch_eq_some hpatch
  rw [h.code i hlow (by simpa using hlt), List.getElem?_modify_eq, hins]
  rfl

end Program.Holds

end Ussr
