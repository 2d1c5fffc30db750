import Ussr.Omsk.Entropy

/-! The blocks that Omsk's JPEG writer codes are the blocks that its reader decodes. -/

namespace Ussr.Omsk

open MsbBits

def stuff (data : List Nat) : List Nat := data.flatMap fun b => if b = 255 then [255, 0] else [b]

def codeText (codes : List Nat) (index s b : Nat) : List Bool :=
  bits (codes.getD index 0 &&& 31) (codes.getD index 0 >>> 5) ++ bits s b

/-- The bits of a value that has `s` of them. -/
def valueBits (s : Nat) (d : Int) : Nat := (if d < 0 then d + (1 <<< s : Nat) - 1 else d).toNat

def valueSize (d : Int) : Nat := omskNbits.getD d.natAbs 0

def valueText (codes : List Nat) (base : Nat) (d : Int) : List Bool :=
  codeText codes (base + valueSize d) (valueSize d) (valueBits (valueSize d) d)

def runText (eac : List Nat) (n : Nat) : List Bool := (List.replicate n (codeText eac 240 0 0)).flatten

def acText (eac : List Nat) : (qs : List Int) → (run : Nat) → List Bool
  | [], run => if 0 < run then codeText eac 0 0 0 else []
  | q :: qs, run =>
    if q = 0 then acText eac qs (run + 1)
    else runText eac (run / 16) ++ (valueText eac (run % 16 * 16) q ++ acText eac qs 0)

def blockText (edc eac : List Nat) (pred : Int) : (qs : List Int) → List Bool
  | [] => []
  | dc :: qs => valueText edc 0 (dc - pred) ++ acText eac qs 0

def mcuText : (tables : List (List Nat × List Nat)) → (preds : List Int) → (blocks : List (List Int)) → List Bool
  | (edc, eac) :: tables, pred :: preds, qs :: blocks => blockText edc eac pred qs ++ mcuText tables preds blocks
  | _, _, _ => []

def mcusText : (preds : List Int) → (mcus : List (List (List Int))) → List Bool
  | _, [] => []
  | preds, blocks :: mcus => mcuText encoderTables preds blocks ++ mcusText (lastDcs blocks) mcus

section

variable {front : List Nat} {st : Writer} {text : List Bool}

/-- What a writer has written behind `front`, with the bits that it keeps. -/
structure Writes (front : List Nat) (st : Writer) (text : List Bool) : Prop where
  cnt : st.cnt < 8
  acc : st.acc < 2 ^ st.cnt
  data : ∃ data, st.out = front ++ stuff data ∧ (∀ b ∈ data, b < 256) ∧ byteBits data ++ bits st.cnt st.acc = text

theorem stuff_append (xs ys : List Nat) : stuff (xs ++ ys) = stuff xs ++ stuff ys := List.flatMap_append

theorem pushByte_eq (out : List Nat) (ob : Nat) : pushByte out ob = out ++ stuff [ob] := by
  unfold pushByte stuff
  rw [List.flatMap_singleton]
  split
  next h => rw [h, List.append_assoc]; rfl
  next => rfl

theorem flush_spec (out : List Nat) (acc cnt : Nat) : ∃ data, (flush out acc cnt).1 = out ++ stuff data ∧ (∀ b ∈ data, b < 256) ∧
    (flush out acc cnt).2 < 8 ∧ byteBits data ++ bits (flush out acc cnt).2 acc = bits cnt acc := by
  induction out, cnt using flush.induct acc with
  | case1 out cnt hmore ih =>
    obtain ⟨data, hout, hbytes, hcnt, htext⟩ := ih
    rw [flush, if_pos hmore]
    have hbyte : (acc >>> (cnt - 8)) &&& 255 = (acc >>> (cnt - 8)) % 256 := Nat.and_two_pow_sub_one_eq_mod _ 8
    refine ⟨((acc >>> (cnt - 8)) &&& 255) :: data, ?_, List.forall_mem_cons.mpr ⟨?_, hbytes⟩, hcnt, ?_⟩
    · rw [hout, pushByte_eq, List.append_assoc, ← stuff_append, List.singleton_append]
    · rw [hbyte]
      exact Nat.mod_lt _ (by decide)
    · have hsplit : cnt = 8 + (cnt - 8) := by omega
      rw [byteBits_cons, List.append_assoc, htext, show (255 : Nat) = 2 ^ 8 - 1 from rfl, bits_mask (Nat.le_refl 8)]
      conv_rhs => rw [hsplit, bits_append]
  | case2 out cnt hfew =>
    rw [flush, if_neg hfew]
    exact ⟨[], (List.append_nil out).symm, fun b hb => absurd hb List.not_mem_nil, by dsimp only; omega, rfl⟩

theorem emit_spec (h : Writes front st text) {size value : Nat} (hvalue : value < 2 ^ size) (hsize : size ≤ 56) :
    ∃ st', emit size value st = .ok st' ∧ Writes front st' (text ++ bits size value) := by
  obtain ⟨data, hout, hbytes, htext⟩ := h.data
  have hcnt := h.cnt
  have hacc : st.acc <<< size ||| value < 2 ^ (st.cnt + size) := by
    refine Nat.or_lt_two_pow ?_ (hvalue.trans_le (Nat.pow_le_pow_right (by decide) (by omega)))
    rw [Nat.shiftLeft_eq, Nat.pow_add]
    exact Nat.mul_lt_mul_of_pos_right h.acc (Nat.two_pow_pos size)
  have hfits : st.acc <<< size ||| value < 2 ^ 63 := hacc.trans_le (Nat.pow_le_pow_right (by decide) (by omega))
  obtain ⟨more, hmore, hmorebytes, hfew, hmoretext⟩ := flush_spec st.out (st.acc <<< size ||| value) (st.cnt + size)
  unfold emit
  dsimp only
  rw [if_neg (Nat.not_le.mpr hfits), Nat.one_shiftLeft]
  refine ⟨_, rfl, hfew, ?_, data ++ more, ?_, ?_, ?_⟩
  · dsimp only
    rw [Nat.and_two_pow_sub_one_eq_mod]
    exact Nat.mod_lt _ (Nat.two_pow_pos _)
  · rw [hmore, hout, List.append_assoc, stuff_append]
  · intro b hb
    obtain hb | hb := List.mem_append.mp hb
    · exact hbytes b hb
    · exact hmorebytes b hb
  · dsimp only
    rw [byteBits_append, List.append_assoc, bits_mask (Nat.le_refl _), hmoretext, bits_or hvalue, ← List.append_assoc, htext]

def IsCode (codes : List Nat) (index : Nat) : Prop :=
  codes.getD index 0 ≠ 0 ∧ codes.getD index 0 >>> 5 < 2 ^ (codes.getD index 0 &&& 31)

instance decidableIsCode (codes : List Nat) (index : Nat) : Decidable (IsCode codes index) := inferInstanceAs (Decidable (_ ∧ _))

theorem emitCode_spec (h : Writes front st text) {codes : List Nat} {index s b : Nat} (hcode : IsCode codes index) (hb : b < 2 ^ s)
    (hs : s ≤ 15) : ∃ st', emitCode codes index s b st = .ok st' ∧ Writes front st' (text ++ codeText codes index s b) := by
  have hindex : codes[index]? = some (codes.getD index 0) := by
    rw [List.getD_eq_getElem?_getD]
    cases hget : codes[index]? with
    | none =>
      refine absurd ?_ hcode.1
      rw [List.getD_eq_getElem?_getD, hget]
      rfl
    | some e => rfl
  have hlen : codes.getD index 0 &&& 31 ≤ 31 := Nat.and_le_right
  have hvalue : (codes.getD index 0 >>> 5) <<< s ||| b < 2 ^ ((codes.getD index 0 &&& 31) + s) := by
    refine Nat.or_lt_two_pow ?_ (hb.trans_le (Nat.pow_le_pow_right (by decide) (by omega)))
    rw [Nat.shiftLeft_eq, Nat.pow_add]
    exact Nat.mul_lt_mul_of_pos_right hcode.2 (Nat.two_pow_pos s)
  obtain ⟨st', hemit, hwrites⟩ := emit_spec h hvalue (by omega)
  refine ⟨st', ?_, ?_⟩
  · rw [emitCode, checkedAt, hindex]
    exact (if_neg hcode.1).trans hemit
  · rwa [bits_or hb] at hwrites

theorem length_nbits (n : Nat) : ((List.range n).flatMap fun s => List.replicate (1 <<< s) (s + 1)).length + 1 = 2 ^ n := by
  induction n with
  | zero => rfl
  | succ n ih =>
    rw [List.range_succ, List.flatMap_append, List.flatMap_singleton, List.length_append, List.length_replicate, Nat.one_shiftLeft]
    omega

theorem get_nbits {n s m : Nat} (hs : s < n) (hlow : 2 ^ s ≤ m) (hhigh : m < 2 ^ (s + 1)) :
    ((List.range n).flatMap fun s => List.replicate (1 <<< s) (s + 1))[m - 1]? = some (s + 1) := by
  induction n with
  | zero => exact absurd hs (Nat.not_lt_zero s)
  | succ n ih =>
    have hlength := length_nbits n
    have hpos := Nat.two_pow_pos s
    rw [List.range_succ, List.flatMap_append, List.flatMap_singleton]
    obtain rfl | hne := eq_or_ne s n
    · rw [List.getElem?_append_right (by omega), List.getElem?_replicate_of_lt (by rw [Nat.one_shiftLeft]; omega)]
    · have hmore : 2 ^ (s + 1) ≤ 2 ^ n := Nat.pow_le_pow_right (by decide) (by omega)
      rw [List.getElem?_append_left (by omega)]
      exact ih (by omega)

theorem nbits_get {m : Nat} (hm : m < 1024) : ∃ s ≤ 10, omskNbits[m]? = some s ∧ m < 2 ^ s ∧ (s = 0 ∨ 2 ^ s ≤ 2 * m) := by
  obtain rfl | hne := eq_or_ne m 0
  · exact ⟨0, by decide, rfl, by decide, .inl rfl⟩
  · have hlow := Nat.log2_self_le hne
    have hhigh : m < 2 ^ (m.log2 + 1) := Nat.lt_log2_self
    have hlog : m.log2 < 10 := (Nat.pow_lt_pow_iff_right (by decide : 1 < 2)).mp (hlow.trans_lt hm)
    refine ⟨m.log2 + 1, hlog, ?_, hhigh, .inr ?_⟩
    · rw [omskNbits, List.getElem?_cons, if_neg hne]
      exact get_nbits (by omega) hlow hhigh
    · rw [Nat.pow_succ]
      omega

theorem valueSize_spec {d : Int} (hd : d.natAbs < 1024) : omskNbits[d.natAbs]? = some (valueSize d) ∧ valueSize d ≤ 10 ∧
    d.natAbs < 2 ^ valueSize d ∧ (valueSize d = 0 ∨ 2 ^ valueSize d ≤ 2 * d.natAbs) := by
  obtain ⟨s, hs, hget, hbounds⟩ := nbits_get hd
  have hsize : valueSize d = s := by
    rw [valueSize, List.getD_eq_getElem?_getD, hget]
    rfl
  rw [hsize]
  exact ⟨hget, hs, hbounds⟩

theorem valueBits_lt {s : Nat} {d : Int} (hd : d.natAbs < 2 ^ s) : valueBits s d < 2 ^ s := by
  unfold valueBits
  rw [Nat.one_shiftLeft]
  have hcast : ((2 ^ s : Nat) : Int) = (2 : Int) ^ s := by push_cast; rfl
  split <;> omega

theorem emitValue_spec (h : Writes front st text) {codes : List Nat} {base : Nat} {d : Int} (hd : d.natAbs < 1024)
    (hcode : IsCode codes (base + valueSize d)) :
    ∃ st', emitValue codes base d st = .ok st' ∧ Writes front st' (text ++ valueText codes base d) := by
  obtain ⟨hget, hsize, hlt, _⟩ := valueSize_spec hd
  obtain ⟨st', hemit, hwrites⟩ := emitCode_spec h hcode (valueBits_lt hlt) (by omega)
  refine ⟨st', ?_, hwrites⟩
  rw [emitValue, checkedAt, hget]
  exact hemit

structure HasCodes (edc eac : List Nat) : Prop where
  dc : ∀ s ≤ 10, IsCode edc s
  ac : ∀ run < 16, ∀ s ≤ 10, s ≠ 0 → IsCode eac (run * 16 + s)
  zeros : IsCode eac 240
  eob : IsCode eac 0

theorem valueSize_ne {d : Int} (hd : d.natAbs < 1024) (hne : d ≠ 0) : valueSize d ≠ 0 := by
  obtain ⟨_, _, hlt, _⟩ := valueSize_spec hd
  intro hzero
  rw [hzero] at hlt
  omega

theorem emitRuns_spec {eac : List Nat} (hzeros : IsCode eac 240) (run : Nat) {st : Writer} {text : List Bool} (h : Writes front st text) :
    ∃ st', emitRuns eac run st = .ok (run % 16, st') ∧ Writes front st' (text ++ runText eac (run / 16)) := by
  induction run using Nat.strongRecOn generalizing st text with
  | ind run ih =>
    rw [emitRuns]
    by_cases hmore : 15 < run
    · obtain ⟨st₁, hcode, hwrites⟩ := emitCode_spec h hzeros (Nat.two_pow_pos 0) (by decide)
      obtain ⟨st', hruns, hwrites'⟩ := ih (run - 16) (by omega) hwrites
      have hmod : (run - 16) % 16 = run % 16 := by omega
      have hdiv : run / 16 = (run - 16) / 16 + 1 := by omega
      rw [if_pos hmore, hcode]
      refine ⟨st', ?_, ?_⟩
      · rw [← hmod]
        exact hruns
      · rw [hdiv, runText, List.replicate_succ, List.flatten_cons, ← List.append_assoc]
        exact hwrites'
    · rw [if_neg hmore]
      refine ⟨st, ?_, ?_⟩
      · rw [Nat.mod_eq_of_lt (by omega)]
      · rw [Nat.div_eq_of_lt (by omega), runText, List.replicate_zero, List.flatten_nil, List.append_nil]
        exact h

theorem emitAc_spec {edc eac : List Nat} (hcodes : HasCodes edc eac) {qs : List Int} (hqs : ∀ q ∈ qs, q.natAbs < 1024) (run : Nat)
    {st : Writer} {text : List Bool} (h : Writes front st text) :
    ∃ st', emitAc eac qs run st = .ok st' ∧ Writes front st' (text ++ acText eac qs run) := by
  induction qs generalizing run st text with
  | nil =>
    rw [emitAc, acText]
    by_cases hrun : 0 < run
    · rw [if_pos hrun, if_pos hrun]
      exact emitCode_spec h hcodes.eob (Nat.two_pow_pos 0) (by decide)
    · rw [if_neg hrun, if_neg hrun, List.append_nil]
      exact ⟨st, rfl, h⟩
  | cons q qs ih =>
    obtain ⟨hq, hqs⟩ := List.forall_mem_cons.mp hqs
    rw [emitAc, acText]
    by_cases hzero : q = 0
    · rw [if_pos hzero, if_pos hzero]
      exact ih hqs (run + 1) h
    · obtain ⟨_, hsize, _⟩ := valueSize_spec hq
      obtain ⟨st₁, hruns, h₁⟩ := emitRuns_spec hcodes.zeros run h
      obtain ⟨st₂, hvalue, h₂⟩ := emitValue_spec h₁ hq
        (hcodes.ac (run % 16) (Nat.mod_lt _ (by decide)) _ hsize (valueSize_ne hq hzero))
      obtain ⟨st₃, hrest, h₃⟩ := ih hqs 0 h₂
      rw [if_neg hzero, if_neg hzero, hruns]
      refine ⟨st₃, ?_, ?_⟩
      · change (emitValue eac (run % 16 * 16) q st₁).bind _ = _
        rw [hvalue]
        exact hrest
      · rwa [List.append_assoc, List.append_assoc] at h₃

structure Codable (qs : List Int) : Prop where
  length : qs.length = 64
  small : ∀ q ∈ qs, q.natAbs < 512

theorem emitBlock_spec {edc eac : List Nat} (hcodes : HasCodes edc eac) {qs : List Int} (hqs : Codable qs) {pred : Int}
    (hpred : pred.natAbs < 512) (h : Writes front st text) :
    ∃ st', emitBlock edc eac pred qs st = .ok st' ∧ Writes front st' (text ++ blockText edc eac pred qs) := by
  obtain _ | ⟨dc, qs⟩ := qs
  · exact ⟨st, rfl, by rwa [blockText, List.append_nil]⟩
  · obtain ⟨hdc, hac⟩ := List.forall_mem_cons.mp hqs.small
    have hdiff : (dc - pred).natAbs < 1024 := by omega
    obtain ⟨_, hsize, _⟩ := valueSize_spec hdiff
    have hcode : IsCode edc (0 + valueSize (dc - pred)) := by
      rw [Nat.zero_add]
      exact hcodes.dc _ hsize
    obtain ⟨st₁, hvalue, h₁⟩ := @emitValue_spec _ _ _ h edc 0 _ hdiff hcode
    obtain ⟨st₂, hrest, h₂⟩ := emitAc_spec hcodes (fun q hq => (hac q hq).trans (by decide)) 0 h₁
    refine ⟨st₂, ?_, ?_⟩
    · rw [emitBlock, hvalue]
      exact hrest
    · rwa [List.append_assoc] at h₂

theorem emitMcu_spec {tables : List (List Nat × List Nat)} (htables : ∀ t ∈ tables, HasCodes t.1 t.2) {preds : List Int}
    (hpreds : ∀ p ∈ preds, p.natAbs < 512) {blocks : List (List Int)} (hblocks : ∀ qs ∈ blocks, Codable qs)
    (h : Writes front st text) :
    ∃ st', emitMcu tables preds blocks st = .ok st' ∧ Writes front st' (text ++ mcuText tables preds blocks) := by
  induction tables generalizing preds blocks st text with
  | nil => exact ⟨st, rfl, (List.append_nil text).symm ▸ h⟩
  | cons t tables ih =>
    obtain ⟨edc, eac⟩ := t
    obtain ⟨hcodes, htables⟩ := List.forall_mem_cons.mp htables
    obtain _ | ⟨pred, preds⟩ := preds
    · exact ⟨st, rfl, (List.append_nil text).symm ▸ h⟩
    · obtain _ | ⟨qs, blocks⟩ := blocks
      · exact ⟨st, rfl, (List.append_nil text).symm ▸ h⟩
      · obtain ⟨hpred, hpreds⟩ := List.forall_mem_cons.mp hpreds
        obtain ⟨hqs, hblocks⟩ := List.forall_mem_cons.mp hblocks
        obtain ⟨st₁, hblock, h₁⟩ := emitBlock_spec hcodes hqs hpred h
        obtain ⟨st₂, hrest, h₂⟩ := ih htables hpreds hblocks h₁
        refine ⟨st₂, ?_, ?_⟩
        · rw [emitMcu, hblock]
          exact hrest
        · rwa [List.append_assoc] at h₂

theorem lastDcs_small {blocks : List (List Int)} (hblocks : ∀ qs ∈ blocks, Codable qs) : ∀ p ∈ lastDcs blocks, p.natAbs < 512 := by
  intro p hp
  obtain ⟨qs, hqs, rfl⟩ := List.mem_map.mp hp
  obtain _ | ⟨dc, rest⟩ := qs
  · decide
  · exact (hblocks _ hqs).small dc List.mem_cons_self

theorem lum_codes : HasCodes omskEdcl omskEacl := ⟨by decide +kernel, by decide +kernel, by decide +kernel, by decide +kernel⟩

theorem chr_codes : HasCodes omskEdcc omskEacc := ⟨by decide +kernel, by decide +kernel, by decide +kernel, by decide +kernel⟩

theorem encoderTables_codes : ∀ t ∈ encoderTables, HasCodes t.1 t.2 :=
  List.forall_mem_cons.mpr ⟨lum_codes, List.forall_mem_cons.mpr ⟨chr_codes, List.forall_mem_singleton.mpr chr_codes⟩⟩

theorem emitMcus_spec {mcus : List (List (List Int))} (hmcus : ∀ blocks ∈ mcus, ∀ qs ∈ blocks, Codable qs) {preds : List Int}
    (hpreds : ∀ p ∈ preds, p.natAbs < 512) (h : Writes front st text) :
    ∃ st', emitMcus preds mcus st = .ok st' ∧ Writes front st' (text ++ mcusText preds mcus) := by
  induction mcus generalizing preds st text with
  | nil => exact ⟨st, rfl, by rwa [mcusText, List.append_nil]⟩
  | cons blocks mcus ih =>
    obtain ⟨hblocks, hmcus⟩ := List.forall_mem_cons.mp hmcus
    obtain ⟨st₁, hmcu, h₁⟩ := emitMcu_spec encoderTables_codes hpreds hblocks h
    obtain ⟨st₂, hrest, h₂⟩ := ih hmcus (lastDcs_small hblocks) h₁
    refine ⟨st₂, ?_, ?_⟩
    · rw [emitMcus, hmcu]
      exact hrest
    · rwa [List.append_assoc] at h₂

theorem finish_spec (h : Writes front st text) : ∃ data pad, finish st = front ++ stuff data ∧ (∀ b ∈ data, b < 256) ∧
    pad < 8 ∧ byteBits data = text ++ List.replicate pad true := by
  obtain ⟨data, hout, hbytes, htext⟩ := h.data
  have hcnt := h.cnt
  unfold finish
  by_cases hsome : 0 < st.cnt
  · rw [if_pos hsome]
    dsimp only
    have hones : 2 ^ (8 - st.cnt) - 1 < 2 ^ (8 - st.cnt) := Nat.sub_lt (Nat.two_pow_pos _) Nat.one_pos
    have hbits := @bits_or st.cnt (8 - st.cnt) st.acc _ hones
    rw [Nat.add_sub_cancel' hcnt.le, bits_ones] at hbits
    refine ⟨data ++ [(st.acc <<< (8 - st.cnt) ||| (1 <<< (8 - st.cnt)) - 1) &&& 255], 8 - st.cnt, ?_, ?_, by omega, ?_⟩
    · rw [pushByte_eq, hout, stuff_append, List.append_assoc]
    · intro b hb
      obtain hb | hb := List.mem_append.mp hb
      · exact hbytes b hb
      · rw [List.mem_singleton.mp hb]
        exact Nat.lt_of_le_of_lt Nat.and_le_right (by decide)
    · rw [byteBits_append, byteBits_cons, show (255 : Nat) = 2 ^ 8 - 1 from rfl, bits_mask (Nat.le_refl 8), Nat.one_shiftLeft, hbits,
        ← List.append_assoc, ← List.append_assoc, htext]
      exact List.append_nil _
  · rw [if_neg hsome]
    have hzero : st.cnt = 0 := by omega
    rw [hzero] at htext
    refine ⟨data, 0, hout, hbytes, by decide, ?_⟩
    rw [← htext, List.append_assoc]
    exact (List.append_nil _).symm

end

section

variable {v : List UInt8} {s : BitState} {text : List Bool} {k c n : Nat}

/-- What a state of the scan has in front of it: `text`, and zeros behind the end of the image data. -/
structure Ahead (v : List UInt8) (s : BitState) (text : List Bool) : Prop where
  data : ∃ data n, (∀ b ∈ data, b < 256) ∧ v.drop s.p = (stuff data ++ [255, 217]).map UInt8.ofNat ∧
    bits s.bc s.bb ++ byteBits data = text ++ List.replicate n false ∧ (s.marker = true → data = [])

theorem byteAt_drop {p i : Nat} {w : List UInt8} (h : v.drop p = w) : byteAt v (p + i) = byteAt w i := by
  rw [byteAt, byteAt, itemAt, itemAt, ← h, List.getElem?_drop]

theorem bits_feed (hbc : s.bc ≤ 32) {x : Nat} (hx : x < 256) : bits (s.feed x).bc (s.feed x).bb = bits s.bc s.bb ++ bits 8 x := by
  have hbyte : x < 2 ^ 8 := hx
  change bits (s.bc + 8) ((s.bb &&& 4294967295) <<< 8 ||| x) = _
  rw [bits_or hbyte, show (4294967295 : Nat) = 2 ^ 32 - 1 from rfl, bits_mask hbc]

theorem fillTurn_spec (h : Ahead v s text) (hbc : s.bc ≤ 32) :
    ∃ s', fillTurn v s = .ok s' ∧ Ahead v s' text ∧ s'.bc = s.bc + 8 := by
  obtain ⟨data, n, hbytes, hdrop, htext, hmarker⟩ := h.data
  have hlen : s.p < v.length := by
    by_contra hend
    rw [List.drop_eq_nil_of_le (Nat.not_lt.mp hend)] at hdrop
    exact absurd (congrArg List.length hdrop) (by simp)
  -- a byte that is no data
  have hzeros (hnil : data = []) : bits (s.feed 0).bc (s.feed 0).bb ++ byteBits data = text ++ List.replicate (n + 8) false := by
    rw [bits_feed hbc (by decide), hnil, bits_zero, List.replicate_add, ← List.append_assoc, ← htext, hnil]
    simp only [byteBits, List.flatMap_nil, List.append_nil]
  unfold fillTurn
  cases hm : s.marker with
  | true =>
    rw [if_neg (by simp)]
    exact ⟨s.feed 0, rfl, ⟨data, n + 8, hbytes, hdrop, hzeros (hmarker hm), hmarker⟩, rfl⟩
  | false =>
    rw [if_pos ⟨rfl, hlen⟩]
    have hfirst := @byteAt_drop v s.p 0 _ hdrop
    have hsecond := @byteAt_drop v s.p 1 _ hdrop
    rw [Nat.add_zero] at hfirst
    obtain _ | ⟨b, data⟩ := data
    · -- the end of the image data
      refine ⟨{ s.feed 0 with marker := true }, ?_, ⟨[], n + 8, hbytes, hdrop, hzeros rfl, fun _ => rfl⟩, rfl⟩
      rw [hfirst, hsecond]
      rfl
    · obtain ⟨hb, hbytes⟩ := List.forall_mem_cons.mp hbytes
      have hstuff : stuff (b :: data) = (if b = 255 then [255, 0] else [b]) ++ stuff data := List.flatMap_cons
      have hval : (UInt8.ofNat b).toNat = b := by
        rw [UInt8.toNat_ofNat']
        exact Nat.mod_eq_of_lt hb
      have hmore : bits (s.feed b).bc (s.feed b).bb ++ byteBits data = text ++ List.replicate n false := by
        rw [bits_feed hbc hb, List.append_assoc, ← byteBits_cons, htext]
      by_cases h255 : b = 255
      · rw [hstuff, if_pos h255] at hdrop hfirst hsecond
        refine ⟨{ s.feed b with p := s.p + 2 }, ?_, ⟨data, n, hbytes, ?_, hmore, ?_⟩, rfl⟩
        · rw [hfirst, hsecond, h255]
          rfl
        · rw [← List.drop_drop, hdrop]
          rfl
        · intro hmark
          rw [show ({ s.feed b with p := s.p + 2 } : BitState).marker = s.marker from rfl, hm] at hmark
          cases hmark
      · rw [hstuff, if_neg h255] at hdrop hfirst
        refine ⟨{ s.feed b with p := s.p + 1 }, ?_, ⟨data, n, hbytes, ?_, hmore, ?_⟩, rfl⟩
        · rw [hfirst]
          change (if (UInt8.ofNat b).toNat = 255 then _ else pure { s.feed (UInt8.ofNat b).toNat with p := s.p + 1 }) = _
          rw [hval, if_neg h255]
          rfl
        · rw [← List.drop_drop, hdrop]
          rfl
        · intro hmark
          rw [show ({ s.feed b with p := s.p + 1 } : BitState).marker = s.marker from rfl, hm] at hmark
          cases hmark

theorem fill_spec (turns : Nat) (h : Ahead v s text) (hturns : 33 ≤ s.bc + 8 * turns) :
    ∃ s', fill v turns s = .ok s' ∧ Ahead v s' text ∧ 33 ≤ s'.bc := by
  induction turns generalizing s with
  | zero => exact ⟨s, rfl, h, hturns⟩
  | succ turns ih =>
    rw [fill]
    by_cases hbc : s.bc ≤ 32
    · obtain ⟨s₁, hturn, h₁, hbc₁⟩ := fillTurn_spec h hbc
      obtain ⟨s', hfill, h', hbc'⟩ := ih h₁ (by omega)
      rw [if_pos hbc, hturn]
      exact ⟨s', hfill, h', hbc'⟩
    · rw [if_neg hbc]
      exact ⟨s, rfl, h, by omega⟩

theorem Ahead.split (h : Ahead v s (bits k c ++ text)) (hk : k ≤ s.bc) :
    (∃ rest, bits s.bc s.bb = bits k c ++ rest) ∧ Ahead v { s with bc := s.bc - k } text := by
  obtain ⟨data, n, hbytes, hdrop, htext, hmarker⟩ := h.data
  rw [List.append_assoc] at htext
  have hsplit : bits s.bc s.bb = bits k c ++ bits (s.bc - k) s.bb := by
    have hown : bits s.bc s.bb = bits k (s.bb >>> (s.bc - k)) ++ bits (s.bc - k) s.bb := by
      rw [← bits_append, Nat.add_sub_cancel' hk]
    rw [hown, List.append_assoc] at htext
    rw [hown, (List.append_inj htext (by rw [length_bits, length_bits])).1]
  refine ⟨⟨_, hsplit⟩, data, n, hbytes, hdrop, ?_, hmarker⟩
  rw [hsplit, List.append_assoc] at htext
  exact (List.append_inj htext rfl).2

/-- The value in `n` bits. -/
def extend (n b : Nat) : Int := if b < 1 <<< (n - 1) then (b : Int) - (1 <<< n : Nat) + 1 else b

theorem readValue_spec (hn : n ≤ s.bc) {b : Nat} (hb : b < 2 ^ n) (h : Ahead v s (bits n b ++ text)) :
    ∃ s', readValue n s = (extend n b, s') ∧ Ahead v s' text ∧ s'.bc = s.bc - n := by
  obtain ⟨⟨rest, hrest⟩, hbehind⟩ := h.split hn
  refine ⟨{ s with bc := s.bc - n }, ?_, hbehind, rfl⟩
  unfold readValue extend
  rw [Nat.one_shiftLeft n, bits_field hn hb hrest]

theorem extend_valueBits {d : Int} (hd : d.natAbs < 1024) : valueSize d ≠ 0 → extend (valueSize d) (valueBits (valueSize d) d) = d := by
  intro hne
  obtain ⟨_, _, hlt, hsize⟩ := valueSize_spec hd
  have hlow := hsize.resolve_left hne
  obtain ⟨m, hm⟩ := Nat.exists_eq_succ_of_ne_zero hne
  unfold extend valueBits
  rw [hm] at hlt hlow ⊢
  rw [Nat.one_shiftLeft, Nat.one_shiftLeft, Nat.succ_sub_one]
  rw [Nat.pow_succ] at hlt hlow ⊢
  split <;> split <;> omega

end

section

variable {v : List UInt8} {s : BitState} {text : List Bool} {k c sym : Nat} {t : Huffman}

/-- The codes of length `l` do not have `x` among them. -/
def Passes (t : Huffman) (l x : Nat) : Prop := ¬(t.first.getD l 0 ≤ x ∧ x - t.first.getD l 0 < t.cnt.getD l 0)

/-- A table reads `sym` where the `k` bits of `c` come next. -/
def Decodes (t : Huffman) (c k sym : Nat) : Prop :=
  0 < k ∧ k ≤ 16 ∧ c < 2 ^ k ∧
    if k ≤ 10 then ∀ x < 2 ^ (10 - k), t.tab[c <<< (10 - k) + x]? = some (sym * 32 + k)
    else t.tab[c >>> (k - 10)]? = some 0 ∧ (∀ l < k, 11 ≤ l → Passes t l (c >>> (k - l))) ∧ ¬Passes t k c ∧
      t.sorted[t.offs.getD k 0 + (c - t.first.getD k 0)]? = some sym

/-- Lists by length, as `omsk_huff_build` makes them. -/
structure Whole (t : Huffman) : Prop where
  first : 17 ≤ t.first.length
  offs : 17 ≤ t.offs.length
  cnt : 17 ≤ t.cnt.length

theorem itemAt_getD {xs : List Nat} {i : Nat} (hi : i < xs.length) : itemAt xs i = .ok (xs.getD i 0) := by
  rw [itemAt, List.getD_eq_getElem?_getD, List.getElem?_eq_getElem hi]
  rfl

theorem itemAt_some {α : Type} {xs : List α} {i : Nat} {x : α} (h : xs[i]? = some x) : itemAt xs i = .ok x := by
  rw [itemAt, h]
  rfl

theorem shift_bit {w l : Nat} (hl : l < k) (hw : w &&& (2 ^ (l + 1) - 1) = c >>> (k - (l + 1))) :
    (c >>> (k - l)) <<< 1 ||| (w &&& 1) = c >>> (k - (l + 1)) := by
  have hone : w &&& 1 < 2 ^ 1 := Nat.lt_of_le_of_lt Nat.and_le_right (by decide)
  have hlast : w &&& 1 = (c >>> (k - (l + 1))) % 2 := by
    rw [← hw, Nat.and_two_pow_sub_one_eq_mod, Nat.pow_succ, Nat.mod_mul_left_mod]
    exact Nat.and_two_pow_sub_one_eq_mod w 1
  have hsplit : k - l = k - (l + 1) + 1 := by omega
  rw [← Nat.shiftLeft_add_eq_or_of_lt hone, hlast, hsplit, Nat.shiftRight_add, Nat.shiftLeft_eq, Nat.shiftRight_one]
  omega

theorem longCode_spec (ht : Whole t) {bc : Nat} {rest : List Bool} (hk : k ≤ 16) (hc : c < 2 ^ k) (hbc : 16 ≤ bc)
    (hbits : bits bc s.bb = bits k c ++ rest) (hpasses : ∀ l < k, 11 ≤ l → Passes t l (c >>> (k - l))) (hhas : ¬Passes t k c)
    (hsym : t.sorted[t.offs.getD k 0 + (c - t.first.getD k 0)]? = some sym) (more l : Nat) (hl : 10 ≤ l) (hmore : l + 1 + more = k)
    (hs : s.bc = bc - l) {turns : Nat} (hturns : more < turns) :
    longCode t turns (l + 1) (c >>> (k - l)) s = .ok (sym, { s with bc := bc - k }) := by
  induction more generalizing l s turns with
  | zero =>
    obtain ⟨turns, rfl⟩ : ∃ m, turns = m + 1 := ⟨turns - 1, by omega⟩
    have hlk : l + 1 = k := hmore
    have hbit := shift_bit (by omega : l < k) (bits_front (Nat.le_of_eq hlk) (by omega) hc hbits)
    rw [longCode, itemAt_getD (by have h := ht.first; omega), itemAt_getD (by have h := ht.cnt; omega), hs,
      show bc - l - 1 = bc - (l + 1) by omega, hbit, hlk, Nat.sub_self, Nat.shiftRight_zero]
    change (if _ then _ else _) = _
    rw [if_pos (not_not.mp hhas), itemAt_getD (by have h := ht.offs; omega)]
    change (itemAt t.sorted _).bind _ = _
    rw [itemAt_some hsym]
    rfl
  | succ more ih =>
    obtain ⟨turns, rfl⟩ : ∃ m, turns = m + 1 := ⟨turns - 1, by omega⟩
    have hbit := shift_bit (by omega : l < k) (bits_front (by omega : l + 1 ≤ k) (by omega) hc hbits)
    have hpass := hpasses (l + 1) (by omega) (by omega)
    have hrest := @ih { s with bc := bc - (l + 1) } hbits (l + 1) (by omega) (by omega) rfl turns (by omega)
    rw [longCode, itemAt_getD (by have h := ht.first; omega), itemAt_getD (by have h := ht.cnt; omega), hs,
      show bc - l - 1 = bc - (l + 1) by omega, hbit]
    exact (if_neg hpass).trans hrest

theorem readSymbol_spec (ht : Whole t) (hcode : Decodes t c k sym) (hbc : 33 ≤ s.bc) (h : Ahead v s (bits k c ++ text)) :
    ∃ s', readSymbol t s = .ok (sym, s') ∧ Ahead v s' text ∧ s'.bc = s.bc - k := by
  obtain ⟨hpos, hk, hc, hcode⟩ := hcode
  obtain ⟨⟨rest, hrest⟩, hbehind⟩ := h.split (by omega : k ≤ s.bc)
  refine ⟨{ s with bc := s.bc - k }, ?_, hbehind, rfl⟩
  unfold readSymbol
  by_cases hshort : k ≤ 10
  · rw [if_pos hshort] at hcode
    obtain ⟨x, hx, hwindow⟩ := bits_window hshort (by omega) hc hrest
    have hkeep : (sym * 32 + k) &&& 31 = k := by
      rw [show (31 : Nat) = 2 ^ 5 - 1 from rfl, Nat.and_two_pow_sub_one_eq_mod]
      omega
    have hfirst : (sym * 32 + k) >>> 5 = sym := by
      rw [Nat.shiftRight_eq_div_pow]
      omega
    rw [show (1023 : Nat) = 2 ^ 10 - 1 from rfl, hwindow, itemAt_some (hcode x hx)]
    change (if 0 < sym * 32 + k then _ else _) = _
    rw [if_pos (by omega), hkeep, hfirst]
    rfl
  · rw [if_neg hshort] at hcode
    obtain ⟨hzero, hpasses, hhas, hsym⟩ := hcode
    have hfront := bits_front (by omega : 10 ≤ k) (by omega) hc hrest
    rw [show (1023 : Nat) = 2 ^ 10 - 1 from rfl, hfront, itemAt_some hzero]
    exact @longCode_spec { s with bc := s.bc - 10 } k c sym t ht s.bc rest hk hc (by omega) hrest hpasses hhas hsym (k - 11) 10
      (Nat.le_refl 10) (by omega) rfl 6 (by omega)

end

section

variable {v : List UInt8} {s : BitState} {text : List Bool} {edc eac : List Nat} {dct act : Huffman} {q : List Nat} {cn kmax : Nat}

def ReadsCode (t : Huffman) (codes : List Nat) (index : Nat) : Prop :=
  Decodes t (codes.getD index 0 >>> 5) (codes.getD index 0 &&& 31) index

structure Agrees (edc eac : List Nat) (dct act : Huffman) : Prop where
  wholeDc : Whole dct
  wholeAc : Whole act
  dc : ∀ s ≤ 10, ReadsCode dct edc s
  ac : ∀ run < 16, ∀ s ≤ 10, s ≠ 0 → ReadsCode act eac (run * 16 + s)
  zeros : ReadsCode act eac 240
  eob : ReadsCode act eac 0

theorem readCode_spec {t : Huffman} {codes : List Nat} {index n b : Nat} (ht : Whole t) (hcode : ReadsCode t codes index)
    (h : Ahead v s (codeText codes index n b ++ text)) : ∃ s₁ s₂, fill v 5 s = .ok s₁ ∧ readSymbol t s₁ = .ok (index, s₂) ∧
      Ahead v s₂ (bits n b ++ text) ∧ 17 ≤ s₂.bc := by
  obtain ⟨s₁, hfill, h₁, hbc₁⟩ := fill_spec 5 h (by omega)
  rw [codeText, List.append_assoc] at h₁
  obtain ⟨s₂, hread, h₂, hbc₂⟩ := readSymbol_spec ht hcode hbc₁ h₁
  have hlen := hcode.2.1
  exact ⟨s₁, s₂, hfill, hread, h₂, by omega⟩

theorem readCoded_spec {t : Huffman} {codes : List Nat} {base : Nat} {d : Int} (ht : Whole t) (hd : d.natAbs < 1024) (hne : valueSize d ≠ 0)
    (hcode : ReadsCode t codes (base + valueSize d)) (h : Ahead v s (valueText codes base d ++ text)) :
    ∃ s₁ s₂ s₃, fill v 5 s = .ok s₁ ∧ readSymbol t s₁ = .ok (base + valueSize d, s₂) ∧ readValue (valueSize d) s₂ = (d, s₃) ∧
      Ahead v s₃ text := by
  obtain ⟨_, hsize, hlt, _⟩ := valueSize_spec hd
  obtain ⟨s₁, s₂, hfill, hread, h₂, hbc₂⟩ := readCode_spec ht hcode h
  obtain ⟨s₃, hvalue, h₃, _⟩ := readValue_spec (by omega) (valueBits_lt hlt) h₂
  rw [extend_valueBits hd hne] at hvalue
  exact ⟨s₁, s₂, s₃, hfill, hread, hvalue, h₃⟩

def scaled (q : List Nat) (all : List Int) (k : Nat) : Int := all.getD k 0 * q.getD k 0

/-- `blk` has the coefficients below `kk` that the scale needs. -/
structure Holds (q : List Nat) (all : List Int) (kmax kk : Nat) (blk : List Int) : Prop where
  short : blk.length ≤ kk
  needed : blk.length ≤ kmax + 1
  get : ∀ i < kk, i ≤ kmax → blk.getD i 0 = scaled q all i

theorem padTo_getD (n : Nat) (blk : List Int) (i : Nat) : (padTo n blk).getD i 0 = blk.getD i 0 := by
  rw [padTo, List.getD_eq_getElem?_getD, List.getD_eq_getElem?_getD]
  by_cases hi : i < blk.length
  · rw [List.getElem?_append_left hi]
  · rw [List.getElem?_append_right (Nat.not_lt.mp hi), List.getElem?_replicate, List.getElem?_eq_none (Nat.not_lt.mp hi)]
    split <;> rfl

theorem Holds.skip {all : List Int} {kk run : Nat} {blk : List Int} (h : Holds q all kmax kk blk)
    (hzeros : ∀ i, kk ≤ i → i < kk + run → all.getD i 0 = 0) : Holds q all kmax (kk + run) blk := by
  refine ⟨h.short.trans (Nat.le_add_right kk run), h.needed, fun i hi hmax => ?_⟩
  by_cases hlow : i < kk
  · exact h.get i hlow hmax
  · have hshort := h.short
    rw [scaled, hzeros i (by omega) hi, zero_mul, List.getD_eq_getElem?_getD, List.getElem?_eq_none (by omega)]
    rfl

theorem pushCoefficient_spec {all : List Int} {kk : Nat} {blk : List Int} (hq : kk < q.length)
    (h : 1 < cn → Holds q all kmax kk blk) {val : Int} (hval : all.getD kk 0 = val) :
    ∃ blk', pushCoefficient q cn kmax kk val blk = .ok blk' ∧ (1 < cn → Holds q all kmax (kk + 1) blk') := by
  unfold pushCoefficient
  by_cases hneeded : kk ≤ kmax ∧ 1 < cn
  · rw [if_pos hneeded, itemAt_getD hq]
    have hholds := h hneeded.2
    have hshort := hholds.short
    have hlen : (padTo kk blk).length = kk := by
      rw [padTo, List.length_append, List.length_replicate]
      omega
    refine ⟨padTo kk blk ++ [val * q.getD kk 0], rfl, fun _ => ⟨?_, ?_, fun i hi hmax => ?_⟩⟩
    · rw [List.length_append, hlen]
      rfl
    · rw [List.length_append, hlen]
      exact Nat.succ_le_succ hneeded.1
    · rw [List.getD_eq_getElem?_getD]
      obtain hlow | rfl := Nat.lt_succ_iff_lt_or_eq.mp hi
      · rw [List.getElem?_append_left (by omega), ← List.getD_eq_getElem?_getD, padTo_getD]
        exact hholds.get i hlow hmax
      · rw [List.getElem?_append_right (by omega), hlen, Nat.sub_self, scaled, hval]
        rfl
  · rw [if_neg hneeded]
    refine ⟨blk, rfl, fun hcn => ?_⟩
    have hholds := h hcn
    refine ⟨hholds.short.trans (Nat.le_succ kk), hholds.needed, fun i hi hmax => ?_⟩
    obtain hlow | rfl := Nat.lt_succ_iff_lt_or_eq.mp hi
    · exact hholds.get i hlow hmax
    · exact absurd ⟨hmax, hcn⟩ hneeded

theorem readRuns_spec (hagrees : Agrees edc eac dct act) (m turns kk : Nat) (blk : List Int) (hkk : kk + 16 * m < 64)
    (h : Ahead v s (runText eac m ++ text)) :
    ∃ s', Ahead v s' text ∧ readAc v act q cn kmax (turns + m) kk blk s = readAc v act q cn kmax turns (kk + 16 * m) blk s' := by
  induction m generalizing kk s with
  | zero => exact ⟨s, h, rfl⟩
  | succ m ih =>
    rw [runText, List.replicate_succ, List.flatten_cons, List.append_assoc] at h
    obtain ⟨s₁, s₂, hfill, hread, h₂, _⟩ := readCode_spec hagrees.wholeAc hagrees.zeros h
    obtain ⟨s', h', hrest⟩ := ih (kk + 16) (by omega) h₂
    refine ⟨s', h', ?_⟩
    rw [← Nat.add_assoc, readAc, if_pos (by omega), hfill]
    change (readSymbol act s₁).bind _ = _
    rw [hread, show kk + 16 * (m + 1) = kk + 16 + 16 * m by omega, ← hrest]
    rfl

theorem readAc_spec (hagrees : Agrees edc eac dct act) {all : List Int} (hall : Codable all) (hq : q.length = 64)
    {qs : List Int} (kk run turns : Nat) (hkk : 0 < kk) (hqs : all.drop (kk + run) = qs) (hlen : kk + run + qs.length = 64)
    (hzeros : ∀ i, kk ≤ i → i < kk + run → all.getD i 0 = 0) (hturns : 64 ≤ turns + kk) {blk : List Int}
    (hblk : 1 < cn → Holds q all kmax kk blk) (h : Ahead v s (acText eac qs run ++ text)) :
    ∃ kk' blk' s', readAc v act q cn kmax turns kk blk s = .ok (kk', blk', s') ∧ kk' ≤ 64 ∧ Ahead v s' text ∧
      (1 < cn → Holds q all kmax 64 blk') := by
  induction qs generalizing kk run turns blk s with
  | nil =>
    rw [List.length_nil, Nat.add_zero] at hlen
    have hend : 1 < cn → Holds q all kmax 64 blk := fun hcn => hlen ▸ (hblk hcn).skip hzeros
    rw [acText] at h
    by_cases hrun : 0 < run
    · rw [if_pos hrun] at h
      obtain ⟨turns, rfl⟩ : ∃ m, turns = m + 1 := ⟨turns - 1, by omega⟩
      obtain ⟨s₁, s₂, hfill, hread, h₂, _⟩ := readCode_spec hagrees.wholeAc hagrees.eob h
      refine ⟨kk, blk, s₂, ?_, by omega, h₂, hend⟩
      rw [readAc, if_pos (by omega), hfill]
      change (readSymbol act s₁).bind _ = _
      rw [hread]
      rfl
    · rw [if_neg hrun] at h
      refine ⟨kk, blk, s, ?_, by omega, h, hend⟩
      obtain _ | turns := turns
      · rfl
      · rw [readAc, if_neg (by omega)]
        rfl
  | cons d qs ih =>
    rw [List.length_cons] at hlen
    have hget : all.getD (kk + run) 0 = d := by
      have hhead : (all.drop (kk + run))[0]? = some d := by
        rw [hqs]
        rfl
      rw [List.getElem?_drop, Nat.add_zero] at hhead
      rw [List.getD_eq_getElem?_getD, hhead]
      rfl
    have hdrop : all.drop (kk + run + 1) = qs := by
      rw [← List.drop_drop, hqs]
      rfl
    rw [acText] at h
    by_cases hd : d = 0
    · rw [if_pos hd] at h
      refine ih kk (run + 1) turns hkk hdrop (by omega) (fun i hlow hhigh => ?_) hturns hblk h
      by_cases hi : i < kk + run
      · exact hzeros i hlow hi
      · rw [show i = kk + run by omega, hget, hd]
    · rw [if_neg hd, List.append_assoc, List.append_assoc] at h
      have hsmall : d.natAbs < 1024 := by
        have hmem : d ∈ all := List.mem_of_mem_drop (hqs ▸ List.mem_cons_self)
        exact (hall.small d hmem).trans (by decide)
      have hne := valueSize_ne hsmall hd
      have hsize := (valueSize_spec hsmall).2.1
      -- the zeros, 16 at a time, and the rest of them with the value
      obtain ⟨turns, rfl⟩ : ∃ m, turns = m + 1 + run / 16 := ⟨turns - 1 - run / 16, by omega⟩
      obtain ⟨s₁, h₁, hruns⟩ := @readRuns_spec v s _ edc eac dct act q cn kmax hagrees (run / 16) (turns + 1) kk blk (by omega) h
      obtain ⟨s₂, s₃, s₄, hfill, hread, hvalue, h₄⟩ := readCoded_spec hagrees.wholeAc hsmall hne
        (hagrees.ac (run % 16) (Nat.mod_lt _ (by decide)) _ hsize hne) h₁
      have hplace : kk + 16 * (run / 16) + run % 16 = kk + run := by omega
      have hskip : 1 < cn → Holds q all kmax (kk + run) blk := fun hcn => (hblk hcn).skip hzeros
      obtain ⟨blk', hpush, hblk'⟩ := pushCoefficient_spec (by omega) hskip hget
      obtain ⟨kk', blk'', s', hrest, hkk', h', hend⟩ := ih (kk + run + 1) 0 turns (by omega) hdrop (by omega) (fun i _ _ => by omega)
        (by omega) hblk' h₄
      refine ⟨kk', blk'', s', ?_, hkk', h', hend⟩
      have hrun : (run % 16 * 16 + valueSize d) >>> 4 = run % 16 := by
        rw [Nat.shiftRight_eq_div_pow]
        omega
      have hn : (run % 16 * 16 + valueSize d) &&& 15 = valueSize d := by
        rw [show (15 : Nat) = 2 ^ 4 - 1 from rfl, Nat.and_two_pow_sub_one_eq_mod]
        omega
      rw [hruns, readAc, if_pos (by omega), hfill]
      change (readSymbol act s₂).bind _ = _
      rw [hread]
      change (if (run % 16 * 16 + valueSize d) &&& 15 = 0 then _ else _) = _
      rw [hn, if_neg hne, hrun, hplace, hvalue]
      change (pushCoefficient q cn kmax (kk + run) d blk).bind _ = _
      rw [hpush]
      exact hrest

def scaledBlock (q : List Nat) (cn kmax : Nat) (all : List Int) : Coefficients :=
  ⟨scaled q all 0, if cn = 1 then [] else (List.range (kmax + 1)).map (scaled q all)⟩

theorem Holds.padded {all : List Int} {blk : List Int} (h : Holds q all kmax 64 blk) (hmax : kmax < 64) :
    padTo (kmax + 1) blk = (List.range (kmax + 1)).map (scaled q all) := by
  have hneeded := h.needed
  have hlen : (padTo (kmax + 1) blk).length = kmax + 1 := by
    rw [padTo, List.length_append, List.length_replicate]
    omega
  refine List.ext_getElem (by rw [hlen, List.length_map, List.length_range]) fun i hi _ => ?_
  rw [hlen] at hi
  have hget := padTo_getD (kmax + 1) blk i
  rw [h.get i (by omega) (by omega), List.getD_eq_getElem?_getD, List.getElem?_eq_getElem (by omega)] at hget
  rw [List.getElem_map, List.getElem_range]
  exact hget

theorem readBlock_spec (hagrees : Agrees edc eac dct act) {all : List Int} (hall : Codable all) (hq : q.length = 64)
    (hmax : kmax < 64) (hcn : 0 < cn) {pred : Int} (hpred : pred.natAbs < 512) (h : Ahead v s (blockText edc eac pred all ++ text)) :
    ∃ s', readBlock v dct act q cn kmax pred s = .ok (all.headD 0, scaledBlock q cn kmax all, s') ∧ Ahead v s' text := by
  have hlen := hall.length
  obtain _ | ⟨dc, qs⟩ := all
  · cases hlen
  · have hdc := hall.small dc List.mem_cons_self
    have hdiff : (dc - pred).natAbs < 1024 := by omega
    rw [blockText, List.append_assoc] at h
    -- the difference, of no bits where it is 0
    obtain ⟨s₁, s₂, s₃, hfill, hread, hvalue, h₃⟩ : ∃ s₁ s₂ s₃, fill v 5 s = .ok s₁ ∧
        readSymbol dct s₁ = .ok (valueSize (dc - pred), s₂) ∧
        (if 0 < valueSize (dc - pred) then readValue (valueSize (dc - pred)) s₂ else (0, s₂)) = (dc - pred, s₃) ∧
        Ahead v s₃ (acText eac qs 0 ++ text) := by
      obtain ⟨_, hsize, hlt, _⟩ := valueSize_spec hdiff
      have hcode : ReadsCode dct edc (0 + valueSize (dc - pred)) := by
        rw [Nat.zero_add]
        exact hagrees.dc _ hsize
      by_cases hzero : valueSize (dc - pred) = 0
      · obtain ⟨s₁, s₂, hfill, hread, h₂, _⟩ := readCode_spec hagrees.wholeDc hcode h
        have hsame : dc - pred = 0 := by
          rw [hzero] at hlt
          omega
        rw [Nat.zero_add] at hread
        refine ⟨s₁, s₂, s₂, hfill, hread, ?_, ?_⟩
        · rw [hzero, hsame]
          rfl
        · rw [hzero] at h₂
          exact h₂
      · obtain ⟨s₁, s₂, s₃, hfill, hread, hvalue, h₃⟩ := readCoded_spec hagrees.wholeDc hdiff hzero hcode h
        rw [Nat.zero_add] at hread
        exact ⟨s₁, s₂, s₃, hfill, hread, by rw [if_pos (Nat.pos_of_ne_zero hzero)]; exact hvalue, h₃⟩
    have hstart : 1 < cn → Holds q (dc :: qs) kmax 1 (if 1 < cn then [dc * (q.getD 0 0 : Nat)] else []) := by
      intro hcn
      rw [if_pos hcn]
      refine ⟨Nat.le_refl 1, Nat.succ_le_succ (Nat.zero_le kmax), fun i hi _ => ?_⟩
      rw [Nat.lt_one_iff.mp hi]
      rfl
    have hrest : 1 + 0 + qs.length = 64 := by
      rw [← hlen]
      exact Nat.add_comm 1 _
    obtain ⟨kk, blk, s', hac, hkk, h', hend⟩ := readAc_spec hagrees hall hq 1 0 64 (by decide) rfl hrest
      (fun i _ _ => by omega) (by decide) hstart h₃
    refine ⟨s', ?_, h'⟩
    have hsum : pred + (dc - pred) = dc := by omega
    rw [readBlock, hfill]
    change (readSymbol dct s₁).bind _ = _
    rw [hread]
    change (itemAt q 0).bind _ = _
    rw [itemAt_getD (by omega), hvalue]
    change (readAc v act q cn kmax 64 1 (if 1 < cn then [(pred + (dc - pred)) * (q.getD 0 0 : Nat)] else []) s₃).bind _ = _
    rw [hsum, hac]
    change (if 64 < kk then _ else _) = _
    rw [if_neg (by omega)]
    change Except.ok (dc, (⟨dc * (q.getD 0 0 : Nat), if cn = 1 then [] else padTo (kmax + 1) blk⟩ : Coefficients), s') = _
    by_cases hone : cn = 1
    · rw [scaledBlock, if_pos hone, if_pos hone]
      rfl
    · rw [scaledBlock, if_neg hone, if_neg hone, (hend (by omega)).padded hmax]
      rfl

end

section

variable {cnt sorted : List Nat}

def codeAt (cnt : List Nat) : (l : Nat) → Nat
  | 0 => 0
  | l + 1 => (codeAt cnt l + cnt.getD l 0) <<< 1

def placeAt (cnt : List Nat) : (l : Nat) → Nat
  | 0 => 0
  | l + 1 => placeAt cnt l + cnt.getD l 0

theorem itemAt_ok {xs : List Nat} {i x : Nat} (h : itemAt xs i = .ok x) : xs[i]? = some x ∧ xs.getD i 0 = x := by
  rw [itemAt] at h
  cases hget : xs[i]? with
  | none =>
    rw [hget] at h
    cases h
  | some y =>
    rw [hget] at h
    cases h
    rw [List.getD_eq_getElem?_getD, hget]
    exact ⟨rfl, rfl⟩

theorem huffFirst_spec {n l : Nat} {first offs : List Nat} (h : huffFirst cnt n l (codeAt cnt l) (placeAt cnt l) = .ok (first, offs)) :
    first.length = n ∧ offs.length = n ∧ ∀ i < n, first.getD i 0 = codeAt cnt (l + i) ∧ offs.getD i 0 = placeAt cnt (l + i) := by
  induction n generalizing l first offs with
  | zero =>
    cases h
    exact ⟨rfl, rfl, fun i hi => absurd hi (Nat.not_lt_zero i)⟩
  | succ n ih =>
    rw [huffFirst] at h
    obtain ⟨m, hm, h⟩ := Codec.except_bind_ok h
    obtain ⟨⟨first', offs'⟩, hrest, h⟩ := Codec.except_bind_ok h
    cases h
    have hnext : huffFirst cnt n (l + 1) (codeAt cnt (l + 1)) (placeAt cnt (l + 1)) = .ok (first', offs') := by
      rw [codeAt, placeAt, (itemAt_ok hm).2]
      exact hrest
    obtain ⟨hfirst, hoffs, hall⟩ := ih hnext
    refine ⟨congrArg Nat.succ hfirst, congrArg Nat.succ hoffs, fun i hi => ?_⟩
    cases i with
    | zero => exact ⟨rfl, rfl⟩
    | succ i =>
      have hget := hall i (by omega)
      rw [Nat.add_right_comm] at hget
      exact hget

theorem mapM_ok {ε α β : Type} {f : α → Except ε β} {as : List α} {bs : List β} (h : as.mapM f = .ok bs) {g : α → β}
    (hg : ∀ a ∈ as, ∀ b, f a = .ok b → b = g a) : bs = as.map g := by
  induction as generalizing bs with
  | nil =>
    rw [List.mapM_nil] at h
    cases h
    rfl
  | cons a as ih =>
    obtain ⟨ha, has⟩ := List.forall_mem_cons.mp hg
    rw [List.mapM_cons] at h
    obtain ⟨b, hb, h⟩ := Codec.except_bind_ok h
    obtain ⟨rest, hrest, h⟩ := Codec.except_bind_ok h
    cases h
    rw [List.map_cons, ha b hb, ih hrest has]

theorem huffEntries_spec {n l : Nat} (hn : l + n = 11) {tab : List Nat} (h : huffEntries cnt sorted n l (placeAt cnt l) = .ok tab) :
    2 * tab.length + codeAt cnt l * 2 ^ (11 - l) = codeAt cnt 11 ∧
      ∀ k j x, l ≤ k → k ≤ 10 → j < cnt.getD k 0 → x < 2 ^ (10 - k) → ∃ i,
        i + codeAt cnt l * 2 ^ (10 - l) = (codeAt cnt k + j) * 2 ^ (10 - k) + x ∧
          tab[i]? = some (sorted.getD (placeAt cnt k + j) 0 * 32 + k) := by
  induction n generalizing l tab with
  | zero =>
    cases h
    rw [show l = 11 by omega]
    exact ⟨by rw [List.length_nil]; omega, fun k _ _ hk hk' => by omega⟩
  | succ n ih =>
    rw [huffEntries] at h
    obtain ⟨m, hm, h⟩ := Codec.except_bind_ok h
    obtain ⟨entries, hentries, h⟩ := Codec.except_bind_ok h
    obtain ⟨rest, hrest, h⟩ := Codec.except_bind_ok h
    cases h
    have hcount := (itemAt_ok hm).2
    have hflat : entries.flatten = (List.range m).flatMap fun i =>
        List.replicate (2 ^ (10 - l)) (sorted.getD (placeAt cnt l + i) 0 * 32 + l) := by
      rw [mapM_ok hentries (g := fun i => List.replicate (2 ^ (10 - l)) (sorted.getD (placeAt cnt l + i) 0 * 32 + l)) fun i _ b hb => ?_]
      · exact List.flatMap_def.symm
      · obtain ⟨sym, hsym, hb⟩ := Codec.except_bind_ok hb
        cases hb
        rw [(itemAt_ok hsym).2, Nat.one_shiftLeft]
    have hlength : entries.flatten.length = m * 2 ^ (10 - l) := by
      rw [hflat]
      exact length_flatMap_range fun _ _ => List.length_replicate
    have hnext : huffEntries cnt sorted n (l + 1) (placeAt cnt (l + 1)) = .ok rest := by
      rw [placeAt, hcount]
      exact hrest
    obtain ⟨htotal, hget⟩ := ih (by omega) hnext
    have hcode : codeAt cnt (l + 1) = (codeAt cnt l + m) * 2 := by
      rw [codeAt, hcount, Nat.shiftLeft_eq]
    have hpow : 2 ^ (11 - l) = 2 * 2 ^ (10 - l) := by
      rw [show 11 - l = 10 - l + 1 by omega, Nat.pow_succ']
    rw [hcode, show 11 - (l + 1) = 10 - l by omega] at htotal
    constructor
    · rw [List.length_append, hlength, hpow, ← htotal]
      ring
    · intro k j x hlk hk hj hx
      obtain rfl | hless := Nat.eq_or_lt_of_le hlk
      · rw [hcount] at hj
        refine ⟨j * 2 ^ (10 - l) + x, by ring, ?_⟩
        rw [List.getElem?_append_left, hflat, get_flatMap_range (fun _ _ => List.length_replicate) hj hx,
          List.getElem?_replicate_of_lt hx]
        rw [hlength]
        calc j * 2 ^ (10 - l) + x < (j + 1) * 2 ^ (10 - l) := by rw [Nat.succ_mul]; omega
          _ ≤ m * 2 ^ (10 - l) := Nat.mul_le_mul_right _ hj
      · obtain ⟨i, hi, hentry⟩ := hget k j x hless hk hj hx
        have hstep : 2 ^ (10 - l) = 2 * 2 ^ (10 - (l + 1)) := by
          rw [show 10 - l = 10 - (l + 1) + 1 by omega, Nat.pow_succ']
        refine ⟨m * 2 ^ (10 - l) + i, ?_, ?_⟩
        · rw [← hi, hcode, hstep]
          ring
        · rw [List.getElem?_append_right (by rw [hlength]; omega), hlength, Nat.add_sub_cancel_left]
          exact hentry

def Canonical (cnt sorted : List Nat) (c k sym : Nat) : Prop :=
  (0 < k ∧ k ≤ 16 ∧ c < 2 ^ k) ∧ (codeAt cnt k ≤ c ∧ c - codeAt cnt k < cnt.getD k 0) ∧
    sorted[placeAt cnt k + (c - codeAt cnt k)]? = some sym ∧
    (10 < k → codeAt cnt 11 ≤ 2 * c >>> (k - 10) ∧
      ∀ l < k, 11 ≤ l → ¬(codeAt cnt l ≤ c >>> (k - l) ∧ c >>> (k - l) - codeAt cnt l < cnt.getD l 0))

instance decidableCanonical (cnt sorted : List Nat) (c k sym : Nat) : Decidable (Canonical cnt sorted c k sym) :=
  inferInstanceAs (Decidable (_ ∧ _ ∧ _ ∧ _))

structure Built (cnt sorted : List Nat) (t : Huffman) : Prop where
  build : omskHuffBuild cnt sorted = .ok (some t)
  length : cnt.length = 17
  none : cnt.getD 0 0 = 0

theorem Built.fields {t : Huffman} (h : Built cnt sorted t) : ∃ tab, huffEntries cnt sorted 10 1 0 = .ok tab ∧ tab.length ≤ 1024 ∧
    t.tab = tab ++ List.replicate (1024 - tab.length) 0 ∧ huffFirst cnt 17 0 0 0 = .ok (t.first, t.offs) ∧ t.sorted = sorted ∧
        t.cnt = cnt := by
  have hbuild := h.build
  rw [omskHuffBuild] at hbuild
  obtain ⟨tab, htab, hbuild⟩ := Codec.except_bind_ok hbuild
  split_ifs at hbuild with hlong
  · cases hbuild
  · obtain ⟨⟨first, offs⟩, hfirst, hbuild⟩ := Codec.except_bind_ok hbuild
    cases hbuild
    exact ⟨tab, htab, by omega, rfl, hfirst, rfl, rfl⟩

theorem Built.whole {t : Huffman} (h : Built cnt sorted t) : Whole t := by
  obtain ⟨tab, _, _, _, hfirst, _, hcnt⟩ := h.fields
  obtain ⟨hlen, hlen', _⟩ := huffFirst_spec (l := 0) hfirst
  exact ⟨hlen.ge, hlen'.ge, by rw [hcnt]; exact h.length.ge⟩

theorem Built.decodes {t : Huffman} (h : Built cnt sorted t) {c k sym : Nat} (hc : Canonical cnt sorted c k sym) : Decodes t c k sym := by
  obtain ⟨hsize, ⟨hfirst, hcount⟩, hsym, hlong⟩ := hc
  obtain ⟨tab, hentries, htab, htable, hfields, hsorted, hcnt⟩ := h.fields
  obtain ⟨_, _, hcodes⟩ := huffFirst_spec (l := 0) hfields
  have hstart : codeAt cnt 1 = 0 := by
    rw [codeAt, codeAt, h.none]
    rfl
  have hplace : placeAt cnt 1 = 0 := by
    rw [placeAt, placeAt, h.none]
  have hget (l : Nat) (hl : l < 17) : t.first.getD l 0 = codeAt cnt l ∧ t.offs.getD l 0 = placeAt cnt l := by
    have hall := hcodes l hl
    rwa [Nat.zero_add] at hall
  obtain ⟨htotal, hall⟩ := @huffEntries_spec cnt sorted 10 1 rfl tab (by rw [hplace]; exact hentries)
  rw [hstart, Nat.zero_mul, Nat.add_zero] at htotal
  refine ⟨hsize.1, hsize.2.1, hsize.2.2, ?_⟩
  by_cases hk : k ≤ 10
  · rw [if_pos hk]
    intro x hx
    obtain ⟨i, hi, hentry⟩ := hall k (c - codeAt cnt k) x hsize.1 hk hcount hx
    rw [hstart, Nat.zero_mul, Nat.add_zero, Nat.add_sub_cancel' hfirst] at hi
    have hin : i < tab.length := (List.getElem?_eq_some_iff.mp hentry).1
    rw [htable, Nat.shiftLeft_eq, ← hi, List.getElem?_append_left hin, hentry, List.getD_eq_getElem?_getD, hsym]
    rfl
  · obtain ⟨hbehind, hpasses⟩ := hlong (by omega)
    rw [if_neg hk, hsorted]
    have hplain : c >>> (k - 10) < 1024 := by
      rw [Nat.shiftRight_eq_div_pow, Nat.div_lt_iff_lt_mul (Nat.two_pow_pos _), show (1024 : Nat) = 2 ^ 10 from rfl, ← Nat.pow_add,
        Nat.add_sub_cancel' (by omega)]
      exact hsize.2.2
    refine ⟨?_, fun l hl hl' => ?_, ?_, ?_⟩
    · rw [htable, List.getElem?_append_right (by omega), List.getElem?_replicate_of_lt (by omega)]
    · rw [Passes, (hget l (by omega)).1, hcnt]
      exact hpasses l hl hl'
    · rw [Passes, (hget k (by omega)).1, hcnt]
      exact not_not.mpr ⟨hfirst, hcount⟩
    · rw [(hget k (by omega)).1, (hget k (by omega)).2]
      exact hsym

end

/-- The counts of the codes of a table in `omsk_jhead`. -/
def jheadCounts (p : Nat) : List Nat := 0 :: (omskJhead.drop p).take 16

def jheadSymbols (p n : Nat) : List Nat := (omskJhead.drop (p + 16)).take n

def jheadTable (p n : Nat) : Huffman :=
  match omskHuffBuild (jheadCounts p) (jheadSymbols p n) with
  | .ok (some t) => t
  | _ => ⟨[], [], [], [], []⟩

structure SameCodes (edc eac dcCounts dcSymbols acCounts acSymbols : List Nat) : Prop where
  dc : ∀ s ≤ 10, Canonical dcCounts dcSymbols (edc.getD s 0 >>> 5) (edc.getD s 0 &&& 31) s
  ac : ∀ run < 16, ∀ s ≤ 10, s ≠ 0 →
    Canonical acCounts acSymbols (eac.getD (run * 16 + s) 0 >>> 5) (eac.getD (run * 16 + s) 0 &&& 31) (run * 16 + s)
  zeros : Canonical acCounts acSymbols (eac.getD 240 0 >>> 5) (eac.getD 240 0 &&& 31) 240
  eob : Canonical acCounts acSymbols (eac.getD 0 0 >>> 5) (eac.getD 0 0 &&& 31) 0

theorem lum_same : SameCodes omskEdcl omskEacl (jheadCounts 143) (jheadSymbols 143 12) (jheadCounts 176) (jheadSymbols 176 162) :=
  ⟨by decide +kernel, by decide +kernel, by decide +kernel, by decide +kernel⟩

theorem chr_same : SameCodes omskEdcc omskEacc (jheadCounts 359) (jheadSymbols 359 12) (jheadCounts 392) (jheadSymbols 392 162) :=
  ⟨by decide +kernel, by decide +kernel, by decide +kernel, by decide +kernel⟩

theorem jheadTable_built {p n : Nat} (hsome : (omskHuffBuild (jheadCounts p) (jheadSymbols p n)).toOption.join.isSome = true)
    (hlen : (jheadCounts p).length = 17) : Built (jheadCounts p) (jheadSymbols p n) (jheadTable p n) := by
  refine ⟨?_, hlen, rfl⟩
  unfold jheadTable
  split
  next t ht => exact ht
  next hnone =>
    cases hbuild : omskHuffBuild (jheadCounts p) (jheadSymbols p n) with
    | error e =>
      rw [hbuild] at hsome
      cases hsome
    | ok t =>
      cases t with
      | none =>
        rw [hbuild] at hsome
        cases hsome
      | some t => exact absurd hbuild (hnone t)

theorem jhead_builds : ∀ table ∈ [(143, 12), (176, 162), (359, 12), (392, 162)],
    (omskHuffBuild (jheadCounts table.1) (jheadSymbols table.1 table.2)).toOption.join.isSome = true := by
  decide +kernel

theorem lumDc_built : Built (jheadCounts 143) (jheadSymbols 143 12) (jheadTable 143 12) := jheadTable_built (jhead_builds (143, 12) (by simp)) rfl
theorem lumAc_built : Built (jheadCounts 176) (jheadSymbols 176 162) (jheadTable 176 162) := jheadTable_built (jhead_builds (176, 162) (by simp)) rfl
theorem chrDc_built : Built (jheadCounts 359) (jheadSymbols 359 12) (jheadTable 359 12) := jheadTable_built (jhead_builds (359, 12) (by simp)) rfl
theorem chrAc_built : Built (jheadCounts 392) (jheadSymbols 392 162) (jheadTable 392 162) := jheadTable_built (jhead_builds (392, 162) (by simp)) rfl

theorem SameCodes.agrees {edc eac dcCounts dcSymbols acCounts acSymbols : List Nat} {dct act : Huffman}
    (h : SameCodes edc eac dcCounts dcSymbols acCounts acSymbols) (hdc : Built dcCounts dcSymbols dct)
        (hac : Built acCounts acSymbols act) :
    Agrees edc eac dct act where
  wholeDc := hdc.whole
  wholeAc := hac.whole
  dc := fun s hs => hdc.decodes (h.dc s hs)
  ac := fun run hrun s hs hne => hac.decodes (h.ac run hrun s hs hne)
  zeros := hac.decodes h.zeros
  eob := hac.decodes h.eob

theorem mapM_exists {ε α β : Type} {f : α → Except ε β} {P : β → Prop} {as : List α} (h : ∀ a ∈ as, ∃ b, f a = .ok b ∧ P b) :
    ∃ bs, as.mapM f = .ok bs ∧ bs.length = as.length ∧ ∀ b ∈ bs, P b := by
  induction as with
  | nil => exact ⟨[], rfl, rfl, fun b hb => absurd hb List.not_mem_nil⟩
  | cons a as ih =>
    obtain ⟨⟨b, hb, hP⟩, has⟩ := List.forall_mem_cons.mp h
    obtain ⟨bs, hbs, hlen, hall⟩ := ih has
    refine ⟨b :: bs, ?_, congrArg Nat.succ hlen, List.forall_mem_cons.mpr ⟨hP, hall⟩⟩
    rw [List.mapM_cons, hb, hbs]
    rfl

theorem checkedAt_lt {α : Type} {v : List α} {i : Nat} (hi : i < v.length) : checkedAt v i = .ok v[i] := by
  rw [checkedAt, List.getElem?_eq_getElem hi]
  rfl

theorem luma_bound {r g b : Nat} (hr : r < 256) (hg : g < 256) (hb : b < 256) : |luma r g b| ≤ 128 := by
  rw [luma, Int.shiftRight_eq_div_pow, abs_le]
  omega

theorem chromaBlue_bound {r g b : Nat} (hr : r < 256) (hg : g < 256) (hb : b < 256) : |chromaBlue r g b| ≤ 128 := by
  rw [chromaBlue, Int.shiftRight_eq_div_pow, abs_le]
  omega

theorem chromaRed_bound {r g b : Nat} (hr : r < 256) (hg : g < 256) (hb : b < 256) : |chromaRed r g b| ≤ 128 := by
  rw [chromaRed, Int.shiftRight_eq_div_pow, abs_le]
  omega

theorem encodePlane_spec {channel : (r g b : Int) → Int}
    (hchannel : ∀ {r g b : Nat}, r < 256 → g < 256 → b < 256 → |channel r g b| ≤ 128) {rgb : List UInt8} {n : Nat}
    (hrgb : rgb.length = 3 * n) : ∃ plane, encodePlane channel rgb n = .ok plane ∧ plane.length = n ∧ ∀ x ∈ plane, |x| ≤ 128 := by
  have hpixel : ∀ i ∈ List.range n, ∃ x, (do
      let r ← checkedAt rgb (3 * i)
      let g ← checkedAt rgb (3 * i + 1)
      let b ← checkedAt rgb (3 * i + 2)
      return channel r.toNat g.toNat b.toNat) = Except.ok x ∧ |x| ≤ 128 := by
    intro i hi
    have hin := List.mem_range.mp hi
    rw [checkedAt_lt (by omega : 3 * i < rgb.length), checkedAt_lt (by omega : 3 * i + 1 < rgb.length),
      checkedAt_lt (by omega : 3 * i + 2 < rgb.length)]
    exact ⟨_, rfl, hchannel (UInt8.toNat_lt _) (UInt8.toNat_lt _) (UInt8.toNat_lt _)⟩
  obtain ⟨plane, hplane, hlen, hall⟩ := mapM_exists hpixel
  exact ⟨plane, hplane, hlen.trans List.length_range, hall⟩

theorem encodeSamples_spec {plane : List Int} {w h bx by_ : Nat} (hw : 0 < w) (hh : 0 < h) (hlen : plane.length = w * h)
    (hplane : ∀ x ∈ plane, |x| ≤ 128) :
    ∃ f, encodeSamples plane w h bx by_ = .ok f ∧ ∀ x ∈ f, |x| ≤ 128 := by
  have hinside (size x : Nat) (hsize : 0 < size) : (if size ≤ x then size - 1 else x) < size := by
    split <;> omega
  have hsample : ∀ i ∈ List.range 64, ∃ x, checkedAt plane ((if h ≤ by_ * 8 + i / 8 then h - 1 else by_ * 8 + i / 8) * w +
      (if w ≤ bx * 8 + i % 8 then w - 1 else bx * 8 + i % 8)) = .ok x ∧ |x| ≤ 128 := by
    intro i _
    have hindex := place_lt (hinside h (by_ * 8 + i / 8) hh) (hinside w (bx * 8 + i % 8) hw)
    rw [← hlen] at hindex
    exact ⟨_, checkedAt_lt hindex, hplane _ (List.getElem_mem hindex)⟩
  obtain ⟨f, hf, _, hall⟩ := mapM_exists hsample
  exact ⟨f, hf, hall⟩

theorem getD_bound {xs : List Int} {m : Int} (hm : 0 ≤ m) (h : ∀ x ∈ xs, |x| ≤ m) (i : Nat) : |xs.getD i 0| ≤ m := by
  rw [List.getD_eq_getElem?_getD]
  cases hget : xs[i]? with
  | none => exact (abs_zero : |(0 : Int)| = 0).le.trans hm
  | some x => exact h x (List.mem_of_getElem? hget)

theorem foldl_bound {f a : Nat → Int} {m : Int} (hf : ∀ x, |f x| ≤ m) (xs : List Nat) (sum : Int) :
    |xs.foldl (fun sum x => sum + f x * a x) sum| ≤ |sum| + m * (xs.map fun x => |a x|).sum := by
  induction xs generalizing sum with
  | nil => exact (le_add_iff_nonneg_right _).mpr (by rw [List.map_nil, List.sum_nil, mul_zero])
  | cons x xs ih =>
    rw [List.foldl_cons, List.map_cons, List.sum_cons]
    have hterm : |f x * a x| ≤ m * |a x| := by
      rw [abs_mul]
      exact mul_le_mul_of_nonneg_right (hf x) (abs_nonneg _)
    have hsum := abs_add_le sum (f x * a x)
    calc _ ≤ |sum + f x * a x| + m * (xs.map fun x => |a x|).sum := ih _
      _ ≤ |sum| + m * |a x| + m * (xs.map fun x => |a x|).sum := by omega
      _ = |sum| + m * (|a x| + (xs.map fun x => |a x|).sum) := by ring

theorem fdct_gain : ∀ u < 8, ((List.range 8).map fun x => |omskFdct.getD (u * 8 + x) 0|).sum ≤ 11584 := by
  decide

theorem dot_bound {f : Nat → Int} {m : Int} (hm : 0 ≤ m) (hf : ∀ x, |f x| ≤ m) {u : Nat} (hu : u < 8) :
    |dot f fun x => omskFdct.getD (u * 8 + x) 0| ≤ m * 11584 := by
  have hbound := @foldl_bound f (fun x => omskFdct.getD (u * 8 + x) 0) m hf (List.range 8) 0
  rw [abs_zero, zero_add] at hbound
  exact hbound.trans (mul_le_mul_of_nonneg_left (fdct_gain u hu) hm)

theorem dctRows_bound {f : List Int} (hf : ∀ x ∈ f, |x| ≤ 128) : ∀ x ∈ dctRows f, |x| ≤ 1482752 := by
  intro x hx
  obtain ⟨i, _, rfl⟩ := List.mem_map.mp hx
  exact dot_bound (m := 128) (by decide) (fun x => getD_bound (by decide) hf _) (Nat.mod_lt i (by decide))

theorem dctColumns_bound {t : List Int} (ht : ∀ x ∈ t, |x| ≤ 1482752) : ∀ x ∈ dctColumns t, |x| ≤ 17176199168 := by
  intro x hx
  obtain ⟨i, hi, rfl⟩ := List.mem_map.mp hx
  have hrow : i / 8 < 8 := by
    have hin := List.mem_range.mp hi
    omega
  exact dot_bound (m := 1482752) (by decide) (fun y => getD_bound (by decide) ht _) hrow

theorem quantize_bound {fv : Int} {rk : Nat} (hfv : |fv| ≤ 17176199168) (hrk : rk ≤ 21845) : (quantize fv rk).natAbs < 512 := by
  have habs : fv.natAbs ≤ 17176199168 := by
    rw [Int.abs_eq_natAbs] at hfv
    omega
  have hprod : fv.natAbs * rk ≤ 17176199168 * 21845 := Nat.mul_le_mul habs hrk
  unfold quantize
  dsimp only
  rw [Nat.shiftRight_eq_div_pow]
  split <;> omega

theorem reciprocals : (∀ k < 64, omskRlum.getD k 0 ≤ 21845) ∧ ∀ k < 64, omskRchr.getD k 0 ≤ 21845 := by
  decide

theorem encodeCoefs_codable {rq : List Nat} (hrq : ∀ k < 64, rq.getD k 0 ≤ 21845) {f : List Int} (hf : ∀ x ∈ f, |x| ≤ 128) :
    Codable (encodeCoefs rq f) := by
  refine ⟨by rw [encodeCoefs, List.length_map, List.length_range], fun q hq => ?_⟩
  obtain ⟨k, hk, rfl⟩ := List.mem_map.mp hq
  exact quantize_bound (getD_bound (by decide) (dctColumns_bound (dctRows_bound hf)) _) (hrq k (List.mem_range.mp hk))

structure CodableMcu (blocks : List (List Int)) : Prop where
  length : blocks.length = 3
  codable : ∀ qs ∈ blocks, Codable qs

theorem length_order (w h : Nat) : (encodeOrder w h).length = ((w + 7) >>> 3) * ((h + 7) >>> 3) := by
  rw [encodeOrder, length_flatMap_range (fun _ _ => by rw [List.length_map, List.length_range]), Nat.mul_comm]

theorem omskCoefs_spec {rgb : List UInt8} {w h : Nat} (hw : 0 < w) (hh : 0 < h) (hrgb : rgb.length = 3 * (w * h)) :
    ∃ mcus, omskCoefs rgb w h = .ok mcus ∧ mcus.length = ((w + 7) >>> 3) * ((h + 7) >>> 3) ∧ ∀ blocks ∈ mcus, CodableMcu blocks := by
  obtain ⟨py, hpy, hylen, hyall⟩ := encodePlane_spec luma_bound hrgb
  obtain ⟨pcb, hpcb, hcblen, hcball⟩ := encodePlane_spec chromaBlue_bound hrgb
  obtain ⟨pcr, hpcr, hcrlen, hcrall⟩ := encodePlane_spec chromaRed_bound hrgb
  have hblock {plane : List Int} {rq : List Nat} (hlen : plane.length = w * h) (hall : ∀ x ∈ plane, |x| ≤ 128)
      (hrq : ∀ k < 64, rq.getD k 0 ≤ 21845) (place : Nat × Nat) :
      ∃ qs, encodeBlock w h place (plane, rq) = .ok qs ∧ Codable qs := by
    obtain ⟨f, hf, hfall⟩ := @encodeSamples_spec plane w h place.1 place.2 hw hh hlen hall
    rw [encodeBlock, hf]
    exact ⟨_, rfl, encodeCoefs_codable hrq hfall⟩
  have hplace : ∀ place ∈ encodeOrder w h, ∃ blocks,
      [(py, omskRlum), (pcb, omskRchr), (pcr, omskRchr)].mapM (encodeBlock w h place) = .ok blocks ∧ CodableMcu blocks := by
    intro place _
    have hthree : ∀ plane ∈ [(py, omskRlum), (pcb, omskRchr), (pcr, omskRchr)], ∃ qs, encodeBlock w h place plane = .ok qs ∧ Codable qs :=
      List.forall_mem_cons.mpr ⟨hblock hylen hyall reciprocals.1 place, List.forall_mem_cons.mpr
        ⟨hblock hcblen hcball reciprocals.2 place, List.forall_mem_singleton.mpr (hblock hcrlen hcrall reciprocals.2 place)⟩⟩
    obtain ⟨blocks, hblocks, hlen, hall⟩ := mapM_exists hthree
    exact ⟨blocks, hblocks, hlen, hall⟩
  obtain ⟨mcus, hmcus, hlen, hall⟩ := mapM_exists hplace
  refine ⟨mcus, ?_, hlen.trans (length_order w h), hall⟩
  rw [omskCoefs, hpy, hpcb, hpcr]
  exact hmcus

end Ussr.Omsk
