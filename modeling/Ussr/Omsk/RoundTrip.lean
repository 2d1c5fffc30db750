import Ussr.Omsk.Encoded

/-! The reader on the bytes of the writer: the header with the tables, then the image data. -/

namespace Ussr.Omsk

open MsbBits

section

variable {v more : List UInt8} {q p : Nat}
variable {se b x : Nat} {ε β : Type}

theorem byteAt_append (h : byteAt v p = .ok x) : byteAt (v ++ more) p = .ok x := by
  rw [byteAt, itemAt] at h ⊢
  cases hget : v[p]? with
  | none =>
    rw [hget] at h
    cases h
  | some b =>
    rw [hget] at h
    rw [List.getElem?_append_left (List.getElem?_eq_some_iff.mp hget).1, hget]
    exact h

theorem byteAt_behind (v more : List UInt8) (i : Nat) : byteAt (v ++ more) (v.length + i) = byteAt more i := by
  rw [byteAt, byteAt, itemAt, itemAt, List.getElem?_append_right (Nat.le_add_right _ _), Nat.add_sub_cancel_left]

theorem omskU16_append (h : omskU16 v p = .ok x) : omskU16 (v ++ more) p = .ok x := by
  rw [omskU16] at h ⊢
  obtain ⟨a, ha, h⟩ := Codec.except_bind_ok h
  obtain ⟨b, hb, h⟩ := Codec.except_bind_ok h
  rw [byteAt_append ha, byteAt_append hb]
  exact h

theorem mapM_congr {α : Type} {f g : α → Except ε β} {as : List α} {bs : List β} (h : as.mapM f = .ok bs)
    (hfg : ∀ a b, f a = .ok b → g a = .ok b) : as.mapM g = .ok bs := by
  induction as generalizing bs with
  | nil => exact h
  | cons a as ih =>
    rw [List.mapM_cons] at h ⊢
    obtain ⟨b, hb, h⟩ := Codec.except_bind_ok h
    obtain ⟨rest, hrest, h⟩ := Codec.except_bind_ok h
    rw [hfg a b hb, ih hrest]
    exact h

theorem copyBytes_append {l : Nat} {xs : List Nat} (h : copyBytes v q l = .ok xs) : copyBytes (v ++ more) q l = .ok xs :=
  mapM_congr h fun _ _ hb => byteAt_append hb

theorem dqtValues_append {pq : Nat} {xs : List Nat} (h : dqtValues v pq q = .ok xs) : dqtValues (v ++ more) pq q = .ok xs := by
  refine mapM_congr h fun k b hb => ?_
  split at hb
  next hone => exact (if_pos hone).trans (byteAt_append hb)
  next hone => exact (if_neg hone).trans (omskU16_append hb)

theorem dqtLoop_append {turns : Nat} {qt qt' : List (Option (List Nat))} (h : dqtLoop v se turns q qt = .ok qt') :
    dqtLoop (v ++ more) se turns q qt = .ok qt' := by
  induction turns generalizing q qt with
  | zero => exact h
  | succ turns ih =>
    rw [dqtLoop] at h ⊢
    split at h
    next hin =>
      obtain ⟨b, hb, h⟩ := Codec.except_bind_ok h
      obtain ⟨t, ht, h⟩ := Codec.except_bind_ok h
      rw [if_pos hin, byteAt_append hb]
      change (dqtValues (v ++ more) (b >>> 4) (q + 1)).bind _ = _
      rw [dqtValues_append ht]
      exact ih h
    next hin =>
      rw [if_neg hin]
      exact h

theorem dhtLoop_append {turns : Nat} {hdc hac : List (Option Huffman)} {tables : List (Option Huffman) × List (Option Huffman)}
    (h : dhtLoop v se turns q hdc hac = .ok tables) : dhtLoop (v ++ more) se turns q hdc hac = .ok tables := by
  induction turns generalizing q hdc hac with
  | zero => exact h
  | succ turns ih =>
    rw [dhtLoop] at h ⊢
    split at h
    next hin =>
      obtain ⟨b, hb, h⟩ := Codec.except_bind_ok h
      obtain ⟨cnt, hcnt, h⟩ := Codec.except_bind_ok h
      obtain ⟨vals, hvals, h⟩ := Codec.except_bind_ok h
      obtain ⟨t, ht, h⟩ := Codec.except_bind_ok h
      rw [if_pos hin, byteAt_append hb]
      change (copyBytes (v ++ more) (q + 1) 16).bind _ = _
      rw [copyBytes_append hcnt]
      change (copyBytes (v ++ more) (q + 17) cnt.sum).bind _ = _
      rw [copyBytes_append hvals]
      change (omskHuffBuild (0 :: cnt) vals).bind _ = _
      rw [ht]
      change (if t = none then _ else _) = _
      split at h
      next => cases h
      next hsome =>
        rw [if_neg hsome]
        split at h
        next hclass =>
          rw [if_pos hclass]
          exact ih h
        next hclass =>
          rw [if_neg hclass]
          exact ih h
    next hin =>
      rw [if_neg hin]
      exact h

def tableSteps (v : List UInt8) : (k p : Nat) → Jpeg → Except Fault (Nat × Jpeg)
  | 0, p, s => return (p, s)
  | k + 1, p, s => do
    let a ← byteAt v p
    let m ← byteAt v (p + 1)
    let l ← omskU16 v (p + 2)
    if a = 255 ∧ (m = 219 ∨ m = 196 ∨ m = 224) ∧ p + 4 ≤ v.length ∧ p + 2 + l ≤ v.length then do
      let s ← jpegSegment v m (p + 4) (p + 2 + l) s
      tableSteps v k (p + 2 + l) s
    else .error .outside

theorem jpegSegment_dqt (v : List UInt8) (q se : Nat) (s : Jpeg) :
    jpegSegment v 219 q se s = (dqtLoop v se se q s.qt >>= fun qt => Except.ok { s with qt }) := by
  rw [jpegSegment, if_pos rfl]
  rfl

theorem jpegSegment_dht (v : List UInt8) (q se : Nat) (s : Jpeg) : jpegSegment v 196 q se s =
    (dhtLoop v se se q s.hdc s.hac >>= fun tables => Except.ok { s with hdc := tables.1, hac := tables.2 }) := by
  rw [jpegSegment, if_neg (by decide), if_pos rfl]
  rfl

theorem jpegSegment_app (v : List UInt8) (q se : Nat) (s : Jpeg) : jpegSegment v 224 q se s = .ok s := by
  rw [jpegSegment, if_neg (by decide), if_neg (by decide), if_neg (by decide), if_neg (by decide), if_neg (by decide)]
  rfl

theorem jpegSegment_append {m : Nat} {s s' : Jpeg} (hm : m = 219 ∨ m = 196 ∨ m = 224) (h : jpegSegment v m q se s = .ok s') :
    jpegSegment (v ++ more) m q se s = .ok s' := by
  obtain rfl | rfl | rfl := hm
  · rw [jpegSegment_dqt] at h ⊢
    obtain ⟨qt, hqt, hnext⟩ := Codec.except_bind_ok h
    rw [dqtLoop_append hqt]
    exact hnext
  · rw [jpegSegment_dht] at h ⊢
    obtain ⟨tables, htables, hnext⟩ := Codec.except_bind_ok h
    rw [dhtLoop_append htables]
    exact hnext
  · rw [jpegSegment_app] at h ⊢
    exact h

theorem tableSteps_loop {k turns : Nat} {s s' : Jpeg} {p' : Nat} (h : tableSteps v k p s = .ok (p', s')) :
    jpegLoop (v ++ more) (k + turns) p s = jpegLoop (v ++ more) turns p' s' := by
  induction k generalizing p s with
  | zero =>
    cases h
    rw [Nat.zero_add]
  | succ k ih =>
    rw [tableSteps] at h
    obtain ⟨a, ha, hnext⟩ := Codec.except_bind_ok h
    obtain ⟨m, hm, hnext⟩ := Codec.except_bind_ok hnext
    obtain ⟨l, hl, hnext⟩ := Codec.except_bind_ok hnext
    split_ifs at hnext with hsegment
    obtain ⟨h255, hmarker, hroom, hend⟩ := hsegment
    obtain ⟨s₁, hs, hnext⟩ := Codec.except_bind_ok hnext
    have hlen : (v ++ more).length = v.length + more.length := List.length_append
    rw [Nat.add_right_comm, jpegLoop, if_neg (by omega), byteAt_append ha]
    change (byteAt (v ++ more) (p + 1)).bind _ = _
    rw [byteAt_append hm]
    change (if a ≠ 255 then _ else if m = 255 then _ else if m = 217 then _ else (omskU16 (v ++ more) (p + 2)).bind _) = _
    rw [if_neg (not_not.mpr h255), if_neg (by omega), if_neg (by omega), omskU16_append hl]
    change (if (v ++ more).length < p + 2 + l then _ else if m = 218 then _ else
        (jpegSegment (v ++ more) m (p + 4) (p + 2 + l) s).bind _) = _
    rw [if_neg (by omega), if_neg (by omega), jpegSegment_append hmarker hs]
    exact ih hnext

theorem tableSteps_succ {k m l : Nat} {s s' : Jpeg} {r : Nat × Jpeg} (hmarker : m = 219 ∨ m = 196 ∨ m = 224)
    (hstart : byteAt v p = .ok 255 ∧ byteAt v (p + 1) = .ok m ∧ omskU16 v (p + 2) = .ok l) (hl : 2 ≤ l) (hend : p + 2 + l ≤ v.length)
    (hsegment : jpegSegment v m (p + 4) (p + 2 + l) s = .ok s') (hrest : tableSteps v k (p + 2 + l) s' = .ok r) :
    tableSteps v (k + 1) p s = .ok r := by
  obtain ⟨ha, hm, hsize⟩ := hstart
  rw [tableSteps, ha]
  change (byteAt v (p + 1)).bind _ = _
  rw [hm]
  change (omskU16 v (p + 2)).bind _ = _
  rw [hsize]
  change (if _ then (jpegSegment v m (p + 4) (p + 2 + l) s).bind _ else _) = _
  rw [if_pos ⟨rfl, hmarker, by omega, hend⟩, hsegment]
  exact hrest

theorem dqt_one {t : List Nat} {s : Jpeg} (hb : byteAt v q = .ok b) (hplain : b >>> 4 = 0) (ht : dqtValues v 0 (q + 1) = .ok t)
    (hse : q + 65 = se) : jpegSegment v 219 q se s = .ok { s with qt := s.qt.set (b &&& 3) (some t) } := by
  have hloop (turns : Nat) (hturns : 2 ≤ turns) : dqtLoop v se turns q s.qt = .ok (s.qt.set (b &&& 3) (some t)) := by
    obtain ⟨turns, rfl⟩ : ∃ m, turns = m + 2 := ⟨turns - 2, by omega⟩
    rw [dqtLoop, if_pos (by omega), hb]
    change (dqtValues v (b >>> 4) (q + 1)).bind _ = _
    rw [hplain, ht]
    change dqtLoop v se (turns + 1) (q + 1 + 64) _ = _
    rw [dqtLoop, if_neg (by omega)]
    rfl
  rw [jpegSegment_dqt, hloop se (by omega)]
  rfl

theorem dht_one {cnt vals : List Nat} {t : Huffman} {s : Jpeg} (hb : byteAt v q = .ok b)
    (hcnt : copyBytes v (q + 1) 16 = .ok cnt) (hvals : copyBytes v (q + 17) cnt.sum = .ok vals)
    (ht : omskHuffBuild (0 :: cnt) vals = .ok (some t)) (hse : q + 17 + cnt.sum = se) :
    jpegSegment v 196 q se s = .ok (if b >>> 4 = 0 then { s with hdc := s.hdc.set (b &&& 3) (some t) }
      else { s with hac := s.hac.set (b &&& 3) (some t) }) := by
  have hloop (turns : Nat) (hturns : 2 ≤ turns) : dhtLoop v se turns q s.hdc s.hac =
      .ok (if b >>> 4 = 0 then (s.hdc.set (b &&& 3) (some t), s.hac) else (s.hdc, s.hac.set (b &&& 3) (some t))) := by
    obtain ⟨turns, rfl⟩ : ∃ m, turns = m + 2 := ⟨turns - 2, by omega⟩
    have hstep : dhtLoop v se (turns + 2) q s.hdc s.hac =
        if b >>> 4 = 0 then dhtLoop v se (turns + 1) (q + 17 + cnt.sum) (s.hdc.set (b &&& 3) (some t)) s.hac
        else dhtLoop v se (turns + 1) (q + 17 + cnt.sum) s.hdc (s.hac.set (b &&& 3) (some t)) := by
      rw [dhtLoop, if_pos (by omega), hb]
      change (copyBytes v (q + 1) 16).bind _ = _
      rw [hcnt]
      change (copyBytes v (q + 17) cnt.sum).bind _ = _
      rw [hvals]
      change (omskHuffBuild (0 :: cnt) vals).bind _ = _
      rw [ht]
      exact @if_neg (some t = none) _ (Option.some_ne_none t) _ (.error (.fail "bad JPEG Huffman table")) _
    rw [hstep]
    by_cases hclass : b >>> 4 = 0
    · rw [if_pos hclass, if_pos hclass, dhtLoop, if_neg (by omega)]
      rfl
    · rw [if_neg hclass, if_neg hclass, dhtLoop, if_neg (by omega)]
      rfl
  rw [jpegSegment_dht, hloop se (by omega)]
  by_cases hclass : b >>> 4 = 0
  · rw [if_pos hclass, if_pos hclass]
    rfl
  · rw [if_neg hclass, if_neg hclass]
    rfl

end

def headBytes : List UInt8 := encodeHead.map UInt8.ofNat

/-- What the tables of `omsk_jhead` make of the start. -/
def withTables : Jpeg :=
  ⟨[some omskQlum, some omskQchr, none, none], [some (jheadTable 143 12), some (jheadTable 359 12), none, none],
    [some (jheadTable 176 162), some (jheadTable 392 162), none, none], 0, 0, 0, 0, [], [], [], [], 1, 1⟩

theorem length_headBytes : headBytes.length = 595 := by decide +kernel

def headSegments : List (Nat × Nat × Nat) :=
  [(2, 224, 16), (20, 219, 67), (89, 219, 67), (158, 196, 31), (191, 196, 181), (374, 196, 31), (407, 196, 181)]

theorem head_segments : ∀ segment ∈ headSegments,
    byteAt headBytes segment.1 = .ok 255 ∧ byteAt headBytes (segment.1 + 1) = .ok segment.2.1 ∧
      omskU16 headBytes (segment.1 + 2) = .ok segment.2.2 := by
  decide +kernel

theorem mapM_range {f : Nat → Except ε β} {bs : List β} (h : ∀ i b, bs[i]? = some b → f i = .ok b) :
    (List.range bs.length).mapM f = .ok bs := by
  induction bs generalizing f with
  | nil => rfl
  | cons b bs ih =>
    have hrest := @ih (fun i => f (i + 1)) fun i b hb => h (i + 1) b hb
    rw [List.length_cons, List.range_succ_eq_map, List.mapM_cons, h 0 b rfl, List.mapM_map]
    exact congrArg (fun rest : Except ε (List β) => rest >>= fun cs => pure (b :: cs)) hrest

theorem jhead_facts : omskJhead.length = 570 ∧ (∀ b ∈ omskJhead, b < 256) ∧
    ∀ table ∈ [(162, 0, 143, 12), (195, 16, 176, 162), (378, 1, 359, 12), (411, 17, 392, 162)],
      omskJhead[table.2.2.1 - 1]? = some table.2.1 ∧ table.1 = 20 + (table.2.2.1 - 1) ∧ 1 ≤ table.2.2.1 ∧
        table.2.2.1 + 16 + table.2.2.2 ≤ 570 ∧ ((omskJhead.drop table.2.2.1).take 16).sum = table.2.2.2 := by
  decide +kernel

theorem byteAt_jhead {i : Nat} (hb : omskJhead[i]? = some b) : byteAt headBytes (20 + i) = .ok b := by
  have hlt := (List.getElem?_eq_some_iff.mp hb).1
  have hget : headBytes[20 + i]? = some (UInt8.ofNat b) := by
    rw [headBytes, encodeHead, List.getElem?_map, List.getElem?_append_left (by rw [List.length_append]; simp; omega),
      List.getElem?_append_right (Nat.le_add_right 20 i)]
    exact congrArg (Option.map UInt8.ofNat) ((congrArg (omskJhead[·]?) (Nat.add_sub_cancel_left 20 i)).trans hb)
  rw [byteAt, itemAt_some hget]
  exact congrArg Except.ok (UInt8.toNat_ofNat_of_lt' (jhead_facts.2.1 b (List.mem_of_getElem? hb)))

theorem copyBytes_jhead {p n : Nat} (h : p + n ≤ omskJhead.length) :
    copyBytes headBytes (20 + p) n = .ok ((omskJhead.drop p).take n) := by
  have hlen : ((omskJhead.drop p).take n).length = n := by
    rw [List.length_take, List.length_drop]
    omega
  have hbytes : ∀ i b, ((omskJhead.drop p).take n)[i]? = some b → byteAt headBytes (20 + p + i) = .ok b := by
    intro i b hb
    rw [Nat.add_assoc]
    refine byteAt_jhead ?_
    have hi : i < n := hlen ▸ (List.getElem?_eq_some_iff.mp hb).1
    rwa [← List.getElem?_drop, ← List.getElem?_take_of_lt hi]
  have hall := mapM_range hbytes
  rwa [hlen] at hall

theorem head_quantisers : (byteAt headBytes 24 = .ok 0 ∧ dqtValues headBytes 0 25 = .ok omskQlum) ∧
    byteAt headBytes 93 = .ok 1 ∧ dqtValues headBytes 0 94 = .ok omskQchr := by
  have hlum := @copyBytes_jhead 5 64 (by rw [jhead_facts.1]; decide)
  have hchr := @copyBytes_jhead 74 64 (by rw [jhead_facts.1]; decide)
  exact ⟨⟨byteAt_jhead (i := 4) rfl, hlum⟩, byteAt_jhead (i := 73) rfl, hchr⟩

/-- The place of each table of codes, with its class, its place in `omsk_jhead` and the number of its symbols. -/
theorem head_codes : ∀ table ∈ [(162, 0, 143, 12), (195, 16, 176, 162), (378, 1, 359, 12), (411, 17, 392, 162)],
    byteAt headBytes table.1 = .ok table.2.1 ∧
      copyBytes headBytes (table.1 + 1) 16 = .ok ((omskJhead.drop table.2.2.1).take 16) ∧
      copyBytes headBytes (table.1 + 17) ((omskJhead.drop table.2.2.1).take 16).sum = .ok (jheadSymbols table.2.2.1 table.2.2.2) ∧
      ((omskJhead.drop table.2.2.1).take 16).sum = table.2.2.2 := by
  intro table htable
  obtain ⟨hclass, hplace, hfirst, hroom, hsum⟩ := jhead_facts.2.2 table htable
  rw [← jhead_facts.1] at hroom
  rw [hsum, hplace]
  refine ⟨byteAt_jhead hclass, ?_, ?_, rfl⟩
  · rw [show 20 + (table.2.2.1 - 1) + 1 = 20 + table.2.2.1 by omega]
    exact copyBytes_jhead (by omega)
  · rw [show 20 + (table.2.2.1 - 1) + 17 = 20 + (table.2.2.1 + 16) by omega]
    exact copyBytes_jhead hroom

theorem head_codeTable {q p n : Nat} {t : Huffman}
    (hcodes : byteAt headBytes q = .ok b ∧ copyBytes headBytes (q + 1) 16 = .ok ((omskJhead.drop p).take 16) ∧
      copyBytes headBytes (q + 17) ((omskJhead.drop p).take 16).sum = .ok (jheadSymbols p n) ∧ ((omskJhead.drop p).take 16).sum = n)
    (ht : Built (jheadCounts p) (jheadSymbols p n) t) (hse : q + 17 + n = se) (s : Jpeg) :
    jpegSegment headBytes 196 q se s = .ok (if b >>> 4 = 0 then { s with hdc := s.hdc.set (b &&& 3) (some t) }
      else { s with hac := s.hac.set (b &&& 3) (some t) }) := by
  obtain ⟨hb, hcnt, hvals, hsum⟩ := hcodes
  exact dht_one hb hcnt hvals ht.build (by rw [hsum]; exact hse)

theorem head_tables : tableSteps headBytes 7 2
    ⟨List.replicate 4 none, List.replicate 4 none, List.replicate 4 none, 0, 0, 0, 0, [], [], [], [], 1, 1⟩ = .ok (590, withTables) := by
  have hlen := length_headBytes
  obtain ⟨⟨hlum, hlumTable⟩, hchr, hchrTable⟩ := head_quantisers
  have hstart (p m l : Nat) (hsegment : (p, m, l) ∈ headSegments) :
      byteAt headBytes p = .ok 255 ∧ byteAt headBytes (p + 1) = .ok m ∧ omskU16 headBytes (p + 2) = .ok l :=
    head_segments (p, m, l) hsegment
  have hlumDc := head_codeTable (head_codes (162, 0, 143, 12) (by decide)) lumDc_built rfl
  have hlumAc := head_codeTable (head_codes (195, 16, 176, 162) (by decide)) lumAc_built rfl
  have hchrDc := head_codeTable (head_codes (378, 1, 359, 12) (by decide)) chrDc_built rfl
  have hchrAc := head_codeTable (head_codes (411, 17, 392, 162) (by decide)) chrAc_built rfl
  refine tableSteps_succ (.inr (.inr rfl)) (hstart 2 224 16 (by decide)) (by decide) (by omega) (jpegSegment_app _ _ _ _) ?_
  refine tableSteps_succ (.inl rfl) (hstart 20 219 67 (by decide)) (by decide) (by omega) (dqt_one hlum rfl hlumTable rfl) ?_
  refine tableSteps_succ (.inl rfl) (hstart 89 219 67 (by decide)) (by decide) (by omega) (dqt_one hchr rfl hchrTable rfl) ?_
  refine tableSteps_succ (.inr (.inl rfl)) (hstart 158 196 31 (by decide)) (by decide) (by omega) (hlumDc _) ?_
  refine tableSteps_succ (.inr (.inl rfl)) (hstart 191 196 181 (by decide)) (by decide) (by omega) (hlumAc _) ?_
  refine tableSteps_succ (.inr (.inl rfl)) (hstart 374 196 31 (by decide)) (by decide) (by omega) (hchrDc _) ?_
  refine tableSteps_succ (.inr (.inl rfl)) (hstart 407 196 181 (by decide)) (by decide) (by omega) (hchrAc _) ?_
  rfl

structure Matches (t : List Nat × List Nat) (c : Component) : Prop where
  nb : c.nb = 1
  agrees : Agrees t.1 t.2 c.dct c.act
  q : c.q.length = 64
  cn : 0 < c.cn
  kmax : c.kmax < 64

section

variable {v : List UInt8} {q k : Nat}

def frameBytes : List UInt8 := encodeFrame.map UInt8.ofNat

theorem byteAt_frame : ∀ j < 24, byteAt frameBytes j = .ok (encodeFrame.getD j 0) := by decide +kernel

theorem frameComponent_eq {id tq : Nat} (s : Jpeg) (hid : byteAt v (q + 6 + k * 3) = .ok id) (hx : byteAt v (q + 6 + k * 3 + 1) = .ok 17)
    (htq : byteAt v (q + 6 + k * 3 + 2) = .ok tq) : frameComponent v q k s =
      .ok { s with cid := s.cid ++ [id], chs := s.chs ++ [1], cvs := s.cvs ++ [1], ctq := s.ctq ++ [tq &&& 3],
                   hmax := max s.hmax 1, vmax := max s.vmax 1 } := by
  rw [frameComponent]
  dsimp only
  rw [hid]
  change (byteAt v (q + 6 + k * 3 + 1)).bind _ = _
  rw [hx]
  change (byteAt v (q + 6 + k * 3 + 2)).bind _ = _
  rw [htq]
  rfl

theorem scanComponent_eq {id x : Nat} {s : Jpeg} {want tq : Nat} {dc ac : Option Huffman} {t : Option (List Nat)}
    (hid : byteAt v (q + 1 + k * 2) = .ok id) (hx : byteAt v (q + 2 + k * 2) = .ok x) (hwant : itemAt s.cid k = .ok want)
    (hsame : id = want) (hdc : itemAt s.hdc (x >>> 4 &&& 3) = .ok dc) (hac : itemAt s.hac (x &&& 3) = .ok ac)
    (htq : itemAt s.ctq k = .ok tq) (ht : itemAt s.qt tq = .ok t) : scanComponent v q k s = .ok (dc, ac, t) := by
  rw [scanComponent, hid]
  change (byteAt v (q + 2 + k * 2)).bind _ = _
  rw [hx]
  change (itemAt s.cid k).bind _ = _
  rw [hwant]
  refine (if_neg (not_not.mpr hsame)).trans ?_
  rw [hdc, hac, htq]
  change (itemAt s.qt tq).bind _ = _
  rw [ht]
  rfl

theorem joined (n : Nat) : (n >>> 8) <<< 8 ||| (n &&& 255) = n := by
  have hlow : n &&& 255 < 2 ^ 8 := Nat.lt_of_le_of_lt Nat.and_le_right (by decide)
  rw [← Nat.shiftLeft_add_eq_or_of_lt hlow, show (255 : Nat) = 2 ^ 8 - 1 from rfl, Nat.and_two_pow_sub_one_eq_mod, Nat.shiftLeft_eq,
    Nat.shiftRight_eq_div_pow]
  omega

theorem ok_bind {α : Type} (a : α) (f : α → Except ε β) : (Except.ok a >>= f) = f a := rfl

/-- The bytes of a picture with `rest` behind its header. -/
def codedBytes (w h : Nat) (rest : List UInt8) : List UInt8 :=
  headBytes ++ ([h >>> 8, h &&& 255, w >>> 8, w &&& 255].map UInt8.ofNat ++ (frameBytes ++ rest))

def codedScan (w h : Nat) : Scan :=
  ⟨623, w, h, 3, [1, 1, 1], [1, 1, 1], 1, 1,
    [some (jheadTable 143 12), some (jheadTable 359 12), some (jheadTable 359 12)],
    [some (jheadTable 176 162), some (jheadTable 392 162), some (jheadTable 392 162)],
    [some omskQlum, some omskQchr, some omskQchr], 0⟩

variable {w h : Nat} {rest : List UInt8}

theorem byteAt_head {i : Nat} (hx : byteAt headBytes i = .ok x) : byteAt (codedBytes w h rest) i = .ok x := byteAt_append hx

theorem byteAt_size (i : Nat) : byteAt (codedBytes w h rest) (595 + i) =
    byteAt ([h >>> 8, h &&& 255, w >>> 8, w &&& 255].map UInt8.ofNat ++ (frameBytes ++ rest)) i := by
  rw [← length_headBytes]
  exact byteAt_behind _ _ i

theorem byteAt_coded {j : Nat} (hj : j < 24) : byteAt (codedBytes w h rest) (599 + j) = .ok (encodeFrame.getD j 0) := by
  rw [show 599 + j = 595 + (4 + j) by omega, byteAt_size]
  exact (byteAt_behind _ _ j).trans (byteAt_append (byteAt_frame j hj))

theorem length_coded : (codedBytes w h rest).length = 623 + rest.length := by
  have hframe : frameBytes.length = 24 := rfl
  rw [codedBytes, List.length_append, List.length_append, List.length_append, length_headBytes, hframe, List.length_map]
  change 595 + (4 + (24 + rest.length)) = _
  omega

theorem omskU16_size (hh : h ≤ 65535) (hw : w ≤ 65535) :
    omskU16 (codedBytes w h rest) 595 = .ok h ∧ omskU16 (codedBytes w h rest) 597 = .ok w := by
  have hhigh {n : Nat} (hn : n ≤ 65535) : n >>> 8 < 256 := by
    rw [Nat.shiftRight_eq_div_pow]
    omega
  have hlow (n : Nat) : n &&& 255 < 256 := Nat.lt_of_le_of_lt Nat.and_le_right (by decide)
  constructor
  · rw [omskU16, show (595 : Nat) = 595 + 0 from rfl, byteAt_size, show 595 + 0 + 1 = 595 + 1 from rfl, byteAt_size]
    change Except.ok ((UInt8.ofNat (h >>> 8)).toNat <<< 8 ||| (UInt8.ofNat (h &&& 255)).toNat) = _
    rw [UInt8.toNat_ofNat_of_lt' (hhigh hh), UInt8.toNat_ofNat_of_lt' (hlow h), joined]
  · rw [omskU16, show (597 : Nat) = 595 + 2 from rfl, byteAt_size, show 595 + 2 + 1 = 595 + 3 from rfl, byteAt_size]
    change Except.ok ((UInt8.ofNat (w >>> 8)).toNat <<< 8 ||| (UInt8.ofNat (w &&& 255)).toNat) = _
    rw [UInt8.toNat_ofNat_of_lt' (hhigh hw), UInt8.toNat_ofNat_of_lt' (hlow w), joined]

def withFrame (w h : Nat) : Jpeg :=
  { withTables with w := w, h := h, nc := 3, cid := [1, 2, 3], chs := [1, 1, 1], cvs := [1, 1, 1], ctq := [0, 1, 1] }

theorem frameHeader_coded (hprec : byteAt v 594 = .ok 8) (hh : omskU16 v 595 = .ok h) (hw : omskU16 v 597 = .ok w)
    (hframe : ∀ j < 24, byteAt v (599 + j) = .ok (encodeFrame.getD j 0)) : frameHeader v 594 withTables = .ok (withFrame w h) := by
  have hthree : (List.range 3).foldlM (fun s k => frameComponent v 594 k s)
      { withTables with w := w, h := h, nc := 3, cid := [], chs := [], cvs := [], ctq := [], hmax := 1, vmax := 1 } =
      .ok (withFrame w h) := by
    rw [show List.range 3 = [0, 1, 2] from rfl, List.foldlM_cons,
      @frameComponent_eq v 594 0 1 0 _ (hframe 1 (by decide)) (hframe 2 (by decide)) (hframe 3 (by decide)), ok_bind, List.foldlM_cons,
      @frameComponent_eq v 594 1 2 1 _ (hframe 4 (by decide)) (hframe 5 (by decide)) (hframe 6 (by decide)), ok_bind, List.foldlM_cons,
      @frameComponent_eq v 594 2 3 1 _ (hframe 7 (by decide)) (hframe 8 (by decide)) (hframe 9 (by decide))]
    rfl
  rw [frameHeader, hprec]
  change (omskU16 v 595).bind _ = _
  rw [hh]
  change (omskU16 v 597).bind _ = _
  rw [hw]
  change (byteAt v (599 + 0)).bind _ = _
  rw [hframe 0 (by decide)]
  exact hthree

theorem scanHeader_coded (hframe : ∀ j < 24, byteAt v (599 + j) = .ok (encodeFrame.getD j 0)) :
    scanHeader v 613 623 (withFrame w h) = .ok (codedScan w h) := by
  have hfirst := @scanComponent_eq v 613 0 1 0 (withFrame w h) 1 0 (some (jheadTable 143 12)) (some (jheadTable 176 162)) (some omskQlum)
    (hframe 15 (by decide)) (hframe 16 (by decide)) rfl rfl rfl rfl rfl rfl
  have hsecond := @scanComponent_eq v 613 1 2 17 (withFrame w h) 2 1 (some (jheadTable 359 12)) (some (jheadTable 392 162)) (some omskQchr)
    (hframe 17 (by decide)) (hframe 18 (by decide)) rfl rfl rfl rfl rfl rfl
  have hthird := @scanComponent_eq v 613 2 3 17 (withFrame w h) 3 1 (some (jheadTable 359 12)) (some (jheadTable 392 162)) (some omskQchr)
    (hframe 19 (by decide)) (hframe 20 (by decide)) rfl rfl rfl rfl rfl rfl
  have hthree : (List.range 3).mapM (fun k => scanComponent v 613 k (withFrame w h)) = .ok
      [(some (jheadTable 143 12), some (jheadTable 176 162), some omskQlum),
          (some (jheadTable 359 12), some (jheadTable 392 162), some omskQchr),
        (some (jheadTable 359 12), some (jheadTable 392 162), some omskQchr)] := by
    rw [show List.range 3 = [0, 1, 2] from rfl, List.mapM_cons, List.mapM_cons, List.mapM_cons, hfirst, hsecond, hthird]
    rfl
  rw [scanHeader, if_neg (show ¬(withFrame w h).nc = 0 from by change ¬3 = 0; decide)]
  change (byteAt v (599 + 14)).bind _ = _
  rw [hframe 14 (by decide)]
  change ((List.range 3).mapM (fun k => scanComponent v 613 k (withFrame w h))).bind _ = _
  rw [hthree]
  rfl

theorem omskJpegHead_coded (hh : h ≤ 65535) (hw : w ≤ 65535) (hrest : 0 < rest.length) :
    omskJpegHead (codedBytes w h rest) = .ok (codedScan w h) := by
  obtain ⟨turns, hturns⟩ : ∃ m, (codedBytes w h rest).length = 7 + (m + 2) := ⟨614 + rest.length, by rw [length_coded]; omega⟩
  have hlen := @length_coded w h rest
  obtain ⟨hsizeh, hsizew⟩ := @omskU16_size w h rest hh hw
  have hframe (j : Nat) (hj : j < 24) := @byteAt_coded w h rest j hj
  have hprec : byteAt (codedBytes w h rest) 594 = .ok 8 := byteAt_head (by decide +kernel)
  have hsof : byteAt (codedBytes w h rest) 590 = .ok 255 ∧ byteAt (codedBytes w h rest) 591 = .ok 192 ∧
      omskU16 (codedBytes w h rest) 592 = .ok 17 :=
    ⟨byteAt_head (by decide +kernel), byteAt_head (by decide +kernel), omskU16_append (by decide +kernel)⟩
  have htables := @tableSteps_loop headBytes ([h >>> 8, h &&& 255, w >>> 8, w &&& 255].map UInt8.ofNat ++ (frameBytes ++ rest)) 2 7
    (turns + 2) _ _ _ head_tables
  change jpegLoop (codedBytes w h rest) _ 2 _ = jpegLoop (codedBytes w h rest) _ 590 withTables at htables
  rw [omskJpegHead, hturns, htables]
  clear htables
  generalize codedBytes w h rest = v at *
  -- SOF0
  have hsegment : jpegSegment v 192 594 609 withTables = .ok (withFrame w h) := by
    rw [jpegSegment, if_neg (by decide), if_neg (by decide), if_pos (.inl rfl)]
    exact frameHeader_coded hprec hsizeh hsizew hframe
  have hsos : omskU16 v 611 = .ok 12 := by
    rw [omskU16, show (611 : Nat) = 599 + 12 from rfl, hframe 12 (by decide), show 599 + 12 + 1 = 599 + 13 from rfl, hframe 13 (by decide)]
    rfl
  have hsof' : jpegLoop v (turns + 2) 590 withTables = jpegLoop v (turns + 1) 609 (withFrame w h) := by
    rw [jpegLoop, if_neg (by omega), hsof.1]
    change (byteAt v 591).bind _ = _
    rw [hsof.2.1]
    change (omskU16 v 592).bind _ = _
    rw [hsof.2.2]
    refine (if_neg (by change ¬v.length < 609; omega)).trans ?_
    change (jpegSegment v 192 594 609 withTables).bind _ = _
    rw [hsegment]
    rfl
  rw [hsof', jpegLoop, if_neg (by omega), show (609 : Nat) = 599 + 10 from rfl, hframe 10 (by decide)]
  change (byteAt v (599 + 11)).bind _ = _
  rw [hframe 11 (by decide)]
  change (omskU16 v 611).bind _ = _
  rw [hsos]
  refine (if_neg (by change ¬v.length < 623; omega)).trans ?_
  exact scanHeader_coded hframe

end

section

variable {v : List UInt8} {s : BitState} {text : List Bool}

def scaledMcu (cs : List Component) (blocks : List (List Int)) : List (List Coefficients) :=
  List.zipWith (fun c all => [scaledBlock c.q c.cn c.kmax all]) cs blocks

theorem readMcu_spec {tables : List (List Nat × List Nat)} {cs : List Component} (hmatches : List.Forall₂ Matches tables cs)
    {preds : List Int}
    (hpreds : ∀ p ∈ preds, p.natAbs < 512) (hplen : preds.length = cs.length) {blocks : List (List Int)}
    (hblocks : ∀ qs ∈ blocks, Codable qs) (hblen : blocks.length = cs.length) (h : Ahead v s (mcuText tables preds blocks ++ text)) :
    ∃ s', readMcu v cs preds s = .ok (lastDcs blocks, scaledMcu cs blocks, s') ∧ Ahead v s' text := by
  induction hmatches generalizing preds blocks s with
  | nil =>
    rw [List.length_nil, List.length_eq_zero_iff] at hplen hblen
    subst hplen hblen
    exact ⟨s, rfl, h⟩
  | @cons t c tables cs hmatch _ ih =>
    obtain _ | ⟨pred, preds⟩ := preds
    · cases hplen
    · obtain _ | ⟨all, blocks⟩ := blocks
      · cases hblen
      · obtain ⟨hpred, hpreds⟩ := List.forall_mem_cons.mp hpreds
        obtain ⟨hall, hblocks⟩ := List.forall_mem_cons.mp hblocks
        obtain ⟨edc, eac⟩ := t
        rw [mcuText, List.append_assoc] at h
        obtain ⟨s₁, hblock, h₁⟩ := readBlock_spec hmatch.agrees hall hmatch.q hmatch.kmax hmatch.cn hpred h
        obtain ⟨s₂, hrest, h₂⟩ := ih hpreds (Nat.succ.inj hplen) hblocks (Nat.succ.inj hblen) h₁
        refine ⟨s₂, ?_, h₂⟩
        rw [readMcu, hmatch.nb, readBlocks, hblock]
        change (readMcu v cs preds s₁).bind _ = _
        rw [hrest]
        rfl

theorem readMcus_spec {cs : List Component} (hmatches : List.Forall₂ Matches encoderTables cs) {mcus : List (List (List Int))}
    (hmcus : ∀ blocks ∈ mcus, CodableMcu blocks) {preds : List Int} (hpreds : ∀ p ∈ preds, p.natAbs < 512) (hplen : preds.length = 3)
    (left : Nat) (h : Ahead v s (mcusText preds mcus ++ text)) :
    ∃ s', readMcus v cs 0 mcus.length left preds s = .ok (mcus.map (scaledMcu cs), s') ∧ Ahead v s' text := by
  have hlen : cs.length = 3 := hmatches.length_eq.symm
  induction mcus generalizing preds left s with
  | nil => exact ⟨s, rfl, h⟩
  | cons blocks mcus ih =>
    obtain ⟨hblocks, hmcus⟩ := List.forall_mem_cons.mp hmcus
    rw [mcusText, List.append_assoc] at h
    obtain ⟨s₁, hmcu, h₁⟩ := readMcu_spec hmatches hpreds (hplen.trans hlen.symm) hblocks.codable (hblocks.length.trans hlen.symm) h
    have hlast : (lastDcs blocks).length = 3 := by
      rw [lastDcs, List.length_map]
      exact hblocks.length
    obtain ⟨s₂, hrest, h₂⟩ := ih hmcus (lastDcs_small hblocks.codable) hlast (left - 1) h₁
    refine ⟨s₂, ?_, h₂⟩
    rw [List.length_cons, readMcus, restartMcu, if_neg (by omega)]
    change (readMcu v cs preds s).bind _ = _
    rw [hmcu]
    change (readMcus v cs 0 mcus.length (left - 1) (lastDcs blocks) s₁).bind _ = _
    rw [hrest]
    rfl

def codedComponents (cn kmax : Nat → Nat) : List Component :=
  [⟨1, jheadTable 143 12, jheadTable 176 162, omskQlum, cn 0, kmax 0⟩, ⟨1, jheadTable 359 12, jheadTable 392 162, omskQchr, cn 1, kmax 1⟩,
    ⟨1, jheadTable 359 12, jheadTable 392 162, omskQchr, cn 2, kmax 2⟩]

theorem codedComponents_match {cn kmax : Nat → Nat} (hcn : ∀ c, 0 < cn c) (hkmax : ∀ c, kmax c < 64) :
    List.Forall₂ Matches encoderTables (codedComponents cn kmax) := by
  have hqlum : omskQlum.length = 64 := by decide
  have hqchr : omskQchr.length = 64 := by decide
  have hlum := lum_same.agrees lumDc_built lumAc_built
  have hchr := chr_same.agrees chrDc_built chrAc_built
  have hfirst : Matches (omskEdcl, omskEacl) ⟨1, jheadTable 143 12, jheadTable 176 162, omskQlum, cn 0, kmax 0⟩ := by
    refine ⟨rfl, ?_, hqlum, hcn 0, hkmax 0⟩
    dsimp only
    exact hlum
  have hother (c : Nat) : Matches (omskEdcc, omskEacc) ⟨1, jheadTable 359 12, jheadTable 392 162, omskQchr, cn c, kmax c⟩ := by
    refine ⟨rfl, ?_, hqchr, hcn c, hkmax c⟩
    dsimp only
    exact hchr
  exact .cons hfirst (.cons (hother 1) (.cons (hother 2) .nil))

theorem readScan_coded {w h : Nat} (hw : w ≤ 65535) (hh : h ≤ 65535) (cn kmax : Nat → Nat) :
    readScan v (codedScan w h) cn kmax =
      readMcus v (codedComponents cn kmax) 0 (((w + 7) >>> 3) * ((h + 7) >>> 3)) 0 [0, 0, 0] ⟨623, 0, 0, false⟩ := by
  have hunits {size : Nat} (hsize : size ≤ 65535) : omskIdiv (size + 8 * 1 - 1) (8 * 1) = (size + 7) >>> 3 := by
    rw [omskIdiv_eq (by decide) (by omega), Nat.shiftRight_eq_div_pow]
    omega
  have hcomponents : (List.range 3).mapM (fun c => component (codedScan w h) (cn c) (kmax c) c) = .ok (codedComponents cn kmax) := rfl
  rw [readScan]
  change (((List.range 3).mapM fun c => component (codedScan w h) (cn c) (kmax c) c).bind fun cs =>
    readMcus v cs 0 (omskIdiv (w + 8 * 1 - 1) (8 * 1) * omskIdiv (h + 8 * 1 - 1) (8 * 1)) 0 [0, 0, 0] ⟨623, 0, 0, false⟩) = _
  rw [hcomponents, hunits hw, hunits hh]
  rfl

theorem codedBytes_drop {w h : Nat} {rest : List UInt8} : (codedBytes w h rest).drop 623 = rest := by
  have hframe : frameBytes.length = 24 := rfl
  have hfront : (headBytes ++ ([h >>> 8, h &&& 255, w >>> 8, w &&& 255].map UInt8.ofNat ++ frameBytes)).length = 623 := by
    rw [List.length_append, List.length_append, length_headBytes, hframe]
    rfl
  rw [codedBytes, ← List.append_assoc (List.map _ _), ← List.append_assoc, ← hfront, List.drop_left]

/-- Whatever Omsk writes, it reads back: the size, and each block in its order, but for the padding of the
last byte. -/
theorem jpeg_round_trip {w h : Nat} (hw : 0 < w ∧ w ≤ 65535) (hh : 0 < h ∧ h ≤ 65535) {rgb : List UInt8}
    (hrgb : rgb.length = 3 * (w * h)) {cn kmax : Nat → Nat} (hcn : ∀ c, 0 < cn c) (hkmax : ∀ c, kmax c < 64) :
    ∃ mcus out s pad, omskCoefs rgb w h = .ok mcus ∧ omskEncode rgb w h = .ok out ∧ omskJpegHead out = .ok (codedScan w h) ∧
      readScan out (codedScan w h) cn kmax = .ok (mcus.map (scaledMcu (codedComponents cn kmax)), s) ∧
      pad < 8 ∧ Ahead out s (List.replicate pad true) := by
  obtain ⟨mcus, hmcus, hlen, hcodable⟩ := omskCoefs_spec hw.1 hh.1 hrgb
  -- what is written
  let front := encodeHead ++ [h >>> 8, h &&& 255, w >>> 8, w &&& 255] ++ encodeFrame
  have hstart : Writes front ⟨front, 0, 0⟩ [] :=
    ⟨Nat.zero_lt_succ 7, Nat.zero_lt_one, [], (List.append_nil _).symm, fun b hb => absurd hb List.not_mem_nil, rfl⟩
  have hzeros : ∀ p ∈ ([0, 0, 0] : List Int), p.natAbs < 512 := by decide
  obtain ⟨st, hemit, hwrites⟩ := emitMcus_spec (fun blocks hb => (hcodable blocks hb).codable) hzeros hstart
  obtain ⟨data, pad, hfinish, hbytes, hpad, htext⟩ := finish_spec hwrites
  have hencode : omskEncode rgb w h = .ok ((finish st ++ [255] ++ [217]).map UInt8.ofNat) := by
    rw [omskEncode, hmcus]
    change (emitMcus [0, 0, 0] mcus ⟨front, 0, 0⟩).bind _ = _
    rw [hemit]
    rfl
  have hout : (finish st ++ [255] ++ [217]).map UInt8.ofNat = codedBytes w h ((stuff data ++ [255, 217]).map UInt8.ofNat) := by
    rw [hfinish]
    simp only [front, codedBytes, headBytes, frameBytes, List.map_append, List.append_assoc]
    rfl
  rw [hout] at hencode
  -- and read
  have hahead : Ahead (codedBytes w h ((stuff data ++ [255, 217]).map UInt8.ofNat)) ⟨623, 0, 0, false⟩
      (mcusText [0, 0, 0] mcus ++ List.replicate pad true) := by
    refine ⟨data, 0, hbytes, ?_, ?_, fun hmarker => absurd hmarker (by decide)⟩
    · exact codedBytes_drop
    · rw [htext]
      exact (List.append_nil _).symm
  obtain ⟨s, hread, hbehind⟩ := readMcus_spec (codedComponents_match hcn hkmax) hcodable hzeros rfl 0 hahead
  refine ⟨mcus, _, s, pad, hmcus, hencode, omskJpegHead_coded hh.2 hw.2 (by simp), ?_, hpad, hbehind⟩
  rw [readScan_coded hw.2 hh.2, ← hlen]
  exact hread

/-- 9 by 2 pixels without any pattern to them. -/
def patchPicture : List UInt8 := (List.range 54).map fun k => UInt8.ofNat (k * k)

/-- Two places, each with blocks that have more than their first coefficient. -/
theorem patch_round_trip : ∃ mcus out s pad, omskCoefs patchPicture 9 2 = .ok mcus ∧
    (mcus.length = 2 ∧ ∀ blocks ∈ mcus, ∀ block ∈ blocks, ∃ q ∈ block.tail, q ≠ 0) ∧ omskEncode patchPicture 9 2 = .ok out ∧
    omskJpegHead out = .ok (codedScan 9 2) ∧
    readScan out (codedScan 9 2) (fun _ => 8) (fun _ => 63) = .ok (mcus.map (scaledMcu (codedComponents (fun _ => 8) fun _ => 63)), s) ∧
    pad < 8 ∧ Ahead out s (List.replicate pad true) := by
  have hlength : patchPicture.length = 3 * (9 * 2) := by rw [patchPicture, List.length_map, List.length_range]
  obtain ⟨mcus, out, s, pad, hmcus, hrest⟩ := @jpeg_round_trip 9 2 ⟨by decide, by decide⟩ ⟨by decide, by decide⟩ patchPicture hlength
    (fun _ => 8) (fun _ => 63) (fun _ => by decide) fun _ => by decide
  have hall : (omskCoefs patchPicture 9 2).toOption.all (fun mcus => mcus.length = 2 ∧ ∀ blocks ∈ mcus, ∀ block ∈ blocks,
      ∃ q ∈ block.tail, q ≠ 0) = true := by decide +kernel
  rw [hmcus] at hall
  exact ⟨mcus, out, s, pad, hmcus, of_decide_eq_true hall, hrest⟩

end

end Ussr.Omsk
