import Ussr.Murmansk.Firewall

/-! The firewall decides as its list of rules does, after any calls. -/

namespace Ussr.Murmansk
open Stalin (Text)
open Firewall

section

variable {w w' : List Text} {r : Rule}
variable {as bs : List (Nat × Rule)}

theorem readPorts_sound {proto : Proto} {lo hi : Nat} (h : readPorts proto w = .ok ((lo, hi), w')) :
    lo ≤ hi ∧ hi ≤ 65535 ∧ (lo ≠ 0 ∨ hi ≠ 65535 → proto = .tcp ∨ proto = .udp) := by
  have hall : 0 ≤ 65535 ∧ 65535 ≤ 65535 ∧ (0 ≠ 0 ∨ 65535 ≠ 65535 → proto = .tcp ∨ proto = .udp) :=
    ⟨by decide, le_refl _, fun hne => absurd hne (by decide)⟩
  cases w with
  | nil =>
    cases h
    exact hall
  | cons x w =>
    rw [readPorts] at h
    by_cases hports : x ≠ Real64.ascii "from" ∧ x ≠ Real64.ascii "to"
    · rw [if_pos hports] at h
      by_cases hproto : proto ≠ .tcp ∧ proto ≠ .udp
      · rw [if_pos hproto] at h
        cases h
      · rw [if_neg hproto] at h
        split at h
        next =>
          split at h
          next => cases h
          next hrange =>
            cases h
            refine ⟨by omega, by omega, fun _ => ?_⟩
            by_contra hno
            exact hproto (not_or.mp hno)
        next => cases h
    · rw [if_neg hports] at h
      cases h
      exact hall

theorem readNetwork_sound {dir : Dir} {net bits : Nat} (h : readNetwork dir w = .ok ((net, bits), w')) :
    bits ≤ 32 ∧ net < 2 ^ 32 ∧ net &&& muMask bits = net := by
  cases w with
  | nil =>
    cases h
    exact ⟨by decide, by decide, rfl⟩
  | cons x w =>
    cases w with
    | nil =>
      rw [readNetwork] at h
      split_ifs at h
    | cons a w =>
      rw [readNetwork] at h
      split at h
      next => cases h
      next =>
        split at h
        next =>
          split at h
          next => cases h
          next hbits =>
            cases h
            refine ⟨by omega, Nat.and_lt_two_pow _ (muMask_lt _), ?_⟩
            rw [Nat.and_assoc, Nat.and_self]
        next => cases h

theorem muParse_sound {text : Text} (h : muParse text = .ok r) : r.Sound := by
  unfold muParse at h
  split at h
  next action dir w hw =>
    obtain ⟨action, -, h⟩ := Codec.except_bind_ok h
    obtain ⟨dir, -, h⟩ := Codec.except_bind_ok h
    obtain ⟨⟨⟨lo, hi⟩, w₁⟩, hports, h⟩ := Codec.except_bind_ok h
    obtain ⟨⟨⟨net, bits⟩, w₂⟩, hnetwork, h⟩ := Codec.except_bind_ok h
    obtain ⟨-, -, h⟩ := Codec.except_bind_ok h
    cases h
    obtain ⟨hlow, hhigh, hproto⟩ := readPorts_sound hports
    obtain ⟨hbits, hnet, hmasked⟩ := readNetwork_sound hnetwork
    exact ⟨hlow, hhigh, hproto, hbits, hnet, hmasked⟩
  next => cases h

end

section

structure Stored (f : Firewall) (pairs : List (Nat × Rule)) : Prop where
  get_zero : f.rules.get 0 = none
  get_succ : ∀ i, f.rules.get (i + 1) = pairs[i]?.map Prod.fst
  len : f.rules.len = pairs.length
  objects : ∀ e ∈ pairs, f.objects[e.1]? = some e.2
  nodup : (pairs.map Prod.fst).Nodup
  sound : ∀ e ∈ pairs, e.2.Sound

variable {f : Firewall} {pairs : List (Nat × Rule)}

theorem stored_reset : Stored murmanskReset [] :=
  ⟨rfl, fun _ => rfl, rfl, fun _ he => absurd he List.not_mem_nil, List.nodup_nil, fun _ he => absurd he List.not_mem_nil⟩

theorem Stored.congr {g : Firewall} (h : Stored f pairs) (hrules : g.rules = f.rules) (hobjects : g.objects = f.objects) :
    Stored g pairs :=
  ⟨by rw [hrules]; exact h.get_zero, by rw [hrules]; exact h.get_succ, by rw [hrules]; exact h.len,
    by rw [hobjects]; exact h.objects, h.nodup, h.sound⟩

theorem Stored.rule (h : Stored f pairs) (i : Nat) : f.rule (i + 1) = pairs[i]? := by
  rw [Firewall.rule, h.get_succ]
  cases hpair : pairs[i]? with
  | none => rfl
  | some e =>
    have hobject := h.objects e (List.mem_of_getElem? hpair)
    simp only [Option.map_some, Option.bind_some, hobject]

theorem Stored.rule_append {e : Nat × Rule} (h : Stored f (as ++ e :: bs)) :
    f.rule (as.length + 1) = some e := by
  rw [h.rule, List.getElem?_append_right (le_refl _), Nat.sub_self]
  rfl

theorem Stored.muMatchFrom (p : Packet) (h : Stored f (as ++ bs)) :
    f.muMatchFrom p bs.length (as.length + 1) = some (bs.find? fun e => Matches p e.2) := by
  induction bs generalizing as with
  | nil => rfl
  | cons e bs ih =>
    have hfits := fits_eq (p := p) (h.sound e (List.mem_append_right as List.mem_cons_self))
    rw [List.length_cons, Firewall.muMatchFrom, h.rule_append, Option.bind_some, hfits, List.find?_cons]
    by_cases hmatch : Matches p e.2
    · rw [decide_eq_true hmatch, if_pos rfl]
    · have happended : Stored f ((as ++ [e]) ++ bs) := by rw [List.append_assoc]; exact h
      have hrest := ih happended
      rw [List.length_append] at hrest
      rw [decide_eq_false hmatch, if_neg (by decide)]
      exact hrest

theorem Stored.muMatch (h : Stored f pairs) (p : Packet) :
    f.muMatch p = some (pairs.find? fun e => Matches p e.2) := by
  unfold Firewall.muMatch
  rw [h.len]
  have hall : Stored f ([] ++ pairs) := h
  exact hall.muMatchFrom p

theorem Stored.append (h : Stored f pairs) {r : Rule} (hr : r.Sound) :
    Stored (f.append r) (pairs ++ [(f.objects.length, r)]) := by
  have hfresh : ∀ e ∈ pairs, e.1 < f.objects.length := fun e he =>
    (List.getElem?_eq_some_iff.mp (h.objects e he)).1
  have hnone : f.rules.get (f.rules.len + 1) = none := by
    rw [h.get_succ, h.len, List.getElem?_eq_none (le_refl _)]
    rfl
  refine ⟨?_, fun i => ?_, ?_, fun e he => ?_, ?_, fun e he => ?_⟩
  · exact (OrdMap.get_put_ne (Nat.succ_ne_zero _).symm).trans h.get_zero
  · rw [Firewall.append, OrdMap.get_put, h.get_succ, h.len]
    obtain hlt | rfl | hgt := lt_trichotomy i pairs.length
    · rw [if_neg (by omega), List.getElem?_append_left hlt]
    · rw [if_pos rfl, List.getElem?_concat_length]
      rfl
    · rw [if_neg (by omega), List.getElem?_eq_none (by omega), List.getElem?_eq_none (by rw [List.length_append]; simpa using hgt)]
  · rw [Firewall.append, OrdMap.len_put_of_none hnone, h.len, List.length_append]
    rfl
  · obtain hold | hnew := List.mem_append.mp he
    · rw [Firewall.append, List.getElem?_append_left (hfresh e hold)]
      exact h.objects e hold
    · rw [List.mem_singleton.mp hnew]
      exact List.getElem?_concat_length
  · rw [List.map_append, List.map_singleton, List.nodup_append]
    refine ⟨h.nodup, List.nodup_singleton _, ?_⟩
    rintro a ha b hb rfl
    obtain ⟨e, he, rfl⟩ := List.mem_map.mp ha
    exact absurd (List.mem_singleton.mp hb) (hfresh e he).ne
  · obtain hold | hnew := List.mem_append.mp he
    · exact h.sound e hold
    · rw [List.mem_singleton.mp hnew]
      exact hr

theorem shiftDown_get {turns i : Nat} {rules : OrdMap Nat Nat} (h : ∀ k, i < k → k ≤ i + turns → ∃ v, rules.get k = some v)
    (hi : ∃ v, rules.get i = some v) :
    ∃ shifted, shiftDown turns i rules = some shifted ∧ shifted.len = rules.len ∧
      ∀ k, shifted.get k = if i ≤ k ∧ k < i + turns then rules.get (k + 1) else rules.get k := by
  induction turns generalizing i rules with
  | zero => exact ⟨rules, rfl, rfl, fun k => by rw [if_neg (by omega)]⟩
  | succ turns ih =>
    obtain ⟨next, hnext⟩ := h (i + 1) (by omega) (by omega)
    obtain ⟨v, hv⟩ := hi
    have hafter : ∀ k, i + 1 < k → k ≤ i + 1 + turns → ∃ v, (rules.put i next).get k = some v := by
      intro k hlow hhigh
      rw [OrdMap.get_put_ne (by omega)]
      exact h k (by omega) (by omega)
    obtain ⟨shifted, hshift, hlen, hget⟩ := ih hafter ⟨next, by rw [OrdMap.get_put_ne (by omega)]; exact hnext⟩
    refine ⟨shifted, ?_, ?_, fun k => ?_⟩
    · rw [shiftDown, hnext]
      exact hshift
    · rw [hlen, OrdMap.len_put_of_get hv]
    · rw [hget, OrdMap.get_put, OrdMap.get_put]
      by_cases hk : k = i
      · subst hk
        rw [if_neg (by omega), if_pos rfl, if_pos (by omega), hnext]
      · by_cases hin : i + 1 ≤ k ∧ k < i + 1 + turns
        · rw [if_pos hin, if_neg (by omega), if_pos (by omega)]
        · rw [if_neg hin, if_neg hk, if_neg (by omega)]

theorem Stored.delete (h : Stored f pairs) {n : Nat} (hn : n < pairs.length) :
    ∃ rules, shiftDown (f.rules.len - (n + 1)) (n + 1) f.rules = some rules ∧
      Stored { f with rules := rules.del f.rules.len } (pairs.eraseIdx n) := by
  have hsome : ∀ k, 0 < k → k ≤ pairs.length → ∃ v, f.rules.get k = some v := by
    intro k hpos hle
    obtain ⟨i, rfl⟩ := Nat.exists_eq_succ_of_ne_zero (Nat.pos_iff_ne_zero.mp hpos)
    exact ⟨_, by rw [h.get_succ, List.getElem?_eq_getElem (by omega)]; rfl⟩
  have hlen := h.len
  have hafter : ∀ k, n + 1 < k → k ≤ n + 1 + (f.rules.len - (n + 1)) → ∃ v, f.rules.get k = some v :=
    fun k hlow hhigh => hsome k (by omega) (by omega)
  obtain ⟨rules, hshift, hrules, hget⟩ := shiftDown_get hafter (hsome (n + 1) (by omega) (by omega))
  obtain ⟨last, hlast⟩ : ∃ v, rules.get f.rules.len = some v := by
    rw [hget, if_neg (by omega)]
    exact hsome _ (by omega) (by omega)
  refine ⟨rules, hshift, ?_, fun i => ?_, ?_, fun e he => ?_, ?_, fun e he => ?_⟩
  · change (rules.del f.rules.len).get 0 = none
    rw [OrdMap.get_del_ne (by omega), hget, if_neg (by omega)]
    exact h.get_zero
  · change (rules.del f.rules.len).get (i + 1) = _
    rw [OrdMap.get_del, hget, h.get_succ, h.get_succ, List.getElem?_eraseIdx, hlen]
    obtain hlt | heq | hgt := lt_trichotomy (i + 1) pairs.length
    · rw [if_neg (by omega)]
      by_cases hin : i < n
      · rw [if_neg (by omega), if_pos hin]
      · rw [if_pos (by omega), if_neg hin]
    · rw [if_pos heq, if_neg (by omega), List.getElem?_eq_none (by omega)]
      rfl
    · rw [if_neg (by omega), if_neg (by omega), if_neg (by omega), List.getElem?_eq_none (by omega),
        List.getElem?_eq_none (by omega)]
  · have hdel := OrdMap.len_del hlast
    change (rules.del f.rules.len).len = _
    rw [List.length_eraseIdx_of_lt hn]
    omega
  · exact h.objects e (List.mem_of_mem_eraseIdx he)
  · rw [← List.eraseIdx_map]
    exact h.nodup.sublist (List.eraseIdx_sublist _ _)
  · exact h.sound e (List.mem_of_mem_eraseIdx he)

theorem Stored.modify {e : Nat × Rule} (h : Stored f (as ++ e :: bs)) :
    Stored { f with objects := f.objects.modify e.1 countHit } (as ++ (e.1, countHit e.2) :: bs) := by
  have hrefs : (as ++ (e.1, countHit e.2) :: bs).map Prod.fst = (as ++ e :: bs).map Prod.fst := by
    rw [List.map_append, List.map_append]
    rfl
  have hother : ∀ x, x ∈ as ∨ x ∈ bs → e.1 ≠ x.1 := by
    have hnodup := h.nodup
    rw [List.map_append, List.map_cons, List.nodup_middle, List.nodup_cons, ← List.map_append] at hnodup
    rintro x hx heq
    exact hnodup.1 (heq ▸ List.mem_map_of_mem (List.mem_append.mpr hx))
  have hobject := h.objects e (List.mem_append_right as List.mem_cons_self)
  have hkept : ∀ x, x ∈ as ∨ x ∈ bs → (f.objects.modify e.1 countHit)[x.1]? = some x.2 := by
    intro x hx
    rw [List.getElem?_modify_ne countHit f.objects (hother x hx)]
    exact h.objects x (hx.elim (List.mem_append_left _) fun hb => List.mem_append_right as (List.mem_cons_of_mem e hb))
  refine ⟨h.get_zero, fun i => ?_, ?_, fun x hx => ?_, hrefs ▸ h.nodup, fun x hx => ?_⟩
  · rw [← List.getElem?_map, hrefs, List.getElem?_map]
    exact h.get_succ i
  · rw [List.length_append, List.length_cons]
    exact h.len.trans (by rw [List.length_append, List.length_cons])
  · obtain ha | hx := List.mem_append.mp hx
    · exact hkept x (Or.inl ha)
    · obtain rfl | hb := List.mem_cons.mp hx
      · rw [List.getElem?_modify_eq, hobject]
        rfl
      · exact hkept x (Or.inr hb)
  · obtain ha | hx := List.mem_append.mp hx
    · exact h.sound x (List.mem_append_left _ ha)
    · obtain rfl | hb := List.mem_cons.mp hx
      · obtain ⟨low, high, ports, bits, net, masked⟩ := h.sound e (List.mem_append_right as List.mem_cons_self)
        exact ⟨low, high, ports, bits, net, masked⟩
      · exact h.sound x (List.mem_append_right as (List.mem_cons_of_mem e hb))

end

section

/-- The lines with their numbers, from `k` on. -/
def numbered : (k : Nat) → List Text → List (Nat × Text)
  | _, [] => []
  | k, line :: lines => (k, line) :: numbered (k + 1) lines

structure Logged (f : Firewall) (lines : List Text) : Prop where
  drops : f.drops = lines.length
  logn : f.logn = lines.length
  entries : f.log.entries = numbered (lines.length - 16 + 1) (lines.drop (lines.length - 16))

theorem numbered_concat (k : Nat) (lines : List Text) (line : Text) :
    numbered k (lines ++ [line]) = numbered k lines ++ [(k + lines.length, line)] := by
  induction lines generalizing k with
  | nil => rfl
  | cons l lines ih =>
    rw [List.cons_append, numbered, ih, numbered, List.cons_append, List.length_cons, Nat.add_right_comm, Nat.add_assoc]

theorem length_numbered (k : Nat) (lines : List Text) : (numbered k lines).length = lines.length := by
  induction lines generalizing k with
  | nil => rfl
  | cons l lines ih => rw [numbered, List.length_cons, List.length_cons, ih]

theorem numbered_key_lt {k : Nat} {lines : List Text} {e : Nat × Text} (h : e ∈ numbered k lines) :
    e.1 < k + lines.length := by
  induction lines generalizing k with
  | nil => exact absurd h List.not_mem_nil
  | cons l lines ih =>
    rw [List.length_cons]
    obtain rfl | htail := List.mem_cons.mp h
    · dsimp only
      omega
    · have := ih htail
      omega

variable {f : Firewall} {lines : List Text}

theorem logged_reset : Logged murmanskReset [] := ⟨rfl, rfl, rfl⟩

theorem Logged.congr {g : Firewall} (h : Logged f lines) (hdrops : g.drops = f.drops) (hlogn : g.logn = f.logn)
    (hlog : g.log = f.log) : Logged g lines :=
  ⟨hdrops.trans h.drops, hlogn.trans h.logn, by rw [hlog]; exact h.entries⟩

theorem Logged.drop (h : Logged f lines) (line : Text) : Logged (f.logDrop line) (lines ++ [line]) := by
  have hkeep : lines.drop (lines.length - 16) ++ [line] = (lines ++ [line]).drop (lines.length - 16) :=
    (List.drop_append_of_le_length (by omega)).symm
  have hnumber : lines.length - 16 + 1 + (lines.drop (lines.length - 16)).length = f.logn + 1 := by
    rw [List.length_drop, h.logn]
    omega
  have hput : (f.log.put (f.logn + 1) line).entries =
      numbered (lines.length - 16 + 1) ((lines ++ [line]).drop (lines.length - 16)) := by
    rw [← hkeep, numbered_concat, hnumber]
    have hentries : f.log.entries = numbered (lines.length - 16 + 1) (lines.drop (lines.length - 16)) ++ [] := by
      rw [List.append_nil]
      exact h.entries
    refine OrdMap.put_of_around hentries ⟨fun e he => ?_, ?_⟩ line
    · exact (numbered_key_lt he).trans_eq hnumber
    · exact fun b hb => absurd hb List.not_mem_nil
  have hlen : (f.log.put (f.logn + 1) line).len = lines.length + 1 - (lines.length - 16) := by
    rw [OrdMap.len, hput, length_numbered, List.length_drop, List.length_append, List.length_singleton]
  have hlength : (lines ++ [line]).length = lines.length + 1 := by rw [List.length_append, List.length_singleton]
  refine ⟨?_, ?_, ?_⟩
  · rw [hlength, ← h.drops]
    rfl
  · rw [hlength, ← h.logn]
    rfl
  · change (if 16 < _ then _ else _ : OrdMap Nat Text).entries = _
    rw [hlength, hlen]
    by_cases hfew : lines.length < 16
    · rw [if_neg (by omega), hput]
      congr 2 <;> omega
    · -- The seventeenth line takes the place of the first.
      have hfirst := List.drop_eq_getElem_cons (l := lines ++ [line]) (i := lines.length - 16) (by omega)
      rw [hfirst, numbered] at hput
      have hentries : (f.log.put (f.logn + 1) line).entries = [] ++ _ := hput
      rw [if_pos (by omega), OrdMap.first_of_cons hput, Option.elim_some, OrdMap.del_of_entries hentries]
      rw [show lines.length - 16 + 1 = lines.length + 1 - 16 by omega]
      rfl

end

section

/-- The firewall holds the rules of `s`, in its order, with its policies and its last drops. -/
structure Shows (f : Firewall) (s : Ruleset) : Prop where
  stored : ∃ pairs, Stored f pairs ∧ pairs.map Prod.snd = s.rules
  inPolicy : f.inPolicy = s.inPolicy
  outPolicy : f.outPolicy = s.outPolicy
  logged : Logged f s.dropped

variable {f : Firewall} {s : Ruleset}

theorem shows_start : Shows murmanskReset .start := ⟨⟨[], stored_reset, rfl⟩, rfl, rfl, logged_reset⟩

theorem Shows.policy (h : Shows f s) (dir : Dir) : f.policy dir = s.policy dir := by
  cases dir
  · exact h.inPolicy
  · exact h.outPolicy

theorem Shows.fail (h : Shows f s) (m : Text) : Shows (f.fail m).1 s := by
  obtain ⟨pairs, hstored, hrules⟩ := h.stored
  exact ⟨⟨pairs, hstored.congr rfl rfl, hrules⟩, h.inPolicy, h.outPolicy, h.logged.congr rfl rfl rfl⟩

theorem Shows.add (h : Shows f s) (text : Text) : Shows (f.murmanskAdd text).1 (s.add text) := by
  obtain ⟨pairs, hstored, hrules⟩ := h.stored
  unfold murmanskAdd Ruleset.add
  cases hpolicy : muPolicy text with
  | error m => exact h.fail m
  | ok policy =>
    cases policy with
    | none =>
      cases hparse : muParse text with
      | error m => exact h.fail m
      | ok r =>
        refine ⟨⟨_, hstored.append (muParse_sound hparse), ?_⟩, h.inPolicy, h.outPolicy, h.logged.congr rfl rfl rfl⟩
        rw [List.map_append, hrules]
        rfl
    | some change =>
      obtain ⟨dir, action⟩ := change
      cases dir
      · exact ⟨⟨pairs, hstored.congr rfl rfl, hrules⟩, rfl, h.outPolicy, h.logged.congr rfl rfl rfl⟩
      · exact ⟨⟨pairs, hstored.congr rfl rfl, hrules⟩, h.inPolicy, rfl, h.logged.congr rfl rfl rfl⟩

theorem Shows.delete (h : Shows f s) (n : Option Int) :
    ∃ v, f.murmanskDelete n = some v ∧ Shows v.1 (s.call (.delete n)) := by
  obtain ⟨pairs, hstored, hrules⟩ := h.stored
  have hlength : pairs.length = s.rules.length := by rw [← hrules, List.length_map]
  cases n with
  | none => exact ⟨_, rfl, h.fail _⟩
  | some n =>
    have hlen := hstored.len
    change ∃ v : Firewall × Int, _ ∧ Shows v.1 (s.delete n)
    unfold murmanskDelete Ruleset.delete
    by_cases hrange : n < 1 ∨ f.rules.len < n
    · refine ⟨_, if_pos hrange, ?_⟩
      by_cases hone : 1 ≤ n
      · rw [if_pos hone, List.eraseIdx_of_length_le (by omega)]
        exact h.fail _
      · rw [if_neg hone]
        exact h.fail _
    · obtain ⟨i, hi⟩ : ∃ i, n.toNat = i + 1 := ⟨n.toNat - 1, by omega⟩
      obtain ⟨rules, hshift, hafter⟩ := hstored.delete (n := i) (by omega)
      dsimp only
      rw [if_neg hrange, if_pos (by omega), hi, hshift]
      refine ⟨_, rfl, ⟨_, hafter, ?_⟩, h.inPolicy, h.outPolicy, h.logged.congr rfl rfl rfl⟩
      rw [← List.eraseIdx_map, hrules, Nat.add_sub_cancel]

theorem find_snd {pairs : List (Nat × Rule)} (hrules : pairs.map Prod.snd = s.rules) (p : Packet) :
    (s.rules.find? fun r => Matches p r) = (pairs.find? fun e => Matches p e.2).map Prod.snd := by
  rw [← hrules, List.find?_map]
  rfl

theorem Shows.allows (h : Shows f s) (p : Packet) :
    f.murmanskAllows p = some (decide (s.decides p = .allow)) := by
  obtain ⟨pairs, hstored, hrules⟩ := h.stored
  unfold murmanskAllows Ruleset.decides
  rw [hstored.muMatch, find_snd hrules, Option.map_some, h.policy]
  cases pairs.find? fun e => Matches p e.2 <;> rfl

theorem countFirst_append {p : Packet} {as bs : List Rule} {r : Rule} (has : ∀ a ∈ as, ¬Matches p a) (hr : Matches p r) :
    Ruleset.countFirst p (as ++ r :: bs) = as ++ countHit r :: bs := by
  induction as with
  | nil => exact if_pos hr
  | cons a as ih =>
    rw [List.cons_append, Ruleset.countFirst, if_neg (has a List.mem_cons_self),
      ih fun x hx => has x (List.mem_cons_of_mem a hx)]
    rfl

theorem countFirst_none {p : Packet} {rules : List Rule} (h : ∀ r ∈ rules, ¬Matches p r) :
    Ruleset.countFirst p rules = rules := by
  induction rules with
  | nil => rfl
  | cons r rules ih =>
    rw [Ruleset.countFirst, if_neg (h r List.mem_cons_self), ih fun x hx => h x (List.mem_cons_of_mem r hx)]

theorem Shows.settle (h : Shows f s) (verdict : Verdict) (line : Text) :
    Shows (f.afterCheck (decide (verdict = .allow)) line)
      { s with dropped := if verdict = .deny then s.dropped ++ [line] else s.dropped } := by
  obtain ⟨pairs, hstored, hrules⟩ := h.stored
  cases verdict
  · exact ⟨⟨pairs, hstored, hrules⟩, h.inPolicy, h.outPolicy, h.logged⟩
  · exact ⟨⟨pairs, hstored.congr rfl rfl, hrules⟩, h.inPolicy, h.outPolicy, h.logged.drop line⟩

theorem error_afterCheck (b : Bool) (f : Firewall) (line : Text) : (f.afterCheck b line).error = f.error := by
  cases b <;> rfl

theorem Shows.check (h : Shows f s) (p : Packet) :
    ∃ g, f.murmanskCheck p = some (g, decide (s.decides p = .allow)) ∧ Shows g (s.check p) ∧ g.error = f.error := by
  obtain ⟨pairs, hstored, hrules⟩ := h.stored
  have hfound := find_snd hrules p
  unfold murmanskCheck Ruleset.check Ruleset.decides Ruleset.reason
  rw [hstored.muMatch, hfound]
  cases hfind : pairs.find? fun e => Matches p e.2 with
  | none =>
    have hmiss : ∀ r ∈ s.rules, ¬Matches p r := by
      rw [hfind, Option.map_none] at hfound
      exact fun r hr => by simpa using List.find?_eq_none.mp hfound r hr
    simp only [Option.map_some, Option.map_none, Option.elim_none, h.policy, countFirst_none hmiss]
    exact ⟨_, rfl, h.settle _ _, error_afterCheck _ _ _⟩
  | some e =>
    obtain ⟨hmatch, as, bs, rfl, has⟩ := List.find?_eq_some_iff_append.mp hfind
    have hcount : Ruleset.countFirst p s.rules = as.map Prod.snd ++ countHit e.2 :: bs.map Prod.snd := by
      rw [← hrules, List.map_append, List.map_cons]
      refine countFirst_append (fun r hr => ?_) (of_decide_eq_true hmatch)
      obtain ⟨x, hx, rfl⟩ := List.mem_map.mp hr
      simpa using has x hx
    have hshows : Shows { f with objects := f.objects.modify e.1 countHit }
        { s with rules := as.map Prod.snd ++ countHit e.2 :: bs.map Prod.snd } :=
      ⟨⟨_, hstored.modify, by rw [List.map_append, List.map_cons]⟩, h.inPolicy, h.outPolicy, h.logged.congr rfl rfl rfl⟩
    simp only [Option.map_some, Option.elim_some, hcount]
    exact ⟨_, rfl, hshows.settle _ _, error_afterCheck _ _ _⟩

theorem Shows.call (h : Shows f s) (c : Call) : ∃ g, f.call c = some g ∧ Shows g (s.call c) := by
  cases c with
  | add text => exact ⟨_, rfl, h.add text⟩
  | delete n =>
    obtain ⟨v, hv, hshows⟩ := h.delete n
    exact ⟨v.1, by rw [Firewall.call, hv]; rfl, hshows⟩
  | check p =>
    obtain ⟨g, hg, hshows, -⟩ := h.check p
    exact ⟨g, by rw [Firewall.call, hg]; rfl, hshows⟩

theorem shows_run (calls : List Call) : ∃ f, runCalls calls = some f ∧ Shows f (.run calls) := by
  unfold runCalls Ruleset.run
  have hstart := shows_start
  generalize murmanskReset = f₀ at *
  generalize Ruleset.start = s₀ at *
  induction calls generalizing f₀ s₀ with
  | nil => exact ⟨f₀, rfl, hstart⟩
  | cons c calls ih =>
    obtain ⟨g, hcall, hshows⟩ := hstart.call c
    obtain ⟨f, hrun, hlast⟩ := ih g _ hshows
    refine ⟨f, ?_, hlast⟩
    rw [List.foldlM_cons, hcall]
    exact hrun

def Firewall.ruleList (f : Firewall) : List Rule :=
  (List.range f.rules.len).filterMap fun i => (f.rule (i + 1)).map Prod.snd

def Firewall.logged (f : Firewall) : List Text := f.log.entries.map Prod.snd

theorem Shows.ruleList (h : Shows f s) : f.ruleList = s.rules := by
  obtain ⟨pairs, hstored, hrules⟩ := h.stored
  have hall (l : List (Nat × Rule)) : (List.range l.length).filterMap (fun i => l[i]?.map Prod.snd) = l.map Prod.snd := by
    induction l with
    | nil => rfl
    | cons e l ih =>
      rw [List.length_cons, List.range_succ_eq_map, List.filterMap_cons, List.filterMap_map]
      exact congrArg (e.2 :: ·) ih
  unfold Firewall.ruleList
  simp only [hstored.rule, hstored.len, hall, hrules]

theorem map_snd_numbered (k : Nat) (lines : List Text) : (numbered k lines).map Prod.snd = lines := by
  induction lines generalizing k with
  | nil => rfl
  | cons l lines ih => rw [numbered, List.map_cons, ih]

theorem Shows.lines (h : Shows f s) : f.logged = s.dropped.drop (s.dropped.length - 16) := by
  rw [Firewall.logged, h.logged.entries, map_snd_numbered]

/-- After any calls the rules, the policies, the drops and the log are those of the list, and both
decisions are its own: `murmansk_check` counts the hit of the rule that decides, and a drop. -/
theorem decides_by_first_rule (calls : List Call) (p : Packet) : ∃ f, runCalls calls = some f ∧
    f.ruleList = (Ruleset.run calls).rules ∧
    f.inPolicy = (Ruleset.run calls).inPolicy ∧ f.outPolicy = (Ruleset.run calls).outPolicy ∧
    f.drops = (Ruleset.run calls).dropped.length ∧
    f.logged = (Ruleset.run calls).dropped.drop ((Ruleset.run calls).dropped.length - 16) ∧
    f.murmanskAllows p = some (decide ((Ruleset.run calls).decides p = .allow)) ∧
    ∃ g, f.murmanskCheck p = some (g, decide ((Ruleset.run calls).decides p = .allow)) ∧
      g.ruleList = ((Ruleset.run calls).check p).rules ∧
      g.inPolicy = f.inPolicy ∧ g.outPolicy = f.outPolicy ∧ g.error = f.error ∧
      g.drops = ((Ruleset.run calls).check p).dropped.length ∧
      g.logged = ((Ruleset.run calls).check p).dropped.drop (((Ruleset.run calls).check p).dropped.length - 16) := by
  obtain ⟨f, hrun, hshows⟩ := shows_run calls
  obtain ⟨g, hcheck, hafter, herror⟩ := hshows.check p
  exact ⟨f, hrun, hshows.ruleList, hshows.inPolicy, hshows.outPolicy, hshows.logged.drops, hshows.lines,
    hshows.allows p, g, hcheck, hafter.ruleList, hafter.inPolicy.trans hshows.inPolicy.symm,
    hafter.outPolicy.trans hshows.outPolicy.symm, herror, hafter.logged.drops, hafter.lines⟩

end

end Ussr.Murmansk
