import Ussr.Ru.Block

/-! What the writer stores, the reader gives back, as long as no list of
commands is longer than its 32-bit count. Blocks nested more than 64 deep are
refused on both sides. -/

namespace Ussr.Ru
open Codec

section

variable {α : Type}
variable {bs : List UInt8} {depth room : Nat} {list : List Command}

theorem getU8_decodes (b : UInt8) : Decodes getU8 [b] b.toNat := fun _ => rfl

theorem getU8_bind {f : Nat → Reader α} {a : α} (b : UInt8)
    (h : Decodes (f b.toNat) bs a) : Decodes (getU8 >>= f) (b :: bs) a :=
  (getU8_decodes b).bind h

theorem getU32_decodes {n : Nat} (h : n < 2 ^ 32) : Decodes getU32 (putLE 4 n) n := by
  have hget := (Decodes.take "file is truncated" (length_putLE 4 n)).map ofLE
  rwa [ofLE_putLE (show n < 256 ^ 4 by omega)] at hget

theorem getU64_decodes (n : BitVec 64) : Decodes getU64 (putLE 8 n.toNat) n := by
  have hget := (Decodes.take "file is truncated" (length_putLE 8 n.toNat)).map
    fun bs => BitVec.ofNat 64 (ofLE bs)
  rwa [ofLE_putLE (show n.toNat < 256 ^ 8 from n.isLt), BitVec.ofNat_toNat,
    BitVec.setWidth_eq] at hget

theorem getU32_yields : Yields getU32 fun n => n < 2 ^ 32 := by
  have htake : Yields (take 4 "file is truncated") fun bs => bs.length ≤ 4 := by
    intro bs a rest h
    unfold take at h
    split_ifs at h
    cases h
    exact List.length_take_le 4 bs
  refine htake.bind fun bs hbs => Yields.pure ?_
  exact (ofLE_lt bs).trans_le (Nat.pow_le_pow_right (by omega) hbs)

theorem getCount_yields (minSize : Nat) : Yields (getCount minSize) fun n => n < 2 ^ 32 := by
  refine getU32_yields.bind fun n hn => (Yields.any remaining).bind fun left _ => ?_
  split_ifs
  · exact Yields.fail _
  · exact Yields.pure hn

theorem getCount_bind {f : Nat → Reader α} {a : α} {minSize n : Nat}
    (hn : n < 2 ^ 32) (hsize : n * minSize ≤ bs.length) (h : Decodes (f n) bs a) :
    Decodes (getCount minSize >>= f) (putLE 4 n ++ bs) a := by
  intro rest
  have hcount : getCount minSize (putLE 4 n ++ bs ++ rest) = .ok (n, bs ++ rest) := by
    unfold getCount
    rw [List.append_assoc, run_bind_ok (getU32_decodes hn _)]
    have hrem : remaining (bs ++ rest) = .ok ((bs ++ rest).length, bs ++ rest) := rfl
    rw [run_bind_ok hrem, if_neg]
    · rfl
    · rintro ⟨hpos, hgt⟩
      have := (Nat.div_lt_iff_lt_mul (Nat.pos_of_ne_zero hpos)).mp hgt
      simp only [List.length_append] at this
      omega
  rw [run_bind_ok hcount]
  exact h rest

theorem putString_decodes {text : Option CString}
    (h : putString text = some bs) : Decodes getString bs text := by
  cases text with
  | none =>
    cases h
    exact (getU32_decodes (show ruNullString < 2 ^ 32 by decide)).last (Decodes.pure none)
  | some text =>
    simp only [putString, Option.bind_eq_bind, Option.bind_eq_some_iff, Option.guard_eq_some',
      Option.pure_def, Option.some.injEq] at h
    obtain ⟨_, hlen, rfl⟩ := h
    refine (getU32_decodes (hlen.trans (by decide))).bind ?_
    rw [if_neg hlen.ne]
    refine (Decodes.take _ (rfl : text.bytes.length = _)).last ?_
    rw [dif_pos text.noNul]
    exact Decodes.pure (some text)

theorem putString_length {text : Option CString}
    (h : putString text = some bs) : 4 ≤ bs.length := by
  cases text with
  | none =>
    cases h
    simp
  | some text =>
    simp only [putString, Option.bind_eq_bind, Option.bind_eq_some_iff, Option.guard_eq_some',
      Option.pure_def, Option.some.injEq] at h
    obtain ⟨_, hlen, rfl⟩ := h
    simp

theorem putRequiredString_decodes {text : CString}
    (h : putString (some text) = some bs) : Decodes getRequiredString bs text := by
  have hget : Decodes getRequiredString (bs ++ []) text :=
    (putString_decodes h).bind (Decodes.pure text)
  rwa [List.append_nil] at hget

@[simp] theorem putFlag_le (b : Bool) : ¬ 1 < (putFlag b).toNat := by
  cases b <;> decide

@[simp] theorem putFlag_eq (b : Bool) : ((putFlag b).toNat == 1) = b := by
  cases b <;> rfl

theorem putConstant_decodes {v : Value} (h : putConstant v = some bs) :
    Decodes getConstant bs v := by
  cases v with
  | null =>
    cases h
    exact getU8_bind 0 (Decodes.pure _)
  | integer n =>
    cases h
    exact getU8_bind 1 ((getU64_decodes n).map Value.integer)
  | real bits =>
    cases h
    exact getU8_bind 2 ((getU64_decodes bits).map Value.real)
  | string text =>
    simp only [putConstant, Option.bind_eq_bind, Option.bind_eq_some_iff, Option.pure_def,
      Option.some.injEq] at h
    obtain ⟨bs, hbs, rfl⟩ := h
    exact getU8_bind 3 ((putRequiredString_decodes hbs).map Value.string)
  | boolean b =>
    cases h
    refine getU8_bind 4 (getU8_bind (putFlag b) ?_)
    rw [if_neg (putFlag_le b), putFlag_eq]
    exact Decodes.pure _
  | vector | instance_ | btree => simp [putConstant] at h

theorem getOperator_decodes (operator : Operator) :
    Decodes getOperator [UInt8.ofNat (operatorCode operator)] operator := by
  cases operator <;> exact fun _ => rfl

end

def CountsFit (list : List Command) : Prop :=
  ∀ inner, Occurs inner list → inner.length < 2 ^ 32

def BlocksFit (list : List Command) : Prop :=
  ∀ command ∈ list, ∀ argument ∈ command.arguments, ∀ block, argument.list? = some block →
    CountsFit block

theorem CountsFit.blocks (h : CountsFit list) : BlocksFit list :=
  fun _ hc _ ha _ hb inner hinner => h inner (.inside hc ha hb hinner)

theorem putExpression_decodes {e : Expression}
    (hroom : depth + room = ruMaxSyntaxDepth + 1) (h : putExpression depth e = some bs) :
    Decodes (getExpression room) bs e := by
  have hlevel : depth ≤ ruMaxSyntaxDepth → ∃ r, room = r + 1 ∧ depth + 1 + r = ruMaxSyntaxDepth + 1 :=
    fun hle => ⟨room - 1, by omega, by omega⟩
  induction e generalizing depth room bs with
  | value v =>
    simp only [putExpression, Option.bind_eq_bind, Option.bind_eq_some_iff, Option.guard_eq_some',
      Option.pure_def, Option.some.injEq] at h
    obtain ⟨_, hdepth, bs, hbs, rfl⟩ := h
    obtain ⟨r, rfl, _⟩ := hlevel hdepth
    exact getU8_bind 0 ((putConstant_decodes hbs).map Expression.value)
  | «variable» name =>
    simp only [putExpression, Option.bind_eq_bind, Option.bind_eq_some_iff, Option.guard_eq_some',
      Option.pure_def, Option.some.injEq] at h
    obtain ⟨_, hdepth, bs, hbs, rfl⟩ := h
    obtain ⟨r, rfl, _⟩ := hlevel hdepth
    exact getU8_bind 1 ((putRequiredString_decodes hbs).map Expression.variable)
  | binary operator left right ihl ihr =>
    simp only [putExpression, Option.bind_eq_bind, Option.bind_eq_some_iff, Option.guard_eq_some',
      Option.pure_def, Option.some.injEq] at h
    obtain ⟨_, hdepth, ls, hls, rs, hrs, rfl⟩ := h
    obtain ⟨r, rfl, hr⟩ := hlevel hdepth
    have hnext : depth + 1 ≤ ruMaxSyntaxDepth →
        ∃ r', r = r' + 1 ∧ depth + 1 + 1 + r' = ruMaxSyntaxDepth + 1 :=
      fun hle => ⟨r - 1, by omega, by omega⟩
    exact getU8_bind 2 ((getOperator_decodes operator).bind ((ihl hr hls hnext).bind
      ((ihr hr hrs hnext).map (Expression.binary operator left))))
  | unary operator operand ih =>
    simp only [putExpression, Option.bind_eq_bind, Option.bind_eq_some_iff, Option.guard_eq_some',
      Option.pure_def, Option.some.injEq] at h
    obtain ⟨_, hdepth, bs, hbs, rfl⟩ := h
    obtain ⟨r, rfl, hr⟩ := hlevel hdepth
    have hnext : depth + 1 ≤ ruMaxSyntaxDepth →
        ∃ r', r = r' + 1 ∧ depth + 1 + 1 + r' = ruMaxSyntaxDepth + 1 :=
      fun hle => ⟨r - 1, by omega, by omega⟩
    exact getU8_bind 3 ((getOperator_decodes operator).bind
      ((ih hr hbs hnext).map (Expression.unary operator)))

theorem putCommand_length {command : Command}
    (h : putCommand depth command = some bs) : 13 ≤ bs.length := by
  obtain ⟨path, name, returnName, arguments⟩ := command
  simp only [putCommand, Option.bind_eq_bind, Option.bind_eq_some_iff, Option.guard_eq_some',
    Option.pure_def, Option.some.injEq] at h
  obtain ⟨_, _, ps, hps, ns, hns, rs, hrs, as, _, rfl⟩ := h
  have hp := putString_length hps
  have hn := putString_length hns
  have hr := putString_length hrs
  simp only [List.length_append, List.length_cons]
  omega

theorem putCommands_length
    (h : putCommands depth list = some bs) : list.length * 13 ≤ bs.length := by
  induction list generalizing bs with
  | nil => simp
  | cons command list ih =>
    simp only [putCommands, Option.bind_eq_bind, Option.bind_eq_some_iff, Option.pure_def,
      Option.some.injEq] at h
    obtain ⟨cs, hcs, ls, hls, rfl⟩ := h
    have hc := putCommand_length hcs
    have hl := ih hls
    simp only [List.length_append, List.length_cons]
    omega

theorem getBlockIn_decodes
    (hcount : list.length < 2 ^ 32) (hsize : list.length * 13 ≤ bs.length)
    (h : Decodes (many list.length (getCommand (getNode (room + 1) (getBlockIn room)))) bs list) :
    Decodes (getBlockIn (room + 1)) (putLE 4 list.length ++ bs) list :=
  getCount_bind hcount hsize h

mutual

theorem putNode_decodes (hroom : depth + (room + 1) = ruMaxSyntaxDepth + 1) :
    ∀ (argument : Argument) {bs : List UInt8}, putNode depth argument = some bs →
      (∀ list, argument.list? = some list → CountsFit list) →
        Decodes (getNode (room + 1) (getBlockIn room)) bs argument
  | .value assignment v, bs, h, _ => by
    simp only [putNode, Option.bind_eq_bind, Option.bind_eq_some_iff, Option.pure_def,
      Option.some.injEq] at h
    obtain ⟨bs, hbs, rfl⟩ := h
    refine getU8_bind 0 (getU8_bind _ ?_)
    rw [if_neg (putFlag_le _), putFlag_eq]
    exact (putConstant_decodes hbs).map _
  | .expression assignment e, bs, h, _ => by
    simp only [putNode, Option.bind_eq_bind, Option.bind_eq_some_iff, Option.pure_def,
      Option.some.injEq] at h
    obtain ⟨bs, hbs, rfl⟩ := h
    refine getU8_bind 1 (getU8_bind _ ?_)
    rw [if_neg (putFlag_le _), putFlag_eq]
    exact (putExpression_decodes hroom hbs).map _
  | .lookup assignment name, bs, h, _ => by
    simp only [putNode, Option.bind_eq_bind, Option.bind_eq_some_iff, Option.pure_def,
      Option.some.injEq] at h
    obtain ⟨bs, hbs, rfl⟩ := h
    refine getU8_bind 2 (getU8_bind _ ?_)
    rw [if_neg (putFlag_le _), putFlag_eq]
    exact (putExpression_decodes hroom hbs).last (Decodes.pure (Argument.lookup assignment name))
  | .unoLiteral assignment text, bs, h, _ => by
    simp only [putNode, Option.bind_eq_bind, Option.bind_eq_some_iff, Option.pure_def,
      Option.some.injEq] at h
    obtain ⟨bs, hbs, rfl⟩ := h
    refine getU8_bind 3 (getU8_bind _ ?_)
    rw [if_neg (putFlag_le _), putFlag_eq]
    exact (putRequiredString_decodes hbs).map _
  | .commandList assignment list, bs, h, hfit => by
    simp only [putNode, Option.bind_eq_bind, Option.bind_eq_some_iff, Option.guard_eq_some',
      Option.pure_def, Option.some.injEq] at h
    obtain ⟨_, hdepth, bs, hbs, rfl⟩ := h
    obtain ⟨room, rfl⟩ : ∃ r, room = r + 1 := ⟨room - 1, by omega⟩
    have hlist := hfit list rfl
    refine getU8_bind 4 (getU8_bind _ ?_)
    rw [if_neg (putFlag_le _), putFlag_eq]
    exact (getBlockIn_decodes (hlist list (.here list)) (putCommands_length hbs)
      (putCommands_decodes (by omega) list hbs hlist.blocks)).map _
  | .advancedList assignment list, bs, h, hfit => by
    simp only [putNode, Option.bind_eq_bind, Option.bind_eq_some_iff, Option.guard_eq_some',
      Option.pure_def, Option.some.injEq] at h
    obtain ⟨_, hdepth, bs, hbs, rfl⟩ := h
    obtain ⟨room, rfl⟩ : ∃ r, room = r + 1 := ⟨room - 1, by omega⟩
    have hlist := hfit list rfl
    refine getU8_bind 5 (getU8_bind _ ?_)
    rw [if_neg (putFlag_le _), putFlag_eq]
    exact (getBlockIn_decodes (hlist list (.here list)) (putCommands_length hbs)
      (putCommands_decodes (by omega) list hbs hlist.blocks)).map _

theorem putNodes_decodes (hroom : depth + (room + 1) = ruMaxSyntaxDepth + 1) :
    ∀ (arguments : List Argument) {bs : List UInt8}, putNodes depth arguments = some bs →
      (∀ argument ∈ arguments, ∀ list, argument.list? = some list → CountsFit list) →
        Decodes (many arguments.length (getNode (room + 1) (getBlockIn room))) bs arguments
  | [], bs, h, _ => by
    cases h
    exact Decodes.pure []
  | argument :: arguments, bs, h, hfit => by
    simp only [putNodes, Option.bind_eq_bind, Option.bind_eq_some_iff, Option.pure_def,
      Option.some.injEq] at h
    obtain ⟨as, has, bs, hbs, rfl⟩ := h
    have htail := putNodes_decodes hroom arguments hbs fun a ha => hfit a (List.mem_cons_of_mem _ ha)
    exact (putNode_decodes hroom argument has (hfit argument List.mem_cons_self)).bind
      (htail.map (argument :: ·))

theorem putCommand_decodes (hroom : depth + (room + 1) = ruMaxSyntaxDepth + 1) :
    ∀ (command : Command) {bs : List UInt8}, putCommand depth command = some bs →
      (∀ argument ∈ command.arguments, ∀ list, argument.list? = some list → CountsFit list) →
        Decodes (getCommand (getNode (room + 1) (getBlockIn room))) bs command
  | .mk path name returnName arguments, bs, h, hfit => by
    simp only [putCommand, Option.bind_eq_bind, Option.bind_eq_some_iff, Option.guard_eq_some',
      Option.pure_def, Option.some.injEq] at h
    obtain ⟨_, hcount, ps, hps, ns, hns, rs, hrs, as, has, rfl⟩ := h
    have hargs := putNodes_decodes hroom arguments has hfit
    refine (putString_decodes hps).bind ((putRequiredString_decodes hns).bind
      ((putString_decodes hrs).bind (getU8_bind _ ?_)))
    rw [UInt8.toNat_ofNat', Nat.mod_eq_of_lt (by omega)]
    exact hargs.map _

theorem putCommands_decodes (hroom : depth + (room + 1) = ruMaxSyntaxDepth + 1) :
    ∀ (list : List Command) {bs : List UInt8}, putCommands depth list = some bs →
      BlocksFit list →
        Decodes (many list.length (getCommand (getNode (room + 1) (getBlockIn room)))) bs list
  | [], bs, h, _ => by
    cases h
    exact Decodes.pure []
  | command :: list, bs, h, hfit => by
    simp only [putCommands, Option.bind_eq_bind, Option.bind_eq_some_iff, Option.pure_def,
      Option.some.injEq] at h
    obtain ⟨cs, hcs, bs, hbs, rfl⟩ := h
    have htail := putCommands_decodes hroom list hbs fun c hc => hfit c (List.mem_cons_of_mem _ hc)
    exact (putCommand_decodes hroom command hcs (hfit command List.mem_cons_self)).bind
      (htail.map (command :: ·))

end

theorem putExpression_nesting {e : Expression}
    (h : putExpression depth e = some bs) : depth + e.nesting ≤ ruMaxSyntaxDepth + 1 := by
  induction e generalizing depth bs with
  | value v =>
    simp only [putExpression, Option.bind_eq_bind, Option.bind_eq_some_iff,
      Option.guard_eq_some'] at h
    obtain ⟨_, hdepth, _⟩ := h
    exact Nat.succ_le_succ hdepth
  | «variable» name =>
    simp only [putExpression, Option.bind_eq_bind, Option.bind_eq_some_iff,
      Option.guard_eq_some'] at h
    obtain ⟨_, hdepth, _⟩ := h
    exact Nat.succ_le_succ hdepth
  | binary operator left right ihl ihr =>
    simp only [putExpression, Option.bind_eq_bind, Option.bind_eq_some_iff,
      Option.guard_eq_some'] at h
    obtain ⟨_, _, ls, hls, rs, hrs, _⟩ := h
    have hl := ihl hls
    have hr := ihr hrs
    simp only [Expression.nesting]
    omega
  | unary operator operand ih =>
    simp only [putExpression, Option.bind_eq_bind, Option.bind_eq_some_iff,
      Option.guard_eq_some'] at h
    obtain ⟨_, _, bs, hbs, _⟩ := h
    have hnest := ih hbs
    simp only [Expression.nesting]
    omega

mutual

theorem putNode_nesting (hdepth : depth ≤ ruMaxSyntaxDepth) :
    ∀ (argument : Argument) {bs : List UInt8}, putNode depth argument = some bs →
      depth + argument.nesting ≤ ruMaxSyntaxDepth + 1
  | .value _ _, _, _ => Nat.succ_le_succ hdepth
  | .lookup _ _, _, _ => Nat.succ_le_succ hdepth
  | .unoLiteral _ _, _, _ => Nat.succ_le_succ hdepth
  | .expression _ e, bs, h => by
    simp only [putNode, Option.bind_eq_bind, Option.bind_eq_some_iff] at h
    obtain ⟨bs, hbs, _⟩ := h
    exact putExpression_nesting hbs
  | .commandList _ list, bs, h => by
    simp only [putNode, Option.bind_eq_bind, Option.bind_eq_some_iff, Option.guard_eq_some'] at h
    obtain ⟨_, hnext, bs, hbs, _⟩ := h
    have hlist := putCommands_nesting hnext list hbs
    simp only [Argument.nesting]
    omega
  | .advancedList _ list, bs, h => by
    simp only [putNode, Option.bind_eq_bind, Option.bind_eq_some_iff, Option.guard_eq_some'] at h
    obtain ⟨_, hnext, bs, hbs, _⟩ := h
    have hlist := putCommands_nesting hnext list hbs
    simp only [Argument.nesting]
    omega

theorem putNodes_nesting (hdepth : depth ≤ ruMaxSyntaxDepth) :
    ∀ (arguments : List Argument) {bs : List UInt8}, putNodes depth arguments = some bs →
      depth + argumentsNesting arguments ≤ ruMaxSyntaxDepth + 1
  | [], _, _ => by
    simp only [argumentsNesting]
    omega
  | argument :: arguments, bs, h => by
    simp only [putNodes, Option.bind_eq_bind, Option.bind_eq_some_iff] at h
    obtain ⟨as, has, bs, hbs, _⟩ := h
    have hhead := putNode_nesting hdepth argument has
    have htail := putNodes_nesting hdepth arguments hbs
    simp only [argumentsNesting]
    omega

theorem putCommand_nesting (hdepth : depth ≤ ruMaxSyntaxDepth) :
    ∀ (command : Command) {bs : List UInt8}, putCommand depth command = some bs →
      depth + command.nesting ≤ ruMaxSyntaxDepth + 1
  | .mk path name returnName arguments, bs, h => by
    simp only [putCommand, Option.bind_eq_bind, Option.bind_eq_some_iff] at h
    obtain ⟨_, _, _, _, _, _, _, _, as, has, _⟩ := h
    exact putNodes_nesting hdepth arguments has

theorem putCommands_nesting (hdepth : depth ≤ ruMaxSyntaxDepth) :
    ∀ (list : List Command) {bs : List UInt8}, putCommands depth list = some bs →
      depth + commandsNesting list ≤ ruMaxSyntaxDepth + 1
  | [], _, _ => by
    simp only [commandsNesting]
    omega
  | command :: list, bs, h => by
    simp only [putCommands, Option.bind_eq_bind, Option.bind_eq_some_iff] at h
    obtain ⟨cs, hcs, bs, hbs, _⟩ := h
    have hhead := putCommand_nesting hdepth command hcs
    have htail := putCommands_nesting hdepth list hbs
    simp only [commandsNesting]
    omega

end

theorem putBlock_nesting
    (h : putBlock depth list = some bs) : depth + blockNesting list ≤ ruMaxSyntaxDepth + 1 := by
  simp only [putBlock, Option.bind_eq_bind, Option.bind_eq_some_iff, Option.guard_eq_some'] at h
  obtain ⟨_, hdepth, cs, hcs, _⟩ := h
  have hlist := putCommands_nesting hdepth list hcs
  unfold blockNesting
  omega

theorem getExpression_yields (room : Nat) :
    Yields (getExpression room) fun e => e.nesting ≤ room := by
  induction room with
  | zero => exact Yields.fail _
  | succ room ih =>
    refine (Yields.any getU8).bind fun tag _ => ?_
    split
    · exact (Yields.any _).bind fun v _ => Yields.pure (Nat.le_add_left _ _)
    · exact (Yields.any _).bind fun name _ => Yields.pure (Nat.le_add_left _ _)
    · refine (Yields.any _).bind fun operator _ => ih.bind fun left hl => ih.bind fun right hr =>
        Yields.pure ?_
      simp only [Expression.nesting]
      omega
    · refine (Yields.any _).bind fun operator _ => ih.bind fun operand h => Yields.pure ?_
      simp only [Expression.nesting]
      omega
    · exact Yields.fail _

structure StoredArgument (room : Nat) (argument : Argument) : Prop where
  nesting : argument.nesting ≤ room
  fit : ∀ list, argument.list? = some list → CountsFit list

theorem getNode_yields {block : Reader (List Command)}
    (h : Yields block fun list => blockNesting list ≤ room ∧ CountsFit list) :
    Yields (getNode (room + 1) block) (StoredArgument (room + 1)) := by
  have hleaf : ∀ argument : Argument, argument.nesting = 1 → argument.list? = none →
      StoredArgument (room + 1) argument :=
    fun argument hn hl => ⟨by omega, by simp [hl]⟩
  refine (Yields.any getU8).bind fun kind _ => (Yields.any getU8).bind fun flag _ => ?_
  split_ifs
  · exact Yields.fail _
  split
  · exact (Yields.any _).bind fun v _ => Yields.pure (hleaf _ rfl rfl)
  · exact (getExpression_yields _).bind fun e he => Yields.pure ⟨he, by simp [Argument.list?]⟩
  · refine (Yields.any _).bind fun e _ => ?_
    split
    · exact Yields.pure (hleaf _ rfl rfl)
    · exact Yields.fail _
  · exact (Yields.any _).bind fun text _ => Yields.pure (hleaf _ rfl rfl)
  · exact h.bind fun list hl => Yields.pure
      ⟨Nat.succ_le_succ hl.1, fun l hlist => by cases hlist; exact hl.2⟩
  · exact h.bind fun list hl => Yields.pure
      ⟨Nat.succ_le_succ hl.1, fun l hlist => by cases hlist; exact hl.2⟩
  · exact Yields.fail _

theorem getCommand_yields {node : Reader Argument}
    (h : Yields node (StoredArgument room)) :
    Yields (getCommand node) fun command =>
      ∀ argument ∈ command.arguments, StoredArgument room argument :=
  (Yields.any _).bind fun _ _ => (Yields.any _).bind fun _ _ => (Yields.any _).bind fun _ _ =>
    (Yields.any _).bind fun count _ => (h.many count).bind fun _ hall => Yields.pure hall.2

theorem getBlockIn_yields (room : Nat) :
    Yields (getBlockIn room) fun list => blockNesting list ≤ room ∧ CountsFit list := by
  induction room with
  | zero => exact Yields.fail _
  | succ room ih =>
    refine (getCount_yields 13).bind fun count hcount bs list rest hrun => ?_
    obtain ⟨hlength, hall⟩ := (getCommand_yields (getNode_yields ih)).many count bs list rest hrun
    constructor
    · refine Nat.max_le.mpr ⟨Nat.le_add_left 1 room, commandsNesting_le.mpr ?_⟩
      rintro ⟨path, name, returnName, arguments⟩ hc
      exact argumentsNesting_le.mpr fun argument ha => (hall _ hc argument ha).nesting
    · intro inner hinner
      cases hinner with
      | here => exact hlength ▸ hcount
      | inside hc ha hb hin => exact (hall _ hc _ ha).fit _ hb inner hin

theorem getExpression_limits {room' : Nat} (h : room ≤ room') :
    Limits "a stored block is nested too deeply" (getExpression room) (getExpression room') := by
  induction room generalizing room' with
  | zero => exact fun _ => Or.inr rfl
  | succ room ih =>
    obtain ⟨room', rfl⟩ : ∃ r, room' = r + 1 := ⟨room' - 1, by omega⟩
    have hnext := ih (Nat.le_of_succ_le_succ h)
    refine (Limits.refl _ getU8).bind fun tag => ?_
    split
    · exact Limits.refl _ _
    · exact Limits.refl _ _
    · exact (Limits.refl _ _).bind fun operator => hnext.bind fun left => hnext.bind fun right =>
        Limits.refl _ _
    · exact (Limits.refl _ _).bind fun operator => hnext.bind fun operand => Limits.refl _ _
    · exact Limits.refl _ _

theorem getNode_limits {room' : Nat} {block block' : Reader (List Command)}
    (h : room ≤ room') (hblock : Limits "a stored block is nested too deeply" block block') :
    Limits "a stored block is nested too deeply" (getNode room block) (getNode room' block') := by
  have he := getExpression_limits h
  refine (Limits.refl _ _).bind fun kind => (Limits.refl _ _).bind fun flag => ?_
  split_ifs
  · exact Limits.refl _ _
  split
  · exact Limits.refl _ _
  · exact he.bind fun e => Limits.refl _ _
  · exact he.bind fun e => Limits.refl _ _
  · exact Limits.refl _ _
  · exact hblock.bind fun list => Limits.refl _ _
  · exact hblock.bind fun list => Limits.refl _ _
  · exact Limits.refl _ _

theorem getBlockIn_limits {room' : Nat} (h : room ≤ room') :
    Limits "a stored block is nested too deeply" (getBlockIn room) (getBlockIn room') := by
  induction room generalizing room' with
  | zero => exact fun _ => Or.inr rfl
  | succ room ih =>
    obtain ⟨room', rfl⟩ : ∃ r, room' = r + 1 := ⟨room' - 1, by omega⟩
    have hnode := getNode_limits h (ih (Nat.le_of_succ_le_succ h))
    refine (Limits.refl _ _).bind fun count => Limits.many ?_ count
    exact (Limits.refl _ _).bind fun path => (Limits.refl _ _).bind fun name =>
      (Limits.refl _ _).bind fun returnName => (Limits.refl _ _).bind fun count =>
        (hnode.many count).bind fun arguments => Limits.refl _ _

theorem putBlock_decodes
    (h : putBlock 1 list = some bs) (hfit : CountsFit list) : Decodes (getBlock 1) bs list := by
  simp only [putBlock, Option.bind_eq_bind, Option.bind_eq_some_iff, Option.guard_eq_some',
    Option.pure_def, Option.some.injEq] at h
  obtain ⟨_, _, cs, hcs, rfl⟩ := h
  exact getBlockIn_decodes (hfit list (.here list)) (putCommands_length hcs)
    (putCommands_decodes (by decide) list hcs hfit.blocks)

theorem getBlock_yields (h : 1 ≤ depth) :
    Yields (getBlock depth) fun list => blockNesting list ≤ ruMaxSyntaxDepth ∧ CountsFit list :=
  fun bs list rest hrun => by
    have hlist := getBlockIn_yields _ bs list rest hrun
    exact ⟨hlist.1.trans (by omega), hlist.2⟩

theorem getBlock_refuses (hdeep : ruMaxSyntaxDepth < blockNesting list) {rest : List UInt8} (h : getBlockIn room bs = .ok (list, rest)) :
    getBlock 1 bs = .error "a stored block is nested too deeply" := by
  have hroom := (getBlockIn_yields room bs list rest h).1
  have hle : ruMaxSyntaxDepth + 1 - 1 ≤ room := by omega
  rcases getBlockIn_limits hle bs with heq | herr
  · have hshallow := (getBlock_yields (Nat.le_refl 1) bs list rest (heq.trans h)).1
    omega
  · exact herr

/-- A written block is read back exactly, whatever follows it. That every list of commands
in it is shorter than 2³² holds of each block there is: the parser reads a text whose length
is an `int`, and a stored one comes from a file of at most 256 MiB. A block nested
more than 64 deep is neither written nor read. -/
theorem block_roundTrip (list : List Command) (hcounts : CountsFit list) :
    (∀ bs, putBlock 1 list = some bs → Decodes (getBlock 1) bs list) ∧
      (ruMaxSyntaxDepth < blockNesting list → putBlock 1 list = none ∧
        ∀ room bs rest, getBlockIn room bs = .ok (list, rest) →
          getBlock 1 bs = .error "a stored block is nested too deeply") := by
  refine ⟨fun bs hput => putBlock_decodes hput hcounts, fun hdeep => ⟨?_, fun room bs rest => getBlock_refuses hdeep⟩⟩
  cases hput : putBlock 1 list with
  | none => rfl
  | some bs =>
    have hnest := putBlock_nesting hput
    omega

/-- `a([ x b(-1, y) ])` -/
def nestedBlock : List Command :=
  [.mk none (CString.lit "a") none [.commandList true [.mk none (CString.lit "b") (some (CString.lit "x"))
    [.expression false (.unary .sub (.value (.integer 1))), .lookup false (CString.lit "y")]]]]

theorem nestedBlock_counts : CountsFit nestedBlock := by
  obtain ⟨bs, hput⟩ : ∃ bs, putBlock 1 nestedBlock = some bs := ⟨_, rfl⟩
  have hget : getBlock 1 bs = .ok (nestedBlock, []) := by
    cases hput
    rfl
  exact (getBlock_yields (Nat.le_refl 1) bs nestedBlock [] hget).2

theorem block_roundTrip_nested : ∃ bs, putBlock 1 nestedBlock = some bs ∧ Decodes (getBlock 1) bs nestedBlock :=
  ⟨_, rfl, (block_roundTrip nestedBlock nestedBlock_counts).1 _ rfl⟩

end Ussr.Ru
