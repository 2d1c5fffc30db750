import Ussr.Ru.Program
import Ussr.Ru.RoundTrip

/-! A program file reads back as the program it was written from, call sites
reduced to what they store, exactly when the program passes the loader's
checks. -/

namespace Ussr.Ru
open Codec

section

variable {α β : Type} {put : α → Option (List UInt8)}
variable {argument : Argument}
variable {bs : List UInt8} {as : List α} {site : Site} {depth : Nat} {p : Program}

theorem putAll_decodes {get : Reader β} {g : α → β}
    (hput : putAll put as = some bs)
    (h : ∀ a ∈ as, ∀ bs, put a = some bs → Decodes get bs (g a)) :
    Decodes (many as.length get) bs (as.map g) := by
  induction as generalizing bs with
  | nil =>
    cases hput
    exact Decodes.pure []
  | cons a as ih =>
    simp only [putAll, Option.bind_eq_bind, Option.bind_eq_some_iff, Option.pure_def,
      Option.some.injEq] at hput
    obtain ⟨bs₁, h₁, bs₂, h₂, rfl⟩ := hput
    exact (h a List.mem_cons_self bs₁ h₁).bind
      ((ih h₂ fun x hx => h x (List.mem_cons_of_mem a hx)).map (g a :: ·))

theorem putAll_length {size : Nat} (hput : putAll put as = some bs)
    (h : ∀ a ∈ as, ∀ bs, put a = some bs → size ≤ bs.length) : as.length * size ≤ bs.length := by
  induction as generalizing bs with
  | nil => simp
  | cons a as ih =>
    simp only [putAll, Option.bind_eq_bind, Option.bind_eq_some_iff, Option.pure_def,
      Option.some.injEq] at hput
    obtain ⟨bs₁, h₁, bs₂, h₂, rfl⟩ := hput
    have hhead := h a List.mem_cons_self bs₁ h₁
    have htail := ih h₂ fun x hx => h x (List.mem_cons_of_mem a hx)
    rw [List.length_cons, List.length_append, Nat.succ_mul]
    omega

theorem putSection_some (h : putSection put as = some bs) :
    ∃ body, putAll put as = some body ∧ bs = putLE 4 as.length ++ body := by
  simp only [putSection, Option.bind_eq_bind, Option.bind_eq_some_iff, Option.pure_def,
    Option.some.injEq] at h
  obtain ⟨body, hbody, rfl⟩ := h
  exact ⟨body, hbody, rfl⟩

theorem putSection_decodes {get : Reader β} {g : α → β}
    {size : Nat} (hpos : 0 < size) (hput : putSection put as = some bs) (hfile : bs.length < 2 ^ 32)
    (hsize : ∀ a ∈ as, ∀ bs, put a = some bs → size ≤ bs.length)
    (h : ∀ a ∈ as, ∀ bs, put a = some bs → Decodes get bs (g a)) :
    Decodes (getSection size get) bs (as.map g) := by
  obtain ⟨body, hbody, rfl⟩ := putSection_some hput
  have hlength := putAll_length hbody hsize
  have hcount : as.length ≤ as.length * size := Nat.le_mul_of_pos_right _ hpos
  simp only [List.length_append] at hfile
  exact getCount_bind (by omega) hlength (putAll_decodes hbody h)

end

structure FunctionLoads (codeCount : Nat) (f : Function) : Prop where
  entry : f.entry.toNat < codeCount
  parameters : f.parameters.length ≤ bcMaxRegs
  locals : f.parameters.length + 1 ≤ f.locals.length

structure SiteLoads (code : List Instruction) (opcode : Opcode) (site : Site) : Prop where
  target : (code[site.instruction.toNat]?).map Instruction.opcode = some opcode

/-- The checks of `ru_parse` on what is not merely format. -/
structure Loads (p : Program) : Prop where
  nonempty : p.code ≠ []
  size : p.code.length ≤ bcMaxCode
  last : p.code.getLast?.map Instruction.opcode = some .halt
  operands : ∀ ins ∈ p.code, operandError p ins = none
  functions : ∀ f ∈ p.functions, FunctionLoads p.code.length f
  oopSites : ∀ site ∈ p.oopSites, SiteLoads p.code .oop site
  scanSites : ∀ site ∈ p.scanSites, SiteLoads p.code .scan site

def storedArgument : Argument → Argument
  | .commandList assignment list => .commandList assignment list
  | .advancedList assignment list => .advancedList assignment list
  | .expression assignment (.variable name) => .expression assignment (.variable name)
  | .expression assignment _ => .value assignment .null
  | .value assignment _ => .value assignment .null
  | .lookup assignment _ => .value assignment .null
  | .unoLiteral assignment _ => .value assignment .null

def storedSite (site : Site) : Site :=
  { site with arguments := site.arguments.map storedArgument }

def stored (p : Program) : Program :=
  { p with oopSites := p.oopSites.map storedSite, scanSites := p.scanSites.map storedSite }

theorem putInstruction_decodes (ins : Instruction) :
    Decodes getInstruction (putInstruction ins) ins := by
  have hopcode : (UInt8.ofNat ins.opcode.toByte).toNat = ins.opcode.toByte := by
    rw [UInt8.toNat_ofNat', Nat.mod_eq_of_lt ins.opcode.toByte_lt]
  have himmediate : ins.immediate.toNat < 2 ^ 32 := UInt32.toNat_lt ins.immediate
  refine getU8_bind _ (getU8_bind _ (getU8_bind _ (getU8_bind _ ?_)))
  rw [hopcode]
  refine (getU32_decodes himmediate).last ?_
  rw [Opcode.ofByte_toByte]
  simp only [UInt8.ofNat_toNat, UInt32.ofNat_toNat]
  exact Decodes.pure ins

theorem putConstant_length {v : Value} (h : putConstant v = some bs) :
    1 ≤ bs.length := by
  cases v with
  | string text =>
    simp only [putConstant, Option.bind_eq_bind, Option.bind_eq_some_iff, Option.pure_def,
      Option.some.injEq] at h
    obtain ⟨bs, _, rfl⟩ := h
    simp
  | null | integer | real | boolean =>
    cases h
    simp
  | vector | instance_ | btree => simp [putConstant] at h

theorem putFunction_some {f : Function} (h : putFunction f = some bs) :
    ∃ name returnName parameters locals, putString (some f.name) = some name ∧
      putString f.returnName = some returnName ∧
      putSection putRequired f.parameters = some parameters ∧
      putSection putRequired f.locals = some locals ∧
      bs = name ++ (returnName ++ (putLE 4 f.entry.toNat ++ (parameters ++ locals))) := by
  simp only [putFunction, Option.bind_eq_bind, Option.bind_eq_some_iff, Option.pure_def,
    Option.some.injEq] at h
  obtain ⟨name, hname, returnName, hreturn, parameters, hparameters, locals, hlocals, rfl⟩ := h
  exact ⟨name, returnName, parameters, locals, hname, hreturn, hparameters, hlocals, rfl⟩

theorem putFunction_length {f : Function} (h : putFunction f = some bs) :
    16 ≤ bs.length := by
  obtain ⟨name, returnName, parameters, locals, hname, hreturn, hparameters, _, rfl⟩ :=
    putFunction_some h
  obtain ⟨body, _, rfl⟩ := putSection_some hparameters
  have hn := putString_length hname
  have hr := putString_length hreturn
  simp only [List.length_append, length_putLE]
  omega

theorem putFunction_decodes {codeCount : Nat} {f : Function}
    (h : putFunction f = some bs) (hfile : bs.length < 2 ^ 32) (hloads : FunctionLoads codeCount f) :
    Decodes (getFunction codeCount) bs f := by
  obtain ⟨name, returnName, parameters, locals, hname, hreturn, hparameters, hlocals, rfl⟩ :=
    putFunction_some h
  obtain ⟨ps, hps, rfl⟩ := putSection_some hparameters
  obtain ⟨ls, hls, rfl⟩ := putSection_some hlocals
  have hpsize := putAll_length hps fun _ _ _ => putString_length
  have hlsize := putAll_length hls fun _ _ _ => putString_length
  have hpdec := putAll_decodes (g := id) hps fun _ _ _ => putRequiredString_decodes
  have hldec := putAll_decodes (g := id) hls fun _ _ _ => putRequiredString_decodes
  simp only [List.length_append, length_putLE, List.map_id] at hfile hpdec hldec
  refine (putRequiredString_decodes hname).bind ((putString_decodes hreturn).bind
    ((getU32_decodes (UInt32.toNat_lt f.entry)).bind ?_))
  rw [List.append_assoc]
  refine getCount_bind (by omega) (by rw [List.length_append]; omega) ?_
  rw [if_neg (Nat.not_le.mpr hloads.entry), if_neg (Nat.not_lt.mpr hloads.parameters)]
  refine hpdec.bind (getCount_bind (by omega) hlsize ?_)
  rw [if_neg (Nat.not_lt.mpr hloads.locals)]
  simp only [UInt32.ofNat_toNat]
  exact hldec.map fun locals => (⟨f.name, f.returnName, f.parameters, f.entry, locals⟩ : Function)

theorem putSiteArgument_decodes
    (h : putSiteArgument argument = some bs)
    (hfit : ∀ list, argument.list? = some list → CountsFit list) :
    Decodes getSiteArgument bs (storedArgument argument) := by
  have hblank : ∀ assignment, Decodes getSiteArgument [0, putFlag assignment]
      (.value assignment .null) := by
    intro assignment
    refine getU8_bind 0 (getU8_bind _ ?_)
    rw [if_neg (putFlag_le _), putFlag_eq]
    exact Decodes.pure _
  cases argument with
  | value assignment v =>
    cases h
    exact hblank assignment
  | lookup assignment name =>
    cases h
    exact hblank assignment
  | unoLiteral assignment text =>
    cases h
    exact hblank assignment
  | commandList assignment list =>
    simp only [putSiteArgument, Option.bind_eq_bind, Option.bind_eq_some_iff, Option.pure_def,
      Option.some.injEq] at h
    obtain ⟨bs, hbs, rfl⟩ := h
    refine getU8_bind 2 (getU8_bind _ ?_)
    rw [if_neg (putFlag_le _), putFlag_eq]
    exact (putBlock_decodes hbs (hfit list rfl)).map _
  | advancedList assignment list =>
    simp only [putSiteArgument, Option.bind_eq_bind, Option.bind_eq_some_iff, Option.pure_def,
      Option.some.injEq] at h
    obtain ⟨bs, hbs, rfl⟩ := h
    refine getU8_bind 3 (getU8_bind _ ?_)
    rw [if_neg (putFlag_le _), putFlag_eq]
    exact (putBlock_decodes hbs (hfit list rfl)).map _
  | expression assignment e =>
    cases e with
    | «variable» name =>
      simp only [putSiteArgument, Option.bind_eq_bind, Option.bind_eq_some_iff, Option.pure_def,
        Option.some.injEq] at h
      obtain ⟨bs, hbs, rfl⟩ := h
      refine getU8_bind 1 (getU8_bind _ ?_)
      rw [if_neg (putFlag_le _), putFlag_eq]
      exact (putRequiredString_decodes hbs).map fun name =>
        Argument.expression assignment (.variable name)
    | value v =>
      cases h
      exact hblank assignment
    | binary operator left right =>
      cases h
      exact hblank assignment
    | unary operator operand =>
      cases h
      exact hblank assignment

theorem putSite_some (h : putSite site = some bs) :
    site.arguments.length ≤ 255 ∧ ∃ name returnName arguments, putString site.name = some name ∧
      putString site.returnName = some returnName ∧
      putAll putSiteArgument site.arguments = some arguments ∧
      bs = putLE 4 site.instruction.toNat ++
        (name ++ (returnName ++ (UInt8.ofNat site.arguments.length :: arguments))) := by
  simp only [putSite, Option.bind_eq_bind, Option.bind_eq_some_iff, Option.guard_eq_some',
    Option.pure_def, Option.some.injEq] at h
  obtain ⟨_, hcount, name, hname, returnName, hreturn, arguments, harguments, rfl⟩ := h
  exact ⟨hcount, name, returnName, arguments, hname, hreturn, harguments, rfl⟩

theorem putSite_length (h : putSite site = some bs) :
    13 ≤ bs.length := by
  obtain ⟨_, name, returnName, arguments, hname, hreturn, _, rfl⟩ := putSite_some h
  have hn := putString_length hname
  have hr := putString_length hreturn
  simp only [List.length_append, length_putLE, List.length_cons]
  omega

theorem putSite_decodes {code : List Instruction} {opcode : Opcode} (h : putSite site = some bs) (hloads : SiteLoads code opcode site)
    (hfit : ∀ argument ∈ site.arguments, ∀ list, argument.list? = some list → CountsFit list) :
    Decodes (getSite code opcode) bs (storedSite site) := by
  obtain ⟨hcount, name, returnName, arguments, hname, hreturn, harguments, rfl⟩ := putSite_some h
  have hargs := putAll_decodes harguments fun a ha _ hput => putSiteArgument_decodes hput (hfit a ha)
  refine (getU32_decodes (UInt32.toNat_lt site.instruction)).bind ((putString_decodes hname).bind
    ((putString_decodes hreturn).bind (getU8_bind _ ?_)))
  rw [UInt8.toNat_ofNat', Nat.mod_eq_of_lt (show site.arguments.length < 2 ^ 8 by omega)]
  simp only [hloads.target, ne_eq, not_true_eq_false, if_false, UInt32.ofNat_toNat]
  exact hargs.map fun arguments =>
    (⟨site.instruction, site.name, site.returnName, arguments⟩ : Site)

theorem putNodes_mem {arguments : List Argument} (h : putNodes depth arguments = some bs) (ha : argument ∈ arguments) :
    ∃ as, putNode depth argument = some as ∧ as.length ≤ bs.length := by
  induction arguments generalizing bs with
  | nil => cases ha
  | cons first arguments ih =>
    simp only [putNodes, Option.bind_eq_bind, Option.bind_eq_some_iff, Option.pure_def,
      Option.some.injEq] at h
    obtain ⟨bs₁, h₁, bs₂, h₂, rfl⟩ := h
    rw [List.length_append]
    rcases List.mem_cons.mp ha with rfl | hrest
    · exact ⟨bs₁, h₁, Nat.le_add_right _ _⟩
    · obtain ⟨as, has, hle⟩ := ih h₂ hrest
      exact ⟨as, has, by omega⟩

theorem putCommands_mem {list : List Command} {command : Command}
    (h : putCommands depth list = some bs) (hc : command ∈ list) :
    ∃ cs, putCommand depth command = some cs ∧ cs.length ≤ bs.length := by
  induction list generalizing bs with
  | nil => cases hc
  | cons first list ih =>
    simp only [putCommands, Option.bind_eq_bind, Option.bind_eq_some_iff, Option.pure_def,
      Option.some.injEq] at h
    obtain ⟨bs₁, h₁, bs₂, h₂, rfl⟩ := h
    rw [List.length_append]
    rcases List.mem_cons.mp hc with rfl | hrest
    · exact ⟨bs₁, h₁, Nat.le_add_right _ _⟩
    · obtain ⟨cs, hcs, hle⟩ := ih h₂ hrest
      exact ⟨cs, hcs, by omega⟩

theorem putCommand_nodes {command : Command}
    (h : putCommand depth command = some bs) :
    ∃ as, putNodes depth command.arguments = some as ∧ as.length ≤ bs.length := by
  obtain ⟨path, name, returnName, arguments⟩ := command
  simp only [putCommand, Option.bind_eq_bind, Option.bind_eq_some_iff, Option.guard_eq_some',
    Option.pure_def, Option.some.injEq] at h
  obtain ⟨_, _, ps, _, ns, _, rs, _, as, has, rfl⟩ := h
  refine ⟨as, has, ?_⟩
  simp only [List.length_append, List.length_cons]
  omega

theorem putNode_block {block : List Command}
    (h : putNode depth argument = some bs) (hblock : argument.list? = some block) :
    ∃ cs, putCommands (depth + 1) block = some cs ∧ cs.length ≤ bs.length := by
  cases argument with
  | commandList assignment list | advancedList assignment list =>
    cases hblock
    simp only [putNode, Option.bind_eq_bind, Option.bind_eq_some_iff, Option.guard_eq_some',
      Option.pure_def, Option.some.injEq] at h
    obtain ⟨_, _, cs, hcs, rfl⟩ := h
    refine ⟨cs, hcs, ?_⟩
    simp only [List.length_append, List.length_cons]
    omega
  | value | expression | lookup | unoLiteral => cases hblock

theorem putCommands_occurs {inner list : List Command} (hinner : Occurs inner list) :
    ∀ {depth : Nat} {bs : List UInt8}, putCommands depth list = some bs →
      inner.length * 13 ≤ bs.length := by
  induction hinner with
  | here => exact fun h => putCommands_length h
  | inside hc ha hb _ ih =>
    intro depth bs h
    obtain ⟨cs, hcs, hle₁⟩ := putCommands_mem h hc
    obtain ⟨as, has, hle₂⟩ := putCommand_nodes hcs
    obtain ⟨ns, hns, hle₃⟩ := putNodes_mem has ha
    obtain ⟨bs', hbs', hle₄⟩ := putNode_block hns hb
    exact (ih hbs').trans (hle₄.trans (hle₃.trans (hle₂.trans hle₁)))

theorem putAll_mem {α : Type} {put : α → Option (List UInt8)} {as : List α}
    {a : α} (h : putAll put as = some bs) (ha : a ∈ as) :
    ∃ cs, put a = some cs ∧ cs.length ≤ bs.length := by
  induction as generalizing bs with
  | nil => cases ha
  | cons first as ih =>
    simp only [putAll, Option.bind_eq_bind, Option.bind_eq_some_iff, Option.pure_def,
      Option.some.injEq] at h
    obtain ⟨bs₁, h₁, bs₂, h₂, rfl⟩ := h
    rw [List.length_append]
    rcases List.mem_cons.mp ha with rfl | hrest
    · exact ⟨bs₁, h₁, Nat.le_add_right _ _⟩
    · obtain ⟨cs, hcs, hle⟩ := ih h₂ hrest
      exact ⟨cs, hcs, by omega⟩

theorem putSite_fit (h : putSite site = some bs)
    (hfile : bs.length < 2 ^ 32) :
    ∀ argument ∈ site.arguments, ∀ list, argument.list? = some list → CountsFit list := by
  obtain ⟨_, name, returnName, arguments, _, _, harguments, rfl⟩ := putSite_some h
  intro argument ha list hlist inner hinner
  obtain ⟨as, has, hle⟩ := putAll_mem harguments ha
  have hblock : ∃ bs, putBlock 1 list = some bs ∧ bs.length ≤ as.length := by
    cases argument with
    | commandList assignment l | advancedList assignment l =>
      cases hlist
      simp only [putSiteArgument, Option.bind_eq_bind, Option.bind_eq_some_iff, Option.pure_def,
        Option.some.injEq] at has
      obtain ⟨bs, hbs, rfl⟩ := has
      exact ⟨bs, hbs, by simp only [List.length_cons]; omega⟩
    | value | expression | lookup | unoLiteral => cases hlist
  obtain ⟨bs, hbs, hbs_le⟩ := hblock
  simp only [putBlock, Option.bind_eq_bind, Option.bind_eq_some_iff, Option.guard_eq_some',
    Option.pure_def, Option.some.injEq] at hbs
  obtain ⟨_, _, cs, hcs, rfl⟩ := hbs
  have hsize := putCommands_occurs hinner hcs
  simp only [List.length_append, length_putLE, List.length_cons] at hfile hbs_le
  omega

theorem getCode_decodes {code : List Instruction}
    (hput : putSection (fun ins => some (putInstruction ins)) code = some bs)
    (hnonempty : code ≠ []) (hsize : code.length ≤ bcMaxCode)
    (hlast : code.getLast?.map Instruction.opcode = some .halt) : Decodes getCode bs code := by
  obtain ⟨body, hbody, rfl⟩ := putSection_some hput
  have hlength : code.length * 8 ≤ body.length := putAll_length hbody fun ins _ bs hins => by
    cases hins
    simp [putInstruction]
  have hcount : code.length < 2 ^ 32 := hsize.trans_lt (by decide)
  have hread := putAll_decodes (g := id) hbody fun ins _ bs hins => by
    cases hins
    exact putInstruction_decodes ins
  rw [List.map_id] at hread
  have hbad : ¬ (code.length = 0 ∨ code.length > bcMaxCode) := by
    rintro (h | h)
    · exact hnonempty (List.length_eq_zero_iff.mp h)
    · exact absurd hsize (Nat.not_le.mpr h)
  refine getCount_bind hcount hlength ?_
  rw [if_neg hbad]
  refine hread.last ?_
  rw [if_neg (not_not.mpr hlast)]
  exact Decodes.pure code

theorem checkOperands_decodes (h : ∀ ins ∈ p.code, operandError p ins = none) :
    Decodes (checkOperands p) [] () := by
  unfold checkOperands
  rw [List.findSome?_eq_none_iff.mpr h]
  exact Decodes.pure ()

theorem putBody_some (h : putBody p = some bs) :
    ∃ code constants strings functions oopSites scanSites,
      putSection (fun ins => some (putInstruction ins)) p.code = some code ∧
      putSection putConstant p.constants = some constants ∧
      putSection putString p.strings = some strings ∧
      putSection putFunction p.functions = some functions ∧
      putSection putSite p.oopSites = some oopSites ∧
      putSection putSite p.scanSites = some scanSites ∧
      bs = code ++ (constants ++ (strings ++ (functions ++ (oopSites ++ scanSites)))) := by
  simp only [putBody, Option.bind_eq_bind, Option.bind_eq_some_iff, Option.pure_def,
    Option.some.injEq] at h
  obtain ⟨code, h₁, constants, h₂, strings, h₃, functions, h₄, oop, h₅, scan, h₆, rfl⟩ := h
  exact ⟨code, constants, strings, functions, oop, scan, h₁, h₂, h₃, h₄, h₅, h₆, rfl⟩

theorem putSection_mem {α : Type} {put : α → Option (List UInt8)} {as : List α}
    {a : α} (h : putSection put as = some bs) (ha : a ∈ as) :
    ∀ cs, put a = some cs → cs.length ≤ bs.length := by
  intro cs hcs
  obtain ⟨body, hbody, rfl⟩ := putSection_some h
  obtain ⟨cs', hcs', hle⟩ := putAll_mem hbody ha
  cases hcs.symm.trans hcs'
  rw [List.length_append]
  omega

theorem getBody_decodes (h : putBody p = some bs)
    (hfile : bs.length < 2 ^ 32) (hloads : Loads p) : Decodes getBody bs (stored p) := by
  obtain ⟨code, constants, strings, functions, oop, scan, h₁, h₂, h₃, h₄, h₅, h₆, rfl⟩ :=
    putBody_some h
  simp only [List.length_append] at hfile
  have hcode := getCode_decodes h₁ hloads.nonempty hloads.size hloads.last
  have hconstants := putSection_decodes (g := id) (show 0 < 1 by omega) h₂ (by omega)
    (fun _ _ _ => putConstant_length) fun _ _ _ => putConstant_decodes
  have hstrings := putSection_decodes (g := id) (show 0 < 4 by omega) h₃ (by omega)
    (fun _ _ _ => putString_length) fun _ _ _ => putString_decodes
  have hfunctions := putSection_decodes (g := id) (show 0 < 16 by omega) h₄ (by omega)
    (fun _ _ _ => putFunction_length) fun f hf bs hput =>
      putFunction_decodes hput ((putSection_mem h₄ hf bs hput).trans_lt (by omega))
        (hloads.functions f hf)
  have hoop := putSection_decodes (g := storedSite) (show 0 < 13 by omega) h₅ (by omega)
    (fun _ _ _ => putSite_length) fun site hsite bs hput =>
      putSite_decodes hput (hloads.oopSites site hsite)
        (putSite_fit hput ((putSection_mem h₅ hsite bs hput).trans_lt (by omega)))
  have hscan := putSection_decodes (g := storedSite) (show 0 < 13 by omega) h₆ (by omega)
    (fun _ _ _ => putSite_length) fun site hsite bs hput =>
      putSite_decodes hput (hloads.scanSites site hsite)
        (putSite_fit hput ((putSection_mem h₆ hsite bs hput).trans_lt (by omega)))
  rw [List.map_id] at hconstants hstrings hfunctions
  have hcheck : Decodes (checkOperands ⟨p.code, p.constants, p.strings, p.functions, [], []⟩)
      [] () := checkOperands_decodes hloads.operands
  exact hcode.bind (hconstants.bind (hstrings.bind (hfunctions.bind (hcheck.bind
    (hoop.bind (hscan.map fun scanSites => (⟨p.code, p.constants, p.strings, p.functions,
      p.oopSites.map storedSite, scanSites⟩ : Program)))))))

theorem crcBits_lt {crc : Nat} (turns : Nat) (h : crc < 2 ^ 32) : crcBits turns crc < 2 ^ 32 := by
  induction turns generalizing crc with
  | zero => exact h
  | succ turns ih =>
    unfold crcBits
    split_ifs
    · exact ih (Nat.xor_lt_two_pow (by omega) (by decide))
    · exact ih (by omega)

theorem ruCrc32_lt (data : List UInt8) : ruCrc32 data < 256 ^ 4 := by
  have hfold : ∀ (data : List UInt8) (crc : Nat), crc < 2 ^ 32 →
      data.foldl (fun crc b => crcBits 8 (crc ^^^ b.toNat)) crc < 2 ^ 32 := by
    intro data
    induction data with
    | nil => exact fun crc h => h
    | cons b data ih =>
      intro crc h
      have hb : b.toNat < 2 ^ 32 := (UInt8.toNat_lt b).trans (by decide)
      exact ih _ (crcBits_lt 8 (Nat.xor_lt_two_pow h hb))
  exact Nat.xor_lt_two_pow (hfold data _ (by decide)) (by decide)

theorem checkHeader_written {body : List UInt8} (h : body.length < 2 ^ 32) :
    checkHeader (putHeader body.length ++ body ++
      putLE 4 (ruCrc32 (putHeader body.length ++ body))) = .ok () := by
  have hcrc : ruCrc32 (putHeader body.length ++ body) < 256 ^ 4 := ruCrc32_lt _
  have hlen : (putHeader body.length ++ body).length = 24 + body.length := by
    simp [putHeader, ruMagic]
    omega
  generalize hdata : putHeader body.length ++ body ++
    putLE 4 (ruCrc32 (putHeader body.length ++ body)) = data
  have hsize : data.length = 28 + body.length := by
    rw [← hdata, List.length_append, hlen, length_putLE]
    omega
  have hcons : data = 0x89 :: 0x55 :: 0x53 :: 0x53 :: 0x52 :: 0x0d :: 0x0a :: 0x1a ::
      3 :: 0 :: 0 :: 0 :: 3 :: 0 :: 0 :: 0 :: 9 :: 4 :: 0 :: 0 ::
        (putLE 4 body.length ++ (body ++
          putLE 4 (ruCrc32 (putHeader body.length ++ body)))) := by
    rw [← hdata, List.append_assoc]
    unfold putHeader
    simp only [List.append_assoc]
    rfl
  have hpayload : field data 20 4 = body.length := by
    rw [hcons]
    show ofLE ((putLE 4 body.length ++ _).take 4) = _
    rw [List.take_append_of_le_length (by simp), List.take_of_length_le (by simp),
      ofLE_putLE (by simpa using h)]
  have htake : data.take (data.length - 4) = putHeader body.length ++ body := by
    rw [← hdata]
    refine List.take_left' ?_
    simp only [List.length_append, length_putLE]
    omega
  have hstored : field data (data.length - 4) 4 = ruCrc32 (putHeader body.length ++ body) := by
    have hstart : data.length - 4 = (putHeader body.length ++ body).length := by omega
    unfold field
    rw [hstart, ← hdata, List.drop_left, List.take_of_length_le (by simp), ofLE_putLE hcrc]
  have hmagic : data.take 8 = ruMagic := by
    rw [hcons]
    rfl
  have hversion : field data 8 2 = ruFormatVersion := by
    rw [hcons]
    rfl
  have hflags : field data 10 2 = 0 := by
    rw [hcons]
    rfl
  have habi : field data 12 4 = ruVmAbi := by
    rw [hcons]
    rfl
  have havailable : data.length - ruHeaderSize - 4 = body.length := by
    rw [hsize, show ruHeaderSize = 24 from rfl]
    omega
  have hshort : ¬ data.length < ruHeaderSize + 4 := by
    rw [hsize, show ruHeaderSize = 24 from rfl]
    omega
  unfold checkHeader
  rw [hmagic, hversion, hflags, habi, hpayload, havailable, hstored, htake]
  simp [hshort]

theorem parse_written {data : List UInt8} (hwrite : writeFile p = some data)
    (hsize : data.length ≤ ruMaxFileSize) (hloads : Loads p) : parse data = .ok (stored p) := by
  simp only [writeFile, Option.bind_eq_bind, Option.bind_eq_some_iff, Option.pure_def,
    Option.some.injEq] at hwrite
  obtain ⟨body, hbody, rfl⟩ := hwrite
  have hlen : (putHeader body.length).length = ruHeaderSize := by simp [putHeader, ruMagic]
  have hfits : body.length < 2 ^ 32 := by
    have hmax : ruMaxFileSize < 2 ^ 32 := by decide
    simp only [List.length_append] at hsize
    omega
  have hread := getBody_decodes hbody hfits hloads []
  rw [List.append_nil] at hread
  unfold parse
  have hend : (putHeader body.length ++ body ++
      putLE 4 (ruCrc32 (putHeader body.length ++ body))).length - 4 =
      (putHeader body.length ++ body).length := by
    simp only [List.length_append, length_putLE]
    omega
  rw [checkHeader_written hfits, hend, List.take_left, List.drop_left' hlen, hread]
  rfl

theorem getCode_yields : Yields getCode fun code =>
    code ≠ [] ∧ code.length ≤ bcMaxCode ∧ code.getLast?.map Instruction.opcode = some .halt := by
  unfold getCode
  refine (Yields.any _).bind fun count _ => ?_
  split_ifs with hcount
  · exact Yields.fail _
  · refine ((Yields.any getInstruction).many count).bind fun code hcode => ?_
    split_ifs with hlast
    · exact Yields.fail _
    · refine Yields.pure ⟨?_, ?_, not_not.mp hlast⟩
      · rintro rfl
        exact hcount (Or.inl hcode.1.symm)
      · rw [hcode.1]
        exact Nat.le_of_not_lt fun h => hcount (Or.inr h)

theorem getFunction_yields (codeCount : Nat) :
    Yields (getFunction codeCount) (FunctionLoads codeCount) := by
  unfold getFunction
  refine (Yields.any _).bind fun name _ => (Yields.any _).bind fun returnName _ =>
    getU32_yields.bind fun entry hentry => (Yields.any _).bind fun parameterCount _ => ?_
  split_ifs with houtside hmany
  · exact Yields.fail _
  · exact Yields.fail _
  · refine ((Yields.any _).many _).bind fun parameters hparameters =>
      (Yields.any _).bind fun localCount _ => ?_
    split_ifs with hfew
    · exact Yields.fail _
    · refine ((Yields.any _).many _).bind fun locals hlocals => Yields.pure ⟨?_, ?_, ?_⟩
      · rw [UInt32.toNat_ofNat', Nat.mod_eq_of_lt hentry]
        omega
      · simp only [hparameters.1]
        omega
      · simp only [hparameters.1, hlocals.1]
        omega

theorem getSite_yields (code : List Instruction) (opcode : Opcode) :
    Yields (getSite code opcode) (SiteLoads code opcode) := by
  unfold getSite
  refine getU32_yields.bind fun instruction hinstruction => (Yields.any _).bind fun name _ =>
    (Yields.any _).bind fun returnName _ => (Yields.any _).bind fun count _ =>
    (Yields.any _).bind fun arguments _ => ?_
  split_ifs with htarget
  · exact Yields.fail _
  · refine Yields.pure ⟨?_⟩
    rw [UInt32.toNat_ofNat', Nat.mod_eq_of_lt hinstruction]
    exact not_not.mp htarget

theorem getSection_yields {α : Type} {get : Reader α} {P : α → Prop} (size : Nat)
    (h : Yields get P) : Yields (getSection size get) fun as => ∀ a ∈ as, P a :=
  (Yields.any _).bind fun count _ => by
    intro bs as rest hrun
    exact (h.many count bs as rest hrun).2

theorem checkOperands_yields (p : Program) : Yields (checkOperands p) fun _ =>
    ∀ ins ∈ p.code, operandError p ins = none := by
  unfold checkOperands
  cases hfind : p.code.findSome? (operandError p) with
  | some message => exact Yields.fail _
  | none => exact Yields.pure (List.findSome?_eq_none_iff.mp hfind)

theorem getBody_yields : Yields getBody Loads := by
  refine getCode_yields.bind fun code hcode => (Yields.any _).bind fun constants _ =>
    (Yields.any _).bind fun strings _ =>
    (getSection_yields 16 (getFunction_yields code.length)).bind fun functions hfunctions =>
    (checkOperands_yields _).bind fun _ hoperands =>
    (getSection_yields 13 (getSite_yields code .oop)).bind fun oopSites hoop =>
    (getSection_yields 13 (getSite_yields code .scan)).bind fun scanSites hscan =>
    Yields.pure ?_
  exact ⟨hcode.1, hcode.2.1, hcode.2.2, hoperands, hfunctions, hoop, hscan⟩

theorem parse_loads {data : List UInt8} {program : Program} (h : parse data = .ok program) :
    Loads program := by
  unfold parse at h
  cases hheader : checkHeader data with
  | error e => simp [hheader] at h
  | ok u =>
    rw [hheader] at h
    cases hbody : getBody ((data.take (data.length - 4)).drop ruHeaderSize) with
    | error e => simp [hbody] at h
    | ok result =>
      obtain ⟨p, rest⟩ := result
      simp only [hbody] at h
      split_ifs at h
      cases h
      exact getBody_yields _ _ _ hbody

end Ussr.Ru
