import Ussr.Kv.Open
import Ussr.Kv.Store
import Ussr.Uno.NoNul
import Ussr.Uno.RoundTrip

/-! What was framed and written is read back: the text of a frame, and the pages of a
write, which leaves the other pages alone. -/

namespace Ussr.Kv
open Real64

theorem unhexDigit_hexDigit {d : Nat} (h : d < 16) : unhexDigit (hexDigit d) = some d := by
  interval_cases d <;> rfl

theorem shiftRight_digit (n i : Nat) : 16 * n >>> (i + 4) + n >>> i % 16 = n >>> i := by
  rw [Nat.shiftRight_add, Nat.shiftRight_eq_div_pow (n >>> i)]
  exact Nat.div_add_mod (n >>> i) 16

theorem dkvUnhex8_dkvHex8 {n : Nat} (h : n < 2 ^ 32) : dkvUnhex8 (dkvHex8 n) = some n := by
  have hdigit : ∀ i, unhexDigit (hexDigit (n >>> i % 16)) = some (n >>> i % 16) := fun i =>
    unhexDigit_hexDigit (Nat.mod_lt _ (by decide))
  have htop : n >>> 32 = 0 := by
    rw [Nat.shiftRight_eq_div_pow]
    exact Nat.div_eq_of_lt h
  have hall : [28, 24, 20, 16, 12, 8, 4, 0].foldl (fun r i => 16 * r + n >>> i % 16) (n >>> 32) = n := by
    simp only [List.foldl_cons, List.foldl_nil]
    rw [shiftRight_digit n 28, shiftRight_digit n 24, shiftRight_digit n 20, shiftRight_digit n 16, shiftRight_digit n 12,
      shiftRight_digit n 8, shiftRight_digit n 4, shiftRight_digit n 0, Nat.shiftRight_zero]
  rw [htop] at hall
  simp only [dkvUnhex8, dkvHex8, List.map_cons, List.map_nil, List.foldlM_cons, List.foldlM_nil,
    hdigit, Option.map_some, Option.bind_eq_bind, Option.bind_some, Option.pure_def, Option.some.injEq]
  exact hall

theorem length_dkvHex8 (n : Nat) : (dkvHex8 n).length = 8 := rfl

theorem zero_notMem_dkvHex8 (n : Nat) : 0 ∉ dkvHex8 n := by
  intro h
  obtain ⟨i, -, hi⟩ := List.mem_map.mp h
  have hlt : n >>> i % 16 < 16 := Nat.mod_lt _ (by decide)
  revert hi
  generalize n >>> i % 16 = d at hlt ⊢
  interval_cases d <;> decide

section

variable {magic : String} {text : List UInt8} {pages : Nat}

theorem length_dkvFrame (hmagic : (ascii magic).length = 8) (h : 24 + text.length ≤ 4096 * pages) :
    (dkvFrame magic text pages).length = 4096 * pages := by
  simp only [dkvFrame, List.length_append, List.length_replicate, hmagic, length_dkvHex8]
  omega

theorem dkvUnframe_dkvFrame (hmagic : (ascii magic).length = 8)
    (h : 24 + text.length ≤ 4096 * pages) (hshort : text.length < 2 ^ 32) (htext : 0 ∉ text) :
    dkvUnframe (some (dkvFrame magic text pages)) magic = some text := by
  have hcrc : (crc32 text).toNat < 2 ^ 32 := (crc32 text).isLt
  let head := ascii magic ++ dkvHex8 text.length ++ dkvHex8 (crc32 text).toNat
  have hhead : head.length = 24 := by
    simp [head, hmagic, length_dkvHex8]
  obtain ⟨pad, hframe⟩ : ∃ pad, dkvFrame magic text pages = head ++ (text ++ pad) :=
    ⟨_, by simp only [dkvFrame, head, List.append_assoc]; rfl⟩
  have hlen := length_dkvFrame hmagic h
  have hzero : 0 ∉ head := by
    simp only [head, List.mem_append, not_or]
    exact ⟨⟨fun hin => (CString.lit magic).noNul 0 hin rfl, zero_notMem_dkvHex8 _⟩, zero_notMem_dkvHex8 _⟩
  have htake : (dkvFrame magic text pages).take 24 = head := by
    rw [hframe, List.take_append_of_le_length hhead.ge, List.take_of_length_le hhead.le]
  have hdrop : (dkvFrame magic text pages).drop 24 = text ++ pad := by
    rw [hframe, List.drop_append_of_le_length hhead.ge, List.drop_of_length_le hhead.le,
      List.nil_append]
  have hmagicHead : head.take 8 = ascii magic := by
    simp [head, hmagic]
  have hsizeHead : (head.drop 8).take 8 = dkvHex8 text.length := by
    rw [show head = ascii magic ++ (dkvHex8 text.length ++ _) from List.append_assoc ..,
      List.drop_left' hmagic, List.take_left' (length_dkvHex8 _)]
  have hcrcHead : head.drop 16 = dkvHex8 (crc32 text).toNat := by
    exact List.drop_left' (by rw [List.length_append, hmagic, length_dkvHex8])
  rw [dkvUnframe, Option.bind_eq_bind, Option.bind_some, if_neg (by omega), htake, bytesText,
    if_neg hzero]
  simp only [Option.bind_eq_bind, Option.bind_some, hmagicHead, hsizeHead, hcrcHead,
    dkvUnhex8_dkvHex8 hshort, dkvUnhex8_dkvHex8 hcrc, hdrop, bytesText, List.take_left, htext]
  rw [if_neg (by simp), if_neg (by omega)]
  simp

end

section

variable {file file' : KvFile} {p q : Nat} {bytes : List UInt8}

theorem flatMap_slices (k np : Nat) (h : bytes.length = 4096 * (k + np)) :
    (List.range' (p + k) np).flatMap (fun q => (bytes.drop (4096 * (q - p))).take 4096) =
      bytes.drop (4096 * k) := by
  induction np generalizing k with
  | zero => exact (List.drop_of_length_le h.le).symm
  | succ np ih =>
    rw [List.range'_succ, List.flatMap_cons, Nat.add_sub_cancel_left, Nat.add_assoc,
      ih (k + 1) (by omega), Nat.mul_add, Nat.mul_one, ← List.drop_drop, List.take_append_drop]

theorem length_pages {np : Nat} (h : bytes.length = 4096 * np) : bytes.length / 4096 = np := by
  omega

theorem bread_write_same {np : Nat} (h : bytes.length = 4096 * np) (hread : np ≤ 4096) :
    bread (file.write p bytes) p np = some (some bytes) := by
  rw [bread, if_neg (by omega), if_neg]
  · have hslice : ∀ q ∈ List.range' p np, (file.write p bytes).page q =
        (bytes.drop (4096 * (q - p))).take 4096 := by
      intro q hq
      rw [List.mem_range'_1] at hq
      rw [KvFile.write, length_pages h]
      exact if_pos hq
    rw [List.flatMap_congr hslice]
    exact congrArg (some ∘ some) (flatMap_slices 0 np (by omega))
  · have hsize : (file.write p bytes).size = max file.size (p + np) := by
      rw [KvFile.write, length_pages h]
    omega

theorem write_page_other (h : q < p ∨ p + bytes.length / 4096 ≤ q) :
    (file.write p bytes).page q = file.page q :=
  if_neg (by omega)

theorem bread_congr {np : Nat} (hsize : p + np ≤ file.size) (hsize' : p + np ≤ file'.size)
    (h : ∀ q, p ≤ q → q < p + np → file'.page q = file.page q) :
    bread file' p np = bread file p np := by
  have hpages : ∀ q ∈ List.range' p np, file'.page q = file.page q := by
    intro q hq
    rw [List.mem_range'_1] at hq
    exact h q hq.1 hq.2
  rw [bread, bread, if_neg (Nat.not_lt.mpr hsize), if_neg (Nat.not_lt.mpr hsize'),
    List.flatMap_congr hpages]

end

/-! A meta page that was written is read back, and a new store is empty. -/

open Uno

structure Meta.Fits (m : Meta) : Prop where
  txn : m.txn < 2 ^ 64
  root : m.root < 2 ^ 64
  pages : m.pages < 2 ^ 64
  listPage : m.freelist.1 < 2 ^ 64
  listLength : m.freelist.2 < 2 ^ 64
  count : -2 ^ 63 ≤ m.count ∧ m.count < 2 ^ 63

theorem unoMeta_metaUno {m : Meta} (h : m.Fits) : unoMeta (metaUno m) = some m := by
  have hnat : ∀ {n : Nat}, n < 2 ^ 64 → (BitVec.ofNat 64 n).toNat = n := fun hn => by
    rw [BitVec.toNat_ofNat, Nat.mod_eq_of_lt hn]
  have hcount : (BitVec.ofInt 64 m.count).toInt = m.count := by
    obtain ⟨hlow, hhigh⟩ := h.count
    rw [BitVec.toInt_ofInt, Int.bmod_eq_of_le] <;> omega
  simp only [metaUno, pageUno, unoMeta, hnat h.txn, hnat h.root, hnat h.pages, hnat h.listPage,
    hnat h.listLength, hcount]

theorem metaUno_decode (registry : Registry) {m : Meta} {text : List UInt8}
    (h : dkvMetaText m = some text) : ussrUnoDecode registry text = .ok (metaUno m) := by
  have hbuilt : Built registry (metaUno m) := ⟨trivial, trivial, trivial, ⟨trivial, trivial, trivial⟩,
    trivial, trivial⟩
  exact (ussrUnoDecode_encode_iff hbuilt h).mpr
    ⟨trivial, trivial, trivial, ⟨trivial, trivial, trivial⟩, trivial, trivial⟩

theorem dkvMetaText_some (m : Meta) : ∃ text, dkvMetaText m = some text ∧ text.length ≤ 200 := by
  obtain ⟨txn, htxn, hl1⟩ := encodes_integer (BitVec.ofNat 64 m.txn)
  obtain ⟨root, hroot, hl2⟩ := encodes_integer (BitVec.ofNat 64 m.root)
  obtain ⟨pages, hpages, hl3⟩ := encodes_integer (BitVec.ofNat 64 m.pages)
  obtain ⟨list, hlist, hl4⟩ := (encodes_integer (BitVec.ofNat 64 m.freelist.1)).pair
    (encodes_integer (BitVec.ofNat 64 m.freelist.2))
  obtain ⟨count, hcount, hl5⟩ := encodes_integer (BitVec.ofInt 64 m.count)
  refine ⟨_, encode_vector (unoEncodeItems_cons htxn (unoEncodeItems_cons hroot
    (unoEncodeItems_cons hpages (unoEncodeItems_cons hlist (unoEncodeItems_cons hcount rfl))))), ?_⟩
  simp [comma]
  omega

theorem dkvMeta_written (registry : Registry) {file : KvFile} {slot : Nat} {m : Meta}
    {text : List UInt8} (hfits : m.Fits) (htext : dkvMetaText m = some text)
    (hread : bread file slot 1 = some (some (dkvFrame "DKVMETA1" text 1))) :
    dkvMeta registry file slot = some (some m) := by
  obtain ⟨short, hshort, hlen⟩ := dkvMetaText_some m
  rw [htext, Option.some.injEq] at hshort
  subst hshort
  have hframe : dkvUnframe (some (dkvFrame "DKVMETA1" text 1)) "DKVMETA1" = some text :=
    dkvUnframe_dkvFrame rfl (by omega) (by omega) (noNul_unoEncodeValue _ htext)
  rw [dkvMeta, hread, Option.bind_eq_bind, Option.bind_some, hframe]
  dsimp only
  rw [metaUno_decode registry htext]
  simp [Except.toOption, unoMeta_metaUno hfits]

section

variable {K : Type} [LinearOrder K] [KvKey K]

def blankMeta : Meta := ⟨0, 0, 2, (0, 0), 0⟩

theorem blankMeta_fits : blankMeta.Fits := by
  constructor <;> decide

omit [KvKey K] in
theorem dkvFormat_blank : ∃ text file, dkvMetaText blankMeta = some text ∧
    dkvFormat (Db.unread (K := K) KvFile.blank) = some (some file) ∧
    ∀ slot, slot < 2 → bread file slot 1 = some (some (dkvFrame "DKVMETA1" text 1)) := by
  obtain ⟨text, htext, hshort⟩ := dkvMetaText_some blankMeta
  have hlen : (dkvFrame "DKVMETA1" text 1).length = 4096 * 1 := length_dkvFrame rfl (by omega)
  let bytes := dkvFrame "DKVMETA1" text 1
  have hwrite : ∀ file slot, slot < 2 → bwrite file slot bytes = some (some (file.write slot bytes)) := by
    intro file slot hslot
    have hone : bytes.length / 4096 = 1 := length_pages hlen
    have hmax : ¬ maxPages < slot + bytes.length / 4096 := by
      rw [hone, maxPages]
      omega
    rw [bwrite, if_neg ?_, if_neg hmax]
    exact hlen ▸ (by decide : ¬ (4096 * 1 = 0 ∨ 4096 * 1 % 4096 ≠ 0))
  let made := (KvFile.blank.write 0 bytes).write 1 bytes
  refine ⟨text, made, htext, ?_, fun slot hslot => ?_⟩
  · rw [dkvFormat, show (Db.unread (K := K) KvFile.blank).meta = blankMeta from rfl, htext,
      Option.bind_eq_bind, Option.bind_some]
    dsimp only
    rw [hwrite _ 0 (by omega), Option.bind_eq_bind, Option.bind_some]
    exact hwrite _ 1 (by omega)
  · have hfirst : bread (KvFile.blank.write 0 bytes) 0 1 = some (some bytes) :=
      bread_write_same hlen (by omega)
    have hsize : ∀ file slot, (KvFile.write file slot bytes).size = max file.size (slot + 1) := by
      intro file slot
      rw [KvFile.write, length_pages hlen]
    interval_cases slot
    · refine (bread_congr ?_ ?_ fun q _ hq => write_page_other (Or.inl hq)).trans hfirst
      · rw [hsize]
        omega
      · rw [hsize, hsize]
        omega
    · exact bread_write_same hlen (by omega)

theorem dubnaKvOpen_blank (registry : Registry) : ∃ db : Db K,
    dubnaKvOpen registry KvFile.blank = some (some db) ∧ Stands registry db none ∧
      db.space.count = 0 := by
  obtain ⟨text, file, htext, hformat, hread⟩ := dkvFormat_blank (K := K)
  have hmeta := fun slot hslot => dkvMeta_written registry blankMeta_fits htext (hread slot hslot)
  let db : Db K := { Db.unread KvFile.blank with file }
  have hload : dkvLoad registry db = some (0, (db.atMeta blankMeta).withLists [] []) := by
    rw [dkvLoad, show db.file = file from rfl, hmeta 0 (by omega), hmeta 1 (by omega)]
    rfl
  refine ⟨(db.atMeta blankMeta).withLists [] [], ?_, ?_, rfl⟩
  · rw [dubnaKvOpen_empty rfl hformat]
    exact congrArg (Option.bind · _) hload
  · have hholds : ∀ a, Space.holds ⟨2, pageSet [], pageSet [], .empty, .empty, 0⟩ a = past a 2 :=
      fun a => Nat.zero_add _
    refine ⟨rfl, fun t ht => absurd ht (Option.some_ne_none t).symm, fun a => ?_, fun a ha => ?_⟩
    · refine (Nat.zero_add _).trans_le ((hholds a).trans_le ?_)
      unfold past
      split_ifs <;> omega
    · refine (Nat.zero_add _).trans ((hholds a).trans ?_)
      rw [past, if_neg (by omega)]

end

end Ussr.Kv
