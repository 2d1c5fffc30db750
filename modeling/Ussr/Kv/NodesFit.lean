import Ussr.Kv.NodeRoom
import Ussr.Kv.OrderedMap

/-! Runs of calls on stores whose nodes have room in their pages. A call whose splits leave
halves with room keeps them so; with short entries before long ones, one split is not enough. -/

namespace Ussr.Kv
open Uno Real64

variable {K : Type} [LinearOrder K] [KvKey K] {registry : Registry} {db : Db K} {root : Root K}
  {d : Nat}

inductive Db.Reaches (registry : Registry) (db : Db K) : Node K → Prop
  | root {node : Node K} (hroot : db.root ≠ 0)
      (hnode : pageNode registry db.file db.cache db.root = some node) : Reaches registry db node
  | child {node below : Node K} {map : OrdMap K Nat} {k : K} {p : Nat}
      (habove : Reaches registry db node) (hbody : node.body = .branch map)
      (hget : map.get k = some p) (hnode : pageNode registry db.file db.cache p = some below) :
      Reaches registry db below

def Db.NodesFit (registry : Registry) (db : Db K) : Prop :=
  ∀ node, db.Reaches registry node → ∃ text, dkvNodeText node.body = some text ∧
    text.length ≤ nodeRoom ∧ (dkvFrame "DKVNODE1" text 1).length = 4096

structure InOrder (registry : Registry) (db : Db K) (root : Root K) : Prop where
  stands : Stands registry db root
  sound : root.Sound (fun k => dkvKeyOk k = true) EntryFits
  room : root.Room

theorem Tree.node_fits {t : Tree K d} (hsound : t.Sound (fun k => dkvKeyOk k = true) EntryFits)
    (hroom : t.Room) : ∃ text, dkvNodeText (Tree.node t).body = some text ∧
      text.length ≤ nodeRoom ∧ (dkvFrame "DKVNODE1" text 1).length = 4096 := by
  obtain ⟨text, htext, -⟩ := dkvNodeText_some fun k c hget =>
    ⟨keyFits_of_keyOk k (hsound.2 k c hget).1, (hsound.2 k c hget).2.fits fun _ h => h⟩
  have hlen : text.length ≤ 4072 := (dkvNodeText_length htext).trans_le hroom.1
  exact ⟨text, htext, hlen, length_dkvFrame rfl (show 24 + text.length ≤ 4096 * 1 by omega)⟩

theorem InOrder.reaches (h : InOrder registry db root) {node : Node K}
    (hnode : db.Reaches registry node) : ∃ (d : Nat) (t : Tree K d), node = Tree.node t ∧
      Tree.Holds registry db.file db.cache t ∧
      t.Sound (fun k => dkvKeyOk k = true) EntryFits ∧ t.Room := by
  induction hnode with
  | root hroot hnode =>
    cases root with
    | none => exact absurd h.stands.root_eq_zero hroot
    | some t =>
      have hholds := h.stands.holds t rfl
      rw [← show t.2.page = db.root from h.stands.page, hholds.1] at hnode
      exact ⟨t.1, t.2, (Option.some.inj hnode).symm, hholds, h.sound, h.room⟩
  | child _ hbody hget hnode ih =>
    obtain ⟨d, t, rfl, hholds, hsound, hroom⟩ := ih
    cases d with
    | zero => cases hbody
    | succ d =>
      cases hbody
      obtain ⟨c, hc, rfl⟩ := Option.map_eq_some_iff.mp ((OrdMap.get_map ..).symm.trans hget)
      have hchild : Tree.Holds registry db.file db.cache (d := d) c := hholds.2 _ c hc
      rw [hchild.1] at hnode
      exact ⟨d, c, (Option.some.inj hnode).symm, hchild, (hsound.2 _ c hc).2, hroom.2 _ c hc⟩

theorem InOrder.nodesFit (h : InOrder registry db root) : db.NodesFit registry := by
  intro node hnode
  obtain ⟨d, t, rfl, -, hsound, hroom⟩ := h.reaches hnode
  exact Tree.node_fits hsound hroom

theorem dkvWay_sim {fuel : Nat} (hfuel : d < fuel) (db : Db K) {t : Tree K d}
    (hholds : Tree.Holds registry db.file db.cache t) (key : K) :
    dkvWay registry fuel db t.page key = t.way key := by
  induction d generalizing fuel db with
  | zero =>
    obtain ⟨fuel, rfl⟩ := Nat.exists_eq_add_one_of_ne_zero (by omega : fuel ≠ 0)
    obtain ⟨cr, hread, -⟩ := dkvNode_of_pageNode hholds.1
    rw [dkvWay, hread, Tree.way]
    rfl
  | succ d ih =>
    obtain ⟨fuel, rfl⟩ := Nat.exists_eq_add_one_of_ne_zero (by omega : fuel ≠ 0)
    obtain ⟨cr, hread, hsame⟩ := dkvNode_of_pageNode hholds.1
    have hroutePage : dkvRoute (t.map.map (TreeNode.page (V := Item K d))) key =
        (dkvRoute t.map key).map fun e => (e.1, TreeNode.page (V := Item K d) e.2) :=
      dkvRoute_map TreeNode.page t.map key
    rw [dkvWay, hread, Tree.way]
    dsimp only [Tree.node, mapBody]
    rw [hroutePage]
    cases hroute : dkvRoute t.map key with
    | none => rfl
    | some e =>
      have hchild : Tree.Holds registry db.file cr (d := d) e.2 :=
        item_frame (hholds.2 e.1 e.2 (dkvRoute_get hroute)) fun q _ => by rw [hsame]
      exact congrArg _ (ih (Nat.lt_of_succ_lt_succ hfuel) { db with cache := cr } hchild)

theorem InOrder.way (h : InOrder registry db root) (key : K) :
    db.way registry key = root.way key := by
  unfold Db.way
  cases root with
  | none =>
    rw [if_pos h.stands.root_eq_zero]
    rfl
  | some t =>
    rw [if_neg h.stands.page_ne, ← show t.2.page = db.root from h.stands.page]
    exact dkvWay_sim (h.stands.depth h.sound) db (h.stands.holds t rfl) key

def Call.roomy (registry : Registry) (db : Db K) : Call K → Bool
  | .put key value =>
    !dkvKeyOk key || (dkvValueIn db.space value).all fun r =>
      (putOutlook r.2 (db.way registry key) key r.1).room
  | .del key => !dkvKeyOk key || (delOutlook db.space (db.way registry key) key).room
  | _ => true

def roomyRun (registry : Registry) : Db K → List (Call K) → Bool
  | _, [] => true
  | db, c :: cs =>
    c.roomy registry db && (c.run registry db).all fun r => roomyRun registry r.2 cs

theorem roomyRun_cons {c : Call K} {cs : List (Call K)} (h : roomyRun registry db (c :: cs) = true) :
    c.roomy registry db = true ∧
      ∀ a db', c.run registry db = some (a, db') → roomyRun registry db' cs = true := by
  rw [roomyRun, Bool.and_eq_true] at h
  refine ⟨h.1, fun a db' hrun => ?_⟩
  rw [hrun] at h
  exact h.2

theorem InOrder.put (h : InOrder registry db root) {key : K} {value : UnoValue} {r : Int}
    {db' : Db K} (hroomy : (Call.put key value).roomy registry db = true)
    (hrun : dubnaKvPut registry db key value = some (r, db')) :
    ∃ root', InOrder registry db' root' := by
  by_cases hkey : dkvKeyOk key = true
  · by_cases hnull : value = .null
    · subst hnull
      rw [dubnaKvPut, if_pos hkey] at hrun
      cases hrun
      exact ⟨root, h⟩
    · have hin : ∃ x s, dkvValueIn db.space value = some (x, s) := by
        unfold dubnaKvPut at hrun
        rw [if_pos hkey] at hrun
        split at hrun
        · exact absurd rfl hnull
        · obtain ⟨⟨x, s⟩, hin, -⟩ := Option.bind_eq_some_iff.mp hrun
          exact ⟨x, s, hin⟩
      obtain ⟨x, s, hin⟩ := hin
      have hx := dkvValueIn_fits hin
      obtain ⟨root', s', cache, hput, hdone, hsound, hstands⟩ := dubnaKvPut_sim keyFits_of_keyOk
        (fun _ h => h) h.stands h.sound hkey hkey hnull hin hx
      rw [hdone] at hrun
      cases hrun
      have hroom : (putOutlook s (root.way key) key x).room = true := by
        rw [Call.roomy, hkey, hin, h.way] at hroomy
        exact hroomy
      exact ⟨root', hstands, hsound,
        Root.put_room keyFits_of_keyOk (fun _ h => h) hkey hx h.room hsound hput hroom⟩
  · unfold dubnaKvPut at hrun
    rw [if_neg hkey] at hrun
    cases hrun
    exact ⟨root, h⟩

theorem InOrder.del (h : InOrder registry db root) {key : K} {gone : Bool} {db' : Db K}
    (hroomy : (Call.del key).roomy registry db = true)
    (hrun : dubnaKvDel registry db key = some (gone, db')) :
    ∃ root', InOrder registry db' root' := by
  by_cases hkey : dkvKeyOk key = true
  · obtain ⟨gone', root', s', cache, hdel, hdone, hsound, hstands⟩ :=
      dubnaKvDel_sim h.stands h.sound hkey
    rw [hdone] at hrun
    cases hrun
    have hroom : (delOutlook db.space (root.way key) key).room = true := by
      rw [Call.roomy, hkey, h.way] at hroomy
      exact hroomy
    exact ⟨root', hstands, hsound, Root.del_room h.room hdel hroom⟩
  · rw [dubnaKvDel, if_neg fun hdel => hkey hdel.1] at hrun
    cases hrun
    exact ⟨root, h⟩

theorem InOrder.cached (h : InOrder registry db root) {cache : Cache K}
    (hstands : Stands registry { db with cache } root) : InOrder registry { db with cache } root :=
  ⟨hstands, h.sound, h.room⟩

theorem InOrder.call (h : InOrder registry db root) {c : Call K} {a : Answer K} {db' : Db K}
    (hroomy : c.roomy registry db = true) (hrun : c.run registry db = some (a, db')) :
    ∃ root', InOrder registry db' root' := by
  cases c with
  | put key value =>
    obtain ⟨r, hput, hr⟩ := Option.map_eq_some_iff.mp hrun
    cases hr
    exact h.put hroomy hput
  | del key =>
    obtain ⟨r, hdel, hr⟩ := Option.map_eq_some_iff.mp hrun
    cases hr
    exact h.del hroomy hdel
  | get key =>
    obtain ⟨r, hget, hr⟩ := Option.map_eq_some_iff.mp hrun
    cases hr
    by_cases hkey : dkvKeyOk key = true
    · obtain ⟨cache, hdone, hstands⟩ := dubnaKvGet_sim h.stands h.sound hkey
      rw [hdone] at hget
      obtain ⟨v, -, rfl⟩ := Option.map_eq_some_iff.mp hget
      exact ⟨root, h.cached hstands⟩
    · rw [dubnaKvGet, if_neg hkey] at hget
      cases hget
      exact ⟨root, h⟩
  | count =>
    cases hrun
    exact ⟨root, h⟩
  | range lo hi max =>
    obtain ⟨r, hrange, hr⟩ := Option.map_eq_some_iff.mp hrun
    cases hr
    obtain ⟨cache, hdone, hstands⟩ := dubnaKvRange_sim h.stands h.sound lo hi max
    rw [hdone] at hrange
    obtain ⟨v, -, rfl⟩ := Option.map_eq_some_iff.mp hrange
    exact ⟨root, h.cached hstands⟩

theorem InOrder.run (h : InOrder registry db root) {cs : List (Call K)} {as : List (Answer K)}
    {db' : Db K} (hroomy : roomyRun registry db cs = true)
    (hrun : runCalls registry db cs = some (as, db')) : ∃ root', InOrder registry db' root' := by
  induction cs generalizing db root as with
  | nil =>
    cases hrun
    exact ⟨root, h⟩
  | cons c cs ih =>
    rw [runCalls] at hrun
    obtain ⟨⟨a, next⟩, hcall, hrun⟩ := Option.bind_eq_some_iff.mp hrun
    obtain ⟨⟨rest, last⟩, hrest, hrun⟩ := Option.bind_eq_some_iff.mp hrun
    cases hrun
    obtain ⟨hc, hcs⟩ := roomyRun_cons hroomy
    obtain ⟨root', hnext⟩ := h.call hc hcall
    exact ih hnext (hcs a next hcall) hrest

theorem roomyRun_append {cs cs' : List (Call K)} (h : roomyRun registry db (cs ++ cs') = true) :
    roomyRun registry db cs = true := by
  induction cs generalizing db with
  | nil => rfl
  | cons c cs ih =>
    obtain ⟨hc, hcs⟩ := roomyRun_cons h
    rw [roomyRun, hc, Bool.true_and]
    cases hrun : c.run registry db with
    | none => rfl
    | some r => exact ih (hcs r.1 r.2 hrun)

section

open BTree

theorem inOrder_blank {db : Db K}
    (h : dubnaKvOpen registry KvFile.blank = some (some db)) : InOrder registry db none := by
  obtain ⟨_, hopen, hstands, -⟩ := dubnaKvOpen_blank (K := K) registry
  rw [h] at hopen
  cases hopen
  exact ⟨hstands, trivial, trivial⟩

/-- After each call of a run whose calls have room, every node fits its page. -/
theorem runCalls_nodesFit (registry : Registry) (db : Db K) (root : Root K)
    (h : InOrder registry db root) (cs : List (Call K)) (hroomy : roomyRun registry db cs = true)
    (done : List (Call K)) (hdone : done <+: cs) (as : List (Answer K)) (db' : Db K)
    (hrun : runCalls registry db done = some (as, db')) : db'.NodesFit registry := by
  obtain ⟨rest, rfl⟩ := hdone
  obtain ⟨root', horder⟩ := h.run (roomyRun_append hroomy) hrun
  exact horder.nodesFit

def evenCalls : List (Call integersAndStrings) :=
  manyCalls ++ [.del (stringKey (CString.lit "a")), .del (stringKey (CString.lit "b"))]

def evenRoomy : Bool :=
  (dubnaKvOpen (K := integersAndStrings) [] KvFile.blank).join.any fun db => roomyRun [] db evenCalls

theorem runCalls_nodesFit_even : ∃ db : Db integersAndStrings,
    dubnaKvOpen [] KvFile.blank = some (some db) ∧ ∀ done, done <+: evenCalls →
      ∀ as db', runCalls [] db done = some (as, db') → db'.NodesFit [] := by
  have heven : evenRoomy = true := by decide +kernel
  obtain ⟨db, hopen, hroomy⟩ := (Option.any_eq_true ..).mp heven
  have hopen := Option.join_eq_some_iff.mp hopen
  exact ⟨db, hopen, fun done hdone as db' hrun => runCalls_nodesFit [] db none (inOrder_blank hopen)
    evenCalls hroomy done hdone as db' hrun⟩

def lastChild (registry : Registry) (db : Db K) : Option (Node K) :=
  if db.root = 0 then none
  else do
    let root ← pageNode registry db.file db.cache db.root
    match root.body with
    | .leaf _ => none
    | .branch map =>
      let e ← map.entries.getLast?
      pageNode registry db.file db.cache e.2

theorem lastChild_reaches {node : Node K} (h : lastChild registry db = some node) :
    db.Reaches registry node := by
  unfold lastChild at h
  split_ifs at h with hroot
  obtain ⟨above, habove, h⟩ := Option.bind_eq_some_iff.mp h
  split at h
  · cases h
  · next map hbody =>
    obtain ⟨e, he, hnode⟩ := Option.bind_eq_some_iff.mp h
    exact .child (.root hroot habove) hbody
      (OrdMap.get_eq_some_iff.mpr (List.mem_of_getLast? he)) hnode

def unevenCalls : List (Call integersAndStrings) :=
  let long (b : UInt8) := CString.ofBytes (List.replicate 200 b)
  (List.range 9).map (fun i => .put (stringKey (CString.ofBytes [UInt8.ofNat (97 + i)])) (.integer 1)) ++
    (List.range 10).map (fun i =>
      .put (stringKey (long (UInt8.ofNat (106 + i)))) (.string (long 120)))

def unevenLength : Option Nat := do
  let db ← dubnaKvOpen (K := integersAndStrings) [] KvFile.blank
  let (_, db) ← runCalls [] (← db) unevenCalls
  let node ← lastChild [] db
  return (← dkvNodeText node.body).length

theorem runCalls_overfull : ¬ ∀ (registry : Registry) (db : Db integersAndStrings)
    (cs : List (Call integersAndStrings)), dubnaKvOpen registry KvFile.blank = some (some db) →
      ∀ as db', runCalls registry db cs = some (as, db') → db'.NodesFit registry := by
  intro hclaim
  have hlong : unevenLength.any (fun n => decide (4072 < n)) = true := by decide +kernel
  obtain ⟨n, hlength, hn⟩ := (Option.any_eq_true ..).mp hlong
  unfold unevenLength at hlength
  obtain ⟨opened, hopen, hlength⟩ := Option.bind_eq_some_iff.mp hlength
  obtain ⟨db, hdb, hlength⟩ := Option.bind_eq_some_iff.mp hlength
  obtain ⟨⟨as, db'⟩, hrun, hlength⟩ := Option.bind_eq_some_iff.mp hlength
  obtain ⟨node, hnode, hlength⟩ := Option.bind_eq_some_iff.mp hlength
  obtain ⟨text, htext, hlen⟩ := Option.bind_eq_some_iff.mp hlength
  subst hdb
  obtain ⟨text', htext', hfits, -⟩ :=
    hclaim [] db unevenCalls hopen as db' hrun node (lastChild_reaches hnode)
  rw [htext] at htext'
  cases htext'
  rw [Option.some.inj hlen] at hfits
  exact absurd hfits (not_le.mpr (of_decide_eq_true hn))

end

end Ussr.Kv
