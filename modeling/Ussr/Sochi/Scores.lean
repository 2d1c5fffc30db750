import Ussr.Sochi.Play
import Mathlib.Tactic.Abel

/-! The scores of Preferans: what each kind of hand adds to them, and what holds of them in every
game. -/

namespace Ussr.Sochi
open Real64
open Stalin (Text)

namespace State

section

variable (s : State)
variable {n o : Int} {r : Text}

theorem update_add (f : Seat → Int) (i j : Seat) (n : Int) :
    Function.update f i (f i + n) j = f j + if j = i then n else 0 := by
  by_cases h : j = i
  · rw [h, Function.update_self, if_pos rfl]
  · rw [Function.update_of_ne h, if_neg h, Int.add_zero]

@[simp] theorem poolTo_pool (i j : Seat) (n : Int) : (s.poolTo i n).pool j = s.pool j + if j = i then n else 0 :=
  update_add s.pool i j n

@[simp] theorem poolTo_whist (i : Seat) (n : Int) : (s.poolTo i n).whist = s.whist := rfl

@[simp] theorem poolTo_psize (i : Seat) (n : Int) : (s.poolTo i n).psize = s.psize := rfl

@[simp] theorem mountTo_mount (i j : Seat) (n : Int) : (s.mountTo i n).mount j = s.mount j + if j = i then n else 0 :=
  update_add s.mount i j n

@[simp] theorem soWhistAdd_whist (a b x y : Seat) (n : Int) :
    (s.soWhistAdd a b n).whist x y = s.whist x y + if x = a ∧ y = b then n else 0 := by
  have hrow : (s.soWhistAdd a b n).whist x = if x = a then Function.update (s.whist a) b (s.whist a b + n) else s.whist x :=
    Function.update_apply _ _ _ _
  rw [hrow]
  by_cases hx : x = a
  · rw [if_pos hx, update_add, hx]
    simp only [true_and]
  · rw [if_neg hx, if_neg fun h => hx h.1, Int.add_zero]

@[simp] theorem soWhistAdd_pool (a b : Seat) (n : Int) : (s.soWhistAdd a b n).pool = s.pool := rfl

@[simp] theorem soWhistAdd_psize (a b : Seat) (n : Int) : (s.soWhistAdd a b n).psize = s.psize := rfl

theorem soWhistAdd_zero (a b : Seat) : s.soWhistAdd a b 0 = s := by
  simp only [soWhistAdd, Int.add_zero, Function.update_eq_self]

theorem poolTo_zero (i : Seat) : s.poolTo i 0 = s := by
  simp only [poolTo, Int.add_zero, Function.update_eq_self]

theorem poolHelp_run (i j : Seat) {extra : Int} (hextra : 0 ≤ extra) :
    ∃ room, 0 ≤ room ∧ room ≤ extra ∧ (room < extra → s.psize ≤ s.pool j + room) ∧
      s.poolHelp i j extra = ((s.poolTo j room).soWhistAdd i j (room * 10), extra - room) := by
  unfold poolHelp
  dsimp only
  generalize hdef : min (s.psize - s.pool j) extra = room
  by_cases hroom : 0 < room
  · exact ⟨room, hroom.le, by omega, fun h => by omega, if_pos hroom⟩
  · refine ⟨0, le_refl 0, hextra, fun h => by omega, ?_⟩
    rw [if_neg hroom, poolTo_zero, Int.zero_mul, soWhistAdd_zero, Int.sub_zero]

end

/-- What the `n` points for the pool of `i` have become: points of pools, and `rest` points for
whists when every pool is full. A point for the pool of another player is 10 whists on that one. -/
structure Accounted (s t : State) (i : Seat) (n rest : Int) : Prop where
  points : n = (seats.map fun j => t.pool j - s.pool j).sum + rest
  nonneg : 0 ≤ rest
  full : 0 < rest → ∀ j, s.psize ≤ t.pool j
  help : ∀ j, j ≠ i → t.whist i j = s.whist i j + 10 * (t.pool j - s.pool j) + 5 * rest
  others : ∀ a b, a ≠ i ∨ b = i → t.whist a b = s.whist a b

theorem seats_from : ∀ i : Seat, soNext (some i) ≠ i ∧ soNext (some (soNext (some i))) ≠ i ∧
    soNext (some (soNext (some i))) ≠ soNext (some i) ∧
      ∀ j, j = i ∨ j = soNext (some i) ∨ j = soNext (some (soNext (some i))) := by decide

theorem seats_sum {α : Type} [AddCommMonoid α] (f : Seat → α) (i : Seat) :
    (seats.map f).sum = f i + f (soNext (some i)) + f (soNext (some (soNext (some i)))) := by
  have hseat : i = hostSeat ∨ i = firstPlayer ∨ i = secondPlayer := by
    revert i
    decide
  obtain rfl | rfl | rfl := hseat <;> simp [seats, soNext, hostSeat, firstPlayer, secondPlayer] <;> abel

theorem soPoolAdd_accounted (s : State) (i : Seat) (n : Int) : ∃ rest, Accounted s (s.soPoolAdd i n) i n rest := by
  obtain ⟨hj, hk, hkj, hall⟩ := seats_from i
  have hsum (f : Seat → Int) := seats_sum f i
  unfold soPoolAdd
  dsimp only
  generalize soNext (some (soNext (some i))) = k at hj hk hkj hall hsum ⊢
  generalize soNext (some i) = j at hj hkj hall hsum ⊢
  generalize hdef : max 0 (s.psize - s.pool i) = room
  by_cases hn : n ≤ room
  · rw [if_pos hn]
    refine ⟨0, ?_, le_refl 0, fun h => absurd h (by decide), fun a ha => ?_, fun a b _ => rfl⟩
    · rw [hsum]
      simp [hj, hk]
    · simp [ha]
  obtain ⟨r₁, hr₁, hle₁, hfull₁, hhelp₁⟩ := (s.poolTo i room).poolHelp_run i j (sub_nonneg.mpr (not_le.mp hn).le)
  obtain ⟨r₂, hr₂, hle₂, hfull₂, hhelp₂⟩ :=
    (((s.poolTo i room).poolTo j r₁).soWhistAdd i j (r₁ * 10)).poolHelp_run i k (sub_nonneg.mpr hle₁)
  have hspill (t : State) (e : Int) (he : 0 ≤ e) :
      (if 0 < e then (t.soWhistAdd i j (e * 5)).soWhistAdd i k (e * 5) else t) =
        (t.soWhistAdd i j (e * 5)).soWhistAdd i k (e * 5) := by
    obtain he | rfl := he.lt_or_eq
    · exact if_pos he
    · rw [if_neg (by decide), Int.zero_mul, soWhistAdd_zero, soWhistAdd_zero]
  rw [if_neg hn, hhelp₁]
  dsimp only
  rw [hhelp₂]
  dsimp only
  rw [hspill _ _ (by omega)]
  simp [hj, hk, hkj] at hfull₁ hfull₂
  refine ⟨n - room - r₁ - r₂, ?_, by omega, fun h a => ?_, fun a ha => ?_, fun a b hab => ?_⟩
  · rw [hsum]
    simp [hj, hk, hkj, hj.symm, hk.symm, hkj.symm]
  · obtain rfl | rfl | rfl := hall a <;> simp [hj, hk, hkj, hj.symm, hk.symm, hkj.symm] <;> omega
  · obtain rfl | rfl | rfl := hall a
    · exact absurd rfl ha
    · simp [hj, hkj.symm]
      omega
    · simp [hk, hkj]
      omega
  · obtain ha | rfl := hab
    · simp [ha]
    · simp [hj.symm, hk.symm]

section

/-- Only scores and the text about them change, pools and mountains never fall, and a pool that is
not over the pool size stays so. -/
structure Raises (s t : State) : Prop where
  same : t = { s with pool := t.pool, mount := t.mount, whist := t.whist, result := t.result }
  pool : ∀ i, s.pool i ≤ t.pool i
  mount : ∀ i, s.mount i ≤ t.mount i
  within : ∀ i, s.pool i ≤ s.psize → t.pool i ≤ s.psize

variable {s t u : State}

theorem Raises.refl (s : State) : Raises s s := ⟨rfl, fun _ => le_refl _, fun _ => le_refl _, fun _ h => h⟩

theorem Raises.trans (hst : Raises s t) (htu : Raises t u) : Raises s u := by
  have hpsize : t.psize = s.psize := by rw [hst.same]
  refine ⟨?_, fun i => (hst.pool i).trans (htu.pool i), fun i => (hst.mount i).trans (htu.mount i), fun i h => ?_⟩
  · rw [htu.same, hst.same]
  · have hin := htu.within i
    rw [hpsize] at hin
    exact hin (hst.within i h)

theorem result_raises (s : State) (text : Text) : Raises s { s with result := text } :=
  ⟨rfl, fun _ => le_refl _, fun _ => le_refl _, fun _ h => h⟩

theorem soWhistAdd_raises (s : State) (a b : Seat) (n : Int) : Raises s (s.soWhistAdd a b n) :=
  ⟨rfl, fun _ => le_refl _, fun _ => le_refl _, fun _ h => h⟩

theorem mountTo_raises (s : State) (i : Seat) (hn : 0 ≤ n) : Raises s (s.mountTo i n) := by
  refine ⟨rfl, fun _ => le_refl _, fun j => ?_, fun _ h => h⟩
  rw [mountTo_mount]
  split <;> omega

theorem poolTo_raises (s : State) (i : Seat) (hn : 0 ≤ n)
    (hroom : s.pool i ≤ s.psize → s.pool i + n ≤ s.psize) : Raises s (s.poolTo i n) := by
  refine ⟨rfl, fun j => ?_, fun _ => le_refl _, fun j hj => ?_⟩
  · rw [poolTo_pool]
    split <;> omega
  · rw [poolTo_pool]
    split
    next h => exact h ▸ hroom (h ▸ hj)
    next => omega

theorem poolHelp_raises (s : State) (i j : Seat) {extra : Int} (hextra : 0 ≤ extra) :
    Raises s (s.poolHelp i j extra).1 ∧ 0 ≤ (s.poolHelp i j extra).2 := by
  unfold poolHelp
  dsimp only
  split
  · refine ⟨(poolTo_raises s j (by omega) fun h => by omega).trans (soWhistAdd_raises _ _ _ _), ?_⟩
    dsimp only
    omega
  · exact ⟨Raises.refl s, hextra⟩

theorem soPoolAdd_raises (s : State) (i : Seat) (hn : 0 ≤ n) : Raises s (s.soPoolAdd i n) := by
  unfold soPoolAdd
  dsimp only
  split
  · exact poolTo_raises s i hn fun h => by omega
  · have hown : Raises s (s.poolTo i (max 0 (s.psize - s.pool i))) := poolTo_raises s i (by omega) fun h => by omega
    obtain ⟨hfirst, hrest⟩ := poolHelp_raises (s.poolTo i (max 0 (s.psize - s.pool i))) i (soNext (some i))
      (show 0 ≤ n - max 0 (s.psize - s.pool i) by omega)
    obtain ⟨hsecond, -⟩ := poolHelp_raises _ i (soNext (some (soNext (some i)))) hrest
    have hboth := (hown.trans hfirst).trans hsecond
    split
    · exact (hboth.trans (soWhistAdd_raises _ _ _ _)).trans (soWhistAdd_raises _ _ _ _)
    · exact hboth

end

section

def Ordinary (o : Int) : Prop := 0 ≤ o ∧ o ≤ 48 ∧ o % 2 = 0

variable {s : State}

theorem Ordinary.value (h : Ordinary o) : 2 ≤ soValue o := by
  obtain ⟨hlow, -, heven⟩ := h
  have hnot : o ≠ 29 := by omega
  rw [soValue, if_neg hnot, soLevel, if_pos ⟨hlow, hnot⟩]
  omega

theorem foldl_raises {step : State → Seat → State} (hstep : ∀ s i, Raises s (step s i)) (is : List Seat) (s : State) :
    Raises s (is.foldl step s) := by
  induction is generalizing s with
  | nil => exact Raises.refl s
  | cons i is ih => exact (hstep s i).trans (ih (step s i))

theorem soScoreRaspasy_raises (s : State) : Raises s s.soScoreRaspasy := by
  unfold soScoreRaspasy
  extract_lets m
  refine (result_raises s _).trans (foldl_raises (fun s i => ?_) seats _)
  extract_lets t paid helped
  have hpaid : Raises s paid := mountTo_raises s i (Int.mul_nonneg (Int.natCast_nonneg _) (by omega))
  have hhelped : Raises paid helped := by
    unfold helped
    split
    · exact soPoolAdd_raises paid i (by decide)
    · exact Raises.refl paid
  exact (hpaid.trans hhelped).trans (result_raises _ _)

theorem soScoreMisere_raises (s : State) (decl : Seat) : Raises s (s.soScoreMisere decl) := by
  unfold soScoreMisere
  dsimp only
  split
  · exact (soPoolAdd_raises s decl (by decide)).trans (result_raises _ _)
  · exact (mountTo_raises s decl (by omega)).trans (result_raises _ _)

theorem scoreWhister_raises (s : State) (decl i : Seat) (nw : Nat) {v : Int} (l o : Int) (hv : 0 ≤ v) :
    Raises s (s.scoreWhister decl nw v l o i) := by
  unfold scoreWhister
  split
  · extract_lets d w wt share gain added named
    have hnamed : Raises s named := (soWhistAdd_raises s i decl gain).trans (result_raises added _)
    split
    next hshort =>
      have hfine : 0 ≤ v / 2 * (share - wt) := Int.mul_nonneg (by omega) (by omega)
      exact (hnamed.trans (mountTo_raises named i hfine)).trans (result_raises _ _)
    next => exact hnamed
  · exact Raises.refl s

theorem scoreDeclarer_raises (s : State) (decl : Seat) {v : Int} (l : Int) (hv : 0 ≤ v) :
    Raises s (s.scoreDeclarer decl v l) := by
  unfold scoreDeclarer
  dsimp only
  split
  · exact ((result_raises s _).trans (soPoolAdd_raises _ decl hv)).trans (result_raises _ _)
  · refine ((result_raises s _).trans (mountTo_raises _ decl ?_)).trans (result_raises _ _)
    exact Int.mul_nonneg hv (by omega)

theorem soScoreContract_raises (s : State) (decl : Seat) (hcontract : Ordinary s.contract) :
    Raises s (s.soScoreContract decl) := by
  have hv : 0 ≤ soValue s.contract := (by decide : (0 : Int) ≤ 2).trans hcontract.value
  unfold soScoreContract
  extract_lets l v o f k named nw added paid
  have hnamed : Raises s named := result_raises s _
  split
  · have hpaid : Raises s paid := (hnamed.trans (soPoolAdd_raises named decl hv)).trans (result_raises _ _)
    split
    · exact (hpaid.trans (soWhistAdd_raises paid k decl _)).trans (result_raises _ _)
    · exact hpaid
  · have hdeclarer := hnamed.trans (scoreDeclarer_raises named decl l hv)
    exact (hdeclarer.trans (scoreWhister_raises _ decl f nw l o hv)).trans (scoreWhister_raises _ decl k nw l o hv)

end

section

def trickSum (s : State) : Nat := (seats.map s.tricks).sum

def PlayedOut (s : State) : Prop :=
  (s.phase = .done ∨ s.phase = .over) ∧
    ∃ d, s.decl = some d ∧ (s.contract = 29 ∨ ∃ i, i ≠ d ∧ s.wst i = ascii "whist")

structure Ruled (s : State) : Prop where
  pools : ∀ i, s.pool i ≤ s.psize
  high : s.high = -1 ∨ s.high = 29 ∨ Ordinary s.high
  won : s.decl ≠ none → s.high ≠ -1
  chosen : s.phase = .contract → s.high ≠ 29
  contract : s.phase = .whist ∨ s.phase = .whist2 → Ordinary s.contract
  tseats : s.phase = .play → s.tseats.length = s.trick.length
  playing : s.phase = .play → s.decl ≠ none → (s.contract = 29 ∨ Ordinary s.contract) ∧ s.trickSum = s.trickno
  ended : s.PlayedOut → s.trickSum = 10

structure Advance (s t : State) : Prop where
  ruled : t.Ruled
  psize : t.psize = s.psize
  pool : ∀ i, s.pool i ≤ t.pool i
  mount : ∀ i, s.mount i ≤ t.mount i

variable {s t u : State}

theorem Advance.trans (hst : Advance s t) (htu : Advance t u) : Advance s u :=
  ⟨htu.ruled, htu.psize.trans hst.psize, fun i => (hst.pool i).trans (htu.pool i),
    fun i => (hst.mount i).trans (htu.mount i)⟩

theorem Ruled.advance (h : t.Ruled) (hpsize : t.psize = s.psize) (hpool : t.pool = s.pool) (hmount : t.mount = s.mount) :
    Advance s t :=
  ⟨h, hpsize, fun i => (congrFun hpool i).ge, fun i => (congrFun hmount i).ge⟩

theorem soScoreHand_scores (hcontract : s.decl ≠ none → s.contract = 29 ∨ Ordinary s.contract) :
    ∃ scored : State, Raises s scored ∧ s.soScoreHand.psize = s.psize ∧ s.soScoreHand.pool = scored.pool ∧
      s.soScoreHand.mount = scored.mount ∧ s.soScoreHand.high = s.high ∧ s.soScoreHand.decl = s.decl ∧
      s.soScoreHand.contract = s.contract ∧ s.soScoreHand.wst = s.wst ∧ s.soScoreHand.tricks = s.tricks := by
  unfold soScoreHand
  extract_lets scored ended
  have hscored : Raises s scored := by
    unfold scored
    cases hdecl : s.decl with
    | none => exact soScoreRaspasy_raises s
    | some d =>
      dsimp only
      split
      · exact soScoreMisere_raises s d
      next hmisere =>
        exact soScoreContract_raises s d ((hcontract (hdecl ▸ Option.some_ne_none d)).resolve_left hmisere)
  clear_value scored
  refine ⟨scored, hscored, ?_⟩
  have hsame := hscored.same
  have hended : ended.psize = s.psize ∧ ended.pool = scored.pool ∧ ended.mount = scored.mount ∧ ended.high = s.high ∧
      ended.decl = s.decl ∧ ended.contract = s.contract ∧ ended.wst = s.wst ∧ ended.tricks = s.tricks := by
    refine ⟨?_, rfl, rfl, ?_, ?_, ?_, ?_, ?_⟩ <;> unfold ended <;> rw [hsame] <;> rfl
  split
  · exact hended
  · exact hended

theorem soScoreHand_advance (h : s.Ruled) (hcontract : s.decl ≠ none → s.contract = 29 ∨ Ordinary s.contract)
    (htricks : (∃ d, s.decl = some d ∧ (s.contract = 29 ∨ ∃ i, i ≠ d ∧ s.wst i = ascii "whist")) → s.trickSum = 10) :
    Advance s s.soScoreHand := by
  obtain ⟨scored, hraises, hpsize, hpool, hmount, hhigh, hdecl, hcontr, hwst, htrick⟩ := soScoreHand_scores hcontract
  have hphase := s.soScoreHand_phase
  generalize s.soScoreHand = t at hpsize hpool hmount hhigh hdecl hcontr hwst htrick hphase
  refine ⟨⟨fun i => ?_, ?_, ?_, fun hp => ?_, fun hp => ?_, fun hp => ?_, fun hp => ?_, fun hp => ?_⟩, hpsize, ?_, ?_⟩
  · rw [hpool, hpsize]
    exact hraises.within i (h.pools i)
  · rw [hhigh]
    exact h.high
  · rw [hdecl, hhigh]
    exact h.won
  · simp [hp] at hphase
  · obtain hp | hp := hp <;> simp [hp] at hphase
  · simp [hp] at hphase
  · simp [hp] at hphase
  · obtain ⟨-, hout⟩ := hp
    rw [hdecl, hcontr, hwst] at hout
    rw [trickSum, htrick]
    exact htricks hout
  · rw [hpool]
    exact hraises.pool
  · rw [hmount]
    exact hraises.mount

theorem bestOf_eq (led trump : Nat) (best : Option (Nat × Card)) (i : Nat) (c : Card) :
    bestOf led trump best i c = best ∨ bestOf led trump best i c = some (i, c) := by
  unfold bestOf
  split
  · split
    · exact .inr rfl
    · split
      · exact .inr rfl
      · exact .inl rfl
  · exact .inl rfl

theorem best_mem (led trump : Nat) (cards : List (Card × Nat)) {best : Option (Nat × Card)} {v : Nat × Card}
    (hbest : best = some v) :
    ∃ k c, cards.foldl (fun best (c, i) => bestOf led trump best i c) best = some (k, c) ∧
      ((k, c) = v ∨ (c, k) ∈ cards) := by
  induction cards generalizing best v with
  | nil => exact ⟨v.1, v.2, hbest, .inl rfl⟩
  | cons first cards ih =>
    obtain hstep | hstep := bestOf_eq led trump best first.2 first.1
    · obtain ⟨k, c, hrun, hmem⟩ := ih (hstep.trans hbest)
      exact ⟨k, c, hrun, hmem.imp_right (List.mem_cons_of_mem _)⟩
    · obtain ⟨k, c, hrun, hv | hmem⟩ := ih hstep
      · cases hv
        exact ⟨_, _, hrun, .inr (List.mem_cons_self ..)⟩
      · exact ⟨k, c, hrun, .inr (List.mem_cons_of_mem _ hmem)⟩

theorem soTrickBest_some (c : Card) (cards : List Card) (trump : Nat) :
    ∃ k, soTrickBest (c :: cards) (suit c) trump = some k ∧ k < (c :: cards).length := by
  have hfirst : bestOf (suit c) trump none 0 c = some (0, c) := if_pos (.inl rfl)
  obtain ⟨k, b, hrun, hmem⟩ := best_mem (suit c) trump (cards.zipIdx 1) hfirst
  refine ⟨k, congrArg (Option.map Prod.fst) hrun, ?_⟩
  obtain hv | hmem := hmem
  · cases hv
    exact Nat.zero_lt_succ _
  · have hlt := (List.mem_zipIdx hmem).2.1
    rw [List.length_cons]
    omega

theorem soStartPlay_ruled (hpools : ∀ i, s.pool i ≤ s.psize) (hhigh : s.high = -1 ∨ s.high = 29 ∨ Ordinary s.high)
    (hwon : s.decl ≠ none → s.high ≠ -1) (hcontract : s.decl ≠ none → s.contract = 29 ∨ Ordinary s.contract) :
    s.soStartPlay.Ruled := by
  refine ⟨hpools, hhigh, hwon, fun hp => ?_, fun hp => ?_, fun _ => rfl, fun _ hdecl => ⟨hcontract hdecl, rfl⟩,
    fun hp => ?_⟩
  · cases hp
  · obtain hp | hp := hp <;> cases hp
  · obtain ⟨hp | hp, -⟩ := hp <;> cases hp

theorem ruled_of_early (hpools : ∀ i, s.pool i ≤ s.psize) (hhigh : s.high = -1 ∨ s.high = 29 ∨ Ordinary s.high)
    (hwon : s.decl ≠ none → s.high ≠ -1) (hchosen : s.phase = .contract → s.high ≠ 29)
    (hearly : s.phase = .bid ∨ s.phase = .discard ∨ s.phase = .contract) : s.Ruled := by
  refine ⟨hpools, hhigh, hwon, hchosen, fun hp => ?_, fun hp => ?_, fun hp => ?_, fun hp => ?_⟩
  · obtain hp | hp := hp <;> simp [hp] at hearly
  · simp [hp] at hearly
  · simp [hp] at hearly
  · obtain ⟨hp | hp, -⟩ := hp <;> simp [hp] at hearly

theorem soStartHand_advance (h : ∀ i, s.pool i ≤ s.psize) : Advance s s.soStartHand :=
  Ruled.advance (ruled_of_early h (.inl rfl) (fun hdecl => absurd rfl hdecl) (fun hp => by cases hp) (.inl rfl)) rfl rfl rfl

theorem soTakeTalon_advance (hpools : ∀ i, s.pool i ≤ s.psize) (hhigh : s.high = -1 ∨ s.high = 29 ∨ Ordinary s.high)
    (hwon : s.high ≠ -1) (hmade : s.soTakeTalon = some t) : Advance s t := by
  unfold soTakeTalon at hmade
  split at hmade
  · cases hmade
    refine Ruled.advance (ruled_of_early hpools hhigh (fun _ => hwon) (fun hp => ?_) (.inr (.inl rfl))) rfl rfl rfl
    cases hp
  · cases hmade

theorem soDoBid_advance (h : s.Ruled) (hphase : s.phase = .bid) (seat : Seat) {ord : Int}
    (hord : ord = -1 ∨ ord = 29 ∨ Ordinary ord) (hmade : s.soDoBid seat ord = some t) : Advance s t := by
  unfold soDoBid at hmade
  extract_lets called logged passes next at hmade
  have hhigh : logged.high = if 0 ≤ ord then ord else s.high := rfl
  have hbid : logged.high = -1 ∨ logged.high = 29 ∨ Ordinary logged.high := by
    rw [hhigh]
    split
    · exact hord
    · exact h.high
  have hwon (hdecl : s.decl ≠ none) : logged.high ≠ -1 := by
    have hold := h.won hdecl
    rw [hhigh]
    split <;> omega
  split at hmade
  · cases hmade
    have hnobody {p : Prop} (hdecl : (none : Option Seat) ≠ none) : p := absurd rfl hdecl
    exact Ruled.advance (soStartPlay_ruled h.pools hbid hnobody hnobody) rfl rfl rfl
  split at hmade
  next hlast =>
    have hbidden : logged.high ≠ -1 := fun hnone => absurd (hnone ▸ hlast.2) (by decide)
    have hstep := soTakeTalon_advance (s := { logged with decl := logged.hseat }) h.pools hbid hbidden hmade
    exact ⟨hstep.ruled, hstep.psize, hstep.pool, hstep.mount⟩
  next =>
    cases hmade
    refine Ruled.advance (ruled_of_early h.pools hbid hwon (fun hp => ?_) (.inl hphase)) rfl rfl rfl
    exact absurd (hphase.symm.trans hp) (by decide)

theorem soDoDiscard_advance (h : s.Ruled) (a b : Card) (hmade : s.soDoDiscard a b = some t) : Advance s t := by
  unfold soDoDiscard at hmade
  split at hmade
  · cases hmade
  next decl hdecl =>
    dsimp only at hmade
    split at hmade
    next hmisere =>
      cases hmade
      exact Ruled.advance (soStartPlay_ruled h.pools h.high h.won fun _ => .inl rfl) rfl rfl rfl
    next hcontract =>
      cases hmade
      exact Ruled.advance (ruled_of_early h.pools h.high h.won (fun _ => hcontract) (.inr (.inr rfl))) rfl rfl rfl

theorem soDoContract_advance (h : s.Ruled) {ord : Int} (hord : Ordinary ord) (hmade : s.soDoContract ord = some t) :
    Advance s t := by
  unfold soDoContract at hmade
  split at hmade
  · cases hmade
  next decl hdecl =>
    cases hmade
    refine Ruled.advance ⟨h.pools, h.high, h.won, fun hp => ?_, fun _ => hord, fun hp => ?_, fun hp => ?_, fun hp => ?_⟩
      rfl rfl rfl
    · cases hp
    · cases hp
    · cases hp
    · obtain ⟨hp | hp, -⟩ := hp <;> cases hp

theorem Ordinary.not_misere (h : Ordinary o) : o ≠ 29 := fun heq => absurd (heq ▸ h.2.2) (by decide)

theorem soWhistDone_advance (h : s.Ruled) (hphase : s.phase = .whist ∨ s.phase = .whist2) : Advance s s.soWhistDone := by
  have hcontract := h.contract hphase
  unfold soWhistDone
  extract_lets hid f k nw opened
  split
  next hnobody =>
    have hhid : hid.Ruled := ⟨h.pools, h.high, h.won, h.chosen, h.contract, h.tseats, h.playing, h.ended⟩
    have hstep := soScoreHand_advance hhid (fun _ => .inr hcontract) ?_
    · exact ⟨hstep.ruled, hstep.psize, hstep.pool, hstep.mount⟩
    rintro ⟨d, hd, hmisere | ⟨i, hi, hwhist⟩⟩
    · exact absurd hmisere hcontract.not_misere
    · have hf : f = soNext (some d) := congrArg soNext hd
      have hsum : (if hid.wst f = ascii "whist" then 1 else 0) + (if hid.wst k = ascii "whist" then 1 else 0) = 0 := hnobody
      obtain rfl | rfl | rfl := (seats_from d).2.2.2 i
      · exact absurd rfl hi
      · rw [hf, if_pos hwhist] at hsum
        omega
      · rw [show k = soNext (some (soNext (some d))) from congrArg (fun j => soNext (some j)) hf, if_pos hwhist] at hsum
        omega
  next =>
    split
    · exact Ruled.advance (soStartPlay_ruled h.pools h.high h.won fun _ => .inr hcontract) rfl rfl rfl
    · exact Ruled.advance (soStartPlay_ruled h.pools h.high h.won fun _ => .inr hcontract) rfl rfl rfl

theorem ruled_of_whist (h : s.Ruled) (hphase : s.phase = .whist ∨ s.phase = .whist2) (hcontract : t.contract = s.contract)
    (hpools : ∀ i, t.pool i ≤ t.psize) (hhigh : t.high = s.high) (hdecl : t.decl = s.decl)
    (htphase : t.phase = .whist ∨ t.phase = .whist2) : t.Ruled := by
  refine ⟨hpools, hhigh ▸ h.high, by rw [hdecl, hhigh]; exact h.won, fun hp => ?_, fun _ => hcontract ▸ h.contract hphase,
    fun hp => ?_, fun hp => ?_, fun hp => ?_⟩
  · simp [hp] at htphase
  · simp [hp] at htphase
  · simp [hp] at htphase
  · obtain ⟨hp | hp, -⟩ := hp <;> simp [hp] at htphase

theorem soDoWhist_advance (h : s.Ruled) (hphase : s.phase = .whist ∨ s.phase = .whist2) (seat : Seat) (w : Text) :
    Advance s (s.soDoWhist seat w) := by
  unfold soDoWhist
  extract_lets f k logged wst said
  have hdone {t : State} (hstep : Advance t t.soWhistDone) (hpsize : t.psize = s.psize) (hpool : t.pool = s.pool)
      (hmount : t.mount = s.mount) : Advance s t.soWhistDone :=
    ⟨hstep.ruled, hstep.psize.trans hpsize, hpool ▸ hstep.pool, hmount ▸ hstep.mount⟩
  split
  · refine hdone (soWhistDone_advance (ruled_of_whist h hphase rfl h.pools rfl rfl hphase) hphase) rfl rfl rfl
  · split
    · exact Ruled.advance (ruled_of_whist h hphase rfl h.pools rfl rfl hphase) rfl rfl rfl
    · split
      · exact Ruled.advance (ruled_of_whist h hphase rfl h.pools rfl rfl (.inr rfl)) rfl rfl rfl
      · exact hdone (soWhistDone_advance (ruled_of_whist h hphase rfl h.pools rfl rfl hphase) hphase) rfl rfl rfl

theorem trickSum_update (f : Seat → Nat) (w : Seat) :
    (seats.map (Function.update f w (f w + 1))).sum = (seats.map f).sum + 1 := by
  have hseat : w = hostSeat ∨ w = firstPlayer ∨ w = secondPlayer := by
    revert w
    decide
  obtain rfl | rfl | rfl := hseat <;>
    simp [seats, hostSeat, firstPlayer, secondPlayer] <;> omega

theorem trick_won (hdecl : s.decl ≠ none) (htseats : s.tseats.length = s.trick.length) {led : Nat}
    (hled : s.ledSuit = some (some led)) : ∃ w, (soTrickBest s.trick led s.trump).bind (fun k => s.tseats[k]?) = some w := by
  rw [ledSuit, if_neg fun h => hdecl h.1] at hled
  cases htrick : s.trick with
  | nil =>
    rw [htrick] at hled
    cases hled
  | cons c cards =>
    rw [htrick] at hled htseats
    cases hled
    obtain ⟨k, hbest, hk⟩ := soTrickBest_some c cards s.trump
    rw [hbest, Option.bind_some, List.getElem?_eq_getElem (htseats ▸ hk)]
    exact ⟨_, rfl⟩

theorem soTrickDone_advance (h : s.Ruled) (hphase : s.phase = .play) (hmade : s.soTrickDone = some t) : Advance s t := by
  unfold soTrickDone at hmade
  extract_lets talonLed talon at hmade
  split at hmade
  next led hled =>
    extract_lets win tricks lead after at hmade
    have hsum (hdecl : s.decl ≠ none) : after.trickSum = after.trickno := by
      obtain ⟨w, hw⟩ := trick_won hdecl (h.tseats hphase) hled
      have htricks : tricks = Function.update s.tricks w (s.tricks w + 1) := by
        unfold tricks win
        rw [hw]
      have hold := (h.playing hphase hdecl).2
      rw [trickSum, show after.tricks = _ from htricks, trickSum_update]
      exact congrArg (· + 1) hold
    have hplaying (hdecl : s.decl ≠ none) := (h.playing hphase hdecl).1
    have hafter : after.Ruled := by
      refine ⟨h.pools, h.high, h.won, fun hp => ?_, fun hp => ?_, fun _ => rfl, fun _ hdecl => ⟨hplaying hdecl, hsum hdecl⟩,
        fun hp => ?_⟩
      · exact absurd (hphase.symm.trans hp) (by decide)
      · obtain hp | hp := hp <;> exact absurd (hphase.symm.trans hp) (by decide)
      · obtain ⟨hp | hp, -⟩ := hp <;> exact absurd (hphase.symm.trans hp) (by decide)
    rw [← Option.some.inj hmade]
    split
    next hlast =>
      have hstep := soScoreHand_advance hafter hplaying fun ⟨d, hd, _⟩ => (hsum (hd ▸ Option.some_ne_none d)).trans hlast
      exact ⟨hstep.ruled, hstep.psize, hstep.pool, hstep.mount⟩
    next => exact hafter.advance rfl rfl rfl
  next => cases hmade

theorem soDoPlay_advance (h : s.Ruled) (hphase : s.phase = .play) (seat : Seat) (card : Card)
    (hmade : s.soDoPlay seat card = some t) : Advance s t := by
  unfold soDoPlay at hmade
  extract_lets laid at hmade
  have hlaid : laid.Ruled := by
    refine ⟨h.pools, h.high, h.won, h.chosen, h.contract, fun _ => ?_, h.playing, h.ended⟩
    have hlen := h.tseats hphase
    show (s.tseats ++ [seat]).length = (s.trick ++ [card]).length
    rw [List.length_append, List.length_append, hlen]
    rfl
  split at hmade
  · have hstep := soTrickDone_advance hlaid hphase hmade
    exact ⟨hstep.ruled, hstep.psize, hstep.pool, hstep.mount⟩
  · cases hmade
    exact Ruled.advance ⟨hlaid.pools, hlaid.high, hlaid.won, hlaid.chosen, hlaid.contract, hlaid.tseats, hlaid.playing,
      hlaid.ended⟩ rfl rfl rfl

section

variable {seat : Seat} {text : Text}

theorem soParseBid_ordinary (h : Ordinary o) : soParseBid (soBidName o) = o := by
  obtain ⟨hlow, hhigh, heven⟩ := h
  have hparse := soParseBid_soBidName ⟨(o / 2).toNat, by omega⟩
  have ho : ((2 * (o / 2).toNat : Nat) : Int) = o := by omega
  rwa [ho] at hparse

theorem bidTexts_ord {high mine : Int} (h : text ∈ bidTexts high mine) :
    soParseBid (text.drop 2) = 29 ∨ Ordinary (soParseBid (text.drop 2)) := by
  obtain ⟨o, ho, htext⟩ := List.mem_flatMap.mp h
  have hrange : 0 ≤ o ∧ o ≤ 48 := by
    simp at ho
    omega
  split at htext
  · obtain hbid | hmis := List.mem_append.mp htext
    · split at hbid
      next heven =>
        obtain rfl := List.mem_singleton.mp hbid
        have hord : Ordinary o := ⟨hrange.1, hrange.2, heven⟩
        exact .inr ((soParseBid_ordinary hord).symm ▸ hord)
      next => cases hbid
    · split at hmis
      · obtain rfl := List.mem_singleton.mp hmis
        exact .inl soParseBid_mis
      · cases hmis
  · cases htext

theorem contractTexts_ord {high : Int} (hhigh : Ordinary high) (h : text ∈ contractTexts high) :
    Ordinary (soParseBid (text.drop 2)) := by
  obtain ⟨o, ho, rfl⟩ := List.mem_map.mp h
  obtain ⟨hmem, hle⟩ := List.mem_filter.mp ho
  obtain ⟨k, hk, rfl⟩ := List.mem_map.mp hmem
  have hk : 0 ≤ k := by
    simp at hk
    omega
  have hlast := of_decide_eq_true hle
  have hord : Ordinary (high + 2 * k) := by
    obtain ⟨hlow, -, heven⟩ := hhigh
    exact ⟨by omega, hlast, by omega⟩
  exact (soParseBid_ordinary hord).symm ▸ hord

theorem soLegal_bid {legal : List Text} (h : s.soLegal seat = some legal) (hphase : s.phase = .bid) (ht : text ∈ legal) :
    soParseBid (text.drop 2) = -1 ∨ soParseBid (text.drop 2) = 29 ∨ Ordinary (soParseBid (text.drop 2)) := by
  unfold soLegal at h
  rw [hphase] at h
  split at h
  · cases h
    obtain rfl | hbid := List.mem_cons.mp ht
    · exact .inl soParseBid_pass
    · split at hbid
      · cases hbid
      · exact .inr (bidTexts_ord hbid)
  · cases h
    cases ht

theorem soLegal_contract {legal : List Text} (h : s.soLegal seat = some legal) (hphase : s.phase = .contract)
    (hhigh : Ordinary s.high) (ht : text ∈ legal) : Ordinary (soParseBid (text.drop 2)) := by
  unfold soLegal at h
  rw [hphase] at h
  split at h
  · cases h
    exact contractTexts_ord hhigh ht
  · cases h
    cases ht

theorem turnAct_advance (h : s.Ruled) (hmade : s.turnAct seat text = some (t, r)) : Advance s t := by
  have hstay : Advance s s := h.advance rfl rfl rfl
  unfold turnAct at hmade
  obtain ⟨legal, hlegal, hmade⟩ := Option.bind_eq_some_iff.mp hmade
  extract_lets verb arg at hmade
  split at hmade
  · cases hmade
    exact hstay
  split at hmade
  · unfold discardAct at hmade
    split at hmade
    · split at hmade
      · obtain ⟨u, hu, heq⟩ := Option.map_eq_some_iff.mp hmade
        cases heq
        exact soDoDiscard_advance h _ _ hu
      · cases hmade
        exact hstay
    · cases hmade
      exact hstay
  split at hmade
  · cases hmade
    exact hstay
  next hmem =>
  have hmem : text ∈ legal := List.contains_iff_mem.mp (Bool.eq_true_of_not_eq_false hmem)
  cases soLegal_text hlegal hmem with
  | bid hphase hverb =>
    rw [if_pos hverb] at hmade
    obtain ⟨u, hu, heq⟩ := Option.map_eq_some_iff.mp hmade
    cases heq
    exact soDoBid_advance h hphase seat (soLegal_bid hlegal hphase hmem) hu
  | discard hphase hverb => exact absurd hverb ‹_›
  | contract hphase hverb =>
    have hb : verb ≠ ascii "b:" := by
      rw [show verb = ascii "c:" from hverb]
      decide
    rw [if_neg hb, if_pos hverb] at hmade
    obtain ⟨u, hu, heq⟩ := Option.map_eq_some_iff.mp hmade
    cases heq
    by_cases hdecl : s.decl = none
    · simp [soDoContract, hdecl] at hu
    · have hhigh : Ordinary s.high := (h.high.resolve_left (h.won hdecl)).resolve_left (h.chosen hphase)
      exact soDoContract_advance h (soLegal_contract hlegal hphase hhigh hmem) hu
  | whist hphase hverb =>
    have hverbs : verb ≠ ascii "b:" ∧ verb ≠ ascii "c:" := by
      rw [show verb = ascii "w:" from hverb]
      decide
    rw [if_neg hverbs.1, if_neg hverbs.2, if_pos hverb] at hmade
    cases hmade
    exact soDoWhist_advance h hphase seat arg
  | play hphase p hturn c hc hcard =>
    have hverb : verb = ascii "p:" := by
      rw [show verb = soHead text 2 from rfl, hcard]
      exact soHead_verb _ _ rfl
    have hverbs : verb ≠ ascii "b:" ∧ verb ≠ ascii "c:" ∧ verb ≠ ascii "w:" := by
      rw [hverb]
      decide
    rw [if_neg hverbs.1, if_neg hverbs.2.1, if_neg hverbs.2.2, if_pos hverb] at hmade
    obtain ⟨u, hu, heq⟩ := Option.map_eq_some_iff.mp hmade
    cases heq
    unfold playAct at hu
    obtain ⟨p', -, hu⟩ := Option.bind_eq_some_iff.mp hu
    obtain ⟨c', -, hu⟩ := Option.bind_eq_some_iff.mp hu
    exact soDoPlay_advance h hphase p' c' hu

theorem Ruled.aside (h : s.Ruled) (chat : List Text) (ready : Seat → Bool) (err : Seat → Text) (seq : Nat) :
    Advance s { s with chat := chat, ready := ready, err := err, seq := seq } :=
  Ruled.advance ⟨h.pools, h.high, h.won, h.chosen, h.contract, h.tseats, h.playing, h.ended⟩ rfl rfl rfl

theorem actBody_advance (h : s.Ruled) (hmade : s.actBody seat text = some (t, r)) : Advance s t := by
  unfold actBody at hmade
  split at hmade
  · cases hmade
    split
    · exact h.advance rfl rfl rfl
    · exact h.aside _ s.ready s.err s.seq
  split at hmade
  · split at hmade
    · cases hmade
      split
      · have hready := h.aside s.chat (Function.update s.ready seat true) s.err s.seq
        exact hready.trans (soStartHand_advance hready.ruled.pools)
      · exact h.aside s.chat _ s.err s.seq
    · cases hmade
      exact h.advance rfl rfl rfl
  · exact turnAct_advance h hmade

theorem soAct_advance (h : s.Ruled) (hmade : s.soAct seat text = some (t, r)) : Advance s t := by
  obtain ⟨⟨u, e⟩, hbody, heq⟩ := Option.map_eq_some_iff.mp hmade
  cases heq
  have hstep := actBody_advance h hbody
  exact hstep.trans (hstep.ruled.aside u.chat u.ready _ _)

inductive Reaches (s : State) : State → Prop where
  | refl : Reaches s s
  | act {t u : State} {seat : Seat} {text r : Text} (before : Reaches s t) (made : t.soAct seat text = some (u, r)) : Reaches s u

theorem Reaches.advance (h : Reaches s t) (hs : s.Ruled) : Advance s t := by
  induction h with
  | refl => exact hs.advance rfl rfl rfl
  | act before made ih => exact ih.trans (soAct_advance ih.ruled made)

end

def scoredTricks (s : State) (decl : Seat) : Int :=
  let whisters := [soNext (some decl), soNext (some (soNext (some decl)))].filter fun i => s.wst i = ascii "whist"
  s.tricks decl + (whisters.map fun i => if whisters.length = 1 then 10 - (s.tricks decl : Int) else s.tricks i).sum

theorem scoredTricks_eq {d : Seat} (hsum : s.trickSum = 10) (hwhist : ∃ i, i ≠ d ∧ s.wst i = ascii "whist") :
    s.scoredTricks d = 10 := by
  obtain ⟨i, hi, hwst⟩ := hwhist
  rw [trickSum, seats_sum s.tricks d] at hsum
  have hall := (seats_from d).2.2.2 i
  unfold scoredTricks
  generalize soNext (some (soNext (some d))) = k at hsum hall ⊢
  generalize soNext (some d) = f at hsum hall ⊢
  by_cases hf : s.wst f = ascii "whist" <;> by_cases hk : s.wst k = ascii "whist"
  · simp [hf, hk]
    omega
  · simp [hf, hk]
  · simp [hf, hk]
  · obtain rfl | rfl | rfl := hall
    · exact absurd rfl hi
    · exact absurd hwst hf
    · exact absurd hwst hk

theorem soSettle_sum (s : State) : (seats.map s.soSettle).sum = 0 := by
  have hseats (i : Seat) : i = hostSeat ∨ i = firstPlayer ∨ i = secondPlayer := by
    revert i
    decide
  simp only [soSettle, seats, List.map_cons, List.map_nil, List.sum_cons, List.sum_nil]
  simp [hostSeat, firstPlayer, secondPlayer]
  ring

/-- The scores of a game: no pool is over the pool size, pools and mountains never fall, points for a
pool are accounted for, a played contract uses ten tricks, and the balances sum to nothing. -/
theorem scores_add_up {s₀ : State} (hpsize : 1 ≤ s₀.psize) (h : Reaches s₀.soNewGame s) :
    (∀ i, s.pool i ≤ s₀.psize) ∧
      (∀ t, Reaches s t → ∀ i, s.pool i ≤ t.pool i ∧ s.mount i ≤ t.mount i) ∧
      (∀ u i n, ∃ rest, Accounted u (u.soPoolAdd i n) i n rest) ∧
      (∀ d, s.PlayedOut → s.decl = some d → s.contract ≠ 29 → s.scoredTricks d = 10) ∧
      ∀ u : State, (seats.map u.soSettle).sum = 0 := by
  have hstart : Advance _ s₀.soNewGame := soStartHand_advance fun _ => (by decide : (0 : Int) ≤ 1).trans hpsize
  have hrun := h.advance hstart.ruled
  refine ⟨fun i => ?_, fun t ht i => ?_, soPoolAdd_accounted, fun d hout hd hcontract => ?_, soSettle_sum⟩
  · exact (hrun.ruled.pools i).trans (hrun.psize.trans hstart.psize).le
  · have hlater := ht.advance hrun.ruled
    exact ⟨hlater.pool i, hlater.mount i⟩
  · obtain ⟨-, d', hd', hplayed⟩ := id hout
    cases hd.symm.trans hd'
    exact scoredTricks_eq (hrun.ruled.ended hout) (hplayed.resolve_left hcontract)

/-- After a hand whose declarer took five of the six tricks bid. -/
theorem scores_add_up_hand : ∃ s : State, Reaches (soTable 10 1).soNewGame s ∧ s.phase = .done ∧
    s.tricks secondPlayer = 5 ∧ s.mount secondPlayer = 2 ∧ (∀ i, s.pool i ≤ (soTable 10 1).psize) ∧
    s.scoredTricks secondPlayer = 10 ∧ (seats.map s.soSettle).sum = 0 := by
  have hrun : ((soTable 10 1).soNewGame.fairActs firstHand).any (fun s =>
      decide (s.phase = .done ∧ s.decl = some secondPlayer ∧ s.contract ≠ 29 ∧ s.wst firstPlayer = ascii "whist" ∧
        s.tricks secondPlayer = 5 ∧ s.mount secondPlayer = 2)) = true := by decide +kernel
  obtain ⟨s, hs, hcheck⟩ := (Option.any_eq_true ..).mp hrun
  obtain ⟨hphase, hdecl, hcontract, hwhist, htricks, hmount⟩ := of_decide_eq_true hcheck
  have hreaches : Reaches (soTable 10 1).soNewGame s :=
    fairActs_keeps (fun hbefore _ hmade => .act hbefore hmade) .refl hs
  have hadd := scores_add_up (show 1 ≤ (soTable 10 1).psize by decide) hreaches
  have hout : s.PlayedOut := ⟨.inl hphase, secondPlayer, hdecl, .inr ⟨firstPlayer, by decide, hwhist⟩⟩
  exact ⟨s, hreaches, hphase, htricks, hmount, hadd.1, hadd.2.2.2.1 secondPlayer hout hdecl hcontract, hadd.2.2.2.2 s⟩

end

end State

end Ussr.Sochi
