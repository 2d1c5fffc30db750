import Ussr.Sochi.View
import Ussr.Sochi.Scores

/-! The bots of Sochi. A bot sees only its view: it counts high cards and long suits, bids a
suit it can make, whists with two likely tricks and plays simply. -/

namespace Ussr.Sochi
open Real64

variable {cards : List Card}
open Stalin (Text)

def suitHalfs (cards : List Card) (t s : Nat) : Nat :=
  let has (k : Nat) : Bool := cards.any fun c => c.val = s * 8 + k
  let cnt := (List.range 8).countP has
  (if has 7 then 2 else 0) + (if has 6 ∧ 2 ≤ cnt then 2 else 0) + (if has 6 ∧ cnt < 2 then 1 else 0) +
    (if has 5 ∧ 3 ≤ cnt then 1 else 0) + (if s = t ∧ 3 < cnt then (cnt - 3) * 2 else 0) +
    if t < 4 ∧ s ≠ t ∧ cnt < 2 then 2 - cnt else 0

/-- `so_bot_halfs`; trump suit 4 is none. -/
def soBotHalfs (cards : List Card) (t : Nat) : Nat := ((List.range 4).map (suitHalfs cards t)).sum

def soBotBestSuit (cards : List Card) : Nat :=
  ((List.range 4).foldl
    (fun (best : Int × Nat) s => if best.1 < soBotHalfs cards s then (soBotHalfs cards s, s) else best)
    (-1, 0)).2

def firstBest (better : Card → Card → Bool) (cards : List Card) : Option Card :=
  cards.foldl
    (fun best c =>
      match best with
      | none => some c
      | some b => if better c b then some c else some b) none

def lowest (cards : List Card) : Option Card := firstBest (fun c b => rank c < rank b) cards

def highest (cards : List Card) : Option Card := firstBest (fun c b => rank b < rank c) cards

theorem firstBest_some (better : Card → Card → Bool) (h : cards ≠ []) :
    ∃ c ∈ cards, firstBest better cards = some c := by
  have hrest (rest : List Card) (b : Card) : ∃ c ∈ b :: rest, rest.foldl (fun best c =>
      match best with
      | none => some c
      | some b => if better c b then some c else some b) (some b) = some c := by
    induction rest generalizing b with
    | nil => exact ⟨b, List.mem_cons_self, rfl⟩
    | cons first rest ih =>
      rw [List.foldl_cons]
      dsimp only
      split
      · obtain ⟨c, hc, hrun⟩ := ih first
        exact ⟨c, List.mem_cons_of_mem b hc, hrun⟩
      · obtain ⟨c, hc, hrun⟩ := ih b
        refine ⟨c, ?_, hrun⟩
        obtain rfl | hc := List.mem_cons.mp hc
        · exact List.mem_cons_self
        · exact List.mem_cons_of_mem b (List.mem_cons_of_mem first hc)
  obtain ⟨b, rest, rfl⟩ := List.exists_cons_of_ne_nil h
  exact hrest rest b

theorem firstBest_mem {better : Card → Card → Bool} {c : Card}
    (h : firstBest better cards = some c) : c ∈ cards := by
  by_cases hne : cards = []
  · rw [hne] at h
    cases h
  · obtain ⟨b, hb, hrun⟩ := firstBest_some better hne
    cases hrun.symm.trans h
    exact hb

namespace View

def botBid (v : View) : Text :=
  let s := soBotBestSuit v.hand
  let est := soBotHalfs v.hand s / 2
  (([6, 7, 8, 9, 10].takeWhile (· ≤ est)).map fun l => ascii "b:" ++ soBidName (soBidOrd l s)).find?
    (fun a => v.legal.contains a) |>.getD (ascii "b:pass")

def botCand (v : View) : List Card :=
  let s := soBotBestSuit v.hand
  ((List.range 8).flatMap fun k =>
    v.hand.filter fun c => rank c = (if v.high = 29 then 7 - k else k) ∧ (suit c ≠ s ∨ v.high = 29)) ++
    v.hand

def botDiscard (v : View) : Option Text :=
  match v.botCand with
  | [] => none
  | a :: cand => (cand.find? (· ≠ a)).map fun b => ascii "d:" ++ (soCard a ++ ascii " " ++ soCard b)

def botWhist (v : View) : Text :=
  if (if 7 ≤ soLevel v.contract then 2 else 4) ≤ soBotHalfs v.hand 4 then ascii "w:whist" else ascii "w:pass"

/-- The suit led, as the bot reads it from the talon or the trick; `none` for -1. -/
def botLed (v : View) : Option Nat :=
  match v.decl, v.talon with
  | none, tc :: _ => some (suit tc)
  | _, _ => v.trick.head?.map suit

/-- The best card of the trick and who played it, the inner `none` where there is none. -/
def botBest (v : View) : Option (Option (Card × Seat)) :=
  match v.botLed.bind fun led => soTrickBest v.trick led v.trump with
  | none => some none
  | some k => do return some (← v.trick[k]?, ← v.tseats[k]?)

def botWins (v : View) (best : Option (Card × Seat)) (c : Card) : Bool :=
  match v.botLed, best with
  | none, _ => false
  | some led, none => suit c = led ∨ suit c = v.trump
  | some _, some b => soBeats c b.1 v.trump

def botPick (v : View) (cards : List Card) (best : Option (Card × Seat)) : Option Card :=
  let low := lowest (cards.filter (v.botWins best))
  let high := highest (cards.filter fun c => !v.botWins best c)
  -- Tricks are avoided in the raspasy and by who plays a misere.
  if v.decl = none ∨ (v.contract = 29 ∧ v.turn = v.decl) then
    if v.trick = [] ∧ v.botLed = none then lowest cards else high.or (highest cards)
  else if v.contract = 29 then lowest cards
  else if v.trick = [] then highest cards
  else if best.any (fun b => v.turn ≠ v.decl ∧ some b.2 ≠ v.decl) then lowest cards
  else low.or (lowest cards)

/-- `so_bot_play`; the legal texts are those of cards. -/
def soBotPlay (v : View) : Option Text := do
  let cards ← v.legal.mapM fun a => soParseCard (a.drop 2)
  let best ← v.botBest
  return ascii "p:" ++ soCard (← v.botPick cards best)

def soBot (v : View) : Option Text :=
  if v.phase = .done then some (if v.ready v.seat then [] else ascii "n:")
  else if v.ctl = some v.seat then
    match v.phase with
    | .bid => some v.botBid
    | .discard => v.botDiscard
    | .contract => v.legal.head?
    | .whist | .whist2 => some v.botWhist
    | .play => v.soBotPlay
    | _ => some []
  else some []

end View

/-! What a bot chooses is among what it may do: one lemma for each phase. -/

theorem soCard_noBlank : ∀ c : Card, ∀ b ∈ soCard c, isBlank b = false := by decide +kernel

theorem soCard_ne_nil : ∀ c : Card, soCard c ≠ [] := by decide +kernel

theorem soWords_pair (a b : Card) :
    (soWords (soCard a ++ ascii " " ++ soCard b)).map soParseCard = [some a, some b] := by
  have hsplit : (soCard a ++ ascii " " ++ soCard b).splitOnP isBlank = [soCard a, soCard b] := by
    have hblank : ascii " " = [32] := rfl
    rw [hblank, List.append_assoc, List.singleton_append, List.splitOnP_append_cons_of_forall_mem,
      List.splitOnP_eq_singleton]
    · intro x hx
      simp [soCard_noBlank b x hx]
    · intro x hx
      simp [soCard_noBlank a x hx]
    · rfl
  rw [soWords, hsplit]
  simp [soCard_ne_nil, soParseCard_soCard]

theorem soTrickBest_lt {led trump k : Nat} (h : soTrickBest cards led trump = some k) :
    k < cards.length := by
  have hfold (es : List (Card × Nat)) (best : Option (Nat × Card)) :
      es.foldl (fun best e => bestOf led trump best e.2 e.1) best = best ∨
        ∃ e ∈ es, es.foldl (fun best e => bestOf led trump best e.2 e.1) best = some (e.2, e.1) := by
    induction es generalizing best with
    | nil => exact .inl rfl
    | cons e es ih =>
      rw [List.foldl_cons]
      obtain hrun | ⟨e', he', hrun⟩ := ih (bestOf led trump best e.2 e.1)
      · obtain hstep | hstep := State.bestOf_eq led trump best e.2 e.1
        · exact .inl (hrun.trans hstep)
        · exact .inr ⟨e, List.mem_cons_self, hrun.trans hstep⟩
      · exact .inr ⟨e', List.mem_cons_of_mem e he', hrun⟩
  obtain ⟨⟨k', c⟩, hrun, rfl⟩ := Option.map_eq_some_iff.mp h
  obtain hnone | ⟨e, he, hsome⟩ := hfold cards.zipIdx none
  · rw [hnone] at hrun
    cases hrun
  · rw [hsome] at hrun
    cases hrun
    exact (List.snd_lt_of_mem_zipIdx he)

namespace View

variable {v : View}

theorem botBid_mem (hpass : ascii "b:pass" ∈ v.legal) : v.botBid ∈ v.legal := by
  unfold botBid
  extract_lets s est
  generalize hfind : List.find? _ _ = found
  cases found with
  | none => exact hpass
  | some a => exact List.contains_iff_mem.mp (List.find?_some (p := fun a => v.legal.contains a) hfind)

theorem botBid_verb (v : View) : soHead v.botBid 2 = ascii "b:" := by
  unfold botBid
  extract_lets s est
  generalize hfind : List.find? _ _ = found
  cases found with
  | none => rfl
  | some a =>
    obtain ⟨l, -, rfl⟩ := List.mem_map.mp (List.mem_of_find?_eq_some hfind)
    exact State.soHead_verb _ _ rfl

theorem botCand_mem {c : Card} (h : c ∈ v.botCand) : c ∈ v.hand := by
  obtain hside | hhand := List.mem_append.mp h
  · obtain ⟨k, -, hc⟩ := List.mem_flatMap.mp hside
    exact List.mem_of_mem_filter hc
  · exact hhand

theorem botDiscard_some (hnodup : v.hand.Nodup) (hlen : 2 ≤ v.hand.length) :
    ∃ a ∈ v.hand, ∃ b ∈ v.hand, a ≠ b ∧
      v.botDiscard = some (ascii "d:" ++ (soCard a ++ ascii " " ++ soCard b)) := by
  have hother (a : Card) : ∃ c ∈ v.hand, c ≠ a := by
    match hhand : v.hand, hlen with
    | c :: c' :: rest, _ =>
      rw [hhand] at hnodup
      have hne : c ≠ c' := fun heq => (List.nodup_cons.mp hnodup).1 (heq ▸ List.mem_cons_self)
      by_cases hca : c = a
      · exact ⟨c', by simp, fun h => hne (hca.trans h.symm)⟩
      · exact ⟨c, by simp, hca⟩
  cases hcand : v.botCand with
  | nil =>
    obtain ⟨c, hc, -⟩ := hother 0
    have hin : c ∈ v.botCand := List.mem_append_right _ hc
    rw [hcand] at hin
    cases hin
  | cons a cand =>
    obtain ⟨c, hc, hca⟩ := hother a
    have hin : c ∈ cand := by
      have hin : c ∈ v.botCand := List.mem_append_right _ hc
      rw [hcand] at hin
      exact (List.mem_cons.mp hin).resolve_left hca
    obtain ⟨b, hb⟩ : ∃ b, cand.find? (· ≠ a) = some b :=
      Option.isSome_iff_exists.mp (List.find?_isSome.mpr ⟨c, hin, decide_eq_true hca⟩)
    have hmem : ∀ c ∈ a :: cand, c ∈ v.hand := fun c hc => botCand_mem (hcand ▸ hc)
    refine ⟨a, hmem a List.mem_cons_self, b, hmem b (List.mem_cons_of_mem a (List.mem_of_find?_eq_some hb)), ?_, ?_⟩
    · have hne := List.find?_some hb
      exact fun heq => of_decide_eq_true hne heq.symm
    · rw [botDiscard, hcand]
      dsimp only
      rw [hb]
      rfl

theorem botWhist_cases (v : View) : v.botWhist = ascii "w:whist" ∨ v.botWhist = ascii "w:pass" := by
  unfold botWhist
  exact ite_eq_or_eq _ _ _

theorem botBest_some (h : v.tseats.length = v.trick.length) : ∃ best, v.botBest = some best := by
  unfold botBest
  split
  · exact ⟨_, rfl⟩
  next k hbest =>
    obtain ⟨led, -, hbest⟩ := Option.bind_eq_some_iff.mp hbest
    have hk := soTrickBest_lt hbest
    rw [List.getElem?_eq_getElem hk, List.getElem?_eq_getElem (h ▸ hk)]
    exact ⟨_, rfl⟩

theorem botPick_some (h : cards ≠ []) (best : Option (Card × Seat)) :
    ∃ c ∈ cards, v.botPick cards best = some c := by
  obtain ⟨lo, hlo, hlowest⟩ := firstBest_some (fun c b => rank c < rank b) h
  obtain ⟨hi, hhi, hhighest⟩ := firstBest_some (fun c b => rank b < rank c) h
  have hor {better : Card → Card → Bool} (p : Card → Bool) {c : Card} (hc : c ∈ cards) :
      ∃ d ∈ cards, (firstBest better (cards.filter p)).or (some c) = some d := by
    cases hfirst : firstBest better (cards.filter p) with
    | none => exact ⟨c, hc, rfl⟩
    | some d => exact ⟨d, List.mem_of_mem_filter (firstBest_mem hfirst), rfl⟩
  unfold botPick lowest highest
  extract_lets low high
  rw [hlowest, hhighest]
  split
  · split
    · exact ⟨lo, hlo, rfl⟩
    · exact hor _ hhi
  · split
    · exact ⟨lo, hlo, rfl⟩
    · split
      · exact ⟨hi, hhi, rfl⟩
      · split
        · exact ⟨lo, hlo, rfl⟩
        · exact hor _ hlo

theorem soBotPlay_some (hcards : cards ≠ [])
    (hlegal : v.legal = cards.map fun c => ascii "p:" ++ soCard c) (htseats : v.tseats.length = v.trick.length) :
    ∃ c ∈ cards, v.soBotPlay = some (ascii "p:" ++ soCard c) := by
  have hparse : v.legal.mapM (fun a => soParseCard (a.drop 2)) = some cards := by
    have hone : ((fun a => soParseCard (a.drop 2)) ∘ fun c => ascii "p:" ++ soCard c) = fun c => pure c := by
      funext c
      have hdrop : (ascii "p:" ++ soCard c).drop 2 = soCard c := List.drop_left' rfl
      rw [Function.comp_apply, hdrop, soParseCard_soCard]
      rfl
    rw [hlegal, List.mapM_map, hone, List.mapM_pure, List.map_id']
    rfl
  obtain ⟨best, hbest⟩ := botBest_some htseats
  obtain ⟨c, hc, hpick⟩ := botPick_some (v := v) hcards best
  refine ⟨c, hc, ?_⟩
  rw [soBotPlay, hparse, Option.bind_eq_bind, Option.bind_some, hbest, Option.bind_eq_bind, Option.bind_some, hpick]
  rfl

end View

end Ussr.Sochi
