import Ussr.Sochi.System

/-! Cards and bids, and the texts that players type for them. -/

namespace Ussr.Sochi
open Real64
open Stalin (Text strTrim strLower)

def soInt (n : Int) : Text := strFromInt (BitVec.ofInt 64 n)

def soHead (s : Text) (k : Nat) : Text := s.take k

/-- `so_next`; nobody is -1. -/
def soNext : Option Seat → Seat
  | none => hostSeat
  | some s => s + firstPlayer

def isBlank (b : UInt8) : Bool := b = 32 || b = 9 || b = 44

def soWords (line : Text) : List Text := (line.splitOnP isBlank).filter (· ≠ [])

abbrev Card := Fin 32

def suit (c : Card) : Nat := c.val / 8

def rank (c : Card) : Nat := c.val % 8

def rankName (k : Nat) : Text :=
  match k with
  | 0 => ascii "7"
  | 1 => ascii "8"
  | 2 => ascii "9"
  | 3 => ascii "10"
  | 4 => ascii "J"
  | 5 => ascii "Q"
  | 6 => ascii "K"
  | _ => ascii "A"

def suitLetter (s : Nat) : Text :=
  match s with
  | 0 => ascii "s"
  | 1 => ascii "c"
  | 2 => ascii "d"
  | _ => ascii "h"

def suitMark (s : Nat) : Text :=
  match s with
  | 0 => [226, 153, 160]
  | 1 => [226, 153, 163]
  | 2 => [226, 153, 166]
  | _ => [226, 153, 165]

def soSuitName (uni : Bool) (s : Nat) : Text := if uni then suitMark s else suitLetter s

def soCard (c : Card) : Text := rankName (rank c) ++ suitLetter (suit c)

def soCardShow (uni : Bool) (c : Card) : Text := rankName (rank c) ++ soSuitName uni (suit c)

def soCardsShow (uni : Bool) (cards : List Card) : Text :=
  (ascii " ").intercalate (cards.map (soCardShow uni))

/-- `so_suit_parse`, `none` for -1. -/
def soSuitParse (s : Text) : Option Nat := [0, 1, 2, 3].find? fun k => s = suitLetter k ∨ s = suitMark k

def rankParse (rt : Text) : Option Nat :=
  if rt = ascii "7" then some 0
  else if rt = ascii "8" then some 1
  else if rt = ascii "9" then some 2
  else if rt = ascii "10" ∨ rt = ascii "t" then some 3
  else if rt = ascii "j" then some 4
  else if rt = ascii "q" then some 5
  else if rt = ascii "k" then some 6
  else if rt = ascii "a" then some 7
  else none

/-- `so_parse_card`, `none` for -1. -/
def soParseCard (text : Text) : Option Card :=
  let t := strLower (strTrim text)
  if t.length < 2 then none
  else
    let sl := if 128 ≤ (t.getLastD 0).toNat ∧ 4 ≤ t.length then 3 else 1
    match soSuitParse (t.drop (t.length - sl)), rankParse (t.take (t.length - sl)) with
    | some s, some k => some (Fin.ofNat 32 (s * 8 + k))
    | _, _ => none

theorem soParseCard_soCard : ∀ c : Card, soParseCard (soCard c) = some c := by decide +kernel

def soBeats (a b : Card) (trump : Nat) : Bool :=
  if suit a = suit b then rank b < rank a else suit a = trump

def bestOf (led trump : Nat) (best : Option (Nat × Card)) (i : Nat) (c : Card) : Option (Nat × Card) :=
  if suit c = led ∨ suit c = trump then
    match best with
    | none => some (i, c)
    | some (k, b) => if soBeats c b trump then some (i, c) else some (k, b)
  else best

/-- `so_trick_best`, `none` for -1. -/
def soTrickBest (cards : List Card) (led trump : Nat) : Option Nat :=
  (cards.zipIdx.foldl (fun best (c, i) => bestOf led trump best i c) none).map Prod.fst

/-! A bid is its order number: twice its place among 6 spades, 6 clubs, .., 10 no trumps, and 29
for misere; -1 is a pass, -2 no bid yet. -/

def soLevel (ord : Int) : Int := if 0 ≤ ord ∧ ord ≠ 29 then ord / 2 / 5 + 6 else 0

def soStrain (ord : Int) : Nat := if 0 ≤ ord ∧ ord ≠ 29 then (ord / 2 % 5).toNat else 4

def soBidOrd (level strain : Int) : Int := ((level - 6) * 5 + strain) * 2

def soBidName (ord : Int) : Text :=
  if ord = -1 then ascii "pass"
  else if ord = 29 then ascii "mis"
  else if 0 ≤ ord then
    soInt (soLevel ord) ++ if soStrain ord = 4 then ascii "nt" else suitLetter (soStrain ord)
  else []

def soBidShow (uni : Bool) (ord : Int) : Text :=
  if ord = -1 then ascii "pass"
  -- misère
  else if ord = 29 then if uni then ascii "mis" ++ [195, 168] ++ ascii "re" else ascii "misere"
  else if 0 ≤ ord then
    soInt (soLevel ord) ++ if soStrain ord = 4 then ascii "NT" else soSuitName uni (soStrain ord)
  else []

def passWords : List Text := [ascii "pass", ascii "p", ascii "pas", [208, 191, 208, 176, 209, 129]]

def misereWords : List Text :=
  [ascii "mis", ascii "misere", ascii "mis" ++ [195, 168] ++ ascii "re", ascii "m",
    [208, 188, 208, 184, 208, 183, 208, 181, 209, 128]]

def noTrumpWords : List Text := [ascii "nt", ascii "n", ascii "bk", [208, 177, 208, 186]]

def bidLevel (t : Text) : Option (Int × Text) :=
  if t.length < 2 then none
  else if t.take 2 = ascii "10" then some (10, t.drop 2)
  else if t.take 1 = ascii "6" then some (6, t.drop 1)
  else if t.take 1 = ascii "7" then some (7, t.drop 1)
  else if t.take 1 = ascii "8" then some (8, t.drop 1)
  else if t.take 1 = ascii "9" then some (9, t.drop 1)
  else none

def strainParse (rest : Text) : Option Nat := if noTrumpWords.contains rest then some 4 else soSuitParse rest

def soParseBid (text : Text) : Int :=
  let t := strLower (strTrim text)
  if passWords.contains t then -1
  else if misereWords.contains t then 29
  else
    (bidLevel t).elim (-3) fun bid => (strainParse bid.2).elim (-3) fun s => soBidOrd bid.1 s

theorem soParseBid_soBidName : ∀ k : Fin 25, soParseBid (soBidName (2 * k.val : Nat)) = (2 * k.val : Nat) := by
  decide +kernel

theorem soParseBid_pass : soParseBid (ascii "pass") = -1 := by decide +kernel

theorem soParseBid_mis : soParseBid (ascii "mis") = 29 := by decide +kernel

def soValue (ord : Int) : Int := if ord = 29 then 10 else (soLevel ord - 5) * 2

def soObligation (level : Int) : Int := if level = 6 then 4 else if level = 7 then 2 else 1

end Ussr.Sochi
