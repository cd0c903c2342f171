import Stok.Engine.Score
import Stok.Engine.ScorerMatch

/-!
# The score of a text (`Scorer::score_text`)

The rules that a scan finds in the title and the body are tallied, and the tally gives the score.
The thread keeps one vector of marks for all its scorers: a mark says whether a rule has been counted
in the title (bit 0) and the body (bit 1) of the text at hand. `scoreText` takes the marks and returns
them with the result. The source's `int` and `int16_t` are integers wrapped to 32 and 16 bits.
-/

namespace Stok

open Dbl (ofRat)

def kSfReverseSplit : UInt32 := 1 <<< (2 : UInt32)
def kSfNonBinding : UInt32 := 1 <<< (4 : UInt32)
def kSfTier1 : UInt32 := 1 <<< (5 : UInt32)
def kSfPromo : UInt32 := 1 <<< (7 : UInt32)
def kSfHedged : UInt32 := 1 <<< (8 : UInt32)
def kSfNegative : UInt32 := 1 <<< (9 : UInt32)
def kSfTamAmount : UInt32 := 1 <<< (10 : UInt32)

/-- An `int`. -/
def wrap32 (v : Int) : Int := v.bmod (2 ^ 32)

/-- An `int16_t`. -/
def wrap16 (v : Int) : Int := v.bmod (2 ^ 16)

namespace Scorer

/-! ## Amounts -/

section

variable {F : Type} [Dbl F]

/-- A number while it is read. -/
structure Figure (F : Type) where
  v : F
  frac : F
  scale : F
  any : Bool
  inFrac : Bool

def nextIsDigit (t : Bytes) : Bool := t.head?.any isDigit

/-- The digits of a number, and the text after it. -/
def figure : Bytes → Figure F → Figure F × Bytes
  | [], f => (f, [])
  | c :: t, f =>
    if isDigit c then
      let d : F := ofRat (c.toNat - 48 : Nat)
      if f.inFrac then
        figure t { f with any := true, frac := f.frac + d * f.scale, scale := f.scale / ofRat 10 }
      else figure t { f with any := true, v := f.v * ofRat 10 + d }
    else if c = ch ',' ∧ !f.inFrac ∧ nextIsDigit t then figure t f
    else if c = ch '.' ∧ !f.inFrac ∧ nextIsDigit t then figure t { f with inFrac := true }
    else (f, c :: t)

def multiplier (w : Bytes) : Nat :=
  if iequals w (lit "million") ∨ iequals w (lit "mm") ∨ iequals w (lit "mln") ∨ iequals w (lit "m") then
    1000000
  else if iequals w (lit "billion") ∨ iequals w (lit "bn") ∨ iequals w (lit "b") then 1000000000
  else if iequals w (lit "thousand") ∨ iequals w (lit "k") then 1000
  else if iequals w (lit "trillion") ∨ iequals w (lit "tn") then 1000000000000
  else 1

/-- A price of a share. -/
def perShare (tail : Bytes) : Bool :=
  (ifind (tail.take 12) (lit "per ")).isSome || (ifind (tail.take 6) (lit "/sh")).isSome

/-- The size of a market. -/
def marketSize (tail : Bytes) : Bool :=
  [lit " market", lit "industry", lit "addressable", lit " tam", lit "opportunity", lit " sector"].any
    fun w => (ifind (tail.take 45) w).isSome

/-- The loop over the dollar signs from `pos` on; every turn moves `pos` forward. -/
def amountLoop (t : Bytes) : Nat → Nat → F → UInt32 → F × UInt32
  | 0, _, best, flags => (best, flags)
  | fuel + 1, pos, best, flags =>
    match find [ch '$'] t pos with
    | none => (best, flags)
    | some dollar =>
      let number := (t.drop (dollar + 1)).dropWhile (· == 32)
      let (f, rest) := figure number
        { v := ofRat 0, frac := ofRat 0, scale := ofRat (1 / 10), any := false, inFrac := false }
      if !f.any ∨ rest.length = number.length then amountLoop t fuel (dollar + 1) best flags
      else
        let word := rest.dropWhile (· == 32)
        let mult := multiplier (word.takeWhile isAlpha)
        let after := if 1 < mult then word.dropWhile isAlpha else rest
        let tail := after.take 60
        if perShare tail then amountLoop t fuel (dollar + 1) best flags
        else if marketSize tail then amountLoop t fuel (dollar + 1) best (flags ||| kSfTamAmount)
        else
          let before := (t.take dollar).drop (dollar - 12)
          let flags := if (ifind before (lit "up to")).isSome then flags ||| kSfUpTo else flags
          amountLoop t fuel (t.length - after.length)
            (Dbl.max best ((f.v + f.frac) * ofRat mult)) flags

/-- The largest dollar amount of a text, and the flags with those of its amounts. -/
def extractAmount (t : Bytes) (flags : UInt32) : F × UInt32 :=
  amountLoop t (t.length + 1) 0 (ofRat 0) flags

end

/-! ## The tally -/

structure Tally where
  bestCatW : Int := 0
  bestCat : Catalyst := .none
  spec : Int := 0
  hedge : Int := 0
  promo : Int := 0
  tier1 : Int := 0
  nonbinding : Int := 0
  neg : Int := 0
  flags : UInt32 := 0
  specifics : Int := 0
  hedges : Int := 0
  promos : Int := 0
  matched : List UInt16 := []
  deriving DecidableEq, Repr

/-- What a rule that is found adds. -/
def Tally.count (t : Tally) (rule : Rule) (inTitle firstTime : Bool) : Tally :=
  match rule.kind with
  | .cat =>
    let w := wrap32 (rule.weight + if inTitle then 5 else 0)
    if t.bestCatW < w then { t with bestCatW := w, bestCat := rule.cat } else t
  | .spec =>
    if firstTime then
      { t with spec := wrap32 (t.spec + rule.weight), specifics := wrap16 (t.specifics + 1) }
    else t
  | .hedge =>
    if firstTime then
      { t with
        hedge := wrap32 (t.hedge + rule.weight)
        hedges := wrap16 (t.hedges + 1)
        flags := t.flags ||| kSfHedged }
    else t
  | .promo =>
    if firstTime then
      { t with
        promo := wrap32 (t.promo + rule.weight)
        promos := wrap16 (t.promos + 1)
        flags := t.flags ||| kSfPromo }
    else t
  | .tier1 => { t with tier1 := max t.tier1 rule.weight, flags := t.flags ||| kSfTier1 }
  | .nonBinding =>
    { t with nonbinding := min t.nonbinding rule.weight, flags := t.flags ||| kSfNonBinding }
  | .dilution => { t with flags := t.flags ||| kSfOffering }
  | .distress => { t with flags := t.flags ||| kSfDistress }
  | .rsplit => { t with flags := t.flags ||| kSfReverseSplit }
  | .spam => { t with flags := t.flags ||| kSfSpam }
  | .neg =>
    if firstTime then
      { t with neg := wrap32 (t.neg + rule.weight), flags := t.flags ||| kSfNegative }
    else t

/-- `rules_[id]` -/
def rule (sc : Scorer) (id : UInt16) : Rule := sc.rules.getD id.toNat ⟨[], [], 0, .cat, .none⟩

def consider (sc : Scorer) (inTitle : Bool) (s : Tally × List UInt8) (id : UInt16) :
    Tally × List UInt8 :=
  let bit : UInt8 := if inTitle then 1 else 2
  let mark := s.2.getD id.toNat 0
  if mark &&& bit ≠ 0 then s
  else
    let firstTime := mark == 0
    let t := if firstTime ∧ s.1.matched.length < 12 then { s.1 with matched := s.1.matched ++ [id] }
      else s.1
    (t.count (sc.rule id) inTitle firstTime, s.2.set id.toNat (mark ||| bit))

/-- The sum of a tally, before it is clamped, and the catalyst. -/
def Tally.total (t : Tally) : Int × Catalyst :=
  let s := t.bestCatW + min t.spec 15 + t.tier1 + max t.hedge (-15) + max t.promo (-15) +
    t.nonbinding + max t.neg (-30)
  let cat := t.bestCat
  let (s, cat) := if t.flags &&& kSfReverseSplit ≠ 0 then
      (s - 20, if t.bestCatW < 40 then .reverseSplit else cat)
    else (s, cat)
  let (s, cat) := if t.flags &&& kSfDistress ≠ 0 then
      (s - 25, if t.bestCatW < 40 then .distress else cat)
    else (s, cat)
  let (s, cat) := if t.flags &&& kSfOffering ≠ 0 then (min (wrap32 s) 15, .offering) else (wrap32 s, cat)
  (if t.flags &&& kSfSpam ≠ 0 then 0 else s, cat)

/-- The score of a text, and the marks as the call leaves them. -/
def scoreText {F : Type} [Dbl F] (sc : Scorer) (seen : List UInt8) (title body : Bytes) :
    ScoreResult F × List UInt8 :=
  let hitsTitle := sc.scan title []
  let hitsBody := sc.scan body []
  let seen := if seen.length < sc.rules.length then List.replicate sc.rules.length 0 else seen
  let (t, seen) := hitsTitle.foldl (consider sc true) ({}, seen)
  let (t, seen) := hitsBody.foldl (consider sc false) (t, seen)
  let seen := hitsTitle.foldl (fun seen id => seen.set id.toNat 0) seen
  let seen := hitsBody.foldl (fun seen id => seen.set id.toNat 0) seen
  let (s, cat) := t.total
  let (aTitle, amtFlags) := extractAmount (F := F) title 0
  let (aBody, amtFlags) := extractAmount (F := F) (body.take 1500) amtFlags
  let score := clamp32 (.ofInt s) 0 100
  ({ textScore := score
     score := score
     catalyst := cat
     flags := t.flags ||| amtFlags
     amountUsd := Dbl.max aTitle aBody
     materiality := ofRat 0
     hedges := t.hedges
     promos := t.promos
     specifics := t.specifics
     matched := t.matched }, seen)

end Scorer

end Stok
