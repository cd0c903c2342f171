import Stok.Engine.Signals

/-!
# Scores

The flags of a score and the last step of scoring (`engine/scorer.cpp`): what the size of the
named amount, against the market capitalisation, adds to the score of the text.
-/

namespace Stok

open Dbl (ofRat)

def kSfOffering : UInt32 := 1 <<< (0 : UInt32)
def kSfDistress : UInt32 := 1 <<< (1 : UInt32)
def kSfSpam : UInt32 := 1 <<< (3 : UInt32)
def kSfUpTo : UInt32 := 1 <<< (6 : UInt32)

/-- `std::clamp` -/
def clamp32 (v lo hi : Int32) : Int32 := if v < lo then lo else if hi < v then hi else v

namespace ScoreResult

variable {F : Type} [Dbl F]

def zero : ScoreResult F :=
  { textScore := 0, score := 0, catalyst := .none, flags := 0, amountUsd := ofRat 0,
    materiality := ofRat 0, hedges := 0, promos := 0, specifics := 0, matched := [] }

/-- The points of a materiality. -/
def materialityPts (m : F) (upTo : Bool) : Int32 :=
  let pts : Int32 :=
    if Dbl.le (ofRat 1) m then 20
    else if Dbl.le (ofRat (3 / 10)) m then 12
    else if Dbl.le (ofRat (1 / 10)) m then 6
    else if Dbl.lt m (ofRat (2 / 100)) then -5
    else 0
  if 0 < pts ∧ upTo then pts / 2 else pts

def finalize (r : ScoreResult F) (marketCap : F) : ScoreResult F :=
  let applies := r.catalyst ≠ .offering ∧ r.catalyst ≠ .distress ∧ r.catalyst ≠ .reverseSplit ∧
    r.catalyst ≠ .mnaAcquirer ∧ r.catalyst ≠ .none ∧ r.flags &&& kSfSpam = 0
  let known := Dbl.lt (ofRat 0) marketCap && Dbl.lt (ofRat 0) r.amountUsd
  let m := if known then r.amountUsd / marketCap else ofRat 0
  let pts := if known ∧ applies then materialityPts m (r.flags &&& kSfUpTo != 0) else 0
  { r with materiality := m, score := clamp32 (r.textScore + pts) 0 100 }

end ScoreResult

end Stok
