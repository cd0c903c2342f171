import Stok.Core.Dbl
import Stok.Engine.Events
import Stok.Engine.Scorer

/-!
# Signals and journal records (`engine/signals.hpp`)
-/

namespace Stok

inductive Tier where
  | none | watch | alert | high | halt | mover | info
  deriving Repr, DecidableEq

/-- The result of scoring a text (`engine/scorer.hpp`). -/
structure ScoreResult (F : Type) where
  textScore : Int32
  score : Int32
  catalyst : Catalyst
  flags : UInt32
  amountUsd : F
  materiality : F
  hedges : Int
  promos : Int
  specifics : Int
  matched : List UInt16

structure Signal (F : Type) where
  tier : Tier
  catalyst : Catalyst
  source : UInt16
  sym : UInt32
  scoreFlags : UInt32
  dilutionFlags : UInt32
  score : Int32
  newsId : UInt64
  tNewsRecvNs : UInt64
  tSignalNs : UInt64
  publishedNs : Int64
  price : F
  refPrice : F
  movePct : F
  rvol : F
  dollarVolume : F
  vwap : F
  bid : F
  ask : F
  spreadPct : F
  marketCap : F
  sharesOut : F
  amountUsd : F
  materiality : F
  ticker : CStr 16
  exchange : CStr 16
  haltReason : CStr 8
  why : FixedStr 192
  title : FixedStr 256
  link : FixedStr 320

structure Outcome (F : Type) where
  sym : UInt32
  horizonS : UInt32
  newsId : UInt64
  tNewsRecvNs : UInt64
  tNs : UInt64
  refPrice : F
  price : F
  movePct : F
  maxMovePct : F
  minMovePct : F
  volumeSince : F
  dollarVolumeSince : F
  score : Int32
  tierReached : Tier
  catalyst : Catalyst
  ticker : CStr 16

/-- One simulated trade, opened or closed. -/
structure PaperTrade (F : Type) where
  sym : UInt32
  tier : Tier
  catalyst : Catalyst
  closed : Bool
  quoteEntry : Bool
  quoteExit : Bool
  sizeOverTouch : Bool
  score : Int32
  newsId : UInt64
  signalNs : UInt64
  entryNs : UInt64
  exitNs : UInt64
  signalPx : F
  entryPx : F
  exitPx : F
  shares : F
  fees : F
  pnlUsd : F
  pnlPct : F
  mfePct : F
  maePct : F
  ticker : CStr 16
  exitReason : CStr 16

/-- What the journal writes of a story. -/
structure NewsRecord (F : Type) where
  news : NewsEvent F
  score : ScoreResult F
  newsSym : UInt32
  newsDilution : UInt32
  newsMarketCap : F
  newsPrice : F
  newsInUniverse : Bool
  newsDuplicate : Bool
  firstSource : UInt16
  firstSeenLagNs : Int64
  engineNs : UInt64

/-- The source's record holds one of these, by its type. -/
inductive JournalRecord (F : Type) where
  | news (r : NewsRecord F)
  | signal (s : Signal F)
  | outcome (o : Outcome F)
  | trade (t : PaperTrade F)

end Stok
