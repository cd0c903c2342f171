import Stok.Core.Dbl
import Stok.Engine.Signals
import Stok.Market.Board
import Stok.Util.Time

/-!
# Paper trading (`engine/paper.hpp`, `engine/paper.cpp`)

Signals become simulated positions: bought at the ask after a latency, sold at the bid, with
slippage on both. A reading of the board is the argument `hot`, by slot and symbol. The trades
handed to the sink of a call are returned in order. Log lines are left out.
-/

namespace Stok

open Dbl (ofRat)

namespace MarketHot

variable {F : Type} [Dbl F]

/-- A price in dollars. -/
def dollars (px : Int) : F := ofRat px / ofRat 10000

def last (h : MarketHot) : F := dollars h.lastPx

def bid (h : MarketHot) : F := dollars h.bidPx

def ask (h : MarketHot) : F := dollars h.askPx

def spreadPct (h : MarketHot) : F :=
  if h.quoteValid then ofRat (h.askPx - h.bidPx : Int) * ofRat 200 / ofRat (h.askPx + h.bidPx : Int)
  else ofRat 0

def vwap (h : MarketHot) : F :=
  if h.dayVolume = 0 then ofRat 0
  else ofRat h.notionalE4.toNat / ofRat 10000 / ofRat h.dayVolume.toNat

end MarketHot

/-- The Eastern date of a clock reading, as a day number. -/
def easternDay (now : UInt64) : Int :=
  let c := Time.easternDate now.toInt64.toInt
  Time.toInt (Time.daysFromCivil c.y c.m c.d)

def minuteOfDay (ns : UInt64) : Int := Time.easternMinuteOfDay ns.toInt64.toInt

structure PaperConfig (F : Type) [Dbl F] where
  enabled : Bool := false
  tradeAlert : Bool := true
  tradeHigh : Bool := true
  latencyMs : Int32 := 250
  slippageBps : F := ofRat 30
  positionUsd : F := ofRat 1000
  maxOpen : Int32 := 3
  maxDailyLossUsd : F := ofRat 300
  stopLossPct : F := ofRat 8
  takeProfitPct : F := ofRat 20
  trailActivatePct : F := ofRat 10
  trailPct : F := ofRat 8
  maxHoldMin : Int32 := 30
  flatByMinute : Int32 := 15 * 60 + 55
  entryTimeoutS : Int32 := 10
  maxChasePct : F := ofRat 5
  commissionPerShare : F := ofRat 0
  commissionMin : F := ofRat 0

def PaperTrade.zero {F : Type} [Dbl F] : PaperTrade F :=
  { sym := 0, tier := .none, catalyst := .none, closed := false, quoteEntry := false,
    quoteExit := false, sizeOverTouch := false, score := 0, newsId := 0, signalNs := 0,
    entryNs := 0, exitNs := 0, signalPx := ofRat 0, entryPx := ofRat 0, exitPx := ofRat 0,
    shares := ofRat 0, fees := ofRat 0, pnlUsd := ofRat 0, pnlPct := ofRat 0, mfePct := ofRat 0,
    maePct := ofRat 0, ticker := .empty pos_16, exitReason := .empty pos_16 }

namespace Paper

structure Stats (F : Type) [Dbl F] where
  signals : Nat := 0
  opened : Nat := 0
  closed : Nat := 0
  wins : Nat := 0
  losses : Nat := 0
  rejectedRisk : Nat := 0
  rejectedCapacity : Nat := 0
  rejectedDup : Nat := 0
  cancelledChase : Nat := 0
  cancelledTimeout : Nat := 0
  grossWin : F := ofRat 0
  grossLoss : F := ofRat 0
  realized : F := ofRat 0
  peak : F := ofRat 0
  maxDrawdown : F := ofRat 0
  dayRealized : F := ofRat 0

structure Pos (F : Type) [Dbl F] where
  active : Bool := false
  filled : Bool := false
  eligibleNs : UInt64 := 0
  t : PaperTrade F := .zero

/-- The statistics after a trade with the result `pnl`. -/
def Stats.close {F : Type} [Dbl F] (st : Stats F) (pnl : F) : Stats F :=
  let win := Dbl.lt (ofRat 0) pnl
  let realized := st.realized + pnl
  let peak := Dbl.max st.peak realized
  { st with
    closed := st.closed + 1
    wins := if win then st.wins + 1 else st.wins
    grossWin := if win then st.grossWin + pnl else st.grossWin
    losses := if win then st.losses else st.losses + 1
    grossLoss := if win then st.grossLoss else st.grossLoss + -pnl
    realized := realized
    dayRealized := st.dayRealized + pnl
    peak := peak
    maxDrawdown := Dbl.max st.maxDrawdown (peak - realized) }

end Paper

structure PaperTrader (F : Type) [Dbl F] where
  pos : List (Paper.Pos F)
  st : Paper.Stats F := {}
  day : Int := 0
  dayCheckedAt : UInt64 := 0

namespace PaperTrader

open Paper

variable {F : Type} [Dbl F] (cfg : PaperConfig F)

def init : PaperTrader F := { pos := List.replicate (max 1 cfg.maxOpen.toInt).toNat {} }

def fees (shares : F) : F := Dbl.max cfg.commissionMin (shares * cfg.commissionPerShare)

def openPositions (p : PaperTrader F) : Nat := (p.pos.filter (·.active)).length

/-- The date is derived anew at most once a minute. -/
def rollDay (p : PaperTrader F) (now : UInt64) : PaperTrader F :=
  if p.day ≠ 0 ∧ p.dayCheckedAt ≤ now ∧ now - p.dayCheckedAt < 60 * kNsPerSec then p
  else
    let day := easternDay now
    if day ≠ p.day then
      { p with dayCheckedAt := now, day := day, st := { p.st with dayRealized := ofRat 0 } }
    else { p with dayCheckedAt := now }

/-- The position that a signal opens. -/
def order (s : Signal F) (now : UInt64) : Pos F :=
  { active := true
    eligibleNs := now + toU64 cfg.latencyMs.toInt * 1000000
    t := { PaperTrade.zero with
      sym := s.sym
      tier := s.tier
      catalyst := s.catalyst
      score := s.score
      newsId := s.newsId
      signalNs := now
      signalPx := if Dbl.lt (ofRat 0) s.ask then s.ask else s.price
      ticker := s.ticker } }

def onSignal (p : PaperTrader F) (s : Signal F) (now : UInt64) : PaperTrader F :=
  if !((s.tier == .alert && cfg.tradeAlert) || (s.tier == .high && cfg.tradeHigh)) then p
  else
    let p := p.rollDay now
    let p := { p with st := { p.st with signals := p.st.signals + 1 } }
    if p.pos.any fun q => q.active && q.t.sym == s.sym then
      { p with st := { p.st with rejectedDup := p.st.rejectedDup + 1 } }
    else if Dbl.le p.st.dayRealized (-cfg.maxDailyLossUsd) then
      { p with st := { p.st with rejectedRisk := p.st.rejectedRisk + 1 } }
    else
      match p.pos.findIdx? fun q => !q.active with
      | none => { p with st := { p.st with rejectedCapacity := p.st.rejectedCapacity + 1 } }
      | some i => { p with pos := p.pos.set i (order cfg s now) }

/-- The fill of an order: the statistics, the position and whether it was filled. -/
def tryFill (st : Stats F) (p : Pos F) (h : MarketHot) (now : UInt64) : Stats F × Pos F × Bool :=
  let timedOut := toU64 cfg.entryTimeoutS.toInt * kNsPerSec < now - p.eligibleNs
  let quote := h.quoteValid
  let px : F := if quote then h.ask else h.last
  if h.halted ∨ Dbl.le px (ofRat 0) then
    if timedOut then
      ({ st with cancelledTimeout := st.cancelledTimeout + 1 }, { p with active := false }, false)
    else (st, p, false)
  else if Dbl.lt (ofRat 0) p.t.signalPx ∧
      Dbl.lt (p.t.signalPx * (ofRat 1 + cfg.maxChasePct / ofRat 100)) px then
    ({ st with cancelledChase := st.cancelledChase + 1 }, { p with active := false }, false)
  else
    let fill := px * (ofRat 1 + cfg.slippageBps / ofRat 10000)
    let shares := Dbl.floor (cfg.positionUsd / fill)
    if Dbl.lt shares (ofRat 1) then (st, { p with active := false }, false)
    else
      ({ st with opened := st.opened + 1 },
        { p with
          filled := true
          t := { p.t with
            entryPx := fill
            entryNs := now
            shares := shares
            quoteEntry := quote
            sizeOverTouch := quote && Dbl.lt (ofRat h.askSz.toNat) shares
            fees := fees cfg shares
            mfePct := ofRat 0
            maePct := ofRat 0
            closed := false } }, true)

/-- Why a position is left, if it is. -/
def exitReason (t : PaperTrade F) (chg : F) (now : UInt64) : Option Bytes :=
  if Dbl.le chg (-cfg.stopLossPct) then some (lit "stop")
  else if Dbl.le cfg.takeProfitPct chg then some (lit "target")
  else if Dbl.le cfg.trailActivatePct t.mfePct ∧ Dbl.le chg (t.mfePct - cfg.trailPct) then
    some (lit "trail")
  else if toU64 cfg.maxHoldMin.toInt * 60 * kNsPerSec ≤ now - t.entryNs then some (lit "time")
  else if cfg.flatByMinute.toInt ≤ minuteOfDay now ∧ minuteOfDay t.entryNs < cfg.flatByMinute.toInt then
    some (lit "flat")
  else none

/-- What a position is worth, and whether that is a quote. -/
def mark (h : MarketHot) : F := if h.quoteValid then h.bid else h.last

/-- A sale at a mark. -/
def exitPx (m : F) : F := m * (ofRat 1 - cfg.slippageBps / ofRat 10000)

/-- The position with its extremes, and the exit if there is one: reason, price, quote. -/
def checkExit (p : Pos F) (h : MarketHot) (now : UInt64) : Pos F × Option (Bytes × F × Bool) :=
  if h.halted then (p, none)
  else
    let m : F := mark h
    if Dbl.le m (ofRat 0) then (p, none)
    else
      let chg := (m - p.t.entryPx) * ofRat 100 / p.t.entryPx
      let t := { p.t with mfePct := Dbl.max p.t.mfePct chg, maePct := Dbl.min p.t.maePct chg }
      ({ p with t := t },
        (exitReason cfg t chg now).map fun reason => (reason, exitPx cfg m, h.quoteValid))

/-- The trade of a position that is left. -/
def finishTrade (t : PaperTrade F) (now : UInt64) (reason : Bytes) (px : F) (quote : Bool) :
    PaperTrade F :=
  let fees := t.fees + fees cfg t.shares
  let pnl := (px - t.entryPx) * t.shares - fees
  { t with
    exitPx := px
    exitNs := now
    quoteExit := quote
    closed := true
    fees := fees
    pnlUsd := pnl
    pnlPct := pnl * ofRat 100 / (t.entryPx * t.shares)
    exitReason := .print pos_16 reason }

def finish (st : Stats F) (p : Pos F) (now : UInt64) (reason : Bytes) (px : F) (quote : Bool) :
    Stats F × Pos F :=
  let t := finishTrade cfg p.t now reason px quote
  (st.close t.pnlUsd, { p with t := t })

/-- One position in `step`, with the trade for the sink. -/
def stepPos (st : Stats F) (p : Pos F) (h : MarketHot) (now : UInt64) :
    Stats F × Pos F × List (PaperTrade F) :=
  if !p.active then (st, p, [])
  else if !p.filled then
    if now < p.eligibleNs then (st, p, [])
    else
      match tryFill cfg st p h now with
      | (st, p, true) => (st, p, [p.t])
      | (st, p, false) => (st, p, [])
  else
    match checkExit cfg p h now with
    | (p, none) => (st, p, [])
    | (p, some (reason, px, quote)) =>
      let (st, p) := finish cfg st p now reason px quote
      (st, { p with active := false }, [p.t])

/-- One position in `close_all`. -/
def closePos (reason : Bytes) (st : Stats F) (p : Pos F) (h : MarketHot) (now : UInt64) :
    Stats F × Pos F × List (PaperTrade F) :=
  if !p.active then (st, p, [])
  else if p.filled then
    let (st, p) := finish cfg st p now reason (exitPx cfg (mark h)) h.quoteValid
    (st, { p with active := false }, [p.t])
  else (st, { p with active := false }, [])

/-- The loop over the positions from slot `i` on. -/
def walk (f : Stats F → Pos F → MarketHot → Stats F × Pos F × List (PaperTrade F))
    (hot : Nat → UInt32 → MarketHot) : Nat → Stats F → List (Pos F) →
    Stats F × List (Pos F) × List (PaperTrade F)
  | _, st, [] => (st, [], [])
  | i, st, p :: ps =>
    let (st, p, ts) := f st p (hot i p.t.sym)
    let (st, ps, ts') := walk f hot (i + 1) st ps
    (st, p :: ps, ts ++ ts')

def step (p : PaperTrader F) (now : UInt64) (hot : Nat → UInt32 → MarketHot) :
    PaperTrader F × List (PaperTrade F) :=
  let p := p.rollDay now
  let (st, pos, ts) := walk (fun st q h => stepPos cfg st q h now) hot 0 p.st p.pos
  ({ p with st := st, pos := pos }, ts)

def closeAll (p : PaperTrader F) (now : UInt64) (reason : Bytes) (hot : Nat → UInt32 → MarketHot) :
    PaperTrader F × List (PaperTrade F) :=
  let (st, pos, ts) := walk (fun st q h => closePos cfg reason st q h now) hot 0 p.st p.pos
  ({ p with st := st, pos := pos }, ts)

end PaperTrader

end Stok
