import Stok.Engine.Engine
import Stok.Lib.FuelLoop
import Stok.Market.Bridge
import Stok.Market.ItchBook
import Stok.Market.ItchFile
import Stok.Ref.FilingsAlgebra
import Stok.Research.NewsLoader

/-!
# The backtest (`research/backtest.cpp`)

`DayRun` runs the engine on a simulated clock: `advance` makes every call that is due, the stories at
their arrival, `evaluate` on a grid of times and `scan_movers` once a second; a market message first
advances the clock to its own time and then changes the board. `Feed` is what the loops over an ITCH
file and over a tape have in common.

The loop of `advance` has fuel. It reads past the stories when the clock stands at the end of time;
that is `none`. The rings to the journal and the alert channel never fill, as they are drained after
every call; `written` is what the journal got. `log` is not in the source: it records the calls on the
engine and the market messages in the order they were made.
-/

namespace Stok

/-- `idle` -/
def Engine.idle {F : Type} [Dbl F] (e : Engine F) : Bool :=
  e.active.isEmpty && match e.paper with
    | none => true
    | some p => p.openPositions == 0

namespace Backtest

structure BacktestOptions (F : Type) [Dbl F] where
  engine : EngineConfig F := {}
  newsDelayMs : Int := 0
  evalIntervalNs : UInt64 := 10000000
  movers : Bool := false
  orderCapacity : Nat := 4194304

structure DayResult (F : Type) where
  news : Nat := 0
  marketMessages : Nat := 0
  signals : Nat := 0
  alerts : Nat := 0
  tradesClosed : Nat := 0
  pnl : F

inductive Entry (F M : Type) where
  | call (c : Engine.Call F)
  | message (m : M)

/-- The members of `DayRun` that do not change: the options, what the engine is built from, the
stories. -/
structure Setup (F : Type) [Dbl F] where
  o : BacktestOptions F
  env : Engine.Env F
  news : List (NewsEvent F)

structure DayRun (F M : Type) [Dbl F] where
  engine : Engine F
  written : List (JournalRecord F)
  res : DayResult F := { pnl := Dbl.ofRat 0 }
  ni : Nat := 0
  started : Bool := false
  nextEval : UInt64 := 0
  nextScan : UInt64 := 0
  nextDue : UInt64 := 0
  log : List (Entry F M) := []

namespace DayRun

variable {F M : Type} [Dbl F]

/-- A run on an engine whose journal has been drained. -/
def new (e : Engine F) : DayRun F M := { engine := e, written := e.journal }

/-- A record on its way to the journal. -/
def countRecord (res : DayResult F) : JournalRecord F → DayResult F
  | .signal s => { res with
      signals := res.signals + 1
      alerts := if s.tier = .alert ∨ s.tier = .high then res.alerts + 1 else res.alerts }
  | .trade t =>
    if t.closed then { res with tradesClosed := res.tradesClosed + 1, pnl := res.pnl + t.pnlUsd }
    else res
  | _ => res

def drain (r : DayRun F M) : DayRun F M :=
  let new := r.engine.journal.drop r.written.length
  { r with res := new.foldl countRecord r.res, written := r.written ++ new }

section

variable (s : Setup F)

/-- A call on the engine. -/
def make (c : Engine.Call F) (r : DayRun F M) : DayRun F M :=
  { r with engine := Engine.call s.env r.engine c, log := r.log ++ [.call c] }

/-- The arrival of the next story, the end of time if there is none. -/
def nn (r : DayRun F M) : UInt64 := (s.news[r.ni]?).elim 0xFFFFFFFFFFFFFFFF (·.recvNs)

def start (t : UInt64) (r : DayRun F M) : DayRun F M :=
  if r.started then r
  else { r with nextEval := min (r.nn s) t, nextScan := min (r.nn s) t, started := true }

/-- An idle engine has nothing to evaluate: the grid is gone through without a call. -/
def skipIdle (t : UInt64) (r : DayRun F M) : DayRun F M :=
  let target := min (r.nn s) t
  if r.engine.idle ∧ r.nextEval < target then
    let steps := (target - r.nextEval) / s.o.evalIntervalNs
    { r with nextEval := r.nextEval + steps * s.o.evalIntervalNs }
  else r

/-- The time of the next call. -/
def next (r : DayRun F M) : UInt64 :=
  let next := min (r.nn s) r.nextEval
  if s.o.movers then min next r.nextScan else next

/-- The call that is due: a story before an evaluation before a scan. -/
def callNext (hot : Engine.Hot) (r : DayRun F M) : Option (DayRun F M) :=
  if r.next s = r.nn s then
    match s.news[r.ni]? with
    | none => none
    | some ev =>
      let r := r.make s (.news ev (r.nn s) hot)
      some { r with ni := r.ni + 1, res.news := r.res.news + 1 }.drain
  else if r.next s = r.nextEval then
    some { r.make s (.evaluate r.nextEval hot) with
      nextEval := r.nextEval + s.o.evalIntervalNs }.drain
  else
    some { r.make s (.scanMovers r.nextScan hot) with nextScan := r.nextScan + kNsPerSec }.drain

/-- One round of the loop of `advance`. The source skips; `skip` is false for the loop that evaluates
at every point of the grid. -/
def round (skip : Bool) (hot : Engine.Hot) (t : UInt64) (r : DayRun F M) :
    Option (DayRun F M × Bool) :=
  let r := r.start s t
  let r := if skip then r.skipIdle s t else r
  if t < r.next s then some ({ r with nextDue := r.next s }, false)
  else (r.callNext s hot).map fun r => (r, true)

def advanceWith (skip : Bool) (fuel : Nat) (hot : Engine.Hot) (t : UInt64) (r : DayRun F M) :
    Option (DayRun F M) :=
  if t < r.nextDue then some r else Lib.fuelLoop (round s skip hot t) fuel r

/-- Runs everything scheduled at or before the time `t`. -/
abbrev advance : Nat → Engine.Hot → UInt64 → DayRun F M → Option (DayRun F M) :=
  advanceWith s true

def marketEvents {n : Nat} (hot : Engine.Hot) (evs : List (MarketEvent n)) (t : UInt64)
    (r : DayRun F M) : DayRun F M :=
  (evs.foldl (fun r ev => r.make s (.market ev t hot)) r).drain

def finishWith (skip : Bool) (fuel : Nat) (hot : Engine.Hot) (t : UInt64) (r : DayRun F M) :
    Option (DayRun F M) :=
  (advanceWith s skip fuel hot t { r with nextDue := 0 }).map fun r =>
    (r.make s (.shutdown t hot)).drain

abbrev finish : Nat → Engine.Hot → UInt64 → DayRun F M → Option (DayRun F M) := finishWith s true

end

end DayRun

/-! ## Market input -/

/-- `hot` of the board, for a symbol on it. -/
def hotOf {n : Nat} (board : MarketBoard n) : Engine.Hot := fun _ sym =>
  if h : sym.toNat < n then (board.states ⟨sym.toNat, h⟩).hot else {}

/-- Messages `M` on a market `S`: the time to which a message advances the clock, if it ticks, and what
it does to the market; `some` of the events it leaves for the engine when `market_events` is called. -/
structure Feed (M S : Type) (n : Nat) where
  tick : M → Option UInt64
  apply : S → M → S × Option (List (MarketEvent n))
  board : S → MarketBoard n

/-- The driver with its market and the last time that it advanced to. -/
structure Sim (F M S : Type) [Dbl F] where
  run : DayRun F M
  market : S
  last : UInt64

section

variable {F M S : Type} [Dbl F] {n : Nat} (s : Setup F) (feed : Feed M S n)

def onMessage (skip : Bool) (fuel : Nat) (sim : Sim F M S) (m : M) : Option (Sim F M S) :=
  match feed.tick m with
  | none =>
    let market := (feed.apply sim.market m).1
    some { sim with market := market, run.log := sim.run.log ++ [.message m] }
  | some t =>
    (sim.run.advanceWith s skip fuel (hotOf (feed.board sim.market)) t).map fun r =>
      let (market, evs) := feed.apply sim.market m
      let r := { r with log := r.log ++ [.message m] }
      let r := match evs with
        | none => r
        | some evs => r.marketEvents s (hotOf (feed.board market)) evs t
      { run := r, market := market, last := t }

def play (skip : Bool) (fuel : Nat) (ms : List M) (sim : Sim F M S) : Option (Sim F M S) :=
  ms.foldlM (onMessage s feed skip fuel) sim

/-- The messages of a day, then `finish` at `cutoff` or at the last message if that is later. -/
def replay (skip : Bool) (fuel : Nat) (cutoff : UInt64) (ms : List M) (sim : Sim F M S) :
    Option (DayRun F M) :=
  (play s feed skip fuel ms sim).bind fun sim =>
    sim.run.finishWith s skip fuel (hotOf (feed.board sim.market)) (max sim.last cutoff)

end

namespace TimedItch

variable {n : Nat}

/-- `tick`, which directory, Reg SHO and broken-trade messages do without. -/
def tick (midnight : UInt64) : Itch.Msg → Option UInt64
  | .systemEvent ts _ | .tradingAction _ ts _ _ _ | .add _ ts _ _ _ _ | .executed _ ts _ _
  | .executedPrice _ ts _ _ _ _ | .cancel _ ts _ _ | .delete _ ts _ | .replace _ ts _ _ _ _
  | .trade _ ts _ _ _ _ | .cross _ ts _ _ _ _ => some (midnight + ts)
  | .stockDirectory .. | .regSho .. | .broken .. | .unused => none

/-- The events in the ring, which is left empty. -/
def popEvents (b : ItchBook n) : ItchBook n × List (MarketEvent n) :=
  match b.events with
  | none => (b, [])
  | some (cap, q) => ({ b with events := some (cap, []) }, q)

def apply (b : ItchBook n) (m : Itch.Msg) : ItchBook n × Option (List (MarketEvent n)) :=
  let b := b.onMsg m
  match m with
  | .systemEvent .. | .tradingAction .. =>
    let (b, evs) := popEvents b
    (b, some evs)
  | _ => (b, none)

def feed (midnight : UInt64) : Feed Itch.Msg (ItchBook n) n where
  tick := tick midnight
  apply := apply
  board := ItchBook.board

end TimedItch

namespace Tape

/-- The board with the number of messages so far. -/
structure Market (n : Nat) where
  board : MarketBoard n
  messages : Nat := 0

section

variable {n : Nat}

/-- A symbol id of the bridge on the board. -/
def onBoard (sym : UInt32) : Option (Fin n) :=
  if h : sym.toNat < n then some ⟨sym.toNat, h⟩ else none

/-- A call of the bridge on the board. -/
def call (b : MarketBoard n) : Bridge.Call → MarketBoard n
  | .onTrade sym px shares ns => b.onTrade (onBoard sym) px shares ns
  | .onQuote sym bid bidSz ask askSz ns => b.onQuote (onBoard sym) bid bidSz ask askSz ns
  | .onTradingAction sym state reason => b.onTradingAction (onBoard sym) state reason
  | .onState .. => b

/-- `tape_state` -/
def state : Bridge.Call → Option (MarketEvent n)
  | .onState sym st reason ts => some
    { type := .tradingAction, state := st, reason := MarketBoard.reasonText reason,
      sym := onBoard sym, tsNs := ts }
  | _ => none

/-- The time of a line and the rest of it. -/
def split (buf : Bytes) : Option (Int × Bytes) :=
  let line := trim (cstr buf)
  match find [32] line 0 with
  | none => none
  | some sp => (parseI64 (line.take sp)).map fun ts => (ts, line.drop (sp + 1))

def apply {F : Type} [Dbl F] (symbols : SymbolTable F) (clock : Nat → Int) (m : Market n) (buf : Bytes) :
    Market n × Option (List (MarketEvent n)) :=
  match split buf with
  | none => (m, none)
  | some (ts, rest) =>
    let calls := (Bridge.handle symbols m.board.midnightNs {} rest ts (clock m.messages)).calls
    let evs := calls.filterMap state
    ({ board := calls.foldl call m.board, messages := m.messages + 1 },
      if evs.isEmpty then none else some evs)

/-- The wall clock, which a line without a time of its own reads, is `clock` at each message. -/
def feed {F : Type} [Dbl F] (symbols : SymbolTable F) (clock : Nat → Int) : Feed Bytes (Market n) n where
  tick buf := (split buf).map fun l => toU64 l.1
  apply := apply symbols clock
  board := Market.board

end

end Tape

/-! ## A day -/

/-- What a day starts from: the symbols as of the day with their index by ITCH key, the history, the
source names, and what else an engine is built from. -/
structure Inputs (F : Type) [Dbl F] where
  symbols : SymbolTable F
  findKey : UInt64 → Option (Fin symbols.size)
  filings : FilingsHistory
  sources : List Bytes
  scoreText : Bytes → Bytes → ScoreResult F
  rule : UInt16 → Scorer.Rule
  wallNs : Nat → UInt64
  clock : Nat → Int

inductive DayEnd (F : Type) where
  | badDate
  | openFailed
  /-- The result, the engine calls, the journal and the history that is kept. -/
  | done (res : DayResult F) (calls : List (Engine.Call F)) (journal : List (JournalRecord F))
      (filings : FilingsHistory)

section

variable {F M : Type} [Dbl F]

/-- The calls of a log. -/
def calls (log : List (Entry F M)) : List (Engine.Call F) :=
  log.filterMap fun
    | .call c => some c
    | .message _ => none

/-- The quote filter: the tickers with news. -/
def newsMask (n : Nat) (news : List (NewsEvent F)) : List UInt8 :=
  (List.range n).map fun i => if news.any fun ev => ev.tickers.contains (UInt32.ofNat i) then 1 else 0

variable (o : BacktestOptions F) (inp : Inputs F)

def setup (hasMarket : Bool) (news : List (NewsEvent F)) : Setup F where
  o := o
  env :=
    { cfg := { o.engine with simTime := true, moversEnabled := o.movers }
      symbols := inp.symbols
      boardSize := if hasMarket then some inp.symbols.size else none
      scoreText := inp.scoreText
      rule := inp.rule
      wallNs := inp.wallNs }
  news := news

end

end Backtest

end Stok
