import Stok.Engine.Records
import Stok.Lib.Channel
import Stok.Lib.Interleaving

/-!
# The daemon (`app/stokd.cpp`)

The threads of `stokd` with their loops: `Engine::run`, `AlertSink::run`, `Journal::run`, and the
thread of `main`, which stops them in order. A step is one test of a stop flag, one operation on
a ring, one call of the engine, or one join. The rings are channels, the memory is sequentially
consistent. The poller and the market thread are seen at their end of the ring: they publish
anything at any time, and a full ring loses it.

A call of the engine is one step; what it offers to the alert and journal rings goes out one
record at a time, while the sinks run, before the engine moves on. The sleep at the end of a pass
is a stay at `top`, and the sleep of a sink a stay at `check`. The periodic report is left out.
-/

namespace Stok.Stokd

open Lib Engine

variable {F : Type} [Dbl F] {n : Nat}

/-- What the daemon is started with. -/
structure Setup (F : Type) [Dbl F] where
  env : Env F
  filings : FilingsHistory
  evalIntervalNs : UInt64
  moverScanMs : Int32
  newsQueue : Nat
  marketEventQueue : Nat
  alertQueue : Nat
  journalQueue : Nat

/-- `board_ ? cfg_.eval_interval_ns : kNsPerSec` -/
def Setup.evalEvery (d : Setup F) : UInt64 := if d.env.hasBoard then d.evalIntervalNs else kNsPerSec

def Setup.scanEvery (d : Setup F) : UInt64 := toU64 (max 100 d.moverScanMs).toInt * 1000000

/-- Where `Engine::run` is. -/
inductive EngineAt where
  | start
  | startScan
  | top
  | news
  /-- The story at the front of the ring has been handled, and is to be popped. -/
  | newsHandled
  | market
  | marketHandled
  | clock
  | eval (now : UInt64)
  | scan (now : UInt64)
  | shutdown
  /-- `shutdown` has been called. -/
  | closing
  | done
  deriving DecidableEq, Repr

/-- Where `AlertSink::run` or `Journal::run` is. -/
inductive SinkAt where
  /-- About to test the stop flag. -/
  | check
  | drain
  /-- The stop flag was seen: the last drain. -/
  | last
  | done
  deriving DecidableEq, Repr

/-- Where `main` is, once the threads run. -/
inductive MainAt where
  | waiting
  | joinNet
  | joinMarket
  | stopEngine
  | joinEngine
  | stopSinks
  | joinAlerts
  | joinJournal
  | finished
  deriving DecidableEq, Repr

namespace MainAt

/-- The order of the places. -/
def rank : MainAt → Nat
  | waiting => 0
  | joinNet => 1
  | joinMarket => 2
  | stopEngine => 3
  | joinEngine => 4
  | stopSinks => 5
  | joinAlerts => 6
  | joinJournal => 7
  | finished => 8

/-- `stop_producers`: `main` sets it when it has a signal. -/
def stopsProducers (m : MainAt) : Bool := decide (1 ≤ m.rank)

/-- `stop_engine` -/
def stopsEngine (m : MainAt) : Bool := decide (4 ≤ m.rank)

/-- `stop_sinks` -/
def stopsSinks (m : MainAt) : Bool := decide (6 ≤ m.rank)

end MainAt

structure State (n : Nat) (d : Setup F) where
  main : MainAt := .waiting
  netDone : Bool := false
  marketDone : Bool := false
  engineAt : EngineAt := .start
  engine : Engine F := .init d.env d.filings
  /-- The calls made on the engine. -/
  calls : List (Call F) := []
  /-- What the call under way has still to offer. -/
  toAlert : List (Signal F) := []
  toJournal : List (JournalRecord F) := []
  nextEval : UInt64 := 0
  nextScan : UInt64 := 0
  news : Channel (NewsEvent F) d.newsQueue := .empty _ _
  market : Channel (MarketEvent n) d.marketEventQueue := .empty _ _
  alerts : Channel (Signal F) d.alertQueue := .empty _ _
  journal : Channel (JournalRecord F) d.journalQueue := .empty _ _
  alertAt : SinkAt := .check
  journalAt : SinkAt := .drain

/-- What the engine thread reads in a step: its clocks and the board. -/
structure Inputs where
  mono : UInt64
  wall : UInt64
  hot : Hot

inductive Act (F : Type) [Dbl F] (n : Nat) where
  | publishNews (ev : NewsEvent F) | netReturn
  | publishMarket (ev : MarketEvent n) | marketReturn
  | engine (i : Inputs) | offerAlert | offerJournal
  | alerts | journal | main

variable {d : Setup F}

/-- A call on the engine, which comes to `next` when its records are out. -/
def State.call (s : State n d) (c : Call F) (next : EngineAt) : State n d :=
  let e := Engine.call d.env s.engine c
  { s with
    engine := e
    calls := s.calls ++ [c]
    toAlert := e.alerts.drop s.engine.alerts.length
    toJournal := e.journal.drop s.engine.journal.length
    engineAt := next }

/-- The engine thread, between calls. -/
def engineStep (s : State n d) (i : Inputs) : Option (State n d) :=
  match s.engineAt with
  | .start => some { s with nextEval := i.mono + d.evalEvery, engineAt := .startScan }
  | .startScan => some { s with nextScan := i.mono + d.scanEvery, engineAt := .top }
  | .top => some { s with engineAt := if s.main.stopsEngine then .shutdown else .news }
  | .news =>
    match s.news.items with
    | [] => some { s with engineAt := .market }
    | ev :: _ => some (s.call (.news ev i.wall i.hot) .newsHandled)
  | .newsHandled => some { s with news := s.news.take, engineAt := .news }
  | .market =>
    match s.market.items with
    | [] => some { s with engineAt := .clock }
    | ev :: _ => some (s.call (.market ev i.wall i.hot) .marketHandled)
  | .marketHandled => some { s with market := s.market.take, engineAt := .market }
  | .clock => some { s with engineAt := .eval i.mono }
  | .eval now =>
    if s.nextEval ≤ now then
      some ({ s with nextEval := now + d.evalEvery }.call (.evaluate i.wall i.hot) (.scan now))
    else some { s with engineAt := .scan now }
  | .scan now =>
    if d.env.hasBoard ∧ d.env.cfg.moversEnabled ∧ s.nextScan ≤ now then
      some ({ s with nextScan := now + d.scanEvery }.call (.scanMovers i.wall i.hot) .top)
    else some { s with engineAt := .top }
  | .shutdown => some (s.call (.shutdown i.wall i.hot) .closing)
  | .closing => some { s with engineAt := .done }
  | .done => none

/-- A sink's next place and whether it delivers a record. -/
def SinkAt.next (stop isEmpty : Bool) : SinkAt → Option (SinkAt × Bool)
  | check => some (if stop then last else drain, false)
  | drain => some (if isEmpty then check else drain, !isEmpty)
  | last => some (if isEmpty then done else last, !isEmpty)
  | done => none

def takeIf {α : Type} {cap : Nat} (c : Channel α cap) (b : Bool) : Channel α cap :=
  if b then c.take else c

/-- `main`: the signal, the joins and the stop flags, in their order. -/
def mainStep (s : State n d) : Option (State n d) :=
  match s.main with
  | .waiting => some { s with main := .joinNet }
  | .joinNet => if s.netDone then some { s with main := .joinMarket } else none
  | .joinMarket => if s.marketDone then some { s with main := .stopEngine } else none
  | .stopEngine => some { s with main := .joinEngine }
  | .joinEngine => if s.engineAt = .done then some { s with main := .stopSinks } else none
  | .stopSinks => some { s with main := .joinAlerts }
  | .joinAlerts => if s.alertAt = .done then some { s with main := .joinJournal } else none
  | .joinJournal => if s.journalAt = .done then some { s with main := .finished } else none
  | .finished => none

/-- The poller ends when it is told to; a replayed file may end the market thread before. -/
def step (d : Setup F) (s : State n d) : Act F n → Option (State n d)
  | .publishNews ev => if s.netDone then none else some { s with news := s.news.offer ev }
  | .netReturn => if s.main.stopsProducers then some { s with netDone := true } else none
  | .publishMarket ev => if s.marketDone then none else some { s with market := s.market.offer ev }
  | .marketReturn => some { s with marketDone := true }
  | .engine i => if s.toAlert.isEmpty ∧ s.toJournal.isEmpty then engineStep s i else none
  | .offerAlert =>
    match s.toAlert with
    | [] => none
    | x :: rest => some { s with alerts := s.alerts.offer x, toAlert := rest }
  | .offerJournal =>
    match s.toJournal with
    | [] => none
    | r :: rest => some { s with journal := s.journal.offer r, toJournal := rest }
  | .alerts =>
    (s.alertAt.next s.main.stopsSinks s.alerts.items.isEmpty).map fun (p, b) =>
      { s with alertAt := p, alerts := takeIf s.alerts b }
  | .journal =>
    (s.journalAt.next s.main.stopsSinks s.journal.items.isEmpty).map fun (p, b) =>
      { s with journalAt := p, journal := takeIf s.journal b }
  | .main => mainStep s

def init (n : Nat) (d : Setup F) : State n d := {}

end Stok.Stokd
