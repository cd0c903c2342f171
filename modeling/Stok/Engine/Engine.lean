import Stok.Core.FlatMapRefine
import Stok.Engine.Paper
import Stok.Engine.Score
import Stok.Feeds.Parsers
import Stok.Lib.SwapRemove
import Stok.Market.Board
import Stok.Ref.Filings
import Stok.Ref.Symbols
import Stok.Sink.Journal

/-!
# The engine (`engine/engine.hpp`, `engine/engine.cpp`)

The decision core. `Env` is what an engine is built from; `scoreText` stands for the scorer's
`score_text`. `Engine` is its state with the records it has offered to the journal and the signals
it has offered to the alert channel; a full ring, which loses one, is not modelled, nor are the
latency histograms and the counters of the report. A call reads the board through `hot`: the
board may change while a call runs, so a reading depends on the place in the call, its `Site`.

`Watch.life` and `Trace` are not state of the source. Every activation of a slot begins a new
life; the trace records what was emitted, the activations, and the walks of `evaluate`.
-/

namespace Stok

open Dbl (ofRat)

def kItem101 : UInt32 := 1 <<< (0 : UInt32)
def kItem103 : UInt32 := 1 <<< (2 : UInt32)
def kItem202 : UInt32 := 1 <<< (6 : UInt32)
def kItem402 : UInt32 := 1 <<< (15 : UInt32)
def kItem501 : UInt32 := 1 <<< (16 : UInt32)
def kItem701 : UInt32 := 1 <<< (29 : UInt32)
def kItem801 : UInt32 := 1 <<< (30 : UInt32)

/-- The order of the enumeration. -/
def Tier.rank : Tier → Nat
  | .none => 0
  | .watch => 1
  | .alert => 2
  | .high => 3
  | .halt => 4
  | .mover => 5
  | .info => 6

structure EngineConfig (F : Type) [Dbl F] where
  minPrice : F := ofRat (1 / 2)
  maxPrice : F := ofRat 10
  maxMarketCap : F := ofRat 500000000
  listedOnly : Bool := true
  allowUnknownPrice : Bool := true
  watchScore : Int32 := 55
  highScore : Int32 := 75
  alertMovePct : F := ofRat 8
  alertRvol : F := ofRat 5
  alertDollarVolume : F := ofRat 300000
  alertMaxSpreadPct : F := ofRat 3
  highMaxShares : F := ofRat 30000000
  highRequireAboveVwap : Bool := true
  watchWindowS : Int32 := 90 * 60
  cooldownS : Int32 := 30 * 60
  pushWatch : Bool := false
  moversEnabled : Bool := true
  moverMovePct : F := ofRat 25
  moverRvol : F := ofRat 8
  moverDollarVolume : F := ofRat 1000000
  haltAlerts : Int32 := 1
  simTime : Bool := false
  dilution : DilutionPolicy := {}
  outcomeHorizonsS : List Int32 := [60, 300, 900, 1800, 3600]
  paper : PaperConfig F := {}

namespace Engine

/-- The size of the watch table. -/
def kSlots : Nat := 1024

abbrev SlotId := Fin kSlots

instance : Inhabited SlotId := ⟨⟨0, by decide⟩⟩

/-- A place in a call where the board is read. -/
inductive Site where
  /-- The ticker `i` of a story, and the signal emitted for it. -/
  | news (i : Nat)
  | newsSignal (i : Nat)
  | halt (i : Nat)
  | haltSignal (i : Nat)
  /-- The active entry `k`. -/
  | eval (k : Nat)
  | evalSignal (k : Nat)
  | mover (sym : Nat)
  | moverSignal (sym : Nat)
  | paper (i : Nat)
  deriving DecidableEq, Repr

abbrev Hot := Site → UInt32 → MarketHot

structure Watch (F : Type) where
  active : Bool
  tier : Tier
  sym : UInt32
  source : UInt16
  score : Int32
  catalyst : Catalyst
  scoreFlags : UInt32
  dilutionFlags : UInt32
  newsId : UInt64
  tNews : UInt64
  publishedNs : Int64
  refPx : Int
  volAtNews : UInt64
  notionalAtNews : UInt64
  maxMove : F
  minMove : F
  amountUsd : F
  materiality : F
  marketCap : F
  horizonsDone : UInt32
  why : FixedStr 192
  title : FixedStr 256
  link : FixedStr 320
  life : Nat

def Watch.fresh {F : Type} [Dbl F] : Watch F :=
  { active := false, tier := .none, sym := 0, source := 0, score := 0, catalyst := .none,
    scoreFlags := 0, dilutionFlags := 0, newsId := 0, tNews := 0, publishedNs := 0, refPx := 0,
    volAtNews := 0, notionalAtNews := 0, maxMove := ofRat 0, minMove := ofRat 0,
    amountUsd := ofRat 0, materiality := ofRat 0, marketCap := ofRat 0, horizonsDone := 0,
    why := .empty pos_192, title := .empty pos_256, link := .empty pos_320, life := 0 }

structure FirstSeen where
  source : UInt16
  recvNs : UInt64
  deriving Inhabited

structure HaltSeen where
  state : UInt8
  t : UInt64
  deriving Inhabited

/-- A signal with the life of its watch (0 for none), the time of the call, the day number that
`today_days` last returned, and whether the ticker had an active watch. -/
structure Emission (F : Type) where
  life : Nat
  now : UInt64
  day : Int
  watched : Bool
  signal : Signal F

/-- An activation: the symbols and news times of the active watches before it and after, and
whether no slot was free. -/
structure Activation where
  sym : UInt32
  full : Bool
  before : List (UInt32 × UInt64)
  after : List (UInt32 × UInt64)

/-- A walk of `evaluate`: the active slots with the news times of their watches, before and
after, and the slots in the order they were examined. -/
structure Walk where
  now : UInt64
  before : List (SlotId × UInt64)
  examined : List SlotId
  after : List SlotId

structure Trace (F : Type) where
  lives : Nat := 0
  emitted : List (Emission F) := []
  activations : List Activation := []
  walks : List Walk := []

structure Env (F : Type) [Dbl F] where
  cfg : EngineConfig F
  symbols : SymbolTable F
  /-- The size of the board, `none` for an engine without one. -/
  boardSize : Option Nat
  scoreText : Bytes → Bytes → ScoreResult F
  rule : UInt16 → Scorer.Rule
  /-- The clock reading at the `n`th signal. -/
  wallNs : Nat → UInt64

namespace Env

variable {F : Type} [Dbl F] (env : Env F)

/-- `symbols_[sym]`, for a symbol of the table. -/
def info (sym : UInt32) : SymbolInfo F :=
  (env.symbols.get? sym).getD
    { ticker := [], name := [], exchange := .unknown, financialStatus := 0, etf := false,
      testIssue := false, cik := 0, sharesOutstanding := ofRat 0, prevClose := ofRat 0,
      adv20 := ofRat 0 }

def hasBoard : Bool := env.boardSize.isSome

/-- `board_ ? board_->hot(sym) : MarketHot{}` -/
def look (hot : Hot) (site : Site) (sym : UInt32) : MarketHot :=
  if env.hasBoard then hot site sym else {}

def universeStatic (sym : UInt32) : Bool :=
  match env.symbols.get? sym with
  | none => false
  | some s =>
    !s.etf && !s.testIssue && !s.isDerivativeSecurity &&
      (!env.cfg.listedOnly || s.exchange.isExchangeListed)

/-- Whether the symbol is in the universe at a price, and its market capitalisation. -/
def inUniverse (sym : UInt32) (price : F) : Bool × F :=
  if !env.universeStatic sym then (false, ofRat 0)
  else
    let s := env.info sym
    let priced := Dbl.lt (ofRat 0) price
    if priced ∧ (Dbl.lt price env.cfg.minPrice ∨ Dbl.lt env.cfg.maxPrice price) then
      (false, ofRat 0)
    else if !priced ∧ !env.cfg.allowUnknownPrice then (false, ofRat 0)
    else
      let mcap := if Dbl.lt (ofRat 0) s.sharesOutstanding ∧ priced then s.sharesOutstanding * price
        else ofRat 0
      (!(Dbl.lt (ofRat 0) mcap && Dbl.lt env.cfg.maxMarketCap mcap), mcap)

end Env

/-- The cumulative share of the volume of the regular session, at 30-minute marks. -/
def kRth : List ℚ :=
  [0, 13 / 100, 22 / 100, 29 / 100, 35 / 100, 40 / 100, 45 / 100, 49 / 100, 53 / 100, 58 / 100,
    63 / 100, 69 / 100, 78 / 100, 1]

def expectedVolumeFraction {F : Type} [Dbl F] (minute : Int) : F :=
  let kPre : Int := 4 * 60
  let kOpen : Int := 9 * 60 + 30
  let kClose : Int := 16 * 60
  let kPost : Int := 20 * 60
  if minute < kPre then ofRat 0
  else if minute < kOpen then
    ofRat (4 / 100) * ofRat (minute - kPre : Int) / ofRat (kOpen - kPre : Int)
  else if minute < kClose then
    let x : F := ofRat (minute - kOpen : Int) / ofRat 30
    let i := min 12 (Dbl.trunc x).toNat
    let a : F := ofRat (kRth.getD i 0)
    let b : F := ofRat (kRth.getD (i + 1) 0)
    ofRat (4 / 100) + ofRat (92 / 100) * (a + (b - a) * (x - ofRat i))
  else if minute < kPost then
    ofRat (96 / 100) + ofRat (4 / 100) * ofRat (minute - kClose : Int) / ofRat (kPost - kClose : Int)
  else ofRat 1

end Engine

open Engine

structure Engine (F : Type) [Dbl F] where
  watch : SlotId → Watch F
  active : List SlotId
  /-- The last slot freed comes first. -/
  free : List SlotId
  watchBySym : Table SlotId
  paper : Option (PaperTrader F)
  firstSeen : Table FirstSeen
  lastNewsBySym : Table UInt64
  moverAlerted : Table UInt64
  lastTierNs : Table UInt64
  haltSeen : Table HaltSeen
  filings : FilingsHistory
  cachedDay : Int := 0
  cachedDayUntil : UInt64 := 0
  alerts : List (Signal F) := []
  journal : List (JournalRecord F) := []
  trace : Trace F := {}

namespace Engine

variable {F : Type} [Dbl F] (env : Env F)

/-- A table of the default load. -/
def table {V : Type} [Inhabited V] (cap : Nat) : Table V :=
  .new cap defaultLoad FlatMap64.defaultLoad_bounds

def init (filings : FilingsHistory) : Engine F where
  watch _ := .fresh
  active := []
  free := List.finRange kSlots
  watchBySym := table 256
  paper := if env.cfg.paper.enabled ∧ env.hasBoard then some (.init env.cfg.paper) else none
  firstSeen := table 8192
  lastNewsBySym := table 1024
  moverAlerted := table 256
  lastTierNs := table 256
  haltSeen := table 256
  filings := filings

def todayDays (e : Engine F) (now : UInt64) : Engine F :=
  if e.cachedDayUntil ≤ now ∨ e.cachedDay = 0 then
    { e with cachedDay := easternDay now, cachedDayUntil := now + 60 * kNsPerSec }
  else e

def rvolOf (sym : UInt32) (dayVolume now : UInt64) : F :=
  let adv := (env.info sym).adv20
  if Dbl.le adv (ofRat 0) then ofRat 0
  else
    let frac := expectedVolumeFraction (minuteOfDay now)
    let expected := Dbl.max (adv * frac) (adv * ofRat (2 / 1000))
    ofRat dayVolume.toNat / expected

def softPenaltyFlags : UInt32 :=
  kFlagShelf ||| kFlagS1Pending ||| kFlagReverseSplitRisk ||| kFlagDeficiency ||| kFlagLateFiler |||
    kFlagReverseSplitDone

def tierKey (sym : UInt32) (t : Tier) : UInt64 := sym.toUInt64 <<< 3 ||| .ofNat t.rank

/-- Whether the ticker may produce the tier now; the time is recorded if so. -/
def cooledDown (e : Engine F) (sym : UInt32) (t : Tier) (now : UInt64) : Engine F × Bool :=
  let key := tierKey sym t
  let (tab, last, inserted) := e.lastTierNs.tryEmplace key
  if !inserted ∧ now - last < toU64 env.cfg.cooldownS.toInt * kNsPerSec then
    ({ e with lastTierNs := tab }, false)
  else ({ e with lastTierNs := tab.modify key fun _ => now }, true)

/-! ## The watch table -/

def findWatch (e : Engine F) (sym : UInt32) : Option SlotId := e.watchBySym.find sym.toUInt64

def setWatch (e : Engine F) (i : SlotId) (w : Watch F) : Engine F :=
  { e with watch := Function.update e.watch i w }

def deactivateWatch (e : Engine F) (pos : Nat) : Engine F :=
  match e.active[pos]? with
  | none => e
  | some idx =>
    { e.setWatch idx { e.watch idx with active := false } with
      watchBySym := e.watchBySym.erase (e.watch idx).sym.toUInt64
      active := Lib.swapRemove e.active pos idx
      free := idx :: e.free }

/-- The position of the oldest story: the loop over positions from `k` on. -/
def oldestFrom (e : Engine F) : Nat → Nat → List SlotId → Nat
  | oldest, _, [] => oldest
  | oldest, k, i :: rest =>
    let best := (e.watch (e.active.getD oldest i)).tNews
    oldestFrom e (if (e.watch i).tNews < best then k else oldest) (k + 1) rest

def oldest (e : Engine F) : Nat := e.oldestFrom 0 1 e.active.tail

/-- The symbols and news times of the active watches. -/
def stories (e : Engine F) : List (UInt32 × UInt64) :=
  e.active.map fun i => ((e.watch i).sym, (e.watch i).tNews)

/-- Takes a free slot, evicting the oldest story if there is none. -/
def activateWatch (e : Engine F) (sym : UInt32) : Engine F × SlotId :=
  let full := e.free.isEmpty
  let before := e.stories
  let e := if full then e.deactivateWatch e.oldest else e
  let idx := e.free.headD default
  let life := e.trace.lives + 1
  let e := { e.setWatch idx { Watch.fresh with active := true, sym := sym, life := life } with
    free := e.free.tail
    active := e.active ++ [idx]
    watchBySym := e.watchBySym.insertOrAssign sym.toUInt64 idx }
  let act : Activation := { sym := sym, full := full, before := before, after := e.stories }
  ({ e with trace := { e.trace with
      lives := life, activations := e.trace.activations ++ [act] } }, idx)

/-! ## Signals -/

/-- `snprintf` of a text into a buffer of `n` bytes. -/
def printed (n : Nat) (s : Bytes) : Bytes := s.take (n - 1)

/-- The phrases that `build_why` shows, at most three. -/
def whyRules (text : Bytes) : Nat → List UInt16 → Bytes
  | _, [] => text
  | shown, id :: ids =>
    if 3 ≤ shown ∨ 192 - 8 ≤ text.length then text
    else
      let rule := env.rule id
      if rule.kindStr = lit "hedge" ∨ rule.kindStr = lit "promo" then whyRules text shown ids
      else
        whyRules (text ++ (if shown = 0 then lit " | " else lit ", ") ++ cstr rule.phrase)
          (shown + 1) ids

def buildWhy (r : ScoreResult F) (mcap : F) : FixedStr 192 :=
  let text := whyRules env (catalystName r.catalyst) 0 r.matched
  let text :=
    if Dbl.lt (ofRat 0) r.amountUsd ∧ text.length < 192 - 32 then
      if Dbl.lt (ofRat 0) mcap then
        text ++ lit " | $" ++ Dbl.fixed 1 (r.amountUsd / ofRat 1000000) ++ lit "M = " ++
          Dbl.fixed 2 (r.amountUsd / mcap) ++ lit "x mcap"
      else text ++ lit " | $" ++ Dbl.fixed 1 (r.amountUsd / ofRat 1000000) ++ lit "M"
    else text
  let text :=
    if (r.hedges ≠ 0 ∨ r.promos ≠ 0) ∧ text.length < 192 - 24 then
      text ++ lit " | hedge " ++ Dbl.intText r.hedges ++ lit " promo " ++ Dbl.intText r.promos
    else text
  .assign pos_192 (printed 192 text)

/-- The dollars traded since the news. -/
def dollarsSince (h : MarketHot) (atNews : UInt64) : F :=
  ofRat (h.notionalE4 - min h.notionalE4 atNews).toNat / ofRat 10000

/-- The percentage from one price to another. -/
def movePct (px ref : Int) : F := ofRat (px - ref : Int) * ofRat 100 / ofRat ref

/-- The signal of a watch, from a reading `h` of the board. -/
def signalOf (e : Engine F) (w : Watch F) (tier : Tier) (now : UInt64) (h : MarketHot)
    (haltReason : Bytes) : Signal F :=
  let info := env.info w.sym
  let price := if env.hasBoard then h.last else info.prevClose
  let known := env.hasBoard && h.quoteValid
  { tier := tier
    catalyst := w.catalyst
    source := w.source
    sym := w.sym
    scoreFlags := w.scoreFlags
    dilutionFlags := w.dilutionFlags
    score := w.score
    newsId := w.newsId
    tNewsRecvNs := w.tNews
    tSignalNs := if env.cfg.simTime then now else env.wallNs e.trace.emitted.length
    publishedNs := w.publishedNs
    price := price
    refPrice := if env.hasBoard then MarketHot.dollars w.refPx else ofRat 0
    movePct := if env.hasBoard ∧ 0 < w.refPx ∧ 0 < h.lastPx then movePct h.lastPx w.refPx else ofRat 0
    rvol := if env.hasBoard then rvolOf env w.sym h.dayVolume now else ofRat 0
    dollarVolume := if env.hasBoard then dollarsSince h w.notionalAtNews else ofRat 0
    vwap := if env.hasBoard then h.vwap else ofRat 0
    bid := if known then h.bid else ofRat 0
    ask := if known then h.ask else ofRat 0
    spreadPct := if known then h.spreadPct else ofRat 0
    marketCap :=
      if env.hasBoard ∧ Dbl.le w.marketCap (ofRat 0) ∧ Dbl.lt (ofRat 0) info.sharesOutstanding ∧
          Dbl.lt (ofRat 0) price then
        info.sharesOutstanding * price
      else w.marketCap
    sharesOut := info.sharesOutstanding
    amountUsd := w.amountUsd
    materiality := w.materiality
    ticker := .print pos_16 info.ticker
    exchange := .print pos_16 info.exchange.name
    haltReason := .print pos_8 haltReason
    why := w.why
    title := w.title
    link := w.link }

def emit (e : Engine F) (w : Watch F) (tier : Tier) (now : UInt64) (h : MarketHot)
    (haltReason : Bytes := []) : Engine F :=
  let s := signalOf env e w tier now h haltReason
  { e with
    paper := if tier = .alert ∨ tier = .high then e.paper.map (·.onSignal env.cfg.paper s now)
      else e.paper
    alerts := if tier ≠ .watch ∨ env.cfg.pushWatch then e.alerts ++ [s] else e.alerts
    journal := e.journal ++ [.signal s]
    trace := { e.trace with
      emitted := e.trace.emitted ++ [{
        life := w.life
        now := now
        day := e.cachedDay
        watched := e.active.any fun i => (e.watch i).sym == w.sym
        signal := s }] } }

/-- Emits a tier that has cooled down. -/
def emitCooled (e : Engine F) (w : Watch F) (tier : Tier) (now : UInt64) (h : MarketHot) : Engine F :=
  match cooledDown env e w.sym tier now with
  | (e, true) => emit env e w tier now h
  | (e, false) => e

def write (e : Engine F) (rs : List (JournalRecord F)) : Engine F :=
  { e with journal := e.journal ++ rs }

/-! ## Evaluation -/

/-- The horizons that a watch of an age has reached since it was last seen: the bits of those done
and the horizons, from bit `k` on. -/
def horizons (age : UInt64) : Nat → UInt32 → List Int32 → UInt32 × List Int32
  | _, done, [] => (done, [])
  | k, done, h :: hs =>
    if 32 ≤ k then (done, [])
    else if !hasBit done k ∧ toU64 h.toInt * kNsPerSec ≤ age then
      let (done, due) := horizons age (k + 1) (done ||| 1 <<< UInt32.ofNat k) hs
      (done, h :: due)
    else horizons age (k + 1) done hs

def outcomeOf (w : Watch F) (horizonS : Int32) (now : UInt64) (h : MarketHot) (move : F) :
    Outcome F :=
  { sym := w.sym
    horizonS := horizonS.toUInt32
    newsId := w.newsId
    tNewsRecvNs := w.tNews
    tNs := now
    refPrice := MarketHot.dollars w.refPx
    price := h.last
    movePct := move
    maxMovePct := w.maxMove
    minMovePct := w.minMove
    volumeSince := ofRat (h.dayVolume - min h.dayVolume w.volAtNews).toNat
    dollarVolumeSince := dollarsSince h w.notionalAtNews
    score := w.score
    tierReached := w.tier
    catalyst := w.catalyst
    ticker := .print pos_16 (env.info w.sym).ticker }

def ageOf (now tNews : UInt64) : UInt64 := if tNews < now then now - tNews else 0

def windowNs : UInt64 := toU64 env.cfg.watchWindowS.toInt * kNsPerSec

/-- Whether the price confirms the story. -/
def confirmed (w : Watch F) (now : UInt64) (h : MarketHot) (move : F) : Bool :=
  let rvol := rvolOf env w.sym h.dayVolume now
  let rvolOk := Dbl.le rvol (ofRat 0) || Dbl.le env.cfg.alertRvol rvol
  let spreadOk := Dbl.le env.cfg.alertMaxSpreadPct (ofRat 0) || !h.quoteValid ||
    Dbl.le h.spreadPct env.cfg.alertMaxSpreadPct
  Dbl.le env.cfg.alertMovePct move &&
    Dbl.le env.cfg.alertDollarVolume (dollarsSince h w.notionalAtNews) && rvolOk && spreadOk &&
    !h.halted

def isHigh (w : Watch F) (h : MarketHot) : Bool :=
  let shares := (env.info w.sym).sharesOutstanding
  decide (env.cfg.highScore ≤ w.score) && Dbl.lt (ofRat 0) shares &&
    Dbl.le shares env.cfg.highMaxShares && w.dilutionFlags &&& softPenaltyFlags == 0 &&
    (!env.cfg.highRequireAboveVwap || Dbl.le (h.vwap : F) h.last)

/-- A look at a watch: the watch, the outcomes due, and the tier it rises to, if it does. -/
def lookAt (w : Watch F) (now : UInt64) (h : MarketHot) :
    Watch F × List (JournalRecord F) × Option Tier :=
  if h.lastPx ≤ 0 then (w, [], none)
  else
    let w := if w.refPx ≤ 0 then { w with refPx := h.lastPx } else w
    let move : F := movePct h.lastPx w.refPx
    let w := { w with maxMove := Dbl.max w.maxMove move, minMove := Dbl.min w.minMove move }
    let (done, due) := horizons (ageOf now w.tNews) 0 w.horizonsDone env.cfg.outcomeHorizonsS
    let w := { w with horizonsDone := done }
    let outs := due.map fun s => .outcome (outcomeOf env w s now h move)
    if Tier.high.rank ≤ w.tier.rank ∨ !confirmed env w now h move then (w, outs, none)
    else
      let t := if isHigh env w h then .high else .alert
      if w.tier.rank < t.rank then ({ w with tier := t }, outs, some t) else (w, outs, none)

/-- The turn of the walk at position `k`. -/
def evalAt (now : UInt64) (hot : Hot) (e : Engine F) (k : Nat) : Engine F :=
  match e.active[k]? with
  | none => e
  | some i =>
    if windowNs env < ageOf now (e.watch i).tNews then e.deactivateWatch k
    else if !env.hasBoard then e
    else
      match lookAt env (e.watch i) now (hot (.eval k) (e.watch i).sym) with
      | (w, outs, none) => (e.setWatch i w).write outs
      | (w, outs, some t) =>
        emitCooled env ((e.setWatch i w).write outs) w t now (hot (.evalSignal k) w.sym)

/-- The walk over the positions below `k`, downwards, with the slots it examines. -/
def evalLoop (now : UInt64) (hot : Hot) : Nat → Engine F → Engine F × List SlotId :=
  Lib.walkBack Engine.active (evalAt env now hot)

def paperStep (e : Engine F) (now : UInt64) (hot : Hot) : Engine F :=
  match e.paper with
  | none => e
  | some p =>
    let (p, ts) := p.step env.cfg.paper now fun i => hot (.paper i)
    { e with paper := some p }.write (ts.map .trade)

def evaluate (e : Engine F) (now : UInt64) (hot : Hot) : Engine F :=
  let before := e.active.map fun i => (i, (e.watch i).tNews)
  let (e, seen) := evalLoop env now hot e.active.length e
  let walk : Walk := { now := now, before := before, examined := seen, after := e.active }
  paperStep env { e with trace := { e.trace with walks := e.trace.walks ++ [walk] } } now hot

/-! ## Halts -/

def haltTitle (sym : UInt32) (halted : Bool) (reason title : Bytes) : Bytes :=
  if title.isEmpty then
    (if halted then lit "HALT " else lit "RESUME ") ++ cstr (env.info sym).ticker ++ lit " (" ++
      (if reason.isEmpty then lit "-: trading state change"
        else reason ++ lit ": " ++ Parsers.haltReasonDesc reason) ++ lit ") from the market-data feed"
  else title

def haltState (halted : Bool) : UInt8 := if halted then ch 'H' else ch 'T'

/-- Records a transition, unless the other source has reported it already. -/
def noteHalt (e : Engine F) (sym : UInt32) (halted : Bool) (now : UInt64) : Engine F × Bool :=
  let (tab, hs, inserted) := e.haltSeen.tryEmplace sym.toUInt64
  if !inserted ∧ hs.state = haltState halted ∧ now - hs.t < 120 * kNsPerSec then
    ({ e with haltSeen := tab }, false)
  else
    let seen : HaltSeen := { state := haltState halted, t := now }
    ({ e with haltSeen := tab.modify sym.toUInt64 fun _ => seen }, true)

def haltAlert (e : Engine F) (sym : UInt32) (h : MarketHot) : Bool :=
  if env.cfg.haltAlerts = 2 then
    (env.inUniverse sym (if 0 < h.lastPx then h.last else (env.info sym).prevClose)).1
  else env.cfg.haltAlerts = 1 ∧ (e.findWatch sym).isSome

/-- The watch that a halt is reported with. -/
def haltWatch (e : Engine F) (sym : UInt32) (halted : Bool) (reason title : Bytes) (now : UInt64) :
    Watch F :=
  let w := (e.findWatch sym).map e.watch
  { w.getD { Watch.fresh with sym := sym, tNews := now } with
    title := .assign pos_256 (printed 256 (haltTitle env sym halted reason title))
    why := .assign pos_192 ((if halted then lit "halted" else lit "resumed") ++
      if w.isSome then lit " | on watchlist" else []) }

/-- `reason` and `title` are C strings; an empty title is none. -/
def handleHalt (e : Engine F) (sym : UInt32) (halted : Bool) (reason : Bytes) (now : UInt64)
    (title : Bytes) (hot : Hot) (i : Nat) : Engine F :=
  if env.symbols.size ≤ sym.toNat then e
  else
    match e.noteHalt sym halted now with
    | (e, false) => e
    | (e, true) =>
      if !haltAlert env e sym (env.look hot (.halt i) sym) then e
      else
        emit env e (haltWatch env e sym halted reason title now) .halt now (hot (.haltSignal i) sym)
          reason

def onMarketEvent {n : Nat} (e : Engine F) (ev : MarketEvent n) (now : UInt64) (hot : Hot) :
    Engine F :=
  match ev.type with
  | .tradingAction =>
    let sym := match ev.sym with
      | some s => .ofNat s
      | none => SymbolTable.kInvalid
    handleHalt env e sym (ev.state != ch 'T') (cstr ev.reason) now [] hot 0
  | .systemEvent => e

/-! ## Movers -/

def moverTitle (e : Engine F) (sym : UInt32) (now : UInt64) (move : F) : Bytes :=
  let head := cstr (env.info sym).ticker ++ lit " +" ++ Dbl.fixed 0 move ++ lit "% vs prev close"
  match e.lastNewsBySym.find sym.toUInt64 with
  | some t =>
    if now - t < 24 * 3600 * kNsPerSec then
      head ++ lit " (news " ++ Dbl.digits ((now - t).toNat / 60000000000) ++
        lit " min ago, below threshold)"
    else head ++ lit ", no news found"
  | none => head ++ lit ", no news found"

/-- Whether the prices make a symbol a mover; the move, dollars and relative volume if so. -/
def isMover (sym : UInt32) (now : UInt64) (h : MarketHot) : Option (F × F × F) :=
  let info := env.info sym
  if !env.universeStatic sym ∨ h.lastPx ≤ 0 ∨ h.halted ∨ Dbl.le info.prevClose (ofRat 0) then none
  else
    let price : F := h.last
    let move := (price - info.prevClose) * ofRat 100 / info.prevClose
    let dollar : F := ofRat h.notionalE4.toNat / ofRat 10000
    let rvol := rvolOf env sym h.dayVolume now
    if Dbl.lt move env.cfg.moverMovePct ∨ Dbl.lt dollar env.cfg.moverDollarVolume ∨
        (Dbl.lt (ofRat 0) rvol ∧ Dbl.lt rvol env.cfg.moverRvol) ∨ !(env.inUniverse sym price).1 then
      none
    else some (move, dollar, rvol)

def scanSym (now : UInt64) (hot : Hot) (e : Engine F) (sym : UInt32) : Engine F :=
  match isMover env sym now (hot (.mover sym.toNat) sym) with
  | none => e
  | some (move, dollar, rvol) =>
    if (e.findWatch sym).isSome then e
    else
      let day := toU64 e.cachedDay
      let (tab, seen, inserted) := e.moverAlerted.tryEmplace sym.toUInt64
      if !inserted ∧ seen = day then { e with moverAlerted := tab }
      else
        let e := { e with moverAlerted := tab.modify sym.toUInt64 fun _ => day }
        let tmp := { Watch.fresh with
          sym := sym
          tNews := now
          refPx := Time.toInt (Dbl.lround ((env.info sym).prevClose * ofRat 10000))
          title := .assign pos_256 (printed 200 (moverTitle env e sym now move))
          why := .assign pos_192 (printed 128 (lit "mover | $" ++
            Dbl.fixed 1 (dollar / ofRat 1000000) ++ lit "M traded | rvol " ++ Dbl.fixed 1 rvol)) }
        emit env e tmp .mover now (hot (.moverSignal sym.toNat) sym)

def scanMovers (e : Engine F) (now : UInt64) (hot : Hot) : Engine F :=
  match env.boardSize with
  | none => e
  | some size =>
    if !env.cfg.moversEnabled then e
    else
      let e := e.todayDays now
      ((List.range (min size env.symbols.size)).map UInt32.ofNat).foldl (scanSym env now hot) e

/-! ## News -/

/-- What the headline index says of a story: whether it is a duplicate, the first source and the
time since. -/
structure Dedupe where
  dup : Bool
  firstSrc : UInt16
  lag : Int64

def dedupe (e : Engine F) (ev : NewsEvent F) : Engine F × Dedupe :=
  if ev.titleKey ≠ 0 ∧ ev.kind ≠ .halt then
    let (tab, fs, inserted) := e.firstSeen.tryEmplace ev.titleKey
    if inserted then
      ({ e with firstSeen := tab.modify ev.titleKey fun _ => { source := ev.source, recvNs := ev.recvNs } },
        { dup := false, firstSrc := ev.source, lag := 0 })
    else
      ({ e with firstSeen := tab },
        { dup := true, firstSrc := fs.source, lag := ev.recvNs.toInt64 - fs.recvNs.toInt64 })
  else (e, { dup := false, firstSrc := ev.source, lag := 0 })

/-- What the journal says of the first ticker of a story. -/
structure Primary (F : Type) where
  r : ScoreResult F
  sym : UInt32
  dil : UInt32
  mcap : F
  price : F
  inu : Bool

def journalNews (e : Engine F) (ev : NewsEvent F) (d : Dedupe) (p : Primary F) (now : UInt64) :
    Engine F :=
  e.write [.news {
    news := ev
    score := p.r
    newsSym := p.sym
    newsDilution := p.dil
    newsMarketCap := p.mcap
    newsPrice := p.price
    newsInUniverse := p.inu
    newsDuplicate := d.dup
    firstSource := d.firstSrc
    firstSeenLagNs := d.lag
    engineNs := now }]

/-- The least score by the items of an 8-K, when no rule matched. -/
def kFloors : List (UInt32 × Catalyst × Int32) :=
  [(kItem501, .mnaTarget, 45), (kItem101, .contract, 45), (kItem202, .earnings, 30),
    (kItem701 ||| kItem801, .other, 20)]

/-- The score of an 8-K or 6-K filing. -/
def filingScore (ev : NewsEvent F) : ScoreResult F :=
  let r := env.scoreText ev.title.bytes ev.body.bytes
  let flags := r.flags ||| (if ev.itemsMask &&& kItem302 ≠ 0 then kSfOffering else 0) |||
    if ev.itemsMask &&& (kItem103 ||| kItem301 ||| kItem402) ≠ 0 then kSfDistress else 0
  let r := { r with flags := flags }
  let r := if r.catalyst = .none then
      match kFloors.find? fun f => ev.itemsMask &&& f.1 != 0 with
      | some (_, cat, score) => { r with catalyst := cat, textScore := max r.textScore score }
      | none => r
    else r
  let r := if r.flags &&& kSfOffering ≠ 0 then { r with textScore := min r.textScore 15 } else r
  let r := if r.flags &&& kSfDistress ≠ 0 then { r with textScore := max 0 (r.textScore - 25) } else r
  { r with score := r.textScore }

/-- A filing that changes the dilution state of a watched ticker. -/
def dilutionInfo (ev : NewsEvent F) (cls : FormClass) (now : UInt64) (hot : Hot) (e : Engine F)
    (t : UInt32 × Nat) : Engine F :=
  match e.findWatch t.1 with
  | none => e
  | some i =>
    let w := e.watch i
    let info := { w with
      title := .assign pos_256 ev.title.bytes
      link := .assign pos_320 ev.link.bytes
      why := .assign pos_192
        (printed 96 (lit "dilution filing on a watched ticker: " ++ ev.form.bytes)) }
    let flag := if cls = .prospectus then kFlagOfferingRecent else kFlagEffectRecent
    emit env (e.setWatch i { w with dilutionFlags := w.dilutionFlags ||| flag }) info .info now
      (hot (.newsSignal t.2) w.sym)

def penalty (dil : UInt32) : Int32 :=
  [(kFlagShelf, 3), (kFlagS1Pending, 5), (kFlagReverseSplitRisk, 5), (kFlagReverseSplitDone, 5),
    (kFlagDeficiency, 8), (kFlagLateFiler, 5)].foldl
    (fun pen f => if dil &&& f.1 ≠ 0 then pen + f.2 else pen) 0

/-- The watch that a story leaves behind, from the one it is stored in. -/
def storyWatch (w : Watch F) (ev : NewsEvent F) (rs : ScoreResult F) (dil : UInt32) (mcap : F) :
    Watch F :=
  { w with
    source := ev.source
    score := rs.score
    catalyst := rs.catalyst
    scoreFlags := rs.flags
    dilutionFlags := dil
    newsId := ev.idHash
    publishedNs := ev.publishedNs
    amountUsd := rs.amountUsd
    materiality := rs.materiality
    marketCap := mcap
    title := ev.title
    link := ev.link
    why := buildWhy env rs mcap }

/-- The watch of a story on a ticker that has none. -/
def freshWatch (w : Watch F) (ev : NewsEvent F) (now : UInt64) (h : MarketHot) : Watch F :=
  { w with
    tNews := if ev.recvNs ≠ 0 then ev.recvNs else now
    refPx := if 0 < h.lastPx then h.lastPx
      else Time.toInt (Dbl.lround ((env.info w.sym).prevClose * ofRat 10000))
    volAtNews := h.dayVolume
    notionalAtNews := h.notionalE4 }

/-- Stores a story in slot `i`; a watch that has no tier yet becomes a `WATCH`. -/
def storeStory (e : Engine F) (i : SlotId) (w : Watch F) (now : UInt64) (h : MarketHot) : Engine F :=
  if w.tier = .none then
    let w := { w with tier := .watch }
    emitCooled env (e.setWatch i w) w .watch now h
  else e.setWatch i w

/-- The loop over the tickers of a story: the engine, the first ticker's part of the record and
whether a watch was changed. -/
structure NewsLoop (F : Type) [Dbl F] where
  e : Engine F
  p : Primary F
  touched : Bool

/-- The flags of a symbol's filings and its listing status. -/
def dilutionOf (e : Engine F) (sym : UInt32) : UInt32 :=
  let info := env.info sym
  e.filings.flags info.cik e.cachedDay env.cfg.dilution |||
    if info.distressed then kFlagDeficiency else 0

def hardBlock (rs : ScoreResult F) (dil : UInt32) : Bool :=
  rs.flags &&& (kSfOffering ||| kSfSpam) != 0 ||
    dil &&& (kFlagOfferingRecent ||| kFlagEffectRecent ||| kFlagUnregisteredSale) != 0

/-- The score of a story for a ticker, with what it depends on. -/
def assess (e : Engine F) (r : ScoreResult F) (sym : UInt32) (h : MarketHot) : Primary F :=
  let price := if 0 < h.lastPx then h.last else (env.info sym).prevClose
  let (inu, mcap) := env.inUniverse sym price
  let rs := r.finalize mcap
  let dil := dilutionOf env e sym
  { r := { rs with score := clamp32 (rs.score - penalty dil) 0 100 }
    sym := sym
    dil := dil
    mcap := mcap
    price := price
    inu := inu }

/-- Puts a story on the watchlist, unless a stronger one is there; whether it did. -/
def storyOn (e : Engine F) (ev : NewsEvent F) (p : Primary F) (now : UInt64) (h hs : MarketHot) :
    Engine F × Bool :=
  match e.findWatch p.sym with
  | some i =>
    if p.r.score ≤ (e.watch i).score then (e, false)
    else (storeStory env e i (storyWatch env (e.watch i) ev p.r p.dil p.mcap) now hs, true)
  | none =>
    let (e, i) := e.activateWatch p.sym
    let w := freshWatch env (e.watch i) ev now h
    (storeStory env e i (storyWatch env w ev p.r p.dil p.mcap) now hs, true)

/-- One ticker of a story; `t` is the ticker with its place in the list. -/
def newsTicker (ev : NewsEvent F) (r : ScoreResult F) (now : UInt64) (hot : Hot) (l : NewsLoop F)
    (t : UInt32 × Nat) : NewsLoop F :=
  if env.symbols.size ≤ t.1.toNat then l
  else
    let h := env.look hot (.news t.2) t.1
    let p := assess env l.e r t.1 h
    let e := { l.e with lastNewsBySym := l.e.lastNewsBySym.insertOrAssign t.1.toUInt64 now }
    let first := if t.2 = 0 then p else l.p
    if !p.inu ∨ hardBlock p.r p.dil ∨ p.r.score < env.cfg.watchScore then
      { l with e := e, p := first }
    else
      let (e, touched) := storyOn env e ev p now h (hot (.newsSignal t.2) t.1)
      { e := e, p := first, touched := l.touched || touched }

def onHaltNews (e : Engine F) (ev : NewsEvent F) (now : UInt64) (hot : Hot) : Engine F :=
  ev.tickers.zipIdx.foldl
    (fun e t => handleHalt env e t.1 (ev.halt.resumeTradeNs == 0) ev.halt.reason.bytes now
      (cstr ev.title.bytes) hot t.2) e

/-- The part of `on_news` after the score `r`. -/
def onScored (e : Engine F) (ev : NewsEvent F) (d : Dedupe) (r : ScoreResult F) (now : UInt64)
    (hot : Hot) : Engine F :=
  let e := e.todayDays now
  let tickers := if ev.kind = .news then ev.tickers else ev.tickers.take 1
  let p : Primary F :=
    { r := r, sym := SymbolTable.kInvalid, dil := 0, mcap := ofRat 0, price := ofRat 0, inu := false }
  let l := tickers.zipIdx.foldl (newsTicker env ev r now hot) { e := e, p := p, touched := false }
  let e := l.e.journalNews ev d l.p now
  if l.touched then evaluate env e now hot else e

/-- A record of a story that is not scored. -/
def unscored (ev : NewsEvent F) : Primary F :=
  { r := .zero, sym := ev.tickers.headD SymbolTable.kInvalid, dil := 0, mcap := ofRat 0,
    price := ofRat 0, inu := false }

/-- Adds a filing to the history. -/
def noteFiling (e : Engine F) (ev : NewsEvent F) (now : UInt64) : Engine F :=
  let e := e.todayDays now
  { e with filings := e.filings.add ev.cik e.cachedDay (classifyForm ev.form.bytes) ev.itemsMask }

/-- A registration, prospectus or proxy: the trader is told if the issuer is watched. -/
def onRegistration (e : Engine F) (ev : NewsEvent F) (now : UInt64) (hot : Hot) : Engine F :=
  let cls := classifyForm ev.form.bytes
  if cls = .prospectus ∨ cls = .effect ∨ cls = .s1 ∨ cls = .s3 then
    ev.tickers.zipIdx.foldl (dilutionInfo env ev cls now hot) e
  else e

def onNews (e : Engine F) (ev : NewsEvent F) (now : UInt64) (hot : Hot) : Engine F :=
  let (e, d) := e.dedupe ev
  match ev.kind with
  | .halt => (onHaltNews env e ev now hot).journalNews ev d (unscored ev) now
  | .filing =>
    let cls := classifyForm ev.form.bytes
    let e := e.noteFiling ev now
    if cls ≠ .form8K ∧ cls ≠ .form6K then
      (onRegistration env e ev now hot).journalNews ev d (unscored ev) now
    else onScored env e ev d (filingScore env ev) now hot
  | .news | .filingDoc => onScored env e ev d (env.scoreText ev.title.bytes ev.body.bytes) now hot

/-! ## Runs -/

def shutdown (e : Engine F) (now : UInt64) (hot : Hot) : Engine F :=
  match e.paper with
  | none => e
  | some p =>
    let (p, ts) := p.closeAll env.cfg.paper now (lit "shutdown") fun i => hot (.paper i)
    { e with paper := some p }.write (ts.map .trade)

/-- The calls made on an engine. -/
inductive Call (F : Type) where
  | news (ev : NewsEvent F) (now : UInt64) (hot : Hot)
  | market {n : Nat} (ev : MarketEvent n) (now : UInt64) (hot : Hot)
  | evaluate (now : UInt64) (hot : Hot)
  | scanMovers (now : UInt64) (hot : Hot)
  | shutdown (now : UInt64) (hot : Hot)

def Call.now : Call F → UInt64
  | .news _ now _ | .market _ now _ | .evaluate now _ | .scanMovers now _ | .shutdown now _ => now

def call (e : Engine F) : Call F → Engine F
  | .news ev now hot => onNews env e ev now hot
  | .market ev now hot => onMarketEvent env e ev now hot
  | .evaluate now hot => evaluate env e now hot
  | .scanMovers now hot => scanMovers env e now hot
  | .shutdown now hot => shutdown env e now hot

def run (e : Engine F) (calls : List (Call F)) : Engine F := calls.foldl (call env) e

end Engine

end Stok
