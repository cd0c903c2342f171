import Stok.Core.FlatMapRefine
import Stok.Engine.Events
import Stok.Market.Board
import Stok.Market.Itch
import Stok.Market.LevelBook

/-!
# The ITCH order book (`ItchBook` of `market/itch_book.hpp`)

The handler of decoded ITCH messages: resting orders by reference, price ladders
per symbol, and the board they publish to. `findKey` is the symbol table's
`find_key`; the callers size the board by the symbol table, so the ids it answers
are on the board. `quoted` reads a filter shorter than the board as zero there.
-/

namespace Stok

open Itch

structure Order where
  price : UInt32
  shares : UInt32
  locate : UInt16
  side : UInt8
  deriving Repr, DecidableEq, Inhabited

/-- The double nearest to `0.6`, the load factor of the order table. -/
def orderLoad : ℚ := 5404319552844595 / 2 ^ 53

theorem orderLoad_bounds : 1 / 8 ≤ orderLoad ∧ orderLoad < 1 := by
  unfold orderLoad; norm_num

structure ItchStats where
  messages : Nat := 0
  adds : Nat := 0
  execs : Nat := 0
  trades : Nat := 0
  crosses : Nat := 0
  unknownRef : Nat := 0
  halts : Nat := 0
  quoteUpdates : Nat := 0
  deriving Repr, DecidableEq

/-- `events` is the ring to the engine, if there is one: its capacity and its contents. -/
structure ItchBook (n : Nat) where
  findKey : UInt64 → Option (Fin n)
  board : MarketBoard n
  events : Option (Nat × List (MarketEvent n))
  locateToSym : UInt16 → Option (Fin n) := fun _ => none
  lastState : UInt16 → UInt8 := fun _ => 0
  orders : Table Order
  books : Fin n → LevelBook := fun _ => {}
  filter : List UInt8 := []
  trackQuotes : Bool := true
  stats : ItchStats := {}
  lastSys : UInt8 := 0

namespace ItchBook

variable {n : Nat}

/-- The constructor, with the filter that `set_quote_filter` sets before the first message. -/
def new (findKey : UInt64 → Option (Fin n)) (board : MarketBoard n)
    (events : Option (Nat × List (MarketEvent n))) (orderCapacity : Nat) (trackQuotes : Bool)
    (filter : List UInt8) : ItchBook n where
  findKey := findKey
  board := board
  events := events
  orders := .new orderCapacity orderLoad orderLoad_bounds
  filter := filter
  trackQuotes := trackQuotes

def quoted (b : ItchBook n) (sym : Fin n) : Bool :=
  b.trackQuotes && (b.filter.isEmpty || b.filter.getD sym 0 != 0)

/-- Change one ladder of a symbol. -/
def modifySide (b : ItchBook n) (sym : Fin n) (bid : Bool) (f : Ladder → Ladder) : ItchBook n :=
  let lb := b.books sym
  { b with books := Function.update b.books sym (lb.setSide bid (f (lb.side bid))) }

/-- Orders with side `'B'` rest on the bid, all others on the ask. -/
def isBid (side : UInt8) : Bool := side == ch 'B'

def bookAdd (b : ItchBook n) (sym : Fin n) (side : UInt8) (price shares : UInt32) : ItchBook n :=
  b.modifySide sym (isBid side) fun l => Ladder.add (isBid side) l price shares.toUInt64

def bookRemove (b : ItchBook n) (sym : Fin n) (side : UInt8) (price shares : UInt32) : ItchBook n :=
  b.modifySide sym (isBid side) fun l => Ladder.remove (isBid side) l price shares.toUInt64

/-- Pushes the top of book to the board only when it changed. -/
def publishTop (b : ItchBook n) (sym : Fin n) (ts : UInt64) : ItchBook n :=
  let lb := b.books sym
  let bp := Ladder.bestPrice lb.bids
  let ap := Ladder.bestPrice lb.asks
  let bq := Ladder.bestQty lb.bids
  let aq := Ladder.bestQty lb.asks
  if bp = lb.pubBid ∧ ap = lb.pubAsk ∧ bq = lb.pubBidQ ∧ aq = lb.pubAskQ then b
  else { b with
    books := Function.update b.books sym
      { lb with pubBid := bp, pubAsk := ap, pubBidQ := bq, pubAskQ := aq }
    stats.quoteUpdates := b.stats.quoteUpdates + 1
    board := b.board.onQuote (some sym) (toInt32 bp) bq (toInt32 ap) aq ts.toNat }

/-- Remove shares of an order from its ladder, if the symbol is quoted, and publish. -/
def removeQuoted (b : ItchBook n) (o : Order) (take : UInt32) (ts : UInt64) : ItchBook n :=
  match b.locateToSym o.locate with
  | none => b
  | some sym => if b.quoted sym then (b.bookRemove sym o.side o.price take).publishTop sym ts else b

def reduce (b : ItchBook n) (o : Order) (ref : UInt64) (shares : UInt32) (ts : UInt64) :
    ItchBook n :=
  let take := if shares < o.shares then shares else o.shares
  let b := b.removeQuoted o take ts
  if shares ≥ o.shares then { b with orders := b.orders.erase ref }
  else { b with orders := b.orders.modify ref fun o => { o with shares := o.shares - shares } }

def countMessage (b : ItchBook n) : ItchBook n :=
  { b with stats.messages := b.stats.messages + 1 }

/-- Claim a slot of the ring and fill it; a full ring drops the event. -/
def pushEvent (b : ItchBook n) (e : MarketEvent n) : ItchBook n :=
  match b.events with
  | none => b
  | some (cap, q) => if q.length < cap then { b with events := some (cap, q ++ [e]) } else b

def onSystemEvent (b : ItchBook n) (ts : UInt64) (code : UInt8) : ItchBook n :=
  { b with lastSys := code }.pushEvent
    { type := .systemEvent, sysCode := code, sym := none, tsNs := b.board.midnightNs + ts.toNat }

def onStockDirectory (b : ItchBook n) (locate : UInt16) (key : UInt64) : ItchBook n :=
  { b with locateToSym := Function.update b.locateToSym locate (b.findKey key) }

/-- Give a locate code without a symbol the symbol of a key. -/
def resolveLocate (b : ItchBook n) (locate : UInt16) (key : UInt64) : ItchBook n :=
  match b.locateToSym locate with
  | none => b.onStockDirectory locate key
  | some _ => b

def onTradingAction (b : ItchBook n) (locate : UInt16) (ts key : UInt64) (state : UInt8)
    (reason : Bytes) : ItchBook n :=
  let b := b.resolveLocate locate key
  match b.locateToSym locate with
  | none => b
  | some sym =>
    let prev := b.lastState locate
    let b := { b with
      board := b.board.onTradingAction (some sym) state reason
      lastState := Function.update b.lastState locate state }
    -- the burst at the start of the day sets every symbol to 'T'
    if state ≠ ch 'T' ∨ (prev ≠ 0 ∧ prev ≠ ch 'T') then
      { b with stats.halts := b.stats.halts + 1 }.pushEvent
        { type := .tradingAction, state := state, reason := MarketBoard.reasonText reason,
          sym := some sym, tsNs := b.board.midnightNs + ts.toNat }
    else b

def onRegSho (b : ItchBook n) (locate : UInt16) (action : UInt8) : ItchBook n :=
  match b.locateToSym locate with
  | none => b
  | some sym => { b with board := b.board.onRegSho (some sym) action }

def onAdd (b : ItchBook n) (locate : UInt16) (ts ref : UInt64) (side : UInt8)
    (shares price : UInt32) : ItchBook n :=
  match b.locateToSym locate with
  | none => b
  | some sym =>
    let b := { b with
      stats.adds := b.stats.adds + 1
      orders := b.orders.insertOrAssign ref ⟨price, shares, locate, side⟩ }
    if b.quoted sym then (b.bookAdd sym side price shares).publishTop sym ts else b

def onExecuted (b : ItchBook n) (locate : UInt16) (ts ref : UInt64) (shares : UInt32) :
    ItchBook n :=
  match b.orders.find ref with
  | none => { b with stats.unknownRef := b.stats.unknownRef + 1 }
  | some o =>
    { b with
      stats.execs := b.stats.execs + 1
      board := b.board.onTrade (b.locateToSym locate) (toInt32 o.price) shares.toUInt64
        ts.toNat }.reduce o ref shares ts

def onExecutedPrice (b : ItchBook n) (locate : UInt16) (ts ref : UInt64) (shares : UInt32)
    (printable : Bool) (price : UInt32) : ItchBook n :=
  let o := b.orders.find ref
  let b := if printable then
      { b with
        stats.execs := b.stats.execs + 1
        board := b.board.onTrade (b.locateToSym locate) (toInt32 price) shares.toUInt64 ts.toNat }
    else b
  match o with
  | none => { b with stats.unknownRef := b.stats.unknownRef + 1 }
  | some o => b.reduce o ref shares ts

def onCancel (b : ItchBook n) (ts ref : UInt64) (shares : UInt32) : ItchBook n :=
  match b.orders.find ref with
  | none => b
  | some o => b.reduce o ref shares ts

def onDelete (b : ItchBook n) (ts ref : UInt64) : ItchBook n :=
  match b.orders.find ref with
  | none => b
  | some o => b.reduce o ref o.shares ts

def onReplace (b : ItchBook n) (ts oldRef newRef : UInt64) (shares price : UInt32) : ItchBook n :=
  match b.orders.find oldRef with
  | none => b
  | some o =>
    -- the symbol, if its quotes are kept
    let q := (b.locateToSym o.locate).filter b.quoted
    let b := match q with
      | none => b
      | some sym => b.bookRemove sym o.side o.price o.shares
    let b := { b with
      orders := (b.orders.erase oldRef).insertOrAssign newRef ⟨price, shares, o.locate, o.side⟩ }
    match q with
    | none => b
    | some sym => (b.bookAdd sym o.side price shares).publishTop sym ts

def onTrade (b : ItchBook n) (locate : UInt16) (ts : UInt64) (shares : UInt32) (price : UInt32) :
    ItchBook n :=
  { b with
    stats.trades := b.stats.trades + 1
    board := b.board.onTrade (b.locateToSym locate) (toInt32 price) shares.toUInt64 ts.toNat }

def onCross (b : ItchBook n) (locate : UInt16) (ts shares : UInt64) (price : UInt32)
    (crossType : UInt8) : ItchBook n :=
  { b with
    stats.crosses := b.stats.crosses + 1
    board := b.board.onCross (b.locateToSym locate) (toInt32 price) shares ts.toNat crossType }

/-- The handler of decoded messages; every one but an unused type is counted. -/
def onMsg (b : ItchBook n) (m : Msg) : ItchBook n :=
  match m with
  | .systemEvent ts code => b.countMessage.onSystemEvent ts code
  | .stockDirectory locate _ key _ _ _ => b.countMessage.onStockDirectory locate key
  | .tradingAction locate ts key state reason =>
    b.countMessage.onTradingAction locate ts key state reason
  | .regSho locate _ action => b.countMessage.onRegSho locate action
  | .add locate ts ref side shares price => b.countMessage.onAdd locate ts ref side shares price
  | .executed locate ts ref shares => b.countMessage.onExecuted locate ts ref shares
  | .executedPrice locate ts ref shares printable price =>
    b.countMessage.onExecutedPrice locate ts ref shares printable price
  | .cancel _ ts ref shares => b.countMessage.onCancel ts ref shares
  | .delete _ ts ref => b.countMessage.onDelete ts ref
  | .replace _ ts oldRef newRef shares price => b.countMessage.onReplace ts oldRef newRef shares price
  | .trade locate ts _ shares _ price => b.countMessage.onTrade locate ts shares price
  | .cross locate ts shares _ price crossType => b.countMessage.onCross locate ts shares price crossType
  | .broken _ _ _ => b.countMessage
  | .unused => b

def run (b : ItchBook n) (ms : List Msg) : ItchBook n := ms.foldl onMsg b

end ItchBook

end Stok
