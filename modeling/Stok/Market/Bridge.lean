import Stok.Core.Decimal
import Stok.Ref.Symbols

/-!
# The bridge feed and its tape

`BridgeReceiver::handle` of `market/sources.cpp` reads datagrams of text, a trade, a quote or a
trading state a line, and can write what it accepts to a tape. The tape loop of `run_day`
(`research/backtest.cpp`) reads such a file back. A run is observed through the calls it makes on
the board and its callback, in order.
-/

namespace Stok.Bridge

/-- A call on the board, or of the `on_state` callback. -/
inductive Call where
  | onTrade (sym : UInt32) (px : Int) (shares : UInt64) (ns : Nat)
  | onQuote (sym : UInt32) (bid : Int) (bidSz : UInt64) (ask : Int) (askSz : UInt64) (ns : Nat)
  | onTradingAction (sym : UInt32) (state : UInt8) (reason : Bytes)
  | onState (sym : UInt32) (state : UInt8) (reason : Bytes) (ts : Int)
  deriving DecidableEq, Repr

structure Stats where
  datagrams : Nat := 0
  trades : Nat := 0
  quotes : Nat := 0
  states : Nat := 0
  bad : Nat := 0
  unknownSymbol : Nat := 0
  deriving DecidableEq, Repr

/-- `tape` is what has been written, when there is one. -/
structure Receiver where
  calls : List Call := []
  tape : Option Bytes := none
  st : Stats := {}
  deriving DecidableEq, Repr

/-- The first seven words of a line. -/
def fields (line : Bytes) : List Bytes :=
  ((line.splitOnP isSpace).filter fun w => !w.isEmpty).take 7

def field (f : List Bytes) (i : Nat) : Bytes := (f[i]?).getD []

/-- What a line says. The time of a trade or a quote is absent when the line has none that can
be read. -/
inductive Line where
  | blank
  | bad
  | unknownSymbol
  | trade (sym : UInt32) (px : Int) (shares : UInt64) (ts : Option Int)
  | quote (sym : UInt32) (bid : Int) (bidSz : UInt64) (ask : Int) (askSz : UInt64) (ts : Option Int)
  | state (sym : UInt32) (state : UInt8) (reason : Bytes)
  deriving DecidableEq, Repr

section

variable {F : Type} [Dbl F]

/-- A price in units of 1e-4 dollars. -/
def priceOf (px : F) : Int := Dbl.trunc (px * Dbl.ofRat 10000 + Dbl.ofRat (1 / 2))

def sizeOf (n : Int) : UInt64 := .ofNat n.toNat

/-- Four characters, blanks after those of the field. -/
def reasonOf (f : List Bytes) : Bytes :=
  let r := (field f 3).take 4
  r ++ List.replicate (4 - r.length) 32

variable (symbols : SymbolTable F)

/-- A trimmed line. -/
def readLine (line : Bytes) : Line :=
  if line.isEmpty then .blank
  else
    let f := fields line
    if f.length < 3 then .bad
    else
      let sym := symbols.find (field f 1)
      if sym = SymbolTable.kInvalid then .unknownSymbol
      else if field f 0 = lit "T" ∧ 4 ≤ f.length then
        match Dbl.parseDouble (F := F) (field f 2), parseU64 (field f 3) with
        | some px, some sz =>
          if Dbl.le px (Dbl.ofRat 0) then .bad
          else .trade sym (priceOf px) (sizeOf sz) (f[4]?.bind parseI64)
        | _, _ => .bad
      else if field f 0 = lit "Q" ∧ 6 ≤ f.length then
        match Dbl.parseDouble (F := F) (field f 2), parseU64 (field f 3),
          Dbl.parseDouble (F := F) (field f 4), parseU64 (field f 5) with
        | some bid, some bsz, some ask, some asz =>
          .quote sym (priceOf bid) (sizeOf bsz) (priceOf ask) (sizeOf asz) (f[6]?.bind parseI64)
        | _, _, _, _ => .bad
      else if field f 0 = lit "H" then .state sym (byteAt (field f 2) 0) (reasonOf f)
      else .bad

end

/-- The time of an accepted line, that of the datagram when it has none of its own. -/
def Line.ts (nowTs : Int) : Line → Option Int
  | .trade _ _ _ ts => some (ts.getD nowTs)
  | .quote _ _ _ _ _ ts => some (ts.getD nowTs)
  | .state _ _ _ => some nowTs
  | _ => none

/-- The calls that a line leads to. A time before midnight counts as midnight. -/
def Line.calls (midnight nowTs : Int) : Line → List Call
  | .trade sym px sz ts => [.onTrade sym px sz (ts.getD nowTs - midnight).toNat]
  | .quote sym bid bsz ask asz ts =>
    [.onQuote sym bid bsz ask asz (ts.getD nowTs - midnight).toNat]
  | .state sym s reason => [.onTradingAction sym s reason, .onState sym s reason nowTs]
  | _ => []

def Line.count (st : Stats) : Line → Stats
  | .blank => st
  | .bad => { st with bad := st.bad + 1 }
  | .unknownSymbol => { st with unknownSymbol := st.unknownSymbol + 1 }
  | .trade .. => { st with trades := st.trades + 1 }
  | .quote .. => { st with quotes := st.quotes + 1 }
  | .state .. => { st with states := st.states + 1 }

/-- `fprintf(tape, "%lld %.*s\n", ts, ...)` -/
def tapeText (ts : Int) (line : Bytes) : Bytes := Dbl.intText ts ++ 32 :: cstr line ++ [10]

section

variable {F : Type} [Dbl F] (symbols : SymbolTable F) (midnight : Int)

def onLine (nowTs : Int) (r : Receiver) (raw : Bytes) : Receiver :=
  let line := trim raw
  let l := readLine symbols line
  { calls := r.calls ++ l.calls midnight nowTs
    tape := match l.ts nowTs with
      | some ts => r.tape.map (· ++ tapeText ts line)
      | none => r.tape
    st := l.count r.st }

/-- `handle`, with the wall clock read when the caller gives no time. -/
def handle (r : Receiver) (text : Bytes) (defaultTs wall : Int) : Receiver :=
  let nowTs := if defaultTs ≠ 0 then defaultTs else wall
  (lines text).foldl (onLine symbols midnight nowTs)
    { r with st.datagrams := r.st.datagrams + 1 }

/-- A datagram and the wall clock at its arrival, which is past 1970. -/
structure Datagram where
  text : Bytes
  wall : Int64
  wall_pos : 0 < wall.toInt

/-- A live run that records. -/
def live (ds : List Datagram) : Receiver :=
  ds.foldl (fun r d => handle symbols midnight r d.text 0 d.wall.toInt) { tape := some [] }

/-! ## Replay -/

/-- `gzgets`: at most `n` bytes, up to the end of a line. -/
def getLine : Nat → Bytes → Bytes × Bytes
  | 0, s => ([], s)
  | _ + 1, [] => ([], [])
  | n + 1, c :: s => if c = 10 then ([c], s) else ((getLine n s).1.cons c, (getLine n s).2)

/-- The buffers that are read of a file, 1023 bytes at most. -/
def getLines : Nat → Bytes → List Bytes
  | 0, _ => []
  | _ + 1, [] => []
  | fuel + 1, s => (getLine 1023 s).1 :: getLines fuel (getLine 1023 s).2

structure Replay where
  r : Receiver := {}
  messages : Nat := 0
  deriving DecidableEq, Repr

/-- One round of the tape loop. `clock` is the wall clock at each message. -/
def onTape (clock : Nat → Int) (t : Replay) (buf : Bytes) : Replay :=
  let line := trim (cstr buf)
  match find [32] line 0 with
  | none => t
  | some sp =>
    match parseI64 (line.take sp) with
    | none => t
    | some ts =>
      { r := handle symbols midnight t.r (line.drop (sp + 1)) ts (clock t.messages)
        messages := t.messages + 1 }

def replay (clock : Nat → Int) (file : Bytes) : Replay :=
  (getLines file.length file).foldl (onTape symbols midnight clock) {}

end

end Stok.Bridge
