import Stok.Engine.Events
import Stok.Ref.Filings
import Stok.Ref.Symbols
import Stok.Util.Json

/-!
# Reading the news journal back

`load_news_events` of `research/news_loader.cpp`: one event a line, tickers resolved again
by symbol, source names numbered in the order they appear.
-/

namespace Stok.Research

open Json

def kindOf (k : Bytes) : EventKind :=
  if k = lit "filing" then .filing
  else if k = lit "filing_doc" then .filingDoc
  else if k = lit "halt" then .halt
  else .news

/-- The bit of one item, given as `d.dd`. -/
def itemMask (it : Bytes) : UInt32 :=
  match trim it with
  | [a, dot, b, c] =>
    if isDigit a ∧ dot = ch '.' ∧ isDigit b ∧ isDigit c then
      match form8kItemBit (a.toNat - 48) ((b.toNat - 48) * 10 + (c.toNat - 48)) with
      | some bit => 1 <<< UInt32.ofNat bit
      | none => 0
    else 0
  | _ => 0

def itemsMask (items : Bytes) : UInt32 :=
  (items.splitOn (ch ',')).foldl (fun mask it => mask ||| itemMask it) 0

/-- The index of a source name, appended when it is new. -/
def sourceIndex (sources : List Bytes) (name : Bytes) : UInt16 × List Bytes :=
  match sources.findIdx? (· == name) with
  | some i => (.ofNat i, sources)
  | none => (.ofNat sources.length, sources ++ [name])

/-- `strtoull(s, nullptr, 16)` -/
def strtoull16 (s : Bytes) : UInt64 :=
  let t := (cstr s).dropWhile isSpace
  let neg := t.head? = some (ch '-')
  let t := if neg ∨ t.head? = some (ch '+') then t.tail else t
  let t := match t with
    | z :: x :: h :: r =>
      if z = ch '0' ∧ (x = ch 'x' ∨ x = ch 'X') ∧ (hexVal h).isSome then h :: r else t
    | _ => t
  let ds := (t.takeWhile fun c => (hexVal c).isSome).map fun c => (hexVal c).getD 0
  let v := ds.foldl (fun v d => v * 16 + d) 0
  if 2 ^ 64 ≤ v then 0xFFFFFFFFFFFFFFFF else if neg then -UInt64.ofNat v else .ofNat v

structure LoadedNews (F : Type) where
  events : List (NewsEvent F) := []
  lines : Nat := 0
  badLines : Nat := 0
  droppedTickers : Nat := 0

section

variable {F : Type} [Dbl F]

def haltOf (r : Node F) : HaltInfo F :=
  { reason := .print pos_8 (str (get r (lit "halt_reason")))
    market := .print pos_12 (str (get r (lit "market")))
    haltNs := .ofInt (i64 (get r (lit "halt_ns")))
    resumeQuoteNs := .ofInt (i64 (get r (lit "resume_quote_ns")))
    resumeTradeNs := .ofInt (i64 (get r (lit "resume_trade_ns")))
    pauseThreshold := num (get r (lit "pause_threshold")) (Dbl.ofRat 0) }

def noHalt : HaltInfo F :=
  { reason := .empty pos_8, market := .empty pos_12, haltNs := 0,
    resumeQuoteNs := 0, resumeTradeNs := 0, pauseThreshold := Dbl.ofRat 0 }

/-- The ids of the tickers that a line names, `kInvalid` for those not in the table. -/
def tickersOf (symbols : SymbolTable F) (r : Node F) : List UInt32 :=
  ((get r (lit "tickers")).elim [] children).map fun n => symbols.find (str (some n))

def unresolvedOf (r : Node F) : List (CStr 16) :=
  ((get r (lit "unresolved")).elim [] children).map fun n => .print pos_16 (str (some n))

def nameMatched (r : Node F) : Bool :=
  match get r (lit "name_matched") with
  | some (.bool b) => b
  | _ => false

/-- The event of a line, once its source has its index. -/
def eventOf (symbols : SymbolTable F) (source : UInt16) (r : Node F) : NewsEvent F :=
  let kind := kindOf (str (get r (lit "kind")))
  let recv := UInt64.ofNat (u64 (get r (lit "recv_ns")))
  let title := FixedStr.assign pos_256 (str (get r (lit "title")))
  { kind := kind
    source := source
    recvNs := recv
    sentNs := .ofNat (u64 (get r (lit "sent_ns")))
    publishedNs := .ofInt (i64 (get r (lit "pub_ns")))
    parsedNs := recv
    idHash := strtoull16 (str (get r (lit "id")))
    title := title
    link := .assign pos_320 (str (get r (lit "link")))
    body := .assign pos_3072 (str (get r (lit "body")))
    titleKey := Text.headlineKey title.bytes
    tickers := ((tickersOf symbols r).filter (· != SymbolTable.kInvalid)).take kMaxTickers
    unresolved := (unresolvedOf r).take kMaxUnresolved
    flags := if nameMatched r then kEvNameMatched else 0
    form := .print pos_16 (str (get r (lit "form")))
    cik := .ofNat (u64 (get r (lit "cik")))
    itemsMask := itemsMask (str (get r (lit "items")))
    halt := if kind = .halt then haltOf r else noHalt
    tickers_le := List.length_take_le ..
    unresolved_le := List.length_take_le .. }

/-- One line of the journal. -/
def loadLine (symbols : SymbolTable F) (st : LoadedNews F × List Bytes) (line : Bytes) :
    LoadedNews F × List Bytes :=
  let (out, sources) := st
  if (trim line).isEmpty then st
  else
    let out := { out with lines := out.lines + 1 }
    match Json.parse (F := F) line with
    | .ok (.object cs) =>
      let r : Node F := .object cs
      let (source, sources) := sourceIndex sources (str (get r (lit "src")))
      let ev := eventOf symbols source r
      if ev.recvNs = 0 then ({ out with badLines := out.badLines + 1 }, sources)
      else
        ({ out with
            events := out.events ++ [ev]
            droppedTickers := out.droppedTickers +
              (tickersOf symbols r).countP (· == SymbolTable.kInvalid) }, sources)
    | _ => ({ out with badLines := out.badLines + 1 }, sources)

/-- The events of a journal, in a stable order of arrival, and the source names. -/
def loadNewsEvents (jsonl : Bytes) (symbols : SymbolTable F) (sources : List Bytes) :
    LoadedNews F × List Bytes :=
  let (out, sources) := (lines jsonl).foldl (loadLine symbols) ({}, sources)
  ({ out with events := out.events.mergeSort fun a b => decide (a.recvNs ≤ b.recvNs) }, sources)

end

end Stok.Research
