import Stok.Engine.Signals
import Stok.Ref.Filings
import Stok.Ref.Symbols
import Stok.Util.Json
import Stok.Util.Time

/-!
# The news journal

How `sink/journal.cpp` writes a story as one line of JSON. `J` is the source's writer:
the text so far and whether a member has been written.
-/

namespace Stok

structure J where
  s : Bytes := [ch '{']
  first : Bool := true

namespace J

def key (j : J) (k : String) : J :=
  { s := j.s ++ (if j.first then [] else [ch ',']) ++ ch '"' :: (lit k ++ lit "\":"),
    first := false }

def raw (j : J) (t : Bytes) : J := { j with s := j.s ++ t }

/-- A string in quotes. -/
def quoted (v : Bytes) : Bytes := ch '"' :: (Text.jsonEscaped v ++ [ch '"'])

def str (j : J) (k : String) (v : Bytes) : J := (j.key k).raw (quoted v)

/-- The text of a number without trailing zeros of its fraction. -/
def trimZeros (t : Bytes) : Bytes :=
  if ch '.' ∈ t then
    let t := (t.reverse.dropWhile (· == ch '0')).reverse
    if t.getLast? = some (ch '.') then t.dropLast else t
  else t

/-- The text of a number, from a buffer of 48 bytes. -/
def numText {F : Type} [Dbl F] (v : F) (prec : Nat) : Bytes :=
  if Dbl.isFinite v then trimZeros ((Dbl.fixed prec v).take 47) else lit "null"

def num {F : Type} [Dbl F] (j : J) (k : String) (v : F) (prec : Nat) : J :=
  (j.key k).raw (numText v prec)

def integer (j : J) (k : String) (v : Int) : J := (j.key k).raw (Dbl.intText v)

def boolean (j : J) (k : String) (v : Bool) : J :=
  (j.key k).raw (if v then lit "true" else lit "false")

def time (j : J) (k : String) (ns : Int) : J :=
  if ns ≤ 0 then j else j.str k (Time.formatUtcIso ns)

/-- Sixteen hexadecimal digits. -/
def hexText (v : UInt64) : Bytes :=
  (List.range 16).map fun i => Text.hexDigit (v.toNat / 16 ^ (15 - i) % 16)

def hex (j : J) (k : String) (v : UInt64) : J := j.str k (hexText v)

/-- An array of strings. -/
def strsText (vs : List Bytes) : Bytes :=
  ch '[' :: (commaList (vs.map quoted) ++ [ch ']'])

def strs (j : J) (k : String) (vs : List Bytes) : J := (j.key k).raw (strsText vs)

def when (j : J) (c : Bool) (f : J → J) : J := if c then f j else j

def done (j : J) : Bytes := j.s ++ [ch '}']

end J

def scoreFlagsStr : UInt32 → Bytes :=
  flagNames [lit "offering", lit "distress", lit "reverse_split", lit "spam",
    lit "non_binding", lit "tier1", lit "up_to", lit "promo", lit "hedged", lit "negative",
    lit "tam_amount"]

def catalystName (c : Catalyst) : Bytes :=
  ((kCatNames.find? fun n => n.1 = c).map (·.2)).getD (lit "?")

structure Journal (F : Type) where
  symbols : SymbolTable F
  rules : Option (List Scorer.Rule)
  sources : List Bytes

namespace Journal

variable {F : Type} [Dbl F]

/-- A C string: the name up to its first NUL. -/
def sourceName (j : Journal F) (s : UInt16) : Bytes :=
  match j.sources[s.toNat]? with
  | some name => cstr name
  | none => lit "?"

/-- The display form of a ticker, nothing for an id that is no symbol's. -/
def tickerOf (j : Journal F) (sym : UInt32) : Bytes :=
  match j.symbols.get? sym with
  | some s => s.ticker
  | none => []

/-- The rules a score names, as the journal shows them. -/
def matchedNames (rules : List Scorer.Rule) (ids : List UInt16) : List Bytes :=
  ids.filterMap fun id =>
    rules[id.toNat]?.map fun r => r.kindStr ++ ch ':' :: r.phrase

/-- Whether a number is greater than zero. -/
def pos (v : F) : Bool := Dbl.lt (Dbl.ofRat 0) v

/-- The members that a filing has. -/
def filingMembers (e : NewsEvent F) (w : J) : J :=
  ((w.str "form" e.form.bytes).integer "cik" e.cik.toNat).when (e.itemsMask != 0)
    (·.str "items" (form8kItemsStr e.itemsMask))

/-- The members that a halt has. -/
def haltMembers (h : HaltInfo F) (w : J) : J :=
  let w := w.str "halt_reason" h.reason.bytes
  let w := w.str "market" h.market.bytes
  let w := w.time "halt_time" h.haltNs.toInt
  let w := w.time "resume_trade" h.resumeTradeNs.toInt
  let w := w.integer "halt_ns" h.haltNs.toInt
  let w := w.integer "resume_quote_ns" h.resumeQuoteNs.toInt
  let w := w.integer "resume_trade_ns" h.resumeTradeNs.toInt
  w.when (pos h.pauseThreshold) (·.num "pause_threshold" h.pauseThreshold 4)

/-- The members of a score, which any other event has. -/
def scoreMembers (j : Journal F) (s : ScoreResult F) (w : J) : J :=
  let w := w.integer "score" s.score.toInt
  let w := w.integer "text_score" s.textScore.toInt
  let w := w.str "catalyst" (catalystName s.catalyst)
  let w := w.when (s.flags != 0) (·.str "flags" (scoreFlagsStr s.flags))
  let w := w.when (pos s.amountUsd) (·.num "amount_usd" s.amountUsd 0)
  let w := w.when (pos s.materiality) (·.num "materiality" s.materiality 4)
  match j.rules with
  | some rules => w.when (!s.matched.isEmpty) (·.strs "matched" (matchedNames rules s.matched))
  | none => w

/-- The members about the symbol that was scored. -/
def symbolMembers (r : NewsRecord F) (info : SymbolInfo F) (w : J) : J :=
  let w := w.str "sym" info.ticker
  let w := w.when (pos r.newsPrice) (·.num "price" r.newsPrice 4)
  let w := w.when (pos r.newsMarketCap) (·.num "mcap" r.newsMarketCap 0)
  let w := w.when (pos info.sharesOutstanding) (·.num "shares_out" info.sharesOutstanding 0)
  let w := w.boolean "in_universe" r.newsInUniverse
  w.when (r.newsDilution != 0) (·.str "dilution" (dilutionFlagsStr r.newsDilution))

/-- Nanoseconds as a number of milliseconds. -/
def msOf (ns : Int) : F := Dbl.ofRat ns / Dbl.ofRat 1000000

def newsJson (j : Journal F) (r : NewsRecord F) : Bytes :=
  let e := r.news
  let w : J := {}
  let w := w.time "t" e.recvNs.toInt64.toInt
  let w := w.str "src" (j.sourceName e.source)
  let w := w.str "kind" e.kind.name
  let w := w.hex "id" e.idHash
  let w := w.integer "recv_ns" e.recvNs.toNat
  let w := w.integer "sent_ns" e.sentNs.toNat
  let w := w.integer "pub_ns" e.publishedNs.toInt
  let w := w.integer "engine_ns" r.engineNs.toNat
  let lag := (e.recvNs - e.publishedNs.toUInt64).toNat
  let w := w.when (0 < e.publishedNs ∧ e.publishedNs.toUInt64 < e.recvNs)
    (·.num "pub_to_recv_ms" (msOf lag : F) 1)
  let w := w.str "title" e.title.bytes
  let w := w.str "link" e.link.bytes
  let w := w.strs "tickers" (e.tickers.map j.tickerOf)
  let w := w.when (e.flags &&& kEvNameMatched != 0) (·.boolean "name_matched" true)
  let w := w.when (!e.unresolved.isEmpty) (·.strs "unresolved" (e.unresolved.map (·.bytes)))
  let w := w.when (e.kind = .filing ∨ e.kind = .filingDoc) (filingMembers e)
  let w := if e.kind = .halt then haltMembers e.halt w else j.scoreMembers r.score w
  let w := match j.symbols.get? r.newsSym with
    | some info => symbolMembers r info w
    | none => w
  let w := w.when r.newsDuplicate fun w =>
    ((w.boolean "dup" true).str "first_src" (j.sourceName r.firstSource)).num "behind_first_ms"
      (msOf r.firstSeenLagNs.toInt : F) 1
  let w := w.str "body" e.body.bytes
  w.done

/-- What `write` appends to the news file: one line a record. -/
def newsLines (j : Journal F) (recs : List (NewsRecord F)) : Bytes :=
  recs.flatMap fun r => j.newsJson r ++ [10]

end Journal

end Stok
