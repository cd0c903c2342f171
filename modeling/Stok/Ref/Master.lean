import Stok.Ref.Symbols
import Stok.Util.Json
import Stok.Util.Time

/-!
# Building the security master

`SymbolTable` of `ref/symbols.cpp` with its indexes, its loaders and the stock directory of
`market/itch_directory.hpp`. A loader goes through the rows of a file; a row is a `Step`, as are a
directory message and the calls of `add` and `upsert`. A step answers how many rows it counts for.
-/

namespace Stok

/-- A symbol with what only the master reads of it. -/
structure Security (F : Type) extends SymbolInfo F where
  key : UInt64
  roundLot : UInt32
  sharesAsofDay : Int
  publicFloatUsd : F
  advDays : UInt32
  shortVolumeRatio : F

/-- The indexes of the source; an issuer without a list has the empty one. -/
structure Master (F : Type) where
  syms : List (Security F) := []
  byNorm : Table UInt32 := .new 1024 defaultLoad FlatMap64.defaultLoad_bounds
  byKey : Table UInt32 := .new 1024 defaultLoad FlatMap64.defaultLoad_bounds
  byCik : UInt32 → List UInt32 := fun _ => []
  byName : Table UInt32 := .new 1024 defaultLoad FlatMap64.defaultLoad_bounds

namespace Master

/-- The hash tells the names apart, and none of them has the reserved key of the map. -/
structure HashApart (names : Bytes → Prop) : Prop where
  inj : ∀ a b, names a → names b → hashBytes a = hashBytes b → a = b
  ne_empty : ∀ a, names a → hashBytes a ≠ kEmpty

open SymbolTable (kInvalid normChar)

variable {F : Type} [Dbl F]

/-- A default-constructed `SymbolInfo`. -/
def blank : Security F :=
  { ticker := [], key := 0, name := [], exchange := .unknown, financialStatus := ch 'N', etf := false,
    testIssue := false, roundLot := 100, cik := 0, sharesOutstanding := Dbl.ofRat 0, sharesAsofDay := 0,
    publicFloatUsd := Dbl.ofRat 0, prevClose := Dbl.ofRat 0, adv20 := Dbl.ofRat 0, advDays := 0,
    shortVolumeRatio := Dbl.ofRat (-1) }

def sym (m : Master F) (id : UInt32) : Security F := (m.syms[id.toNat]?).getD blank

/-- Writes to the symbol of an id. -/
def modify (m : Master F) (id : UInt32) (f : Security F → Security F) : Master F :=
  { m with syms := m.syms.modify id.toNat f }

/-- 8 bytes, left-justified, space padded: the ITCH "Stock" field. -/
def makeKey (sym : Bytes) : UInt64 :=
  loadLe ((sym.take 8).map toUpper ++ List.replicate (8 - sym.length) 32)

/-- Uppercase; class and series separators unified to `.`. -/
def normalize (sym : Bytes) : Bytes := (trim sym).map normChar

def indexAlias (m : Master F) (spelling : Bytes) (id : UInt32) : Master F :=
  if spelling.isEmpty then m
  else { m with byNorm := m.byNorm.insertOrAssign (hashBytes (normalize spelling)) id }

def indexKey (m : Master F) (key : UInt64) (id : UInt32) : Master F :=
  { m with byKey := m.byKey.insertOrAssign key id }

/-- Adds an id to the list of an issuer. -/
def indexCik (m : Master F) (cik id : UInt32) : Master F :=
  { m with byCik := Function.update m.byCik cik (m.byCik cik ++ [id]) }

def add (m : Master F) (info : Security F) : Master F × UInt32 :=
  let id := UInt32.ofNat m.syms.length
  let s := if info.key = 0 then { info with key := makeKey info.ticker } else info
  let m := { m with syms := m.syms ++ [s] }
  let m := (m.indexAlias s.ticker id).indexKey s.key id
  (if s.cik ≠ 0 then m.indexCik s.cik id else m, id)

def find (m : Master F) (ticker : Bytes) : UInt32 :=
  if ticker.isEmpty ∨ 32 < ticker.length then kInvalid
  else (m.byNorm.find (hashBytes (ticker.map normChar))).getD kInvalid

def findKey (m : Master F) (key : UInt64) : UInt32 := (m.byKey.find key).getD kInvalid

def upsert (m : Master F) (ticker : Bytes) : Master F × UInt32 :=
  let existing := m.find ticker
  if existing ≠ kInvalid then (m, existing) else m.add { blank with ticker := normalize ticker }

/-- The issuer's primary security: common stock over warrants, units and rights. -/
def primaryForCik (m : Master F) (cik : UInt32) : UInt32 :=
  (m.byCik cik).foldl (fun best id =>
    let s := m.sym id
    if best = kInvalid then id
    else
      let b := m.sym best
      if s.exchange.isExchangeListed ≠ b.exchange.isExchangeListed then
        if s.exchange.isExchangeListed then id else best
      else if b.isDerivativeSecurity ∧ ¬ s.isDerivativeSecurity then id
      else if b.isDerivativeSecurity = s.isDerivativeSecurity ∧ s.ticker.length < b.ticker.length then id
      else best) kInvalid

/-- The table that the engine, the journal and the loader of news read. -/
def toTable (m : Master F) (h : m.syms.length < 2 ^ 32) : SymbolTable F :=
  { syms := m.syms.map (·.toSymbolInfo), byNorm := m.byNorm, size_le := by rwa [List.length_map] }

omit [Dbl F] in
theorem find_toTable (m : Master F) (h : m.syms.length < 2 ^ 32) (ticker : Bytes) :
    (m.toTable h).find ticker = m.find ticker := rfl

/-! ## Pipe-delimited directories -/

def pipeCells (line : Bytes) : List Bytes := (line.splitOn (ch '|')).map trim

/-- The last column with a name. -/
def pipeColumn (header : List Bytes) (name : Bytes) : Option Nat :=
  (List.range header.length).foldl (fun k i => if iequals (header.getD i []) name then some i else k) none

/-- The wanted columns of the rows of a file. -/
def pipeRows (wanted : List String) (text : Bytes) : List (List Bytes) :=
  match (lines text).filter (· ≠ []) with
  | [] => []
  | header :: rest =>
    (rest.filter (!istartsWith · (lit "File Creation Time"))).map fun line => wanted.map fun w =>
      ((pipeColumn (pipeCells header) (lit w)).bind ((pipeCells line)[·]?)).getD []

/-- A cell that begins with `Y`. -/
def yes (cell : Bytes) : Bool := cell.head? = some (ch 'Y')

/-- A row of `nasdaqlisted.txt`: symbol, name, category, test issue, status, round lot and ETF. -/
def nasdaqRow (m : Master F) (c : List Bytes) : Master F × Nat :=
  let c (i : Nat) : Bytes := c.getD i []
  if (c 0).isEmpty then (m, 1)
  else
    let (m, id) := m.upsert (c 0)
    let m := m.modify id fun s => { s with
      name := c 1
      exchange := if (c 2).head? = some (ch 'Q') then .nasdaqGS
        else if (c 2).head? = some (ch 'G') then .nasdaqGM else .nasdaqCM
      testIssue := yes (c 3)
      financialStatus := (c 4).headD (ch 'N')
      roundLot := ((parseU32 (c 5)).map fun v => .ofNat v.toNat).getD s.roundLot
      etf := yes (c 6)
      key := makeKey (c 0) }
    (m.indexKey (makeKey (c 0)) id, 1)

/-- The exchange of a code of `otherlisted.txt`. -/
def otherExchange (code : Bytes) : Exchange :=
  if code.head? = some (ch 'A') then .nyseAmerican
  else if code.head? = some (ch 'N') then .nyse
  else if code.head? = some (ch 'P') then .nyseArca
  else if code.head? = some (ch 'Z') then .cboeBZX
  else if code.head? = some (ch 'V') then .iex
  else .unknown

/-- A row of `otherlisted.txt`: ACT symbol, name, exchange, CQS symbol, ETF, round lot, test issue
and Nasdaq symbol. -/
def otherRow (m : Master F) (c : List Bytes) : Master F × Nat :=
  let c (i : Nat) : Bytes := c.getD i []
  if (c 0).isEmpty then (m, 1)
  else
    let (m, id) := m.upsert (c 0)
    let key := makeKey (if (c 7).isEmpty then c 0 else c 7)
    let m := m.modify id fun s => { s with
      name := c 1
      exchange := otherExchange (c 2)
      etf := yes (c 4)
      roundLot := ((parseU32 (c 5)).map fun v => .ofNat v.toNat).getD s.roundLot
      testIssue := yes (c 6)
      key := key }
    (((m.indexAlias (c 3) id).indexAlias (c 7) id).indexKey key id, 1)

/-! ## The SEC's list of tickers -/

/-- What a row of `company_tickers_exchange.json` holds; a column that is not there has no name. -/
structure SecRow where
  ticker : Bytes
  cik : UInt32
  name : Option Bytes
  exchange : Bytes
  deriving DecidableEq

/-- The column with a title, the last one of several. -/
def secColumn (fields : Json.Node F) (title : String) : Option Nat :=
  let raws := (Json.children fields).map fun f => Json.rawText (some f)
  (List.range raws.length).foldl (fun k i => if raws.getD i none = some (lit title) then some i else k) none

def secRows (json : Bytes) : List SecRow :=
  match Json.parse (F := F) json with
  | .error _ => []
  | .ok root =>
    match Json.get root (lit "fields"), Json.get root (lit "data") with
    | some fields, some data =>
      match secColumn fields "cik", secColumn fields "ticker" with
      | some iCik, some iTicker =>
        (Json.children data).filterMap fun row =>
          let cols := (Json.children row).take 8
          let name := (secColumn fields "name").bind (cols[·]?)
          let ex := (secColumn fields "exchange").bind (cols[·]?)
          match cols[iTicker]?, cols[iCik]? with
          | some ticker, some cik =>
            some { ticker := Json.str (some ticker)
                   cik := UInt32.ofInt (Dbl.trunc (Json.num (some cik) (Dbl.ofRat 0)))
                   name := name.map fun n => Json.str (some n)
                   exchange := Json.str ex }
          | _, _ => none
      | _, _ => []
    | _, _ => []

def secExchange (ex : Bytes) : Exchange :=
  if iequals ex (lit "OTC") then .otc
  else if iequals ex (lit "Nasdaq") then .nasdaqCM
  else if iequals ex (lit "NYSE") then .nyse
  else if iequals ex (lit "CBOE") then .cboeBZX
  else .unknown

def secRow (m : Master F) (r : SecRow) : Master F × Nat :=
  if r.ticker.isEmpty ∨ r.cik = 0 then (m, 0)
  else
    let id := m.find r.ticker
    if id = kInvalid then
      ((m.add { blank with
          ticker := normalize r.ticker
          name := r.name.getD []
          exchange := secExchange r.exchange
          cik := r.cik }).1, 1)
    else
      let m := if (m.sym id).cik ≠ r.cik then (m.modify id fun s => { s with cik := r.cik }).indexCik r.cik id else m
      (m.modify id fun s => { s with name := if s.name.isEmpty then r.name.getD [] else s.name }, 1)

/-! ## Tables of the daemon -/

/-- A line of `fundamentals.tsv`: issuer, shares, date and float. -/
def fundamentalsRow (m : Master F) (line : Bytes) : Master F × Nat :=
  let f := line.splitOn 9
  match f, parseU32 (f.getD 0 []) with
  | _ :: _ :: _, some cik =>
    let shares : F := (Dbl.parseDouble (f.getD 1 [])).getD (Dbl.ofRat 0)
    let asof := match (f[2]?).bind Time.parseYmd with
      | some d => Time.toInt (Time.daysFromCivil d.y d.m d.d)
      | none => 0
    let flt : F := ((f[3]?).bind Dbl.parseDouble).getD (Dbl.ofRat 0)
    (m.byCik (.ofNat cik.toNat)).foldl (fun (m, n) id =>
      (m.modify id fun s =>
        let s := if Dbl.lt (Dbl.ofRat 0) shares then { s with sharesOutstanding := shares, sharesAsofDay := asof }
          else s
        if Dbl.lt (Dbl.ofRat 0) flt then { s with publicFloatUsd := flt } else s, n + 1)) (m, 0)
  | _, _ => (m, 0)

/-- The lines of `fundamentals.tsv`, the first one unless it is the header. -/
def fundamentalsRows (tsv : Bytes) : List Bytes :=
  match (lines tsv).filter fun line => line ≠ [] ∧ line.head? ≠ some (ch '#') with
  | [] => []
  | line :: rest => if istartsWith line (lit "cik") then rest else line :: rest

/-- A line of `baseline.tsv`: ticker, close, volume and days. -/
def baselineRow (m : Master F) (line : Bytes) : Master F × Nat :=
  let f := line.splitOn 9
  if f.length < 3 ∨ m.find (f.getD 0 []) = kInvalid then (m, 0)
  else
    (m.modify (m.find (f.getD 0 [])) fun s => { s with
      prevClose := (Dbl.parseDouble (f.getD 1 [])).getD (Dbl.ofRat 0)
      adv20 := (Dbl.parseDouble (f.getD 2 [])).getD (Dbl.ofRat 0)
      advDays := .ofNat (((f[3]?).bind parseU32).getD 0).toNat }, 1)

def baselineRows (tsv : Bytes) : List Bytes :=
  (lines tsv).filter fun line =>
    line ≠ [] ∧ line.head? ≠ some (ch '#') ∧ ¬ istartsWith line (lit "ticker")

/-- A row of FINRA's short volume file: symbol, short volume and total volume. -/
def shortVolumeRow (m : Master F) (c : List Bytes) : Master F × Nat :=
  let id := m.find (c.getD 0 [])
  let sv : F := (Dbl.parseDouble (c.getD 1 [])).getD (Dbl.ofRat 0)
  let tv : F := (Dbl.parseDouble (c.getD 2 [])).getD (Dbl.ofRat 0)
  if id = kInvalid ∨ ¬ Dbl.lt (Dbl.ofRat 0) tv then (m, 0)
  else (m.modify id fun s => { s with shortVolumeRatio := sv / tv }, 1)

/-! ## The stock directory -/

/-- The bytes of a key in memory. -/
def keyBytes (key : UInt64) : Bytes := (List.range 8).map fun i => .ofNat (key.toNat / 256 ^ i % 256)

/-- The ticker of a key: its blanks at the end are dropped, and a C string ends at a NUL. -/
def keyTicker (key : UInt64) : Bytes :=
  (((keyBytes key).reverse.dropWhile (· = 32)).reverse).takeWhile (· ≠ 0)

def directoryExchange (cat : UInt8) : Exchange :=
  if cat = ch 'Q' then .nasdaqGS
  else if cat = ch 'G' then .nasdaqGM
  else if cat = ch 'S' then .nasdaqCM
  else if cat = ch 'N' then .nyse
  else if cat = ch 'A' then .nyseAmerican
  else if cat = ch 'P' then .nyseArca
  else if cat = ch 'Z' then .cboeBZX
  else if cat = ch 'V' then .iex
  else .unknown

/-- `on_stock_directory` adds the symbols that are missing. -/
def directory (m : Master F) (key : UInt64) (cat fin : UInt8) (roundLot : UInt32) : Master F × Nat :=
  if m.findKey key ≠ kInvalid then (m, 0)
  else
    ((m.add { blank with
        ticker := keyTicker key
        key := key
        exchange := directoryExchange cat
        financialStatus := if fin = 32 then ch 'N' else fin
        roundLot := roundLot }).1, 1)

/-! ## Steps and loads -/

inductive Step (F : Type) where
  | nasdaq (c : List Bytes)
  | other (c : List Bytes)
  | sec (r : SecRow)
  | fundamentals (line : Bytes)
  | baseline (line : Bytes)
  | shortVolume (c : List Bytes)
  | directory (key : UInt64) (cat fin : UInt8) (roundLot : UInt32)
  | add (info : Security F)
  | upsert (ticker : Bytes)

def step (m : Master F) : Step F → Master F × Nat
  | .nasdaq c => m.nasdaqRow c
  | .other c => m.otherRow c
  | .sec r => m.secRow r
  | .fundamentals line => m.fundamentalsRow line
  | .baseline line => m.baselineRow line
  | .shortVolume c => m.shortVolumeRow c
  | .directory key cat fin roundLot => m.directory key cat fin roundLot
  | .add info => ((m.add info).1, 1)
  | .upsert ticker => ((m.upsert ticker).1, 1)

/-- A call on the table. -/
inductive Load (F : Type) where
  | nasdaqListed (text : Bytes)
  | otherListed (text : Bytes)
  | secTickers (json : Bytes)
  | fundamentals (tsv : Bytes)
  | baseline (tsv : Bytes)
  | finraShortVolume (text : Bytes)
  | directory (key : UInt64) (cat fin : UInt8) (roundLot : UInt32)
  | add (info : Security F)
  | upsert (ticker : Bytes)

/-- The rows that a call goes through. -/
def Load.steps : Load F → List (Step F)
  | .nasdaqListed text => (pipeRows ["Symbol", "Security Name", "Market Category", "Test Issue",
      "Financial Status", "Round Lot Size", "ETF"] text).map .nasdaq
  | .otherListed text => (pipeRows ["ACT Symbol", "Security Name", "Exchange", "CQS Symbol", "ETF",
      "Round Lot Size", "Test Issue", "NASDAQ Symbol"] text).map .other
  | .secTickers json => (secRows (F := F) json).map .sec
  | .fundamentals tsv => (fundamentalsRows tsv).map .fundamentals
  | .baseline tsv => (baselineRows tsv).map .baseline
  | .finraShortVolume text => (pipeRows ["Symbol", "ShortVolume", "TotalVolume"] text).map .shortVolume
  | .directory key cat fin roundLot => [.directory key cat fin roundLot]
  | .add info => [.add info]
  | .upsert ticker => [.upsert ticker]

def steps (m : Master F) (ss : List (Step F)) : Master F × Nat :=
  ss.foldl (fun (m, n) s => ((m.step s).1, n + (m.step s).2)) (m, 0)

/-- A loader returns the number of rows applied. -/
def load (m : Master F) (l : Load F) : Master F × Nat := m.steps l.steps

end Master

end Stok
