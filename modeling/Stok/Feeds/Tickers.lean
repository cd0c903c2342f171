import Stok.Feeds.Parsers

/-!
# Tickers in a text (`feeds/tickers.cpp`)

Press releases tag tickers with their exchange: `(NASDAQ: ABCD)`, `(NYSE American: XYZ and XYZW)`.
`extractTickers` goes from colon to colon: a colon after the name of a venue is followed by a list of
tickers. A place in the text is the text before it and the text after it.
-/

namespace Stok

inductive VenueClass where
  | us | otc | foreign
  deriving DecidableEq, Repr

structure Venue where
  /-- In lower case, as written before the colon. -/
  name : Bytes
  cls : VenueClass
  /-- For hits that are no symbols. -/
  tag : Bytes
  deriving DecidableEq, Repr

namespace Tickers

def kVenues : List Venue :=
  [⟨lit "nasdaq global select market", .us, lit "NASDAQ"⟩, ⟨lit "nasdaq global market", .us, lit "NASDAQ"⟩,
   ⟨lit "nasdaq capital market", .us, lit "NASDAQ"⟩, ⟨lit "nyse american llc", .us, lit "NYSE"⟩,
   ⟨lit "nyse american", .us, lit "NYSE"⟩, ⟨lit "nyse mkt", .us, lit "NYSE"⟩,
   ⟨lit "nyse arca", .us, lit "NYSE"⟩, ⟨lit "nysearca", .us, lit "NYSE"⟩,
   ⟨lit "nyseamerican", .us, lit "NYSE"⟩, ⟨lit "nasdaqgs", .us, lit "NASDAQ"⟩,
   ⟨lit "nasdaqgm", .us, lit "NASDAQ"⟩, ⟨lit "nasdaqcm", .us, lit "NASDAQ"⟩,
   ⟨lit "nasdaq", .us, lit "NASDAQ"⟩, ⟨lit "nyse", .us, lit "NYSE"⟩, ⟨lit "amex", .us, lit "NYSE"⟩,
   ⟨lit "cboe bzx", .us, lit "CBOE"⟩, ⟨lit "cboe", .us, lit "CBOE"⟩, ⟨lit "bats", .us, lit "CBOE"⟩,
   ⟨lit "otc pink", .otc, lit "OTC"⟩, ⟨lit "otc markets", .otc, lit "OTC"⟩,
   ⟨lit "otcmkts", .otc, lit "OTC"⟩, ⟨lit "otcqx", .otc, lit "OTC"⟩, ⟨lit "otcqb", .otc, lit "OTC"⟩,
   ⟨lit "otc", .otc, lit "OTC"⟩, ⟨lit "pink", .otc, lit "OTC"⟩,
   ⟨lit "tsx venture", .foreign, lit "TSXV"⟩, ⟨lit "tsx-v", .foreign, lit "TSXV"⟩,
   ⟨lit "tsxv", .foreign, lit "TSXV"⟩, ⟨lit "tsx", .foreign, lit "TSX"⟩,
   ⟨lit "cse", .foreign, lit "CSE"⟩, ⟨lit "neo", .foreign, lit "NEO"⟩,
   ⟨lit "cboe canada", .foreign, lit "NEO"⟩, ⟨lit "asx", .foreign, lit "ASX"⟩,
   ⟨lit "lse", .foreign, lit "LSE"⟩, ⟨lit "aim", .foreign, lit "AIM"⟩,
   ⟨lit "fse", .foreign, lit "FSE"⟩, ⟨lit "frankfurt", .foreign, lit "FSE"⟩,
   ⟨lit "xetra", .foreign, lit "FSE"⟩, ⟨lit "hkex", .foreign, lit "HKEX"⟩,
   ⟨lit "sgx", .foreign, lit "SGX"⟩, ⟨lit "tase", .foreign, lit "TASE"⟩]

/-- What may stand before a name. -/
def isBoundary (c : UInt8) : Bool :=
  c ∈ [ch '(', ch '[', 32, ch ',', ch ';', ch '/', 10, 9, ch '|', ch '>', ch '"']

/-- `boundary_before`, for the place after a text. -/
def boundaryBefore (before : Bytes) : Bool :=
  match before.getLast? with
  | none => true
  | some c => isBoundary c

/-- The name of `v` ends a text. -/
def nameEnds (text : Bytes) (v : Venue) : Bool :=
  v.name.length ≤ text.length ∧
    (text.drop (text.length - v.name.length)).map toLower = v.name ∧
    boundaryBefore (text.take (text.length - v.name.length))

/-- The venue whose name stands before a place, but for spaces. -/
def venueBefore (before : Bytes) : Option Venue := kVenues.find? (nameEnds (before.rdropWhile (· == 32)))

def isTickerByte (c : UInt8) : Bool := isUpper c || isDigit c || c == ch '.' || c == ch '-'

/-- Trailing punctuation belongs to the sentence. -/
def isTrailing (c : UInt8) : Bool := c == ch '.' || c == ch '-'

def isLower (c : UInt8) : Bool := ch 'a' ≤ c ∧ c ≤ ch 'z'

/-- The ticker at the beginning of a text. -/
def readTicker : Bytes → Option Bytes
  | [] => none
  | c :: s =>
    if !isUpper c then none
    else
      let more := ((s.take 9).takeWhile isTickerByte).rdropWhile isTrailing
      if (s.drop more.length).head?.any isLower then none else some (c :: more)

/-- The tickers of the list that begins a text, and what is left after it. -/
def tokens : Nat → Bytes → List Bytes × Bytes
  | 0, s => ([], s)
  | fuel + 1, s =>
    let s := s.dropWhile (· == 32)
    match readTicker s with
    | none => ([], s)
    | some tok =>
      let rest := s.drop tok.length
      let next := rest.dropWhile (· == 32)
      if next.head? = some (ch ',') then
        let (toks, rest) := tokens fuel next.tail
        (tok :: toks, rest)
      else if 4 < next.length ∧ next.take 4 = lit "and " then
        let (toks, rest) := tokens fuel (next.drop 4)
        (tok :: toks, rest)
      else ([tok], rest)

structure Hit extends TickerHit where
  venue : VenueClass

/-- The text of a hit. -/
def rawText (v : Venue) (tok : Bytes) : Bytes := if v.cls = .us then tok else v.tag ++ ch ':' :: tok

section

variable (find : Bytes → UInt32) (maxOut : Nat)

/-- Foreign tickers are informational only. -/
def symOf (v : Venue) (tok : Bytes) : UInt32 := if v.cls = .foreign then SymbolTable.kInvalid else find tok

def same (sym : UInt32) (raw : CStr 16) (h : Hit) : Bool := sym ≠ SymbolTable.kInvalid ∧ h.sym = sym ∨ h.raw = raw

def push (hits : List Hit) (t : Venue × Bytes) : List Hit :=
  if maxOut ≤ hits.length then hits
  else
    let sym := symOf find t.1 t.2
    let raw : CStr 16 := .print pos_16 (rawText t.1 t.2)
    if hits.any (same sym raw) then hits else hits ++ [{ sym, raw, venue := t.1.cls }]

/-- From a place on; each round goes past a colon. -/
def scan : Nat → Bytes → Bytes → List Hit → List Hit
  | 0, _, _, hits => hits
  | fuel + 1, before, after, hits =>
    if maxOut ≤ hits.length then hits
    else
      match after.dropWhile (· != ch ':') with
      | [] => hits
      | _ :: rest =>
        let before := before ++ after.takeWhile (· != ch ':')
        match venueBefore before with
        | none => scan fuel (before ++ [ch ':']) rest hits
        | some v =>
          let (toks, rest') := tokens rest.length rest
          let used := rest.take (rest.length - rest'.length)
          scan fuel (before ++ ch ':' :: used) rest' ((toks.map (v, ·)).foldl (push find maxOut) hits)

def extractTickers (text : Bytes) : List Hit := scan find maxOut text.length [] text []

end

end Tickers

end Stok
