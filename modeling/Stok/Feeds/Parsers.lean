import Stok.Core.Dbl
import Stok.Engine.Events
import Stok.Feeds.Xml
import Stok.Ref.Filings
import Stok.Ref.Symbols
import Stok.Util.Html
import Stok.Util.Time

/-!
# From feed items to events (`feeds/parsers.cpp`)

`fillEvent` fills an event from an item of a feed and `fillExhibitEvent` from the page of an
exhibit. What they look up elsewhere, the tickers and names of a text and the
dates, is in `Lookups`: any functions will do for what is proved here.
-/

namespace Stok

inductive FeedKind where
  | rss | edgarAtom | nasdaqHalts
  deriving DecidableEq, Repr

/-- A ticker found in a text: a symbol, or the text of one that is not in the table. -/
structure TickerHit where
  sym : UInt32
  raw : CStr 16

structure Lookups (F : Type) where
  symbols : SymbolTable F
  extractTickers : Bytes → List TickerHit
  resolveByCompanyName : Bytes → NewsEvent F → UInt32
  byCik : UInt32 → List UInt32
  primaryForCik : UInt32 → UInt32
  parseAnyDatetime : Bytes → Option Int64
  parseIso8601 : Bytes → Option Int64
  parseEasternMdyTime : Bytes → Bytes → Option Int64

namespace Parsers

def kSizeMax : Nat := 2 ^ 64 - 1

/-- Raw XML text as plain text. -/
def textOf (raw : Bytes) (maxOut : Nat) : Bytes :=
  match Xml.unwrapCdata raw with
  | (v, true) => Text.htmlToText v [] maxOut 32
  | (v, false) => Text.htmlToText (Text.decodedEntities v) [] maxOut 32

/-! ## EDGAR titles -/

structure EdgarTitle where
  form : Bytes
  company : Bytes
  cik : UInt32
  role : Bytes
  deriving DecidableEq, Repr

/-- The first number of at most ten digits in parentheses, from `search` on. -/
def edgarCik (form rest : Bytes) : Nat → Nat → Option EdgarTitle
  | 0, _ => none
  | fuel + 1, search => do
    let lp ← find [ch '('] rest search
    let rp ← find [ch ')'] rest lp
    let inner := (rest.drop (lp + 1)).take (rp - lp - 1)
    if inner ≠ [] ∧ inner.length ≤ 10 ∧ inner.all isDigit then
      let cik := UInt32.ofNat ((parseU32 inner).getD 0).toNat
      let role := do
        let lp2 ← find [ch '('] rest rp
        let rp2 ← find [ch ')'] rest lp2
        some ((rest.drop (lp2 + 1)).take (rp2 - lp2 - 1))
      if cik ≠ 0 ∧ form ≠ [] then
        some { form := form, company := trim (rest.take lp), cik := cik, role := role.getD [] }
      else none
    else edgarCik form rest fuel (rp + 1)

/-- `8-K - ACME CORP (0001234567) (Filer)` -/
def parseEdgarTitle (title : Bytes) : Option EdgarTitle := do
  let title := trim title
  let dash ← find (lit " - ") title 0
  let rest := title.drop (dash + 3)
  edgarCik (trim (title.take dash)) rest (rest.length + 1) 0

/-- The item mentioned at the front of a text. -/
def itemAt (s : Bytes) : UInt32 :=
  match s with
  | a :: dot :: b :: c :: _ =>
    if isDigit a ∧ dot = ch '.' ∧ isDigit b ∧ isDigit c then
      match form8kItemBit (a.toNat - 48) ((b.toNat - 48) * 10 + (c.toNat - 48)) with
      | some bit => 1 <<< UInt32.ofNat bit
      | none => 0
    else 0
  | _ => 0

def itemsFrom : Nat → Bytes → UInt32
  | 0, _ => 0
  | fuel + 1, text =>
    match ifind text (lit "item ") with
    | none => 0
    | some p => itemAt (text.drop (p + 5)) ||| itemsFrom fuel (text.drop (p + 5))

/-- The items that a text mentions as `Item d.dd`. -/
def parse8kItems (text : Bytes) : UInt32 := itemsFrom text.length text

/-- The titles of the items, by bit. -/
def form8kItemTitles : List Bytes :=
  ["Entry into a Material Definitive Agreement", "Termination of a Material Definitive Agreement",
    "Bankruptcy or Receivership", "Mine Safety", "Material Cybersecurity Incidents",
    "Completion of Acquisition or Disposition of Assets",
    "Results of Operations and Financial Condition", "Creation of a Direct Financial Obligation",
    "Triggering Events That Accelerate a Financial Obligation",
    "Costs Associated with Exit or Disposal Activities", "Material Impairments",
    "Notice of Delisting or Failure to Satisfy a Listing Rule",
    "Unregistered Sales of Equity Securities", "Material Modification to Rights of Security Holders",
    "Changes in Certifying Accountant", "Non-Reliance on Previously Issued Financial Statements",
    "Changes in Control of Registrant", "Departure/Election of Directors or Officers",
    "Amendments to Articles of Incorporation or Bylaws",
    "Temporary Suspension of Trading Under Employee Benefit Plans",
    "Amendments to the Code of Ethics", "Change in Shell Company Status",
    "Submission of Matters to a Vote of Security Holders", "Shareholder Director Nominations",
    "ABS Informational and Computational Material", "Change of Servicer or Trustee",
    "Change in Credit Enhancement", "Failure to Make a Required Distribution",
    "Securities Act Updating Disclosure", "Regulation FD Disclosure", "Other Events",
    "Financial Statements and Exhibits"].map lit

/-- The titles of a mask's items, the exhibits of item 9.01 left out. -/
def itemTitles (mask : UInt32) : List Bytes :=
  (form8kItemTitles.zipIdx.filter fun (_, bit) => hasBit mask bit && bit != 31).map (·.1)

/-- `8-K ACME CORP: Entry into a Material Definitive Agreement; ...` -/
def edgarHeadline (t : EdgarTitle) (mask : UInt32) : Bytes :=
  t.form ++ ch ' ' :: t.company ++
    match itemTitles mask with
    | [] => []
    | x :: xs => lit ": " ++ x ++ xs.flatMap fun y => lit "; " ++ y

/-! ## Halts -/

def haltReasons : List (Bytes × Bytes) :=
  [("T1", "News pending"), ("T2", "News released"), ("T3", "News and resumption times"),
   ("T5", "Single-stock trading pause"), ("T6", "Extraordinary market activity"),
   ("T7", "Quotation-only period"), ("T8", "ETF halt"),
   ("T12", "Additional information requested"), ("H4", "Non-compliance"), ("H9", "Not current"),
   ("H10", "SEC trading suspension"), ("H11", "Regulatory concern"), ("O1", "Operations halt"),
   ("IPO1", "IPO not yet trading"), ("IPOQ", "IPO released for quotation"),
   ("IPOE", "IPO positioning window extension"), ("M1", "Corporate action"),
   ("M2", "Quotation not available"), ("LUDP", "Volatility trading pause (LULD)"),
   ("LUDS", "Volatility trading pause, straddle"), ("MWC1", "Market-wide circuit breaker L1"),
   ("MWC2", "Market-wide circuit breaker L2"), ("MWC3", "Market-wide circuit breaker L3"),
   ("MWC0", "Market-wide circuit breaker carryover"), ("R4", "Qualification issues resolved"),
   ("R9", "Filing requirements satisfied"), ("C3", "Issuer news not forthcoming"),
   ("C4", "Qualifications halt ended"), ("C9", "Qualifications halt concluded"),
   ("C11", "Halt concluded by other authority"), ("R1", "New issue available"),
   ("D", "Security deletion")].map fun r => (lit r.1, lit r.2)

def haltReasonDesc (c : Bytes) : Bytes :=
  ((haltReasons.find? fun r => iequals (trim c) r.1).map (·.2)).getD (lit "Other")

section

variable {F : Type} [Dbl F] (l : Lookups F)

/-! ## Events -/

omit [Dbl F] in
theorem tickers_le_concat {ev : NewsEvent F} (h : ev.tickers.length < kMaxTickers) (id : UInt32) :
    (ev.tickers ++ [id]).length ≤ kMaxTickers := by
  rw [List.length_append]
  exact h

omit [Dbl F] in
theorem unresolved_le_concat {ev : NewsEvent F} (h : ev.unresolved.length < kMaxUnresolved)
    (raw : CStr 16) : (ev.unresolved ++ [raw]).length ≤ kMaxUnresolved := by
  rw [List.length_append]
  exact h

def addTicker (ev : NewsEvent F) (id : UInt32) : NewsEvent F :=
  if h : ev.tickers.length < kMaxTickers then
    { ev with tickers := ev.tickers ++ [id], tickers_le := tickers_le_concat h id }
  else ev

def addUnresolved (ev : NewsEvent F) (raw : CStr 16) : NewsEvent F :=
  if h : ev.unresolved.length < kMaxUnresolved then
    { ev with
      unresolved := ev.unresolved ++ [raw]
      unresolved_le := unresolved_le_concat h raw }
  else ev

/-- The symbols that were found, each once, and the texts of the others. -/
def addTickersFromHits (ev : NewsEvent F) (hits : List TickerHit) : NewsEvent F :=
  hits.foldl (fun ev h =>
    if h.sym ≠ SymbolTable.kInvalid then
      if h.sym ∈ ev.tickers then ev else addTicker ev h.sym
    else addUnresolved ev h.raw) ev

/-- The first date of an item that can be read. -/
def itemDate (item : Bytes) : Int64 :=
  ((["pubDate", "dc:date", "published", "updated", "a10:updated"].map lit).findSome? fun tag =>
    let v := trim (Xml.childText item tag)
    if v.isEmpty then none else l.parseAnyDatetime v).getD 0

def rssHeadline (item : Bytes) : Bytes := textOf (Xml.childText item (lit "title")) 1024

/-- The text of `<link>`, or the address of a link element, that of an alternate first. -/
def rssLink (item : Bytes) : Bytes :=
  let link := trim (Xml.childText item (lit "link"))
  if link.isEmpty then
    (Xml.elements item (lit "link")).foldl (fun link e =>
      if link.isEmpty ∨ Xml.attrValue e.attrs (lit "rel") = lit "alternate" then
        Xml.attrValue e.attrs (lit "href")
      else link) link
  else link

/-- The first of the body elements that is not blank, else the last. -/
def rssBody (item : Bytes) : Bytes :=
  let raws := (["description", "content:encoded", "summary", "content"].map lit).map
    (Xml.childText item)
  (raws.find? fun r => !(trim r).isEmpty).getD (raws.getLastD [])

/-- The categories of an item, each after a bar. -/
def rssCategories (item : Bytes) : Bytes :=
  (Xml.elements item (lit "category")).flatMap fun e =>
    let v := trim (Xml.unwrapCdata e.inner).1
    let v := if v.isEmpty then Xml.attrValue e.attrs (lit "term") else v
    if v.isEmpty then [] else lit " | " ++ Text.decodedEntities v

def fillRss (item : Bytes) (ev : NewsEvent F) : Option (NewsEvent F) :=
  let b := rssHeadline item
  if b.isEmpty then none
  else
    let text := textOf (rssBody item) (3071 + 512)
    let ev := { ev with
      kind := .news
      title := .assign pos_256 b
      titleKey := Text.headlineKey b
      link := .assign pos_320 (trim (Text.decodedEntities (Xml.unwrapCdata (rssLink item)).1))
      publishedNs := itemDate l item
      body := .assign pos_3072 text }
    let ev := [rssCategories item, ev.title.bytes, text].foldl
      (fun ev h => addTickersFromHits ev (l.extractTickers h)) ev
    if ev.tickers.isEmpty then
      let id := l.resolveByCompanyName item ev
      if id ≠ SymbolTable.kInvalid then
        some { addTicker ev id with flags := ev.flags ||| kEvNameMatched }
      else some ev
    else some ev

omit [Dbl F] in
/-- An item with a headline is an event. -/
theorem fillRss_isSome (item : Bytes) (h : rssHeadline item ≠ []) (ev : NewsEvent F) :
    (fillRss l item ev).isSome = true := by
  simp only [fillRss]
  rw [if_neg (by simpa using h)]
  split
  · split
    · rfl
    · rfl
  · rfl

def fillEdgar (entry : Bytes) (ev : NewsEvent F) : Option (NewsEvent F) := do
  let t ← parseEdgarTitle (textOf (Xml.childText entry (lit "title")) 512)
  let link := (Xml.elements entry (lit "link")).foldl (fun link e =>
    if link.bytes.isEmpty then
      .assign pos_320 (Text.decodedEntities (Xml.attrValue e.attrs (lit "href")))
    else link) ev.link
  let up := trim (Xml.childText entry (lit "updated"))
  let text := textOf (Xml.childText entry (lit "summary")) 4096
  let mask := parse8kItems text
  let b := edgarHeadline t mask
  let ev := { ev with
    kind := .filing
    form := .print pos_16 t.form
    cik := t.cik
    link := link
    publishedNs := (if up.isEmpty then none else l.parseIso8601 up).getD ev.publishedNs
    itemsMask := mask
    body := .assign pos_3072 text
    title := .assign pos_256 b
    titleKey := Text.headlineKey b }
  -- the issuer's securities, the primary one first
  let primary := l.primaryForCik t.cik
  let ev := if primary ≠ SymbolTable.kInvalid then addTicker ev primary else ev
  some ((l.byCik t.cik).foldl (fun ev id => if id = primary then ev else addTicker ev id) ev)

/-- The headline of a halt, in a buffer of 256 bytes. -/
def haltHeadline (sym name : Bytes) (h : HaltInfo F) : Bytes :=
  let what := cstr sym ++ ch ' ' :: cstr name ++ lit " (" ++ h.reason.bytes ++ lit ": " ++
    haltReasonDesc h.reason.bytes
  (if h.resumeTradeNs ≠ 0 then
    lit "RESUME " ++ what ++ lit ") trading " ++ Time.easternHms h.resumeTradeNs.toInt ++ lit " ET"
  else
    lit "HALT " ++ what ++ lit ") at " ++
      (if h.haltNs ≠ 0 then Time.easternHms h.haltNs.toInt else lit "?") ++ lit " ET").take 255

def fillHalt (item : Bytes) (ev : NewsEvent F) : Option (NewsEvent F) :=
  let field (tag : String) := Xml.childText item (lit tag)
  let sym := trim (field "ndaq:IssueSymbol")
  if sym.isEmpty then none
  else
    let rdate := trim (field "ndaq:ResumptionDate")
    -- a resumption time counts when it is there with a date
    let resume (tag : String) (dflt : Int64) :=
      let r := trim (field tag)
      if rdate.isEmpty ∨ r.isEmpty then dflt else (l.parseEasternMdyTime rdate r).getD 0
    let halt : HaltInfo F :=
      { reason := .print pos_8 (trim (field "ndaq:ReasonCode"))
        market := .print pos_12 (trim (field "ndaq:Market"))
        haltNs :=
          (l.parseEasternMdyTime (field "ndaq:HaltDate") (field "ndaq:HaltTime")).getD 0
        resumeQuoteNs := resume "ndaq:ResumptionQuoteTime" ev.halt.resumeQuoteNs
        resumeTradeNs := resume "ndaq:ResumptionTradeTime" ev.halt.resumeTradeNs
        pauseThreshold :=
          (Dbl.parseDouble (field "ndaq:PauseThresholdPrice")).getD (Dbl.ofRat 0) }
    let id := l.symbols.find sym
    let ev := if id ≠ SymbolTable.kInvalid then addTicker ev id else
      { ev with unresolved := [.print pos_16 sym], unresolved_le := (by decide : 1 ≤ kMaxUnresolved) }
    let title := haltHeadline sym (textOf (field "ndaq:IssueName") 200) halt
    some { ev with
      kind := .halt
      halt := halt
      publishedNs := if halt.haltNs ≠ 0 then halt.haltNs else itemDate l item
      title := .assign pos_256 title
      titleKey := Text.headlineKey title }

def fillEvent (kind : FeedKind) (item : Bytes) (ev : NewsEvent F) : Option (NewsEvent F) :=
  match kind with
  | .rss => fillRss l item ev
  | .edgarAtom => fillEdgar l item ev
  | .nasdaqHalts => fillHalt l item ev

/-! ## Exhibits -/

def isBoilerplate (t : Bytes) : Bool :=
  ["exhibit", "ex-99", "for immediate release", "press release", "news release"].any
    fun p => istartsWith t (lit p)

/-- The first substantial line of an exhibit, else its beginning. -/
def exhibitHeadline (text : Bytes) : Bytes :=
  match ((lines text).map trim).find? fun t => 15 ≤ t.length ∧ isBoilerplate t = false with
  | some t => t.take 250
  | none => trim (text.take 200)

def fillExhibitEvent (html : Bytes) (filing : NewsEvent F) (docUrl : Bytes) : NewsEvent F :=
  let text := Text.htmlToText html [] (16 * 1024) 10
  let title := FixedStr.assign pos_256 (exhibitHeadline text)
  { filing with
    kind := .filingDoc
    link := .assign pos_320 docUrl
    idHash := hashBytes docUrl
    title := title
    titleKey := Text.headlineKey title.bytes
    body := .assign pos_3072 (text.map fun c => if c = 10 then 32 else c) }

end

end Parsers

end Stok
