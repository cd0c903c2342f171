import Stok.Core.Text

/-!
# Events (`engine/events.hpp`)
-/

namespace Stok

inductive MarketEventType where
  | tradingAction
  | systemEvent
  deriving Repr, DecidableEq

/-- Market-side events the engine reacts to. The symbol of a system event is invalid. -/
structure MarketEvent (n : Nat) where
  type : MarketEventType
  state : UInt8 := 0
  reason : Bytes := []
  sysCode : UInt8 := 0
  sym : Option (Fin n)
  tsNs : Int
  deriving Repr, DecidableEq

inductive EventKind where
  | news
  | filing
  | filingDoc
  | halt
  deriving Repr, DecidableEq

def EventKind.name : EventKind → Bytes
  | .news => lit "news"
  | .filing => lit "filing"
  | .filingDoc => lit "filing_doc"
  | .halt => lit "halt"

structure HaltInfo (F : Type) where
  reason : CStr 8
  market : CStr 12
  haltNs : Int64
  resumeQuoteNs : Int64
  resumeTradeNs : Int64
  pauseThreshold : F

def kMaxTickers : Nat := 6

/-- The ticker was found by company name, not by an exchange tag. -/
def kEvNameMatched : UInt8 := 1

def kMaxUnresolved : Nat := 3

theorem no_tickers_le : ([] : List UInt32).length ≤ kMaxTickers := Nat.zero_le _

theorem one_ticker_le : [(0 : UInt32)].length ≤ kMaxTickers := by decide

theorem no_unresolved_le : ([] : List (CStr 16)).length ≤ kMaxUnresolved := Nat.zero_le _

/-- One item from any source, with the bounds of its arrays. -/
structure NewsEvent (F : Type) where
  idHash : UInt64
  titleKey : UInt64
  recvNs : UInt64
  sentNs : UInt64
  publishedNs : Int64
  parsedNs : UInt64
  cik : UInt32
  itemsMask : UInt32
  source : UInt16
  kind : EventKind
  flags : UInt8
  tickers : List UInt32
  unresolved : List (CStr 16)
  form : CStr 16
  halt : HaltInfo F
  title : FixedStr 256
  link : FixedStr 320
  body : FixedStr 3072
  tickers_le : tickers.length ≤ kMaxTickers
  unresolved_le : unresolved.length ≤ kMaxUnresolved

end Stok
