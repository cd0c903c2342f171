import Stok.Core.Dbl
import Stok.Core.FlatMapRefine
import Stok.Core.Text

/-!
# The security master

The symbols with what the engine, the journal and the loader read of them, and the
lookup of a ticker by the hash of its normalised spelling (`ref/symbols.cpp`). The
loaders of the reference files are not modelled: a table is any list of symbols with an
index from hashes to ids.
-/

namespace Stok

inductive Exchange where
  | unknown | nasdaqGS | nasdaqGM | nasdaqCM | nyse | nyseAmerican | nyseArca | cboeBZX | iex | otc
  deriving DecidableEq, Repr

def Exchange.isExchangeListed (e : Exchange) : Bool := e ≠ .unknown ∧ e ≠ .otc

def Exchange.name : Exchange → Bytes
  | .nasdaqGS => lit "Nasdaq GS"
  | .nasdaqGM => lit "Nasdaq GM"
  | .nasdaqCM => lit "Nasdaq CM"
  | .nyse => lit "NYSE"
  | .nyseAmerican => lit "NYSE American"
  | .nyseArca => lit "NYSE Arca"
  | .cboeBZX => lit "Cboe BZX"
  | .iex => lit "IEX"
  | .otc => lit "OTC"
  | .unknown => lit "?"

/-- `word` stands in `hay`, in any case, with no letter right before or after it. -/
def hasWord (hay word : Bytes) : Bool :=
  (List.range (hay.length + 1)).any fun p =>
    istartsWith (hay.drop p) word && (p == 0 || !isAlpha (byteAt hay (p - 1))) &&
      (decide (hay.length ≤ p + word.length) || !isAlpha (byteAt hay (p + word.length)))

structure SymbolInfo (F : Type) where
  ticker : Bytes
  name : Bytes
  exchange : Exchange
  financialStatus : UInt8
  etf : Bool
  testIssue : Bool
  cik : UInt32
  sharesOutstanding : F
  prevClose : F
  adv20 : F

def SymbolInfo.distressed {F : Type} (s : SymbolInfo F) : Bool :=
  s.financialStatus != ch 'N' && s.financialStatus != 32 && s.financialStatus != 0

def SymbolInfo.isDerivativeSecurity {F : Type} (s : SymbolInfo F) : Bool :=
  ["warrant", "warrants", "unit", "units", "right", "rights"].any fun w => hasWord s.name (lit w)

/-- Ids are 32-bit words below `kInvalid`. -/
structure SymbolTable (F : Type) where
  syms : List (SymbolInfo F)
  byNorm : Table UInt32
  size_le : syms.length < 2 ^ 32

namespace SymbolTable

variable {F : Type}

def kInvalid : UInt32 := 0xFFFFFFFF

def size (t : SymbolTable F) : Nat := t.syms.length

def get? (t : SymbolTable F) (id : UInt32) : Option (SymbolInfo F) := t.syms[id.toNat]?

/-- One character of the normalised spelling. -/
def normChar (c : UInt8) : UInt8 :=
  if c = ch '-' ∨ c = ch '/' ∨ c = 32 ∨ c = ch '.' then ch '.' else toUpper c

/-- The id of a ticker of at most 32 bytes. -/
def find (t : SymbolTable F) (ticker : Bytes) : UInt32 :=
  if ticker.isEmpty ∨ 32 < ticker.length then kInvalid
  else (t.byNorm.find (hashBytes (ticker.map normChar))).getD kInvalid

end SymbolTable

/-! ## A table of one symbol -/

def acme : SymbolInfo ℚ :=
  { ticker := lit "ACME", name := lit "Acme Corp", exchange := .nasdaqCM, financialStatus := ch 'N',
    etf := false, testIssue := false, cik := 7, sharesOutstanding := 1000000, prevClose := 2,
    adv20 := 50000 }

def acmeSymbols : SymbolTable ℚ :=
  { syms := [acme]
    byNorm := (Table.new 16 (1 / 2) (by norm_num)).insertOrAssign
      (hashBytes (acme.ticker.map SymbolTable.normChar)) 0
    size_le := by decide }

theorem find_acme : acmeSymbols.find acme.ticker = 0 := by
  have hk : hashBytes (acme.ticker.map SymbolTable.normChar) ≠ kEmpty := by decide +kernel
  have hfind : acmeSymbols.byNorm.find (hashBytes (acme.ticker.map SymbolTable.normChar)) = some 0 := by
    rw [Table.find_eq _ hk, acmeSymbols, Table.map_insertOrAssign _ hk, Finmap.lookup_insert]
  rw [SymbolTable.find, if_neg (by decide), hfind]
  rfl

end Stok
