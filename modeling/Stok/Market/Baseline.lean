import Stok.Core.Decimal
import Stok.Core.Text
import Stok.Lib.RollingWindow
import Stok.Market.Board
import Stok.Ref.Symbols

/-!
# The rolling baseline (`market/baseline.cpp`)

The history is a text file with a row for each traded symbol of each session. `appendSession`
replaces the rows of its date, `rebuild` keeps those of the latest dates and sums them up in the
baseline file. Both files are read and written whole.
-/

namespace Stok

open Lib (OrderedMap.setOf OrderedMap.group)

/-- The order of `std::string`. -/
abbrev strLt : Bytes → Bytes → Prop := List.Lex (· < ·)

instance strOrder : IsStrictTotalOrder Bytes strLt where
  irrefl a := List.lex_irrefl (fun _ => UInt8.lt_irrefl _) a
  trans _ _ _ := List.lex_trans UInt8.lt_trans
  trichotomous a b h h' := by
    have : Std.Trichotomous (α := UInt8) (· < ·) :=
      ⟨fun _ _ h h' => UInt8.le_antisymm (UInt8.not_lt.1 h') (UInt8.not_lt.1 h)⟩
    exact Std.Trichotomous.trichotomous (r := strLt) a b h h'

/-- What the history says of a symbol in a session. -/
structure DayRow where
  ticker : Bytes
  volume : UInt64
  close : Int32
  deriving Repr, DecidableEq

/-- The two files. -/
structure BaselineStore where
  history : Option Bytes := none
  baseline : Option Bytes := none
  deriving Repr, DecidableEq

structure Acc (F : Type) [Dbl F] where
  volSum : F := Dbl.ofRat 0
  n : UInt32 := 0
  lastDate : Bytes := []
  lastClose : F := Dbl.ofRat 0

namespace BaselineStore

section

variable (F : Type) [Dbl F]

/-- The official close, else the last regular print, else the last print. -/
def closePx (h : MarketHot) : Int := if h.closePx ≠ 0 then h.closePx else if h.rthLastPx ≠ 0 then h.rthLastPx else h.lastPx

/-- The symbols that traded. -/
def sessionRows {n : Nat} (board : MarketBoard n) (symbols : SymbolTable F) : List DayRow :=
  (List.finRange n).filterMap fun i => do
    let sym ← symbols.syms[i.val]?
    let h := (board.states i).hot
    if h.dayVolume = 0 then none else some ⟨sym.ticker, h.dayVolume, Int32.ofInt (closePx h)⟩

/-- A row of the history, in a buffer of 128 bytes. -/
def historyRow (date : Bytes) (r : DayRow) : Bytes :=
  ([9].intercalate [cstr date, cstr r.ticker, Dbl.digits r.volume.toNat,
    Dbl.fixed 4 (Dbl.ofRat r.close.toInt / Dbl.ofRat 10000 : F)] ++ [10]).take 127

/-- The rows of a session are the last of the history; rows that it had for the date are dropped. -/
def append (s : BaselineStore) (date : Bytes) (session : List DayRow) : BaselineStore × Nat :=
  if session.isEmpty then (s, 0)
  else
    let rows := session.flatMap (historyRow F date)
    let existing := s.history.getD []
    let kept := ((lines existing).filter fun l => ¬ (l.isEmpty ∨ l.take date.length = date)).flatMap (· ++ [10])
    ({ s with history := some (kept ++ rows) }, session.length)

def appendSession (s : BaselineStore) (date : Bytes) {n : Nat} (board : MarketBoard n) (symbols : SymbolTable F) :
    BaselineStore × Nat :=
  s.append F date (sessionRows F board symbols)

end

/-- The dates of the history that a rebuild keeps. -/
def recentDates (hist : Bytes) (days : Nat) : List Bytes :=
  let dates := OrderedMap.setOf strLt ((lines hist).filterMap fun l =>
    if 9 ∈ l then some (l.takeWhile (· != 9)) else none)
  if dates.length > days then dates.drop (dates.length - days) else dates

/-- The four fields of a row on one of the dates. -/
def keptFields (keep : List Bytes) (l : Bytes) : Option (Bytes × Bytes × Bytes × Bytes) :=
  match l.splitOn 9 with
  | date :: ticker :: volume :: close :: _ => if keep.contains date then some (date, ticker, volume, close) else none
  | _ => none

variable {F : Type} [Dbl F]

def accStep (a : Acc F) (f : Bytes × Bytes × Bytes × Bytes) : Acc F :=
  let a := { a with
    volSum := a.volSum + (Dbl.parseDouble f.2.2.1).getD (Dbl.ofRat 0)
    n := a.n + 1 }
  if strLt f.1 a.lastDate then a
  else { a with lastDate := f.1, lastClose := (Dbl.parseDouble f.2.2.2).getD (Dbl.ofRat 0) }

/-- A row of the baseline, in a buffer of 160 bytes. -/
def baselineRow (t : Bytes) (a : Acc F) : Bytes :=
  ([9].intercalate [cstr t, Dbl.fixed 4 a.lastClose,
    Dbl.fixed 0 (if a.n ≠ 0 then a.volSum / Dbl.ofRat a.n.toNat else Dbl.ofRat 0), Dbl.digits a.n.toNat,
    cstr a.lastDate] ++ [10]).take 159

def header : Bytes := lit "ticker\tprev_close\tadv\tdays\tasof\n"

/-- The new files and the report, when there is a history. -/
def rebuild (F : Type) [Dbl F] (s : BaselineStore) (days : Nat) : Option (BaselineStore × Bytes) :=
  match s.history with
  | none => none
  | some hist =>
    let keep := recentDates hist days
    let trimmed := ((lines hist).filter fun l => (keptFields keep l).isSome).flatMap (· ++ [10])
    let acc : List (Bytes × Acc F) :=
      OrderedMap.group strLt (fun f => f.2.1) {} accStep ((lines hist).filterMap (keptFields keep))
    let out := header ++ acc.flatMap fun e => baselineRow e.1 e.2
    some ({ history := some trimmed, baseline := some out },
      Dbl.digits acc.length ++ lit " symbols over " ++ Dbl.digits keep.length ++ lit " sessions")

end BaselineStore

end Stok
