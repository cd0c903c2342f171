import Stok.Engine.PaperBooks
import Stok.Lib.Sorting

/-!
# The report's trade statistics (`research/report.cpp`)

`tradeStats` sorts the closed trades of a journal by exit time and adds them up, and so repeats what the trader
added up as it closed them: both are folds of `Account.add`. The two sorts of the source are arguments
(`Lib.SortsBy`).
-/

namespace Stok

open Dbl (ofRat)

namespace Report

structure TradeRow (F : Type) where
  day : Bytes := []
  ticker : Bytes := []
  tier : Bytes := []
  catalyst : Bytes := []
  exitReason : Bytes := []
  score : Int := 0
  exitNs : UInt64
  pnlUsd : F
  pnlPct : F
  mfe : F
  mae : F
  holdS : F

section

variable (F : Type) [Dbl F]

structure TradeStats where
  n : Nat := 0
  wins : Nat := 0
  losses : Nat := 0
  winRate : F := ofRat 0
  grossWin : F := ofRat 0
  grossLoss : F := ofRat 0
  total : F := ofRat 0
  avgWin : F := ofRat 0
  avgLoss : F := ofRat 0
  expectancy : F := ofRat 0
  expectancyPct : F := ofRat 0
  profitFactor : F := ofRat 0
  maxDrawdown : F := ofRat 0
  totalExTop3 : F := ofRat 0
  spanDays : Int := 0

/-- The locals of `trade_stats` in its loop over the trades. -/
structure Tally where
  wins : Nat := 0
  losses : Nat := 0
  grossWin : F := ofRat 0
  grossLoss : F := ofRat 0
  equity : F := ofRat 0
  peak : F := ofRat 0
  pctSum : F := ofRat 0
  maxDrawdown : F := ofRat 0

end

section

variable {F : Type} [Dbl F]

def Tally.add (a : Tally F) (t : TradeRow F) : Tally F :=
  let win := Dbl.lt (ofRat 0) t.pnlUsd
  let equity := a.equity + t.pnlUsd
  let peak := Dbl.max a.peak equity
  { wins := if win then a.wins + 1 else a.wins
    grossWin := if win then a.grossWin + t.pnlUsd else a.grossWin
    losses := if win then a.losses else a.losses + 1
    grossLoss := if win then a.grossLoss else a.grossLoss + -t.pnlUsd
    equity := equity
    peak := peak
    pctSum := a.pctSum + t.pnlPct
    maxDrawdown := Dbl.max a.maxDrawdown (peak - equity) }

/-- The total without those of the first three results that are gains. -/
def exTop3 (total : F) (pnls : List F) : F :=
  (pnls.take 3).foldl (fun x pnl => if Dbl.lt (ofRat 0) pnl then x - pnl else x) total

def spanDays (rows : List (TradeRow F)) : Int :=
  match rows.head?.bind fun t => Time.parseYmd t.day, rows.getLast?.bind fun t => Time.parseYmd t.day with
  | some c₀, some c₁ => Time.toInt (Time.daysFromCivil c₁.y c₁.m c₁.d - Time.daysFromCivil c₀.y c₀.m c₀.d) + 1
  | _, _ => 0

variable (sortRows : List (TradeRow F) → List (TradeRow F)) (sortPnls : List F → List F)

/-- `trade_stats` -/
def tradeStats (trades : List (TradeRow F)) : TradeStats F :=
  if trades.isEmpty then {}
  else
    let rows := sortRows trades
    let a := rows.foldl Tally.add {}
    let n : F := ofRat trades.length
    { n := trades.length
      wins := a.wins
      losses := a.losses
      winRate := ofRat a.wins / n
      grossWin := a.grossWin
      grossLoss := a.grossLoss
      total := a.equity
      avgWin := if a.wins ≠ 0 then a.grossWin / ofRat a.wins else ofRat 0
      avgLoss := if a.losses ≠ 0 then a.grossLoss / ofRat a.losses else ofRat 0
      expectancy := a.equity / n
      expectancyPct := a.pctSum / n
      profitFactor :=
        if Dbl.lt (ofRat 0) a.grossLoss then a.grossWin / a.grossLoss
        else if Dbl.lt (ofRat 0) a.grossWin then Dbl.inf else ofRat 0
      maxDrawdown := a.maxDrawdown
      totalExTop3 := exTop3 a.equity (sortPnls (rows.map (·.pnlUsd)))
      spanDays := spanDays rows }

/-! ## What the trader and the report both keep -/

variable (F) in
structure Account where
  wins : Nat := 0
  losses : Nat := 0
  grossWin : F := ofRat 0
  grossLoss : F := ofRat 0
  total : F := ofRat 0
  peak : F := ofRat 0
  maxDrawdown : F := ofRat 0

/-- A trade with the result `pnl`. -/
def Account.add (a : Account F) (pnl : F) : Account F :=
  let win := Dbl.lt (ofRat 0) pnl
  let total := a.total + pnl
  let peak := Dbl.max a.peak total
  { wins := if win then a.wins + 1 else a.wins
    losses := if win then a.losses else a.losses + 1
    grossWin := if win then a.grossWin + pnl else a.grossWin
    grossLoss := if win then a.grossLoss else a.grossLoss + -pnl
    total := total
    peak := peak
    maxDrawdown := Dbl.max a.maxDrawdown (peak - total) }

def account (pnls : List F) : Account F := pnls.foldl Account.add {}

theorem account_concat (pnls : List F) (pnl : F) : account (pnls ++ [pnl]) = (account pnls).add pnl := List.foldl_concat ..

def Tally.account (a : Tally F) : Account F :=
  { wins := a.wins, losses := a.losses, grossWin := a.grossWin, grossLoss := a.grossLoss, total := a.equity
    peak := a.peak, maxDrawdown := a.maxDrawdown }

/-- The account of the trader's statistics. -/
def traderAccount (st : Paper.Stats F) : Account F :=
  { wins := st.wins, losses := st.losses, grossWin := st.grossWin, grossLoss := st.grossLoss, total := st.realized
    peak := st.peak, maxDrawdown := st.maxDrawdown }

theorem foldl_tally (rows : List (TradeRow F)) (a : Tally F) :
    (rows.foldl Tally.add a).account = (rows.map (·.pnlUsd)).foldl Account.add a.account := by
  induction rows generalizing a with
  | nil => rfl
  | cons t rows ih => exact ih (a.add t)

/-- The report is the account of the results in the order of their exits. -/
theorem tradeStats_account (hsort : sortRows [] = []) (trades : List (TradeRow F)) :
    let rep := tradeStats sortRows sortPnls trades
    let a := account ((sortRows trades).map (·.pnlUsd))
    rep.n = trades.length ∧ rep.wins = a.wins ∧ rep.losses = a.losses ∧ rep.grossWin = a.grossWin ∧
      rep.grossLoss = a.grossLoss ∧ rep.total = a.total ∧ rep.maxDrawdown = a.maxDrawdown := by
  have hfold := foldl_tally (sortRows trades) {}
  intro rep a
  have ha : a = ((sortRows trades).foldl Tally.add {}).account := hfold.symm
  cases trades with
  | nil =>
    rw [hsort] at ha
    rw [ha]
    exact ⟨rfl, rfl, rfl, rfl, rfl, rfl, rfl⟩
  | cons t trades =>
    rw [ha]
    exact ⟨rfl, rfl, rfl, rfl, rfl, rfl, rfl⟩

end

end Report

end Stok
