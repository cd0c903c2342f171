import Stok.Core.Word

/-!
# The market board (`market/board.hpp`)

Per-symbol market state. A symbol id is a `Fin n` for a board of `n` symbols; the
invalid id, and any other id past the end of the board, is `none`. Prices are
`int32_t` in units of 1e-4 dollars, as integers; volumes are 64-bit words.
-/

namespace Stok

def kNsPerMinute : Nat := 60000000000

def kRthOpenNs : Nat := (9 * 60 + 30) * kNsPerMinute

def kRthCloseNs : Nat := 16 * 60 * kNsPerMinute

def kBarRing : Nat := 64

structure MarketHot where
  lastPx : Int := 0
  openPx : Int := 0
  highPx : Int := 0
  lowPx : Int := 0
  rthLastPx : Int := 0
  closePx : Int := 0
  pmHighPx : Int := 0
  dayVolume : UInt64 := 0
  notionalE4 : UInt64 := 0
  trades : UInt64 := 0
  lastTradeNs : Int := 0
  tradingState : UInt8 := 0
  haltReason : Bytes := []
  regShoRestricted : Bool := false
  bidPx : Int := 0
  askPx : Int := 0
  bidSz : UInt32 := 0
  askSz : UInt32 := 0
  quoteNs : Int := 0
  deriving Repr, DecidableEq

/-- A usable two-sided, uncrossed quote. -/
def MarketHot.quoteValid (h : MarketHot) : Bool :=
  decide (h.bidPx > 0) && decide (h.askPx > 0) && decide (h.askPx > h.bidPx)

def MarketHot.halted (h : MarketHot) : Bool :=
  h.tradingState == ch 'H' || h.tradingState == ch 'P' || h.tradingState == ch 'Q'

structure MinuteBar where
  minute : Int := -1
  openPx : Int := 0
  highPx : Int := 0
  lowPx : Int := 0
  closePx : Int := 0
  volume : UInt64 := 0
  deriving Repr, DecidableEq

instance neZero_64 : NeZero 64 := ⟨by decide⟩

/-- The bars are a ring indexed by `minute % 64`. -/
structure MarketState where
  hot : MarketHot := {}
  bars : Fin 64 → MinuteBar := fun _ => {}

namespace MarketState

/-- Volume traded in minutes from `fromMinute` on that are still in the ring. -/
def volumeSinceMinute (s : MarketState) (fromMinute : Int) : UInt64 :=
  (List.finRange 64).foldl
    (fun v i => if (s.bars i).minute ≥ fromMinute then v + (s.bars i).volume else v) 0

/-- Close of the latest bar at or before `minute` (0 if not in the ring). -/
def priceAtMinute (s : MarketState) (minute : Int) : Int :=
  ((List.finRange 64).foldl (fun (acc : Int × Int) i =>
    let b := s.bars i
    if b.minute ≥ 0 ∧ b.minute ≤ minute ∧ b.minute > acc.1 then (b.minute, b.closePx) else acc)
    (-1, 0)).2

end MarketState

structure MarketBoard (n : Nat) where
  states : Fin n → MarketState := fun _ => {}
  midnightNs : Int := 0

namespace MarketBoard

variable {n : Nat}

/-- Record a print in the minute ring. -/
def applyBar (b : MinuteBar) (minute px : Int) (shares : UInt64) : MinuteBar :=
  let b := if b.minute ≠ minute then
      { minute := minute, openPx := px, highPx := px, lowPx := px, closePx := px, volume := 0 }
    else b
  let b := if px > b.highPx then { b with highPx := px } else b
  let b := if px < b.lowPx then { b with lowPx := px } else b
  { b with closePx := px, volume := b.volume + shares }

def applyTrade (midnightNs : Int) (s : MarketState) (px : Int) (shares : UInt64) (ns : Nat) :
    MarketState :=
  let h := { s.hot with lastPx := px }
  let h := if h.highPx = 0 ∨ px > h.highPx then { h with highPx := px } else h
  let h := if h.lowPx = 0 ∨ px < h.lowPx then { h with lowPx := px } else h
  let h := { h with
    dayVolume := h.dayVolume + shares
    notionalE4 := h.notionalE4 + .ofNat px.toNat * shares
    trades := h.trades + 1
    lastTradeNs := midnightNs + ns }
  let h := if ns < kRthOpenNs then
      if px > h.pmHighPx then { h with pmHighPx := px } else h
    else if ns < kRthCloseNs then
      { h with openPx := if h.openPx = 0 then px else h.openPx, rthLastPx := px }
    else h
  let minute := ns / kNsPerMinute
  let slot : Fin 64 := Fin.ofNat 64 minute
  { hot := h, bars := Function.update s.bars slot (applyBar (s.bars slot) minute px shares) }

def modify (b : MarketBoard n) (sym : Fin n) (f : MarketState → MarketState) : MarketBoard n :=
  { b with states := Function.update b.states sym (f (b.states sym)) }

/-- Change the state of a symbol on the board; ids that are not on it are ignored. -/
def modify? (b : MarketBoard n) (sym : Option (Fin n)) (f : MarketState → MarketState) :
    MarketBoard n :=
  match sym with
  | none => b
  | some s => b.modify s f

def onTrade (b : MarketBoard n) (sym : Option (Fin n)) (px : Int) (shares : UInt64) (ns : Nat) :
    MarketBoard n :=
  if px ≤ 0 ∨ shares = 0 then b
  else b.modify? sym fun s => applyTrade b.midnightNs s px shares ns

def onCross (b : MarketBoard n) (sym : Option (Fin n)) (px : Int) (shares : UInt64) (ns : Nat)
    (crossType : UInt8) : MarketBoard n :=
  if px ≤ 0 then b
  else b.modify? sym fun s =>
    let s := if shares > 0 then applyTrade b.midnightNs s px shares ns else s
    if crossType = ch 'O' then { s with hot.openPx := px }
    else if crossType = ch 'C' then { s with hot.closePx := px }
    else s

/-- The reason of a trading action: up to four characters before a blank or a NUL. -/
def reasonText (reason : Bytes) : Bytes := (reason.take 4).takeWhile fun c => c ≠ 0 ∧ c ≠ ch ' '

def onTradingAction (b : MarketBoard n) (sym : Option (Fin n)) (state : UInt8) (reason : Bytes) :
    MarketBoard n :=
  b.modify? sym fun s =>
    { s with hot.tradingState := state, hot.haltReason := reasonText reason }

/-- `bid_sz > UINT32_MAX ? UINT32_MAX : bid_sz`. -/
def clampSize (v : UInt64) : UInt32 := if v > 0xFFFFFFFF then 0xFFFFFFFF else v.toUInt32

def onQuote (b : MarketBoard n) (sym : Option (Fin n)) (bid : Int) (bidSz : UInt64) (ask : Int)
    (askSz : UInt64) (ns : Nat) : MarketBoard n :=
  b.modify? sym fun s => { s with
    hot.bidPx := bid
    hot.askPx := ask
    hot.bidSz := clampSize bidSz
    hot.askSz := clampSize askSz
    hot.quoteNs := b.midnightNs + ns }

def onRegSho (b : MarketBoard n) (sym : Option (Fin n)) (action : UInt8) : MarketBoard n :=
  b.modify? sym fun s =>
    { s with hot.regShoRestricted := action == ch '1' || action == ch '2' }

/-- The quote fields of a symbol. -/
def quote (b : MarketBoard n) (s : Fin n) : Int × UInt32 × Int × UInt32 :=
  let h := (b.states s).hot
  (h.bidPx, h.bidSz, h.askPx, h.askSz)

theorem quote_modify {b : MarketBoard n} {sym : Fin n} {f : MarketState → MarketState}
    (hf : ∀ s : MarketState, (f s).hot.bidPx = s.hot.bidPx ∧ (f s).hot.bidSz = s.hot.bidSz ∧
      (f s).hot.askPx = s.hot.askPx ∧ (f s).hot.askSz = s.hot.askSz) (s : Fin n) :
    (b.modify sym f).quote s = b.quote s := by
  rcases eq_or_ne s sym with rfl | hne
  · obtain ⟨h1, h2, h3, h4⟩ := hf (b.states s)
    simp [quote, modify, h1, h2, h3, h4]
  · simp [quote, modify, hne]

theorem quote_modify? {b : MarketBoard n} {sym : Option (Fin n)} {f : MarketState → MarketState}
    (hf : ∀ s : MarketState, (f s).hot.bidPx = s.hot.bidPx ∧ (f s).hot.bidSz = s.hot.bidSz ∧
      (f s).hot.askPx = s.hot.askPx ∧ (f s).hot.askSz = s.hot.askSz) (s : Fin n) :
    (b.modify? sym f).quote s = b.quote s := by
  cases sym with
  | none => rfl
  | some sym => exact quote_modify hf s

theorem applyTrade_quote (m : Int) (s : MarketState) (px : Int) (shares : UInt64) (ns : Nat) :
    (applyTrade m s px shares ns).hot.bidPx = s.hot.bidPx ∧
      (applyTrade m s px shares ns).hot.bidSz = s.hot.bidSz ∧
      (applyTrade m s px shares ns).hot.askPx = s.hot.askPx ∧
      (applyTrade m s px shares ns).hot.askSz = s.hot.askSz := by
  unfold applyTrade
  dsimp only
  refine ⟨?_, ?_, ?_, ?_⟩ <;> (repeat' split) <;> rfl

@[simp] theorem quote_onTrade (b : MarketBoard n) (sym : Option (Fin n)) (px : Int)
    (shares : UInt64) (ns : Nat) (s : Fin n) : (b.onTrade sym px shares ns).quote s = b.quote s := by
  unfold onTrade
  split
  · rfl
  · exact quote_modify? (fun st => applyTrade_quote _ st px shares ns) s

@[simp] theorem quote_onCross (b : MarketBoard n) (sym : Option (Fin n)) (px : Int)
    (shares : UInt64) (ns : Nat) (crossType : UInt8) (s : Fin n) :
    (b.onCross sym px shares ns crossType).quote s = b.quote s := by
  unfold onCross
  split
  · rfl
  · refine quote_modify? (fun st => ?_) s
    have h := applyTrade_quote b.midnightNs st px shares ns
    dsimp only
    split <;> (repeat' split) <;> first | exact h | exact ⟨rfl, rfl, rfl, rfl⟩

@[simp] theorem quote_onTradingAction (b : MarketBoard n) (sym : Option (Fin n)) (state : UInt8)
    (reason : Bytes) (s : Fin n) : (b.onTradingAction sym state reason).quote s = b.quote s := by
  unfold onTradingAction
  refine quote_modify? (fun st => ?_) s
  exact ⟨rfl, rfl, rfl, rfl⟩

@[simp] theorem quote_onRegSho (b : MarketBoard n) (sym : Option (Fin n)) (action : UInt8)
    (s : Fin n) : (b.onRegSho sym action).quote s = b.quote s := by
  unfold onRegSho
  refine quote_modify? (fun st => ?_) s
  exact ⟨rfl, rfl, rfl, rfl⟩

theorem quote_onQuote_self (b : MarketBoard n) (s : Fin n) (bid : Int) (bidSz : UInt64) (ask : Int)
    (askSz : UInt64) (ns : Nat) : (b.onQuote (some s) bid bidSz ask askSz ns).quote s =
      (bid, clampSize bidSz, ask, clampSize askSz) := by
  simp [quote, onQuote, modify?, modify]

theorem quote_onQuote_of_ne (b : MarketBoard n) {s s' : Fin n} (h : s' ≠ s) (bid : Int)
    (bidSz : UInt64) (ask : Int) (askSz : UInt64) (ns : Nat) :
    (b.onQuote (some s) bid bidSz ask askSz ns).quote s' = b.quote s' := by
  simp [quote, onQuote, modify?, modify, h]

end MarketBoard

end Stok
