import Stok.Market.Board
import Mathlib.Algebra.BigOperators.Group.Finset.Basic
import Mathlib.Algebra.Order.BigOperators.Group.List
import Mathlib.Data.Fintype.BigOperators

/-!
# What the board says of the tape

The prints of a symbol are the trades and crosses that the board accepts. `Tallied` ties the day's
numbers of a symbol to its prints, and `Barred` the minute ring, when the prints come in the order
of time; both hold along every run of calls. A slot of the ring holds the bar of the latest traded
minute with its remainder, so a sum over recent minutes is exact, and a bar that is overwritten can
leave an older one as the latest that `priceAtMinute` finds.
-/

namespace Stok

namespace MarketBoard

/-- A call of the writer. -/
inductive Call (n : Nat) where
  | trade (sym : Option (Fin n)) (px : Int) (shares : UInt64) (ns : Nat)
  | cross (sym : Option (Fin n)) (px : Int) (shares : UInt64) (ns : Nat) (crossType : UInt8)
  | quote (sym : Option (Fin n)) (bid : Int) (bidSz : UInt64) (ask : Int) (askSz : UInt64) (ns : Nat)
  | tradingAction (sym : Option (Fin n)) (state : UInt8) (reason : Bytes)
  | regSho (sym : Option (Fin n)) (action : UInt8)

variable {n : Nat}

def call (b : MarketBoard n) : Call n → MarketBoard n
  | .trade sym px shares ns => b.onTrade sym px shares ns
  | .cross sym px shares ns crossType => b.onCross sym px shares ns crossType
  | .quote sym bid bidSz ask askSz ns => b.onQuote sym bid bidSz ask askSz ns
  | .tradingAction sym state reason => b.onTradingAction sym state reason
  | .regSho sym action => b.onRegSho sym action

def run (b : MarketBoard n) (calls : List (Call n)) : MarketBoard n := calls.foldl call b

structure Print where
  px : Int
  shares : UInt64
  ns : Nat
  deriving DecidableEq, Repr

def Print.minute (p : Print) : Nat := p.ns / kNsPerMinute

/-- The slot of the ring that a print goes to. -/
def Print.slot (p : Print) : Fin 64 := Fin.ofNat 64 p.minute

/-- Before 09:30. -/
def Print.early (p : Print) : Bool := decide (p.ns < kRthOpenNs)

/-- In regular hours, from 09:30 to 16:00. -/
def Print.regular (p : Print) : Bool := decide (kRthOpenNs ≤ p.ns ∧ p.ns < kRthCloseNs)

/-- The print of symbol `s` that a call makes. -/
def Call.print? (s : Fin n) : Call n → Option Print
  | .trade sym px shares ns | .cross sym px shares ns _ =>
    if sym = some s ∧ 0 < px ∧ shares ≠ 0 then some ⟨px, shares, ns⟩ else none
  | _ => none

/-- The price of the opening cross of symbol `s` that a call reports. -/
def Call.open? (s : Fin n) : Call n → Option Int
  | .cross sym px _ _ crossType => if sym = some s ∧ 0 < px ∧ crossType = ch 'O' then some px else none
  | _ => none

def prints (s : Fin n) (calls : List (Call n)) : List Print := calls.filterMap (·.print? s)

/-- The price of the latest opening cross. -/
def opening (s : Fin n) (calls : List (Call n)) : Option Int := (calls.filterMap (·.open? s)).getLast?

def volume (ps : List Print) : Nat := (ps.map (·.shares.toNat)).sum

def notional (ps : List Print) : Nat := (ps.map fun p => p.px.toNat * p.shares.toNat).sum

/-- The price of a print, zero without one. -/
def pxOf (p : Option Print) : Int := (p.map (·.px)).getD 0

/-- The highest price, at least zero. -/
def highest (ps : List Print) : Int := ps.foldl (fun h p => max h p.px) 0

/-! ## One call -/

/-- A state without what is not about prints. -/
def tape (s : MarketState) : MarketState :=
  { s with
    hot.closePx := 0
    hot.lastTradeNs := 0
    hot.tradingState := 0
    hot.haltReason := []
    hot.regShoRestricted := false
    hot.bidPx := 0
    hot.askPx := 0
    hot.bidSz := 0
    hot.askSz := 0
    hot.quoteNs := 0 }

/-- The state after a print, if there is one. -/
def printed (midnightNs : Int) (st : MarketState) : Option Print → MarketState
  | some p => applyTrade midnightNs st p.px p.shares p.ns
  | none => st

/-- The state after the price of an opening cross, if there is one. -/
def opened (st : MarketState) : Option Int → MarketState
  | some px => { st with hot.openPx := px }
  | none => st

theorem states_modify? (b : MarketBoard n) (sym : Option (Fin n)) (f : MarketState → MarketState)
    (s : Fin n) : (b.modify? sym f).states s = if sym = some s then f (b.states s) else b.states s := by
  cases sym with
  | none => rfl
  | some sym =>
    rcases eq_or_ne s sym with rfl | hne
    · simp [modify?, modify]
    · simp [modify?, modify, hne, hne.symm]

/-- What a call does to the numbers of a symbol. -/
theorem tape_call (b : MarketBoard n) (c : Call n) (s : Fin n) :
    tape ((b.call c).states s) =
      tape (opened (printed b.midnightNs (b.states s) (c.print? s)) (c.open? s)) := by
  cases c with
  | trade sym px shares ns =>
    simp only [call, onTrade, Call.print?, Call.open?]
    by_cases hbad : px ≤ 0 ∨ shares = 0
    · rw [if_pos hbad, if_neg (by rintro ⟨-, hpx, hsh⟩; rcases hbad with h | h; exacts [by omega, hsh h])]
      rfl
    · rw [if_neg hbad, states_modify?]
      obtain ⟨hpx, hsh⟩ := not_or.mp hbad
      by_cases hsym : sym = some s
      · rw [if_pos hsym, if_pos ⟨hsym, by omega, hsh⟩]
        rfl
      · rw [if_neg hsym, if_neg fun h => hsym h.1]
        rfl
  | cross sym px shares ns crossType =>
    simp only [call, onCross, Call.print?, Call.open?]
    by_cases hpx : px ≤ 0
    · rw [if_pos hpx, if_neg (by omega), if_neg (by omega)]
      rfl
    rw [if_neg hpx, states_modify?]
    by_cases hsym : sym = some s
    · have hprint : (if shares > 0 then applyTrade b.midnightNs (b.states s) px shares ns else b.states s) =
          printed b.midnightNs (b.states s)
            (if sym = some s ∧ 0 < px ∧ shares ≠ 0 then some ⟨px, shares, ns⟩ else none) := by
        by_cases hsh : shares = 0
        · rw [hsh, if_neg (by decide), if_neg (by simp)]
          rfl
        · rw [if_pos (UInt64.pos_iff_ne_zero.mpr hsh), if_pos ⟨hsym, by omega, hsh⟩]
          rfl
      rw [if_pos hsym, hprint]
      generalize printed b.midnightNs (b.states s) _ = st
      by_cases hopen : crossType = ch 'O'
      · rw [if_pos hopen, if_pos ⟨hsym, by omega, hopen⟩]
        rfl
      · have hnone : (if sym = some s ∧ 0 < px ∧ crossType = ch 'O' then some px else none) = none :=
          if_neg fun h => hopen h.2.2
        rw [if_neg hopen, hnone]
        split <;> rfl
    · rw [if_neg hsym, if_neg fun h => hsym h.1, if_neg fun h => hsym h.1]
      rfl
  | quote sym bid bidSz ask askSz ns =>
    simp only [call, onQuote, states_modify?]
    split <;> rfl
  | tradingAction sym state reason =>
    simp only [call, onTradingAction, states_modify?]
    split <;> rfl
  | regSho sym action =>
    simp only [call, onRegSho, states_modify?]
    split <;> rfl

/-! ## The numbers of the day -/

/-- The numbers of a symbol are those of its prints and of the opening cross. -/
structure Tallied (ps : List Print) (cross : Option Int) (st : MarketState) : Prop where
  volume : st.hot.dayVolume = .ofNat (volume ps)
  notional : st.hot.notionalE4 = .ofNat (notional ps)
  trades : st.hot.trades = .ofNat ps.length
  last : st.hot.lastPx = pxOf ps.getLast?
  high : ∀ p ∈ ps, p.px ≤ st.hot.highPx
  low : ∀ p ∈ ps, st.hot.lowPx ≤ p.px
  low_nil : ps = [] → st.hot.lowPx = 0
  low_pos : ps ≠ [] → 0 < st.hot.lowPx
  pmHigh : st.hot.pmHighPx = highest (ps.filter Print.early)
  rthLast : st.hot.rthLastPx = pxOf (ps.filter Print.regular).getLast?
  open_ : st.hot.openPx = cross.getD (pxOf (ps.filter Print.regular).head?)
  px_pos : ∀ p ∈ ps, 0 < p.px
  cross_pos : ∀ px, cross = some px → 0 < px

variable {ps : List Print} {cross : Option Int} {st st' : MarketState}

theorem Tallied.congr (h : Tallied ps cross st) (heq : tape st' = tape st) : Tallied ps cross st' := by
  have hhot : ∀ {α : Type} (f : MarketHot → α), f (tape st').hot = f (tape st).hot := fun f => by rw [heq]
  exact
    { volume := (hhot (·.dayVolume)).trans h.volume
      notional := (hhot (·.notionalE4)).trans h.notional
      trades := (hhot (·.trades)).trans h.trades
      last := (hhot (·.lastPx)).trans h.last
      high := fun p hp => (h.high p hp).trans_eq (hhot (·.highPx)).symm
      low := fun p hp => (hhot (·.lowPx)).trans_le (h.low p hp)
      low_nil := fun hnil => (hhot (·.lowPx)).trans (h.low_nil hnil)
      low_pos := fun hne => (h.low_pos hne).trans_eq (hhot (·.lowPx)).symm
      pmHigh := (hhot (·.pmHighPx)).trans h.pmHigh
      rthLast := (hhot (·.rthLastPx)).trans h.rthLast
      open_ := (hhot (·.openPx)).trans h.open_
      px_pos := h.px_pos
      cross_pos := h.cross_pos }

theorem volume_concat (ps : List Print) (p : Print) : volume (ps ++ [p]) = volume ps + p.shares.toNat := by
  simp [volume]

theorem notional_concat (ps : List Print) (p : Print) :
    notional (ps ++ [p]) = notional ps + p.px.toNat * p.shares.toNat := by
  simp [notional]

theorem highest_concat (ps : List Print) (p : Print) : highest (ps ++ [p]) = max (highest ps) p.px :=
  List.foldl_concat ..

theorem pxOf_concat (ps : List Print) (p : Print) : pxOf (ps ++ [p]).getLast? = p.px := by
  simp [pxOf]

/-- The numbers of the day after a print. -/
theorem hot_applyTrade (m : Int) (st : MarketState) (p : Print) :
    let h := (applyTrade m st p.px p.shares p.ns).hot
    (h.dayVolume = st.hot.dayVolume + p.shares ∧
      h.notionalE4 = st.hot.notionalE4 + .ofNat p.px.toNat * p.shares ∧ h.trades = st.hot.trades + 1) ∧
    (h.lastPx = p.px ∧ h.highPx = (if st.hot.highPx = 0 ∨ p.px > st.hot.highPx then p.px else st.hot.highPx) ∧
      h.lowPx = if st.hot.lowPx = 0 ∨ p.px < st.hot.lowPx then p.px else st.hot.lowPx) ∧
    h.pmHighPx = (if p.early then max st.hot.pmHighPx p.px else st.hot.pmHighPx) ∧
    h.rthLastPx = (if p.regular then p.px else st.hot.rthLastPx) ∧
    h.openPx = if p.regular ∧ st.hot.openPx = 0 then p.px else st.hot.openPx := by
  intro h
  have hmax : ∀ a b : Int, max a b = if b > a then b else a := by
    intro a b
    split <;> omega
  rcases Nat.lt_or_ge p.ns kRthOpenNs with hns | hns
  · have he : p.early = true := decide_eq_true hns
    have hr : p.regular = false := decide_eq_false (by omega)
    rw [he, hr, hmax]
    simp only [h, applyTrade, hns, if_true]
    split_ifs <;> simp_all
  · have he : p.early = false := decide_eq_false (by omega)
    rw [he]
    simp only [h, applyTrade, if_neg (Nat.not_lt.mpr hns)]
    rcases Nat.lt_or_ge p.ns kRthCloseNs with hcl | hcl
    · have hr : p.regular = true := decide_eq_true ⟨hns, hcl⟩
      rw [hr]
      simp only [hcl, if_true]
      split_ifs <;> simp_all
    · have hr : p.regular = false := decide_eq_false (by omega)
      rw [hr]
      simp only [if_neg (Nat.not_lt.mpr hcl)]
      split_ifs <;> simp_all

theorem filter_concat_true {f : Print → Bool} {p : Print} (ps : List Print) (h : f p = true) :
    (ps ++ [p]).filter f = ps.filter f ++ [p] := by
  simp [List.filter_append, h]

theorem filter_concat_false {f : Print → Bool} {p : Print} (ps : List Print) (h : f p = false) :
    (ps ++ [p]).filter f = ps.filter f := by
  simp [List.filter_append, h]

/-- The first regular print opens the day, where no cross did. -/
theorem Tallied.openPx_eq_zero (h : Tallied ps cross st) :
    st.hot.openPx = 0 ↔ cross = none ∧ ps.filter Print.regular = [] := by
  rw [h.open_]
  cases cross with
  | some px =>
    have := h.cross_pos px rfl
    exact ⟨fun h0 => absurd h0 this.ne', fun h0 => absurd h0.1 nofun⟩
  | none =>
    cases hr : ps.filter Print.regular with
    | nil => exact ⟨fun _ => ⟨rfl, rfl⟩, fun _ => rfl⟩
    | cons p rest =>
      have hp : 0 < p.px := h.px_pos p (List.mem_of_mem_filter (hr ▸ List.mem_cons_self))
      exact ⟨fun h0 => absurd h0 hp.ne', fun h0 => absurd h0.2 nofun⟩

theorem Tallied.print (h : Tallied ps cross st) (m : Int) {p : Print} (hp : 0 < p.px) :
    Tallied (ps ++ [p]) cross (applyTrade m st p.px p.shares p.ns) := by
  obtain ⟨⟨hvol, hnot, htr⟩, ⟨hlast, hhigh, hlow⟩, hpm, hrth, hopen⟩ := hot_applyTrade m st p
  have hpx : ∀ q ∈ ps ++ [p], 0 < q.px := by
    intro q hq
    rcases List.mem_append.mp hq with hq | hq
    · exact h.px_pos q hq
    · rwa [List.mem_singleton.mp hq]
  refine ⟨?_, ?_, ?_, ?_, ?_, ?_, fun hnil => absurd hnil (by simp), ?_, ?_, ?_, ?_, hpx, h.cross_pos⟩
  · rw [hvol, h.volume, volume_concat, UInt64.ofNat_add, UInt64.ofNat_toNat]
  · rw [hnot, h.notional, notional_concat, UInt64.ofNat_add, UInt64.ofNat_mul, UInt64.ofNat_toNat]
  · rw [htr, h.trades, List.length_append, UInt64.ofNat_add]
    rfl
  · rw [hlast, pxOf_concat]
  · intro q hq
    rw [hhigh]
    rcases List.mem_append.mp hq with hq | hq
    · have := h.high q hq
      have := h.px_pos q hq
      split <;> omega
    · rw [List.mem_singleton.mp hq]
      split <;> omega
  · intro q hq
    rw [hlow]
    rcases List.mem_append.mp hq with hq | hq
    · have := h.low q hq
      have := h.low_pos (List.ne_nil_of_mem hq)
      split <;> omega
    · rw [List.mem_singleton.mp hq]
      split <;> omega
  · intro _
    rw [hlow]
    rcases eq_or_ne ps [] with hnil | hne
    · rw [if_pos (.inl (h.low_nil hnil))]
      exact hp
    · have := h.low_pos hne
      split <;> omega
  · rw [hpm, h.pmHigh]
    cases he : p.early with
    | true => rw [filter_concat_true ps he, highest_concat]; rfl
    | false => rw [filter_concat_false ps he]; rfl
  · rw [hrth, h.rthLast]
    cases hr : p.regular with
    | true => rw [filter_concat_true ps hr, pxOf_concat]; rfl
    | false => rw [filter_concat_false ps hr]; rfl
  · rw [hopen]
    cases hr : p.regular with
    | false =>
      rw [filter_concat_false ps hr, if_neg (by simp), h.open_]
    | true =>
      rw [filter_concat_true ps hr]
      by_cases h0 : st.hot.openPx = 0
      · obtain ⟨hc, hnil⟩ := h.openPx_eq_zero.mp h0
        rw [if_pos ⟨rfl, h0⟩, hc, hnil]
        rfl
      · rw [if_neg (by simp [h0]), h.open_]
        rw [h.openPx_eq_zero, not_and_or] at h0
        cases cross with
        | some px => rfl
        | none =>
          obtain ⟨q, rest, hcons⟩ := List.exists_cons_of_ne_nil (h0.resolve_left (by simp))
          rw [hcons]
          rfl

theorem Tallied.opened (h : Tallied ps cross st) {px : Int} (hpx : 0 < px) :
    Tallied ps (some px) { st with hot.openPx := px } :=
  { h with
    open_ := rfl
    cross_pos := fun _ e => Option.some.inj e ▸ hpx }

theorem tallied_init : Tallied [] none {} :=
  ⟨rfl, rfl, rfl, rfl, nofun, nofun, fun _ => rfl, fun h => absurd rfl h, rfl, rfl, rfl, nofun, nofun⟩

theorem print?_accepted {c : Call n} {s : Fin n} {p : Print} (h : c.print? s = some p) :
    0 < p.px ∧ p.shares ≠ 0 := by
  unfold Call.print? at h
  split at h
  · split at h
    · rename_i hc
      cases h
      exact hc.2
    · cases h
  · split at h
    · rename_i hc
      cases h
      exact hc.2
    · cases h
  · cases h

theorem accepted_of_mem {calls : List (Call n)} {s : Fin n} {p : Print} (hp : p ∈ prints s calls) :
    0 < p.px ∧ p.shares ≠ 0 := by
  obtain ⟨c, -, hc⟩ := List.mem_filterMap.mp hp
  exact print?_accepted hc

theorem open?_pos {c : Call n} {s : Fin n} {px : Int} (h : c.open? s = some px) : 0 < px := by
  unfold Call.open? at h
  split at h
  · split at h
    · rename_i hc
      cases h
      exact hc.2.1
    · cases h
  · cases h

theorem prints_concat (s : Fin n) (calls : List (Call n)) (c : Call n) :
    prints s (calls ++ [c]) = prints s calls ++ (c.print? s).toList := by
  cases h : c.print? s <;> simp [prints, List.filterMap_append, h]

theorem opening_concat (s : Fin n) (calls : List (Call n)) (c : Call n) :
    opening s (calls ++ [c]) = (c.open? s).or (opening s calls) := by
  cases h : c.open? s <;> simp [opening, List.filterMap_append, h]

theorem run_concat (b : MarketBoard n) (calls : List (Call n)) (c : Call n) :
    b.run (calls ++ [c]) = (b.run calls).call c := List.foldl_concat ..

/-- A board before the first call, with the midnight of its date. -/
def fresh (n : Nat) (midnightNs : Int) : MarketBoard n := { midnightNs := midnightNs }

theorem tallied_run (m : Int) (calls : List (Call n)) (s : Fin n) :
    Tallied (prints s calls) (opening s calls) (((fresh n m).run calls).states s) := by
  induction calls using List.reverseRecOn with
  | nil => exact tallied_init
  | append_singleton calls c ih =>
    rw [run_concat, prints_concat, opening_concat]
    refine Tallied.congr ?_ (tape_call _ c s)
    have hprinted : Tallied (prints s calls ++ (c.print? s).toList) (opening s calls)
        (printed ((fresh n m).run calls).midnightNs (((fresh n m).run calls).states s) (c.print? s)) := by
      cases hp : c.print? s with
      | none =>
        rw [Option.toList_none, List.append_nil]
        exact ih
      | some p => exact ih.print _ (print?_accepted hp).1
    cases ho : c.open? s with
    | none => exact hprinted
    | some px => exact hprinted.opened (open?_pos ho)

/-! ## The minute ring -/

/-- The last print that went to a slot. -/
def lastIn (ps : List Print) (i : Fin 64) : Option Print := (ps.filter fun p => p.slot = i).getLast?

/-- A slot holds the bar of the minute of its last print. -/
def Barred (ps : List Print) (bars : Fin 64 → MinuteBar) : Prop :=
  ∀ i, (lastIn ps i = none → bars i = {}) ∧ ∀ p, lastIn ps i = some p →
    (bars i).minute = p.minute ∧ (bars i).closePx = p.px ∧
      (bars i).volume = .ofNat (volume (ps.filter fun q => q.minute = p.minute))

/-- Prints in the order of time. -/
def InTime (ps : List Print) : Prop := ps.Pairwise fun p q => p.ns ≤ q.ns

theorem Print.minute_le {p q : Print} (h : p.ns ≤ q.ns) : p.minute ≤ q.minute := Nat.div_le_div_right h

theorem slot_eq_iff {p q : Print} : p.slot = q.slot ↔ p.minute % 64 = q.minute % 64 := by
  rw [Fin.ext_iff]
  rfl

theorem lastIn_none {i : Fin 64} (h : lastIn ps i = none) {p : Print} (hp : p ∈ ps) : p.slot ≠ i := by
  intro hi
  have hnil := List.getLast?_eq_none_iff.mp h
  exact absurd (List.mem_filter.mpr ⟨hp, decide_eq_true hi⟩) (hnil ▸ List.not_mem_nil)

theorem lastIn_some {i : Fin 64} {p : Print} (h : lastIn ps i = some p) : p ∈ ps ∧ p.slot = i := by
  obtain ⟨hp, hi⟩ := List.mem_filter.mp (List.mem_of_getLast? h)
  exact ⟨hp, of_decide_eq_true hi⟩

/-- The last print of a slot is of its latest minute. -/
theorem InTime.le_lastIn (ht : InTime ps) {i : Fin 64} {p q : Print} (h : lastIn ps i = some p)
    (hq : q ∈ ps) (hi : q.slot = i) : q.minute ≤ p.minute := by
  have hmem : q ∈ ps.filter fun p => p.slot = i := List.mem_filter.mpr ⟨hq, decide_eq_true hi⟩
  have hsub : (ps.filter fun p => p.slot = i).Sublist ps := List.filter_sublist
  have hsorted := List.Pairwise.sublist hsub ht
  obtain ⟨l, hl⟩ := List.getLast?_eq_some_iff.mp h
  rw [hl] at hmem hsorted
  rcases List.mem_append.mp hmem with hmem | hmem
  · exact Print.minute_le ((List.pairwise_append.mp hsorted).2.2 q hmem p (List.mem_singleton.mpr rfl))
  · rw [List.mem_singleton.mp hmem]

theorem applyBar_spec (b : MinuteBar) (minute px : Int) (shares : UInt64) :
    (applyBar b minute px shares).minute = minute ∧ (applyBar b minute px shares).closePx = px ∧
      (applyBar b minute px shares).volume = (if b.minute = minute then b.volume else 0) + shares := by
  by_cases h : b.minute = minute
  · simp only [applyBar, h, ne_eq, not_true_eq_false, if_false, if_true]
    split_ifs <;> simp_all
  · simp [applyBar, h]

theorem volume_filter_eq_zero {f : Print → Bool} (h : ∀ p ∈ ps, f p = false) : volume (ps.filter f) = 0 := by
  rw [List.filter_eq_nil_iff.mpr fun p hp => ne_true_of_eq_false (h p hp)]
  rfl

theorem Barred.print {bars : Fin 64 → MinuteBar} (h : Barred ps bars) (ht : InTime ps) {p : Print}
    (hp : ∀ q ∈ ps, q.ns ≤ p.ns) :
    Barred (ps ++ [p]) (Function.update bars p.slot (applyBar (bars p.slot) p.minute p.px p.shares)) := by
  intro i
  rcases eq_or_ne i p.slot with rfl | hne
  · have hlast : lastIn (ps ++ [p]) p.slot = some p := by
      rw [lastIn, filter_concat_true ps (decide_eq_true rfl), List.getLast?_concat]
    rw [hlast, Function.update_self]
    refine ⟨nofun, fun q hq => ?_⟩
    cases hq
    obtain ⟨hmin, hclose, hvol⟩ := applyBar_spec (bars p.slot) p.minute p.px p.shares
    refine ⟨hmin, hclose, ?_⟩
    rw [hvol, filter_concat_true ps (decide_eq_true rfl), volume_concat, UInt64.ofNat_add, UInt64.ofNat_toNat]
    congr 1
    cases hold : lastIn ps p.slot with
    | none =>
      rw [(h p.slot).1 hold, if_neg (by show ¬ (-1 : Int) = p.minute; omega), volume_filter_eq_zero]
      · rfl
      · intro q hq
        refine decide_eq_false fun hm => lastIn_none hold hq (slot_eq_iff.mpr (by rw [hm]))
    | some q =>
      obtain ⟨hqmin, -, hqvol⟩ := (h p.slot).2 q hold
      obtain ⟨hq, hqslot⟩ := lastIn_some hold
      rw [hqmin, hqvol]
      split
      · rename_i heq
        rw [Int.ofNat_inj.mp heq]
      · rename_i hne
        rw [volume_filter_eq_zero]
        · rfl
        · intro r hr
          refine decide_eq_false fun hm => hne ?_
          have h1 := ht.le_lastIn hold hr (slot_eq_iff.mpr (by rw [hm]))
          have h2 := Print.minute_le (hp q hq)
          omega
  · have hlast : lastIn (ps ++ [p]) i = lastIn ps i := by
      rw [lastIn, filter_concat_false ps (decide_eq_false hne.symm), lastIn]
    rw [hlast, Function.update_of_ne hne]
    refine ⟨(h i).1, fun q hq => ?_⟩
    obtain ⟨hmin, hclose, hvol⟩ := (h i).2 q hq
    have hminute : ¬ p.minute = q.minute := by
      intro hm
      rw [← (lastIn_some hq).2] at hne
      exact hne (slot_eq_iff.mpr (by rw [hm]))
    exact ⟨hmin, hclose, by rw [hvol, filter_concat_false ps (decide_eq_false hminute)]⟩

theorem barred_init : Barred [] fun _ => {} := fun _ => ⟨fun _ => rfl, nofun⟩

theorem barred_run (m : Int) (calls : List (Call n)) (s : Fin n) (ht : InTime (prints s calls)) :
    Barred (prints s calls) (((fresh n m).run calls).states s).bars := by
  induction calls using List.reverseRecOn with
  | nil => exact barred_init
  | append_singleton calls c ih =>
    rw [prints_concat] at ht ⊢
    have hbars := congrArg MarketState.bars (tape_call ((fresh n m).run calls) c s)
    rw [run_concat, show (((fresh n m).run calls).call c |>.states s).bars = _ from hbars]
    obtain ⟨ht, -, hle⟩ := List.pairwise_append.mp ht
    cases hp : c.print? s with
    | none =>
      rw [Option.toList_none, List.append_nil]
      cases c.open? s <;> exact ih ht
    | some p =>
      have hstep := (ih ht).print ht (p := p) fun q hq => hle q hq p (by rw [hp]; exact List.mem_singleton.mpr rfl)
      cases c.open? s <;> exact hstep

/-! ## Volume since a minute -/

theorem volume_slots (ps : List Print) :
    ((List.finRange 64).map fun i => volume (ps.filter fun p => p.slot = i)).sum = volume ps := by
  rw [← Fin.sum_univ_def]
  induction ps with
  | nil => rfl
  | cons p ps ih =>
    have hcons : ∀ i, volume ((p :: ps).filter fun p => p.slot = i) =
        (if p.slot = i then p.shares.toNat else 0) + volume (ps.filter fun p => p.slot = i) := by
      intro i
      by_cases hi : p.slot = i
      · simp [hi, volume]
      · simp [hi]
    simp only [hcons, Finset.sum_add_distrib, Finset.sum_ite_eq, Finset.mem_univ, if_true, ih]
    rfl

/-- A slot counts the prints of the minutes from `m` on, when it is less than a lap behind. -/
theorem Barred.recent {bars : Fin 64 → MinuteBar} (h : Barred ps bars) (ht : InTime ps) {m : Int}
    (hm : ∀ p ∈ ps, (p.minute : Int) - 64 < m) (i : Fin 64) :
    (if (bars i).minute ≥ m then (bars i).volume else 0) =
      .ofNat (volume ((ps.filter fun p => m ≤ p.minute).filter fun p => p.slot = i)) := by
  rw [List.filter_filter]
  cases hlast : lastIn ps i with
  | none =>
    rw [(h i).1 hlast, volume_filter_eq_zero]
    · split <;> rfl
    · intro p hp
      rw [decide_eq_false (lastIn_none hlast hp), Bool.false_and]
  | some p =>
    obtain ⟨hmin, -, hvol⟩ := (h i).2 p hlast
    obtain ⟨hp, rfl⟩ := lastIn_some hlast
    rw [hmin, hvol]
    split
    · rename_i hge
      congr 2
      refine List.filter_congr fun q hq => ?_
      rw [Bool.eq_iff_iff, Bool.and_eq_true, decide_eq_true_eq, decide_eq_true_eq, decide_eq_true_eq,
        slot_eq_iff]
      constructor
      · intro heq
        rw [heq]
        exact ⟨rfl, hge⟩
      · rintro ⟨hslot, hmq⟩
        have := ht.le_lastIn hlast hq (slot_eq_iff.mpr hslot)
        have := hm p hp
        omega
    · rename_i hlt
      rw [volume_filter_eq_zero]
      · rfl
      · intro q hq
        rw [Bool.and_eq_false_iff, decide_eq_false_iff_not, decide_eq_false_iff_not, ← not_and_or]
        rintro ⟨hslot, hmq⟩
        have := ht.le_lastIn hlast hq hslot
        omega

theorem volumeSinceMinute_eq (ht : InTime ps) (h : Barred ps st.bars) {m : Int}
    (hm : ∀ p ∈ ps, (p.minute : Int) - 64 < m) :
    st.volumeSinceMinute m = .ofNat (volume (ps.filter fun p => m ≤ p.minute)) := by
  have hfold : ∀ (l : List (Fin 64)) (v : Nat),
      l.foldl (fun v i => if (st.bars i).minute ≥ m then v + (st.bars i).volume else v) (.ofNat v) =
        .ofNat (v + (l.map fun i => volume ((ps.filter fun p => m ≤ p.minute).filter
          fun p => p.slot = i)).sum) := by
    intro l
    induction l with
    | nil => intro v; rfl
    | cons i l ih =>
      intro v
      have hstep : (if (st.bars i).minute ≥ m then UInt64.ofNat v + (st.bars i).volume else .ofNat v) =
          .ofNat (v + volume ((ps.filter fun p => m ≤ p.minute).filter fun p => p.slot = i)) := by
        rw [UInt64.ofNat_add, ← h.recent ht hm i]
        split
        · rfl
        · rw [UInt64.add_zero]
      rw [List.foldl_cons, hstep, ih, List.map_cons, List.sum_cons, Nat.add_assoc]
  have hall := hfold (List.finRange 64) 0
  rw [volume_slots, Nat.zero_add] at hall
  exact hall

/-! ## The latest price -/

/-- The bar of a minute made way for that of a later one. -/
def Overwritten (ps : List Print) (minute : Nat) : Prop :=
  ∃ q ∈ ps, minute < q.minute ∧ q.minute % 64 = minute % 64

instance (ps : List Print) (minute : Nat) : Decidable (Overwritten ps minute) :=
  inferInstanceAs (Decidable (∃ q ∈ ps, _))

/-- The latest of the bars that `minute` can see, as the loop finds it. -/
theorem priceAtMinute_cases (st : MarketState) (m : Int) :
    (∃ i, 0 ≤ (st.bars i).minute ∧ (st.bars i).minute ≤ m ∧
      (∀ j, 0 ≤ (st.bars j).minute → (st.bars j).minute ≤ m → (st.bars j).minute ≤ (st.bars i).minute) ∧
      st.priceAtMinute m = (st.bars i).closePx) ∨
    (∀ j, 0 ≤ (st.bars j).minute → ¬ (st.bars j).minute ≤ m) ∧ st.priceAtMinute m = 0 := by
  let f : Int × Int → Fin 64 → Int × Int := fun acc i =>
    if (st.bars i).minute ≥ 0 ∧ (st.bars i).minute ≤ m ∧ (st.bars i).minute > acc.1 then
      ((st.bars i).minute, (st.bars i).closePx) else acc
  have hfold : ∀ l : List (Fin 64),
      (∃ i ∈ l, 0 ≤ (st.bars i).minute ∧ (st.bars i).minute ≤ m ∧
        (∀ j ∈ l, 0 ≤ (st.bars j).minute → (st.bars j).minute ≤ m →
          (st.bars j).minute ≤ (st.bars i).minute) ∧
        l.foldl f (-1, 0) = ((st.bars i).minute, (st.bars i).closePx)) ∨
      (∀ j ∈ l, 0 ≤ (st.bars j).minute → ¬ (st.bars j).minute ≤ m) ∧ l.foldl f (-1, 0) = (-1, 0) := by
    intro l
    induction l using List.reverseRecOn with
    | nil => exact .inr ⟨nofun, rfl⟩
    | append_singleton l i ih =>
      rw [List.foldl_concat]
      by_cases hnew : (st.bars i).minute ≥ 0 ∧ (st.bars i).minute ≤ m ∧
          (st.bars i).minute > (l.foldl f (-1, 0)).1
      · refine .inl ⟨i, by simp, hnew.1, hnew.2.1, fun j hj h0 hle => ?_, if_pos hnew⟩
        rcases List.mem_append.mp hj with hj | hj
        · rcases ih with ⟨k, -, -, -, hmax, heq⟩ | ⟨hnone, -⟩
          · have := hmax j hj h0 hle
            rw [heq] at hnew
            omega
          · exact absurd hle (hnone j hj h0)
        · rw [List.mem_singleton.mp hj]
      · rw [show f (l.foldl f (-1, 0)) i = l.foldl f (-1, 0) from if_neg hnew]
        rcases ih with ⟨k, hk, h0, hle, hmax, heq⟩ | ⟨hnone, heq⟩
        · refine .inl ⟨k, List.mem_append_left _ hk, h0, hle, fun j hj hj0 hjle => ?_, heq⟩
          rcases List.mem_append.mp hj with hj | hj
          · exact hmax j hj hj0 hjle
          · rw [List.mem_singleton.mp hj] at hj0 hjle ⊢
            rw [heq] at hnew
            omega
        · refine .inr ⟨fun j hj h0 hle => ?_, heq⟩
          rcases List.mem_append.mp hj with hj | hj
          · exact hnone j hj h0 hle
          · rw [List.mem_singleton.mp hj] at h0 hle
            rw [heq] at hnew
            omega
  have hmem : ∀ i : Fin 64, i ∈ List.finRange 64 := List.mem_finRange
  rcases hfold (List.finRange 64) with ⟨i, -, h0, hle, hmax, heq⟩ | ⟨hnone, heq⟩
  · exact .inl ⟨i, h0, hle, fun j => hmax j (hmem j), congrArg Prod.snd heq⟩
  · exact .inr ⟨fun j => hnone j (hmem j), congrArg Prod.snd heq⟩

theorem getLast?_filter {l : List Print} {p : Print} {f : Print → Bool} (h : l.getLast? = some p)
    (hf : f p = true) : (l.filter f).getLast? = some p := by
  obtain ⟨l', rfl⟩ := List.getLast?_eq_some_iff.mp h
  rw [filter_concat_true l' hf, List.getLast?_concat]

/-- The last print of a slot has not been overwritten. -/
theorem InTime.not_overwritten (ht : InTime ps) {i : Fin 64} {p : Print} (h : lastIn ps i = some p) :
    ¬ Overwritten ps p.minute := by
  rintro ⟨q, hq, hlt, hmod⟩
  have := ht.le_lastIn h hq ((slot_eq_iff.mpr hmod).trans (lastIn_some h).2)
  omega

/-- A minute that was not overwritten is that of the last print of its slot. -/
theorem exists_lastIn {p : Print} (hp : p ∈ ps) (ht : InTime ps) (h : ¬ Overwritten ps p.minute) :
    ∃ q, lastIn ps p.slot = some q ∧ q.minute = p.minute := by
  cases hlast : lastIn ps p.slot with
  | none => exact absurd rfl (lastIn_none hlast hp)
  | some q =>
    refine ⟨q, rfl, ?_⟩
    have hle := ht.le_lastIn hlast hp rfl
    obtain ⟨hq, hslot⟩ := lastIn_some hlast
    by_contra hne
    exact h ⟨q, hq, by omega, slot_eq_iff.mp hslot⟩

/-- The close of the latest traded minute up to `m`, zero when its bar is no longer in the ring. -/
def latestPrice (ps : List Print) (m : Int) : Int :=
  match (ps.filter fun p => (p.minute : Int) ≤ m).getLast? with
  | none => 0
  | some p => if Overwritten ps p.minute then 0 else p.px

/-- The bar of the latest traded minute up to `m` was overwritten, and that of an earlier minute was
not. -/
def Exposed (ps : List Print) (m : Int) : Prop :=
  ∃ p, (ps.filter fun p => (p.minute : Int) ≤ m).getLast? = some p ∧ Overwritten ps p.minute ∧
    ∃ q ∈ ps, q.minute < p.minute ∧ ¬ Overwritten ps q.minute

/-- The last print up to a minute is of the latest minute. -/
theorem InTime.le_last (ht : InTime ps) {m : Int} {p q : Print}
    (h : (ps.filter fun p => (p.minute : Int) ≤ m).getLast? = some p) (hq : q ∈ ps) (hle : (q.minute : Int) ≤ m) :
    q.minute ≤ p.minute := by
  have hmem : q ∈ ps.filter fun p => (p.minute : Int) ≤ m := List.mem_filter.mpr ⟨hq, decide_eq_true hle⟩
  have hsorted : (ps.filter fun p => (p.minute : Int) ≤ m).Pairwise fun p q => p.ns ≤ q.ns :=
    ht.sublist List.filter_sublist
  obtain ⟨l, hl⟩ := List.getLast?_eq_some_iff.mp h
  rw [hl] at hmem hsorted
  rcases List.mem_append.mp hmem with hmem | hmem
  · exact Print.minute_le ((List.pairwise_append.mp hsorted).2.2 q hmem p (List.mem_singleton.mpr rfl))
  · rw [List.mem_singleton.mp hmem]

/-- The bar that the loop of `priceAtMinute` ends with. -/
theorem Barred.priceAtMinute (h : Barred ps st.bars) {m : Int} :
    (∃ q i, lastIn ps i = some q ∧ (q.minute : Int) ≤ m ∧
      (∀ j r, lastIn ps j = some r → (r.minute : Int) ≤ m → r.minute ≤ q.minute) ∧
      st.priceAtMinute m = q.px) ∨
    (∀ j r, lastIn ps j = some r → ¬ (r.minute : Int) ≤ m) ∧ st.priceAtMinute m = 0 := by
  have hbar : ∀ {j r}, lastIn ps j = some r → (st.bars j).minute = r.minute := fun hr => ((h _).2 _ hr).1
  rcases priceAtMinute_cases st m with ⟨i, h0, hle, hmax, heq⟩ | ⟨hnone, heq⟩
  · cases hlast : lastIn ps i with
    | none =>
      rw [(h i).1 hlast] at h0
      exact absurd h0 (by decide)
    | some q =>
      obtain ⟨hmin, hclose, -⟩ := (h i).2 q hlast
      refine .inl ⟨q, i, hlast, hmin ▸ hle, fun j r hr hrle => ?_, heq.trans hclose⟩
      have := hmax j (by rw [hbar hr]; exact Int.natCast_nonneg _) (by rw [hbar hr]; exact hrle)
      rw [hbar hr, hmin] at this
      exact Int.ofNat_le.mp this
  · refine .inr ⟨fun j r hr hrle => ?_, heq⟩
    exact hnone j (by rw [hbar hr]; exact Int.natCast_nonneg _) (by rw [hbar hr]; exact hrle)

theorem priceAtMinute_iff (ht : InTime ps) (hpx : ∀ p ∈ ps, 0 < p.px) (h : Barred ps st.bars) (m : Int) :
    st.priceAtMinute m = latestPrice ps m ↔ ¬ Exposed ps m := by
  unfold latestPrice Exposed
  cases hlast : (ps.filter fun p => (p.minute : Int) ≤ m).getLast? with
  | none =>
    have hnone : ∀ q ∈ ps, ¬ (q.minute : Int) ≤ m := by
      intro q hq
      have := List.filter_eq_nil_iff.mp (List.getLast?_eq_none_iff.mp hlast) q hq
      simpa using this
    refine iff_of_true ?_ (by simp)
    rcases h.priceAtMinute (m := m) with ⟨q, i, hq, hle, -⟩ | ⟨-, heq⟩
    · exact absurd hle (hnone q (lastIn_some hq).1)
    · exact heq
  | some p =>
    obtain ⟨hp, hpm⟩ := List.mem_filter.mp (List.mem_of_getLast? hlast)
    replace hpm : (p.minute : Int) ≤ m := of_decide_eq_true hpm
    dsimp only
    by_cases hover : Overwritten ps p.minute
    · rw [if_pos hover]
      rcases h.priceAtMinute (m := m) with ⟨q, i, hq, hle, -, heq⟩ | ⟨hnone, heq⟩
      · obtain ⟨hqmem, -⟩ := lastIn_some hq
        have hkept := ht.not_overwritten hq
        have hlt : q.minute < p.minute :=
          lt_of_le_of_ne (ht.le_last hlast hqmem hle) fun heq => hkept (heq ▸ hover)
        refine iff_of_false ?_ (not_not.mpr ⟨p, rfl, hover, q, hqmem, hlt, hkept⟩)
        rw [heq]
        exact (hpx q hqmem).ne'
      · refine iff_of_true heq ?_
        rintro ⟨p', hp', -, q, hq, hlt, hkept⟩
        cases hp'
        obtain ⟨r, hr, hmin⟩ := exists_lastIn hq ht hkept
        exact hnone _ r hr (by omega)
    · rw [if_neg hover]
      refine iff_of_true ?_ (by rintro ⟨p', hp', hover', -⟩; cases hp'; exact hover hover')
      obtain ⟨r, hr, hmin⟩ := exists_lastIn hp ht hover
      -- the last print of the slot is the last print up to `m`
      have hrp : r = p := by
        have h1 := getLast?_filter (f := fun q => (q.minute : Int) ≤ m) hr (by rw [hmin]; exact decide_eq_true hpm)
        have h2 := getLast?_filter (f := fun q => q.slot = p.slot) hlast (decide_eq_true rfl)
        rw [List.filter_filter] at h1 h2
        simp only [Bool.and_comm] at h1 h2
        exact Option.some.inj (h1.symm.trans h2)
      rcases h.priceAtMinute (m := m) with ⟨q, i, hq, hle, hmax, heq⟩ | ⟨hnone, -⟩
      · have h1 := hmax _ r hr (by omega)
        obtain ⟨hqmem, hslot⟩ := lastIn_some hq
        have h2 := ht.le_last hlast hqmem hle
        have hsame : q.slot = p.slot := slot_eq_iff.mpr (by rw [show q.minute = p.minute by omega])
        rw [← hslot, hsame, hr] at hq
        rw [heq, ← Option.some.inj hq, hrp]
      · exact absurd (by omega) (hnone _ r hr)

/-! ## The board after a run -/

theorem length_le_volume (h : ∀ p ∈ ps, p.shares ≠ 0) : ps.length ≤ volume ps := by
  induction ps with
  | nil => exact Nat.le_refl 0
  | cons p ps ih =>
    have hp : 0 < p.shares.toNat :=
      Nat.pos_of_ne_zero fun h0 => h p List.mem_cons_self (UInt64.toNat_inj.mp h0)
    have hps := ih fun q hq => h q (List.mem_cons_of_mem p hq)
    have hcons : volume (p :: ps) = p.shares.toNat + volume ps := by simp [volume]
    rw [hcons, List.length_cons]
    omega

/-- The average price is between the lowest and the highest one. -/
theorem notional_between (hpx : ∀ p ∈ ps, 0 < p.px) {lo hi : Int} (hlo : ∀ p ∈ ps, lo ≤ p.px)
    (hhi : ∀ p ∈ ps, p.px ≤ hi) :
    lo * (volume ps : Int) ≤ notional ps ∧ (notional ps : Int) ≤ hi * volume ps := by
  induction ps with
  | nil => simp [volume, notional]
  | cons p ps ih =>
    obtain ⟨h1, h2⟩ := ih (fun q hq => hpx q (List.mem_cons_of_mem p hq))
      (fun q hq => hlo q (List.mem_cons_of_mem p hq)) fun q hq => hhi q (List.mem_cons_of_mem p hq)
    have hvol : (volume (p :: ps) : Int) = p.shares.toNat + volume ps := by simp [volume]
    have hnot : (notional (p :: ps) : Int) = p.px * p.shares.toNat + notional ps := by
      have := hpx p List.mem_cons_self
      simp [notional, Int.toNat_of_nonneg this.le]
    have h3 : lo * (p.shares.toNat : Int) ≤ p.px * p.shares.toNat :=
      Int.mul_le_mul_of_nonneg_right (hlo p List.mem_cons_self) (Int.natCast_nonneg _)
    have h4 : p.px * (p.shares.toNat : Int) ≤ hi * p.shares.toNat :=
      Int.mul_le_mul_of_nonneg_right (hhi p List.mem_cons_self) (Int.natCast_nonneg _)
    rw [hvol, hnot, Int.mul_add, Int.mul_add]
    omega

theorem volume_filter_le (ps : List Print) (f : Print → Bool) : volume (ps.filter f) ≤ volume ps :=
  (List.filter_sublist.map _).sum_le_sum fun _ _ => Nat.zero_le _

/-- After any calls, the numbers of a symbol are those of its prints, as long as the totals of the
day fit in 64 bits. -/
theorem board_totals (m : Int) (calls : List (Call n)) (s : Fin n)
    (hvol : volume (prints s calls) < 2 ^ 64) (hnot : notional (prints s calls) < 2 ^ 64) :
    let ps := prints s calls
    let st := ((fresh n m).run calls).states s
    (st.hot.dayVolume.toNat = volume ps ∧ st.hot.notionalE4.toNat = notional ps ∧
      st.hot.trades.toNat = ps.length) ∧
    (ps ≠ [] → st.hot.lowPx ≤ st.hot.lastPx ∧ st.hot.lastPx ≤ st.hot.highPx ∧
      st.hot.lowPx * st.hot.dayVolume.toNat ≤ st.hot.notionalE4.toNat ∧
      (st.hot.notionalE4.toNat : Int) ≤ st.hot.highPx * st.hot.dayVolume.toNat) ∧
    st.hot.pmHighPx = highest (ps.filter Print.early) ∧
    st.hot.rthLastPx = pxOf (ps.filter Print.regular).getLast? ∧
    st.hot.openPx = (opening s calls).getD (pxOf (ps.filter Print.regular).head?) ∧
    (InTime ps → ∀ minute : Int, (∀ p ∈ ps, (p.minute : Int) - 64 < minute) →
      (st.volumeSinceMinute minute).toNat = volume (ps.filter fun p => minute ≤ p.minute)) := by
  intro ps st
  have htally : Tallied ps (opening s calls) st := tallied_run m calls s
  have hlen : ps.length ≤ volume ps := length_le_volume fun p hp => (accepted_of_mem hp).2
  have hday : st.hot.dayVolume.toNat = volume ps := by
    rw [htally.volume, UInt64.toNat_ofNat_of_lt' hvol]
  have hsum : st.hot.notionalE4.toNat = notional ps := by
    rw [htally.notional, UInt64.toNat_ofNat_of_lt' hnot]
  refine ⟨⟨hday, hsum, ?_⟩, fun hne => ?_, htally.pmHigh, htally.rthLast, htally.open_, fun ht minute hm => ?_⟩
  · rw [htally.trades, UInt64.toNat_ofNat_of_lt' (lt_of_le_of_lt hlen hvol)]
  · have hlast : ps.getLast hne ∈ ps := List.getLast_mem hne
    have hpx : st.hot.lastPx = (ps.getLast hne).px := by
      rw [htally.last, List.getLast?_eq_some_getLast hne]
      rfl
    obtain ⟨hlo, hhi⟩ := notional_between htally.px_pos htally.low htally.high
    rw [hday, hsum, hpx]
    exact ⟨htally.low _ hlast, htally.high _ hlast, hlo, hhi⟩
  · rw [volumeSinceMinute_eq ht (barred_run m calls s ht) hm,
      UInt64.toNat_ofNat_of_lt' (lt_of_le_of_lt (volume_filter_le ps _) hvol)]

/-- Trades of the minutes 0, 5 and 69 of the day. -/
def threeTrades : List (Call 1) :=
  [.trade (some 0) 10000 100 0, .trade (some 0) 20000 100 (5 * kNsPerMinute),
    .trade (some 0) 30000 100 (69 * kNsPerMinute)]

theorem board_totals_three_trades :
    (((fresh 1 0).run threeTrades).states 0).hot.dayVolume.toNat = 300 :=
  (board_totals 0 threeTrades 0 (by decide +kernel) (by decide +kernel)).1.1.trans (by decide +kernel)

/-- The price at a minute is the close of the latest minute traded until then, or zero once its bar
was overwritten, unless an older bar has come to light. -/
theorem priceAtMinute_run (midnightNs : Int) (calls : List (Call n)) (s : Fin n)
    (ht : InTime (prints s calls)) (m : Int) :
    (((fresh n midnightNs).run calls).states s).priceAtMinute m = latestPrice (prints s calls) m ↔
      ¬ Exposed (prints s calls) m :=
  priceAtMinute_iff ht (fun _ hp => (accepted_of_mem hp).1) (barred_run midnightNs calls s ht) m

theorem priceAtMinute_run_two_trades :
    (((fresh 1 0).run (threeTrades.take 2)).states 0).priceAtMinute 6 =
      latestPrice (prints 0 (threeTrades.take 2)) 6 := by
  refine (priceAtMinute_run 0 (threeTrades.take 2) 0 (by unfold InTime; decide +kernel) 6).mpr ?_
  rintro ⟨p, hp, ⟨q, hq, hlt, hmod⟩, -⟩
  revert p q
  decide +kernel

/-- The trade of minute 69 takes the slot of minute 5, and the price of minute 6 is that of
minute 0 again. -/
theorem priceAtMinute_older_bar :
    InTime (prints 0 threeTrades) ∧ (69 : Int) - 64 < 6 ∧ latestPrice (prints 0 threeTrades) 6 = 0 ∧
      (((fresh 1 0).run threeTrades).states 0).priceAtMinute 6 = 10000 := by
  refine ⟨by unfold InTime; decide +kernel, by decide, by decide +kernel, by decide +kernel⟩

end MarketBoard

end Stok
