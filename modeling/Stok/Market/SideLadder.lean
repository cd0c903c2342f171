import Mathlib.Order.Bounds.Defs
import Stok.Lib.BinarySearch
import Stok.Market.LevelBook

/-!
# Price ladders against a price map (`market/level_book.hpp`)

`SideLadder` as the source has it: positions come from a binary search, levels are inserted,
changed and erased by their index, and removal tries the touch first. On a sorted ladder this
is what `Ladder.add` and `Ladder.remove` do, so a ladder built by calls stands for the
reference map of the same calls (`run_stands`).
-/

namespace Stok

/-- The levels are ordered worst to best. -/
structure SideLadder where
  bid : Bool := true
  lv : Ladder := []
  deriving Repr, DecidableEq

namespace SideLadder

/-- First level not worse than `price` (i.e. where `price` belongs). -/
def position (s : SideLadder) (price : UInt32) : Nat :=
  BinarySearch.lowerBound (fun l => decide (Ladder.worse s.bid l.price price)) s.lv

def add (s : SideLadder) (price : UInt32) (qty : UInt64) : SideLadder :=
  if qty = 0 then s
  else
    let it := s.position price
    match s.lv[it]? with
    | some l =>
      if l.price = price then { s with lv := s.lv.set it { l with qty := l.qty + qty } }
      else { s with lv := s.lv.insertIdx it ⟨price, qty⟩ }
    | none => { s with lv := s.lv.insertIdx it ⟨price, qty⟩ }

/-- `remove` from its binary search on. -/
def removeFound (s : SideLadder) (price : UInt32) (qty : UInt64) : SideLadder :=
  let it := s.position price
  match s.lv[it]? with
  | some l =>
    if l.price ≠ price then s
    else if qty ≥ l.qty then { s with lv := s.lv.eraseIdx it }
    else { s with lv := s.lv.set it { l with qty := l.qty - qty } }
  | none => s

/-- Removes up to `qty` at `price`; drops the level when it empties. -/
def remove (s : SideLadder) (price : UInt32) (qty : UInt64) : SideLadder :=
  if qty = 0 then s
  else match s.lv.getLast? with
    | none => s
    | some l =>
      -- fast path: the touch
      if l.price = price then
        if qty ≥ l.qty then { s with lv := s.lv.dropLast }
        else { s with lv := s.lv.dropLast ++ [{ l with qty := l.qty - qty }] }
      else s.removeFound price qty

/-- `remove` without the fast path. -/
def removeSearched (s : SideLadder) (price : UInt32) (qty : UInt64) : SideLadder :=
  if qty = 0 ∨ s.lv.isEmpty then s else s.removeFound price qty

def bestPrice (s : SideLadder) : UInt32 := Ladder.bestPrice s.lv

def bestQty (s : SideLadder) : UInt64 := Ladder.bestQty s.lv

/-! ## What a call does to a sorted ladder -/

variable {bid : Bool}

theorem sorted_partitioned {l : Ladder} (h : Ladder.Sorted bid l) (price : UInt32) :
    BinarySearch.Partitioned (fun e => decide (Ladder.worse bid e.price price)) l := by
  refine List.Pairwise.imp (fun {a b} hab hb => ?_) h
  rw [decide_eq_true_iff] at hb ⊢
  exact Ladder.worse_trans hab hb

theorem position_eq {l : Ladder} (h : Ladder.Sorted bid l) (price : UInt32) :
    position ⟨bid, l⟩ price = (l.takeWhile fun e => decide (Ladder.worse bid e.price price)).length :=
  (sorted_partitioned h price).lowerBound_eq

/-- What `add` writes at an index is what the scan from the worst level writes. -/
theorem addAt_eq (bid : Bool) (price : UInt32) (qty : UInt64) (l : Ladder) :
    Ladder.addAt bid price qty l =
      let it := (l.takeWhile fun e => decide (Ladder.worse bid e.price price)).length
      match l[it]? with
      | some e =>
        if e.price = price then l.set it { e with qty := e.qty + qty } else l.insertIdx it ⟨price, qty⟩
      | none => l.insertIdx it ⟨price, qty⟩ := by
  induction l with
  | nil => rfl
  | cons e l ih =>
    by_cases hw : Ladder.worse bid e.price price
    · simp only [Ladder.addAt, hw, if_true, List.takeWhile_cons, decide_true, List.length_cons,
        List.getElem?_cons_succ, ih]
      rcases l[_]? with _ | d
      · rfl
      · dsimp only
        split <;> rfl
    · simp [Ladder.addAt, hw]

theorem removeAt_eq (bid : Bool) (price : UInt32) (qty : UInt64) (l : Ladder) :
    Ladder.removeAt bid price qty l =
      let it := (l.takeWhile fun e => decide (Ladder.worse bid e.price price)).length
      match l[it]? with
      | some e =>
        if e.price ≠ price then l
        else if qty ≥ e.qty then l.eraseIdx it
        else l.set it { e with qty := e.qty - qty }
      | none => l := by
  induction l with
  | nil => rfl
  | cons e l ih =>
    by_cases hw : Ladder.worse bid e.price price
    · simp only [Ladder.removeAt, hw, if_true, List.takeWhile_cons, decide_true, List.length_cons,
        List.getElem?_cons_succ, ih]
      rcases l[_]? with _ | d
      · rfl
      · dsimp only
        split
        · rfl
        · split <;> rfl
    · simp [Ladder.removeAt, hw]

theorem add_eq {l : Ladder} (h : Ladder.Sorted bid l) (price : UInt32) (qty : UInt64) :
    add ⟨bid, l⟩ price qty = ⟨bid, Ladder.add bid l price qty⟩ := by
  unfold add Ladder.add
  split
  · rfl
  · rw [position_eq h, addAt_eq]
    dsimp only
    rcases l[_]? with _ | d
    · rfl
    · dsimp only
      split <;> rfl

theorem removeFound_eq {l : Ladder} (h : Ladder.Sorted bid l) (price : UInt32) (qty : UInt64) :
    removeFound ⟨bid, l⟩ price qty = ⟨bid, Ladder.removeAt bid price qty l⟩ := by
  unfold removeFound
  rw [position_eq h, removeAt_eq]
  dsimp only
  rcases l[_]? with _ | d
  · rfl
  · dsimp only
    split
    · rfl
    · split <;> rfl

theorem remove_eq {l : Ladder} (h : Ladder.Sorted bid l) (price : UInt32) (qty : UInt64) :
    remove ⟨bid, l⟩ price qty = ⟨bid, Ladder.remove bid l price qty⟩ := by
  unfold remove Ladder.remove
  split
  · rfl
  · rcases hlast : l.getLast? with _ | e
    · rfl
    · dsimp only
      split
      · split <;> rfl
      · exact removeFound_eq h price qty

/-- On a sorted ladder the fast path finds what the search would find. -/
theorem remove_eq_searched {l : Ladder} (h : Ladder.Sorted bid l) (price : UInt32) (qty : UInt64) :
    remove ⟨bid, l⟩ price qty = removeSearched ⟨bid, l⟩ price qty := by
  rw [remove_eq h, removeSearched]
  by_cases hq : qty = 0
  · rw [if_pos (.inl hq), Ladder.remove, if_pos hq]
  · rw [h.remove_eq hq, removeFound_eq h]
    cases l with
    | nil => simp [Ladder.removeAt]
    | cons e l => simp [hq]

/-! ## The reference map -/

/-- A map from prices to positive quantities; a price without an entry has `0`. -/
abbrev PriceMap := UInt32 → Nat

inductive Call where
  | add (price : UInt32) (qty : UInt64)
  | remove (price : UInt32) (qty : UInt64)
  deriving Repr, DecidableEq

/-- The reference: a total goes up, or down as far as it is. -/
def refStep (t : PriceMap) : Call → PriceMap
  | .add price qty => Function.update t price (t price + qty.toNat)
  | .remove price qty => Function.update t price (t price - qty.toNat)

def refRun (calls : List Call) : PriceMap := calls.foldl refStep fun _ => 0

def step (s : SideLadder) : Call → SideLadder
  | .add price qty => s.add price qty
  | .remove price qty => s.remove price qty

def run (bid : Bool) (calls : List Call) : SideLadder := calls.foldl step { bid }

/-- The ladder `s` is the map `t`, in the order of its side. -/
structure Stands (bid : Bool) (s : SideLadder) (t : PriceMap) : Prop where
  side : s.bid = bid
  levels : ∀ l : Level, l ∈ s.lv ↔ l.qty.toNat = t l.price ∧ 0 < t l.price
  ordered : s.lv.Pairwise fun a b => if bid then a.price < b.price else b.price < a.price
  empty : (∀ p, t p = 0) → s.bestPrice = 0 ∧ s.bestQty = 0
  best : (∃ p, 0 < t p) → s.bestQty.toNat = t s.bestPrice ∧
    if bid then IsGreatest {p | 0 < t p} s.bestPrice else IsLeast {p | 0 < t p} s.bestPrice
  touch : ∀ price qty, s.remove price qty = s.removeSearched price qty

/-- The last level of a ladder that holds `t` is the best price of `t`. -/
theorem best_of_last {l : Ladder} {t : PriceMap} (h : Ladder.Holds bid l t) {e : Level}
    (he : l.getLast? = some e) :
    e.qty.toNat = t e.price ∧
      if bid then IsGreatest {p | 0 < t p} e.price else IsLeast {p | 0 < t p} e.price := by
  obtain ⟨hqty, hpos⟩ := h.qty e (List.mem_of_getLast? he)
  have hworst : ∀ p, 0 < t p → p = e.price ∨ Ladder.worse bid p e.price := by
    intro p hp
    obtain ⟨d, hd, rfl⟩ := h.present p hp
    obtain ⟨init, rfl⟩ := List.getLast?_eq_some_iff.1 he
    rcases List.mem_append.1 hd with hd | hd
    · exact .inr ((List.pairwise_append.1 h.sorted).2.2 d hd e (List.mem_singleton.2 rfl))
    · exact .inl (congrArg Level.price (List.mem_singleton.1 hd))
  refine ⟨hqty, ?_⟩
  cases bid with
  | true =>
    refine ⟨hpos, fun p hp => ?_⟩
    rcases hworst p hp with rfl | hw
    · exact UInt32.le_refl _
    · exact UInt32.le_of_lt hw
  | false =>
    refine ⟨hpos, fun p hp => ?_⟩
    rcases hworst p hp with rfl | hw
    · exact UInt32.le_refl _
    · exact UInt32.le_of_lt hw

theorem stands_of_holds {l : Ladder} {t : PriceMap} (h : Ladder.Holds bid l t) :
    Stands bid ⟨bid, l⟩ t where
  side := rfl
  levels e := by
    refine ⟨fun he => h.qty e he, fun ⟨hqty, hpos⟩ => ?_⟩
    obtain ⟨d, hd, hp⟩ := h.present e.price hpos
    have hq : d.qty = e.qty := UInt64.toNat_inj.1 (by rw [(h.qty d hd).1, hqty, hp])
    obtain rfl : d = e := by
      cases d
      cases e
      exact congrArg₂ Level.mk hp hq
    exact hd
  ordered := h.sorted
  empty h0 := by
    obtain rfl : l = [] := List.eq_nil_iff_forall_not_mem.2 fun e he => by
      have := (h.qty e he).2
      rw [h0] at this
      exact Nat.lt_irrefl 0 this
    exact ⟨rfl, rfl⟩
  best hne := by
    obtain ⟨p, hp⟩ := hne
    obtain ⟨d, hd, -⟩ := h.present p hp
    obtain ⟨e, he⟩ : ∃ e, l.getLast? = some e :=
      ⟨_, List.getLast?_eq_some_getLast (List.ne_nil_of_mem hd)⟩
    have hbest := best_of_last h he
    simp only [bestQty, bestPrice, Ladder.bestQty, Ladder.bestPrice, he]
    exact hbest
  touch price qty := remove_eq_searched h.sorted price qty

theorem step_holds {l : Ladder} {t : PriceMap} (h : Ladder.Holds bid l t) (c : Call)
    (hfit : ∀ p, refStep t c p < 2 ^ 64) :
    ∃ l', step ⟨bid, l⟩ c = ⟨bid, l'⟩ ∧ Ladder.Holds bid l' (refStep t c) := by
  cases c with
  | add price qty =>
    refine ⟨_, add_eq h.sorted price qty, h.add ?_⟩
    have := hfit price
    rwa [refStep, Function.update_self] at this
  | remove price qty => exact ⟨_, remove_eq h.sorted price qty, h.remove price qty⟩

theorem run_holds (bid : Bool) (calls : List Call)
    (hfit : ∀ cs, cs <+: calls → ∀ p, refRun cs p < 2 ^ 64) :
    ∃ l, run bid calls = ⟨bid, l⟩ ∧ Ladder.Holds bid l (refRun calls) := by
  induction calls using List.reverseRecOn with
  | nil => exact ⟨[], rfl, Ladder.Holds.nil⟩
  | append_singleton calls c ih =>
    obtain ⟨l, hl, hholds⟩ := ih fun cs hcs => hfit cs (hcs.trans (List.prefix_append ..))
    have href : refRun (calls ++ [c]) = refStep (refRun calls) c := by
      rw [refRun, List.foldl_append]
      rfl
    obtain ⟨l', hl', hholds'⟩ := step_holds hholds c fun p => by
      have := hfit _ List.prefix_rfl p
      rwa [href] at this
    refine ⟨l', ?_, by rwa [href]⟩
    rw [run, List.foldl_append]
    exact (congrArg (step · c) hl).trans hl'

/-- After any calls whose totals stay below `2 ^ 64` the ladder is the reference map. -/
theorem run_stands (bid : Bool) (calls : List Call)
    (hfit : ∀ cs, cs <+: calls → ∀ p, refRun cs p < 2 ^ 64) :
    Stands bid (run bid calls) (refRun calls) := by
  obtain ⟨l, hl, hholds⟩ := run_holds bid calls hfit
  rw [hl]
  exact stands_of_holds hholds

/-- Two bids, a removal of more than the touch has and one at an unknown price. -/
theorem run_stands_bids :
    Stands true (run true [.add 5 10, .add 7 1, .remove 7 9, .remove 6 2]) (refRun
      [.add 5 10, .add 7 1, .remove 7 9, .remove 6 2]) := by
  refine run_stands true _ fun cs hcs p => ?_
  rw [← List.mem_inits] at hcs
  simp only [List.inits, List.map_cons, List.map_nil, List.mem_cons, List.not_mem_nil, or_false] at hcs
  rcases hcs with rfl | rfl | rfl | rfl | rfl <;>
    simp only [refRun, List.foldl, refStep, Function.update_apply] <;> (repeat' split) <;> decide

end SideLadder

end Stok
