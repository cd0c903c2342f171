import Stok.Market.ItchBook

/-!
# The ladders and the board follow the live orders

`View` is the part of a book the ladders depend on: the symbol of each locate code,
the live orders as a finite map, the ladders and the quotes on the board. `total` is
the sum of the remaining shares of the live orders of a symbol, side and price.
`Core` says that the ladders of quoted symbols stand for those sums; it holds while a
message is handled, when the top of book of one symbol may not be published yet.

Handling a message is a sequence of three moves on the view: an order enters, shares
leave an order, and a top of book is published.
-/

namespace Stok.ItchBook

open Itch

variable {n : Nat}

/-! ## The live orders of a stream -/

/-- What a stream of messages has said so far: the symbols of the locate codes and the live orders. -/
structure Feed (n : Nat) where
  sym : UInt16 → Option (Fin n)
  live : KeyMap Order

/-- The shares an order adds to a symbol, side and price. -/
def weight (sym : UInt16 → Option (Fin n)) (s : Fin n) (bid : Bool) (p : UInt32) (o : Order) : Nat :=
  if sym o.locate = some s ∧ isBid o.side = bid ∧ o.price = p then o.shares.toNat else 0

namespace Feed

/-- The remaining shares of the live orders of a symbol, side and price. -/
def total (f : Feed n) (s : Fin n) (bid : Bool) (p : UInt32) : Nat := f.live.sum (weight f.sym s bid p)

/-- Shares leave a live order; it is gone when none remain. -/
def take (f : Feed n) (ref : UInt64) (shares : Order → UInt32) : Feed n :=
  match f.live.lookup ref with
  | none => f
  | some o =>
    if shares o ≥ o.shares then { f with live := f.live.erase ref }
    else { f with live := f.live.insert ref { o with shares := o.shares - shares o } }

def setSym (f : Feed n) (locate : UInt16) (s : Option (Fin n)) : Feed n :=
  { f with sym := Function.update f.sym locate s }

/-- The meaning of a message for the live orders. -/
def step (findKey : UInt64 → Option (Fin n)) (f : Feed n) : Msg → Feed n
  | .stockDirectory locate _ key _ _ _ => f.setSym locate (findKey key)
  | .tradingAction locate _ key _ _ =>
    if f.sym locate = none then f.setSym locate (findKey key) else f
  | .add locate _ ref side shares price =>
    if f.sym locate = none then f
    else { f with live := f.live.insert ref ⟨price, shares, locate, side⟩ }
  | .executed _ _ ref shares | .executedPrice _ _ ref shares _ _ | .cancel _ _ ref shares =>
    f.take ref fun _ => shares
  | .delete _ _ ref => f.take ref fun o => o.shares
  | .replace _ _ oldRef newRef shares price =>
    match f.live.lookup oldRef with
    | none => f
    | some o =>
      { f with live := (f.live.erase oldRef).insert newRef ⟨price, shares, o.locate, o.side⟩ }
  | _ => f

/-- What a stream promises about the next message: a reference that enters is neither live
nor reserved (a replace may reuse its own), and a locate code that has a symbol keeps it. -/
def Promises (findKey : UInt64 → Option (Fin n)) (f : Feed n) : Msg → Prop
  | .add locate _ ref _ _ _ => f.sym locate ≠ none → ref ≠ kEmpty ∧ f.live.lookup ref = none
  | .replace _ _ oldRef newRef _ _ => f.live.lookup oldRef ≠ none →
      newRef ≠ kEmpty ∧ (newRef = oldRef ∨ f.live.lookup newRef = none)
  | .stockDirectory locate _ key _ _ _ => ∀ s, f.sym locate = some s → findKey key = some s
  | _ => True

instance (findKey : UInt64 → Option (Fin n)) (f : Feed n) :
    (m : Msg) → Decidable (f.Promises findKey m)
  | .add _ _ _ _ _ _ => inferInstanceAs (Decidable (_ ≠ none → _ ∧ _))
  | .replace _ _ _ _ _ _ => inferInstanceAs (Decidable (_ ≠ none → _ ∧ (_ ∨ _)))
  | .stockDirectory _ _ _ _ _ _ => inferInstanceAs (Decidable (∀ _, _ = some _ → _))
  | .systemEvent _ _ | .tradingAction _ _ _ _ _ | .regSho _ _ _ | .executed _ _ _ _
  | .executedPrice _ _ _ _ _ _ | .cancel _ _ _ _ | .delete _ _ _ | .trade _ _ _ _ _ _
  | .cross _ _ _ _ _ _ | .broken _ _ _ | .unused => .isTrue trivial

/-- The promises about a whole stream, and that no level total reaches `2 ^ 64`. -/
def PromisesAll (findKey : UInt64 → Option (Fin n)) (f : Feed n) : List Msg → Prop
  | [] => True
  | m :: ms => f.Promises findKey m ∧ (∀ s bid p, (f.step findKey m).total s bid p < 2 ^ 64) ∧
    (f.step findKey m).PromisesAll findKey ms

/-- A total is at most all the live shares. -/
theorem total_le (f : Feed n) (s : Fin n) (bid : Bool) (p : UInt32) :
    f.total s bid p ≤ f.live.sum fun o => o.shares.toNat := by
  refine Multiset.sum_map_le_sum_map _ _ fun e _ => ?_
  unfold weight
  split
  · exact le_rfl
  · exact Nat.zero_le _

end Feed

/-- The message looks up no order under the reserved reference. -/
def Unreserved : Msg → Prop
  | .executed _ _ ref _ | .executedPrice _ _ ref _ _ _ | .cancel _ _ ref _ | .delete _ _ ref
  | .replace _ _ ref _ _ _ => ref ≠ kEmpty
  | _ => True

instance : (m : Msg) → Decidable (Unreserved m)
  | .executed _ _ _ _ | .executedPrice _ _ _ _ _ _ | .cancel _ _ _ _ | .delete _ _ _
  | .replace _ _ _ _ _ _ => inferInstanceAs (Decidable (_ ≠ _))
  | .systemEvent _ _ | .stockDirectory _ _ _ _ _ _ | .tradingAction _ _ _ _ _ | .regSho _ _ _
  | .add _ _ _ _ _ _ | .trade _ _ _ _ _ _ | .cross _ _ _ _ _ _ | .broken _ _ _ | .unused =>
    .isTrue trivial

/-! ## The invariant -/

structure View (n : Nat) where
  findKey : UInt64 → Option (Fin n)
  sym : UInt16 → Option (Fin n)
  live : KeyMap Order
  books : Fin n → LevelBook
  quote : Fin n → Int × UInt32 × Int × UInt32
  quoted : Fin n → Bool

def view (b : ItchBook n) : View n where
  findKey := b.findKey
  sym := b.locateToSym
  live := b.orders.map
  books := b.books
  quote := b.board.quote
  quoted := b.quoted

def View.feed (v : View n) : Feed n := ⟨v.sym, v.live⟩

def View.total (v : View n) (s : Fin n) (bid : Bool) (p : UInt32) : Nat := v.feed.total s bid p

/-- The quote fields that publishing the kept top of book sets. -/
def pubQuote (lb : LevelBook) : Int × UInt32 × Int × UInt32 :=
  (toInt32 lb.pubBid, MarketBoard.clampSize lb.pubBidQ, toInt32 lb.pubAsk,
    MarketBoard.clampSize lb.pubAskQ)

/-- The kept top of book is that of the ladders. -/
def Current (lb : LevelBook) : Prop :=
  Ladder.bestPrice lb.bids = lb.pubBid ∧ Ladder.bestPrice lb.asks = lb.pubAsk ∧
    Ladder.bestQty lb.bids = lb.pubBidQ ∧ Ladder.bestQty lb.asks = lb.pubAskQ

instance (lb : LevelBook) : Decidable (Current lb) :=
  inferInstanceAs (Decidable (_ ∧ _ ∧ _ ∧ _))

/-- The invariant, with the symbols whose top of book may not be published yet. -/
structure Core (v : View n) (dirty : Option (Fin n)) : Prop where
  mapped : ∀ k o, v.live.lookup k = some o → (v.sym o.locate).isSome = true
  ladders : ∀ s, v.quoted s = true → ∀ bid, Ladder.Holds bid ((v.books s).side bid) (v.total s bid)
  synced : ∀ s, v.quoted s = true → v.quote s = pubQuote (v.books s)
  current : ∀ s, v.quoted s = true → dirty ≠ some s → Current (v.books s)

/-! ## Moves -/

/-- Change one ladder of a symbol, if there is one. -/
def View.modifySide (v : View n) (q : Option (Fin n)) (bid : Bool) (f : Ladder → Ladder) : View n :=
  match q with
  | none => v
  | some s => { v with
      books := Function.update v.books s ((v.books s).setSide bid (f ((v.books s).side bid))) }

def View.setLive (v : View n) (live : KeyMap Order) : View n := { v with live := live }

def View.publish (v : View n) (q : Option (Fin n)) : View n :=
  match q with
  | none => v
  | some s =>
    let lb := v.books s
    if Current lb then v
    else
      let lb := { lb with
        pubBid := Ladder.bestPrice lb.bids
        pubAsk := Ladder.bestPrice lb.asks
        pubBidQ := Ladder.bestQty lb.bids
        pubAskQ := Ladder.bestQty lb.asks }
      { v with
        books := Function.update v.books s lb
        quote := Function.update v.quote s (pubQuote lb) }

/-- The symbol of an order, if its quotes are kept. -/
def View.cell (v : View n) (o : Order) : Option (Fin n) := (v.sym o.locate).filter v.quoted

/-- A new order enters. -/
def View.enter (v : View n) (ref : UInt64) (o : Order) : View n :=
  (v.modifySide (v.cell o) (isBid o.side) fun l =>
    Ladder.add (isBid o.side) l o.price o.shares.toUInt64).setLive (v.live.insert ref o)

/-- `take` shares leave an order; the new orders are given. -/
def View.leave (v : View n) (o : Order) (take : UInt32) (live : KeyMap Order) : View n :=
  (v.modifySide (v.cell o) (isBid o.side) fun l =>
    Ladder.remove (isBid o.side) l o.price take.toUInt64).setLive live

theorem View.total_modifySide (v : View n) (q : Option (Fin n)) (bid : Bool) (f : Ladder → Ladder)
    (live : KeyMap Order) :
    ((v.modifySide q bid f).setLive live).total = (v.setLive live).total := by
  cases q <;> rfl

theorem setLive_publish (v : View n) (q : Option (Fin n)) (live : KeyMap Order) :
    (v.publish q).setLive live = (v.setLive live).publish q := by
  cases q with
  | none => rfl
  | some s =>
    simp only [View.publish]
    split
    · next h => rw [if_pos (show Current ((v.setLive live).books s) from h)]
    · next h => rw [if_neg (show ¬ Current ((v.setLive live).books s) from h)]; rfl

theorem Core.publish {v : View n} {q : Option (Fin n)} (h : Core v q) : Core (v.publish q) none := by
  cases q with
  | none => exact h
  | some s =>
    unfold View.publish
    dsimp only
    split
    · next hc =>
      refine { h with current := fun s' hq _ => ?_ }
      rcases eq_or_ne s' s with rfl | hne
      · exact hc
      · exact h.current s' hq fun e => hne (Option.some.inj e).symm
    · refine ⟨h.mapped, fun s' hq bid => ?_, fun s' hq => ?_, fun s' hq _ => ?_⟩ <;>
        rcases eq_or_ne s' s with rfl | hne
      · simp only [Function.update_self]
        exact h.ladders s' hq bid
      · simp only [Function.update_of_ne hne]
        exact h.ladders s' hq bid
      · simp only [Function.update_self]
      · simp only [Function.update_of_ne hne]
        exact h.synced s' hq
      · simp only [Function.update_self]
        exact ⟨rfl, rfl, rfl, rfl⟩
      · simp only [Function.update_of_ne hne]
        exact h.current s' hq fun e => hne (Option.some.inj e).symm

/-- Changing one ladder and the orders so that they agree again. -/
theorem Core.change {v : View n} {d q : Option (Fin n)} (h : Core v d)
    (hd : ∀ s, d = some s → q = some s) {bid : Bool} {f : Ladder → Ladder} {live : KeyMap Order}
    (hmapped : ∀ k o, live.lookup k = some o → (v.sym o.locate).isSome = true)
    (hq : ∀ s, q = some s → v.quoted s = true →
      Ladder.Holds bid (f ((v.books s).side bid)) ((v.setLive live).total s bid))
    (hother : ∀ s bid', v.quoted s = true → (q ≠ some s ∨ bid' ≠ bid) →
      (v.setLive live).total s bid' = v.total s bid') :
    Core ((v.modifySide q bid f).setLive live) q := by
  cases q with
  | none =>
    refine ⟨hmapped, fun s hs bid' => ?_, h.synced,
      fun s hs _ => h.current s hs fun e => absurd (hd s e) (by simp)⟩
    have he := hother s bid' hs (.inl (by simp))
    show Ladder.Holds bid' _ ((v.setLive live).total s bid')
    rw [he]
    exact h.ladders s hs bid'
  | some s0 =>
    have hbooks : ∀ s, s ≠ s0 → ((v.modifySide (some s0) bid f).setLive live).books s = v.books s :=
      fun s hne => Function.update_of_ne hne _ _
    have hself : ((v.modifySide (some s0) bid f).setLive live).books s0 =
        (v.books s0).setSide bid (f ((v.books s0).side bid)) := Function.update_self _ _ _
    refine ⟨hmapped, fun s hs bid' => ?_, fun s hs => ?_, fun s hs hne => ?_⟩
    · show Ladder.Holds bid' _ ((v.setLive live).total s bid')
      rcases eq_or_ne s s0 with rfl | hne
      · rw [hself]
        rcases eq_or_ne bid' bid with rfl | hbid
        · rw [LevelBook.side_setSide]
          exact hq s rfl hs
        · obtain rfl : bid' = !bid := Bool.eq_not.2 hbid
          rw [LevelBook.side_setSide_not, hother s _ hs (.inr hbid)]
          exact h.ladders s hs _
      · rw [hbooks s hne, hother s bid' hs (.inl fun e => hne (Option.some.inj e).symm)]
        exact h.ladders s hs bid'
    · have hquote : v.quote s = pubQuote (v.books s) := h.synced s hs
      rcases eq_or_ne s s0 with rfl | hne
      · rw [hself]
        show v.quote s = _
        rw [hquote]
        cases bid <;> rfl
      · rw [hbooks s hne]
        exact hquote
    · rw [hbooks s fun e => hne (by rw [e])]
      exact h.current s hs fun e => hne (hd s e)

theorem View.cell_eq {v : View n} {o : Order} {s : Fin n} :
    v.cell o = some s ↔ v.sym o.locate = some s ∧ v.quoted s = true := by
  rw [View.cell, Option.filter_eq_some_iff]

/-- Away from its own cell an order has no weight. -/
theorem View.weight_other {v : View n} {o : Order} {s : Fin n} {bid : Bool}
    (hq : v.quoted s = true) (h : v.cell o ≠ some s ∨ bid ≠ isBid o.side) (p : UInt32) :
    weight v.sym s bid p o = 0 := by
  refine if_neg ?_
  rintro ⟨h1, h2, -⟩
  rcases h with h | h
  · exact h (View.cell_eq.2 ⟨h1, hq⟩)
  · exact h h2.symm

/-- In its own ladder an order weighs its shares, at its price. -/
theorem View.weight_own {v : View n} {o : Order} {s : Fin n} (h : v.cell o = some s) (p : UInt32) :
    weight v.sym s (isBid o.side) p o = if p = o.price then o.shares.toNat else 0 := by
  simp [weight, (View.cell_eq.1 h).1, eq_comm]

theorem Core.enter {v : View n} {d : Option (Fin n)} (h : Core v d) (ref : UInt64) (o : Order)
    (hd : ∀ s, d = some s → v.cell o = some s) (hm : (v.sym o.locate).isSome = true) (hfresh : v.live.lookup ref = none)
    (hlt : ∀ s bid p, (v.enter ref o).total s bid p < 2 ^ 64) :
    Core (v.enter ref o) (v.cell o) := by
  have hsum : ∀ s bid p, (v.setLive (v.live.insert ref o)).total s bid p =
      weight v.sym s bid p o + v.total s bid p := fun s bid p =>
    KeyMap.sum_insert_of_none hfresh o _
  refine h.change hd (fun k o' hk => ?_) (fun s hs hq => ?_) fun s bid hq hne => ?_
  · rw [FlatMap64.lookup_insert_iff] at hk
    split at hk
    · rw [hk]; exact hm
    · exact h.mapped k o' hk
  · have hown := View.weight_own hs
    have hcell : v.total s (isBid o.side) o.price + o.shares.toUInt64.toNat < 2 ^ 64 := by
      have := hlt s (isBid o.side) o.price
      rw [View.enter, View.total_modifySide, hsum, hown, if_pos rfl] at this
      rw [UInt32.toNat_toUInt64]
      omega
    have hadd := (h.ladders s hq (isBid o.side)).add hcell
    convert hadd using 1
    funext p
    rw [hsum, hown, Function.update_apply, UInt32.toNat_toUInt64]
    split
    · next e => subst e; omega
    · omega
  · funext p
    rw [hsum, View.weight_other hq hne, Nat.zero_add]

/-- `take` of the shares of a live order leave. -/
theorem Core.leave {v : View n} (h : Core v none) {ref : UInt64} {o : Order} {take : UInt32}
    (hlive : v.live.lookup ref = some o) (htake : take.toNat ≤ o.shares.toNat)
    {live : KeyMap Order}
    (hnew : live = v.live.erase ref ∧ take = o.shares ∨
      live = v.live.insert ref { o with shares := o.shares - take }) :
    Core (v.leave o take live) (v.cell o) := by
  have hw : ∀ s bid p, (v.setLive live).total s bid p +
      (if v.sym o.locate = some s ∧ isBid o.side = bid ∧ o.price = p then take.toNat else 0) =
      v.total s bid p := by
    intro s bid p
    have hs : v.total s bid p = _ := KeyMap.sum_of_lookup hlive (weight v.sym s bid p)
    rcases hnew with ⟨rfl, rfl⟩ | rfl
    · show KeyMap.sum (v.live.erase ref) (weight v.sym s bid p) + _ = _
      rw [hs, Nat.add_comm]
      rfl
    · show KeyMap.sum (v.live.insert ref _) (weight v.sym s bid p) + _ = _
      rw [hs, KeyMap.sum_insert]
      have hsub : (o.shares - take).toNat = o.shares.toNat - take.toNat :=
        UInt32.toNat_sub_of_le _ _ (UInt32.le_iff_toNat_le.2 htake)
      simp only [weight, hsub]
      split <;> omega
  refine h.change (by simp) (fun k o' hk => ?_) (fun s hs hq => ?_) fun s bid hq hne => ?_
  · rcases hnew with ⟨rfl, -⟩ | rfl
    · rcases eq_or_ne k ref with rfl | hne
      · rw [Finmap.lookup_erase] at hk; cases hk
      · rw [Finmap.lookup_erase_ne hne] at hk
        exact h.mapped k o' hk
    · rw [FlatMap64.lookup_insert_iff] at hk
      split at hk
      · rw [hk]
        exact h.mapped ref o hlive
      · exact h.mapped k o' hk
  · have hrem := (h.ladders s hq (isBid o.side)).remove o.price take.toUInt64
    convert hrem using 1
    funext p
    have hwp := hw s (isBid o.side) p
    rw [Function.update_apply, UInt32.toNat_toUInt64]
    simp only [(View.cell_eq.1 hs).1, true_and] at hwp
    split
    · next e =>
      subst e
      rw [if_pos rfl] at hwp
      omega
    · next e =>
      rw [if_neg fun e' => e e'.symm] at hwp
      omega
  · funext p
    have hwp := hw s bid p
    rw [if_neg, Nat.add_zero] at hwp
    · exact hwp
    · rintro ⟨h1, h2, -⟩
      rcases hne with hne | hne
      · exact hne (View.cell_eq.2 ⟨h1, hq⟩)
      · exact hne h2.symm

/-! ## The handlers as moves -/

theorem view_modifySide (b : ItchBook n) (s : Fin n) (bid : Bool) (f : Ladder → Ladder) :
    (b.modifySide s bid f).view = b.view.modifySide (some s) bid f := rfl

theorem view_publishTop (b : ItchBook n) (s : Fin n) (ts : UInt64) :
    (b.publishTop s ts).view = b.view.publish (some s) := by
  unfold publishTop View.publish
  dsimp only
  split
  · next h => rw [if_pos (show Current (b.view.books s) from h)]
  · next h =>
    rw [if_neg (show ¬ Current (b.view.books s) from h)]
    show View.mk _ _ _ _ _ _ = View.mk _ _ _ _ _ _
    congr 1
    funext s'
    rcases eq_or_ne s' s with rfl | hne
    · rw [MarketBoard.quote_onQuote_self, Function.update_self]
      rfl
    · rw [MarketBoard.quote_onQuote_of_ne _ hne, Function.update_of_ne hne]
      rfl

theorem orders_publishTop (b : ItchBook n) (s : Fin n) (ts : UInt64) :
    (b.publishTop s ts).orders = b.orders := by
  unfold publishTop
  dsimp only
  split <;> rfl

theorem cell_of_some {b : ItchBook n} {o : Order} {s : Fin n} (h : b.locateToSym o.locate = some s) :
    b.view.cell o = if b.quoted s then some s else none := by
  show (b.locateToSym o.locate).filter b.quoted = _
  rw [h, Option.filter_some]

theorem view_removeQuoted (b : ItchBook n) (o : Order) (take : UInt32) (ts : UInt64) :
    (b.removeQuoted o take ts).view = (b.view.modifySide (b.view.cell o) (isBid o.side) fun l =>
      Ladder.remove (isBid o.side) l o.price take.toUInt64).publish (b.view.cell o) := by
  unfold removeQuoted
  cases h : b.locateToSym o.locate with
  | none =>
    have hc : b.view.cell o = none := by
      show (b.locateToSym o.locate).filter b.quoted = none
      rw [h]; rfl
    rw [hc]
    rfl
  | some s =>
    rw [cell_of_some h]
    dsimp only
    split
    · rw [view_publishTop]; rfl
    · rfl

theorem orders_removeQuoted (b : ItchBook n) (o : Order) (take : UInt32) (ts : UInt64) :
    (b.removeQuoted o take ts).orders = b.orders := by
  unfold removeQuoted
  split
  · rfl
  · split
    · exact orders_publishTop _ _ _
    · rfl

theorem view_reduce (b : ItchBook n) (o : Order) (ref : UInt64) (shares : UInt32) (ts : UInt64) :
    (b.reduce o ref shares ts).view =
      (b.view.leave o (if shares < o.shares then shares else o.shares)
        (if shares ≥ o.shares then (b.orders.erase ref).map else
          (b.orders.modify ref fun o => { o with shares := o.shares - shares }).map)).publish
        (b.view.cell o) := by
  rw [View.leave, ← setLive_publish, ← view_removeQuoted b o _ ts]
  unfold reduce
  dsimp only
  rw [orders_removeQuoted]
  split <;> rfl

/-- `reduce` on a live order. -/
theorem Core.reduce {b : ItchBook n} (h : Core b.view none) {ref : UInt64} (hk : ref ≠ kEmpty)
    {o : Order} (hlive : b.orders.map.lookup ref = some o) (shares : UInt32) (ts : UInt64) :
    Core (b.reduce o ref shares ts).view none := by
  rw [view_reduce]
  refine Core.publish (h.leave hlive ?_ ?_)
  · split
    · next hlt => exact Nat.le_of_lt (UInt32.lt_iff_toNat_lt.1 hlt)
    · exact le_rfl
  · by_cases hlt : shares < o.shares
    · right
      rw [if_neg (UInt32.not_le.2 hlt), if_pos hlt, Table.map_modify _ hk hlive]
      rfl
    · left
      rw [if_pos (UInt32.not_lt.1 hlt), if_neg hlt, Table.map_erase]
      exact ⟨rfl, rfl⟩

theorem setLive_modifySide (v : View n) (q : Option (Fin n)) (bid : Bool) (f : Ladder → Ladder)
    (live : KeyMap Order) :
    (v.setLive live).modifySide q bid f = (v.modifySide q bid f).setLive live := by
  cases q <;> rfl

theorem view_addQuoted (b : ItchBook n) (o : Order) {s : Fin n} (hs : b.locateToSym o.locate = some s)
    (ts : UInt64) :
    (if b.quoted s then (b.bookAdd s o.side o.price o.shares).publishTop s ts else b).view =
      (b.view.modifySide (b.view.cell o) (isBid o.side) fun l =>
        Ladder.add (isBid o.side) l o.price o.shares.toUInt64).publish (b.view.cell o) := by
  rw [cell_of_some hs]
  split
  · rw [view_publishTop]; rfl
  · rfl

theorem view_onAdd {b : ItchBook n} {locate : UInt16} {s : Fin n} (hs : b.locateToSym locate = some s)
    (ts : UInt64) {ref : UInt64} (hk : ref ≠ kEmpty) (side : UInt8) (shares price : UInt32) :
    (b.onAdd locate ts ref side shares price).view =
      (b.view.enter ref ⟨price, shares, locate, side⟩).publish
        (b.view.cell ⟨price, shares, locate, side⟩) := by
  unfold onAdd
  rw [hs]
  let b1 : ItchBook n := { b with
    stats.adds := b.stats.adds + 1
    orders := b.orders.insertOrAssign ref ⟨price, shares, locate, side⟩ }
  have hb1 : b1.view = b.view.setLive (b.view.live.insert ref ⟨price, shares, locate, side⟩) := by
    show View.setLive b.view b1.orders.map = _
    rw [Table.map_insertOrAssign b.orders hk]
    rfl
  refine (view_addQuoted b1 ⟨price, shares, locate, side⟩ hs ts).trans ?_
  rw [hb1, setLive_modifySide]
  rfl

/-- What no move changes. -/
def View.fixed (v : View n) : (UInt64 → Option (Fin n)) × (UInt16 → Option (Fin n)) × (Fin n → Bool) :=
  (v.findKey, v.sym, v.quoted)

@[simp] theorem fixed_leave (v : View n) (o : Order) (take : UInt32) (live : KeyMap Order) :
    (v.leave o take live).fixed = v.fixed := by
  unfold View.leave
  cases v.cell o <;> rfl

@[simp] theorem fixed_enter (v : View n) (ref : UInt64) (o : Order) :
    (v.enter ref o).fixed = v.fixed := by
  unfold View.enter
  cases v.cell o <;> rfl

@[simp] theorem fixed_publish (v : View n) (q : Option (Fin n)) : (v.publish q).fixed = v.fixed := by
  cases q with
  | none => rfl
  | some s =>
    unfold View.publish
    dsimp only
    split <;> rfl

theorem live_publish (v : View n) (q : Option (Fin n)) : (v.publish q).live = v.live := by
  cases q with
  | none => rfl
  | some s =>
    unfold View.publish
    dsimp only
    split <;> rfl

theorem cell_leave (v : View n) (o o' : Order) (take : UInt32) (live : KeyMap Order)
    (h : o'.locate = o.locate) : (v.leave o take live).cell o' = v.cell o := by
  have hf := fixed_leave v o take live
  have hsym : (v.leave o take live).sym = v.sym := congrArg (·.2.1) hf
  have hq : (v.leave o take live).quoted = v.quoted := congrArg (·.2.2) hf
  rw [View.cell, View.cell, hsym, hq, h]

theorem view_onReplace {b : ItchBook n} {oldRef newRef : UInt64} {o : Order} (ts : UInt64)
    (hnew : newRef ≠ kEmpty) (ho : b.orders.find oldRef = some o) (shares price : UInt32) :
    (b.onReplace ts oldRef newRef shares price).view =
      ((b.view.leave o o.shares (b.view.live.erase oldRef)).enter newRef
        ⟨price, shares, o.locate, o.side⟩).publish (b.view.cell o) := by
  have hmap : ((b.orders.erase oldRef).insertOrAssign newRef ⟨price, shares, o.locate, o.side⟩).map =
      (b.view.live.erase oldRef).insert newRef ⟨price, shares, o.locate, o.side⟩ := by
    rw [Table.map_insertOrAssign _ hnew, Table.map_erase]
    rfl
  unfold onReplace View.enter
  rw [ho, cell_leave b.view o ⟨price, shares, o.locate, o.side⟩ o.shares _ rfl]
  dsimp only
  rw [show (b.locateToSym o.locate).filter b.quoted = b.view.cell o from rfl]
  unfold View.leave
  cases b.view.cell o with
  | none =>
    show View.setLive b.view (Table.map _) = _
    rw [hmap]
    rfl
  | some s =>
    let b1 : ItchBook n := { b.bookRemove s o.side o.price o.shares with
      orders := (b.orders.erase oldRef).insertOrAssign newRef ⟨price, shares, o.locate, o.side⟩ }
    have hb1 : b1.view = (b.view.modifySide (some s) (isBid o.side) fun l =>
        Ladder.remove (isBid o.side) l o.price o.shares.toUInt64).setLive
          ((b.view.live.erase oldRef).insert newRef ⟨price, shares, o.locate, o.side⟩) := by
      rw [← hmap]
      rfl
    show ((b1.bookAdd s o.side price shares).publishTop s ts).view = _
    rw [view_publishTop, bookAdd, view_modifySide, hb1]
    rfl

/-! ## One message -/

/-- Giving a symbol to a locate code that has none changes no total. -/
theorem Core.remap {v : View n} (h : Core v none) (sym : UInt16 → Option (Fin n))
    (hsym : ∀ l, (v.sym l).isSome = true → sym l = v.sym l) : Core { v with sym := sym } none := by
  have htotal : ∀ s bid, View.total { v with sym := sym } s bid = v.total s bid := by
    intro s bid
    funext p
    refine KeyMap.sum_congr fun k o hk => ?_
    show weight sym s bid p o = weight v.sym s bid p o
    unfold weight
    rw [hsym _ (h.mapped k o hk)]
  refine ⟨fun k o hk => ?_, fun s hq bid => ?_, h.synced, h.current⟩
  · show (sym o.locate).isSome = true
    rw [hsym _ (h.mapped k o hk)]
    exact h.mapped k o hk
  · rw [htotal]
    exact h.ladders s hq bid

theorem view_pushEvent (b : ItchBook n) (e : MarketEvent n) : (b.pushEvent e).view = b.view := by
  unfold pushEvent
  split
  · rfl
  · split <;> rfl

theorem view_board {b : ItchBook n} {board : MarketBoard n} (h : ∀ s, board.quote s = b.board.quote s) :
    { b with board := board }.view = b.view := by
  show View.mk _ _ _ _ _ _ = View.mk _ _ _ _ _ _
  congr 1
  exact funext h

theorem Core.onStockDirectory {b : ItchBook n} (h : Core b.view none) {locate : UInt16}
    {key : UInt64} (hk : ∀ s, b.locateToSym locate = some s → b.findKey key = some s) :
    Core (b.onStockDirectory locate key).view none := by
  refine h.remap (Function.update b.locateToSym locate (b.findKey key)) fun l hsome => ?_
  rcases eq_or_ne l locate with rfl | hne
  · obtain ⟨s, hs⟩ := Option.isSome_iff_exists.1 hsome
    rw [Function.update_self, hs]
    exact hk s hs
  · exact Function.update_of_ne hne _ _

theorem Core.resolveLocate {b : ItchBook n} (h : Core b.view none) (locate : UInt16)
    (key : UInt64) : Core (b.resolveLocate locate key).view none := by
  unfold ItchBook.resolveLocate
  split
  · next hl => exact h.onStockDirectory fun s hs => by rw [hl] at hs; cases hs
  · exact h

theorem Core.onTradingAction {b : ItchBook n} (h : Core b.view none) (locate : UInt16)
    (ts key : UInt64) (state : UInt8) (reason : Bytes) :
    Core (b.onTradingAction locate ts key state reason).view none := by
  have h' := h.resolveLocate locate key
  unfold ItchBook.onTradingAction
  dsimp only
  generalize b.resolveLocate locate key = b' at h' ⊢
  cases b'.locateToSym locate with
  | none => exact h'
  | some s =>
    have hv : { b' with board := b'.board.onTradingAction (some s) state reason }.view = b'.view :=
      view_board (fun s' => MarketBoard.quote_onTradingAction _ _ _ _ s')
    rw [← hv] at h'
    dsimp only
    split
    · rw [view_pushEvent]
      exact h'
    · exact h'

/-- A print on the board leaves the book as it is. -/
theorem Core.print {b : ItchBook n} (h : Core b.view none) (sym : Option (Fin n)) (px : Int)
    (shares : UInt64) (ns : Nat) :
    Core { b with board := b.board.onTrade sym px shares ns }.view none := by
  rw [view_board fun s => MarketBoard.quote_onTrade _ _ _ _ _ s]
  exact h

theorem Core.onExecuted {b : ItchBook n} (h : Core b.view none) (locate : UInt16) (ts : UInt64)
    {ref : UInt64} (hk : ref ≠ kEmpty) (shares : UInt32) :
    Core (b.onExecuted locate ts ref shares).view none := by
  unfold ItchBook.onExecuted
  cases ho : b.orders.find ref with
  | none => exact h
  | some o =>
    rw [Table.find_eq _ hk] at ho
    have hp := h.print (b.locateToSym locate) (toInt32 o.price) shares.toUInt64 ts.toNat
    exact Core.reduce (b := { b with
      stats.execs := b.stats.execs + 1
      board := b.board.onTrade (b.locateToSym locate) (toInt32 o.price) shares.toUInt64 ts.toNat })
      hp hk ho shares ts

theorem Core.onExecutedPrice {b : ItchBook n} (h : Core b.view none) (locate : UInt16)
    (ts : UInt64) {ref : UInt64} (hk : ref ≠ kEmpty) (shares : UInt32) (printable : Bool)
    (price : UInt32) :
    Core (b.onExecutedPrice locate ts ref shares printable price).view none := by
  have hp := h.print (b.locateToSym locate) (toInt32 price) shares.toUInt64 ts.toNat
  unfold ItchBook.onExecutedPrice
  cases ho : b.orders.find ref with
  | none => cases printable <;> [exact h; exact hp]
  | some o =>
    rw [Table.find_eq _ hk] at ho
    cases printable with
    | false => exact h.reduce hk ho shares ts
    | true =>
      exact Core.reduce (b := { b with
        stats.execs := b.stats.execs + 1
        board := b.board.onTrade (b.locateToSym locate) (toInt32 price) shares.toUInt64 ts.toNat })
        hp hk ho shares ts

theorem total_publish (v : View n) (q : Option (Fin n)) : (v.publish q).total = v.total := by
  cases q with
  | none => rfl
  | some s =>
    unfold View.publish
    dsimp only
    split <;> rfl

theorem Core.onAdd {b : ItchBook n} (h : Core b.view none) {locate : UInt16} {ts ref : UInt64}
    {side : UInt8} {shares price : UInt32}
    (hm : b.locateToSym locate ≠ none → ref ≠ kEmpty ∧ b.orders.map.lookup ref = none)
    (hlt : ∀ s bid p, (b.onAdd locate ts ref side shares price).view.total s bid p < 2 ^ 64) :
    Core (b.onAdd locate ts ref side shares price).view none := by
  cases hs : b.locateToSym locate with
  | none =>
    have e : b.onAdd locate ts ref side shares price = b := by unfold ItchBook.onAdd; rw [hs]
    rw [e]
    exact h
  | some s =>
    have hsome : (b.locateToSym locate).isSome = true := by rw [hs]; rfl
    obtain ⟨hk, hfresh⟩ := hm (by rw [hs]; simp)
    rw [view_onAdd hs ts hk] at hlt ⊢
    rw [total_publish] at hlt
    exact (h.enter ref ⟨price, shares, locate, side⟩ (by simp) hsome hfresh hlt).publish

theorem Core.onReplace {b : ItchBook n} (h : Core b.view none) {ts oldRef newRef : UInt64}
    {shares price : UInt32} (hold : oldRef ≠ kEmpty)
    (hm : b.orders.map.lookup oldRef ≠ none →
      newRef ≠ kEmpty ∧ (newRef = oldRef ∨ b.orders.map.lookup newRef = none))
    (hlt : ∀ s bid p, (b.onReplace ts oldRef newRef shares price).view.total s bid p < 2 ^ 64) :
    Core (b.onReplace ts oldRef newRef shares price).view none := by
  cases ho : b.orders.find oldRef with
  | none =>
    have e : b.onReplace ts oldRef newRef shares price = b := by unfold ItchBook.onReplace; rw [ho]
    rw [e]
    exact h
  | some o =>
    have hlive := ho
    rw [Table.find_eq _ hold] at hlive
    obtain ⟨hk, hnew⟩ := hm (by rw [hlive]; simp)
    rw [view_onReplace ts hk ho] at hlt ⊢
    rw [total_publish] at hlt
    have hleft := h.leave hlive le_rfl (.inl ⟨rfl, rfl⟩)
    have hcell := cell_leave b.view o ⟨price, shares, o.locate, o.side⟩ o.shares
      (b.view.live.erase oldRef) rfl
    have hsym : (b.view.leave o o.shares (b.view.live.erase oldRef)).sym = b.view.sym :=
      congrArg (·.2.1) (fixed_leave b.view o o.shares _)
    have hfresh : (b.view.live.erase oldRef).lookup newRef = none := by
      rcases eq_or_ne newRef oldRef with rfl | hne
      · exact Finmap.lookup_erase _ _
      · rw [Finmap.lookup_erase_ne hne]
        exact hnew.resolve_left hne
    have hin := hleft.enter newRef ⟨price, shares, o.locate, o.side⟩
      (fun s e => hcell.trans e) (by rw [hsym]; exact h.mapped oldRef o hlive) hfresh hlt
    rw [hcell] at hin
    exact hin.publish

theorem Core.onMsg {b : ItchBook n} (h : Core b.view none) {m : Msg} (hm : b.view.feed.Promises b.findKey m)
    (hu : Unreserved m) (hlt : ∀ s bid p, (b.onMsg m).view.total s bid p < 2 ^ 64) : Core (b.onMsg m).view none := by
  have hc : Core b.countMessage.view none := h
  cases m with
  | systemEvent ts code =>
    show Core (pushEvent _ _).view none
    rw [view_pushEvent]
    exact h
  | stockDirectory locate ts key cat fin lot => exact hc.onStockDirectory hm
  | tradingAction locate ts key state reason => exact hc.onTradingAction locate ts key state reason
  | regSho locate ts action =>
    show Core (b.countMessage.onRegSho locate action).view none
    unfold onRegSho
    split
    · exact h
    · rw [view_board fun s => MarketBoard.quote_onRegSho _ _ _ s]
      exact h
  | add locate ts ref side shares price => exact hc.onAdd hm hlt
  | executed locate ts ref shares => exact hc.onExecuted locate ts hu shares
  | executedPrice locate ts ref shares printable price =>
    exact hc.onExecutedPrice locate ts hu shares printable price
  | cancel locate ts ref shares =>
    show Core (b.countMessage.onCancel ts ref shares).view none
    unfold onCancel
    cases ho : b.countMessage.orders.find ref with
    | none => exact h
    | some o =>
      rw [Table.find_eq _ hu] at ho
      exact hc.reduce hu ho shares ts
  | delete locate ts ref =>
    show Core (b.countMessage.onDelete ts ref).view none
    unfold onDelete
    cases ho : b.countMessage.orders.find ref with
    | none => exact h
    | some o =>
      rw [Table.find_eq _ hu] at ho
      exact hc.reduce hu ho o.shares ts
  | replace locate ts oldRef newRef shares price => exact hc.onReplace hu hm hlt
  | trade locate ts side shares key price => exact hc.print _ _ _ _
  | cross locate ts shares key price crossType =>
    show Core { b.countMessage with
      stats.crosses := b.stats.crosses + 1
      board := b.board.onCross (b.locateToSym locate) (toInt32 price) shares ts.toNat crossType }.view
      none
    have hv := view_board (b := b.countMessage)
      (fun s => MarketBoard.quote_onCross b.board (b.locateToSym locate) (toInt32 price) shares
        ts.toNat crossType s)
    rw [← hv] at hc
    exact hc
  | broken locate ts matchNo => exact h
  | unused => exact h

/-! ## The handlers follow the live orders -/

/-- A move that turns the feed into `f` and leaves the symbol table and the filter. -/
structure Follows (v : View n) (f : Feed n) (v' : View n) : Prop where
  feed : v'.feed = f
  findKey : v'.findKey = v.findKey
  quoted : v'.quoted = v.quoted

theorem Follows.refl (v : View n) : Follows v v.feed v := ⟨rfl, rfl, rfl⟩

theorem follows_of_fixed (v v' : View n) (h : v'.fixed = v.fixed) :
    Follows v ⟨v.sym, v'.live⟩ v' :=
  ⟨congrArg (fun x => Feed.mk x.2.1 v'.live) h, congrArg (·.1) h, congrArg (·.2.2) h⟩

theorem follows_reduce {b : ItchBook n} {ref : UInt64} (hk : ref ≠ kEmpty) {o : Order}
    (hlive : b.orders.map.lookup ref = some o) (shares : Order → UInt32) (ts : UInt64) :
    Follows b.view (b.view.feed.take ref shares) (b.reduce o ref (shares o) ts).view := by
  have hv := view_reduce b o ref (shares o) ts
  have hf : (b.reduce o ref (shares o) ts).view.fixed = b.view.fixed := by rw [hv]; simp
  have hl : (b.reduce o ref (shares o) ts).view.live = (b.view.feed.take ref shares).live := by
    rw [hv, live_publish]
    unfold Feed.take
    rw [show b.view.feed.live.lookup ref = some o from hlive]
    show (if shares o ≥ o.shares then _ else _) = _
    dsimp only
    split
    · rw [Table.map_erase]; rfl
    · rw [Table.map_modify _ hk hlive]; rfl
  have hs : (b.view.feed.take ref shares).sym = b.view.sym := by
    unfold Feed.take
    split
    · rfl
    · split <;> rfl
  have h := follows_of_fixed _ _ hf
  rw [hl, ← hs] at h
  exact h

/-- A handler that looks an order up and reduces it, after a print perhaps. -/
theorem follows_find {b : ItchBook n} {ref : UInt64} (hk : ref ≠ kEmpty) (shares : Order → UInt32)
    (ts : UInt64) (b0 : ItchBook n) (h0 : b0.view = b.view) (b1 : Order → ItchBook n)
    (h1 : ∀ o, (b1 o).view = b.view) (horders : ∀ o, (b1 o).orders = b.orders) :
    Follows b.view (b.view.feed.take ref shares) (match b.orders.find ref with
      | none => b0
      | some o => (b1 o).reduce o ref (shares o) ts).view := by
  cases ho : b.orders.find ref with
  | none =>
    rw [Table.find_eq _ hk] at ho
    dsimp only
    rw [h0, show b.view.feed.take ref shares = b.view.feed by
      unfold Feed.take; rw [show b.view.feed.live.lookup ref = none from ho]]
    exact .refl _
  | some o =>
    rw [Table.find_eq _ hk, ← horders o] at ho
    have h := follows_reduce (b := b1 o) hk ho shares ts
    rw [h1 o] at h
    exact h

theorem follows_resolveLocate (b : ItchBook n) (locate : UInt16) (key : UInt64) :
    Follows b.view
      (if b.view.feed.sym locate = none then b.view.feed.setSym locate (b.findKey key) else b.view.feed)
      (b.resolveLocate locate key).view := by
  unfold resolveLocate
  cases h : b.locateToSym locate with
  | none =>
    rw [if_pos (show b.view.feed.sym locate = none from h)]
    exact ⟨rfl, rfl, rfl⟩
  | some s =>
    rw [if_neg (show b.view.feed.sym locate ≠ none from by
      show b.locateToSym locate ≠ none; rw [h]; simp)]
    exact .refl _

theorem follows_onTradingAction {b : ItchBook n} {locate : UInt16} {key : UInt64} {f : Feed n}
    (hr : Follows b.view f (b.resolveLocate locate key).view) (ts : UInt64) (state : UInt8)
    (reason : Bytes) : Follows b.view f (b.onTradingAction locate ts key state reason).view := by
  unfold ItchBook.onTradingAction
  dsimp only
  generalize b.resolveLocate locate key = b' at hr ⊢
  split
  · exact hr
  · split
    · rw [view_pushEvent]
      exact ⟨hr.feed, hr.findKey, hr.quoted⟩
    · exact ⟨hr.feed, hr.findKey, hr.quoted⟩

theorem follows_onAdd {b : ItchBook n} {locate : UInt16} {ts ref : UInt64} {side : UInt8}
    {shares price : UInt32}
    (hm : b.locateToSym locate ≠ none → ref ≠ kEmpty ∧ b.orders.map.lookup ref = none) :
    Follows b.view (if b.view.feed.sym locate = none then b.view.feed
        else { b.view.feed with live := b.view.live.insert ref ⟨price, shares, locate, side⟩ })
      (b.onAdd locate ts ref side shares price).view := by
  cases hs : b.locateToSym locate with
  | none =>
    rw [if_pos (show b.view.feed.sym locate = none from hs)]
    have e : b.onAdd locate ts ref side shares price = b := by unfold ItchBook.onAdd; rw [hs]
    rw [e]
    exact .refl _
  | some s =>
    have hne : b.locateToSym locate ≠ none := by rw [hs]; simp
    rw [if_neg (show b.view.feed.sym locate ≠ none from hne), view_onAdd hs ts (hm hne).1]
    have h := follows_of_fixed b.view
      ((b.view.enter ref ⟨price, shares, locate, side⟩).publish
        (b.view.cell ⟨price, shares, locate, side⟩)) (by simp)
    rw [live_publish] at h
    exact h

theorem follows_onReplace {b : ItchBook n} {ts oldRef newRef : UInt64} {shares price : UInt32}
    (hold : oldRef ≠ kEmpty)
    (hm : b.orders.map.lookup oldRef ≠ none →
      newRef ≠ kEmpty ∧ (newRef = oldRef ∨ b.orders.map.lookup newRef = none)) :
    Follows b.view (match b.view.feed.live.lookup oldRef with
      | none => b.view.feed
      | some o => { b.view.feed with
          live := (b.view.live.erase oldRef).insert newRef ⟨price, shares, o.locate, o.side⟩ })
      (b.onReplace ts oldRef newRef shares price).view := by
  have hfind := Table.find_eq b.orders hold
  rw [show b.view.feed.live.lookup oldRef = b.orders.find oldRef from hfind.symm]
  cases ho : b.orders.find oldRef with
  | none =>
    have e : b.onReplace ts oldRef newRef shares price = b := by unfold ItchBook.onReplace; rw [ho]
    rw [e]
    exact .refl _
  | some o =>
    obtain ⟨hk, -⟩ := hm (by rw [← hfind, ho]; simp)
    rw [view_onReplace ts hk ho]
    have h := follows_of_fixed b.view
      (((b.view.leave o o.shares (b.view.live.erase oldRef)).enter newRef
        ⟨price, shares, o.locate, o.side⟩).publish (b.view.cell o)) (by simp)
    rw [live_publish] at h
    exact h

theorem follows_onMsg {b : ItchBook n} {m : Msg} (hm : b.view.feed.Promises b.findKey m)
    (hu : Unreserved m) :
    Follows b.view (b.view.feed.step b.findKey m) (b.onMsg m).view := by
  cases m with
  | systemEvent ts code =>
    show Follows b.view b.view.feed (pushEvent _ _).view
    rw [view_pushEvent]
    exact ⟨rfl, rfl, rfl⟩
  | stockDirectory locate ts key cat fin lot => exact ⟨rfl, rfl, rfl⟩
  | tradingAction locate ts key state reason =>
    exact follows_onTradingAction (follows_resolveLocate b.countMessage locate key) ts state reason
  | regSho locate ts action =>
    show Follows b.view b.view.feed (b.countMessage.onRegSho locate action).view
    unfold onRegSho
    split <;> exact ⟨rfl, rfl, rfl⟩
  | add locate ts ref side shares price => exact follows_onAdd (b := b.countMessage) hm
  | executed locate ts ref shares =>
    exact follows_find (b := b.countMessage) hu (fun _ => shares) ts
      { b.countMessage with stats.unknownRef := b.stats.unknownRef + 1 } rfl
      (fun o => { b.countMessage with
        stats.execs := b.countMessage.stats.execs + 1
        board := b.board.onTrade (b.locateToSym locate) (toInt32 o.price) shares.toUInt64 ts.toNat })
      (fun o => view_board (b := b) fun s => MarketBoard.quote_onTrade _ _ _ _ _ s) fun _ => rfl
  | executedPrice locate ts ref shares printable price =>
    cases printable with
    | false =>
      exact follows_find (b := b.countMessage) hu (fun _ => shares) ts
        { b.countMessage with stats.unknownRef := b.stats.unknownRef + 1 } rfl
        _ (fun _ => rfl) fun _ => rfl
    | true =>
      let b1 : ItchBook n := { b.countMessage with
        stats.execs := b.countMessage.stats.execs + 1
        board := b.board.onTrade (b.locateToSym locate) (toInt32 price) shares.toUInt64 ts.toNat }
      have hv : b1.view = b.view :=
        view_board (b := b) fun s => MarketBoard.quote_onTrade _ _ _ _ _ s
      exact follows_find (b := b.countMessage) hu (fun _ => shares) ts
        { b1 with stats.unknownRef := b1.stats.unknownRef + 1 } hv
        (fun _ => b1) (fun _ => hv) fun _ => rfl
  | cancel locate ts ref shares =>
    exact follows_find (b := b.countMessage) hu (fun _ => shares) ts _ rfl _ (fun _ => rfl) fun _ => rfl
  | delete locate ts ref =>
    exact follows_find (b := b.countMessage) hu (fun o => o.shares) ts _ rfl _ (fun _ => rfl) fun _ => rfl
  | replace locate ts oldRef newRef shares price =>
    exact follows_onReplace (b := b.countMessage) hu hm
  | trade locate ts side shares key price => exact ⟨rfl, rfl, rfl⟩
  | cross locate ts shares key price crossType => exact ⟨rfl, rfl, rfl⟩
  | broken locate ts matchNo => exact ⟨rfl, rfl, rfl⟩
  | unused => exact ⟨rfl, rfl, rfl⟩

/-! ## Runs -/

/-- A run keeps the invariant and the feed that the stream describes. -/
theorem run_follows (findKey : UInt64 → Option (Fin n)) : ∀ (ms : List Msg) {b : ItchBook n},
    b.findKey = findKey → Core b.view none → b.view.feed.PromisesAll findKey ms →
    (∀ m ∈ ms, Unreserved m) →
    Core (b.run ms).view none ∧ (b.run ms).view.feed = ms.foldl (Feed.step findKey) b.view.feed
  | [], _, _, h, _, _ => ⟨h, rfl⟩
  | m :: ms, b, hb, h, hm, hu => by
    subst hb
    obtain ⟨hm1, hlt, hms⟩ := hm
    have hu1 := hu m List.mem_cons_self
    have hf := follows_onMsg hm1 hu1
    have hc : Core (b.onMsg m).view none := h.onMsg hm1 hu1 fun s bid p => by
      show (b.onMsg m).view.feed.total s bid p < _
      rw [hf.feed]
      exact hlt s bid p
    rw [← hf.feed] at hms
    obtain ⟨h1, h2⟩ := run_follows b.findKey ms (b := b.onMsg m) hf.findKey hc hms
      fun m' h' => hu m' (List.mem_cons_of_mem _ h')
    refine ⟨h1, h2.trans ?_⟩
    rw [hf.feed]
    rfl

theorem core_new (findKey : UInt64 → Option (Fin n)) (midnight : Int)
    (events : Option (Nat × List (MarketEvent n))) (cap : Nat) (track : Bool) (filter : List UInt8) :
    Core (new findKey { midnightNs := midnight } events cap track filter).view none := by
  have hlive : (new findKey { midnightNs := midnight } events cap track filter).view.live = ∅ :=
    Table.map_new cap orderLoad orderLoad_bounds
  refine ⟨fun k o hk => ?_, fun s _ bid => ?_, fun s _ => rfl, fun s _ _ => ⟨rfl, rfl, rfl, rfl⟩⟩
  · rw [hlive, Finmap.lookup_empty] at hk
    cases hk
  · have ht : View.total (new findKey { midnightNs := midnight } events cap track filter).view s bid =
        fun _ => 0 := by
      funext p
      rw [View.total, Feed.total, View.feed, hlive, KeyMap.sum_empty]
    rw [ht]
    cases bid <;> exact Ladder.Holds.nil

/-- The feed of an empty stream. -/
def Feed.empty : Feed n := ⟨fun _ => none, ∅⟩

/-- After every message of an admissible stream, for every quoted symbol: each level has the
remaining shares of the live orders of its side and price, exactly the prices with live shares
have a level, the ladder is strictly sorted from worst to best, and the board shows the best
level of each side. -/
theorem book_refines (findKey : UInt64 → Option (Fin n)) (midnight : Int)
    (events : Option (Nat × List (MarketEvent n))) (cap : Nat) (track : Bool) (filter : List UInt8)
    (ms : List Msg) (h : Feed.empty.PromisesAll findKey ms) (hu : ∀ m ∈ ms, Unreserved m) :
    let b := (new findKey { midnightNs := midnight } events cap track filter).run ms
    let f := ms.foldl (Feed.step findKey) Feed.empty
    ∀ s, b.quoted s = true →
      (∀ bid p, (Ladder.qtyAt ((b.books s).side bid) p).toNat = f.total s bid p) ∧
      (∀ bid p, (∃ e ∈ (b.books s).side bid, e.price = p) ↔ 0 < f.total s bid p) ∧
      (∀ bid, Ladder.Sorted bid ((b.books s).side bid)) ∧
      (b.board.states s).hot.bidPx = toInt32 (Ladder.bestPrice (b.books s).bids) ∧
      (b.board.states s).hot.bidSz = MarketBoard.clampSize (Ladder.bestQty (b.books s).bids) ∧
      (b.board.states s).hot.askPx = toInt32 (Ladder.bestPrice (b.books s).asks) ∧
      (b.board.states s).hot.askSz = MarketBoard.clampSize (Ladder.bestQty (b.books s).asks) := by
  intro b f s hq
  have hfeed : (new findKey { midnightNs := midnight } events cap track filter).view.feed =
      Feed.empty := congrArg (Feed.mk _) (Table.map_new cap orderLoad orderLoad_bounds)
  have hrun := run_follows findKey ms (b := new findKey { midnightNs := midnight } events cap track filter)
    rfl (core_new findKey midnight events cap track filter) (by rw [hfeed]; exact h) hu
  rw [hfeed] at hrun
  obtain ⟨hc, hf⟩ := hrun
  have hholds : ∀ bid, Ladder.Holds bid ((b.books s).side bid) (f.total s bid) := by
    intro bid
    have := hc.ladders s hq bid
    rw [show f = b.view.feed from hf.symm]
    exact this
  refine ⟨fun bid p => (hholds bid).qtyAt p, fun bid p => ⟨?_, (hholds bid).present p⟩,
    fun bid => (hholds bid).sorted, ?_⟩
  · rintro ⟨e, he, rfl⟩
    exact ((hholds bid).qty e he).2
  · have hs : b.board.quote s = pubQuote (b.books s) := hc.synced s hq
    obtain ⟨h1, h2, h3, h4⟩ : Current (b.books s) := hc.current s hq (by simp)
    simp only [MarketBoard.quote, pubQuote, Prod.mk.injEq] at hs
    rw [h1, h2, h3, h4]
    exact ⟨hs.1, hs.2.1, hs.2.2.1, hs.2.2.2⟩

/-- One symbol: an order is added, partly executed and replaced. -/
theorem book_refines_small :
    let ms : List Msg := [.stockDirectory 1 0 7 0 0 100, .add 1 0 22 (ch 'B') 100 50000,
      .executed 1 0 22 40, .replace 1 0 22 23 10 50100]
    let b := (new (n := 1) (fun _ => some 0) {} none 8 true []).run ms
    let f := ms.foldl (Feed.step fun _ => some (0 : Fin 1)) Feed.empty
    b.quoted 0 = true ∧
      (Ladder.qtyAt ((b.books 0).side true) 50100).toNat = f.total 0 true 50100 := by
  intro ms b f
  have hq : b.quoted 0 = true := by decide +kernel
  have h : Feed.empty.PromisesAll (fun _ => some (0 : Fin 1)) ms := by
    refine ⟨by decide +kernel, fun s bid p => (Feed.total_le _ s bid p).trans_lt ?_,
      by decide +kernel, fun s bid p => (Feed.total_le _ s bid p).trans_lt ?_,
      by decide +kernel, fun s bid p => (Feed.total_le _ s bid p).trans_lt ?_,
      by decide +kernel, fun s bid p => (Feed.total_le _ s bid p).trans_lt ?_, trivial⟩ <;>
      decide +kernel
  have hu : ∀ m ∈ ms, Unreserved m := by decide +kernel
  exact ⟨hq, (book_refines (fun _ => some 0) 0 none 8 true [] ms h hu 0 hq).1 true 50100⟩

/-- A cancel of the reserved reference finds the value left in an empty slot: 40 shares leave
the ladder and no live order changes. -/
theorem reserved_ref_corrupts :
    let ms : List Msg := [.stockDirectory 1 0 7 0 0 100, .add 1 0 22 (ch 'B') 100 50000,
      .delete 1 0 22, .add 1 0 2 (ch 'B') 100 50000, .cancel 1 0 kEmpty 40]
    let b := (new (n := 1) (fun _ => some 0) {} none 8 true []).run ms
    let f := ms.foldl (Feed.step fun _ => some (0 : Fin 1)) Feed.empty
    Feed.empty.PromisesAll (fun _ => some (0 : Fin 1)) ms ∧ b.quoted 0 = true ∧
      (Ladder.qtyAt ((b.books 0).side true) 50000).toNat = 60 ∧ f.total 0 true 50000 = 100 := by
  refine ⟨?_, by decide +kernel, by decide +kernel, by decide +kernel⟩
  refine ⟨by decide +kernel, fun s bid p => (Feed.total_le _ s bid p).trans_lt ?_,
    by decide +kernel, fun s bid p => (Feed.total_le _ s bid p).trans_lt ?_,
    by decide +kernel, fun s bid p => (Feed.total_le _ s bid p).trans_lt ?_,
    by decide +kernel, fun s bid p => (Feed.total_le _ s bid p).trans_lt ?_,
    by decide +kernel, fun s bid p => (Feed.total_le _ s bid p).trans_lt ?_, trivial⟩ <;>
    decide +kernel

end Stok.ItchBook
