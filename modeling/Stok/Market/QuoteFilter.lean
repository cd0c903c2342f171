import Stok.Market.ItchBook

/-!
# Quote filters

`set_quote_filter` and `track_quotes` of `ItchBook` leave out the ladders and the top of book of
some symbols. `keep K b` is a book with the quotes of the symbols of `K` only, all others blank;
what a message does to it is what the message does to `b`, with those quotes left out
(`keep_onMsg`). So two books that agree on `keep K` at the start agree on it after every stream,
whatever their filters.
-/

namespace Stok

/-- A state without its top of book. -/
def MarketState.unquoted (s : MarketState) : MarketState :=
  { s with hot.bidPx := 0, hot.askPx := 0, hot.bidSz := 0, hot.askSz := 0, hot.quoteNs := 0 }

namespace MarketBoard

variable {n : Nat}

/-- The board with the quotes of the symbols of `K` only. -/
def keep (K : Fin n → Bool) (b : MarketBoard n) : MarketBoard n :=
  { b with states := fun s => if K s then b.states s else (b.states s).unquoted }

variable {K : Fin n → Bool}

theorem keep_keep (b : MarketBoard n) : (b.keep K).keep K = b.keep K := by
  show MarketBoard.mk _ _ = MarketBoard.mk _ _
  congr 1
  funext s
  simp only [keep]
  split <;> rfl

theorem keep_modify {f : MarketState → MarketState} (hf : ∀ s, (f s).unquoted = f s.unquoted)
    (b : MarketBoard n) (sym : Option (Fin n)) :
    (b.modify? sym f).keep K = (b.keep K).modify? sym f := by
  cases sym with
  | none => rfl
  | some sym =>
    show MarketBoard.mk _ _ = MarketBoard.mk _ _
    congr 1
    funext s
    rcases eq_or_ne s sym with rfl | hne
    · simp only [modify?, modify, keep, Function.update_self]
      split
      · rfl
      · exact hf _
    · simp only [modify?, modify, keep, Function.update_of_ne hne]

theorem unquoted_applyTrade (m : Int) (s : MarketState) (px : Int) (shares : UInt64) (ns : Nat) :
    (applyTrade m s px shares ns).unquoted = applyTrade m s.unquoted px shares ns := by
  unfold applyTrade MarketState.unquoted
  dsimp only
  split_ifs <;> rfl

theorem keep_onTrade (b : MarketBoard n) (sym : Option (Fin n)) (px : Int) (shares : UInt64) (ns : Nat) :
    (b.onTrade sym px shares ns).keep K = (b.keep K).onTrade sym px shares ns := by
  unfold onTrade
  split
  · rfl
  · exact keep_modify (fun s => unquoted_applyTrade b.midnightNs s px shares ns) b sym

theorem keep_onCross (b : MarketBoard n) (sym : Option (Fin n)) (px : Int) (shares : UInt64) (ns : Nat)
    (crossType : UInt8) :
    (b.onCross sym px shares ns crossType).keep K = (b.keep K).onCross sym px shares ns crossType := by
  unfold onCross
  split
  · rfl
  · refine keep_modify (fun s => ?_) b sym
    have h := unquoted_applyTrade b.midnightNs s px shares ns
    dsimp only
    by_cases hs : shares > 0
    · rw [if_pos hs, if_pos hs, ← h]
      split_ifs <;> rfl
    · rw [if_neg hs, if_neg hs]
      split_ifs <;> rfl

theorem keep_onTradingAction (b : MarketBoard n) (sym : Option (Fin n)) (state : UInt8) (reason : Bytes) :
    (b.onTradingAction sym state reason).keep K = (b.keep K).onTradingAction sym state reason := by
  unfold onTradingAction
  refine keep_modify (fun s => ?_) b sym
  rfl

theorem keep_onRegSho (b : MarketBoard n) (sym : Option (Fin n)) (action : UInt8) :
    (b.onRegSho sym action).keep K = (b.keep K).onRegSho sym action := by
  unfold onRegSho
  refine keep_modify (fun s => ?_) b sym
  rfl

/-- A quote of a symbol of `K` is kept, any other is left out. -/
theorem keep_onQuote (b : MarketBoard n) (sym : Fin n) (bid : Int) (bidSz : UInt64) (ask : Int)
    (askSz : UInt64) (ns : Nat) :
    (b.onQuote (some sym) bid bidSz ask askSz ns).keep K =
      if K sym then (b.keep K).onQuote (some sym) bid bidSz ask askSz ns else b.keep K := by
  have hstates : ∀ s, ((b.onQuote (some sym) bid bidSz ask askSz ns).keep K).states s =
      (if K sym then (b.keep K).onQuote (some sym) bid bidSz ask askSz ns else b.keep K).states s := by
    intro s
    rcases eq_or_ne s sym with rfl | hne
    · cases hK : K s <;> simp [onQuote, modify?, modify, keep, hK, MarketState.unquoted]
    · cases hK : K sym <;> simp [onQuote, modify?, modify, keep, hK, hne]
  cases hK : K sym with
  | true =>
    rw [hK] at hstates
    show MarketBoard.mk _ _ = MarketBoard.mk _ _
    congr 1
    funext s
    exact hstates s
  | false =>
    rw [hK] at hstates
    show MarketBoard.mk _ _ = MarketBoard.mk _ _
    congr 1
    funext s
    exact hstates s

end MarketBoard

namespace ItchBook

open Itch

variable {n : Nat}

/-- The book with the quotes of the symbols of `K` only, and no count of quote updates. -/
def keep (K : Fin n → Bool) (b : ItchBook n) : ItchBook n :=
  { b with
    board := b.board.keep K
    books := fun s => if K s then b.books s else {}
    filter := List.ofFn fun s => if K s && b.quoted s then 1 else 0
    trackQuotes := true
    stats.quoteUpdates := 0 }

variable {K : Fin n → Bool}

theorem quoted_keep (b : ItchBook n) (s : Fin n) : (b.keep K).quoted s = (K s && b.quoted s) := by
  have hfilter : (b.keep K).filter = List.ofFn fun s => if K s && b.quoted s then (1 : UInt8) else 0 := rfl
  have hget : (b.keep K).filter.getD s 0 = if K s && b.quoted s then 1 else 0 := by
    rw [hfilter, List.getD_eq_getElem?_getD, List.getElem?_ofFn]
    simp
  have hne : (b.keep K).filter.isEmpty = false := by
    rw [hfilter, List.isEmpty_eq_false_iff, Ne, List.ofFn_eq_nil_iff]
    exact fun h => (h ▸ s).elim0
  rw [quoted, hget, hne]
  show (true && (false || _)) = _
  cases K s && b.quoted s <;> rfl

/-- Books that agree on everything but the quotes of other symbols. -/
theorem keep_congr {b b' : ItchBook n} (hfind : b.findKey = b'.findKey)
    (hboard : b.board.keep K = b'.board.keep K) (hevents : b.events = b'.events)
    (hlocate : b.locateToSym = b'.locateToSym) (hstate : b.lastState = b'.lastState)
    (horders : b.orders = b'.orders) (hbooks : ∀ s, K s = true → b.books s = b'.books s)
    (hquoted : ∀ s, K s = true → b.quoted s = b'.quoted s)
    (hstats : { b.stats with quoteUpdates := 0 } = { b'.stats with quoteUpdates := 0 })
    (hsys : b.lastSys = b'.lastSys) : b.keep K = b'.keep K := by
  have hbooks' : (fun s => if K s then b.books s else {}) = fun s => if K s then b'.books s else {} := by
    funext s
    cases hK : K s with
    | true => exact hbooks s hK
    | false => rfl
  have hfilter : (List.ofFn fun s => if K s && b.quoted s then (1 : UInt8) else 0) =
      List.ofFn fun s => if K s && b'.quoted s then (1 : UInt8) else 0 := by
    congr 1
    funext s
    cases hK : K s with
    | true => rw [hquoted s hK]
    | false => rfl
  show ItchBook.mk _ _ _ _ _ _ _ _ _ _ _ = ItchBook.mk _ _ _ _ _ _ _ _ _ _ _
  rw [hfind, hboard, hevents, hlocate, hstate, horders, hbooks', hfilter, hstats, hsys]

theorem books_keep (b : ItchBook n) {s : Fin n} (h : K s = true) : (b.keep K).books s = b.books s :=
  if_pos h

theorem keep_keep (b : ItchBook n) : (b.keep K).keep K = b.keep K :=
  keep_congr rfl (b.board.keep_keep) rfl rfl rfl rfl (fun _ h => books_keep b h)
    (fun s h => by rw [quoted_keep, h, Bool.true_and]) rfl rfl

/-- A step that sees nothing of the quotes that `keep K` leaves out. -/
def Blind (K : Fin n → Bool) (f : ItchBook n → ItchBook n) : Prop :=
  ∀ b, (f b).keep K = (f (b.keep K)).keep K

/-- A step that commutes with `keep K`. -/
theorem Blind.of_comm {f : ItchBook n → ItchBook n} (h : ∀ b, (f b).keep K = f (b.keep K)) :
    Blind K f := by
  intro b
  rw [h, h, keep_keep]

theorem Blind.comp {f g : ItchBook n → ItchBook n} (hf : Blind K f) (hg : Blind K g) :
    Blind K fun b => g (f b) := by
  intro b
  show (g (f b)).keep K = (g (f (b.keep K))).keep K
  rw [hg (f b), hf b, ← hg (f (b.keep K))]

/-! ## Ladders and the top of book -/

section

variable {sym : Fin n} {bid : Bool} {f : Ladder → Ladder}

theorem keep_modifySide (h : K sym = true) (b : ItchBook n) :
    (b.modifySide sym bid f).keep K = ((b.keep K).modifySide sym bid f).keep K := by
  refine keep_congr rfl b.board.keep_keep.symm rfl rfl rfl rfl (fun s hs => ?_) (fun s hs => ?_) rfl rfl
  · rcases eq_or_ne s sym with rfl | hne
    · simp only [modifySide, Function.update_self, books_keep b h]
    · simp only [modifySide, Function.update_of_ne hne, books_keep b hs]
  · show b.quoted s = (b.keep K).quoted s
    rw [quoted_keep, hs, Bool.true_and]

theorem keep_modifySide_of_not (h : K sym = false) (b : ItchBook n) :
    (b.modifySide sym bid f).keep K = b.keep K := by
  refine keep_congr rfl rfl rfl rfl rfl rfl (fun s hs => ?_) (fun _ _ => rfl) rfl rfl
  have hne : s ≠ sym := fun e => absurd hs (e ▸ ne_true_of_eq_false h)
  simp only [modifySide, Function.update_of_ne hne]

theorem keep_publishTop (h : K sym = true) (b : ItchBook n) (ts : UInt64) :
    (b.publishTop sym ts).keep K = ((b.keep K).publishTop sym ts).keep K := by
  unfold publishTop
  rw [books_keep b h]
  dsimp only
  split
  · exact (keep_keep b).symm
  · refine keep_congr rfl ?_ rfl rfl rfl rfl (fun s hs => ?_) (fun s hs => ?_) rfl rfl
    · dsimp only
      rw [MarketBoard.keep_onQuote, show (b.keep K).board = b.board.keep K from rfl,
        MarketBoard.keep_onQuote, MarketBoard.keep_keep]
    · rcases eq_or_ne s sym with rfl | hne
      · simp only [Function.update_self]
      · simp only [Function.update_of_ne hne, books_keep b hs]
    · show b.quoted s = (b.keep K).quoted s
      rw [quoted_keep, hs, Bool.true_and]

theorem keep_publishTop_of_not (h : K sym = false) (b : ItchBook n) (ts : UInt64) :
    (b.publishTop sym ts).keep K = b.keep K := by
  unfold publishTop
  dsimp only
  split
  · rfl
  · refine keep_congr rfl ?_ rfl rfl rfl rfl (fun s hs => ?_) (fun _ _ => rfl) rfl rfl
    · dsimp only
      rw [MarketBoard.keep_onQuote, if_neg (ne_true_of_eq_false h)]
    · have hne : s ≠ sym := fun e => absurd hs (e ▸ ne_true_of_eq_false h)
      simp only [Function.update_of_ne hne]

/-- A change of a ladder and of the top of book, of a symbol that may be quoted or not. -/
theorem blind_requote (ts : UInt64) :
    Blind K fun b => if b.quoted sym then (b.modifySide sym bid f).publishTop sym ts else b := by
  intro b
  dsimp only
  rw [quoted_keep]
  cases hK : K sym with
  | true =>
    rw [Bool.true_and]
    split
    · rw [keep_publishTop hK, keep_modifySide hK, ← keep_publishTop hK]
    · exact (keep_keep b).symm
  | false =>
    rw [Bool.false_and, if_neg Bool.false_ne_true, keep_keep]
    split
    · rw [keep_publishTop_of_not hK, keep_modifySide_of_not hK]
    · rfl

end

/-! ## Messages -/

theorem blind_removeQuoted (o : Order) (take : UInt32) (ts : UInt64) :
    Blind K fun b => b.removeQuoted o take ts := by
  intro b
  show (removeQuoted _ o take ts).keep K = (removeQuoted _ o take ts).keep K
  unfold removeQuoted
  rw [show (b.keep K).locateToSym = b.locateToSym from rfl]
  cases b.locateToSym o.locate with
  | none => exact (keep_keep b).symm
  | some sym => exact blind_requote ts b

theorem blind_reduce (o : Order) (ref : UInt64) (shares : UInt32) (ts : UInt64) :
    Blind K fun b => b.reduce o ref shares ts := by
  unfold reduce
  dsimp only
  split
  · exact (blind_removeQuoted o _ ts).comp (.of_comm (f := fun b => { b with orders := b.orders.erase ref })
      fun _ => rfl)
  · exact (blind_removeQuoted o _ ts).comp (.of_comm (f := fun b => { b with
      orders := b.orders.modify ref fun o => { o with shares := o.shares - shares } }) fun _ => rfl)

theorem keep_pushEvent (b : ItchBook n) (e : MarketEvent n) :
    (b.pushEvent e).keep K = (b.keep K).pushEvent e := by
  unfold pushEvent
  rw [show (b.keep K).events = b.events from rfl]
  split
  · rfl
  · split <;> rfl

theorem keep_resolveLocate (b : ItchBook n) (locate : UInt16) (key : UInt64) :
    (b.resolveLocate locate key).keep K = (b.keep K).resolveLocate locate key := by
  unfold resolveLocate
  rw [show (b.keep K).locateToSym = b.locateToSym from rfl]
  split <;> rfl

/-- A change of the board that commutes with `keep K`. -/
theorem keep_board (b : ItchBook n) {board : MarketBoard n} {board' : MarketBoard n}
    (h : board.keep K = board') : { b with board := board }.keep K = { b.keep K with board := board' } := by
  rw [← h]
  rfl

theorem keep_onTradingAction (b : ItchBook n) (locate : UInt16) (ts key : UInt64) (state : UInt8)
    (reason : Bytes) : (b.onTradingAction locate ts key state reason).keep K =
      (b.keep K).onTradingAction locate ts key state reason := by
  unfold onTradingAction
  rw [← keep_resolveLocate]
  generalize b.resolveLocate locate key = b
  dsimp only
  rw [show (b.keep K).locateToSym = b.locateToSym from rfl]
  cases b.locateToSym locate with
  | none => rfl
  | some sym =>
    have hboard := MarketBoard.keep_onTradingAction (K := K) b.board (some sym) state reason
    dsimp only
    rw [show (b.keep K).lastState = b.lastState from rfl]
    split
    · rw [keep_pushEvent]
      congr 1
      exact keep_board { b with
        lastState := Function.update b.lastState locate state
        stats.halts := b.stats.halts + 1 } hboard
    · exact keep_board { b with lastState := Function.update b.lastState locate state } hboard

theorem keep_onRegSho (b : ItchBook n) (locate : UInt16) (action : UInt8) :
    (b.onRegSho locate action).keep K = (b.keep K).onRegSho locate action := by
  unfold onRegSho
  rw [show (b.keep K).locateToSym = b.locateToSym from rfl]
  cases b.locateToSym locate with
  | none => rfl
  | some sym => exact keep_board b (MarketBoard.keep_onRegSho ..)

theorem blind_onAdd (locate : UInt16) (ts ref : UInt64) (side : UInt8) (shares price : UInt32) :
    Blind K fun b => b.onAdd locate ts ref side shares price := by
  intro b
  show (onAdd _ locate ts ref side shares price).keep K = (onAdd _ locate ts ref side shares price).keep K
  unfold onAdd
  rw [show (b.keep K).locateToSym = b.locateToSym from rfl]
  cases b.locateToSym locate with
  | none => exact (keep_keep b).symm
  | some sym =>
    exact blind_requote ts { b with
      stats.adds := b.stats.adds + 1
      orders := b.orders.insertOrAssign ref ⟨price, shares, locate, side⟩ }

/-- A print of the executed shares of an order. -/
theorem blind_print (locate : UInt16) (px : Int) (shares : UInt64) (ns : Nat) :
    Blind K fun b => { b with
      stats.execs := b.stats.execs + 1
      board := b.board.onTrade (b.locateToSym locate) px shares ns } :=
  .of_comm fun b => keep_board { b with stats.execs := b.stats.execs + 1 } (MarketBoard.keep_onTrade ..)

theorem blind_onExecuted (locate : UInt16) (ts ref : UInt64) (shares : UInt32) :
    Blind K fun b => b.onExecuted locate ts ref shares := by
  intro b
  show (onExecuted _ locate ts ref shares).keep K = (onExecuted _ locate ts ref shares).keep K
  unfold onExecuted
  rw [show (b.keep K).orders = b.orders from rfl]
  cases b.orders.find ref with
  | none => exact (keep_keep { b with stats.unknownRef := b.stats.unknownRef + 1 }).symm
  | some o => exact (blind_print locate _ _ _).comp (blind_reduce o ref shares ts) b

theorem blind_onExecutedPrice (locate : UInt16) (ts ref : UInt64) (shares : UInt32) (printable : Bool)
    (price : UInt32) : Blind K fun b => b.onExecutedPrice locate ts ref shares printable price := by
  intro b
  show (onExecutedPrice _ locate ts ref shares printable price).keep K =
    (onExecutedPrice _ locate ts ref shares printable price).keep K
  unfold onExecutedPrice
  rw [show (b.keep K).orders = b.orders from rfl]
  have hunknown : Blind K fun b => { b with stats.unknownRef := b.stats.unknownRef + 1 } :=
    .of_comm fun _ => rfl
  have hprint := blind_print (K := K) locate (toInt32 price) shares.toUInt64 ts.toNat
  cases b.orders.find ref with
  | none =>
    cases printable with
    | false => exact hunknown b
    | true => exact hprint.comp hunknown b
  | some o =>
    cases printable with
    | false => exact blind_reduce o ref shares ts b
    | true => exact hprint.comp (blind_reduce o ref shares ts) b

/-- A message about an order that is looked up first. -/
theorem blind_find (ref : UInt64) {f : Order → ItchBook n → ItchBook n} (hf : ∀ o, Blind K (f o)) :
    Blind K fun b => match b.orders.find ref with
      | none => b
      | some o => f o b := by
  intro b
  dsimp only
  rw [show (b.keep K).orders = b.orders from rfl]
  cases b.orders.find ref with
  | none => exact (keep_keep b).symm
  | some o => exact hf o b

theorem blind_onReplace (ts oldRef newRef : UInt64) (shares price : UInt32) :
    Blind K fun b => b.onReplace ts oldRef newRef shares price := by
  unfold onReplace
  refine blind_find oldRef fun o b => ?_
  dsimp only
  rw [show (b.keep K).locateToSym = b.locateToSym from rfl]
  have horders : Blind K fun b => { b with
      orders := (b.orders.erase oldRef).insertOrAssign newRef ⟨price, shares, o.locate, o.side⟩ } :=
    .of_comm fun _ => rfl
  cases b.locateToSym o.locate with
  | none => exact horders b
  | some sym =>
    rw [Option.filter_some, Option.filter_some, quoted_keep]
    cases hK : K sym with
    | true =>
      rw [Bool.true_and]
      cases b.quoted sym with
      | false => exact horders b
      | true =>
        have hremove : Blind K fun b => b.bookRemove sym o.side o.price o.shares := keep_modifySide hK
        have hadd : Blind K fun b => b.bookAdd sym o.side price shares := keep_modifySide hK
        have htop : Blind K fun b => b.publishTop sym ts := fun b => keep_publishTop hK b ts
        exact ((hremove.comp horders).comp hadd).comp htop b
    | false =>
      rw [Bool.false_and]
      cases b.quoted sym with
      | false => exact horders b
      | true =>
        -- the ladders of the symbol are left out, before and after
        have hremove : (b.bookRemove sym o.side o.price o.shares).keep K = b.keep K :=
          keep_modifySide_of_not hK b
        refine (keep_publishTop_of_not hK _ ts).trans ?_
        refine (keep_modifySide_of_not hK _).trans ?_
        have hreorder := horders (b.bookRemove sym o.side o.price o.shares)
        rw [hremove] at hreorder
        exact hreorder

theorem blind_onMsg (m : Msg) : Blind K fun b => b.onMsg m := by
  have hcount : Blind K (countMessage (n := n)) := .of_comm fun _ => rfl
  cases m with
  | systemEvent ts code =>
    refine hcount.comp (.of_comm (f := fun b => b.onSystemEvent ts code) fun b => ?_)
    exact keep_pushEvent { b with lastSys := code } _
  | stockDirectory locate ts key cat fin lot =>
    exact hcount.comp (.of_comm (f := fun b => b.onStockDirectory locate key) fun _ => rfl)
  | tradingAction locate ts key state reason =>
    exact hcount.comp (.of_comm fun b => keep_onTradingAction b locate ts key state reason)
  | regSho locate ts action => exact hcount.comp (.of_comm fun b => keep_onRegSho b locate action)
  | add locate ts ref side shares price => exact hcount.comp (blind_onAdd locate ts ref side shares price)
  | executed locate ts ref shares => exact hcount.comp (blind_onExecuted locate ts ref shares)
  | executedPrice locate ts ref shares printable price =>
    exact hcount.comp (blind_onExecutedPrice locate ts ref shares printable price)
  | cancel locate ts ref shares => exact hcount.comp (blind_find ref fun o => blind_reduce o ref shares ts)
  | delete locate ts ref => exact hcount.comp (blind_find ref fun o => blind_reduce o ref o.shares ts)
  | replace locate ts oldRef newRef shares price =>
    exact hcount.comp (blind_onReplace ts oldRef newRef shares price)
  | trade locate ts side shares matchNo price =>
    refine hcount.comp (.of_comm (f := fun b => b.onTrade locate ts shares price) fun b => ?_)
    exact keep_board { b with stats.trades := b.stats.trades + 1 } (MarketBoard.keep_onTrade ..)
  | cross locate ts shares matchNo price crossType =>
    refine hcount.comp (.of_comm (f := fun b => b.onCross locate ts shares price crossType) fun b => ?_)
    exact keep_board { b with stats.crosses := b.stats.crosses + 1 } (MarketBoard.keep_onCross ..)
  | broken locate ts matchNo => exact hcount
  | unused => exact fun b => (keep_keep b).symm

/-! ## Streams -/

theorem keep_run {b b' : ItchBook n} (h : b.keep K = b'.keep K) (ms : List Msg) :
    (b.run ms).keep K = (b'.run ms).keep K := by
  induction ms generalizing b b' with
  | nil => exact h
  | cons m ms ih =>
    refine ih ?_
    rw [blind_onMsg m b, h, ← blind_onMsg m b']

/-- A fresh book with the locate codes that `map_locate` gives it. -/
def fresh (findKey : UInt64 → Option (Fin n)) (board : MarketBoard n)
    (events : Option (Nat × List (MarketEvent n))) (orderCapacity : Nat)
    (locates : UInt16 → Option (Fin n)) (trackQuotes : Bool) (filter : List UInt8) : ItchBook n :=
  { new findKey board events orderCapacity trackQuotes filter with locateToSym := locates }

/-- **Quote filters change quotes only.** A book without a filter, one with any mask and one that
tracks no quotes, from the same start and the same locate codes, have the same orders after every
stream, and the same board but for the tops of book; the symbols of the mask have the same tops of
book too. -/
theorem quotes_filtered (findKey : UInt64 → Option (Fin n)) (board : MarketBoard n)
    (events : Option (Nat × List (MarketEvent n))) (orderCapacity : Nat)
    (locates : UInt16 → Option (Fin n)) (mask : List UInt8) (ms : List Msg) :
    let plain := (fresh findKey board events orderCapacity locates true []).run ms
    let filtered := (fresh findKey board events orderCapacity locates true mask).run ms
    let untracked := (fresh findKey board events orderCapacity locates false []).run ms
    filtered.orders = plain.orders ∧ untracked.orders = plain.orders ∧
      (∀ s, (filtered.board.states s).unquoted = (plain.board.states s).unquoted ∧
        (untracked.board.states s).unquoted = (plain.board.states s).unquoted) ∧
      ∀ s : Fin n, mask.getD s 0 ≠ 0 → filtered.board.states s = plain.board.states s := by
  intro plain filtered untracked
  have hsame : ∀ (track : Bool) (filter : List UInt8),
      ((fresh findKey board events orderCapacity locates track filter).run ms).keep (fun _ => false) =
        plain.keep fun _ => false := by
    intro track filter
    refine keep_run ?_ ms
    refine keep_congr rfl rfl rfl rfl rfl rfl (fun _ _ => rfl) (fun _ h => ?_) rfl rfl
    cases h
  have hmask : filtered.keep (fun s => mask.getD s 0 != 0) = plain.keep fun s => mask.getD s 0 != 0 := by
    refine keep_run ?_ ms
    refine keep_congr rfl rfl rfl rfl rfl rfl (fun _ _ => rfl) (fun s hs => ?_) rfl rfl
    show (true && (mask.isEmpty || mask.getD s 0 != 0)) = true
    rw [hs, Bool.or_true]
    rfl
  have hstates : ∀ {b : ItchBook n}, b.keep (fun _ => false) = plain.keep (fun _ => false) →
      ∀ s, (b.board.states s).unquoted = (plain.board.states s).unquoted := fun h s =>
    congrFun (congrArg (fun b => b.board.states) h) s
  refine ⟨congrArg (·.orders) (hsame true mask), congrArg (·.orders) (hsame false []), fun s =>
    ⟨hstates (hsame true mask) s, hstates (hsame false []) s⟩, fun s hs => ?_⟩
  have h := congrFun (congrArg (fun b => b.board.states) hmask) s
  simpa only [keep, MarketBoard.keep, bne_iff_ne.mpr hs, if_true] using h

end ItchBook

end Stok
