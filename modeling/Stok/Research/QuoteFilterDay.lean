import Stok.Engine.QuotesSeen
import Stok.Market.QuoteFilter
import Stok.Research.IdleSkip

/-!
# The quote filter of the backtest

A day is replayed with the quotes of the tickers in the news only. `Alike` is what the replay has in
common with one that keeps every quote: all but the boards that the calls of the log were made on.
-/

namespace Stok.Backtest

open Engine (AgreeOn Covered)

variable {F M S : Type} [Dbl F] {n : Nat}

/-- An entry without the board of its call. -/
def Entry.bare {F M : Type} : Entry F M → Entry F M
  | .call c => .call (c.on fun _ _ => {})
  | .message m => .message m

/-- A run without the boards of its calls. -/
def DayRun.bare (r : DayRun F M) : DayRun F M := { r with log := r.log.map Entry.bare }

variable {s : Setup F} {K : UInt32 → Prop} {r r' r₁ : DayRun F M} {skip : Bool} {hot hot' : Engine.Hot}
  {t : UInt64} {fuel : Nat}

/-- A day whose signals are about symbols of `K`: those of its stories, without movers and without
alerts for every halt. -/
structure Narrow (K : UInt32 → Prop) (s : Setup F) : Prop where
  news : ∀ ev ∈ s.news, ∀ sym ∈ ev.tickers, K sym
  movers : s.env.cfg.moversEnabled = false
  halts : s.env.cfg.haltAlerts ≠ 2

/-- The runs differ in the boards of their calls. -/
structure Alike (K : UInt32 → Prop) (s : Setup F) (r r' : DayRun F M) : Prop where
  bare : r'.bare = r.bare
  covered : Covered K s.env r.engine

theorem AgreeOn.symm (h : AgreeOn K hot hot') : AgreeOn K hot' hot :=
  fun site sym => ⟨fun hK => ((h site sym).1 hK).symm, (h site sym).2.symm⟩

namespace Alike

/-- What a run is but for its log. -/
theorem exists_log (h : Alike K s r r') :
    ∃ log, r' = { r with log := log } ∧ log.map Entry.bare = r.log.map Entry.bare := by
  refine ⟨r'.log, ?_, congrArg DayRun.log h.bare⟩
  have hb := h.bare
  obtain ⟨⟩ := r
  obtain ⟨⟩ := r'
  simp only [DayRun.bare, DayRun.mk.injEq] at hb ⊢
  simp only [hb, and_self]

theorem symm (h : Alike K s r r') : Alike K s r' r := by
  obtain ⟨log, rfl, -⟩ := h.exists_log
  exact ⟨h.bare.symm, h.covered⟩

theorem of_log {log : List (Entry F M)} (hlog : log.map Entry.bare = r.log.map Entry.bare)
    (hcov : Covered K s.env r.engine) : Alike K s r { r with log := log } :=
  ⟨by unfold DayRun.bare; rw [hlog], hcov⟩

/-- A call made on both. -/
theorem make (h : Alike K s r r') (hs : Narrow K s) {c : Engine.Call F} (ha : AgreeOn K c.hot hot')
    (hK : ∀ sym ∈ c.tickers, K sym) : Alike K s (r.make s c) (r'.make s (c.on hot')) := by
  obtain ⟨log, rfl, hlog⟩ := h.exists_log
  obtain ⟨heq, hcov⟩ := Engine.call_agree h.covered ha hK hs.movers hs.halts
  refine ⟨?_, hcov⟩
  have hbare : (Entry.call (c.on hot') : Entry F M).bare = Entry.bare (.call c) := by
    cases c <;> rfl
  unfold DayRun.make DayRun.bare
  dsimp only
  rw [heq, List.map_append, List.map_append, hlog, List.map_singleton, List.map_singleton, hbare]

/-- A change that reads no log. -/
theorem map (h : Alike K s r r') {g : DayRun F M → DayRun F M} (hg : ∀ r, (g r).bare = g r.bare)
    (hengine : ∀ r, (g r).engine = r.engine) : Alike K s (g r) (g r') where
  bare := by rw [hg, hg, h.bare]
  covered := by
    rw [hengine]
    exact h.covered

theorem drain (h : Alike K s r r') : Alike K s r.drain r'.drain := h.map (fun _ => rfl) fun _ => rfl

theorem evalAt (h : Alike K s r r') (x : UInt64) :
    Alike K s { r with nextEval := x } { r' with nextEval := x } :=
  h.map (g := fun r => { r with nextEval := x }) (fun _ => rfl) fun _ => rfl

theorem scanAt (h : Alike K s r r') (x : UInt64) :
    Alike K s { r with nextScan := x } { r' with nextScan := x } :=
  h.map (g := fun r => { r with nextScan := x }) (fun _ => rfl) fun _ => rfl

theorem counted (h : Alike K s r r') (ni : Nat) (res : DayResult F) :
    Alike K s { r with ni := ni, res := res } { r' with ni := ni, res := res } :=
  h.map (g := fun r => { r with ni := ni, res := res }) (fun _ => rfl) fun _ => rfl

theorem ready (h : Alike K s r r') : Alike K s (r.ready s skip t) (r'.ready s skip t) := by
  refine h.map (g := fun r => r.ready s skip t) (fun r => ?_) fun r => DayRun.ready_sameButGrid.engine
  have hstart : (r.start s t).bare = r.bare.start s t := by
    unfold DayRun.start
    split
    · exact (if_pos ‹_›).symm
    · exact (if_neg ‹_›).symm
  have hskip : ∀ r : DayRun F M, (r.skipIdle s t).bare = r.bare.skipIdle s t := by
    intro r
    unfold DayRun.skipIdle
    dsimp only
    split
    · exact (if_pos ‹_›).symm
    · exact (if_neg ‹_›).symm
  unfold DayRun.ready
  rw [← hstart, ← hskip]
  split <;> rfl

/-- The same call is due in both. -/
theorem due (h : Alike K s r r') (hs : Narrow K s) (ha : AgreeOn K hot hot') {c : Engine.Call F}
    (hd : DayRun.Due s hot r c r₁) : ∃ r₁', DayRun.Due s hot' r' (c.on hot') r₁' ∧ Alike K s r₁ r₁' := by
  have hmake : ∀ c : Engine.Call F, c.hot = hot → (∀ sym ∈ c.tickers, K sym) →
      Alike K s (r.make s c) (r'.make s (c.on hot')) := by
    intro c hc hK
    refine h.make hs ?_ hK
    rwa [hc]
  obtain ⟨log, rfl, -⟩ := h.exists_log
  cases hd with
  | story ev hev hnext =>
    have hcall := hmake (.news ev ev.recvNs hot) rfl (hs.news ev (List.mem_of_getElem? hev))
    exact ⟨_, .story ev hev hnext, (hcall.counted (r.ni + 1) { r.res with news := r.res.news + 1 }).drain⟩
  | evaluate hnext hstory =>
    have hcall := hmake (.evaluate r.nextEval hot) rfl nofun
    exact ⟨_, .evaluate hnext hstory, (hcall.evalAt (r.nextEval + s.o.evalIntervalNs)).drain⟩
  | scan hm hnext hstory heval =>
    have hcall := hmake (.scanMovers r.nextScan hot) rfl nofun
    exact ⟨_, .scan hm hnext hstory heval, (hcall.scanAt (r.nextScan + kNsPerSec)).drain⟩

theorem advance (h : Alike K s r r') (hs : Narrow K s) (ha : AgreeOn K hot hot')
    (hr : r.advanceWith s skip fuel hot t = some r₁) :
    ∃ r₁', r'.advanceWith s skip fuel hot' t = some r₁' ∧ Alike K s r₁ r₁' := by
  have hdue : r'.nextDue = r.nextDue := by
    show r'.bare.nextDue = r.bare.nextDue
    rw [h.bare]
  unfold DayRun.advanceWith at hr ⊢
  rw [hdue]
  split at hr
  · rename_i hlt
    cases hr
    exact ⟨r', if_pos hlt, h⟩
  · rename_i hge
    rw [if_neg hge]
    refine Lib.FuelLoop.simulates (R := fun r' r => Alike K s r r') (Q := fun r' r => Alike K s r r') ?_ h hr
    intro r' r r₁ go h hround
    have hready : Alike K s (r.ready s skip t) (r'.ready s skip t) := h.ready
    have hnext : (r'.ready s skip t).next s = (r.ready s skip t).next s := by
      show (r'.ready s skip t).bare.next s = (r.ready s skip t).bare.next s
      rw [hready.bare]
    rcases DayRun.round_cases hround with ⟨rfl, hle, c, hd⟩ | ⟨rfl, hlt, rfl⟩
    · obtain ⟨r₁', hd', h₁⟩ := hready.due hs ha hd
      refine .inr ⟨r₁', ?_, by rwa [if_pos rfl]⟩
      rw [round_eq, hnext, if_neg (UInt64.not_lt.mpr hle), due_callNext hd']
      rfl
    · refine .inr ⟨_, by rw [round_eq, hnext, if_pos hlt], ?_⟩
      rw [if_neg Bool.false_ne_true]
      exact hready.map (g := fun q => { q with nextDue := (r.ready s skip t).next s }) (fun _ => rfl)
        fun _ => rfl

theorem message (h : Alike K s r r') (m : M) :
    Alike K s { r with log := r.log ++ [.message m] } { r' with log := r'.log ++ [.message m] } := by
  obtain ⟨log, rfl, hlog⟩ := h.exists_log
  refine ⟨?_, h.covered⟩
  unfold DayRun.bare
  dsimp only
  rw [List.map_append, List.map_append, hlog]

theorem marketEvents {k : Nat} (h : Alike K s r r') (hs : Narrow K s) (ha : AgreeOn K hot hot')
    (evs : List (MarketEvent k)) : Alike K s (r.marketEvents s hot evs t) (r'.marketEvents s hot' evs t) := by
  refine drain ?_
  induction evs generalizing r r' with
  | nil => exact h
  | cons ev evs ih =>
    have hcall : Alike K s (r.make s (.market ev t hot)) (r'.make s (.market ev t hot')) :=
      h.make hs (c := .market ev t hot) ha nofun
    exact ih hcall

theorem finish (h : Alike K s r r') (hs : Narrow K s) (ha : AgreeOn K hot hot')
    (hr : r.finishWith s skip fuel hot t = some r₁) :
    ∃ r₁', r'.finishWith s skip fuel hot' t = some r₁' ∧ Alike K s r₁ r₁' := by
  obtain ⟨r₂, hr₂, rfl⟩ := Option.map_eq_some_iff.mp hr
  have hzero : Alike K s { r with nextDue := 0 } { r' with nextDue := 0 } :=
    h.map (g := fun q => { q with nextDue := 0 }) (fun _ => rfl) fun _ => rfl
  obtain ⟨r₂', hr₂', h₂⟩ := hzero.advance hs ha hr₂
  have hcall : Alike K s (r₂.make s (.shutdown t hot)) (r₂'.make s (.shutdown t hot')) :=
    h₂.make hs (c := .shutdown t hot) ha nofun
  refine ⟨(r₂'.make s (.shutdown t hot')).drain, ?_, hcall.drain⟩
  unfold DayRun.finishWith
  rw [hr₂']
  rfl

end Alike

/-! ## Days -/

/-- Markets that look the same to an engine that is about symbols of `K`, after every message. -/
structure Twins (K : UInt32 → Prop) (feed : Feed M S n) (T : S → S → Prop) : Prop where
  apply : ∀ m m' x, T m m' → (feed.apply m' x).2 = (feed.apply m x).2 ∧
    T (feed.apply m x).1 (feed.apply m' x).1
  board : ∀ m m', T m m' → AgreeOn K (hotOf (feed.board m)) (hotOf (feed.board m'))

variable {feed : Feed M S n} {T : S → S → Prop} {sim sim' sim₁ : Sim F M S} {ms : List M} {cutoff : UInt64}

/-- Drivers whose runs are alike and whose markets are twins. -/
structure AlikeSim (K : UInt32 → Prop) (s : Setup F) (T : S → S → Prop) (sim sim' : Sim F M S) : Prop where
  run : Alike K s sim.run sim'.run
  market : T sim.market sim'.market
  last : sim'.last = sim.last

theorem AlikeSim.onMessage (h : AlikeSim K s T sim sim') (hs : Narrow K s) (hT : Twins K feed T) {m : M}
    (hm : onMessage s feed skip fuel sim m = some sim₁) :
    ∃ sim₁', Backtest.onMessage s feed skip fuel sim' m = some sim₁' ∧ AlikeSim K s T sim₁ sim₁' := by
  obtain ⟨hev, hmarket⟩ := hT.apply sim.market sim'.market m h.market
  unfold Backtest.onMessage at hm ⊢
  cases ht : feed.tick m with
  | none =>
    rw [ht] at hm
    cases hm
    exact ⟨_, rfl, h.run.message m, hmarket, h.last⟩
  | some t =>
    rw [ht] at hm
    obtain ⟨r, hr, rfl⟩ := Option.map_eq_some_iff.mp hm
    obtain ⟨r', hr', halike⟩ := h.run.advance hs (hT.board _ _ h.market) hr
    dsimp only
    rw [hr']
    refine ⟨_, rfl, ?_, hmarket, rfl⟩
    have hmsg := halike.message m
    dsimp only
    rw [hev]
    cases (feed.apply sim.market m).2 with
    | none => exact hmsg
    | some evs => exact hmsg.marketEvents hs (hT.board _ _ hmarket) evs

theorem AlikeSim.play (h : AlikeSim K s T sim sim') (hs : Narrow K s) (hT : Twins K feed T)
    (hplay : play s feed skip fuel ms sim = some sim₁) :
    ∃ sim₁', Backtest.play s feed skip fuel ms sim' = some sim₁' ∧ AlikeSim K s T sim₁ sim₁' := by
  induction ms generalizing sim sim' with
  | nil =>
    cases hplay
    exact ⟨sim', rfl, h⟩
  | cons m ms ih =>
    rw [Backtest.play, List.foldlM_cons] at hplay
    obtain ⟨sim₂, hm, hrest⟩ := Option.bind_eq_some_iff.mp hplay
    obtain ⟨sim₂', hm', h₂⟩ := h.onMessage hs hT hm
    obtain ⟨sim₁', hrest', h₁⟩ := ih h₂ hrest
    refine ⟨sim₁', ?_, h₁⟩
    rw [Backtest.play, List.foldlM_cons, hm']
    exact hrest'

theorem AlikeSim.replay (h : AlikeSim K s T sim sim') (hs : Narrow K s) (hT : Twins K feed T)
    (hr : replay s feed skip fuel cutoff ms sim = some r) :
    ∃ r', Backtest.replay s feed skip fuel cutoff ms sim' = some r' ∧ Alike K s r r' := by
  obtain ⟨sim₁, hplay, hfin⟩ := Option.bind_eq_some_iff.mp hr
  obtain ⟨sim₁', hplay', h₁⟩ := h.play hs hT hplay
  obtain ⟨r', hfin', halike⟩ := h₁.run.finish hs (hT.board _ _ h₁.market) hfin
  refine ⟨r', ?_, halike⟩
  rw [Backtest.replay, hplay', Option.bind_some, h₁.last]
  exact hfin'

theorem Twins.symm (hT : Twins K feed T) : Twins K feed fun m m' => T m' m where
  apply m m' x h := ⟨(hT.apply m' m x h).1.symm, (hT.apply m' m x h).2⟩
  board m m' h := AgreeOn.symm (hT.board m' m h)

/-- Twin markets lead to the same day. -/
theorem AlikeSim.same (h : AlikeSim K s T sim sim') (hs : Narrow K s) (hT : Twins K feed T) :
    (Backtest.replay s feed skip fuel cutoff ms sim').map DayRun.bare =
      (Backtest.replay s feed skip fuel cutoff ms sim).map DayRun.bare := by
  cases hr : Backtest.replay s feed skip fuel cutoff ms sim with
  | some r =>
    obtain ⟨r', hr', halike⟩ := h.replay hs hT hr
    rw [hr', Option.map_some, Option.map_some, halike.bare]
  | none =>
    cases hr' : Backtest.replay s feed skip fuel cutoff ms sim' with
    | none => rfl
    | some r' =>
      have hback : AlikeSim K s (fun m m' => T m' m) sim' sim := ⟨h.run.symm, h.market, h.last.symm⟩
      obtain ⟨r, hsome, -⟩ := hback.replay hs hT.symm hr'
      rw [hr] at hsome
      cases hsome

/-! ## Filtered quotes -/

section

variable {kept : Fin n → Bool}

theorem popEvents_keep {b b' : ItchBook n} (h : b'.keep kept = b.keep kept) :
    (TimedItch.popEvents b').2 = (TimedItch.popEvents b).2 ∧
      (TimedItch.popEvents b').1.keep kept = (TimedItch.popEvents b).1.keep kept := by
  have hevents : b'.events = b.events := by
    show (b'.keep kept).events = (b.keep kept).events
    rw [h]
  unfold TimedItch.popEvents
  rw [hevents]
  split
  · exact ⟨rfl, h⟩
  · rename_i cap q _
    exact ⟨rfl, congrArg (fun b : ItchBook n => { b with events := some (cap, []) }) h⟩

/-- Books that agree but for the quotes of symbols that are not kept. -/
theorem twins_itch (hK : ∀ sym (h : sym.toNat < n), K sym → kept ⟨sym.toNat, h⟩ = true) (midnight : UInt64) :
    Twins K (TimedItch.feed midnight) fun b b' => b'.keep kept = b.keep kept where
  apply b b' m h := by
    have hmsg : (b'.onMsg m).keep kept = (b.onMsg m).keep kept := by
      rw [ItchBook.blind_onMsg m b', h, ← ItchBook.blind_onMsg m b]
    obtain ⟨hevents, hkeep⟩ := popEvents_keep hmsg
    show (TimedItch.apply b' m).2 = (TimedItch.apply b m).2 ∧
      (TimedItch.apply b' m).1.keep kept = (TimedItch.apply b m).1.keep kept
    unfold TimedItch.apply
    cases m with
    | systemEvent | tradingAction => exact ⟨congrArg some hevents, hkeep⟩
    | _ => exact ⟨rfl, hmsg⟩
  board b b' h := by
    have hstates : ∀ s : Fin n, (if kept s then b'.board.states s else (b'.board.states s).unquoted) =
        if kept s then b.board.states s else (b.board.states s).unquoted := fun s =>
      congrFun (congrArg (fun b : ItchBook n => b.board.states) h) s
    intro site sym
    unfold hotOf
    by_cases hsym : sym.toNat < n
    · rw [dif_pos hsym, dif_pos hsym]
      have hstate := hstates ⟨sym.toNat, hsym⟩
      refine ⟨fun hK' => ?_, ?_⟩
      · rw [if_pos (hK sym hsym hK'), if_pos (hK sym hsym hK')] at hstate
        exact congrArg MarketState.hot hstate
      · split at hstate
        · exact congrArg (fun s : MarketState => s.hot.lastPx) hstate
        · have hpx := congrArg (fun s : MarketState => s.hot.lastPx) hstate
          exact hpx
    · rw [dif_neg hsym, dif_neg hsym]
      exact ⟨fun _ => rfl, rfl⟩

end

/-- The symbols in the news. -/
def InNews (news : List (NewsEvent F)) (sym : UInt32) : Prop := ∃ ev ∈ news, sym ∈ ev.tickers

omit [Dbl F] in
theorem newsMask_getD (news : List (NewsEvent F)) {sym : UInt32} (h : sym.toNat < n) (hin : InNews news sym) :
    (newsMask n news).getD sym.toNat 0 = 1 := by
  obtain ⟨ev, hev, hsym⟩ := hin
  have hany : (news.any fun ev => ev.tickers.contains (UInt32.ofNat sym.toNat)) = true := by
    rw [UInt32.ofNat_toNat]
    exact List.any_eq_true.mpr ⟨ev, hev, List.contains_iff_mem.mpr hsym⟩
  unfold newsMask
  rw [List.getD_eq_getElem?_getD, List.getElem?_map, List.getElem?_range h, Option.map_some, if_pos hany]
  rfl

/-- The quotes of the other symbols are never missed: a day replayed with the quotes of the tickers in the
news only is the day with every quote, unless movers are looked for or every halt is an alert. -/
theorem quote_filter_unseen (o : BacktestOptions F) (inp : Inputs F) (news : List (NewsEvent F))
    (filings : FilingsHistory) (board : MarketBoard inp.symbols.size) (midnight cutoff first : UInt64)
    (ms : List Itch.Msg) (skip : Bool) (fuel : Nat) (hmovers : o.movers = false)
    (hhalts : o.engine.haltAlerts ≠ 2) :
    let s := setup o inp true news
    let day := fun mask : List UInt8 =>
      (replay s (TimedItch.feed midnight) skip fuel cutoff ms {
        run := .new (Engine.init s.env filings)
        market := ItchBook.new inp.findKey board (some (65536, [])) o.orderCapacity true mask
        last := first }).map DayRun.bare
    day (newsMask inp.symbols.size news) = day [] := by
  intro s day
  have hs : Narrow (InNews news) s := ⟨fun ev hev sym hsym => ⟨ev, hev, hsym⟩, hmovers, hhalts⟩
  have hT := @twins_itch inp.symbols.size (InNews news)
    (fun s => (newsMask inp.symbols.size news).getD s 0 != 0) (fun sym h hin => by
      show ((newsMask inp.symbols.size news).getD sym.toNat 0 != 0) = true
      rw [newsMask_getD news h hin]
      rfl) midnight
  refine AlikeSim.same (T := _) ⟨⟨rfl, Engine.covered_init filings⟩, ?_, rfl⟩ hs hT
  refine ItchBook.keep_congr rfl rfl rfl rfl rfl rfl (fun _ _ => rfl) (fun x hx => ?_) rfl rfl
  show (true && ((newsMask inp.symbols.size news).isEmpty ||
    (newsMask inp.symbols.size news).getD x 0 != 0)) = true
  rw [hx, Bool.or_true]
  rfl

/-- A day with one story and two messages. -/
theorem quote_filter_unseen_story :
    let news := [{ Engine.acmeEvent with recvNs := 1700000001000000000 }]
    let s := setup {} plainInputs true news
    let ms : List Itch.Msg := [.systemEvent 0 (ch 'O'), .systemEvent 2000000000 (ch 'Q')]
    let day := fun mask : List UInt8 =>
      (replay s (TimedItch.feed 1700000000000000000) true (2 ^ 66) 0 ms {
        run := .new (Engine.init s.env {})
        market := ItchBook.new plainInputs.findKey {} (some (65536, [])) 4194304 true mask
        last := 0 }).map DayRun.bare
    day (newsMask plainInputs.symbols.size news) = day [] :=
  quote_filter_unseen {} plainInputs [{ Engine.acmeEvent with recvNs := 1700000001000000000 }] {} {}
    1700000000000000000 0 0 [.systemEvent 0 (ch 'O'), .systemEvent 2000000000 (ch 'Q')] true (2 ^ 66) rfl
    (by decide)

end Stok.Backtest
