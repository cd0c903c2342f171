import Stok.Engine.Engine

/-!
# The records of a call

What the engine offers to its two rings only grows, and the only call that writes a story into the
journal is the one that handles the story: it does so once.
-/

namespace Stok

/-- The story of a record. -/
def JournalRecord.story {F : Type} : JournalRecord F → Option (NewsEvent F)
  | .news r => some r.news
  | _ => none

namespace Engine

variable {F : Type} [Dbl F] {env : Env F} {e e' e'' : Engine F} {now : UInt64} {hot : Hot}

/-- The stories in the journal. -/
def journaled (e : Engine F) : List (NewsEvent F) := e.journal.filterMap JournalRecord.story

/-- Nothing but records without a story is added to what the engine has offered. -/
structure Adds (e e' : Engine F) : Prop where
  alerts : e.alerts <+: e'.alerts
  journal : e.journal <+: e'.journal
  journaled : e'.journaled = e.journaled

theorem Adds.refl (e : Engine F) : Adds e e := ⟨List.prefix_rfl, List.prefix_rfl, rfl⟩

theorem Adds.trans (h : Adds e e') (h' : Adds e' e'') : Adds e e'' :=
  ⟨h.alerts.trans h'.alerts, h.journal.trans h'.journal, h'.journaled.trans h.journaled⟩

theorem Adds.of_eq (ha : e'.alerts = e.alerts) (hj : e'.journal = e.journal) : Adds e e' := by
  refine ⟨?_, ?_, ?_⟩
  · rw [ha]
  · rw [hj]
  · unfold Engine.journaled
    rw [hj]

theorem Adds.foldl {α : Type} {f : Engine F → α → Engine F} (hf : ∀ e a, Adds e (f e a)) (l : List α)
    (e : Engine F) : Adds e (l.foldl f e) := by
  induction l generalizing e with
  | nil => exact .refl e
  | cons a l ih => exact (hf e a).trans (ih (f e a))

theorem journaled_write (e : Engine F) (rs : List (JournalRecord F)) :
    (e.write rs).journaled = e.journaled ++ rs.filterMap JournalRecord.story :=
  List.filterMap_append

theorem adds_write (e : Engine F) {rs : List (JournalRecord F)} (h : ∀ r ∈ rs, r.story = none) :
    Adds e (e.write rs) := by
  refine ⟨List.prefix_rfl, List.prefix_append _ _, ?_⟩
  rw [journaled_write, List.filterMap_eq_nil_iff.mpr h, List.append_nil]

theorem adds_emit (e : Engine F) (w : Watch F) (tier : Tier) (h : MarketHot) (reason : Bytes) :
    Adds e (emit env e w tier now h reason) := by
  refine ⟨?_, List.prefix_append _ _, ?_⟩
  · show e.alerts <+: if tier ≠ .watch ∨ env.cfg.pushWatch then e.alerts ++ [_] else e.alerts
    split
    · exact List.prefix_append _ _
    · exact List.prefix_rfl
  · show List.filterMap _ (e.journal ++ [_]) = _
    rw [List.filterMap_append]
    exact List.append_nil _

theorem adds_emitCooled (e : Engine F) (w : Watch F) (tier : Tier) (h : MarketHot) :
    Adds e (emitCooled env e w tier now h) := by
  have hcool : Adds e (cooledDown env e w.sym tier now).1 := by
    unfold cooledDown
    dsimp only
    split <;> exact .of_eq rfl rfl
  unfold emitCooled
  generalize cooledDown env e w.sym tier now = c at hcool
  obtain ⟨e₁, b⟩ := c
  cases b with
  | true => exact hcool.trans (adds_emit e₁ w tier h [])
  | false => exact hcool

theorem adds_todayDays (e : Engine F) (now : UInt64) : Adds e (e.todayDays now) := by
  unfold todayDays
  split <;> exact .of_eq rfl rfl

theorem adds_setWatch (e : Engine F) (i : SlotId) (w : Watch F) : Adds e (e.setWatch i w) :=
  .of_eq rfl rfl

theorem adds_deactivateWatch (e : Engine F) (k : Nat) : Adds e (e.deactivateWatch k) := by
  unfold deactivateWatch
  split <;> exact .of_eq rfl rfl

theorem adds_activateWatch (e : Engine F) (sym : UInt32) : Adds e (e.activateWatch sym).1 := by
  have hevict : Adds e (if e.free.isEmpty then e.deactivateWatch e.oldest else e) := by
    split
    · exact adds_deactivateWatch e _
    · exact .refl e
  exact hevict.trans (.of_eq rfl rfl)

/-! ## Evaluation -/

theorem lookAt_story (w : Watch F) (h : MarketHot) :
    ∀ r ∈ (lookAt env w now h).2.1, r.story = none := by
  have houts (w : Watch F) (move : F) (due : List Int32) :
      ∀ r ∈ due.map fun s => JournalRecord.outcome (outcomeOf env w s now h move), r.story = none := by
    intro r hr
    obtain ⟨s, -, rfl⟩ := List.mem_map.mp hr
    rfl
  unfold lookAt
  split
  · exact fun r hr => absurd hr List.not_mem_nil
  · dsimp only
    generalize horizons _ 0 _ _ = hz
    generalize (if w.refPx ≤ 0 then { w with refPx := h.lastPx } else w) = w'
    split
    · exact houts _ _ _
    · generalize isHigh env _ h = high
      generalize (if high = true then Tier.high else Tier.alert) = t
      split <;> exact houts _ _ _

theorem adds_evalAt (e : Engine F) (k : Nat) : Adds e (evalAt env now hot e k) := by
  unfold evalAt
  split
  · exact .refl e
  · rename_i i _
    split
    · exact adds_deactivateWatch e k
    · split
      · exact .refl e
      · have hstory := @lookAt_story F _ env now (e.watch i) (hot (.eval k) (e.watch i).sym)
        generalize lookAt env (e.watch i) now (hot (.eval k) (e.watch i).sym) = look at hstory
        obtain ⟨w, outs, tier⟩ := look
        have hlook := (adds_setWatch e i w).trans (adds_write _ hstory)
        cases tier with
        | none => exact hlook
        | some t => exact hlook.trans (adds_emitCooled _ w t _)

theorem adds_trades (e : Engine F) (p : PaperTrader F) (ts : List (PaperTrade F)) :
    Adds e ({ e with paper := some p }.write (ts.map .trade)) := by
  refine (Adds.of_eq rfl rfl : Adds e { e with paper := some p }).trans (adds_write _ ?_)
  intro r hr
  obtain ⟨t, -, rfl⟩ := List.mem_map.mp hr
  rfl

theorem adds_paperStep (e : Engine F) : Adds e (paperStep env e now hot) := by
  unfold paperStep
  split
  · exact .refl e
  · exact adds_trades e _ _

theorem adds_evaluate (e : Engine F) : Adds e (evaluate env e now hot) := by
  have hloop (k : Nat) (e : Engine F) : Adds e (evalLoop env now hot k e).1 := by
    unfold evalLoop
    induction k generalizing e with
    | zero => exact .refl e
    | succ k ih => exact (adds_evalAt e k).trans (ih _)
  unfold evaluate
  dsimp only
  refine (hloop e.active.length e).trans (.trans ?_ (adds_paperStep _))
  exact .of_eq rfl rfl

/-! ## Halts and movers -/

theorem adds_handleHalt (e : Engine F) (sym : UInt32) (halted : Bool) (reason title : Bytes) (i : Nat) :
    Adds e (handleHalt env e sym halted reason now title hot i) := by
  have hnote : Adds e (e.noteHalt sym halted now).1 := by
    unfold noteHalt
    dsimp only
    split <;> exact .of_eq rfl rfl
  unfold handleHalt
  split
  · exact .refl e
  · generalize e.noteHalt sym halted now = c at hnote
    obtain ⟨e₁, b⟩ := c
    cases b with
    | false => exact hnote
    | true =>
      dsimp only
      split
      · exact hnote
      · exact hnote.trans (adds_emit e₁ _ _ _ _)

theorem adds_onMarketEvent {n : Nat} (e : Engine F) (ev : MarketEvent n) :
    Adds e (onMarketEvent env e ev now hot) := by
  unfold onMarketEvent
  split
  · exact adds_handleHalt e _ _ _ _ _
  · exact .refl e

theorem adds_scanSym (e : Engine F) (sym : UInt32) : Adds e (scanSym env now hot e sym) := by
  unfold scanSym
  split
  · exact .refl e
  · split
    · exact .refl e
    · dsimp only
      split
      · exact .of_eq rfl rfl
      · refine .trans ?_ (adds_emit _ _ _ _ _)
        exact .of_eq rfl rfl

theorem adds_scanMovers (e : Engine F) : Adds e (scanMovers env e now hot) := by
  unfold scanMovers
  split
  · exact .refl e
  · split
    · exact .refl e
    · exact (adds_todayDays e now).trans (.foldl adds_scanSym _ _)

/-! ## News -/

theorem adds_storeStory (e : Engine F) (i : SlotId) (w : Watch F) (h : MarketHot) :
    Adds e (storeStory env e i w now h) := by
  unfold storeStory
  split
  · exact (adds_setWatch e i _).trans (adds_emitCooled _ _ _ h)
  · exact adds_setWatch e i w

theorem adds_storyOn (e : Engine F) (ev : NewsEvent F) (p : Primary F) (h hs : MarketHot) :
    Adds e (storyOn env e ev p now h hs).1 := by
  unfold storyOn
  split
  · split
    · exact .refl e
    · exact adds_storeStory e _ _ hs
  · exact (adds_activateWatch e p.sym).trans (adds_storeStory _ _ _ hs)

theorem adds_newsTicker (ev : NewsEvent F) (r : ScoreResult F) (l : NewsLoop F) (t : UInt32 × Nat) :
    Adds l.e (newsTicker env ev r now hot l t).e := by
  unfold newsTicker
  split
  · exact .refl l.e
  · dsimp only
    split
    · exact .of_eq rfl rfl
    · refine .trans ?_ (adds_storyOn _ ev _ _ _)
      exact .of_eq rfl rfl

theorem adds_newsTickers (ev : NewsEvent F) (r : ScoreResult F) (ts : List (UInt32 × Nat))
    (l : NewsLoop F) : Adds l.e (ts.foldl (newsTicker env ev r now hot) l).e := by
  induction ts generalizing l with
  | nil => exact .refl l.e
  | cons t ts ih => exact (adds_newsTicker ev r l t).trans (ih _)

theorem adds_dilutionInfo (e : Engine F) (ev : NewsEvent F) (cls : FormClass) (t : UInt32 × Nat) :
    Adds e (dilutionInfo env ev cls now hot e t) := by
  unfold dilutionInfo
  split
  · exact .refl e
  · exact (adds_setWatch e _ _).trans (adds_emit _ _ _ _ _)

theorem adds_dedupe (e : Engine F) (ev : NewsEvent F) : Adds e (e.dedupe ev).1 := by
  unfold dedupe
  split
  · dsimp only
    split <;> exact .of_eq rfl rfl
  · exact .refl e

theorem adds_noteFiling (e : Engine F) (ev : NewsEvent F) : Adds e (e.noteFiling ev now) :=
  (adds_todayDays e now).trans (.of_eq rfl rfl)

theorem adds_onRegistration (e : Engine F) (ev : NewsEvent F) :
    Adds e (onRegistration env e ev now hot) := by
  unfold onRegistration
  dsimp only
  split
  · exact .foldl (fun e t => adds_dilutionInfo e ev _ t) _ e
  · exact .refl e

/-- As `Adds`, and the given stories are journaled, in their order. -/
structure Journals (e : Engine F) (evs : List (NewsEvent F)) (e' : Engine F) : Prop where
  alerts : e.alerts <+: e'.alerts
  journal : e.journal <+: e'.journal
  journaled : e'.journaled = e.journaled ++ evs

variable {ev : NewsEvent F}

theorem Adds.journals (h : Adds e e') : Journals e [] e' :=
  ⟨h.alerts, h.journal, by rw [h.journaled, List.append_nil]⟩

theorem Adds.trans_journals {evs : List (NewsEvent F)} (h : Adds e e') (h' : Journals e' evs e'') :
    Journals e evs e'' :=
  ⟨h.alerts.trans h'.alerts, h.journal.trans h'.journal, by rw [h'.journaled, h.journaled]⟩

theorem Journals.trans_adds {evs : List (NewsEvent F)} (h : Journals e evs e') (h' : Adds e' e'') :
    Journals e evs e'' :=
  ⟨h.alerts.trans h'.alerts, h.journal.trans h'.journal, by rw [h'.journaled, h.journaled]⟩

theorem journals_journalNews (e : Engine F) (ev : NewsEvent F) (d : Dedupe) (p : Primary F) :
    Journals e [ev] (e.journalNews ev d p now) :=
  ⟨List.prefix_rfl, List.prefix_append _ _, journaled_write e _⟩

theorem journals_onScored (e : Engine F) (ev : NewsEvent F) (d : Dedupe) (r : ScoreResult F) :
    Journals e [ev] (onScored env e ev d r now hot) := by
  unfold onScored
  dsimp only
  generalize (if ev.kind = .news then ev.tickers else ev.tickers.take 1).zipIdx = ts
  generalize Primary.mk r SymbolTable.kInvalid 0 (Dbl.ofRat 0) (Dbl.ofRat 0) false = p
  have hloop : Adds e (ts.foldl (newsTicker env ev r now hot) ⟨e.todayDays now, p, false⟩).e :=
    (adds_todayDays e now).trans (adds_newsTickers ev r ts ⟨e.todayDays now, p, false⟩)
  have hrecord := hloop.trans_journals (@journals_journalNews F _ now _ ev d
    (ts.foldl (newsTicker env ev r now hot) ⟨e.todayDays now, p, false⟩).p)
  split
  · exact hrecord.trans_adds (adds_evaluate _)
  · exact hrecord

theorem journals_onNews (e : Engine F) (ev : NewsEvent F) :
    Journals e [ev] (onNews env e ev now hot) := by
  have hdedupe := adds_dedupe e ev
  unfold onNews
  generalize e.dedupe ev = c at hdedupe
  obtain ⟨e₁, d⟩ := c
  refine hdedupe.trans_journals ?_
  cases hk : ev.kind with
  | halt =>
    refine Adds.trans_journals ?_ (journals_journalNews _ ev d _)
    exact .foldl (fun e t => adds_handleHalt e _ _ _ _ _) _ e₁
  | filing =>
    dsimp only
    split
    · exact ((adds_noteFiling e₁ ev).trans (adds_onRegistration _ ev)).trans_journals
        (journals_journalNews _ ev d _)
    · exact (adds_noteFiling e₁ ev).trans_journals (journals_onScored _ ev d _)
  | news => exact journals_onScored e₁ ev d _
  | filingDoc => exact journals_onScored e₁ ev d _

/-- The stories of a call. -/
def Call.stories : Call F → List (NewsEvent F)
  | .news ev _ _ => [ev]
  | _ => []

theorem journals_call (e : Engine F) (c : Call F) : Journals e c.stories (call env e c) := by
  cases c with
  | news ev now hot => exact journals_onNews e ev
  | market ev now hot => exact (adds_onMarketEvent e ev).journals
  | evaluate now hot => exact (adds_evaluate e).journals
  | scanMovers now hot => exact (adds_scanMovers e).journals
  | shutdown now hot =>
    show Journals e [] (shutdown env e now hot)
    unfold shutdown
    split
    · exact (Adds.refl e).journals
    · exact (adds_trades e _ _).journals

/-- A run journals every story it is given, once and in order, and no other. -/
theorem journaled_run (e : Engine F) (calls : List (Call F)) :
    (run env e calls).journaled = e.journaled ++ calls.flatMap Call.stories := by
  induction calls generalizing e with
  | nil => exact (List.append_nil _).symm
  | cons c calls ih =>
    calc (run env (call env e c) calls).journaled
        = (call env e c).journaled ++ calls.flatMap Call.stories := ih _
      _ = (e.journaled ++ c.stories) ++ calls.flatMap Call.stories := by
        rw [(journals_call e c).journaled]
      _ = e.journaled ++ (c :: calls).flatMap Call.stories := by
        rw [List.append_assoc, List.flatMap_cons]

end Engine

end Stok
