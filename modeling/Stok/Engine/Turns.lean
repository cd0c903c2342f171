import Stok.Engine.WatchTable

/-!
# What a call does, turn by turn

`Micro` in the module on the watch table forgets what a watch holds. A `Turn` is a piece of a call at
the level of the functions that write the state: it knows the call it belongs to, so that what is
stored in a watch, the halt table and the filings can be traced to the events of a run.
-/

namespace Stok

namespace Engine

variable {F : Type} [Dbl F]

def Call.hot : Call F → Hot
  | .news _ _ hot | .market _ _ hot | .evaluate _ hot | .scanMovers _ hot | .shutdown _ hot => hot

/-- A call that may report trading halts. -/
def Call.halts : Call F → Bool
  | .news ev _ _ => ev.kind = .halt
  | .market ev _ _ => ev.type = .tradingAction
  | _ => false

/-- The outcomes in the journal. -/
def outcomes (e : Engine F) : List (Outcome F) :=
  e.journal.filterMap fun
    | .outcome o => some o
    | _ => none

/-- Nothing that a watch, a halt or a filing is read from changes. -/
structure Aside (e e' : Engine F) : Prop where
  core : e'.core = e.core
  haltSeen : e'.haltSeen = e.haltSeen
  filings : e'.filings = e.filings
  outcomes : e'.outcomes = e.outcomes

/-- The story with the score `r` is stored for the ticker `t`, unless a stronger one is there. -/
def Stored (env : Env F) (e : Engine F) (r : ScoreResult F) (t : UInt32 × Nat) (hot : Hot) : Prop :=
  t.1.toNat < env.symbols.size ∧
    let p := assess env e r t.1 (env.look hot (.news t.2) t.1)
    p.inu = true ∧ hardBlock p.r p.dil = false ∧ env.cfg.watchScore ≤ p.r.score

inductive Turn (env : Env F) (c : Call F) : Engine F → Engine F → Prop where
  | aside {e e' : Engine F} : Aside e e' → Turn env c e e'
  | today (e : Engine F) : Turn env c e (e.todayDays c.now)
  | filing {ev : NewsEvent F} {now : UInt64} {hot : Hot} (e : Engine F) : c = .news ev now hot →
      ev.kind = .filing → Turn env c e { e with
        filings := e.filings.add ev.cik e.cachedDay (classifyForm ev.form.bytes) ev.itemsMask }
  | dilution {ev : NewsEvent F} {now : UInt64} {hot : Hot} (e : Engine F) (t : UInt32 × Nat) :
      c = .news ev now hot → ev.kind = .filing →
      classifyForm ev.form.bytes ∈ [.prospectus, .effect, .s1, .s3] →
      Turn env c e (dilutionInfo env ev (classifyForm ev.form.bytes) now hot e t)
  | story {ev : NewsEvent F} {now : UInt64} {hot : Hot} (e : Engine F) (r : ScoreResult F)
      (t : UInt32 × Nat) : c = .news ev now hot → ev.kind ≠ .halt → t ∈ ev.tickers.zipIdx →
      Stored env e r t hot →
      Turn env c e (storyOn env e ev (assess env e r t.1 (env.look hot (.news t.2) t.1)) now
        (env.look hot (.news t.2) t.1) (hot (.newsSignal t.2) t.1)).1
  | look (e : Engine F) (k : Nat) : Turn env c e (evalAt env c.now c.hot e k)
  | walked (e : Engine F) (w : Walk) :
      Turn env c e { e with trace := { e.trace with walks := e.trace.walks ++ [w] } }
  | mover (e : Engine F) (sym : UInt32) : Turn env c e (scanSym env c.now c.hot e sym)
  | halt (e : Engine F) (sym : UInt32) (halted : Bool) (reason title : Bytes) (i : Nat) :
      c.halts = true → Turn env c e (handleHalt env e sym halted reason c.now title c.hot i)

abbrev Turns (env : Env F) (c : Call F) : Engine F → Engine F → Prop :=
  Relation.ReflTransGen (Turn env c)

variable {env : Env F} {e e' : Engine F} {c : Call F} {ev : NewsEvent F} {now : UInt64} {hot : Hot}

theorem turns_aside (h : Aside e e') : Turns env c e e' := .single (.aside h)

theorem turns_foldl {S α : Type} (eng : S → Engine F) {f : S → α → S} {l : List α}
    (hf : ∀ s, ∀ a ∈ l, Turns env c (eng s) (eng (f s a))) (s : S) :
    Turns env c (eng s) (eng (l.foldl f s)) := by
  induction l generalizing s with
  | nil => exact .refl
  | cons a l ih =>
    exact (hf s a List.mem_cons_self).trans (ih (fun s b hb => hf s b (List.mem_cons_of_mem a hb)) _)

theorem aside_write {rs : List (JournalRecord F)} (h : ∀ r ∈ rs, ∀ o, r ≠ .outcome o) :
    Aside e (e.write rs) := by
  refine ⟨rfl, rfl, rfl, ?_⟩
  show List.filterMap _ (e.journal ++ rs) = _
  have hnil : rs.filterMap (fun r => match r with
      | JournalRecord.outcome o => some o
      | _ => none) = [] := by
    refine List.filterMap_eq_nil_iff.mpr fun r hr => ?_
    cases r with
    | outcome o => exact absurd rfl (h _ hr o)
    | _ => rfl
  rw [List.filterMap_append, hnil, List.append_nil]
  rfl

theorem aside_dedupe (e : Engine F) (ev : NewsEvent F) : Aside e (e.dedupe ev).1 := by
  refine ⟨dedupe_core e ev, ?_, ?_, ?_⟩ <;>
  · unfold dedupe
    split
    · dsimp only
      split <;> rfl
    · rfl

theorem aside_journalNews (ev : NewsEvent F) (d : Dedupe) (p : Primary F) (now : UInt64) :
    Aside e (e.journalNews ev d p now) := by
  refine aside_write fun r hr => ?_
  rw [List.mem_singleton.mp hr]
  exact nofun

theorem aside_trades (p : PaperTrader F) (ts : List (PaperTrade F)) :
    Aside e ({ e with paper := some p }.write (ts.map .trade)) := by
  have hrs : ∀ r ∈ ts.map JournalRecord.trade, ∀ o, r ≠ .outcome o := by
    intro r hr
    obtain ⟨t, -, rfl⟩ := List.mem_map.mp hr
    exact nofun
  have h := aside_write (e := { e with paper := some p }) hrs
  exact ⟨h.core, h.haltSeen, h.filings, h.outcomes⟩

theorem aside_paperStep (now : UInt64) (hot : Hot) : Aside e (paperStep env e now hot) := by
  unfold paperStep
  split
  · exact ⟨rfl, rfl, rfl, rfl⟩
  · exact aside_trades _ _

theorem turns_evaluate (e : Engine F) : Turns env c e (evaluate env e c.now c.hot) := by
  have hloop : ∀ k (e : Engine F), Turns env c e (evalLoop env c.now c.hot k e).1 := by
    intro k
    induction k with
    | zero => exact fun _ => .refl
    | succ k ih => exact fun e => (Relation.ReflTransGen.single (.look e k)).trans (ih _)
  exact ((hloop _ e).tail (.walked _ _)).tail (.aside (aside_paperStep _ _))

theorem turns_newsTicker (hc : c = .news ev now hot) (hk : ev.kind ≠ .halt) (r : ScoreResult F)
    (l : NewsLoop F) {t : UInt32 × Nat} (ht : t ∈ ev.tickers.zipIdx) :
    Turns env c l.e (newsTicker env ev r now hot l t).e := by
  unfold newsTicker
  dsimp only
  split
  · exact .refl
  · rename_i hsize
    have hnoted : Aside l.e { l.e with
        lastNewsBySym := l.e.lastNewsBySym.insertOrAssign t.1.toUInt64 now } := ⟨rfl, rfl, rfl, rfl⟩
    split
    · exact turns_aside hnoted
    · rename_i hstored
      simp only [not_or, Bool.not_eq_true', Bool.not_eq_false, Bool.not_eq_true] at hstored
      refine (turns_aside hnoted).tail (.story _ r t hc hk ht ⟨Nat.not_le.mp hsize, hstored.1, hstored.2.1, ?_⟩)
      exact Int32.not_lt.mp hstored.2.2

theorem turns_onScored (hc : c = .news ev now hot) (hk : ev.kind ≠ .halt) (d : Dedupe)
    (r : ScoreResult F) (e : Engine F) : Turns env c e (onScored env e ev d r now hot) := by
  have hnow : c.now = now := by rw [hc]; rfl
  have hhot : c.hot = hot := by rw [hc]; rfl
  have htoday : Turns env c e (e.todayDays now) := by
    rw [← hnow]
    exact .single (.today e)
  unfold onScored
  dsimp only
  have hts : ∀ t ∈ (if ev.kind = EventKind.news then ev.tickers else ev.tickers.take 1).zipIdx,
      t ∈ ev.tickers.zipIdx := by
    intro t ht
    split at ht
    · exact ht
    · rw [List.mem_zipIdx_iff_getElem?, List.getElem?_take] at ht
      split at ht
      · exact List.mem_zipIdx_iff_getElem?.mpr ht
      · cases ht
  generalize (if ev.kind = EventKind.news then ev.tickers else ev.tickers.take 1).zipIdx = ts at hts
  have hloop : Turns env c _ _ := turns_foldl NewsLoop.e
    (fun l t ht => turns_newsTicker hc hk r l (hts t ht))
    { e := e.todayDays now, p := { r := r, sym := SymbolTable.kInvalid, dil := 0, mcap := Dbl.ofRat 0, price := Dbl.ofRat 0, inu := false }, touched := false }
  generalize ts.foldl _ _ = l at hloop ⊢
  have hall : Turns env c e (l.e.journalNews ev d l.p now) :=
    (htoday.trans hloop).tail (.aside (aside_journalNews ev d l.p now))
  split
  · rw [← hhot, ← hnow] at *
    exact hall.trans (turns_evaluate _)
  · exact hall

theorem turns_handleHalt (hc : c.halts = true) (e : Engine F) (sym : UInt32) (halted : Bool)
    (reason title : Bytes) (i : Nat) (hnow : c.now = now) (hhot : c.hot = hot) :
    Turns env c e (handleHalt env e sym halted reason now title hot i) := by
  subst hnow hhot
  exact .single (.halt e sym halted reason title i hc)

theorem turns_onRegistration (hc : c = .news ev now hot) (hk : ev.kind = .filing) (e : Engine F) :
    Turns env c e (onRegistration env e ev now hot) := by
  unfold onRegistration
  dsimp only
  split
  · rename_i hcls
    refine turns_foldl (fun e => e) (fun e t _ => .single (.dilution e t hc hk ?_)) e
    simpa using hcls
  · exact .refl

theorem turns_onNews (hc : c = .news ev now hot) (e : Engine F) :
    Turns env c e (onNews env e ev now hot) := by
  have hnow : c.now = now := by rw [hc]; rfl
  have hhot : c.hot = hot := by rw [hc]; rfl
  have hd : Turns env c e (e.dedupe ev).1 := turns_aside (aside_dedupe e ev)
  unfold onNews
  generalize e.dedupe ev = p at hd
  obtain ⟨e', d⟩ := p
  dsimp only at hd ⊢
  refine hd.trans ?_
  cases hk : ev.kind with
  | halt =>
    have hh : c.halts = true := by
      rw [hc]
      exact decide_eq_true hk
    refine .tail (turns_foldl (fun e => e) (fun e t _ => ?_) e') (.aside (aside_journalNews ev d _ now))
    exact turns_handleHalt hh e _ _ _ _ _ hnow hhot
  | filing =>
    have hfile : Turns env c e' (e'.noteFiling ev now) := by
      refine .tail ?_ (.filing (e'.todayDays now) hc hk)
      rw [← hnow]
      exact .single (.today e')
    refine hfile.trans ?_
    dsimp only
    split
    · exact (turns_onRegistration hc hk _).tail (.aside (aside_journalNews ev d _ now))
    · exact turns_onScored hc (by rw [hk]; exact nofun) d _ _
  | news => exact turns_onScored hc (by rw [hk]; exact nofun) d _ _
  | filingDoc => exact turns_onScored hc (by rw [hk]; exact nofun) d _ _

/-- Every call is a sequence of its turns. -/
theorem turns_call (c : Call F) (e : Engine F) : Turns env c e (call env e c) := by
  cases c with
  | news ev now hot => exact turns_onNews rfl e
  | @market n ev now hot =>
    show Turns env (.market ev now hot) e (onMarketEvent env e ev now hot)
    unfold onMarketEvent
    split
    · rename_i htype
      exact turns_handleHalt (c := .market ev now hot) (decide_eq_true htype) e _ _ _ _ _ rfl rfl
    · exact .refl
  | evaluate now hot => exact turns_evaluate e
  | scanMovers now hot =>
    show Turns env (.scanMovers now hot) e (scanMovers env e now hot)
    unfold scanMovers
    split
    · exact .refl
    · split
      · exact .refl
      · exact .head (.today e) (turns_foldl (fun e => e) (fun e sym _ => .single (.mover e sym)) _)
  | shutdown now hot =>
    show Turns env (.shutdown now hot) e (shutdown env e now hot)
    unfold shutdown
    split
    · exact .refl
    · exact turns_aside (aside_trades _ _)

/-- A story on the one symbol of the table. -/
def acmeEvent : NewsEvent ℚ :=
  { idHash := 1, titleKey := 0, recvNs := 0, sentNs := 0, publishedNs := 0, parsedNs := 0, cik := 0
    itemsMask := 0, source := 0, kind := .news, flags := 0, tickers := [0], unresolved := []
    form := .print pos_16 []
    halt :=
      { reason := .print pos_8 [], market := .print pos_12 [], haltNs := 0
        resumeQuoteNs := 0, resumeTradeNs := 0, pauseThreshold := 0 }
    title := .empty pos_256, link := .empty pos_320, body := .empty pos_3072
    tickers_le := one_ticker_le, unresolved_le := no_unresolved_le }

end Engine

end Stok
