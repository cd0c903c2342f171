import Stok.Engine.Paper

/-!
# Runs of the paper trader

A run is a sequence of `on_signal`, `step` and `close_all` calls. The two loops give every slot one
turn; `Turn` lists what a turn can do, with the conditions under which it does it, and `walk_turns`
carries a fact about the whole trader through a loop, one turn at a time.
-/

namespace Stok

open Dbl (ofRat)

namespace Paper.Pos

variable {F : Type} [Dbl F]

/-- An order that is not filled. -/
def waiting (q : Pos F) : Bool := q.active && !q.filled

/-- A position that is held. -/
def held (q : Pos F) : Bool := q.active && q.filled

end Paper.Pos

namespace PaperTrader

open Paper

variable {F : Type} [Dbl F]

/-- The calls made on a trader. -/
inductive Call (F : Type) where
  | signal (s : Signal F) (now : UInt64)
  | step (now : UInt64) (hot : Nat → UInt32 → MarketHot)
  | closeAll (now : UInt64) (reason : Bytes) (hot : Nat → UInt32 → MarketHot)

def Call.now : Call F → UInt64
  | .signal _ now | .step now _ | .closeAll now _ _ => now

/-- The trader after a call and the trades that its sink was given. -/
def call (cfg : PaperConfig F) (p : PaperTrader F) : Call F → PaperTrader F × List (PaperTrade F)
  | .signal s now => (p.onSignal cfg s now, [])
  | .step now hot => p.step cfg now hot
  | .closeAll now reason hot => p.closeAll cfg now reason hot

/-- A run, with all trades the sink was given. -/
def run (cfg : PaperConfig F) (calls : List (Call F)) : PaperTrader F × List (PaperTrade F) :=
  calls.foldl (fun s c => ((s.1.call cfg c).1, s.2 ++ (s.1.call cfg c).2)) (init cfg, [])

theorem run_nil (cfg : PaperConfig F) : run cfg [] = (init cfg, []) := rfl

theorem run_concat (cfg : PaperConfig F) (calls : List (Call F)) (c : Call F) :
    run cfg (calls ++ [c]) = (((run cfg calls).1.call cfg c).1,
      (run cfg calls).2 ++ ((run cfg calls).1.call cfg c).2) := by
  rw [run, List.foldl_append]
  rfl

/-! ## Positions -/

variable (cfg : PaperConfig F)

/-- What a share costs, before slippage. -/
def cost (h : MarketHot) : F := if h.quoteValid then h.ask else h.last

def fillPx (h : MarketHot) : F := cost h * (ofRat 1 + cfg.slippageBps / ofRat 10000)

def sharesAt (h : MarketHot) : F := Dbl.floor (cfg.positionUsd / fillPx cfg h)

/-- The stock trades and has a price. -/
def priced (h : MarketHot) : Bool := !h.halted && !Dbl.le (cost h : F) (ofRat 0)

/-- The price has run away from that of the signal. -/
def chased (q : Pos F) (h : MarketHot) : Bool :=
  Dbl.lt (ofRat 0) q.t.signalPx &&
    Dbl.lt (q.t.signalPx * (ofRat 1 + cfg.maxChasePct / ofRat 100)) (cost h)

/-- An order whose time has come and that the position size buys no share of. -/
def unsized (q : Pos F) (h : MarketHot) (now : UInt64) : Bool :=
  q.waiting && decide (q.eligibleNs ≤ now) && priced (F := F) h && !chased cfg q h &&
    Dbl.lt (sharesAt cfg h) (ofRat 1)

/-- The trade of an order that is filled. -/
def filledTrade (t : PaperTrade F) (h : MarketHot) (now : UInt64) : PaperTrade F :=
  { t with
    entryPx := fillPx cfg h
    entryNs := now
    shares := sharesAt cfg h
    quoteEntry := h.quoteValid
    sizeOverTouch := h.quoteValid && Dbl.lt (ofRat h.askSz.toNat) (sharesAt cfg h)
    fees := fees cfg (sharesAt cfg h)
    mfePct := ofRat 0
    maePct := ofRat 0
    closed := false }

/-- The trade of a position with its extremes at a mark. -/
def marked (t : PaperTrade F) (h : MarketHot) : PaperTrade F :=
  let chg := (mark h - t.entryPx) * ofRat 100 / t.entryPx
  { t with mfePct := Dbl.max t.mfePct chg, maePct := Dbl.min t.maePct chg }

/-! ## Turns -/

/-- What the turn of a slot does to the statistics and the position, and the trades it reports;
`closing` is for `close_all`. -/
inductive Turn (now : UInt64) (h : MarketHot) (st : Stats F) (q : Pos F) :
    Bool → Stats F → Pos F → List (PaperTrade F) → Prop where
  | free {closing : Bool} : q.active = false → Turn now h st q closing st q []
  | wait : q.waiting → unsized cfg q h now = false → Turn now h st q false st q []
  | timeout : q.waiting → unsized cfg q h now = false →
      Turn now h st q false { st with cancelledTimeout := st.cancelledTimeout + 1 }
        { q with active := false } []
  | chase : q.waiting → unsized cfg q h now = false →
      Turn now h st q false { st with cancelledChase := st.cancelledChase + 1 }
        { q with active := false } []
  | small : unsized cfg q h now → Turn now h st q false st { q with active := false } []
  | fill : q.waiting → unsized cfg q h now = false → q.eligibleNs ≤ now → priced (F := F) h →
      chased cfg q h = false → Dbl.lt (sharesAt cfg h) (ofRat 1) = false →
      Turn now h st q false { st with opened := st.opened + 1 }
        { q with filled := true, t := filledTrade cfg q.t h now } [filledTrade cfg q.t h now]
  | hold {t : PaperTrade F} : q.held → t = q.t ∨ t = marked q.t h →
      Turn now h st q false st { q with t := t } []
  | exit {t : PaperTrade F} (reason : Bytes) : q.held → h.halted = false →
      Dbl.le (mark h : F) (ofRat 0) = false →
      t = finishTrade cfg (marked q.t h) now reason (exitPx cfg (mark h)) h.quoteValid →
      Turn now h st q false (st.close t.pnlUsd) { q with active := false, t := t } [t]
  | drop : q.waiting → Turn now h st q true st { q with active := false } []
  | close {t : PaperTrade F} (reason : Bytes) : q.held →
      t = finishTrade cfg q.t now reason (exitPx cfg (mark h)) h.quoteValid →
      Turn now h st q true (st.close t.pnlUsd) { q with active := false, t := t } [t]

theorem tryFill_turn (st : Stats F) {q : Pos F} (h : MarketHot) {now : UInt64} (hq : q.waiting)
    (hnow : q.eligibleNs ≤ now) :
    let r := tryFill cfg st q h now
    Turn cfg now h st q false r.1 r.2.1 (if r.2.2 then [r.2.1.t] else []) := by
  have hun : unsized cfg q h now =
      (priced (F := F) h && !chased cfg q h && Dbl.lt (sharesAt cfg h) (ofRat 1)) := by
    rw [unsized, hq, decide_eq_true hnow, Bool.true_and, Bool.true_and]
  intro r
  by_cases hp : priced (F := F) h = true
  · have hr : ¬ (h.halted = true ∨ Dbl.le (cost h : F) (ofRat 0) = true) := by
      simpa [priced] using hp
    by_cases hc : chased cfg q h = true
    · have hcase : r = ({ st with cancelledChase := st.cancelledChase + 1 },
          { q with active := false }, false) := by
        have hc' := Bool.and_eq_true_iff.mp hc
        exact (if_neg hr).trans (if_pos hc')
      rw [hcase]
      exact .chase hq (by simp [hun, hc])
    · have hc' : ¬ (Dbl.lt (ofRat 0) q.t.signalPx = true ∧
          Dbl.lt (q.t.signalPx * (ofRat 1 + cfg.maxChasePct / ofRat 100)) (cost h) = true) :=
        fun hand => hc (Bool.and_eq_true_iff.mpr hand)
      by_cases hs : Dbl.lt (sharesAt cfg h) (ofRat 1) = true
      · have hcase : r = (st, { q with active := false }, false) :=
          (if_neg hr).trans ((if_neg hc').trans (if_pos hs))
        rw [hcase]
        exact .small (by simp [hun, hp, hc, hs])
      · have hcase : r = ({ st with opened := st.opened + 1 },
            { q with filled := true, t := filledTrade cfg q.t h now }, true) :=
          (if_neg hr).trans ((if_neg hc').trans (if_neg hs))
        rw [hcase]
        exact .fill hq (by simp [hun, hs]) hnow hp (by simpa using hc) (by simpa using hs)
  · have hr : h.halted = true ∨ Dbl.le (cost h : F) (ofRat 0) = true := by
      simp only [priced, Bool.and_eq_true, Bool.not_eq_true', not_and, Bool.not_eq_false] at hp
      cases hh : h.halted with
      | true => exact .inl rfl
      | false => exact .inr (hp hh)
    have hun' : unsized cfg q h now = false := by simp [hun, hp]
    by_cases ht : toU64 cfg.entryTimeoutS.toInt * kNsPerSec < now - q.eligibleNs
    · have hcase : r = ({ st with cancelledTimeout := st.cancelledTimeout + 1 },
          { q with active := false }, false) := (if_pos hr).trans (if_pos ht)
      rw [hcase]
      exact .timeout hq hun'
    · have hcase : r = (st, q, false) := (if_pos hr).trans (if_neg ht)
      rw [hcase]
      exact .wait hq hun'

/-- A position is looked at only when the stock trades and has a mark. -/
theorem checkExit_cases (q : Pos F) (h : MarketHot) (now : UInt64) :
    checkExit cfg q h now = (q, none) ∨
      h.halted = false ∧ Dbl.le (mark h : F) (ofRat 0) = false ∧ ∃ r : Option Bytes,
        checkExit cfg q h now = ({ q with t := marked q.t h },
          r.map fun reason => (reason, exitPx cfg (mark h), h.quoteValid)) := by
  cases hh : h.halted with
  | true => exact .inl (if_pos hh)
  | false =>
    have hh' : ¬ h.halted = true := by rw [hh]; decide
    cases hm : Dbl.le (mark h : F) (ofRat 0) with
    | true => exact .inl ((if_neg hh').trans (if_pos hm))
    | false =>
      have hm' : ¬ Dbl.le (mark h : F) (ofRat 0) = true := by rw [hm]; decide
      exact .inr ⟨rfl, rfl, _, (if_neg hh').trans (if_neg hm')⟩

theorem checkExit_turn {st : Stats F} {q : Pos F} {h : MarketHot} {now : UInt64} (hq : q.held) :
    Turn cfg now h st q false (stepPos cfg st q h now).1 (stepPos cfg st q h now).2.1
      (stepPos cfg st q h now).2.2 := by
  obtain ⟨ha, hf⟩ := Bool.and_eq_true_iff.mp hq
  rw [stepPos, ha, hf]
  rcases checkExit_cases cfg q h now with hc | ⟨hh, hm, r, hc⟩
  · rw [hc]
    exact .hold hq (.inl rfl)
  · rw [hc]
    cases r with
    | none => exact .hold hq (.inr rfl)
    | some reason => exact .exit reason hq hh hm rfl

/-- The turn of a slot in `step`. -/
theorem stepPos_turn (st : Stats F) (q : Pos F) (h : MarketHot) (now : UInt64) :
    Turn cfg now h st q false (stepPos cfg st q h now).1 (stepPos cfg st q h now).2.1
      (stepPos cfg st q h now).2.2 := by
  cases ha : q.active with
  | false =>
    rw [stepPos, ha]
    exact .free ha
  | true =>
    cases hf : q.filled with
    | true => exact checkExit_turn cfg (by rw [Pos.held, ha, hf]; rfl)
    | false =>
      have hq : q.waiting := by rw [Pos.waiting, ha, hf]; rfl
      by_cases he : now < q.eligibleNs
      · have hstep : stepPos cfg st q h now = (st, q, []) := by
          rw [stepPos, ha, hf]
          exact if_pos he
        rw [hstep]
        refine .wait hq ?_
        have hne : decide (q.eligibleNs ≤ now) = false :=
          decide_eq_false fun hle => absurd he (UInt64.not_lt.mpr hle)
        simp [unsized, hne]
      · have hturn := tryFill_turn cfg st h hq (UInt64.not_lt.mp he)
        have hstep : stepPos cfg st q h now = ((tryFill cfg st q h now).1, (tryFill cfg st q h now).2.1,
            if (tryFill cfg st q h now).2.2 then [(tryFill cfg st q h now).2.1.t] else []) := by
          rw [stepPos, ha, hf]
          refine (if_neg he).trans ?_
          rcases tryFill cfg st q h now with ⟨st', q', b⟩
          cases b <;> rfl
        rw [hstep]
        exact hturn

/-- The turn of a slot in `close_all`. -/
theorem closePos_turn (reason : Bytes) (st : Stats F) (q : Pos F) (h : MarketHot) (now : UInt64) :
    Turn cfg now h st q true (closePos cfg reason st q h now).1 (closePos cfg reason st q h now).2.1
      (closePos cfg reason st q h now).2.2 := by
  cases ha : q.active with
  | false =>
    rw [closePos, ha]
    exact .free ha
  | true =>
    cases hf : q.filled with
    | true =>
      rw [closePos, ha, hf]
      exact .close reason (by rw [Pos.held, ha, hf]; rfl) rfl
    | false =>
      have hq : q.waiting := by rw [Pos.waiting, ha, hf]; rfl
      rw [closePos, if_neg (by simp [ha]), if_neg (by simp [hf])]
      exact .drop hq

/-- A fact about the statistics, the positions and the trades reported that every turn keeps is
kept by a loop. Positions in `done` have had their turn. -/
theorem walk_turns {f : Stats F → Pos F → MarketHot → Stats F × Pos F × List (PaperTrade F)}
    {hot : Nat → UInt32 → MarketHot} {I : Stats F → List (Pos F) → List (PaperTrade F) → Prop}
    (hf : ∀ st done q rest ts, I st (done ++ q :: rest) ts →
      let r := f st q (hot done.length q.t.sym)
      I r.1 (done ++ r.2.1 :: rest) (ts ++ r.2.2))
    (done ps : List (Pos F)) (st : Stats F) (ts : List (PaperTrade F)) (h : I st (done ++ ps) ts) :
    let r := walk f hot done.length st ps
    I r.1 (done ++ r.2.1) (ts ++ r.2.2) := by
  induction ps generalizing done st ts with
  | nil =>
    show I st (done ++ []) (ts ++ [])
    rwa [List.append_nil ts]
  | cons q ps ih =>
    have h' := hf st done q ps ts h
    have hrest := ih (done ++ [(f st q (hot done.length q.t.sym)).2.1]) _ _ (by
      rw [List.append_assoc]
      exact h')
    simp only [List.length_append, List.append_assoc] at hrest
    exact hrest

theorem mem_walk {f : Stats F → Pos F → MarketHot → Stats F × Pos F × List (PaperTrade F)}
    {hot : Nat → UInt32 → MarketHot} {t : PaperTrade F} {i : Nat} {st : Stats F} {ps : List (Pos F)}
    (h : t ∈ (walk f hot i st ps).2.2) :
    ∃ x ∈ ps.zipIdx i, ∃ st', t ∈ (f st' x.1 (hot x.2 x.1.t.sym)).2.2 := by
  induction ps generalizing i st with
  | nil => exact absurd h List.not_mem_nil
  | cons q ps ih =>
    rw [List.zipIdx_cons]
    rcases List.mem_append.mp h with h | h
    · exact ⟨(q, i), List.mem_cons_self, st, h⟩
    · obtain ⟨x, hx, hst⟩ := ih h
      exact ⟨x, List.mem_cons_of_mem _ hx, hst⟩

/-! ## Signals -/

/-- The rollover of the day changes nothing else. -/
theorem rollDay_cases (p : PaperTrader F) (now : UInt64) :
    ∃ (day : Int) (checked : UInt64) (d : F), (d = p.st.dayRealized ∨ d = ofRat 0) ∧
      p.rollDay now =
        { p with day := day, dayCheckedAt := checked, st := { p.st with dayRealized := d } } := by
  unfold rollDay
  split
  · exact ⟨p.day, p.dayCheckedAt, p.st.dayRealized, .inl rfl, rfl⟩
  · dsimp only
    split
    · exact ⟨_, _, _, .inr rfl, rfl⟩
    · exact ⟨_, _, _, .inl rfl, rfl⟩

/-- What a signal does to the statistics and the positions after the rollover. -/
inductive Taken (s : Signal F) (now : UInt64) (st : Stats F) :
    List (Pos F) → Stats F → List (Pos F) → Prop where
  | dup {ps : List (Pos F)} : Taken s now st ps
      { st with signals := st.signals + 1, rejectedDup := st.rejectedDup + 1 } ps
  | risk {ps : List (Pos F)} : Taken s now st ps
      { st with signals := st.signals + 1, rejectedRisk := st.rejectedRisk + 1 } ps
  | full {ps : List (Pos F)} : Taken s now st ps
      { st with signals := st.signals + 1, rejectedCapacity := st.rejectedCapacity + 1 } ps
  | accept {before after : List (Pos F)} {q : Pos F} : q.active = false →
      (∀ x ∈ before ++ q :: after, x.active → x.t.sym ≠ s.sym) →
      Taken s now st (before ++ q :: after) { st with signals := st.signals + 1 }
        (before ++ order cfg s now :: after)

theorem onSignal_cases (p : PaperTrader F) (s : Signal F) (now : UInt64) :
    p.onSignal cfg s now = p ∨
      Taken cfg s now (p.rollDay now).st p.pos (p.onSignal cfg s now).st
        (p.onSignal cfg s now).pos := by
  obtain ⟨day, checked, d, -, hroll⟩ := p.rollDay_cases now
  unfold onSignal
  split
  · exact .inl rfl
  · refine .inr ?_
    rw [hroll]
    dsimp only
    split
    · exact .dup
    · rename_i hdup
      split
      · exact .risk
      · split
        · exact .full
        · rename_i i hi
          obtain ⟨hlt, hfree, -⟩ := List.findIdx?_eq_some_iff_getElem.mp hi
          have hsplit : p.pos = p.pos.take i ++ p.pos[i] :: p.pos.drop (i + 1) := by
            rw [List.getElem_cons_drop, List.take_append_drop]
          have hset : p.pos.set i (order cfg s now) =
              p.pos.take i ++ order cfg s now :: p.pos.drop (i + 1) :=
            List.set_eq_take_append_cons_drop.trans (if_pos hlt)
          rw [hset]
          nth_rewrite 1 [hsplit]
          refine .accept (by simpa using hfree) ?_
          rw [← hsplit]
          intro x hx ha hs
          exact hdup (List.any_eq_true.mpr ⟨x, hx, by simp [ha, hs]⟩)

/-! ## Samples -/

/-- An `ALERT` at an ask, with nothing else to say. -/
def alertAt (sym : UInt32) (ask : ℚ) : Signal ℚ :=
  { tier := .alert, catalyst := .none, source := 0, sym := sym, scoreFlags := 0, dilutionFlags := 0,
    score := 0, newsId := 0, tNewsRecvNs := 0, tSignalNs := 0, publishedNs := 0, price := ask,
    refPrice := 0, movePct := 0, rvol := 0, dollarVolume := 0, vwap := 0, bid := 0, ask := ask,
    spreadPct := 0, marketCap := 0, sharesOut := 0, amountUsd := 0, materiality := 0,
    ticker := .empty pos_16, exchange := .empty pos_16, haltReason := .empty pos_8,
    why := .empty pos_192, title := .empty pos_256, link := .empty pos_320 }

/-- A quote for each of two symbols. -/
def quotes (bid₀ ask₀ bid₁ ask₁ : Int) : Nat → UInt32 → MarketHot := fun _ sym =>
  if sym = 0 then { bidPx := bid₀, askPx := ask₀ } else { bidPx := bid₁, askPx := ask₁ }

end PaperTrader

end Stok
