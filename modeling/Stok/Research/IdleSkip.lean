import Stok.Engine.DateChecks
import Stok.Research.NoLookAhead

/-!
# The idle skip of the backtest

An idle engine is not evaluated: `advance` moves the grid past the points it skips. A day is replayed
with the skip and without (`InStep`): on one Eastern date both write the same, raise the same alerts,
learn the same filings and make the same calls but for evaluations.
-/

namespace Stok

open Dbl (ofRat)

namespace Engine

variable {F : Type} [Dbl F] {env : Env F} {d : Int} {t now : UInt64} {hot : Hot} {e e' : Engine F}

/-! ## An idle engine -/

theorem Like.idle (h : Like d t e e') : e'.idle = e.idle := by
  obtain ⟨p, ws, rfl, hrel⟩ := h
  unfold Engine.idle
  rw [show (e.swap p ws).active = e.active from rfl, show (e.swap p ws).paper = p from rfl]
  cases hp : e.paper with
  | none =>
    rw [hp] at hrel
    cases hrel
    rfl
  | some q =>
    rw [hp] at hrel
    cases hrel with
    | some hb =>
      show (_ && (List.length _ == 0)) = (_ && (List.length _ == 0))
      rw [hb.pos]

theorem idle_iff : e.idle = true ↔ e.active = [] ∧ ∀ p ∈ e.paper, p.openPositions = 0 := by
  unfold Engine.idle
  cases e.paper <;> simp

theorem paperStep_idle (h : ∀ p ∈ e.paper, p.openPositions = 0) :
    paperStep env e now hot = e.swap (e.paper.map (·.rollDay now)) e.trace.walks := by
  unfold paperStep
  cases hp : e.paper with
  | none =>
    show e = e.swap none e.trace.walks
    rw [← hp]
    rfl
  | some p =>
    dsimp only
    rw [PaperTrader.step_idle (h p hp)]
    show { e with journal := e.journal ++ [], paper := some (p.rollDay now) } = _
    rw [List.append_nil]
    rfl

/-- The evaluation of an idle engine has the trader look at the date. -/
theorem evaluate_idle (h : e.idle = true) :
    ∃ ws, evaluate env e now hot = e.swap (e.paper.map (·.rollDay now)) ws := by
  obtain ⟨hactive, hpaper⟩ := idle_iff.mp h
  unfold evaluate evalLoop
  rw [hactive]
  exact ⟨_, paperStep_idle (e := e.swap e.paper _) hpaper⟩

theorem Like.evaluate_idle (h : Like d t e e') (hle : t ≤ now) (hday : easternDay now = d)
    (hidle : e.idle = true) : Like d now e (Engine.evaluate env e' now hot) := by
  obtain ⟨ws', heval⟩ := @Engine.evaluate_idle F _ env now hot e' (h.idle.trans hidle)
  obtain ⟨p, ws, rfl, hrel⟩ := h
  refine ⟨p.map fun q => PaperTrader.rollDay q now, ws', heval, ?_⟩
  cases hp : e.paper with
  | none =>
    rw [hp] at hrel
    cases hrel
    exact .none
  | some q =>
    rw [hp] at hrel
    cases hrel with
    | some hb => exact .some (hb.rollDay_right hle hday)

theorem scanSym_idle (e : Engine F) (sym : UInt32) : (scanSym env now hot e sym).idle = e.idle := by
  unfold scanSym
  split
  · rfl
  · split
    · rfl
    · dsimp only
      split
      · rfl
      · unfold Engine.idle emit
        dsimp only
        rw [if_neg (show ¬(Tier.mover = .alert ∨ Tier.mover = .high) by decide)]

/-- A scan opens no position. -/
theorem scanMovers_idle (e : Engine F) : (scanMovers env e now hot).idle = e.idle := by
  have hgo : ∀ (syms : List UInt32) (e : Engine F), (syms.foldl (scanSym env now hot) e).idle = e.idle := by
    intro syms
    induction syms with
    | nil => exact fun _ => rfl
    | cons sym syms ih => exact fun e => (ih _).trans (scanSym_idle e sym)
  unfold scanMovers
  split
  · rfl
  · split
    · rfl
    · refine (hgo _ _).trans ?_
      unfold todayDays
      split <;> rfl

end Engine

namespace Backtest

/-- What a log holds besides evaluations. -/
def others {F M : Type} (log : List (Entry F M)) : List (Entry F M) :=
  log.filter fun
    | .call (.evaluate ..) => false
    | _ => true

@[simp] theorem others_append {F M : Type} (log log' : List (Entry F M)) :
    others (log ++ log') = others log ++ others log' := List.filter_append ..

@[simp] theorem others_evaluate {F M : Type} (now : UInt64) (hot : Engine.Hot) :
    others [(.call (.evaluate now hot) : Entry F M)] = [] := rfl

variable {F M S : Type} [Dbl F] {s : Setup F} {d : Int} {lo t : UInt64} {n : Nat} {r r' : DayRun F M}
  {hot : Engine.Hot}

/-- The run `r` has skipped `n` points of the grid that `r'` is still to evaluate at. -/
structure InStep (s : Setup F) (d : Int) (lo : UInt64) (n : Nat) (r r' : DayRun F M) : Prop where
  engine : Engine.Like d lo r.engine r'.engine
  written : r'.written = r.written
  res : r'.res = r.res
  ni : r'.ni = r.ni
  started : r'.started = r.started
  nextEval : r.nextEval.toNat = r'.nextEval.toNat + n * s.o.evalIntervalNs.toNat
  nextScan : r'.nextScan = r.nextScan
  nextDue : r'.nextDue = r.nextDue
  others : others r'.log = others r.log

namespace InStep

theorem nn (h : InStep s d lo n r r') : r'.nn s = r.nn s := DayRun.nn_congr h.ni

theorem nextEval_eq (h : InStep s d lo 0 r r') : r'.nextEval = r.nextEval := by
  have := h.nextEval
  rw [← UInt64.toNat_inj]
  omega

theorem next (h : InStep s d lo 0 r r') : r'.next s = r.next s := by
  unfold DayRun.next
  rw [h.nn, h.nextEval_eq, h.nextScan]

theorem mono (h : InStep s d lo n r r') (hle : lo ≤ t) : InStep s d t n r r' :=
  { h with engine := h.engine.mono hle }

theorem drain (h : InStep s d lo n r r') : InStep s d lo n r.drain r'.drain where
  engine := h.engine
  written := by
    show r'.written ++ r'.engine.journal.drop r'.written.length = _
    rw [h.engine.journal, h.written]
    rfl
  res := by
    show (r'.engine.journal.drop r'.written.length).foldl DayRun.countRecord r'.res = _
    rw [h.engine.journal, h.written, h.res]
    rfl
  ni := h.ni
  started := h.started
  nextEval := h.nextEval
  nextScan := h.nextScan
  nextDue := h.nextDue
  others := h.others

/-- Both make the call. -/
theorem make (h : InStep s d lo n r r') {c : Engine.Call F} (hle : lo ≤ c.now) (hday : easternDay c.now = d)
    (hc : ∀ now hot, c ≠ .shutdown now hot) : InStep s d c.now n (r.make s c) (r'.make s c) :=
  { h with
    engine := h.engine.call hle hday hc
    others := by
      show Backtest.others (r'.log ++ _) = Backtest.others (r.log ++ _)
      rw [others_append, others_append, h.others] }

theorem scanAt (h : InStep s d lo n r r') (x : UInt64) :
    InStep s d lo n { r with nextScan := x } { r' with nextScan := x } :=
  { h with nextScan := rfl }

theorem skipIdle (h : InStep s d lo n r r') (hn : n ≠ 0 → r.engine.idle = true ∧ r.nextEval ≤ min (r.nn s) t) :
    ∃ k, InStep s d lo k (r.skipIdle s t) r' ∧ (k ≠ 0 → (r.skipIdle s t).engine.idle = true ∧
      (r.skipIdle s t).nextEval ≤ min ((r.skipIdle s t).nn s) t) := by
  by_cases hskip : r.engine.idle ∧ r.nextEval < min (r.nn s) t
  · have hsame := DayRun.skipIdle_sameButGrid (s := s) (r := r) (t := t)
    have heval := DayRun.skipIdle_nextEval hskip
    have hle := Nat.div_mul_le_self ((min (r.nn s) t).toNat - r.nextEval.toNat) s.o.evalIntervalNs.toNat
    have hlt := UInt64.lt_iff_toNat_lt.mp hskip.2
    refine ⟨n + ((min (r.nn s) t).toNat - r.nextEval.toNat) / s.o.evalIntervalNs.toNat,
      ⟨?_, ?_, ?_, ?_, ?_, ?_, ?_, ?_, ?_⟩, fun _ => ⟨?_, ?_⟩⟩
    · rw [hsame.engine]
      exact h.engine
    · rw [hsame.written, h.written]
    · rw [hsame.res, h.res]
    · rw [hsame.ni, h.ni]
    · rw [DayRun.skipIdle_started, h.started]
    · rw [heval, h.nextEval, Nat.add_mul, Nat.add_assoc]
    · rw [DayRun.skipIdle_nextScan, h.nextScan]
    · rw [hsame.nextDue, h.nextDue]
    · rw [hsame.log, h.others]
    · rw [hsame.engine]
      exact hskip.1
    · rw [DayRun.nn_congr hsame.ni, UInt64.le_iff_toNat_le, heval]
      omega
  · have heq : r.skipIdle s t = r := by
      unfold DayRun.skipIdle
      exact if_neg hskip
    rw [heq]
    exact ⟨n, h, hn⟩

end InStep

/-! ## Rounds -/

/-- Two runs in the loop of `advance` to the time `t`, both ready for the next call. -/
structure Advancing (s : Setup F) (d : Int) (t₀ t : UInt64) (n : Nat) (lo : UInt64) (r r' : DayRun F M) :
    Prop where
  inStep : InStep s d lo n r r'
  started : r.started = true
  drained : r.engine.journal.length ≤ r.written.length
  skipped : n ≠ 0 → r.engine.idle = true ∧ r.nextEval ≤ min (r.nn s) t
  since : t₀ ≤ lo
  until_ : lo ≤ t
  ahead : lo ≤ r'.next s

/-- A call leaves a journal that has been drained. -/
theorem drained_drain (r : DayRun F M) : r.drain.engine.journal.length ≤ r.drain.written.length := by
  show r.engine.journal.length ≤ (r.written ++ r.engine.journal.drop r.written.length).length
  rw [List.length_append, List.length_drop]
  omega

/-- Nothing new is written of an evaluation that writes nothing. -/
theorem drain_of_drained (h : r.engine.journal.length ≤ r.written.length) :
    r.drain.written = r.written ∧ r.drain.res = r.res := by
  have hdrop : r.engine.journal.drop r.written.length = [] := List.drop_eq_nil_of_le h
  constructor
  · show r.written ++ r.engine.journal.drop r.written.length = _
    rw [hdrop, List.append_nil]
  · show (r.engine.journal.drop r.written.length).foldl DayRun.countRecord r.res = _
    rw [hdrop]
    rfl

namespace Advancing

variable {t₀ : UInt64} {c : Engine.Call F}

/-- Points are skipped only before the next story and the time. -/
theorem nextEval_lt (h : Advancing s d t₀ t n lo r r') (hI : 0 < s.o.evalIntervalNs) (hn : n ≠ 0) :
    r'.nextEval < min (r.nn s) t := by
  have hle := UInt64.le_iff_toNat_le.mp (h.skipped hn).2
  have heval := h.inStep.nextEval
  have hI' := UInt64.lt_iff_toNat_lt.mp hI
  have hpos : 0 < n * s.o.evalIntervalNs.toNat := Nat.mul_pos (Nat.pos_of_ne_zero hn) hI'
  rw [UInt64.lt_iff_toNat_lt]
  omega

theorem ready (h : Advancing s d t₀ t n lo r r') :
    ∃ k, Advancing s d t₀ t k lo (r.ready s true t) (r'.ready s false t) := by
  have hst' : r'.started = true := h.inStep.started.trans h.started
  have hr : r.ready s true t = r.skipIdle s t := by
    unfold DayRun.ready
    rw [if_pos rfl, DayRun.start_of_started h.started]
  have hr' : r'.ready s false t = r' := by
    unfold DayRun.ready
    rw [if_neg Bool.false_ne_true, DayRun.start_of_started hst']
  obtain ⟨k, hk, hskipped⟩ := h.inStep.skipIdle h.skipped
  rw [hr, hr']
  have hsame := DayRun.skipIdle_sameButGrid (s := s) (r := r) (t := t)
  refine ⟨k, hk, ?_, ?_, hskipped, h.since, h.until_, h.ahead⟩
  · rw [DayRun.skipIdle_started, h.started]
  · rw [hsame.engine, hsame.written]
    exact h.drained

theorem due_scan {x : UInt64} (hmovers : s.o.movers = true) (hnext : r.next s = r.nextScan)
    (hstory : r.next s ≠ r.nn s) (heval : r.next s ≠ r.nextEval) (hx : x = r.nextScan) :
    DayRun.Due s hot r (.scanMovers x hot)
      { r.make s (.scanMovers x hot) with nextScan := x + kNsPerSec }.drain := by
  subst hx
  exact .scan hmovers hnext hstory heval

/-- The call that is due where nothing is skipped is due in both, or it evaluates at a point that the
other run has skipped. -/
theorem due (h : Advancing s d t₀ t n lo r r') (hnews : DayRun.Sorted s.news)
    (hI : 0 < s.o.evalIntervalNs) (hwrap : DayRun.NoWrap s t)
    (hday : ∀ x, t₀ ≤ x → x ≤ t → easternDay x = d) (hle : r'.next s ≤ t) {r₁' : DayRun F M}
    (hd : DayRun.Due s hot r' c r₁') :
    (∃ k, Advancing s d t₀ t k c.now r r₁') ∨
      ∃ r₁, DayRun.Due s hot r c r₁ ∧ r.next s ≤ t ∧ Advancing s d t₀ t n c.now r₁ r₁' := by
  have hnow : c.now = r'.next s := hd.now
  have hsince : t₀ ≤ c.now := UInt64.le_trans h.since (hnow ▸ h.ahead)
  have huntil : c.now ≤ t := hnow ▸ hle
  have hahead : c.now ≤ r₁'.next s := hnow ▸ hd.next_le hnews hwrap hle
  have hlo : lo ≤ c.now := hnow ▸ h.ahead
  have hcday : easternDay c.now = d := hday _ hsince huntil
  cases hd with
  | story ev hev hnext =>
    have hzero : n = 0 := by
      by_contra hn
      have hlt := h.nextEval_lt hI hn
      have hrecv := DayRun.nn_of_get hev
      have hle' := DayRun.next_le_nextEval (s := s) (r := r')
      rw [h.inStep.nn] at hrecv
      rw [hnext, ← hrecv] at hle'
      simp only [UInt64.lt_iff_toNat_lt, UInt64.le_iff_toNat_le, toNat_min] at hlt hle'
      omega
    subst hzero
    have hnext' : r.next s = ev.recvNs := by rw [← h.inStep.next, hnext]
    have hmake := h.inStep.make (c := .news ev ev.recvNs hot) hlo hcday nofun
    refine .inr ⟨_, .story ev (by rw [← h.inStep.ni]; exact hev) hnext', by rw [hnext']; exact huntil,
      InStep.drain { hmake with
        ni := congrArg (· + 1) h.inStep.ni
        res := congrArg (fun q : DayResult F => { q with news := q.news + 1 }) h.inStep.res },
      h.started, drained_drain _, fun hn => absurd rfl hn, hsince, huntil, hahead⟩
  | evaluate hnext hstory =>
    by_cases hn : n = 0
    · subst hn
      have hmake := h.inStep.make (c := .evaluate r'.nextEval hot) hlo hcday nofun
      have hnext' : r.next s = r.nextEval := by rw [← h.inStep.next, hnext, h.inStep.nextEval_eq]
      have hstory' : r.next s ≠ r.nn s := by rwa [← h.inStep.next, ← h.inStep.nn]
      have hdue := @DayRun.Due.evaluate F M _ s hot r hnext' hstory'
      rw [← h.inStep.nextEval_eq] at hdue
      have hgrid : (r'.nextEval + s.o.evalIntervalNs).toNat =
          (r'.nextEval + s.o.evalIntervalNs).toNat + 0 * s.o.evalIntervalNs.toNat := by omega
      exact .inr ⟨_, hdue, by rw [← h.inStep.next]; exact hle,
        InStep.drain { hmake with nextEval := hgrid },
        h.started, drained_drain _, fun hn => absurd rfl hn, hsince, huntil, hahead⟩
    · left
      obtain ⟨hidle, hbound⟩ := h.skipped hn
      obtain ⟨k, rfl⟩ := Nat.exists_eq_succ_of_ne_zero hn
      have hlike : Engine.Like d r'.nextEval r.engine (Engine.evaluate s.env r'.engine r'.nextEval hot) :=
        h.inStep.engine.evaluate_idle hlo hcday hidle
      have hdrained : (Engine.evaluate s.env r'.engine r'.nextEval hot).journal.length ≤ r'.written.length := by
        rw [hlike.journal, h.inStep.written]
        exact h.drained
      obtain ⟨hwritten, hres⟩ := drain_of_drained (r := { r'.make s (.evaluate r'.nextEval hot) with
        nextEval := r'.nextEval + s.o.evalIntervalNs }) hdrained
      refine ⟨k, ⟨hlike, hwritten.trans h.inStep.written, hres.trans h.inStep.res, h.inStep.ni,
        h.inStep.started, ?_, h.inStep.nextScan, h.inStep.nextDue, ?_⟩, h.started, h.drained, fun _ =>
        ⟨hidle, hbound⟩, hsince, huntil, hahead⟩
      · show r.nextEval.toNat = (r'.nextEval + s.o.evalIntervalNs).toNat + k * s.o.evalIntervalNs.toNat
        rw [DayRun.toNat_add_le (hnext ▸ hle) hwrap (Nat.le_max_left _ _), h.inStep.nextEval, Nat.succ_mul]
        omega
      · show Backtest.others (r'.log ++ _) = _
        rw [others_append, others_evaluate, List.append_nil, h.inStep.others]
  | scan hmovers hnext hstory heval =>
    have hscan : r.next s = r.nextScan ∧ r.next s ≠ r.nn s ∧ r.next s ≠ r.nextEval := by
      have hr := DayRun.next_toNat (s := s) (r := r)
      have hr' := DayRun.next_toNat (s := s) (r := r')
      have hgrid := h.inStep.nextEval
      rw [if_pos hmovers] at hr hr'
      rw [h.inStep.nn] at hstory hr'
      rw [h.inStep.nextScan] at hnext hr'
      simp only [ne_eq, ← UInt64.toNat_inj] at *
      omega
    obtain ⟨hnext', hstory', heval'⟩ := hscan
    have hmake := h.inStep.make (c := .scanMovers r'.nextScan hot) hlo hcday nofun
    have hdue := @due_scan F M _ s r hot _ hmovers hnext' hstory' heval' h.inStep.nextScan
    have hboth := hmake.scanAt (r'.nextScan + kNsPerSec)
    refine .inr ⟨_, hdue, ?_, hboth.drain, h.started, drained_drain _,
      fun hn => ⟨?_, (h.skipped hn).2⟩, hsince, huntil, hahead⟩
    · rw [hnext', ← h.inStep.nextScan]
      exact huntil
    · exact (Engine.scanMovers_idle r.engine).trans (h.skipped hn).1

end Advancing

theorem due_callNext {c : Engine.Call F} (h : DayRun.Due s hot r c r') : r.callNext s hot = some r' := by
  unfold DayRun.callNext
  cases h with
  | story ev hev hnext =>
    have hrecv := DayRun.nn_of_get hev
    rw [hev, if_pos (hnext.trans hrecv.symm), hrecv]
    rfl
  | evaluate hnext hstory => rw [if_neg hstory, if_pos hnext]
  | scan hmovers hnext hstory heval => rw [if_neg hstory, if_neg heval]

theorem round_eq (skip : Bool) (r : DayRun F M) : r.round s skip hot t =
    if t < (r.ready s skip t).next s then
      some ({ r.ready s skip t with nextDue := (r.ready s skip t).next s }, false)
    else ((r.ready s skip t).callNext s hot).map fun r => (r, true) := rfl

/-- Two runs between messages, that have made the calls before `lo`. -/
structure Matched (s : Setup F) (d : Int) (t₀ lo : UInt64) (r r' : DayRun F M) : Prop where
  inStep : InStep s d lo 0 r r'
  drained : r.engine.journal.length ≤ r.written.length
  since : t₀ ≤ lo
  fresh : r.started = false → lo ≤ r.nn s ∧ r.nextDue = 0
  ahead : r.started = true → lo ≤ r.next s ∧ r.nextDue ≤ r.next s

namespace Matched

variable {t₀ : UInt64} {fuel : Nat}

theorem start (h : Matched s d t₀ lo r r') (hle : lo ≤ t) :
    Advancing s d t₀ t 0 lo (r.start s t) (r'.start s t) := by
  cases hst : r.started with
  | true =>
    rw [DayRun.start_of_started hst, DayRun.start_of_started (h.inStep.started.trans hst)]
    exact ⟨h.inStep, hst, h.drained, fun hn => absurd rfl hn, h.since, hle, by
      rw [h.inStep.next]
      exact (h.ahead hst).1⟩
  | false =>
    have hmin : min (r'.nn s) t = min (r.nn s) t := by rw [h.inStep.nn]
    have hr : r.start s t =
        { r with nextEval := min (r.nn s) t, nextScan := min (r.nn s) t, started := true } := by
      unfold DayRun.start
      rw [if_neg (by rw [hst]; exact Bool.false_ne_true)]
    have hr' : r'.start s t =
        { r' with nextEval := min (r.nn s) t, nextScan := min (r.nn s) t, started := true } := by
      unfold DayRun.start
      rw [if_neg (by rw [h.inStep.started, hst]; exact Bool.false_ne_true), hmin]
    have hlo : lo ≤ min (r.nn s) t := by
      have := (h.fresh hst).1
      simp only [UInt64.le_iff_toNat_le, toNat_min] at *
      omega
    rw [hr, hr']
    refine ⟨{ h.inStep with nextEval := ?_, nextScan := rfl, started := rfl }, rfl, h.drained,
      fun hn => absurd rfl hn, h.since, hle, DayRun.le_next ?_ hlo fun _ => hlo⟩
    · show (min (r.nn s) t).toNat = (min (r.nn s) t).toNat + 0 * _
      rw [Nat.zero_mul, Nat.add_zero]
    · show lo ≤ r'.nn s
      rw [h.inStep.nn]
      exact (h.fresh hst).1

theorem ready (h : Matched s d t₀ lo r r') (hle : lo ≤ t) :
    ∃ k, Advancing s d t₀ t k lo (r.ready s true t) (r'.ready s false t) := by
  have hstart : ∀ (skip : Bool) (r : DayRun F M), (r.start s t).ready s skip t = r.ready s skip t := by
    intro skip r
    unfold DayRun.ready
    rw [DayRun.start_of_started DayRun.start_started]
  rw [← hstart true r, ← hstart false r']
  exact (h.start hle).ready

/-- Where one run comes to its end so does the other. -/
theorem advance (h : Matched s d t₀ lo r r') (hle : lo ≤ t) (hnews : DayRun.Sorted s.news)
    (hI : 0 < s.o.evalIntervalNs) (hwrap : DayRun.NoWrap s t)
    (hday : ∀ x, t₀ ≤ x → x ≤ t → easternDay x = d) {r₁' : DayRun F M}
    (hr : r'.advanceWith s false fuel hot t = some r₁') :
    ∃ r₁, r.advanceWith s true fuel hot t = some r₁ ∧ Matched s d t₀ t r₁ r₁' ∧ r₁.started = true ∧
      t < r₁.next s := by
  unfold DayRun.advanceWith at hr ⊢
  rw [h.inStep.nextDue] at hr
  split at hr
  · rename_i hlt
    cases hr
    rw [if_pos hlt]
    have hst : r.started = true := by
      by_contra hst
      rw [(h.fresh (Bool.not_eq_true _ ▸ hst)).2] at hlt
      exact UInt64.not_lt_zero hlt
    have hnext : t < r.next s := UInt64.lt_of_lt_of_le hlt (h.ahead hst).2
    exact ⟨r, rfl, ⟨h.inStep.mono hle, h.drained, UInt64.le_trans h.since hle,
      fun hf => absurd (hst.symm.trans hf) (by decide),
      fun _ => ⟨UInt64.le_of_lt hnext, (h.ahead hst).2⟩⟩, hst, hnext⟩
  · rename_i hge
    rw [if_neg hge]
    refine Lib.FuelLoop.simulates
      (R := fun r r' => ∃ n lo, Advancing s d t₀ t n lo (r.ready s true t) (r'.ready s false t))
      (Q := fun r₁ r₁' => Matched s d t₀ t r₁ r₁' ∧ r₁.started = true ∧ t < r₁.next s) ?_
      ⟨_, _, (h.ready hle).choose_spec⟩ hr
    rintro r r' r₁' go ⟨n, lo, h⟩ hround
    rcases DayRun.round_cases hround with ⟨rfl, hle', c, hd⟩ | ⟨rfl, hlt, rfl⟩
    · rcases h.due hnews hI hwrap hday hle' hd with ⟨k, hk⟩ | ⟨r₁, hd₁, hle₁, h₁⟩
      · have hst : r₁'.started = true := hk.inStep.started.trans hk.started
        refine .inl ⟨rfl, k, c.now, ?_⟩
        have hready : r₁'.ready s false t = r₁' := by
          unfold DayRun.ready
          rw [if_neg Bool.false_ne_true, DayRun.start_of_started hst]
        rwa [hready]
      · refine .inr ⟨r₁, ?_, ?_⟩
        · rw [round_eq, if_neg (UInt64.not_lt.mpr hle₁), due_callNext hd₁]
          rfl
        · rw [if_pos rfl]
          obtain ⟨k, hk⟩ := h₁.ready
          exact ⟨k, c.now, hk⟩
    · have hzero : n = 0 := by
        by_contra hn
        have hlt' := h.nextEval_lt hI hn
        have hle' := DayRun.next_le_nextEval (s := s) (r := r'.ready s false t)
        simp only [UInt64.lt_iff_toNat_lt, UInt64.le_iff_toNat_le, toNat_min] at hlt hlt' hle'
        omega
      subst hzero
      rw [h.inStep.next] at hlt ⊢
      refine .inr ⟨_, by rw [round_eq, if_pos hlt], ?_⟩
      rw [if_neg Bool.false_ne_true]
      exact ⟨⟨{ h.inStep.mono h.until_ with nextDue := rfl }, h.drained,
        UInt64.le_trans h.since h.until_, fun hf => absurd (h.started.symm.trans hf) (by decide),
        fun _ => ⟨UInt64.le_of_lt hlt, UInt64.le_refl _⟩⟩, h.started, hlt⟩

theorem marketEvents {k : Nat} (h : Matched s d t₀ t r r') (hst : r.started = true) (hlt : t < r.next s)
    (hday : easternDay t = d) (evs : List (MarketEvent k)) :
    Matched s d t₀ t (r.marketEvents s hot evs t) (r'.marketEvents s hot evs t) := by
  have hgo : ∀ (evs : List (MarketEvent k)) (r r' : DayRun F M), InStep s d t 0 r r' →
      let r₁ := evs.foldl (fun r ev => r.make s (.market ev t hot)) r
      InStep s d t 0 r₁ (evs.foldl (fun r ev => r.make s (.market ev t hot)) r') ∧
        r₁.started = r.started ∧ r₁.next s = r.next s ∧ r₁.nextDue = r.nextDue := by
    intro evs
    induction evs with
    | nil => exact fun r r' h => ⟨h, rfl, rfl, rfl⟩
    | cons ev evs ih =>
      intro r r' h
      have hmake : InStep s d t 0 (r.make s (.market ev t hot)) (r'.make s (.market ev t hot)) :=
        h.make (c := .market ev t hot) (UInt64.le_refl t) hday nofun
      exact ih _ _ hmake
  obtain ⟨hin, hst', hnext, hdue⟩ := hgo evs r r' h.inStep
  refine ⟨hin.drain, drained_drain _, h.since, fun hf => ?_, fun _ => ?_⟩
  · exact absurd (hf.symm.trans (hst'.trans hst)) (by decide)
  · have hnext' : (r.marketEvents s hot evs t).next s = r.next s := hnext
    have hdue' : (r.marketEvents s hot evs t).nextDue = r.nextDue := hdue
    rw [hnext', hdue']
    exact ⟨UInt64.le_of_lt hlt, (h.ahead hst).2⟩

theorem message (h : Matched s d t₀ lo r r') (m : M) :
    Matched s d t₀ lo { r with log := r.log ++ [.message m] } { r' with log := r'.log ++ [.message m] } :=
  { h with
    inStep := { h.inStep with
      others := by
        rw [others_append, others_append, h.inStep.others] } }

end Matched

/-! ## Days -/

section

variable {k : Nat} {feed : Feed M S k} {sim sim' sim₁' : Sim F M S} {t₀ : UInt64} {fuel : Nat} {ms : List M}

theorem Matched.onMessage (h : Matched s d t₀ lo sim.run sim'.run) (hmarket : sim'.market = sim.market)
    (hlast : sim'.last = sim.last) {m : M} (hnews : DayRun.Sorted s.news) (hI : 0 < s.o.evalIntervalNs)
    (htick : ∀ t ∈ feed.tick m, lo ≤ t ∧ DayRun.NoWrap s t ∧ ∀ x, t₀ ≤ x → x ≤ t → easternDay x = d)
    (hm : Backtest.onMessage s feed false fuel sim' m = some sim₁') :
    ∃ sim₁, Backtest.onMessage s feed true fuel sim m = some sim₁ ∧
      Matched s d t₀ ((feed.tick m).getD lo) sim₁.run sim₁'.run ∧ sim₁'.market = sim₁.market ∧
      sim₁'.last = sim₁.last := by
  unfold Backtest.onMessage at hm ⊢
  cases ht : feed.tick m with
  | none =>
    rw [ht] at hm
    cases hm
    rw [hmarket]
    exact ⟨_, rfl, h.message m, rfl, hlast⟩
  | some t =>
    obtain ⟨hle, hwrap, hday⟩ := htick t ht
    rw [ht] at hm
    obtain ⟨r', hr', rfl⟩ := Option.map_eq_some_iff.mp hm
    rw [hmarket] at hr' ⊢
    obtain ⟨r, hr, hmatched, hst, hlt⟩ := h.advance hle hnews hI hwrap hday hr'
    dsimp only
    rw [hr]
    refine ⟨_, rfl, ?_, rfl, rfl⟩
    have hmsg := hmatched.message m
    cases (feed.apply sim.market m).2 with
    | none => exact hmsg
    | some evs =>
      exact hmsg.marketEvents hst hlt (hday t (UInt64.le_trans h.since hle) (UInt64.le_refl t)) evs

theorem Matched.play (h : Matched s d t₀ lo sim.run sim'.run) (hmarket : sim'.market = sim.market)
    (hlast : sim'.last = sim.last) (hnews : DayRun.Sorted s.news) (hI : 0 < s.o.evalIntervalNs)
    (hsorted : (ticks feed ms).Pairwise (· ≤ ·)) (hwrap : DayRun.NoWrap s t)
    (hday : ∀ x, t₀ ≤ x → x ≤ t → easternDay x = d) (hle : lo ≤ t)
    (hin : ∀ x ∈ ticks feed ms, lo ≤ x ∧ x ≤ t)
    (hplay : Backtest.play s feed false fuel ms sim' = some sim₁') :
    ∃ sim₁ lo', Backtest.play s feed true fuel ms sim = some sim₁ ∧
      Matched s d t₀ lo' sim₁.run sim₁'.run ∧ lo' ≤ t ∧ sim₁'.market = sim₁.market ∧
      sim₁'.last = sim₁.last := by
  induction ms generalizing sim sim' lo with
  | nil =>
    cases hplay
    exact ⟨sim, lo, rfl, h, hle, hmarket, hlast⟩
  | cons m ms ih =>
    rw [Backtest.play, List.foldlM_cons] at hplay
    obtain ⟨sim₂', hm, hrest⟩ := Option.bind_eq_some_iff.mp hplay
    have hcons : ticks feed (m :: ms) = (feed.tick m).toList ++ ticks feed ms := by
      rw [ticks, List.filterMap_cons]
      cases feed.tick m <;> rfl
    rw [hcons] at hsorted hin
    obtain ⟨hone, hmany, hbefore⟩ := List.pairwise_append.mp hsorted
    have htick : ∀ x ∈ feed.tick m, lo ≤ x ∧ x ≤ t := fun x hx =>
      hin x (List.mem_append_left _ (Option.mem_toList.mpr hx))
    obtain ⟨sim₂, hm₂, h₂, hmarket₂, hlast₂⟩ := h.onMessage hmarket hlast hnews hI (fun x hx => by
      obtain ⟨hlo, hxt⟩ := htick x hx
      refine ⟨hlo, ?_, fun y hy hyx => hday y hy (UInt64.le_trans hyx hxt)⟩
      rw [UInt64.le_iff_toNat_le] at hxt
      unfold DayRun.NoWrap at hwrap ⊢
      omega) hm
    obtain ⟨sim₁, lo', hplay₁, h₁⟩ := ih h₂ hmarket₂ hlast₂ hmany (by
      cases hx : feed.tick m with
      | none => exact hle
      | some x => exact (htick x hx).2) (fun y hy => ⟨by
        cases hx : feed.tick m with
        | none => exact (hin y (List.mem_append_right _ hy)).1
        | some x => exact hbefore x (Option.mem_toList.mpr hx) y hy,
        (hin y (List.mem_append_right _ hy)).2⟩) hrest
    refine ⟨sim₁, lo', ?_, h₁⟩
    rw [Backtest.play, List.foldlM_cons, hm₂]
    exact hplay₁

/-- What a day leaves behind: the journal, the counts, the alerts and the filings, and the calls that
were made, but for evaluations. -/
structure SameDay (r r' : DayRun F M) : Prop where
  written : r'.written = r.written
  res : r'.res = r.res
  alerts : r'.engine.alerts = r.engine.alerts
  filings : r'.engine.filings = r.engine.filings
  others : Backtest.others r'.log = Backtest.others r.log

theorem Matched.finish (h : Matched s d t₀ lo r r') (hle : lo ≤ t) (hnews : DayRun.Sorted s.news)
    (hI : 0 < s.o.evalIntervalNs) (hwrap : DayRun.NoWrap s t)
    (hday : ∀ x, t₀ ≤ x → x ≤ t → easternDay x = d) {r₁' : DayRun F M}
    (hr : r'.finishWith s false fuel hot t = some r₁') :
    ∃ r₁, r.finishWith s true fuel hot t = some r₁ ∧ SameDay r₁ r₁' := by
  have hzero : Matched s d t₀ lo { r with nextDue := 0 } { r' with nextDue := 0 } :=
    { inStep := { h.inStep with nextDue := rfl }
      drained := h.drained
      since := h.since
      fresh := fun hf => ⟨(h.fresh hf).1, rfl⟩
      ahead := fun hst => ⟨(h.ahead hst).1, UInt64.zero_le⟩ }
  obtain ⟨r₂', hr₂', rfl⟩ := Option.map_eq_some_iff.mp hr
  obtain ⟨r₂, hr₂, hm, -⟩ := hzero.advance hle hnews hI hwrap hday hr₂'
  refine ⟨(r₂.make s (.shutdown t hot)).drain, ?_, ?_⟩
  · unfold DayRun.finishWith
    rw [hr₂]
    rfl
  · have hjournal : (Engine.shutdown s.env r₂'.engine t hot).journal =
        (Engine.shutdown s.env r₂.engine t hot).journal := hm.inStep.engine.shutdown t
    have hkept : ∀ e : Engine F, (Engine.shutdown s.env e t hot).alerts = e.alerts ∧
        (Engine.shutdown s.env e t hot).filings = e.filings := by
      intro e
      unfold Engine.shutdown
      cases e.paper <;> exact ⟨rfl, rfl⟩
    obtain ⟨p, ws, heng, -⟩ := hm.inStep.engine
    refine ⟨?_, ?_, ?_, ?_, ?_⟩
    · show r₂'.written ++ (Engine.shutdown s.env r₂'.engine t hot).journal.drop r₂'.written.length = _
      rw [hjournal, hm.inStep.written]
      rfl
    · show ((Engine.shutdown s.env r₂'.engine t hot).journal.drop r₂'.written.length).foldl
        DayRun.countRecord r₂'.res = _
      rw [hjournal, hm.inStep.written, hm.inStep.res]
      rfl
    · show (Engine.shutdown s.env r₂'.engine t hot).alerts = (Engine.shutdown s.env r₂.engine t hot).alerts
      rw [(hkept _).1, (hkept _).1, heng]
      rfl
    · show (Engine.shutdown s.env r₂'.engine t hot).filings =
        (Engine.shutdown s.env r₂.engine t hot).filings
      rw [(hkept _).2, (hkept _).2, heng]
      rfl
    · show Backtest.others (r₂'.log ++ _) = Backtest.others (r₂.log ++ _)
      rw [others_append, others_append, hm.inStep.others]

theorem matched_new {e : Engine F} (htrader : ∀ p ∈ e.paper, p.dayCheckedAt ≤ t₀)
    (hstories : ∀ ev ∈ s.news, t₀ ≤ ev.recvNs) : Matched s d t₀ t₀ (.new e : DayRun F M) (.new e) where
  inStep :=
    { engine := by
        have hrel : Option.Rel (PaperTrader.Behind d t₀) e.paper e.paper := by
          cases hp : e.paper with
          | none => exact .none
          | some p => exact .some (.same rfl (htrader p hp))
        exact ⟨e.paper, e.trace.walks, rfl, hrel⟩
      written := rfl
      res := rfl
      ni := rfl
      started := rfl
      nextEval := by
        rw [Nat.zero_mul, Nat.add_zero]
      nextScan := rfl
      nextDue := rfl
      others := rfl }
  drained := Nat.le_refl _
  since := UInt64.le_refl _
  fresh _ := by
    refine ⟨?_, rfl⟩
    show t₀ ≤ (s.news[0]?).elim 0xFFFFFFFFFFFFFFFF (·.recvNs)
    cases hev : s.news[0]? with
    | none => exact UInt64.le_iff_toNat_le.mpr (by have := t₀.toNat_lt; simpa using Nat.le_pred_of_lt this)
    | some ev => exact hstories ev (List.mem_of_getElem? hev)
  ahead := nofun

/-- A day on one Eastern date, in order and away from the end of the clock, leaves the same behind with the
idle skip as with an evaluation at every point of the grid. -/
theorem idle_skip (s : Setup F) (feed : Feed M S k) (e : Engine F) (m₀ : S) (t₀ first cutoff : UInt64)
    (ms : List M) (fuel : Nat) (hnews : DayRun.Sorted s.news) (hI : 0 < s.o.evalIntervalNs)
    (hticks : (ticks feed ms).Pairwise (· ≤ ·)) (hwrap : DayRun.NoWrap s (lastTime feed first cutoff ms))
    (hfuel : DayRun.plenty s < fuel) (htrader : ∀ p ∈ e.paper, p.dayCheckedAt ≤ t₀)
    (hstories : ∀ ev ∈ s.news, t₀ ≤ ev.recvNs) (hfirst : ∀ t ∈ ticks feed ms, t₀ ≤ t)
    (hlast : t₀ ≤ lastTime feed first cutoff ms) (hend : (lastTime feed first cutoff ms).toNat < 2 ^ 63)
    (hday : easternDay t₀ = easternDay (lastTime feed first cutoff ms)) :
    let sim : Sim F M S := { run := .new e, market := m₀, last := first }
    ∃ r r', replay s feed true fuel cutoff ms sim = some r ∧ replay s feed false fuel cutoff ms sim = some r' ∧
      SameDay r r' := by
  intro sim
  have hle : ∀ t ∈ ticks feed ms, t ≤ lastTime feed first cutoff ms := fun t ht => le_lastTime hticks ht
  have hdays : ∀ x, t₀ ≤ x → x ≤ lastTime feed first cutoff ms → easternDay x = easternDay t₀ := by
    intro x hx hxt
    have hxt' := UInt64.le_iff_toNat_le.mp hxt
    have h₁ := Engine.easternDay_mono hx (by omega)
    have h₂ := Engine.easternDay_mono hxt hend
    omega
  obtain ⟨sim₁', hplay'⟩ := play_returns hI hfuel (fun t ht => by
    have := UInt64.le_iff_toNat_le.mp (hle t ht)
    unfold DayRun.NoWrap at hwrap ⊢
    omega) sim
  obtain ⟨sim₁, lo, hplay, hm, hlo, hmarket, hlast'⟩ := (matched_new htrader hstories).play
    rfl rfl hnews hI hticks hwrap hdays hlast (fun x hx => ⟨hfirst x hx, hle x hx⟩) hplay'
  obtain ⟨-, hlast₁, -⟩ := (handed_preserved (s := s)).play (handed_new e) hplay
  have hT : max sim₁.last cutoff = lastTime feed first cutoff ms := by rw [hlast₁]; rfl
  obtain ⟨r₁', hr₁'⟩ := DayRun.advance_returns hI hwrap hfuel { sim₁'.run with nextDue := 0 }
  obtain ⟨r', hfin'⟩ : ∃ r', sim₁'.run.finishWith s false fuel (hotOf (feed.board sim₁.market))
      (lastTime feed first cutoff ms) = some r' := by
    unfold DayRun.finishWith
    rw [hr₁']
    exact ⟨_, rfl⟩
  obtain ⟨r₁, hfin, hsame⟩ := hm.finish hlo hnews hI hwrap hdays hfin'
  refine ⟨r₁, r', ?_, ?_, hsame⟩
  · rw [replay, hplay, Option.bind_some, hT, hfin]
  · rw [replay, hplay', Option.bind_some, hmarket, hlast', hT, hfin']

/-- A story that arrives between two messages, two seconds apart. -/
theorem idle_skip_story :
    let s := setup {} plainInputs true [{ Engine.acmeEvent with recvNs := 1700000001000000000 }]
    let ms : List Itch.Msg := [.systemEvent 0 (ch 'O'), .systemEvent 2000000000 (ch 'Q')]
    let feed : Feed Itch.Msg (ItchBook 1) 1 := TimedItch.feed 1700000000000000000
    let book := ItchBook.new (fun _ => none) {} (some (65536, [])) 16 true []
    let sim := { run := .new (Engine.init s.env {}), market := book, last := 0 }
    ∃ r r', replay s feed true (2 ^ 66) 0 ms sim = some r ∧ replay s feed false (2 ^ 66) 0 ms sim = some r' ∧
      SameDay r r' := by
  intro s ms feed book sim
  have hafter : (ticks feed ms).all (fun t => decide (1700000000000000000 ≤ t)) = true := by decide +kernel
  refine idle_skip s feed (Engine.init s.env {}) book 1700000000000000000 0 0 ms (2 ^ 66)
    (List.pairwise_singleton _ _) (by decide) (by decide +kernel) (by unfold DayRun.NoWrap; decide +kernel)
    (by unfold DayRun.plenty; decide +kernel) ?_ ?_
    (fun t ht => of_decide_eq_true (List.all_eq_true.mp hafter t ht)) (by decide +kernel) (by decide +kernel)
    (by decide +kernel)
  · have hpaper : (Engine.init s.env {}).paper = none := rfl
    rw [hpaper]
    exact nofun
  · intro ev hev
    rw [List.mem_singleton.mp hev]
    decide +kernel

end

end Backtest

end Stok
