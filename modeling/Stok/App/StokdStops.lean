import Mathlib.Data.Prod.Lex
import Mathlib.Order.WellFounded
import Stok.App.StokdDelivers
import Stok.Lib.Fairness

/-!
# The daemon stops

After a signal `main` joins the threads one after the other, each once it has been told to stop.
`State.left` measures what is left of this: first the places of `main`, then the work of the thread
that `main` waits for. The engine need not empty its rings to stop: it ends at the next start of a
pass.
-/

namespace Stok.Stokd

open Lib Engine

inductive Thread where
  | net
  | market
  | engine
  | alerts
  | journal
  | main
  deriving DecidableEq, Repr

variable {F : Type} [Dbl F] {n : Nat} {d : Setup F} {s s' : State n d} {a : Act F n}

/-- Whose step it is. What the producers publish comes from outside. -/
def thread : Act F n → Option Thread
  | .publishNews _ | .publishMarket _ => none
  | .netReturn => some .net
  | .marketReturn => some .market
  | .engine _ | .offerAlert | .offerJournal => some .engine
  | .alerts => some .alerts
  | .journal => some .journal
  | .main => some .main

/-- A thread that has not ended goes on. The producers have to end only when they are told to, and
the signal need not come. -/
def Obliged (t : Thread) (s : State n d) : Prop :=
  match t with
  | .net => s.main.stopsProducers = true ∧ s.netDone = false
  | .market => s.main.stopsProducers = true ∧ s.marketDone = false
  | .engine => s.engineAt ≠ .done
  | .alerts => s.alertAt ≠ .done
  | .journal => s.journalAt ≠ .done
  | .main => s.main ≠ .waiting ∧ (mainStep s).isSome = true

/-- The thread that has to move before `main` can go on. -/
def waitsFor (s : State n d) : Thread :=
  match s.main with
  | .joinNet => if s.netDone then .main else .net
  | .joinMarket => if s.marketDone then .main else .market
  | .joinEngine => if s.engineAt = .done then .main else .engine
  | .joinAlerts => if s.alertAt = .done then .main else .alerts
  | .joinJournal => if s.journalAt = .done then .main else .journal
  | _ => .main

/-- Who is obliged to move can move. -/
theorem Obliged.moves {t : Thread} (h : Obliged t s) :
    ∃ a s', thread a = some t ∧ step d s a = some s' := by
  cases t with
  | net => exact ⟨.netReturn, _, rfl, if_pos h.1⟩
  | market => exact ⟨.marketReturn, _, rfl, rfl⟩
  | engine =>
    cases ha : s.toAlert with
    | cons x rest => exact ⟨.offerAlert, _, rfl, by simp only [step, ha]; rfl⟩
    | nil =>
      cases hj : s.toJournal with
      | cons r rest => exact ⟨.offerJournal, _, rfl, by simp only [step, hj]; rfl⟩
      | nil =>
        have hstep : ∃ s', engineStep s { mono := 0, wall := 0, hot := fun _ _ => {} } = some s' := by
          unfold engineStep
          split <;> first
            | exact ⟨_, rfl⟩
            | (split <;> exact ⟨_, rfl⟩)
            | (rename_i hdone; exact absurd hdone h)
        obtain ⟨s', hs⟩ := hstep
        refine ⟨.engine { mono := 0, wall := 0, hot := fun _ _ => {} }, s', rfl, ?_⟩
        rw [← hs]
        exact if_pos ⟨by rw [ha]; rfl, by rw [hj]; rfl⟩
  | alerts =>
    cases hp : s.alertAt with
    | done => exact absurd hp h
    | _ => exact ⟨.alerts, _, rfl, by simp only [step, hp, SinkAt.next]; rfl⟩
  | journal =>
    cases hp : s.journalAt with
    | done => exact absurd hp h
    | _ => exact ⟨.journal, _, rfl, by simp only [step, hp, SinkAt.next]; rfl⟩
  | main =>
    obtain ⟨s', hs⟩ := Option.isSome_iff_exists.mp h.2
    exact ⟨.main, s', rfl, hs⟩

/-- Until it is done, `main` waits for a thread that is obliged to move. -/
theorem waitsFor_obliged (hsignal : s.main ≠ .waiting) (hm : s.main ≠ .finished) :
    Obliged (waitsFor s) s := by
  have hmain (h : (mainStep s).isSome = true) : Obliged .main s := ⟨hsignal, h⟩
  unfold waitsFor
  split
  next hat =>
    split
    · rename_i hdone
      exact hmain (by simp [mainStep, hat, hdone])
    · rename_i hlive
      exact ⟨by rw [hat]; rfl, Bool.eq_false_iff.mpr hlive⟩
  next hat =>
    split
    · rename_i hdone
      exact hmain (by simp [mainStep, hat, hdone])
    · rename_i hlive
      exact ⟨by rw [hat]; rfl, Bool.eq_false_iff.mpr hlive⟩
  next hat =>
    split
    · rename_i hdone
      exact hmain (by simp [mainStep, hat, hdone])
    · rename_i hlive
      exact hlive
  next hat =>
    split
    · rename_i hdone
      exact hmain (by simp [mainStep, hat, hdone])
    · rename_i hlive
      exact hlive
  next hat =>
    split
    · rename_i hdone
      exact hmain (by simp [mainStep, hat, hdone])
    · rename_i hlive
      exact hlive
  next h₁ h₂ h₃ h₄ h₅ =>
    refine hmain ?_
    unfold mainStep
    split <;> first | rfl | contradiction

/-! ## What is left -/

/-- The steps of the engine thread to its end, once `stop_engine` is set. -/
def engineLeft (s : State n d) : Nat :=
  match s.engineAt with
  | .done => 0
  | .closing => 1
  | .shutdown => 2
  | .top => 3
  | .startScan | .scan _ => 4
  | .start | .eval _ => 5
  | .clock => 6
  | .marketHandled => 6 + 2 * s.market.items.length
  | .market => 7 + 2 * s.market.items.length
  | .newsHandled => 7 + 2 * s.market.items.length + 2 * s.news.items.length
  | .news => 8 + 2 * s.market.items.length + 2 * s.news.items.length

/-- The steps of a sink to its end, once `stop_sinks` is set. -/
def sinkLeft (items : Nat) : SinkAt → Nat
  | .done => 0
  | .last => 1 + items
  | .check => 2 + items
  | .drain => 3 + items

def pending (s : State n d) : Nat := s.toAlert.length + s.toJournal.length

/-- The work of the thread that `main` waits for. -/
def work (s : State n d) : ℕ ×ₗ ℕ :=
  match s.main with
  | .joinNet => toLex (if s.netDone then 0 else 1, 0)
  | .joinMarket => toLex (if s.marketDone then 0 else 1, 0)
  | .joinEngine => toLex (engineLeft s, pending s)
  | .joinAlerts => toLex (sinkLeft s.alerts.items.length s.alertAt, 0)
  | .joinJournal => toLex (sinkLeft s.journal.items.length s.journalAt, 0)
  | _ => toLex (0, 0)

def left (s : State n d) : ℕ ×ₗ ℕ ×ₗ ℕ := toLex (8 - s.main.rank, work s)

theorem length_take_pred {α : Type} {cap : Nat} {c : Channel α cap} (h : c.items ≠ []) :
    c.take.items.length + 1 = c.items.length := by
  obtain ⟨x, rest, hx⟩ := List.exists_cons_of_ne_nil h
  rw [(Channel.take_of_items hx).2, hx]
  rfl

theorem engineLeft_lt {i : Inputs} (h : Intake s) (hstop : s.main.stopsEngine = true)
    (hs : engineStep s i = some s') : engineLeft s' < engineLeft s := by
  unfold engineStep at hs
  split at hs
  next hp => cases hs; simp [engineLeft, hp]
  next hp => cases hs; simp [engineLeft, hp]
  next hp => cases hs; simp [engineLeft, hp, hstop]
  next hp =>
    split at hs
    · rename_i hitems
      cases hs
      simp [engineLeft, hp, hitems]
    · cases hs
      simp only [engineLeft, hp, State.call]
      omega
  next hp =>
    cases hs
    have hpred := length_take_pred (h.story hp)
    simp only [engineLeft, hp]
    omega
  next hp =>
    split at hs
    · rename_i hitems
      cases hs
      simp [engineLeft, hp, hitems]
    · cases hs
      simp only [engineLeft, hp, State.call]
      omega
  next hp =>
    cases hs
    have hpred := length_take_pred (h.event hp)
    simp only [engineLeft, hp]
    omega
  next hp => cases hs; simp [engineLeft, hp]
  next hp => split at hs <;> cases hs <;> simp [engineLeft, hp, State.call]
  next hp => split at hs <;> cases hs <;> simp [engineLeft, hp, State.call]
  next hp => cases hs; simp [engineLeft, hp, State.call]
  next hp => cases hs; simp [engineLeft, hp]
  next => cases hs

theorem sinkLeft_lt {α : Type} {cap : Nat} {c : Channel α cap} {p q : SinkAt} {b : Bool}
    (h : p.next true c.items.isEmpty = some (q, b)) :
    sinkLeft (takeIf c b).items.length q < sinkLeft c.items.length p := by
  by_cases hc : c.items = []
  · rw [hc] at h
    cases p <;> cases h <;> simp [sinkLeft, takeIf, hc]
  · have htake := length_take_pred hc
    rw [List.isEmpty_eq_false_iff.mpr hc] at h
    cases p with
    | check =>
      cases h
      show 1 + c.items.length < 2 + c.items.length
      omega
    | drain =>
      cases h
      show 3 + c.take.items.length < 3 + c.items.length
      omega
    | last =>
      cases h
      show 1 + c.take.items.length < 1 + c.items.length
      omega
    | done => cases h

/-! ## Every step -/

/-- A step that `main` does not look at, whatever it waits for. -/
structure Apart (s s' : State n d) (a : Act F n) : Prop where
  main : s'.main = s.main
  other : thread a ≠ some .main
  net : s.main = .joinNet → s'.netDone = s.netDone ∧ (s.netDone = false → thread a ≠ some .net)
  market : s.main = .joinMarket →
    s'.marketDone = s.marketDone ∧ (s.marketDone = false → thread a ≠ some .market)
  engine : s.main = .joinEngine → s'.engineAt = s.engineAt ∧ engineLeft s' = engineLeft s ∧
    pending s' = pending s ∧ thread a ≠ some .engine
  alerts : s.main = .joinAlerts →
    s'.alertAt = s.alertAt ∧ s'.alerts = s.alerts ∧ thread a ≠ some .alerts
  journal : s.main = .joinJournal →
    s'.journalAt = s.journalAt ∧ s'.journal = s.journal ∧ thread a ≠ some .journal

/-- A step lowers what is left, or is not one of the thread that `main` waits for. -/
def Helps (s s' : State n d) (a : Act F n) : Prop :=
  left s' < left s ∨ left s' = left s ∧ waitsFor s' = waitsFor s ∧ thread a ≠ some (waitsFor s)

theorem Apart.helps (h : Apart s s' a) : Helps s s' a := by
  have hmain := h.main
  have hother := h.other
  suffices hwork : work s' = work s ∧ waitsFor s' = waitsFor s ∧ thread a ≠ some (waitsFor s) by
    refine .inr ⟨?_, hwork.2⟩
    rw [left, left, hmain, hwork.1]
  unfold work waitsFor
  rw [hmain]
  split
  next hm =>
    obtain ⟨hdone, hlive⟩ := h.net hm
    rw [hdone]
    refine ⟨rfl, rfl, ?_⟩
    split
    · exact hother
    · rename_i hd
      exact hlive (Bool.eq_false_iff.mpr hd)
  next hm =>
    obtain ⟨hdone, hlive⟩ := h.market hm
    rw [hdone]
    refine ⟨rfl, rfl, ?_⟩
    split
    · exact hother
    · rename_i hd
      exact hlive (Bool.eq_false_iff.mpr hd)
  next hm =>
    obtain ⟨hat, hleft, hpending, hlive⟩ := h.engine hm
    rw [hat, hleft, hpending]
    refine ⟨rfl, rfl, ?_⟩
    split
    · exact hother
    · exact hlive
  next hm =>
    obtain ⟨hat, hitems, hlive⟩ := h.alerts hm
    rw [hat, hitems]
    refine ⟨rfl, rfl, ?_⟩
    split
    · exact hother
    · exact hlive
  next hm =>
    obtain ⟨hat, hitems, hlive⟩ := h.journal hm
    rw [hat, hitems]
    refine ⟨rfl, rfl, ?_⟩
    split
    · exact hother
    · exact hlive
  next => exact ⟨rfl, rfl, hother⟩

theorem helps_of_work (hmain : s'.main = s.main) (h : work s' < work s) : Helps s s' a := by
  refine .inl (Prod.Lex.toLex_lt_toLex.mpr (.inr ⟨?_, h⟩))
  show 8 - s'.main.rank = 8 - s.main.rank
  rw [hmain]

theorem work_lt {s s' : State n d} {x y v w : ℕ} (hs' : work s' = toLex (x, v)) (hs : work s = toLex (y, w))
    (h : x < y ∨ x = y ∧ v < w) : work s' < work s := by
  rw [hs', hs]
  exact Prod.Lex.toLex_lt_toLex.mpr h

theorem helps_net (hs : step d s .netReturn = some s') : Helps s s' .netReturn := by
  obtain ⟨-, hs⟩ := Option.ite_none_right_eq_some.mp hs
  cases hs
  by_cases hwait : s.main = .joinNet ∧ s.netDone = false
  · obtain ⟨hm, hd⟩ := hwait
    exact helps_of_work rfl (work_lt (x := 0) (y := 1) (by simp only [work, hm]; rfl)
      (by simp only [work, hm, hd]; rfl) (.inl Nat.zero_lt_one))
  · refine Apart.helps ⟨rfl, nofun, fun hm => ?_, fun _ => ⟨rfl, nofun⟩, fun _ => ⟨rfl, rfl, rfl, nofun⟩,
      fun _ => ⟨rfl, rfl, nofun⟩, fun _ => ⟨rfl, rfl, nofun⟩⟩
    have hd : s.netDone = true := Bool.of_not_eq_false fun hd => hwait ⟨hm, hd⟩
    exact ⟨hd.symm, fun hlive => absurd (hd.symm.trans hlive) nofun⟩

theorem helps_market (hs : step d s .marketReturn = some s') : Helps s s' .marketReturn := by
  cases hs
  by_cases hwait : s.main = .joinMarket ∧ s.marketDone = false
  · obtain ⟨hm, hd⟩ := hwait
    exact helps_of_work rfl (work_lt (x := 0) (y := 1) (by simp only [work, hm]; rfl)
      (by simp only [work, hm, hd]; rfl) (.inl Nat.zero_lt_one))
  · refine Apart.helps ⟨rfl, nofun, fun _ => ⟨rfl, nofun⟩, fun hm => ?_, fun _ => ⟨rfl, rfl, rfl, nofun⟩,
      fun _ => ⟨rfl, rfl, nofun⟩, fun _ => ⟨rfl, rfl, nofun⟩⟩
    have hd : s.marketDone = true := Bool.of_not_eq_false fun hd => hwait ⟨hm, hd⟩
    exact ⟨hd.symm, fun hlive => absurd (hd.symm.trans hlive) nofun⟩

/-- A step of the engine thread comes before `main` is past its join. -/
theorem helps_engine (h : Ordered s) (ha : thread a = some .engine) (hlive : s.engineAt ≠ .done)
    (hmain : s'.main = s.main) (hnet : s'.netDone = s.netDone) (hmarket : s'.marketDone = s.marketDone)
    (hwork : s.main = .joinEngine →
      engineLeft s' < engineLeft s ∨ engineLeft s' = engineLeft s ∧ pending s' < pending s) :
    Helps s s' a := by
  by_cases hm : s.main = .joinEngine
  · refine helps_of_work hmain (work_lt (by simp only [work, hmain, hm]) (by simp only [work, hm]) (hwork hm))
  · have hpast : ∀ m : MainAt, 5 ≤ m.rank → s.main ≠ m := by
      rintro m hr rfl
      exact hlive (h.engine hr)
    refine Apart.helps ⟨hmain, by rw [ha]; nofun, fun _ => ⟨hnet, by rw [ha]; nofun⟩,
      fun _ => ⟨hmarket, by rw [ha]; nofun⟩, fun he => absurd he hm, fun he => ?_, fun he => ?_⟩
    · exact absurd he (hpast _ (by decide))
    · exact absurd he (hpast _ (by decide))

theorem step_helps (h : Inv s) (hs : step d s a = some s') : Helps s s' a := by
  have ho := h.ordered
  cases a with
  | publishNews ev =>
    obtain ⟨hlive, hs⟩ := Option.ite_none_left_eq_some.mp hs
    cases hs
    have hpast : ∀ m : MainAt, 2 ≤ m.rank → s.main ≠ m := by
      rintro m hr rfl
      exact hlive (ho.net hr)
    exact Apart.helps ⟨rfl, by rintro ⟨⟩, fun _ => ⟨rfl, by rintro - ⟨⟩⟩, fun _ => ⟨rfl, by rintro - ⟨⟩⟩,
      fun he => absurd he (hpast _ (by decide)), fun _ => ⟨rfl, rfl, by rintro ⟨⟩⟩,
      fun _ => ⟨rfl, rfl, by rintro ⟨⟩⟩⟩
  | netReturn => exact helps_net hs
  | publishMarket ev =>
    obtain ⟨hlive, hs⟩ := Option.ite_none_left_eq_some.mp hs
    cases hs
    have hpast : ∀ m : MainAt, 3 ≤ m.rank → s.main ≠ m := by
      rintro m hr rfl
      exact hlive (ho.market hr)
    exact Apart.helps ⟨rfl, by rintro ⟨⟩, fun _ => ⟨rfl, by rintro - ⟨⟩⟩, fun _ => ⟨rfl, by rintro - ⟨⟩⟩,
      fun he => absurd he (hpast _ (by decide)), fun _ => ⟨rfl, rfl, by rintro ⟨⟩⟩,
      fun _ => ⟨rfl, rfl, by rintro ⟨⟩⟩⟩
  | marketReturn => exact helps_market hs
  | engine i =>
    obtain ⟨-, hs⟩ := Option.ite_none_right_eq_some.mp hs
    have hlive : s.engineAt ≠ .done := by
      intro hdone
      rw [engineStep, hdone] at hs
      cases hs
    obtain ⟨hmain, hnet, hmarket⟩ : s'.main = s.main ∧ s'.netDone = s.netDone ∧
        s'.marketDone = s.marketDone := by
      cases engineStep_move hs <;> exact ⟨rfl, rfl, rfl⟩
    refine helps_engine ho rfl hlive hmain hnet hmarket fun hm => .inl ?_
    exact engineLeft_lt h.intake (by rw [hm]; rfl) hs
  | offerAlert =>
    simp only [step] at hs
    split at hs <;> cases hs
    rename_i x rest hx
    have hlive : s.engineAt ≠ .done := by
      intro hdone
      rw [(h.records.drained hdone).1] at hx
      cases hx
    refine helps_engine ho rfl hlive rfl rfl rfl fun _ => .inr ⟨rfl, ?_⟩
    show rest.length + s.toJournal.length < s.toAlert.length + s.toJournal.length
    rw [hx]
    exact Nat.add_lt_add_right (Nat.lt_succ_self _) _
  | offerJournal =>
    simp only [step] at hs
    split at hs <;> cases hs
    rename_i r rest hr
    have hlive : s.engineAt ≠ .done := by
      intro hdone
      rw [(h.records.drained hdone).2] at hr
      cases hr
    refine helps_engine ho rfl hlive rfl rfl rfl fun _ => .inr ⟨rfl, ?_⟩
    show s.toAlert.length + rest.length < s.toAlert.length + s.toJournal.length
    rw [hr]
    exact Nat.add_lt_add_left (Nat.lt_succ_self _) _
  | alerts =>
    obtain ⟨⟨p, b⟩, hnext, hs⟩ := Option.map_eq_some_iff.mp hs
    cases hs
    by_cases hm : s.main = .joinAlerts
    · rw [show s.main.stopsSinks = true by rw [hm]; rfl] at hnext
      exact helps_of_work rfl (work_lt (v := 0) (w := 0) (by simp only [work, hm])
        (by simp only [work, hm]) (.inl (sinkLeft_lt hnext)))
    · exact Apart.helps ⟨rfl, by rintro ⟨⟩, fun _ => ⟨rfl, by rintro - ⟨⟩⟩, fun _ => ⟨rfl, by rintro - ⟨⟩⟩,
        fun _ => ⟨rfl, rfl, rfl, by rintro ⟨⟩⟩, fun he => absurd he hm, fun _ => ⟨rfl, rfl, by rintro ⟨⟩⟩⟩
  | journal =>
    obtain ⟨⟨p, b⟩, hnext, hs⟩ := Option.map_eq_some_iff.mp hs
    cases hs
    by_cases hm : s.main = .joinJournal
    · rw [show s.main.stopsSinks = true by rw [hm]; rfl] at hnext
      exact helps_of_work rfl (work_lt (v := 0) (w := 0) (by simp only [work, hm])
        (by simp only [work, hm]) (.inl (sinkLeft_lt hnext)))
    · exact Apart.helps ⟨rfl, by rintro ⟨⟩, fun _ => ⟨rfl, by rintro - ⟨⟩⟩, fun _ => ⟨rfl, by rintro - ⟨⟩⟩,
        fun _ => ⟨rfl, rfl, rfl, by rintro ⟨⟩⟩, fun _ => ⟨rfl, rfl, by rintro ⟨⟩⟩, fun he => absurd he hm⟩
  | main =>
    obtain ⟨m, rfl, hm, -⟩ := mainStep_move hs
    refine .inl (Prod.Lex.toLex_lt_toLex.mpr (.inl ?_))
    show 8 - m.rank < 8 - s.main.rank
    have hle : ∀ m : MainAt, m.rank ≤ 8 := by
      intro m
      cases m <;> decide
    have := hle m
    omega

/-- `main` never comes back to the wait for a signal. -/
theorem signalled_step (h : s.main ≠ .waiting) (hs : step d s a = some s') : s'.main ≠ .waiting := by
  cases a with
  | publishNews ev | publishMarket ev =>
    obtain ⟨-, hs⟩ := Option.ite_none_left_eq_some.mp hs
    cases hs
    exact h
  | netReturn =>
    obtain ⟨-, hs⟩ := Option.ite_none_right_eq_some.mp hs
    cases hs
    exact h
  | marketReturn => cases hs; exact h
  | engine i =>
    obtain ⟨-, hs⟩ := Option.ite_none_right_eq_some.mp hs
    cases engineStep_move hs <;> exact h
  | offerAlert | offerJournal =>
    simp only [step] at hs
    split at hs <;> cases hs
    exact h
  | alerts | journal =>
    obtain ⟨⟨p, b⟩, -, hs⟩ := Option.map_eq_some_iff.mp hs
    cases hs
    exact h
  | main =>
    obtain ⟨m, rfl, hm, -⟩ := mainStep_move hs
    rintro rfl
    cases hm

/-- **The daemon stops.** In every behaviour that is fair to the threads, whatever is published
and however the engine was busy, a signal is followed by the end of `main`, and then everything
has been delivered. There is no deadlock on the way: the thread that `main` waits for can move. -/
theorem stokd_stops (d : Setup F) (b : Behaviour (step (n := n) d)) (h0 : b.state 0 = init n d)
    (hfair : b.Fair thread Obliged) (t : ℕ) (hsignal : (b.state t).main ≠ .waiting) :
    (∀ u, t ≤ u → (b.state u).main ≠ .finished →
      ∃ a s', thread a = some (waitsFor (b.state u)) ∧ step d (b.state u) a = some s') ∧
    ∃ u, t ≤ u ∧ (b.state u).main = .finished ∧ Delivered (b.state u) := by
  have hinv : ∀ u, Inv (b.state u) := by
    intro u
    obtain ⟨past, hpast⟩ := b.history u
    rw [h0] at hpast
    exact history_inv hpast
  have hsignalled : ∀ u, t ≤ u → (b.state u).main ≠ .waiting := fun u hle =>
    b.keeps (fun s a s' h hs => signalled_step h hs) hsignal hle
  refine ⟨fun u hle hm => (waitsFor_obliged (hsignalled u hle) hm).moves, ?_⟩
  obtain ⟨u, hle, hdone⟩ := b.reaches (I := fun s => Inv s ∧ s.main ≠ .waiting) hfair
    (fun s hI hm => waitsFor_obliged hI.2 hm) (fun s a s' hI _ hs => step_helps hI.1 hs)
    fun u hle => ⟨hinv u, hsignalled u hle⟩
  exact ⟨u, hle, hdone, (hinv u).delivered hdone⟩

/-- The run of two stories, after which nothing happens. -/
theorem stokd_stops_story : ∃ b : Behaviour (step (n := 0) acmeDaemon),
    b.Fair thread Obliged ∧ ∃ u, (b.state u).main = .finished ∧ Delivered (b.state u) := by
  have hend : ((replay (step acmeDaemon) (init 0 acmeDaemon) [] twoStories).map fun p =>
      (p.1.main, p.1.netDone, p.1.marketDone, p.1.engineAt, p.1.alertAt, p.1.journalAt)) =
        some (.finished, true, true, .done, .done, .done) := by
    decide +kernel
  obtain ⟨⟨s, past⟩, hrun, hs⟩ := Option.map_eq_some_iff.mp hend
  simp only [Prod.mk.injEq] at hs
  obtain ⟨hmain, hnet, hmarket, hengine, halerts, hjournal⟩ := hs
  obtain ⟨b, h0, hlast⟩ := Behaviour.of_replay hrun
  have hfair : b.Fair thread Obliged := by
    intro p t h
    have hp := h _ (Nat.le_max_left t twoStories.length)
    rw [hlast _ (Nat.le_max_right t twoStories.length)] at hp
    cases p with
    | net => exact absurd (hnet.symm.trans hp.2) nofun
    | market => exact absurd (hmarket.symm.trans hp.2) nofun
    | engine => exact absurd hengine hp
    | alerts => exact absurd halerts hp
    | journal => exact absurd hjournal hp
    | main =>
      have hstuck := hp.2
      rw [mainStep, hmain] at hstuck
      cases hstuck
  have hsignal : (b.state twoStories.length).main ≠ .waiting := by
    rw [hlast _ le_rfl, hmain]
    nofun
  obtain ⟨u, -, hu⟩ := (stokd_stops acmeDaemon b h0 hfair _ hsignal).2
  exact ⟨b, hfair, u, hu⟩

end Stok.Stokd
