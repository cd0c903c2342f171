import Stok.App.Stokd
import Stok.Engine.Emission
import Stok.Engine.Turns

/-!
# What the daemon delivers

The engine of a running daemon is the engine of the calls made on it, whatever the order of the
steps of its threads. Three invariants carry this: `Records` for what comes out of the engine,
`Intake` for what goes in, and `Ordered` for the order in which `main` stops the threads.
-/

namespace Stok

namespace Engine

variable {F : Type} [Dbl F]

/-- The market events of a call. -/
def Call.events : Call F → List (Σ n, MarketEvent n)
  | .market ev _ _ => [⟨_, ev⟩]
  | _ => []

def Call.closes : Call F → Bool
  | .shutdown _ _ => true
  | _ => false

end Engine

namespace Stokd

open Lib Engine

variable {F : Type} [Dbl F] {n : Nat} {d : Setup F} {s s' : State n d} {i : Inputs}

/-- The engine has left its loop. -/
def EngineAt.stopping : EngineAt → Bool
  | shutdown | closing | done => true
  | _ => false

def EngineAt.closed : EngineAt → Bool
  | closing | done => true
  | _ => false

/-- The front of a ring has been handled, and not yet popped. -/
def EngineAt.handled : EngineAt → Bool
  | newsHandled | marketHandled => true
  | _ => false

/-! ## The moves of the engine thread -/

/-- A step of the engine thread between two calls. -/
structure Passes (s : State n d) (p : EngineAt) : Prop where
  source : s.engineAt.handled = false
  target : p.handled = false
  stopping : p.stopping = true → s.engineAt.stopping = true ∨ s.main.stopsEngine = true
  closed : p.closed = s.engineAt.closed

/-- A call that the clock asks for. -/
structure Timed (s : State n d) (c : Call F) (p : EngineAt) : Prop where
  source : s.engineAt.handled = false ∧ s.engineAt.stopping = false
  target : p.handled = false ∧ p.stopping = false
  stories : c.stories = []
  events : c.events = []
  closes : c.closes = false

inductive EngineMove (s : State n d) (i : Inputs) : State n d → Prop where
  | pass (p : EngineAt) (nextEval nextScan : UInt64) : Passes s p →
      EngineMove s i { s with engineAt := p, nextEval := nextEval, nextScan := nextScan }
  | story {ev : NewsEvent F} {rest : List (NewsEvent F)} : s.engineAt = .news →
      s.news.items = ev :: rest → EngineMove s i (s.call (.news ev i.wall i.hot) .newsHandled)
  | popStory : s.engineAt = .newsHandled →
      EngineMove s i { s with news := s.news.take, engineAt := .news }
  | event {ev : MarketEvent n} {rest : List (MarketEvent n)} : s.engineAt = .market →
      s.market.items = ev :: rest → EngineMove s i (s.call (.market ev i.wall i.hot) .marketHandled)
  | popEvent : s.engineAt = .marketHandled →
      EngineMove s i { s with market := s.market.take, engineAt := .market }
  | timer (c : Call F) (p : EngineAt) (nextEval nextScan : UInt64) : Timed s c p →
      EngineMove s i ({ s with nextEval := nextEval, nextScan := nextScan }.call c p)
  | shutdown : s.engineAt = .shutdown →
      EngineMove s i (s.call (.shutdown i.wall i.hot) .closing)

theorem engineStep_move (h : engineStep s i = some s') : EngineMove s i s' := by
  unfold engineStep at h
  split at h
  next hp =>
    cases h
    exact .pass .startScan _ _ ⟨by rw [hp]; rfl, rfl, nofun, by rw [hp]; rfl⟩
  next hp =>
    cases h
    exact .pass .top _ _ ⟨by rw [hp]; rfl, rfl, nofun, by rw [hp]; rfl⟩
  next hp =>
    cases h
    refine .pass _ _ _ ⟨by rw [hp]; rfl, ?_, ?_, ?_⟩
    · split <;> rfl
    · split
      · rename_i hstop
        exact fun _ => .inr hstop
      · exact nofun
    · rw [hp]
      split <;> rfl
  next hp =>
    split at h
    · cases h
      exact .pass .market _ _ ⟨by rw [hp]; rfl, rfl, nofun, by rw [hp]; rfl⟩
    · rename_i hitems
      cases h
      exact .story hp hitems
  next hp =>
    cases h
    exact .popStory hp
  next hp =>
    split at h
    · cases h
      exact .pass .clock _ _ ⟨by rw [hp]; rfl, rfl, nofun, by rw [hp]; rfl⟩
    · rename_i hitems
      cases h
      exact .event hp hitems
  next hp =>
    cases h
    exact .popEvent hp
  next hp =>
    cases h
    exact .pass (.eval _) _ _ ⟨by rw [hp]; rfl, rfl, nofun, by rw [hp]; rfl⟩
  next now hp =>
    split at h
    · cases h
      exact .timer (.evaluate i.wall i.hot) (.scan now) _ s.nextScan
        ⟨by rw [hp]; exact ⟨rfl, rfl⟩, ⟨rfl, rfl⟩, rfl, rfl, rfl⟩
    · cases h
      exact .pass (.scan now) _ _ ⟨by rw [hp]; rfl, rfl, nofun, by rw [hp]; rfl⟩
  next now hp =>
    split at h
    · cases h
      exact .timer (.scanMovers i.wall i.hot) .top s.nextEval _
        ⟨by rw [hp]; exact ⟨rfl, rfl⟩, ⟨rfl, rfl⟩, rfl, rfl, rfl⟩
    · cases h
      exact .pass .top _ _ ⟨by rw [hp]; rfl, rfl, nofun, by rw [hp]; rfl⟩
  next hp =>
    cases h
    exact .shutdown hp
  next hp =>
    cases h
    exact .pass .done _ _ ⟨by rw [hp]; rfl, rfl, fun _ => .inl (by rw [hp]; rfl), by rw [hp]; rfl⟩
  next => cases h

/-- What `main` waits for before its next step. -/
structure Joined (s : State n d) : Prop where
  net : s.main.rank = 1 → s.netDone = true
  market : s.main.rank = 2 → s.marketDone = true
  engine : s.main.rank = 4 → s.engineAt = .done
  alerts : s.main.rank = 6 → s.alertAt = .done
  journal : s.main.rank = 7 → s.journalAt = .done

theorem mainStep_move (h : mainStep s = some s') :
    ∃ m, s' = { s with main := m } ∧ m.rank = s.main.rank + 1 ∧ Joined s := by
  have hjoined (hr : s.main.rank ∈ [0, 3, 5]) : Joined s := by
    constructor <;> intro h <;> simp [h] at hr
  unfold mainStep at h
  split at h
  next hm => cases h; exact ⟨_, rfl, by rw [hm]; rfl, hjoined (by rw [hm]; decide)⟩
  next hm =>
    obtain ⟨hdone, h⟩ := Option.ite_none_right_eq_some.mp h
    cases h
    exact ⟨_, rfl, by rw [hm]; rfl, fun _ => hdone, by rw [hm]; nofun, by rw [hm]; nofun,
      by rw [hm]; nofun, by rw [hm]; nofun⟩
  next hm =>
    obtain ⟨hdone, h⟩ := Option.ite_none_right_eq_some.mp h
    cases h
    exact ⟨_, rfl, by rw [hm]; rfl, by rw [hm]; nofun, fun _ => hdone, by rw [hm]; nofun,
      by rw [hm]; nofun, by rw [hm]; nofun⟩
  next hm => cases h; exact ⟨_, rfl, by rw [hm]; rfl, hjoined (by rw [hm]; decide)⟩
  next hm =>
    obtain ⟨hdone, h⟩ := Option.ite_none_right_eq_some.mp h
    cases h
    exact ⟨_, rfl, by rw [hm]; rfl, by rw [hm]; nofun, by rw [hm]; nofun, fun _ => hdone,
      by rw [hm]; nofun, by rw [hm]; nofun⟩
  next hm => cases h; exact ⟨_, rfl, by rw [hm]; rfl, hjoined (by rw [hm]; decide)⟩
  next hm =>
    obtain ⟨hdone, h⟩ := Option.ite_none_right_eq_some.mp h
    cases h
    exact ⟨_, rfl, by rw [hm]; rfl, by rw [hm]; nofun, by rw [hm]; nofun, by rw [hm]; nofun,
      fun _ => hdone, by rw [hm]; nofun⟩
  next hm =>
    obtain ⟨hdone, h⟩ := Option.ite_none_right_eq_some.mp h
    cases h
    exact ⟨_, rfl, by rw [hm]; rfl, by rw [hm]; nofun, by rw [hm]; nofun, by rw [hm]; nofun,
      by rw [hm]; nofun, fun _ => hdone⟩
  next => cases h

/-! ## What comes out -/

/-- The calls, the last of which is `shutdown` if it has been made, and no other. -/
def Closing (closed : Bool) (calls : List (Call F)) : Prop :=
  ∃ cs, (∀ c ∈ cs, c.closes = false) ∧
    if closed then ∃ c, c.closes = true ∧ calls = cs ++ [c] else calls = cs

/-- What the engine has made of its calls has been offered, or is about to be. -/
structure Records (s : State n d) : Prop where
  engine : s.engine = Engine.run d.env (.init d.env d.filings) s.calls
  alerts : s.alerts.offered ++ s.toAlert = s.engine.alerts
  journal : s.journal.offered ++ s.toJournal = s.engine.journal
  closing : Closing s.engineAt.closed s.calls
  drained : s.engineAt = .done → s.toAlert = [] ∧ s.toJournal = []

theorem records_init (n : Nat) (d : Setup F) : Records (init n d) where
  engine := rfl
  alerts := rfl
  journal := rfl
  closing := ⟨[], nofun, rfl⟩
  drained := nofun

omit [Dbl F] in
theorem Closing.call {calls : List (Call F)} (h : Closing false calls) (c : Call F) :
    Closing c.closes (calls ++ [c]) := by
  obtain ⟨cs, hcs, rfl⟩ := h
  cases hc : c.closes with
  | true => exact ⟨calls, hcs, c, hc, rfl⟩
  | false =>
    refine ⟨calls ++ [c], ?_, rfl⟩
    intro c' hmem
    rcases List.mem_append.mp hmem with hmem | hmem
    · exact hcs c' hmem
    · rw [List.mem_singleton.mp hmem]
      exact hc

/-- What is left of a longer list is what it has more. -/
theorem append_drop_of_prefix {α : Type} {xs ys : List α} (h : xs <+: ys) : xs ++ ys.drop xs.length = ys := by
  obtain ⟨zs, rfl⟩ := h
  rw [List.drop_left]

theorem Records.call (h : Records s) (ha : s.toAlert = []) (hj : s.toJournal = [])
    (hopen : s.engineAt.closed = false) {c : Call F} {p : EngineAt} (hp : p.closed = c.closes)
    (hdone : p ≠ .done) : Records (s.call c p) := by
  have hcall := @journals_call F _ d.env s.engine c
  have halerts := h.alerts
  have hjournal := h.journal
  rw [ha, List.append_nil] at halerts
  rw [hj, List.append_nil] at hjournal
  refine ⟨?_, ?_, ?_, ?_, fun he => absurd he hdone⟩
  · show Engine.call d.env s.engine c = Engine.run _ _ (s.calls ++ [c])
    rw [Engine.run, List.foldl_append, h.engine]
    rfl
  · show s.alerts.offered ++ List.drop s.engine.alerts.length _ = _
    rw [halerts]
    exact append_drop_of_prefix hcall.alerts
  · show s.journal.offered ++ List.drop s.engine.journal.length _ = _
    rw [hjournal]
    exact append_drop_of_prefix hcall.journal
  · show Closing p.closed _
    have hclosing := h.closing
    rw [hopen] at hclosing
    rw [hp]
    exact hclosing.call c

theorem Records.timers (h : Records s) (nextEval nextScan : UInt64) :
    Records { s with nextEval := nextEval, nextScan := nextScan } :=
  ⟨h.engine, h.alerts, h.journal, h.closing, h.drained⟩

theorem Records.engine_move (h : Records s) (ha : s.toAlert = []) (hj : s.toJournal = [])
    (hm : EngineMove s i s') : Records s' := by
  cases hm with
  | pass p nextEval nextScan hp =>
    refine ⟨h.engine, h.alerts, h.journal, ?_, fun _ => ⟨ha, hj⟩⟩
    show Closing p.closed s.calls
    rw [hp.closed]
    exact h.closing
  | story hat => exact h.call ha hj (by rw [hat]; rfl) rfl nofun
  | popStory hat =>
    have hclosing := h.closing
    rw [hat] at hclosing
    exact ⟨h.engine, h.alerts, h.journal, hclosing, nofun⟩
  | event hat => exact h.call ha hj (by rw [hat]; rfl) rfl nofun
  | popEvent hat =>
    have hclosing := h.closing
    rw [hat] at hclosing
    exact ⟨h.engine, h.alerts, h.journal, hclosing, nofun⟩
  | timer c p nextEval nextScan ht =>
    have hopen : ∀ q : EngineAt, q.stopping = false → q.closed = false ∧ q ≠ .done := by
      intro q hq
      cases q <;> first | exact ⟨rfl, nofun⟩ | cases hq
    refine (h.timers nextEval nextScan).call ha hj (hopen _ ht.source.2).1 ?_ (hopen p ht.target.2).2
    rw [(hopen p ht.target.2).1, ht.closes]
  | shutdown hat => exact h.call ha hj (by rw [hat]; rfl) rfl nofun

theorem sink_offered {α : Type} {cap : Nat} (c : Channel α cap) (b : Bool) :
    (takeIf c b).offered = c.offered := by
  cases b <;> rfl

theorem Records.step {a : Act F n} (h : Records s) (hs : step d s a = some s') : Records s' := by
  cases a with
  | publishNews ev =>
    obtain ⟨-, hs⟩ := Option.ite_none_left_eq_some.mp hs
    cases hs
    exact ⟨h.engine, h.alerts, h.journal, h.closing, h.drained⟩
  | netReturn =>
    obtain ⟨-, hs⟩ := Option.ite_none_right_eq_some.mp hs
    cases hs
    exact ⟨h.engine, h.alerts, h.journal, h.closing, h.drained⟩
  | publishMarket ev =>
    obtain ⟨-, hs⟩ := Option.ite_none_left_eq_some.mp hs
    cases hs
    exact ⟨h.engine, h.alerts, h.journal, h.closing, h.drained⟩
  | marketReturn =>
    cases hs
    exact ⟨h.engine, h.alerts, h.journal, h.closing, h.drained⟩
  | engine i =>
    obtain ⟨⟨ha, hj⟩, hs⟩ := Option.ite_none_right_eq_some.mp hs
    exact h.engine_move (List.isEmpty_iff.mp ha) (List.isEmpty_iff.mp hj) (engineStep_move hs)
  | offerAlert =>
    simp only [Stokd.step] at hs
    split at hs <;> cases hs
    rename_i x rest hx
    refine ⟨h.engine, ?_, h.journal, h.closing, fun hd => ?_⟩
    · show (s.alerts.offer x).offered ++ rest = s.engine.alerts
      rw [Channel.offer_offered, List.append_assoc, ← h.alerts, hx]
      rfl
    · rw [(h.drained hd).1] at hx
      cases hx
  | offerJournal =>
    simp only [Stokd.step] at hs
    split at hs <;> cases hs
    rename_i x rest hx
    refine ⟨h.engine, h.alerts, ?_, h.closing, fun hd => ?_⟩
    · show (s.journal.offer x).offered ++ rest = s.engine.journal
      rw [Channel.offer_offered, List.append_assoc, ← h.journal, hx]
      rfl
    · rw [(h.drained hd).2] at hx
      cases hx
  | alerts =>
    obtain ⟨⟨p, b⟩, -, hs⟩ := Option.map_eq_some_iff.mp hs
    cases hs
    exact ⟨h.engine, by rw [sink_offered]; exact h.alerts, h.journal, h.closing, h.drained⟩
  | journal =>
    obtain ⟨⟨p, b⟩, -, hs⟩ := Option.map_eq_some_iff.mp hs
    cases hs
    exact ⟨h.engine, h.alerts, by rw [sink_offered]; exact h.journal, h.closing, h.drained⟩
  | main =>
    obtain ⟨m, rfl, -⟩ := mainStep_move hs
    exact ⟨h.engine, h.alerts, h.journal, h.closing, h.drained⟩

/-! ## What goes in -/

/-- The story that has been handled and is still in its ring. -/
def heldStory (s : State n d) : List (NewsEvent F) :=
  if s.engineAt = .newsHandled then s.news.items.take 1 else []

def heldEvent (s : State n d) : List (MarketEvent n) :=
  if s.engineAt = .marketHandled then s.market.items.take 1 else []

/-- The engine has handled what it took from its rings, and what it is about to pop. -/
structure Intake (s : State n d) : Prop where
  stories : s.calls.flatMap Call.stories = s.news.taken ++ heldStory s
  events : s.calls.flatMap Call.events = (s.market.taken ++ heldEvent s).map (Sigma.mk n)
  story : s.engineAt = .newsHandled → s.news.items ≠ []
  event : s.engineAt = .marketHandled → s.market.items ≠ []

theorem heldStory_of_ne (h : s.engineAt ≠ .newsHandled) : heldStory s = [] := if_neg h

theorem heldEvent_of_ne (h : s.engineAt ≠ .marketHandled) : heldEvent s = [] := if_neg h

theorem intake_init (n : Nat) (d : Setup F) : Intake (init n d) := ⟨rfl, rfl, nofun, nofun⟩

theorem take_one_offer {α : Type} {cap : Nat} {c : Channel α cap} (h : c.items ≠ []) (a : α) :
    (c.offer a).items.take 1 = c.items.take 1 := by
  obtain ⟨x, rest, hx⟩ := List.exists_cons_of_ne_nil h
  obtain ⟨ys, hys⟩ := c.items_prefix_offer a
  rw [← hys, hx]
  rfl

theorem offer_ne_nil {α : Type} {cap : Nat} {c : Channel α cap} (h : c.items ≠ []) (a : α) :
    (c.offer a).items ≠ [] := by
  obtain ⟨ys, hys⟩ := c.items_prefix_offer a
  rw [← hys]
  exact List.append_ne_nil_of_left_ne_nil h ys

theorem ne_of_handled {p : EngineAt} (h : p.handled = false) :
    p ≠ .newsHandled ∧ p ≠ .marketHandled := by
  constructor <;> rintro rfl <;> cases h

/-- A call on nothing in the rings. -/
theorem Intake.quiet_call (h : Intake s) (hat : s.engineAt.handled = false) {c : Call F}
    {p : EngineAt} (hp : p.handled = false) (hstories : c.stories = []) (hevents : c.events = []) :
    Intake (s.call c p) := by
  obtain ⟨hp₁, hp₂⟩ := ne_of_handled hp
  have hs := h.stories
  have he := h.events
  rw [heldStory_of_ne (ne_of_handled hat).1] at hs
  rw [heldEvent_of_ne (ne_of_handled hat).2] at he
  refine ⟨?_, ?_, fun hc => absurd hc hp₁, fun hc => absurd hc hp₂⟩
  · rw [heldStory_of_ne (s := s.call c p) hp₁]
    show List.flatMap _ (s.calls ++ [c]) = _
    rw [List.flatMap_append, hs, List.flatMap_singleton, hstories, List.append_nil]
    rfl
  · rw [heldEvent_of_ne (s := s.call c p) hp₂]
    show List.flatMap _ (s.calls ++ [c]) = _
    rw [List.flatMap_append, he, List.flatMap_singleton, hevents, List.append_nil]
    rfl

theorem Intake.moved (h : Intake s) (hat : s.engineAt.handled = false) {p : EngineAt}
    (hp : p.handled = false) (nextEval nextScan : UInt64) :
    Intake { s with engineAt := p, nextEval := nextEval, nextScan := nextScan } := by
  obtain ⟨hp₁, hp₂⟩ := ne_of_handled hp
  have hs := h.stories
  have he := h.events
  rw [heldStory_of_ne (ne_of_handled hat).1] at hs
  rw [heldEvent_of_ne (ne_of_handled hat).2] at he
  refine ⟨?_, ?_, fun hc => absurd hc hp₁, fun hc => absurd hc hp₂⟩
  · rw [heldStory_of_ne (s := { s with engineAt := p, nextEval := nextEval, nextScan := nextScan }) hp₁]
    exact hs
  · rw [heldEvent_of_ne (s := { s with engineAt := p, nextEval := nextEval, nextScan := nextScan }) hp₂]
    exact he

theorem Intake.engine_move (h : Intake s) (hm : EngineMove s i s') : Intake s' := by
  cases hm with
  | pass p nextEval nextScan hp => exact h.moved hp.source hp.target nextEval nextScan
  | @story ev rest hat hitems =>
    have hs := h.stories
    have he := h.events
    rw [heldStory_of_ne (by rw [hat]; nofun), List.append_nil] at hs
    rw [heldEvent_of_ne (by rw [hat]; nofun), List.append_nil] at he
    refine ⟨?_, ?_, fun _ => ?_, nofun⟩
    · show List.flatMap _ (s.calls ++ [_]) = s.news.taken ++ s.news.items.take 1
      rw [List.flatMap_append, hs, hitems]
      rfl
    · show List.flatMap _ (s.calls ++ [_]) = (s.market.taken ++ []).map _
      rw [List.flatMap_append, he, List.append_nil]
      exact List.append_nil _
    · show s.news.items ≠ []
      rw [hitems]
      exact nofun
  | popStory hat =>
    have hs := h.stories
    have he := h.events
    rw [heldEvent_of_ne (by rw [hat]; nofun)] at he
    refine ⟨?_, he, nofun, nofun⟩
    rw [hs, heldStory, if_pos hat]
    exact (List.append_nil _).symm
  | @event ev rest hat hitems =>
    have hs := h.stories
    have he := h.events
    rw [heldStory_of_ne (by rw [hat]; nofun), List.append_nil] at hs
    rw [heldEvent_of_ne (by rw [hat]; nofun), List.append_nil] at he
    refine ⟨?_, ?_, nofun, fun _ => ?_⟩
    · show List.flatMap _ (s.calls ++ [_]) = s.news.taken ++ []
      rw [List.flatMap_append, hs]
      rfl
    · show List.flatMap _ (s.calls ++ [_]) = (s.market.taken ++ s.market.items.take 1).map _
      rw [List.flatMap_append, he, hitems, List.map_append]
      rfl
    · show s.market.items ≠ []
      rw [hitems]
      exact nofun
  | popEvent hat =>
    have hs := h.stories
    have he := h.events
    rw [heldStory_of_ne (by rw [hat]; nofun)] at hs
    refine ⟨hs, ?_, nofun, nofun⟩
    rw [he, heldEvent, if_pos hat]
    exact congrArg _ (List.append_nil _).symm
  | timer c p nextEval nextScan ht =>
    exact (h.moved ht.source.1 ht.source.1 nextEval nextScan).quiet_call ht.source.1 ht.target.1
      ht.stories ht.events
  | shutdown hat => exact h.quiet_call (by rw [hat]; rfl) rfl rfl rfl

theorem Intake.step {a : Act F n} (h : Intake s) (hs : step d s a = some s') : Intake s' := by
  cases a with
  | publishNews ev =>
    obtain ⟨-, hs⟩ := Option.ite_none_left_eq_some.mp hs
    cases hs
    refine ⟨?_, h.events, fun hat => offer_ne_nil (h.story hat) ev, h.event⟩
    rw [Channel.offer_taken, h.stories]
    unfold heldStory
    split
    · rename_i hat
      rw [take_one_offer (h.story hat)]
    · rfl
  | publishMarket ev =>
    obtain ⟨-, hs⟩ := Option.ite_none_left_eq_some.mp hs
    cases hs
    refine ⟨h.stories, ?_, h.story, fun hat => offer_ne_nil (h.event hat) ev⟩
    rw [Channel.offer_taken, h.events]
    unfold heldEvent
    split
    · rename_i hat
      rw [take_one_offer (h.event hat)]
    · rfl
  | netReturn =>
    obtain ⟨-, hs⟩ := Option.ite_none_right_eq_some.mp hs
    cases hs
    exact ⟨h.stories, h.events, h.story, h.event⟩
  | marketReturn =>
    cases hs
    exact ⟨h.stories, h.events, h.story, h.event⟩
  | engine i =>
    obtain ⟨-, hs⟩ := Option.ite_none_right_eq_some.mp hs
    exact h.engine_move (engineStep_move hs)
  | offerAlert | offerJournal =>
    simp only [Stokd.step] at hs
    split at hs <;> cases hs
    exact ⟨h.stories, h.events, h.story, h.event⟩
  | alerts | journal =>
    obtain ⟨⟨p, b⟩, -, hs⟩ := Option.map_eq_some_iff.mp hs
    cases hs
    exact ⟨h.stories, h.events, h.story, h.event⟩
  | main =>
    obtain ⟨m, rfl, -⟩ := mainStep_move hs
    exact ⟨h.stories, h.events, h.story, h.event⟩

/-! ## The order of the stops -/

def SinkAt.stopping : SinkAt → Bool
  | last | done => true
  | _ => false

/-- A thread has ended before `main` is past its join, and a sink ends on an empty ring. -/
structure Ordered (s : State n d) : Prop where
  net : 2 ≤ s.main.rank → s.netDone = true
  market : 3 ≤ s.main.rank → s.marketDone = true
  stopping : s.engineAt.stopping = true → 4 ≤ s.main.rank
  engine : 5 ≤ s.main.rank → s.engineAt = .done
  alertStop : s.alertAt.stopping = true → 6 ≤ s.main.rank
  journalStop : s.journalAt.stopping = true → 6 ≤ s.main.rank
  alertEmpty : s.alertAt = .done → s.alerts.items = []
  journalEmpty : s.journalAt = .done → s.journal.items = []
  alerts : 7 ≤ s.main.rank → s.alertAt = .done
  journal : 8 ≤ s.main.rank → s.journalAt = .done

theorem ordered_init (n : Nat) (d : Setup F) : Ordered (init n d) := by
  constructor <;> intro h <;> first | exact absurd h (by decide) | cases h

/-- After the engine nothing is offered to a sink. -/
theorem Ordered.offered (h : Ordered s) (hr : Records s) (hstop : 6 ≤ s.main.rank) :
    s.toAlert = [] ∧ s.toJournal = [] :=
  hr.drained (h.engine (by omega))

theorem sink_next {stop isEmpty b : Bool} {p q : SinkAt} (h : p.next stop isEmpty = some (q, b)) :
    (q.stopping = true → p.stopping = true ∨ stop = true) ∧
      (q = .done → isEmpty = true ∧ b = false) ∧ p ≠ .done := by
  cases p <;> cases stop <;> cases isEmpty <;> cases h <;> decide

theorem takeIf_false {α : Type} {cap : Nat} (c : Channel α cap) : takeIf c false = c := rfl

theorem Ordered.engine_move (h : Ordered s) (hlive : s.engineAt ≠ .done) (hm : EngineMove s i s') :
    Ordered s' := by
  have hrank : ¬ 5 ≤ s.main.rank := fun hr => hlive (h.engine hr)
  have hmoved : ∀ p : EngineAt, (p.stopping = true → 4 ≤ s.main.rank) →
      ∀ nextEval nextScan,
      Ordered { s with engineAt := p, nextEval := nextEval, nextScan := nextScan } := fun p hp _ _ =>
    ⟨h.net, h.market, hp, fun hr => absurd hr hrank, h.alertStop, h.journalStop, h.alertEmpty,
      h.journalEmpty, h.alerts, h.journal⟩
  have hcalled : ∀ (c : Call F) (p : EngineAt), (p.stopping = true → 4 ≤ s.main.rank) →
      Ordered (s.call c p) := fun c p hp =>
    ⟨h.net, h.market, hp, fun hr => absurd hr hrank, h.alertStop, h.journalStop, h.alertEmpty,
      h.journalEmpty, h.alerts, h.journal⟩
  cases hm with
  | pass p nextEval nextScan hp =>
    refine hmoved p (fun hstop => ?_) nextEval nextScan
    rcases hp.stopping hstop with hs | hs
    · exact h.stopping hs
    · exact of_decide_eq_true hs
  | story => exact hcalled _ _ nofun
  | popStory =>
    exact ⟨h.net, h.market, nofun, fun hr => absurd hr hrank, h.alertStop, h.journalStop,
      h.alertEmpty, h.journalEmpty, h.alerts, h.journal⟩
  | event => exact hcalled _ _ nofun
  | popEvent =>
    exact ⟨h.net, h.market, nofun, fun hr => absurd hr hrank, h.alertStop, h.journalStop,
      h.alertEmpty, h.journalEmpty, h.alerts, h.journal⟩
  | timer c p nextEval nextScan ht =>
    exact ⟨h.net, h.market, fun hp => absurd (ht.target.2.symm.trans hp) nofun,
      fun hr => absurd hr hrank, h.alertStop, h.journalStop, h.alertEmpty, h.journalEmpty, h.alerts,
      h.journal⟩
  | shutdown hat => exact hcalled _ _ fun _ => h.stopping (by rw [hat]; rfl)

theorem Ordered.main_move (h : Ordered s) {m : MainAt} (hm : m.rank = s.main.rank + 1)
    (hj : Joined s) : Ordered { s with main := m } where
  net hr := by
    rcases Nat.lt_or_ge s.main.rank 2 with hlt | hge
    · exact hj.net (by show s.main.rank = 1; dsimp only at hr; omega)
    · exact h.net hge
  market hr := by
    rcases Nat.lt_or_ge s.main.rank 3 with hlt | hge
    · exact hj.market (by dsimp only at hr; omega)
    · exact h.market hge
  stopping hp := by
    have := h.stopping hp
    dsimp only
    omega
  engine hr := by
    rcases Nat.lt_or_ge s.main.rank 5 with hlt | hge
    · exact hj.engine (by dsimp only at hr; omega)
    · exact h.engine hge
  alertStop hp := by
    have := h.alertStop hp
    dsimp only
    omega
  journalStop hp := by
    have := h.journalStop hp
    dsimp only
    omega
  alertEmpty := h.alertEmpty
  journalEmpty := h.journalEmpty
  alerts hr := by
    rcases Nat.lt_or_ge s.main.rank 7 with hlt | hge
    · exact hj.alerts (by dsimp only at hr; omega)
    · exact h.alerts hge
  journal hr := by
    rcases Nat.lt_or_ge s.main.rank 8 with hlt | hge
    · exact hj.journal (by dsimp only at hr; omega)
    · exact h.journal hge

theorem Ordered.step {a : Act F n} (h : Ordered s) (hr : Records s) (hs : step d s a = some s') :
    Ordered s' := by
  cases a with
  | publishNews ev | publishMarket ev =>
    obtain ⟨-, hs⟩ := Option.ite_none_left_eq_some.mp hs
    cases hs
    exact ⟨h.net, h.market, h.stopping, h.engine, h.alertStop, h.journalStop, h.alertEmpty,
      h.journalEmpty, h.alerts, h.journal⟩
  | netReturn =>
    obtain ⟨-, hs⟩ := Option.ite_none_right_eq_some.mp hs
    cases hs
    exact ⟨fun _ => rfl, h.market, h.stopping, h.engine, h.alertStop, h.journalStop, h.alertEmpty,
      h.journalEmpty, h.alerts, h.journal⟩
  | marketReturn =>
    cases hs
    exact ⟨h.net, fun _ => rfl, h.stopping, h.engine, h.alertStop, h.journalStop, h.alertEmpty,
      h.journalEmpty, h.alerts, h.journal⟩
  | engine i =>
    obtain ⟨-, hs⟩ := Option.ite_none_right_eq_some.mp hs
    refine h.engine_move (fun hdone => ?_) (engineStep_move hs)
    rw [engineStep, hdone] at hs
    cases hs
  | offerAlert =>
    simp only [Stokd.step] at hs
    split at hs <;> cases hs
    rename_i x rest hx
    refine ⟨h.net, h.market, h.stopping, h.engine, h.alertStop, h.journalStop, fun hdone => ?_,
      h.journalEmpty, h.alerts, h.journal⟩
    rw [(h.offered hr (h.alertStop (by rw [show s.alertAt = .done from hdone]; rfl))).1] at hx
    cases hx
  | offerJournal =>
    simp only [Stokd.step] at hs
    split at hs <;> cases hs
    rename_i x rest hx
    refine ⟨h.net, h.market, h.stopping, h.engine, h.alertStop, h.journalStop, h.alertEmpty,
      fun hdone => ?_, h.alerts, h.journal⟩
    rw [(h.offered hr (h.journalStop (by rw [show s.journalAt = .done from hdone]; rfl))).2] at hx
    cases hx
  | alerts =>
    obtain ⟨⟨p, b⟩, hnext, hs⟩ := Option.map_eq_some_iff.mp hs
    cases hs
    obtain ⟨hstop, hdone, hlive⟩ := sink_next hnext
    refine ⟨h.net, h.market, h.stopping, h.engine, fun hp => ?_, h.journalStop, fun hp => ?_,
      h.journalEmpty, fun hm => absurd (h.alerts hm) hlive, h.journal⟩
    · exact (hstop hp).elim h.alertStop of_decide_eq_true
    · obtain ⟨hempty, rfl⟩ := hdone hp
      exact List.isEmpty_iff.mp hempty
  | journal =>
    obtain ⟨⟨p, b⟩, hnext, hs⟩ := Option.map_eq_some_iff.mp hs
    cases hs
    obtain ⟨hstop, hdone, hlive⟩ := sink_next hnext
    refine ⟨h.net, h.market, h.stopping, h.engine, h.alertStop, fun hp => ?_, h.alertEmpty,
      fun hp => ?_, h.alerts, fun hm => absurd (h.journal hm) hlive⟩
    · exact (hstop hp).elim h.journalStop of_decide_eq_true
    · obtain ⟨hempty, rfl⟩ := hdone hp
      exact List.isEmpty_iff.mp hempty
  | main =>
    obtain ⟨m, rfl, hm, hj⟩ := mainStep_move hs
    exact h.main_move hm hj

/-! ## The runs of the daemon -/

structure Inv (s : State n d) : Prop where
  records : Records s
  intake : Intake s
  ordered : Ordered s

theorem Inv.step {a : Act F n} (h : Inv s) (hs : step d s a = some s') : Inv s' :=
  ⟨h.records.step hs, h.intake.step hs, h.ordered.step h.records hs⟩

theorem history_inv {past : List (State n d)} (h : History (step d) (init n d) s past) : Inv s :=
  h.invariant ⟨records_init n d, intake_init n d, ordered_init n d⟩ fun _ _ _ => Inv.step

/-- What the rings of a run have carried, whenever it is looked at. -/
structure Carried (s : State n d) : Prop where
  engine : s.engine = Engine.run d.env (.init d.env d.filings) s.calls
  popped : s.news.taken <+: s.calls.flatMap Call.stories
  stories : s.calls.flatMap Call.stories <+: s.news.accepted
  events : s.calls.flatMap Call.events <+: s.market.accepted.map (Sigma.mk n)
  alerts : s.alerts.offered <+: s.engine.alerts
  journal : s.journal.offered <+: s.engine.journal
  onDisk : (s.journal.taken.filterMap JournalRecord.story).Sublist s.news.accepted

/-- What a run has delivered when `main` is past its last join. -/
structure Delivered (s : State n d) : Prop where
  calls : Closing true s.calls
  handled : s.calls.flatMap Call.stories = s.news.taken
  alerts : s.alerts.taken.Sublist s.engine.alerts ∧
    s.engine.alerts.length = s.alerts.taken.length + s.alerts.refused
  journal : s.journal.taken.Sublist s.engine.journal ∧
    s.engine.journal.length = s.journal.taken.length + s.journal.refused
  onDisk : s.journal.refused = 0 → s.journal.taken.filterMap JournalRecord.story = s.news.taken

theorem Inv.journaled (h : Inv s) : s.engine.journaled = s.calls.flatMap Call.stories := by
  rw [h.records.engine, journaled_run]
  exact List.nil_append _

theorem Inv.stories_prefix (h : Inv s) : s.calls.flatMap Call.stories <+: s.news.accepted := by
  rw [h.intake.stories, Channel.accepted, List.prefix_append_right_inj]
  unfold heldStory
  split
  · exact List.take_prefix 1 _
  · exact List.nil_prefix

theorem Inv.events_prefix (h : Inv s) :
    s.calls.flatMap Call.events <+: s.market.accepted.map (Sigma.mk n) := by
  rw [h.intake.events]
  refine List.IsPrefix.map _ ?_
  rw [Channel.accepted, List.prefix_append_right_inj]
  unfold heldEvent
  split
  · exact List.take_prefix 1 _
  · exact List.nil_prefix

theorem Inv.carried (h : Inv s) : Carried s := by
  refine ⟨h.records.engine, ?_, h.stories_prefix, h.events_prefix, ?_, ?_, ?_⟩
  · rw [h.intake.stories]
    exact List.prefix_append _ _
  · rw [← h.records.alerts]
    exact List.prefix_append _ _
  · rw [← h.records.journal]
    exact List.prefix_append _ _
  · have htaken : s.journal.taken.Sublist s.engine.journal := by
      refine s.journal.taken_sublist.trans ?_
      rw [← h.records.journal]
      exact List.sublist_append_left _ _
    refine (htaken.filterMap _).trans ?_
    show s.engine.journaled.Sublist _
    rw [h.journaled]
    exact h.stories_prefix.sublist

/-- A ring that is empty at the end has delivered what it did not refuse. -/
theorem delivered_of_empty {α : Type} {cap : Nat} {c : Channel α cap} (h : c.items = []) :
    c.taken.Sublist c.offered ∧ c.offered.length = c.taken.length + c.refused ∧
      (c.refused = 0 → c.taken = c.offered) := by
  have hcount := c.account
  rw [h] at hcount
  refine ⟨c.taken_sublist, hcount, fun hr => ?_⟩
  rw [← Channel.accepted_eq hr, Channel.accepted, h, List.append_nil]

theorem Inv.delivered (h : Inv s) (hm : s.main = .finished) : Delivered s := by
  have hrank : 8 ≤ s.main.rank := by
    rw [hm]
    exact le_rfl
  have hengine := h.ordered.engine (by omega)
  obtain ⟨ha, hj⟩ := h.records.drained hengine
  have halerts := h.records.alerts
  have hjournal := h.records.journal
  rw [ha, List.append_nil] at halerts
  rw [hj, List.append_nil] at hjournal
  obtain ⟨ha₁, ha₂, -⟩ := delivered_of_empty (h.ordered.alertEmpty (h.ordered.alerts (by omega)))
  obtain ⟨hj₁, hj₂, hj₃⟩ := delivered_of_empty (h.ordered.journalEmpty (h.ordered.journal hrank))
  have hclosing := h.records.closing
  rw [hengine] at hclosing
  have hhandled := h.intake.stories
  rw [heldStory_of_ne (by rw [hengine]; nofun), List.append_nil] at hhandled
  refine ⟨hclosing, hhandled, ?_, ?_, fun hr => ?_⟩
  · rw [← halerts]
    exact ⟨ha₁, ha₂⟩
  · rw [← hjournal]
    exact ⟨hj₁, hj₂⟩
  · rw [hj₃ hr, hjournal, ← hhandled]
    exact h.journaled

/-- **What the daemon delivers, under every order of the steps of its threads.** Its engine is
that of a sequence of calls, which handle the stories and the market events that got into the
rings in their order, each once. What the engine offers goes out in order. When `main` is done,
`shutdown` was the last call, and the alerts and the journal on disk lack only what a full ring
refused. -/
theorem stokd_delivers (d : Setup F) (s : State n d) (past : List (State n d))
    (h : History (step d) (init n d) s past) : Carried s ∧ (s.main = .finished → Delivered s) :=
  ⟨(history_inv h).carried, (history_inv h).delivered⟩

/-- A daemon with room for one story. -/
def acmeDaemon : Setup ℚ :=
  { env := acmeEnv, filings := {}, evalIntervalNs := 250000000, moverScanMs := 1000
    newsQueue := 1, marketEventQueue := 2, alertQueue := 2, journalQueue := 2 }

/-- The second story finds the ring full; the signal comes while the first is in hand. -/
def twoStories : List (Act ℚ 0) :=
  let engine : Act ℚ 0 := .engine { mono := 0, wall := 0, hot := fun _ _ => {} }
  [.publishNews acmeEvent, .publishNews acmeEvent, engine, engine, engine, .journal, engine,
    .offerJournal, .main, engine, .netReturn, .main, .marketReturn, .main, engine, engine, engine,
    engine, engine, .main, engine, engine, engine, .main, .main, .alerts, .alerts, .journal, .journal,
    .journal, .main, .main]

theorem stokd_delivers_story : ∃ s past,
    replay (step acmeDaemon) (init 0 acmeDaemon) [] twoStories = some (s, past) ∧
    s.news.offered.length = 2 ∧ s.journal.taken.length = 1 ∧ Delivered s := by
  have hend : ((replay (step acmeDaemon) (init 0 acmeDaemon) [] twoStories).map fun p =>
      (p.1.main, p.1.news.offered.length, p.1.journal.taken.length)) = some (.finished, 2, 1) := by
    decide +kernel
  obtain ⟨⟨s, past⟩, hrun, hs⟩ := Option.map_eq_some_iff.mp hend
  obtain ⟨hmain, hs⟩ := Prod.mk.inj hs
  obtain ⟨hnews, hjournal⟩ := Prod.mk.inj hs
  exact ⟨s, past, hrun, hnews, hjournal,
    (stokd_delivers acmeDaemon s past (History.start.replay twoStories hrun)).2 hmain⟩

end Stokd

end Stok
