import Stok.Research.Backtest

/-!
# The rounds of the backtest driver

What a round of `advance` does: the grid is started, and skipped where the engine is idle (`ready`);
then the loop ends, or one call is due, and `Due` says which one and what it changes.
-/

namespace Stok.Backtest

open Lib (fuelLoop)

/-- The stories among the calls. -/
def stories {F : Type} (cs : List (Engine.Call F)) : List (NewsEvent F) :=
  cs.filterMap fun
    | .news ev _ _ => some ev
    | _ => none

/-- The messages of a log. -/
def messages {F M : Type} (log : List (Entry F M)) : List M :=
  log.filterMap fun
    | .call _ => none
    | .message m => some m

section

variable {F M : Type} {log log' : List (Entry F M)}

@[simp] theorem calls_append : calls (log ++ log') = calls log ++ calls log' := List.filterMap_append ..

@[simp] theorem calls_call (c : Engine.Call F) : calls [(.call c : Entry F M)] = [c] := rfl

@[simp] theorem calls_message (m : M) : calls [(.message m : Entry F M)] = [] := rfl

@[simp] theorem messages_append : messages (log ++ log') = messages log ++ messages log' :=
  List.filterMap_append ..

@[simp] theorem messages_call (c : Engine.Call F) : messages [(.call c : Entry F M)] = [] := rfl

@[simp] theorem messages_message (m : M) : messages [(.message m : Entry F M)] = [m] := rfl

@[simp] theorem stories_append (cs cs' : List (Engine.Call F)) :
    stories (cs ++ cs') = stories cs ++ stories cs' := List.filterMap_append ..

@[simp] theorem stories_news (ev : NewsEvent F) (now : UInt64) (hot : Engine.Hot) :
    stories [.news ev now hot] = [ev] := rfl

end

theorem toNat_min (a b : UInt64) : (min a b).toNat = min a.toNat b.toNat := by
  show (if a ≤ b then a else b).toNat = _
  split
  · rename_i h
    rw [UInt64.le_iff_toNat_le] at h
    omega
  · rename_i h
    rw [UInt64.le_iff_toNat_le] at h
    omega

theorem toNat_max (a b : UInt64) : (max a b).toNat = max a.toNat b.toNat := by
  show (if a ≤ b then b else a).toNat = _
  split
  · rename_i h
    rw [UInt64.le_iff_toNat_le] at h
    omega
  · rename_i h
    rw [UInt64.le_iff_toNat_le] at h
    omega

namespace DayRun

variable {F M : Type} [Dbl F] (s : Setup F) (r : DayRun F M)

/-! ## The state -/

@[simp] theorem drain_engine : r.drain.engine = r.engine := rfl
@[simp] theorem drain_ni : r.drain.ni = r.ni := rfl
@[simp] theorem drain_started : r.drain.started = r.started := rfl
@[simp] theorem drain_nextEval : r.drain.nextEval = r.nextEval := rfl
@[simp] theorem drain_nextScan : r.drain.nextScan = r.nextScan := rfl
@[simp] theorem drain_nextDue : r.drain.nextDue = r.nextDue := rfl
@[simp] theorem drain_log : r.drain.log = r.log := rfl

/-- The state in which a round looks for the next call. -/
def ready (skip : Bool) (t : UInt64) : DayRun F M :=
  if skip then (r.start s t).skipIdle s t else r.start s t

/-- Only the grid changes. -/
structure SameButGrid (r' : DayRun F M) : Prop where
  engine : r'.engine = r.engine
  written : r'.written = r.written
  res : r'.res = r.res
  ni : r'.ni = r.ni
  nextDue : r'.nextDue = r.nextDue
  log : r'.log = r.log

variable {s r} {skip : Bool} {hot : Engine.Hot} {t : UInt64} {r' : DayRun F M}

theorem nn_congr (h : r'.ni = r.ni) : r'.nn s = r.nn s := by rw [nn, nn, h]

theorem start_sameButGrid : SameButGrid r (r.start s t) := by
  unfold start
  split <;> exact ⟨rfl, rfl, rfl, rfl, rfl, rfl⟩

theorem skipIdle_sameButGrid : SameButGrid r (r.skipIdle s t) := by
  unfold skipIdle
  dsimp only
  split <;> exact ⟨rfl, rfl, rfl, rfl, rfl, rfl⟩

theorem ready_sameButGrid : SameButGrid r (r.ready s skip t) := by
  have h := start_sameButGrid (s := s) (r := r) (t := t)
  unfold ready
  split
  · have h' := skipIdle_sameButGrid (s := s) (r := r.start s t) (t := t)
    exact ⟨h'.engine.trans h.engine, h'.written.trans h.written, h'.res.trans h.res, h'.ni.trans h.ni,
      h'.nextDue.trans h.nextDue, h'.log.trans h.log⟩
  · exact h

theorem skipIdle_started : (r.skipIdle s t).started = r.started := by
  unfold skipIdle
  dsimp only
  split <;> rfl

theorem start_started : (r.start s t).started = true := by
  unfold start
  split
  · assumption
  · rfl

theorem ready_started : (r.ready s skip t).started = true := by
  unfold ready
  split
  · rw [skipIdle_started]
    exact start_started
  · exact start_started

theorem nn_ready : (r.ready s skip t).nn s = r.nn s := nn_congr ready_sameButGrid.ni

theorem nn_of_get {ev : NewsEvent F} (h : s.news[r.ni]? = some ev) : r.nn s = ev.recvNs := by
  rw [nn, h]
  rfl

theorem nn_of_none (h : s.news[r.ni]? = none) : r.nn s = 0xFFFFFFFFFFFFFFFF := by
  rw [nn, h]
  rfl

theorem next_toNat : (r.next s).toNat = if s.o.movers then
    min (min (r.nn s).toNat r.nextEval.toNat) r.nextScan.toNat else
    min (r.nn s).toNat r.nextEval.toNat := by
  unfold next
  dsimp only
  split
  · rw [toNat_min, toNat_min]
  · rw [toNat_min]

theorem next_le_nn : r.next s ≤ r.nn s := by
  rw [UInt64.le_iff_toNat_le, next_toNat]
  split <;> omega

theorem next_le_nextEval : r.next s ≤ r.nextEval := by
  rw [UInt64.le_iff_toNat_le, next_toNat]
  split <;> omega

theorem next_le_nextScan (h : s.o.movers = true) : r.next s ≤ r.nextScan := by
  rw [UInt64.le_iff_toNat_le, next_toNat, if_pos h]
  omega

theorem le_next {a : UInt64} (hnn : a ≤ r.nn s) (heval : a ≤ r.nextEval)
    (hscan : s.o.movers = true → a ≤ r.nextScan) : a ≤ r.next s := by
  simp only [UInt64.le_iff_toNat_le, next_toNat] at *
  split
  · have := hscan ‹_›
    omega
  · omega

/-! ## The call that is due -/

/-- A call that is due and what it leaves. -/
inductive Due (s : Setup F) (hot : Engine.Hot) (r : DayRun F M) : Engine.Call F → DayRun F M → Prop where
  | story (ev : NewsEvent F) (hev : s.news[r.ni]? = some ev) (hnext : r.next s = ev.recvNs) :
      Due s hot r (.news ev ev.recvNs hot)
        { r.make s (.news ev ev.recvNs hot) with ni := r.ni + 1, res.news := r.res.news + 1 }.drain
  | evaluate (hnext : r.next s = r.nextEval) (hstory : r.next s ≠ r.nn s) :
      Due s hot r (.evaluate r.nextEval hot)
        { r.make s (.evaluate r.nextEval hot) with nextEval := r.nextEval + s.o.evalIntervalNs }.drain
  | scan (hmovers : s.o.movers = true) (hnext : r.next s = r.nextScan) (hstory : r.next s ≠ r.nn s)
      (heval : r.next s ≠ r.nextEval) :
      Due s hot r (.scanMovers r.nextScan hot)
        { r.make s (.scanMovers r.nextScan hot) with nextScan := r.nextScan + kNsPerSec }.drain

theorem next_scan (hstory : r.next s ≠ r.nn s) (heval : r.next s ≠ r.nextEval) :
    s.o.movers = true ∧ r.next s = r.nextScan := by
  have hnext := next_toNat (s := s) (r := r)
  simp only [ne_eq, ← UInt64.toNat_inj] at *
  split at hnext
  · exact ⟨‹_›, by omega⟩
  · omega

theorem callNext_due (h : r.callNext s hot = some r') : ∃ c, Due s hot r c r' := by
  unfold callNext at h
  split at h
  · rename_i hnn
    split at h
    · cases h
    · rename_i ev hev
      have hrecv := nn_of_get hev
      cases h
      rw [hrecv] at hnn ⊢
      exact ⟨_, .story ev hev hnn⟩
  · rename_i hstory
    split at h
    · rename_i heq
      cases h
      exact ⟨_, .evaluate heq hstory⟩
    · rename_i heval
      obtain ⟨hm, hscan⟩ := next_scan hstory heval
      cases h
      exact ⟨_, .scan hm hscan hstory heval⟩

theorem Due.now {c : Engine.Call F} (h : Due s hot r c r') : c.now = r.next s := by
  cases h with
  | story ev hev hnext => exact hnext.symm
  | evaluate hnext hstory => exact hnext.symm
  | scan hmovers hnext hstory heval => exact hnext.symm

theorem Due.log {c : Engine.Call F} (h : Due s hot r c r') : r'.log = r.log ++ [.call c] := by
  cases h <;> rfl

theorem Due.engine {c : Engine.Call F} (h : Due s hot r c r') :
    r'.engine = Engine.call s.env r.engine c := by
  cases h <;> rfl

theorem Due.nextDue {c : Engine.Call F} (h : Due s hot r c r') : r'.nextDue = r.nextDue := by
  cases h <;> rfl

/-- A round that goes on makes the call that is due, at or before the time; the last one finds that
none is. -/
theorem round_cases {go : Bool} (h : r.round s skip hot t = some (r', go)) :
    go = true ∧ (r.ready s skip t).next s ≤ t ∧ (∃ c, Due s hot (r.ready s skip t) c r') ∨
      go = false ∧ t < (r.ready s skip t).next s ∧
        r' = { r.ready s skip t with nextDue := (r.ready s skip t).next s } := by
  have h' : (if t < (r.ready s skip t).next s then
      some ({ r.ready s skip t with nextDue := (r.ready s skip t).next s }, false)
      else ((r.ready s skip t).callNext s hot).map fun r => (r, true)) = some (r', go) := h
  clear h
  rename' h' => h
  split at h
  · rename_i hlt
    cases h
    exact .inr ⟨rfl, hlt, rfl⟩
  · rename_i hle
    obtain ⟨r₁, hr₁, heq⟩ := Option.map_eq_some_iff.mp h
    cases heq
    exact .inl ⟨rfl, UInt64.not_lt.mp hle, callNext_due hr₁⟩

/-- The rounds of `advance`: what every call that is due preserves holds when it returns, with nothing
due at or before the time. -/
theorem advance_induct {fuel : Nat} {P : DayRun F M → Prop}
    (hready : ∀ r : DayRun F M, P r → P (r.ready s skip t))
    (hdue : ∀ (r : DayRun F M) c r', P (r.ready s skip t) → (r.ready s skip t).next s ≤ t →
      Due s hot (r.ready s skip t) c r' → P r')
    (hr : P r) (h : r.advanceWith s skip fuel hot t = some r') :
    r' = r ∧ t < r.nextDue ∨
      ∃ r₁, P r₁ ∧ r₁.started = true ∧ t < r₁.next s ∧ r' = { r₁ with nextDue := r₁.next s } := by
  unfold advanceWith at h
  split at h
  · rename_i hlt
    cases h
    exact .inl ⟨rfl, hlt⟩
  · right
    refine Lib.FuelLoop.invariant (P := P)
      (Q := fun r' => ∃ r₁, P r₁ ∧ r₁.started = true ∧ t < r₁.next s ∧
        r' = { r₁ with nextDue := r₁.next s }) ?_ ?_ hr h
    · intro r r' hr hround
      rcases round_cases hround with ⟨-, hle, c, hd⟩ | ⟨hf, -⟩
      · exact hdue r c r' (hready r hr) hle hd
      · cases hf
    · intro r r' hr hround
      rcases round_cases hround with ⟨ht, -⟩ | ⟨-, hlt, rfl⟩
      · cases ht
      · exact ⟨_, hready r hr, ready_started, hlt, rfl⟩

end DayRun

/-! ## The messages of a day -/

section

variable {F M S : Type} [Dbl F] {n : Nat} {s : Setup F} {feed : Feed M S n} {skip : Bool} {fuel : Nat}
  {sim sim' : Sim F M S} {ms : List M}

/-- The times that messages advance the clock to. -/
def ticks (feed : Feed M S n) (ms : List M) : List UInt64 := ms.filterMap feed.tick

/-- The time at which a day is finished, `first` being that of a day without messages. -/
def lastTime (feed : Feed M S n) (first cutoff : UInt64) (ms : List M) : UInt64 :=
  max ((ticks feed ms).getLastD first) cutoff

/-- What every message preserves holds of the messages so far. -/
theorem play_induct {P : List M → Sim F M S → Prop}
    (hstep : ∀ pre m post sim sim', ms = pre ++ m :: post → P pre sim →
      onMessage s feed skip fuel sim m = some sim' → P (pre ++ [m]) sim')
    (h : play s feed skip fuel ms sim = some sim') (hsim : P [] sim) : P ms sim' := by
  have hgo : ∀ rest pre (sim : Sim F M S), ms = pre ++ rest → P pre sim →
      play s feed skip fuel rest sim = some sim' → P ms sim' := by
    intro rest
    induction rest with
    | nil =>
      intro pre sim hms hP h
      cases h
      rwa [hms, List.append_nil]
    | cons m rest ih =>
      intro pre sim hms hP h
      rw [play, List.foldlM_cons] at h
      obtain ⟨sim₁, h₁, hrest⟩ := Option.bind_eq_some_iff.mp h
      refine ih (pre ++ [m]) sim₁ ?_ (hstep pre m rest sim sim₁ hms hP h₁) hrest
      rw [hms, List.append_assoc, List.singleton_append]
  exact hgo ms [] sim rfl hsim h

/-- A property of the driver, by the times it has advanced to, that the pieces of a day preserve. -/
structure Preserved (s : Setup F) (skip : Bool) (fuel : Nat) (I : List UInt64 → DayRun F M → Prop) :
    Prop where
  advance : ∀ ts r hot t r', I ts r → DayRun.advanceWith s skip fuel hot t r = some r' → I (ts ++ [t]) r'
  message : ∀ ts r m, I ts r → I ts { r with log := r.log ++ [.message m] }
  /-- Market events and the shutdown. -/
  other : ∀ ts r c, I ts r → stories [c] = [] → I ts (r.make s c)
  drain : ∀ ts r, I ts r → I ts r.drain
  due : ∀ ts r, I ts r → I ts { r with nextDue := 0 }

variable {I : List UInt64 → DayRun F M → Prop}

theorem Preserved.marketEvents {k : Nat} (hI : Preserved s skip fuel I) {ts : List UInt64} {r : DayRun F M}
    (h : I ts r) (hot : Engine.Hot) (evs : List (MarketEvent k)) (t : UInt64) :
    I ts (r.marketEvents s hot evs t) := by
  refine hI.drain ts _ ?_
  induction evs generalizing r with
  | nil => exact h
  | cons ev evs ih => exact ih (hI.other ts r _ h rfl)

theorem Preserved.onMessage (hI : Preserved s skip fuel I) {ts : List UInt64} {m : M} (h : I ts sim.run)
    (hm : onMessage s feed skip fuel sim m = some sim') : I (ts ++ (feed.tick m).toList) sim'.run := by
  unfold Backtest.onMessage at hm
  split at hm
  · rename_i hnone
    cases hm
    rw [hnone, Option.toList_none, List.append_nil]
    exact hI.message ts _ m h
  · rename_i t ht
    obtain ⟨r, hr, rfl⟩ := Option.map_eq_some_iff.mp hm
    rw [ht, Option.toList_some]
    have hadv := hI.message _ _ m (hI.advance ts _ _ t r h hr)
    dsimp only
    split
    · exact hadv
    · exact hI.marketEvents hadv _ _ t

theorem onMessage_last {m : M} (hm : onMessage s feed skip fuel sim m = some sim') :
    sim'.last = (feed.tick m).getD sim.last ∧ sim'.market = (feed.apply sim.market m).1 := by
  unfold onMessage at hm
  split at hm
  · rename_i hnone
    cases hm
    rw [hnone]
    exact ⟨rfl, rfl⟩
  · rename_i t ht
    obtain ⟨r, hr, rfl⟩ := Option.map_eq_some_iff.mp hm
    rw [ht]
    exact ⟨rfl, rfl⟩

theorem ticks_concat (feed : Feed M S n) (ms : List M) (m : M) :
    ticks feed (ms ++ [m]) = ticks feed ms ++ (feed.tick m).toList := by
  rw [ticks, List.filterMap_append]
  cases h : feed.tick m with
  | none => rw [List.filterMap_cons_none h]; rfl
  | some t => rw [List.filterMap_cons_some h]; rfl

/-- After the messages: what is preserved, the clock and the market. -/
theorem Preserved.play (hI : Preserved s skip fuel I) (h : I [] sim.run)
    (hms : Backtest.play s feed skip fuel ms sim = some sim') :
    I (ticks feed ms) sim'.run ∧ sim'.last = (ticks feed ms).getLastD sim.last ∧
      sim'.market = ms.foldl (fun m x => (feed.apply m x).1) sim.market := by
  refine play_induct (P := fun ms sim' => I (ticks feed ms) sim'.run ∧
    sim'.last = (ticks feed ms).getLastD sim.last ∧
    sim'.market = ms.foldl (fun m x => (feed.apply m x).1) sim.market) ?_ hms ⟨h, rfl, rfl⟩
  rintro pre m - sim₁ sim₂ - ⟨hrun, hlast, hmarket⟩ hm
  obtain ⟨hlast', hmarket'⟩ := onMessage_last hm
  rw [ticks_concat, List.foldl_concat]
  refine ⟨hI.onMessage hrun hm, ?_, by rw [hmarket', hmarket]⟩
  rw [hlast', hlast]
  cases feed.tick m with
  | none => rw [Option.toList_none, List.append_nil]; rfl
  | some t => rw [Option.toList_some, List.getLastD_concat]; rfl

theorem Preserved.finish (hI : Preserved s skip fuel I) {ts : List UInt64} {r r' : DayRun F M} (h : I ts r)
    {hot : Engine.Hot} {t : UInt64} (hr : r.finishWith s skip fuel hot t = some r') : I (ts ++ [t]) r' := by
  obtain ⟨r₁, hr₁, rfl⟩ := Option.map_eq_some_iff.mp hr
  exact hI.drain _ _ (hI.other _ _ _ (hI.advance ts _ _ t r₁ (hI.due ts r h) hr₁) rfl)

/-- After the day. -/
theorem Preserved.replay (hI : Preserved s skip fuel I) (h : I [] sim.run) {cutoff : UInt64} {r : DayRun F M}
    (hr : Backtest.replay s feed skip fuel cutoff ms sim = some r) :
    I (ticks feed ms ++ [lastTime feed sim.last cutoff ms]) r := by
  obtain ⟨sim₁, hplay, hfin⟩ := Option.bind_eq_some_iff.mp hr
  obtain ⟨hrun, hlast, -⟩ := hI.play h hplay
  have := hI.finish hrun hfin
  rwa [hlast] at this

end

end Stok.Backtest
