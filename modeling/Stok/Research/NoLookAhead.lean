import Stok.Research.StoriesReplayed

/-!
# The simulated clock of the backtest

A replay whose stories and messages come in order never looks ahead: its calls are in order of time,
and one at the time `t` is made after every message that ticks before `t` and before every one that
ticks at `t` or later, with the board as those messages left it (`Seen`). The clock must not come within an
interval of the grid of its end, where the sum that moves the grid wraps around.
-/

namespace Stok.Backtest

open Lib (fuelLoop)

namespace DayRun

variable {F M : Type} [Dbl F] {s : Setup F} {r r' : DayRun F M} {skip : Bool} {hot : Engine.Hot} {t : UInt64}

/-! ## The grid -/

theorem skipIdle_nextEval (h : r.engine.idle ∧ r.nextEval < min (r.nn s) t) :
    (r.skipIdle s t).nextEval.toNat = r.nextEval.toNat +
      ((min (r.nn s) t).toNat - r.nextEval.toNat) / s.o.evalIntervalNs.toNat * s.o.evalIntervalNs.toNat := by
  have hlt := UInt64.lt_iff_toNat_lt.mp h.2
  have hle := Nat.div_mul_le_self ((min (r.nn s) t).toNat - r.nextEval.toNat) s.o.evalIntervalNs.toNat
  have hb := (min (r.nn s) t).toNat_lt
  have hsub : (min (r.nn s) t - r.nextEval).toNat = (min (r.nn s) t).toNat - r.nextEval.toNat :=
    UInt64.toNat_sub_of_le _ _ (UInt64.le_of_lt h.2)
  unfold skipIdle
  rw [if_pos h, UInt64.toNat_add, UInt64.toNat_mul, UInt64.toNat_div, hsub, Nat.mod_eq_of_lt (by omega),
    Nat.mod_eq_of_lt (by omega)]

theorem skipIdle_nextScan : (r.skipIdle s t).nextScan = r.nextScan := by
  unfold skipIdle
  dsimp only
  split <;> rfl

/-- The grid moves forward, and not past the next story nor the time. -/
theorem skipIdle_bounds : r.nextEval ≤ (r.skipIdle s t).nextEval ∧
    ((r.skipIdle s t).nextEval = r.nextEval ∨ (r.skipIdle s t).nextEval ≤ min (r.nn s) t) := by
  by_cases h : r.engine.idle ∧ r.nextEval < min (r.nn s) t
  · have heq := skipIdle_nextEval h
    have hlt := UInt64.lt_iff_toNat_lt.mp h.2
    have hle := Nat.div_mul_le_self ((min (r.nn s) t).toNat - r.nextEval.toNat) s.o.evalIntervalNs.toNat
    simp only [UInt64.le_iff_toNat_le, heq]
    exact ⟨by omega, .inr (by omega)⟩
  · have heq : r.skipIdle s t = r := by
      unfold skipIdle
      exact if_neg h
    rw [heq]
    exact ⟨UInt64.le_refl _, .inl rfl⟩

theorem start_of_started (h : r.started = true) : r.start s t = r := by
  unfold start
  rw [if_pos h]

/-- Getting ready moves a grid that is started forward, and nothing else. -/
theorem ready_bounds (h : r.started = true) :
    r.nextEval ≤ (r.ready s skip t).nextEval ∧ (r.ready s skip t).nextScan = r.nextScan := by
  unfold ready
  rw [start_of_started h]
  split
  · exact ⟨skipIdle_bounds.1, skipIdle_nextScan⟩
  · exact ⟨UInt64.le_refl _, rfl⟩

theorem next_le_ready (h : r.started = true) : r.next s ≤ (r.ready s skip t).next s := by
  obtain ⟨heval, hscan⟩ := ready_bounds (s := s) (t := t) h
  refine le_next ?_ (UInt64.le_trans next_le_nextEval heval) fun hm => ?_
  · rw [nn_ready]
    exact next_le_nn
  · rw [hscan]
    exact next_le_nextScan hm

theorem Due.started {c : Engine.Call F} (h : Due s hot r c r') : r'.started = r.started := by
  cases h <;> rfl

/-- The stories come in order of arrival. -/
def Sorted (news : List (NewsEvent F)) : Prop := news.Pairwise fun a b => a.recvNs ≤ b.recvNs

/-- The clock is not within an interval of its end. -/
def NoWrap (s : Setup F) (t : UInt64) : Prop :=
  t.toNat + max s.o.evalIntervalNs.toNat kNsPerSec.toNat < 2 ^ 64

theorem toNat_add_le {a b t : UInt64} {k : Nat} (hab : a ≤ t) (h : t.toNat + k < 2 ^ 64) (hb : b.toNat ≤ k) :
    (a + b).toNat = a.toNat + b.toNat := by
  rw [UInt64.le_iff_toNat_le] at hab
  rw [UInt64.toNat_add, Nat.mod_eq_of_lt (by omega)]

/-- Time does not go back. -/
theorem Due.next_le {c : Engine.Call F} (h : Due s hot r c r') (hnews : Sorted s.news) (hwrap : NoWrap s t)
    (hle : r.next s ≤ t) : r.next s ≤ r'.next s := by
  cases h with
  | story ev hev hnext =>
    refine le_next ?_ next_le_nextEval next_le_nextScan
    rw [hnext]
    show ev.recvNs ≤ ((s.news[r.ni + 1]?).elim 0xFFFFFFFFFFFFFFFF (·.recvNs))
    cases hnew : s.news[r.ni + 1]? with
    | none => exact UInt64.le_iff_toNat_le.mpr (by have := ev.recvNs.toNat_lt; simpa using Nat.le_pred_of_lt this)
    | some ev' =>
      obtain ⟨hi, rfl⟩ := List.getElem?_eq_some_iff.mp hev
      obtain ⟨hj, rfl⟩ := List.getElem?_eq_some_iff.mp hnew
      exact List.pairwise_iff_getElem.mp hnews _ _ hi hj (Nat.lt_succ_self _)
  | evaluate hnext hstory =>
    refine le_next next_le_nn ?_ next_le_nextScan
    have hadd := toNat_add_le (hnext ▸ hle) hwrap (Nat.le_max_left _ _)
    rw [hnext, UInt64.le_iff_toNat_le]
    show r.nextEval.toNat ≤ (r.nextEval + s.o.evalIntervalNs).toNat
    rw [hadd]
    exact Nat.le_add_right _ _
  | scan hmovers hnext hstory heval =>
    refine le_next next_le_nn next_le_nextEval fun _ => ?_
    have hadd := toNat_add_le (hnext ▸ hle) hwrap (Nat.le_max_right _ _)
    rw [hnext, UInt64.le_iff_toNat_le]
    show r.nextScan.toNat ≤ (r.nextScan + kNsPerSec).toNat
    rw [hadd]
    exact Nat.le_add_right _ _

/-! ## Termination -/

/-- What is left to be done up to the time. -/
def left (s : Setup F) (t : UInt64) (r : DayRun F M) : Nat :=
  (s.news.length - r.ni) + (t.toNat + 1 - r.nextEval.toNat) + (t.toNat + 1 - r.nextScan.toNat)

theorem left_ready (h : r.started = true) : left s t (r.ready s skip t) ≤ left s t r := by
  obtain ⟨heval, hscan⟩ := ready_bounds (s := s) (t := t) h
  rw [UInt64.le_iff_toNat_le] at heval
  unfold left
  rw [ready_sameButGrid.ni, hscan]
  omega

theorem Due.left_lt {c : Engine.Call F} (h : Due s hot r c r') (hI : 0 < s.o.evalIntervalNs)
    (hwrap : NoWrap s t) (hle : r.next s ≤ t) : left s t r' < left s t r := by
  have hI' := UInt64.lt_iff_toNat_lt.mp hI
  cases h with
  | story ev hev hnext =>
    have hi := (List.getElem?_eq_some_iff.mp hev).1
    show s.news.length - (r.ni + 1) + (t.toNat + 1 - r.nextEval.toNat) + (t.toNat + 1 - r.nextScan.toNat) < _
    unfold left
    omega
  | evaluate hnext hstory =>
    have hadd := toNat_add_le (hnext ▸ hle) hwrap (Nat.le_max_left _ _)
    rw [hnext, UInt64.le_iff_toNat_le] at hle
    show s.news.length - r.ni + (t.toNat + 1 - (r.nextEval + s.o.evalIntervalNs).toNat) +
      (t.toNat + 1 - r.nextScan.toNat) < _
    unfold left
    rw [hadd]
    simp only [UInt64.toNat_zero] at hI'
    omega
  | scan hmovers hnext hstory heval =>
    have hadd := toNat_add_le (hnext ▸ hle) hwrap (Nat.le_max_right _ _)
    have hsec : kNsPerSec.toNat = 1000000000 := rfl
    rw [hnext, UInt64.le_iff_toNat_le] at hle
    show s.news.length - r.ni + (t.toNat + 1 - r.nextEval.toNat) +
      (t.toNat + 1 - (r.nextScan + kNsPerSec).toNat) < _
    unfold left
    rw [hadd]
    omega

/-- A call that is due has a meaning before the end of the clock. -/
theorem callNext_isSome (hwrap : NoWrap s t) (hle : r.next s ≤ t) : ∃ r', r.callNext s hot = some r' := by
  unfold callNext
  split
  · rename_i hnn
    split
    · rename_i hnone
      rw [hnn, nn_of_none hnone, UInt64.le_iff_toNat_le] at hle
      have hend : (0xFFFFFFFFFFFFFFFF : UInt64).toNat = 2 ^ 64 - 1 := rfl
      have hpos : 0 < kNsPerSec.toNat := by decide
      unfold NoWrap at hwrap
      omega
    · exact ⟨_, rfl⟩
  · split <;> exact ⟨_, rfl⟩

/-- Fuel that is enough for every advance. -/
def plenty (s : Setup F) : Nat := s.news.length + 2 ^ 65

theorem advance_returns (hI : 0 < s.o.evalIntervalNs) (hwrap : NoWrap s t) {fuel : Nat}
    (hfuel : plenty s < fuel) (r : DayRun F M) : ∃ r', r.advanceWith s skip fuel hot t = some r' := by
  unfold advanceWith
  split
  · exact ⟨r, rfl⟩
  · refine Lib.FuelLoop.total (P := fun _ => True) (fun r => left s t (r.ready s skip t)) ?_ trivial ?_
    · intro r _
      have hround : r.round s skip hot t = if t < (r.ready s skip t).next s then
          some ({ r.ready s skip t with nextDue := (r.ready s skip t).next s }, false)
          else ((r.ready s skip t).callNext s hot).map fun r => (r, true) := rfl
      rw [hround]
      split
      · exact ⟨_, false, rfl, nofun⟩
      · rename_i hle
        obtain ⟨r', hr'⟩ := callNext_isSome hwrap (UInt64.not_lt.mp hle)
        obtain ⟨c, hd⟩ := callNext_due hr'
        refine ⟨r', true, by rw [hr']; rfl, fun _ => ⟨trivial, ?_⟩⟩
        have hst : r'.started = true := hd.started.trans ready_started
        exact (left_ready hst).trans_lt (hd.left_lt hI hwrap (UInt64.not_lt.mp hle))
    · have := t.toNat_lt
      unfold left plenty at *
      omega

end DayRun

/-! ## The log -/

section

variable {F M S : Type} [Dbl F] {n : Nat} {s : Setup F} {feed : Feed M S n} {m₀ : S}
  {log : List (Entry F M)} {ms : List M} {r r' : DayRun F M} {hot : Engine.Hot} {t : UInt64}

/-- A call that the driver schedules, and no message leads to. -/
def scheduled {F : Type} : Engine.Call F → Bool
  | .news .. | .evaluate .. | .scanMovers .. => true
  | .market .. | .shutdown .. => false

/-- The market after messages. -/
def after (feed : Feed M S n) (ms : List M) (m₀ : S) : S := ms.foldl (fun m x => (feed.apply m x).1) m₀

/-- Every scheduled call of the log was made after the messages that tick before it, with the board as
they left it, and before those that tick at its time or later. -/
def Seen (feed : Feed M S n) (m₀ : S) (log : List (Entry F M)) : Prop :=
  ∀ before c rest, log = before ++ .call c :: rest → scheduled c = true →
    c.hot = hotOf (feed.board (after feed (messages before) m₀)) ∧
      (∀ t ∈ ticks feed (messages before), t < c.now) ∧ ∀ t ∈ ticks feed (messages rest), c.now ≤ t

/-- A place in a list with one more element is a place in the list, or the last one. -/
theorem split_concat {α : Type} {l before rest : List α} {x y : α}
    (h : l ++ [x] = before ++ y :: rest) :
    (rest = [] ∧ before = l ∧ y = x) ∨ ∃ rest', rest = rest' ++ [x] ∧ l = before ++ y :: rest' := by
  rcases List.eq_nil_or_concat rest with rfl | ⟨rest', z, rfl⟩
  · obtain ⟨hl, hx⟩ := List.append_inj' h rfl
    exact .inl ⟨rfl, hl.symm, (List.singleton_inj.mp hx).symm⟩
  · rw [List.concat_eq_append] at h ⊢
    rw [← List.cons_append, ← List.append_assoc] at h
    obtain ⟨hl, hx⟩ := List.append_inj' h rfl
    exact .inr ⟨rest', by rw [List.singleton_inj.mp hx], hl⟩

omit [Dbl F] in
theorem Seen.call (h : Seen feed m₀ log) {c : Engine.Call F}
    (hc : scheduled c = true → c.hot = hotOf (feed.board (after feed (messages log) m₀)) ∧
      ∀ t ∈ ticks feed (messages log), t < c.now) : Seen feed m₀ (log ++ [.call c]) := by
  intro before c' rest hsplit hs
  rcases split_concat hsplit with ⟨rfl, rfl, heq⟩ | ⟨rest', rfl, hlog⟩
  · cases heq
    exact ⟨(hc hs).1, (hc hs).2, fun t ht => absurd ht List.not_mem_nil⟩
  · obtain ⟨hhot, hbefore, hrest⟩ := h before c' rest' hlog hs
    refine ⟨hhot, hbefore, fun t ht => hrest t ?_⟩
    rwa [messages_append, messages_call, List.append_nil] at ht

omit [Dbl F] in
theorem Seen.message (h : Seen feed m₀ log) {m : M}
    (hm : ∀ t, feed.tick m = some t → ∀ c ∈ calls log, c.now ≤ t) :
    Seen feed m₀ (log ++ [.message m]) := by
  intro before c rest hsplit hs
  rcases split_concat hsplit with ⟨-, -, heq⟩ | ⟨rest', rfl, hlog⟩
  · cases heq
  · obtain ⟨hhot, hbefore, hrest⟩ := h before c rest' hlog hs
    refine ⟨hhot, hbefore, fun t ht => ?_⟩
    rw [messages_append, messages_message, ticks_concat] at ht
    rcases List.mem_append.mp ht with ht | ht
    · exact hrest t ht
    · refine hm t (Option.mem_toList.mp ht) c ?_
      rw [hlog]
      exact List.mem_filterMap.mpr ⟨.call c, List.mem_append_right _ List.mem_cons_self, rfl⟩

/-! ## The clock -/

/-- The driver after the messages `ms`: its calls are in order and within the limit, and nothing that is
due comes before a call or a message. -/
structure Clocked (s : Setup F) (feed : Feed M S n) (m₀ : S) (ms : List M) (within : UInt64 → Prop)
    (r : DayRun F M) : Prop where
  applied : messages r.log = ms
  ordered : ((calls r.log).map (·.now)).Pairwise (· ≤ ·)
  reached : ∀ c ∈ calls r.log, within c.now
  arrival : ∀ ev now hot, .news ev now hot ∈ calls r.log → now = ev.recvNs
  seen : Seen feed m₀ r.log
  idle : r.started = false → ticks feed ms = [] ∧ calls r.log = [] ∧ r.nextDue = 0
  ahead : r.started = true → (∀ c ∈ calls r.log, c.now ≤ r.next s) ∧ ∀ t ∈ ticks feed ms, t < r.next s

variable {within within' : UInt64 → Prop}

theorem Clocked.mono (h : Clocked s feed m₀ ms within r) (hw : ∀ c ∈ calls r.log, within' c.now) :
    Clocked s feed m₀ ms within' r := { h with reached := hw }

theorem Clocked.congr (h : Clocked s feed m₀ ms within r) (hlog : r'.log = r.log)
    (hst : r'.started = r.started) (hdue : r'.started = false → r'.nextDue = 0)
    (hnext : r'.next s = r.next s) : Clocked s feed m₀ ms within r' where
  applied := by rw [hlog, h.applied]
  ordered := by
    rw [hlog]
    exact h.ordered
  reached := by
    rw [hlog]
    exact h.reached
  arrival := by
    rw [hlog]
    exact h.arrival
  seen := by
    rw [hlog]
    exact h.seen
  idle hf := by
    rw [hlog]
    exact ⟨(h.idle (hst ▸ hf)).1, (h.idle (hst ▸ hf)).2.1, hdue hf⟩
  ahead ht := by
    rw [hlog, hnext]
    exact h.ahead (hst ▸ ht)

theorem Clocked.ready {skip : Bool} (h : Clocked s feed m₀ ms within r) :
    Clocked s feed m₀ ms within (r.ready s skip t) where
  applied := by rw [DayRun.ready_sameButGrid.log, h.applied]
  ordered := by
    rw [DayRun.ready_sameButGrid.log]
    exact h.ordered
  reached := by
    rw [DayRun.ready_sameButGrid.log]
    exact h.reached
  arrival := by
    rw [DayRun.ready_sameButGrid.log]
    exact h.arrival
  seen := by
    rw [DayRun.ready_sameButGrid.log]
    exact h.seen
  idle hf := by
    rw [DayRun.ready_started] at hf
    cases hf
  ahead _ := by
    rw [DayRun.ready_sameButGrid.log]
    cases hst : r.started with
    | true =>
      have hle : r.next s ≤ (r.ready s skip t).next s := DayRun.next_le_ready hst
      obtain ⟨hcalls, hticks⟩ := h.ahead hst
      exact ⟨fun c hc => UInt64.le_trans (hcalls c hc) hle,
        fun t' ht' => UInt64.lt_of_lt_of_le (hticks t' ht') hle⟩
    | false =>
      obtain ⟨hticks, hcalls, -⟩ := h.idle hst
      rw [hticks, hcalls]
      exact ⟨fun _ hc => absurd hc List.not_mem_nil, fun _ ht => absurd ht List.not_mem_nil⟩

/-- A call is made no earlier than those before it, and time goes on from there. -/
theorem Clocked.make (h : Clocked s feed m₀ ms within r) (hst : r.started = true) {c : Engine.Call F}
    (hlog : r'.log = r.log ++ [.call c]) (hst' : r'.started = true) (hnext : r.next s ≤ r'.next s)
    (hle : ∀ c' ∈ calls r.log, c'.now ≤ c.now) (hcn : c.now ≤ r'.next s) (hw : within c.now)
    (harr : ∀ ev now hot, c = .news ev now hot → now = ev.recvNs)
    (hseen : scheduled c = true → c.hot = hotOf (feed.board (after feed ms m₀)) ∧
      ∀ t ∈ ticks feed ms, t < c.now) : Clocked s feed m₀ ms within r' where
  applied := by rw [hlog, messages_append, h.applied, messages_call, List.append_nil]
  ordered := by
    rw [hlog, calls_append, calls_call, List.map_append, List.pairwise_append]
    refine ⟨h.ordered, List.pairwise_singleton _ _, fun a ha b hb => ?_⟩
    obtain ⟨c', hc', rfl⟩ := List.mem_map.mp ha
    rw [List.mem_singleton.mp hb]
    exact hle c' hc'
  reached c' hc' := by
    rw [hlog, calls_append, calls_call] at hc'
    rcases List.mem_append.mp hc' with hc' | hc'
    · exact h.reached c' hc'
    · rwa [List.mem_singleton.mp hc']
  arrival ev now hot hc' := by
    rw [hlog, calls_append, calls_call] at hc'
    rcases List.mem_append.mp hc' with hc' | hc'
    · exact h.arrival ev now hot hc'
    · exact harr ev now hot (List.mem_singleton.mp hc').symm
  seen := by
    rw [hlog]
    refine h.seen.call ?_
    rw [h.applied]
    exact hseen
  idle hf := by
    rw [hst'] at hf
    cases hf
  ahead _ := by
    obtain ⟨hcalls, hticks⟩ := h.ahead hst
    rw [hlog, calls_append, calls_call]
    refine ⟨fun c' hc' => ?_, fun t ht => UInt64.lt_of_lt_of_le (hticks t ht) hnext⟩
    rcases List.mem_append.mp hc' with hc' | hc'
    · exact UInt64.le_trans (hcalls c' hc') hnext
    · rwa [List.mem_singleton.mp hc']

theorem Clocked.due {c : Engine.Call F} (h : Clocked s feed m₀ ms (· ≤ t) r) (hst : r.started = true)
    (hnews : DayRun.Sorted s.news) (hwrap : DayRun.NoWrap s t)
    (hd : DayRun.Due s (hotOf (feed.board (after feed ms m₀))) r c r') (hle : r.next s ≤ t) :
    Clocked s feed m₀ ms (· ≤ t) r' := by
  obtain ⟨hcalls, hticks⟩ := h.ahead hst
  have hmono := hd.next_le hnews hwrap hle
  have hnow := hd.now
  refine h.make hst hd.log (hd.started.trans hst) hmono ?_ ?_ ?_ ?_ ?_
  · rwa [hnow]
  · rwa [hnow]
  · rwa [hnow]
  · intro ev now hot hc
    subst hc
    cases hd
    rfl
  · rw [hnow]
    intro _
    refine ⟨?_, hticks⟩
    cases hd <;> rfl

/-- Between two messages, with nothing due at or before the time of a message. -/
structure Waiting (s : Setup F) (feed : Feed M S n) (m₀ : S) (ms : List M) (r : DayRun F M) : Prop where
  clocked : Clocked s feed m₀ ms (fun x => ∃ t ∈ ticks feed ms, x ≤ t) r
  due : r.started = true → r.nextDue ≤ r.next s

theorem Waiting.clocked_le (h : Waiting s feed m₀ ms r) (ht : ∀ t' ∈ ticks feed ms, t' ≤ t) :
    Clocked s feed m₀ ms (· ≤ t) r :=
  h.clocked.mono fun c hc =>
    let ⟨t', ht', hle⟩ := h.clocked.reached c hc
    UInt64.le_trans hle (ht t' ht')

/-- What an advance to `t` leaves: nothing is due at or before `t`. -/
theorem Waiting.advance {skip : Bool} {fuel : Nat} (h : Waiting s feed m₀ ms r)
    (ht : ∀ t' ∈ ticks feed ms, t' ≤ t) (hnews : DayRun.Sorted s.news) (hwrap : DayRun.NoWrap s t)
    (hr : r.advanceWith s skip fuel (hotOf (feed.board (after feed ms m₀))) t = some r') :
    Clocked s feed m₀ ms (· ≤ t) r' ∧ r'.started = true ∧ t < r'.next s ∧ r'.nextDue ≤ r'.next s := by
  rcases DayRun.advance_induct (fun _ h => Clocked.ready h)
    (fun _ _ _ h hle hd => h.due DayRun.ready_started hnews hwrap hd hle) (h.clocked_le ht) hr with
    ⟨rfl, hlt⟩ | ⟨r₁, h₁, hst, hlt, rfl⟩
  · have hst : r'.started = true := by
      cases hst : r'.started with
      | true => rfl
      | false =>
        rw [(h.clocked.idle hst).2.2] at hlt
        exact absurd hlt UInt64.not_lt_zero
    exact ⟨h.clocked_le ht, hst, UInt64.lt_of_lt_of_le hlt (h.due hst), h.due hst⟩
  · refine ⟨h₁.congr rfl rfl (fun hf => ?_) rfl, hst, hlt, UInt64.le_refl _⟩
    rw [show (r₁.started = false) from hf] at hst
    cases hst

/-- A call at the time that the clock stands at. -/
theorem Clocked.now (h : Clocked s feed m₀ ms (· ≤ t) r) (hst : r.started = true) (hlt : t < r.next s)
    {c : Engine.Call F} (hc : scheduled c = false) (hnow : c.now = t) :
    Clocked s feed m₀ ms (· ≤ t) (r.make s c) := by
  refine h.make hst rfl hst (UInt64.le_refl _) ?_ ?_ ?_ ?_ ?_
  · rw [hnow]
    exact h.reached
  · rw [hnow]
    exact UInt64.le_of_lt hlt
  · rw [hnow]
    exact UInt64.le_refl t
  · intro ev now hot heq
    subst heq
    cases hc
  · rw [hc]
    exact nofun

theorem Clocked.marketEvents {k : Nat} (h : Clocked s feed m₀ ms (· ≤ t) r) (hst : r.started = true)
    (hlt : t < r.next s) (hot : Engine.Hot) (evs : List (MarketEvent k)) :
    Clocked s feed m₀ ms (· ≤ t) (r.marketEvents s hot evs t) ∧
      (r.marketEvents s hot evs t).next s = r.next s ∧ (r.marketEvents s hot evs t).started = true ∧
      (r.marketEvents s hot evs t).nextDue = r.nextDue := by
  have hgo : ∀ (evs : List (MarketEvent k)) (r : DayRun F M), Clocked s feed m₀ ms (· ≤ t) r →
      r.started = true → t < r.next s →
      let r' := evs.foldl (fun r ev => r.make s (.market ev t hot)) r
      Clocked s feed m₀ ms (· ≤ t) r' ∧ r'.next s = r.next s ∧ r'.started = true ∧
        r'.nextDue = r.nextDue := by
    intro evs
    induction evs with
    | nil => exact fun r h hst _ => ⟨h, rfl, hst, rfl⟩
    | cons ev evs ih => exact fun r h hst hlt => ih _ (h.now hst hlt rfl rfl) hst hlt
  obtain ⟨hc, hnext, hst', hdue⟩ := hgo evs r h hst hlt
  refine ⟨hc.congr rfl rfl (fun hf => ?_) rfl, hnext, hst', hdue⟩
  exact absurd hf (by rw [DayRun.marketEvents, DayRun.drain_started, hst']; decide)

/-- A message after the calls that were due. -/
theorem Clocked.message (h : Clocked s feed m₀ ms within r) {m : M}
    (hm : ∀ t, feed.tick m = some t → r.started = true ∧ t < r.next s ∧ ∀ c ∈ calls r.log, c.now ≤ t) :
    Clocked s feed m₀ (ms ++ [m]) within { r with log := r.log ++ [.message m] } where
  applied := by
    rw [messages_append, h.applied]
    rfl
  ordered := by
    rw [calls_append, calls_message, List.append_nil]
    exact h.ordered
  reached := by
    rw [calls_append, calls_message, List.append_nil]
    exact h.reached
  arrival := by
    rw [calls_append, calls_message, List.append_nil]
    exact h.arrival
  seen := h.seen.message fun t ht => (hm t ht).2.2
  idle hf := by
    obtain ⟨hticks, hcalls, hdue⟩ := h.idle hf
    rw [ticks_concat, hticks, calls_append, hcalls]
    refine ⟨?_, rfl, hdue⟩
    cases ht : feed.tick m with
    | none => rfl
    | some t =>
      rw [show r.started = false from hf] at hm
      exact absurd (hm t ht).1 Bool.false_ne_true
  ahead hst := by
    obtain ⟨hcalls, hticks⟩ := h.ahead hst
    rw [ticks_concat, calls_append, calls_message, List.append_nil]
    refine ⟨hcalls, fun t ht => ?_⟩
    rcases List.mem_append.mp ht with ht | ht
    · exact hticks t ht
    · exact (hm t (Option.mem_toList.mp ht)).2.1

/-! ## Whole days -/

variable {skip : Bool} {fuel : Nat} {sim sim' : Sim F M S}

theorem Waiting.onMessage (h : Waiting s feed m₀ ms sim.run) (hmarket : sim.market = after feed ms m₀)
    {m : M} (hnews : DayRun.Sorted s.news)
    (htick : ∀ t, feed.tick m = some t → DayRun.NoWrap s t ∧ ∀ t' ∈ ticks feed ms, t' ≤ t)
    (hm : Backtest.onMessage s feed skip fuel sim m = some sim') :
    Waiting s feed m₀ (ms ++ [m]) sim'.run ∧ sim'.market = after feed (ms ++ [m]) m₀ := by
  have hmarket' : sim'.market = after feed (ms ++ [m]) m₀ := by
    rw [(onMessage_last hm).2, hmarket, after, after, List.foldl_concat]
  refine ⟨?_, hmarket'⟩
  unfold Backtest.onMessage at hm
  split at hm
  · rename_i hnone
    cases hm
    refine ⟨(h.clocked.message fun t ht => ?_).mono fun c hc => ?_, h.due⟩
    · rw [hnone] at ht
      cases ht
    · rw [ticks_concat, hnone, Option.toList_none, List.append_nil]
      rw [calls_append, calls_message, List.append_nil] at hc
      exact h.clocked.reached c hc
  · rename_i t ht
    obtain ⟨hwrap, hle⟩ := htick t ht
    obtain ⟨r, hr, rfl⟩ := Option.map_eq_some_iff.mp hm
    rw [hmarket] at hr
    obtain ⟨hclocked, hst, hlt, hdue⟩ := h.advance hle hnews hwrap hr
    have hmsg := hclocked.message (m := m) fun t' ht' => by
      rw [ht] at ht'
      cases ht'
      exact ⟨hst, hlt, hclocked.reached⟩
    have hin : t ∈ ticks feed (ms ++ [m]) := by
      rw [ticks_concat, ht]
      exact List.mem_append_right _ List.mem_cons_self
    dsimp only
    split
    · exact ⟨hmsg.mono fun c hc => ⟨t, hin, hmsg.reached c hc⟩, fun _ => hdue⟩
    · obtain ⟨hev, hnext, hst', hdue'⟩ := hmsg.marketEvents hst hlt
        (hotOf (feed.board (feed.apply sim.market m).1)) _
      refine ⟨hev.mono fun c hc => ⟨t, hin, hev.reached c hc⟩, fun _ => ?_⟩
      rw [hnext, hdue']
      exact hdue

/-- The messages come in order, and the clock stays away from its end. -/
structure InOrder (s : Setup F) (feed : Feed M S n) (ms : List M) : Prop where
  sorted : (ticks feed ms).Pairwise (· ≤ ·)
  noWrap : ∀ t ∈ ticks feed ms, DayRun.NoWrap s t

theorem InOrder.tick {pre post : List M} {m : M} (h : InOrder s feed ms) (hms : ms = pre ++ m :: post)
    (ht : feed.tick m = some t) : DayRun.NoWrap s t ∧ ∀ t' ∈ ticks feed pre, t' ≤ t := by
  have hsplit : ticks feed ms = ticks feed pre ++ t :: ticks feed post := by
    rw [hms, ticks, List.filterMap_append, List.filterMap_cons_some ht]
    rfl
  have hp := h.sorted
  have hw := h.noWrap t
  rw [hsplit] at hp hw
  exact ⟨hw (List.mem_append_right _ List.mem_cons_self), fun t' ht' =>
    (List.pairwise_append.mp hp).2.2 t' ht' t List.mem_cons_self⟩

theorem play_returns (hI : 0 < s.o.evalIntervalNs) (hfuel : DayRun.plenty s < fuel)
    (hw : ∀ t ∈ ticks feed ms, DayRun.NoWrap s t) (sim : Sim F M S) :
    ∃ sim', play s feed skip fuel ms sim = some sim' := by
  induction ms generalizing sim with
  | nil => exact ⟨sim, rfl⟩
  | cons m ms ih =>
    obtain ⟨sim₁, h₁⟩ : ∃ sim₁, onMessage s feed skip fuel sim m = some sim₁ := by
      unfold onMessage
      split
      · exact ⟨_, rfl⟩
      · rename_i t ht
        have htw : DayRun.NoWrap s t := hw t (List.mem_filterMap.mpr ⟨m, List.mem_cons_self, ht⟩)
        obtain ⟨r, hr⟩ := DayRun.advance_returns hI htw hfuel sim.run
        rw [hr]
        exact ⟨_, rfl⟩
    obtain ⟨sim', h'⟩ := ih (fun t ht => hw t (by
      rw [ticks, List.filterMap_cons]
      split
      · exact ht
      · exact List.mem_cons_of_mem _ ht)) sim₁
    refine ⟨sim', ?_⟩
    rw [play, List.foldlM_cons, h₁]
    exact h'

theorem le_lastTime {first cutoff : UInt64} (hp : (ticks feed ms).Pairwise (· ≤ ·)) (ht : t ∈ ticks feed ms) :
    t ≤ lastTime feed first cutoff ms := by
  have hlast : t ≤ (ticks feed ms).getLastD first := by
    obtain ⟨l, x, hl⟩ := List.eq_nil_or_concat (ticks feed ms) |>.resolve_left (List.ne_nil_of_mem ht)
    rw [hl, List.concat_eq_append] at hp ht ⊢
    rw [List.getLastD_concat]
    rcases List.mem_append.mp ht with ht | ht
    · exact (List.pairwise_append.mp hp).2.2 t ht x List.mem_cons_self
    · rw [List.mem_singleton.mp ht]
      exact UInt64.le_refl x
  rw [lastTime, UInt64.le_iff_toNat_le, toNat_max]
  exact (UInt64.le_iff_toNat_le.mp hlast).trans (Nat.le_max_left _ _)

end

end Stok.Backtest
