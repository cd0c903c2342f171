import Stok.Sink.AlertText

/-!
# The discipline of the alert sink

Over any run of the sink: what becomes of every signal, and how the requests to Telegram are spaced.
-/

namespace Stok.Alerts

variable {F : Type} [Dbl F]

namespace AlertMark

def message : AlertMark → Option Bytes
  | post body _ _ _ _ _ => some body
  | _ => none

def accepted : AlertMark → Bool
  | post _ _ _ _ ok _ => ok
  | _ => false

/-- The times of a request. -/
def times : AlertMark → Option (UInt64 × UInt64)
  | post _ start stop _ _ _ | ping start stop => some (start, stop)
  | _ => none

/-- How long nothing is posted after the mark. -/
def pause : AlertMark → Nat
  | post _ _ _ status _ retry => if status = 429 then retry.toNat else 0
  | _ => 0

/-- `b` comes after `a`: a post waits for the time that a throttled post was answered with, a ping until
the connection has been idle for `pingNs`. -/
def Apart (pingNs : Nat) (a b : AlertMark) : Prop :=
  ∀ s t s' t', a.times = some (s, t) → b.times = some (s', t') →
    match b with
    | ping _ _ => t.toNat + pingNs ≤ s'.toNat
    | _ => t.toNat + a.pause ≤ s'.toNat

end AlertMark

/-- The posts of a log. -/
def posts (log : List AlertMark) : List Bytes := log.filterMap AlertMark.message

def acceptedPosts (log : List AlertMark) : Nat := log.countP AlertMark.accepted

/-! ## Accounts -/

/-- Signals were delivered, `n` of them, and these messages were due for them. -/
structure Accounted (a a' : AlertSink) (due : List Bytes) (n : Nat) : Prop where
  opts : a'.opts = a.opts
  sources : a'.sources = a.sources
  signals : a'.stats.signals = a.stats.signals + n
  answered : a'.stats.telegramSent + a'.stats.telegramFailed =
    a.stats.telegramSent + a.stats.telegramFailed + due.length
  sent : a'.stats.telegramSent + acceptedPosts a.log = a.stats.telegramSent + acceptedPosts a'.log
  posted : ∃ l, posts a'.log = posts a.log ++ l ∧ l.Sublist due

theorem Accounted.refl (a : AlertSink) : Accounted a a [] 0 :=
  ⟨rfl, rfl, rfl, rfl, rfl, [], (List.append_nil _).symm, .slnil⟩

theorem Accounted.trans {a b c : AlertSink} {due due' : List Bytes} {n n' : Nat}
    (h : Accounted a b due n) (h' : Accounted b c due' n') : Accounted a c (due ++ due') (n + n') := by
  obtain ⟨l, hl, hsub⟩ := h.posted
  obtain ⟨l', hl', hsub'⟩ := h'.posted
  have hanswered := h.answered
  have hanswered' := h'.answered
  have hsent := h.sent
  have hsent' := h'.sent
  refine ⟨h'.opts.trans h.opts, h'.sources.trans h.sources, ?_, ?_, ?_, l ++ l', ?_, hsub.append hsub'⟩
  · rw [h'.signals, h.signals, Nat.add_assoc]
  · rw [List.length_append]
    omega
  · omega
  · rw [hl', hl, List.append_assoc]

/-- Marks that are no posts, and counters that are not of Telegram. -/
theorem Accounted.quiet {a a' : AlertSink} {n : Nat} (hopts : a'.opts = a.opts)
    (hsources : a'.sources = a.sources) (hsignals : a'.stats.signals = a.stats.signals + n)
    (hsent : a'.stats.telegramSent = a.stats.telegramSent)
    (hfailed : a'.stats.telegramFailed = a.stats.telegramFailed) (ms : List AlertMark)
    (hlog : a'.log = a.log ++ ms) (hms : ∀ m ∈ ms, m.message = none ∧ m.accepted = false) :
    Accounted a a' [] n := by
  have hposts : posts a'.log = posts a.log := by
    have hnone : ms.filterMap AlertMark.message = [] :=
      List.filterMap_eq_nil_iff.mpr fun m hm => (hms m hm).1
    unfold posts
    rw [hlog, List.filterMap_append, hnone, List.append_nil]
  have haccepted : acceptedPosts a'.log = acceptedPosts a.log := by
    have hzero : ms.countP AlertMark.accepted = 0 :=
      List.countP_eq_zero.mpr fun m hm => Bool.eq_false_iff.mp (hms m hm).2
    unfold acceptedPosts
    rw [hlog, List.countP_append, hzero, Nat.add_zero]
  refine ⟨hopts, hsources, hsignals, ?_, ?_, [], ?_, .slnil⟩
  · rw [hsent, hfailed]
    rfl
  · rw [hsent, haccepted]
  · rw [hposts, List.append_nil]

/-- The messages that a call is to send. -/
def due (opts : AlertOptions) (sources : List Bytes) : AlertCall F → List Bytes
  | .deliver s _ =>
    if toTelegram opts s ∧ opts.telegram then [telegramBody opts.telegramChatId (formatHtml s sources)] else []
  | .keepalive _ => []

def AlertCall.signals : AlertCall F → Nat
  | .deliver _ _ => 1
  | .keepalive _ => 0

/-- A throttled answer is not a good one. -/
theorem sendTelegram_post {a : AlertSink} {x : Exchange} (h : a.telegramBackoffUntil ≤ x.start)
    (s : Signal F) :
    sendTelegram a s x = (post a (telegramBody a.opts.telegramChatId (formatHtml s a.sources)) x, x.ok) := by
  unfold sendTelegram
  rw [if_neg (UInt64.not_lt.mpr h)]
  dsimp only
  split
  · rename_i hthrottled
    have hok : x.ok = false := by
      simp [Exchange.ok, hthrottled]
    rw [hok]
  · rfl

theorem sendTelegram_wait {a : AlertSink} {x : Exchange} (h : x.start < a.telegramBackoffUntil)
    (s : Signal F) : sendTelegram a s x = (a, false) := if_pos h

theorem tellTelegram_accounted (a : AlertSink) (s : Signal F) (x : Exchange) :
    Accounted a (tellTelegram a s x) (due a.opts a.sources (.deliver s x)) 0 := by
  unfold tellTelegram
  by_cases hdue : toTelegram a.opts s ∧ a.opts.telegram
  · rw [if_pos hdue, show due a.opts a.sources (.deliver s x) =
      [telegramBody a.opts.telegramChatId (formatHtml s a.sources)] from if_pos hdue]
    by_cases hwait : x.start < a.telegramBackoffUntil
    · rw [sendTelegram_wait hwait]
      exact ⟨rfl, rfl, rfl, rfl, rfl, [], (List.append_nil _).symm, List.nil_sublist _⟩
    · rw [sendTelegram_post (UInt64.not_lt.mp hwait)]
      generalize telegramBody a.opts.telegramChatId (formatHtml s a.sources) = body
      have hposts : posts (post a body x).log = posts a.log ++ [body] := List.filterMap_append
      have haccepted : acceptedPosts (post a body x).log = acceptedPosts a.log + x.ok.toNat := by
        unfold acceptedPosts
        rw [show (post a body x).log = a.log ++ _ from rfl, List.countP_append]
        cases x.ok <;> simp [AlertMark.accepted]
      cases hok : x.ok with
      | true =>
        rw [hok] at haccepted
        refine ⟨rfl, rfl, rfl, ?_, ?_, [body], hposts, .refl _⟩
        · show a.stats.telegramSent + 1 + a.stats.telegramFailed = _
          simp only [List.length_singleton]
          omega
        · show a.stats.telegramSent + 1 + acceptedPosts a.log = _ + acceptedPosts (post a body x).log
          rw [haccepted]
          simp only [Bool.toNat_true]
          omega
      | false =>
        rw [hok] at haccepted
        refine ⟨rfl, rfl, rfl, rfl, ?_, [body], hposts, .refl _⟩
        exact congrArg (a.stats.telegramSent + ·) haccepted.symm
  · rw [if_neg hdue, show due a.opts a.sources (.deliver s x) = [] from if_neg hdue]
    exact .refl a

theorem deliver_accounted (a : AlertSink) (s : Signal F) (x : Exchange) :
    Accounted a (deliver a s x) (due a.opts a.sources (.deliver s x)) 1 := by
  have hcounted : Accounted a { a with stats.signals := a.stats.signals + 1 } [] 1 :=
    .quiet rfl rfl rfl rfl rfl [] (List.append_nil _).symm fun m hm => absurd hm List.not_mem_nil
  have hudp (a : AlertSink) : Accounted a (sendUdp a s x) [] 0 := by
    unfold sendUdp
    split
    · exact .quiet rfl rfl rfl rfl rfl [_] rfl fun m hm => List.mem_singleton.mp hm ▸ ⟨rfl, rfl⟩
    · exact .refl a
  have hprint (a : AlertSink) : Accounted a (printText a s) [] 0 := by
    unfold printText
    split
    · exact .quiet rfl rfl rfl rfl rfl [_] rfl fun m hm => List.mem_singleton.mp hm ▸ ⟨rfl, rfl⟩
    · exact .refl a
  have hbefore := (hcounted.trans (hudp _)).trans (hprint _)
  have htold := tellTelegram_accounted (printText (sendUdp { a with stats.signals := a.stats.signals + 1 } s x) s) s x
  rw [hbefore.opts, hbefore.sources] at htold
  exact hbefore.trans htold

omit [Dbl F] in
theorem keepalive_accounted (a : AlertSink) (x : Exchange) : Accounted a (keepalive a x) [] 0 := by
  unfold keepalive
  split
  · exact .refl a
  · split
    · exact .refl a
    · exact .quiet rfl rfl rfl rfl rfl [_] rfl fun m hm => List.mem_singleton.mp hm ▸ ⟨rfl, rfl⟩

theorem run_accounted (a : AlertSink) (calls : List (AlertCall F)) :
    Accounted a (a.run calls) (calls.flatMap (due a.opts a.sources)) (calls.map AlertCall.signals).sum := by
  induction calls generalizing a with
  | nil => exact .refl a
  | cons c calls ih =>
    have hcall : Accounted a (a.call c) (due a.opts a.sources c) c.signals := by
      cases c with
      | deliver s x => exact deliver_accounted a s x
      | keepalive x => exact keepalive_accounted a x
    have hrest := ih (a.call c)
    rw [hcall.opts, hcall.sources] at hrest
    exact hcall.trans hrest

/-! ## Spacing -/

def pingNs (opts : AlertOptions) : Nat := opts.keepalivePingS.toInt.toNat * 1000000000

/-- The log at a time. -/
structure Spaced (a : AlertSink) (now : UInt64) : Prop where
  apart : a.log.Pairwise (AlertMark.Apart (pingNs a.opts))
  backoff : ∀ m ∈ a.log, ∀ s t, m.times = some (s, t) → 0 < m.pause →
    t.toNat + m.pause ≤ a.telegramBackoffUntil.toNat
  io : ∀ m ∈ a.log, ∀ s t, m.times = some (s, t) → t ≤ a.lastTelegramIo
  past : a.lastTelegramIo ≤ now

variable {a a' : AlertSink} {now now' : UInt64}

theorem Spaced.later (h : Spaced a now) (hle : now ≤ now') : Spaced a now' :=
  ⟨h.apart, h.backoff, h.io, UInt64.le_trans h.past hle⟩

/-- A mark that is no request. -/
theorem Spaced.quiet (h : Spaced a now) {m : AlertMark} (hlog : a'.log = a.log ++ [m]) (hm : m.times = none)
    (hopts : a'.opts = a.opts) (hio : a'.lastTelegramIo = a.lastTelegramIo)
    (hback : a'.telegramBackoffUntil = a.telegramBackoffUntil) : Spaced a' now := by
  have hmem {x : AlertMark} (hx : x ∈ a'.log) {s t : UInt64} (ht : x.times = some (s, t)) : x ∈ a.log := by
    rw [hlog] at hx
    rcases List.mem_append.mp hx with hx | hx
    · exact hx
    · rw [List.mem_singleton.mp hx, hm] at ht
      cases ht
  refine ⟨?_, fun x hx s t ht hp => ?_, fun x hx s t ht => ?_, ?_⟩
  · rw [hlog, hopts, List.pairwise_append]
    refine ⟨h.apart, List.pairwise_singleton .., fun x _ y hy s t s' t' _ hy' => ?_⟩
    rw [List.mem_singleton.mp hy, hm] at hy'
    cases hy'
  · rw [hback]
    exact h.backoff x (hmem hx ht) s t ht hp
  · rw [hio]
    exact h.io x (hmem hx ht) s t ht
  · rw [hio]
    exact h.past

/-- A request from `s` to `t`, that comes when it may. -/
theorem Spaced.request (h : Spaced a now) {m : AlertMark} {s t : UInt64} (hlog : a'.log = a.log ++ [m])
    (hm : m.times = some (s, t)) (hopts : a'.opts = a.opts) (hnow : now ≤ s) (hst : s ≤ t)
    (hapart : ∀ x ∈ a.log, AlertMark.Apart (pingNs a.opts) x m) (hio : a'.lastTelegramIo = t)
    (hback : a.telegramBackoffUntil ≤ a'.telegramBackoffUntil)
    (hpause : 0 < m.pause → t.toNat + m.pause ≤ a'.telegramBackoffUntil.toNat) : Spaced a' t := by
  have hlast : a.lastTelegramIo ≤ t := UInt64.le_trans (UInt64.le_trans h.past hnow) hst
  refine ⟨?_, fun x hx s' t' ht hp => ?_, fun x hx s' t' ht => ?_, ?_⟩
  · rw [hlog, hopts, List.pairwise_append]
    exact ⟨h.apart, List.pairwise_singleton .., fun x hx y hy => List.mem_singleton.mp hy ▸ hapart x hx⟩
  · rw [hlog] at hx
    rcases List.mem_append.mp hx with hx | hx
    · exact (h.backoff x hx s' t' ht hp).trans (UInt64.le_iff_toNat_le.mp hback)
    · rw [List.mem_singleton.mp hx] at ht hp ⊢
      obtain ⟨rfl, rfl⟩ := Prod.mk.inj (Option.some.inj (hm.symm.trans ht))
      exact hpause hp
  · rw [hlog] at hx
    rw [hio]
    rcases List.mem_append.mp hx with hx | hx
    · exact UInt64.le_trans (h.io x hx s' t' ht) hlast
    · rw [List.mem_singleton.mp hx] at ht
      obtain ⟨rfl, rfl⟩ := Prod.mk.inj (Option.some.inj (hm.symm.trans ht))
      exact UInt64.le_refl _
  · rw [hio]
    exact UInt64.le_refl _

/-- The clock goes on from `t` in a call, and does not wrap around. -/
structure Timely (t : UInt64) (x : Exchange) : Prop where
  now : t ≤ x.start
  answered : x.start ≤ x.stop
  read : x.stop ≤ x.read
  fits : x.read.toNat + (retryNs x.body).toNat < 2 ^ 64

theorem Spaced.post {x : Exchange} (h : Spaced a now) (ht : Timely now x)
    (hback : a.telegramBackoffUntil ≤ x.start) (body : Bytes) : Spaced (post a body x) x.stop := by
  have hread : (x.read + retryNs x.body).toNat = x.read.toNat + (retryNs x.body).toNat := by
    rw [UInt64.toNat_add, Nat.mod_eq_of_lt ht.fits]
  have hstop := UInt64.le_iff_toNat_le.mp ht.read
  refine h.request (m := .post body x.start x.stop x.status x.ok (retryNs x.body)) rfl rfl rfl ht.now ht.answered
    (fun y hy s t s' t' hyt hm => ?_) rfl ?_ fun hp => ?_
  · obtain ⟨rfl, rfl⟩ := Prod.mk.inj (Option.some.inj hm)
    have hlast := UInt64.le_iff_toNat_le.mp (UInt64.le_trans (UInt64.le_trans (h.io y hy s t hyt) h.past) ht.now)
    show t.toNat + y.pause ≤ x.start.toNat
    rcases Nat.eq_zero_or_pos y.pause with hzero | hpos
    · omega
    · exact (h.backoff y hy s t hyt hpos).trans (UInt64.le_iff_toNat_le.mp hback)
  · show _ ≤ if x.status = 429 then _ else _
    split
    · have hstart := UInt64.le_iff_toNat_le.mp (UInt64.le_trans hback ht.answered)
      rw [UInt64.le_iff_toNat_le, hread]
      omega
    · exact UInt64.le_refl _
  · have hthrottled : x.status = 429 := by
      by_contra hne
      rw [show AlertMark.pause (.post body x.start x.stop x.status x.ok (retryNs x.body)) = 0 from if_neg hne] at hp
      exact absurd hp (Nat.lt_irrefl 0)
    show x.stop.toNat + (if x.status = 429 then _ else _) ≤ (if x.status = 429 then _ else _ : UInt64).toNat
    rw [if_pos hthrottled, if_pos hthrottled, hread]
    omega

theorem pingNs_toNat (opts : AlertOptions) :
    (opts.keepalivePingS.toInt.toNat.toUInt64 * 1000000000).toNat = pingNs opts := by
  have hlt := opts.keepalivePingS.toInt_lt
  unfold pingNs
  generalize hn : opts.keepalivePingS.toInt.toNat = n
  have hsmall : n < 2 ^ 31 := by omega
  rw [UInt64.toNat_mul, Nat.toUInt64_eq, UInt64.toNat_ofNat', Nat.mod_eq_of_lt (show n < 2 ^ 64 by omega)]
  exact Nat.mod_eq_of_lt (Nat.lt_trans (Nat.mul_lt_mul_of_pos_right hsmall (by decide)) (by decide))

theorem Spaced.keepalive {x : Exchange} (h : Spaced a now) (ht : Timely now x) :
    Spaced (keepalive a x) x.read := by
  have hread := UInt64.le_trans (UInt64.le_trans ht.now ht.answered) ht.read
  unfold Alerts.keepalive
  split
  · exact h.later hread
  · split
    · exact h.later hread
    · rename_i hidle
      have hidle := UInt64.le_iff_toNat_le.mp (UInt64.not_lt.mp hidle)
      have hlast := UInt64.le_trans h.past ht.now
      rw [pingNs_toNat, UInt64.toNat_sub_of_le _ _ hlast] at hidle
      refine Spaced.later ?_ ht.read
      refine h.request (m := .ping x.start x.stop) rfl rfl rfl ht.now ht.answered
        (fun y hy s t s' t' hyt hm => ?_) rfl (UInt64.le_refl _) fun hp => absurd hp (Nat.lt_irrefl 0)
      obtain ⟨rfl, rfl⟩ := Prod.mk.inj (Option.some.inj hm)
      have hle := UInt64.le_iff_toNat_le.mp (h.io y hy s t hyt)
      have hlast := UInt64.le_iff_toNat_le.mp hlast
      show t.toNat + pingNs a.opts ≤ x.start.toNat
      omega

theorem Spaced.deliver {x : Exchange} (h : Spaced a now) (ht : Timely now x) (s : Signal F) :
    Spaced (deliver a s x) x.read := by
  have hread := UInt64.le_trans (UInt64.le_trans ht.now ht.answered) ht.read
  have hcounted : Spaced { a with stats.signals := a.stats.signals + 1 } now :=
    ⟨h.apart, h.backoff, h.io, h.past⟩
  have hudp {a : AlertSink} (h : Spaced a now) : Spaced (sendUdp a s x) now := by
    unfold sendUdp
    split
    · exact h.quiet rfl rfl rfl rfl rfl
    · exact h
  have hprint {a : AlertSink} (h : Spaced a now) : Spaced (printText a s) now := by
    unfold printText
    split
    · exact h.quiet rfl rfl rfl rfl rfl
    · exact h
  have htell {a : AlertSink} (h : Spaced a now) : Spaced (tellTelegram a s x) x.read := by
    unfold tellTelegram
    split
    · by_cases hwait : x.start < a.telegramBackoffUntil
      · rw [sendTelegram_wait hwait]
        have := h.later hread
        exact ⟨this.apart, this.backoff, this.io, this.past⟩
      · rw [sendTelegram_post (UInt64.not_lt.mp hwait)]
        have := (h.post ht (UInt64.not_lt.mp hwait)
          (telegramBody a.opts.telegramChatId (formatHtml s a.sources))).later ht.read
        cases x.ok with
        | true => exact ⟨this.apart, this.backoff, this.io, this.past⟩
        | false => exact ⟨this.apart, this.backoff, this.io, this.past⟩
    · exact h.later hread
  exact htell (hprint (hudp hcounted))

def AlertCall.exchange : AlertCall F → Exchange
  | .deliver _ x | .keepalive x => x

/-- The clock goes on from call to call. -/
def Clocked : UInt64 → List (AlertCall F) → Prop
  | _, [] => True
  | t, c :: calls => Timely t c.exchange ∧ Clocked c.exchange.read calls

theorem Spaced.run {calls : List (AlertCall F)} (h : Spaced a now) (hclock : Clocked now calls) :
    ∃ t, Spaced (a.run calls) t := by
  induction calls generalizing a now with
  | nil => exact ⟨now, h⟩
  | cons c calls ih =>
    refine ih ?_ hclock.2
    cases c with
    | deliver s x => exact h.deliver hclock.1 s
    | keepalive x => exact h.keepalive hclock.1

/-- **The discipline of the sink.** Over any run: every signal is counted, and every one that is for
Telegram is counted there once, as accepted or as failed; each message is posted at most once, in the
order of the signals; after a throttled post the next one waits for the time that the answer asks for;
and a ping waits until the connection has been idle for the time of the options. -/
theorem alerts_discipline (opts : AlertOptions) (sources : List Bytes) (now : UInt64)
    (calls : List (AlertCall F)) (hclock : Clocked now calls) :
    let a : AlertSink := { opts, sources, lastTelegramIo := now }
    let a' := a.run calls
    let messages := calls.flatMap (due opts sources)
    a'.stats.signals = (calls.map AlertCall.signals).sum ∧
      a'.stats.telegramSent + a'.stats.telegramFailed = messages.length ∧
      a'.stats.telegramSent = acceptedPosts a'.log ∧
      (posts a'.log).Sublist messages ∧
      a'.log.Pairwise (AlertMark.Apart (pingNs opts)) := by
  intro a a' messages
  have h := run_accounted a calls
  have hspaced : Spaced a now :=
    ⟨.nil, fun m hm => absurd hm List.not_mem_nil, fun m hm => absurd hm List.not_mem_nil, UInt64.le_refl _⟩
  obtain ⟨t, hrun⟩ := hspaced.run hclock
  obtain ⟨l, hl, hsub⟩ := h.posted
  have hsent : a'.stats.telegramSent + 0 = 0 + acceptedPosts a'.log := h.sent
  have hapart := hrun.apart
  rw [h.opts] at hapart
  refine ⟨h.signals.trans (Nat.zero_add _), h.answered.trans (Nat.zero_add _), by omega, ?_, hapart⟩
  rw [hl]
  exact hsub

/-- The first message is throttled for five seconds; the second one comes too early and is lost, the
third one is accepted. -/
def throttledRun : List (AlertCall ℚ) :=
  [.deliver markupSignal { start := 10, stop := 20, read := 21, status := 429, body := lit "retry_after: 5" },
    .deliver markupSignal { start := 30, stop := 40, read := 41, status := 200 },
    .keepalive { start := 50, stop := 60, read := 61 },
    .deliver markupSignal { start := 5000000021, stop := 5000000040, read := 5000000041, status := 200 }]

theorem alerts_discipline_throttled :
    let a' := ({ opts := { telegram := true }, sources := [], lastTelegramIo := 5 } : AlertSink).run throttledRun
    a'.stats.signals = 3 ∧ a'.stats.telegramSent + a'.stats.telegramFailed = 3 ∧ acceptedPosts a'.log = 1 ∧
      a'.stats.telegramSent = 1 ∧ a'.log.Pairwise (AlertMark.Apart 25000000000) := by
  have hclock : Clocked 5 throttledRun :=
    ⟨⟨by decide, by decide, by decide, by decide +kernel⟩, ⟨by decide, by decide, by decide, by decide +kernel⟩,
      ⟨by decide, by decide, by decide, by decide +kernel⟩,
      ⟨by decide, by decide, by decide, by decide +kernel⟩, trivial⟩
  obtain ⟨hsignals, hanswered, hsent, -, hapart⟩ :=
    alerts_discipline { telegram := true } [] 5 throttledRun hclock
  have haccepted : acceptedPosts (({ opts := { telegram := true }, sources := [], lastTelegramIo := 5 } :
      AlertSink).run throttledRun).log = 1 := by decide +kernel
  exact ⟨hsignals, hanswered, haccepted, hsent.trans haccepted, hapart⟩

end Stok.Alerts
