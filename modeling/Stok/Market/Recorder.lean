import Mathlib
import Stok.Core.SpscQueue
import Stok.Market.ItchFile

/-!
# The ITCH recorder (`market/recorder.hpp`, `market/recorder.cpp`)

The market thread pushes messages into a ring and the recorder's thread drains it to a file.
A step is one access of the ring, with the private work up to the next one, or one of the
recorder's own: a load of `running_`, the writes of a message to the file, `stop`. The messages
still to be pushed are the state's `todo`; `stop` is called when they all have been. `sent`
records the messages that were published.
-/

namespace Stok.Recorder

open Stok.Lib Stok.Lib.Ring

/-- A slot of the ring: 63 bytes of which the first `len` count. -/
structure RawMsg where
  len : UInt8
  data : Bytes
  deriving DecidableEq, Repr

/-- What a message becomes in a slot. -/
def RawMsg.put (old : RawMsg) (msg : Bytes) : RawMsg :=
  { len := .ofNat msg.length, data := msg ++ old.data.drop msg.length }

/-- The bytes that are written for a slot. -/
def RawMsg.frame (m : RawMsg) : Bytes := 0 :: m.len :: m.data.take m.len.toNat

def kData : Nat := 63

/-- `1u << 20` slots. -/
def cap : Cap := ⟨20, by decide⟩

/-- Where the market thread is in `push`. -/
inductive Push where
  | idle
  /-- In `try_claim`, or with its answer. -/
  | claiming (msg : Bytes)
  /-- The slot has the message. -/
  | filled (msg : Bytes)
  deriving DecidableEq, Repr

def Push.msgs : Push → List Bytes
  | .idle => []
  | .claiming msg | .filled msg => [msg]

/-- Where the recorder's thread is. `last` is the drain after the loop, `n` what this drain has
popped. -/
inductive Thread where
  | loop
  | drain (last : Bool) (n : Nat)
  /-- The message at the front is in the file. -/
  | wrote (last : Bool) (n : Nat)
  | exited
  deriving DecidableEq, Repr

structure State where
  q : SpscQueue.State RawMsg
  todo : List Bytes
  push : Push := .idle
  thread : Thread := .loop
  running : Bool := true
  dropped : Nat := 0
  written : Nat := 0
  file : Bytes := []
  sent : List Bytes := []

inductive Act where
  | push | claimHead | full | fill | publish | publishTail | stop
  | load | front | frontTail | gzwrite | pop | popHead | drained
  deriving DecidableEq, Repr

def init (msgs : List Bytes) : State :=
  { q := SpscQueue.init fun _ => { len := 0, data := List.replicate kData 0 }, todo := msgs }

def step (s : State) : Act → Option State
  | .push =>
    match s.push, s.todo with
    | .idle, msg :: rest =>
      if kData < msg.length then some { s with todo := rest, dropped := s.dropped + 1 }
      else (SpscQueue.step cap s.q .claim).map
        fun q => { s with q := q, todo := rest, push := .claiming msg }
    | _, _ => none
  | .claimHead =>
    match s.push with
    | .claiming _ => (SpscQueue.step cap s.q .claimHead).map fun q => { s with q := q }
    | _ => none
  | .full =>
    match s.push with
    | .claiming _ => (SpscQueue.step cap s.q .fullReturn).map
        fun q => { s with q := q, push := .idle, dropped := s.dropped + 1 }
    | _ => none
  | .fill =>
    match s.push, s.q.producer with
    | .claiming msg, .claimed i => (SpscQueue.step cap s.q (.write ((s.q.slots i).put msg))).map
        fun q => { s with q := q, push := .filled msg }
    | _, _ => none
  | .publish =>
    match s.push with
    | .filled _ => (SpscQueue.step cap s.q .publish).map fun q => { s with q := q }
    | _ => none
  | .publishTail =>
    match s.push with
    | .filled msg => (SpscQueue.step cap s.q .publishTail).map
        fun q => { s with q := q, push := .idle, sent := s.sent ++ [msg] }
    | _ => none
  | .stop => if s.push = .idle ∧ s.todo = [] then some { s with running := false } else none
  | .load => if s.thread = .loop then some { s with thread := .drain (!s.running) 0 } else none
  | .front =>
    match s.thread, s.q.consumer with
    | .drain _ _, .idle => (SpscQueue.step cap s.q .front).map fun q => { s with q := q }
    | _, _ => none
  | .frontTail => (SpscQueue.step cap s.q .frontTail).map fun q => { s with q := q }
  | .gzwrite =>
    match s.thread, s.q.consumer with
    | .drain last n, .exposed i =>
      some { s with file := s.file ++ (s.q.slots i).frame, thread := .wrote last n }
    | _, _ => none
  | .pop =>
    match s.thread with
    | .wrote _ _ => (SpscQueue.step cap s.q .pop).map fun q => { s with q := q }
    | _ => none
  | .popHead =>
    match s.thread with
    | .wrote last n => (SpscQueue.step cap s.q .popHead).map
        fun q => { s with q := q, thread := .drain last (n + 1) }
    | _ => none
  | .drained =>
    match s.thread with
    | .drain last n => (SpscQueue.step cap s.q .emptyReturn).map
        fun q => { s with
          q := q
          written := s.written + n
          thread := if last then .exited else .loop }
    | _ => none

/-! ## The invariant -/

/-- A message as it stands in the file. -/
def frameOf (msg : Bytes) : Bytes := 0 :: .ofNat msg.length :: msg

/-- The messages that are in the file but not popped yet. -/
def Thread.ahead : Thread → Nat
  | .wrote _ _ => 1
  | _ => 0

/-- The messages popped in the drain under way. -/
def Thread.popped : Thread → Nat
  | .drain _ n | .wrote _ n => n
  | _ => 0

/-- What the market thread's place says of the ring. -/
def Push.Ok (q : SpscQueue.State RawMsg) : Push → Prop
  | .idle => q.producer = .idle
  | .claiming msg => msg.length ≤ kData
  | .filled msg => msg.length ≤ kData ∧
      ((∃ i, q.producer = .claimed i ∧ i = q.published.length % cap.size ∧
          (q.slots i).frame = frameOf msg) ∨
        ∃ t, q.producer = .publishing t ∧
          (q.slots (q.published.length % cap.size)).frame = frameOf msg)

/-- What the recorder thread's place says of the ring. -/
def Thread.Ok (s : State) : Thread → Prop
  | .loop => s.q.consumer = .idle
  | .drain last _ => (last = true → s.running = false) ∧
      (last = true → s.q.consumer = .empty → s.q.popped.length = s.q.published.length)
  | .wrote last _ => (last = true → s.running = false) ∧
      ((∃ i, s.q.consumer = .exposed i) ∨ ∃ h, s.q.consumer = .popping h)
  | .exited => s.running = false ∧ s.q.popped.length = s.q.published.length ∧ s.q.consumer = .idle

structure Inv (msgs : List Bytes) (s : State) : Prop where
  queue : ∃ r w, SpscQueue.Inv cap s.q r w
  push : s.push.Ok s.q
  thread : s.thread.Ok s
  sent : s.q.published.map RawMsg.frame = s.sent.map frameOf
  fits : ∀ m ∈ s.sent, m.length ≤ kData
  order : s.dropped = 0 → s.sent ++ s.push.msgs ++ s.todo = msgs
  stopped : s.running = false → s.push = .idle ∧ s.todo = []
  file : s.file = (s.q.published.take (s.q.popped.length + s.thread.ahead)).flatMap RawMsg.frame
  written : s.written + s.thread.popped = s.q.popped.length

theorem RawMsg.frame_put {old : RawMsg} {msg : Bytes} (h : msg.length ≤ kData) :
    (old.put msg).frame = frameOf msg := by
  have hlen : (UInt8.ofNat msg.length).toNat = msg.length := by
    rw [UInt8.toNat_ofNat', Nat.mod_eq_of_lt (by simp only [kData] at h; omega)]
  rw [RawMsg.frame, RawMsg.put, hlen, List.take_left]
  rfl

/-! ## Steps of the ring -/

variable {q q' : SpscQueue.State RawMsg} {s s' : State} {msgs : List Bytes}

/-- The producer's steps other than the write of a slot and the store of `tail_`. -/
theorem producer_quiet {a : SpscQueue.Act RawMsg}
    (ha : a = .claim ∨ a = .claimHead ∨ a = .fullReturn ∨ a = .publish)
    (h : SpscQueue.step cap q a = some q') :
    q'.published = q.published ∧ q'.popped = q.popped ∧ q'.slots = q.slots ∧
      q'.consumer = q.consumer := by
  rcases ha with rfl | rfl | rfl | rfl
  · simp only [SpscQueue.step] at h
    split at h
    · split at h <;> cases h <;> exact ⟨rfl, rfl, rfl, rfl⟩
    · split at h <;> cases h <;> exact ⟨rfl, rfl, rfl, rfl⟩
    · cases h
  · simp only [SpscQueue.step] at h
    split at h
    · split at h <;> cases h <;> exact ⟨rfl, rfl, rfl, rfl⟩
    · cases h
  · obtain ⟨-, h⟩ := Option.ite_none_right_eq_some.mp h
    cases h
    exact ⟨rfl, rfl, rfl, rfl⟩
  · simp only [SpscQueue.step] at h
    split at h
    · cases h
      exact ⟨rfl, rfl, rfl, rfl⟩
    · cases h

/-- The consumer's steps other than the store of `head_`, as the recorder makes them. -/
theorem consumer_quiet {a : SpscQueue.Act RawMsg}
    (ha : a = .front ∨ a = .frontTail ∨ a = .pop ∨ a = .emptyReturn)
    (h : SpscQueue.step cap q a = some q') :
    q'.published = q.published ∧ q'.popped = q.popped ∧ q'.slots = q.slots ∧
      q'.producer = q.producer := by
  rcases ha with rfl | rfl | rfl | rfl
  · simp only [SpscQueue.step] at h
    split at h
    · split at h <;> cases h <;> exact ⟨rfl, rfl, rfl, rfl⟩
    · split at h <;> cases h <;> exact ⟨rfl, rfl, rfl, rfl⟩
    · cases h
  · simp only [SpscQueue.step] at h
    split at h
    · split at h <;> cases h <;> exact ⟨rfl, rfl, rfl, rfl⟩
    · cases h
  · simp only [SpscQueue.step] at h
    split at h
    · cases h
      exact ⟨rfl, rfl, rfl, rfl⟩
    · cases h
  · obtain ⟨-, h⟩ := Option.ite_none_right_eq_some.mp h
    cases h
    exact ⟨rfl, rfl, rfl, rfl⟩

theorem queue_step {a : SpscQueue.Act RawMsg} (hi : ∃ r w, SpscQueue.Inv cap q r w)
    (h : SpscQueue.step cap q a = some q') : ∃ r w, SpscQueue.Inv cap q' r w := by
  obtain ⟨r, w, hi⟩ := hi
  exact hi.move (SpscQueue.step_move h)

/-- A filled slot stays filled while the counters of the producer's side stand. -/
theorem Push.Ok.consumer {p : Push} (h : p.Ok q) (hpub : q'.published = q.published)
    (hslots : q'.slots = q.slots) (hprod : q'.producer = q.producer) : p.Ok q' := by
  cases p with
  | idle => exact hprod.trans h
  | claiming msg => exact h
  | filled msg =>
    obtain ⟨hlen, h⟩ := h
    refine ⟨hlen, ?_⟩
    rw [hprod, hslots, hpub]
    exact h

/-! ## Steps of the recorder -/

theorem Inv.ahead_le (h : Inv msgs s) :
    s.q.popped.length + s.thread.ahead ≤ s.q.published.length := by
  obtain ⟨r, w, hi⟩ := h.queue
  have hle := hi.popped_le
  have hth := h.thread
  cases ht : s.thread with
  | wrote last n =>
    rw [ht] at hth
    have hw := hi.w_le
    have hlt : s.q.popped.length < w := by
      rcases hth.2 with ⟨i, hc⟩ | ⟨t, hc⟩
      · exact (hi.held (i := i) (by rw [hc]; rfl)).2
      · have := hi.consumer.2
        rw [hc] at this
        exact this.2
    show s.q.popped.length + 1 ≤ _
    omega
  | loop => exact hle
  | drain last n => exact hle
  | exited => exact hle

/-- The market thread moves and the ring's lists stand. -/
theorem Inv.producer (h : Inv msgs s) {a : SpscQueue.Act RawMsg}
    (ha : a = .claim ∨ a = .claimHead ∨ a = .fullReturn ∨ a = .publish)
    (hq : SpscQueue.step cap s.q a = some q') (p : Push) (todo : List Bytes) (dropped : Nat)
    (hp : p.Ok q') (horder : dropped = 0 → s.sent ++ p.msgs ++ todo = msgs)
    (hstop : s.running = false → p = .idle ∧ todo = []) :
    Inv msgs { s with q := q', push := p, todo := todo, dropped := dropped } := by
  obtain ⟨hpub, hpop, -, hcon⟩ := producer_quiet ha hq
  refine ⟨queue_step h.queue hq, hp, ?_, ?_, h.fits, horder, hstop, ?_, ?_⟩
  · have ht := h.thread
    show s.thread.Ok { s with q := q', push := p, todo := todo, dropped := dropped }
    cases hth : s.thread <;> rw [hth] at ht <;> simpa only [Thread.Ok, hpub, hpop, hcon] using ht
  · show q'.published.map _ = _
    rw [hpub]
    exact h.sent
  · show s.file = (q'.published.take (q'.popped.length + _)).flatMap _
    rw [hpub, hpop]
    exact h.file
  · show s.written + _ = q'.popped.length
    rw [hpop]
    exact h.written

/-- The recorder's thread moves and the ring's lists stand. -/
theorem Inv.consumer (h : Inv msgs s) {a : SpscQueue.Act RawMsg}
    (ha : a = .front ∨ a = .frontTail ∨ a = .pop ∨ a = .emptyReturn)
    (hq : SpscQueue.step cap s.q a = some q') (t : Thread) (written : Nat)
    (ht : t.Ok { s with q := q' }) (hahead : t.ahead = s.thread.ahead)
    (hwritten : written + t.popped = s.written + s.thread.popped) :
    Inv msgs { s with q := q', thread := t, written := written } := by
  obtain ⟨hpub, hpop, hslots, hprod⟩ := consumer_quiet ha hq
  refine ⟨queue_step h.queue hq, h.push.consumer hpub hslots hprod, ?_, ?_, h.fits, h.order,
    h.stopped, ?_, ?_⟩
  · cases t <;> exact ht
  · show q'.published.map _ = _
    rw [hpub]
    exact h.sent
  · show s.file = (q'.published.take (q'.popped.length + t.ahead)).flatMap _
    rw [hpub, hpop, hahead]
    exact h.file
  · show written + t.popped = q'.popped.length
    rw [hpop, hwritten]
    exact h.written

theorem Inv.push_step (h : Inv msgs s) (hs : step s .push = some s') : Inv msgs s' := by
  simp only [step] at hs
  split at hs
  · rename_i msg rest hpush htodo
    have hrun : s.running ≠ false := fun hr => by
      have := (h.stopped hr).2
      rw [htodo] at this
      cases this
    split at hs
    · cases hs
      exact { h with
        order := fun hd => absurd hd (Nat.succ_ne_zero _)
        stopped := fun hr => absurd hr hrun
        thread := h.thread }
    · rename_i hlen
      obtain ⟨q', hq, rfl⟩ := Option.map_eq_some_iff.mp hs
      refine h.producer (.inl rfl) hq _ _ _ (Nat.le_of_not_lt hlen) (fun hd => ?_) fun hr => absurd hr hrun
      have := h.order hd
      rw [hpush, htodo] at this
      simpa [Push.msgs] using this
  · cases hs

theorem Inv.claimHead_step (h : Inv msgs s) (hs : step s .claimHead = some s') : Inv msgs s' := by
  simp only [step] at hs
  split at hs
  · rename_i msg hpush
    obtain ⟨q', hq, rfl⟩ := Option.map_eq_some_iff.mp hs
    have hp := h.push
    have ho := h.order
    have hst := h.stopped
    rw [hpush] at hp ho hst
    have := h.producer (.inr (.inl rfl)) hq (.claiming msg) s.todo s.dropped hp ho hst
    rwa [← hpush] at this
  · cases hs

theorem Inv.full_step (h : Inv msgs s) (hs : step s .full = some s') : Inv msgs s' := by
  simp only [step] at hs
  split at hs
  · rename_i msg hpush
    have hrun : s.running ≠ false := fun hr => by
      have := (h.stopped hr).1
      rw [hpush] at this
      cases this
    obtain ⟨q', hq, rfl⟩ := Option.map_eq_some_iff.mp hs
    have hidle : q'.producer = .idle := by
      obtain ⟨-, hq⟩ := Option.ite_none_right_eq_some.mp hq
      cases hq
      rfl
    exact h.producer (.inr (.inr (.inl rfl))) hq _ _ _ hidle (fun hd => absurd hd (Nat.succ_ne_zero _))
      fun hr => absurd hr hrun
  · cases hs

theorem Inv.fill_step (h : Inv msgs s) (hs : step s .fill = some s') : Inv msgs s' := by
  simp only [step] at hs
  split at hs
  · rename_i msg i hpush hprod
    obtain ⟨q', hq, rfl⟩ := Option.map_eq_some_iff.mp hs
    have hqi := queue_step h.queue hq
    simp only [SpscQueue.step, hprod] at hq
    obtain rfl := Option.some.inj hq
    obtain ⟨r, w, hi⟩ := h.queue
    have hp := h.push
    rw [hpush] at hp
    have hok := hi.producer
    rw [hprod] at hok
    refine ⟨hqi, ⟨hp, .inl ⟨i, rfl, hok.1, ?_⟩⟩, h.thread, h.sent, h.fits, fun hd => ?_,
      fun hr => ?_, h.file, h.written⟩
    · show (Function.update s.q.slots i _ i).frame = _
      rw [Function.update_self, RawMsg.frame_put hp]
    · have := h.order hd
      rwa [hpush] at this
    · have := (h.stopped hr).1
      rw [hpush] at this
      cases this
  · cases hs

theorem Inv.publish_step (h : Inv msgs s) (hs : step s .publish = some s') : Inv msgs s' := by
  simp only [step] at hs
  split at hs
  · rename_i msg hpush
    obtain ⟨q', hq, rfl⟩ := Option.map_eq_some_iff.mp hs
    obtain ⟨hpub, -, hslots, -⟩ := producer_quiet (.inr (.inr (.inr rfl))) hq
    have hp := h.push
    have ho := h.order
    have hst := h.stopped
    rw [hpush] at hp ho hst
    have hp' : (Push.filled msg).Ok q' := by
      obtain ⟨hlen, ⟨i, hprod, hi, hframe⟩ | ⟨t, hprod, -⟩⟩ := hp
      · refine ⟨hlen, .inr ⟨s.q.tail, ?_, ?_⟩⟩
        · simp only [SpscQueue.step, hprod] at hq
          obtain rfl := Option.some.inj hq
          rfl
        · rw [hslots, hpub, ← hi]
          exact hframe
      · simp only [SpscQueue.step, hprod] at hq
        cases hq
    have := h.producer (.inr (.inr (.inr rfl))) hq (.filled msg) s.todo s.dropped hp' ho hst
    rwa [← hpush] at this
  · cases hs

theorem Inv.publishTail_step (h : Inv msgs s) (hs : step s .publishTail = some s') :
    Inv msgs s' := by
  simp only [step] at hs
  split at hs
  · rename_i msg hpush
    obtain ⟨q', hq, rfl⟩ := Option.map_eq_some_iff.mp hs
    have hqi := queue_step h.queue hq
    have hrun : s.running ≠ false := fun hr => by
      have := (h.stopped hr).1
      rw [hpush] at this
      cases this
    have hahead := h.ahead_le
    obtain ⟨r, w, hi⟩ := h.queue
    have hp := h.push
    rw [hpush] at hp
    obtain ⟨hlen, ⟨i, hprod, -⟩ | ⟨t, hprod, hframe⟩⟩ := hp
    · simp only [SpscQueue.step, hprod] at hq
      cases hq
    · have hok := hi.producer
      rw [hprod] at hok
      simp only [SpscQueue.step, hprod] at hq
      obtain rfl := Option.some.inj hq
      have hslot : cap.slot t = s.q.published.length % cap.size := by
        rw [hok.1, hi.tail, Cap.slot_ofNat]
      refine ⟨hqi, rfl, ?_, ?_, ?_, fun hd => ?_, fun hr => absurd hr hrun, ?_, h.written⟩
      · have ht := h.thread
        cases hth : s.thread with
        | loop => rw [hth] at ht; exact ht
        | drain last n =>
          rw [hth] at ht
          exact ⟨ht.1, fun hl => absurd (ht.1 hl) hrun⟩
        | wrote last n => rw [hth] at ht; exact ht
        | exited => rw [hth] at ht; exact absurd ht.1 hrun
      · show (s.q.published ++ [s.q.slots (cap.slot t)]).map _ = (s.sent ++ [msg]).map _
        rw [List.map_append, List.map_append, h.sent, hslot, List.map_singleton, hframe]
        rfl
      · intro m hm
        rcases List.mem_append.mp hm with hm | hm
        · exact h.fits m hm
        · rw [List.mem_singleton.mp hm]
          exact hlen
      · have := h.order hd
        rw [hpush] at this
        simpa [Push.msgs] using this
      · show s.file = ((s.q.published ++ [_]).take (s.q.popped.length + s.thread.ahead)).flatMap _
        rw [List.take_append_of_le_length hahead]
        exact h.file
  · cases hs

theorem Inv.front_step (h : Inv msgs s) (hs : step s .front = some s') : Inv msgs s' := by
  simp only [step] at hs
  split at hs
  · rename_i last n hth hcon
    obtain ⟨q', hq, rfl⟩ := Option.map_eq_some_iff.mp hs
    have ht := h.thread
    rw [hth] at ht
    have hne : q'.consumer ≠ .empty := by
      simp only [SpscQueue.step, hcon] at hq
      split at hq <;> cases hq <;> exact fun he => by cases he
    have := h.consumer (.inl rfl) hq (.drain last n) s.written
      ⟨ht.1, fun _ he => absurd he hne⟩ (by rw [hth]) (by rw [hth])
    rwa [← hth] at this
  · cases hs

theorem Inv.frontTail_step (h : Inv msgs s) (hs : step s .frontTail = some s') : Inv msgs s' := by
  simp only [step] at hs
  obtain ⟨q', hq, rfl⟩ := Option.map_eq_some_iff.mp hs
  obtain ⟨t, hcon⟩ : ∃ t, s.q.consumer = .frontTail t := by
    simp only [SpscQueue.step] at hq
    split at hq
    · exact ⟨_, ‹_›⟩
    · cases hq
  have ht := h.thread
  have hempty : q'.consumer = .empty → q'.popped.length = q'.published.length := by
    intro he
    obtain ⟨r, w, hi⟩ := h.queue
    have hok := hi.consumer.2
    rw [hcon] at hok
    simp only [SpscQueue.step, hcon] at hq
    split at hq
    · rename_i htail
      cases hq
      exact (hi.empty_iff.mp (hok.symm.trans htail)).symm
    · cases hq
      cases he
  cases hth : s.thread with
  | loop =>
    rw [hth] at ht
    have hloop := ht.symm.trans hcon
    cases hloop
  | drain last n =>
    rw [hth] at ht
    exact h.consumer (.inr (.inl rfl)) hq (.drain last n) s.written
      ⟨ht.1, fun _ => hempty⟩ (by rw [hth]) (by rw [hth])
  | wrote last n =>
    rw [hth] at ht
    rcases ht.2 with ⟨i, hc⟩ | ⟨t', hc⟩
    · have hwrite := hc.symm.trans hcon
      cases hwrite
    · have hwrite := hc.symm.trans hcon
      cases hwrite
  | exited =>
    rw [hth] at ht
    have hexit := ht.2.2.symm.trans hcon
    cases hexit

/-- The bytes written are those of the oldest unpopped message. -/
theorem Inv.gzwrite_step (h : Inv msgs s) (hs : step s .gzwrite = some s') : Inv msgs s' := by
  simp only [step] at hs
  split at hs
  · rename_i last n i hth hcon
    cases hs
    have ht := h.thread
    have hf := h.file
    have hw := h.written
    rw [hth] at ht hf hw
    obtain ⟨r, w, hi⟩ := h.queue
    obtain ⟨rfl, hlt⟩ := hi.held (i := i) (by rw [hcon]; rfl)
    refine ⟨⟨r, w, hi⟩, h.push, ⟨ht.1, .inl ⟨_, hcon⟩⟩, h.sent, h.fits, h.order, h.stopped, ?_, hw⟩
    show s.file ++ _ = (s.q.published.take (s.q.popped.length + 1)).flatMap RawMsg.frame
    rw [List.take_add_one, hi.front_slot hlt, List.flatMap_append, hf]
    simp [Thread.ahead]
  · cases hs

theorem Inv.pop_step (h : Inv msgs s) (hs : step s .pop = some s') : Inv msgs s' := by
  simp only [step] at hs
  split at hs
  · rename_i last n hth
    obtain ⟨q', hq, rfl⟩ := Option.map_eq_some_iff.mp hs
    have ht := h.thread
    rw [hth] at ht
    have hpopping : ∃ t, q'.consumer = .popping t := by
      simp only [SpscQueue.step] at hq
      split at hq
      · cases hq
        exact ⟨_, rfl⟩
      · cases hq
    have := h.consumer (.inr (.inr (.inl rfl))) hq (.wrote last n) s.written
      ⟨ht.1, .inr hpopping⟩ (by rw [hth]) (by rw [hth])
    rwa [← hth] at this
  · cases hs

theorem Inv.popHead_step (h : Inv msgs s) (hs : step s .popHead = some s') : Inv msgs s' := by
  simp only [step] at hs
  split at hs
  · rename_i last n hth
    obtain ⟨q', hq, rfl⟩ := Option.map_eq_some_iff.mp hs
    have hqi := queue_step h.queue hq
    have ht := h.thread
    have hf := h.file
    have hw := h.written
    rw [hth] at ht hf hw
    simp only [SpscQueue.step] at hq
    split at hq
    · cases hq
      refine ⟨hqi, h.push.consumer rfl rfl rfl, ⟨ht.1, fun _ he => by cases he⟩, h.sent, h.fits, h.order,
        h.stopped, ?_, ?_⟩
      · show s.file = (s.q.published.take ((s.q.popped ++ [_]).length + 0)).flatMap RawMsg.frame
        rw [hf, List.length_append]
        rfl
      · show s.written + (n + 1) = (s.q.popped ++ [_]).length
        rw [List.length_append, ← hw]
        rfl
    · cases hq
  · cases hs

theorem Inv.drained_step (h : Inv msgs s) (hs : step s .drained = some s') : Inv msgs s' := by
  simp only [step] at hs
  split at hs
  · rename_i last n hth
    obtain ⟨q', hq, rfl⟩ := Option.map_eq_some_iff.mp hs
    have ht := h.thread
    rw [hth] at ht
    obtain ⟨hpub, hpop, -⟩ := consumer_quiet (.inr (.inr (.inr rfl))) hq
    have hcon : s.q.consumer = .empty ∧ q'.consumer = .idle := by
      obtain ⟨hc, hq⟩ := Option.ite_none_right_eq_some.mp hq
      cases hq
      exact ⟨hc, rfl⟩
    cases last with
    | true =>
      refine h.consumer (.inr (.inr (.inr rfl))) hq .exited _ ⟨ht.1 rfl, ?_, hcon.2⟩
        (by rw [hth]; rfl) (by rw [hth]; rfl)
      show q'.popped.length = q'.published.length
      rw [hpub, hpop]
      exact ht.2 rfl hcon.1
    | false =>
      exact h.consumer (.inr (.inr (.inr rfl))) hq .loop _ hcon.2 (by rw [hth]; rfl)
        (by rw [hth]; rfl)
  · cases hs

theorem Inv.step (h : Inv msgs s) {a : Act} (hs : Recorder.step s a = some s') : Inv msgs s' := by
  cases a with
  | push => exact h.push_step hs
  | claimHead => exact h.claimHead_step hs
  | full => exact h.full_step hs
  | fill => exact h.fill_step hs
  | publish => exact h.publish_step hs
  | publishTail => exact h.publishTail_step hs
  | stop =>
    obtain ⟨hc, hs⟩ := Option.ite_none_right_eq_some.mp hs
    cases hs
    refine { h with stopped := fun _ => hc, thread := ?_ }
    have ht := h.thread
    cases hth : s.thread with
    | loop => rw [hth] at ht; exact ht
    | drain last n => rw [hth] at ht; exact ⟨fun _ => rfl, ht.2⟩
    | wrote last n => rw [hth] at ht; exact ⟨fun _ => rfl, ht.2⟩
    | exited => rw [hth] at ht; exact ⟨rfl, ht.2⟩
  | load =>
    obtain ⟨hth, hs⟩ := Option.ite_none_right_eq_some.mp hs
    cases hs
    have ht := h.thread
    have hf := h.file
    have hw := h.written
    rw [hth] at ht hf hw
    refine { h with thread := ⟨?_, fun _ he => ?_⟩, file := hf, written := hw }
    · intro hl
      simpa using hl
    · exact absurd (ht.symm.trans he) nofun
  | front => exact h.front_step hs
  | frontTail => exact h.frontTail_step hs
  | gzwrite => exact h.gzwrite_step hs
  | pop => exact h.pop_step hs
  | popHead => exact h.popHead_step hs
  | drained => exact h.drained_step hs

theorem init_inv (msgs : List Bytes) : Inv msgs (init msgs) where
  queue := ⟨0, 0, SpscQueue.init_inv cap _⟩
  push := rfl
  thread := rfl
  sent := rfl
  fits := nofun
  order := fun _ => rfl
  stopped := nofun
  file := rfl
  written := rfl

/-- When the thread has exited and nothing was dropped, every message is in the file, in
order. -/
theorem exited_file {past : List State} (h : History step (init msgs) s past)
    (hexit : s.thread = .exited) (hdrop : s.dropped = 0) :
    s.file = msgs.flatMap frameOf ∧ (∀ m ∈ msgs, m.length ≤ kData) ∧ s.written = msgs.length := by
  have hi : Inv msgs s := h.invariant (init_inv msgs) fun s a s' hi hs => hi.step hs
  have ht := hi.thread
  have hf := hi.file
  have hw := hi.written
  rw [hexit] at ht hf hw
  obtain ⟨hrun, hlen, -⟩ := ht
  obtain ⟨hpush, htodo⟩ := hi.stopped hrun
  have hsent : s.sent = msgs := by
    have := hi.order hdrop
    rw [hpush, htodo] at this
    simpa [Push.msgs] using this
  have hmap := hi.sent
  rw [hsent] at hmap
  refine ⟨?_, ?_, ?_⟩
  · have htake : s.q.published.take (s.q.popped.length + Thread.exited.ahead) = s.q.published :=
      List.take_of_length_le hlen.ge
    rw [hf, htake, List.flatMap_def, hmap, ← List.flatMap_def]
  · rw [← hsent]
    exact hi.fits
  · have := congrArg List.length hmap
    rw [List.length_map, List.length_map] at this
    rw [← this, ← hlen]
    exact hw

end Stok.Recorder
