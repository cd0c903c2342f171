import Mathlib
import Stok.Lib.Interleaving

/-!
# The sleeping consumer (`core/waker.hpp`)

`Waker::wait` and `Waker::notify` as interleaved steps over sequentially consistent memory. A
producer publishes any number of items to any of the queues and then calls `notify`; the
consumer pops while it is outside `wait`. `ready` lists the queues in the order the `has_work`
predicate of the consumer looks at them, one load for each. `ppoll` returns when the counter of
the eventfd is positive, and may return at any time by its timeout.
-/

namespace Stok.Waker

open Stok.Lib

/-- Where a producer is. -/
inductive Producer where
  | idle
  /-- Has published, and is to load `sleeping_`. -/
  | published
  /-- In `notify`, saw `sleeping_`. -/
  | waking
  deriving DecidableEq, Repr

/-- Where the consumer is. -/
inductive Consumer (κ : Type*) where
  | running
  /-- In `wait`, sleep announced; the queues `has_work` has still to look at. -/
  | checking (rest : List κ)
  /-- Blocked in `ppoll`. -/
  | blocked
  /-- About to clear `sleeping_`. -/
  | clearing
  /-- About to read the eventfd. -/
  | draining
  deriving DecidableEq, Repr

structure State (ι κ : Type*) where
  sleeping : Bool
  /-- The counter of the eventfd. -/
  counter : Nat
  queue : κ → Nat
  consumer : Consumer κ
  producer : ι → Producer

inductive Act (ι κ : Type*) where
  | publish (i : ι) (q : κ) | notify (i : ι) | write (i : ι)
  | pop (q : κ) | announce | check | poll | wake | timeout | clear | drain

def init (ι κ : Type*) : State ι κ :=
  { sleeping := false, counter := 0, queue := fun _ => 0, consumer := .running,
    producer := fun _ => .idle }

/-- The largest counter of an eventfd; a write that would pass it fails and changes nothing. -/
def kMaxCounter : Nat := 2 ^ 64 - 2

variable {ι κ : Type*}

def step [DecidableEq ι] [DecidableEq κ] (ready : List κ) (s : State ι κ) : Act ι κ → Option (State ι κ)
  | .publish i q =>
    match s.producer i with
    | .idle | .published =>
      some { s with queue := Function.update s.queue q (s.queue q + 1),
                    producer := Function.update s.producer i .published }
    | .waking => none
  | .notify i =>
    match s.producer i with
    | .idle | .published =>
      some { s with producer := Function.update s.producer i
                      (if s.sleeping then .waking else .idle) }
    | .waking => none
  | .write i =>
    match s.producer i with
    | .waking =>
      some { s with counter := if s.counter < kMaxCounter then s.counter + 1 else s.counter,
                    producer := Function.update s.producer i .idle }
    | _ => none
  | .pop q =>
    if s.consumer = .running ∧ 0 < s.queue q then
      some { s with queue := Function.update s.queue q (s.queue q - 1) }
    else none
  | .announce =>
    if s.consumer = .running then some { s with sleeping := true, consumer := .checking ready }
    else none
  | .check =>
    match s.consumer with
    | .checking (q :: rest) =>
      some { s with consumer := if 0 < s.queue q then .clearing else .checking rest }
    | _ => none
  | .poll =>
    if s.consumer = .checking [] then
      some { s with consumer := if 0 < s.counter then .clearing else .blocked }
    else none
  | .wake =>
    if s.consumer = .blocked ∧ 0 < s.counter then some { s with consumer := .clearing } else none
  | .timeout =>
    if s.consumer = .blocked then some { s with consumer := .clearing } else none
  | .clear =>
    if s.consumer = .clearing then some { s with sleeping := false, consumer := .draining }
    else none
  | .drain =>
    if s.consumer = .draining then some { s with counter := 0, consumer := .running } else none

/-- Something will end the sleep: the eventfd is readable, or a producer has not finished. -/
def Pending (s : State ι κ) : Prop := 0 < s.counter ∨ ∃ i, s.producer i ≠ .idle

/-- Queue `q` was seen empty since sleep was announced. -/
def Consumer.Passed (ready : List κ) (q : κ) : Consumer κ → Prop
  | .checking rest => q ∈ ready ∧ q ∉ rest
  | .blocked => q ∈ ready
  | _ => False

/-- The flag that producers read is up. -/
def Consumer.Announced : Consumer κ → Prop
  | .checking _ | .blocked => True
  | _ => False

/-- The Dekker handshake: the flag is up from the announcement on, so an item put into a queue
after the consumer looked has a producer that has still to read the flag or to write. -/
structure Inv (ready : List κ) (s : State ι κ) : Prop where
  sleeping : s.consumer.Announced → s.sleeping = true
  pending : ∀ q, s.consumer.Passed ready q → 0 < s.queue q → Pending s

theorem init_inv (ready : List κ) : Inv ready (init ι κ) := ⟨nofun, nofun⟩

theorem Consumer.Passed.announced {ready : List κ} {q : κ} {c : Consumer κ} (h : c.Passed ready q) :
    c.Announced := by
  cases c <;> trivial

theorem Inv.publish [DecidableEq ι] [DecidableEq κ] {ready : List κ} {s : State ι κ} (h : Inv ready s) (i : ι) (q : κ) :
    Inv ready { s with queue := Function.update s.queue q (s.queue q + 1),
                       producer := Function.update s.producer i .published } :=
  ⟨h.sleeping, fun _ _ _ => .inr ⟨i, by simp⟩⟩

/-- A consumer that has looked at a queue has its flag up, so `notify` goes on to the write. -/
theorem Inv.notify [DecidableEq ι] {ready : List κ} {s : State ι κ} (h : Inv ready s) (i : ι) :
    Inv ready { s with producer := Function.update s.producer i
                         (if s.sleeping then .waking else .idle) } := by
  refine ⟨h.sleeping, fun q hpass _ => .inr ⟨i, ?_⟩⟩
  have hsl : s.sleeping = true := h.sleeping hpass.announced
  simp [hsl]

theorem Inv.write [DecidableEq ι] {ready : List κ} {s : State ι κ} (h : Inv ready s) (i : ι) :
    Inv ready { s with counter := if s.counter < kMaxCounter then s.counter + 1 else s.counter,
                       producer := Function.update s.producer i .idle } := by
  refine ⟨h.sleeping, fun _ _ _ => .inl ?_⟩
  show 0 < if s.counter < kMaxCounter then s.counter + 1 else s.counter
  unfold kMaxCounter
  split <;> omega

theorem Inv.check {ready : List κ} {s : State ι κ} (h : Inv ready s) {q : κ} {rest : List κ}
    (hc : s.consumer = .checking (q :: rest)) (hq : ¬ 0 < s.queue q) :
    Inv ready { s with consumer := .checking rest } := by
  refine ⟨fun _ => h.sleeping (by rw [hc]; trivial), fun q' hpass hpos => ?_⟩
  have hne : q' ≠ q := by
    rintro rfl
    exact hq hpos
  refine h.pending q' ?_ hpos
  rw [hc]
  exact ⟨hpass.1, List.not_mem_cons_of_ne_of_not_mem hne hpass.2⟩

/-- Steps that end the wait, or happen outside it, have no obligation. -/
theorem Inv.awake {ready : List κ} {s : State ι κ} (hc : ¬ s.consumer.Announced) : Inv ready s :=
  ⟨fun ha => absurd ha hc, fun _ hpass => absurd hpass.announced hc⟩

theorem Inv.step [DecidableEq ι] [DecidableEq κ] {ready : List κ} {s s' : State ι κ} {a : Act ι κ}
    (h : Inv ready s) (hs : step ready s a = some s') : Inv ready s' := by
  cases a with
  | publish i q =>
    simp only [Waker.step] at hs
    split at hs <;> cases hs <;> exact h.publish i q
  | notify i =>
    simp only [Waker.step] at hs
    split at hs <;> cases hs <;> exact h.notify i
  | write i =>
    simp only [Waker.step] at hs
    split at hs <;> cases hs
    exact h.write i
  | pop q =>
    obtain ⟨⟨hc, -⟩, hs⟩ := Option.ite_none_right_eq_some.mp hs
    cases hs
    refine .awake ?_
    show ¬ s.consumer.Announced
    rw [hc]
    exact id
  | announce =>
    obtain ⟨-, hs⟩ := Option.ite_none_right_eq_some.mp hs
    cases hs
    exact ⟨fun _ => rfl, fun q hpass => absurd hpass.1 hpass.2⟩
  | check =>
    simp only [Waker.step] at hs
    split at hs <;> cases hs
    rename_i hc
    split
    · exact .awake id
    · rename_i hq
      exact h.check hc hq
  | poll =>
    obtain ⟨hc, hs⟩ := Option.ite_none_right_eq_some.mp hs
    cases hs
    split
    · exact .awake id
    · refine ⟨fun _ => h.sleeping (by rw [hc]; trivial), fun q hpass hpos => ?_⟩
      refine h.pending q ?_ hpos
      rw [hc]
      exact ⟨hpass, List.not_mem_nil⟩
  | wake =>
    obtain ⟨-, hs⟩ := Option.ite_none_right_eq_some.mp hs
    cases hs
    exact .awake id
  | timeout =>
    obtain ⟨-, hs⟩ := Option.ite_none_right_eq_some.mp hs
    cases hs
    exact .awake id
  | clear =>
    obtain ⟨-, hs⟩ := Option.ite_none_right_eq_some.mp hs
    cases hs
    exact .awake id
  | drain =>
    obtain ⟨-, hs⟩ := Option.ite_none_right_eq_some.mp hs
    cases hs
    exact .awake id

/-- **No wake-up is lost.** No interleaving leaves the consumer blocked on a zero counter with
an item in one of its queues and no producer under way. -/
theorem no_lost_wakeup [DecidableEq ι] [DecidableEq κ] (ready : List κ) (s : State ι κ)
    (past : List (State ι κ)) (h : History (step ready) (init ι κ) s past) :
    ¬ (s.consumer = .blocked ∧ s.counter = 0 ∧ (∃ q ∈ ready, 0 < s.queue q) ∧
      ∀ i, s.producer i = .idle) := by
  rintro ⟨hc, hz, ⟨q, hq, hpos⟩, hidle⟩
  have hi : Inv ready s := h.invariant (init_inv ready) fun _ _ _ => Inv.step
  rcases hi.pending q (by rw [hc]; exact hq) hpos with hn | ⟨i, hi⟩
  · omega
  · exact hi (hidle i)

/-- Both producers publish after the second look at the queues: the consumer blocks, and one
write is enough. -/
theorem no_lost_wakeup_two_producers : ∃ (s : State Bool Unit) (past : List (State Bool Unit)),
    replay (step [()]) (init Bool Unit) []
      [.announce, .check, .publish true (), .publish false (), .poll, .notify true, .write true,
        .wake, .clear, .notify false, .drain, .announce, .check] = some (s, past) ∧
    s.queue () = 2 ∧ s.counter = 0 ∧ (∀ i, s.producer i = .idle) ∧ s.consumer ≠ .blocked := by
  refine ⟨_, _, rfl, rfl, rfl, Bool.rec rfl rfl, fun hb => ?_⟩
  refine no_lost_wakeup [()] _ _ (History.start.replay
    [.announce, .check, .publish true (), .publish false (), .poll, .notify true, .write true,
      .wake, .clear, .notify false, .drain, .announce, .check] rfl) ⟨hb, rfl, ?_⟩
  exact ⟨⟨(), List.mem_singleton_self _, by decide⟩, Bool.rec rfl rfl⟩

end Stok.Waker
