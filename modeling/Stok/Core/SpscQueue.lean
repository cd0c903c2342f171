import Mathlib
import Stok.Lib.Interleaving
import Stok.Lib.Ring

/-!
# The single-producer ring (`core/spsc_queue.hpp`)

One step is one atomic access of the producer or the consumer together with the private work
up to its next one; an item is written by any number of steps between `try_claim` and
`publish`. `try_push` is a claim, a write and a publish. Atomics are sequentially consistent
and the indices are 64-bit words. `published` and `popped` record the items in the order the
index stores made them visible.

A slot may be claimed again without having been published: the callers drop a claim by not
calling `publish`. `pop` follows a `front` that returned a slot. The two loads of `empty` may
come in either order. The caller takes a null or empty answer in a step of its own, so a call
is a stretch of consecutive states.
-/

namespace Stok.SpscQueue

open Stok.Lib Stok.Lib.Ring

/-- Where the producer is. -/
inductive Producer where
  | idle
  /-- In `try_claim`, `tail_` loaded and full by the cached head. -/
  | claimHead (t : UInt64)
  /-- `try_claim` returned null. -/
  | full
  /-- `try_claim` returned a slot. -/
  | claimed (i : Nat)
  /-- In `publish`, `tail_` loaded. -/
  | publishing (t : UInt64)
  deriving DecidableEq, Repr

/-- Where the consumer is. `held` is the slot an earlier `front` returned. -/
inductive Consumer where
  | idle
  /-- In `front`, `head_` loaded and empty by the cached tail. -/
  | frontTail (h : UInt64)
  /-- `front` returned null, or `empty` returned true. -/
  | empty
  /-- `front` returned a slot. -/
  | exposed (i : Nat)
  /-- In `pop`, `head_` loaded. -/
  | popping (h : UInt64)
  /-- In `empty`, `head_` loaded. -/
  | emptyTail (h : UInt64) (held : Option Nat)
  /-- In `empty`, `tail_` loaded. -/
  | emptyHead (t : UInt64) (held : Option Nat)
  deriving DecidableEq, Repr

/-- The slot the consumer may read. -/
def Consumer.held : Consumer → Option Nat
  | exposed i => some i
  | emptyTail _ held | emptyHead _ held => held
  | _ => none

/-- Back to the caller of an `empty` that returned false. -/
def Consumer.resume : Option Nat → Consumer
  | some i => .exposed i
  | none => .idle

structure State (α : Type*) where
  slots : Nat → α
  head : UInt64
  cachedTail : UInt64
  tail : UInt64
  cachedHead : UInt64
  producer : Producer
  consumer : Consumer
  published : List α
  popped : List α

inductive Act (α : Type*) where
  | claim | claimHead | fullReturn | write (v : α) | publish | publishTail
  | front | frontTail | pop | popHead
  | empty (tailFirst : Bool) | emptyLast | emptyReturn

variable {α : Type*}

def init (fill : Nat → α) : State α :=
  { slots := fill, head := 0, cachedTail := 0, tail := 0, cachedHead := 0, producer := .idle,
    consumer := .idle, published := [], popped := [] }

def step (c : Cap) (s : State α) : Act α → Option (State α)
  | .claim =>
    match s.producer with
    | .idle | .claimed _ =>
      if s.tail - s.cachedHead ≥ c.size64 then some { s with producer := .claimHead s.tail }
      else some { s with producer := .claimed (c.slot s.tail) }
    | _ => none
  | .claimHead =>
    match s.producer with
    | .claimHead t =>
      if t - s.head ≥ c.size64 then some { s with cachedHead := s.head, producer := .full }
      else some { s with cachedHead := s.head, producer := .claimed (c.slot t) }
    | _ => none
  | .fullReturn => if s.producer = .full then some { s with producer := .idle } else none
  | .write v =>
    match s.producer with
    | .claimed i => some { s with slots := Function.update s.slots i v }
    | _ => none
  | .publish =>
    match s.producer with
    | .claimed _ => some { s with producer := .publishing s.tail }
    | _ => none
  | .publishTail =>
    match s.producer with
    | .publishing t =>
      some { s with tail := t + 1, producer := .idle,
                    published := s.published ++ [s.slots (c.slot t)] }
    | _ => none
  | .front =>
    match s.consumer with
    | .idle | .exposed _ =>
      if s.head = s.cachedTail then some { s with consumer := .frontTail s.head }
      else some { s with consumer := .exposed (c.slot s.head) }
    | _ => none
  | .frontTail =>
    match s.consumer with
    | .frontTail h =>
      if h = s.tail then some { s with cachedTail := s.tail, consumer := .empty }
      else some { s with cachedTail := s.tail, consumer := .exposed (c.slot h) }
    | _ => none
  | .pop =>
    match s.consumer with
    | .exposed _ => some { s with consumer := .popping s.head }
    | _ => none
  | .popHead =>
    match s.consumer with
    | .popping h =>
      some { s with head := h + 1, consumer := .idle,
                    popped := s.popped ++ [s.slots (c.slot h)] }
    | _ => none
  | .empty tailFirst =>
    match s.consumer with
    | .idle | .exposed _ =>
      if tailFirst then some { s with consumer := .emptyHead s.tail s.consumer.held }
      else some { s with consumer := .emptyTail s.head s.consumer.held }
    | _ => none
  | .emptyLast =>
    match s.consumer with
    | .emptyTail h held =>
      some { s with consumer := if h = s.tail then .empty else .resume held }
    | .emptyHead t held =>
      some { s with consumer := if s.head = t then .empty else .resume held }
    | _ => none
  | .emptyReturn => if s.consumer = .empty then some { s with consumer := .idle } else none

/-- The ring holds as many unpopped items as it has slots. -/
def Full (c : Cap) (s : State α) : Prop := s.published.length = s.popped.length + c.size

/-- Every published item has been popped. -/
def Empty (s : State α) : Prop := s.published.length = s.popped.length

/-- What the producer's place says of the counters: `r` is the number its cached head stands for. -/
def Producer.Ok (c : Cap) (s : State α) (r : Nat) : Producer → Prop
  | .idle | .full => True
  | .claimHead t => t = s.tail
  | .claimed i => i = s.published.length % c.size ∧ s.published.length < r + c.size
  | .publishing t => t = s.tail ∧ s.published.length < r + c.size

/-- What the consumer's place says of the counters: `w` is the number its cached tail stands for. -/
def Consumer.Ok (c : Cap) (s : State α) (w : Nat) (p : Consumer) : Prop :=
  (∀ i, p.held = some i → i = s.popped.length % c.size ∧ s.popped.length < w) ∧
  match p with
  | .frontTail h | .emptyTail h _ => h = s.head
  | .popping h => h = s.head ∧ s.popped.length < w
  | _ => True

/-- The counters stand for the numbers of items, each cached counter for a past value of the
other side's, and the unpopped items lie in their slots. -/
structure Inv (c : Cap) (s : State α) (r w : Nat) : Prop where
  tail : s.tail = .ofNat s.published.length
  head : s.head = .ofNat s.popped.length
  cachedHead : s.cachedHead = .ofNat r
  cachedTail : s.cachedTail = .ofNat w
  r_le : r ≤ s.popped.length
  le_w : s.popped.length ≤ w
  w_le : w ≤ s.published.length
  room : s.published.length ≤ r + c.size
  fifo : s.popped <+: s.published
  slots : ∀ j, s.popped.length ≤ j → j < s.published.length →
    s.published[j]? = some (s.slots (j % c.size))
  producer : s.producer.Ok c s r
  consumer : s.consumer.Ok c s w

/-- The transitions of `step`, one constructor for each branch of each access. -/
inductive Move (c : Cap) (s : State α) : State α → Prop where
  | claimStale : s.tail - s.cachedHead ≥ c.size64 → Move c s { s with producer := .claimHead s.tail }
  | claimRoom : ¬ s.tail - s.cachedHead ≥ c.size64 →
      Move c s { s with producer := .claimed (c.slot s.tail) }
  | headFull {t : UInt64} : s.producer = .claimHead t → t - s.head ≥ c.size64 →
      Move c s { s with cachedHead := s.head, producer := .full }
  | headRoom {t : UInt64} : s.producer = .claimHead t → ¬ t - s.head ≥ c.size64 →
      Move c s { s with cachedHead := s.head, producer := .claimed (c.slot t) }
  | fullReturn : Move c s { s with producer := .idle }
  | write {i : Nat} {v : α} : s.producer = .claimed i →
      Move c s { s with slots := Function.update s.slots i v }
  | publish {i : Nat} : s.producer = .claimed i → Move c s { s with producer := .publishing s.tail }
  | publishTail {t : UInt64} : s.producer = .publishing t →
      Move c s { s with tail := t + 1, producer := .idle,
                        published := s.published ++ [s.slots (c.slot t)] }
  | frontStale : s.head = s.cachedTail → Move c s { s with consumer := .frontTail s.head }
  | frontSeen : s.head ≠ s.cachedTail → Move c s { s with consumer := .exposed (c.slot s.head) }
  | tailEmpty {h : UInt64} : s.consumer = .frontTail h → h = s.tail →
      Move c s { s with cachedTail := s.tail, consumer := .empty }
  | tailSeen {h : UInt64} : s.consumer = .frontTail h → h ≠ s.tail →
      Move c s { s with cachedTail := s.tail, consumer := .exposed (c.slot h) }
  | pop {i : Nat} : s.consumer = .exposed i → Move c s { s with consumer := .popping s.head }
  | popHead {h : UInt64} : s.consumer = .popping h →
      Move c s { s with head := h + 1, consumer := .idle,
                        popped := s.popped ++ [s.slots (c.slot h)] }
  | emptyFromTail : Move c s { s with consumer := .emptyHead s.tail s.consumer.held }
  | emptyFromHead : Move c s { s with consumer := .emptyTail s.head s.consumer.held }
  | emptyTrue {held : Option Nat} :
      s.consumer = .emptyTail s.tail held ∨ s.consumer = .emptyHead s.head held →
      Move c s { s with consumer := .empty }
  | emptyFalse : Move c s { s with consumer := .resume s.consumer.held }
  | emptyReturn : Move c s { s with consumer := .idle }

theorem step_move {c : Cap} {s s' : State α} {a : Act α} (h : step c s a = some s') :
    Move c s s' := by
  cases a with
  | claim =>
    simp only [step] at h
    split at h <;> try cases h
    all_goals
      split at h <;> cases h
      · exact .claimStale (by assumption)
      · exact .claimRoom (by assumption)
  | claimHead =>
    simp only [step] at h
    split at h <;> try cases h
    split at h <;> cases h
    · exact .headFull (by assumption) (by assumption)
    · exact .headRoom (by assumption) (by assumption)
  | fullReturn =>
    obtain ⟨-, h⟩ := Option.ite_none_right_eq_some.mp h
    cases h
    exact .fullReturn
  | write v =>
    simp only [step] at h
    split at h <;> cases h
    exact .write (by assumption)
  | publish =>
    simp only [step] at h
    split at h <;> cases h
    exact .publish (by assumption)
  | publishTail =>
    simp only [step] at h
    split at h <;> cases h
    exact .publishTail (by assumption)
  | front =>
    simp only [step] at h
    split at h <;> try cases h
    all_goals
      split at h <;> cases h
      · exact .frontStale (by assumption)
      · exact .frontSeen (by assumption)
  | frontTail =>
    simp only [step] at h
    split at h <;> try cases h
    split at h <;> cases h
    · exact .tailEmpty (by assumption) (by assumption)
    · exact .tailSeen (by assumption) (by assumption)
  | pop =>
    simp only [step] at h
    split at h <;> cases h
    exact .pop (by assumption)
  | popHead =>
    simp only [step] at h
    split at h <;> cases h
    exact .popHead (by assumption)
  | empty tailFirst =>
    simp only [step] at h
    split at h <;> try cases h
    all_goals
      split at h <;> cases h
      · exact .emptyFromTail
      · exact .emptyFromHead
  | emptyLast =>
    simp only [step] at h
    split at h <;> cases h
    · rename_i x held hp
      split
      · rename_i he; subst he; exact .emptyTrue (.inl hp)
      · rw [show held = s.consumer.held by rw [hp]; rfl]; exact .emptyFalse
    · rename_i x held hp
      split
      · rename_i he; subst he; exact .emptyTrue (.inr hp)
      · rw [show held = s.consumer.held by rw [hp]; rfl]; exact .emptyFalse

  | emptyReturn =>
    obtain ⟨-, h⟩ := Option.ite_none_right_eq_some.mp h
    cases h
    exact .emptyReturn

section Inv

variable {c : Cap} {s s' : State α} {r w : Nat}

theorem init_inv (c : Cap) (fill : Nat → α) : Inv c (init fill) 0 0 := by
  refine ⟨rfl, rfl, rfl, rfl, le_rfl, le_rfl, le_rfl, Nat.zero_le _, List.prefix_rfl, ?_, trivial, ?_⟩
  · intro j _ hj
    exact absurd hj (Nat.not_lt_zero j)
  · exact ⟨nofun, trivial⟩

theorem Inv.not_stale (h : Inv c s r w) (hr : ¬ s.tail - s.cachedHead ≥ c.size64) :
    s.published.length < r + c.size := by
  have := h.r_le; have := h.le_w; have := h.w_le
  rw [h.tail, h.cachedHead, c.size64_le (by omega) h.room] at hr
  omega

theorem Inv.le_room (h : Inv c s r w) : s.published.length ≤ s.popped.length + c.size := by
  have := h.r_le; have := h.room
  omega

theorem Inv.popped_le (h : Inv c s r w) : s.popped.length ≤ s.published.length :=
  h.le_w.trans h.w_le

theorem Inv.full_iff (h : Inv c s r w) : s.tail - s.head ≥ c.size64 ↔ Full c s := by
  have := h.le_room
  rw [h.tail, h.head, c.size64_le h.popped_le h.le_room, Full]
  omega

theorem Inv.empty_iff (h : Inv c s r w) : s.head = s.tail ↔ Empty s := by
  have := h.le_room; have := c.size_le
  rw [h.tail, h.head, Ring.ofNat_eq_iff h.popped_le (by omega), Empty]
  exact eq_comm

theorem Inv.seen (h : Inv c s r w) (hne : s.head ≠ s.cachedTail) : s.popped.length < w := by
  refine lt_of_le_of_ne h.le_w fun he => hne ?_
  rw [h.head, h.cachedTail, he]

/-- The producer's own steps in `try_claim`. -/
theorem Inv.producer_moves (h : Inv c s r w) {p : Producer} (hp : p.Ok c s r) :
    Inv c { s with producer := p } r w :=
  { h with producer := hp, consumer := h.consumer }

theorem Inv.consumer_moves (h : Inv c s r w) {p : Consumer} (hp : p.Ok c s w) :
    Inv c { s with consumer := p } r w :=
  { h with producer := h.producer, consumer := hp }

/-- A refreshed copy of the other side's counter stands for its present number. -/
theorem Inv.reload_head (h : Inv c s r w) {p : Producer} (hp : p.Ok c s s.popped.length) :
    Inv c { s with cachedHead := s.head, producer := p } s.popped.length w :=
  { h with
    cachedHead := h.head, r_le := le_rfl, room := h.le_room, producer := hp,
    consumer := h.consumer }

theorem Inv.reload_tail (h : Inv c s r w) {p : Consumer} (hp : p.Ok c s s.published.length) :
    Inv c { s with cachedTail := s.tail, consumer := p } r s.published.length :=
  { h with
    cachedTail := h.tail, le_w := h.popped_le, w_le := le_rfl, producer := h.producer,
    consumer := hp }

/-- A claimed slot is none of those that hold unpopped items. -/
theorem Inv.claimed_free (h : Inv c s r w) {i : Nat} (hp : s.producer = .claimed i) {j : Nat}
    (hj : s.popped.length ≤ j) (hlt : j < s.published.length) : j % c.size ≠ i := by
  have hok := h.producer
  rw [hp] at hok
  obtain ⟨rfl, hroom⟩ := hok
  intro he
  have := h.r_le
  exact absurd (Ring.eq_of_mod_eq hlt.le (by omega) he) hlt.ne

theorem Inv.write (h : Inv c s r w) {i : Nat} {v : α} (hp : s.producer = .claimed i) :
    Inv c { s with slots := Function.update s.slots i v } r w := by
  refine { h with slots := ?_, producer := ?_, consumer := h.consumer }
  · intro j hj hlt
    show _ = some (Function.update s.slots i v (j % c.size))
    rw [Function.update_of_ne (h.claimed_free hp hj hlt)]
    exact h.slots j hj hlt
  · have := h.producer
    rw [hp] at this
    rw [hp]
    exact this

theorem Inv.publishTail (h : Inv c s r w) {t : UInt64} (hp : s.producer = .publishing t) :
    Inv c { s with tail := t + 1, producer := .idle,
                   published := s.published ++ [s.slots (c.slot t)] } r w := by
  have hok := h.producer
  rw [hp] at hok
  obtain ⟨rfl, hroom⟩ := hok
  have hl := h.w_le
  refine { h with tail := ?_, w_le := ?_, room := ?_, fifo := ?_, slots := ?_, producer := trivial,
                  consumer := h.consumer }
  · rw [h.tail, Ring.ofNat_succ, List.length_append]
    rfl
  · rw [List.length_append]
    exact hl.trans (Nat.le_add_right _ _)
  · rw [List.length_append]
    exact hroom
  · exact h.fifo.trans (List.prefix_append _ _)
  · intro j hj hlt
    rw [List.length_append, List.length_singleton] at hlt
    rcases Nat.lt_or_eq_of_le (Nat.le_of_lt_succ hlt) with hlt | rfl
    · rw [List.getElem?_append_left hlt]
      exact h.slots j hj hlt
    · rw [h.tail, c.slot_ofNat, List.getElem?_concat_length]

/-- The slot at the head holds the oldest unpopped item. -/
theorem Inv.front_slot (h : Inv c s r w) (hlt : s.popped.length < w) :
    s.published[s.popped.length]? = some (s.slots (s.popped.length % c.size)) :=
  h.slots _ le_rfl (lt_of_lt_of_le hlt h.w_le)

theorem Inv.popHead (h : Inv c s r w) {t : UInt64} (hp : s.consumer = .popping t) :
    Inv c { s with head := t + 1, consumer := .idle,
                   popped := s.popped ++ [s.slots (c.slot t)] } r w := by
  have hok := h.consumer.2
  rw [hp] at hok
  obtain ⟨rfl, hlt⟩ := hok
  have hr := h.r_le
  refine { h with head := ?_, r_le := ?_, le_w := ?_, fifo := ?_, slots := ?_,
                  producer := h.producer, consumer := ⟨nofun, trivial⟩ }
  · rw [h.head, Ring.ofNat_succ, List.length_append]
    rfl
  · rw [List.length_append]
    exact hr.trans (Nat.le_add_right _ _)
  · rw [List.length_append]
    exact hlt
  · rw [h.head, c.slot_ofNat]
    obtain ⟨rest, hrest⟩ := h.fifo
    have hf := h.front_slot hlt
    rw [← hrest, List.getElem?_append_right le_rfl, Nat.sub_self] at hf
    cases rest with
    | nil => cases hf
    | cons v rest =>
      cases hf
      exact ⟨rest, by rw [List.append_assoc]; exact hrest⟩
  · intro j hj hlt'
    rw [List.length_append] at hj
    exact h.slots j (by omega) hlt'

theorem Inv.held (h : Inv c s r w) {i : Nat} (hi : s.consumer.held = some i) :
    i = s.popped.length % c.size ∧ s.popped.length < w := h.consumer.1 i hi

theorem Inv.move (h : Inv c s r w) (hm : Move c s s') : ∃ r' w', Inv c s' r' w' := by
  cases hm with
  | claimStale => exact ⟨r, w, h.producer_moves rfl⟩
  | claimRoom hr =>
    refine ⟨r, w, h.producer_moves ⟨?_, h.not_stale hr⟩⟩
    rw [h.tail, c.slot_ofNat]
  | headFull => exact ⟨_, w, h.reload_head trivial⟩
  | headRoom hp hr =>
    have hok := h.producer
    rw [hp] at hok
    subst hok
    rw [h.full_iff] at hr
    have := h.le_room
    refine ⟨_, w, h.reload_head ⟨?_, lt_of_le_of_ne h.le_room hr⟩⟩
    rw [h.tail, c.slot_ofNat]
  | fullReturn => exact ⟨r, w, h.producer_moves trivial⟩
  | write hp => exact ⟨r, w, h.write hp⟩
  | publish hp =>
    have hok := h.producer
    rw [hp] at hok
    exact ⟨r, w, h.producer_moves ⟨rfl, hok.2⟩⟩
  | publishTail hp => exact ⟨r, w, h.publishTail hp⟩
  | frontStale => exact ⟨r, w, h.consumer_moves ⟨nofun, rfl⟩⟩
  | frontSeen hne =>
    refine ⟨r, w, h.consumer_moves ⟨?_, trivial⟩⟩
    rintro i ⟨⟩
    rw [h.head, c.slot_ofNat]
    exact ⟨rfl, h.seen hne⟩
  | tailEmpty => exact ⟨r, _, h.reload_tail ⟨nofun, trivial⟩⟩
  | tailSeen hp hne =>
    have hok := h.consumer.2
    rw [hp] at hok
    subst hok
    rw [Ne, h.empty_iff] at hne
    refine ⟨r, _, h.reload_tail ⟨?_, trivial⟩⟩
    rintro i ⟨⟩
    rw [h.head, c.slot_ofNat]
    exact ⟨rfl, lt_of_le_of_ne h.popped_le fun he => hne he.symm⟩
  | pop hp => exact ⟨r, w, h.consumer_moves ⟨nofun, rfl, (h.held (by rw [hp]; rfl)).2⟩⟩
  | popHead hp => exact ⟨r, w, h.popHead hp⟩
  | emptyFromTail => exact ⟨r, w, h.consumer_moves ⟨fun i hi => h.held hi, trivial⟩⟩
  | emptyFromHead => exact ⟨r, w, h.consumer_moves ⟨fun i hi => h.held hi, rfl⟩⟩
  | emptyTrue => exact ⟨r, w, h.consumer_moves ⟨nofun, trivial⟩⟩
  | emptyFalse =>
    refine ⟨r, w, h.consumer_moves ?_⟩
    cases hh : s.consumer.held with
    | none => exact ⟨nofun, trivial⟩
    | some i =>
      refine ⟨?_, trivial⟩
      rintro j ⟨⟩
      exact h.held hh
  | emptyReturn => exact ⟨r, w, h.consumer_moves ⟨nofun, trivial⟩⟩

end Inv

theorem history_inv {c : Cap} {fill : Nat → α} (s : State α) (past : List (State α))
    (h : History (step c) (init fill) s past) : ∃ r w, Inv c s r w := by
  refine h.invariant (I := fun s => ∃ r w, Inv c s r w) ⟨0, 0, init_inv c fill⟩ ?_
  rintro s a s' ⟨r, w, hi⟩ hs
  exact hi.move (step_move hs)

/-- The producer is inside a `try_claim` that has loaded `tail_`, or has its null answer. -/
def InClaim (s : State α) : Prop := s.producer = .full ∨ ∃ t, s.producer = .claimHead t

/-- The consumer is inside a `front` or `empty` call that has made its first load, or has its
answer that there is no item. -/
def InEmpty (s : State α) : Prop :=
  s.consumer = .empty ∨ (∃ h, s.consumer = .frontTail h) ∨
  (∃ h held, s.consumer = .emptyTail h held) ∨ ∃ t held, s.consumer = .emptyHead t held

/-- A null answer of `try_claim` was true at its load of `head_`. -/
theorem full_since {c : Cap} {fill : Nat → α} {s : State α} {past : List (State α)}
    (h : History (step c) (init fill) s past) (hf : s.producer = .full) :
    Since InClaim (fun s => InClaim s ∧ Full c s) (s :: past) := by
  refine h.since (C := fun s => s.producer = .full) history_inv nofun ?_ hf
  rintro s a s' ⟨r, w, hi⟩ hs hC
  refine .inr ⟨.inl hC, ?_⟩
  cases step_move hs with
  | claimStale | claimRoom | headRoom | fullReturn | publish | publishTail => cases hC
  | headFull hp hr =>
    have hok := hi.producer
    rw [hp] at hok
    subst hok
    exact .inl ⟨.inr ⟨_, hp⟩, hi.full_iff.mp hr⟩
  | _ => exact .inr hC

/-- An answer that there is no item was true at a load of `tail_`. -/
theorem empty_since {c : Cap} {fill : Nat → α} {s : State α} {past : List (State α)}
    (h : History (step c) (init fill) s past) (he : s.consumer = .empty) :
    Since InEmpty (fun s => InEmpty s ∧ Empty s) (s :: past) := by
  refine h.since
    (C := fun s => s.consumer = .empty ∨ ∃ held, s.consumer = .emptyHead s.head held)
    history_inv (by rintro (h | ⟨_, h⟩) <;> cases h) ?_ (.inl he)
  rintro s a s' ⟨r, w, hi⟩ hs hC
  cases step_move hs with
  | tailEmpty hp he =>
    have hok := hi.consumer.2
    rw [hp] at hok
    subst hok
    exact .inr ⟨.inl rfl, .inl ⟨.inr (.inl ⟨_, hp⟩), hi.empty_iff.mp he⟩⟩
  | emptyFromTail =>
    obtain ⟨held, hC⟩ := hC.resolve_left nofun
    obtain ⟨ht, -⟩ := Consumer.emptyHead.inj hC
    exact .inl ⟨.inr (.inr (.inr ⟨_, _, rfl⟩)), hi.empty_iff.mp ht.symm⟩
  | emptyTrue hp =>
    refine .inr ⟨.inl rfl, ?_⟩
    rcases hp with hp | hp
    · have hok := hi.consumer.2
      rw [hp] at hok
      exact .inl ⟨.inr (.inr (.inl ⟨_, _, hp⟩)), hi.empty_iff.mp hok.symm⟩
    · exact .inr (.inr ⟨_, hp⟩)
  | emptyFalse =>
    exfalso
    cases hh : s.consumer.held <;> rw [hh] at hC <;> rcases hC with hC | ⟨_, hC⟩ <;> cases hC
  | frontStale | frontSeen | tailSeen | pop | popHead | emptyFromHead | emptyReturn =>
    rcases hC with hC | ⟨_, hC⟩ <;> cases hC
  | _ =>
    refine .inr ⟨?_, .inr hC⟩
    rcases hC with hC | ⟨_, hC⟩
    · exact .inl hC
    · exact .inr (.inr (.inr ⟨_, _, hC⟩))

/-- **The ring is a FIFO under every interleaving.** What was popped is a prefix of what was
published; a slot the producer holds is free of unpopped items; the slot the consumer holds is
the oldest unpopped item; and null or empty answers were true at some moment of the call. -/
theorem fifo (c : Cap) (fill : Nat → α) (s : State α) (past : List (State α))
    (h : History (step c) (init fill) s past) :
    s.popped <+: s.published ∧
    (∀ i, s.producer = .claimed i →
      ∀ j < s.published.length, j % c.size = i → j < s.popped.length) ∧
    (∀ i, s.consumer.held = some i → s.published[s.popped.length]? = some (s.slots i)) ∧
    (s.producer = .full → Since InClaim (fun s => InClaim s ∧ Full c s) (s :: past)) ∧
    (s.consumer = .empty → Since InEmpty (fun s => InEmpty s ∧ Empty s) (s :: past)) := by
  obtain ⟨r, w, hi⟩ := history_inv s past h
  refine ⟨hi.fifo, ?_, ?_, full_since h, empty_since h⟩
  · intro i hp j hj he
    by_contra hlt
    exact hi.claimed_free hp (Nat.le_of_not_lt hlt) hj he
  · intro i hheld
    obtain ⟨rfl, hlt⟩ := hi.held hheld
    exact hi.front_slot hlt

/-- Two slots, both filled; a third claim is refused and one item is popped. -/
theorem fifo_two_slots : ∃ (s : State Nat) (past : List (State Nat)),
    replay (step ⟨1, by decide⟩) (init fun _ => 0) []
      [.claim, .write 7, .publish, .publishTail, .front, .frontTail, .claim, .write 8, .publish,
        .publishTail, .claim, .claimHead, .pop, .popHead] = some (s, past) ∧
    s.published = [7, 8] ∧ s.popped = [7] ∧ s.popped <+: s.published ∧
    Since InClaim (fun s => InClaim s ∧ Full ⟨1, by decide⟩ s) (s :: past) := by
  refine ⟨_, _, rfl, rfl, rfl, ?_⟩
  have h := fifo ⟨1, by decide⟩ (fun _ => (0 : Nat)) _ _ (History.start.replay
    [.claim, .write 7, .publish, .publishTail, .front, .frontTail, .claim, .write 8, .publish,
      .publishTail, .claim, .claimHead, .pop, .popHead] rfl)
  exact ⟨h.1, h.2.2.2.1 rfl⟩

end Stok.SpscQueue
