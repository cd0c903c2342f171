import Stok.Core.SpscQueue
import Stok.Lib.Channel

/-!
# The single-producer ring as a channel

To the parties at its ends the ring is a `Lib.Channel` whose operations are atomic: an item goes in
at the store of `tail_`, comes out at the store of `head_`, and is refused at the load of `head_`
that found the ring full. Every other access leaves the channel as it is.
-/

namespace Stok.SpscQueue

open Stok.Lib Stok.Lib.Ring

variable {α : Type*} {c : Cap} {s s' : State α} {r w : Nat} {ch : Channel α c.size}

/-- The channel has let through what was published and given out what was popped. -/
structure Carries (ch : Channel α c.size) (s : State α) : Prop where
  accepted : ch.accepted = s.published
  taken : ch.taken = s.popped

theorem carries_init (fill : Nat → α) : Carries (Channel.empty α c.size) (init fill) := ⟨rfl, rfl⟩

theorem Carries.items (h : Carries ch s) : ch.items = s.published.drop s.popped.length := by
  rw [← h.accepted, ← h.taken, Channel.accepted, List.drop_left]

theorem Carries.items_length (h : Carries ch s) :
    ch.items.length = s.published.length - s.popped.length := by
  rw [h.items, List.length_drop]

theorem Carries.full_iff (h : Carries ch s) (hi : Inv c s r w) :
    ch.items.length = c.size ↔ Full c s := by
  have := hi.popped_le
  have := c.size_pos
  rw [h.items_length, Full]
  omega

theorem Carries.empty_iff (h : Carries ch s) (hi : Inv c s r w) : ch.items = [] ↔ Empty s := by
  have := hi.popped_le
  rw [← List.length_eq_zero_iff, h.items_length, Empty]
  omega

/-- The slot that `front` exposes holds the oldest item. -/
theorem Carries.held (h : Carries ch s) (hi : Inv c s r w) {i : Nat}
    (hheld : s.consumer.held = some i) : ch.items.head? = some (s.slots i) := by
  obtain ⟨rfl, hlt⟩ := hi.held hheld
  rw [h.items, List.head?_drop]
  exact hi.front_slot hlt

theorem Carries.publishTail (h : Carries ch s) (hi : Inv c s r w) {t : UInt64}
    (hp : s.producer = .publishing t) :
    ch.items.length < c.size ∧
      Carries (ch.offer (s.slots (c.slot t)))
        { s with tail := t + 1, producer := .idle,
                 published := s.published ++ [s.slots (c.slot t)] } := by
  have hok := hi.producer
  rw [hp] at hok
  have hroom : ch.items.length < c.size := by
    have := hi.r_le
    have := hi.popped_le
    have := hok.2
    rw [h.items_length]
    omega
  refine ⟨hroom, ?_, ?_⟩
  · rw [Channel.offer_of_lt _ hroom]
    show ch.taken ++ (ch.items ++ [_]) = s.published ++ [_]
    rw [← List.append_assoc, ← h.accepted]
    rfl
  · rw [Channel.offer_taken]
    exact h.taken

theorem Carries.popHead (h : Carries ch s) (hi : Inv c s r w) {t : UInt64}
    (hp : s.consumer = .popping t) :
    Carries ch.take
      { s with head := t + 1, consumer := .idle,
               popped := s.popped ++ [s.slots (c.slot t)] } := by
  have hok := hi.consumer.2
  rw [hp] at hok
  obtain ⟨rfl, hlt⟩ := hok
  have hfront : ch.items.head? = some (s.slots (c.slot s.head)) := by
    rw [h.items, List.head?_drop, hi.front_slot hlt, hi.head, c.slot_ofNat]
  refine ⟨?_, ?_⟩
  · rw [Channel.take_accepted]
    exact h.accepted
  · obtain ⟨rest, hitems⟩ := List.head?_eq_some_iff.mp hfront
    rw [(Channel.take_of_items hitems).1, h.taken]

/-- **Every access is a step of the channel, or none.** Refusals happen only to a full channel. -/
theorem Carries.move (h : Carries ch s) (hi : Inv c s r w) (hm : Move c s s') :
    Carries ch s' ∨ (∃ v, ch.items.length < c.size ∧ Carries (ch.offer v) s') ∨
      Carries ch.take s' := by
  cases hm with
  | publishTail hp => exact .inr (.inl ⟨_, h.publishTail hi hp⟩)
  | popHead hp => exact .inr (.inr (h.popHead hi hp))
  | _ => exact .inl ⟨h.accepted, h.taken⟩

/-- The null answer of `try_claim` is the refusal of whatever the caller had to offer. -/
theorem Carries.headFull (h : Carries ch s) (hi : Inv c s r w) {t : UInt64}
    (hp : s.producer = .claimHead t) (hfull : t - s.head ≥ c.size64) (v : α) :
    Carries (ch.offer v) { s with cachedHead := s.head, producer := .full } := by
  have hok := hi.producer
  rw [hp] at hok
  subst hok
  rw [Channel.offer_of_full v ((h.full_iff hi).mpr (hi.full_iff.mp hfull))]
  exact ⟨h.accepted, h.taken⟩

end Stok.SpscQueue
