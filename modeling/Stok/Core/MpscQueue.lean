import Mathlib
import Stok.Lib.Interleaving
import Stok.Lib.Ring

/-!
# The multi-producer ring (`core/mpsc_queue.hpp`)

Any number of producers and one consumer; one step is one atomic access with the private work up
to the next one. The compare-exchange may fail spuriously. The source compares sequence numbers
by the sign of a difference of `intptr_t` values, taken here as the wrapping one.

`claims` lists the producers in the order their compare-exchanges took positions, each with the
record it committed there, and `consumed` the records in the order `pop` released their slots. A
producer's place keeps the position of its claim beside the cell it was handed; the source keeps
only the cell.
-/

namespace Stok.MpscQueue

open Stok.Lib Stok.Lib.Ring

/-- Where a producer is. -/
inductive Producer where
  | idle
  /-- In `try_claim`, about to load the cell's `seq`. -/
  | readSeq (pos : UInt64)
  /-- The cell is free for `pos`: about to compare-exchange. -/
  | cas (pos : UInt64)
  /-- The position is stale: about to load `enqueue_pos_`. -/
  | reload
  /-- `try_claim` returned null. -/
  | full
  /-- `try_claim` returned the cell. -/
  | claimed (cell pos : Nat)
  /-- In `commit`, the cell's `seq` loaded. -/
  | committing (cell pos : Nat) (seq : UInt64)
  deriving DecidableEq, Repr

/-- Where the consumer is. -/
inductive Consumer where
  | idle
  /-- `front` returned the cell's data. -/
  | exposed (cell : Nat)
  deriving DecidableEq, Repr

structure State (ι α : Type*) where
  seq : Nat → UInt64
  data : Nat → α
  enqueuePos : UInt64
  dequeuePos : UInt64
  producer : ι → Producer
  consumer : Consumer
  claims : List (ι × Option α)
  consumed : List α

inductive Act (ι α : Type*) where
  | claim (i : ι) | readSeq (i : ι) | cas (i : ι) (spurious : Bool) | reload (i : ι)
  | fullReturn (i : ι) | write (i : ι) (v : α) | commit (i : ι) | commitSeq (i : ι)
  | front | pop

variable {ι α : Type*}

def init (ι : Type*) (fill : Nat → α) : State ι α :=
  { seq := fun i => .ofNat i, data := fill, enqueuePos := 0, dequeuePos := 0,
    producer := fun _ => .idle, consumer := .idle, claims := [], consumed := [] }

section

variable [DecidableEq ι]

def State.moves (s : State ι α) (i : ι) (p : Producer) : State ι α :=
  { s with producer := Function.update s.producer i p }

/-- The producer's place after it has loaded `seq` of the cell for `pos`. -/
def Producer.compare (seq pos : UInt64) : Producer :=
  let diff := seq.toInt64 - pos.toInt64
  if diff = 0 then .cas pos
  else if diff < 0 then .full
  else .reload

def step (c : Cap) (s : State ι α) : Act ι α → Option (State ι α)
  | .claim i =>
    match s.producer i with
    | .idle => some (s.moves i (.readSeq s.enqueuePos))
    | _ => none
  | .readSeq i =>
    match s.producer i with
    | .readSeq pos => some (s.moves i (.compare (s.seq (c.slot pos)) pos))
    | _ => none
  | .cas i spurious =>
    match s.producer i with
    | .cas pos =>
      if s.enqueuePos = pos ∧ !spurious then
        some { s with enqueuePos := pos + 1,
                      producer := Function.update s.producer i (.claimed (c.slot pos) s.claims.length),
                      claims := s.claims ++ [(i, none)] }
      else some (s.moves i (.readSeq s.enqueuePos))
    | _ => none
  | .reload i =>
    match s.producer i with
    | .reload => some (s.moves i (.readSeq s.enqueuePos))
    | _ => none
  | .fullReturn i =>
    match s.producer i with
    | .full => some (s.moves i .idle)
    | _ => none
  | .write i v =>
    match s.producer i with
    | .claimed cell _ => some { s with data := Function.update s.data cell v }
    | _ => none
  | .commit i =>
    match s.producer i with
    | .claimed cell pos => some (s.moves i (.committing cell pos (s.seq cell)))
    | _ => none
  | .commitSeq i =>
    match s.producer i with
    | .committing cell pos v =>
      some { s with seq := Function.update s.seq cell (v + 1),
                    producer := Function.update s.producer i .idle,
                    claims := s.claims.set pos (i, some (s.data cell)) }
    | _ => none
  | .front =>
    let cell := c.slot s.dequeuePos
    if (s.seq cell).toInt64 - (s.dequeuePos + 1).toInt64 < 0 then some { s with consumer := .idle }
    else some { s with consumer := .exposed cell }
  | .pop =>
    match s.consumer with
    | .exposed _ =>
      let cell := c.slot s.dequeuePos
      some { s with seq := Function.update s.seq cell (s.dequeuePos + c.size64),
                    dequeuePos := s.dequeuePos + 1, consumer := .idle,
                    consumed := s.consumed ++ [s.data cell] }
    | .idle => none

end

/-- The `seq` of the cell that position `p` comes to next, in terms of what happened to `p`. -/
def State.ticket (s : State ι α) (p : Nat) : Nat :=
  match s.claims[p]? with
  | some (_, some _) => p + 1
  | _ => p

/-- Producer `i` holds position `p` and has not committed it. -/
def Holds (c : Cap) (s : State ι α) (i : ι) (cell p : Nat) : Prop :=
  cell = p % c.size ∧ s.consumed.length ≤ p ∧ s.claims[p]? = some (i, none)

def Producer.Ok (c : Cap) (s : State ι α) (i : ι) : Producer → Prop
  | .idle | .reload | .full => True
  | .readSeq pos => ∃ q ≤ s.claims.length, pos = .ofNat q
  | .cas pos => ∃ q ≤ s.claims.length, pos = .ofNat q ∧
      (q = s.claims.length → s.claims.length < s.consumed.length + c.size)
  | .claimed cell p => Holds c s i cell p
  | .committing cell p v => Holds c s i cell p ∧ v = .ofNat p

def Consumer.Ok (c : Cap) (s : State ι α) : Consumer → Prop
  | .idle => True
  | .exposed cell => cell = s.consumed.length % c.size ∧
      ∃ i v, s.claims[s.consumed.length]? = some (i, some v)

/-- Each cell's `seq` tells what happened to the position in the present lap that maps to it,
committed records lie in their cells, and the consumed ones are the first claims. -/
structure Inv (c : Cap) (s : State ι α) : Prop where
  enqueuePos : s.enqueuePos = .ofNat s.claims.length
  dequeuePos : s.dequeuePos = .ofNat s.consumed.length
  le : s.consumed.length ≤ s.claims.length
  room : s.claims.length ≤ s.consumed.length + c.size
  consumed : s.consumed.map some = (s.claims.take s.consumed.length).map Prod.snd
  seq : ∀ p, s.consumed.length ≤ p → p < s.consumed.length + c.size →
    s.seq (p % c.size) = .ofNat (s.ticket p)
  data : ∀ p i v, s.consumed.length ≤ p → s.claims[p]? = some (i, some v) →
    s.data (p % c.size) = v
  producer : ∀ i, (s.producer i).Ok c s i
  consumer : s.consumer.Ok c s

/-- No position has wrapped 64 bits. -/
def Unwrapped (c : Cap) (s : State ι α) : Prop := s.claims.length + c.size ≤ 2 ^ 64

theorem init_inv (c : Cap) (fill : Nat → α) : Inv c (init ι fill) := by
  refine ⟨rfl, rfl, le_rfl, Nat.zero_le _, rfl, ?_, nofun, fun _ => trivial, trivial⟩
  intro p _ hp
  have hp : p < c.size := by simpa [init] using hp
  show UInt64.ofNat (p % c.size) = UInt64.ofNat p
  rw [Nat.mod_eq_of_lt hp]

/-- The wrapping difference vanishes only on equal numbers. -/
theorem diff_eq_zero {a b : UInt64} : a.toInt64 - b.toInt64 = 0 ↔ a = b := by
  rw [← UInt64.toInt64_sub]
  constructor
  · intro h
    exact sub_eq_zero.mp (congrArg Int64.toUInt64 h)
  · rintro rfl
    rw [sub_self]
    rfl

/-- The consumer's test on a cell one behind, and on a committed one. -/
theorem diff_pred_lt (a : UInt64) : a.toInt64 - (a + 1).toInt64 < 0 := by
  rw [← UInt64.toInt64_sub, sub_add_cancel_left]
  decide

theorem diff_self_not_lt (a : UInt64) : ¬ a.toInt64 - a.toInt64 < 0 := by
  rw [diff_eq_zero.mpr rfl]
  decide

section Inv

variable {c : Cap} {s s' : State ι α}

/-- A producer's promise survives steps of others that leave its held position alone. -/
theorem Producer.Ok.mono {i : ι} {p : Producer} (h : p.Ok c s i)
    (hn : s.claims.length ≤ s'.claims.length) (hm : s.consumed.length ≤ s'.consumed.length)
    (hold : ∀ cell pos, Holds c s i cell pos → Holds c s' i cell pos) : p.Ok c s' i := by
  cases p with
  | idle | reload | full => trivial
  | readSeq pos =>
    obtain ⟨q, hq, hpos⟩ := h
    exact ⟨q, hq.trans hn, hpos⟩
  | cas pos =>
    obtain ⟨q, hq, hpos, hfree⟩ := h
    refine ⟨q, hq.trans hn, hpos, ?_⟩
    rintro rfl
    have hfree := hfree (le_antisymm hq hn)
    omega
  | claimed cell pos => exact hold cell pos h
  | committing cell pos v => exact ⟨hold cell pos h.1, h.2⟩

/-- A cell whose `seq` equals the next position is free: on a full ring it would be the number
of the oldest record, or that plus one. -/
theorem Inv.free (h : Inv c s) (hc : 2 ≤ c.size) (hu : Unwrapped c s)
    (hs : s.seq (s.claims.length % c.size) = .ofNat s.claims.length) :
    s.claims.length < s.consumed.length + c.size := by
  have hroom := h.room
  refine lt_of_le_of_ne h.room fun hfull => ?_
  have hu' : s.claims.length + c.size ≤ 2 ^ 64 := hu
  have hcell : s.claims.length % c.size = s.consumed.length % c.size := by
    rw [hfull, Nat.add_mod_right]
  rw [hcell, h.seq _ le_rfl (by omega), State.ticket] at hs
  split at hs <;> rw [ofNat_eq_iff (by omega) (by omega)] at hs <;> omega

theorem Inv.compare (h : Inv c s) (hc : 2 ≤ c.size) (hu : Unwrapped c s) (i : ι) {pos : UInt64}
    (hp : s.producer i = .readSeq pos) :
    (Producer.compare (s.seq (c.slot pos)) pos).Ok c s i := by
  have hok := h.producer i
  rw [hp] at hok
  obtain ⟨q, hq, rfl⟩ := hok
  unfold Producer.compare
  simp only
  split
  · rename_i hd
    refine ⟨q, hq, rfl, ?_⟩
    rintro rfl
    rw [c.slot_ofNat] at hd
    exact h.free hc hu (diff_eq_zero.mp hd)
  · split <;> trivial

/-- The steps that move only one producer's place. -/
theorem Inv.moves [DecidableEq ι] (h : Inv c s) (i : ι) {p : Producer} (hp : p.Ok c s i) : Inv c (s.moves i p) := by
  refine { h with producer := fun j => ?_, consumer := h.consumer }
  show (Function.update s.producer i p j).Ok c s j
  rcases eq_or_ne j i with rfl | hne
  · rwa [Function.update_self]
  · rw [Function.update_of_ne hne]
    exact h.producer j

/-- A compare-exchange that succeeds appends to the claims. -/
theorem Inv.claim [DecidableEq ι] (h : Inv c s) {i : ι} {pos : UInt64} (hu : Unwrapped c s)
    (hp : s.producer i = .cas pos) (heq : s.enqueuePos = pos) :
    Inv c { s with enqueuePos := pos + 1,
                   producer := Function.update s.producer i (.claimed (c.slot pos) s.claims.length),
                   claims := s.claims ++ [(i, none)] } := by
  have hok := h.producer i
  rw [hp] at hok
  obtain ⟨q, hq, rfl, hfree⟩ := hok
  have hu' : s.claims.length + c.size ≤ 2 ^ 64 := hu
  have hpos := c.size_pos
  rw [h.enqueuePos, eq_comm, ofNat_eq_iff hq (by omega)] at heq
  subst heq
  have hlt := hfree rfl
  have hle := h.le
  -- The positions already claimed read the same in the longer list.
  have hold : ∀ {p : Nat} {x : ι × Option α}, s.claims[p]? = some x →
      (s.claims ++ [(i, none)])[p]? = some x := fun hx => by
    rw [List.getElem?_append_left (List.getElem?_eq_some_iff.mp hx).1, hx]
  refine ⟨?_, h.dequeuePos, ?_, ?_, ?_, ?_, ?_, ?_, ?_⟩
  · rw [ofNat_succ, List.length_append]
    rfl
  · rw [List.length_append]
    exact hle.trans (Nat.le_add_right _ _)
  · rw [List.length_append]
    exact hlt
  · rw [List.take_append_of_le_length hle]
    exact h.consumed
  · intro p hp1 hp2
    have ht : State.ticket { s with claims := s.claims ++ [(i, none)] } p = s.ticket p := by
      simp only [State.ticket]
      rcases Nat.lt_trichotomy p s.claims.length with hlt | rfl | hgt
      · rw [List.getElem?_append_left hlt]
      · rw [List.getElem?_concat_length, List.getElem?_eq_none le_rfl]
      · rw [List.getElem?_eq_none (by rw [List.length_append]; exact hgt),
          List.getElem?_eq_none hgt.le]
    exact (h.seq p hp1 hp2).trans (congrArg _ ht.symm)
  · intro p j v hp1 hx
    rcases Nat.lt_or_ge p s.claims.length with hlt | hge
    · rw [List.getElem?_append_left hlt] at hx
      exact h.data p j v hp1 hx
    · rw [List.getElem?_append_right hge, List.getElem?_singleton] at hx
      split at hx <;> cases hx
  · intro j
    show (Function.update s.producer i _ j).Ok c _ j
    rcases eq_or_ne j i with rfl | hne
    · rw [Function.update_self, c.slot_ofNat]
      exact ⟨rfl, hle, List.getElem?_concat_length⟩
    · rw [Function.update_of_ne hne]
      refine (h.producer j).mono ?_ le_rfl fun cell p hj => ⟨hj.1, hj.2.1, hold hj.2.2⟩
      rw [List.length_append]
      exact Nat.le_add_right _ _
  · have hcs := h.consumer
    cases hs : s.consumer with
    | idle => trivial
    | exposed cell =>
      rw [hs] at hcs
      obtain ⟨hcell, j, v, hx⟩ := hcs
      exact ⟨hcell, j, v, hold hx⟩

/-- The cell of a held position is no other position's of the lap. -/
theorem Holds.cell_ne {i : ι} {cell pos p : Nat} (hh : Holds c s i cell pos)
    (hpos : pos < s.consumed.length + c.size) (hp1 : s.consumed.length ≤ p)
    (hp2 : p < s.consumed.length + c.size) (hne : p ≠ pos) : p % c.size ≠ cell := by
  rw [hh.1]
  intro he
  have hm := hh.2.1
  rcases Nat.le_total p pos with hle | hle
  · exact hne (eq_of_mod_eq hle (by omega) he)
  · exact hne (eq_of_mod_eq hle (by omega) he.symm).symm

theorem Inv.held_lt (h : Inv c s) {i : ι} {cell pos : Nat} (hh : Holds c s i cell pos) :
    pos < s.claims.length ∧ pos < s.consumed.length + c.size := by
  have hlt := (List.getElem?_eq_some_iff.mp hh.2.2).1
  have := h.room
  omega

theorem Inv.write (h : Inv c s) {i : ι} {cell pos : Nat} (v : α)
    (hp : s.producer i = .claimed cell pos) :
    Inv c { s with data := Function.update s.data cell v } := by
  have hh : Holds c s i cell pos := by have := h.producer i; rwa [hp] at this
  refine { h with data := ?_, producer := h.producer, consumer := h.consumer }
  intro p j w hp1 hx
  have hp2 : p < s.consumed.length + c.size := (List.getElem?_eq_some_iff.mp hx).1.trans_le h.room
  have hne : p ≠ pos := by
    rintro rfl
    cases hh.2.2.symm.trans hx
  show Function.update s.data cell v (p % c.size) = w
  rw [Function.update_of_ne (hh.cell_ne (h.held_lt hh).2 hp1 hp2 hne)]
  exact h.data p j w hp1 hx

theorem Inv.commitSeq [DecidableEq ι] (h : Inv c s) {i : ι} {cell pos : Nat} {v : UInt64}
    (hp : s.producer i = .committing cell pos v) :
    Inv c { s with seq := Function.update s.seq cell (v + 1),
                   producer := Function.update s.producer i .idle,
                   claims := s.claims.set pos (i, some (s.data cell)) } := by
  obtain ⟨hh, rfl⟩ : Holds c s i cell pos ∧ v = .ofNat pos := by
    have := h.producer i; rwa [hp] at this
  obtain ⟨hlt, hwin⟩ := h.held_lt hh
  have hother : ∀ {p : Nat}, p ≠ pos →
      (s.claims.set pos (i, some (s.data cell)))[p]? = s.claims[p]? := fun hne =>
    List.getElem?_set_ne hne.symm
  have hself : (s.claims.set pos (i, some (s.data cell)))[pos]? = some (i, some (s.data cell)) :=
    List.getElem?_set_self hlt
  refine ⟨?_, h.dequeuePos, ?_, ?_, ?_, ?_, ?_, ?_, ?_⟩
  · rw [List.length_set]
    exact h.enqueuePos
  · rw [List.length_set]
    exact h.le
  · rw [List.length_set]
    exact h.room
  · rw [List.take_set_of_le hh.2.1]
    exact h.consumed
  · intro p hp1 hp2
    show Function.update s.seq cell (UInt64.ofNat pos + 1) (p % c.size) = .ofNat (State.ticket _ p)
    simp only [State.ticket]
    rcases eq_or_ne p pos with rfl | hne
    · rw [← hh.1, Function.update_self, hself, ofNat_succ]
    · rw [Function.update_of_ne (hh.cell_ne hwin hp1 hp2 hne), hother hne]
      exact h.seq p hp1 hp2
  · intro p j w hp1 hx
    rcases eq_or_ne p pos with rfl | hne
    · rw [hself] at hx
      cases hx
      exact congrArg s.data hh.1.symm
    · rw [hother hne] at hx
      exact h.data p j w hp1 hx
  · intro j
    show (Function.update s.producer i _ j).Ok c _ j
    rcases eq_or_ne j i with rfl | hne
    · rw [Function.update_self]
      trivial
    · rw [Function.update_of_ne hne]
      refine (h.producer j).mono (by rw [List.length_set]) le_rfl fun cell' p hj => ?_
      refine ⟨hj.1, hj.2.1, ?_⟩
      rw [hother]
      · exact hj.2.2
      · rintro rfl
        cases hh.2.2.symm.trans hj.2.2
        exact hne rfl
  · have hcs := h.consumer
    show s.consumer.Ok c _
    cases hs : s.consumer with
    | idle => trivial
    | exposed cell' =>
      rw [hs] at hcs
      obtain ⟨hcell, j, w, hx⟩ := hcs
      refine ⟨hcell, j, w, ?_⟩
      rw [hother]
      · exact hx
      · intro he
        rw [he] at hx
        cases hh.2.2.symm.trans hx

/-- `front` answers a cell exactly when the oldest unconsumed position is committed. -/
theorem Inv.front_iff (h : Inv c s) :
    ¬ (s.seq (c.slot s.dequeuePos)).toInt64 - (s.dequeuePos + 1).toInt64 < 0 ↔
      ∃ i v, s.claims[s.consumed.length]? = some (i, some v) := by
  have hpos := c.size_pos
  rw [h.dequeuePos, c.slot_ofNat, h.seq _ le_rfl (by omega), State.ticket]
  split
  · rename_i i v hx
    rw [ofNat_succ]
    exact ⟨fun _ => ⟨i, v, hx⟩, fun _ => diff_self_not_lt _⟩
  · rename_i hx
    refine ⟨fun hn => absurd (diff_pred_lt _) hn, ?_⟩
    rintro ⟨i, v, he⟩
    exact absurd he (hx i v)

theorem Inv.consumer_moves (h : Inv c s) {p : Consumer} (hp : p.Ok c s) :
    Inv c { s with consumer := p } :=
  { h with producer := h.producer, consumer := hp }

theorem Inv.front (h : Inv c s)
    (hd : ¬ (s.seq (c.slot s.dequeuePos)).toInt64 - (s.dequeuePos + 1).toInt64 < 0) :
    Inv c { s with consumer := .exposed (c.slot s.dequeuePos) } := by
  refine h.consumer_moves ⟨?_, h.front_iff.mp hd⟩
  rw [h.dequeuePos, c.slot_ofNat]

theorem Inv.pop (h : Inv c s) {cell : Nat} (hcs : s.consumer = .exposed cell) :
    Inv c { s with seq := Function.update s.seq (c.slot s.dequeuePos) (s.dequeuePos + c.size64),
                   dequeuePos := s.dequeuePos + 1, consumer := .idle,
                   consumed := s.consumed ++ [s.data (c.slot s.dequeuePos)] } := by
  obtain ⟨-, i, v, hx⟩ : cell = _ ∧ _ := by have := h.consumer; rwa [hcs] at this
  have hlt := (List.getElem?_eq_some_iff.mp hx).1
  have hroom := h.room
  have hpos := c.size_pos
  have hslot : c.slot s.dequeuePos = s.consumed.length % c.size := by
    rw [h.dequeuePos, c.slot_ofNat]
  rw [hslot, h.data _ i v le_rfl hx]
  refine ⟨h.enqueuePos, ?_, ?_, ?_, ?_, ?_, ?_, ?_, trivial⟩
  · rw [h.dequeuePos, ofNat_succ, List.length_append]
    rfl
  · rw [List.length_append]
    exact hlt
  · rw [List.length_append]
    exact hroom.trans (by omega)
  · rw [List.length_append, List.map_append, h.consumed, List.length_singleton, List.take_add_one,
      List.map_append, hx]
    rfl
  · intro p hp1 hp2
    rw [List.length_append, List.length_singleton] at hp1 hp2
    show Function.update s.seq _ _ (p % c.size) = .ofNat (s.ticket p)
    rcases Nat.lt_or_eq_of_le (Nat.le_of_lt_succ (by omega : p < s.consumed.length + c.size + 1))
      with hp2 | rfl
    · rw [Function.update_of_ne]
      · exact h.seq p (by omega) hp2
      · intro he
        have := eq_of_mod_eq (by omega) (by omega) he.symm
        omega
    · rw [Nat.add_mod_right, Function.update_self, State.ticket,
        List.getElem?_eq_none (by omega), h.dequeuePos]
      rw [← UInt64.toNat_inj, UInt64.toNat_add, UInt64.toNat_ofNat', UInt64.toNat_ofNat',
        Cap.size64, pow_toNat c.lt, Nat.mod_add_mod]
      rfl
  · intro p j w hp1 hx'
    rw [List.length_append] at hp1
    exact h.data p j w (by omega) hx'
  · intro j
    refine (h.producer j).mono le_rfl ?_ fun cell' p hj => ⟨hj.1, ?_, hj.2.2⟩
    · rw [List.length_append]
      exact Nat.le_add_right _ _
    · rw [List.length_append, List.length_singleton]
      refine lt_of_le_of_ne hj.2.1 ?_
      rintro rfl
      cases hx.symm.trans hj.2.2

theorem Inv.step [DecidableEq ι] (hc : 2 ≤ c.size) {a : Act ι α} (h : Inv c s) (hu : Unwrapped c s)
    (hs : step c s a = some s') : Inv c s' := by
  cases a with
  | claim i =>
    simp only [MpscQueue.step] at hs
    split at hs <;> cases hs
    exact h.moves i ⟨_, le_rfl, h.enqueuePos⟩
  | readSeq i =>
    simp only [MpscQueue.step] at hs
    split at hs <;> cases hs
    rename_i hp
    exact h.moves i (h.compare hc hu i hp)
  | cas i spurious =>
    simp only [MpscQueue.step] at hs
    split at hs <;> try cases hs
    rename_i hp
    split at hs <;> cases hs
    · rename_i heq
      exact h.claim hu hp heq.1
    · exact h.moves i ⟨_, le_rfl, h.enqueuePos⟩
  | reload i =>
    simp only [MpscQueue.step] at hs
    split at hs <;> cases hs
    exact h.moves i ⟨_, le_rfl, h.enqueuePos⟩
  | fullReturn i =>
    simp only [MpscQueue.step] at hs
    split at hs <;> cases hs
    exact h.moves i trivial
  | write i v =>
    simp only [MpscQueue.step] at hs
    split at hs <;> cases hs
    exact h.write v (by assumption)
  | commit i =>
    simp only [MpscQueue.step] at hs
    split at hs <;> cases hs
    rename_i cell pos hp
    have hh : Holds c s i cell pos := by have := h.producer i; rwa [hp] at this
    refine h.moves i ⟨hh, ?_⟩
    rw [hh.1, h.seq pos hh.2.1 (h.held_lt hh).2, State.ticket, hh.2.2]
  | commitSeq i =>
    simp only [MpscQueue.step] at hs
    split at hs <;> cases hs
    exact h.commitSeq (by assumption)
  | front =>
    simp only [MpscQueue.step] at hs
    split at hs <;> cases hs
    · exact h.consumer_moves trivial
    · exact h.front (by assumption)
  | pop =>
    simp only [MpscQueue.step] at hs
    split at hs <;> cases hs
    exact h.pop (by assumption)

end Inv

/-- Positions only grow, so what is unwrapped now was unwrapped before. -/
theorem Unwrapped.before [DecidableEq ι] {c : Cap} {s s' : State ι α} {a : Act ι α}
    (hs : step c s a = some s') (hu : Unwrapped c s') : Unwrapped c s := by
  have hle : s.claims.length ≤ s'.claims.length := by
    cases a with
    | cas i spurious =>
      simp only [step] at hs
      split at hs <;> try cases hs
      split at hs <;> cases hs
      · rw [List.length_append]
        exact Nat.le_add_right _ _
      · exact le_rfl
    | commitSeq i =>
      simp only [step] at hs
      split at hs <;> cases hs
      rw [List.length_set]
    | front =>
      simp only [step] at hs
      split at hs <;> cases hs <;> exact le_rfl
    | _ =>
      simp only [step] at hs
      split at hs <;> cases hs
      exact le_rfl
  exact (Nat.add_le_add_right hle _).trans hu

theorem history_inv [DecidableEq ι] {c : Cap} (hc : 2 ≤ c.size) {fill : Nat → α} {s : State ι α}
    {past : List (State ι α)} (h : History (step c) (init ι fill) s past) (hu : Unwrapped c s) :
    Inv c s := by
  refine h.invariant (I := fun s => Unwrapped c s → Inv c s) (fun _ => init_inv c fill) ?_ hu
  intro s a s' ih hs hu'
  have hu := hu'.before hs
  exact (ih hu).step hc hu hs

/-- The schedule of a consumer that takes `k` records. -/
def takes (ι α : Type*) : Nat → List (Act ι α)
  | 0 => []
  | k + 1 => .front :: .pop :: takes ι α k

/-- A consumer left to itself takes the records up to the first uncommitted position. -/
theorem takes_run [DecidableEq ι] {c : Cap} (k : Nat) : ∀ {s : State ι α} (past : List (State ι α)),
    Inv c s → (∀ p, s.consumed.length ≤ p → p < s.consumed.length + k →
      ∃ i v, s.claims[p]? = some (i, some v)) →
    ∃ s' past', replay (step c) s past (takes ι α k) = some (s', past') ∧
      s'.consumed.map some = (s.claims.take (s.consumed.length + k)).map Prod.snd := by
  induction k with
  | zero =>
    intro s past h _
    exact ⟨s, past, rfl, h.consumed⟩
  | succ k ih =>
    intro s past h hx
    have hd := h.front_iff.mpr (hx _ le_rfl (by omega))
    have hfront : step c s .front = some { s with consumer := .exposed (c.slot s.dequeuePos) } := by
      simp only [step]
      rw [if_neg hd]
    -- The state after `front` and `pop`: one more consumed, the claims unchanged.
    obtain ⟨s', past', hr, hs'⟩ := ih ({ s with consumer := .exposed (c.slot s.dequeuePos) } :: s :: past)
      ((h.front hd).pop rfl) fun p h1 h2 => by
        simp only [List.length_append, List.length_singleton] at h1 h2
        exact hx p (by omega) (by omega)
    refine ⟨s', past', ?_, ?_⟩
    · rw [takes, replay, hfront]
      exact hr
    · rw [hs', List.length_append, List.length_singleton, Nat.add_assoc, Nat.add_comm 1 k]

/-- The steps of `try_claim` that do not end with a cell. -/
theorem claim_quiet [DecidableEq ι] {c : Cap} {s s' : State ι α} {i : ι} {a : Act ι α}
    (ha : a ∈ [.claim i, .readSeq i, .cas i true, .cas i false, .reload i])
    (hs : step c s a = some s') (hn : ∀ cell pos, s'.producer i ≠ .claimed cell pos) :
    ∃ p, s' = s.moves i p := by
  have hcas : ∀ b, step c s (.cas i b) = some s' → ∃ p, s' = s.moves i p := by
    intro b hs
    simp only [step] at hs
    split at hs <;> try cases hs
    split at hs <;> cases hs
    · exact absurd (Function.update_self ..) (hn _ _)
    · exact ⟨_, rfl⟩
  simp only [List.mem_cons, List.not_mem_nil, or_false] at ha
  rcases ha with rfl | rfl | rfl | rfl | rfl
  case inr.inr.inl => exact hcas true hs
  case inr.inr.inr.inl => exact hcas false hs
  all_goals
    simp only [step] at hs
    split at hs <;> cases hs
    exact ⟨_, rfl⟩

/-- **Each record is delivered once.** In every run whose positions do not wrap: the consumed
records are the records of the first claims, in the order of the claims; a committed record that
is not consumed lies in its cell, and a consumer left to itself takes every record whose
predecessors are committed; a claimed cell has no unconsumed record and one holder; the
consumer's cell holds the committed record it reads; and the steps of a claim that does not get
a cell change nothing but the producer's own place. -/
theorem claims_delivered [DecidableEq ι] (c : Cap) (hc : 2 ≤ c.size) (fill : Nat → α) (s : State ι α)
    (past : List (State ι α)) (h : History (step c) (init ι fill) s past) (hu : Unwrapped c s) :
    (s.consumed.map some = (s.claims.take s.consumed.length).map Prod.snd) ∧
    (∀ p i v, s.claims[p]? = some (i, some v) → s.consumed.length ≤ p → s.data (p % c.size) = v) ∧
    (∀ k, (∀ p < s.consumed.length + k, ∃ i v, s.claims[p]? = some (i, some v)) →
      ∃ s' past', replay (step c) s past (takes ι α k) = some (s', past') ∧
        s'.consumed.map some = (s.claims.take (s.consumed.length + k)).map Prod.snd) ∧
    (∀ i cell pos, s.producer i = .claimed cell pos →
      (∀ p < s.claims.length, p % c.size = cell → p < s.consumed.length ∨ p = pos) ∧
      s.claims[pos]? = some (i, none) ∧
      ∀ j pos', s.producer j = .claimed cell pos' → j = i) ∧
    (∀ cell, s.consumer = .exposed cell →
      ∃ i, s.claims[s.consumed.length]? = some (i, some (s.data cell))) ∧
    (∀ i s', (∃ a ∈ [.claim i, .readSeq i, .cas i true, .cas i false, .reload i],
        step c s a = some s') → (∀ cell pos, s'.producer i ≠ .claimed cell pos) →
      ∃ p, s' = s.moves i p) := by
  have hi := history_inv hc h hu
  have hroom := hi.room
  refine ⟨hi.consumed, fun p i v hx hp => hi.data p i v hp hx, ?_, ?_, ?_, ?_⟩
  · intro k hx
    exact takes_run k past hi fun p _ hp => hx p hp
  · intro i cell pos hp
    have hh : Holds c s i cell pos := by have := hi.producer i; rwa [hp] at this
    obtain ⟨hlt, hwin⟩ := hi.held_lt hh
    -- Two positions of the lap that share the cell are one.
    have honly : ∀ p < s.claims.length, p % c.size = cell → p < s.consumed.length ∨ p = pos := by
      intro p hp he
      rcases Nat.lt_or_ge p s.consumed.length with hlt | hge
      · exact .inl hlt
      · refine .inr (by_contra fun hne => ?_)
        exact hh.cell_ne hwin hge (by omega) hne he
    refine ⟨honly, hh.2.2, fun j pos' hj => ?_⟩
    have hj : Holds c s j cell pos' := by have := hi.producer j; rwa [hj] at this
    rcases honly pos' (hi.held_lt hj).1 hj.1.symm with hlt | rfl
    · exact absurd hj.2.1 (Nat.not_le_of_lt hlt)
    · cases hh.2.2.symm.trans hj.2.2
      rfl
  · intro cell hcs
    obtain ⟨rfl, i, v, hx⟩ : cell = _ ∧ _ := by have := hi.consumer; rwa [hcs] at this
    exact ⟨i, by rw [hi.data _ i v le_rfl hx]; exact hx⟩
  · rintro i s' ⟨a, ha, hs⟩ hn
    exact claim_quiet ha hs hn

/-- Two cells, two producers: the second to claim commits first and waits for its turn. -/
theorem claims_delivered_out_of_order : ∃ (s : State Bool Nat) (past : List (State Bool Nat)),
    replay (step ⟨1, by decide⟩) (init Bool fun _ => 0) []
      [.claim true, .claim false, .readSeq true, .readSeq false, .cas true false, .cas false false,
        .readSeq false, .cas false false, .write false 8, .commit false, .commitSeq false, .front,
        .write true 7, .commit true, .commitSeq true, .front, .pop] = some (s, past) ∧
    s.claims = [(true, some 7), (false, some 8)] ∧
    s.consumed.map some = (s.claims.take s.consumed.length).map Prod.snd := by
  refine ⟨_, _, rfl, rfl, ?_⟩
  exact (claims_delivered ⟨1, by decide⟩ (by decide) (fun _ => (0 : Nat)) _ _ (History.start.replay
    [.claim true, .claim false, .readSeq true, .readSeq false, .cas true false, .cas false false,
      .readSeq false, .cas false false, .write false 8, .commit false, .commitSeq false, .front,
      .write true 7, .commit true, .commitSeq true, .front, .pop] rfl) (by unfold Unwrapped; decide)).1

end Stok.MpscQueue
