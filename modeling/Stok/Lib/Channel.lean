import Mathlib.Data.List.Basic
import Mathlib.Tactic

/-!
# Bounded channels that refuse

A `Channel` is a bounded first-in first-out buffer between two parties. An offer to a full
channel is refused and counted. The channel carries the account of its run: every item that was
offered has been taken, is still there, or was refused, and the order of the items is kept.
-/

namespace Stok.Lib

structure Channel (α : Type*) (cap : Nat) where
  offered : List α
  taken : List α
  items : List α
  refused : Nat
  order : (taken ++ items).Sublist offered
  account : offered.length = taken.length + items.length + refused
  bounded : items.length ≤ cap

namespace Channel

variable {α : Type*} {cap : Nat}

def empty (α : Type*) (cap : Nat) : Channel α cap where
  offered := []
  taken := []
  items := []
  refused := 0
  order := .refl _
  account := rfl
  bounded := Nat.zero_le cap

/-- What got through, or will. -/
def accepted (c : Channel α cap) : List α := c.taken ++ c.items

def accept (c : Channel α cap) (a : α) (h : c.items.length < cap) : Channel α cap where
  offered := c.offered ++ [a]
  taken := c.taken
  items := c.items ++ [a]
  refused := c.refused
  order := by
    rw [← List.append_assoc]
    exact c.order.append (.refl [a])
  account := by
    have h := c.account
    simp only [List.length_append, List.length_singleton]
    omega
  bounded := by simpa using h

def refuse (c : Channel α cap) (a : α) : Channel α cap where
  offered := c.offered ++ [a]
  taken := c.taken
  items := c.items
  refused := c.refused + 1
  order := c.order.trans (List.sublist_append_left _ _)
  account := by
    have h := c.account
    simp only [List.length_append, List.length_singleton]
    omega
  bounded := c.bounded

def offer (c : Channel α cap) (a : α) : Channel α cap :=
  if h : c.items.length < cap then c.accept a h else c.refuse a

/-- Takes the oldest item, if there is one. -/
def take (c : Channel α cap) : Channel α cap where
  offered := c.offered
  taken := c.taken ++ c.items.take 1
  items := c.items.drop 1
  refused := c.refused
  order := by
    rw [List.append_assoc, List.take_append_drop]
    exact c.order
  account := by
    have h := c.account
    have hsum := congrArg List.length (List.take_append_drop 1 c.items)
    simp only [List.length_append] at hsum ⊢
    omega
  bounded := by
    have h := c.bounded
    rw [List.length_drop]
    omega

@[simp] theorem offer_offered (c : Channel α cap) (a : α) :
    (c.offer a).offered = c.offered ++ [a] := by
  unfold offer
  split <;> rfl

@[simp] theorem offer_taken (c : Channel α cap) (a : α) : (c.offer a).taken = c.taken := by
  unfold offer
  split <;> rfl

@[simp] theorem take_offered (c : Channel α cap) : c.take.offered = c.offered := rfl

@[simp] theorem take_accepted (c : Channel α cap) : c.take.accepted = c.accepted := by
  show (c.taken ++ c.items.take 1) ++ c.items.drop 1 = c.accepted
  rw [List.append_assoc, List.take_append_drop]
  rfl

theorem offer_of_lt {c : Channel α cap} (a : α) (h : c.items.length < cap) :
    c.offer a = c.accept a h := dif_pos h

theorem offer_of_full {c : Channel α cap} (a : α) (h : c.items.length = cap) :
    c.offer a = c.refuse a := dif_neg (by omega)

/-- An offer never disturbs what is there. -/
theorem items_prefix_offer (c : Channel α cap) (a : α) : c.items <+: (c.offer a).items := by
  unfold offer
  split
  · exact List.prefix_append _ _
  · exact List.prefix_rfl

theorem take_of_items {c : Channel α cap} {a : α} {rest : List α} (h : c.items = a :: rest) :
    c.take.taken = c.taken ++ [a] ∧ c.take.items = rest := by
  constructor
  · show c.taken ++ c.items.take 1 = _
    rw [h]
    rfl
  · show c.items.drop 1 = _
    rw [h]
    rfl

/-- A channel that has refused nothing has let everything through. -/
theorem accepted_eq {c : Channel α cap} (h : c.refused = 0) : c.accepted = c.offered := by
  refine c.order.eq_of_length ?_
  have := c.account
  rw [List.length_append]
  omega

theorem taken_sublist (c : Channel α cap) : c.taken.Sublist c.offered :=
  (List.sublist_append_left _ _).trans c.order

end Channel

end Stok.Lib
