import Mathlib.Data.List.Basic
import Mathlib.Tactic

/-!
# Paced timers

A timer fires at or after the time that it is set to, and is then set later by at least a period; in
between it may only be put off. It may fire late and then once more at its old pace, so in a row of
firings every one but the first is a period after another: a window holds at most two firings more
than it has periods.
-/

namespace Stok.Lib

/-- The first time is at or after `a`, and each next one may come a period later. -/
def Above (period : ℕ) : ℕ → List ℕ → Prop
  | _, [] => True
  | a, x :: xs => a ≤ x ∧ Above period (a + period) xs

/-- From each time on, the next may come at once and each later one after a further period. -/
def Spaced (period : ℕ) : List ℕ → Prop
  | [] => True
  | x :: xs => Above period x xs ∧ Spaced period xs

/-- The firings of a timer that is now set to `next`. -/
def Paced (period next : ℕ) (fired : List ℕ) : Prop := Spaced period (fired ++ [next])

variable {period a b next next' now : ℕ} {l l' fired : List ℕ}

theorem Above.mono (h : Above period a l) (hle : b ≤ a) : Above period b l := by
  induction l generalizing a b with
  | nil => trivial
  | cons x xs ih => exact ⟨hle.trans h.1, ih h.2 (Nat.add_le_add_right hle period)⟩

theorem Above.sublist (h : Above period a l') (hs : l.Sublist l') : Above period a l := by
  induction hs generalizing a with
  | slnil => trivial
  | cons x _ ih => exact ih (h.2.mono (Nat.le_add_right a period))
  | cons_cons x _ ih => exact ⟨h.1, ih h.2⟩

theorem Spaced.sublist (h : Spaced period l') (hs : l.Sublist l') : Spaced period l := by
  induction hs with
  | slnil => trivial
  | cons x _ ih => exact ih h.2
  | cons_cons x hs ih => exact ⟨h.1.sublist hs, ih h.2⟩

theorem Above.later (h : Above period a (fired ++ [next])) (hle : next ≤ next') :
    Above period a (fired ++ [next']) := by
  induction fired generalizing a with
  | nil => exact ⟨h.1.trans hle, trivial⟩
  | cons x xs ih => exact ⟨h.1, ih h.2⟩

theorem Above.fire (h : Above period a (fired ++ [next])) (hdue : next ≤ now)
    (hnext : next + period ≤ next') : Above period a (fired ++ [now] ++ [next']) := by
  induction fired generalizing a with
  | nil => exact ⟨h.1.trans hdue, (Nat.add_le_add_right h.1 period).trans hnext, trivial⟩
  | cons x xs ih => exact ⟨h.1, ih h.2⟩

theorem paced_nil (period next : ℕ) : Paced period next [] := ⟨trivial, trivial⟩

theorem Paced.later (h : Paced period next fired) (hle : next ≤ next') : Paced period next' fired := by
  induction fired with
  | nil => exact paced_nil period next'
  | cons x xs ih => exact ⟨h.1.later hle, ih h.2⟩

theorem Paced.fire (h : Paced period next fired) (hdue : next ≤ now) (hnow : now ≤ next')
    (hnext : next + period ≤ next') : Paced period next' (fired ++ [now]) := by
  induction fired with
  | nil => exact ⟨⟨hnow, trivial⟩, trivial, trivial⟩
  | cons x xs ih => exact ⟨h.1.fire hdue hnext, ih h.2⟩

theorem Paced.spaced (h : Paced period next fired) : Spaced period fired :=
  h.sublist (List.sublist_append_left fired [next])

theorem Above.lt_of_forall (h : Above period a l) {k u : ℕ} (hlen : l.length = k + 1)
    (hu : ∀ x ∈ l, x < u) : a + k * period < u := by
  induction l generalizing a k with
  | nil => cases hlen
  | cons x xs ih =>
    cases k with
    | zero =>
      rw [Nat.zero_mul, Nat.add_zero]
      exact h.1.trans_lt (hu x List.mem_cons_self)
    | succ k =>
      have hrest := ih h.2 (Nat.succ.inj hlen) fun y hy => hu y (List.mem_cons_of_mem x hy)
      rw [Nat.succ_mul]
      omega

/-- **A window holds at most two firings more than it has periods.** -/
theorem Spaced.window (h : Spaced period fired) (t w k : ℕ)
    (hcount : fired.countP (fun x => decide (t ≤ x ∧ x < t + w)) = k + 2) : k * period < w := by
  rw [List.countP_eq_length_filter] at hcount
  have hsub := h.sublist (fired.filter_sublist (p := fun x => decide (t ≤ x ∧ x < t + w)))
  have hmem : ∀ x ∈ fired.filter fun x => decide (t ≤ x ∧ x < t + w), t ≤ x ∧ x < t + w :=
    fun x hx => of_decide_eq_true (List.mem_filter.mp hx).2
  generalize fired.filter _ = l at hcount hsub hmem
  cases l with
  | nil => cases hcount
  | cons x xs =>
    have hlt := hsub.1.lt_of_forall (Nat.succ.inj hcount) fun y hy =>
      (hmem y (List.mem_cons_of_mem x hy)).2
    have := (hmem x List.mem_cons_self).1
    omega

end Stok.Lib
