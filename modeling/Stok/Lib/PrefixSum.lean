import Mathlib.Algebra.BigOperators.Group.List.Basic
import Mathlib.Algebra.Order.Group.Defs
import Mathlib.Order.Bounds.Basic

/-!
# Running sums, their peak and their drawdowns

The sums of the prefixes of a list, and how far each of them lies below the greatest sum so far. Both
sets grow by one element when the list does.
-/

namespace Stok.Lib

section

variable {α : Type} [AddCommGroup α]

/-- The sums of the prefixes of a list. -/
def prefixSums (l : List α) : Set α := {x | ∃ k ≤ l.length, x = (l.take k).sum}

theorem sum_mem_prefixSums (l : List α) : l.sum ∈ prefixSums l :=
  ⟨l.length, le_rfl, by rw [List.take_length]⟩

theorem prefixSums_nil : prefixSums ([] : List α) = {0} := by
  ext x
  constructor
  · rintro ⟨k, -, rfl⟩
    simp
  · rintro rfl
    exact ⟨0, le_rfl, rfl⟩

theorem prefixSums_concat (l : List α) (x : α) :
    prefixSums (l ++ [x]) = insert (l.sum + x) (prefixSums l) := by
  ext y
  constructor
  · rintro ⟨k, hk, rfl⟩
    rcases Nat.lt_or_ge l.length k with hlt | hle
    · refine .inl ?_
      rw [List.take_of_length_le (by rw [List.length_append]; exact hlt)]
      simp
    · exact .inr ⟨k, hle, by rw [List.take_append_of_le_length hle]⟩
  · rintro (rfl | ⟨k, hk, rfl⟩)
    · have := sum_mem_prefixSums (l ++ [x])
      rwa [List.sum_append, List.sum_singleton] at this
    · refine ⟨k, ?_, by rw [List.take_append_of_le_length hk]⟩
      rw [List.length_append]
      exact Nat.le_add_right_of_le hk

end

section

variable {α : Type} [AddCommGroup α] [LinearOrder α] {l : List α} {m : α}

/-- How far the running sum lies below its peak, at each prefix. -/
def drawdowns (l : List α) : Set α :=
  {x | ∃ k ≤ l.length, ∃ m, IsGreatest (prefixSums (l.take k)) m ∧ x = m - (l.take k).sum}

theorem isGreatest_prefixSums_nil : IsGreatest (prefixSums ([] : List α)) 0 := by
  rw [prefixSums_nil]
  exact isGreatest_singleton

theorem isGreatest_drawdowns_nil : IsGreatest (drawdowns ([] : List α)) 0 := by
  constructor
  · exact ⟨0, le_rfl, 0, isGreatest_prefixSums_nil, by simp⟩
  · rintro x ⟨k, -, m, hm, rfl⟩
    rw [List.take_nil] at hm ⊢
    rw [hm.unique isGreatest_prefixSums_nil]
    simp

theorem isGreatest_prefixSums_concat (h : IsGreatest (prefixSums l) m) (x : α) :
    IsGreatest (prefixSums (l ++ [x])) (max m (l.sum + x)) := by
  rw [prefixSums_concat, max_comm]
  exact h.insert _

theorem drawdowns_concat {x : α} (h : IsGreatest (prefixSums (l ++ [x])) m) :
    drawdowns (l ++ [x]) = insert (m - (l.sum + x)) (drawdowns l) := by
  ext y
  constructor
  · rintro ⟨k, hk, n, hn, rfl⟩
    rcases Nat.lt_or_ge l.length k with hlt | hle
    · refine .inl ?_
      rw [List.take_of_length_le (by rw [List.length_append]; exact hlt)] at hn ⊢
      rw [hn.unique h, List.sum_append, List.sum_singleton]
    · rw [List.take_append_of_le_length hle] at hn ⊢
      exact .inr ⟨k, hle, n, hn, rfl⟩
  · rintro (rfl | ⟨k, hk, n, hn, rfl⟩)
    · refine ⟨(l ++ [x]).length, le_rfl, m, ?_, ?_⟩
      · rwa [List.take_length]
      · rw [List.take_length, List.sum_append, List.sum_singleton]
    · refine ⟨k, ?_, n, ?_, ?_⟩
      · rw [List.length_append]
        exact Nat.le_add_right_of_le hk
      · rwa [List.take_append_of_le_length hk]
      · rw [List.take_append_of_le_length hk]

theorem isGreatest_drawdowns_concat {d x : α} (h : IsGreatest (prefixSums (l ++ [x])) m)
    (hd : IsGreatest (drawdowns l) d) :
    IsGreatest (drawdowns (l ++ [x])) (max d (m - (l.sum + x))) := by
  rw [drawdowns_concat h, max_comm]
  exact hd.insert _

end

end Stok.Lib
