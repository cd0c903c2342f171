import Mathlib.Data.List.Sort
import Stok.Lib.BinarySearch

/-!
# Ranks by counting

The `k`-th smallest element of a list has a property that goes down the order just when at least
`k` elements have it.
-/

namespace Stok.Lib

open BinarySearch (Partitioned)

variable {α : Type*}

theorem countP_of_partitioned {p : α → Bool} {l : List α} (h : Partitioned p l) :
    l.countP p = (l.takeWhile p).length := by
  have hfront : (l.takeWhile p).countP p = (l.takeWhile p).length :=
    List.countP_eq_length.2 fun _ ha => List.mem_takeWhile_imp ha
  have hback : (l.dropWhile p).countP p = 0 := by
    refine List.countP_eq_zero.2 fun b hb => ?_
    rw [h.dropWhile b hb]
    exact Bool.false_ne_true
  rw [← List.takeWhile_append_dropWhile (p := p) (l := l), List.countP_append, hback, Nat.add_zero,
    List.takeWhile_append_dropWhile, hfront]

variable [LinearOrder α]

/-- The `k`-th smallest element, from one on. -/
def kth (l : List α) (k : Nat) : Option α := (l.mergeSort fun a b => decide (a ≤ b))[k - 1]?

theorem mem_of_kth {l : List α} {k : Nat} {x : α} (h : kth l k = some x) : x ∈ l :=
  List.mem_mergeSort.1 (List.mem_of_getElem? h)

theorem kth_isSome {l : List α} {k : Nat} (hk : 0 < k) (hle : k ≤ l.length) : ∃ x, kth l k = some x := by
  refine ⟨_, List.getElem?_eq_getElem ?_⟩
  rw [List.length_mergeSort]
  omega

theorem le_countP_iff {p : α → Bool} (hp : ∀ a b, a ≤ b → p b = true → p a = true) {l : List α} {k : Nat}
    {x : α} (hk : 0 < k) (hx : kth l k = some x) : k ≤ l.countP p ↔ p x = true := by
  obtain ⟨s, hs⟩ : ∃ s, l.mergeSort (fun a b => decide (a ≤ b)) = s := ⟨_, rfl⟩
  rw [kth, hs] at hx
  have hperm : s.Perm l := hs ▸ List.mergeSort_perm l _
  have hsorted : s.Pairwise fun a b => decide (a ≤ b) = true := by
    rw [← hs]
    refine List.pairwise_mergeSort (fun a b c hab hbc => ?_) (fun a b => ?_) l
    · exact decide_eq_true (le_trans (of_decide_eq_true hab) (of_decide_eq_true hbc))
    · rw [Bool.or_eq_true, decide_eq_true_iff, decide_eq_true_iff]
      exact le_total a b
  have hpart : Partitioned p s := hsorted.imp fun hab hb => hp _ _ (of_decide_eq_true hab) hb
  rw [hpart.getElem hx, ← countP_of_partitioned hpart, hperm.countP_eq]
  omega

end Stok.Lib
