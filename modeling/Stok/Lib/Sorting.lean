import Mathlib.Algebra.BigOperators.Group.List.Basic
import Mathlib.Data.List.Sort

/-!
# Sorts that are not stable

A sort by `lt` may put elements in any order of which neither is less. Where keys are distinct, and for what a
sorted list says about its largest elements, this makes no difference.
-/

namespace Stok.Lib

variable {α κ : Type}

/-- A sort by `lt`. -/
structure SortsBy (lt : α → α → Bool) (sort : List α → List α) : Prop where
  perm : ∀ l, (sort l).Perm l
  sorted : ∀ l, (sort l).Pairwise fun a b => lt b a = false

theorem SortsBy.nil {lt : α → α → Bool} {sort : List α → List α} (h : SortsBy lt sort) : sort [] = [] := (h.perm []).eq_nil

/-- The insertion sort by a key. -/
theorem sortsBy_insertionSort [LinearOrder κ] (key : α → κ) :
    SortsBy (fun a b => decide (key a < key b)) (List.insertionSort fun a b => key a ≤ key b) where
  perm := List.perm_insertionSort _
  sorted l := by
    have : Std.Total fun a b : α => key a ≤ key b := ⟨fun a b => le_total _ _⟩
    have : IsTrans α fun a b : α => key a ≤ key b := ⟨fun a b c => le_trans⟩
    exact (List.pairwise_insertionSort (fun a b => key a ≤ key b) l).imp fun h => decide_eq_false (not_lt.mpr h)

/-- Two lists that are sorted by a key and have the same elements are one, when the keys are distinct. -/
theorem eq_of_sorted_keys [LinearOrder κ] {key : α → κ} {l l' : List α} (hp : l.Perm l')
    (hs : l.Pairwise fun a b => key a ≤ key b) (hs' : l'.Pairwise fun a b => key a ≤ key b) (hd : (l.map key).Nodup) :
    l = l' := by
  refine List.Perm.eq_of_pairwise (fun a b ha hb hab hba => ?_) hs hs' hp
  exact List.inj_on_of_nodup_map hd ha (hp.mem_iff.mpr hb) (le_antisymm hab hba)

section

variable [LinearOrder α]

/-- `top` is `k` largest elements of `l`, or all of them when there are fewer. -/
structure Largest (k : Nat) (l top : List α) : Prop where
  length : top.length = min k l.length
  rest : ∃ rest, (top ++ rest).Perm l ∧ ∀ x ∈ top, ∀ y ∈ rest, y ≤ x

theorem largest_take {l sorted : List α} (hp : sorted.Perm l) (hs : sorted.Pairwise fun a b => b ≤ a) (k : Nat) :
    Largest k l (sorted.take k) where
  length := by rw [List.length_take, hp.length_eq]
  rest := by
    refine ⟨sorted.drop k, by rwa [List.take_append_drop], ?_⟩
    rw [← List.take_append_drop k sorted, List.pairwise_append] at hs
    exact hs.2.2

/-- The elements above a bound come first in a descending list. -/
theorem take_filter_of_sorted {l : List α} (hs : l.Pairwise fun a b => b ≤ a) (c : α) (k : Nat) :
    (l.take k).filter (fun x => decide (c < x)) = (l.filter fun x => decide (c < x)).take k := by
  induction l generalizing k with
  | nil => simp
  | cons a l ih =>
    rw [List.pairwise_cons] at hs
    cases k with
    | zero => rfl
    | succ k =>
      by_cases ha : c < a
      · rw [List.take_succ_cons, List.filter_cons_of_pos (by simpa using ha), List.filter_cons_of_pos (by simpa using ha),
          List.take_succ_cons, ih hs.2]
      · have hnone : ∀ x ∈ a :: l, ¬ decide (c < x) = true := by
          intro x hx
          rcases List.mem_cons.mp hx with rfl | hx
          · simpa using ha
          · simpa using (hs.1 x hx).trans (not_lt.mp ha)
        rw [List.filter_eq_nil_iff.mpr hnone, List.take_nil]
        exact List.filter_eq_nil_iff.mpr fun x hx => hnone x (List.mem_of_mem_take hx)

/-- The sum of the `k` largest elements is one number. -/
theorem Largest.sum_eq [AddCommMonoid α] {k : Nat} {l l' top top' : List α} (h : Largest k l top) (h' : Largest k l' top')
    (hp : l.Perm l') : top.sum = top'.sum := by
  have : Std.Total fun a b : α => b ≤ a := ⟨fun a b => le_total b a⟩
  have : IsTrans α fun a b : α => b ≤ a := ⟨fun a b c hab hbc => hbc.trans hab⟩
  have : Std.Antisymm fun a b : α => b ≤ a := ⟨fun a b hab hba => le_antisymm hba hab⟩
  let desc : List α → List α := List.insertionSort fun a b => b ≤ a
  have hperm : ∀ l, (desc l).Perm l := List.perm_insertionSort _
  -- the whole list in descending order begins with `top` in descending order
  have hwhole : ∀ {l top : List α}, Largest k l top → desc top = (desc l).take k := by
    intro l top h
    obtain ⟨rest, hrest, hle⟩ := h.rest
    have hsorted : (desc top ++ desc rest).Pairwise fun a b => b ≤ a := by
      refine List.pairwise_append.mpr ⟨List.pairwise_insertionSort _ _, List.pairwise_insertionSort _ _, ?_⟩
      exact fun x hx y hy => hle x ((hperm top).mem_iff.mp hx) y ((hperm rest).mem_iff.mp hy)
    have heq : desc top ++ desc rest = desc l := by
      refine List.Perm.eq_of_pairwise (fun a b _ _ hab hba => le_antisymm hba hab) hsorted (List.pairwise_insertionSort _ _) ?_
      exact ((hperm top).append (hperm rest)).trans (hrest.trans (hperm l).symm)
    rcases Nat.le_total k l.length with hk | hk
    · have hlen : (desc top).length = k := by rw [(hperm top).length_eq, h.length, min_eq_left hk]
      rw [← heq, List.take_append_of_le_length hlen.ge, List.take_of_length_le hlen.le]
    · have hlen : (desc top).length = (desc top ++ desc rest).length := by
        rw [heq, (hperm top).length_eq, h.length, min_eq_right hk, (hperm l).length_eq]
      rw [List.length_append] at hlen
      have hnil : desc rest = [] := List.eq_nil_of_length_eq_zero (by omega)
      rw [List.take_of_length_le ((hperm l).length_eq.trans_le hk), ← heq, hnil, List.append_nil]
  have hsame : desc l = desc l' := by
    refine List.Perm.eq_of_pairwise (fun a b _ _ hab hba => le_antisymm hba hab) (List.pairwise_insertionSort _ _)
      (List.pairwise_insertionSort _ _) ?_
    exact (hperm l).trans (hp.trans (hperm l').symm)
  calc top.sum = (desc top).sum := ((hperm top).sum_eq).symm
    _ = (desc top').sum := by rw [hwhole h, hwhole h', hsame]
    _ = top'.sum := (hperm top').sum_eq

end

end Stok.Lib
