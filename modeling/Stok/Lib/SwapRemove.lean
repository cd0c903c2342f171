import Mathlib.Data.List.Perm.Basic
import Mathlib.Tactic

/-!
# Swap-removal

Removing an entry of a vector by moving the last one into its place, and loops that walk a vector
backwards while they remove entries so.
-/

namespace Stok.Lib

variable {α S : Type*}

/-- The last entry takes the place of the one at `k`; `d` stands for it in an empty list. -/
def swapRemove (l : List α) (k : Nat) (d : α) : List α := (l.set k (l.getLastD d)).dropLast

/-- A loop over the positions below `k`, downwards: `turn` at each, and the entries found there. -/
def walkBack (list : S → List α) (turn : S → Nat → S) : Nat → S → S × List α
  | 0, s => (s, [])
  | k + 1, s =>
    let (s', seen) := walkBack list turn k (turn s k)
    (s', (list s)[k]?.toList ++ seen)

theorem swapRemove_last (l : List α) (x d : α) : swapRemove (l ++ [x]) l.length d = l := by
  simp [swapRemove]

theorem swapRemove_middle (l r : List α) (x y d : α) :
    swapRemove (l ++ x :: (r ++ [y])) l.length d = l ++ y :: r := by
  have hlast : (l ++ x :: (r ++ [y])).getLastD d = y := by
    rw [← List.cons_append, ← List.append_assoc, List.getLastD_concat]
  rw [swapRemove, hlast, List.set_append_right _ _ le_rfl, Nat.sub_self, List.set_cons_zero,
    ← List.cons_append, ← List.append_assoc, List.dropLast_concat]

/-- The entries before the place stay; those after it stay up to their order. -/
theorem swapRemove_spec {l : List α} {k : Nat} {x : α} (h : l[k]? = some x) (d : α) :
    (swapRemove l k d).take k = l.take k ∧ ((swapRemove l k d).drop k).Perm (l.drop (k + 1)) := by
  obtain ⟨hk, hx⟩ := List.getElem?_eq_some_iff.mp h
  have hl : l = l.take k ++ x :: l.drop (k + 1) := by
    rw [← hx, List.getElem_cons_drop, List.take_append_drop]
  have hlen : (l.take k).length = k := List.length_take_of_le hk.le
  generalize l.take k = a at hl hlen ⊢
  generalize l.drop (k + 1) = b at hl ⊢
  subst hl hlen
  rcases List.eq_nil_or_concat b with rfl | ⟨b, y, rfl⟩
  · rw [swapRemove_last]
    simp
  · rw [List.concat_eq_append, swapRemove_middle]
    refine ⟨by simp, ?_⟩
    rw [List.drop_left]
    exact (List.perm_append_singleton y b).symm

theorem swapRemove_perm {l : List α} {k : Nat} {x : α} (h : l[k]? = some x) (d : α) :
    (x :: swapRemove l k d).Perm l := by
  obtain ⟨hk, hx⟩ := List.getElem?_eq_some_iff.mp h
  obtain ⟨htake, hdrop⟩ := swapRemove_spec h d
  have hl : l = l.take k ++ x :: l.drop (k + 1) := by
    rw [← hx, List.getElem_cons_drop, List.take_append_drop]
  calc (x :: swapRemove l k d).Perm (x :: (l.take k ++ (swapRemove l k d).drop k)) := by
        rw [← htake, List.take_append_drop]
    _ |>.Perm (l.take k ++ x :: (swapRemove l k d).drop k) := List.perm_middle.symm
    _ |>.Perm (l.take k ++ x :: l.drop (k + 1)) := (hdrop.cons x).append_left _
    _ |>.Perm l := by rw [← hl]

section

variable {list : S → List α} {turn : S → Nat → S} {I : S → Prop} {gone : α → Bool}

/-- The positions below `k` are visited once each. What is above `k` stays. -/
theorem walkBack_below
    (hturn : ∀ s k x, I s → (list s)[k]? = some x → I (turn s k) ∧
      list (turn s k) = if gone x then swapRemove (list s) k x else list s)
    {k : Nat} {s : S} (hI : I s) (hk : k ≤ (list s).length) :
    (walkBack list turn k s).2 = ((list s).take k).reverse ∧
      (list (walkBack list turn k s).1).Perm
        (((list s).take k).filter (fun x => !gone x) ++ (list s).drop k) ∧
      I (walkBack list turn k s).1 := by
  induction k generalizing s with
  | zero => exact ⟨rfl, by simp [walkBack], hI⟩
  | succ k ih =>
    have hx : (list s)[k]? = some (list s)[k] := List.getElem?_eq_getElem hk
    generalize (list s)[k] = x at hx
    obtain ⟨hI', hlist⟩ := hturn s k x hI hx
    have htake : (list s).take (k + 1) = (list s).take k ++ [x] := by
      rw [List.take_add_one, hx]
      rfl
    have hdrop : (list s).drop k = x :: (list s).drop (k + 1) := by
      obtain ⟨hk', rfl⟩ := List.getElem?_eq_some_iff.mp hx
      exact List.drop_eq_getElem_cons hk'
    -- the list after the turn, as far as the rest of the walk depends on it
    have hafter : (list (turn s k)).take k = (list s).take k ∧
        ((list (turn s k)).drop k).Perm (([x].filter fun x => !gone x) ++ (list s).drop (k + 1)) := by
      rw [hlist]
      cases hg : gone x with
      | true =>
        obtain ⟨h1, h2⟩ := swapRemove_spec hx x
        exact ⟨h1, by simpa [hg] using h2⟩
      | false => exact ⟨rfl, by simp [hg, hdrop]⟩
    have hlen : k ≤ (list (turn s k)).length := by
      have := congrArg List.length hafter.1
      rw [List.length_take, List.length_take] at this
      omega
    obtain ⟨h1, h2, h3⟩ := ih hI' hlen
    refine ⟨?_, ?_, h3⟩
    · show (list s)[k]?.toList ++ (walkBack list turn k (turn s k)).2 = _
      rw [h1, hx, hafter.1, htake, List.reverse_append]
      rfl
    · refine h2.trans ?_
      rw [hafter.1, htake, List.filter_append, List.append_assoc]
      exact hafter.2.append_left _

variable (list turn I gone) in
/-- A loop that may remove the entry it is at visits every entry once and leaves those that it
does not remove. -/
theorem walkBack_spec
    (hturn : ∀ s k x, I s → (list s)[k]? = some x → I (turn s k) ∧
      list (turn s k) = if gone x then swapRemove (list s) k x else list s)
    {s : S} (hI : I s) :
    (walkBack list turn (list s).length s).2 = (list s).reverse ∧
      (list (walkBack list turn (list s).length s).1).Perm ((list s).filter fun x => !gone x) ∧
      I (walkBack list turn (list s).length s).1 := by
  have h := walkBack_below hturn hI le_rfl
  rwa [List.take_length, List.drop_length, List.append_nil] at h

end

end Stok.Lib
