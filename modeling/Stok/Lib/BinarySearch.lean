import Mathlib.Data.List.TakeWhile

/-!
# Binary search

`lowerBound p l` looks for the first element of `l` on which `p` fails, in the way of
`std::lower_bound`: the range that is left is halved. Where `p` holds of a front part of the
list and of nothing after it (`Partitioned`), the search ends where a scan from the front
would (`lowerBound_eq`).
-/

namespace Stok.BinarySearch

variable {α : Type*}

/-- The search in the `len` elements from `first` on. -/
def lowerBoundFrom (p : α → Bool) (l : List α) (first len : Nat) : Nat :=
  if 0 < len then
    let half := len / 2
    match l[first + half]? with
    | some e =>
      if p e then lowerBoundFrom p l (first + half + 1) (len - half - 1)
      else lowerBoundFrom p l first half
    | none => first
  else first
termination_by len

def lowerBound (p : α → Bool) (l : List α) : Nat := lowerBoundFrom p l 0 l.length

/-- What `p` holds of comes before what it fails on. -/
def Partitioned (p : α → Bool) (l : List α) : Prop := l.Pairwise fun a b => p b = true → p a = true

variable {p : α → Bool} {l : List α}

theorem Partitioned.dropWhile (h : Partitioned p l) : ∀ b ∈ l.dropWhile p, p b = false := by
  induction l with
  | nil => exact fun b hb => absurd hb List.not_mem_nil
  | cons a l ih =>
    have ⟨ha, hl⟩ := List.pairwise_cons.1 h
    intro b hb
    rw [List.dropWhile_cons] at hb
    split at hb
    · exact ih hl b hb
    · rename_i hpa
      rcases List.mem_cons.1 hb with rfl | hb
      · exact Bool.not_eq_true _ |>.mp hpa
      · exact Bool.not_eq_true _ |>.mp fun hpb => hpa (ha b hb hpb)

/-- In a partitioned list `p` says on which side of the partition point an index lies. -/
theorem Partitioned.getElem (h : Partitioned p l) {i : Nat} {e : α} (he : l[i]? = some e) :
    p e = true ↔ i < (l.takeWhile p).length := by
  rw [← List.takeWhile_append_dropWhile (p := p) (l := l), List.getElem?_append] at he
  split at he
  · rename_i hi
    exact iff_of_true (List.mem_takeWhile_imp (List.mem_of_getElem? he)) hi
  · rename_i hi
    refine iff_of_false ?_ hi
    rw [h.dropWhile e (List.mem_of_getElem? he)]
    exact Bool.false_ne_true

/-- The partition point stays in the range that is left. -/
theorem Partitioned.lowerBoundFrom_eq (h : Partitioned p l) (first len : Nat)
    (hlo : first ≤ (l.takeWhile p).length) (hhi : (l.takeWhile p).length ≤ first + len)
    (hlen : first + len ≤ l.length) : lowerBoundFrom p l first len = (l.takeWhile p).length := by
  induction len using Nat.strong_induction_on generalizing first with
  | h len ih =>
    rw [lowerBoundFrom]
    split
    · rename_i hpos
      have hlt : first + len / 2 < l.length := by omega
      simp only [List.getElem?_eq_getElem hlt]
      have hmid := h.getElem (List.getElem?_eq_getElem hlt)
      split
      · rename_i hp
        have := hmid.1 hp
        exact ih _ (by omega) _ (by omega) (by omega) (by omega)
      · rename_i hp
        have := hmid.not.1 hp
        exact ih _ (by omega) _ hlo (by omega) (by omega)
    · omega

theorem Partitioned.lowerBound_eq (h : Partitioned p l) :
    lowerBound p l = (l.takeWhile p).length := by
  have hle : (l.takeWhile p).length ≤ l.length := (List.takeWhile_prefix p).length_le
  exact h.lowerBoundFrom_eq 0 l.length (Nat.zero_le _) (by omega) (by omega)

end Stok.BinarySearch
