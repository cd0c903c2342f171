import Mathlib.Tactic

/-!
# The first place where a text matches

`first p s` is the least index of `s` from which on `p` holds of what is left. `Free p a b` says
that `p` holds nowhere in `a` when `b` follows it, also where a match would reach into `b`; a search
then goes on in `b` (`first_append`).
-/

namespace Stok.Lib.FirstMatch

variable {α : Type} {p : List α → Bool}

def first (p : List α → Bool) : List α → Option Nat
  | [] => if p [] then some 0 else none
  | a :: s => if p (a :: s) then some 0 else (first p s).map (· + 1)

def Free (p : List α → Bool) (a b : List α) : Prop := ∀ i < a.length, p (a.drop i ++ b) = false

theorem free_nil (b : List α) : Free p [] b := nofun

theorem free_cons {c : α} {a b : List α} : Free p (c :: a) b ↔ p (c :: (a ++ b)) = false ∧ Free p a b := by
  constructor
  · intro h
    refine ⟨h 0 (Nat.succ_pos _), fun i hi => h (i + 1) ?_⟩
    rw [List.length_cons]
    omega
  · rintro ⟨h0, h⟩ i hi
    cases i with
    | zero => exact h0
    | succ i => exact h i (Nat.lt_of_succ_lt_succ hi)

theorem free_append {a a' b : List α} : Free p (a ++ a') b ↔ Free p a (a' ++ b) ∧ Free p a' b := by
  induction a with
  | nil => exact ⟨fun h => ⟨free_nil _, h⟩, fun h => h.2⟩
  | cons c a ih => rw [List.cons_append, free_cons, free_cons, ih, List.append_assoc, and_assoc]

/-- A match begins with one of few elements. -/
theorem free_of_head {q : α → Bool} (hp : ∀ c s, q c = false → p (c :: s) = false) {a : List α}
    (ha : ∀ c ∈ a, q c = false) (b : List α) : Free p a b := by
  induction a with
  | nil => exact free_nil b
  | cons c a ih =>
    exact free_cons.mpr ⟨hp c _ (ha c List.mem_cons_self), ih fun d hd => ha d (List.mem_cons_of_mem c hd)⟩

theorem first_append {a b : List α} (h : Free p a b) : first p (a ++ b) = (first p b).map (a.length + ·) := by
  induction a with
  | nil => simp
  | cons c a ih =>
    obtain ⟨h0, h⟩ := free_cons.mp h
    rw [List.cons_append, first, if_neg (by rw [h0]; exact Bool.false_ne_true), ih h, Option.map_map]
    congr 1
    funext n
    simp only [Function.comp_apply, List.length_cons]
    omega

theorem first_pos {s : List α} (h : p s = true) : first p s = some 0 := by
  cases s with
  | nil => exact if_pos h
  | cons c s => exact if_pos h

/-- The first match is the end of a text that is free of matches. -/
theorem first_of_free {a b : List α} (h : Free p a b) (hb : p b = true) : first p (a ++ b) = some a.length := by
  rw [first_append h, first_pos hb, Option.map_some, Nat.add_zero]

theorem first_none {a : List α} (h : Free p a []) (hnil : p [] = false) : first p a = none := by
  have := first_append h
  rwa [List.append_nil, first, if_neg (by rw [hnil]; exact Bool.false_ne_true)] at this

/-- What the place of a first match says. -/
theorem first_spec {s : List α} {n : Nat} (h : first p s = some n) :
    n ≤ s.length ∧ p (s.drop n) = true ∧ Free p (s.take n) (s.drop n) := by
  induction s generalizing n with
  | nil =>
    rw [first] at h
    split at h
    · cases h
      exact ⟨Nat.le_refl 0, ‹_›, free_nil _⟩
    · cases h
  | cons c s ih =>
    rw [first] at h
    split at h
    · cases h
      exact ⟨Nat.zero_le _, ‹_›, free_nil _⟩
    · rename_i hc
      obtain ⟨m, hm, rfl⟩ := Option.map_eq_some_iff.mp h
      obtain ⟨hle, hp, hfree⟩ := ih hm
      refine ⟨by rw [List.length_cons]; omega, hp, ?_⟩
      rw [List.take_succ_cons, List.drop_succ_cons, free_cons, List.take_append_drop]
      exact ⟨Bool.not_eq_true _ ▸ hc, hfree⟩

/-- A search over indices from `i` on. -/
theorem find?_range' (s : List α) (hnil : p [] = false) (i : Nat) :
    (List.range' i (s.length + 1 - i)).find? (fun j => p (s.drop j)) = (first p (s.drop i)).map (i + ·) := by
  rcases Nat.lt_or_ge s.length i with hi | hi
  · have h0 : s.length + 1 - i = 0 := by omega
    rw [h0, List.drop_eq_nil_of_le hi.le, first, if_neg (by rw [hnil]; exact Bool.false_ne_true)]
    rfl
  · cases hf : first p (s.drop i) with
    | none =>
      rw [Option.map_none, List.find?_range'_eq_none]
      intro j hj hj'
      rw [Bool.not_eq_true']
      by_contra hp
      rw [Bool.not_eq_false] at hp
      have hfree : ∀ t : List α, first p t = none → ∀ k ≤ t.length, p (t.drop k) = false := by
        intro t
        induction t with
        | nil => intro _ k _; rw [List.drop_nil]; exact hnil
        | cons c t ih =>
          intro ht k hk
          rw [first] at ht
          split at ht
          · cases ht
          · rename_i hc
            cases k with
            | zero => exact Bool.not_eq_true _ ▸ hc
            | succ k => exact ih (Option.map_eq_none_iff.mp ht) k (Nat.le_of_succ_le_succ hk)
      have := hfree _ hf (j - i) (by rw [List.length_drop]; omega)
      rw [List.drop_drop, Nat.add_sub_cancel' hj, hp] at this
      cases this
    | some n =>
      obtain ⟨hle, hp, hfree⟩ := first_spec hf
      rw [List.length_drop] at hle
      rw [Option.map_some, List.find?_range'_eq_some]
      refine ⟨by rw [← List.drop_drop]; exact hp, ?_, fun j hj hj' => ?_⟩
      · rw [List.mem_range'_1]
        omega
      · rw [Bool.not_eq_true']
        have := hfree (j - i) (by rw [List.length_take, List.length_drop]; omega)
        rw [List.drop_take, List.drop_drop, Nat.add_sub_cancel' hj] at this
        have hrest : (s.drop i).drop n = (s.drop j).drop (n - (j - i)) := by
          rw [List.drop_drop, List.drop_drop]
          congr 1
          omega
        rwa [hrest, List.take_append_drop] at this

end Stok.Lib.FirstMatch
