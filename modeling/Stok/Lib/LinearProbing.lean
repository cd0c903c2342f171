import Mathlib.Tactic

/-!
# Linear probing on a ring of slots

A table is a function `t : Nat → Option K` on the slots `0 .. n - 1`. Every key
has an ideal slot `ideal k`; a lookup walks the ring from there until it meets
the key or an empty slot. `dist n a b` is the number of steps from `a` to `b`
walking upwards and around the end.

`Probed` is the invariant of the walk: no empty slot lies between the ideal slot
of a stored key and the slot that holds it. `HoleAt` is the invariant of
backward-shift deletion, in which the hole still counts as occupied and the
entries already passed no longer depend on it.
-/

namespace Stok.Lib.Probing

/-- Steps from slot `a` up to slot `b`, around the end of the ring. -/
def dist (n a b : Nat) : Nat := if a ≤ b then b - a else b + n - a

/-- The slot after `i`. -/
def next (n i : Nat) : Nat := if i + 1 = n then 0 else i + 1

theorem next_lt {n i : Nat} (h : i < n) : next n i < n := by
  unfold next; split <;> omega

theorem dist_lt {n a b : Nat} (ha : a < n) (hb : b < n) : dist n a b < n := by
  unfold dist; split <;> omega

@[simp] theorem dist_self (n a : Nat) : dist n a a = 0 := by simp [dist]

theorem dist_eq_zero {n a b : Nat} (ha : a < n) (h : dist n a b = 0) : a = b := by
  unfold dist at h; split at h <;> omega

theorem dist_inj {n a b c : Nat} (ha : a < n) (hb : b < n) (hc : c < n)
    (h : dist n a b = dist n a c) : b = c := by
  unfold dist at h; split at h <;> split at h <;> omega

theorem dist_next {n a b : Nat} (ha : a < n) (h : next n b ≠ a) :
    dist n a (next n b) = dist n a b + 1 := by
  unfold dist next at *; split_ifs at * <;> omega

theorem dist_next_left {n a b : Nat} (ha : a < n) (hb : b < n) (h : a ≠ b) :
    dist n a b = dist n (next n a) b + 1 := by
  unfold dist next; split_ifs <;> omega

/-! ## Walking the ring -/

/-- The first slot from `i` on that satisfies `stop`, walking at most `fuel` slots. -/
def walk (n : Nat) (stop : Nat → Bool) : Nat → Nat → Option Nat
  | 0, _ => none
  | fuel + 1, i => if stop i then some i else walk n stop fuel (next n i)

/-- A walk meets the nearest stopping slot. -/
theorem walk_eq_some {n : Nat} {stop : Nat → Bool} {fuel i p : Nat} (hi : i < n) (hp : p < n)
    (hstop : stop p = true) (hfree : ∀ q, q < n → dist n i q < dist n i p → stop q = false)
    (hf : dist n i p < fuel) : walk n stop fuel i = some p := by
  induction fuel generalizing i with
  | zero => omega
  | succ fuel ih =>
    by_cases e : i = p
    · subst e; simp [walk, hstop]
    · have hd := dist_next_left hi hp e
      have hsi : stop i = false := hfree i hi (by rw [dist_self]; omega)
      simp only [walk, hsi, Bool.false_eq_true, ↓reduceIte]
      refine ih (next_lt hi) (fun q hq hlt => hfree q hq ?_) (by omega)
      by_cases eq : i = q
      · subst eq; rw [dist_self]; omega
      · have := dist_next_left hi hq eq; omega

/-- A stopping slot nearest to `i`. -/
theorem exists_nearest {n : Nat} {stop : Nat → Bool} (i : Nat)
    (h : ∃ p, p < n ∧ stop p = true) :
    ∃ p, p < n ∧ stop p = true ∧ ∀ q, q < n → dist n i q < dist n i p → stop q = false := by
  obtain ⟨p, hp, hs⟩ := h
  by_contra hcon
  push Not at hcon
  -- descend along the distance from `i`
  have key : ∀ d, ∀ p, p < n → stop p = true → dist n i p = d → False := by
    intro d
    induction d using Nat.strong_induction_on with
    | _ d ih =>
      intro p hp hs hd
      obtain ⟨q, hq, hlt, hsq⟩ := hcon p hp hs
      exact ih _ (hd ▸ hlt) q hq (by simpa using hsq) rfl
  exact key _ p hp hs rfl

/-- With a stopping slot on the ring, `n` steps find one, and every slot before it is passed. -/
theorem walk_spec {n : Nat} {stop : Nat → Bool} {i : Nat} (hi : i < n)
    (h : ∃ p, p < n ∧ stop p = true) :
    ∃ p, walk n stop n i = some p ∧ p < n ∧ stop p = true ∧
      ∀ q, q < n → dist n i q < dist n i p → stop q = false := by
  obtain ⟨p, hp, hs, hf⟩ := exists_nearest i h
  exact ⟨p, walk_eq_some hi hp hs hf (dist_lt hi hp), hp, hs, hf⟩

/-! ## The probing invariant -/

variable {K : Type} {n : Nat} {ideal : K → Nat}

/-- No empty slot lies between the ideal slot of a stored key and its slot. -/
def Probed (n : Nat) (ideal : K → Nat) (t : Nat → Option K) : Prop :=
  ∀ i k, i < n → t i = some k → ∀ p, p < n → dist n (ideal k) p < dist n (ideal k) i → t p ≠ none

/-- No key is stored twice. -/
def Distinct (n : Nat) (t : Nat → Option K) : Prop :=
  ∀ i j k, i < n → j < n → t i = some k → t j = some k → i = j

/-- Filling the first empty slot on a key's walk keeps the invariant. -/
theorem Probed.fill {t t' : Nat → Option K} {e : Nat} {k : K} (h : Probed n ideal t) (he : e < n)
    (hbefore : ∀ p, p < n → dist n (ideal k) p < dist n (ideal k) e → t p ≠ none)
    (hat : t' e = some k) (hoff : ∀ i, i < n → i ≠ e → t' i = t i) : Probed n ideal t' := by
  intro i k' hi hik p hp hlt
  by_cases hpe : p = e
  · rw [hpe, hat]; simp
  rw [hoff p hp hpe]
  by_cases hie : i = e
  · subst hie
    rw [hat, Option.some.injEq] at hik
    subst hik
    exact hbefore p hp hlt
  · rw [hoff i hi hie] at hik
    exact h i k' hi hik p hp hlt

theorem Distinct.fill {t t' : Nat → Option K} {e : Nat} {k : K} (h : Distinct n t)
    (hnew : ∀ i, i < n → t i ≠ some k)
    (hat : t' e = some k) (hoff : ∀ i, i < n → i ≠ e → t' i = t i) : Distinct n t' := by
  intro i j k' hi hj hik hjk
  by_cases hie : i = e <;> by_cases hje : j = e
  · rw [hie, hje]
  · subst hie
    rw [hat, Option.some.injEq] at hik
    rw [hoff j hj hje, ← hik] at hjk
    exact absurd hjk (hnew j hj)
  · subst hje
    rw [hat, Option.some.injEq] at hjk
    rw [hoff i hi hie, ← hjk] at hik
    exact absurd hik (hnew i hi)
  · rw [hoff i hi hie] at hik
    rw [hoff j hj hje] at hjk
    exact h i j k' hi hj hik hjk

/-! ## Backward-shift deletion

The table is read with the hole still filled, so that the cluster stays in one
piece. An entry may move into the hole when its ideal slot lies cyclically
outside `(hole, j]`. -/

/-- `a` lies cyclically outside `(hole, j]`. -/
def Movable (hole j a : Nat) : Prop := if hole ≤ j then a ≤ hole ∨ j < a else a ≤ hole ∧ j < a

instance (hole j a : Nat) : Decidable (Movable hole j a) := by unfold Movable; infer_instance

/-- State of the deletion loop: the slots after the hole up to `j` are occupied,
every entry other than the hole is `Probed` with the hole counted as occupied,
and the entries in `(hole, j]` do not reach across the hole. -/
structure HoleAt (n : Nat) (ideal : K → Nat) (t : Nat → Option K) (hole j : Nat) : Prop where
  hole_lt : hole < n
  j_lt : j < n
  filled : ∀ p, p < n → dist n hole p ≤ dist n hole j → t p ≠ none
  probed : ∀ i k, i < n → i ≠ hole → t i = some k →
    ∀ p, p < n → dist n (ideal k) p < dist n (ideal k) i → t p ≠ none
  passed : ∀ i k, i < n → i ≠ hole → t i = some k → dist n hole i ≤ dist n hole j →
    dist n hole (ideal k) ≠ 0 ∧ dist n hole (ideal k) ≤ dist n hole i
  distinct : ∀ i i' k, i < n → i' < n → i ≠ hole → i' ≠ hole → t i = some k → t i' = some k → i = i'

theorem HoleAt.start {t : Nat → Option K} {i : Nat} (hp : Probed n ideal t) (hd : Distinct n t)
    (hi : i < n) (hocc : t i ≠ none) : HoleAt n ideal t i i where
  hole_lt := hi
  j_lt := hi
  filled p hp' hle := by
    rw [dist_self, Nat.le_zero] at hle
    rw [← dist_eq_zero hi hle]; exact hocc
  probed i' k hi' _ h := hp i' k hi' h
  passed i' k _ hne _ hle := by
    rw [dist_self, Nat.le_zero] at hle
    exact absurd (dist_eq_zero hi hle).symm hne
  distinct i' i'' k h1 h2 _ _ := hd i' i'' k h1 h2

/-- The next slot is occupied by an entry that stays: the loop walks on. -/
theorem HoleAt.stay {t : Nat → Option K} {hole j : Nat} {k : K} (h : HoleAt n ideal t hole j)
    (hid : ideal k < n) (hk : t (next n j) = some k) (hne : next n j ≠ hole)
    (hm : ¬ Movable hole (next n j) (ideal k)) : HoleAt n ideal t hole (next n j) where
  hole_lt := h.hole_lt
  j_lt := next_lt h.j_lt
  filled p hp hle := by
    rw [dist_next h.hole_lt hne] at hle
    by_cases e : dist n hole p ≤ dist n hole j
    · exact h.filled p hp e
    · have : p = next n j := dist_inj h.hole_lt hp (next_lt h.j_lt)
        (by rw [dist_next h.hole_lt hne]; omega)
      rw [this, hk]; simp
  probed := h.probed
  passed i k' hi hih hik hle := by
    by_cases e : dist n hole i ≤ dist n hole j
    · exact h.passed i k' hi hih hik e
    · rw [dist_next h.hole_lt hne] at hle
      have hij : i = next n j := dist_inj h.hole_lt hi (next_lt h.j_lt)
        (by rw [dist_next h.hole_lt hne]; omega)
      subst hij
      rw [hk, Option.some.injEq] at hik
      subst hik
      have h1 := h.hole_lt
      have h2 := next_lt h.j_lt
      generalize next n j = j' at *
      unfold Movable at hm
      unfold dist
      split_ifs at * <;> omega
  distinct := h.distinct

/-- The next slot's entry moves into the hole: its old slot is the new hole. -/
theorem HoleAt.move {t : Nat → Option K} {hole j : Nat} {k : K} (h : HoleAt n ideal t hole j) (t' : Nat → Option K)
    (hid : ideal k < n) (hk : t (next n j) = some k) (hne : next n j ≠ hole)
    (hm : Movable hole (next n j) (ideal k)) (hat : t' hole = some k)
    (hoff : ∀ i, i < n → i ≠ hole → t' i = t i) : HoleAt n ideal t' (next n j) (next n j) where
  hole_lt := next_lt h.j_lt
  j_lt := next_lt h.j_lt
  filled p hp hle := by
    rw [dist_self, Nat.le_zero] at hle
    rw [← dist_eq_zero (next_lt h.j_lt) hle, hoff _ (next_lt h.j_lt) hne, hk]; simp
  probed i k' hi hij hik p hp hlt := by
    by_cases hph : p = hole
    · rw [hph, hat]; simp
    rw [hoff p hp hph]
    by_cases hih : i = hole
    · subst hih
      rw [hat, Option.some.injEq] at hik
      subst hik
      -- the walk to the old hole is a prefix of the walk to the entry's old slot
      refine h.probed (next n j) k (next_lt h.j_lt) hne hk p hp ?_
      have h1 := h.hole_lt
      have h2 := next_lt h.j_lt
      generalize next n j = j' at *
      unfold Movable at hm
      unfold dist at *
      split_ifs at * <;> omega
    · rw [hoff i hi hih] at hik
      exact h.probed i k' hi hih hik p hp hlt
  passed i k' hi hij _ hle := by
    rw [dist_self, Nat.le_zero] at hle
    exact absurd (dist_eq_zero (next_lt h.j_lt) hle).symm hij
  distinct i i' k' hi hi' hij hij' hik hik' := by
    by_cases e : i = hole <;> by_cases e' : i' = hole
    · rw [e, e']
    · subst e
      rw [hat, Option.some.injEq] at hik
      subst hik
      rw [hoff i' hi' e'] at hik'
      exact absurd (h.distinct i' (next n j) k hi' (next_lt h.j_lt) e' hne hik' hk) hij'
    · subst e'
      rw [hat, Option.some.injEq] at hik'
      subst hik'
      rw [hoff i hi e] at hik
      exact absurd (h.distinct i (next n j) k hi (next_lt h.j_lt) e hne hik hk) hij
    · rw [hoff i hi e] at hik
      rw [hoff i' hi' e'] at hik'
      exact h.distinct i i' k' hi hi' e e' hik hik'

/-- The next slot is empty: clearing the hole leaves a probed table. -/
theorem HoleAt.finish {t : Nat → Option K} {hole j : Nat} (h : HoleAt n ideal t hole j) (t' : Nat → Option K)
    (hideal : ∀ k, ideal k < n) (hempty : t (next n j) = none) (hat : t' hole = none)
    (hoff : ∀ i, i < n → i ≠ hole → t' i = t i) : Probed n ideal t' ∧ Distinct n t' := by
  have hnj : next n j ≠ hole := fun e =>
    h.filled hole h.hole_lt (by rw [dist_self]; omega) (e ▸ hempty)
  refine ⟨fun i k hi hik p hp hlt => ?_, fun i i' k hi hi' hik hik' => ?_⟩
  · have hih : i ≠ hole := fun e => by rw [e, hat] at hik; cases hik
    rw [hoff i hi hih] at hik
    have hnp := h.probed i k hi hih hik p hp hlt
    by_cases hph : p = hole
    · -- the walk to `i` would cross the hole: then `i` was passed, so it does not
      subst hph
      have hstop : ¬ dist n (ideal k) (next n j) < dist n (ideal k) i := fun hc =>
        h.probed i k hi hih hik (next n j) (next_lt h.j_lt) hc hempty
      have hpass := h.passed i k hi hih hik
      have hij : i ≠ next n j := fun e => by rw [e, hempty] at hik; cases hik
      have h1 := h.hole_lt
      have h2 := h.j_lt
      have hidk := hideal k
      have h3 := next_lt h.j_lt
      have h4 := dist_next h.hole_lt hnj
      generalize next n j = j' at *
      exfalso
      have hle : dist n p i ≤ dist n p j := by
        unfold dist at *; split_ifs at * <;> omega
      have := hpass hle
      unfold dist at *; split_ifs at * <;> omega
    · rw [hoff p hp hph]; exact hnp
  · have hih : i ≠ hole := fun e => by rw [e, hat] at hik; cases hik
    have hih' : i' ≠ hole := fun e => by rw [e, hat] at hik'; cases hik'
    rw [hoff i hi hih] at hik
    rw [hoff i' hi' hih'] at hik'
    exact h.distinct i i' k hi hi' hih hih' hik hik'

/-- While some slot is empty the walk of the deletion loop has not come back to the hole. -/
theorem HoleAt.next_ne_hole {t : Nat → Option K} {hole j : Nat} (h : HoleAt n ideal t hole j)
    (hfree : ∃ p, p < n ∧ t p = none) : next n j ≠ hole := by
  intro e
  obtain ⟨p, hp, hpn⟩ := hfree
  refine h.filled p hp ?_ hpn
  have h1 := h.hole_lt
  have h2 := h.j_lt
  unfold next at e
  unfold dist
  split_ifs at * <;> omega

end Stok.Lib.Probing
