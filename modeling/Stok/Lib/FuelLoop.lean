import Mathlib.Tactic

/-!
# Loops with fuel

A round of a loop answers the next state and whether to go on, or `none` where it has no meaning.
The loop is run with fuel: its results do not depend on how much, `FuelLoop.total` says how much is
enough, and a loop whose rounds are matched by those of another, some of them by none, ends where
the other does.
-/

namespace Stok.Lib

/-- The rounds of a loop, at most as many as the fuel. -/
def fuelLoop {S : Type*} (step : S → Option (S × Bool)) : Nat → S → Option S
  | 0, _ => none
  | fuel + 1, s =>
    match step s with
    | none => none
    | some (s, true) => fuelLoop step fuel s
    | some (s, false) => some s

namespace FuelLoop

variable {S T : Type*} {step : S → Option (S × Bool)} {s s' : S} {fuel : Nat}

theorem run_on (h : step s = some (s', true)) :
    fuelLoop step (fuel + 1) s = fuelLoop step fuel s' := by
  rw [fuelLoop, h]

theorem run_end (h : step s = some (s', false)) : fuelLoop step (fuel + 1) s = some s' := by
  rw [fuelLoop, h]

theorem mono {fuel' : Nat} (hle : fuel ≤ fuel') (h : fuelLoop step fuel s = some s') :
    fuelLoop step fuel' s = some s' := by
  induction fuel generalizing fuel' s with
  | zero => simp [fuelLoop] at h
  | succ fuel ih =>
    obtain ⟨k, rfl⟩ := Nat.exists_eq_add_of_le' hle
    rw [← Nat.add_assoc]
    cases hs : step s with
    | none => simp [fuelLoop, hs] at h
    | some p =>
      obtain ⟨t, go⟩ := p
      cases go with
      | true =>
        rw [run_on hs] at h ⊢
        exact ih (Nat.le_add_left fuel k) h
      | false =>
        rw [run_end hs] at h ⊢
        exact h

/-- What the rounds preserve holds where the loop ends. -/
theorem invariant {P Q : S → Prop} (hon : ∀ s t, P s → step s = some (t, true) → P t)
    (hend : ∀ s t, P s → step s = some (t, false) → Q t) (hs : P s)
    (h : fuelLoop step fuel s = some s') : Q s' := by
  induction fuel generalizing s with
  | zero => simp [fuelLoop] at h
  | succ fuel ih =>
    cases hstep : step s with
    | none => simp [fuelLoop, hstep] at h
    | some p =>
      obtain ⟨t, go⟩ := p
      cases go with
      | true =>
        rw [run_on hstep] at h
        exact ih (hon s t hs hstep) h
      | false =>
        rw [run_end hstep] at h
        cases h
        exact hend s _ hs hstep

/-- A loop ends if a measure goes down with every round that goes on. -/
theorem total {P : S → Prop} (μ : S → Nat)
    (hstep : ∀ s, P s → ∃ t go, step s = some (t, go) ∧ (go = true → P t ∧ μ t < μ s)) (hs : P s)
    (hfuel : μ s < fuel) : ∃ t, fuelLoop step fuel s = some t := by
  induction fuel generalizing s with
  | zero => omega
  | succ fuel ih =>
    obtain ⟨t, go, ht, hgo⟩ := hstep s hs
    cases go with
    | true =>
      obtain ⟨hP, hμ⟩ := hgo rfl
      rw [run_on ht]
      exact ih hP (by omega)
    | false => exact ⟨t, run_end ht⟩

/-- A round of the loop `step'` is one of `step`, or leaves the states related without one. -/
theorem simulates {step' : T → Option (T × Bool)} {R Q : S → T → Prop}
    (hround : ∀ s t t' go, R s t → step' t = some (t', go) → go = true ∧ R s t' ∨
      ∃ s', step s = some (s', go) ∧ if go then R s' t' else Q s' t')
    {t t' : T} (hst : R s t) (h : fuelLoop step' fuel t = some t') :
    ∃ s', fuelLoop step fuel s = some s' ∧ Q s' t' := by
  induction fuel generalizing s t with
  | zero => simp [fuelLoop] at h
  | succ fuel ih =>
    cases hstep : step' t with
    | none => simp [fuelLoop, hstep] at h
    | some p =>
      obtain ⟨t₁, go⟩ := p
      rcases hround s t t₁ go hst hstep with ⟨rfl, hR⟩ | ⟨s₁, hs₁, hnext⟩
      · rw [run_on hstep] at h
        obtain ⟨s', hs', hQ⟩ := ih hR h
        exact ⟨s', mono (Nat.le_succ fuel) hs', hQ⟩
      · cases go with
        | true =>
          rw [run_on hstep] at h
          rw [run_on hs₁]
          exact ih (by simpa using hnext) h
        | false =>
          rw [run_end hstep] at h
          cases h
          exact ⟨s₁, run_end hs₁, by simpa using hnext⟩

end FuelLoop

end Stok.Lib
