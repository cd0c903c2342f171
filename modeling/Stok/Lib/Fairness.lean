import Stok.Lib.Interleaving

/-!
# Fair behaviours

A `Behaviour` of a step function is an infinite run in which nothing may happen for any stretch. It is
fair to its parties if a party that is obliged to move from some moment on does move.
`Behaviour.reaches` is the rule of the helpful party: a measure that no step raises, and that the
party it waits for lowers, runs out.
-/

namespace Stok.Lib

variable {S A T : Type*} {step : S → A → Option S}

structure Behaviour (step : S → A → Option S) where
  state : ℕ → S
  act : ℕ → Option A
  stays : ∀ t, act t = none → state (t + 1) = state t
  moves : ∀ t a, act t = some a → step (state t) a = some (state (t + 1))

namespace Behaviour

/-- Weak fairness to each party. -/
def Fair (b : Behaviour step) (party : A → Option T) (obliged : T → S → Prop) : Prop :=
  ∀ p t, (∀ u, t ≤ u → obliged p (b.state u)) →
    ∃ u a, t ≤ u ∧ b.act u = some a ∧ party a = some p

theorem history (b : Behaviour step) (t : ℕ) : ∃ past, History step (b.state 0) (b.state t) past := by
  induction t with
  | zero => exact ⟨[], .start⟩
  | succ t ih =>
    obtain ⟨past, h⟩ := ih
    cases ha : b.act t with
    | none =>
      rw [b.stays t ha]
      exact ⟨past, h⟩
    | some a => exact ⟨_, .next a h (b.moves t a ha)⟩

/-- What every step keeps holds from any moment on at which it holds. -/
theorem keeps (b : Behaviour step) {I : S → Prop} (hstep : ∀ s a s', I s → step s a = some s' → I s')
    {t : ℕ} (h : I (b.state t)) {u : ℕ} (hle : t ≤ u) : I (b.state u) := by
  induction u, hle using Nat.le_induction with
  | base => exact h
  | succ u _ ih =>
    cases ha : b.act u with
    | none =>
      rw [b.stays u ha]
      exact ih
    | some a => exact hstep _ a _ ih (b.moves u a ha)

variable {M : Type*} [PartialOrder M] {I goal : S → Prop} {left : S → M}
  {helper : S → T} {party : A → Option T} {obliged : T → S → Prop}

/-- Until the measure falls it stays, and the same party is waited for. -/
theorem falls_or_waits (b : Behaviour step)
    (hstep : ∀ s a s', I s → ¬ goal s → step s a = some s' →
      left s' < left s ∨ left s' = left s ∧ helper s' = helper s ∧ party a ≠ some (helper s))
    {t : ℕ} (hI : ∀ u, t ≤ u → I (b.state u)) (hgoal : ∀ u, t ≤ u → ¬ goal (b.state u)) {u : ℕ}
    (hle : t ≤ u) :
    (∃ v, t ≤ v ∧ left (b.state v) < left (b.state t)) ∨
      left (b.state u) = left (b.state t) ∧ helper (b.state u) = helper (b.state t) := by
  induction u, hle using Nat.le_induction with
  | base => exact .inr ⟨rfl, rfl⟩
  | succ u hle ih =>
    rcases ih with ih | ⟨hleft, hhelper⟩
    · exact .inl ih
    cases ha : b.act u with
    | none =>
      rw [b.stays u ha]
      exact .inr ⟨hleft, hhelper⟩
    | some a =>
      rcases hstep _ a _ (hI u hle) (hgoal u hle) (b.moves u a ha) with h | ⟨hl, hh, -⟩
      · exact .inl ⟨u + 1, by omega, hleft ▸ h⟩
      · exact .inr ⟨hl.trans hleft, hh.trans hhelper⟩

/-- **The helpful party.** While the goal is not reached some party is obliged to move, every
step lowers the measure or leaves it with the same party to wait for, and the steps of that party
lower it. Then a fair behaviour reaches the goal. -/
theorem reaches [WellFoundedLT M] (b : Behaviour step) (hfair : b.Fair party obliged)
    (hobliged : ∀ s, I s → ¬ goal s → obliged (helper s) s)
    (hstep : ∀ s a s', I s → ¬ goal s → step s a = some s' →
      left s' < left s ∨ left s' = left s ∧ helper s' = helper s ∧ party a ≠ some (helper s))
    {t : ℕ} (hI : ∀ u, t ≤ u → I (b.state u)) : ∃ u, t ≤ u ∧ goal (b.state u) := by
  induction hm : left (b.state t) using WellFoundedLT.induction generalizing t with
  | ind m ih =>
    subst hm
    by_contra hnone
    have hgoal : ∀ u, t ≤ u → ¬ goal (b.state u) := fun u hle hg => hnone ⟨u, hle, hg⟩
    have hlater : ∀ v, t ≤ v → ¬ left (b.state v) < left (b.state t) := by
      intro v hle hlt
      obtain ⟨u, hu, hg⟩ := ih _ hlt (fun u hu => hI u (hle.trans hu)) rfl
      exact hgoal u (hle.trans hu) hg
    have hwaits : ∀ u, t ≤ u →
        left (b.state u) = left (b.state t) ∧ helper (b.state u) = helper (b.state t) := fun u hle =>
      (b.falls_or_waits hstep hI hgoal hle).resolve_left fun ⟨v, hv, hlt⟩ => hlater v hv hlt
    obtain ⟨u, a, hle, ha, hparty⟩ := hfair (helper (b.state t)) t fun u hle => by
      rw [← (hwaits u hle).2]
      exact hobliged _ (hI u hle) (hgoal u hle)
    rcases hstep _ a _ (hI u hle) (hgoal u hle) (b.moves u a ha) with h | ⟨-, -, h⟩
    · refine hlater (u + 1) (by omega) ?_
      rwa [(hwaits u hle).1] at h
    · rw [(hwaits u hle).2] at h
      exact h hparty

/-- A schedule, and then nothing. -/
theorem of_replay {s s' : S} {past past' : List S} {sched : List A}
    (h : replay step s past sched = some (s', past')) :
    ∃ b : Behaviour step, b.state 0 = s ∧ ∀ t, sched.length ≤ t → b.state t = s' := by
  induction sched generalizing s past with
  | nil =>
    cases h
    exact ⟨⟨fun _ => s', fun _ => none, fun _ _ => rfl, nofun⟩, rfl, fun _ _ => rfl⟩
  | cons a sched ih =>
    obtain ⟨s₁, hs, h⟩ := Option.bind_eq_some_iff.mp h
    obtain ⟨b, h0, hend⟩ := ih h
    refine ⟨⟨fun t => t.casesOn s b.state, fun t => t.casesOn (some a) b.act, ?_, ?_⟩, rfl, ?_⟩
    · rintro (_ | t) ht
      · cases ht
      · exact b.stays t ht
    · rintro (_ | t) c hc
      · cases hc
        exact hs.trans (congrArg some h0.symm)
      · exact b.moves t c hc
    · rintro (_ | t) ht
      · exact absurd ht (Nat.not_succ_le_zero _)
      · exact hend t (Nat.le_of_succ_le_succ ht)

end Behaviour

end Stok.Lib
