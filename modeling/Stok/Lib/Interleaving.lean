import Mathlib.Tactic

/-!
# Interleaved runs

A system of parties is a step function: `step s a` is the state after action `a` (who
moves, and with what inputs) in state `s`, and `none` where that party cannot move.
`History step s₀ s past` is a run from `s₀` to `s`; `past` lists the states before `s`,
the latest first. `Since φ ψ` is the past-time operator: `ψ` held at some moment of the
list and `φ` at every later one.
-/

namespace Stok.Lib

variable {S A : Type*}

inductive History (step : S → A → Option S) (s₀ : S) : S → List S → Prop where
  | start : History step s₀ s₀ []
  | next {s s' : S} {past : List S} (a : A) : History step s₀ s past → step s a = some s' →
      History step s₀ s' (s :: past)

def Since (φ ψ : S → Prop) : List S → Prop
  | [] => False
  | s :: past => ψ s ∨ φ s ∧ Since φ ψ past

/-- Take the actions of a schedule in turn, from a state with a past. -/
def replay (step : S → A → Option S) : S → List S → List A → Option (S × List S)
  | s, past, [] => some (s, past)
  | s, past, a :: rest => (step s a).bind fun s' => replay step s' (s :: past) rest

variable {step : S → A → Option S} {s₀ : S}

theorem History.replay {s s' : S} {past past' : List S} (h : History step s₀ s past)
    (sched : List A) (hr : replay step s past sched = some (s', past')) :
    History step s₀ s' past' := by
  induction sched generalizing s past with
  | nil => cases hr; exact h
  | cons a rest ih =>
    obtain ⟨s₁, hs, hr⟩ := Option.bind_eq_some_iff.mp hr
    exact ih (.next a h hs) hr

/-- What holds at the start and is kept by the steps between states with `P` holds at the end
of every run through such states. -/
theorem History.invariant_within {P I : S → Prop} (h0 : I s₀)
    (hstep : ∀ s a s', P s → P s' → I s → step s a = some s' → I s') {s : S} {past : List S}
    (h : History step s₀ s past) (hP : ∀ x ∈ s :: past, P x) : I s := by
  induction h with
  | start => exact h0
  | next a _ hs ih =>
    obtain ⟨h1, h2⟩ := List.forall_mem_cons.mp hP
    exact hstep _ a _ (h2 _ List.mem_cons_self) h1 (ih h2) hs

theorem History.invariant {I : S → Prop} (h0 : I s₀)
    (hstep : ∀ s a s', I s → step s a = some s' → I s') {s : S} {past : List S}
    (h : History step s₀ s past) : I s :=
  h.invariant_within (P := fun _ => True) h0 (fun s a s' _ _ => hstep s a s') fun _ _ => trivial

/-- To trace a condition of the present back: at each step that ends with it either `ψ` holds
now, or `φ` does and the condition held before. -/
theorem History.since {I C φ ψ : S → Prop} (hI : ∀ s past, History step s₀ s past → I s)
    (h0 : C s₀ → ψ s₀)
    (hstep : ∀ s a s', I s → step s a = some s' → C s' → ψ s' ∨ φ s' ∧ (ψ s ∨ C s))
    {s : S} {past : List S} (h : History step s₀ s past) (hC : C s) : Since φ ψ (s :: past) := by
  induction h with
  | start => exact .inl (h0 hC)
  | next a hp hs ih =>
    rcases hstep _ a _ (hI _ _ hp) hs hC with h | ⟨hφ, h | h⟩
    · exact .inl h
    · exact .inr ⟨hφ, .inl h⟩
    · exact .inr ⟨hφ, ih h⟩

end Stok.Lib
