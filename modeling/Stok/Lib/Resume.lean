import Mathlib.Tactic

/-!
# Loops that are resumed on a growing input

A `Loop` reads an input and rewrites a state until it answers; a measure on the state makes it
total. Some answers ask for more input: the caller then runs the loop again, from the state it
was left in, on a longer input. `Resumable` collects what makes such a loop indifferent to how
its input grows, and `Resumable.feedAll_eq` is the conclusion: the first answer that does not ask for
more is the one of a single run on the whole input.

Two states may differ in what no later answer depends on (`Eqv`), and `view` is what a caller
can see of an answer.
-/

namespace Stok.Lib

structure Loop (ι σ ρ : Type*) where
  /-- One round: a new state, or an answer with the state it leaves. -/
  step : ι → σ → σ ⊕ σ × ρ
  measure : ι → σ → Nat
  decreasing : ∀ i x y, step i x = .inl y → measure i y < measure i x

namespace Loop

variable {ι σ ρ ω : Type*}

def run (L : Loop ι σ ρ) (i : ι) (x : σ) : σ × ρ :=
  match _h : L.step i x with
  | .inl y => L.run i y
  | .inr a => a
termination_by L.measure i x
decreasing_by exact L.decreasing i x y _h

theorem run_inl {L : Loop ι σ ρ} {i : ι} {x y : σ} (h : L.step i x = .inl y) :
    L.run i x = L.run i y := by
  rw [run]
  split <;> simp_all

theorem run_inr {L : Loop ι σ ρ} {i : ι} {x : σ} {a : σ × ρ} (h : L.step i x = .inr a) :
    L.run i x = a := by
  rw [run]
  split <;> simp_all

/-- A run is a step after which the rest is a run: induction on the rounds of the loop. -/
theorem run_induct (L : Loop ι σ ρ) (i : ι) {P : σ → Prop}
    (cont : ∀ x y, L.step i x = .inl y → P y → P x)
    (answer : ∀ x a, L.step i x = .inr a → P x) (x : σ) : P x := by
  induction hn : L.measure i x using Nat.strong_induction_on generalizing x with
  | _ n ih =>
    subst hn
    cases h : L.step i x with
    | inl y => exact cont x y h (ih _ (L.decreasing i x y h) y rfl)
    | inr a => exact answer x a h

/-- A map of the states that commutes with the rounds commutes with the run. -/
theorem run_map {L : Loop ι σ ρ} {i i' : ι} {g : σ → σ}
    (h : ∀ x, L.step i' (g x) = (L.step i x).map g (Prod.map g id)) (x : σ) :
    L.run i' (g x) = Prod.map g id (L.run i x) := by
  refine run_induct L i (P := fun x => L.run i' (g x) = Prod.map g id (L.run i x)) ?_ ?_ x
  · intro x y hx ih
    have hg : L.step i' (g x) = .inl (g y) := by rw [h, hx]; rfl
    rw [run_inl hx, run_inl hg, ih]
  · intro x a hx
    have hg : L.step i' (g x) = .inr (Prod.map g id a) := by rw [h, hx]; rfl
    rw [run_inr hx, run_inr hg]

/-- What a caller that calls the loop on each of `inputs` and last on `i` gets: the first answer
that does not ask for more, or the last. -/
def feedAll (L : Loop ι σ ρ) (more : ρ → Bool) (view : ι → σ × ρ → ω) :
    List ι → ι → σ → ω
  | [], i, x => view i (L.run i x)
  | j :: inputs, i, x =>
    if more (L.run j x).2 then feedAll L more view inputs i (L.run j x).1
    else view j (L.run j x)

/-- The rounds of two states agree at an input. -/
def Agree (Eqv : σ → σ → Prop) (view : σ × ρ → ω) : σ ⊕ σ × ρ → σ ⊕ σ × ρ → Prop
  | .inl x, .inl y => Eqv x y
  | .inr a, .inr b => view a = view b
  | _, _ => False

theorem agree_refl {Eqv : σ → σ → Prop} {v : σ × ρ → ω} (he : ∀ x, Eqv x x) (o : σ ⊕ σ × ρ) :
    Agree Eqv v o o := by
  cases o with
  | inl x => exact he x
  | inr a => rfl

/-- What a round must do as the input grows from `i` to the whole input `j`, in states that fit
`i`. -/
structure Resumable (L : Loop ι σ ρ) (more : ρ → Bool) (view : ι → σ × ρ → ω)
    (Eqv : σ → σ → Prop) (Fits : ι → σ → Prop) (j : ι) : Prop where
  congr : ∀ {x y}, Eqv x y → Agree Eqv (view j) (L.step j x) (L.step j y)
  /-- A round that goes on does the same on the whole input. -/
  cont : ∀ {i x y}, Fits i x → L.step i x = .inl y → L.step j x = .inl y ∧ Fits i y
  /-- An answer is the answer on the whole input. -/
  settle : ∀ {i x a}, Fits i x → L.step i x = .inr a → more a.2 = false →
    ∃ b, L.step j x = .inr b ∧ view j b = view i a
  /-- The state left by an answer that asks for more goes on as the one before it. -/
  wait : ∀ {i x a}, Fits i x → L.step i x = .inr a → more a.2 = true →
    Agree Eqv (view j) (L.step j a.1) (L.step j x) ∧ Fits i a.1

variable {L : Loop ι σ ρ} {more : ρ → Bool} {view : ι → σ × ρ → ω} {Eqv : σ → σ → Prop}
  {Fits : ι → σ → Prop} {i j : ι} {x y : σ}

theorem Resumable.run_eqv (h : Resumable L more view Eqv Fits j) (hxy : Eqv x y) :
    view j (L.run j x) = view j (L.run j y) := by
  refine run_induct L j (P := fun x => ∀ y, Eqv x y → view j (L.run j x) = view j (L.run j y))
    ?_ ?_ x y hxy
  · intro x x' hx ih y hxy
    have ha := h.congr hxy
    rw [hx] at ha
    cases hy : L.step j y with
    | inl y' =>
      rw [hy] at ha
      rw [run_inl hx, run_inl hy]
      exact ih y' ha
    | inr b => rw [hy] at ha; exact ha.elim
  · intro x a hx y hxy
    have ha := h.congr hxy
    rw [hx] at ha
    cases hy : L.step j y with
    | inl y' => rw [hy] at ha; exact ha.elim
    | inr b =>
      rw [hy] at ha
      rw [run_inr hx, run_inr hy]
      exact ha

theorem Resumable.run_agree (h : Resumable L more view Eqv Fits j)
    (ha : Agree Eqv (view j) (L.step j x) (L.step j y)) :
    view j (L.run j x) = view j (L.run j y) := by
  cases hx : L.step j x with
  | inl x' =>
    cases hy : L.step j y with
    | inl y' =>
      rw [hx, hy] at ha
      rw [run_inl hx, run_inl hy]
      exact h.run_eqv ha
    | inr b => rw [hx, hy] at ha; exact ha.elim
  | inr a =>
    cases hy : L.step j y with
    | inl y' => rw [hx, hy] at ha; exact ha.elim
    | inr b =>
      rw [hx, hy] at ha
      rw [run_inr hx, run_inr hy]
      exact ha

/-- An answer that does not ask for more is that of a run on the whole input. -/
theorem Resumable.run_settle (h : Resumable L more view Eqv Fits j) (hf : Fits i x)
    (hm : more (L.run i x).2 = false) : view j (L.run j x) = view i (L.run i x) := by
  refine run_induct L i (P := fun x => Fits i x → more (L.run i x).2 = false →
    view j (L.run j x) = view i (L.run i x)) ?_ ?_ x hf hm
  · intro x y hx ih hf hm
    obtain ⟨hj, hf'⟩ := h.cont hf hx
    rw [run_inl hx] at hm ⊢
    rw [run_inl hj]
    exact ih hf' hm
  · intro x a hx hf hm
    rw [run_inr hx] at hm ⊢
    obtain ⟨b, hj, hv⟩ := h.settle hf hx hm
    rw [run_inr hj, hv]

/-- After an answer that asks for more, the rest of the input gives what the whole would have. -/
theorem Resumable.run_wait (h : Resumable L more view Eqv Fits j) (hf : Fits i x)
    (hm : more (L.run i x).2 = true) :
    view j (L.run j (L.run i x).1) = view j (L.run j x) ∧ Fits i (L.run i x).1 := by
  refine run_induct L i (P := fun x => Fits i x → more (L.run i x).2 = true →
    view j (L.run j (L.run i x).1) = view j (L.run j x) ∧ Fits i (L.run i x).1) ?_ ?_ x hf hm
  · intro x y hx ih hf hm
    obtain ⟨hj, hf'⟩ := h.cont hf hx
    rw [run_inl hx] at hm ⊢
    rw [run_inl hj]
    exact ih hf' hm
  · intro x a hx hf hm
    rw [run_inr hx] at hm ⊢
    obtain ⟨ha, hf'⟩ := h.wait hf hx hm
    exact ⟨h.run_agree ha, hf'⟩

/-- **Cuts do not matter.** Calls on growing inputs and last on the whole input `j` show what a
single call on `j` shows. -/
theorem Resumable.feedAll_eq (h : Resumable L more view Eqv Fits j) (le : ι → ι → Prop)
    (hmono : ∀ {i i' x}, le i i' → Fits i x → Fits i' x) {inputs : List ι}
    (hle : inputs.Pairwise le) (hx : ∀ i ∈ inputs, Fits i x) :
    feedAll L more view inputs j x = view j (L.run j x) := by
  induction inputs generalizing x with
  | nil => rfl
  | cons i rest ih =>
    obtain ⟨hf, -⟩ := List.forall_mem_cons.mp hx
    obtain ⟨hi, hrest⟩ := List.pairwise_cons.mp hle
    rw [feedAll]
    split
    · rename_i hm
      obtain ⟨hv, hf'⟩ := h.run_wait hf hm
      rw [ih hrest fun i' hi' => hmono (hi i' hi') hf', hv]
    · rename_i hm
      exact (h.run_settle hf (by simpa using hm)).symm

end Loop

end Stok.Lib
