import Mathlib.Algebra.Order.Field.Basic
import Mathlib.Tactic

/-!
# The token bucket

A bucket fills at a constant rate up to its burst, and a request that goes through takes one token
out. Filling in steps is filling at once (`refill_refill`), so that a request that is refused, or a
look at the bucket, leaves it as it is. In any window of time no more requests go through than the
burst and what flows in (`admitted_window_le`).
-/

namespace Stok.Lib

structure TokenBucket (α : Type*) where
  tokens : α
  burst : α
  rate : α
  /-- When it was filled last. -/
  last : α

namespace TokenBucket

variable {α : Type*} [Field α] [LinearOrder α]

def refill (b : TokenBucket α) (t : α) : TokenBucket α :=
  { b with tokens := min b.burst (b.tokens + (t - b.last) * b.rate), last := t }

/-- A request: whether it goes through, and the bucket after it. -/
def take (b : TokenBucket α) (t : α) : Bool × TokenBucket α :=
  if 1 ≤ (b.refill t).tokens then (true, { b.refill t with tokens := (b.refill t).tokens - 1 })
  else (false, b.refill t)

/-- A request, or a look at how full the bucket is. -/
structure Event (α : Type*) where
  time : α
  request : Bool

def admits (b : TokenBucket α) (e : Event α) : Bool := e.request && (b.take e.time).1

def step (b : TokenBucket α) (e : Event α) : TokenBucket α :=
  if e.request then (b.take e.time).2 else b.refill e.time

/-- The times at which requests go through. -/
def admitted (b : TokenBucket α) : List (Event α) → List α
  | [] => []
  | e :: l => if b.admits e then e.time :: admitted (b.step e) l else admitted (b.step e) l

def after (b : TokenBucket α) (l : List (Event α)) : TokenBucket α := l.foldl step b

/-- The events come in order, and none before the bucket was filled last. -/
def Ordered (t : α) : List (Event α) → Prop
  | [] => True
  | e :: l => t ≤ e.time ∧ Ordered e.time l

variable {b : TokenBucket α} {e : Event α} {s t x y : α} {l : List (Event α)}

@[simp] theorem refill_last (b : TokenBucket α) (t : α) : (b.refill t).last = t := rfl

@[simp] theorem refill_burst (b : TokenBucket α) (t : α) : (b.refill t).burst = b.burst := rfl

@[simp] theorem refill_rate (b : TokenBucket α) (t : α) : (b.refill t).rate = b.rate := rfl

theorem refill_le_burst (b : TokenBucket α) (t : α) : (b.refill t).tokens ≤ b.burst := min_le_left _ _

theorem refill_le (b : TokenBucket α) (t : α) : (b.refill t).tokens ≤ b.tokens + (t - b.last) * b.rate :=
  min_le_right _ _

theorem step_of_not_admits (h : b.admits e = false) : b.step e = b.refill e.time := by
  unfold step
  split
  · rename_i hr
    rw [admits, hr, Bool.true_and] at h
    unfold take at h ⊢
    split
    · rename_i hone
      rw [if_pos hone] at h
      cases h
    · rfl
  · rfl

/-- A request that goes through takes one token out. -/
theorem step_of_admits (h : b.admits e = true) :
    1 ≤ (b.refill e.time).tokens ∧ b.step e = { b.refill e.time with tokens := (b.refill e.time).tokens - 1 } := by
  obtain ⟨hr, htake⟩ := Bool.and_eq_true_iff.mp h
  unfold step take at *
  rw [if_pos hr]
  split
  · exact ⟨‹_›, rfl⟩
  · rename_i hone
    rw [if_neg hone] at htake
    cases htake

@[simp] theorem step_last (b : TokenBucket α) (e : Event α) : (b.step e).last = e.time := by
  cases h : b.admits e with
  | true => rw [(step_of_admits h).2, refill_last]
  | false => rw [step_of_not_admits h, refill_last]

@[simp] theorem step_burst (b : TokenBucket α) (e : Event α) : (b.step e).burst = b.burst := by
  cases h : b.admits e with
  | true => rw [(step_of_admits h).2, refill_burst]
  | false => rw [step_of_not_admits h, refill_burst]

@[simp] theorem step_rate (b : TokenBucket α) (e : Event α) : (b.step e).rate = b.rate := by
  cases h : b.admits e with
  | true => rw [(step_of_admits h).2, refill_rate]
  | false => rw [step_of_not_admits h, refill_rate]

@[simp] theorem after_burst (b : TokenBucket α) (l : List (Event α)) : (b.after l).burst = b.burst := by
  induction l generalizing b with
  | nil => rfl
  | cons e l ih => exact (ih (b.step e)).trans (b.step_burst e)

theorem le_of_mem_admitted (h : Ordered s l) : ∀ t ∈ b.admitted l, s ≤ t := by
  induction l generalizing b s with
  | nil => exact fun t ht => (List.not_mem_nil ht).elim
  | cons e l ih =>
    intro t ht
    rw [admitted] at ht
    split at ht
    · rcases List.mem_cons.mp ht with rfl | ht
      · exact h.1
      · exact h.1.trans (ih h.2 t ht)
    · exact h.1.trans (ih h.2 t ht)

/-- The bucket is never overfull, and nothing is owed to it. -/
structure Sound (b : TokenBucket α) : Prop where
  tokens : 0 ≤ b.tokens ∧ b.tokens ≤ b.burst
  burst : 0 ≤ b.burst
  rate : 0 ≤ b.rate

variable [IsStrictOrderedRing α]

theorem Sound.refill (h : b.Sound) (ht : b.last ≤ t) : (b.refill t).Sound := by
  refine ⟨⟨le_min h.burst ?_, b.refill_le_burst t⟩, h.burst, h.rate⟩
  have := mul_nonneg (sub_nonneg.mpr ht) h.rate
  linarith [h.tokens.1]

/-- Filling in steps is filling at once. -/
theorem refill_refill (h : b.Sound) (ht : s ≤ t) : (b.refill s).refill t = b.refill t := by
  have hflow := mul_nonneg (sub_nonneg.mpr ht) h.rate
  have hsplit : b.tokens + (s - b.last) * b.rate + (t - s) * b.rate = b.tokens + (t - b.last) * b.rate := by ring
  have htokens : min b.burst (min b.burst (b.tokens + (s - b.last) * b.rate) + (t - s) * b.rate) =
      min b.burst (b.tokens + (t - b.last) * b.rate) := by
    rw [← hsplit]
    rcases le_total b.burst (b.tokens + (s - b.last) * b.rate) with hfull | hfree
    · rw [min_eq_left hfull, min_eq_left (by linarith), min_eq_left (by linarith)]
    · rw [min_eq_right hfree]
  simp only [TokenBucket.refill, htokens]

theorem Sound.step (h : b.Sound) (ht : b.last ≤ e.time) : (b.step e).Sound := by
  have hrefill := h.refill ht
  cases ha : b.admits e with
  | false =>
    rw [step_of_not_admits ha]
    exact hrefill
  | true =>
    obtain ⟨hone, heq⟩ := step_of_admits ha
    rw [heq]
    refine ⟨⟨sub_nonneg.mpr hone, ?_⟩, hrefill.burst, hrefill.rate⟩
    exact (sub_le_self _ zero_le_one).trans hrefill.tokens.2

theorem Sound.after (h : b.Sound) (hl : Ordered b.last l) : (b.after l).Sound := by
  induction l generalizing b with
  | nil => exact h
  | cons e l ih => exact ih (h.step hl.1) (by rw [step_last]; exact hl.2)

/-! ## Windows of time -/

/-- How many requests go through until `y`. -/
theorem admitted_until_le (h : b.Sound) (hl : Ordered b.last l) (hy : b.last ≤ y) :
    (((b.admitted l).filter (· ≤ y)).length : α) ≤ b.tokens + (y - b.last) * b.rate := by
  induction l generalizing b with
  | nil =>
    have := mul_nonneg (sub_nonneg.mpr hy) h.rate
    simpa [admitted] using add_nonneg h.tokens.1 this
  | cons e l ih =>
    have hown : Ordered e.time (e :: l) := ⟨le_rfl, hl.2⟩
    have hsplit : (y - b.last) * b.rate = (e.time - b.last) * b.rate + (y - e.time) * b.rate := by ring
    have hflow := b.refill_le e.time
    rcases le_or_gt e.time y with hle | hgt
    · have hrest := ih (h.step hl.1) (by rw [step_last]; exact hl.2) (by rwa [step_last])
      rw [step_last, step_rate] at hrest
      rw [admitted]
      split
      · rename_i ha
        obtain ⟨-, heq⟩ := step_of_admits ha
        have htokens : (b.step e).tokens = (b.refill e.time).tokens - 1 := by rw [heq]
        rw [List.filter_cons_of_pos (by simpa using hle), List.length_cons, Nat.cast_add, Nat.cast_one]
        linarith
      · rename_i ha
        have heq := step_of_not_admits (Bool.eq_false_of_not_eq_true ha)
        have htokens : (b.step e).tokens = (b.refill e.time).tokens := by rw [heq]
        linarith
    · have hnone : (b.admitted (e :: l)).filter (· ≤ y) = [] := by
        refine List.filter_eq_nil_iff.mpr fun t ht => ?_
        have := le_of_mem_admitted hown t ht
        simpa using hgt.trans_le this
      have := mul_nonneg (sub_nonneg.mpr hy) h.rate
      rw [hnone]
      simpa using add_nonneg h.tokens.1 this

/-- In a window no more requests go through than the burst and what flows in. -/
theorem admitted_window_le (h : b.Sound) (hl : Ordered b.last l) (hxy : x ≤ y) :
    (((b.admitted l).filter fun t => x ≤ t ∧ t ≤ y).length : α) ≤ b.burst + (y - x) * b.rate := by
  have hwidth := mul_nonneg (sub_nonneg.mpr hxy) h.rate
  induction l generalizing b with
  | nil => simpa [admitted] using add_nonneg h.burst hwidth
  | cons e l ih =>
    have hown : Ordered e.time (e :: l) := ⟨le_rfl, hl.2⟩
    rcases lt_or_ge e.time x with hlt | hge
    · -- before the window
      have hrest := ih (h.step hl.1) (by rw [step_last]; exact hl.2) (by rwa [step_rate])
      rw [step_burst, step_rate] at hrest
      rw [admitted]
      split
      · rwa [List.filter_cons_of_neg (by simpa using fun hx => absurd hx hlt.not_ge)]
      · exact hrest
    · -- the first event of the window finds a bucket that is full at most
      have hsame : (b.refill e.time).admitted (e :: l) = b.admitted (e :: l) := by
        have hrefill := refill_refill h (s := e.time) (t := e.time) le_rfl
        simp only [admitted, admits, step, take, hrefill]
      have hfilter : (b.admitted (e :: l)).filter (fun t => x ≤ t ∧ t ≤ y) = (b.admitted (e :: l)).filter (· ≤ y) := by
        refine List.filter_congr fun t ht => ?_
        have := hge.trans (le_of_mem_admitted hown t ht)
        simp [this]
      rw [hfilter, ← hsame]
      rcases le_or_gt e.time y with hle | hgt
      · have huntil := admitted_until_le (h.refill hl.1) (l := e :: l) hown hle
        have hfull := b.refill_le_burst e.time
        have hshrink := mul_le_mul_of_nonneg_right (sub_le_sub_left hge y) h.rate
        rw [refill_last, refill_rate] at huntil
        linarith
      · have hnone : ((b.refill e.time).admitted (e :: l)).filter (· ≤ y) = [] := by
          refine List.filter_eq_nil_iff.mpr fun t ht => ?_
          have := le_of_mem_admitted hown t ht
          simpa using hgt.trans_le this
        rw [hnone]
        simpa using add_nonneg h.burst hwidth

/-- While no request goes through, the bucket fills. -/
theorem after_refill (h : b.Sound) (hl : Ordered b.last l) (hnone : b.admitted l = []) (ht : b.last ≤ t)
    (hlt : ∀ e ∈ l, e.time ≤ t) : (b.after l).refill t = b.refill t := by
  induction l generalizing b with
  | nil => rfl
  | cons e l ih =>
    rw [admitted] at hnone
    split at hnone
    · cases hnone
    · rename_i ha
      have heq := step_of_not_admits (Bool.eq_false_of_not_eq_true ha)
      have het := hlt e (List.mem_cons_self ..)
      have hrest := ih (h.step hl.1) (by rw [step_last]; exact hl.2) hnone (by rwa [step_last])
        fun e' he' => hlt e' (List.mem_cons_of_mem _ he')
      rw [after, List.foldl_cons]
      exact hrest.trans (heq ▸ refill_refill h het)

end TokenBucket

end Stok.Lib
