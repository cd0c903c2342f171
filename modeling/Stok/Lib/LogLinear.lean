import Mathlib.Data.Nat.Log
import Mathlib.Order.GaloisConnection.Basic
import Mathlib.Tactic.Ring

/-!
# Log-linear buckets

A number keeps its `b + 1` leading bits: between two powers of two lie `2 ^ b` buckets of one width,
and below `2 ^ (b + 1)` every number has a bucket of its own. `bucket` and the last number of a bucket,
`top`, are a Galois connection, which gives the order of the buckets; a bucket is narrow
next to its numbers (`top_sub_le`).
-/

namespace Stok.Lib.LogLinear

variable {b n i : Nat}

/-- How many bits of `n` its bucket drops. -/
def shift (b n : Nat) : Nat := n.log2 - b

def bucket (b n : Nat) : Nat := 2 ^ b * shift b n + n / 2 ^ shift b n

/-- How many bits the numbers of bucket `i` drop. -/
def width (b i : Nat) : Nat := i / 2 ^ b - 1

/-- The last number of a bucket. -/
def top (b i : Nat) : Nat := (i - 2 ^ b * width b i + 1) * 2 ^ width b i - 1

/-- A number as its leading bits `m` and what is dropped; only small numbers have fewer than `b + 1` bits. -/
theorem bucket_parts (b n : Nat) : ∃ s m, shift b n = s ∧ bucket b n = 2 ^ b * s + m ∧ n / 2 ^ s = m ∧
    m < 2 ^ (b + 1) ∧ (s = 0 ∨ 2 ^ b ≤ m) := by
  refine ⟨shift b n, n / 2 ^ shift b n, rfl, rfl, rfl, ?_, ?_⟩
  · rw [Nat.div_lt_iff_lt_mul (Nat.two_pow_pos _), ← Nat.pow_add]
    refine Nat.lt_log2_self.trans_le (Nat.pow_le_pow_right (by decide) ?_)
    unfold shift
    omega
  · rcases Nat.eq_zero_or_pos (shift b n) with h0 | hpos
    · exact .inl h0
    · refine .inr ((Nat.le_div_iff_mul_le (Nat.two_pow_pos _)).2 ?_)
      have hn : n ≠ 0 := by
        rintro rfl
        simp [shift] at hpos
      rw [← Nat.pow_add]
      refine (Nat.pow_le_pow_right (by decide) ?_).trans (Nat.log2_self_le hn)
      unfold shift at hpos ⊢
      omega

theorem width_parts (b i : Nat) : ∃ t w, width b i = t ∧ i = 2 ^ b * t + w ∧ top b i = (w + 1) * 2 ^ t - 1 ∧
    w < 2 ^ (b + 1) ∧ (t = 0 ∨ 2 ^ b ≤ w) := by
  have hdiv := Nat.div_add_mod i (2 ^ b)
  have hmod := Nat.mod_lt i (Nat.two_pow_pos b)
  rcases hq : i / 2 ^ b with _ | q
  · rw [hq, Nat.mul_zero] at hdiv
    have ht : width b i = 0 := by rw [width, hq]
    refine ⟨0, i, ht, by omega, by rw [top, ht, Nat.mul_zero, Nat.sub_zero], ?_, .inl rfl⟩
    rw [Nat.pow_succ]
    omega
  · have ht : width b i = q := by rw [width, hq, Nat.add_sub_cancel]
    rw [hq, Nat.mul_succ] at hdiv
    refine ⟨q, i - 2 ^ b * q, ht, by omega, by rw [top, ht], ?_, .inr (by omega)⟩
    rw [Nat.pow_succ]
    omega

theorem gc_bucket_top (b : Nat) : GaloisConnection (bucket b) (top b) := by
  intro n i
  obtain ⟨s, m, -, hbucket, hm, hm2, hs⟩ := bucket_parts b n
  obtain ⟨t, w, -, hi, htop, hw2, ht⟩ := width_parts b i
  have hlo : m * 2 ^ s ≤ n := by
    rw [← hm]
    exact Nat.div_mul_le_self n (2 ^ s)
  have hle : n ≤ (w + 1) * 2 ^ t - 1 ↔ n < (w + 1) * 2 ^ t := by
    have : 0 < (w + 1) * 2 ^ t := Nat.mul_pos w.succ_pos (Nat.two_pow_pos t)
    omega
  rw [hbucket, htop, hle, hi]
  rcases Nat.lt_trichotomy s t with hst | rfl | hst
  · -- fewer bits are dropped: the number and its bucket are below
    have hw : 2 ^ b ≤ w := by omega
    have hmul : 2 ^ b * (s + 1) ≤ 2 ^ b * t := Nat.mul_le_mul_left _ hst
    rw [Nat.mul_add] at hmul
    rw [Nat.pow_succ] at hm2
    refine iff_of_true (by omega) ?_
    have hhi : n < (m + 1) * 2 ^ s := (Nat.div_lt_iff_lt_mul (Nat.two_pow_pos s)).1 (by omega)
    calc n < (m + 1) * 2 ^ s := hhi
      _ ≤ 2 ^ b * 2 * 2 ^ s := Nat.mul_le_mul_right _ hm2
      _ = 2 ^ b * 2 ^ (s + 1) := by ring
      _ ≤ (w + 1) * 2 ^ t := Nat.mul_le_mul (by omega) (Nat.pow_le_pow_right (by decide) hst)
  · rw [← hm, Nat.add_le_add_iff_left, ← Nat.lt_succ_iff, Nat.div_lt_iff_lt_mul (Nat.two_pow_pos s)]
  · have hmb : 2 ^ b ≤ m := by omega
    have hmul : 2 ^ b * (t + 1) ≤ 2 ^ b * s := Nat.mul_le_mul_left _ hst
    rw [Nat.mul_add] at hmul
    rw [Nat.pow_succ] at hw2
    refine iff_of_false (by omega) (not_lt.2 ?_)
    calc (w + 1) * 2 ^ t ≤ 2 ^ b * 2 * 2 ^ t := Nat.mul_le_mul_right _ hw2
      _ = 2 ^ b * 2 ^ (t + 1) := by ring
      _ ≤ m * 2 ^ s := Nat.mul_le_mul hmb (Nat.pow_le_pow_right (by decide) hst)
      _ ≤ n := hlo

/-- The last number of a bucket lies in it. -/
theorem bucket_top (b i : Nat) : bucket b (top b i) = i := by
  obtain ⟨t, w, -, hi, htop, hw2, ht⟩ := width_parts b i
  have hpos := Nat.two_pow_pos t
  have hshift : shift b (top b i) = t := by
    rw [htop, shift]
    rcases Nat.eq_zero_or_pos t with rfl | htpos
    · rw [Nat.pow_zero, Nat.mul_one, Nat.add_sub_cancel]
      rcases Nat.eq_zero_or_pos w with rfl | hwpos
      · simp
      · have := (Nat.log2_lt (Nat.ne_of_gt hwpos)).2 hw2
        omega
    · have hw : 2 ^ b ≤ w := by omega
      have hne : (w + 1) * 2 ^ t - 1 ≠ 0 := by
        have : 2 * 1 ≤ (w + 1) * 2 ^ t := Nat.mul_le_mul (by have := Nat.two_pow_pos b; omega) hpos
        omega
      have hlo : b + t ≤ ((w + 1) * 2 ^ t - 1).log2 := by
        refine (Nat.le_log2 hne).2 ?_
        have : 2 ^ b * 2 ^ t ≤ w * 2 ^ t := Nat.mul_le_mul_right _ hw
        rw [Nat.pow_add, Nat.add_mul]
        omega
      have hhi : ((w + 1) * 2 ^ t - 1).log2 < b + 1 + t := by
        refine (Nat.log2_lt hne).2 ?_
        have : (w + 1) * 2 ^ t ≤ 2 ^ (b + 1) * 2 ^ t := Nat.mul_le_mul_right _ hw2
        rw [Nat.pow_add]
        have : 0 < (w + 1) * 2 ^ t := Nat.mul_pos w.succ_pos hpos
        omega
      omega
  have hdiv : ((w + 1) * 2 ^ t - 1) / 2 ^ t = w := by
    rw [Nat.div_eq_iff hpos, Nat.add_mul]
    omega
  rw [bucket, hshift, htop, hdiv]
  exact hi.symm

theorem le_top (b n : Nat) : n ≤ top b (bucket b n) := (gc_bucket_top b).le_u_l n

theorem bucket_mono (b : Nat) : Monotone (bucket b) := (gc_bucket_top b).monotone_l

/-- Next to its numbers a bucket is narrow. -/
theorem top_sub_le (b n : Nat) : top b (bucket b n) - n ≤ n / 2 ^ b := by
  obtain ⟨s, m, -, hbucket, hm, hm2, hs⟩ := bucket_parts b n
  have hwidth : width b (2 ^ b * s + m) = s := by
    rw [width, Nat.mul_add_div (Nat.two_pow_pos b)]
    rcases Nat.lt_or_ge m (2 ^ b) with hlt | hge
    · rw [Nat.div_eq_of_lt hlt]
      omega
    · have hone : m / 2 ^ b = 1 := by
        rw [Nat.pow_succ] at hm2
        rw [Nat.div_eq_iff (Nat.two_pow_pos b)]
        omega
      rw [hone, Nat.add_sub_cancel]
  have hlo : m * 2 ^ s ≤ n := by
    rw [← hm]
    exact Nat.div_mul_le_self n (2 ^ s)
  have hnarrow : s = 0 ∨ 2 ^ s ≤ n / 2 ^ b := by
    refine hs.imp_right fun hmb => (Nat.le_div_iff_mul_le (Nat.two_pow_pos b)).2 ?_
    calc 2 ^ s * 2 ^ b ≤ 2 ^ s * m := Nat.mul_le_mul_left _ hmb
      _ = m * 2 ^ s := Nat.mul_comm _ _
      _ ≤ n := hlo
  rw [hbucket, top, hwidth, Nat.add_sub_cancel_left, Nat.add_mul, Nat.one_mul]
  generalize n / 2 ^ b = q at hnarrow ⊢
  rcases hnarrow with rfl | hnarrow
  · rw [Nat.pow_zero] at hlo ⊢
    omega
  · omega

end Stok.Lib.LogLinear
