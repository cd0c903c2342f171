import Mathlib.Data.List.Perm.Basic
import Stok.Core.Dbl
import Stok.Lib.LogLinear
import Stok.Lib.Ranks

/-!
# Latency histogram (`core/histogram.hpp`)

Log-linear buckets over the 64-bit range, 16 to a power of two. `index` and `upperBound` are
the buckets of `Lib/LogLinear` with five leading bits (`index_eq`, `upperBound_eq`). A histogram is
a function of the multiset it has seen: recording commutes and merging is recording the
rest (`merge_ofList`). As long as no counter wraps around, the loop of `percentile` stops in the
bucket of the exact rank (`stopAt_eq`).
-/

namespace Stok

open Lib (kth)

/-- 16 linear sub-buckets per power of two. -/
def kSubBits : Nat := 4

def kBuckets : Nat := 64 <<< kSubBits

structure LatencyHistogram where
  counts : Fin kBuckets → UInt64 := fun _ => 0
  n : UInt64 := 0
  max : UInt64 := 0
  min : UInt64 := ~~~0
  sum : UInt64 := 0

namespace LatencyHistogram

/-- `__builtin_clzll` -/
def clzll (v : UInt64) : Nat := v.toBitVec.clz.toNat

/-- `1ull << kSubBits` -/
def subCount : UInt64 := 1 <<< UInt64.ofNat kSubBits

def index (v : UInt64) : Nat :=
  if v < subCount then v.toNat
  else
    let msb := 63 - clzll v
    let shift := msb - kSubBits
    let sub := ((v >>> UInt64.ofNat shift) &&& (subCount - 1)).toNat
    ((shift + 1) <<< kSubBits) + sub

def upperBound (idx : Nat) : UInt64 :=
  if idx < 1 <<< kSubBits then UInt64.ofNat idx
  else
    let shift := UInt64.ofNat ((idx >>> kSubBits) - 1)
    let sub := UInt64.ofNat (idx &&& ((1 <<< kSubBits) - 1))
    ((subCount ||| sub) <<< shift) + (((1 : UInt64) <<< shift) - 1)

/-- `upperBound` in unbounded arithmetic. -/
def upperBoundExact (idx : Nat) : Nat :=
  if idx < 1 <<< kSubBits then idx
  else
    let shift := (idx >>> kSubBits) - 1
    let sub := idx &&& ((1 <<< kSubBits) - 1)
    (((1 <<< kSubBits) ||| sub) <<< shift) + ((1 <<< shift) - 1)

/-! ## Buckets -/

theorem clzll_bounds {v : UInt64} (h : v ≠ 0) : v.toNat.log2 = 63 - clzll v := by
  have hne : v.toBitVec ≠ 0#64 := fun h0 => h (UInt64.toBitVec_inj.1 h0)
  have hlo := BitVec.two_pow_sub_clz_le_toNat_of_ne_zero (by decide) hne
  have hhi := BitVec.toNat_lt_two_pow_sub_clz (x := v.toBitVec)
  have hlt : clzll v < 64 := by
    have := BitVec.clz_lt_iff_ne_zero.2 hne
    simpa [clzll, BitVec.lt_def] using this
  have hnat : v.toNat ≠ 0 := fun h0 => h (UInt64.toNat_inj.1 h0)
  refine (Nat.log2_eq_iff hnat).2 ⟨hlo, ?_⟩
  have : 63 - clzll v + 1 = 64 - clzll v := by omega
  rw [this]
  exact hhi

theorem toNat_subCount : subCount.toNat = 16 := by decide

theorem and_low_bits (n : Nat) : n &&& 15 = n % 16 := Nat.and_two_pow_sub_one_eq_mod n 4

theorem index_eq (v : UInt64) : index v = Lib.LogLinear.bucket 4 v.toNat := by
  unfold index Lib.LogLinear.bucket Lib.LogLinear.shift
  split
  · rename_i hv
    have hlt : v.toNat < 16 := by simpa [UInt64.lt_iff_toNat_lt, toNat_subCount] using hv
    have hlog : v.toNat.log2 - 4 = 0 := by
      rcases Nat.eq_zero_or_pos v.toNat with h0 | hpos
      · rw [h0]
        simp
      · have := (Nat.log2_lt (Nat.ne_of_gt hpos)).2 (show v.toNat < 2 ^ 4 from hlt)
        omega
    simp [hlog]
  · rename_i hv
    have hge : 16 ≤ v.toNat := by simpa [UInt64.lt_iff_toNat_lt, toNat_subCount] using hv
    have hne : v ≠ 0 := by
      rintro rfl
      simp at hge
    have hlog := clzll_bounds hne
    have hlo : 4 ≤ v.toNat.log2 := (Nat.le_log2 (by omega)).2 hge
    have hhi : v.toNat.log2 < 64 := (Nat.log2_lt (by omega)).2 v.toNat_lt
    have hm : 2 ^ 4 ≤ v.toNat / 2 ^ (v.toNat.log2 - 4) := by
      rw [Nat.le_div_iff_mul_le (Nat.two_pow_pos _), ← Nat.pow_add, Nat.add_sub_cancel' hlo]
      exact Nat.log2_self_le (by omega)
    have hm2 : v.toNat / 2 ^ (v.toNat.log2 - 4) < 2 ^ 5 := by
      rw [Nat.div_lt_iff_lt_mul (Nat.two_pow_pos _), ← Nat.pow_add]
      exact Nat.lt_log2_self.trans_le (Nat.pow_le_pow_right (by decide) (by omega))
    rw [hlog] at hlo hhi hm hm2 ⊢
    have hshift : (UInt64.ofNat (63 - clzll v - 4)).toNat % 64 = 63 - clzll v - 4 := by
      rw [UInt64.toNat_ofNat']
      omega
    have hsub : (subCount - 1).toNat = 15 := by decide
    simp only [kSubBits, UInt64.toNat_and, UInt64.toNat_shiftRight, hshift, hsub, and_low_bits,
      Nat.shiftLeft_eq, Nat.shiftRight_eq_div_pow]
    omega

theorem or_sixteen {n : Nat} (h : n < 16) : 16 ||| n = 16 + n := (Nat.two_pow_add_eq_or_of_lt (i := 4) h 1).symm

theorem upperBoundExact_eq (i : Nat) : upperBoundExact i = Lib.LogLinear.top 4 i := by
  obtain ⟨t, w, ht, hi, htop, hw, htw⟩ := Lib.LogLinear.width_parts 4 i
  have hmod := Nat.mod_lt i (by decide : 0 < 16)
  rw [htop]
  unfold upperBoundExact
  simp only [kSubBits, Nat.shiftLeft_eq, Nat.one_mul, Nat.shiftRight_eq_div_pow]
  split
  · rename_i hlt
    have h0 : t = 0 := by omega
    subst h0
    omega
  · rename_i hge
    have hsub : i &&& 2 ^ 4 - 1 = i % 16 := and_low_bits i
    have hor : (2 ^ 4 : Nat) ||| i % 16 = 16 + i % 16 := or_sixteen hmod
    have hw : w = 16 + i % 16 := by omega
    have ht : i / 2 ^ 4 - 1 = t := by omega
    have := Nat.two_pow_pos t
    rw [hsub, hor, ht, hw, Nat.add_mul (16 + i % 16)]
    omega

/-- Nothing overflows up to the last bucket that a 64-bit value has. -/
theorem upperBound_exact {i : Nat} (h : i ≤ 975) : (upperBound i).toNat = upperBoundExact i := by
  have hmod := Nat.mod_lt i (by decide : 0 < 16)
  unfold upperBound upperBoundExact
  by_cases hlt : i < 1 <<< kSubBits
  · rw [if_pos hlt, if_pos hlt, UInt64.toNat_ofNat']
    omega
  · rw [if_neg hlt, if_neg hlt]
    simp only [kSubBits] at hlt ⊢
    have hsub : i &&& ((1 <<< 4) - 1) = i % 16 := and_low_bits i
    have hor : (1 <<< 4 : Nat) ||| i % 16 = 16 + i % 16 := or_sixteen hmod
    have hs : i >>> 4 - 1 ≤ 59 := by
      rw [Nat.shiftRight_eq_div_pow]
      omega
    generalize i >>> 4 - 1 = s at hs ⊢
    have hpow : 2 ^ s ≤ 2 ^ 59 := Nat.pow_le_pow_right (by decide) hs
    have hpos := Nat.two_pow_pos s
    have hmul : (16 + i % 16) * 2 ^ s ≤ 31 * 2 ^ 59 := Nat.mul_le_mul (by omega) hpow
    have hshift : (UInt64.ofNat s).toNat % 64 = s := by
      rw [UInt64.toNat_ofNat']
      omega
    have hsub' : (UInt64.ofNat (i % 16)).toNat = i % 16 := by
      rw [UInt64.toNat_ofNat']
      omega
    have hone : ((1 : UInt64) <<< UInt64.ofNat s).toNat = 2 ^ s := by
      rw [UInt64.toNat_shiftLeft, hshift, Nat.shiftLeft_eq, UInt64.toNat_one, Nat.one_mul]
      omega
    have hle : (1 : UInt64) ≤ 1 <<< UInt64.ofNat s := by
      rw [UInt64.le_iff_toNat_le, hone]
      exact hpos
    rw [hsub, hor, UInt64.toNat_add, UInt64.toNat_sub_of_le _ _ hle, hone, UInt64.toNat_shiftLeft, hshift,
      UInt64.toNat_or, toNat_subCount, hsub', or_sixteen hmod, Nat.shiftLeft_eq, Nat.shiftLeft_eq,
      UInt64.toNat_one, Nat.one_mul]
    omega

theorem index_le (v : UInt64) : index v ≤ 975 := by
  rw [index_eq]
  refine (Lib.LogLinear.gc_bucket_top 4 _ _).2 ?_
  have htop : Lib.LogLinear.top 4 975 = 2 ^ 64 - 1 := by decide +kernel
  have := v.toNat_lt
  omega

theorem index_lt (v : UInt64) : index v < kBuckets := lt_of_le_of_lt (index_le v) (by decide)

theorem toNat_upperBound_index (v : UInt64) :
    (upperBound (index v)).toNat = Lib.LogLinear.top 4 (Lib.LogLinear.bucket 4 v.toNat) := by
  rw [upperBound_exact (index_le v), upperBoundExact_eq, index_eq]

/-- What bucketing promises of a value. -/
structure Bucketed (v : UInt64) : Prop where
  inRange : index v < kBuckets
  exact : (upperBound (index v)).toNat = upperBoundExact (index v)
  le : v ≤ upperBound (index v)
  narrow : upperBound (index v) - v ≤ v / 16
  back : index (upperBound (index v)) = index v

theorem bucketed (v : UInt64) : Bucketed v where
  inRange := index_lt v
  exact := upperBound_exact (index_le v)
  le := by
    rw [UInt64.le_iff_toNat_le, toNat_upperBound_index]
    exact Lib.LogLinear.le_top 4 v.toNat
  narrow := by
    have hle : v ≤ upperBound (index v) := by
      rw [UInt64.le_iff_toNat_le, toNat_upperBound_index]
      exact Lib.LogLinear.le_top 4 v.toNat
    rw [UInt64.le_iff_toNat_le, UInt64.toNat_sub_of_le _ _ hle, toNat_upperBound_index, UInt64.toNat_div]
    exact Lib.LogLinear.top_sub_le 4 v.toNat
  back := by rw [index_eq (upperBound _), toNat_upperBound_index, Lib.LogLinear.bucket_top, ← index_eq]

theorem index_mono {v w : UInt64} (h : v ≤ w) : index v ≤ index w := by
  rw [index_eq, index_eq]
  exact Lib.LogLinear.bucket_mono 4 (UInt64.le_iff_toNat_le.1 h)

/-! ## Recording and merging -/

/-- The bucket that `record` counts `v` in. -/
def slot (v : UInt64) : Fin kBuckets := ⟨index v, index_lt v⟩

def record (h : LatencyHistogram) (v : UInt64) : LatencyHistogram where
  counts := Function.update h.counts (slot v) (h.counts (slot v) + 1)
  n := h.n + 1
  max := if v > h.max then v else h.max
  min := if v < h.min then v else h.min
  sum := h.sum + v

def merge (h o : LatencyHistogram) : LatencyHistogram where
  counts i := h.counts i + o.counts i
  n := h.n + o.n
  sum := h.sum + o.sum
  max := if h.max < o.max then o.max else h.max
  min := if o.min < h.min then o.min else h.min

/-- The histogram that has recorded `values`. -/
def ofList (values : List UInt64) : LatencyHistogram := values.foldl record {}

theorem ofList_concat (values : List UInt64) (v : UInt64) : ofList (values ++ [v]) = (ofList values).record v := by
  rw [ofList, List.foldl_append]
  rfl

@[ext] theorem ext {h o : LatencyHistogram} (hcounts : ∀ i, h.counts i = o.counts i) (hn : h.n = o.n)
    (hmax : h.max = o.max) (hmin : h.min = o.min) (hsum : h.sum = o.sum) : h = o := by
  cases h
  cases o
  obtain rfl := funext hcounts
  simp_all

theorem counts_record (h : LatencyHistogram) (v : UInt64) (i : Fin kBuckets) :
    (h.record v).counts i = h.counts i + if slot v = i then 1 else 0 := by
  simp only [record, Function.update_apply]
  by_cases hi : i = slot v
  · rw [if_pos hi, if_pos hi.symm, hi]
  · rw [if_neg hi, if_neg (Ne.symm hi), UInt64.add_zero]

theorem record_comm (h : LatencyHistogram) (v w : UInt64) : (h.record v).record w = (h.record w).record v := by
  refine ext (fun i => ?_) rfl ?_ ?_ ?_
  · rw [counts_record, counts_record, counts_record, counts_record, UInt64.add_assoc, UInt64.add_assoc,
      UInt64.add_comm (if slot v = i then 1 else 0)]
  · simp only [record, gt_iff_lt, UInt64.lt_iff_toNat_lt, ← UInt64.toNat_inj]
    grind
  · simp only [record, UInt64.lt_iff_toNat_lt, ← UInt64.toNat_inj]
    grind
  · simp only [record, UInt64.add_assoc, UInt64.add_comm v w]

/-- A histogram does not depend on the order of its values. -/
theorem ofList_perm {values values' : List UInt64} (h : values.Perm values') : ofList values = ofList values' := by
  have : RightCommutative record := ⟨record_comm⟩
  exact h.foldl_eq _

theorem merge_empty (h : LatencyHistogram) : h.merge {} = h := by
  refine ext (fun i => UInt64.add_zero _) (UInt64.add_zero _) ?_ ?_ (UInt64.add_zero _)
  · simp [merge]
  · have : ¬ (~~~0 : UInt64) < h.min := by
      have := h.min.toNat_lt
      simp only [UInt64.lt_iff_toNat_lt, UInt64.toNat_not, UInt64.toNat_zero, UInt64.size]
      omega
    simp only [merge, if_neg this]

theorem merge_record (h o : LatencyHistogram) (v : UInt64) : h.merge (o.record v) = (h.merge o).record v := by
  refine ext (fun i => ?_) (UInt64.add_assoc ..).symm ?_ ?_ (UInt64.add_assoc ..).symm
  · simp only [merge, counts_record, UInt64.add_assoc]
  · simp only [merge, record, gt_iff_lt, UInt64.lt_iff_toNat_lt, ← UInt64.toNat_inj]
    grind
  · simp only [merge, record, UInt64.lt_iff_toNat_lt, ← UInt64.toNat_inj]
    grind

/-- Merging is recording the values of the other histogram. -/
theorem merge_ofList (values others : List UInt64) :
    (ofList values).merge (ofList others) = ofList (values ++ others) := by
  induction others using List.reverseRecOn with
  | nil => rw [List.append_nil, ofList, ofList, List.foldl_nil, merge_empty]
  | append_singleton others v ih => rw [ofList_concat, merge_record, ih, ← List.append_assoc, ofList_concat]

/-! ## Counters -/

theorem n_ofList (values : List UInt64) : (ofList values).n = UInt64.ofNat values.length := by
  induction values using List.reverseRecOn with
  | nil => rfl
  | append_singleton values v ih =>
    rw [ofList_concat, record, List.length_append, UInt64.ofNat_add, ih]
    rfl

theorem counts_ofList (values : List UInt64) (i : Fin kBuckets) :
    (ofList values).counts i = UInt64.ofNat (values.countP fun v => index v == i) := by
  induction values using List.reverseRecOn with
  | nil => rfl
  | append_singleton values v ih =>
    rw [ofList_concat, counts_record, ih, List.countP_append, UInt64.ofNat_add, List.countP_singleton]
    have hslot : (index v == (i : Nat)) = true ↔ slot v = i := by rw [beq_iff_eq, Fin.ext_iff, slot]
    by_cases hi : slot v = i
    · rw [if_pos hi, if_pos (hslot.2 hi)]
      rfl
    · rw [if_neg hi, if_neg (hslot.not.2 hi)]
      rfl

/-- The maximum is at least every value, and one of them. -/
theorem max_ofList (values : List UInt64) : (∀ v ∈ values, v ≤ (ofList values).max) ∧
    (values ≠ [] → (ofList values).max ∈ values) := by
  induction values using List.reverseRecOn with
  | nil => exact ⟨fun v hv => absurd hv List.not_mem_nil, fun h => absurd rfl h⟩
  | append_singleton values v ih =>
    obtain ⟨hle, hmem⟩ := ih
    rw [ofList_concat]
    simp only [record, gt_iff_lt]
    split
    · rename_i hlt
      refine ⟨fun w hw => ?_, fun _ => List.mem_append_right _ (List.mem_singleton.2 rfl)⟩
      rcases List.mem_append.1 hw with hw | hw
      · exact UInt64.le_trans (hle w hw) (UInt64.le_of_lt hlt)
      · exact UInt64.le_of_eq (List.mem_singleton.1 hw)
    · rename_i hnot
      refine ⟨fun w hw => ?_, fun _ => ?_⟩
      · rcases List.mem_append.1 hw with hw | hw
        · exact hle w hw
        · rw [List.mem_singleton.1 hw]
          exact UInt64.not_lt.1 hnot
      · rcases eq_or_ne values [] with rfl | hne
        · have h0 : v = (ofList []).max := by
            rw [ofList, List.foldl_nil] at hnot ⊢
            exact UInt64.le_antisymm (UInt64.not_lt.1 hnot) (UInt64.zero_le)
          rw [h0]
          exact List.mem_append_right _ (List.mem_singleton.2 rfl)
        · exact List.mem_append_left _ (hmem hne)

/-! ## The percentile loop -/

/-- The loop of `percentile` from bucket `i` on. -/
def stopFrom (h : LatencyHistogram) (target acc : UInt64) (i : Nat) : UInt64 :=
  if hi : i < kBuckets then
    let acc := acc + h.counts ⟨i, hi⟩
    if acc ≥ target then (if h.max < upperBound i then h.max else upperBound i)
    else stopFrom h target acc (i + 1)
  else h.max
termination_by kBuckets - i

/-- Where the loop of `percentile` stops for a target. -/
def stopAt (h : LatencyHistogram) (target : UInt64) : UInt64 := stopFrom h target 0 0

/-- Upper bound of the bucket containing the `p`-th percentile (0..100). -/
def percentile {F : Type} [Dbl F] (h : LatencyHistogram) (p : F) : UInt64 :=
  if h.n = 0 then 0
  else
    let target : F := Dbl.max (Dbl.ofRat 1) (p / Dbl.ofRat 100 * Dbl.ofRat h.n.toNat + Dbl.ofRat (1 / 2))
    h.stopAt (UInt64.ofNat (Dbl.trunc target).toNat)

theorem countP_index_succ (values : List UInt64) (i : Nat) :
    values.countP (fun v => decide (index v < i + 1)) =
      values.countP (fun v => decide (index v < i)) + values.countP fun v => index v == i := by
  induction values with
  | nil => rfl
  | cons v values ih =>
    simp only [List.countP_cons, ih, decide_eq_true_iff, beq_iff_eq]
    split <;> split <;> split <;> omega

/-- The `k`-th smallest value is not beyond a bucket just when `k` values are not. -/
theorem le_countP_index {values : List UInt64} {k : Nat} {x : UInt64} (hk : 0 < k)
    (hx : kth (values.map UInt64.toNat) k = some x.toNat) (i : Nat) :
    k ≤ values.countP (fun v => decide (index v < i)) ↔ index x < i := by
  have hcount : values.countP (fun v => decide (index v < i)) =
      (values.map UInt64.toNat).countP fun n => decide (Lib.LogLinear.bucket 4 n < i) := by
    rw [List.countP_map]
    refine List.countP_congr fun v _ => ?_
    rw [Function.comp_apply, index_eq]
  rw [hcount, Lib.le_countP_iff (fun a b hab hb => ?_) hk hx, decide_eq_true_iff, index_eq]
  rw [decide_eq_true_iff] at hb ⊢
  exact (Lib.LogLinear.bucket_mono 4 hab).trans_lt hb

theorem acc_step {values : List UInt64} (hlen : values.length < 2 ^ 64) {acc : UInt64} {i : Nat}
    (hlt : i < kBuckets) (hacc : acc.toNat = values.countP fun v => decide (index v < i)) :
    (acc + (ofList values).counts ⟨i, hlt⟩).toNat = values.countP fun v => decide (index v < i + 1) := by
  have hle := List.countP_le_length (p := fun v => decide (index v < i + 1)) (l := values)
  rw [countP_index_succ] at hle ⊢
  rw [counts_ofList, UInt64.toNat_add, UInt64.toNat_ofNat', hacc]
  dsimp only
  omega

/-- Up to the bucket of the `k`-th smallest value the sum is below `k`; there the loop stops. -/
theorem stopFrom_eq {values : List UInt64} (hlen : values.length < 2 ^ 64) {k : UInt64} {x : UInt64}
    (hk : 0 < k.toNat) (hx : kth (values.map UInt64.toNat) k.toNat = some x.toNat) {acc : UInt64} {i : Nat}
    (hacc : acc.toNat = values.countP fun v => decide (index v < i)) (hi : i ≤ index x) :
    stopFrom (ofList values) k acc i =
      if (ofList values).max < upperBound (index x) then (ofList values).max else upperBound (index x) := by
  obtain ⟨d, hd⟩ := Nat.exists_eq_add_of_le hi
  induction d generalizing acc i with
  | zero =>
    obtain rfl : index x = i := hd
    have hsum := acc_step hlen (index_lt x) hacc
    have hstop : acc + (ofList values).counts ⟨index x, index_lt x⟩ ≥ k := by
      rw [ge_iff_le, UInt64.le_iff_toNat_le, hsum, le_countP_index hk hx]
      exact Nat.lt_succ_self _
    rw [stopFrom, dif_pos (index_lt x)]
    exact if_pos hstop
  | succ d ih =>
    have hlt : i < kBuckets := hi.trans_lt (index_lt x)
    have hsum := acc_step hlen hlt hacc
    have hgo : ¬ acc + (ofList values).counts ⟨i, hlt⟩ ≥ k := by
      rw [ge_iff_le, UInt64.le_iff_toNat_le, hsum, le_countP_index hk hx]
      omega
    rw [stopFrom, dif_pos hlt]
    dsimp only
    rw [if_neg hgo]
    exact ih hsum (by omega) (by omega)

/-- A histogram of `values`: of the whole list, or merged from the histograms of two parts. -/
def Recorded (h : LatencyHistogram) (values : List UInt64) : Prop :=
  h = ofList values ∨
    ∃ left right, (left ++ right).Perm values ∧ h = (ofList left).merge (ofList right)

theorem Recorded.eq_ofList {h : LatencyHistogram} {values : List UInt64} (hr : Recorded h values) :
    h = ofList values := by
  rcases hr with rfl | ⟨left, right, hperm, rfl⟩
  · rfl
  · rw [merge_ofList, ofList_perm hperm]

/-- The loop stops between the exact `k`-th smallest value and that value plus one sixteenth. -/
theorem stopAt_between {values : List UInt64} (hlen : values.length < 2 ^ 64) {k : UInt64} (hk : 1 ≤ k.toNat)
    (hkn : k.toNat ≤ values.length) : ∃ x : UInt64, kth (values.map UInt64.toNat) k.toNat = some x.toNat ∧
      x ≤ (ofList values).stopAt k ∧ ((ofList values).stopAt k).toNat ≤ x.toNat + x.toNat / 16 ∧
      ∃ v ∈ values, (ofList values).stopAt k ≤ v := by
  obtain ⟨n, hn⟩ := Lib.kth_isSome (l := values.map UInt64.toNat) hk (by rwa [List.length_map])
  obtain ⟨x, hxmem, rfl⟩ := List.mem_map.1 (Lib.mem_of_kth hn)
  obtain ⟨hmaxle, hmaxmem⟩ := max_ofList values
  have hstop : (ofList values).stopAt k =
      if (ofList values).max < upperBound (index x) then (ofList values).max else upperBound (index x) := by
    refine stopFrom_eq hlen hk hn ?_ (Nat.zero_le _)
    exact (List.countP_eq_zero.2 fun v _ => by simp).symm
  have hb := bucketed x
  have hnarrow := hb.narrow
  rw [UInt64.le_iff_toNat_le, UInt64.toNat_sub_of_le _ _ hb.le, UInt64.toNat_div] at hnarrow
  have hle := UInt64.le_iff_toNat_le.1 hb.le
  refine ⟨x, hn, ?_, ?_, (ofList values).max, hmaxmem (List.ne_nil_of_mem hxmem), ?_⟩
  · rw [hstop]
    split
    · exact hmaxle x hxmem
    · exact hb.le
  · have hsixteen : (16 : UInt64).toNat = 16 := rfl
    rw [hsixteen] at hnarrow
    rw [hstop]
    split
    · rename_i hlt
      rw [UInt64.lt_iff_toNat_lt] at hlt
      omega
    · omega
  · rw [hstop]
    split
    · exact UInt64.le_refl _
    · rename_i hnot
      exact UInt64.not_lt.1 hnot

/-- Bucketing is sound, and so are the percentiles of up to `2 ^ 64 - 1` values. -/
theorem histogram_sound : (∀ v, Bucketed v) ∧ (∀ v w, v ≤ w → index v ≤ index w) ∧
    ∀ values h, Recorded h values → values.length < 2 ^ 64 →
      ∀ k : UInt64, 1 ≤ k.toNat → k.toNat ≤ values.length →
        ∃ x : UInt64, kth (values.map UInt64.toNat) k.toNat = some x.toNat ∧ x ≤ h.stopAt k ∧
          (h.stopAt k).toNat ≤ x.toNat + x.toNat / 16 ∧ ∃ v ∈ values, h.stopAt k ≤ v := by
  refine ⟨bucketed, fun v w => index_mono, fun values h hr hlen k hk hkn => ?_⟩
  rw [hr.eq_ofList]
  exact stopAt_between hlen hk hkn

/-- Three values, one of them recorded in another histogram. -/
theorem histogram_sound_three : ∃ x : UInt64,
    kth ([5, 300, 7].map UInt64.toNat) (2 : UInt64).toNat = some x.toNat ∧
      x ≤ ((ofList [300]).merge (ofList [7, 5])).stopAt 2 ∧
      (((ofList [300]).merge (ofList [7, 5])).stopAt 2).toNat ≤ x.toNat + x.toNat / 16 ∧
      ∃ v ∈ ([5, 300, 7] : List UInt64), ((ofList [300]).merge (ofList [7, 5])).stopAt 2 ≤ v :=
  histogram_sound.2.2 [5, 300, 7] _ (.inr ⟨[300], [7, 5], by decide, rfl⟩) (by decide) 2 (by decide) (by decide)

/-! ## A counter that wraps around -/

theorem stopFrom_skip {h : LatencyHistogram} {target : UInt64} (ht : 0 < target) {i j : Nat} (hij : i ≤ j)
    (hj : j < kBuckets) (h0 : ∀ m (hm : m < kBuckets), i ≤ m → m < j → h.counts ⟨m, hm⟩ = 0) :
    stopFrom h target 0 i = stopFrom h target 0 j := by
  obtain ⟨d, rfl⟩ := Nat.exists_eq_add_of_le hij
  induction d generalizing i with
  | zero => rfl
  | succ d ih =>
    have hlt : i < kBuckets := by omega
    rw [stopFrom, dif_pos hlt]
    dsimp only
    rw [h0 i hlt le_rfl (by omega), UInt64.add_zero, if_neg (UInt64.not_le.2 ht), ih (by omega) (by omega)]
    · congr 1
      omega
    · intro m hm hle hltm
      exact h0 m hm (by omega) (by omega)

/-- Zeros until their counter is zero again, then one large value. -/
def wrapped (n : Nat) : List UInt64 := List.replicate n 0 ++ [0x8000000000000000]

theorem stopAt_wrapped {n : Nat} (hn : UInt64.ofNat n = 0) : (ofList (wrapped n)).stopAt 1 = 0x8000000000000000 := by
  have hlast : index 0x8000000000000000 = 960 := by decide +kernel
  have hcount : ∀ m (hm : m < kBuckets), (ofList (wrapped n)).counts ⟨m, hm⟩ = if m = 960 then 1 else 0 := by
    intro m hm
    rw [counts_ofList, wrapped, List.countP_append, UInt64.ofNat_add, List.countP_singleton,
      List.countP_replicate, hlast]
    dsimp only
    have hzero : (UInt64.ofNat (if (index 0 == m) = true then n else 0)) = 0 := by
      split
      · exact hn
      · rfl
    rw [hzero, UInt64.zero_add]
    by_cases h960 : m = 960
    · rw [if_pos h960, if_pos (beq_iff_eq.2 h960.symm)]
      rfl
    · rw [if_neg h960, if_neg (by rw [beq_iff_eq]; exact Ne.symm h960)]
      rfl
  have hmax : (ofList (wrapped n)).max = 0x8000000000000000 := by
    obtain ⟨hle, hmem⟩ := max_ofList (wrapped n)
    have hne : wrapped n ≠ [] := by simp [wrapped]
    have hlarge : (0x8000000000000000 : UInt64) ≤ (ofList (wrapped n)).max := hle _ (by simp [wrapped])
    rcases List.mem_append.1 (hmem hne) with h0 | h1
    · rw [List.eq_of_mem_replicate h0] at hlarge
      exact absurd hlarge (by decide)
    · exact List.mem_singleton.1 h1
  have hskip : stopFrom (ofList (wrapped n)) 1 0 0 = stopFrom (ofList (wrapped n)) 1 0 960 := by
    refine stopFrom_skip (by decide) (by decide) (by decide) fun m hm _ hlt => ?_
    rw [hcount, if_neg (by omega)]
  have hin : 960 < kBuckets := by decide
  rw [stopAt, hskip, stopFrom, dif_pos hin]
  dsimp only
  rw [hcount, if_pos rfl, if_pos (by decide), hmax]
  exact if_pos (by decide +kernel)

theorem kth_wrapped {n : Nat} (hn : 0 < n) : kth ((wrapped n).map UInt64.toNat) 1 = some 0 := by
  obtain ⟨x, hx⟩ := Lib.kth_isSome (l := (wrapped n).map UInt64.toNat) (k := 1) (by decide) (by simp [wrapped])
  have hzero : (0 : Nat) ∈ (wrapped n).map UInt64.toNat :=
    List.mem_map.2 ⟨0, List.mem_append_left _ (List.mem_replicate.2 ⟨by omega, rfl⟩), rfl⟩
  have hle : decide (x ≤ 0) = true := by
    refine (Lib.le_countP_iff (p := fun m => decide (m ≤ 0)) (fun a b hab hb => ?_) (by decide) hx).1 ?_
    · rw [decide_eq_true_iff] at hb ⊢
      omega
    · exact List.countP_pos_iff.2 ⟨0, hzero, by decide⟩
  obtain rfl : x = 0 := Nat.le_zero.1 (of_decide_eq_true hle)
  exact hx

/-- A bucket that counted `2 ^ 64` values looks empty: rank one is found in the bucket of the maximum. -/
theorem histogram_wraps : ¬ ∀ values : List UInt64, ∀ k : UInt64, 1 ≤ k.toNat → k.toNat ≤ values.length →
    ∀ x, kth (values.map UInt64.toNat) k.toNat = some x →
      ((ofList values).stopAt k).toNat ≤ x + x / 16 := by
  intro h
  have hlen : (1 : UInt64).toNat ≤ (wrapped (2 ^ 64)).length := by
    rw [wrapped, List.length_append, List.length_singleton]
    exact Nat.le_add_left 1 _
  have hle := h (wrapped (2 ^ 64)) 1 (by decide) hlen 0 (kth_wrapped (by decide))
  rw [stopAt_wrapped (by decide)] at hle
  exact absurd hle (by decide)

end LatencyHistogram

end Stok
