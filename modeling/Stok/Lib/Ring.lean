import Mathlib.Tactic

/-!
# Free-running ring indices

A ring of `2 ^ k` slots is indexed by 64-bit counters that only grow and wrap; a counter is
reduced to its slot by masking. Counters stand for the unbounded numbers they were counted
to: `UInt64.ofNat n` for the `n`-th place. Because `2 ^ k` divides `2 ^ 64`, slots and
distances computed from the counters are those of the numbers.
-/

namespace Stok.Lib.Ring

/-- `i & mask` for a ring of `2 ^ k` slots. -/
def slot (k : Nat) (i : UInt64) : Nat := (i &&& UInt64.ofNat (2 ^ k - 1)).toNat

theorem pow_pred_toNat {k : Nat} (hk : k < 64) : (UInt64.ofNat (2 ^ k - 1)).toNat = 2 ^ k - 1 := by
  have h1 : 2 ^ k < 2 ^ 64 := Nat.pow_lt_pow_right (by decide) hk
  rw [UInt64.toNat_ofNat', Nat.mod_eq_of_lt (by omega)]

theorem pow_toNat {k : Nat} (hk : k < 64) : (UInt64.ofNat (2 ^ k)).toNat = 2 ^ k := by
  rw [UInt64.toNat_ofNat', Nat.mod_eq_of_lt (Nat.pow_lt_pow_right (by decide) hk)]

theorem slot_ofNat {k : Nat} (hk : k < 64) (n : Nat) : slot k (.ofNat n) = n % 2 ^ k := by
  rw [slot, UInt64.toNat_and, pow_pred_toNat hk, Nat.and_two_pow_sub_one_eq_mod,
    UInt64.toNat_ofNat', Nat.mod_mod_of_dvd _ (Nat.pow_dvd_pow 2 hk.le)]

theorem ofNat_succ (n : Nat) : UInt64.ofNat n + 1 = .ofNat (n + 1) := by
  rw [← UInt64.toNat_inj, UInt64.toNat_add, UInt64.toNat_ofNat', UInt64.toNat_ofNat']
  simp

/-- The wrapped difference of two counters is the distance of their numbers. -/
theorem toNat_ofNat_sub {m n : Nat} (h : m ≤ n) (hlt : n < m + 2 ^ 64) :
    (UInt64.ofNat n - UInt64.ofNat m).toNat = n - m := by
  rw [UInt64.toNat_sub, UInt64.toNat_ofNat', UInt64.toNat_ofNat']
  omega

theorem ofNat_eq_iff {m n : Nat} (h : m ≤ n) (hlt : n < m + 2 ^ 64) :
    UInt64.ofNat m = UInt64.ofNat n ↔ m = n := by
  rw [← UInt64.toNat_inj, UInt64.toNat_ofNat', UInt64.toNat_ofNat']
  omega

/-- Numbers less than a ring apart that share a slot are equal. -/
theorem eq_of_mod_eq {c m n : Nat} (hle : m ≤ n) (hlt : n < m + c) (h : m % c = n % c) : m = n := by
  obtain ⟨d, rfl⟩ := Nat.exists_eq_add_of_le hle
  have hd : d % c = 0 := by
    have := (Nat.ModEq.add_left_cancel' m (show m + 0 ≡ m + d [MOD c] from h)).symm
    simpa [Nat.ModEq] using this
  rw [Nat.mod_eq_of_lt (by omega)] at hd
  omega

/-- A power of two that fits a `size_t`. -/
structure Cap where
  shift : Nat
  lt : shift < 64

namespace Cap

def size (c : Cap) : Nat := 2 ^ c.shift

def size64 (c : Cap) : UInt64 := .ofNat (2 ^ c.shift)

/-- `i & mask_`. -/
def slot (c : Cap) (i : UInt64) : Nat := Ring.slot c.shift i

theorem size_pos (c : Cap) : 0 < c.size := Nat.two_pow_pos _

theorem size_le (c : Cap) : c.size ≤ 2 ^ 63 :=
  Nat.pow_le_pow_right (by decide) (Nat.le_of_lt_succ c.lt)

theorem slot_ofNat (c : Cap) (n : Nat) : c.slot (.ofNat n) = n % c.size := Ring.slot_ofNat c.lt n

/-- The test `t - h >= cap_` on counters at most a ring apart. -/
theorem size64_le (c : Cap) {m n : Nat} (h : m ≤ n) (hn : n ≤ m + c.size) :
    UInt64.ofNat n - UInt64.ofNat m ≥ c.size64 ↔ m + c.size ≤ n := by
  have h1 := c.size_le
  have h2 : c.size64.toNat = c.size := pow_toNat c.lt
  rw [ge_iff_le, UInt64.le_iff_toNat_le, h2, toNat_ofNat_sub h (by omega)]
  omega

end Cap

end Stok.Lib.Ring
