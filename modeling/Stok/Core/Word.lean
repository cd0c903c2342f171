import Mathlib.Tactic

/-!
# Bytes and machine words

Byte strings are lists of bytes. 64-bit sequence numbers, sizes and clock readings
are naturals below `2 ^ 64` with the source's wrapping sum and difference; numbers
the source keeps in narrower words are of those types.
-/

namespace Stok

abbrev Bytes := List UInt8

/-- The byte of a character of the source. -/
abbrev ch (c : Char) : UInt8 := .ofNat c.toNat

/-- To check all bytes is to check the numbers below 256. -/
theorem byte_forall {p : UInt8 → Prop} (h : ∀ n < 256, p (UInt8.ofNat n)) (c : UInt8) : p c := by
  have := h c.toNat c.toNat_lt
  rwa [UInt8.ofNat_toNat] at this

/-- To check every element of a list with those before it is to check them one by one. -/
theorem forall_splits_cons {α : Type} {P : List α → α → Prop} {a : α} {l : List α} :
    (∀ past c rest, a :: l = past ++ c :: rest → P past c) ↔
      P [] a ∧ ∀ past c rest, l = past ++ c :: rest → P (a :: past) c := by
  constructor
  · intro h
    exact ⟨h [] a l rfl, fun past c rest hl => h (a :: past) c rest (by rw [hl]; rfl)⟩
  · rintro ⟨ha, hl⟩ past c rest h
    cases past with
    | nil =>
      obtain ⟨rfl, -⟩ := List.cons.inj h
      exact ha
    | cons b past =>
      obtain ⟨rfl, htail⟩ := List.cons.inj h
      exact hl past c rest htail

def byteAt (p : Bytes) (i : Nat) : UInt8 := p.getD i 0

theorem byteAt_drop (p : Bytes) (off i : Nat) : byteAt (p.drop off) i = byteAt p (off + i) := by
  simp [byteAt, List.getD_eq_getElem?_getD]

def add64 (a b : Nat) : Nat := (UInt64.ofNat a + UInt64.ofNat b).toNat

def sub64 (a b : Nat) : Nat := (UInt64.ofNat a - UInt64.ofNat b).toNat

theorem add64_eq {a b : Nat} (h : a + b < 2 ^ 64) : add64 a b = a + b := by
  simp only [add64, UInt64.toNat_add, UInt64.toNat_ofNat']
  omega

theorem sub64_eq {a b : Nat} (ha : a < 2 ^ 64) (h : b ≤ a) : sub64 a b = a - b := by
  simp only [sub64, UInt64.toNat_sub, UInt64.toNat_ofNat']
  omega

/-- An `int` of milliseconds as a 64-bit count of nanoseconds. -/
def msToNs (ms : Int) : Nat := (ms * 1000000 % 2 ^ 64).toNat

def kNsPerSec : UInt64 := 1000000000

/-- The conversion of an `int` to a 64-bit word. -/
def toU64 (v : Int) : UInt64 := .ofNat (v % 2 ^ 64).toNat

/-- The conversion of a 32-bit word to `int32_t`. -/
def toInt32 (v : UInt32) : Int := v.toInt32.toInt

end Stok
