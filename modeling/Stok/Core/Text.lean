import Mathlib.Data.List.TakeWhile
import Stok.Core.Ascii

/-!
# Inline strings

`FixedStr N` is the length-prefixed buffer of `core/fixed_string.hpp`, `CStr N` a
NUL-terminated array of `char`. Both carry the bound of their array, so a value that
does not fit cannot be built.
-/

namespace Stok

theorem pos_8 : 0 < 8 := by decide
theorem pos_12 : 0 < 12 := by decide
theorem pos_16 : 0 < 16 := by decide
theorem pos_192 : 0 < 192 := by decide
theorem pos_256 : 0 < 256 := by decide
theorem pos_320 : 0 < 320 := by decide
theorem pos_3072 : 0 < 3072 := by decide

/-- At most `N - 1` bytes. -/
structure FixedStr (N : Nat) where
  bytes : Bytes
  fits : bytes.length < N
  deriving DecidableEq, Repr

/-- A continuation byte of UTF-8. -/
def isCont (c : UInt8) : Bool := c &&& 0xC0 == 0x80

/-- The largest cut of `s` at or before `n` that splits no multi-byte sequence. -/
def utf8Cut (s : Bytes) : Nat → Nat
  | 0 => 0
  | n + 1 => if isCont (byteAt s (n + 1)) then utf8Cut s n else n + 1

theorem utf8Cut_le (s : Bytes) (n : Nat) : utf8Cut s n ≤ n := by
  induction n with
  | zero => exact le_rfl
  | succ n ih => unfold utf8Cut; split <;> omega

namespace FixedStr

variable {N : Nat}

def empty (h : 0 < N) : FixedStr N := ⟨[], h⟩

/-- How many bytes of `s` fit into `room`. -/
def cut (s : Bytes) (room : Nat) : Nat := if s.length ≤ room then s.length else utf8Cut s room

theorem cut_le (s : Bytes) (room : Nat) : cut s room ≤ room := by
  unfold cut
  split
  · assumption
  · exact utf8Cut_le s room

def assign (h : 0 < N) (s : Bytes) : FixedStr N :=
  ⟨s.take (cut s (N - 1)), by
    have := cut_le s (N - 1)
    rw [List.length_take]
    omega⟩

/-- Appends as much as fits. -/
def append (f : FixedStr N) (s : Bytes) : FixedStr N :=
  ⟨f.bytes ++ s.take (cut s (N - 1 - f.bytes.length)), by
    have := cut_le s (N - 1 - f.bytes.length)
    have := f.fits
    rw [List.length_append, List.length_take]
    omega⟩

/-- What fits is kept whole. -/
theorem assign_bytes (h : 0 < N) (f : FixedStr N) : assign h f.bytes = f := by
  have hf := f.fits
  have hcut : cut f.bytes (N - 1) = f.bytes.length := if_pos (by omega)
  cases f
  simp [assign, hcut]

end FixedStr

/-- The bytes of a C string: those before the first NUL. -/
def cstr (s : Bytes) : Bytes := s.takeWhile (· != 0)

theorem zero_notMem_cstr (s : Bytes) : 0 ∉ cstr s := by
  intro h
  have := List.mem_takeWhile_imp h
  simp at this

theorem cstr_eq_self {s : Bytes} (h : 0 ∉ s) : cstr s = s := by
  refine List.takeWhile_eq_self_iff.2 fun c hc => ?_
  simp only [bne_iff_ne]
  exact fun e => h (e ▸ hc)

/-- A NUL-terminated string in an array of `N` bytes. -/
structure CStr (N : Nat) where
  bytes : Bytes
  fits : bytes.length < N
  nulFree : 0 ∉ bytes
  deriving DecidableEq, Repr

namespace CStr

variable {N : Nat}

def empty (h : 0 < N) : CStr N := ⟨[], h, List.not_mem_nil⟩

/-- `snprintf(buf, N, "%s", s)` -/
def print (h : 0 < N) (s : Bytes) : CStr N :=
  ⟨(cstr s).take (N - 1), by rw [List.length_take]; omega,
    fun hm => zero_notMem_cstr s (List.mem_of_mem_take hm)⟩

theorem print_bytes (h : 0 < N) (c : CStr N) : print h c.bytes = c := by
  have hf := c.fits
  cases c with
  | mk bytes fits nulFree =>
    have : bytes.take (N - 1) = bytes := List.take_of_length_le (by omega)
    simp [print, cstr_eq_self nulFree, this]

end CStr

end Stok
