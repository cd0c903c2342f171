import Mathlib
import Stok.Core.Hash
import Stok.Lib.LinearProbing

/-!
# The open-addressing map (`core/flat_hash.hpp`)

`FlatMap64 V` is the source's table: a vector of slots, each a key and a value,
where the key `kEmpty` marks an empty slot. An emptied slot keeps its old value,
as in the source. Sizes and slot indices are naturals: a table large enough for
a `size_t` computation to wrap does not fit in memory.

A probe loop that finds no slot to stop at would run for ever. The loops here
carry the capacity as fuel and answer `none` in that case; `FlatMap64.WF` rules
it out, and `Table V` bundles a table with that invariant so that its
operations are total. `toFinmap` is the finite map a table stands for.
-/

namespace Stok

open Stok.Lib.Probing

/-- `while (p < v) p <<= 1`. -/
def nextPow2Loop (v : Nat) : Nat → Nat → Nat
  | 0, p => p
  | fuel + 1, p => if p < v then nextPow2Loop v fuel (p <<< 1) else p

def nextPow2 (v : Nat) : Nat := nextPow2Loop v v 1

/-- Round a nonnegative rational to the nearest double, ties to even. -/
def roundDouble (q : ℚ) : ℚ :=
  if q ≤ 0 then 0
  else
    let e : ℤ := Nat.log2 q.num.toNat - Nat.log2 q.den - 53
    let m := q / 2 ^ e
    let (e, m) := if m < 2 ^ 53 then (e, m) else (e + 1, m / 2)
    let f := ⌊m⌋
    let r := m - f
    let up := r > 1 / 2 ∨ r = 1 / 2 ∧ f % 2 = 1
    (if up then f + 1 else f : ℤ) * 2 ^ e

structure Slot (V : Type) where
  key : UInt64
  value : V
  deriving Repr, DecidableEq

structure FlatMap64 (V : Type) where
  slots : List (Slot V)
  mask : Nat
  size : Nat
  growAt : Nat
  maxLoad : ℚ
  deriving DecidableEq

/-- The reserved key that marks an empty slot. -/
def kEmpty : UInt64 := 0xFFFFFFFFFFFFFFFF

/-- The double nearest to `0.7`, the default load factor. -/
def defaultLoad : ℚ := 3152519739159347 / 2 ^ 52

namespace FlatMap64

variable {V : Type} [Inhabited V]

def capacity (m : FlatMap64 V) : Nat := m.slots.length

def slot (m : FlatMap64 V) (i : Nat) : Slot V := m.slots.getD i ⟨kEmpty, default⟩

def index (m : FlatMap64 V) (key : UInt64) : Nat := (mix64 key).toNat &&& m.mask

/-- The source's `for (;;)` over slots: stop at the first slot that satisfies `stop`. -/
def probe (m : FlatMap64 V) (stop : Slot V → Bool) : Nat → Nat → Option Nat
  | 0, _ => none
  | fuel + 1, i => if stop (m.slot i) then some i else m.probe stop fuel ((i + 1) &&& m.mask)

/-- A table of `cap` empty slots. The product of a power of two and a double is exact. -/
def blank (cap : Nat) (maxLoad : ℚ) : FlatMap64 V where
  slots := List.replicate cap ⟨kEmpty, default⟩
  mask := cap - 1
  size := 0
  growAt := ⌊(cap : ℚ) * maxLoad⌋₊
  maxLoad := maxLoad

/-- Re-insertion of one occupied slot during a rehash. -/
def place (m : FlatMap64 V) (s : Slot V) : Option (FlatMap64 V) := do
  let i ← m.probe (fun s => s.key == kEmpty) m.capacity (m.index s.key)
  return { m with slots := m.slots.set i s, size := m.size + 1 }

def rehash (m : FlatMap64 V) (newCap : Nat) : Option (FlatMap64 V) :=
  m.slots.foldlM (fun n s => if s.key == kEmpty then some n else n.place s)
    (blank newCap m.maxLoad)

/-- The constructor. -/
def mk' (initialCapacity : Nat) (maxLoad : ℚ := defaultLoad) : FlatMap64 V :=
  blank (nextPow2 (if initialCapacity < 8 then 8 else initialCapacity)) maxLoad

/-- The slot `find` returns a pointer into. Looking for `kEmpty` stops at an empty slot. -/
def findSlot (m : FlatMap64 V) (key : UInt64) : Option (Option Nat) := do
  let i ← m.probe (fun s => s.key == key || s.key == kEmpty) m.capacity (m.index key)
  return if (m.slot i).key == key then some i else none

def find (m : FlatMap64 V) (key : UInt64) : Option (Option V) := do
  let r ← m.findSlot key
  return r.map fun i => (m.slot i).value

def contains (m : FlatMap64 V) (key : UInt64) : Option Bool := do
  return (← m.find key).isSome

/-- Assignment through a pointer to the value of slot `i`. -/
def write (m : FlatMap64 V) (i : Nat) (v : V) : FlatMap64 V :=
  { m with slots := m.slots.set i ⟨(m.slot i).key, v⟩ }

/-- The growth step of `try_emplace`. -/
def grow (m : FlatMap64 V) : Option (FlatMap64 V) :=
  if m.size + 1 > m.growAt then m.rehash (m.capacity * 2) else some m

/-- Returns the table, the slot of the key and whether it was inserted. -/
def tryEmplace (m : FlatMap64 V) (key : UInt64) : Option (FlatMap64 V × Nat × Bool) := do
  let m ← m.grow
  let i ← m.probe (fun s => s.key == key || s.key == kEmpty) m.capacity (m.index key)
  if (m.slot i).key == key then return (m, i, false)
  return ({ m with slots := m.slots.set i ⟨key, default⟩, size := m.size + 1 }, i, true)

def insertOrAssign (m : FlatMap64 V) (key : UInt64) (v : V) : Option (FlatMap64 V) := do
  let (m, i, _) ← m.tryEmplace key
  return m.write i v

/-- Write through the pointer returned by `find`, if there is one. -/
def modify (m : FlatMap64 V) (key : UInt64) (f : V → V) : Option (FlatMap64 V) := do
  match ← m.findSlot key with
  | none => return m
  | some i => return m.write i (f (m.slot i).value)

/-- The backward-shift loop of `erase`. -/
def shift (m : FlatMap64 V) : Nat → Nat → Nat → Option (FlatMap64 V)
  | 0, _, _ => none
  | fuel + 1, hole, j =>
    let j := (j + 1) &&& m.mask
    let sj := m.slot j
    if sj.key == kEmpty then
      some { m with slots := m.slots.set hole ⟨kEmpty, (m.slot hole).value⟩ }
    else
      let ideal := m.index sj.key
      let movable := if hole ≤ j then decide (ideal ≤ hole) || decide (ideal > j)
        else decide (ideal ≤ hole) && decide (ideal > j)
      if movable then { m with slots := m.slots.set hole sj }.shift fuel j j
      else m.shift fuel hole j

def erase (m : FlatMap64 V) (key : UInt64) : Option (FlatMap64 V × Bool) := do
  let i ← m.probe (fun s => s.key == kEmpty || s.key == key) m.capacity (m.index key)
  if (m.slot i).key == kEmpty then return (m, false)
  let m ← m.shift m.capacity i i
  return ({ m with size := m.size - 1 }, true)

def clear (m : FlatMap64 V) : FlatMap64 V :=
  { m with slots := m.slots.map fun s => ⟨kEmpty, s.value⟩, size := 0 }

def reserve (m : FlatMap64 V) (n : Nat) : Option (FlatMap64 V) :=
  let want := nextPow2 (⌊roundDouble (roundDouble n / m.maxLoad)⌋₊ + 1)
  if want > m.capacity then m.rehash want else some m

/-- The bindings in the order `for_each` visits them. -/
def forEach (m : FlatMap64 V) : List (UInt64 × V) :=
  (m.slots.filter fun s => s.key != kEmpty).map fun s => (s.key, s.value)

end FlatMap64

end Stok
