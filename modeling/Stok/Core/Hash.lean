import Stok.Core.Word

/-!
# Hashes (`core/hash.hpp`)
-/

namespace Stok

/-- The splitmix64 finalizer. -/
def mix64 (x : UInt64) : UInt64 :=
  let x := x ^^^ (x >>> 30)
  let x := x * 0xbf58476d1ce4e5b9
  let x := x ^^^ (x >>> 27)
  let x := x * 0x94d049bb133111eb
  x ^^^ (x >>> 31)

/-- Low and high half of the 128-bit product. -/
def mum (a b : UInt64) : UInt64 :=
  UInt64.ofNat (a.toNat * b.toNat) ^^^ UInt64.ofNat (a.toNat * b.toNat / 2 ^ 64)

/-- Up to eight bytes as a little-endian word. -/
def loadLe (p : Bytes) : UInt64 :=
  (p.take 8).foldr (fun c v => v * 256 + UInt64.ofNat c.toNat) 0

/-- The rounds of sixteen bytes, the one of eight and the tail. -/
def hashRounds (h : UInt64) : Bytes → UInt64
  | a0 :: a1 :: a2 :: a3 :: a4 :: a5 :: a6 :: a7 :: b0 :: b1 :: b2 :: b3 :: b4 :: b5 :: b6 :: b7 ::
      p =>
    hashRounds (mum (h ^^^ loadLe [a0, a1, a2, a3, a4, a5, a6, a7]) 0xa0761d6478bd642f ^^^
      mum (loadLe [b0, b1, b2, b3, b4, b5, b6, b7]) 0xe7037ed1a0b428db) p
  | p =>
    let (h, p) :=
      if 8 ≤ p.length then (mum (h ^^^ loadLe p) 0xa0761d6478bd642f, p.drop 8) else (h, p)
    mum (h ^^^ loadLe p) 0x8ebc6af09c88c6e3

def hashBytes (s : Bytes) : UInt64 :=
  let seed : UInt64 := 0x2d358dccaa6c78a5
  mix64 (hashRounds (seed ^^^ mum (UInt64.ofNat s.length) 0x9E3779B97F4A7C15) s)

end Stok
