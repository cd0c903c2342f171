import Stok.Core.Word

/-!
# The ITCH 5.0 decoder (`market/itch.hpp`)

A message is a byte string whose fields are big-endian at fixed offsets. `decode`
answers `none` where the source returns `false`; otherwise it gives the call that
the source makes on its handler, with the message types the source knows but does
not use as `Msg.unused`.
-/

namespace Stok

namespace Itch

/-- The `n` bytes from offset `i` as a big-endian number. -/
def beNat (p : Bytes) (i : Nat) : Nat → Nat
  | 0 => 0
  | n + 1 => beNat p i n * 256 + (byteAt p (i + n)).toNat

/-- The `n` bytes from offset `i` as a little-endian number. -/
def leNat (p : Bytes) (i : Nat) : Nat → Nat
  | 0 => 0
  | n + 1 => (byteAt p i).toNat + 256 * leNat p (i + 1) n

def be16 (p : Bytes) (i : Nat) : UInt16 := .ofNat (beNat p i 2)

def be32 (p : Bytes) (i : Nat) : UInt32 := .ofNat (beNat p i 4)

def be64 (p : Bytes) (i : Nat) : UInt64 := .ofNat (beNat p i 8)

def be48 (p : Bytes) (i : Nat) : UInt64 := (be16 p i).toUInt64 <<< 32 ||| (be32 p (i + 2)).toUInt64

/-- The eight bytes of a stock symbol as a little-endian word. -/
def stockKey (p : Bytes) (i : Nat) : UInt64 := .ofNat (leNat p i 8)

/-- Expected length per message type (0 = unknown type). -/
def messageLength (type : UInt8) : Nat :=
  if type = ch 'S' then 12
  else if type = ch 'R' then 39
  else if type = ch 'H' then 25
  else if type = ch 'Y' then 20
  else if type = ch 'L' then 26
  else if type = ch 'V' then 35
  else if type = ch 'W' then 12
  else if type = ch 'K' then 28
  else if type = ch 'J' then 35
  else if type = ch 'h' then 21
  else if type = ch 'A' then 36
  else if type = ch 'F' then 40
  else if type = ch 'E' then 31
  else if type = ch 'C' then 36
  else if type = ch 'X' then 23
  else if type = ch 'D' then 19
  else if type = ch 'U' then 35
  else if type = ch 'P' then 44
  else if type = ch 'Q' then 40
  else if type = ch 'B' then 19
  else if type = ch 'I' then 50
  else if type = ch 'N' then 20
  else if type = ch 'O' then 48
  else 0

/-- The calls on a handler, with the arguments of the source. -/
inductive Msg where
  | systemEvent (ts : UInt64) (code : UInt8)
  | stockDirectory (locate : UInt16) (ts key : UInt64) (marketCategory financialStatus : UInt8)
      (roundLot : UInt32)
  | tradingAction (locate : UInt16) (ts key : UInt64) (state : UInt8) (reason : Bytes)
  | regSho (locate : UInt16) (ts : UInt64) (action : UInt8)
  | add (locate : UInt16) (ts ref : UInt64) (side : UInt8) (shares price : UInt32)
  | executed (locate : UInt16) (ts ref : UInt64) (shares : UInt32)
  | executedPrice (locate : UInt16) (ts ref : UInt64) (shares : UInt32) (printable : Bool)
      (price : UInt32)
  | cancel (locate : UInt16) (ts ref : UInt64) (shares : UInt32)
  | delete (locate : UInt16) (ts ref : UInt64)
  | replace (locate : UInt16) (ts oldRef newRef : UInt64) (shares price : UInt32)
  | trade (locate : UInt16) (ts : UInt64) (side : UInt8) (shares : UInt32) (key : UInt64)
      (price : UInt32)
  | cross (locate : UInt16) (ts shares key : UInt64) (price : UInt32) (crossType : UInt8)
  | broken (locate : UInt16) (ts matchNo : UInt64)
  | unused
  deriving Repr, DecidableEq

/-- `none`: the message is truncated or of unknown type. -/
def decode (p : Bytes) : Option Msg :=
  if p.length < 11 then none
  else
    let type := byteAt p 0
    let need := messageLength type
    if need = 0 ∨ p.length < need then none
    else
      let locate := be16 p 1
      let ts := be48 p 5
      if type = ch 'A' ∨ type = ch 'F' then
        some (.add locate ts (be64 p 11) (byteAt p 19) (be32 p 20) (be32 p 32))
      else if type = ch 'E' then some (.executed locate ts (be64 p 11) (be32 p 19))
      else if type = ch 'C' then
        some (.executedPrice locate ts (be64 p 11) (be32 p 19) (byteAt p 31 == ch 'Y') (be32 p 32))
      else if type = ch 'X' then some (.cancel locate ts (be64 p 11) (be32 p 19))
      else if type = ch 'D' then some (.delete locate ts (be64 p 11))
      else if type = ch 'U' then
        some (.replace locate ts (be64 p 11) (be64 p 19) (be32 p 27) (be32 p 31))
      else if type = ch 'P' then
        some (.trade locate ts (byteAt p 19) (be32 p 20) (stockKey p 24) (be32 p 32))
      else if type = ch 'Q' then
        some (.cross locate ts (be64 p 11) (stockKey p 19) (be32 p 27) (byteAt p 39))
      else if type = ch 'S' then some (.systemEvent ts (byteAt p 11))
      else if type = ch 'R' then
        some (.stockDirectory locate ts (stockKey p 11) (byteAt p 19) (byteAt p 20) (be32 p 21))
      else if type = ch 'H' then
        some (.tradingAction locate ts (stockKey p 11) (byteAt p 19) ((p.drop 21).take 4))
      else if type = ch 'Y' then some (.regSho locate ts (byteAt p 19))
      else if type = ch 'B' then some (.broken locate ts (be64 p 11))
      else some .unused

end Itch

end Stok
