import Stok.Core.Hash
import Stok.Core.Text

/-!
# Text helpers

UTF-8 encoding, the escaping of JSON strings and the key of a headline, from
`util/text.cpp`.
-/

namespace Stok.Text

/-- The UTF-8 encoding of a code point; nothing above `0x10FFFF`. -/
def utf8 (cp : Nat) : Bytes :=
  if cp < 0x80 then [.ofNat cp]
  else if cp < 0x800 then [.ofNat (0xC0 + cp / 64), .ofNat (0x80 + cp % 64)]
  else if cp < 0x10000 then
    [.ofNat (0xE0 + cp / 4096), .ofNat (0x80 + cp / 64 % 64), .ofNat (0x80 + cp % 64)]
  else if cp < 0x110000 then
    [.ofNat (0xF0 + cp / 262144), .ofNat (0x80 + cp / 4096 % 64), .ofNat (0x80 + cp / 64 % 64),
      .ofNat (0x80 + cp % 64)]
  else []

/-- A lower-case hexadecimal digit. -/
def hexDigit (n : Nat) : UInt8 := .ofNat (if n < 10 then 48 + n else 87 + n)

def escapeByte (c : UInt8) : Bytes :=
  if c = ch '"' then [ch '\\', ch '"']
  else if c = ch '\\' then [ch '\\', ch '\\']
  else if c = 10 then [ch '\\', ch 'n']
  else if c = 13 then [ch '\\', ch 'r']
  else if c = 9 then [ch '\\', ch 't']
  else if c = 8 then [ch '\\', ch 'b']
  else if c = 12 then [ch '\\', ch 'f']
  else if c < 0x20 then
    [ch '\\', ch 'u', ch '0', ch '0', hexDigit (c.toNat / 16), hexDigit (c.toNat % 16)]
  else [c]

/-- What `append_json_escaped` appends. -/
def jsonEscaped (s : Bytes) : Bytes := s.flatMap escapeByte

/-- The normalised headline in `buf`, at most 511 bytes, when `n` of them are written. -/
def headlineFrom (n : Nat) (sep : Bool) : Bytes → Bytes
  | [] => []
  | c :: title =>
    if 511 ≤ n then []
    else if isAlnum c then toLower c :: headlineFrom (n + 1) false title
    else if sep then headlineFrom n sep title
    else 32 :: headlineFrom (n + 1) true title

def headlineKey (title : Bytes) : UInt64 :=
  hashBytes ((headlineFrom 0 true title).reverse.dropWhile (· == 32)).reverse

end Stok.Text
