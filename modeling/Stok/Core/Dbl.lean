import Stok.Core.Ascii

/-!
# Double-precision numbers

What the source does with `double`, as a class of operations without laws: results
about code over `[Dbl F]` hold for whatever rounding the operations have. `ofRat` rounds a
literal or an integer to the nearest number, `toRat` is the exact value of a finite one.
Decimal text is modelled by its exact value: `fixed` prints as `%.*f` does, `fromCharsDbl`
reads as `std::from_chars` does. Exact arithmetic has no infinity and nothing that is not a
number; both are zero there.
-/

namespace Stok

class Dbl (F : Type) extends Add F, Sub F, Mul F, Div F, Neg F where
  ofRat : ℚ → F
  toRat : F → ℚ
  inf : F
  nan : F
  signBit : F → Bool
  isFinite : F → Bool
  lt : F → F → Bool
  le : F → F → Bool

/-- Exact arithmetic. -/
instance : Dbl ℚ where
  ofRat q := q
  toRat q := q
  inf := 0
  nan := 0
  signBit q := decide (q < 0)
  isFinite _ := true
  lt a b := decide (a < b)
  le a b := decide (a ≤ b)

namespace Dbl

variable {F : Type} [Dbl F]

/-- `std::max` -/
def max (a b : F) : F := if lt a b then b else a

/-- `std::min` -/
def min (a b : F) : F := if lt b a then b else a

/-- The conversion to an integer type, which drops the fraction. A value that the type does not
have is left as it is. -/
def trunc (v : F) : Int := if 0 ≤ toRat v then (toRat v).floor else -(-toRat v).floor

/-- `std::floor` of a finite number. -/
def floor (v : F) : F := ofRat ⌊toRat v⌋

/-- `std::lround`: the nearest integer, ties away from zero. -/
def lround (v : F) : Int := if 0 ≤ toRat v then (toRat v + 1 / 2).floor else -(1 / 2 - toRat v).floor

/-- The nearest integer to a non-negative `q`, ties to even. -/
def roundEven (q : ℚ) : Nat :=
  let n := q.floor.toNat
  let r := q - n
  if r < 1 / 2 then n else if 1 / 2 < r then n + 1 else n + n % 2

/-- The decimal digits of a number. -/
def digits (n : Nat) : Bytes := (Nat.toDigits 10 n).map ch

/-- The decimal text of an integer, as `std::to_string` writes it. -/
def intText (v : Int) : Bytes := if v < 0 then ch '-' :: digits v.natAbs else digits v.natAbs

/-- Digits with zeros before them, at least `w`. -/
def padded (w n : Nat) : Bytes := List.replicate (w - (digits n).length) (ch '0') ++ digits n

/-- `%.*f` of a finite number. -/
def fixed (prec : Nat) (v : F) : Bytes :=
  let n := roundEven (|toRat v| * 10 ^ prec)
  (if signBit v then [ch '-'] else []) ++ digits (n / 10 ^ prec) ++
    if prec = 0 then [] else ch '.' :: padded prec (n % 10 ^ prec)

/-- Magnitudes that `from_chars` reports as out of range: those that round to infinity, and
those other than zero that round to zero. -/
def outOfRange (q : ℚ) : Bool := 2 ^ 1024 - 2 ^ 970 ≤ q ∨ 0 < q ∧ q * 2 ^ 1075 ≤ 1

/-- The exponent after the mantissa of a number: its value, `0` when there is none. -/
def exponent : Bytes → Int
  | e :: s =>
    if e = ch 'e' ∨ e = ch 'E' then
      let neg := s.head? = some (ch '-')
      let t := if neg ∨ s.head? = some (ch '+') then s.tail else s
      let v : Int := digitsVal (t.takeWhile isDigit)
      if neg then -v else v
    else 0
  | [] => 0

/-- `std::from_chars` of a text into a `double`: `none` for an error. -/
def fromCharsDbl (s : Bytes) : Option F :=
  let neg := s.head? = some (ch '-')
  let t := if neg then s.tail else s
  let whole := t.takeWhile isDigit
  let r := t.dropWhile isDigit
  let frac := if r.head? = some (ch '.') then r.tail.takeWhile isDigit else []
  let r := if r.head? = some (ch '.') then r.tail.dropWhile isDigit else r
  if whole.isEmpty ∧ frac.isEmpty then none
  else
    let q : ℚ := digitsVal (whole ++ frac) * (10 : ℚ) ^ (exponent r - frac.length)
    if outOfRange q then none else some (if neg then -ofRat q else ofRat q)

/-- The texts of infinities and of what is not a number. -/
def special (s : Bytes) : Option F :=
  let neg := s.head? = some (ch '-')
  let t := toLowerCopy (if neg then s.tail else s)
  if t = lit "inf" ∨ t = lit "infinity" then some (if neg then -inf else inf)
  else if t = lit "nan" ∨ (t.take 4 = lit "nan(" ∧ 4 < t.length ∧ t.getLast? = some (ch ')') ∧
      ((t.drop 4).dropLast).all fun c => isAlnum c || c == ch '_') then
    some (if neg then -nan else nan)
  else none

/-- What `std::from_chars` leaves of a text after its number. -/
def afterNumber (s : Bytes) : Bytes :=
  let r := (if s.head? = some (ch '-') then s.tail else s).dropWhile isDigit
  let r := if r.head? = some (ch '.') then r.tail.dropWhile isDigit else r
  if r.head? = some (ch 'e') ∨ r.head? = some (ch 'E') then
    let t := if r[1]? = some (ch '-') ∨ r[1]? = some (ch '+') then r.drop 2 else r.drop 1
    if (t.takeWhile isDigit).isEmpty then r else t.dropWhile isDigit
  else r

/-- `parse_double`: the whole text, blanks aside, is a number. -/
def parseDouble (s : Bytes) : Option F :=
  let s := trim s
  let s := if s.head? = some (ch '+') then s.tail else s
  match special s with
  | some v => some v
  | none => if (afterNumber s).isEmpty then fromCharsDbl s else none

end Dbl

end Stok
