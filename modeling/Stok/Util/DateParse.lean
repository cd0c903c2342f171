import Stok.Util.CivilDates

/-!
# Reading dates

The date parsers of `util/time.cpp`. A cursor is the text that is left; what a parser reads is a
`Stamp`, and the instant of a stamp is computed in 64-bit integers, step by step as the source does
(`i64`), so that an overflow shows.
-/

namespace Stok.Time

/-! ## The cursor -/

/-- NUL at the end. -/
def peek (s : Bytes) : UInt8 := s.headD 0

def skipWs (s : Bytes) : Bytes := s.dropWhile fun c => isSpace c || c == ch ','

/-- At most `maxDigits` digits: their value, or −1 if there are none, how many there are, and the
text after them. -/
def readInt (maxDigits : Nat) (s : Bytes) : Int × Nat × Bytes :=
  let ds := (s.take maxDigits).takeWhile isDigit
  (if ds = [] then -1 else digitsVal ds, ds.length, s.drop ds.length)

def readAlpha (s : Bytes) : Bytes × Bytes := (s.takeWhile isAlpha, s.dropWhile isAlpha)

def kMonths : List Bytes :=
  ["jan", "feb", "mar", "apr", "may", "jun", "jul", "aug", "sep", "oct", "nov", "dec"].map lit

/-- 0 if there is no such month. -/
def monthFromName (n : Bytes) : Nat :=
  if n.length < 3 then 0
  else match kMonths.findIdx? (toLowerCopy (n.take 3) == ·) with
    | some k => k + 1
    | none => 0

def kZones : List (Bytes × Int) :=
  [("gmt", 0), ("ut", 0), ("utc", 0), ("z", 0), ("est", -5), ("edt", -4), ("cst", -6), ("cdt", -5),
   ("mst", -7), ("mdt", -6), ("pst", -8), ("pdt", -7), ("bst", 1), ("cet", 1), ("cest", 2)].map
    fun z => (lit z.1, z.2 * 3600)

/-- Two digits at `k`, if there are. -/
def twoDigits (r : Bytes) (k : Nat) : Option Nat :=
  if k + 2 ≤ r.length ∧ isDigit (byteAt r k) ∧ isDigit (byteAt r (k + 1)) then
    some (((byteAt r k).toNat - 48) * 10 + ((byteAt r (k + 1)).toNat - 48))
  else none

/-- Seconds from UTC of a zone token, none (the source's `INT32_MIN`) if it is unknown. -/
def zoneOffsetS : Bytes → Option Int
  | [] => some 0
  | c :: r =>
    if c = ch '+' ∨ c = ch '-' then
      let sign : Int := if c = ch '-' then -1 else 1
      match twoDigits r 0 with
      | some hh =>
        if 4 ≤ r.length then
          let k := if byteAt r 2 = ch ':' then 3 else 2
          some (sign * (hh * 3600 + (twoDigits r k).getD 0 * 60))
        else if r.length = 2 then some (sign * hh * 3600)
        else none
      | none => none
    else (kZones.find? fun z => iequals (c :: r) z.1).map (·.2)

/-! ## The fields of a date -/

structure Stamp where
  y : Int
  mo : Nat
  d : Nat
  hh : Int
  mi : Int
  ss : Int
  off : Int
  fracNs : Int
  deriving DecidableEq, Repr

/-- `HH:MM` or `HH:MM:SS`. (`parse_rfc822`, which does not check `hh`, has seen a digit.) -/
def readClock (s : Bytes) : Option (Int × Int × Int × Bytes) := do
  let (hh, _, c) := readInt 2 s
  guard (0 ≤ hh ∧ peek c = ch ':')
  let (mi, _, c) := readInt 2 c.tail
  guard (0 ≤ mi)
  if peek c = ch ':' then
    let (ss, _, c) := readInt 2 c.tail
    guard (0 ≤ ss)
    return (hh, mi, ss, c)
  return (hh, mi, 0, c)

def skipDash (s : Bytes) : Bytes := s.dropWhile fun c => c == ch ' ' || c == ch '-'

/-- `Thu, 25 Sep 2026 12:00:00 GMT` -/
def rfc822Stamp (s : Bytes) : Option Stamp := do
  let c := skipWs (trim s)
  let c := if isAlpha (peek c) then skipWs (readAlpha c).2 else c
  let (day, _, c) := readInt 2 c
  guard (1 ≤ day ∧ day ≤ 31)
  let (name, c) := readAlpha (skipDash c)
  let mon := monthFromName name
  guard (mon ≠ 0)
  let (year, ydigits, c) := readInt 4 (skipDash c)
  guard (0 ≤ year)
  let year := if ydigits = 2 then year + (if year < 70 then 2000 else 1900) else year
  let c := skipWs c
  let clock := if isDigit (peek c) then readClock c else some (0, 0, 0, c)
  let (hh, mi, ss, c) ← clock
  let off := (zoneOffsetS (trim (skipWs c))).getD 0
  return { y := year, mo := mon, d := day.toNat, hh := hh, mi := mi, ss := ss, off := off, fracNs := 0 }

/-- Digits after a point in units of `10 ^ -k`, and the text after them. -/
def readFrac (k : Nat) (s : Bytes) : Int × Bytes :=
  let (f, nd, c) := readInt k s
  (if 0 < f then f * 10 ^ (k - nd) else 0, c)

/-- `2026-09-25T10:14:32-04:00` -/
def iso8601Stamp (s : Bytes) : Option Stamp := do
  let (y, _, c) := readInt 4 (trim s)
  guard (0 ≤ y ∧ peek c = ch '-')
  let (mo, _, c) := readInt 2 c.tail
  guard (1 ≤ mo ∧ mo ≤ 12 ∧ peek c = ch '-')
  let (d, _, c) := readInt 2 c.tail
  guard (1 ≤ d ∧ d ≤ 31)
  if peek c = ch 'T' ∨ peek c = ch 't' ∨ peek c = ch ' ' then
    let (hh, mi, ss, c) ← readClock c.tail
    let (frac, c) :=
      if peek c = ch '.' ∨ peek c = ch ',' then
        let (f, c) := readFrac 9 c.tail
        (f, c.dropWhile isDigit)
      else (0, c)
    let off ← zoneOffsetS c
    return { y := y, mo := mo.toNat, d := d.toNat, hh := hh, mi := mi, ss := ss, off := off, fracNs := frac }
  return { y := y, mo := mo.toNat, d := d.toNat, hh := 0, mi := 0, ss := 0, off := 0, fracNs := 0 }

/-- `MM/DD/YYYY` and `HH:MM:SS.fff`, a US Eastern time. -/
def easternStamp (mdy hms : Bytes) : Option Stamp := do
  let (mo, _, c) := readInt 2 (trim mdy)
  guard (1 ≤ mo ∧ mo ≤ 12 ∧ peek c = ch '/')
  let (d, _, c) := readInt 2 c.tail
  guard (1 ≤ d ∧ d ≤ 31 ∧ peek c = ch '/')
  let (y, _, _) := readInt 4 c.tail
  guard (1900 ≤ y)
  let t := trim hms
  let clock := if t = [] then some (0, 0, 0, t) else readClock t
  let (hh, mi, ss, t) ← clock
  let ms := if peek t = ch '.' then (readFrac 3 t.tail).1 else 0
  let off := easternUtcOffsetS (daysFromCivil y mo.toNat d.toNat * 86400 + 5 * 3600)
  return { y := y, mo := mo.toNat, d := d.toNat, hh := hh, mi := mi, ss := ss, off := off,
           fracNs := ms * 1000000 }

/-! ## Instants in 64-bit integers -/

/-- The result of a signed 64-bit operation, none on overflow. -/
def i64 (x : Int) : Option Int := if -2 ^ 63 ≤ x ∧ x < 2 ^ 63 then some x else none

namespace Stamp

def days (t : Stamp) : Int := daysFromCivil t.y t.mo t.d

/-- The time of day in seconds. -/
def clock (t : Stamp) : Option Int := do
  let h ← i64 (t.hh * 3600)
  let m ← i64 (t.mi * 60)
  let hm ← i64 (h + m)
  i64 (hm + t.ss)

def secs (t : Stamp) : Option Int := do
  let d ← i64 (t.days * 86400)
  let h ← i64 (t.hh * 3600)
  let dh ← i64 (d + h)
  let m ← i64 (t.mi * 60)
  let dhm ← i64 (dh + m)
  let s ← i64 (dhm + t.ss)
  i64 (s - t.off)

/-- `eastern_midnight_ns` -/
def midnightNs (t : Stamp) : Option Int := do
  let d ← i64 (t.days * 86400)
  let s ← i64 (d - t.off)
  i64 (s * kNs)

end Stamp

/-- None if a step overflows; otherwise what the source returns. -/
def parseRfc822 (s : Bytes) : Option (Option Int) :=
  match rfc822Stamp s with
  | none => some none
  | some t => do
    let secs ← t.secs
    let v ← i64 (secs * kNs)
    return some v

def parseIso8601 (s : Bytes) : Option (Option Int) :=
  match iso8601Stamp s with
  | none => some none
  | some t => do
    let secs ← t.secs
    let ns ← i64 (secs * kNs)
    let v ← i64 (ns + t.fracNs)
    return some v

def parseEasternMdyTime (mdy hms : Bytes) : Option (Option Int) :=
  match easternStamp mdy hms with
  | none => some none
  | some t => do
    let midnight ← t.midnightNs
    let clock ← t.clock
    let ns ← i64 (clock * kNs)
    let sum ← i64 (midnight + ns)
    let v ← i64 (sum + t.fracNs)
    return some v

end Stok.Time
