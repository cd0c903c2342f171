import Stok.Core.Dbl

/-!
# Dates and times

The calendar and the US Eastern clock of `util/time.cpp`. Instants are integers, seconds or
nanoseconds since the epoch; the source's divisions truncate (`Int.tdiv`) and are
adjusted by hand for negative values, as here.
-/

namespace Stok.Time

/-- The conversion of a 64-bit value to `int`. -/
def toInt (x : Int) : Int := x.bmod (2 ^ 32)

def daysFromCivil (y : Int) (m d : Nat) : Int :=
  let y := if m ≤ 2 then y - 1 else y
  let era := (if 0 ≤ y then y else y - 399).tdiv 400
  let yoe := (y - era * 400).toNat
  let doy := (153 * (if 2 < m then m - 3 else m + 9) + 2) / 5 + d - 1
  let doe := yoe * 365 + yoe / 4 - yoe / 100 + doy
  era * 146097 + doe - 719468

structure Civil where
  y : Int
  m : Nat
  d : Nat
  deriving DecidableEq, Repr

def civilFromDays (z : Int) : Civil :=
  let z := z + 719468
  let era := (if 0 ≤ z then z else z - 146096).tdiv 146097
  let doe := (z - era * 146097).toNat
  let yoe := (doe - doe / 1460 + doe / 36524 - doe / 146096) / 365
  let yy : Int := yoe + era * 400
  let doy := doe - (365 * yoe + yoe / 4 - yoe / 100)
  let mp := (5 * doy + 2) / 153
  let m := if mp < 10 then mp + 3 else mp - 9
  { y := toInt (yy + if m ≤ 2 then 1 else 0), m := m, d := doy - (153 * mp + 2) / 5 + 1 }

/-- 0 is Sunday. -/
def weekdayFromDays (z : Int) : Int := if -4 ≤ z then (z + 4).tmod 7 else (z + 5).tmod 7 + 6

def kNs : Int := 1000000000

/-- The day of an instant in seconds. -/
def dayOf (s : Int) : Int := (if 0 ≤ s then s else s - 86399).tdiv 86400

/-- Seconds from UTC to US Eastern time. -/
def easternUtcOffsetS (epochS : Int) : Int :=
  let y := (civilFromDays (dayOf epochS)).y
  let mar1 := daysFromCivil y 3 1
  let nov1 := daysFromCivil y 11 1
  let firstSunMar := mar1 + (7 - weekdayFromDays mar1).tmod 7
  let secondSunMar := firstSunMar + 7
  let firstSunNov := nov1 + (7 - weekdayFromDays nov1).tmod 7
  let dstStart := secondSunMar * 86400 + 7 * 3600
  let dstEnd := firstSunNov * 86400 + 6 * 3600
  if dstStart ≤ epochS ∧ epochS < dstEnd then -4 * 3600 else -5 * 3600

/-- The instant of 00:00 Eastern time. -/
def easternMidnightNs (y : Int) (m d : Nat) : Int :=
  let days := daysFromCivil y m d
  let off := easternUtcOffsetS (days * 86400 + 5 * 3600)
  (days * 86400 - off) * kNs

/-- The Eastern clock reading of an instant, in seconds. -/
def easternLocal (epochNs : Int) : Int :=
  let s := epochNs.tdiv kNs
  s + easternUtcOffsetS s

def easternDate (epochNs : Int) : Civil := civilFromDays (dayOf (easternLocal epochNs))

def easternMinuteOfDay (epochNs : Int) : Int :=
  let sod := (easternLocal epochNs).tmod 86400
  (if sod < 0 then sod + 86400 else sod).tdiv 60

/-- `%0wd` -/
def fmtInt (w : Nat) (x : Int) : Bytes :=
  if x < 0 then ch '-' :: Dbl.padded (w - 1) x.natAbs else Dbl.padded w x.natAbs

/-- `2026-09-25T14:05:12.123Z` -/
def formatUtcIso (epochNs : Int) : Bytes :=
  let s := if 0 ≤ epochNs then epochNs.tdiv kNs else (epochNs - kNs + 1).tdiv kNs
  let ms := (epochNs - s * kNs).tdiv 1000000
  let days := dayOf s
  let sod := s - days * 86400
  let c := civilFromDays days
  fmtInt 4 c.y ++ lit "-" ++ fmtInt 2 c.m ++ lit "-" ++ fmtInt 2 c.d ++ lit "T" ++
    fmtInt 2 (sod.tdiv 3600) ++ lit ":" ++ fmtInt 2 ((sod.tdiv 60).tmod 60) ++ lit ":" ++
    fmtInt 2 (sod.tmod 60) ++ lit "." ++ fmtInt 3 ms ++ lit "Z"

/-- `2026-09-25`, in a buffer of 16 bytes. -/
def easternDateStr (epochNs : Int) : Bytes :=
  let c := easternDate epochNs
  (fmtInt 4 c.y ++ lit "-" ++ fmtInt 2 c.m ++ lit "-" ++ fmtInt 2 c.d).take 15

/-- `14:05:12` -/
def easternHms (epochNs : Int) : Bytes :=
  let r := (easternLocal epochNs).tmod 86400
  let r := if r < 0 then r + 86400 else r
  fmtInt 2 (r.tdiv 3600) ++ lit ":" ++ fmtInt 2 ((r.tdiv 60).tmod 60) ++ lit ":" ++
    fmtInt 2 (r.tmod 60)

def parseYmd (s : Bytes) : Option Civil := do
  let s := trim s
  guard (10 ≤ s.length ∧ byteAt s 4 = ch '-' ∧ byteAt s 7 = ch '-')
  let y ← parseI32 (s.take 4)
  let m ← parseU32 ((s.drop 5).take 2)
  let d ← parseU32 ((s.drop 8).take 2)
  guard (1 ≤ m ∧ m ≤ 12 ∧ 1 ≤ d ∧ d ≤ 31)
  some { y := y, m := m.toNat, d := d.toNat }

end Stok.Time
