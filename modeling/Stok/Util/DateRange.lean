import Stok.Core.Decimal
import Stok.Util.DateParse

/-!
# The range of the date parsers

What the parsers read is bounded (`Stamp.Bounded`), but years go up to 9999 and an instant in
nanoseconds only to April 2262: the arithmetic is exact on the stamps of the years between
(`Stamp.Representable`) and overflows on all others.
-/

namespace Stok.Time

/-! ## What is read -/

theorem guard_bind_eq_some {p : Prop} [Decidable p] {α : Type} {f : Option α} {b : α} :
    ((guard p : Option Unit).bind fun _ => f) = some b ↔ p ∧ f = some b := by
  by_cases h : p <;> simp [guard, h]

theorem readInt_digits (k : Nat) (s : Bytes) :
    (readInt k s).2.1 ≤ k ∧ -1 ≤ (readInt k s).1 ∧ (readInt k s).1 < 10 ^ (readInt k s).2.1 := by
  have hdigits : ∀ c ∈ (s.take k).takeWhile isDigit, isDigit c = true :=
    fun c hc => List.mem_takeWhile_imp hc
  have hval : (digitsVal ((s.take k).takeWhile isDigit) : Int) < 10 ^ ((s.take k).takeWhile isDigit).length := by
    exact_mod_cast Dbl.digitsVal_lt hdigits
  refine ⟨(List.takeWhile_prefix _).length_le.trans (List.length_take_le ..), ?_⟩
  simp only [readInt]
  split
  · rename_i hnil
    rw [hnil]
    decide
  · exact ⟨by omega, hval⟩

theorem readInt_lt (k : Nat) (s : Bytes) : (readInt k s).1 < 10 ^ k := by
  obtain ⟨hle, -, hlt⟩ := readInt_digits k s
  exact hlt.trans_le (pow_le_pow_right₀ (by decide) hle)

theorem readClock_bounds {s : Bytes} {hh mi ss : Int} {c : Bytes} (h : readClock s = some (hh, mi, ss, c)) :
    (0 ≤ hh ∧ hh ≤ 99) ∧ (0 ≤ mi ∧ mi ≤ 99) ∧ 0 ≤ ss ∧ ss ≤ 99 := by
  unfold readClock at h
  simp only [Option.bind_eq_bind, guard_bind_eq_some] at h
  obtain ⟨⟨hhh, -⟩, hmi, h⟩ := h
  have h1 := readInt_lt 2 s
  have h2 := readInt_lt 2 (readInt 2 s).2.2.tail
  have h3 := readInt_lt 2 (readInt 2 (readInt 2 s).2.2.tail).2.2.tail
  split at h
  · obtain ⟨hss, h⟩ := guard_bind_eq_some.mp h
    cases h
    exact ⟨⟨hhh, Int.le_of_lt_add_one h1⟩, ⟨hmi, Int.le_of_lt_add_one h2⟩, hss, Int.le_of_lt_add_one h3⟩
  · cases h
    exact ⟨⟨hhh, Int.le_of_lt_add_one h1⟩, ⟨hmi, Int.le_of_lt_add_one h2⟩, le_rfl, by decide⟩

theorem readFrac_bounds (k : Nat) (s : Bytes) : 0 ≤ (readFrac k s).1 ∧ (readFrac k s).1 < 10 ^ k := by
  obtain ⟨hle, -, hlt⟩ := readInt_digits k s
  simp only [readFrac]
  split
  · refine ⟨by positivity, ?_⟩
    have hsplit : (10 : Int) ^ k = 10 ^ (readInt k s).2.1 * 10 ^ (k - (readInt k s).2.1) := by
      rw [← pow_add, Nat.add_sub_of_le hle]
    rw [hsplit]
    exact mul_lt_mul_of_pos_right hlt (by positivity)
  · exact ⟨le_rfl, by positivity⟩

theorem twoDigits_le {r : Bytes} {k n : Nat} (h : twoDigits r k = some n) : n ≤ 99 := by
  have hdigit : ∀ c : UInt8, isDigit c = true → c.toNat - 48 < 10 := by
    refine byte_forall ?_
    decide +kernel
  unfold twoDigits at h
  split at h
  · rename_i hd
    have h1 := hdigit _ hd.2.1
    have h2 := hdigit _ hd.2.2
    cases h
    omega
  · cases h

theorem zoneOffsetS_bounds {z : Bytes} {off : Int} (h : zoneOffsetS z = some off) :
    -362340 ≤ off ∧ off ≤ 362340 := by
  cases z with
  | nil =>
    cases h
    decide
  | cons c r =>
    simp only [zoneOffsetS] at h
    split at h
    · have hsign : (if c = ch '-' then (-1 : Int) else 1) = -1 ∨ (if c = ch '-' then (-1 : Int) else 1) = 1 := by
        split
        · exact .inl rfl
        · exact .inr rfl
      generalize (if c = ch '-' then (-1 : Int) else 1) = sign at h hsign
      cases hh : twoDigits r 0 with
      | none => simp only [hh, reduceCtorEq] at h
      | some hr =>
        have hle := twoDigits_le hh
        simp only [hh] at h
        split at h
        · have hmm : (twoDigits r (if byteAt r 2 = ch ':' then 3 else 2)).getD 0 ≤ 99 := by
            cases hm : twoDigits r (if byteAt r 2 = ch ':' then 3 else 2) with
            | none => exact Nat.zero_le _
            | some m => exact twoDigits_le hm
          cases h
          rcases hsign with rfl | rfl <;> omega
        · split at h
          · cases h
            rcases hsign with rfl | rfl <;> omega
          · cases h
    · obtain ⟨zz, hz, rfl⟩ := Option.map_eq_some_iff.mp h
      have hmem := List.mem_of_find?_eq_some hz
      have hall : ∀ zz ∈ kZones, -362340 ≤ zz.2 ∧ zz.2 ≤ 362340 := by decide +kernel
      exact hall zz hmem

/-- The fields that a parser can read. -/
structure Stamp.Bounded (t : Stamp) : Prop where
  y : 0 ≤ t.y ∧ t.y ≤ 9999
  mo : 1 ≤ t.mo ∧ t.mo ≤ 12
  d : 1 ≤ t.d ∧ t.d ≤ 31
  hh : 0 ≤ t.hh ∧ t.hh ≤ 99
  mi : 0 ≤ t.mi ∧ t.mi ≤ 99
  ss : 0 ≤ t.ss ∧ t.ss ≤ 99
  off : -362340 ≤ t.off ∧ t.off ≤ 362340
  fracNs : 0 ≤ t.fracNs ∧ t.fracNs ≤ 999999999

theorem monthFromName_le (n : Bytes) : monthFromName n ≤ 12 := by
  unfold monthFromName
  split
  · exact Nat.zero_le _
  · split
    · rename_i k hk
      obtain ⟨hlt, -⟩ := List.findIdx?_eq_some_iff_getElem.mp hk
      exact hlt
    · exact Nat.zero_le _

theorem rfc822Stamp_bounded {s : Bytes} {t : Stamp} (h : rfc822Stamp s = some t) : t.Bounded ∧ t.fracNs = 0 := by
  unfold rfc822Stamp at h
  simp only [Option.bind_eq_bind, guard_bind_eq_some] at h
  generalize (if isAlpha (peek (skipWs (trim s))) = true then
    skipWs (readAlpha (skipWs (trim s))).2 else skipWs (trim s)) = c at h
  generalize readAlpha (skipDash (readInt 2 c).2.2) = name at h
  obtain ⟨hday, hmon, hyear, h⟩ := h
  obtain ⟨⟨hh, mi, ss, c'⟩, hclock, h⟩ := Option.bind_eq_some_iff.mp h
  obtain ⟨-, -, hdigits⟩ := readInt_digits 4 (skipDash name.2)
  have hfour := readInt_lt 4 (skipDash name.2)
  obtain ⟨hhh, hmi, hss⟩ : (0 ≤ hh ∧ hh ≤ 99) ∧ (0 ≤ mi ∧ mi ≤ 99) ∧ 0 ≤ ss ∧ ss ≤ 99 := by
    split at hclock
    · exact readClock_bounds hclock
    · cases hclock
      decide
  have hoff : -362340 ≤ (zoneOffsetS (trim (skipWs c'))).getD 0 ∧ (zoneOffsetS (trim (skipWs c'))).getD 0 ≤ 362340 := by
    cases hz : zoneOffsetS (trim (skipWs c')) with
    | none => decide
    | some off => exact zoneOffsetS_bounds hz
  have hmon' := monthFromName_le name.1
  generalize readInt 4 (skipDash name.2) = r at *
  have hyear' : 0 ≤ (if r.2.1 = 2 then r.1 + (if r.1 < 70 then 2000 else 1900) else r.1) ∧
      (if r.2.1 = 2 then r.1 + (if r.1 < 70 then 2000 else 1900) else r.1) ≤ 9999 := by
    split
    · rename_i htwo
      rw [htwo] at hdigits
      split <;> omega
    · omega
  have hday' : 1 ≤ (readInt 2 c).1.toNat ∧ (readInt 2 c).1.toNat ≤ 31 := by omega
  cases h
  exact ⟨⟨hyear', ⟨Nat.pos_of_ne_zero hmon, hmon'⟩, hday', hhh, hmi, hss, hoff, ⟨le_rfl, Int.natCast_nonneg _⟩⟩, rfl⟩

theorem iso8601Stamp_bounded {s : Bytes} {t : Stamp} (h : iso8601Stamp s = some t) : t.Bounded := by
  unfold iso8601Stamp at h
  simp only [Option.bind_eq_bind, guard_bind_eq_some] at h
  generalize readInt 2 (readInt 4 (trim s)).2.2.tail = mo at h
  generalize readInt 2 mo.2.2.tail = d at h
  obtain ⟨⟨hy, -⟩, ⟨hmo, hmo', -⟩, hd, h⟩ := h
  have hfour := readInt_lt 4 (trim s)
  have hY : 0 ≤ (readInt 4 (trim s)).1 ∧ (readInt 4 (trim s)).1 ≤ 9999 := ⟨hy, by omega⟩
  have hM : 1 ≤ mo.1.toNat ∧ mo.1.toNat ≤ 12 := by omega
  have hD : 1 ≤ d.1.toNat ∧ d.1.toNat ≤ 31 := by omega
  split at h
  · obtain ⟨⟨hh, mi, ss, c⟩, hclock, h⟩ := Option.bind_eq_some_iff.mp h
    obtain ⟨off, hoff, h⟩ := Option.bind_eq_some_iff.mp h
    obtain ⟨hhh, hmi, hss⟩ := readClock_bounds hclock
    have hfrac : 0 ≤ (if peek c = ch '.' ∨ peek c = ch ',' then
          ((readFrac 9 c.tail).1, (readFrac 9 c.tail).2.dropWhile isDigit) else (0, c)).1 ∧
        (if peek c = ch '.' ∨ peek c = ch ',' then
          ((readFrac 9 c.tail).1, (readFrac 9 c.tail).2.dropWhile isDigit) else (0, c)).1 ≤ 999999999 := by
      split
      · have hlt := readFrac_bounds 9 c.tail
        exact ⟨hlt.1, Int.le_of_lt_add_one hlt.2⟩
      · exact ⟨le_rfl, Int.natCast_nonneg _⟩
    cases h
    exact ⟨hY, hM, hD, hhh, hmi, hss, zoneOffsetS_bounds hoff, hfrac⟩
  · have hzero : (0 : Int) ≤ 0 ∧ (0 : Int) ≤ 99 := by decide
    cases h
    exact ⟨hY, hM, hD, hzero, hzero, hzero, zoneOffsetS_bounds (z := []) rfl, ⟨le_rfl, Int.natCast_nonneg _⟩⟩

theorem easternStamp_bounded {mdy hms : Bytes} {t : Stamp} (h : easternStamp mdy hms = some t) :
    t.Bounded ∧ 1900 ≤ t.y ∧ t.off = easternUtcOffsetS (daysFromCivil t.y t.mo t.d * 86400 + 5 * 3600) := by
  unfold easternStamp at h
  simp only [Option.bind_eq_bind, guard_bind_eq_some] at h
  generalize readInt 2 (trim mdy) = mo at h
  generalize readInt 2 mo.2.2.tail = d at h
  obtain ⟨⟨hmo, hmo', -⟩, ⟨hd, hd', -⟩, hy, h⟩ := h
  obtain ⟨⟨hh, mi, ss, c⟩, hclock, h⟩ := Option.bind_eq_some_iff.mp h
  have hfour := readInt_lt 4 d.2.2.tail
  obtain ⟨hhh, hmi, hss⟩ : (0 ≤ hh ∧ hh ≤ 99) ∧ (0 ≤ mi ∧ mi ≤ 99) ∧ 0 ≤ ss ∧ ss ≤ 99 := by
    split at hclock
    · cases hclock
      decide
    · exact readClock_bounds hclock
  have hoff' : ∀ s, -362340 ≤ easternUtcOffsetS s ∧ easternUtcOffsetS s ≤ 362340 := by
    intro s
    have := easternUtcOffsetS_cases s
    omega
  have hms : 0 ≤ (if peek c = ch '.' then (readFrac 3 c.tail).1 else 0) * 1000000 ∧
      (if peek c = ch '.' then (readFrac 3 c.tail).1 else 0) * 1000000 ≤ 999999999 := by
    have hlt := readFrac_bounds 3 c.tail
    split <;> omega
  have hY : 0 ≤ (readInt 4 d.2.2.tail).1 ∧ (readInt 4 d.2.2.tail).1 ≤ 9999 :=
    ⟨le_trans (by decide) hy, Int.le_of_lt_add_one hfour⟩
  have hM : 1 ≤ mo.1.toNat ∧ mo.1.toNat ≤ 12 := by omega
  have hD : 1 ≤ d.1.toNat ∧ d.1.toNat ≤ 31 := by omega
  cases h
  exact ⟨⟨hY, hM, hD, hhh, hmi, hss, hoff' _, hms⟩, hy, rfl⟩

/-! ## The instant of a stamp -/

theorem i64_eq {x : Int} (h : -2 ^ 63 ≤ x) (h' : x < 2 ^ 63) : i64 x = some x := if_pos ⟨h, h'⟩

theorem i64_bind {x : Int} {α : Type} {f : Int → Option α} (h : -2 ^ 63 ≤ x) (h' : x < 2 ^ 63) :
    (i64 x).bind f = f x := by
  rw [i64_eq h h', Option.bind_some]

theorem i64_bind_none {x : Int} {α : Type} {f : Int → Option α} (h : ¬ (-2 ^ 63 ≤ x ∧ x < 2 ^ 63)) :
    (i64 x).bind f = none := by
  rw [i64, if_neg h, Option.bind_none]

namespace Stamp

variable {t : Stamp}

/-- The seconds since the epoch. -/
def seconds (t : Stamp) : Int := t.days * 86400 + (t.hh * 3600 + t.mi * 60 + t.ss) - t.off

/-- The instant in nanoseconds, in unbounded integers. -/
def instant (t : Stamp) : Int := t.seconds * 1000000000 + t.fracNs

/-- From 1677-09-21T00:12:44 to 2262-04-11T23:47:16.854775807. -/
def Representable (t : Stamp) : Prop :=
  -9223372036 ≤ t.seconds ∧ (t.seconds < 9223372036 ∨ t.seconds = 9223372036 ∧ t.fracNs ≤ 854775807)

instance (t : Stamp) : Decidable t.Representable := inferInstanceAs (Decidable (_ ∧ _))

theorem representable_iff : t.Representable ↔
    -9223372036 ≤ t.seconds ∧ (t.seconds < 9223372036 ∨ t.seconds = 9223372036 ∧ t.fracNs ≤ 854775807) := Iff.rfl

theorem Bounded.days (h : t.Bounded) : -719560 ≤ t.days ∧ t.days ≤ 2932940 := by
  obtain ⟨hy, hm, hd, -⟩ := h
  rw [Stamp.days, daysFromCivil_eq hd.1]
  split <;> split <;> omega

theorem Bounded.secs (h : t.Bounded) : t.secs = some t.seconds := by
  have hdays := h.days
  obtain ⟨-, -, -, hhh, hmi, hss, hoff, -⟩ := h
  simp only [Stamp.secs, Option.bind_eq_bind]
  rw [i64_bind (by omega) (by omega), i64_bind (by omega) (by omega), i64_bind (by omega) (by omega),
    i64_bind (by omega) (by omega), i64_bind (by omega) (by omega), i64_bind (by omega) (by omega),
    i64_eq (by omega) (by omega), seconds]
  congr 1
  omega

theorem Bounded.clock (h : t.Bounded) :
    t.clock = some (t.hh * 3600 + t.mi * 60 + t.ss) ∧
      0 ≤ t.hh * 3600 + t.mi * 60 + t.ss ∧ t.hh * 3600 + t.mi * 60 + t.ss ≤ 362439 := by
  obtain ⟨-, -, -, hhh, hmi, hss, -, -⟩ := h
  refine ⟨?_, by omega, by omega⟩
  simp only [Stamp.clock, Option.bind_eq_bind]
  rw [i64_bind (by omega) (by omega), i64_bind (by omega) (by omega), i64_bind (by omega) (by omega),
    i64_eq (by omega) (by omega)]

/-- Scaled to nanoseconds and with the fraction. -/
theorem Bounded.scale (h : t.Bounded) :
    (i64 (t.seconds * kNs)).bind (fun ns => i64 (ns + t.fracNs)) =
      if t.Representable then some t.instant else none := by
  obtain ⟨hfrac, hfrac'⟩ := h.fracNs
  have hk : kNs = 1000000000 := rfl
  have hrep := representable_iff (t := t)
  rw [hk, instant]
  by_cases hfit : -2 ^ 63 ≤ t.seconds * 1000000000 ∧ t.seconds * 1000000000 < 2 ^ 63
  · rw [i64_bind hfit.1 hfit.2, i64]
    split
    · rw [if_pos (hrep.mpr (by omega))]
    · rw [if_neg (hrep.not.mpr (by omega))]
  · rw [i64_bind_none hfit, if_neg (hrep.not.mpr (by omega))]

/-- The same from the midnight of a date from 1900 on. -/
theorem Bounded.scale_midnight (h : t.Bounded) (hy : 1900 ≤ t.y) :
    (t.midnightNs.bind fun midnight => t.clock.bind fun clock => (i64 (clock * kNs)).bind fun ns =>
      (i64 (midnight + ns)).bind fun sum => i64 (sum + t.fracNs)) =
      if t.Representable then some t.instant else none := by
  obtain ⟨hclock, hc, hc'⟩ := h.clock
  have hdays : -25600 ≤ t.days ∧ t.days ≤ 2932940 := by
    refine ⟨?_, h.days.2⟩
    obtain ⟨-, hm, hd, -⟩ := h
    rw [Stamp.days, daysFromCivil_eq hd.1]
    split <;> split <;> omega
  obtain ⟨hoff, hoff'⟩ := h.off
  obtain ⟨hfrac, hfrac'⟩ := h.fracNs
  have hk : kNs = 1000000000 := rfl
  have hsecs : t.seconds = t.days * 86400 - t.off + (t.hh * 3600 + t.mi * 60 + t.ss) := by
    rw [seconds]
    omega
  have hrep := representable_iff (t := t)
  rw [hclock, midnightNs, hk, instant]
  generalize t.hh * 3600 + t.mi * 60 + t.ss = clock at *
  simp only [Option.bind_eq_bind]
  rw [i64_bind (by omega) (by omega), i64_bind (by omega) (by omega)]
  have hmid : -9223372036 ≤ t.days * 86400 - t.off := by omega
  generalize t.days * 86400 - t.off = midnight at *
  by_cases hfit : midnight * 1000000000 < 2 ^ 63
  · rw [i64_bind (by omega) hfit, Option.bind_some, i64_bind (by omega) (by omega)]
    by_cases hsum : midnight * 1000000000 + clock * 1000000000 < 2 ^ 63
    · rw [i64_bind (by omega) hsum, i64, hsecs, add_mul]
      split
      · rw [if_pos (hrep.mpr (by omega))]
      · rw [if_neg (hrep.not.mpr (by omega))]
    · rw [i64_bind_none (by omega), if_neg (hrep.not.mpr (by omega))]
  · rw [i64_bind_none (by omega), if_neg (hrep.not.mpr (by omega))]

end Stamp

/-! ## The parsers -/

/-- No step overflows, and a value is the instant of the fields of the text. -/
def Exact (stamp : Option Stamp) (parse : Option (Option Int)) : Prop :=
  ∃ r, parse = some r ∧ ∀ v, r = some v → ∃ t, stamp = some t ∧ v = t.instant ∧ -2 ^ 63 ≤ v ∧ v < 2 ^ 63

/-- The instant of a stamp, or none if it is out of range. -/
def Stamp.inRange (t : Stamp) : Option (Option Int) := if t.Representable then some (some t.instant) else none

theorem Stamp.inRange_eq (t : Stamp) :
    (if t.Representable then some t.instant else none).bind (fun v => some (some v)) = t.inRange := by
  unfold inRange
  split <;> rfl

theorem parseRfc822_eq (s : Bytes) : parseRfc822 s = (rfc822Stamp s).elim (some none) Stamp.inRange := by
  unfold parseRfc822
  cases hst : rfc822Stamp s with
  | none => rfl
  | some t =>
    obtain ⟨hb, hzero⟩ := rfc822Stamp_bounded hst
    have hscale := hb.scale
    have hsame : (i64 (t.seconds * kNs)).bind (fun ns => i64 (ns + t.fracNs)) = i64 (t.seconds * kNs) := by
      simp only [hzero, add_zero, i64]
      split
      · exact if_pos ‹_›
      · rfl
    rw [hsame] at hscale
    simp only [hb.secs, Option.bind_eq_bind, Option.bind_some, Option.elim_some]
    rw [hscale]
    exact t.inRange_eq

theorem parseIso8601_eq (s : Bytes) : parseIso8601 s = (iso8601Stamp s).elim (some none) Stamp.inRange := by
  unfold parseIso8601
  cases hst : iso8601Stamp s with
  | none => rfl
  | some t =>
    have hb := iso8601Stamp_bounded hst
    simp only [hb.secs, Option.bind_eq_bind, Option.bind_some, Option.elim_some]
    rw [← Option.bind_assoc, hb.scale]
    exact t.inRange_eq

theorem parseEasternMdyTime_eq (mdy hms : Bytes) :
    parseEasternMdyTime mdy hms = (easternStamp mdy hms).elim (some none) Stamp.inRange := by
  unfold parseEasternMdyTime
  cases hst : easternStamp mdy hms with
  | none => rfl
  | some t =>
    obtain ⟨hb, hy, -⟩ := easternStamp_bounded hst
    have hscale := congrArg (fun r => r.bind fun v => some (some v)) (hb.scale_midnight hy)
    simp only [Option.bind_assoc] at hscale
    exact hscale.trans t.inRange_eq

theorem exact_iff {stamp : Option Stamp} {parse : Option (Option Int)}
    (h : parse = stamp.elim (some none) Stamp.inRange) (hb : ∀ t, stamp = some t → t.Bounded) :
    Exact stamp parse ↔ ∀ t, stamp = some t → t.Representable := by
  cases stamp with
  | none => exact ⟨fun _ _ ht => (Option.some_ne_none _ ht.symm).elim, fun _ => ⟨none, h, by simp⟩⟩
  | some t =>
    rw [Option.elim_some, Stamp.inRange] at h
    have hfrac := (hb t rfl).fracNs
    constructor
    · rintro ⟨r, hr, -⟩ t' ht'
      cases ht'
      by_contra hrep
      rw [h, if_neg hrep] at hr
      cases hr
    · intro hrep
      have hrep' := hrep t rfl
      rw [if_pos hrep'] at h
      refine ⟨_, h, fun v hv => ⟨t, rfl, (Option.some.inj hv).symm, ?_⟩⟩
      cases hv
      obtain ⟨hlo, hhi⟩ := hrep'
      unfold Stamp.instant
      omega

/-- The parsers are exact on the texts whose fields are representable, and overflow on the others. -/
theorem parsers_exact_iff (s mdy hms : Bytes) :
    (Exact (rfc822Stamp s) (parseRfc822 s) ↔ ∀ t, rfc822Stamp s = some t → t.Representable) ∧
    (Exact (iso8601Stamp s) (parseIso8601 s) ↔ ∀ t, iso8601Stamp s = some t → t.Representable) ∧
    (Exact (easternStamp mdy hms) (parseEasternMdyTime mdy hms) ↔
      ∀ t, easternStamp mdy hms = some t → t.Representable) :=
  ⟨exact_iff (parseRfc822_eq s) fun _ ht => (rfc822Stamp_bounded ht).1,
    exact_iff (parseIso8601_eq s) fun _ ht => iso8601Stamp_bounded ht,
    exact_iff (parseEasternMdyTime_eq mdy hms) fun _ ht => (easternStamp_bounded ht).1⟩

/-- Dates after April 2262, one for each parser. -/
theorem parsers_overflow :
    ¬ Exact (rfc822Stamp (lit "25 Sep 9999 12:00:00 GMT")) (parseRfc822 (lit "25 Sep 9999 12:00:00 GMT")) ∧
    ¬ Exact (iso8601Stamp (lit "2263-01-01")) (parseIso8601 (lit "2263-01-01")) ∧
    ¬ Exact (easternStamp (lit "01/01/2300") (lit "09:30:00"))
      (parseEasternMdyTime (lit "01/01/2300") (lit "09:30:00")) := by
  have h1 : parseRfc822 (lit "25 Sep 9999 12:00:00 GMT") = none := by decide +kernel
  have h2 : parseIso8601 (lit "2263-01-01") = none := by decide +kernel
  have h3 : parseEasternMdyTime (lit "01/01/2300") (lit "09:30:00") = none := by decide +kernel
  rw [h1, h2, h3]
  have hnone : ∀ stamp, ¬ Exact stamp none := by
    rintro stamp ⟨r, hr, -⟩
    cases hr
  exact ⟨hnone _, hnone _, hnone _⟩

/-- The years that are representable whatever the rest of the date is. -/
theorem Stamp.Bounded.representable {t : Stamp} (h : t.Bounded) (hy : 1678 ≤ t.y ∧ t.y ≤ 2261) : t.Representable := by
  obtain ⟨-, hc, hc'⟩ := h.clock
  obtain ⟨hoff, hoff'⟩ := h.off
  have hdays : -106700 ≤ t.days ∧ t.days ≤ 106700 := by
    obtain ⟨-, hm, hd, -⟩ := h
    rw [Stamp.days, daysFromCivil_eq hd.1]
    split <;> split <;> omega
  rw [representable_iff, seconds]
  omega

end Stok.Time
