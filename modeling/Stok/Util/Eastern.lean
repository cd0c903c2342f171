import Stok.Util.DateText

/-!
# The Eastern clock

The days on which the clocks change, as the calendar has them, and the offsets of the days between
them. The offset of an instant depends on its UTC day and, on two days of the year, on the hour
(`easternUtcOffsetS_eq`); every Eastern day begins with the offset that its UTC day has at 05:00
(`openOffset`), so that a clock reading and its date give the instant back.
-/

namespace Stok.Time

/-! ## The days on which the clocks change -/

def Civil.SecondSundayOfMarch (c : Civil) : Prop :=
  c.m = 3 ∧ 8 ≤ c.d ∧ c.d ≤ 14 ∧ weekdayFromDays c.days = 0

def Civil.FirstSundayOfNovember (c : Civil) : Prop :=
  c.m = 11 ∧ c.d ≤ 7 ∧ weekdayFromDays c.days = 0

instance (c : Civil) : Decidable c.SecondSundayOfMarch := inferInstanceAs (Decidable (_ ∧ _))

instance (c : Civil) : Decidable c.FirstSundayOfNovember := inferInstanceAs (Decidable (_ ∧ _))

/-- The day of the first Sunday on or after a day. -/
def sundayFrom (z : Int) : Int := z + (7 - weekdayFromDays z).tmod 7

theorem sundayFrom_spec (z : Int) : z ≤ sundayFrom z ∧ sundayFrom z ≤ z + 6 ∧ weekdayFromDays (sundayFrom z) = 0 := by
  have hw : 0 ≤ (z + 4) % 7 ∧ (z + 4) % 7 ≤ 6 := by omega
  rw [sundayFrom, weekdayFromDays_eq, weekdayFromDays_eq, Int.tmod_eq_emod_of_nonneg (by omega)]
  omega

def springDay (y : Int) : Int := sundayFrom (daysFromCivil y 3 1) + 7

def fallDay (y : Int) : Int := sundayFrom (daysFromCivil y 11 1)

theorem weekday_sunday {z z' : Int} (h : weekdayFromDays z = 0) (h' : weekdayFromDays z' = 0)
    (hlt : -7 < z - z') (hgt : z - z' < 7) : z = z' := by
  rw [weekdayFromDays_eq] at h h'
  omega

/-- The dates of a month. -/
theorem Civil.Valid.month_of_days {c : Civil} (hc : c.Valid) {m : Nat} (hm : 1 ≤ m ∧ m ≤ 12) {k : Nat} (hk : 1 ≤ k ∧ k ≤ 28)
    (h : c.days = daysFromCivil c.y m 1 + (k - 1)) : c.m = m ∧ c.d = k := by
  have hlen : 28 ≤ daysInMonth c.y m := by
    unfold daysInMonth
    split_ifs <;> decide
  have hvalid : Civil.Valid ⟨c.y, m, k⟩ := ⟨hm, hk.1, hk.2.trans hlen⟩
  have hdays : Civil.days ⟨c.y, m, k⟩ = daysFromCivil c.y m 1 + (k - 1) := days_day hk.1
  have heq := hc.days_inj hvalid (h.trans hdays.symm)
  exact ⟨congrArg Civil.m heq, congrArg Civil.d heq⟩

theorem Civil.Valid.days_springDay {c : Civil} (hc : c.Valid) : c.days = springDay c.y ↔ c.SecondSundayOfMarch := by
  obtain ⟨h1, h2, hsun⟩ := sundayFrom_spec (daysFromCivil c.y 3 1)
  have hsun' : weekdayFromDays (springDay c.y) = 0 := by
    rw [weekdayFromDays_eq] at hsun ⊢
    unfold springDay
    omega
  have hspring : springDay c.y = sundayFrom (daysFromCivil c.y 3 1) + 7 := rfl
  constructor
  · intro h
    obtain ⟨hm, hd⟩ := hc.month_of_days (m := 3) (by decide) (k := (springDay c.y - daysFromCivil c.y 3 1 + 1).toNat)
      (by omega) (by omega)
    exact ⟨hm, by omega, by omega, by rw [h, hsun']⟩
  · rintro ⟨hm, hd, hd', hw⟩
    have hdays : c.days = daysFromCivil c.y 3 1 + (c.d - 1) := by rw [Civil.days, hm, days_day hc.day.1]
    exact weekday_sunday hw hsun' (by omega) (by omega)

theorem Civil.Valid.days_fallDay {c : Civil} (hc : c.Valid) : c.days = fallDay c.y ↔ c.FirstSundayOfNovember := by
  obtain ⟨h1, h2, hsun⟩ := sundayFrom_spec (daysFromCivil c.y 11 1)
  have hfall : fallDay c.y = sundayFrom (daysFromCivil c.y 11 1) := rfl
  have hd1 := hc.day.1
  constructor
  · intro h
    obtain ⟨hm, hd⟩ := hc.month_of_days (m := 11) (by decide) (k := (fallDay c.y - daysFromCivil c.y 11 1 + 1).toNat)
      (by omega) (by omega)
    exact ⟨hm, by omega, by rw [h, hfall, hsun]⟩
  · rintro ⟨hm, hd, hw⟩
    have hdays : c.days = daysFromCivil c.y 11 1 + (c.d - 1) := by rw [Civil.days, hm, days_day hc.day.1]
    exact weekday_sunday hw hsun (by omega) (by omega)

/-- The days of a year in order. -/
theorem year_order (y : Int) : daysFromCivil y 1 1 < springDay y ∧ springDay y < fallDay y ∧
    fallDay y < daysFromCivil (y + 1) 1 1 - 1 := by
  obtain ⟨h1, h2, -⟩ := sundayFrom_spec (daysFromCivil y 3 1)
  obtain ⟨h3, h4, -⟩ := sundayFrom_spec (daysFromCivil y 11 1)
  have hmar : daysFromCivil y 1 1 ≤ daysFromCivil y 3 1 := days_month_mono y le_rfl (by decide)
  have hmay : daysFromCivil y 3 1 + 31 ≤ daysFromCivil y 11 1 := by
    have h := days_next_month (y := y) (m := 3) (d := 1) (by decide) le_rfl
    change daysFromCivil y 4 1 = _ at h
    have h' := @days_month_mono y 4 11 (by decide) (by decide)
    have hlen : (daysInMonth y 3 : Int) = 31 := rfl
    omega
  have hdec : daysFromCivil y 11 1 + 31 ≤ daysFromCivil (y + 1) 1 1 := by
    have h := days_next_month (y := y) (m := 11) (d := 1) (by decide) le_rfl
    change daysFromCivil y 12 1 = _ at h
    have h' := days_next_year (y := y) (d := 1) le_rfl
    have hlen : (daysInMonth y 11 : Int) = 30 := rfl
    have hlen' : (daysInMonth y 12 : Int) = 31 := rfl
    omega
  unfold springDay fallDay
  omega

/-! ## Offsets -/

/-- The offset in the first hours of a UTC day. -/
def openOffset (z : Int) : Int :=
  if springDay (civilOf z).y < z ∧ z ≤ fallDay (civilOf z).y then -14400 else -18000

theorem easternUtcOffsetS_eq {s : Int} (h : FitsInt (civilOf (s / 86400)).y) :
    easternUtcOffsetS s =
      if springDay (civilOf (s / 86400)).y * 86400 + 25200 ≤ s ∧ s < fallDay (civilOf (s / 86400)).y * 86400 + 21600
      then -14400 else -18000 := by
  simp only [easternUtcOffsetS, dayOf_eq, civilFromDays_eq h]
  rfl

/-- A day that a civil date with a year of an `int` has. -/
def DayFits (z : Int) : Prop := -2 ^ 31 ≤ z ∧ z ≤ 2 ^ 31

theorem DayFits.year {z : Int} (h : DayFits z) : FitsInt (civilOf z).y := yearOf_bounds h.1 h.2

theorem openOffset_eq {s : Int} (h : DayFits (s / 86400)) (hs : s % 86400 < 21600) :
    easternUtcOffsetS s = openOffset (s / 86400) := by
  rw [easternUtcOffsetS_eq h.year, openOffset]
  have hiff : (springDay (civilOf (s / 86400)).y * 86400 + 25200 ≤ s ∧
      s < fallDay (civilOf (s / 86400)).y * 86400 + 21600) ↔
      (springDay (civilOf (s / 86400)).y < s / 86400 ∧ s / 86400 ≤ fallDay (civilOf (s / 86400)).y) := by omega
  simp only [hiff]

/-- The offset later on the day, on which the clocks do not change. -/
theorem openOffset_of_ne {s : Int} (h : DayFits (s / 86400)) (hspring : s / 86400 ≠ springDay (civilOf (s / 86400)).y)
    (hfall : s / 86400 ≠ fallDay (civilOf (s / 86400)).y) : easternUtcOffsetS s = openOffset (s / 86400) := by
  rw [easternUtcOffsetS_eq h.year, openOffset]
  have hiff : (springDay (civilOf (s / 86400)).y * 86400 + 25200 ≤ s ∧
      s < fallDay (civilOf (s / 86400)).y * 86400 + 21600) ↔
      (springDay (civilOf (s / 86400)).y < s / 86400 ∧ s / 86400 ≤ fallDay (civilOf (s / 86400)).y) := by omega
  simp only [hiff]

theorem year_next (z : Int) : (civilOf (z + 1)).y = (civilOf z).y ∨
    (civilOf (z + 1)).y = (civilOf z).y + 1 ∧ z + 1 = daysFromCivil ((civilOf z).y + 1) 1 1 := by
  have hle := le_year_iff.mp (le_refl (civilOf z).y)
  have hlt := le_year_iff.not.mp (show ¬ (civilOf z).y + 1 ≤ (civilOf z).y by omega)
  have hge : (civilOf z).y ≤ (civilOf (z + 1)).y := le_year_iff.mpr (by omega)
  rcases hge.eq_or_lt with heq | hgt
  · exact .inl heq.symm
  · have hnew := le_year_iff.mp (show (civilOf z).y + 1 ≤ (civilOf (z + 1)).y from hgt)
    obtain ⟨h1, h2, h3⟩ := year_order ((civilOf z).y + 1)
    have hlt' := le_year_iff.not.mpr (show ¬ daysFromCivil ((civilOf z).y + 1 + 1) 1 1 ≤ z + 1 by omega)
    exact .inr ⟨by omega, by omega⟩

/-- The offset changes from one day to the next after the two Sundays only. -/
theorem openOffset_next (z : Int) : openOffset (z + 1) =
    if z = springDay (civilOf z).y then -14400 else if z = fallDay (civilOf z).y then -18000 else openOffset z := by
  obtain ⟨h1, h2, h3⟩ := year_order (civilOf z).y
  unfold openOffset
  rcases year_next z with hy | ⟨hy, hz⟩
  · rw [hy]
    split_ifs <;> omega
  · obtain ⟨h1', h2', h3'⟩ := year_order ((civilOf z).y + 1)
    rw [hy]
    split_ifs <;> omega

theorem openOffset_changes (z : Int) :
    (z = springDay (civilOf z).y → openOffset z = -18000) ∧ (z = fallDay (civilOf z).y → openOffset z = -14400) ∧
      (openOffset z = -14400 ∨ openOffset z = -18000) := by
  obtain ⟨h1, h2, h3⟩ := year_order (civilOf z).y
  unfold openOffset
  split_ifs <;> omega

/-! ## The Eastern day -/

/-- 00:00 Eastern time of a day in seconds. -/
def midnight (z : Int) : Int := z * 86400 - openOffset z

theorem easternMidnightNs_eq {c : Civil} (h : DayFits c.days) :
    easternMidnightNs c.y c.m c.d = midnight c.days * 1000000000 := by
  have hday : (c.days * 86400 + 5 * 3600) / 86400 = c.days := by omega
  have hoff := openOffset_eq (s := c.days * 86400 + 5 * 3600) (by rwa [hday]) (by omega)
  rw [hday] at hoff
  have hdef : easternMidnightNs c.y c.m c.d =
    (c.days * 86400 - easternUtcOffsetS (c.days * 86400 + 5 * 3600)) * 1000000000 := rfl
  rw [hdef, hoff, midnight]

/-- The Eastern day of an instant in seconds. -/
def easternDay (s : Int) : Int := (s + easternUtcOffsetS s) / 86400

theorem easternDay_cases {s : Int} (h : DayFits (s / 86400)) :
    easternDay s = s / 86400 ∧ (21600 ≤ s % 86400 ∨ easternUtcOffsetS s = openOffset (s / 86400)) ∧
        -openOffset (s / 86400) ≤ s % 86400 ∨
      easternDay s = s / 86400 - 1 ∧ easternUtcOffsetS s = openOffset (s / 86400) ∧
        s % 86400 < -openOffset (s / 86400) := by
  have hoff := easternUtcOffsetS_cases s
  have hopen := (openOffset_changes (s / 86400)).2.2
  unfold easternDay
  rcases Int.lt_or_le (s % 86400) 21600 with hlt | hge
  · have heq := openOffset_eq h hlt
    omega
  · omega

theorem midnight_le {s : Int} (h : DayFits (s / 86400)) :
    midnight (easternDay s) ≤ s ∧ s < midnight (easternDay s + 1) := by
  have hopen := fun z => (openOffset_changes z).2.2
  unfold midnight
  rcases easternDay_cases h with ⟨hday, -, hr⟩ | ⟨hday, -, hr⟩
  · have hnext := hopen (s / 86400 + 1)
    rw [hday]
    omega
  · have hprev := hopen (s / 86400 - 1)
    rw [hday, Int.sub_add_cancel]
    omega

/-- The offset is that of the beginning of the day, if the clocks do not change on it. -/
theorem easternUtcOffsetS_of_day {s : Int} (h : DayFits (s / 86400))
    (hspring : easternDay s ≠ springDay (civilOf (easternDay s)).y)
    (hfall : easternDay s ≠ fallDay (civilOf (easternDay s)).y) :
    easternUtcOffsetS s = openOffset (easternDay s) := by
  rcases easternDay_cases h with ⟨hday, -, -⟩ | ⟨hday, heq, -⟩
  · rw [hday] at hspring hfall ⊢
    exact openOffset_of_ne h hspring hfall
  · have hnext := openOffset_next (easternDay s)
    rw [if_neg hspring, if_neg hfall, hday, Int.sub_add_cancel] at hnext
    rw [heq, hnext, hday]

/-- Midnight is at 00:00. -/
theorem easternLocal_midnight {z : Int} (h : DayFits z) :
    midnight z + easternUtcOffsetS (midnight z) = z * 86400 := by
  have hopen := (openOffset_changes z).2.2
  have hday : midnight z / 86400 = z := by
    unfold midnight
    omega
  have hoff := openOffset_eq (s := midnight z) (by rwa [hday]) (by unfold midnight; omega)
  rw [hoff, hday, midnight]
  omega

/-! ## Dates and clock readings as text -/

/-- `MM/DD/YYYY` -/
def mdyText (c : Civil) : Bytes := fmtInt 2 c.m ++ lit "/" ++ fmtInt 2 c.d ++ lit "/" ++ fmtInt 4 c.y

/-- A text between two numbers has no space at its ends. -/
theorem trim_between {w n w' n' : Nat} (hw : 0 < w) (h : n < 10 ^ w) (hw' : 0 < w') (h' : n' < 10 ^ w') (t : Bytes) :
    trim (Dbl.padded w n ++ (t ++ Dbl.padded w' n')) = Dbl.padded w n ++ (t ++ Dbl.padded w' n') := by
  obtain ⟨hlen, hdigits, -⟩ := Dbl.padded_spec hw' h'
  have hne : Dbl.padded w' n' ≠ [] := List.ne_nil_of_length_pos (hlen.symm ▸ hw')
  refine trim_eq_self (fun c hc => Dbl.isSpace_of_isDigit (head_padded hw h hc)) fun c hc => ?_
  rw [← List.append_assoc, List.getLast?_append_of_ne_nil _ hne] at hc
  exact Dbl.isSpace_of_isDigit (hdigits c (List.mem_of_getLast? hc))

theorem fmtInt_natCast (w n : Nat) : fmtInt w (n : Int) = Dbl.padded w n := if_neg (by omega)

/-- A date and a clock reading are read back. -/
theorem easternStamp_text {c : Civil} (hc : c.Valid) (hy : 1900 ≤ c.y ∧ c.y ≤ 9999) {h m s : Nat} (hh : h < 10 ^ 2)
    (hm : m < 10 ^ 2) (hs : s < 10 ^ 2) :
    easternStamp (mdyText c) (fmtInt 2 h ++ lit ":" ++ fmtInt 2 m ++ lit ":" ++ fmtInt 2 s) =
      some { y := c.y, mo := c.m, d := c.d, hh := h, mi := m, ss := s,
             off := easternUtcOffsetS (c.days * 86400 + 5 * 3600), fracNs := 0 } := by
  obtain ⟨hmo, hmo'⟩ := hc.month
  obtain ⟨hd, hd'⟩ := hc.day
  have hlen : daysInMonth c.y c.m ≤ 31 := by
    unfold daysInMonth
    split_ifs <;> decide
  have hyear : (c.y.toNat : Int) = c.y := Int.toNat_of_nonneg (by omega)
  have hm2 : c.m < 10 ^ 2 := by omega
  have hd2 : c.d < 10 ^ 2 := by omega
  have hy4 : c.y.toNat < 10 ^ 4 := by omega
  have hmdy : mdyText c = Dbl.padded 2 c.m ++ ((ch '/' :: (Dbl.padded 2 c.d ++ [ch '/'])) ++ Dbl.padded 4 c.y.toNat) := by
    rw [mdyText, ← hyear, fmtInt_natCast, fmtInt_natCast, fmtInt_natCast, Int.toNat_natCast]
    simp [lit]
  have hhms : fmtInt 2 h ++ lit ":" ++ fmtInt 2 m ++ lit ":" ++ fmtInt 2 s =
      Dbl.padded 2 h ++ ((ch ':' :: (Dbl.padded 2 m ++ [ch ':'])) ++ Dbl.padded 2 s) := by
    rw [fmtInt_natCast, fmtInt_natCast, fmtInt_natCast]
    simp [lit]
  have hne : Dbl.padded 2 h ++ ch ':' :: (Dbl.padded 2 m ++ ch ':' :: (Dbl.padded 2 s ++ [])) ≠ [] := by
    simp
  have hyread := readInt_padded (w := 4) (by decide) hy4 []
  have hclock := readClock_padded hh hm hs []
  unfold easternStamp
  rw [hmdy, hhms, trim_between two_pos hm2 (by decide) hy4, trim_between two_pos hh two_pos hs,
    ← List.append_nil (Dbl.padded 4 c.y.toNat), ← List.append_nil (Dbl.padded 2 s)]
  simp only [List.cons_append, List.append_assoc, List.nil_append, readInt_padded two_pos hm2,
    readInt_padded two_pos hd2, List.tail_cons, peek_cons, hyread, Option.bind_eq_bind, if_neg hne, hclock]
  refine guard_bind_eq_some.mpr ⟨⟨by omega, by omega, trivial⟩, guard_bind_eq_some.mpr ⟨⟨by omega, by omega, trivial⟩,
    guard_bind_eq_some.mpr ⟨by omega, ?_⟩⟩⟩
  simp only [Option.bind_some, hyear, Int.toNat_natCast]
  rfl

/-- The remainder that the source computes, with its correction for negative values. -/
theorem tmod_floor (x : Int) : (if x.tmod 86400 < 0 then x.tmod 86400 + 86400 else x.tmod 86400) = x % 86400 := by
  rcases Int.le_total 0 x with hx | hx
  · rw [Int.tmod_eq_emod_of_nonneg hx, if_neg (by omega)]
  · rw [show x = -(-x) by omega, Int.neg_tmod, Int.tmod_eq_emod_of_nonneg (by omega)]
    split <;> omega

theorem easternHms_eq (t : Int) : easternHms t =
    fmtInt 2 ((easternLocal t % 86400).toNat / 3600 : Nat) ++ lit ":" ++
      fmtInt 2 ((easternLocal t % 86400).toNat / 60 % 60 : Nat) ++ lit ":" ++
      fmtInt 2 ((easternLocal t % 86400).toNat % 60 : Nat) := by
  obtain ⟨r, hr⟩ : ∃ r : Nat, easternLocal t % 86400 = r := ⟨(easternLocal t % 86400).toNat, by omega⟩
  have h1 : (r : Int).tdiv 3600 = (r / 3600 : Nat) := by
    rw [Int.tdiv_eq_ediv_of_nonneg (by omega)]
    omega
  have h2 : ((r : Int).tdiv 60).tmod 60 = (r / 60 % 60 : Nat) := by
    rw [Int.tdiv_eq_ediv_of_nonneg (by omega), Int.tmod_eq_emod_of_nonneg (by omega)]
    omega
  have h3 : (r : Int).tmod 60 = (r % 60 : Nat) := by
    rw [Int.tmod_eq_emod_of_nonneg (by omega)]
    omega
  simp only [easternHms, tmod_floor, hr, h1, h2, h3, Int.toNat_natCast]

/-! ## Instants from 1970 on -/

/-- 00:00 Eastern time of a date. -/
def Civil.midnightNs (c : Civil) : Int := easternMidnightNs c.y c.m c.d

/-- Midnights are 24 hours apart, and 23 or 25 on the Sundays on which the clocks change. -/
theorem midnight_gap {c : Civil} (hc : c.Valid) (h : DayFits c.days) (h' : DayFits (c.days + 1)) :
    c.next.midnightNs - c.midnightNs =
      (if c.SecondSundayOfMarch then 23 else if c.FirstSundayOfNovember then 25 else 24) * 3600 * 1000000000 := by
  obtain ⟨-, hnext⟩ := hc.next
  have hopen := openOffset_next c.days
  obtain ⟨hspring, hfall, -⟩ := openOffset_changes c.days
  simp only [civilOf_days hc, hc.days_springDay, hc.days_fallDay] at hopen hspring hfall
  rw [Civil.midnightNs, Civil.midnightNs, easternMidnightNs_eq h, easternMidnightNs_eq (by rwa [hnext]), hnext, midnight,
    midnight, hopen]
  split
  · have := hspring ‹_›
    omega
  · split
    · have := hfall ‹_›
      omega
    · omega

/-- An Eastern date begins at its midnight, and it and the clock reading give the instant, except on the Sundays on which the
clocks change. -/
theorem eastern_consistent {t : Int} (h : 0 ≤ t) (h' : t < 2 ^ 63) :
    ((easternDate t).midnightNs ≤ t ∧ t < (easternDate t).next.midnightNs) ∧
    easternMinuteOfDay (easternDate t).midnightNs = 0 ∧
    (easternDate t).next.midnightNs - (easternDate t).midnightNs =
      (if (easternDate t).SecondSundayOfMarch then 23 else if (easternDate t).FirstSundayOfNovember then 25 else 24) *
        3600 * 1000000000 ∧
    (¬ (easternDate t).SecondSundayOfMarch → ¬ (easternDate t).FirstSundayOfNovember →
      parseEasternMdyTime (mdyText (easternDate t)) (easternHms t) = some (some (t / 1000000000 * 1000000000))) := by
  have hk : kNs = 1000000000 := rfl
  have hsecs : t.tdiv kNs = t / 1000000000 := Int.tdiv_eq_ediv_of_nonneg h
  obtain ⟨s, hs⟩ : ∃ s, s = t / 1000000000 := ⟨_, rfl⟩
  have hs0 : 0 ≤ s ∧ s ≤ 9223372036 := by omega
  have hoff := easternUtcOffsetS_cases s
  have hfits : DayFits (s / 86400) := by
    unfold DayFits
    omega
  have hdayEq : easternDay s = (s + easternUtcOffsetS s) / 86400 := rfl
  have hday : -1 ≤ easternDay s ∧ easternDay s ≤ 106751 := by omega
  have hdayFits : DayFits (easternDay s) := by
    unfold DayFits
    omega
  have hlocal : easternLocal t = s + easternUtcOffsetS s := by rw [easternLocal, hsecs, hs]
  have hdate : easternDate t = civilOf (easternDay s) := by
    rw [easternDate, dayOf_eq, hlocal, ← hdayEq, civilFromDays_eq hdayFits.year]
  rw [hdate]
  have hvalid := civilOf_valid (easternDay s)
  have hdays := days_civilOf (easternDay s)
  have hnext := hvalid.next.2
  have hnextFits : DayFits (easternDay s + 1) := by
    unfold DayFits
    omega
  have hmid : (civilOf (easternDay s)).midnightNs = midnight (easternDay s) * 1000000000 := by
    rw [Civil.midnightNs, easternMidnightNs_eq (by rwa [hdays]), hdays]
  have hmid' : (civilOf (easternDay s)).next.midnightNs = midnight (easternDay s + 1) * 1000000000 := by
    rw [Civil.midnightNs, easternMidnightNs_eq (by rwa [hnext, hdays]), hnext, hdays]
  obtain ⟨hle, hlt⟩ := midnight_le hfits
  refine ⟨⟨by rw [hmid]; omega, by rw [hmid']; omega⟩, ?_,
    midnight_gap hvalid (by rwa [hdays]) (by rwa [hdays]), fun hspring hfall => ?_⟩
  · have hzero : easternLocal (civilOf (easternDay s)).midnightNs = easternDay s * 86400 := by
      rw [easternLocal, hmid, hk, Int.mul_tdiv_cancel _ (by decide)]
      exact easternLocal_midnight hdayFits
    simp only [easternMinuteOfDay, hzero, Int.mul_tmod_left]
    rfl
  · rw [← hvalid.days_springDay, hdays] at hspring
    rw [← hvalid.days_fallDay, hdays] at hfall
    have hsame := easternUtcOffsetS_of_day hfits hspring hfall
    have hyear : 1900 ≤ (civilOf (easternDay s)).y ∧ (civilOf (easternDay s)).y ≤ 9999 := by
      obtain ⟨hy, hy'⟩ := isoYear (z := easternDay s) (by omega) (by omega)
      have : 1900 ≤ (civilOf (easternDay s)).y := le_year_iff.mpr (le_trans (by decide) hday.1)
      omega
    have hr : (easternLocal t % 86400).toNat < 86400 := by omega
    have hstamp := easternStamp_text hvalid hyear (h := (easternLocal t % 86400).toNat / 3600)
      (m := (easternLocal t % 86400).toNat / 60 % 60) (s := (easternLocal t % 86400).toNat % 60)
      (by omega) (by omega) (by omega)
    rw [parseEasternMdyTime_eq, easternHms_eq, hstamp, Option.elim_some]
    have hopen := openOffset_eq (s := easternDay s * 86400 + 5 * 3600) (by rwa [show (easternDay s * 86400 + 5 * 3600) /
      86400 = easternDay s by omega]) (by omega)
    rw [show (easternDay s * 86400 + 5 * 3600) / 86400 = easternDay s by omega, ← hsame] at hopen
    have hseconds : Stamp.seconds ⟨(civilOf (easternDay s)).y, (civilOf (easternDay s)).m, (civilOf (easternDay s)).d,
        ((easternLocal t % 86400).toNat / 3600 : Nat), ((easternLocal t % 86400).toNat / 60 % 60 : Nat),
        ((easternLocal t % 86400).toNat % 60 : Nat),
        easternUtcOffsetS ((civilOf (easternDay s)).days * 86400 + 5 * 3600), 0⟩ = s := by
      have hd : daysFromCivil (civilOf (easternDay s)).y (civilOf (easternDay s)).m (civilOf (easternDay s)).d =
        easternDay s := hdays
      simp only [Stamp.seconds, Stamp.days, hd, hdays, hopen, hlocal]
      omega
    rw [Stamp.inRange, if_pos, Stamp.instant, hseconds, hs, add_zero]
    rw [Stamp.representable_iff, hseconds]
    dsimp only
    omega

/-- The first instant, which is in 1969 in New York, and one on the day of a clock change. -/
theorem eastern_consistent_epoch :
    (easternDate 0 = ⟨1969, 12, 31⟩ ∧ (easternDate 0).midnightNs ≤ 0 ∧
      parseEasternMdyTime (mdyText (easternDate 0)) (easternHms 0) = some (some 0)) ∧
    (easternDate 1793520000000000000).next.midnightNs - (easternDate 1793520000000000000).midnightNs = 90000000000000 := by
  obtain ⟨⟨hle, -⟩, -, -, hback⟩ := eastern_consistent (t := 0) (by decide) (by decide)
  obtain ⟨-, -, hgap, -⟩ := eastern_consistent (t := 1793520000000000000) (by decide) (by decide)
  refine ⟨⟨by decide, hle, hback (by decide) (by decide)⟩, ?_⟩
  rw [hgap]
  decide

example : easternHms 1700000000000000000 = lit "17:13:20" := by
  rw [lit_ofList]
  decide +kernel

end Stok.Time
