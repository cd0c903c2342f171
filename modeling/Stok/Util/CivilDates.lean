import Mathlib.Tactic.IntervalCases
import Stok.Util.Calendar

/-!
# Dates and day numbers

The civil calendar as the Gregorian calendar has it: leap years, the lengths of the months, the date
after a date. `daysFromCivil` numbers these dates one after the other (`daysFromCivil_next`), so it
keeps their order, and `civilFromDays` is its inverse on the years that an `int` holds.
-/

namespace Stok.Time

/-! ## The Gregorian calendar -/

def IsLeap (y : Int) : Prop := y % 4 = 0 ∧ (y % 100 ≠ 0 ∨ y % 400 = 0)

instance (y : Int) : Decidable (IsLeap y) := inferInstanceAs (Decidable (_ ∧ _))

def daysInMonth (y : Int) (m : Nat) : Nat :=
  if m = 2 then if IsLeap y then 29 else 28
  else if m = 4 ∨ m = 6 ∨ m = 9 ∨ m = 11 then 30
  else 31

namespace Civil

/-- The day number. -/
def days (c : Civil) : Int := daysFromCivil c.y c.m c.d

/-- A date that the calendar has. -/
structure Valid (c : Civil) : Prop where
  month : 1 ≤ c.m ∧ c.m ≤ 12
  day : 1 ≤ c.d ∧ c.d ≤ daysInMonth c.y c.m

/-- The order of dates: by year, then by month, then by day. -/
def Before (a b : Civil) : Prop := a.y < b.y ∨ a.y = b.y ∧ (a.m < b.m ∨ a.m = b.m ∧ a.d < b.d)

/-- The date after a date. -/
def next (c : Civil) : Civil :=
  if c.d < daysInMonth c.y c.m then { c with d := c.d + 1 }
  else if c.m < 12 then { y := c.y, m := c.m + 1, d := 1 }
  else { y := c.y + 1, m := 1, d := 1 }

theorem before_trichotomy (a b : Civil) : a.Before b ∨ a = b ∨ b.Before a := by
  obtain ⟨ya, ma, da⟩ := a
  obtain ⟨yb, mb, db⟩ := b
  simp only [Before, mk.injEq]
  omega

end Civil

/-! ## Day numbers -/

/-- The day number without eras, on the year that begins in March. -/
theorem daysFromCivil_eq {y : Int} {m d : Nat} (hd : 1 ≤ d) :
    daysFromCivil y m d =
      365 * (if m ≤ 2 then y - 1 else y) + (if m ≤ 2 then y - 1 else y) / 4 -
        (if m ≤ 2 then y - 1 else y) / 100 + (if m ≤ 2 then y - 1 else y) / 400 +
        (153 * (if 2 < m then (m : Int) - 3 else m + 9) + 2) / 5 + d - 719469 := by
  simp only [daysFromCivil]
  generalize (if m ≤ 2 then y - 1 else y) = y'
  rw [tdiv_floor (n := 400) (m := 399) (by decide) rfl]
  have hyoe : ((y' - y' / 400 * 400).toNat : Int) = y' % 400 := by omega
  have hle : (y' - y' / 400 * 400).toNat < 400 := by omega
  generalize (y' - y' / 400 * 400).toNat = yoe at hyoe hle ⊢
  have h4 : y' / 4 = 100 * (y' / 400) + yoe / 4 := by omega
  have h100 : y' / 100 = 4 * (y' / 400) + yoe / 100 := by omega
  split <;> omega

/-- The days of February: March begins 29 or 28 days after it does. -/
theorem days_march {y : Int} {d : Nat} (hd : 1 ≤ d) :
    daysFromCivil y 3 1 = daysFromCivil y 2 d + (daysInMonth y 2 - d) + 1 := by
  have hlen : (daysInMonth y 2 : Int) = if IsLeap y then 29 else 28 := by
    unfold daysInMonth
    rw [if_pos rfl]
    split <;> rfl
  rw [daysFromCivil_eq hd, daysFromCivil_eq le_rfl, hlen]
  simp only [if_true, le_refl, if_neg (show ¬ (3 ≤ 2) by decide), if_pos (show 2 < 3 by decide), if_neg (lt_irrefl 2)]
  split
  · rename_i hleap
    obtain ⟨h4, h100⟩ := hleap
    omega
  · rename_i hleap
    unfold IsLeap at hleap
    omega

theorem days_next_month {y : Int} {m d : Nat} (hm : 1 ≤ m ∧ m < 12) (hd : 1 ≤ d) :
    daysFromCivil y (m + 1) 1 = daysFromCivil y m d + (daysInMonth y m - d) + 1 := by
  obtain ⟨h1, h12⟩ := hm
  by_cases hfeb : m = 2
  · rw [hfeb]
    exact days_march hd
  rw [daysFromCivil_eq hd, daysFromCivil_eq le_rfl]
  interval_cases m
  all_goals first | exact absurd rfl hfeb | (simp [daysInMonth]; omega)

theorem days_next_year {y : Int} {d : Nat} (hd : 1 ≤ d) :
    daysFromCivil (y + 1) 1 1 = daysFromCivil y 12 d + (daysInMonth y 12 - d) + 1 := by
  rw [daysFromCivil_eq hd, daysFromCivil_eq le_rfl]
  simp [daysInMonth]
  omega

theorem days_day {y : Int} {m d : Nat} (hd : 1 ≤ d) :
    daysFromCivil y m d = daysFromCivil y m 1 + (d - 1) := by
  rw [daysFromCivil_eq hd, daysFromCivil_eq le_rfl]
  omega

theorem days_month_mono (y : Int) {m m' : Nat} (hm : 1 ≤ m) (hle : m ≤ m') :
    daysFromCivil y m 1 ≤ daysFromCivil y m' 1 := by
  rw [daysFromCivil_eq le_rfl, daysFromCivil_eq le_rfl]
  rcases Nat.lt_or_ge 2 m with h | h
  · have h' : 2 < m' := lt_of_lt_of_le h hle
    simp only [if_pos h, if_pos h', if_neg h.not_ge, if_neg h'.not_ge]
    omega
  · rcases Nat.lt_or_ge 2 m' with h' | h'
    · simp only [if_pos h, if_pos h', if_neg h.not_gt, if_neg h'.not_ge]
      omega
    · simp only [if_pos h, if_pos h', if_neg h.not_gt, if_neg h'.not_gt]
      omega

theorem days_year_mono {y y' : Int} (hle : y ≤ y') : daysFromCivil y 1 1 ≤ daysFromCivil y' 1 1 := by
  rw [daysFromCivil_eq le_rfl, daysFromCivil_eq le_rfl]
  simp only [if_pos (show 1 ≤ 2 by decide)]
  omega

namespace Civil

variable {a b c : Civil}

theorem Valid.days_ge (h : c.Valid) : daysFromCivil c.y c.m 1 ≤ c.days := by
  rw [days, days_day h.day.1]
  have := h.day.1
  omega

theorem Valid.days_lt_month (h : c.Valid) (hm : c.m < 12) : c.days < daysFromCivil c.y (c.m + 1) 1 := by
  rw [days_next_month ⟨h.month.1, hm⟩ h.day.1]
  have := h.day.2
  change c.days < c.days + _ + 1
  omega

theorem Valid.days_lt_year (h : c.Valid) : c.days < daysFromCivil (c.y + 1) 1 1 := by
  have hdec := days_next_year (y := c.y) le_rfl
  have hlen : 1 ≤ daysInMonth c.y 12 := by simp [daysInMonth]
  rcases h.month.2.lt_or_eq with hm | hm
  · have h1 := h.days_lt_month hm
    have h2 := days_month_mono c.y (show 1 ≤ c.m + 1 by omega) (show c.m + 1 ≤ 12 by omega)
    omega
  · have h1 := days_next_year (y := c.y) h.day.1
    have h2 := h.day.2
    have h3 : c.days = daysFromCivil c.y 12 c.d := by rw [days, hm]
    rw [hm] at h2
    omega

theorem Before.days_lt (ha : a.Valid) (hb : b.Valid) (h : a.Before b) : a.days < b.days := by
  have hge := hb.days_ge
  rcases h with hy | ⟨hy, hm | ⟨hm, hd⟩⟩
  · have h1 := ha.days_lt_year
    have h2 := days_year_mono (show a.y + 1 ≤ b.y by omega)
    have h3 := days_month_mono b.y le_rfl hb.month.1
    omega
  · have h1 := ha.days_lt_month (by have := hb.month.2; omega)
    have h2 := days_month_mono b.y (show 1 ≤ a.m + 1 by omega) (show a.m + 1 ≤ b.m by omega)
    rw [hy] at h1
    omega
  · rw [days, days, hy, hm, days_day ha.day.1, days_day hb.day.1]
    omega

theorem before_iff (ha : a.Valid) (hb : b.Valid) : a.Before b ↔ a.days < b.days := by
  refine ⟨Before.days_lt ha hb, fun hlt => ?_⟩
  rcases before_trichotomy a b with h | rfl | h
  · exact h
  · exact absurd hlt (lt_irrefl _)
  · exact absurd (h.days_lt hb ha) hlt.asymm

theorem Valid.days_inj (ha : a.Valid) (hb : b.Valid) (h : a.days = b.days) : a = b := by
  rcases before_trichotomy a b with hab | hab | hab
  · exact absurd h (hab.days_lt ha hb).ne
  · exact hab
  · exact absurd h (hab.days_lt hb ha).ne'

theorem Valid.next (h : c.Valid) : c.next.Valid ∧ c.next.days = c.days + 1 := by
  obtain ⟨⟨hm, hm'⟩, hd, hd'⟩ := h
  have hpos : ∀ (y : Int) (m : Nat), 1 ≤ daysInMonth y m := by
    intro y m
    unfold daysInMonth
    split_ifs <;> decide
  unfold Civil.next
  split
  · rename_i hlt
    refine ⟨⟨⟨hm, hm'⟩, Nat.succ_pos _, hlt⟩, ?_⟩
    change daysFromCivil c.y c.m (c.d + 1) = daysFromCivil c.y c.m c.d + 1
    rw [days_day hd, days_day (show 1 ≤ c.d + 1 by omega)]
    omega
  · rename_i hlast
    split
    · rename_i hlt
      refine ⟨⟨⟨Nat.succ_pos _, hlt⟩, le_rfl, hpos _ _⟩, ?_⟩
      change daysFromCivil c.y (c.m + 1) 1 = c.days + 1
      rw [days_next_month ⟨hm, hlt⟩ hd]
      change c.days + _ + 1 = _
      omega
    · rename_i hdec
      have hm12 : c.m = 12 := by omega
      refine ⟨⟨⟨le_rfl, show 1 ≤ 12 by decide⟩, le_rfl, hpos _ _⟩, ?_⟩
      rw [hm12] at hd' hlast
      change daysFromCivil (c.y + 1) 1 1 = c.days + 1
      rw [days_next_year hd, days, hm12]
      omega

end Civil

/-! ## The date of a day number -/

/-- A year that an `int` holds. -/
def FitsInt (y : Int) : Prop := -2 ^ 31 ≤ y ∧ y < 2 ^ 31

instance (y : Int) : Decidable (FitsInt y) := inferInstanceAs (Decidable (_ ∧ _))

/-- The date before its year is converted to `int`. -/
def civilOf (z : Int) : Civil := { civilFromDays z with y := yearOf z }

theorem civilFromDays_eq {z : Int} (h : FitsInt (yearOf z)) : civilFromDays z = civilOf z := by
  have hy : (civilFromDays z).y = yearOf z := by rw [civilFromDays_y, toInt_eq h.1 h.2]
  rw [civilOf, ← hy]

theorem days_civilOf (z : Int) : (civilOf z).days = z := daysFromCivil_yearOf z

/-- The last day of a February that is 29 days long ends a year that is a multiple of four, and of
400 when it is one of 100. -/
theorem EraDay.isLeap {doe c q n : Nat} (h : EraDay doe c q n 365) (era : Int) :
    IsLeap ((100 * c + 4 * q + n : Nat) + era * 400 + 1) := by
  obtain ⟨hn, hq⟩ := h.leap rfl
  have hc := h.century
  have hq' := h.cycle
  unfold IsLeap
  rcases Nat.lt_or_ge q 24 with hlt | hge
  · omega
  · have := hq (by omega)
    omega

theorem civilOf_valid (z : Int) : (civilOf z).Valid := by
  refine ⟨(civilFromDays_bounds z).1, (civilFromDays_bounds z).2.1, ?_⟩
  have hfloor : (if 0 ≤ z + 719468 then z + 719468 else z + 719468 - 146096).tdiv 146097 =
      (z + 719468) / 146097 := tdiv_floor (n := 146097) (by decide) rfl _
  simp only [civilOf, civilFromDays, yearOf, hfloor]
  have hdoe : (z + 719468 - (z + 719468) / 146097 * 146097).toNat < 146097 := by omega
  generalize (z + 719468) / 146097 = era at hdoe ⊢
  generalize (z + 719468 - era * 146097).toNat = doe at hdoe ⊢
  obtain ⟨c, q, n, y, hd⟩ := eraDay hdoe
  have hdoy : doe - (36524 * c + 1461 * q + 365 * n) = y := by
    have := hd.eq
    omega
  rw [hd.yoe, hd.before, hdoy]
  have hday := hd.day
  have hleap : y = 365 → IsLeap ((100 * c + 4 * q + n : Nat) + era * 400 + 1) := by
    rintro rfl
    exact hd.isLeap era
  have hmp : (5 * y + 2) / 153 ≤ 11 := by omega
  generalize hk : (5 * y + 2) / 153 = mp at hmp ⊢
  push_cast at hleap
  rcases hmp.lt_or_eq with hlt | rfl
  · interval_cases mp
    all_goals simp only [daysInMonth]
    all_goals norm_num
    all_goals omega
  · -- February, the last month of the year that begins in March
    simp only [daysInMonth]
    norm_num
    split
    · omega
    · have : y ≠ 365 := fun hy => absurd (hleap hy) ‹_›
      omega

theorem civilOf_days {c : Civil} (h : c.Valid) : civilOf c.days = c :=
  (civilOf_valid _).days_inj h (days_civilOf _)

/-- The years begin on the first of January. -/
theorem le_year_iff {a z : Int} : a ≤ (civilOf z).y ↔ daysFromCivil a 1 1 ≤ z := by
  have hvalid := civilOf_valid z
  have hdays := days_civilOf z
  constructor
  · intro h
    have h1 := hvalid.days_ge
    have h2 := days_year_mono h
    have h3 := days_month_mono (civilOf z).y le_rfl hvalid.month.1
    omega
  · intro h
    by_contra hlt
    have h1 := hvalid.days_lt_year
    have h2 := days_year_mono (show (civilOf z).y + 1 ≤ a by omega)
    omega

/-! ## Weekdays -/

theorem weekdayFromDays_eq (z : Int) : weekdayFromDays z = (z + 4) % 7 := by
  unfold weekdayFromDays
  split
  · exact Int.tmod_eq_emod_of_nonneg (by omega)
  · have hneg : z + 5 = -(-(z + 5)) := by omega
    rw [hneg, Int.neg_tmod, Int.tmod_eq_emod_of_nonneg (by omega)]
    omega

/-- The calendar is a bijection between the day numbers and the dates, in order and without gaps,
and the weekdays go round. -/
theorem calendar_bijection :
    (∀ z, FitsInt (yearOf z) → (civilFromDays z).Valid ∧ (civilFromDays z).days = z) ∧
    (∀ c : Civil, c.Valid → FitsInt c.y → civilFromDays c.days = c) ∧
    (∀ a b : Civil, a.Valid → b.Valid → (a.Before b ↔ a.days < b.days)) ∧
    (∀ c : Civil, c.Valid → c.next.Valid ∧ c.next.days = c.days + 1) ∧
    (∀ z, weekdayFromDays (z + 1) = (weekdayFromDays z + 1) % 7) ∧
    weekdayFromDays (daysFromCivil 1970 1 1) = 4 := by
  refine ⟨fun z hz => ?_, fun c hc hy => ?_, fun a b ha hb => Civil.before_iff ha hb,
    fun c hc => hc.next, fun z => ?_, by decide⟩
  · rw [civilFromDays_eq hz]
    exact ⟨civilOf_valid z, days_civilOf z⟩
  · have hof := civilOf_days hc
    have hyear : yearOf c.days = c.y := congrArg Civil.y hof
    rw [civilFromDays_eq (by rwa [hyear]), hof]
  · rw [weekdayFromDays_eq, weekdayFromDays_eq]
    omega

/-- The last day of February in a year of 400, before the common era. -/
theorem calendar_bijection_leap :
    (civilFromDays (-865566)).Valid ∧ civilFromDays (daysFromCivil (-400) 2 29) = ⟨-400, 2, 29⟩ ∧
      (Civil.Before ⟨-400, 2, 28⟩ ⟨-400, 2, 29⟩ ↔
        daysFromCivil (-400) 2 28 < daysFromCivil (-400) 2 29) ∧
      daysFromCivil (-400) 3 1 = daysFromCivil (-400) 2 29 + 1 := by
  have hvalid : Civil.Valid ⟨-400, 2, 29⟩ := ⟨by decide, by decide⟩
  exact ⟨(calendar_bijection.1 _ (by decide)).1, calendar_bijection.2.1 ⟨-400, 2, 29⟩ hvalid (by decide),
    calendar_bijection.2.2.1 ⟨-400, 2, 28⟩ _ ⟨by decide, by decide⟩ hvalid,
    (calendar_bijection.2.2.2.1 _ hvalid).2⟩

end Stok.Time
