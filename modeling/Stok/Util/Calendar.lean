import Stok.Core.Decimal
import Stok.Util.Time

/-!
# The calendar

A day number is the day number of its date, and the Eastern date does not go back: the clock
changes lie between 06:00 and 07:00 UTC, when it is the same day in New York and in London.
-/

namespace Stok.Time

/-- The source's division rounded down. -/
theorem tdiv_floor {n m : Int} (hn : 0 < n) (hm : m = n - 1) (s : Int) :
    (if 0 ≤ s then s else s - m).tdiv n = s / n := by
  subst hm
  split
  · rw [Int.tdiv_eq_ediv_of_nonneg ‹_›]
  · have hneg : s - (n - 1) = -(n - 1 - s) := by omega
    rw [hneg, Int.neg_tdiv, Int.tdiv_eq_ediv_of_nonneg (by omega)]
    symm
    rw [Int.ediv_eq_iff_of_pos hn]
    have hdiv := Int.emod_add_mul_ediv (n - 1 - s) n
    have hnonneg := Int.emod_nonneg (n - 1 - s) (by omega : n ≠ 0)
    have hlt := Int.emod_lt_of_pos (n - 1 - s) hn
    generalize (n - 1 - s) / n = q at *
    constructor <;> nlinarith

theorem dayOf_eq (s : Int) : dayOf s = s / 86400 :=
  tdiv_floor (n := 86400) (by decide) rfl s

/-! ## Days and dates -/

/-- A day of an era of 400 years by century, cycle of four years, year and day. -/
structure EraDay (doe c q n y : Nat) : Prop where
  century : c ≤ 3
  cycle : q ≤ 24
  year : n ≤ 3
  day : y ≤ 365
  leap : y = 365 → n = 3 ∧ (q = 24 → c = 3)
  eq : doe = 36524 * c + 1461 * q + 365 * n + y

theorem eraDay {doe : Nat} (h : doe < 146097) : ∃ c q n y, EraDay doe c q n y := by
  have hr : doe - 36524 * min (doe / 36524) 3 ≤ 36524 := by omega
  have hle : 36524 * min (doe / 36524) 3 ≤ doe := by omega
  generalize hc : min (doe / 36524) 3 = c at *
  have hlast : doe - 36524 * c = 36524 → c = 3 := by omega
  generalize hr' : doe - 36524 * c = r at *
  refine ⟨c, r / 1461, min (r % 1461 / 365) 3, r % 1461 - 365 * min (r % 1461 / 365) 3,
    by omega, by omega, by omega, by omega, fun hy => ⟨by omega, fun hq => hlast (by omega)⟩, by omega⟩

/-- The year of the era that the source computes. -/
theorem EraDay.yoe {doe c q n y : Nat} (h : EraDay doe c q n y) :
    (doe - doe / 1460 + doe / 36524 - doe / 146096) / 365 = 100 * c + 4 * q + n := by
  obtain ⟨hc, hq, hn, hy, hleap, hdoe⟩ := h
  have h1 : 25 * c + q ≤ doe / 1460 := by omega
  have h2 : doe / 1460 ≤ 25 * c + q + 1 := by omega
  have h3 : doe / 1460 = 25 * c + q + 1 → 1 ≤ y := by omega
  have h4 : y = 365 → doe / 1460 = 25 * c + q + 1 := by omega
  have h5 : doe / 36524 = c + doe / 146096 := by
    rcases Nat.lt_or_ge doe 146096 with hlt | hge
    · have hlt' : doe < 36524 * (c + 1) := by
        rcases Nat.lt_or_ge y 365 with h | h
        · omega
        · have := hleap (by omega)
          omega
      rw [Nat.div_eq_of_lt hlt]
      omega
    · have : doe = 146096 ∧ c = 3 := by
        interval_cases c <;> omega
      omega
  generalize doe / 1460 = g at *
  generalize doe / 36524 = a at *
  generalize doe / 146096 = b at *
  subst h5
  omega

/-- The days before the year of the era. -/
theorem EraDay.before {doe c q n y : Nat} (h : EraDay doe c q n y) :
    365 * (100 * c + 4 * q + n) + (100 * c + 4 * q + n) / 4 - (100 * c + 4 * q + n) / 100 =
      36524 * c + 1461 * q + 365 * n := by
  obtain ⟨hc, hq, hn, -, -, -⟩ := h
  have h1 : (100 * c + 4 * q + n) / 4 = 25 * c + q := by omega
  have h2 : (100 * c + 4 * q + n) / 100 = c := by omega
  rw [h1, h2]
  omega

/-- The year of a day number, before its conversion to `int`. -/
def yearOf (z : Int) : Int :=
  let z := z + 719468
  let era := z / 146097
  let doe := (z - era * 146097).toNat
  let yoe := (doe - doe / 1460 + doe / 36524 - doe / 146096) / 365
  let mp := (5 * (doe - (365 * yoe + yoe / 4 - yoe / 100)) + 2) / 153
  yoe + era * 400 + if (if mp < 10 then mp + 3 else mp - 9) ≤ 2 then 1 else 0

theorem toInt_eq {x : Int} (h : -2 ^ 31 ≤ x) (h' : x < 2 ^ 31) : toInt x = x := by
  rw [toInt, Int.bmod_eq_of_le]
  · exact le_trans (by decide) h
  · exact lt_of_lt_of_le h' (by decide)

theorem civilFromDays_y (z : Int) : (civilFromDays z).y = toInt (yearOf z) := by
  have hfloor : (if 0 ≤ z + 719468 then z + 719468 else z + 719468 - 146096).tdiv 146097 =
      (z + 719468) / 146097 := tdiv_floor (n := 146097) (by decide) rfl _
  simp only [civilFromDays, yearOf, hfloor]

/-- The day number of the date of a day number is that day number, while the year is not converted. -/
theorem daysFromCivil_yearOf (z : Int) :
    daysFromCivil (yearOf z) (civilFromDays z).m (civilFromDays z).d = z := by
  have hfloor : (if 0 ≤ z + 719468 then z + 719468 else z + 719468 - 146096).tdiv 146097 =
      (z + 719468) / 146097 := tdiv_floor (n := 146097) (by decide) rfl _
  simp only [civilFromDays, hfloor, yearOf]
  have hdoe : (z + 719468 - (z + 719468) / 146097 * 146097).toNat < 146097 := by omega
  have hz : z = (z + 719468) / 146097 * 146097 +
      (z + 719468 - (z + 719468) / 146097 * 146097).toNat - 719468 := by omega
  generalize (z + 719468) / 146097 = era at hdoe hz ⊢
  generalize (z + 719468 - era * 146097).toNat = doe at hdoe hz ⊢
  obtain ⟨c, q, n, y, hd⟩ := eraDay hdoe
  have hdoy : doe - (36524 * c + 1461 * q + 365 * n) = y := by
    have := hd.eq
    omega
  have hyoe : 100 * c + 4 * q + n ≤ 399 := by
    have := hd.century
    have := hd.cycle
    have := hd.year
    omega
  have hbefore := hd.before
  rw [hd.yoe, hbefore, hdoy]
  have hy365 := hd.day
  have heq := hd.eq
  generalize 100 * c + 4 * q + n = yoe at hyoe hbefore ⊢
  -- the month and the day of a day of the year that begins in March
  have hmp : (5 * y + 2) / 153 ≤ 11 := by omega
  have hstart : (153 * ((5 * y + 2) / 153) + 2) / 5 ≤ y := by omega
  generalize (5 * y + 2) / 153 = mp at hmp hstart ⊢
  have hera : (if 0 ≤ (yoe : Int) + era * 400 then (yoe : Int) + era * 400
      else (yoe : Int) + era * 400 - 399).tdiv 400 = era := by
    rw [tdiv_floor (n := 400) (m := 399) (by decide) rfl]
    omega
  have hback : (yoe : Int) + era * 400 - era * 400 = yoe := by omega
  rcases Nat.lt_or_ge mp 10 with hm | hm
  · have h1 : ¬ mp + 3 ≤ 2 := by omega
    simp only [if_pos hm, if_neg h1, daysFromCivil, add_zero, hera, hback, Int.toNat_natCast,
      if_pos (show 2 < mp + 3 by omega), Nat.add_sub_cancel]
    omega
  · have h1 : mp - 9 ≤ 2 := by omega
    simp only [if_neg (Nat.not_lt.mpr hm), if_pos h1, daysFromCivil, add_sub_cancel_right, hera,
      hback, Int.toNat_natCast, if_neg (show ¬ 2 < mp - 9 by omega),
      show mp - 9 + 9 = mp by omega]
    omega

theorem daysFromCivil_civilFromDays {z : Int} (h : toInt (yearOf z) = yearOf z) :
    daysFromCivil (civilFromDays z).y (civilFromDays z).m (civilFromDays z).d = z := by
  rw [civilFromDays_y, h]
  exact daysFromCivil_yearOf z

/-! ## The Eastern day -/

/-- Outside the hours in which the clocks change, the offset depends on the UTC day only. -/
theorem easternUtcOffsetS_day {s t : Int} (hday : s / 86400 = t / 86400) (hs : s % 86400 < 21600)
    (ht : t % 86400 < 21600) : easternUtcOffsetS s = easternUtcOffsetS t := by
  simp only [easternUtcOffsetS, dayOf_eq, hday]
  generalize daysFromCivil (civilFromDays (t / 86400)).y 3 1 +
    (7 - weekdayFromDays (daysFromCivil (civilFromDays (t / 86400)).y 3 1)).tmod 7 + 7 = a
  generalize daysFromCivil (civilFromDays (t / 86400)).y 11 1 +
    (7 - weekdayFromDays (daysFromCivil (civilFromDays (t / 86400)).y 11 1)).tmod 7 = b
  have hiff : (a * 86400 + 7 * 3600 ≤ s ∧ s < b * 86400 + 6 * 3600) ↔
      (a * 86400 + 7 * 3600 ≤ t ∧ t < b * 86400 + 6 * 3600) := by omega
  simp only [hiff]

theorem easternUtcOffsetS_cases (s : Int) :
    easternUtcOffsetS s = -14400 ∨ easternUtcOffsetS s = -18000 := by
  simp only [easternUtcOffsetS]
  split
  · exact .inl rfl
  · exact .inr rfl

/-- The Eastern date does not go back. -/
theorem easternLocal_day_mono {s t : Int} (hst : s ≤ t) :
    (s + easternUtcOffsetS s) / 86400 ≤ (t + easternUtcOffsetS t) / 86400 := by
  by_contra hlt
  have hs := easternUtcOffsetS_cases s
  have ht := easternUtcOffsetS_cases t
  -- then both instants lie in the hour before midnight Eastern standard time
  have hsame := easternUtcOffsetS_day (s := s) (t := t) (by omega) (by omega) (by omega)
  omega

theorem yearOf_bounds {z : Int} (h : -2 ^ 31 ≤ z) (h' : z ≤ 2 ^ 31) :
    -2 ^ 31 ≤ yearOf z ∧ yearOf z < 2 ^ 31 := by
  simp only [yearOf]
  have hera : (z + 719468) / 146097 ≤ 15000 ∧ -15000 ≤ (z + 719468) / 146097 := by omega
  have hdoe : (z + 719468 - (z + 719468) / 146097 * 146097).toNat < 146097 := by omega
  generalize (z + 719468) / 146097 = era at *
  generalize (z + 719468 - era * 146097).toNat = doe at *
  have hyoe : (doe - doe / 1460 + doe / 36524 - doe / 146096) / 365 ≤ 146097 := by omega
  generalize (doe - doe / 1460 + doe / 36524 - doe / 146096) / 365 = yoe at *
  split <;> omega

theorem daysFromCivil_easternDate {ns : Int} (h : -2 ^ 63 ≤ ns) (h' : ns < 2 ^ 63) :
    toInt (daysFromCivil (easternDate ns).y (easternDate ns).m (easternDate ns).d) =
      easternLocal ns / 86400 := by
  have hoff := easternUtcOffsetS_cases (ns.tdiv kNs)
  have hs : -9223372037 ≤ ns.tdiv kNs ∧ ns.tdiv kNs ≤ 9223372037 := by
    have hk : kNs = 1000000000 := rfl
    rw [hk]
    rcases Int.le_total 0 ns with hn | hn
    · rw [Int.tdiv_eq_ediv_of_nonneg hn]
      omega
    · rw [show ns = -(-ns) by omega, Int.neg_tdiv, Int.tdiv_eq_ediv_of_nonneg (by omega)]
      omega
  have hlocal : easternLocal ns = ns.tdiv kNs + easternUtcOffsetS (ns.tdiv kNs) := rfl
  have hz : -2 ^ 31 ≤ easternLocal ns / 86400 ∧ easternLocal ns / 86400 < 2 ^ 31 := by omega
  obtain ⟨hy, hy'⟩ := yearOf_bounds hz.1 hz.2.le
  rw [easternDate, dayOf_eq, daysFromCivil_civilFromDays (toInt_eq hy hy'), toInt_eq hz.1 hz.2]

/-- The month and the day of a date. -/
theorem civilFromDays_bounds (z : Int) :
    (1 ≤ (civilFromDays z).m ∧ (civilFromDays z).m ≤ 12) ∧ 1 ≤ (civilFromDays z).d ∧ (civilFromDays z).d ≤ 31 := by
  have hfloor : (if 0 ≤ z + 719468 then z + 719468 else z + 719468 - 146096).tdiv 146097 =
      (z + 719468) / 146097 := tdiv_floor (n := 146097) (by decide) rfl _
  simp only [civilFromDays, hfloor]
  have hdoe : (z + 719468 - (z + 719468) / 146097 * 146097).toNat < 146097 := by omega
  generalize (z + 719468 - (z + 719468) / 146097 * 146097).toNat = doe at hdoe ⊢
  obtain ⟨c, q, n, y, hd⟩ := eraDay hdoe
  have hdoy : doe - (36524 * c + 1461 * q + 365 * n) = y := by
    have := hd.eq
    omega
  rw [hd.yoe, hd.before, hdoy]
  have hy := hd.day
  have hmp : (5 * y + 2) / 153 ≤ 11 := by omega
  refine ⟨?_, by omega, by omega⟩
  split <;> omega

/-- A date with a year of four digits is read back. -/
theorem parseYmd_text {c : Civil} (hy : 0 ≤ c.y ∧ c.y ≤ 9999) (hm : 1 ≤ c.m ∧ c.m ≤ 12)
    (hd : 1 ≤ c.d ∧ c.d ≤ 31) :
    parseYmd (fmtInt 4 c.y ++ lit "-" ++ fmtInt 2 c.m ++ lit "-" ++ fmtInt 2 c.d) = some c := by
  obtain ⟨y, hyn⟩ : ∃ y : Nat, c.y = y := ⟨c.y.toNat, by omega⟩
  have hfmt : ∀ w n : Nat, fmtInt w (n : Int) = Dbl.padded w n := fun w n => if_neg (by omega)
  obtain ⟨hylen, hydig, hyval⟩ := Dbl.padded_spec (w := 4) (n := y) (by decide) (by omega)
  obtain ⟨hmlen, hmdig, hmval⟩ := Dbl.padded_spec (w := 2) (n := c.m) (by decide) (by omega)
  obtain ⟨hdlen, hddig, hdval⟩ := Dbl.padded_spec (w := 2) (n := c.d) (by decide) (by omega)
  rw [hyn, hfmt, hfmt, hfmt]
  generalize hys : Dbl.padded 4 y = ys at *
  generalize hms : Dbl.padded 2 c.m = ms at *
  generalize hds : Dbl.padded 2 c.d = ds at *
  have htext : ys ++ lit "-" ++ ms ++ lit "-" ++ ds = ys ++ (ch '-' :: (ms ++ (ch '-' :: ds))) := by
    simp [lit]
  have hread : ∀ {lo hi : Int} {t : Bytes} {n : Nat}, (∀ b ∈ t, isDigit b = true) → t.length ≠ 0 →
      digitsVal t = n → lo ≤ n → (n : Int) ≤ hi → parseInt lo hi t = some (n : Int) := by
    intro lo hi t n ht hlen hval hlo hhi
    rw [← hval] at hlo hhi ⊢
    exact Dbl.parseInt_digits ht (fun h => hlen (by rw [h]; rfl)) hlo hhi
  have hY : parseI32 ys = some (y : Int) := hread hydig (by omega) hyval (by omega) (by omega)
  have hM : parseU32 ms = some (c.m : Int) := hread hmdig (by omega) hmval (by omega) (by omega)
  have hD : parseU32 ds = some (c.d : Int) := hread hddig (by omega) hdval (by omega) (by omega)
  have htrim : trim (ys ++ (ch '-' :: (ms ++ (ch '-' :: ds)))) = ys ++ (ch '-' :: (ms ++ (ch '-' :: ds))) := by
    refine trim_eq_self (fun b hb => ?_) fun b hb => ?_
    · rw [List.head?_append_of_ne_nil _ (fun h => by simp [h] at hylen)] at hb
      exact Dbl.isSpace_of_isDigit (hydig b (List.mem_of_head? hb))
    · have hlast : (ys ++ (ch '-' :: (ms ++ (ch '-' :: ds)))).getLast? = ds.getLast? := by
        have hne : ds ≠ [] := fun h => by simp [h] at hdlen
        rw [show ys ++ (ch '-' :: (ms ++ (ch '-' :: ds))) = (ys ++ (ch '-' :: (ms ++ [ch '-']))) ++ ds by simp,
          List.getLast?_append_of_ne_nil _ hne]
      exact Dbl.isSpace_of_isDigit (hddig b (List.mem_of_getLast? (hlast ▸ hb)))
  have h4 : byteAt (ys ++ (ch '-' :: (ms ++ (ch '-' :: ds)))) 4 = ch '-' := by
    simp [byteAt, hylen]
  have h7 : byteAt (ys ++ (ch '-' :: (ms ++ (ch '-' :: ds)))) 7 = ch '-' := by
    rw [byteAt, List.getD_eq_getElem?_getD, List.getElem?_append_right (by omega),
      show 7 - ys.length = ms.length + 1 by omega, List.getElem?_cons_succ, List.getElem?_append_right (le_refl _),
      Nat.sub_self]
    rfl
  have ht1 : (ys ++ (ch '-' :: (ms ++ (ch '-' :: ds)))).take 4 = ys := by
    rw [← hylen, List.take_left]
  have ht2 : ((ys ++ (ch '-' :: (ms ++ (ch '-' :: ds)))).drop 5).take 2 = ms := by
    rw [show (5 : Nat) = ys.length + 1 by omega, ← List.drop_drop, List.drop_left, List.drop_one, List.tail_cons,
      ← hmlen, List.take_left]
  have ht3 : ((ys ++ (ch '-' :: (ms ++ (ch '-' :: ds)))).drop 8).take 2 = ds := by
    rw [show (8 : Nat) = ys.length + (1 + (ms.length + 1)) by omega, ← List.drop_drop, List.drop_left,
      ← List.drop_drop, List.drop_one, List.tail_cons, ← List.drop_drop, List.drop_left, List.drop_one,
      List.tail_cons, ← hdlen, List.take_length]
  have hlen : 10 ≤ (ys ++ (ch '-' :: (ms ++ (ch '-' :: ds)))).length := by
    simp only [List.length_append, List.length_cons]
    omega
  rw [htext]
  unfold parseYmd
  simp only [htrim, h4, h7, hlen, ht1, ht2, ht3, hY, hM, hD]
  have hc : (1 : Int) ≤ c.m ∧ (c.m : Int) ≤ 12 ∧ (1 : Int) ≤ c.d ∧ (c.d : Int) ≤ 31 := by omega
  simp [guard, hc, ← hyn]

end Stok.Time
