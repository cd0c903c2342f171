import Stok.Util.DateRange

/-!
# Timestamps as text

An ISO timestamp is a row of numbers of fixed width. Such a text is read back field by field
(`readInt_padded`), and it sorts as its fields do (`fieldsText_lt`).
-/

namespace Stok.Time

/-! ## Numbers of fixed width -/

/-- Digits are read up to the limit, or up to a byte that is none. -/
theorem readInt_append {k : Nat} {ds r : Bytes} (hne : ds ≠ []) (hdigits : ∀ c ∈ ds, isDigit c = true)
    (hlen : ds.length ≤ k) (hr : ds.length = k ∨ ∀ c, r.head? = some c → isDigit c = false) :
    readInt k (ds ++ r) = ((digitsVal ds : Int), ds.length, r) := by
  have hstop : ∀ c, (r.take (k - ds.length)).head? = some c → isDigit c = false := by
    intro c hc
    rcases hr with hk | hr
    · rw [hk, Nat.sub_self, List.take_zero] at hc
      cases hc
    · cases r with
      | nil => simp at hc
      | cons d r =>
        rw [List.head?_take] at hc
        split at hc
        · cases hc
        · exact hr c hc
  have htake : (ds ++ r).take k = ds ++ r.take (k - ds.length) := by
    rw [List.take_append, List.take_of_length_le hlen]
  simp only [readInt, htake, (Dbl.takeWhile_digits hdigits hstop).1, if_neg hne, List.drop_left]

theorem readInt_padded {w n : Nat} (hw : 0 < w) (h : n < 10 ^ w) (r : Bytes) :
    readInt w (Dbl.padded w n ++ r) = ((n : Int), w, r) := by
  obtain ⟨hlen, hdigits, hval⟩ := Dbl.padded_spec hw h
  have hne : Dbl.padded w n ≠ [] := List.ne_nil_of_length_pos (hlen.symm ▸ hw)
  rw [readInt_append hne hdigits hlen.le (.inl hlen), hval, hlen]

theorem isDigit_iff {c : UInt8} : isDigit c = true ↔ 48 ≤ c.toNat ∧ c.toNat ≤ 57 := by
  simp only [isDigit, decide_eq_true_eq, UInt8.le_iff_toNat_le]
  rfl

theorem digitsVal_cons (c : UInt8) (ds : Bytes) :
    digitsVal (c :: ds) = (c.toNat - 48) * 10 ^ ds.length + digitsVal ds := by
  induction ds using List.reverseRecOn with
  | nil => simp [digitsVal]
  | append_singleton ds d ih =>
    rw [← List.cons_append, Dbl.digitsVal_concat, ih, Dbl.digitsVal_concat, List.length_append, List.length_singleton,
      pow_succ]
    ring

/-- Strings of as many digits sort as their values. -/
theorem digits_lt {a b : Bytes} (hlen : a.length = b.length) (ha : ∀ c ∈ a, isDigit c = true)
    (hb : ∀ c ∈ b, isDigit c = true) (h : digitsVal a < digitsVal b) : a < b := by
  induction a generalizing b with
  | nil =>
    obtain rfl : b = [] := List.length_eq_zero_iff.mp hlen.symm
    exact absurd h (lt_irrefl _)
  | cons c a ih =>
    cases b with
    | nil => cases hlen
    | cons d b =>
      have hlen' : a.length = b.length := Nat.succ.inj hlen
      have hc := isDigit_iff.mp (ha c (List.mem_cons_self ..))
      have hd := isDigit_iff.mp (hb d (List.mem_cons_self ..))
      have ha' : ∀ x ∈ a, isDigit x = true := fun x hx => ha x (List.mem_cons_of_mem _ hx)
      have hb' : ∀ x ∈ b, isDigit x = true := fun x hx => hb x (List.mem_cons_of_mem _ hx)
      rw [digitsVal_cons, digitsVal_cons, hlen'] at h
      have hblt := Dbl.digitsVal_lt hb'
      rw [List.cons_lt_cons_iff]
      rcases Nat.lt_trichotomy c.toNat d.toNat with hlt | heq | hgt
      · exact .inl hlt
      · rw [heq] at h
        exact .inr ⟨UInt8.toNat_inj.mp heq, ih hlen' ha' hb' (by omega)⟩
      · have hmul : (d.toNat - 48 + 1) * 10 ^ b.length ≤ (c.toNat - 48) * 10 ^ b.length :=
          Nat.mul_le_mul_right _ (by omega)
        rw [add_mul, one_mul] at hmul
        omega

theorem padded_lt {w m n : Nat} (hw : 0 < w) (hn : n < 10 ^ w) (h : m < n) : Dbl.padded w m < Dbl.padded w n := by
  obtain ⟨hlen, hdigits, hval⟩ := Dbl.padded_spec hw (h.trans hn)
  obtain ⟨hlen', hdigits', hval'⟩ := Dbl.padded_spec hw hn
  exact digits_lt (hlen.trans hlen'.symm) hdigits hdigits' (by rwa [hval, hval'])

theorem append_lt_append {a b x y : Bytes} (hlen : a.length = b.length) (h : a < b) : a ++ x < b ++ y := by
  induction a generalizing b with
  | nil =>
    obtain rfl : b = [] := List.length_eq_zero_iff.mp hlen.symm
    cases h
  | cons c a ih =>
    cases b with
    | nil => cases hlen
    | cons d b =>
      rw [List.cons_append, List.cons_append, List.cons_lt_cons_iff]
      rcases List.cons_lt_cons_iff.mp h with hlt | ⟨heq, hlt⟩
      · exact .inl hlt
      · exact .inr ⟨heq, ih (Nat.succ.inj hlen) hlt⟩

/-- Numbers of the given widths, each with a byte after it. -/
def fieldsText : List (Nat × UInt8) → List Nat → Bytes
  | (w, sep) :: fs, n :: ns => Dbl.padded w n ++ sep :: fieldsText fs ns
  | _, _ => []

/-- Each number has digits for its width. -/
def Fits : List (Nat × UInt8) → List Nat → Prop
  | (w, _) :: fs, n :: ns => 0 < w ∧ n < 10 ^ w ∧ Fits fs ns
  | [], [] => True
  | _, _ => False

theorem fieldsText_lt {fs : List (Nat × UInt8)} {ns ns' : List Nat} (h : Fits fs ns) (h' : Fits fs ns')
    (hlt : ns < ns') : fieldsText fs ns < fieldsText fs ns' := by
  induction fs generalizing ns ns' with
  | nil =>
    cases ns with
    | cons _ _ => cases h
    | nil =>
      cases ns' with
      | cons _ _ => cases h'
      | nil => cases hlt
  | cons f fs ih =>
    cases ns with
    | nil => cases h
    | cons n ns =>
      cases ns' with
      | nil => cases h'
      | cons n' ns' =>
        obtain ⟨hw, hn, hrest⟩ := h
        obtain ⟨-, hn', hrest'⟩ := h'
        rcases List.cons_lt_cons_iff.mp hlt with hlt | ⟨rfl, htail⟩
        · have hlen := (Dbl.padded_spec hw hn).1
          have hlen' := (Dbl.padded_spec hw hn').1
          exact append_lt_append (hlen.trans hlen'.symm) (padded_lt hw hn' hlt)
        · exact List.append_left_lt (List.cons_lt_cons_iff.mpr (.inr ⟨rfl, ih hrest hrest' htail⟩))

theorem getLast_fieldsText {fs : List (Nat × UInt8)} {ns : List Nat} (h : Fits fs ns) :
    (fieldsText fs ns).getLast? = fs.getLast?.map (·.2) := by
  induction fs generalizing ns with
  | nil =>
    cases ns with
    | cons _ _ => cases h
    | nil => rfl
  | cons f fs ih =>
    cases ns with
    | nil => cases h
    | cons n ns =>
      have hrest := ih h.2.2
      rw [fieldsText, List.getLast?_append, List.getLast?_cons, hrest, List.getLast?_cons]
      cases fs.getLast? <;> rfl

/-! ## ISO timestamps -/

def isoFields : List (Nat × UInt8) :=
  [(4, ch '-'), (2, ch '-'), (2, ch 'T'), (2, ch ':'), (2, ch ':'), (2, ch '.'), (3, ch 'Z')]

/-- The date of an instant in seconds, its time of day and the milliseconds. -/
def isoNumbers (c : Civil) (sod ms : Nat) : List Nat :=
  [c.y.toNat, c.m, c.d, sod / 3600, sod / 60 % 60, sod % 60, ms]

theorem isoNumbers_fits {c : Civil} {sod ms : Nat} (hc : c.Valid) (hy : c.y ≤ 9999) (hsod : sod < 86400) (hms : ms < 1000) :
    Fits isoFields (isoNumbers c sod ms) := by
  have hm := hc.month.2
  have hd := hc.day.2
  have hlen : daysInMonth c.y c.m ≤ 31 := by
    unfold daysInMonth
    split_ifs <;> decide
  refine ⟨by decide, by omega, by decide, by omega, by decide, by omega, by decide, by omega, by decide, by omega,
    by decide, by omega, by decide, by omega, trivial⟩

/-- The whole seconds of an instant that is not next to the ends of the range. -/
theorem isoSeconds {t : Int} (h : -2 ^ 63 + 1000000000 < t) (h' : t < 2 ^ 63 - 1000000000) :
    -9223372036 ≤ t / 1000000000 ∧ t / 1000000000 ≤ 9223372035 := by
  omega

theorem isoYear {z : Int} (h : -106752 ≤ z) (h' : z ≤ 106751) : 1677 ≤ (civilOf z).y ∧ (civilOf z).y < 2263 := by
  refine ⟨le_year_iff.mpr (le_trans (by decide) h), lt_of_not_ge fun hge => ?_⟩
  have hlt := le_year_iff.mp hge
  exact absurd (hlt.trans h') (by decide)

theorem formatUtcIso_eq {t : Int} (h : -2 ^ 63 + 1000000000 < t) (h' : t < 2 ^ 63 - 1000000000) :
    formatUtcIso t = fieldsText isoFields (isoNumbers (civilOf (t / 1000000000 / 86400))
      (t / 1000000000 % 86400).toNat (t % 1000000000 / 1000000).toNat) := by
  have hk : kNs = 1000000000 := rfl
  obtain ⟨hs, hs'⟩ := isoSeconds h h'
  have hfloor : (if 0 ≤ t then t.tdiv kNs else (t - kNs + 1).tdiv kNs) = t / 1000000000 := by
    rw [hk, ← tdiv_floor (n := 1000000000) (m := 999999999) (by decide) rfl t]
    split
    · rfl
    · rw [show t - 1000000000 + 1 = t - 999999999 by omega]
  have hsub : (t - t / 1000000000 * kNs).tdiv 1000000 = ((t % 1000000000 / 1000000).toNat : Int) := by
    rw [hk, Int.tdiv_eq_ediv_of_nonneg (by omega)]
    omega
  simp only [formatUtcIso, hfloor, hsub, dayOf_eq]
  generalize t / 1000000000 = s at hs hs' ⊢
  generalize (t % 1000000000 / 1000000).toNat = ms
  obtain ⟨hy, hy'⟩ := isoYear (z := s / 86400) (by omega) (by omega)
  have hdate : civilFromDays (s / 86400) = civilOf (s / 86400) := by
    refine civilFromDays_eq ?_
    change FitsInt (civilOf (s / 86400)).y
    exact ⟨le_trans (by decide) hy, lt_trans hy' (by decide)⟩
  obtain ⟨sod, hsod⟩ : ∃ sod : Nat, s - s / 86400 * 86400 = sod := ⟨(s % 86400).toNat, by omega⟩
  have hsod' : (s % 86400).toNat = sod := by omega
  have hfmt : ∀ w n : Nat, fmtInt w (n : Int) = Dbl.padded w n := fun w n => if_neg (by omega)
  have hyear : fmtInt 4 (civilOf (s / 86400)).y = Dbl.padded 4 (civilOf (s / 86400)).y.toNat := by
    rw [← hfmt, Int.toNat_of_nonneg (by omega)]
  have h1 : (sod : Int).tdiv 3600 = (sod / 3600 : Nat) := by
    rw [Int.tdiv_eq_ediv_of_nonneg (by omega)]
    omega
  have h2 : ((sod : Int).tdiv 60).tmod 60 = (sod / 60 % 60 : Nat) := by
    rw [Int.tdiv_eq_ediv_of_nonneg (by omega), Int.tmod_eq_emod_of_nonneg (by omega)]
    omega
  have h3 : (sod : Int).tmod 60 = (sod % 60 : Nat) := by
    rw [Int.tmod_eq_emod_of_nonneg (by omega)]
    omega
  rw [hdate, hsod, hsod', h1, h2, h3, hyear]
  simp only [hfmt, isoFields, isoNumbers, fieldsText]
  simp [lit]

theorem peek_cons (c : UInt8) (s : Bytes) : peek (c :: s) = c := rfl

theorem head_padded {w n : Nat} (hw : 0 < w) (h : n < 10 ^ w) {s : Bytes} {c : UInt8}
    (hc : (Dbl.padded w n ++ s).head? = some c) : isDigit c = true := by
  obtain ⟨hlen, hdigits, -⟩ := Dbl.padded_spec hw h
  rw [List.head?_append_of_ne_nil _ fun hnil => by simp [hnil] at hlen; omega] at hc
  exact hdigits c (List.mem_of_head? hc)

theorem readClock_padded {h m s : Nat} (hh : h < 10 ^ 2) (hm : m < 10 ^ 2) (hs : s < 10 ^ 2) (r : Bytes) :
    readClock (Dbl.padded 2 h ++ ch ':' :: (Dbl.padded 2 m ++ ch ':' :: (Dbl.padded 2 s ++ r))) =
      some ((h : Int), (m : Int), (s : Int), r) := by
  simp only [readClock, readInt_padded two_pos hh, readInt_padded two_pos hm, readInt_padded two_pos hs,
    List.tail_cons, peek_cons, Option.bind_eq_bind]
  refine guard_bind_eq_some.mpr ⟨⟨Int.natCast_nonneg _, trivial⟩, guard_bind_eq_some.mpr ⟨Int.natCast_nonneg _, ?_⟩⟩
  rw [if_pos trivial]
  exact guard_bind_eq_some.mpr ⟨Int.natCast_nonneg _, rfl⟩

theorem readFrac_padded {k w n : Nat} (hw : 0 < w) (hk : w ≤ k) (h : n < 10 ^ w) {c : UInt8} (hc : isDigit c = false)
    (r : Bytes) : readFrac k (Dbl.padded w n ++ c :: r) = ((n : Int) * 10 ^ (k - w), c :: r) := by
  obtain ⟨hlen, hdigits, hval⟩ := Dbl.padded_spec hw h
  have hne : Dbl.padded w n ≠ [] := List.ne_nil_of_length_pos (hlen.symm ▸ hw)
  have hstop : ∀ d, (c :: r).head? = some d → isDigit d = false := by
    rintro d hd
    rwa [← Option.some.inj hd]
  have hread : readInt k (Dbl.padded w n ++ c :: r) = ((n : Int), w, c :: r) := by
    rw [readInt_append hne hdigits (hlen.le.trans hk) (.inr hstop), hval, hlen]
  simp only [readFrac, hread]
  split
  · rfl
  · rw [show (n : Int) = 0 by omega, zero_mul]

/-- The fields of an ISO timestamp are read back. -/
theorem iso8601Stamp_fields {c : Civil} {sod ms : Nat} (hc : c.Valid) (hy : 0 ≤ c.y ∧ c.y ≤ 9999) (hsod : sod < 86400)
    (hms : ms < 1000) : iso8601Stamp (fieldsText isoFields (isoNumbers c sod ms)) =
      some { y := c.y, mo := c.m, d := c.d, hh := (sod / 3600 : Nat), mi := (sod / 60 % 60 : Nat), ss := (sod % 60 : Nat),
             off := 0, fracNs := ms * 1000000 } := by
  have hfits := isoNumbers_fits hc hy.2 hsod hms
  obtain ⟨h4, hy4, -, hm2, -, hd2, -, hh2, -, hmi2, -, hss2, h3, hms3, -⟩ := isoNumbers_fits hc hy.2 hsod hms
  have htrim : trim (fieldsText isoFields (isoNumbers c sod ms)) = fieldsText isoFields (isoNumbers c sod ms) := by
    refine trim_eq_self (fun b hb => Dbl.isSpace_of_isDigit (head_padded h4 hy4 hb)) fun b hb => ?_
    rw [getLast_fieldsText hfits] at hb
    obtain rfl : ch 'Z' = b := Option.some.inj hb
    decide
  obtain ⟨hm, hm'⟩ := hc.month
  obtain ⟨hd, hd'⟩ := hc.day
  have hlen : daysInMonth c.y c.m ≤ 31 := by
    unfold daysInMonth
    split_ifs <;> decide
  have hyear : (c.y.toNat : Int) = c.y := Int.toNat_of_nonneg hy.1
  unfold iso8601Stamp
  rw [htrim]
  simp only [isoFields, isoNumbers, fieldsText, readInt_padded h4 hy4, readInt_padded two_pos hm2,
    readInt_padded two_pos hd2, List.tail_cons, peek_cons, readClock_padded hh2 hmi2 hss2, Option.bind_eq_bind]
  refine guard_bind_eq_some.mpr ⟨⟨Int.natCast_nonneg _, trivial⟩, guard_bind_eq_some.mpr ⟨⟨by omega, by omega, trivial⟩,
    guard_bind_eq_some.mpr ⟨⟨by omega, by omega⟩, ?_⟩⟩⟩
  rw [if_pos (.inl trivial), Option.bind_some]
  simp only [peek_cons, true_or, if_true, List.tail_cons, hyear,
    readFrac_padded (k := 9) h3 (by decide) hms3 (c := ch 'Z') (by decide)]
  rfl

theorem isoNumbers_lt {c c' : Civil} {sod ms sod' ms' : Nat} (hy : 0 ≤ c.y)
    (h : c.Before c' ∨ c = c' ∧ (sod < sod' ∨ sod = sod' ∧ ms < ms')) :
    isoNumbers c sod ms < isoNumbers c' sod' ms' := by
  simp only [isoNumbers, List.cons_lt_cons_iff, List.not_lt_nil, and_false, or_false]
  rcases h with h | ⟨rfl, h⟩
  · unfold Civil.Before at h
    omega
  · omega

/-- The fields of an instant. -/
structure IsoFields (t : Int) (c : Civil) (sod ms : Nat) : Prop where
  valid : c.Valid
  year : 0 ≤ c.y ∧ c.y ≤ 9999
  sod_lt : sod < 86400
  ms_lt : ms < 1000
  eq : t / 1000000 = (c.days * 86400 + sod) * 1000 + ms
  text : formatUtcIso t = fieldsText isoFields (isoNumbers c sod ms)

theorem isoFields_of {t : Int} (h : -2 ^ 63 + 1000000000 < t) (h' : t < 2 ^ 63 - 1000000000) :
    ∃ c sod ms, IsoFields t c sod ms := by
  obtain ⟨hs, hs'⟩ := isoSeconds h h'
  obtain ⟨hy, hy'⟩ := isoYear (z := t / 1000000000 / 86400) (by omega) (by omega)
  refine ⟨_, _, _, civilOf_valid (t / 1000000000 / 86400), by omega, ?_, ?_, ?_, formatUtcIso_eq h h'⟩
  · omega
  · omega
  · rw [days_civilOf]
    omega

theorem IsoFields.text_lt {t u : Int} {c c' : Civil} {sod ms sod' ms' : Nat} (ht : IsoFields t c sod ms)
    (hu : IsoFields u c' sod' ms') (hlt : t / 1000000 < u / 1000000) : formatUtcIso t < formatUtcIso u := by
  rw [ht.text, hu.text]
  refine fieldsText_lt (isoNumbers_fits ht.valid ht.year.2 ht.sod_lt ht.ms_lt) (isoNumbers_fits hu.valid hu.year.2 hu.sod_lt hu.ms_lt)
    (isoNumbers_lt ht.year.1 ?_)
  obtain ⟨hsod, hms, heq⟩ := And.intro ht.sod_lt (And.intro ht.ms_lt ht.eq)
  obtain ⟨hsod', hms', heq'⟩ := And.intro hu.sod_lt (And.intro hu.ms_lt hu.eq)
  rcases Int.lt_trichotomy c.days c'.days with hd | hd | hd
  · exact .inl ((Civil.before_iff ht.valid hu.valid).mpr hd)
  · refine .inr ⟨ht.valid.days_inj hu.valid hd, ?_⟩
    omega
  · omega

theorem IsoFields.text_eq {t u : Int} {c c' : Civil} {sod ms sod' ms' : Nat} (ht : IsoFields t c sod ms)
    (hu : IsoFields u c' sod' ms') (hsame : t / 1000000 = u / 1000000) : formatUtcIso t = formatUtcIso u := by
  obtain ⟨hsod, hms, heq⟩ := And.intro ht.sod_lt (And.intro ht.ms_lt ht.eq)
  obtain ⟨hsod', hms', heq'⟩ := And.intro hu.sod_lt (And.intro hu.ms_lt hu.eq)
  obtain rfl : c = c' := ht.valid.days_inj hu.valid (by omega)
  obtain rfl : sod = sod' := by omega
  obtain rfl : ms = ms' := by omega
  rw [ht.text, hu.text]

/-- A timestamp is read back to the millisecond, and timestamps sort as their instants do. -/
theorem utcIso_roundTrip {t : Int} (h : -2 ^ 63 + 1000000000 < t) (h' : t < 2 ^ 63 - 1000000000) :
    parseIso8601 (formatUtcIso t) = some (some (t / 1000000 * 1000000)) ∧
      ∀ u : Int, -2 ^ 63 + 1000000000 < u → u < 2 ^ 63 - 1000000000 →
        (t / 1000000 < u / 1000000 ↔ formatUtcIso t < formatUtcIso u) := by
  obtain ⟨c, sod, ms, ht⟩ := isoFields_of h h'
  have heq := ht.eq
  have hms := ht.ms_lt
  refine ⟨?_, fun u hu hu' => ?_⟩
  · have hstamp := iso8601Stamp_fields ht.valid ht.year ht.sod_lt ht.ms_lt
    have hseconds : Stamp.seconds ⟨c.y, c.m, c.d, (sod / 3600 : Nat), (sod / 60 % 60 : Nat), (sod % 60 : Nat), 0,
        ms * 1000000⟩ = c.days * 86400 + sod := by
      simp only [Stamp.seconds, Stamp.days, Civil.days]
      omega
    rw [parseIso8601_eq, ht.text, hstamp, Option.elim_some, Stamp.inRange, if_pos, Stamp.instant, hseconds]
    · congr 2
      dsimp only
      omega
    · rw [Stamp.representable_iff, hseconds]
      dsimp only
      omega
  · obtain ⟨c', sod', ms', hu⟩ := isoFields_of hu hu'
    refine ⟨ht.text_lt hu, fun htext => ?_⟩
    rcases Int.lt_trichotomy (t / 1000000) (u / 1000000) with hlt | hsame | hgt
    · exact hlt
    · rw [ht.text_eq hu hsame] at htext
      exact absurd htext (List.lt_irrefl _)
    · exact absurd (hu.text_lt ht hgt) (List.lt_asymm htext)

/-- Before the epoch, with a borrow from the seconds. -/
theorem utcIso_roundTrip_negative :
    parseIso8601 (formatUtcIso (-1)) = some (some (-1000000)) ∧
      (-1 < 0 ↔ formatUtcIso (-1) < formatUtcIso 0) := by
  obtain ⟨hback, hsort⟩ := utcIso_roundTrip (t := -1) (by decide) (by decide)
  exact ⟨hback, hsort 0 (by decide) (by decide)⟩

end Stok.Time
