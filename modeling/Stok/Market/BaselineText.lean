import Stok.Market.Baseline

/-!
# The rows of the history and of the baseline

An entry of the history, a date and a row, is written to a line that gives the same entry back,
provided the ticker has no byte that ends a field, a line or a C string and leaves the
buffers of the rows room for the rest. On such entries the store works as on a list of them
(`append_entries`, `rebuild_entries`). Arithmetic is exact.
-/

namespace Stok.BaselineStore

open Lib

/-- A row of the history under its date. -/
abbrev Entry := Bytes × DayRow

/-- `YYYY-MM-DD` -/
structure IsDate (d : Bytes) : Prop where
  length : d.length = 10
  shape : ∀ i < 10, if i = 4 ∨ i = 7 then byteAt d i = ch '-' else isDigit (byteAt d i) = true

/-- A field of a line, short enough for the buffers. -/
structure IsTicker (t : Bytes) : Prop where
  tabFree : 9 ∉ t
  lineFree : 10 ∉ t
  nulFree : 0 ∉ t
  short : t.length ≤ 81

/-! ## Dates -/

theorem digitsVal_append (a b : Bytes) : digitsVal (a ++ b) = digitsVal a * 10 ^ b.length + digitsVal b := by
  induction b using List.reverseRecOn with
  | nil => simp [digitsVal]
  | append_singleton b c ih =>
    rw [← List.append_assoc, Dbl.digitsVal_concat, ih, Dbl.digitsVal_concat, List.length_append,
      List.length_singleton, Nat.pow_succ]
    ring

theorem digitsVal_cons (c : UInt8) (t : Bytes) : digitsVal (c :: t) = (c.toNat - 48) * 10 ^ t.length + digitsVal t := by
  have := digitsVal_append [c] t
  rw [List.singleton_append] at this
  rw [this]
  simp [digitsVal]

theorem IsDate.val_le {d : Bytes} (h : IsDate d) : ∀ c ∈ d, c.toNat - 48 ≤ 9 := by
  intro c hc
  obtain ⟨i, hi, rfl⟩ := List.getElem_of_mem hc
  have hshape := h.shape i (by rw [← h.length]; exact hi)
  rw [byteAt, List.getD_eq_getElem?_getD, List.getElem?_eq_getElem hi, Option.getD_some] at hshape
  split at hshape
  · rw [hshape]
    decide
  · refine byte_forall (p := fun c => isDigit c = true → c.toNat - 48 ≤ 9) ?_ _ hshape
    decide +kernel

theorem digitsVal_lt_pow {t : Bytes} (h : ∀ c ∈ t, c.toNat - 48 ≤ 9) : digitsVal t < 10 ^ t.length := by
  induction t with
  | nil => simp [digitsVal]
  | cons c t ih =>
    have hc := h c List.mem_cons_self
    have ht := ih fun d hd => h d (List.mem_cons_of_mem _ hd)
    rw [digitsVal_cons, List.length_cons, Nat.pow_succ]
    have := Nat.mul_le_mul_right (10 ^ t.length) hc
    omega

/-- Strings whose bytes differ only in digits are ordered as the numbers that they write. -/
theorem strLt_iff_digitsVal {a b : Bytes} (h : List.Forall₂ (fun x y => x = y ∨ 48 ≤ x.toNat ∧ 48 ≤ y.toNat) a b)
    (ha : ∀ c ∈ a, c.toNat - 48 ≤ 9) (hb : ∀ c ∈ b, c.toNat - 48 ≤ 9) : strLt a b ↔ digitsVal a < digitsVal b := by
  induction h with
  | nil => exact iff_of_false (List.not_lt_nil _) (lt_irrefl _)
  | @cons x y a b hxy hab ih =>
    have hlen := hab.length_eq
    have hva := digitsVal_lt_pow fun c hc => ha c (List.mem_cons_of_mem _ hc)
    have hvb := digitsVal_lt_pow fun c hc => hb c (List.mem_cons_of_mem _ hc)
    have ih := ih (fun c hc => ha c (List.mem_cons_of_mem _ hc)) fun c hc => hb c (List.mem_cons_of_mem _ hc)
    have hlex : strLt (x :: a) (y :: b) ↔ x < y ∨ x = y ∧ strLt a b := List.cons_lex_cons_iff
    rw [hlex, ih, digitsVal_cons, digitsVal_cons, hlen]
    rw [hlen] at hva
    rcases eq_or_ne x y with rfl | hne
    · have hirr : ¬ x < x := UInt8.lt_irrefl x
      simp [hirr]
    · obtain ⟨hx, hy⟩ := hxy.resolve_left hne
      have hval : x.toNat ≠ y.toNat := fun h => hne (UInt8.toNat_inj.1 h)
      rw [UInt8.lt_iff_toNat_lt]
      simp only [hne, false_and, or_false]
      generalize 10 ^ b.length = p at hva hvb
      constructor
      · intro hlt
        have := Nat.mul_le_mul_right p (by omega : x.toNat - 48 + 1 ≤ y.toNat - 48)
        rw [Nat.add_mul] at this
        omega
      · intro hlt
        by_contra hge
        have := Nat.mul_le_mul_right p (by omega : y.toNat - 48 + 1 ≤ x.toNat - 48)
        rw [Nat.add_mul] at this
        omega

/-- The order of dates as strings is that of the numbers `YYYY0MM0DD`, so that of the days. -/
theorem IsDate.strLt_iff {a b : Bytes} (ha : IsDate a) (hb : IsDate b) :
    strLt a b ↔ digitsVal a < digitsVal b := by
  refine strLt_iff_digitsVal (List.forall₂_iff_get.2 ⟨ha.length.trans hb.length.symm, fun i hi hi' => ?_⟩) ha.val_le
    hb.val_le
  have hsa := ha.shape i (by rw [← ha.length]; exact hi)
  have hsb := hb.shape i (by rw [← ha.length]; exact hi)
  rw [byteAt, List.getD_eq_getElem?_getD, List.getElem?_eq_getElem hi, Option.getD_some] at hsa
  rw [byteAt, List.getD_eq_getElem?_getD, List.getElem?_eq_getElem hi', Option.getD_some] at hsb
  have hdigit : ∀ c, isDigit c = true → 48 ≤ c.toNat := by
    refine byte_forall ?_
    decide +kernel
  split at hsa
  · rename_i h47
    rw [if_pos h47] at hsb
    exact .inl (hsa.trans hsb.symm)
  · rename_i h47
    rw [if_neg h47] at hsb
    exact .inr ⟨hdigit _ hsa, hdigit _ hsb⟩

/-! ## Entries -/

structure EntryOk (e : Entry) : Prop where
  date : IsDate e.1
  ticker : IsTicker e.2.ticker

/-- The closing price in dollars. -/
def dollars (r : DayRow) : ℚ := r.close.toInt / 10000

def rowFields (e : Entry) : List Bytes :=
  [e.1, e.2.ticker, Dbl.digits e.2.volume.toNat, Dbl.fixed 4 (dollars e.2)]

/-- The line of an entry. -/
def line (e : Entry) : Bytes := [9].intercalate (rowFields e)

def historyText (es : List Entry) : Bytes := es.flatMap fun e => line e ++ [10]

/-! ## Numbers -/

theorem roundEven_natCast (n : Nat) : Dbl.roundEven (n : ℚ) = n := by
  have hfloor : (n : ℚ).floor = (n : Int) := by exact_mod_cast Rat.floor_intCast (n : Int)
  unfold Dbl.roundEven
  rw [hfloor]
  simp

/-- A rounded number is at most any whole number that the number is at most. -/
theorem roundEven_le {q : ℚ} {n : Nat} (h0 : 0 ≤ q) (h : q ≤ n) : Dbl.roundEven q ≤ n := by
  obtain ⟨m, hm⟩ : ∃ m : Nat, q.floor.toNat = m := ⟨_, rfl⟩
  have hfloor : ((m : Nat) : ℚ) ≤ q := by
    have hle : ((q.floor : Int) : ℚ) ≤ q := Rat.floor_le q
    have h0' : 0 ≤ q.floor := Rat.le_floor_iff.2 (by exact_mod_cast h0)
    have hcast : ((m : Nat) : Int) = q.floor := by omega
    rw [← hcast] at hle
    exact_mod_cast hle
  have hmn : m ≤ n := by exact_mod_cast hfloor.trans h
  unfold Dbl.roundEven
  simp only [hm]
  rcases Nat.lt_or_ge m n with hlt | hge
  · split
    · exact hmn
    · split
      · exact hlt
      · omega
  · obtain rfl : m = n := by omega
    have hr : q - (m : ℚ) < 1 / 2 := by linarith
    rw [if_pos hr]

theorem fixed_dollars (r : DayRow) :
    Dbl.fixed 4 (dollars r) = (if r.close.toInt < 0 then [ch '-'] else []) ++
      Dbl.decimal (Dbl.digits (r.close.toInt.natAbs / 10 ^ 4)) (Dbl.padded 4 (r.close.toInt.natAbs % 10 ^ 4)) := by
  obtain ⟨c, hc⟩ : ∃ c : Int, r.close.toInt = c := ⟨_, rfl⟩
  have hval : |(c : ℚ) / 10000| * 10 ^ 4 = (c.natAbs : ℚ) := by
    rw [abs_div, Nat.cast_natAbs, Int.cast_abs]
    norm_num
  have hsign : (Dbl.signBit ((c : ℚ) / 10000) = true) ↔ c < 0 := by
    have : (Dbl.signBit ((c : ℚ) / 10000)) = decide ((c : ℚ) / 10000 < 0) := rfl
    rw [this, decide_eq_true_iff, div_neg_iff]
    constructor
    · rintro (⟨-, h⟩ | ⟨h, -⟩)
      · norm_num at h
      · exact_mod_cast h
    · intro h
      exact .inr ⟨by exact_mod_cast h, by norm_num⟩
  have hne : Dbl.padded 4 (c.natAbs % 10 ^ 4) ≠ [] := by
    intro h
    have := (Dbl.padded_spec (w := 4) (n := c.natAbs % 10 ^ 4) (by decide) (Nat.mod_lt _ (by decide))).1
    rw [h] at this
    exact absurd this (by decide)
  have htoRat : Dbl.toRat ((c : ℚ) / 10000) = (c : ℚ) / 10000 := rfl
  unfold dollars Dbl.fixed
  rw [hc, htoRat, hval, roundEven_natCast]
  simp only [hsign, Dbl.decimal, hne, if_false]
  rw [List.append_assoc]
  rfl

theorem natAbs_close_le (r : DayRow) : r.close.toInt.natAbs ≤ 2 ^ 31 := by
  have hlo := r.close.le_toInt
  have hhi := r.close.toInt_lt
  omega

theorem parse_volume (r : DayRow) : Dbl.parseDouble (Dbl.digits r.volume.toNat) = some (r.volume.toNat : ℚ) := by
  have hlen : (Dbl.digits r.volume.toNat).length ≤ 20 :=
    Dbl.length_digits_le (by decide) (r.volume.toNat_lt.trans (by decide))
  have hread := @Dbl.parseDouble_decimal ℚ _ [] (Dbl.digits r.volume.toNat) [] (.inl rfl) (Dbl.digits_ne_nil _)
    (Dbl.isDigit_digits _) (fun c hc => absurd hc List.not_mem_nil) (by rw [List.length_nil]; omega)
  rw [List.nil_append, Dbl.decimal, if_pos rfl, List.append_nil, Dbl.digitsVal_digits] at hread
  rw [hread]
  simp [Dbl.ofRat]

/-- A price is read back exactly. -/
theorem parse_dollars (r : DayRow) : Dbl.parseDouble (Dbl.fixed 4 (dollars r)) = some (dollars r) := by
  have habs := natAbs_close_le r
  obtain ⟨hplen, hpdigit, hpval⟩ := Dbl.padded_spec (w := 4) (n := r.close.toInt.natAbs % 10 ^ 4) (by decide)
    (Nat.mod_lt _ (by decide))
  have hlen : (Dbl.digits (r.close.toInt.natAbs / 10 ^ 4)).length ≤ 6 :=
    Dbl.length_digits_le (by decide) (by omega)
  have hread := @Dbl.parseDouble_decimal ℚ _ (if r.close.toInt < 0 then [ch '-'] else [])
    (Dbl.digits (r.close.toInt.natAbs / 10 ^ 4)) (Dbl.padded 4 (r.close.toInt.natAbs % 10 ^ 4))
    (by split <;> simp) (Dbl.digits_ne_nil _) (Dbl.isDigit_digits _) hpdigit (by omega)
  have hval : digitsVal (Dbl.digits (r.close.toInt.natAbs / 10 ^ 4) ++
      Dbl.padded 4 (r.close.toInt.natAbs % 10 ^ 4)) = r.close.toInt.natAbs := by
    rw [digitsVal_append, Dbl.digitsVal_digits, hpval, hplen]
    omega
  rw [fixed_dollars, hread, hval, hplen]
  have hpow : (10 : ℚ) ^ (0 - ((4 : Nat) : Int)) = 1 / 10000 := by norm_num
  simp only [hpow, Dbl.ofRat, dollars, Option.some.injEq]
  by_cases hneg : r.close.toInt < 0
  · have hcast : ((r.close.toInt.natAbs : Nat) : ℚ) = -(r.close.toInt : ℚ) := by
      rw [Nat.cast_natAbs, abs_of_neg hneg, Int.cast_neg]
    simp only [hneg, if_true, List.cons_ne_nil, if_false, hcast]
    ring
  · have hcast : ((r.close.toInt.natAbs : Nat) : ℚ) = (r.close.toInt : ℚ) := by
      rw [Nat.cast_natAbs, abs_of_nonneg (not_lt.1 hneg)]
    simp only [hneg, if_true, if_false, hcast]
    ring

/-! ## Lines -/

/-- A byte of a date or a number. -/
def Plain (c : UInt8) : Prop := isDigit c = true ∨ c = ch '-' ∨ c = ch '.'

theorem Plain.ne {c : UInt8} (h : Plain c) : c ≠ 0 ∧ c ≠ 9 ∧ c ≠ 10 ∧ c ≠ 13 := by
  rcases h with h | rfl | rfl
  · refine ⟨?_, ?_, ?_, ?_⟩ <;> rintro rfl <;> exact absurd h (by decide)
  · decide
  · decide

theorem plain_digits (n : Nat) : ∀ c ∈ Dbl.digits n, Plain c := fun c hc => .inl (Dbl.isDigit_digits n c hc)

theorem plain_fixed_dollars (r : DayRow) : ∀ c ∈ Dbl.fixed 4 (dollars r), Plain c := by
  intro c hc
  rw [fixed_dollars] at hc
  rcases List.mem_append.1 hc with hc | hc
  · split at hc
    · exact .inr (.inl (List.mem_singleton.1 hc))
    · exact absurd hc List.not_mem_nil
  · rcases List.mem_append.1 hc with hc | hc
    · exact plain_digits _ c hc
    · split at hc
      · exact absurd hc List.not_mem_nil
      · rcases List.mem_cons.1 hc with rfl | hc
        · exact .inr (.inr rfl)
        · exact .inl ((Dbl.padded_spec (by decide) (Nat.mod_lt _ (by decide))).2.1 c hc)

theorem IsDate.plain {d : Bytes} (h : IsDate d) : ∀ c ∈ d, Plain c := by
  intro c hc
  obtain ⟨i, hi, rfl⟩ := List.getElem_of_mem hc
  have hshape := h.shape i (by rw [← h.length]; exact hi)
  rw [byteAt, List.getD_eq_getElem?_getD, List.getElem?_eq_getElem hi, Option.getD_some] at hshape
  split at hshape
  · exact .inr (.inl hshape)
  · exact .inl hshape

theorem length_fixed_dollars (r : DayRow) : (Dbl.fixed 4 (dollars r)).length ≤ 12 := by
  have habs := natAbs_close_le r
  obtain ⟨hplen, -⟩ := Dbl.padded_spec (w := 4) (n := r.close.toInt.natAbs % 10 ^ 4) (by decide)
    (Nat.mod_lt _ (by decide))
  have hlen : (Dbl.digits (r.close.toInt.natAbs / 10 ^ 4)).length ≤ 6 :=
    Dbl.length_digits_le (by decide) (by omega)
  have hsign : (if r.close.toInt < 0 then [ch '-'] else []).length ≤ 1 := by split <;> simp
  have hpoint : (if Dbl.padded 4 (r.close.toInt.natAbs % 10 ^ 4) = [] then []
      else ch '.' :: Dbl.padded 4 (r.close.toInt.natAbs % 10 ^ 4)).length ≤ 5 := by
    split
    · exact Nat.zero_le _
    · rw [List.length_cons, hplen]
  rw [fixed_dollars, List.length_append, Dbl.decimal, List.length_append]
  omega

theorem length_digits_volume (r : DayRow) : (Dbl.digits r.volume.toNat).length ≤ 20 :=
  Dbl.length_digits_le (by decide) (r.volume.toNat_lt.trans (by decide))

theorem line_eq (e : Entry) : line e = e.1 ++ 9 :: (e.2.ticker ++ 9 :: (Dbl.digits e.2.volume.toNat ++
    9 :: Dbl.fixed 4 (dollars e.2))) := by
  simp [line, rowFields, List.intercalate]

theorem chopCr_line (e : Entry) : chopCr (line e) = line e := by
  refine if_neg fun hc => ?_
  have hne : Dbl.fixed 4 (dollars e.2) ≠ [] := by
    rw [fixed_dollars, Dbl.decimal]
    simp [Dbl.digits_ne_nil]
  rw [line_eq, List.getLast?_append, List.getLast?_cons, List.getLast?_append, List.getLast?_cons,
    List.getLast?_append, List.getLast?_cons, List.getLast?_eq_some_getLast hne] at hc
  simp only [Option.getD_some, Option.some_or, Option.some.injEq] at hc
  exact (plain_fixed_dollars e.2 _ (List.getLast_mem hne)).ne.2.2.2 hc

variable {e : Entry} (h : EntryOk e)

include h

theorem EntryOk.mem_line {c : UInt8} (hc : c ∈ line e) : Plain c ∨ c = 9 ∨ c ∈ e.2.ticker := by
  rw [line_eq] at hc
  simp only [List.mem_append, List.mem_cons] at hc
  rcases hc with hc | rfl | hc | rfl | hc | rfl | hc
  · exact .inl (h.date.plain c hc)
  · exact .inr (.inl rfl)
  · exact .inr (.inr hc)
  · exact .inr (.inl rfl)
  · exact .inl (plain_digits _ c hc)
  · exact .inr (.inl rfl)
  · exact .inl (plain_fixed_dollars _ c hc)

theorem EntryOk.lineFree : 10 ∉ line e := by
  intro hc
  rcases h.mem_line hc with hp | h9 | ht
  · exact hp.ne.2.2.1 rfl
  · exact absurd h9 (by decide)
  · exact h.ticker.lineFree ht

/-- The row that is written is the line of the entry. -/
theorem EntryOk.historyRow : historyRow ℚ e.1 e.2 = line e ++ [10] := by
  have hdate : cstr e.1 = e.1 := cstr_eq_self fun hc => (h.date.plain _ hc).ne.1 rfl
  have hticker : cstr e.2.ticker = e.2.ticker := cstr_eq_self h.ticker.nulFree
  have hpx : (Dbl.ofRat e.2.close.toInt / Dbl.ofRat 10000 : ℚ) = dollars e.2 := rfl
  have hlen : (line e ++ [10]).length ≤ 127 := by
    have hd := h.date.length
    have ht := h.ticker.short
    have hv := length_digits_volume e.2
    have hf := length_fixed_dollars e.2
    simp only [line_eq, List.length_append, List.length_cons, List.length_nil]
    omega
  unfold BaselineStore.historyRow
  rw [hdate, hticker, hpx]
  exact List.take_of_length_le hlen

theorem EntryOk.splitOn : (line e).splitOn 9 = rowFields e := by
  refine List.splitOn_intercalate _ (fun f hf hc => ?_) (by simp [rowFields])
  simp only [rowFields, List.mem_cons, List.not_mem_nil, or_false] at hf
  rcases hf with rfl | rfl | rfl | rfl
  · exact (h.date.plain _ hc).ne.2.1 rfl
  · exact h.ticker.tabFree hc
  · exact (plain_digits _ _ hc).ne.2.1 rfl
  · exact (plain_fixed_dollars _ _ hc).ne.2.1 rfl

theorem EntryOk.date_field : 9 ∈ line e ∧ (line e).takeWhile (· != 9) = e.1 := by
  rw [line_eq]
  refine ⟨List.mem_append_right _ List.mem_cons_self, ?_⟩
  rw [List.takeWhile_append_of_pos fun c hc => ?_]
  · simp
  · exact bne_iff_ne.2 (h.date.plain c hc).ne.2.1

theorem EntryOk.keptFields (keep : List Bytes) : keptFields keep (line e) =
    if e.1 ∈ keep then some (e.1, e.2.ticker, Dbl.digits e.2.volume.toNat, Dbl.fixed 4 (dollars e.2)) else none := by
  unfold BaselineStore.keptFields
  rw [h.splitOn]
  simp only [List.contains_iff_mem]
  rfl

omit h in
theorem lines_historyText {es : List Entry} (hes : ∀ e ∈ es, EntryOk e) : lines (historyText es) = es.map line := by
  induction es with
  | nil => rfl
  | cons e es ih =>
    have he := hes e List.mem_cons_self
    have htail := ih fun d hd => hes d (List.mem_cons_of_mem _ hd)
    rw [lines] at htail ⊢
    rw [historyText, List.flatMap_cons, List.append_assoc, List.singleton_append,
      linesFrom_line _ _ he.lineFree, List.reverse_nil, List.nil_append, chopCr_line, List.map_cons]
    exact congrArg _ htail

omit h

/-! ## The store on entries -/

/-- A session of symbols that traded, each once. -/
structure SessionOk (date : Bytes) (session : List DayRow) : Prop where
  traded : session ≠ []
  date : IsDate date
  tickers : ∀ r ∈ session, IsTicker r.ticker
  unique : (session.map DayRow.ticker).Nodup

theorem SessionOk.entries {date : Bytes} {session : List DayRow} (h : SessionOk date session) :
    ∀ e ∈ session.map (Prod.mk date), EntryOk e := by
  intro e he
  obtain ⟨r, hr, rfl⟩ := List.mem_map.1 he
  exact ⟨h.date, h.tickers r hr⟩

theorem historyText_append (es es' : List Entry) : historyText (es ++ es') = historyText es ++ historyText es' :=
  List.flatMap_append

/-- What an entry adds to its ticker. -/
def entryStep (a : Acc ℚ) (e : Entry) : Acc ℚ :=
  let a := { a with volSum := a.volSum + e.2.volume.toNat, n := a.n + 1 }
  if strLt e.1 a.lastDate then a else { a with lastDate := e.1, lastClose := dollars e.2 }

/-- The sum over the rows of a ticker. -/
def accOf (es : List Entry) (t : Bytes) : Acc ℚ := (es.filter fun e => e.2.ticker = t).foldl entryStep {}

def tickers (es : List Entry) : List Bytes := OrderedMap.setOf strLt (es.map fun e => e.2.ticker)

def baselineText (es : List Entry) : Bytes := header ++ (tickers es).flatMap fun t => baselineRow t (accOf es t)

variable {s : BaselineStore} {es : List Entry} (hes : ∀ e ∈ es, EntryOk e)

include hes

/-- The lines that an append keeps are those of the other dates. -/
theorem kept_lines {date : Bytes} (hd : IsDate date) :
    ((lines (historyText es)).filter fun l => ¬ (l.isEmpty ∨ l.take date.length = date)).flatMap (· ++ [10]) =
      historyText (es.filter fun e => e.1 ≠ date) := by
  rw [lines_historyText hes, List.filter_map, List.flatMap_map, historyText]
  refine congrArg (List.flatMap _) (List.filter_congr fun e he => ?_)
  have htake : (line e).take date.length = e.1 := by
    rw [line_eq, List.take_append_of_le_length (by rw [hd.length, (hes e he).date.length]),
      List.take_of_length_le (by rw [hd.length, (hes e he).date.length])]
  have hne : line e ≠ [] := by
    rw [line_eq]
    exact List.append_ne_nil_of_right_ne_nil _ (List.cons_ne_nil _ _)
  simp [htake, hne]

theorem append_entries (hs : s.history.getD [] = historyText es) {date : Bytes} {session : List DayRow}
    (hok : SessionOk date session) :
    s.append ℚ date session =
      ({ s with history := some (historyText
          (RollingWindow.replace Prod.fst date (session.map (Prod.mk date)) es)) }, session.length) := by
  have hrows : session.flatMap (historyRow ℚ date) = historyText (session.map (Prod.mk date)) := by
    rw [historyText, List.flatMap_map]
    refine List.flatMap_congr fun r hr => ?_
    exact (hok.entries (date, r) (List.mem_map_of_mem hr)).historyRow
  have hne : session.isEmpty = false := List.isEmpty_eq_false_iff.2 hok.traded
  unfold append
  rw [hne]
  simp only [Bool.false_eq_true, if_false, hs]
  rw [kept_lines hes hok.date, hrows, ← historyText_append]
  rfl

theorem recentDates_entries (N : Nat) :
    recentDates (historyText es) N = RollingWindow.latest N (OrderedMap.setOf strLt (es.map Prod.fst)) := by
  have hdates : ((lines (historyText es)).filterMap fun l =>
      if 9 ∈ l then some (l.takeWhile (· != 9)) else none) = es.map Prod.fst := by
    rw [lines_historyText hes, List.filterMap_map, ← List.filterMap_eq_map]
    refine List.filterMap_congr fun e he => ?_
    obtain ⟨h9, hdate⟩ := (hes e he).date_field
    rw [Function.comp_apply, if_pos h9, hdate]
    rfl
  unfold recentDates RollingWindow.latest
  rw [hdates]
  dsimp only
  split
  · rfl
  · rw [Nat.sub_eq_zero_of_le (by omega), List.drop_zero]

theorem rebuild_entries (hs : s.history = some (historyText es)) (N : Nat) :
    ∃ report, rebuild ℚ s N = some
      ({ history := some (historyText (RollingWindow.trim strLt Prod.fst N es))
         baseline := some (baselineText (RollingWindow.trim strLt Prod.fst N es)) }, report) := by
  obtain ⟨keep, hkeep⟩ : ∃ keep, RollingWindow.latest N (OrderedMap.setOf strLt (es.map Prod.fst)) = keep := ⟨_, rfl⟩
  have hrecent := (recentDates_entries hes N).trans hkeep
  have htrim : RollingWindow.trim strLt Prod.fst N es = es.filter fun e => e.1 ∈ keep := by
    rw [RollingWindow.trim, hkeep]
    exact List.filter_congr fun e _ => decide_eq_decide.2 Iff.rfl
  have hfields : (lines (historyText es)).filterMap (keptFields keep) = (es.filter fun e => e.1 ∈ keep).map fun e =>
      (e.1, e.2.ticker, Dbl.digits e.2.volume.toNat, Dbl.fixed 4 (dollars e.2)) := by
    rw [lines_historyText hes, List.filterMap_map, ← List.filterMap_eq_map, ← List.filterMap_eq_filter,
      List.filterMap_filterMap]
    refine List.filterMap_congr fun e he => ?_
    rw [Function.comp_apply, (hes e he).keptFields]
    by_cases hk : e.1 ∈ keep <;> simp [hk, Option.guard]
  have hlines : ((lines (historyText es)).filter fun l => (keptFields keep l).isSome).flatMap (· ++ [10]) =
      historyText (es.filter fun e => e.1 ∈ keep) := by
    rw [lines_historyText hes, List.filter_map, List.flatMap_map, historyText]
    refine congrArg (List.flatMap _) (List.filter_congr fun e he => ?_)
    rw [Function.comp_apply, (hes e he).keptFields]
    split
    · rename_i hk
      exact (decide_eq_true hk).symm
    · rename_i hk
      exact (decide_eq_false hk).symm
  have hstep : ∀ a e, accStep (F := ℚ) a
      (e.1, e.2.ticker, Dbl.digits e.2.volume.toNat, Dbl.fixed 4 (dollars e.2)) = entryStep a e := by
    intro a e
    unfold accStep entryStep
    rw [parse_volume, parse_dollars]
    rfl
  have hgroup : OrderedMap.group (β := Acc ℚ) strLt (fun f => f.2.1) {} accStep
      ((lines (historyText es)).filterMap (keptFields keep)) =
        (tickers (es.filter fun e => e.1 ∈ keep)).map fun t => (t, accOf (es.filter fun e => e.1 ∈ keep) t) := by
    rw [hfields, OrderedMap.group_eq, List.map_map]
    refine List.map_congr_left fun t _ => ?_
    rw [List.filter_map, List.foldl_map, accOf]
    simp only [hstep]
    rfl
  unfold rebuild
  rw [hs]
  simp only [hrecent, hlines, hgroup, htrim]
  rw [List.flatMap_map]
  exact ⟨_, rfl⟩

end Stok.BaselineStore
