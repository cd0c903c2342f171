import Stok.Core.Decimal
import Stok.Ref.Filings
import Stok.Util.Calendar

/-!
# The algebra of filings histories

The flags of a history are the union of what its entries say on their own, and adding an entry
joins its flags to them, whether or not it falls on one that is there. So the flags do not depend
on the order of the entries, nor on how often one was added, and a history that was written to a
file and read back has the same ones.
-/

namespace Stok.FilingsHistory

/-- What an entry says of an issuer. -/
def Entry.flagsOf (cik : UInt32) (today : Int) (p : DilutionPolicy) (e : Entry) : UInt32 :=
  if e.cik = cik then e.flags p (today - e.day) else 0

/-- What entries say of an issuer. -/
def flagsOf (cik : UInt32) (today : Int) (p : DilutionPolicy) : List Entry → UInt32
  | [] => 0
  | e :: es => e.flagsOf cik today p ||| flagsOf cik today p es

variable {cik : UInt32} {today : Int} {p : DilutionPolicy}

theorem flagsOf_append (es fs : List Entry) :
    flagsOf cik today p (es ++ fs) = flagsOf cik today p es ||| flagsOf cik today p fs := by
  induction es with
  | nil => simp [flagsOf]
  | cons e es ih => rw [List.cons_append, flagsOf, flagsOf, ih, UInt32.or_assoc]

theorem flagsOf_perm {es fs : List Entry} (h : es.Perm fs) :
    flagsOf cik today p es = flagsOf cik today p fs := by
  induction h with
  | nil => rfl
  | cons e _ ih => rw [flagsOf, flagsOf, ih]
  | swap e f es =>
    simp only [flagsOf, ← UInt32.or_assoc]
    rw [UInt32.or_comm (f.flagsOf cik today p)]
  | trans _ _ ih₁ ih₂ => exact ih₁.trans ih₂

theorem flags_eq (h : FilingsHistory) : h.flags cik today p = flagsOf cik today p h.entries := by
  have hfold : ∀ (es : List Entry) (f : UInt32),
      (es.filter (·.cik = cik)).foldl (fun f e => f ||| e.flags p (today - e.day)) f =
        f ||| flagsOf cik today p es := by
    intro es
    induction es with
    | nil => intro f; simp [flagsOf]
    | cons e es ih =>
      intro f
      by_cases he : e.cik = cik
      · rw [List.filter_cons_of_pos (by simpa using he), List.foldl_cons, ih, flagsOf, Entry.flagsOf,
          if_pos he, UInt32.or_assoc]
      · rw [List.filter_cons_of_neg (by simpa using he), ih, flagsOf, Entry.flagsOf, if_neg he,
          UInt32.zero_or]
  exact (hfold h.entries 0).trans UInt32.zero_or

/-! ## Adding -/

/-- A union of item masks has the flags of both. -/
theorem flags_or_items (age : Int) (e : Entry) (items : UInt32) :
    Entry.flags p age { e with items := e.items ||| items } =
      e.flags p age ||| Entry.flags p age { e with items := items } := by
  have hbit : ∀ (k flag : UInt32) (d : Int),
      (if (e.items ||| items) &&& k ≠ 0 ∧ age ≤ d then flag else 0) =
        (if e.items &&& k ≠ 0 ∧ age ≤ d then flag else 0) |||
          (if items &&& k ≠ 0 ∧ age ≤ d then flag else 0) := by
    intro k flag d
    have hor : (e.items ||| items) &&& k ≠ 0 ↔ e.items &&& k ≠ 0 ∨ items &&& k ≠ 0 := by
      have hand : (e.items ||| items) &&& k = e.items &&& k ||| items &&& k :=
        UInt32.eq_of_toBitVec_eq BitVec.and_or_distrib_right
      rw [hand, ne_eq, UInt32.or_eq_zero_iff, not_and_or]
    by_cases h1 : e.items &&& k = 0 <;> by_cases h2 : items &&& k = 0 <;> by_cases h3 : age ≤ d <;>
      simp [hor, h1, h2, h3]
  unfold Entry.flags
  split
  · rfl
  · cases e.cls with
    | form8K | form6K =>
      simp only [hbit]
      ac_rfl
    | _ => simp only [UInt32.or_self]

/-- Adding an entry joins its flags, also where the items go to one that is there. -/
theorem flagsOf_addEntry (e : Entry) (es : List Entry) :
    flagsOf cik today p (addEntry e es) = flagsOf cik today p es ||| e.flagsOf cik today p := by
  induction es with
  | nil => simp [addEntry, flagsOf]
  | cons x es ih =>
    unfold addEntry
    split
    · rename_i hsame
      obtain ⟨hcik, hday, hcls⟩ := hsame
      have hx : Entry.flagsOf cik today p { x with items := x.items ||| e.items } =
          x.flagsOf cik today p ||| e.flagsOf cik today p := by
        have he : e = { x with items := e.items } := by rw [hcik, hday, hcls]
        unfold Entry.flagsOf
        rw [← hcik]
        split
        · rw [flags_or_items, ← hday]
          conv_rhs => rw [he]
        · rfl
      rw [flagsOf, flagsOf, hx, UInt32.or_assoc, UInt32.or_assoc, UInt32.or_comm (e.flagsOf cik today p)]
    · rw [flagsOf, flagsOf, ih, UInt32.or_assoc]

/-- Adds the entries of a history, which the source goes through in the order `es`. -/
def merge (h : FilingsHistory) (es : List Entry) : FilingsHistory :=
  es.foldl (fun h e => h.add e.cik e.day e.cls e.items) h

/-- The history that some filings make. -/
def built (es : List Entry) : FilingsHistory := merge {} es

theorem flags_add (h : FilingsHistory) {e : Entry} (he : e.cik ≠ 0) :
    (h.add e.cik e.day e.cls e.items).flags cik today p =
      h.flags cik today p ||| e.flagsOf cik today p := by
  rw [flags_eq, flags_eq, add, if_neg he, flagsOf_addEntry]

theorem flags_merge (h : FilingsHistory) {es : List Entry} (hes : ∀ e ∈ es, e.cik ≠ 0) :
    (h.merge es).flags cik today p = h.flags cik today p ||| flagsOf cik today p es := by
  induction es generalizing h with
  | nil => simp [merge, flagsOf]
  | cons e es ih =>
    have hstep : h.merge (e :: es) = (h.add e.cik e.day e.cls e.items).merge es := rfl
    rw [hstep, ih _ fun f hf => hes f (List.mem_cons_of_mem e hf), flags_add h (hes e List.mem_cons_self),
      flagsOf, UInt32.or_assoc]

/-- No entry is without an issuer. -/
theorem cik_addEntry {e : Entry} {es : List Entry} (he : e.cik ≠ 0) (hes : ∀ f ∈ es, f.cik ≠ 0) :
    ∀ f ∈ addEntry e es, f.cik ≠ 0 := by
  induction es with
  | nil => simpa [addEntry] using he
  | cons x es ih =>
    have hx := hes x List.mem_cons_self
    have hes' := fun f hf => hes f (List.mem_cons_of_mem x hf)
    intro f hf
    unfold addEntry at hf
    split at hf
    · rcases List.mem_cons.mp hf with rfl | hf
      · exact hx
      · exact hes' f hf
    · rcases List.mem_cons.mp hf with rfl | hf
      · exact hx
      · exact ih hes' f hf

theorem cik_built (es : List Entry) : ∀ e ∈ (built es).entries, e.cik ≠ 0 := by
  induction es using List.reverseRecOn with
  | nil => nofun
  | append_singleton es e ih =>
    rw [built, merge, List.foldl_concat, add]
    split
    · exact ih
    · rename_i he
      exact cik_addEntry he ih

/-! ## Days -/

theorem Entry.flagsOf_future {e : Entry} (h : today < e.day) : e.flagsOf cik today p = 0 := by
  unfold Entry.flagsOf
  split
  · exact if_pos (by omega)
  · rfl

theorem flagsOf_filter (f : Entry → Bool) (es : List Entry) :
    flagsOf cik today p (es.filter f) ||| flagsOf cik today p (es.filter fun e => !f e) =
      flagsOf cik today p es := by
  rw [← flagsOf_append]
  exact flagsOf_perm (List.filter_append_perm f es)

theorem flagsOf_future {es : List Entry} (h : ∀ e ∈ es, today < e.day) : flagsOf cik today p es = 0 := by
  induction es with
  | nil => rfl
  | cons e es ih =>
    rw [flagsOf, Entry.flagsOf_future (h e List.mem_cons_self),
      ih fun f hf => h f (List.mem_cons_of_mem e hf), UInt32.zero_or]

theorem filter_addEntry (e : Entry) (es : List Entry) (day : Int) :
    (addEntry e es).filter (·.day < day) =
      if e.day < day then addEntry e (es.filter (·.day < day)) else es.filter (·.day < day) := by
  induction es with
  | nil => by_cases h : e.day < day <;> simp [addEntry, h]
  | cons x es ih =>
    by_cases hsame : x.cik = e.cik ∧ x.day = e.day ∧ x.cls = e.cls
    · by_cases h : e.day < day
      · have hx : x.day < day := hsame.2.1 ▸ h
        rw [addEntry, if_pos hsame, if_pos h, List.filter_cons_of_pos (by simpa using hx),
          List.filter_cons_of_pos (by simpa using hx), addEntry, if_pos hsame]
      · have hx : ¬ x.day < day := hsame.2.1 ▸ h
        rw [addEntry, if_pos hsame, if_neg h, List.filter_cons_of_neg (by simpa using hx),
          List.filter_cons_of_neg (by simpa using hx)]
    · rw [addEntry, if_neg hsame]
      by_cases hx : x.day < day
      · rw [List.filter_cons_of_pos (by simpa using hx), List.filter_cons_of_pos (by simpa using hx), ih,
          addEntry, if_neg hsame]
        split <;> rfl
      · rw [List.filter_cons_of_neg (by simpa using hx), List.filter_cons_of_neg (by simpa using hx), ih]

/-- What came before a day is what the filings before that day make. -/
theorem before_built (es : List Entry) (day : Int) :
    (built es).before day = built (es.filter (·.day < day)) := by
  induction es using List.reverseRecOn with
  | nil => rfl
  | append_singleton es e ih =>
    have hbuilt : ∀ es, built (es ++ [e]) = (built es).add e.cik e.day e.cls e.items := fun es =>
      List.foldl_concat ..
    have hentries := congrArg FilingsHistory.entries ih
    rw [hbuilt, List.filter_append]
    by_cases h : e.day < day
    · rw [List.filter_cons_of_pos (by simpa using h), List.filter_nil, hbuilt, ← ih, add, add]
      split
      · rfl
      · rw [before, filter_addEntry, if_pos h]
        rfl
    · rw [List.filter_cons_of_neg (by simpa using h), List.filter_nil, List.append_nil, ← ih, add]
      split
      · rfl
      · rw [before, filter_addEntry, if_neg h]
        rfl

/-! ## Files -/

/-- The classes in the order of their numbers. -/
def formClasses : List FormClass :=
  [.other, .s1, .s3, .prospectus, .effect, .preProxy, .defProxy, .s8, .form8K, .form6K, .form10Q, .form10K,
    .nt]

/-- The columns of an entry. -/
def tsvFields (e : Entry) : List Bytes :=
  let c := Time.civilFromDays e.day
  [Dbl.digits e.cik.toNat,
    Time.fmtInt 4 c.y ++ lit "-" ++ Time.fmtInt 2 c.m ++ lit "-" ++ Time.fmtInt 2 c.d,
    Dbl.digits (formClasses.idxOf e.cls), Dbl.digits e.items.toNat]

/-- The file of a history, which the source goes through in the order `es`. -/
def toTsv (es : List Entry) : Bytes :=
  lit "cik\tdate\tclass\titems\n" ++ es.flatMap fun e => [9].intercalate (tsvFields e) ++ [10]

/-- The entry of a line, `none` for a line that is skipped. -/
def tsvEntry (line : Bytes) : Option Entry :=
  if line.isEmpty ∨ istartsWith line (lit "cik") then none
  else
    match line.splitOn 9 with
    | f0 :: f1 :: f2 :: rest => do
      let cik ← parseU32 f0
      let num ← parseU32 f2
      let cls ← formClasses[num.toNat]?
      let c ← Time.parseYmd f1
      let items := match rest with
        | f3 :: _ => (parseU32 f3).getD 0
        | [] => 0
      some ⟨.ofNat cik.toNat, Time.toInt (Time.daysFromCivil c.y c.m c.d), cls, .ofNat items.toNat⟩
    | _ => none

/-- Adds the entries of a file and counts its lines. -/
def loadTsv (h : FilingsHistory) (tsv : Bytes) : FilingsHistory × Nat :=
  (lines tsv).foldl (fun (h, n) line =>
    match tsvEntry line with
    | some e => (h.add e.cik e.day e.cls e.items, n + 1)
    | none => (h, n)) (h, 0)

/-- The day of an entry is an `int32_t` with a year of four digits. -/
def Entry.Dated (e : Entry) : Prop :=
  (-2 ^ 31 ≤ e.day ∧ e.day < 2 ^ 31) ∧ 0 ≤ (Time.civilFromDays e.day).y ∧ (Time.civilFromDays e.day).y ≤ 9999

/-- The bytes of the columns. -/
theorem mem_tsvFields {e : Entry} (he : e.Dated) : ∀ f ∈ tsvFields e, ∀ c ∈ f, isDigit c = true ∨ c = ch '-' := by
  have hdigits : ∀ n, ∀ c ∈ Dbl.digits n, isDigit c = true ∨ c = ch '-' := fun n c hc =>
    .inl (Dbl.isDigit_digits n c hc)
  have hfmt : ∀ w (x : Int), 0 < w → 0 ≤ x → x < 10 ^ w → ∀ c ∈ Time.fmtInt w x, isDigit c = true := by
    intro w x hw h0 hlt c hc
    obtain ⟨n, rfl⟩ := Int.eq_ofNat_of_zero_le h0
    rw [Time.fmtInt, if_neg (by omega)] at hc
    exact (Dbl.padded_spec (n := n) hw (by exact_mod_cast hlt)).2.1 c hc
  obtain ⟨⟨-, hm⟩, -, hd⟩ := Time.civilFromDays_bounds e.day
  intro f hf c hc
  simp only [tsvFields, List.mem_cons, List.not_mem_nil, or_false] at hf
  rcases hf with rfl | rfl | rfl | rfl
  · exact hdigits _ c hc
  · simp only [List.mem_append] at hc
    rcases hc with (((hc | hc) | hc) | hc) | hc
    · exact .inl (hfmt 4 _ (by decide) he.2.1 (by have := he.2.2; omega) c hc)
    · exact .inr (by simpa [lit] using hc)
    · exact .inl (hfmt 2 _ (by decide) (by omega) (by omega) c hc)
    · exact .inr (by simpa [lit] using hc)
    · exact .inl (hfmt 2 _ (by decide) (by omega) (by omega) c hc)
  · exact hdigits _ c hc
  · exact hdigits _ c hc

theorem formClasses_idxOf (c : FormClass) :
    formClasses.idxOf c < 13 ∧ formClasses[formClasses.idxOf c]? = some c := by
  cases c <;> decide

/-- The day of an entry is that of its date. -/
theorem Entry.Dated.day_eq {e : Entry} (he : e.Dated) :
    let c := Time.civilFromDays e.day
    Time.toInt (Time.daysFromCivil c.y c.m c.d) = e.day := by
  obtain ⟨hlo, hhi⟩ := he.1
  obtain ⟨hy, hy'⟩ := Time.yearOf_bounds hlo hhi.le
  intro c
  rw [Time.daysFromCivil_civilFromDays (Time.toInt_eq hy hy'), Time.toInt_eq hlo hhi]

/-- A line that begins with a digit is not the header. -/
theorem not_istartsWith_cik {c : UInt8} (hc : isDigit c = true) (line : Bytes) :
    ¬ istartsWith (c :: line) (lit "cik") = true := by
  intro h
  rw [istartsWith, Bool.and_eq_true, iequals, Bool.and_eq_true, beq_iff_eq, beq_iff_eq] at h
  have hhead := congrArg List.head? h.2.2
  have hlow : toLower c = toLower (ch 'c') := by simpa [toLowerCopy, lit] using hhead
  refine byte_forall (p := fun c => isDigit c = true → toLower c = toLower (ch 'c') → False) ?_ c hc hlow
  decide +kernel

/-- The line of an entry gives the entry. -/
theorem tsvEntry_fields {e : Entry} (he : e.Dated) : tsvEntry ([9].intercalate (tsvFields e)) = some e := by
  have hu32 : ∀ n : Nat, n < 2 ^ 32 → parseU32 (Dbl.digits n) = some (n : Int) := by
    intro n hn
    have hval := Dbl.digitsVal_digits n
    have hread : parseU32 (Dbl.digits n) = some (digitsVal (Dbl.digits n) : Int) :=
      Dbl.parseInt_digits (Dbl.isDigit_digits n) (Dbl.digits_ne_nil n) (by omega) (by omega)
    rw [hread, hval]
  have hsplit : ([9].intercalate (tsvFields e)).splitOn 9 = tsvFields e := by
    refine List.splitOn_intercalate _ (fun f hf hc => ?_) (by simp [tsvFields])
    exact absurd (mem_tsvFields he f hf 9 hc) (by decide)
  obtain ⟨c, ds, hds⟩ : ∃ c ds, Dbl.digits e.cik.toNat = c :: ds :=
    List.exists_cons_of_ne_nil (Dbl.digits_ne_nil _)
  have hc : isDigit c = true := Dbl.isDigit_digits e.cik.toNat c (hds ▸ List.mem_cons_self)
  obtain ⟨rest, hrest⟩ : ∃ rest, [9].intercalate (tsvFields e) = c :: rest := by
    simp [tsvFields, hds, List.intercalate]
  have hguard : ¬ (([9].intercalate (tsvFields e)).isEmpty ∨
      istartsWith ([9].intercalate (tsvFields e)) (lit "cik")) := by
    rw [hrest, not_or]
    exact ⟨by simp, not_istartsWith_cik hc rest⟩
  obtain ⟨hm, hd⟩ := Time.civilFromDays_bounds e.day
  have hday := he.day_eq
  unfold tsvEntry
  rw [if_neg hguard, hsplit]
  simp only [tsvFields, hu32 _ e.cik.toNat_lt, hu32 _ e.items.toNat_lt,
    hu32 _ (lt_trans (formClasses_idxOf e.cls).1 (by decide)), Time.parseYmd_text he.2 hm hd]
  simp [(formClasses_idxOf e.cls).2, hday]

theorem mem_intercalate {x c : UInt8} {fs : List Bytes} (h : c ∈ [x].intercalate fs) : c = x ∨ ∃ f ∈ fs, c ∈ f := by
  rw [List.intercalate, List.mem_flatten] at h
  obtain ⟨f, hf, hc⟩ := h
  induction fs with
  | nil => cases hf
  | cons g fs ih =>
    cases fs with
    | nil => exact .inr ⟨f, hf, hc⟩
    | cons g' fs =>
      rcases List.mem_cons.mp hf with rfl | hf
      · exact .inr ⟨f, List.mem_cons_self, hc⟩
      · rcases List.mem_cons.mp hf with rfl | hf
        · exact .inl (List.mem_singleton.mp hc)
        · rcases ih hf with h | ⟨k, hk, hck⟩
          · exact .inl h
          · exact .inr ⟨k, List.mem_cons_of_mem g hk, hck⟩

theorem lines_toTsv {es : List Entry} (hes : ∀ e ∈ es, e.Dated) :
    lines (toTsv es) = lit "cik\tdate\tclass\titems" :: es.map fun e => [9].intercalate (tsvFields e) := by
  have hfields : ∀ {e : Entry}, e.Dated → ∀ c ∈ [9].intercalate (tsvFields e),
      c = 9 ∨ isDigit c = true ∨ c = ch '-' := by
    intro e he c hc
    rcases mem_intercalate hc with rfl | ⟨f, hf, hc⟩
    · exact .inl rfl
    · exact .inr (mem_tsvFields he f hf c hc)
  have hline : ∀ {e : Entry} (s : Bytes), e.Dated → linesFrom [] ([9].intercalate (tsvFields e) ++ [10] ++ s) =
      [9].intercalate (tsvFields e) :: linesFrom [] s := by
    intro e s he
    have hnl : (10 : UInt8) ∉ [9].intercalate (tsvFields e) := fun hc =>
      absurd (hfields he 10 hc) (by decide)
    have hcr : chopCr ([9].intercalate (tsvFields e)) = [9].intercalate (tsvFields e) :=
      if_neg fun hc => absurd (hfields he 13 (List.mem_of_getLast? hc)) (by decide)
    rw [List.append_assoc, List.singleton_append, linesFrom_line _ _ hnl, List.reverse_nil, List.nil_append, hcr]
  have hall : ∀ es : List Entry, (∀ e ∈ es, e.Dated) →
      linesFrom [] (es.flatMap fun e => [9].intercalate (tsvFields e) ++ [10]) =
        es.map fun e => [9].intercalate (tsvFields e) := by
    intro es
    induction es with
    | nil => intro _; rfl
    | cons e es ih =>
      intro h
      rw [List.flatMap_cons, hline _ (h e List.mem_cons_self),
        ih fun f hf => h f (List.mem_cons_of_mem e hf), List.map_cons]
  have hheader : lit "cik\tdate\tclass\titems\n" = lit "cik\tdate\tclass\titems" ++ [10] := by decide
  rw [lines, toTsv, hheader, List.append_assoc, List.singleton_append, linesFrom_line _ _ (by decide), hall es hes]
  rfl

/-- What was written is read back, entry by entry. -/
theorem loadTsv_toTsv {es : List Entry} (hes : ∀ e ∈ es, e.Dated) :
    loadTsv {} (toTsv es) = (built es, es.length) := by
  have hfold : ∀ (es : List Entry) (h : FilingsHistory) (n : Nat), (∀ e ∈ es, e.Dated) →
      (es.map fun e => [9].intercalate (tsvFields e)).foldl (fun (h, n) line =>
        match tsvEntry line with
        | some e => (h.add e.cik e.day e.cls e.items, n + 1)
        | none => (h, n)) (h, n) = (h.merge es, n + es.length) := by
    intro es
    induction es with
    | nil => intro h n _; rfl
    | cons e es ih =>
      intro h n hes
      rw [List.map_cons, List.foldl_cons, tsvEntry_fields (hes e List.mem_cons_self)]
      refine (ih _ _ fun f hf => hes f (List.mem_cons_of_mem e hf)).trans ?_
      rw [List.length_cons, Nat.add_assoc, Nat.add_comm 1]
      rfl
  have hskip : tsvEntry (lit "cik\tdate\tclass\titems") = none := if_pos (.inr (by decide))
  rw [loadTsv, lines_toTsv hes, List.foldl_cons, hskip]
  exact (hfold es {} 0 hes).trans (by rw [Nat.zero_add]; rfl)

/-! ## The laws -/

/-- The flags of a merge, of a part and of a copy of a history, whatever order the source goes
through its entries in. -/
theorem filings_algebra (as bs : List Entry) (cik : UInt32) (today : Int) (p : DilutionPolicy) :
    let a := built as
    let b := built bs
    let flags (h : FilingsHistory) : UInt32 := h.flags cik today p
    (∀ es, es.Perm b.entries → flags (a.merge es) = flags a ||| flags b) ∧
    (flags { entries := a.entries.filter (·.day ≤ today) } = flags a ∧
      ∀ e : Entry, today < e.day → flags (a.add e.cik e.day e.cls e.items) = flags a) ∧
    (∀ d, (a.before d).entries = a.entries.filter (·.day < d) ∧ a.before d = built (as.filter (·.day < d)) ∧
      flags (a.before d) = flags { entries := a.entries.filter (¬ d ≤ ·.day) } ∧
      ∀ es, es.Perm (a.entries.filter (d ≤ ·.day)) → flags ((a.before d).merge es) = flags a) ∧
    (∀ es, es.Perm a.entries → flags (a.merge es) = flags a) ∧
    (∀ es es', es.Perm b.entries → es'.Perm a.entries → flags (a.merge es) = flags (b.merge es')) ∧
    ((∀ e ∈ a.entries, e.Dated) → ∀ es, es.Perm a.entries → flags (loadTsv {} (toTsv es)).1 = flags a) := by
  intro a b flags
  have hperm : ∀ (h : FilingsHistory) {c : List Entry} {es}, es.Perm (built c).entries →
      flags (h.merge es) = flags h ||| flags (built c) := by
    intro h c es hes
    have hcik : ∀ e ∈ es, e.cik ≠ 0 := fun e he => cik_built c e (hes.mem_iff.mp he)
    show (h.merge es).flags cik today p = _
    rw [flags_merge h hcik, flagsOf_perm hes, ← flags_eq]
  have hsplit : ∀ f : Entry → Bool, flagsOf cik today p (a.entries.filter f) |||
      flagsOf cik today p (a.entries.filter fun e => !f e) = flags a := by
    intro f
    rw [flagsOf_filter, ← flags_eq]
  refine ⟨fun es hes => hperm a hes, ⟨?_, fun e he => ?_⟩, fun d => ⟨rfl, before_built as d, ?_, fun es hes => ?_⟩,
    fun es hes => ?_, fun es es' hes hes' => ?_, fun hdated es hes => ?_⟩
  · have hfuture : flagsOf cik today p (a.entries.filter fun e => !decide (e.day ≤ today)) = 0 :=
      flagsOf_future fun e he => by simpa using (List.mem_filter.mp he).2
    rw [← hsplit fun e => e.day ≤ today, hfuture, UInt32.or_zero]
    exact flags_eq _
  · by_cases h0 : e.cik = 0
    · rw [add, if_pos h0]
    · show FilingsHistory.flags _ cik today p = _
      rw [flags_add a h0, Entry.flagsOf_future he, UInt32.or_zero]
  · have hfilter : a.entries.filter (·.day < d) = a.entries.filter (¬ d ≤ ·.day) := by
      refine List.filter_congr fun e _ => decide_eq_decide.mpr ?_
      omega
    rw [← hfilter]
    rfl
  · have hcik : ∀ e ∈ es, e.cik ≠ 0 := fun e he => cik_built as e (List.mem_of_mem_filter (hes.mem_iff.mp he))
    have hrest : (a.entries.filter fun e => !decide (e.day < d)) = a.entries.filter (d ≤ ·.day) := by
      refine List.filter_congr fun e _ => ?_
      rw [← decide_not, decide_eq_decide]
      omega
    show ((a.before d).merge es).flags cik today p = _
    rw [flags_merge _ hcik, flagsOf_perm hes, ← hrest, flags_eq]
    exact hsplit fun e => e.day < d
  · rw [hperm a hes, UInt32.or_self]
  · rw [hperm a hes, hperm b hes', UInt32.or_comm]
  · rw [loadTsv_toTsv fun e he => hdated e (hes.mem_iff.mp he)]
    have hempty : flags {} = 0 := flags_eq _
    show flags (merge {} es) = _
    rw [hperm {} hes, hempty, UInt32.zero_or]

end Stok.FilingsHistory
