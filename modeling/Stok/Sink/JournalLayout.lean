import Stok.Sink.Journal
import Stok.Util.JsonLayout

/-!
# A news line is a JSON object

`Writes j ms` says that the writer has written the members `ms` so far. The members of a
news line come in a fixed order and some are left out; `newsFields` lists all of them, each
with its node or `none`. `newsJson_layout` says that the line is a layout of the object of
the members that are present, on one line of text.
-/

namespace Stok

open Json

variable {F : Type} [Dbl F]

/-! ## Nodes of the values -/

def strsNode (vs : List Bytes) : Node F := .array (vs.map fun v => ([], strNode v))

/-- The node of a number; `null` when it is not finite. -/
def fixedNode (v : F) (prec : Nat) : Node F :=
  if Dbl.isFinite v then numNode (J.numText v prec) else .null

/-- Zeros taken off the end of a fraction leave a fraction. -/
theorem trimZeros_frac (a frac : Bytes) (hfrac : ∀ c ∈ frac, isDigit c = true) :
    ∃ frac', J.trimZeros (a ++ ch '.' :: frac) = a ++ (if frac' = [] then [] else ch '.' :: frac') ∧
      frac' <+: frac := by
  obtain ⟨frac', hfrac'⟩ : ∃ f, f = frac.rdropWhile (· == ch '0') := ⟨_, rfl⟩
  have hpre : frac' <+: frac := hfrac' ▸ List.rdropWhile_prefix _ _
  have hdrop : ((a ++ ch '.' :: frac).reverse.dropWhile (· == ch '0')).reverse =
      a ++ ch '.' :: frac' := by
    have hstop : (ch '.' :: a.reverse).dropWhile (· == ch '0') = ch '.' :: a.reverse :=
      List.dropWhile_cons_of_neg (by decide)
    rw [List.reverse_append, List.reverse_cons, List.append_assoc, List.singleton_append,
      List.dropWhile_append, hstop, hfrac']
    split
    · rename_i he
      rw [List.rdropWhile, List.isEmpty_iff.1 he]
      simp
    · simp [List.rdropWhile]
  refine ⟨frac', ?_, hpre⟩
  rw [J.trimZeros, if_pos (by simp), hdrop]
  rcases List.eq_nil_or_concat frac' with rfl | ⟨f, c, rfl⟩
  · simp
  · have hc : c ≠ 46 := by
      rintro rfl
      have := hfrac 46 (hpre.subset (by simp))
      exact absurd this (by decide)
    have e : a ++ ch '.' :: f.concat c = (a ++ ch '.' :: f) ++ [c] := by simp
    have hlast : (a ++ ch '.' :: f.concat c).getLast? ≠ some (ch '.') := by
      rw [e, List.getLast?_concat]
      simpa using hc
    rw [if_neg hlast, if_neg (by simp)]

theorem isDigit_padded (w n : Nat) : ∀ c ∈ Dbl.padded w n, isDigit c = true := by
  intro c hc
  rcases List.mem_append.1 hc with hc | hc
  · rw [(List.mem_replicate.1 hc).2]
    decide
  · exact Dbl.isDigit_digits n c hc

theorem dot_notMem_digits {ds : Bytes} (h : ∀ c ∈ ds, isDigit c = true) : ch '.' ∉ ds := by
  intro hm
  exact absurd (h _ hm) (by decide)

/-- The first 47 bytes of a decimal, without the zeros at the end of its fraction. -/
theorem decText_trimZeros {sign whole rest : Bytes} (hsign : sign = [] ∨ sign = [ch '-'])
    (hne : whole ≠ []) (hwhole : ∀ c ∈ whole, isDigit c = true)
    (hrest : rest = [] ∨ ∃ frac, rest = ch '.' :: frac ∧ ∀ c ∈ frac, isDigit c = true) :
    Dbl.DecText (J.trimZeros ((sign ++ whole ++ rest).take 47)) := by
  have hsl : sign.length ≤ 1 := by rcases hsign with rfl | rfl <;> simp
  have hdot : ∀ {w : Bytes}, (∀ c ∈ w, isDigit c = true) → ch '.' ∉ sign ++ w := by
    intro w hw hm
    rcases List.mem_append.1 hm with hm | hm
    · rcases hsign with rfl | rfl
      · simp at hm
      · simp at hm
    · exact dot_notMem_digits hw hm
  -- digits only, however many
  have hplain : ∀ {w : Bytes}, w ≠ [] → (∀ c ∈ w, isDigit c = true) → (sign ++ w).length ≤ 47 →
      Dbl.DecText (J.trimZeros (sign ++ w)) := by
    intro w hw hd hlen
    rw [J.trimZeros, if_neg (hdot hd)]
    exact ⟨⟨sign, w, [], by simp, hsign, hw, hd, by simp⟩, hlen⟩
  rcases Nat.lt_or_ge (sign ++ whole).length 47 with hlt | hge
  · rcases hrest with rfl | ⟨frac, rfl, hfrac⟩
    · rw [List.append_nil, List.take_of_length_le hlt.le]
      exact hplain hne hwhole hlt.le
    · have htake : (sign ++ whole ++ ch '.' :: frac).take 47 =
          sign ++ whole ++ ch '.' :: frac.take (46 - (sign ++ whole).length) := by
        rw [List.take_append, List.take_of_length_le hlt.le,
          show 47 - (sign ++ whole).length = 46 - (sign ++ whole).length + 1 by omega,
          List.take_succ_cons]
      rw [htake]
      have hfr : ∀ c ∈ frac.take (46 - (sign ++ whole).length), isDigit c = true :=
        fun c hc => hfrac c (List.mem_of_mem_take hc)
      obtain ⟨frac', he, hpre⟩ := trimZeros_frac (sign ++ whole) _ hfr
      rw [he]
      refine ⟨⟨sign, whole, frac', by simp, hsign, hne, hwhole,
        fun c hc => hfr c (hpre.subset hc)⟩, ?_⟩
      have h1 := hpre.length_le
      rw [List.length_take] at h1
      rw [List.length_append]
      split
      · simp only [List.length_nil]; omega
      · simp only [List.length_cons]; omega
  · have htake : (sign ++ whole ++ rest).take 47 = sign ++ whole.take (47 - sign.length) := by
      rw [List.take_append_of_le_length hge, List.take_append,
        List.take_of_length_le (by omega)]
    rw [htake]
    rw [List.length_append] at hge
    refine hplain ?_ (fun c hc => hwhole c (List.mem_of_mem_take hc)) ?_
    · rw [Ne, List.take_eq_nil_iff]
      rintro (h | h)
      · omega
      · exact hne h
    · rw [List.length_append, List.length_take]
      omega

theorem decText_numText {v : F} (h : Dbl.isFinite v = true) (prec : Nat) :
    Dbl.DecText (J.numText v prec) := by
  rw [J.numText, if_pos h]
  refine decText_trimZeros ?_ (Dbl.digits_ne_nil _) (Dbl.isDigit_digits _) ?_
  · split
    · exact .inr rfl
    · exact .inl rfl
  · split
    · exact .inl rfl
    · exact .inr ⟨_, rfl, isDigit_padded _ _⟩

theorem scalar_fixedNode (v : F) (prec : Nat) : Scalar (J.numText v prec) (fixedNode v prec) := by
  unfold fixedNode
  split
  · rename_i h
    exact scalar_numNode (decText_numText h prec)
  · rename_i h
    rw [J.numText, if_neg h]
    exact .null

/-! ## Members -/

/-- The text of a member: its key in quotes, a colon and a text of its node. -/
def Member (t : Bytes) (m : Bytes × Node F) : Prop :=
  ∃ u, t = 34 :: (m.1 ++ 34 :: 58 :: u) ∧ RawStr m.1 ∧ Layout 1 u m.2

/-- The members that the writer has written, on one line. -/
structure Writes (j : J) (ms : List (Bytes × Node F)) : Prop where
  text : ∃ ts : List Bytes, j.s = 123 :: commaList ts ∧ List.Forall₂ Member ts ms
  first : j.first = ms.isEmpty
  line : 10 ∉ j.s

theorem commaList_concat (ts : List Bytes) (t : Bytes) :
    commaList (ts ++ [t]) = commaList ts ++ if ts.isEmpty then t else ch ',' :: t := by
  induction ts with
  | nil => simp [commaList]
  | cons x ts ih =>
    cases ts with
    | nil => simp [commaList]
    | cons y ts =>
      have h1 : commaList (x :: (y :: ts ++ [t])) = x ++ ch ',' :: commaList (y :: ts ++ [t]) := rfl
      have h2 : commaList (x :: y :: ts) = x ++ ch ',' :: commaList (y :: ts) := rfl
      rw [List.cons_append, h1, h2, ih]
      simp

theorem writes_empty : Writes ({} : J) ([] : List (Bytes × Node F)) :=
  ⟨⟨[], rfl, .nil⟩, rfl, by decide⟩

/-- A key of the journal needs no escapes. -/
def PlainKey (k : String) : Bool := (lit k).all fun c => c != 34 && c != 92 && c != 10

theorem plain_key {cs : List Char} (h : (cs.map ch).all (fun c => c != 34 && c != 92 && c != 10) = true) :
    PlainKey (String.ofList cs) = true := by
  rw [PlainKey, lit_ofList]
  exact h

theorem PlainKey.raw {k : String} (h : PlainKey k = true) : RawStr (lit k) := by
  have hk : ∀ c ∈ lit k, c ≠ 34 ∧ c ≠ 92 := by
    intro c hc
    have := List.all_eq_true.1 h c hc
    simp only [Bool.and_eq_true, bne_iff_ne] at this
    exact this.1
  intro rest
  rw [scanStringEnd_notQuote _ fun c hc => (hk c hc).1, List.append_nil]
  have heven : ((lit k).reverse.takeWhile (· == (92 : UInt8))).length % 2 = 0 := by
    cases hr : (lit k).reverse with
    | nil => rfl
    | cons c r =>
      have hc := (hk c (by rw [← List.mem_reverse, hr]; exact List.mem_cons_self ..)).2
      simp [hc]
  have hquote : scanStringEnd (lit k).reverse (34 :: rest) =
      if ((lit k).reverse.takeWhile (· == (92 : UInt8))).length % 2 = 0 then
        some ((lit k).reverse.reverse, rest)
      else (scanStringEnd [] rest).map fun r => ((lit k).reverse.reverse ++ 34 :: r.1, r.2) := rfl
  rw [hquote, if_pos heven, List.reverse_reverse]

/-- Writing one more member. -/
theorem Writes.put {j : J} {ms : List (Bytes × Node F)} (h : Writes j ms) {k : String}
    (hk : PlainKey k = true) {u : Bytes} {n : Node F} (hu : Layout 1 u n) (hline : 10 ∉ u) :
    Writes ((j.key k).raw u) (ms ++ [(lit k, n)]) := by
  obtain ⟨ts, hs, hts⟩ := h.text
  have hempty : ts.isEmpty = ms.isEmpty := by
    cases hts <;> rfl
  have e : ((j.key k).raw u).s =
      j.s ++ (if j.first then [] else [ch ',']) ++ (34 :: (lit k ++ 34 :: 58 :: u)) := by
    simp [J.key, J.raw, lit]
  constructor
  case text =>
    refine ⟨ts ++ [34 :: (lit k ++ 34 :: 58 :: u)], ?_, ?_⟩
    · rw [e, commaList_concat, hs, h.first, hempty]
      cases ms.isEmpty <;> simp
    · exact List.rel_append hts (.cons ⟨u, rfl, PlainKey.raw hk, hu⟩ .nil)
  case first => simp [J.key, J.raw]
  case line =>
    have hkey : 10 ∉ lit k := by
      intro hc
      have := List.all_eq_true.1 hk 10 hc
      simp at this
    rw [e]
    cases j.first <;> simp [h.line, hkey, hline]

/-- The members and the closing brace. -/
theorem items_of_members {ts : List Bytes} {ms : List (Bytes × Node F)}
    (h : List.Forall₂ Member ts ms) (hne : ms ≠ []) :
    Items true 0 (commaList ts ++ [closing true]) ms := by
  induction h with
  | nil => exact absurd rfl hne
  | @cons t m ts ms ht hts ih =>
    obtain ⟨u, rfl, hraw, hu⟩ := ht
    have hk : KeyText true ([] ++ 34 :: (m.1 ++ 34 :: ([] ++ [58]))) m.1 :=
      .object (by simp [Ws]) hraw (by simp [Ws])
    cases hts with
    | nil =>
      have := Items.last (w := []) hk hu (by simp [Ws])
      simpa [commaList] using this
    | cons ht' hts' =>
      have := Items.more (w := []) hk hu (by simp [Ws]) (ih (by simp))
      simpa [commaList] using this

/-- The finished line is a layout of the object of its members. -/
theorem Writes.done {j : J} {ms : List (Bytes × Node F)} (h : Writes j ms) (hne : ms ≠ []) :
    Layout 0 j.done (.object ms) ∧ 10 ∉ j.done ∧ ∃ t, j.done = 123 :: (t ++ [125]) := by
  obtain ⟨ts, hs, hts⟩ := h.text
  have hi := items_of_members hts hne
  refine ⟨?_, ?_, commaList ts, by simp [J.done, hs]⟩
  · have := Layout.items (d := 0) (w := []) (by decide) (by simp [Ws]) hi
    simpa [J.done, hs, opening, closing, container] using this
  · have := h.line
    simp [J.done, this]

/-! ## Texts of the values -/

/-- A text of the node inside the object, on one line. -/
def OneLine (u : Bytes) (n : Node F) : Prop := Layout 1 u n ∧ 10 ∉ u

theorem layout_scalar {d : Nat} (hd : d ≤ 256) {t : Bytes} {n : Node F} (h : Scalar t n) :
    Layout d t n := by
  have := Layout.scalar (w := []) hd (by simp [Ws]) h
  simpa using this

theorem newline_notMem_jsonEscaped (v : Bytes) : 10 ∉ Text.jsonEscaped v := by
  intro h
  obtain ⟨c, -, hc⟩ := List.mem_flatMap.1 h
  exact byte_forall (p := fun c => 10 ∉ Text.escapeByte c) (by decide +kernel) c hc

theorem scalar_quoted (v : Bytes) : Scalar (J.quoted v) (strNode v : Node F) :=
  .string (rawStr_jsonEscaped v)

theorem newline_notMem_quoted (v : Bytes) : 10 ∉ J.quoted v := by
  have := newline_notMem_jsonEscaped v
  simp [J.quoted, this]

theorem oneLine_quoted (v : Bytes) : OneLine (J.quoted v) (strNode v : Node F) :=
  ⟨layout_scalar (by decide) (scalar_quoted v), newline_notMem_quoted v⟩

theorem newline_notMem_decText {t : Bytes} (h : Dbl.DecText t) : 10 ∉ t := by
  obtain ⟨⟨sign, whole, frac, rfl, hsign, -, hwhole, hfrac⟩, -⟩ := h
  have hd : ∀ {w : Bytes}, (∀ c ∈ w, isDigit c = true) → 10 ∉ w :=
    fun hw hm => absurd (hw _ hm) (by decide)
  have h1 := hd hwhole
  have h2 := hd hfrac
  rcases hsign with rfl | rfl <;> split <;> simp [h1, h2]

theorem oneLine_intText {v : Int} (h : v.natAbs < 10 ^ 20) :
    OneLine (Dbl.intText v) (intNode v : Node F) :=
  ⟨layout_scalar (by decide) (scalar_numNode (decText_intText h)),
    newline_notMem_decText (decText_intText h)⟩

theorem oneLine_numText (v : F) (prec : Nat) :
    OneLine (J.numText v prec) (fixedNode v prec) := by
  refine ⟨layout_scalar (by decide) (scalar_fixedNode v prec), ?_⟩
  by_cases h : Dbl.isFinite v = true
  · exact newline_notMem_decText (decText_numText h prec)
  · rw [J.numText, if_neg h]
    decide

theorem oneLine_bool (b : Bool) :
    OneLine (if b then lit "true" else lit "false") (.bool b : Node F) :=
  ⟨layout_scalar (by decide) (.bool b), by cases b <;> decide⟩

theorem items_of_strs (vs : List Bytes) (hne : vs ≠ []) :
    Items false 1 (commaList (vs.map J.quoted) ++ [closing false])
      (vs.map fun v => ([], (strNode v : Node F))) := by
  induction vs with
  | nil => exact absurd rfl hne
  | cons v vs ih =>
    have hv : Layout 2 (J.quoted v) (strNode v : Node F) := layout_scalar (by decide) (scalar_quoted v)
    cases vs with
    | nil =>
      have := Items.last (w := []) KeyText.array hv (by simp [Ws])
      simpa [commaList] using this
    | cons v' vs =>
      have := Items.more (w := []) KeyText.array hv (by simp [Ws]) (ih (by simp))
      simpa [commaList] using this

theorem newline_notMem_commaList {ts : List Bytes} (h : ∀ t ∈ ts, 10 ∉ t) : 10 ∉ commaList ts := by
  induction ts with
  | nil => simp [commaList]
  | cons t ts ih =>
    have h1 := h t (List.mem_cons_self ..)
    have h2 := ih fun x hx => h x (List.mem_cons_of_mem _ hx)
    cases ts with
    | nil => simpa [commaList] using h1
    | cons x ts => simp [commaList, h1, h2]

theorem oneLine_strsText (vs : List Bytes) : OneLine (J.strsText vs) (strsNode vs : Node F) := by
  constructor
  · rcases eq_or_ne vs [] with rfl | hne
    · have hws : Ws [] := by simp [Ws]
      have := Layout.empty (F := F) (d := 1) false (by decide) hws hws
      simpa [J.strsText, commaList, opening, closing, container, strsNode] using this
    · have := Layout.items (w := []) (d := 1) (by decide) (by simp [Ws])
        (items_of_strs (F := F) vs hne)
      simpa [J.strsText, opening, closing, container, strsNode] using this
  · have : 10 ∉ commaList (vs.map J.quoted) := by
      refine newline_notMem_commaList fun t ht => ?_
      obtain ⟨v, -, rfl⟩ := List.mem_map.1 ht
      exact newline_notMem_quoted v
    simp [J.strsText, this]

/-! ## Fields of a news line -/

/-- A member of a news line that may be left out. -/
abbrev Field (F : Type) := Bytes × Option (Node F)

/-- The members that are there. -/
def present (ss : List (Field F)) : List (Bytes × Node F) :=
  ss.filterMap fun s => s.2.map fun n => (s.1, n)

def opt {α : Type} (c : Bool) (n : α) : Option α := if c then some n else none

/-- The writer has written the fields that are present. -/
def Wrote (j : J) (ss : List (Field F)) : Prop := Writes j (present ss)

theorem Wrote.put {j : J} {ss : List (Field F)} (h : Wrote j ss) {k : String}
    (hk : PlainKey k = true) {u : Bytes} {n : Node F} (hu : OneLine u n) :
    Wrote ((j.key k).raw u) (ss ++ [(lit k, some n)]) := by
  have := Writes.put h hk hu.1 hu.2
  simpa [Wrote, present] using this

/-- A member that depends on a condition. -/
theorem Wrote.putIf {j : J} {ss : List (Field F)} (h : Wrote j ss) {k : String}
    (hk : PlainKey k = true) {u : Bytes} {n : Node F} (hu : OneLine u n) (c : Bool) :
    Wrote (if c then (j.key k).raw u else j) (ss ++ [(lit k, opt c n)]) := by
  cases c with
  | true => exact h.put hk hu
  | false => simpa [Wrote, present, opt] using h

/-- Members left out. -/
theorem Wrote.skip {j : J} {ss : List (Field F)} (h : Wrote j ss) (ks : List (Field F))
    (hks : ∀ s ∈ ks, s.2 = none) : Wrote j (ss ++ ks) := by
  have : present ks = [] := by
    refine List.filterMap_eq_nil_iff.2 fun s hs => ?_
    rw [hks s hs]
    rfl
  rw [Wrote, present, List.filterMap_append]
  rw [show ks.filterMap (fun s => s.2.map fun n => (s.1, n)) = [] from this, List.append_nil]
  exact h

omit [Dbl F] in
theorem lookup_present {ss : List (Field F)} (hnodup : (ss.map (·.1)).Nodup) {i : Nat} {k : Bytes}
    {o : Option (Node F)} (h : ss[i]? = some (k, o)) : (present ss).lookup k = o := by
  induction ss generalizing i with
  | nil => simp at h
  | cons s ss ih =>
    obtain ⟨hs, hnodup⟩ := List.nodup_cons.1 hnodup
    cases i with
    | zero =>
      obtain rfl : s = (k, o) := by simpa using h
      cases o with
      | some n => simp [present]
      | none =>
        have hk : ∀ m ∈ present ss, m.1 ≠ k := by
          intro m hm e
          obtain ⟨s', hs', he⟩ := List.mem_filterMap.1 hm
          obtain ⟨n, -, rfl⟩ := Option.map_eq_some_iff.1 he
          exact hs (List.mem_map.2 ⟨s', hs', e⟩)
        have : (present ss).lookup k = none := by
          refine List.lookup_eq_none_iff.2 fun m hm => ?_
          simpa using (hk m hm).symm
        simpa [present] using this
    | succ i =>
      have hmem : (k, o) ∈ ss := List.mem_of_getElem? (by simpa using h)
      have hne : k ≠ s.1 := fun e => hs (List.mem_map.2 ⟨_, hmem, e⟩)
      have := ih hnodup (by simpa using h)
      obtain ⟨ks, n⟩ := s
      cases n with
      | none => simpa [present] using this
      | some n =>
        have hb : (k == ks) = false := by simpa using hne
        simpa [present, List.lookup, hb] using this

/-! ## The news line -/

namespace Journal

def filingFields (c : Bool) (e : NewsEvent F) : List (Field F) :=
  [(lit "form", opt c (strNode e.form.bytes)), (lit "cik", opt c (intNode e.cik.toNat)),
   (lit "items", opt (c && e.itemsMask != 0) (strNode (form8kItemsStr e.itemsMask)))]

def haltFields (c : Bool) (h : HaltInfo F) : List (Field F) :=
  [(lit "halt_reason", opt c (strNode h.reason.bytes)),
   (lit "market", opt c (strNode h.market.bytes)),
   (lit "halt_time", opt (c && 0 < h.haltNs.toInt) (strNode (Time.formatUtcIso h.haltNs.toInt))),
   (lit "resume_trade",
     opt (c && 0 < h.resumeTradeNs.toInt) (strNode (Time.formatUtcIso h.resumeTradeNs.toInt))),
   (lit "halt_ns", opt c (intNode h.haltNs.toInt)),
   (lit "resume_quote_ns", opt c (intNode h.resumeQuoteNs.toInt)),
   (lit "resume_trade_ns", opt c (intNode h.resumeTradeNs.toInt)),
   (lit "pause_threshold", opt (c && pos h.pauseThreshold) (fixedNode h.pauseThreshold 4))]

def scoreFields (j : Journal F) (c : Bool) (s : ScoreResult F) : List (Field F) :=
  [(lit "score", opt c (intNode s.score.toInt)), (lit "text_score", opt c (intNode s.textScore.toInt)),
   (lit "catalyst", opt c (strNode (catalystName s.catalyst))),
   (lit "flags", opt (c && s.flags != 0) (strNode (scoreFlagsStr s.flags))),
   (lit "amount_usd", opt (c && pos s.amountUsd) (fixedNode s.amountUsd 0)),
   (lit "materiality", opt (c && pos s.materiality) (fixedNode s.materiality 4)),
   (lit "matched", opt (c && j.rules.isSome && !s.matched.isEmpty)
     (strsNode (matchedNames (j.rules.getD []) s.matched)))]

def symbolFields (r : NewsRecord F) (info : Option (SymbolInfo F)) : List (Field F) :=
  [(lit "sym", info.map fun i => strNode i.ticker),
   (lit "price", opt (info.isSome && pos r.newsPrice) (fixedNode r.newsPrice 4)),
   (lit "mcap", opt (info.isSome && pos r.newsMarketCap) (fixedNode r.newsMarketCap 0)),
   (lit "shares_out", info.bind fun i =>
     opt (pos i.sharesOutstanding) (fixedNode i.sharesOutstanding 0)),
   (lit "in_universe", opt info.isSome (.bool r.newsInUniverse)),
   (lit "dilution", opt (info.isSome && r.newsDilution != 0)
     (strNode (dilutionFlagsStr r.newsDilution)))]

/-- The fields before those that depend on the kind of the event. -/
def headFields (j : Journal F) (r : NewsRecord F) : List (Field F) :=
  let e := r.news
  [(lit "t", opt (0 < e.recvNs.toInt64.toInt) (strNode (Time.formatUtcIso e.recvNs.toInt64.toInt))),
   (lit "src", some (strNode (j.sourceName e.source))),
   (lit "kind", some (strNode e.kind.name)),
   (lit "id", some (strNode (J.hexText e.idHash))),
   (lit "recv_ns", some (intNode e.recvNs.toNat)),
   (lit "sent_ns", some (intNode e.sentNs.toNat)),
   (lit "pub_ns", some (intNode e.publishedNs.toInt)),
   (lit "engine_ns", some (intNode r.engineNs.toNat)),
   (lit "pub_to_recv_ms", opt (0 < e.publishedNs ∧ e.publishedNs.toUInt64 < e.recvNs)
     (fixedNode (msOf (e.recvNs - e.publishedNs.toUInt64).toNat : F) 1)),
   (lit "title", some (strNode e.title.bytes)),
   (lit "link", some (strNode e.link.bytes)),
   (lit "tickers", some (strsNode (e.tickers.map j.tickerOf))),
   (lit "name_matched", opt (e.flags &&& kEvNameMatched != 0) (.bool true)),
   (lit "unresolved", opt (!e.unresolved.isEmpty) (strsNode (e.unresolved.map (·.bytes))))]

/-- The fields after them. -/
def tailFields (j : Journal F) (r : NewsRecord F) : List (Field F) :=
  [(lit "dup", opt r.newsDuplicate (.bool true)),
   (lit "first_src", opt r.newsDuplicate (strNode (j.sourceName r.firstSource))),
   (lit "behind_first_ms", opt r.newsDuplicate (fixedNode (msOf r.firstSeenLagNs.toInt : F) 1)),
   (lit "body", some (strNode r.news.body.bytes))]

def newsFields (j : Journal F) (r : NewsRecord F) : List (Field F) :=
  let e := r.news
  j.headFields r ++ filingFields (e.kind = .filing ∨ e.kind = .filingDoc) e ++
    haltFields (e.kind = .halt) e.halt ++ j.scoreFields (e.kind ≠ .halt) r.score ++
    symbolFields r (j.symbols.get? r.newsSym) ++ j.tailFields r

end Journal

/-- Sizes of the machine integers that the journal prints. -/
theorem natAbs_int64 (v : Int64) : v.toInt.natAbs < 10 ^ 20 := by
  have h1 := v.toInt_lt
  have h2 := v.le_toInt
  omega

theorem natAbs_uint64 (v : UInt64) : (v.toNat : Int).natAbs < 10 ^ 20 := by
  have := v.toNat_lt
  omega

theorem natAbs_uint32 (v : UInt32) : (v.toNat : Int).natAbs < 10 ^ 20 := by
  have := v.toNat_lt
  omega

theorem natAbs_int32 (v : Int32) : v.toInt.natAbs < 10 ^ 20 := by
  have h1 := v.toInt_lt
  have h2 := v.le_toInt
  omega

namespace Journal

variable {w : J} {ss : List (Field F)}

theorem wrote_time (h : Wrote w ss) {k : String} (hk : PlainKey k = true) (ns : Int) :
    Wrote (w.time k ns) (ss ++ [(lit k, opt (0 < ns) (strNode (Time.formatUtcIso ns)))]) := by
  have := h.putIf hk (oneLine_quoted (Time.formatUtcIso ns)) (decide (0 < ns))
  unfold J.time
  rcases Int.lt_or_le 0 ns with hns | hns
  · rw [if_neg (not_le.2 hns)]
    rw [decide_eq_true hns] at this ⊢
    exact this
  · rw [if_pos hns]
    rw [decide_eq_false (not_lt.2 hns)] at this ⊢
    exact this

theorem wrote_filing (h : Wrote w ss) (c : Bool) (e : NewsEvent F) :
    Wrote (w.when c (filingMembers e)) (ss ++ filingFields c e) := by
  cases c with
  | false => exact h.skip _ (by simp [filingFields, opt])
  | true =>
    have h1 := h.put (k := "form") (plain_key (by decide)) (oneLine_quoted e.form.bytes)
    have h2 := h1.put (k := "cik") (plain_key (by decide)) (oneLine_intText (natAbs_uint32 e.cik))
    have h3 := h2.putIf (k := "items") (plain_key (by decide)) (oneLine_quoted (form8kItemsStr e.itemsMask))
      (e.itemsMask != 0)
    simp only [List.append_assoc, List.cons_append, List.nil_append] at h3
    exact h3

theorem wrote_halt (h : Wrote w ss) (i : HaltInfo F) :
    Wrote (haltMembers i w) (ss ++ haltFields true i) := by
  have h1 := h.put (k := "halt_reason") (plain_key (by decide)) (oneLine_quoted i.reason.bytes)
  have h2 := h1.put (k := "market") (plain_key (by decide)) (oneLine_quoted i.market.bytes)
  have h3 := wrote_time h2 (k := "halt_time") (plain_key (by decide)) i.haltNs.toInt
  have h4 := wrote_time h3 (k := "resume_trade") (plain_key (by decide)) i.resumeTradeNs.toInt
  have h5 := h4.put (k := "halt_ns") (plain_key (by decide)) (oneLine_intText (natAbs_int64 i.haltNs))
  have h6 := h5.put (k := "resume_quote_ns") (plain_key (by decide))
    (oneLine_intText (natAbs_int64 i.resumeQuoteNs))
  have h7 := h6.put (k := "resume_trade_ns") (plain_key (by decide))
    (oneLine_intText (natAbs_int64 i.resumeTradeNs))
  have h8 := h7.putIf (k := "pause_threshold") (plain_key (by decide)) (oneLine_numText i.pauseThreshold 4)
    (pos i.pauseThreshold)
  simp only [List.append_assoc, List.cons_append, List.nil_append] at h8
  exact h8

theorem wrote_score (j : Journal F) (h : Wrote w ss) (s : ScoreResult F) :
    Wrote (j.scoreMembers s w) (ss ++ j.scoreFields true s) := by
  have h1 := h.put (k := "score") (plain_key (by decide)) (oneLine_intText (natAbs_int32 s.score))
  have h2 := h1.put (k := "text_score") (plain_key (by decide)) (oneLine_intText (natAbs_int32 s.textScore))
  have h3 := h2.put (k := "catalyst") (plain_key (by decide)) (oneLine_quoted (catalystName s.catalyst))
  have h4 := h3.putIf (k := "flags") (plain_key (by decide)) (oneLine_quoted (scoreFlagsStr s.flags))
    (s.flags != 0)
  have h5 := h4.putIf (k := "amount_usd") (plain_key (by decide)) (oneLine_numText s.amountUsd 0)
    (pos s.amountUsd)
  have h6 := h5.putIf (k := "materiality") (plain_key (by decide)) (oneLine_numText s.materiality 4)
    (pos s.materiality)
  have h7 := h6.putIf (k := "matched") (plain_key (by decide))
    (oneLine_strsText (matchedNames (j.rules.getD []) s.matched))
    (j.rules.isSome && !s.matched.isEmpty)
  simp only [List.append_assoc, List.cons_append, List.nil_append] at h7
  unfold scoreMembers scoreFields
  cases hr : j.rules with
  | none => rw [hr] at h7; exact h7
  | some rules => rw [hr] at h7; exact h7

theorem wrote_symbol (h : Wrote w ss) (r : NewsRecord F) (info : Option (SymbolInfo F)) :
    Wrote (match info with | some i => symbolMembers r i w | none => w)
      (ss ++ symbolFields r info) := by
  cases info with
  | none => exact h.skip _ (by simp [symbolFields, opt])
  | some i =>
    have h1 := h.put (k := "sym") (plain_key (by decide)) (oneLine_quoted i.ticker)
    have h2 := h1.putIf (k := "price") (plain_key (by decide)) (oneLine_numText r.newsPrice 4) (pos r.newsPrice)
    have h3 := h2.putIf (k := "mcap") (plain_key (by decide)) (oneLine_numText r.newsMarketCap 0)
      (pos r.newsMarketCap)
    have h4 := h3.putIf (k := "shares_out") (plain_key (by decide)) (oneLine_numText i.sharesOutstanding 0)
      (pos i.sharesOutstanding)
    have h5 := h4.put (k := "in_universe") (plain_key (by decide)) (oneLine_bool r.newsInUniverse)
    have h6 := h5.putIf (k := "dilution") (plain_key (by decide))
      (oneLine_quoted (dilutionFlagsStr r.newsDilution)) (r.newsDilution != 0)
    simp only [List.append_assoc, List.cons_append, List.nil_append] at h6
    exact h6

theorem wrote_head (j : Journal F) (r : NewsRecord F) :
    ∃ w : J, Wrote w (j.headFields r) ∧
      j.newsJson r =
        (let e := r.news
         let w := w.when (e.kind = .filing ∨ e.kind = .filingDoc) (filingMembers e)
         let w := if e.kind = .halt then haltMembers e.halt w else j.scoreMembers r.score w
         let w := match j.symbols.get? r.newsSym with
           | some info => symbolMembers r info w
           | none => w
         let w := w.when r.newsDuplicate fun w =>
           ((w.boolean "dup" true).str "first_src" (j.sourceName r.firstSource)).num
             "behind_first_ms" (msOf r.firstSeenLagNs.toInt : F) 1
         (w.str "body" e.body.bytes).done) := by
  have h0 : Wrote ({} : J) ([] : List (Field F)) := writes_empty
  have h1 := wrote_time h0 (k := "t") (plain_key (by decide)) r.news.recvNs.toInt64.toInt
  have h2 := h1.put (k := "src") (plain_key (by decide)) (oneLine_quoted (j.sourceName r.news.source))
  have h3 := h2.put (k := "kind") (plain_key (by decide)) (oneLine_quoted r.news.kind.name)
  have h4 := h3.put (k := "id") (plain_key (by decide)) (oneLine_quoted (J.hexText r.news.idHash))
  have h5 := h4.put (k := "recv_ns") (plain_key (by decide)) (oneLine_intText (natAbs_uint64 r.news.recvNs))
  have h6 := h5.put (k := "sent_ns") (plain_key (by decide)) (oneLine_intText (natAbs_uint64 r.news.sentNs))
  have h7 := h6.put (k := "pub_ns") (plain_key (by decide)) (oneLine_intText (natAbs_int64 r.news.publishedNs))
  have h8 := h7.put (k := "engine_ns") (plain_key (by decide)) (oneLine_intText (natAbs_uint64 r.engineNs))
  have h9 := h8.putIf (k := "pub_to_recv_ms") (plain_key (by decide))
    (oneLine_numText (msOf (r.news.recvNs - r.news.publishedNs.toUInt64).toNat : F) 1)
    (decide (0 < r.news.publishedNs ∧ r.news.publishedNs.toUInt64 < r.news.recvNs))
  have h10 := h9.put (k := "title") (plain_key (by decide)) (oneLine_quoted r.news.title.bytes)
  have h11 := h10.put (k := "link") (plain_key (by decide)) (oneLine_quoted r.news.link.bytes)
  have h12 := h11.put (k := "tickers") (plain_key (by decide))
    (oneLine_strsText (r.news.tickers.map j.tickerOf))
  have h13 := h12.putIf (k := "name_matched") (plain_key (by decide)) (oneLine_bool true)
    (r.news.flags &&& kEvNameMatched != 0)
  have h14 := h13.putIf (k := "unresolved") (plain_key (by decide))
    (oneLine_strsText (r.news.unresolved.map (·.bytes))) (!r.news.unresolved.isEmpty)
  simp only [List.cons_append, List.nil_append] at h14
  exact ⟨_, h14, rfl⟩

/-- A halt has the halt's members, any other event a score. -/
theorem wrote_kind (j : Journal F) (h : Wrote w ss) (r : NewsRecord F) :
    Wrote (if r.news.kind = .halt then haltMembers r.news.halt w else j.scoreMembers r.score w)
      (ss ++ (haltFields (r.news.kind = .halt) r.news.halt ++
        j.scoreFields (r.news.kind ≠ .halt) r.score)) := by
  rw [← List.append_assoc]
  rcases eq_or_ne r.news.kind .halt with hk | hk
  · rw [if_pos hk, decide_eq_true hk, decide_eq_false (not_not_intro hk)]
    exact (wrote_halt h r.news.halt).skip _ (by simp [scoreFields, opt])
  · rw [if_neg hk, decide_eq_false hk, decide_eq_true hk]
    exact wrote_score j (h.skip (haltFields false r.news.halt) (by simp [haltFields, opt])) r.score

theorem wrote_duplicate (j : Journal F) (h : Wrote w ss) (r : NewsRecord F) :
    Wrote (w.when r.newsDuplicate fun w =>
        ((w.boolean "dup" true).str "first_src" (j.sourceName r.firstSource)).num
          "behind_first_ms" (msOf r.firstSeenLagNs.toInt : F) 1)
      (ss ++ [(lit "dup", opt r.newsDuplicate (.bool true)),
        (lit "first_src", opt r.newsDuplicate (strNode (j.sourceName r.firstSource))),
        (lit "behind_first_ms",
          opt r.newsDuplicate (fixedNode (msOf r.firstSeenLagNs.toInt : F) 1))]) := by
  cases r.newsDuplicate with
  | false => exact h.skip _ (by simp [opt])
  | true =>
    have h1 := h.put (k := "dup") (plain_key (by decide)) (oneLine_bool true)
    have h2 := h1.put (k := "first_src") (plain_key (by decide)) (oneLine_quoted (j.sourceName r.firstSource))
    have h3 := h2.put (k := "behind_first_ms") (plain_key (by decide))
      (oneLine_numText (msOf r.firstSeenLagNs.toInt : F) 1)
    simp only [List.append_assoc, List.cons_append, List.nil_append] at h3
    exact h3

/-- A news line is a layout of the object of its fields. -/
theorem newsJson_layout (j : Journal F) (r : NewsRecord F) :
    Layout 0 (j.newsJson r) (.object (present (j.newsFields r))) ∧ 10 ∉ j.newsJson r ∧
      ∃ t, j.newsJson r = 123 :: (t ++ [125]) := by
  obtain ⟨w, h, e⟩ := wrote_head j r
  have hf := wrote_filing h (decide (r.news.kind = .filing ∨ r.news.kind = .filingDoc)) r.news
  have hk := wrote_kind j hf r
  have hy := wrote_symbol hk r (j.symbols.get? r.newsSym)
  have hd := wrote_duplicate j hy r
  have hb := hd.put (k := "body") (plain_key (by decide)) (oneLine_quoted r.news.body.bytes)
  have hfields : present (j.newsFields r) ≠ [] := by
    simp [newsFields, headFields, present]
  rw [e]
  refine Writes.done ?_ hfields
  refine Eq.subst (motive := fun ss => Wrote _ ss) ?_ hb
  simp only [newsFields, tailFields, List.append_assoc, List.cons_append, List.nil_append]

end Journal

end Stok
