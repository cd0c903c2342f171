import Mathlib
import Stok.Research.NewsLoader
import Stok.Sink.JournalLayout

/-!
# The news journal is read back

Each line of the journal is a layout of the object of its fields (`newsJson_layout`), so the
parser returns that object; the lookups of the loader then meet the values the journal wrote.
`Replayed` says what of a record an event repeats. The loader numbers the sources by name, so a
replayed event names its source through the list the loader returns.
-/

namespace Stok.Research

open Json

section Reading

variable {F : Type}

theorem i64_intNode [Dbl F] (v : Int64) : Int64.ofInt (i64 (some (intNode v.toInt : Node F))) = v := by
  have h1 := v.toInt_lt
  have h2 := v.le_toInt
  rw [i64_int h2 h1, Int64.ofInt_toInt]

theorem children_strsNode (vs : List Bytes) :
    children (strsNode vs : Node F) = vs.map strNode := by
  simp [strsNode, children, Function.comp_def]

end Reading

/-! ## Hexadecimal ids -/

theorem hexVal_hexDigit {n : Nat} (h : n < 16) : hexVal (Text.hexDigit n) = some n := by
  interval_cases n <;> rfl

/-- The base-16 digits of the low `n` places of `v`, read most significant first. -/
theorem foldl_digits (v n : Nat) :
    ((List.range n).map fun i => v / 16 ^ (n - 1 - i) % 16).foldl (fun v d => v * 16 + d) 0 =
      v % 16 ^ n := by
  induction n generalizing v with
  | zero => simp [Nat.mod_one]
  | succ n ih =>
    have hinit : (List.range n).map (fun i => v / 16 ^ (n + 1 - 1 - i) % 16) =
        (List.range n).map fun i => v / 16 / 16 ^ (n - 1 - i) % 16 := by
      refine List.map_congr_left fun i hi => ?_
      have hi := List.mem_range.mp hi
      rw [Nat.div_div_eq_div_mul, ← Nat.pow_succ', show (n - 1 - i).succ = n + 1 - 1 - i by omega]
    rw [List.range_succ, List.map_append, List.foldl_append, hinit, ih]
    simp only [List.map_cons, List.map_nil, List.foldl_cons, List.foldl_nil]
    rw [show n + 1 - 1 - n = 0 by omega, Nat.pow_zero, Nat.div_one, Nat.pow_succ', Nat.mod_mul]
    omega

/-- The characters of an id are hexadecimal digits, and none is a blank, a sign or an `x`. -/
theorem hexText_plain (v : UInt64) : ∀ c ∈ J.hexText v,
    ((hexVal c).isSome = true ∧ c ≠ 0 ∧ isSpace c = false) ∧ c ≠ ch '-' ∧ c ≠ ch '+' ∧
      c ≠ ch 'x' ∧ c ≠ ch 'X' := by
  intro c hc
  obtain ⟨i, -, rfl⟩ := List.mem_map.mp hc
  have hlt : v.toNat / 16 ^ (15 - i) % 16 < 16 := Nat.mod_lt _ (by decide)
  generalize v.toNat / 16 ^ (15 - i) % 16 = n at hlt
  interval_cases n <;> decide

theorem strtoull16_hexText (v : UInt64) : strtoull16 (J.hexText v) = v := by
  have hplain := hexText_plain v
  have hvals : (J.hexText v).map (fun c => (hexVal c).getD 0) =
      (List.range 16).map fun i => v.toNat / 16 ^ (16 - 1 - i) % 16 := by
    rw [J.hexText, List.map_map]
    refine List.map_congr_left fun i _ => ?_
    show (hexVal (Text.hexDigit _)).getD 0 = _
    rw [hexVal_hexDigit (Nat.mod_lt _ (by decide))]
    rfl
  have hlen : (J.hexText v).length = 16 := by simp [J.hexText]
  generalize J.hexText v = s at *
  have hc : cstr s = s := cstr_eq_self fun h => (hplain 0 h).1.2.1 rfl
  obtain ⟨z, x, h, r, rfl⟩ : ∃ z x h r, s = z :: x :: h :: r := by
    match s, hlen with
    | z :: x :: h :: r, _ => exact ⟨z, x, h, r, rfl⟩
  obtain ⟨⟨-, -, hz⟩, hminus, hplus, -⟩ := hplain z (by simp)
  obtain ⟨-, -, -, hx, hX⟩ := hplain x (by simp)
  have hall : (z :: x :: h :: r).takeWhile (fun c => (hexVal c).isSome) = z :: x :: h :: r :=
    List.takeWhile_eq_self_iff.mpr fun c hc => (hplain c hc).1.1
  have hdrop : (z :: x :: h :: r).dropWhile isSpace = z :: x :: h :: r := by
    rw [List.dropWhile_cons, hz]
    rfl
  have hv := v.toNat_lt
  have hval : v.toNat % 16 ^ 16 = v.toNat := Nat.mod_eq_of_lt (by omega)
  unfold strtoull16
  simp only [hc, hdrop, List.head?_cons, Option.some.injEq, hminus, hplus, or_self, if_false, hx, hX,
    false_and, and_false, hall, hvals, foldl_digits, hval]
  rw [if_neg (by omega), UInt64.ofNat_toNat]

/-! ## The items of a filing -/

theorem commaList_eq (ts : List Bytes) : commaList ts = [ch ','].intercalate ts := by
  induction ts with
  | nil => rfl
  | cons t ts ih =>
    cases ts with
    | nil => simp [commaList]
    | cons u us =>
      show t ++ ch ',' :: commaList (u :: us) = _
      rw [ih]
      simp [List.intercalate]

/-- The labels with their bits, as the writer lists them. -/
theorem labels_mask : ∀ p ∈ (kItems.map (·.2.2)).zipIdx,
    itemMask p.1 = 1 <<< UInt32.ofNat p.2 ∧ ch ',' ∉ p.1 := by
  decide +kernel

theorem labels_bits : (kItems.map (·.2.2)).zipIdx.map (·.2) = List.range 32 := by decide +kernel

/-- The bits of a mask put together from single bits. -/
theorem getLsbD_foldl_bits (L : List Nat) (hL : ∀ i ∈ L, i < 32) (m : UInt32) {k : Nat}
    (hk : k < 32) :
    (L.foldl (fun m i => m ||| 1 <<< UInt32.ofNat i) m).toBitVec.getLsbD k =
      (m.toBitVec.getLsbD k || decide (k ∈ L)) := by
  induction L generalizing m with
  | nil => simp
  | cons i L ih =>
    obtain ⟨hi, hL⟩ := List.forall_mem_cons.mp hL
    rw [List.foldl_cons, ih hL, UInt32.toBitVec_or, BitVec.getLsbD_or, getLsbD_bit hi hk]
    rcases eq_or_ne k i with rfl | hki <;> simp [*]

/-- The item list of a filing is read back to its mask. -/
theorem itemsMask_form8kItemsStr (m : UInt32) : itemsMask (form8kItemsStr m) = m := by
  have hfold : itemsMask (form8kItemsStr m) =
      ((List.range 32).filter (hasBit m)).foldl (fun m i => m ||| 1 <<< UInt32.ofNat i) 0 := by
    have hlabels := labels_mask
    rw [← labels_bits, List.filter_map, List.foldl_map]
    unfold itemsMask form8kItemsStr flagNames
    have hL : ∀ p ∈ (kItems.map (·.2.2)).zipIdx.filter (fun x => hasBit m x.2),
        itemMask p.1 = 1 <<< UInt32.ofNat p.2 ∧ ch ',' ∉ p.1 :=
      fun p hp => labels_mask p (List.mem_of_mem_filter hp)
    show ((commaList (((kItems.map (·.2.2)).zipIdx.filter (fun x => hasBit m x.2)).map
      (·.1))).splitOn (ch ',')).foldl _ 0 =
      ((kItems.map (·.2.2)).zipIdx.filter (fun x => hasBit m x.2)).foldl _ 0
    generalize (kItems.map (·.2.2)).zipIdx.filter (fun x => hasBit m x.2) = L at hL
    rcases eq_or_ne L [] with rfl | hne
    · decide +kernel
    · rw [commaList_eq, List.splitOn_intercalate _ (by simpa using fun l i hp => (hL (l, i) hp).2)
        (by simpa using hne), List.foldl_map]
      clear hne
      generalize (0 : UInt32) = z
      induction L generalizing z with
      | nil => rfl
      | cons p L ih =>
        obtain ⟨hp, hL⟩ := List.forall_mem_cons.mp hL
        rw [List.foldl_cons, List.foldl_cons, hp.1]
        exact ih hL _
  rw [hfold]
  refine UInt32.eq_of_toBitVec_eq (BitVec.eq_of_getLsbD_eq fun k hk => ?_)
  rw [getLsbD_foldl_bits _ (fun i hi => List.mem_range.mp (List.mem_of_mem_filter hi)) 0 hk,
    ← hasBit_eq m hk]
  simp [List.mem_filter, hk]

/-! ## Lines -/

/-- A line in braces keeps its last byte and is not blank. -/
theorem braces_line (t : Bytes) :
    chopCr (123 :: (t ++ [125])) = 123 :: (t ++ [125]) ∧
    (trim (123 :: (t ++ [125]))).isEmpty = false := by
  have hlast : (123 :: (t ++ [125]) : Bytes).getLast? = some 125 := by
    rw [← List.cons_append, List.getLast?_concat]
  have hrev : (123 :: (t ++ [125]) : Bytes).reverse = 125 :: (t.reverse ++ [123]) := by simp
  constructor
  · rw [chopCr, hlast, if_neg (by decide)]
  · have h1 : (123 :: (t ++ [125]) : Bytes).dropWhile isSpace = 123 :: (t ++ [125]) := by
      rw [List.dropWhile_cons, if_neg (by decide)]
    rw [trim, h1, hrev, List.dropWhile_cons, if_neg (by decide)]
    simp

variable {F : Type} [Dbl F]

theorem lines_newsLines (j : Journal F) (recs : List (NewsRecord F)) :
    lines (j.newsLines recs) = recs.map j.newsJson := by
  induction recs with
  | nil => rfl
  | cons r recs ih =>
    obtain ⟨-, hnl, t, ht⟩ := j.newsJson_layout r
    have hcons : j.newsLines (r :: recs) = j.newsJson r ++ 10 :: j.newsLines recs := by
      simp [Journal.newsLines]
    rw [lines, hcons, linesFrom_line _ _ hnl, List.map_cons, List.reverse_nil, List.nil_append, ht,
      (braces_line t).1]
    exact congrArg _ ih

/-! ## Sources -/

/-- The source list after a name has been looked up. -/
def addSource (sources : List Bytes) (name : Bytes) : List Bytes := (sourceIndex sources name).2

theorem addSource_eq (sources : List Bytes) (name : Bytes) :
    (name ∈ sources ∧ addSource sources name = sources) ∨
    (name ∉ sources ∧ addSource sources name = sources ++ [name]) := by
  unfold addSource sourceIndex
  cases h : sources.findIdx? (· == name) with
  | none =>
    refine .inr ⟨fun hm => ?_, rfl⟩
    have := List.findIdx?_eq_none_iff.mp h name hm
    simp at this
  | some i =>
    obtain ⟨hi, he, -⟩ := List.findIdx?_eq_some_iff_getElem.mp h
    exact .inl ⟨by rw [← beq_iff_eq.mp he]; exact List.getElem_mem hi, rfl⟩

/-- The index of a name leads to the name, in a list short enough for the index. -/
theorem sourceIndex_get {sources : List Bytes} {name : Bytes}
    (h : (addSource sources name).length ≤ 2 ^ 16) :
    (addSource sources name)[(sourceIndex sources name).1.toNat]? = some name := by
  unfold addSource sourceIndex at *
  cases hf : sources.findIdx? (· == name) with
  | none =>
    rw [hf] at h
    simp only [List.length_append, List.length_singleton] at h
    show (sources ++ [name])[(UInt16.ofNat sources.length).toNat]? = _
    rw [UInt16.toNat_ofNat', Nat.mod_eq_of_lt (by omega), List.getElem?_concat_length]
  | some i =>
    rw [hf] at h
    simp only at h
    obtain ⟨hi, he, -⟩ := List.findIdx?_eq_some_iff_getElem.mp hf
    show sources[(UInt16.ofNat i).toNat]? = _
    rw [UInt16.toNat_ofNat', Nat.mod_eq_of_lt (by omega), List.getElem?_eq_getElem hi,
      beq_iff_eq.mp he]

/-- Names are appended once each. -/
theorem foldl_addSource (names sources : List Bytes) :
    ∃ new, names.foldl addSource sources = sources ++ new ∧ new.Nodup ∧
      ∀ x ∈ new, x ∈ names ∧ x ∉ sources := by
  induction names generalizing sources with
  | nil => exact ⟨[], by simp, .nil, nofun⟩
  | cons name names ih =>
    obtain ⟨new, h1, h2, h3⟩ := ih (addSource sources name)
    rcases addSource_eq sources name with ⟨-, he⟩ | ⟨hn, he⟩ <;> rw [he] at h1 h3
    · refine ⟨new, by rw [List.foldl_cons, he, h1], h2, fun x hx => ?_⟩
      exact ⟨List.mem_cons_of_mem _ (h3 x hx).1, (h3 x hx).2⟩
    · refine ⟨name :: new, by rw [List.foldl_cons, he, h1]; simp, ?_, fun x hx => ?_⟩
      · exact List.nodup_cons.mpr ⟨fun hm => (h3 name hm).2 (by simp), h2⟩
      · rcases List.mem_cons.mp hx with rfl | hx
        · exact ⟨List.mem_cons_self .., hn⟩
        · exact ⟨List.mem_cons_of_mem _ (h3 x hx).1, fun hm => (h3 x hx).2 (by simp [hm])⟩

/-! ## One line -/

def newsKeys : List Bytes :=
  ["t", "src", "kind", "id", "recv_ns", "sent_ns", "pub_ns", "engine_ns", "pub_to_recv_ms", "title",
    "link", "tickers", "name_matched", "unresolved", "form", "cik", "items", "halt_reason", "market",
    "halt_time", "resume_trade", "halt_ns", "resume_quote_ns", "resume_trade_ns", "pause_threshold",
    "score", "text_score", "catalyst", "flags", "amount_usd", "materiality", "matched", "sym",
    "price", "mcap", "shares_out", "in_universe", "dilution", "dup", "first_src",
    "behind_first_ms", "body"].map lit

theorem newsKeys_nodup : newsKeys.Nodup := by decide +kernel

/-- The object of a news line. -/
def newsNode (j : Journal F) (r : NewsRecord F) : Node F := .object (present (j.newsFields r))

theorem get_newsNode {j : Journal F} {r : NewsRecord F} {i : Nat} {k : Bytes} {o : Option (Node F)}
    (h : (j.newsFields r)[i]? = some (k, o)) : get (newsNode j r) k = o := by
  refine lookup_present ?_ h
  have hkeys : (j.newsFields r).map (·.1) = newsKeys := rfl
  rw [hkeys]
  exact newsKeys_nodup

/-- Tickers that the table finds again. -/
def Known (symbols : SymbolTable F) (t : UInt32) : Prop :=
  ∃ info, symbols.get? t = some info ∧ symbols.find info.ticker = t

/-- What a loaded event repeats of a record. -/
structure Replayed (j : Journal F) (sources : List Bytes) (r : NewsRecord F) (ev : NewsEvent F) :
    Prop where
  kind : ev.kind = r.news.kind
  source : sources[ev.source.toNat]? = some (j.sourceName r.news.source)
  recvNs : ev.recvNs = r.news.recvNs
  sentNs : ev.sentNs = r.news.sentNs
  publishedNs : ev.publishedNs = r.news.publishedNs
  idHash : ev.idHash = r.news.idHash
  title : ev.title = r.news.title
  link : ev.link = r.news.link
  body : ev.body = r.news.body
  tickers : ev.tickers = r.news.tickers
  unresolved : ev.unresolved = r.news.unresolved
  nameMatched : (ev.flags &&& kEvNameMatched != 0) = (r.news.flags &&& kEvNameMatched != 0)
  filing : r.news.kind = .filing ∨ r.news.kind = .filingDoc →
    ev.form = r.news.form ∧ ev.cik = r.news.cik ∧ ev.itemsMask = r.news.itemsMask
  halt : r.news.kind = .halt → ev.halt.reason = r.news.halt.reason ∧
    ev.halt.market = r.news.halt.market ∧ ev.halt.haltNs = r.news.halt.haltNs ∧
    ev.halt.resumeQuoteNs = r.news.halt.resumeQuoteNs ∧
    ev.halt.resumeTradeNs = r.news.halt.resumeTradeNs

theorem kindOf_name (k : EventKind) : kindOf k.name = k := by
  cases k <;> decide +kernel

theorem tickersOf_newsNode (j : Journal F) (r : NewsRecord F)
    (ht : ∀ t ∈ r.news.tickers, Known j.symbols t) :
    tickersOf j.symbols (newsNode j r) = r.news.tickers := by
  have hget : get (newsNode j r) (lit "tickers") =
      some (strsNode (r.news.tickers.map j.tickerOf)) := get_newsNode (i := 11) rfl
  rw [tickersOf, hget, Option.elim_some, children_strsNode, List.map_map, List.map_map]
  conv_rhs => rw [← List.map_id r.news.tickers]
  refine List.map_congr_left fun t hm => ?_
  obtain ⟨info, hinfo, hfind⟩ := ht t hm
  show j.symbols.find (str (some (strNode (j.tickerOf t)))) = t
  rw [str_strNode, Journal.tickerOf, hinfo]
  exact hfind

omit [Dbl F] in
theorem Known.ne_invalid {symbols : SymbolTable F} {t : UInt32} (h : Known symbols t) :
    t ≠ SymbolTable.kInvalid := by
  obtain ⟨info, hinfo, -⟩ := h
  rintro rfl
  have hlt := (List.getElem?_eq_some_iff.mp hinfo).1
  have := symbols.size_le
  have hk : SymbolTable.kInvalid.toNat = 2 ^ 32 - 1 := rfl
  omega

theorem unresolvedOf_newsNode (j : Journal F) (r : NewsRecord F) :
    unresolvedOf (newsNode j r) = r.news.unresolved := by
  have hget : get (newsNode j r) (lit "unresolved") =
      opt (!r.news.unresolved.isEmpty) (strsNode (r.news.unresolved.map (·.bytes))) :=
    get_newsNode (i := 13) rfl
  rw [unresolvedOf, hget]
  cases hu : r.news.unresolved with
  | nil => rfl
  | cons u us =>
    show (children (strsNode ((u :: us).map (·.bytes)))).map _ = u :: us
    rw [children_strsNode, List.map_map, List.map_map]
    conv_rhs => rw [← List.map_id (u :: us)]
    refine List.map_congr_left fun v _ => ?_
    exact (congrArg _ (str_strNode _)).trans (CStr.print_bytes _ _)

theorem nameMatched_newsNode (j : Journal F) (r : NewsRecord F) :
    nameMatched (newsNode j r) = (r.news.flags &&& kEvNameMatched != 0) := by
  have hget : get (newsNode j r) (lit "name_matched") =
      opt (r.news.flags &&& kEvNameMatched != 0) (.bool true) := get_newsNode (i := 12) rfl
  rw [nameMatched, hget]
  cases r.news.flags &&& kEvNameMatched != 0 <;> rfl

theorem filing_newsNode (j : Journal F) (r : NewsRecord F)
    (hk : r.news.kind = .filing ∨ r.news.kind = .filingDoc) :
    get (newsNode j r) (lit "form") = some (strNode r.news.form.bytes) ∧
    get (newsNode j r) (lit "cik") = some (intNode r.news.cik.toNat) ∧
    itemsMask (str (get (newsNode j r) (lit "items"))) = r.news.itemsMask := by
  have hc : decide (r.news.kind = .filing ∨ r.news.kind = .filingDoc) = true := decide_eq_true hk
  have h1 : get (newsNode j r) (lit "form") =
      opt (decide (r.news.kind = .filing ∨ r.news.kind = .filingDoc)) (strNode r.news.form.bytes) :=
    get_newsNode (i := 14) rfl
  have h2 : get (newsNode j r) (lit "cik") =
      opt (decide (r.news.kind = .filing ∨ r.news.kind = .filingDoc)) (intNode r.news.cik.toNat) :=
    get_newsNode (i := 15) rfl
  have h3 : get (newsNode j r) (lit "items") =
      opt (decide (r.news.kind = .filing ∨ r.news.kind = .filingDoc) && r.news.itemsMask != 0)
        (strNode (form8kItemsStr r.news.itemsMask)) := get_newsNode (i := 16) rfl
  rw [hc] at h1 h2 h3
  refine ⟨h1, h2, ?_⟩
  rw [h3, Bool.true_and]
  rcases eq_or_ne r.news.itemsMask 0 with hz | hz
  · rw [hz]
    show itemsMask [] = 0
    decide +kernel
  · rw [show (r.news.itemsMask != 0) = true from bne_iff_ne.mpr hz]
    show itemsMask (str (some (strNode _))) = _
    rw [str_strNode, itemsMask_form8kItemsStr]

theorem halt_newsNode (j : Journal F) (r : NewsRecord F) (hk : r.news.kind = .halt) :
    (haltOf (newsNode j r)).reason = r.news.halt.reason ∧
    (haltOf (newsNode j r)).market = r.news.halt.market ∧
    (haltOf (newsNode j r)).haltNs = r.news.halt.haltNs ∧
    (haltOf (newsNode j r)).resumeQuoteNs = r.news.halt.resumeQuoteNs ∧
    (haltOf (newsNode j r)).resumeTradeNs = r.news.halt.resumeTradeNs := by
  have hc : decide (r.news.kind = .halt) = true := decide_eq_true hk
  have h1 : get (newsNode j r) (lit "halt_reason") =
      opt (decide (r.news.kind = .halt)) (strNode r.news.halt.reason.bytes) :=
    get_newsNode (i := 17) rfl
  have h2 : get (newsNode j r) (lit "market") =
      opt (decide (r.news.kind = .halt)) (strNode r.news.halt.market.bytes) :=
    get_newsNode (i := 18) rfl
  have h3 : get (newsNode j r) (lit "halt_ns") =
      opt (decide (r.news.kind = .halt)) (intNode r.news.halt.haltNs.toInt) :=
    get_newsNode (i := 21) rfl
  have h4 : get (newsNode j r) (lit "resume_quote_ns") =
      opt (decide (r.news.kind = .halt)) (intNode r.news.halt.resumeQuoteNs.toInt) :=
    get_newsNode (i := 22) rfl
  have h5 : get (newsNode j r) (lit "resume_trade_ns") =
      opt (decide (r.news.kind = .halt)) (intNode r.news.halt.resumeTradeNs.toInt) :=
    get_newsNode (i := 23) rfl
  rw [hc] at h1 h2 h3 h4 h5
  simp only [haltOf, h1, h2, h3, h4, h5]
  refine ⟨?_, ?_, ?_, ?_, ?_⟩
  · exact (congrArg _ (str_strNode _)).trans (CStr.print_bytes _ _)
  · exact (congrArg _ (str_strNode _)).trans (CStr.print_bytes _ _)
  · exact i64_intNode _
  · exact i64_intNode _
  · exact i64_intNode _

theorem kind_newsNode (j : Journal F) (r : NewsRecord F) :
    kindOf (str (get (newsNode j r) (lit "kind"))) = r.news.kind := by
  have hget : get (newsNode j r) (lit "kind") = some (strNode r.news.kind.name) :=
    get_newsNode (i := 2) rfl
  rw [hget, str_strNode, kindOf_name]

theorem uint64_newsNode {j : Journal F} {r : NewsRecord F} {k : Bytes} {v : UInt64}
    (hget : get (newsNode j r) k = some (intNode v.toNat)) :
    UInt64.ofNat (u64 (get (newsNode j r) k)) = v := by
  rw [hget, u64_intNode v.toNat_lt, UInt64.ofNat_toNat]

theorem fixedStr_newsNode {j : Journal F} {r : NewsRecord F} {k : Bytes} {N : Nat} {v : FixedStr N}
    (hget : get (newsNode j r) k = some (strNode v.bytes)) (h : 0 < N) :
    FixedStr.assign h (str (get (newsNode j r) k)) = v := by
  rw [hget, str_strNode, FixedStr.assign_bytes]

theorem idHash_newsNode (j : Journal F) (r : NewsRecord F) :
    strtoull16 (str (get (newsNode j r) (lit "id"))) = r.news.idHash := by
  have hget : get (newsNode j r) (lit "id") = some (strNode (J.hexText r.news.idHash)) :=
    get_newsNode (i := 3) rfl
  rw [hget, str_strNode, strtoull16_hexText]

theorem publishedNs_newsNode (j : Journal F) (r : NewsRecord F) :
    Int64.ofInt (i64 (get (newsNode j r) (lit "pub_ns"))) = r.news.publishedNs := by
  have hget : get (newsNode j r) (lit "pub_ns") = some (intNode r.news.publishedNs.toInt) :=
    get_newsNode (i := 6) rfl
  rw [hget, i64_intNode]

/-- The event of a record's line repeats the record. -/
theorem replayed_eventOf (j : Journal F) {sources : List Bytes} {r : NewsRecord F} {source : UInt16}
    (hsource : sources[source.toNat]? = some (j.sourceName r.news.source))
    (ht : ∀ t ∈ r.news.tickers, Known j.symbols t) :
    Replayed j sources r (eventOf j.symbols source (newsNode j r)) := by
  have hkind := kind_newsNode j r
  have hrecv := uint64_newsNode (j := j) (r := r) (k := lit "recv_ns") (get_newsNode (i := 4) rfl)
  have hsent := uint64_newsNode (j := j) (r := r) (k := lit "sent_ns") (get_newsNode (i := 5) rfl)
  have hpub := publishedNs_newsNode j r
  have hid := idHash_newsNode j r
  have htitle := fixedStr_newsNode (j := j) (r := r) (k := lit "title") (get_newsNode (i := 9) rfl)
  have hlink := fixedStr_newsNode (j := j) (r := r) (k := lit "link") (get_newsNode (i := 10) rfl)
  have hbody := fixedStr_newsNode (j := j) (r := r) (k := lit "body") (get_newsNode (i := 41) rfl)
  have htickers := tickersOf_newsNode j r ht
  have hunresolved := unresolvedOf_newsNode j r
  have hmatched := nameMatched_newsNode j r
  have hfiling := filing_newsNode j r
  have hhalt := halt_newsNode j r
  have hvalid : r.news.tickers.filter (· != SymbolTable.kInvalid) = r.news.tickers :=
    List.filter_eq_self.mpr fun t hm => bne_iff_ne.mpr (ht t hm).ne_invalid
  -- what follows reads the object through these facts only
  generalize newsNode j r = n at *
  constructor
  · exact hkind
  · exact hsource
  · exact hrecv
  · exact hsent
  · exact hpub
  · exact hid
  · exact htitle (by decide)
  · exact hlink (by decide)
  · exact hbody (by decide)
  · show ((tickersOf j.symbols n).filter (· != SymbolTable.kInvalid)).take kMaxTickers = _
    rw [htickers, hvalid, List.take_of_length_le r.news.tickers_le]
  · show (unresolvedOf n).take kMaxUnresolved = _
    rw [hunresolved, List.take_of_length_le r.news.unresolved_le]
  · show ((if nameMatched n then kEvNameMatched else 0) &&& kEvNameMatched != 0) = _
    rw [hmatched]
    cases r.news.flags &&& kEvNameMatched != 0 <;> rfl
  · intro hk
    obtain ⟨hform, hcik, hitems⟩ := hfiling hk
    refine ⟨?_, ?_, hitems⟩
    · show CStr.print (by decide) (str (get n (lit "form"))) = _
      rw [hform, str_strNode, CStr.print_bytes]
    · show UInt32.ofNat (u64 (get n (lit "cik"))) = _
      have := r.news.cik.toNat_lt
      rw [hcik, u64_intNode (by omega), UInt32.ofNat_toNat]
  · intro hk
    have he : (eventOf j.symbols source n).halt = haltOf n := by
      show (if kindOf (str (get n (lit "kind"))) = .halt then _ else _) = _
      rw [hkind, if_pos hk]
    rw [he]
    exact hhalt hk

/-- A line that holds an object with a time of arrival. -/
theorem loadLine_object (symbols : SymbolTable F) {line : Bytes} {n : Node F}
    (htrim : (trim line).isEmpty = false) (hparse : Json.parse line = .ok n)
    (hobj : ∃ cs, n = .object cs) {out : LoadedNews F} {sources : List Bytes} {source : UInt16}
    {sources' : List Bytes} (hsrc : sourceIndex sources (str (get n (lit "src"))) = (source, sources'))
    (hz : (eventOf symbols source n).recvNs ≠ 0)
    (hdropped : (tickersOf symbols n).countP (· == SymbolTable.kInvalid) = 0) :
    loadLine symbols (out, sources) line =
      ({ out with lines := out.lines + 1, events := out.events ++ [eventOf symbols source n] },
        sources') := by
  obtain ⟨cs, rfl⟩ := hobj
  simp only [loadLine, htrim, hparse, hsrc, hz, hdropped, if_false, Bool.false_eq_true, Nat.add_zero]

theorem loadLine_newsJson (j : Journal F) {r : NewsRecord F} (hrecv : r.news.recvNs ≠ 0)
    (ht : ∀ t ∈ r.news.tickers, Known j.symbols t) (out : LoadedNews F) (sources : List Bytes) :
    loadLine j.symbols (out, sources) (j.newsJson r) =
      ({ out with
          lines := out.lines + 1
          events := out.events ++ [eventOf j.symbols
            (sourceIndex sources (j.sourceName r.news.source)).1 (newsNode j r)] },
        addSource sources (j.sourceName r.news.source)) := by
  obtain ⟨hlayout, -, t, hline⟩ := j.newsJson_layout r
  have htrim : (trim (j.newsJson r)).isEmpty = false := by rw [hline]; exact (braces_line t).2
  have hparse : Json.parse (F := F) (j.newsJson r) = .ok (newsNode j r) := by
    have := hlayout.parse (w := []) (List.forall_mem_nil _)
    rwa [List.append_nil] at this
  have hsrc : str (get (newsNode j r) (lit "src")) = j.sourceName r.news.source := by
    rw [get_newsNode (i := 1) rfl]
    exact str_strNode _
  refine loadLine_object j.symbols htrim hparse ⟨_, rfl⟩ (by rw [hsrc]; rfl) ?_ ?_
  · have h := uint64_newsNode (j := j) (r := r) (k := lit "recv_ns") (get_newsNode (i := 4) rfl)
    generalize newsNode j r = n at h ⊢
    show UInt64.ofNat (u64 (get n (lit "recv_ns"))) ≠ 0
    rwa [h]
  · rw [tickersOf_newsNode j r ht, List.countP_eq_zero]
    exact fun t hm => by simpa using (ht t hm).ne_invalid

/-- The run over the lines of the records. -/
theorem foldl_loadLine (j : Journal F) (recs : List (NewsRecord F))
    (hrecv : ∀ r ∈ recs, r.news.recvNs ≠ 0)
    (ht : ∀ r ∈ recs, ∀ t ∈ r.news.tickers, Known j.symbols t) (out : LoadedNews F)
    (sources : List Bytes) {all : List Bytes}
    (hall : (recs.map fun r => j.sourceName r.news.source).foldl addSource sources <+: all)
    (hlen : all.length ≤ 2 ^ 16) :
    ∃ evs, (recs.map j.newsJson).foldl (loadLine j.symbols) (out, sources) =
        ({ out with lines := out.lines + recs.length, events := out.events ++ evs },
          (recs.map fun r => j.sourceName r.news.source).foldl addSource sources) ∧
      List.Forall₂ (Replayed j all) recs evs := by
  induction recs generalizing out sources with
  | nil => exact ⟨[], by simp, .nil⟩
  | cons r recs ih =>
    obtain ⟨hrecv₀, hrecv⟩ := List.forall_mem_cons.mp hrecv
    obtain ⟨ht₀, ht⟩ := List.forall_mem_cons.mp ht
    rw [List.map_cons, List.foldl_cons] at hall
    have hmid : addSource sources (j.sourceName r.news.source) <+: all := by
      obtain ⟨new, hnew, -⟩ := foldl_addSource (recs.map fun r => j.sourceName r.news.source)
        (addSource sources (j.sourceName r.news.source))
      rw [hnew] at hall
      exact (List.prefix_append ..).trans hall
    have hget : all[(sourceIndex sources (j.sourceName r.news.source)).1.toNat]? =
        some (j.sourceName r.news.source) := by
      have hidx := sourceIndex_get (hmid.length_le.trans hlen)
      obtain ⟨hlt, -⟩ := List.getElem?_eq_some_iff.mp hidx
      rw [List.prefix_iff_getElem?.mp hmid _ hlt, ← List.getElem?_eq_getElem hlt, hidx]
    obtain ⟨evs, hfold, hevs⟩ := ih hrecv ht
      { out with
        lines := out.lines + 1
        events := out.events ++ [eventOf j.symbols
          (sourceIndex sources (j.sourceName r.news.source)).1 (newsNode j r)] } _ hall
    refine ⟨_ :: evs, ?_, .cons (replayed_eventOf j hget ht₀) hevs⟩
    rw [List.map_cons, List.foldl_cons, loadLine_newsJson j hrecv₀ ht₀, hfold, List.append_assoc,
      Nat.add_assoc, Nat.add_comm 1]
    rfl

omit [Dbl F] in
/-- The names of a journal fit the 16-bit index when the list is new, or has room for them. -/
theorem foldl_addSource_length (j : Journal F) (recs : List (NewsRecord F)) {sources : List Bytes}
    (hs : sources = [] ∨ sources.length + j.sources.length < 2 ^ 16) :
    ((recs.map fun r => j.sourceName r.news.source).foldl addSource sources).length ≤ 2 ^ 16 := by
  obtain ⟨new, heq, hnodup, hnew⟩ :=
    foldl_addSource (recs.map fun r => j.sourceName r.news.source) sources
  have hname : ∀ x ∈ new, ∃ s : UInt16, x = j.sourceName s := by
    intro x hx
    obtain ⟨r, -, rfl⟩ := List.mem_map.mp (hnew x hx).1
    exact ⟨_, rfl⟩
  rw [heq, List.length_append]
  rcases hs with rfl | hs
  · have hsub : new ⊆ (List.range (2 ^ 16)).map fun i => j.sourceName (.ofNat i) := by
      intro x hx
      obtain ⟨s, rfl⟩ := hname x hx
      exact List.mem_map.mpr ⟨s.toNat, List.mem_range.mpr s.toNat_lt, by rw [UInt16.ofNat_toNat]⟩
    have hle := (hnodup.subperm hsub).length_le
    rw [List.length_map, List.length_range] at hle
    simpa using hle
  · have hsub : new ⊆ lit "?" :: j.sources.map cstr := by
      intro x hx
      obtain ⟨s, rfl⟩ := hname x hx
      unfold Journal.sourceName
      cases hget : j.sources[s.toNat]? with
      | none => exact List.mem_cons_self ..
      | some name =>
        exact List.mem_cons_of_mem _ (List.mem_map_of_mem (List.mem_of_getElem? hget))
    have hle := (hnodup.subperm hsub).length_le
    rw [List.length_cons, List.length_map] at hle
    omega

/-! ## The whole file -/

/-- `out` is `l` in order of arrival, and events that arrive together keep their order. -/
structure SortedByArrival (l out : List (NewsEvent F)) : Prop where
  perm : out.Perm l
  sorted : out.Pairwise fun a b => a.recvNs ≤ b.recvNs
  stable : ∀ t, out.filter (fun e => decide (e.recvNs = t)) = l.filter fun e => decide (e.recvNs = t)

omit [Dbl F] in
theorem sortedByArrival_mergeSort (l : List (NewsEvent F)) :
    SortedByArrival l (l.mergeSort fun a b => decide (a.recvNs ≤ b.recvNs)) := by
  have htrans : ∀ a b c : NewsEvent F, decide (a.recvNs ≤ b.recvNs) = true →
      decide (b.recvNs ≤ c.recvNs) = true → decide (a.recvNs ≤ c.recvNs) = true := by
    simp only [decide_eq_true_eq]
    exact fun a b c => UInt64.le_trans
  have htotal : ∀ a b : NewsEvent F,
      (decide (a.recvNs ≤ b.recvNs) || decide (b.recvNs ≤ a.recvNs)) = true := by
    simp only [Bool.or_eq_true, decide_eq_true_eq]
    exact fun a b => UInt64.le_total ..
  have hperm := List.mergeSort_perm l fun a b => decide (a.recvNs ≤ b.recvNs)
  refine ⟨hperm, ?_, fun t => ?_⟩
  · exact (List.pairwise_mergeSort htrans htotal l).imp of_decide_eq_true
  · have heq : (l.filter fun e => decide (e.recvNs = t)).Pairwise
        fun a b => decide (a.recvNs ≤ b.recvNs) = true := by
      refine List.pairwise_of_forall_mem_list fun a ha b hb => ?_
      have ha := of_decide_eq_true (List.mem_filter.mp ha).2
      have hb := of_decide_eq_true (List.mem_filter.mp hb).2
      exact decide_eq_true (by rw [ha, hb]; exact UInt64.le_refl _)
    have hsub := (List.sublist_mergeSort htrans htotal heq List.filter_sublist).filter
      fun e => decide (e.recvNs = t)
    rw [List.filter_filter] at hsub
    simp only [Bool.and_self] at hsub
    exact (hsub.eq_of_length (hperm.filter _).length_eq.symm).symm

/-- The journal of a list of records is read back whole: an event a record, in order of
arrival, with no bad line and no ticker dropped. -/
theorem news_round_trip (j : Journal F) (recs : List (NewsRecord F)) (sources : List Bytes)
    (hrecv : ∀ r ∈ recs, r.news.recvNs ≠ 0)
    (ht : ∀ r ∈ recs, ∀ t ∈ r.news.tickers, Known j.symbols t)
    (hs : sources = [] ∨ sources.length + j.sources.length < 2 ^ 16) :
    ∃ out names evs, loadNewsEvents (j.newsLines recs) j.symbols sources = (out, names) ∧
      List.Forall₂ (Replayed j names) recs evs ∧ SortedByArrival evs out.events ∧
      out.lines = recs.length ∧ out.badLines = 0 ∧ out.droppedTickers = 0 := by
  obtain ⟨evs, hfold, hevs⟩ := foldl_loadLine j recs hrecv ht {} sources List.prefix_rfl
    (foldl_addSource_length j recs hs)
  have hload : loadNewsEvents (j.newsLines recs) j.symbols sources =
      ({ events := evs.mergeSort fun a b => decide (a.recvNs ≤ b.recvNs)
         lines := 0 + recs.length },
        (recs.map fun r => j.sourceName r.news.source).foldl addSource sources) := by
    rw [loadNewsEvents, lines_newsLines, hfold]
    rfl
  exact ⟨_, _, evs, hload, hevs, sortedByArrival_mergeSort evs, Nat.zero_add _, rfl, rfl⟩

section Example

/-- A halt with a quote, a backslash, a newline and a byte above ASCII in its texts. -/
def acmeHalt : NewsRecord ℚ :=
  { news :=
      { idHash := 0xFEDCBA9876543210, titleKey := 0, recvNs := 0xFFFFFFFFFFFFFFFF, sentNs := 3,
        publishedNs := -5, parsedNs := 0, cik := 0, itemsMask := 0, source := 1, kind := .halt,
        flags := kEvNameMatched, tickers := [0], unresolved := [⟨lit "QQ\"Q", by decide, by decide⟩],
        form := .empty pos_16,
        halt := { noHalt with haltNs := 1, reason := ⟨lit "T1", by decide, by decide⟩ },
        title := ⟨lit "a \"b\" \\ c\n" ++ [0xC3, 0xA9, 0], by decide⟩,
        link := .empty pos_320, body := .empty pos_3072,
        tickers_le := one_ticker_le, unresolved_le := by decide }
    score :=
      { textScore := 0, score := 0, catalyst := .none, flags := 0, amountUsd := 0, materiality := 0,
        hedges := 0, promos := 0, specifics := 0, matched := [] }
    newsSym := 0, newsDilution := 0, newsMarketCap := 0, newsPrice := 0, newsInUniverse := false,
    newsDuplicate := false, firstSource := 0, firstSeenLagNs := 0, engineNs := 0 }

theorem known_acme : Known acmeSymbols 0 := ⟨acme, rfl, find_acme⟩

/-- Two lines, the same story twice. -/
theorem news_round_trip_twice :
    ∃ out names evs,
      loadNewsEvents (Journal.newsLines ⟨acmeSymbols, none, [lit "rss", lit "nasdaq \"halts\""]⟩
        [acmeHalt, acmeHalt]) acmeSymbols [] = (out, names) ∧
      List.Forall₂ (Replayed ⟨acmeSymbols, none, [lit "rss", lit "nasdaq \"halts\""]⟩ names)
        [acmeHalt, acmeHalt] evs ∧ SortedByArrival evs out.events ∧
      out.lines = 2 ∧ out.badLines = 0 ∧ out.droppedTickers = 0 :=
  news_round_trip ⟨acmeSymbols, none, [lit "rss", lit "nasdaq \"halts\""]⟩ [acmeHalt, acmeHalt] []
    (by decide) (by simpa [acmeHalt] using known_acme) (.inl rfl)

end Example

end Stok.Research
