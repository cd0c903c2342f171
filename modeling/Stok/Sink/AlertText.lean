import Stok.Sink.Alerts
import Stok.Sink.JournalLayout

/-!
# What the reader of an alert sees

A title, a reason and a link come from the outside and may hold any bytes. They stay text: the
request is one JSON object, the only markup of its message is the bold first line, and what a reader
sees is `formatText`, byte for byte.
-/

namespace Stok

open Json

section

variable {F : Type} [Dbl F]

theorem Writes.putStr {j : J} {ms : List (Bytes × Node F)} (h : Writes j ms) {k : String}
    (hk : PlainKey k = true) (v : Bytes) : Writes (j.str k v) (ms ++ [(lit k, strNode v)]) :=
  h.put hk (oneLine_quoted v).1 (oneLine_quoted (F := F) v).2

/-- What the writer has put into an object is read from its text. -/
theorem parse_done {j : J} {ms : List (Bytes × Node F)} (h : Writes j ms) (hne : ms ≠ []) :
    Json.parse j.done = .ok (.object ms) := by
  have := (h.done hne).1.parse (w := []) (fun c hc => absurd hc List.not_mem_nil)
  rwa [List.append_nil] at this

end

namespace Alerts

/-- What a reader of HTML sees: each byte, and whether it is bold. `none` when the markup is anything
but bold text that is closed again, or an entity is not one of the three. -/
def shown : Bool → Bytes → Option (List (UInt8 × Bool))
  | bold, [] => if bold then none else some []
  | bold, 38 :: 97 :: 109 :: 112 :: 59 :: s => (shown bold s).map ((38, bold) :: ·)
  | bold, 38 :: 108 :: 116 :: 59 :: s => (shown bold s).map ((60, bold) :: ·)
  | bold, 38 :: 103 :: 116 :: 59 :: s => (shown bold s).map ((62, bold) :: ·)
  | bold, 60 :: 98 :: 62 :: s => if bold then none else shown true s
  | bold, 60 :: 47 :: 98 :: 62 :: s => if bold then shown false s else none
  | bold, c :: s => if c = 38 ∨ c = 60 ∨ c = 62 then none else (shown bold s).map ((c, bold) :: ·)

theorem shown_plain {c : UInt8} (h : c ≠ 38) (h' : c ≠ 60) (h'' : c ≠ 62) (bold : Bool) (s : Bytes) :
    shown bold (c :: s) = (shown bold s).map ((c, bold) :: ·) := by
  rw [shown]
  · exact if_neg (by simp [h, h', h''])
  all_goals simp_all

/-- Escaped text is seen as it was, and markup after it is still markup. -/
theorem shown_htmlEscape (bold : Bool) (s rest : Bytes) :
    shown bold (htmlEscape s ++ rest) = (shown bold rest).map (s.map (·, bold) ++ ·) := by
  induction s with
  | nil => simp [htmlEscape]
  | cons c s ih =>
    have hcons : htmlEscape (c :: s) ++ rest = escapeByte c ++ (htmlEscape s ++ rest) := by
      simp [htmlEscape]
    have hseen : shown bold (escapeByte c ++ (htmlEscape s ++ rest)) =
        (shown bold (htmlEscape s ++ rest)).map ((c, bold) :: ·) := by
      unfold escapeByte
      split
      · rename_i hc
        rw [hc]
        rfl
      · split
        · rename_i hc
          rw [hc]
          rfl
        · split
          · rename_i hc
            rw [hc]
            rfl
          · exact shown_plain ‹_› ‹_› ‹_› bold _
    rw [hcons, hseen, ih, Option.map_map]
    rfl

variable {F : Type} [Dbl F]

theorem shown_formatHtml (s : Signal F) (sources : List Bytes) :
    shown false (formatHtml s sources) =
      some (((formatText s sources).takeWhile (· ≠ 10)).map (·, true) ++
        ((formatText s sources).dropWhile (· ≠ 10)).map (·, false)) := by
  unfold formatHtml
  generalize formatText s sources = plain
  have hrest := shown_htmlEscape false (plain.dropWhile (· ≠ 10)) []
  rw [List.append_nil] at hrest
  have hclose (t : Bytes) : shown true (lit "</b>" ++ t) = shown false t := rfl
  have hopen (t : Bytes) : shown false (lit "<b>" ++ t) = shown true t := rfl
  dsimp only
  rw [List.append_assoc, List.append_assoc, hopen, shown_htmlEscape, hclose, hrest]
  simp [shown]

theorem telegramBody_eq (chatId html : Bytes) :
    telegramBody chatId html =
      ((((({} : J).str "chat_id" chatId).str "parse_mode" (lit "HTML")).boolean
        "disable_web_page_preview" true).str "text" html).done := by
  have hmode : Text.jsonEscaped (lit "HTML") = lit "HTML" := by decide
  simp only [J.str, J.boolean, J.key, J.raw, J.done, J.quoted, hmode, telegramBody]
  simp [lit]

/-- The members of the request. -/
def telegramMembers (chatId html : Bytes) : List (Bytes × Node F) :=
  [(lit "chat_id", strNode chatId), (lit "parse_mode", strNode (lit "HTML")),
    (lit "disable_web_page_preview", .bool true), (lit "text", strNode html)]

theorem telegramBody_parse (chatId html : Bytes) :
    Json.parse (telegramBody chatId html) = .ok (.object (telegramMembers (F := F) chatId html)) := by
  have hid := (writes_empty (F := F)).putStr (k := "chat_id") (by decide) chatId
  have hmode := hid.putStr (k := "parse_mode") (by decide) (lit "HTML")
  have hpreview := hmode.put (k := "disable_web_page_preview") (by decide) (oneLine_bool true).1
    (oneLine_bool (F := F) true).2
  rw [telegramBody_eq]
  exact parse_done (hpreview.putStr (k := "text") (by decide) html) nofun

/-! ## Datagrams -/

/-- A number that prints in at most 47 characters, as one below `10 ^ 40` does. -/
structure Printable (prec : Nat) (v : F) : Prop where
  finite : Dbl.isFinite v = true
  short : (Dbl.fixed prec v).length ≤ 47

theorem padded_ne_nil (w n : Nat) : Dbl.padded w n ≠ [] :=
  List.append_ne_nil_of_right_ne_nil _ (Dbl.digits_ne_nil n)

theorem Printable.decText {prec : Nat} {v : F} (h : Printable prec v) : Dbl.DecText (printed prec v) := by
  rw [printed, if_pos h.finite]
  refine ⟨?_, h.short⟩
  unfold Dbl.fixed
  generalize Dbl.roundEven (|Dbl.toRat v| * 10 ^ prec) = n
  refine ⟨if Dbl.signBit v = true then [ch '-'] else [], Dbl.digits (n / 10 ^ prec),
    if prec = 0 then [] else Dbl.padded prec (n % 10 ^ prec), ?_, ?_, Dbl.digits_ne_nil _,
    Dbl.isDigit_digits _, ?_⟩
  · cases prec with
    | zero => exact List.append_assoc ..
    | succ k => simp [padded_ne_nil]
  · split
    · exact .inr rfl
    · exact .inl rfl
  · split
    · exact fun c hc => absurd hc List.not_mem_nil
    · exact isDigit_padded _ _

/-- The numbers of a datagram fit its buffer. -/
structure Fits (s : Signal F) : Prop where
  price : Printable 4 s.price
  movePct : Printable 2 s.movePct
  rvol : Printable 2 s.rvol

theorem udpNumbers_eq {s : Signal F} (h : Fits s) :
    udpNumbers s =
      lit "\",\"price\":" ++ printed 4 s.price ++ lit ",\"move_pct\":" ++ printed 2 s.movePct ++
      lit ",\"rvol\":" ++ printed 2 s.rvol ++ lit ",\"score\":" ++ Dbl.intText s.score.toInt ++
      lit ",\"signal_ns\":" ++ Dbl.digits s.tSignalNs.toNat ++ lit ",\"title\":\"" := by
  have hprice := h.price.decText.2
  have hmove := h.movePct.decText.2
  have hrvol := h.rvol.decText.2
  have hscore : (Dbl.intText s.score.toInt).length ≤ 21 := by
    have := Dbl.length_digits_le (k := 20) (by decide) (natAbs_int32 s.score)
    unfold Dbl.intText
    split
    · rw [List.length_cons]
      omega
    · omega
  have hns : (Dbl.digits s.tSignalNs.toNat).length ≤ 20 :=
    Dbl.length_digits_le (by decide) (Nat.lt_trans s.tSignalNs.toNat_lt (by decide))
  have hkeys : (lit "\",\"price\":").length = 10 ∧ (lit ",\"move_pct\":").length = 12 ∧
      (lit ",\"rvol\":").length = 8 ∧ (lit ",\"score\":").length = 9 ∧
      (lit ",\"signal_ns\":").length = 13 ∧ (lit ",\"title\":\"").length = 10 := by decide
  unfold udpNumbers
  rw [List.take_of_length_le]
  simp only [List.length_append, hkeys]
  omega

/-- The writer that writes a datagram. -/
def udpJson (s : Signal F) : J :=
  let w := (({} : J).str "tier" (tierName s.tier)).str "ticker" s.ticker.bytes
  let w := ((w.key "price").raw (printed 4 s.price))
  let w := ((w.key "move_pct").raw (printed 2 s.movePct))
  let w := ((w.key "rvol").raw (printed 2 s.rvol))
  let w := (w.integer "score" s.score.toInt).integer "signal_ns" s.tSignalNs.toNat
  ((w.str "title" s.title.bytes).str "why" s.why.bytes).str "link" s.link.bytes

theorem udpBody_eq {s : Signal F} (h : Fits s) : udpBody s = (udpJson s).done := by
  have htier : Text.jsonEscaped (tierName s.tier) = tierName s.tier := by
    cases s.tier <;> decide
  have hns : Dbl.intText (s.tSignalNs.toNat : Int) = Dbl.digits s.tSignalNs.toNat := by
    rw [Dbl.intText, if_neg (by omega), Int.natAbs_natCast]
  rw [udpBody, udpNumbers_eq h]
  simp only [udpJson, J.str, J.integer, J.key, J.raw, J.done, J.quoted, htier, hns]
  simp [lit]

def udpMembers (s : Signal F) : List (Bytes × Node F) :=
  [(lit "tier", strNode (tierName s.tier)), (lit "ticker", strNode s.ticker.bytes),
    (lit "price", numNode (printed 4 s.price)), (lit "move_pct", numNode (printed 2 s.movePct)),
    (lit "rvol", numNode (printed 2 s.rvol)), (lit "score", intNode s.score.toInt),
    (lit "signal_ns", intNode s.tSignalNs.toNat), (lit "title", strNode s.title.bytes),
    (lit "why", strNode s.why.bytes), (lit "link", strNode s.link.bytes)]

theorem udpBody_parse {s : Signal F} (h : Fits s) :
    Json.parse (udpBody s) = .ok (.object (udpMembers s)) := by
  have hnum {prec : Nat} {v : F} (hv : Printable prec v) {j : J} {ms : List (Bytes × Node F)}
      (hj : Writes j ms) {k : String} (hk : PlainKey k = true) :
      Writes ((j.key k).raw (printed prec v)) (ms ++ [(lit k, numNode (printed prec v))]) :=
    hj.put hk (layout_scalar (by decide) (scalar_numNode hv.decText)) (newline_notMem_decText hv.decText)
  have hint {v : Int} (hv : v.natAbs < 10 ^ 20) {j : J} {ms : List (Bytes × Node F)}
      (hj : Writes j ms) {k : String} (hk : PlainKey k = true) :
      Writes (j.integer k v) (ms ++ [(lit k, intNode v)]) :=
    hj.put hk (oneLine_intText hv).1 (oneLine_intText (F := F) hv).2
  have htier := (writes_empty (F := F)).putStr (k := "tier") (by decide) (tierName s.tier)
  have hticker := htier.putStr (k := "ticker") (by decide) s.ticker.bytes
  have hprice := hnum h.price hticker (k := "price") (by decide)
  have hmove := hnum h.movePct hprice (k := "move_pct") (by decide)
  have hrvol := hnum h.rvol hmove (k := "rvol") (by decide)
  have hscore := hint (natAbs_int32 s.score) hrvol (k := "score") (by decide)
  have hns := hint (natAbs_uint64 s.tSignalNs) hscore (k := "signal_ns") (by decide)
  have htitle := hns.putStr (k := "title") (by decide) s.title.bytes
  have hwhy := htitle.putStr (k := "why") (by decide) s.why.bytes
  rw [udpBody_eq h]
  exact parse_done (hwhy.putStr (k := "link") (by decide) s.link.bytes) nofun

/-! ## The header -/

theorem newline_notMem_printed (prec : Nat) (v : F) : 10 ∉ printed prec v := by
  have hdigits (n : Nat) : 10 ∉ Dbl.digits n := fun h => absurd (Dbl.isDigit_digits n 10 h) (by decide)
  have hsign : 10 ∉ (if Dbl.signBit v then [ch '-'] else []) := by
    split <;> decide
  unfold printed
  split
  · unfold Dbl.fixed
    refine fun h => (List.mem_append.1 h).elim (fun h => (List.mem_append.1 h).elim hsign (hdigits _)) fun h => ?_
    split at h
    · exact List.not_mem_nil h
    · rcases List.mem_cons.1 h with h | h
      · exact absurd h (by decide)
      · exact absurd (isDigit_padded _ _ 10 h) (by decide)
  · refine fun h => (List.mem_append.1 h).elim hsign fun h => ?_
    revert h
    split <;> decide

theorem newline_notMem_money (v : F) : 10 ∉ money v := by
  have hprinted (u : F) (prec : Nat) (c d : UInt8) (hc : c ≠ 10) (hd : d ≠ 10) :
      10 ∉ c :: (printed prec u ++ [d]) := by
    simp [newline_notMem_printed, hc.symm, hd.symm]
  intro h
  replace h := List.mem_of_mem_take h
  revert h
  split
  · exact hprinted _ _ _ _ (by decide) (by decide)
  · split
    · exact hprinted _ _ _ _ (by decide) (by decide)
    · split
      · exact hprinted _ _ _ _ (by decide) (by decide)
      · simp [newline_notMem_printed, ch]

theorem newline_notMem_header {s : Signal F} (hticker : 10 ∉ s.ticker.bytes)
    (hreason : 10 ∉ s.haltReason.bytes) : 10 ∉ header s := by
  have hline {t : Bytes} (h : 10 ∉ t) : 10 ∉ line t := fun hm => h (List.mem_of_mem_take hm)
  have happend {a b : Bytes} (ha : 10 ∉ a) (hb : 10 ∉ b) : 10 ∉ a ++ b := fun h =>
    (List.mem_append.1 h).elim ha hb
  have hwhen {c : Prop} [Decidable c] {a : Bytes} (ha : 10 ∉ a) : 10 ∉ if c then a else [] := by
    split
    · exact ha
    · exact List.not_mem_nil
  have hsigned : 10 ∉ signed 1 s.movePct := by
    unfold signed
    split
    · exact newline_notMem_printed 1 s.movePct
    · simp [newline_notMem_printed, ch]
  have hname : 10 ∉ tierIcon s.tier ++ lit " " ++ tierName s.tier ++ lit " " := by
    cases s.tier <;> decide
  have hsince : 10 ∉ if s.tier = .mover then lit "vs prev close" else lit "since news" := by
    split <;> decide
  unfold header
  refine happend (happend (happend (happend (happend ?_ ?_) ?_) ?_) ?_) ?_
  · exact hline (happend hname hticker)
  · refine hwhen (happend (hline (happend (by decide) (newline_notMem_printed _ _))) (hwhen (hline ?_)))
    exact happend (happend (happend (happend (by decide) hsigned) (by decide)) hsince) (by decide)
  · exact hwhen (hline (happend (happend (by decide) (newline_notMem_printed _ _)) (by decide)))
  · exact hwhen (happend (happend (by decide) (newline_notMem_money _)) (by decide))
  · exact hwhen (hline (happend (happend (by decide) (newline_notMem_printed _ _)) (by decide)))
  · exact hwhen (happend (happend (by decide) hreason) (by decide))

/-- **An alert is read as it was meant.** Whatever bytes its texts hold, the request and the datagram of
a signal are each one JSON object with the members that the sink puts there; a reader of the message
sees the text of the signal, with its header in bold, and no other markup. -/
theorem alert_read_back (s : Signal F) (sources : List Bytes) (chatId : Bytes)
    (hticker : 10 ∉ s.ticker.bytes) (hreason : 10 ∉ s.haltReason.bytes) :
    (∃ (request : Node F) (below : Bytes),
      Json.parse (telegramBody chatId (formatHtml s sources)) = .ok request ∧
      str (get request (lit "chat_id")) = chatId ∧ str (get request (lit "parse_mode")) = lit "HTML" ∧
      formatText s sources = header s ++ 10 :: below ∧
      shown false (str (get request (lit "text"))) =
        some ((header s).map (·, true) ++ (10 :: below).map (·, false))) ∧
    (Fits s → ∃ datagram : Node F, Json.parse (udpBody s) = .ok datagram ∧
      str (get datagram (lit "tier")) = tierName s.tier ∧
      str (get datagram (lit "ticker")) = s.ticker.bytes ∧
      get datagram (lit "price") = some (numNode (printed 4 s.price)) ∧
      get datagram (lit "move_pct") = some (numNode (printed 2 s.movePct)) ∧
      get datagram (lit "rvol") = some (numNode (printed 2 s.rvol)) ∧
      i64 (get datagram (lit "score")) = s.score.toInt ∧
      u64 (get datagram (lit "signal_ns")) = s.tSignalNs.toNat ∧
      str (get datagram (lit "title")) = s.title.bytes ∧ str (get datagram (lit "why")) = s.why.bytes ∧
      str (get datagram (lit "link")) = s.link.bytes) := by
  constructor
  · obtain ⟨below, hbelow⟩ : ∃ below, formatText s sources = header s ++ 10 :: below := by
      unfold formatText
      exact ⟨_, by simp only [List.append_assoc, List.cons_append, List.nil_append]; rfl⟩
    have hheader := newline_notMem_header hticker hreason
    have hall : ∀ c ∈ header s, decide (c ≠ 10) = true := fun c hc =>
      decide_eq_true fun h => hheader (h ▸ hc)
    have hseen := shown_formatHtml s sources
    rw [hbelow, List.takeWhile_append_of_pos hall, List.dropWhile_append_of_pos hall] at hseen
    refine ⟨_, below, telegramBody_parse chatId _, str_strNode chatId, str_strNode _, hbelow, ?_⟩
    refine Eq.trans (congrArg (shown false) (str_strNode _)) (hseen.trans ?_)
    simp
  · intro h
    refine ⟨_, udpBody_parse h, str_strNode _, str_strNode _, rfl, rfl, rfl, i64_int ?_ ?_, u64_intNode ?_,
      str_strNode _, str_strNode _, str_strNode _⟩
    · have := s.score.le_toInt
      omega
    · have := s.score.toInt_lt
      omega
    · exact s.tSignalNs.toNat_lt

/-- A title with markup, an entity and quotes. -/
def markupSignal : Signal ℚ where
  tier := .alert
  catalyst := .contract
  source := 0
  sym := 0
  scoreFlags := 0
  dilutionFlags := 0
  score := 61
  newsId := 1
  tNewsRecvNs := 1700000000000000000
  tSignalNs := 1700000012000000000
  publishedNs := 0
  price := 37 / 20
  refPrice := 3 / 2
  movePct := 70 / 3
  rvol := 9
  dollarVolume := 400000
  vwap := 0
  bid := 0
  ask := 0
  spreadPct := 0
  marketCap := 30000000
  sharesOut := 0
  amountUsd := 0
  materiality := 0
  ticker := .print pos_16 (lit "ACME")
  exchange := .print pos_16 (lit "NASDAQ")
  haltReason := .empty pos_8
  why := .assign pos_192 (lit "contract, amount > 10%")
  title := .assign pos_256 (lit "A</b> <i>\"R&D\"</i> &amp; more")
  link := .assign pos_320 (lit "https://example.com/?a=1&b=2")

theorem alert_read_back_markup :
    (∃ (request : Node ℚ) (below : Bytes),
      Json.parse (telegramBody (lit "7") (formatHtml markupSignal [lit "wire"])) = .ok request ∧
      formatText markupSignal [lit "wire"] = header markupSignal ++ 10 :: below ∧
      shown false (str (get request (lit "text"))) =
        some ((header markupSignal).map (·, true) ++ (10 :: below).map (·, false))) ∧
    ∃ datagram : Node ℚ, Json.parse (udpBody markupSignal) = .ok datagram ∧
      str (get datagram (lit "title")) = lit "A</b> <i>\"R&D\"</i> &amp; more" := by
  have hfits : Fits markupSignal :=
    ⟨⟨rfl, by decide +kernel⟩, ⟨rfl, by decide +kernel⟩, ⟨rfl, by decide +kernel⟩⟩
  obtain ⟨⟨request, below, hrequest, -, -, htext, hseen⟩, hdatagram⟩ :=
    alert_read_back markupSignal [lit "wire"] (lit "7") (by decide) (by decide)
  obtain ⟨datagram, hparse, -, -, -, -, -, -, -, htitle, -⟩ := hdatagram hfits
  exact ⟨⟨request, below, hrequest, htext, hseen⟩, datagram, hparse, htitle.trans (by decide)⟩

end Alerts

end Stok
