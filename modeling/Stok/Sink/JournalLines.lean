import Stok.Sink.AlertText

/-!
# The other lines of the journal

How `sink/journal.cpp` writes signals, outcomes and paper trades: like a story, each is an object of
JSON on a line of its own.
-/

namespace Stok

open Json

namespace Journal

variable {F : Type} [Dbl F]

/-- Nanoseconds as a number of seconds. -/
def secondsOf (ns : Int) : F := Dbl.ofRat ns / Dbl.ofRat 1000000000

def signalJson (j : Journal F) (s : Signal F) : Bytes :=
  let w : J := {}
  let w := w.time "t" s.tSignalNs.toInt64.toInt
  let w := w.str "tier" (tierName s.tier)
  let w := w.str "ticker" s.ticker.bytes
  let w := w.str "exchange" s.exchange.bytes
  let w := w.integer "score" s.score.toInt
  let w := w.str "catalyst" (catalystName s.catalyst)
  let w := w.num "price" s.price 4
  let w := w.num "ref_price" s.refPrice 4
  let w := w.num "move_pct" s.movePct 2
  let w := w.num "rvol" s.rvol 2
  let w := w.num "dollar_volume" s.dollarVolume 0
  let w := w.num "vwap" s.vwap 4
  let w := w.when (pos s.spreadPct) fun w => ((w.num "bid" s.bid 4).num "ask" s.ask 4).num "spread_pct" s.spreadPct 2
  let w := w.when (pos s.marketCap) (·.num "mcap" s.marketCap 0)
  let w := w.when (pos s.sharesOut) (·.num "shares_out" s.sharesOut 0)
  let w := w.when (pos s.amountUsd) (·.num "amount_usd" s.amountUsd 0)
  let w := w.when (pos s.materiality) (·.num "materiality" s.materiality 4)
  let w := w.when (s.scoreFlags != 0) (·.str "flags" (scoreFlagsStr s.scoreFlags))
  let w := w.when (s.dilutionFlags != 0) (·.str "dilution" (dilutionFlagsStr s.dilutionFlags))
  let w := w.when (!s.haltReason.bytes.isEmpty) (·.str "halt_reason" s.haltReason.bytes)
  let w := w.str "why" s.why.bytes
  let w := w.str "title" s.title.bytes
  let w := w.str "link" s.link.bytes
  let w := w.str "src" (j.sourceName s.source)
  let w := w.hex "news_id" s.newsId
  let w := w.integer "news_recv_ns" s.tNewsRecvNs.toNat
  let w := w.integer "signal_ns" s.tSignalNs.toNat
  let w := w.when (s.tNewsRecvNs ≠ 0 ∧ s.tNewsRecvNs < s.tSignalNs)
    (·.num "news_to_signal_ms" (msOf (s.tSignalNs - s.tNewsRecvNs).toNat : F) 3)
  w.done

def outcomeJson (o : Outcome F) : Bytes :=
  let w : J := {}
  let w := w.time "t" o.tNs.toInt64.toInt
  let w := w.str "ticker" o.ticker.bytes
  let w := w.hex "news_id" o.newsId
  let w := w.integer "horizon_s" o.horizonS.toNat
  let w := w.integer "score" o.score.toInt
  let w := w.str "catalyst" (catalystName o.catalyst)
  let w := w.str "tier_reached" (tierName o.tierReached)
  let w := w.num "ref_price" o.refPrice 4
  let w := w.num "price" o.price 4
  let w := w.num "move_pct" o.movePct 2
  let w := w.num "max_move_pct" o.maxMovePct 2
  let w := w.num "min_move_pct" o.minMovePct 2
  let w := w.num "volume_since" o.volumeSince 0
  let w := w.num "dollar_volume_since" o.dollarVolumeSince 0
  w.done

/-- The members that a closed trade has. -/
def closeMembers (t : PaperTrade F) (w : J) : J :=
  let w := w.integer "exit_ns" t.exitNs.toNat
  let w := w.num "exit_px" t.exitPx 4
  let w := w.boolean "quote_exit" t.quoteExit
  let w := w.str "exit_reason" t.exitReason.bytes
  let w := w.num "hold_s" (secondsOf (t.exitNs - t.entryNs).toNat : F) 1
  let w := w.num "fees" t.fees 2
  let w := w.num "pnl_usd" t.pnlUsd 2
  let w := w.num "pnl_pct" t.pnlPct 3
  let w := w.num "mfe_pct" t.mfePct 2
  w.num "mae_pct" t.maePct 2

def tradeJson (t : PaperTrade F) : Bytes :=
  let w : J := {}
  let w := w.time "t" (if t.closed then t.exitNs else t.entryNs).toInt64.toInt
  let w := w.str "event" (if t.closed then lit "close" else lit "open")
  let w := w.str "ticker" t.ticker.bytes
  let w := w.str "tier" (tierName t.tier)
  let w := w.str "catalyst" (catalystName t.catalyst)
  let w := w.integer "score" t.score.toInt
  let w := w.hex "news_id" t.newsId
  let w := w.integer "signal_ns" t.signalNs.toNat
  let w := w.integer "entry_ns" t.entryNs.toNat
  let w := w.num "signal_px" t.signalPx 4
  let w := w.num "entry_px" t.entryPx 4
  let w := w.num "shares" t.shares 0
  let w := w.boolean "quote_entry" t.quoteEntry
  let w := w.when t.sizeOverTouch (·.boolean "size_over_touch" true)
  let w := w.num "entry_delay_ms"
    (if t.signalNs < t.entryNs then msOf (t.entryNs - t.signalNs).toNat else Dbl.ofRat 0 : F) 1
  (w.when t.closed (closeMembers t)).done

/-! ## Each line is an object -/

/-- The writer has written an object so far. -/
def Sound (F : Type) [Dbl F] (w : J) : Prop := ∃ ms : List (Bytes × Node F), Writes w ms

theorem Sound.put {w : J} (h : Sound F w) {k : String} (hk : PlainKey k = true) {u : Bytes} {n : Node F}
    (hu : OneLine u n) : Sound F ((w.key k).raw u) := by
  obtain ⟨ms, hms⟩ := h
  exact ⟨_, hms.put hk hu.1 hu.2⟩

theorem Sound.str {w : J} (h : Sound F w) {k : String} (hk : PlainKey k = true) (v : Bytes) :
    Sound F (w.str k v) := h.put hk (oneLine_quoted v)

theorem Sound.num {w : J} (h : Sound F w) {k : String} (hk : PlainKey k = true) (v : F) (prec : Nat) :
    Sound F (w.num k v prec) := h.put hk (oneLine_numText v prec)

theorem Sound.integer {w : J} (h : Sound F w) {k : String} (hk : PlainKey k = true) {v : Int}
    (hv : v.natAbs < 10 ^ 20) : Sound F (w.integer k v) := h.put hk (oneLine_intText hv)

theorem Sound.boolean {w : J} (h : Sound F w) {k : String} (hk : PlainKey k = true) (b : Bool) :
    Sound F (w.boolean k b) := h.put hk (oneLine_bool b)

theorem Sound.time {w : J} (h : Sound F w) {k : String} (hk : PlainKey k = true) (ns : Int) :
    Sound F (w.time k ns) := by
  unfold J.time
  split
  · exact h
  · exact h.str hk _

theorem Sound.when {w : J} (h : Sound F w) {c : Bool} {f : J → J} (hf : ∀ w, Sound F w → Sound F (f w)) :
    Sound F (w.when c f) := by
  unfold J.when
  split
  · exact hf w h
  · exact h

theorem when_first {w : J} {c : Bool} {f : J → J} (h : w.first = false) (hf : (f w).first = false) :
    (w.when c f).first = false := by
  unfold J.when
  split
  · exact hf
  · exact h

theorem sound_empty : Sound F {} := ⟨[], writes_empty⟩

/-- A text is an object, on a line. -/
structure ObjectLine (F : Type) [Dbl F] (t : Bytes) : Prop where
  parse : ∃ ms : List (Bytes × Node F), Json.parse t = .ok (.object ms)
  line : 10 ∉ t

theorem Sound.done {w : J} (h : Sound F w) (hfirst : w.first = false) : ObjectLine F w.done := by
  obtain ⟨ms, hms⟩ := h
  have hne : ms ≠ [] := by
    rintro rfl
    rw [hms.first] at hfirst
    cases hfirst
  exact ⟨⟨ms, parse_done hms hne⟩, (hms.done hne).2.1⟩

theorem signalJson_object (j : Journal F) (s : Signal F) : ObjectLine F (j.signalJson s) := by
  have h := (sound_empty (F := F)).time (k := "t") (plain_key (by decide)) s.tSignalNs.toInt64.toInt
  have h := h.str (k := "tier") (plain_key (by decide)) (tierName s.tier)
  have h := h.str (k := "ticker") (plain_key (by decide)) s.ticker.bytes
  have h := h.str (k := "exchange") (plain_key (by decide)) s.exchange.bytes
  have h := h.integer (k := "score") (plain_key (by decide)) (natAbs_int32 s.score)
  have h := h.str (k := "catalyst") (plain_key (by decide)) (catalystName s.catalyst)
  have h := h.num (k := "price") (plain_key (by decide)) s.price 4
  have h := h.num (k := "ref_price") (plain_key (by decide)) s.refPrice 4
  have h := h.num (k := "move_pct") (plain_key (by decide)) s.movePct 2
  have h := h.num (k := "rvol") (plain_key (by decide)) s.rvol 2
  have h := h.num (k := "dollar_volume") (plain_key (by decide)) s.dollarVolume 0
  have h := h.num (k := "vwap") (plain_key (by decide)) s.vwap 4
  have h := h.when (c := pos s.spreadPct) (f := fun w =>
    ((w.num "bid" s.bid 4).num "ask" s.ask 4).num "spread_pct" s.spreadPct 2) fun w hw =>
    ((hw.num (plain_key (by decide)) s.bid 4).num (plain_key (by decide)) s.ask 4).num (plain_key (by decide)) s.spreadPct 2
  have h := h.when (c := pos s.marketCap) fun w hw => hw.num (k := "mcap") (plain_key (by decide)) s.marketCap 0
  have h := h.when (c := pos s.sharesOut) fun w hw => hw.num (k := "shares_out") (plain_key (by decide)) s.sharesOut 0
  have h := h.when (c := pos s.amountUsd) fun w hw => hw.num (k := "amount_usd") (plain_key (by decide)) s.amountUsd 0
  have h := h.when (c := pos s.materiality) fun w hw => hw.num (k := "materiality") (plain_key (by decide)) s.materiality 4
  have h := h.when (c := s.scoreFlags != 0) fun w hw => hw.str (k := "flags") (plain_key (by decide)) (scoreFlagsStr s.scoreFlags)
  have h := h.when (c := s.dilutionFlags != 0) fun w hw =>
    hw.str (k := "dilution") (plain_key (by decide)) (dilutionFlagsStr s.dilutionFlags)
  have h := h.when (c := !s.haltReason.bytes.isEmpty) fun w hw =>
    hw.str (k := "halt_reason") (plain_key (by decide)) s.haltReason.bytes
  have h := h.str (k := "why") (plain_key (by decide)) s.why.bytes
  have h := h.str (k := "title") (plain_key (by decide)) s.title.bytes
  have h := h.str (k := "link") (plain_key (by decide)) s.link.bytes
  have h := h.str (k := "src") (plain_key (by decide)) (j.sourceName s.source)
  have h := h.str (k := "news_id") (plain_key (by decide)) (J.hexText s.newsId)
  have h := h.integer (k := "news_recv_ns") (plain_key (by decide)) (natAbs_uint64 s.tNewsRecvNs)
  have h := h.integer (k := "signal_ns") (plain_key (by decide)) (natAbs_uint64 s.tSignalNs)
  have h := h.when (c := s.tNewsRecvNs ≠ 0 ∧ s.tNewsRecvNs < s.tSignalNs) fun w hw =>
    hw.num (k := "news_to_signal_ms") (plain_key (by decide)) (msOf (s.tSignalNs - s.tNewsRecvNs).toNat : F) 3
  exact h.done (when_first rfl rfl)

theorem outcomeJson_object (o : Outcome F) : ObjectLine F (outcomeJson o) := by
  have h := (sound_empty (F := F)).time (k := "t") (plain_key (by decide)) o.tNs.toInt64.toInt
  have h := h.str (k := "ticker") (plain_key (by decide)) o.ticker.bytes
  have h := h.str (k := "news_id") (plain_key (by decide)) (J.hexText o.newsId)
  have h := h.integer (k := "horizon_s") (plain_key (by decide)) (natAbs_uint32 o.horizonS)
  have h := h.integer (k := "score") (plain_key (by decide)) (natAbs_int32 o.score)
  have h := h.str (k := "catalyst") (plain_key (by decide)) (catalystName o.catalyst)
  have h := h.str (k := "tier_reached") (plain_key (by decide)) (tierName o.tierReached)
  have h := h.num (k := "ref_price") (plain_key (by decide)) o.refPrice 4
  have h := h.num (k := "price") (plain_key (by decide)) o.price 4
  have h := h.num (k := "move_pct") (plain_key (by decide)) o.movePct 2
  have h := h.num (k := "max_move_pct") (plain_key (by decide)) o.maxMovePct 2
  have h := h.num (k := "min_move_pct") (plain_key (by decide)) o.minMovePct 2
  have h := h.num (k := "volume_since") (plain_key (by decide)) o.volumeSince 0
  have h := h.num (k := "dollar_volume_since") (plain_key (by decide)) o.dollarVolumeSince 0
  exact h.done rfl

theorem Sound.close {w : J} (h : Sound F w) (t : PaperTrade F) : Sound F (closeMembers t w) := by
  have h := h.integer (k := "exit_ns") (plain_key (by decide)) (natAbs_uint64 t.exitNs)
  have h := h.num (k := "exit_px") (plain_key (by decide)) t.exitPx 4
  have h := h.boolean (k := "quote_exit") (plain_key (by decide)) t.quoteExit
  have h := h.str (k := "exit_reason") (plain_key (by decide)) t.exitReason.bytes
  have h := h.num (k := "hold_s") (plain_key (by decide)) (secondsOf (t.exitNs - t.entryNs).toNat : F) 1
  have h := h.num (k := "fees") (plain_key (by decide)) t.fees 2
  have h := h.num (k := "pnl_usd") (plain_key (by decide)) t.pnlUsd 2
  have h := h.num (k := "pnl_pct") (plain_key (by decide)) t.pnlPct 3
  have h := h.num (k := "mfe_pct") (plain_key (by decide)) t.mfePct 2
  exact h.num (k := "mae_pct") (plain_key (by decide)) t.maePct 2

theorem tradeJson_object (t : PaperTrade F) : ObjectLine F (tradeJson t) := by
  have h := (sound_empty (F := F)).time (k := "t") (plain_key (by decide)) (if t.closed then t.exitNs else t.entryNs).toInt64.toInt
  have h := h.str (k := "event") (plain_key (by decide)) (if t.closed then lit "close" else lit "open")
  have h := h.str (k := "ticker") (plain_key (by decide)) t.ticker.bytes
  have h := h.str (k := "tier") (plain_key (by decide)) (tierName t.tier)
  have h := h.str (k := "catalyst") (plain_key (by decide)) (catalystName t.catalyst)
  have h := h.integer (k := "score") (plain_key (by decide)) (natAbs_int32 t.score)
  have h := h.str (k := "news_id") (plain_key (by decide)) (J.hexText t.newsId)
  have h := h.integer (k := "signal_ns") (plain_key (by decide)) (natAbs_uint64 t.signalNs)
  have h := h.integer (k := "entry_ns") (plain_key (by decide)) (natAbs_uint64 t.entryNs)
  have h := h.num (k := "signal_px") (plain_key (by decide)) t.signalPx 4
  have h := h.num (k := "entry_px") (plain_key (by decide)) t.entryPx 4
  have h := h.num (k := "shares") (plain_key (by decide)) t.shares 0
  have h := h.boolean (k := "quote_entry") (plain_key (by decide)) t.quoteEntry
  have h := h.when (c := t.sizeOverTouch) fun w hw => hw.boolean (k := "size_over_touch") (plain_key (by decide)) true
  have h := h.num (k := "entry_delay_ms") (plain_key (by decide))
    (if t.signalNs < t.entryNs then msOf (t.entryNs - t.signalNs).toNat else Dbl.ofRat 0 : F) 1
  have h := h.when (c := t.closed) fun w hw => hw.close t
  exact h.done (when_first rfl rfl)

end Journal

end Stok
