import Stok.Engine.PaperRun
import Stok.Lib.PrefixSum

/-!
# The books of the paper trader

With exact arithmetic, the statistics of a trader follow from the trades it has reported: `Books` is
the invariant, kept by a signal and by every turn of a slot. Below it `Filled` and `Closed` say what
is known of a trade.
-/

namespace Stok

namespace PaperTrader

open Paper

/-- The configuration values that the results need to be nonnegative. -/
structure Nonneg (cfg : PaperConfig ℚ) : Prop where
  latency : 0 ≤ cfg.latencyMs.toInt
  slippage : 0 ≤ cfg.slippageBps

variable {cfg : PaperConfig ℚ}

/-- The latency in nanoseconds. -/
def latencyNs (cfg : PaperConfig ℚ) : Int := cfg.latencyMs.toInt * 1000000

/-- A trade that was filled. The sum of the time of its signal and the latency is what it says if
it fits a clock reading. -/
structure Filled (cfg : PaperConfig ℚ) (t : PaperTrade ℚ) : Prop where
  latency : t.signalNs.toNat + latencyNs cfg < 2 ^ 64 →
    t.signalNs.toNat + latencyNs cfg ≤ t.entryNs.toNat
  shares : ∃ n : Nat, 1 ≤ n ∧ t.shares = n
  size : t.shares * t.entryPx ≤ cfg.positionUsd
  chase : 0 < t.signalPx → t.entryPx ≤
    t.signalPx * (1 + cfg.maxChasePct / 100) * (1 + cfg.slippageBps / 10000)
  extremes : t.maePct ≤ 0 ∧ 0 ≤ t.mfePct

/-- A trade that was closed. -/
structure Closed (cfg : PaperConfig ℚ) (t : PaperTrade ℚ) : Prop where
  time : t.entryNs ≤ t.exitNs
  pnl : t.pnlUsd = (t.exitPx - t.entryPx) * t.shares - (fees cfg t.shares + fees cfg t.shares)

/-- What is known of a position at the time `now`. -/
structure PosOk (cfg : PaperConfig ℚ) (now : UInt64) (q : Pos ℚ) : Prop where
  waiting : q.waiting → q.eligibleNs = q.t.signalNs + toU64 cfg.latencyMs.toInt * 1000000
  held : q.held → Filled cfg q.t ∧ q.t.fees = fees cfg q.t.shares ∧ q.t.entryNs ≤ now

/-- The results of the trades that were closed, in order. -/
def results (ts : List (PaperTrade ℚ)) : List ℚ := (ts.filter (·.closed)).map (·.pnlUsd)

/-- The tickers of the active positions. -/
def activeSyms (ps : List (Pos ℚ)) : List UInt32 := (ps.filter (·.active)).map (·.t.sym)

/-- The statistics as a function of the trades reported. -/
structure StatsOk (st : Stats ℚ) (ts : List (PaperTrade ℚ)) : Prop where
  count : st.wins + st.losses = st.closed ∧ st.closed = (results ts).length
  gross : st.realized = st.grossWin - st.grossLoss
  realized : st.realized = (results ts).sum
  peak : IsGreatest (Lib.prefixSums (results ts)) st.peak
  drawdown : IsGreatest (Lib.drawdowns (results ts)) st.maxDrawdown

/-- The invariant of a run up to the time `now`. -/
structure Books (cfg : PaperConfig ℚ) (now : UInt64) (st : Stats ℚ) (ps : List (Pos ℚ))
    (ts : List (PaperTrade ℚ)) : Prop where
  room : ps.length = (max 1 cfg.maxOpen.toInt).toNat
  one : (activeSyms ps).Nodup
  opened : st.opened = st.closed + ps.countP Pos.held
  stats : StatsOk st ts
  pos : ∀ q ∈ ps, PosOk cfg now q
  trades : ∀ t ∈ ts, Filled cfg t ∧ (t.closed → Closed cfg t)

/-! ## A turn -/

theorem max_rat (a b : ℚ) : Dbl.max a b = max a b := by
  show (if decide (a < b) = true then b else a) = max a b
  rw [max_def]
  simp only [decide_eq_true_eq]
  split_ifs with h h' h'
  · rfl
  · exact absurd h.le h'
  · exact le_antisymm h' (not_lt.mp h)
  · rfl

theorem min_rat (a b : ℚ) : Dbl.min a b = min a b := by
  show (if decide (b < a) = true then b else a) = min a b
  rw [min_def]
  simp only [decide_eq_true_eq]
  split_ifs with h h' h'
  · exact absurd h' (not_le.mpr h)
  · rfl
  · rfl
  · exact le_antisymm (not_lt.mp h) (not_le.mp h').le

theorem results_concat (ts : List (PaperTrade ℚ)) (t : PaperTrade ℚ) :
    results (ts ++ [t]) = if t.closed then results ts ++ [t.pnlUsd] else results ts := by
  unfold results
  rw [List.filter_append]
  cases h : t.closed <;> simp [h]

/-- A trade is closed. -/
theorem StatsOk.close {st : Stats ℚ} {ts : List (PaperTrade ℚ)} {t : PaperTrade ℚ}
    (h : StatsOk st ts) (ht : t.closed) : StatsOk (st.close t.pnlUsd) (ts ++ [t]) := by
  have hres : results (ts ++ [t]) = results ts ++ [t.pnlUsd] := by rw [results_concat, if_pos ht]
  have hpeak : IsGreatest (Lib.prefixSums (results (ts ++ [t]))) (st.close t.pnlUsd).peak := by
    show IsGreatest _ (Dbl.max st.peak (st.realized + t.pnlUsd))
    rw [hres, max_rat, h.realized]
    exact Lib.isGreatest_prefixSums_concat h.peak _
  refine ⟨⟨?_, ?_⟩, ?_, ?_, hpeak, ?_⟩
  · have hcount := h.count.1
    simp only [Stats.close]
    split_ifs <;> omega
  · rw [hres, List.length_append, ← h.count.2]
    rfl
  · show st.realized + t.pnlUsd = (if _ then _ else _) - (if _ then _ else _)
    rw [h.gross]
    split_ifs
    · ring
    · show _ = st.grossWin - (st.grossLoss + -t.pnlUsd)
      ring
  · show st.realized + t.pnlUsd = _
    rw [hres, List.sum_append, List.sum_singleton, h.realized]
  · show IsGreatest _ (Dbl.max st.maxDrawdown ((st.close t.pnlUsd).peak - (st.realized + t.pnlUsd)))
    rw [hres] at hpeak ⊢
    rw [max_rat, h.realized]
    exact Lib.isGreatest_drawdowns_concat hpeak h.drawdown

/-- A turn that leaves the positions but for one, and reports nothing. -/
theorem Books.quiet {now : UInt64} {st st' : Stats ℚ} {done rest : List (Pos ℚ)} {q q' : Pos ℚ}
    {ts : List (PaperTrade ℚ)} (h : Books cfg now st (done ++ q :: rest) ts)
    (hone : (activeSyms (done ++ q' :: rest)).Sublist (activeSyms (done ++ q :: rest)))
    (hheld : q'.held = q.held) (hst : StatsOk st' ts) (hopened : st'.opened = st.opened)
    (hclosed : st'.closed = st.closed) (hq : PosOk cfg now q') :
    Books cfg now st' (done ++ q' :: rest) ts := by
  refine ⟨?_, h.one.sublist hone, ?_, hst, fun x hx => ?_, h.trades⟩
  · rw [← h.room]
    simp
  · rw [hopened, hclosed, h.opened]
    simp [List.countP_append, List.countP_cons, hheld]
  · rcases List.mem_append.mp hx with hx | hx
    · exact h.pos x (List.mem_append_left _ hx)
    · rcases List.mem_cons.mp hx with rfl | hx
      · exact hq
      · exact h.pos x (List.mem_append_right _ (List.mem_cons_of_mem _ hx))

theorem activeSyms_left (done rest : List (Pos ℚ)) (q : Pos ℚ) {q' : Pos ℚ} (hq : q'.active = false) :
    (activeSyms (done ++ q' :: rest)).Sublist (activeSyms (done ++ q :: rest)) := by
  refine List.Sublist.map _ ?_
  rw [List.filter_append, List.filter_append, List.filter_cons_of_neg (by simp [hq])]
  refine List.Sublist.append_left (List.Sublist.filter _ (List.sublist_cons_self _ _)) _

theorem activeSyms_same (done rest : List (Pos ℚ)) {q q' : Pos ℚ} (hq : q'.active = q.active)
    (hs : q'.t.sym = q.t.sym) :
    activeSyms (done ++ q' :: rest) = activeSyms (done ++ q :: rest) := by
  unfold activeSyms
  rw [List.filter_append, List.filter_append, List.filter_cons, List.filter_cons, hq]
  split <;> simp [hs]

theorem posOk_inactive {now : UInt64} {q : Pos ℚ} (hq : q.active = false) : PosOk cfg now q := by
  constructor
  · intro h
    rw [Pos.waiting, hq] at h
    cases h
  · intro h
    rw [Pos.held, hq] at h
    cases h

/-- A position that a turn leaves. -/
theorem Books.left {now : UInt64} {st st' : Stats ℚ} {done rest : List (Pos ℚ)} {q : Pos ℚ}
    {ts : List (PaperTrade ℚ)} (h : Books cfg now st (done ++ q :: rest) ts) (hq : q.waiting)
    (hst : StatsOk st' ts) (hopened : st'.opened = st.opened) (hclosed : st'.closed = st.closed) :
    Books cfg now st' (done ++ { q with active := false } :: rest) ts := by
  refine h.quiet (activeSyms_left done rest q rfl) ?_ hst hopened hclosed (posOk_inactive rfl)
  obtain ⟨-, hf⟩ := Bool.and_eq_true_iff.mp hq
  have hf : q.filled = false := by simpa using hf
  rw [Pos.held, Pos.held, hf]
  simp

theorem cost_pos {h : MarketHot} (hp : priced (F := ℚ) h) : (0 : ℚ) < cost h := by
  have hle : Dbl.le (cost h : ℚ) (Dbl.ofRat 0) = false := by
    simpa using (Bool.and_eq_true_iff.mp hp).2
  exact not_le.mp (of_decide_eq_false hle)

theorem slip_pos (hc : Nonneg cfg) : 0 < 1 + cfg.slippageBps / 10000 := by
  have := div_nonneg hc.slippage (by norm_num : (0 : ℚ) ≤ 10000)
  linarith

theorem latency_toNat (hc : Nonneg cfg) :
    ((toU64 cfg.latencyMs.toInt * 1000000).toNat : Int) = latencyNs cfg := by
  have h0 := hc.latency
  have h1 := cfg.latencyMs.toInt_lt
  have hk : (1000000 : UInt64).toNat = 1000000 := rfl
  unfold latencyNs
  rw [UInt64.toNat_mul, toU64, UInt64.toNat_ofNat', hk]
  omega

/-- An order is filled when its latency is over, at a price near that of its signal, for whole
shares within the position size. -/
theorem filledTrade_ok (hc : Nonneg cfg) {q : Pos ℚ} {h : MarketHot} {now : UInt64}
    (hq : q.eligibleNs = q.t.signalNs + toU64 cfg.latencyMs.toInt * 1000000)
    (hnow : q.eligibleNs ≤ now) (hp : priced (F := ℚ) h) (hchase : chased cfg q h = false)
    (hshares : Dbl.lt (sharesAt cfg h) (1 : ℚ) = false) : Filled cfg (filledTrade cfg q.t h now) := by
  have hfill : 0 < fillPx cfg h := mul_pos (cost_pos hp) (slip_pos hc)
  have hfloor : sharesAt cfg h = (⌊cfg.positionUsd / fillPx cfg h⌋ : ℚ) := rfl
  have hone : 1 ≤ ⌊cfg.positionUsd / fillPx cfg h⌋ := by
    have := not_lt.mp (of_decide_eq_false hshares)
    rw [hfloor] at this
    exact_mod_cast this
  refine ⟨fun hfits => ?_, ⟨⌊cfg.positionUsd / fillPx cfg h⌋.toNat, ?_, ?_⟩, ?_, fun hsig => ?_,
    le_rfl, le_rfl⟩
  · have hlat := latency_toNat hc
    have hle := UInt64.le_iff_toNat_le.mp hnow
    rw [hq, UInt64.toNat_add] at hle
    show (q.t.signalNs.toNat : Int) + _ ≤ now.toNat
    have hfits : (q.t.signalNs.toNat : Int) + latencyNs cfg < 2 ^ 64 := hfits
    omega
  · omega
  · show sharesAt cfg h = _
    rw [hfloor]
    have : (⌊cfg.positionUsd / fillPx cfg h⌋.toNat : Int) = ⌊cfg.positionUsd / fillPx cfg h⌋ := by
      omega
    exact_mod_cast this.symm
  · show sharesAt cfg h * fillPx cfg h ≤ cfg.positionUsd
    rw [hfloor, ← le_div_iff₀ hfill]
    exact Int.floor_le _
  · show cost h * (1 + cfg.slippageBps / 10000) ≤ q.t.signalPx * (1 + cfg.maxChasePct / 100) * _
    have hle : cost h ≤ q.t.signalPx * (1 + cfg.maxChasePct / 100) := by
      rcases Bool.and_eq_false_iff.mp hchase with hn | hn
      · exact absurd hsig (of_decide_eq_false hn)
      · exact not_lt.mp (of_decide_eq_false hn)
    exact mul_le_mul_of_nonneg_right hle (slip_pos hc).le

theorem Filled.marked {t : PaperTrade ℚ} (ht : Filled cfg t) (h : MarketHot) :
    Filled cfg (marked t h) := by
  refine ⟨ht.latency, ht.shares, ht.size, ht.chase, ?_, ?_⟩
  · show Dbl.min t.maePct _ ≤ 0
    rw [min_rat]
    exact (min_le_left _ _).trans ht.extremes.1
  · show 0 ≤ Dbl.max t.mfePct _
    rw [max_rat]
    exact ht.extremes.2.trans (le_max_left _ _)

theorem Filled.finish {t : PaperTrade ℚ} (ht : Filled cfg t) (now : UInt64) (reason : Bytes) (px : ℚ)
    (quote : Bool) : Filled cfg (finishTrade cfg t now reason px quote) :=
  ⟨ht.latency, ht.shares, ht.size, ht.chase, ht.extremes⟩

theorem finishTrade_closed {t : PaperTrade ℚ} {now : UInt64} (hfees : t.fees = fees cfg t.shares)
    (hnow : t.entryNs ≤ now) (reason : Bytes) (px : ℚ) (quote : Bool) :
    Closed cfg (finishTrade cfg t now reason px quote) := by
  refine ⟨hnow, ?_⟩
  show (px - t.entryPx) * t.shares - (t.fees + fees cfg t.shares) = _
  rw [hfees]
  rfl

/-- A position is sold: its trade `t` is the one it was, but for its extremes. -/
theorem Books.sold {now : UInt64} {st : Stats ℚ} {done rest : List (Pos ℚ)} {q : Pos ℚ}
    {ts : List (PaperTrade ℚ)} {t : PaperTrade ℚ} (h : Books cfg now st (done ++ q :: rest) ts)
    (hq : q.held) (hfilled : Filled cfg t) (hclosed : Closed cfg t) (ht : t.closed) :
    Books cfg now (st.close t.pnlUsd) (done ++ { q with active := false, t := t } :: rest)
      (ts ++ [t]) := by
  have hoff : ({ q with active := false, t := t } : Pos ℚ).held = false := rfl
  refine ⟨?_, h.one.sublist (activeSyms_left done rest q rfl), ?_, h.stats.close ht, fun x hx => ?_,
    fun x hx => ?_⟩
  · rw [← h.room]
    simp
  · have := h.opened
    simp only [List.countP_append, List.countP_cons, hq, hoff, if_true, Bool.false_eq_true,
      if_false] at this ⊢
    show st.opened = st.closed + 1 + _
    omega
  · rcases List.mem_append.mp hx with hx | hx
    · exact h.pos x (List.mem_append_left _ hx)
    · rcases List.mem_cons.mp hx with rfl | hx
      · exact posOk_inactive rfl
      · exact h.pos x (List.mem_append_right _ (List.mem_cons_of_mem _ hx))
  · rcases List.mem_append.mp hx with hx | hx
    · exact h.trades x hx
    · rw [List.mem_singleton.mp hx]
      exact ⟨hfilled, fun _ => hclosed⟩

/-- An order is filled. -/
theorem Books.bought {now : UInt64} {st : Stats ℚ} {done rest : List (Pos ℚ)} {q : Pos ℚ}
    {ts : List (PaperTrade ℚ)} {h : MarketHot} (hb : Books cfg now st (done ++ q :: rest) ts)
    (hq : q.waiting) (hfilled : Filled cfg (filledTrade cfg q.t h now)) :
    Books cfg now { st with opened := st.opened + 1 }
      (done ++ { q with filled := true, t := filledTrade cfg q.t h now } :: rest)
      (ts ++ [filledTrade cfg q.t h now]) := by
  obtain ⟨ha, hf⟩ := Bool.and_eq_true_iff.mp hq
  have hf : q.filled = false := by simpa using hf
  have hheld : q.held = false := by rw [Pos.held, hf, Bool.and_false]
  have hheld' : ({ q with filled := true, t := filledTrade cfg q.t h now } : Pos ℚ).held = true := by
    rw [Pos.held, ha]
    rfl
  have hres : results (ts ++ [filledTrade cfg q.t h now]) = results ts := by
    rw [results_concat]
    rfl
  refine ⟨?_, ?_, ?_, ?_, fun x hx => ?_, fun x hx => ?_⟩
  · rw [← hb.room]
    simp
  · exact (activeSyms_same done rest (q := q) rfl rfl : activeSyms (done ++
      { q with filled := true, t := filledTrade cfg q.t h now } :: rest) = _) ▸ hb.one
  · have := hb.opened
    simp only [List.countP_append, List.countP_cons, hheld, hheld', if_true, Bool.false_eq_true,
      if_false] at this ⊢
    omega
  · have hs := hb.stats
    refine ⟨?_, hs.gross, ?_, ?_, ?_⟩
    · rw [hres]; exact hs.count
    · rw [hres]; exact hs.realized
    · rw [hres]; exact hs.peak
    · rw [hres]; exact hs.drawdown
  · rcases List.mem_append.mp hx with hx | hx
    · exact hb.pos x (List.mem_append_left _ hx)
    · rcases List.mem_cons.mp hx with rfl | hx
      · refine ⟨fun hw => ?_, fun _ => ⟨hfilled, rfl, UInt64.le_refl _⟩⟩
        rw [Pos.waiting, Bool.not_true, Bool.and_false] at hw
        cases hw
      · exact hb.pos x (List.mem_append_right _ (List.mem_cons_of_mem _ hx))
  · rcases List.mem_append.mp hx with hx | hx
    · exact hb.trades x hx
    · rw [List.mem_singleton.mp hx]
      exact ⟨hfilled, fun hclosed => absurd hclosed Bool.false_ne_true⟩

theorem Turn.books (hc : Nonneg cfg) {closing : Bool} {now : UInt64} {h : MarketHot}
    {st st' : Stats ℚ} {q q' : Pos ℚ} {ts ts' : List (PaperTrade ℚ)} {done rest : List (Pos ℚ)}
    (ht : Turn cfg now h st q closing st' q' ts') (hb : Books cfg now st (done ++ q :: rest) ts) :
    Books cfg now st' (done ++ q' :: rest) (ts ++ ts') := by
  have hq := hb.pos q (List.mem_append_right _ List.mem_cons_self)
  cases ht with
  | free ha => rwa [List.append_nil]
  | wait hw hu => rwa [List.append_nil]
  | timeout hw hu =>
    rw [List.append_nil]
    exact hb.left hw ⟨hb.stats.count, hb.stats.gross, hb.stats.realized, hb.stats.peak,
      hb.stats.drawdown⟩ rfl rfl
  | chase hw hu =>
    rw [List.append_nil]
    exact hb.left hw ⟨hb.stats.count, hb.stats.gross, hb.stats.realized, hb.stats.peak,
      hb.stats.drawdown⟩ rfl rfl
  | small hu =>
    rw [List.append_nil]
    simp only [unsized, Bool.and_eq_true] at hu
    exact hb.left hu.1.1.1.1 hb.stats rfl rfl
  | fill hw hu hnow hp hchase hs =>
    exact hb.bought hw (filledTrade_ok hc (hq.waiting hw) hnow hp hchase hs)
  | @hold t hh ht =>
    obtain ⟨hfilled, hfees, hnow⟩ := hq.held hh
    have hsym : t.sym = q.t.sym := by rcases ht with rfl | rfl <;> rfl
    rw [List.append_nil]
    have hsyms : activeSyms (done ++ { q with t := t } :: rest) = activeSyms (done ++ q :: rest) :=
      activeSyms_same done rest rfl hsym
    refine hb.quiet (hsyms ▸ List.Sublist.refl _) rfl hb.stats rfl rfl ⟨fun hw => ?_, fun _ => ?_⟩
    · obtain ⟨-, hf⟩ := Bool.and_eq_true_iff.mp hh
      rw [Pos.waiting, hf, Bool.not_true, Bool.and_false] at hw
      cases hw
    · rcases ht with rfl | rfl
      · exact ⟨hfilled, hfees, hnow⟩
      · exact ⟨hfilled.marked h, hfees, hnow⟩
  | exit reason hh hhalt hm ht =>
    obtain ⟨hfilled, hfees, hnow⟩ := hq.held hh
    subst ht
    have hclosed := finishTrade_closed (t := marked q.t h) hfees hnow reason (exitPx cfg (mark h))
      h.quoteValid
    exact hb.sold hh ((hfilled.marked h).finish ..) hclosed rfl
  | drop hw =>
    rw [List.append_nil]
    exact hb.left hw hb.stats rfl rfl
  | close reason hh ht =>
    obtain ⟨hfilled, hfees, hnow⟩ := hq.held hh
    subst ht
    exact hb.sold hh (hfilled.finish ..) (finishTrade_closed hfees hnow ..) rfl

/-! ## A call -/

theorem Books.mono {now later : UInt64} {st : Stats ℚ} {ps : List (Pos ℚ)}
    {ts : List (PaperTrade ℚ)} (h : Books cfg now st ps ts) (hle : now ≤ later) :
    Books cfg later st ps ts := by
  refine ⟨h.room, h.one, h.opened, h.stats, fun q hq => ⟨(h.pos q hq).waiting, fun hh => ?_⟩, h.trades⟩
  obtain ⟨hfilled, hfees, hnow⟩ := (h.pos q hq).held hh
  exact ⟨hfilled, hfees, UInt64.le_trans hnow hle⟩

/-- The statistics but for the counters of signals and the result of the day. -/
theorem Books.stats_eq {now : UInt64} {st st' : Stats ℚ} {ps : List (Pos ℚ)}
    {ts : List (PaperTrade ℚ)} (h : Books cfg now st ps ts) (hopened : st'.opened = st.opened)
    (hst : StatsOk st' ts) (hclosed : st'.closed = st.closed) : Books cfg now st' ps ts :=
  ⟨h.room, h.one, by rw [hopened, hclosed, h.opened], hst, h.pos, h.trades⟩

theorem Books.rollDay {p : PaperTrader ℚ} {now : UInt64} {ts : List (PaperTrade ℚ)}
    (h : Books cfg now p.st p.pos ts) (t : UInt64) :
    Books cfg now (p.rollDay t).st (p.rollDay t).pos ts := by
  obtain ⟨day, checked, d, -, hroll⟩ := p.rollDay_cases t
  rw [hroll]
  have hs := h.stats
  exact h.stats_eq rfl ⟨hs.count, hs.gross, hs.realized, hs.peak, hs.drawdown⟩ rfl

/-- A signal that is accepted takes a free slot. -/
theorem Books.accepted {now : UInt64} {st : Stats ℚ} {before after : List (Pos ℚ)} {q : Pos ℚ}
    {ts : List (PaperTrade ℚ)} {s : Signal ℚ} (h : Books cfg now st (before ++ q :: after) ts)
    (hq : q.active = false)
    (hfree : ∀ x ∈ before ++ q :: after, x.active → x.t.sym ≠ s.sym) :
    Books cfg now { st with signals := st.signals + 1 } (before ++ order cfg s now :: after) ts := by
  have hheld : q.held = false := by rw [Pos.held, hq]; rfl
  have hheld' : (order cfg s now).held = false := rfl
  have hs := h.stats
  refine ⟨?_, ?_, ?_, ⟨hs.count, hs.gross, hs.realized, hs.peak, hs.drawdown⟩, fun x hx => ?_,
    h.trades⟩
  · rw [← h.room]
    simp
  · have hold : activeSyms (before ++ q :: after) = activeSyms before ++ activeSyms after := by
      unfold activeSyms
      rw [List.filter_append, List.filter_cons_of_neg (by simp [hq]), List.map_append]
    have hnew : activeSyms (before ++ order cfg s now :: after) =
        activeSyms before ++ s.sym :: activeSyms after := by
      unfold activeSyms
      rw [List.filter_append, List.filter_cons_of_pos rfl, List.map_append, List.map_cons]
      rfl
    have hone := h.one
    rw [hold] at hone
    rw [hnew, List.nodup_middle, List.nodup_cons]
    refine ⟨fun hmem => ?_, hone⟩
    rw [← hold] at hmem
    obtain ⟨x, hx, hsym⟩ := List.mem_map.mp hmem
    obtain ⟨hx, ha⟩ := List.mem_filter.mp hx
    exact hfree x hx ha hsym
  · have := h.opened
    simp only [List.countP_append, List.countP_cons, hheld, hheld'] at this ⊢
    exact this
  · rcases List.mem_append.mp hx with hx | hx
    · exact h.pos x (List.mem_append_left _ hx)
    · rcases List.mem_cons.mp hx with rfl | hx
      · exact ⟨fun _ => rfl, fun hh => absurd hh (by rw [hheld']; decide)⟩
      · exact h.pos x (List.mem_append_right _ (List.mem_cons_of_mem _ hx))

theorem Books.onSignal {p : PaperTrader ℚ} {now : UInt64} {ts : List (PaperTrade ℚ)}
    (h : Books cfg now p.st p.pos ts) (s : Signal ℚ) :
    Books cfg now (p.onSignal cfg s now).st (p.onSignal cfg s now).pos ts := by
  rcases p.onSignal_cases cfg s now with hsame | htaken
  · rwa [hsame]
  · have hr := h.rollDay now
    have hpos : (p.rollDay now).pos = p.pos := by
      obtain ⟨day, checked, d, -, hroll⟩ := p.rollDay_cases now
      rw [hroll]
    rw [hpos] at hr
    generalize (p.rollDay now).st = st at hr htaken
    generalize (p.onSignal cfg s now).st = st' at htaken ⊢
    generalize (p.onSignal cfg s now).pos = ps' at htaken ⊢
    generalize p.pos = ps at hr htaken
    have hs := hr.stats
    cases htaken with
    | dup => exact hr.stats_eq rfl ⟨hs.count, hs.gross, hs.realized, hs.peak, hs.drawdown⟩ rfl
    | risk => exact hr.stats_eq rfl ⟨hs.count, hs.gross, hs.realized, hs.peak, hs.drawdown⟩ rfl
    | full => exact hr.stats_eq rfl ⟨hs.count, hs.gross, hs.realized, hs.peak, hs.drawdown⟩ rfl
    | accept hq hfree => exact hr.accepted hq hfree

theorem Books.call (hc : Nonneg cfg) {p : PaperTrader ℚ} {ts : List (PaperTrade ℚ)} (c : Call ℚ)
    (h : Books cfg c.now p.st p.pos ts) :
    Books cfg c.now (p.call cfg c).1.st (p.call cfg c).1.pos (ts ++ (p.call cfg c).2) := by
  cases c with
  | signal s now =>
    show Books cfg now (p.onSignal cfg s now).st (p.onSignal cfg s now).pos (ts ++ [])
    rw [List.append_nil]
    exact h.onSignal s
  | step now hot =>
    exact walk_turns (fun st done q rest ts hb => (stepPos_turn cfg st q _ now).books hc hb) [] _ _ _
      (h.rollDay now)
  | closeAll now reason hot =>
    exact walk_turns (fun st done q rest ts hb => (closePos_turn cfg reason st q _ now).books hc hb)
      [] _ _ _ h

theorem books_init (cfg : PaperConfig ℚ) : Books cfg 0 (init cfg).st (init cfg).pos [] := by
  have hidle : ∀ q ∈ (init cfg).pos, q.active = false := fun q hq => by
    rw [List.eq_of_mem_replicate hq]
  refine ⟨List.length_replicate, ?_, ?_, ⟨⟨rfl, rfl⟩, ?_, rfl, Lib.isGreatest_prefixSums_nil,
    Lib.isGreatest_drawdowns_nil⟩, fun q hq => posOk_inactive (hidle q hq), fun t ht => absurd ht
    List.not_mem_nil⟩
  · have : activeSyms (init cfg).pos = [] := by
      unfold activeSyms
      rw [List.filter_eq_nil_iff.mpr fun q hq => by simp [hidle q hq]]
      rfl
    rw [this]
    exact List.nodup_nil
  · have : (init cfg).pos.countP Pos.held = 0 := List.countP_eq_zero.mpr fun q hq => by
      simp [Pos.held, hidle q hq]
    rw [this]
    rfl
  · show (0 : ℚ) = 0 - 0
    norm_num

theorem books_run (hc : Nonneg cfg) (calls : List (Call ℚ))
    (hsorted : (calls.map Call.now).Pairwise (· ≤ ·)) :
    ∃ now, (now = 0 ∨ ∃ c ∈ calls, now = c.now) ∧
      Books cfg now (run cfg calls).1.st (run cfg calls).1.pos (run cfg calls).2 := by
  induction calls using List.reverseRecOn with
  | nil => exact ⟨0, .inl rfl, books_init cfg⟩
  | append_singleton past c ih =>
    rw [List.map_append, List.pairwise_append] at hsorted
    obtain ⟨hpast, -, hle⟩ := hsorted
    obtain ⟨now, hnow, hb⟩ := ih hpast
    have hc' : now ≤ c.now := by
      rcases hnow with rfl | ⟨c', hmem, rfl⟩
      · exact UInt64.zero_le
      · exact hle _ (List.mem_map_of_mem hmem) _ (List.mem_singleton.mpr rfl)
    rw [run_concat]
    exact ⟨c.now, .inr ⟨c, List.mem_append_right _ List.mem_cons_self, rfl⟩,
      (hb.mono hc').call hc c⟩

/-- A step fills and sells in stocks that are not halted. -/
theorem step_not_halted (p : PaperTrader ℚ) (now : UInt64) (hot : Nat → UInt32 → MarketHot) :
    ∀ t ∈ (p.step cfg now hot).2, ∃ i, (hot i t.sym).halted = false := by
  intro t ht
  obtain ⟨x, -, st', ht⟩ := mem_walk ht
  refine ⟨x.2, ?_⟩
  have hturn := stepPos_turn cfg st' x.1 (hot x.2 x.1.t.sym) now
  generalize stepPos cfg st' x.1 (hot x.2 x.1.t.sym) now = r at hturn ht
  obtain ⟨st'', q', ts⟩ := r
  dsimp only at hturn ht
  cases hturn with
  | fill hw hu he hp hc hs =>
    rw [List.mem_singleton.mp ht]
    exact Bool.not_eq_true' _ ▸ (Bool.and_eq_true_iff.mp hp).1
  | exit reason hh hhalt hm heq =>
    rw [List.mem_singleton.mp ht, heq]
    exact hhalt
  | _ => exact absurd ht List.not_mem_nil

/-- The accounting of a run with a clock that does not go back, after its last call: positions,
counters, results, and the trades that were filled and closed. -/
theorem paper_accounting (cfg : PaperConfig ℚ) (hc : Nonneg cfg) (calls : List (Call ℚ))
    (hsorted : (calls.map Call.now).Pairwise (· ≤ ·)) :
    let p := (run cfg calls).1
    let ts := (run cfg calls).2
    (activeSyms p.pos).Nodup ∧
    (p.openPositions : Int) ≤ max 1 cfg.maxOpen.toInt ∧
    p.st.opened = p.st.closed + p.pos.countP Pos.held ∧
    p.st.wins + p.st.losses = p.st.closed ∧
    p.st.closed = (results ts).length ∧
    p.st.realized = p.st.grossWin - p.st.grossLoss ∧
    p.st.realized = (results ts).sum ∧
    IsGreatest (Lib.prefixSums (results ts)) p.st.peak ∧
    IsGreatest (Lib.drawdowns (results ts)) p.st.maxDrawdown ∧
    (∀ q ∈ p.pos, q.held → Filled cfg q.t) ∧
    (∀ t ∈ ts, Filled cfg t ∧ (t.closed → Closed cfg t)) ∧
    ∀ past now hot rest, calls = past ++ .step now hot :: rest →
      ∀ t ∈ ((run cfg past).1.step cfg now hot).2, ∃ i, (hot i t.sym).halted = false := by
  intro p ts
  obtain ⟨now, -, h⟩ := books_run hc calls hsorted
  refine ⟨h.one, ?_, h.opened, h.stats.count.1, h.stats.count.2, h.stats.gross, h.stats.realized,
    h.stats.peak, h.stats.drawdown, fun q hq hh => ((h.pos q hq).held hh).1, h.trades,
    fun past now hot rest _ => step_not_halted _ now hot⟩
  have hlen : p.openPositions ≤ p.pos.length := List.length_filter_le _ _
  have hroom : p.pos.length = _ := h.room
  omega

/-- A trade with the default configuration, bought at 2.006 dollars and sold at a target. -/
def tradeOnce : List (Call ℚ) :=
  [.signal (alertAt 0 2) 0, .step 1000000000 (quotes 19900 20000 0 0),
    .step 2000000000 (quotes 30000 30100 0 0)]

theorem paper_accounting_once :
    Nonneg {} ∧ (run {} tradeOnce).1.st.closed = 1 ∧
      (run {} tradeOnce).1.st.realized = (results (run {} tradeOnce).2).sum := by
  have hc : Nonneg {} := ⟨by decide, by decide +kernel⟩
  exact ⟨hc, by decide +kernel, (paper_accounting {} hc tradeOnce (by decide)).2.2.2.2.2.2.1⟩

/-- At the end of the clock the time from which an order may be filled wraps around. -/
theorem filled_before_latency :
    ∃ calls : List (Call ℚ), (calls.map Call.now).Pairwise (· ≤ ·) ∧
      ∃ t ∈ (run {} calls).2, ¬ (t.signalNs.toNat : Int) + latencyNs {} ≤ t.entryNs.toNat := by
  refine ⟨[.signal (alertAt 0 2) 0xFFFFFFFFFFFFFFFF,
    .step 0xFFFFFFFFFFFFFFFF (quotes 19900 20000 0 0)], by decide, ?_⟩
  decide +kernel

end PaperTrader

end Stok
