import Stok.Research.Report

/-!
# The report agrees with the trader

A trader's statistics are the account of the results of its closed trades, in the order in which it closed them.
While the clock does not go back this is the order of their exits, in which the report adds them up. The counts and
the sums do not depend on the order; the drawdown does.
-/

namespace Stok

open Dbl (ofRat)

namespace Report

open PaperTrader Paper

/-! ## The trader's account -/

section

variable {F : Type} [Dbl F] (cfg : PaperConfig F)

def closedTrades (ts : List (PaperTrade F)) : List (PaperTrade F) := ts.filter (·.closed)

def pnls (ts : List (PaperTrade F)) : List F := (closedTrades ts).map (·.pnlUsd)

structure Agrees (st : Stats F) (ts : List (PaperTrade F)) : Prop where
  closed : st.closed = (closedTrades ts).length
  account : traderAccount st = account (pnls ts)

omit [Dbl F] in
theorem closedTrades_concat (ts : List (PaperTrade F)) (t : PaperTrade F) :
    closedTrades (ts ++ [t]) = if t.closed then closedTrades ts ++ [t] else closedTrades ts := by
  unfold closedTrades
  rw [List.filter_append]
  cases h : t.closed <;> simp [h]

variable {cfg} {st : Stats F} {ts : List (PaperTrade F)} {t : PaperTrade F}

theorem Agrees.open_ (h : Agrees st ts) (ht : t.closed = false) : Agrees st (ts ++ [t]) := by
  have hsame : closedTrades (ts ++ [t]) = closedTrades ts := by rw [closedTrades_concat, ht]; rfl
  refine ⟨by rw [hsame, h.closed], ?_⟩
  rw [pnls, hsame, h.account]
  rfl

theorem Agrees.close (h : Agrees st ts) (ht : t.closed = true) : Agrees (st.close t.pnlUsd) (ts ++ [t]) := by
  have hmore : closedTrades (ts ++ [t]) = closedTrades ts ++ [t] := by rw [closedTrades_concat, if_pos ht]
  refine ⟨?_, ?_⟩
  · rw [hmore, List.length_append, ← h.closed]
    rfl
  · rw [pnls, hmore, List.map_append, List.map_singleton, account_concat]
    exact congrArg (fun a : Account F => a.add t.pnlUsd) h.account

/-- Counters that are not in the account. -/
theorem Agrees.of_eq {st' : Stats F} (h : Agrees st ts) (hclosed : st'.closed = st.closed)
    (haccount : traderAccount st' = traderAccount st) : Agrees st' ts :=
  ⟨hclosed.trans h.closed, haccount.trans h.account⟩

theorem Agrees.turn {now : UInt64} {hot : MarketHot} {q q' : Pos F} {closing : Bool} {st' : Stats F}
    {ts' : List (PaperTrade F)} (ht : Turn cfg now hot st q closing st' q' ts') (h : Agrees st ts) : Agrees st' (ts ++ ts') := by
  cases ht with
  | free | wait | small | hold | drop => rwa [List.append_nil]
  | timeout | chase =>
    rw [List.append_nil]
    exact h.of_eq rfl rfl
  | fill => exact (h.open_ rfl).of_eq rfl rfl
  | exit reason hh hhalt hm heq =>
    subst heq
    exact h.close rfl
  | close reason hh heq =>
    subst heq
    exact h.close rfl

theorem Agrees.call {p : PaperTrader F} (h : Agrees p.st ts) (c : Call F) :
    Agrees (p.call cfg c).1.st (ts ++ (p.call cfg c).2) := by
  have hroll : ∀ now, Agrees (p.rollDay now).st ts := by
    intro now
    obtain ⟨day, checked, d, -, hroll⟩ := p.rollDay_cases now
    rw [hroll]
    exact h.of_eq rfl rfl
  cases c with
  | signal s now =>
    show Agrees (p.onSignal cfg s now).st (ts ++ [])
    rw [List.append_nil]
    rcases p.onSignal_cases cfg s now with hsame | htaken
    · rwa [hsame]
    · have hst := hroll now
      generalize (p.rollDay now).st = st₀ at hst htaken
      generalize (p.onSignal cfg s now).st = st₁ at htaken ⊢
      generalize (p.onSignal cfg s now).pos = ps₁ at htaken
      generalize p.pos = ps at htaken
      cases htaken <;> exact hst.of_eq rfl rfl
  | step now hot =>
    exact walk_turns (f := fun st q h => stepPos cfg st q h now) (I := fun st _ ts => Agrees st ts)
      (fun st done q rest ts hb => hb.turn (stepPos_turn cfg st q (hot done.length q.t.sym) now)) [] _ _ _ (hroll now)
  | closeAll now reason hot =>
    exact walk_turns (f := fun st q h => closePos cfg reason st q h now) (I := fun st _ ts => Agrees st ts)
      (fun st done q rest ts hb => hb.turn (closePos_turn cfg reason st q (hot done.length q.t.sym) now)) [] _ _ _ h

/-- After any run, whatever the rounding. -/
theorem agrees_after (cfg : PaperConfig F) (calls : List (Call F)) : Agrees (run cfg calls).1.st (run cfg calls).2 := by
  induction calls using List.reverseRecOn with
  | nil => exact ⟨rfl, rfl⟩
  | append_singleton calls c ih =>
    rw [run_concat]
    exact ih.call c

/-- A trade is closed at the time of the call that closes it. -/
theorem exitNs_call (p : PaperTrader F) (c : Call F) : ∀ t ∈ (p.call cfg c).2, t.closed = true → t.exitNs = c.now := by
  have hturn : ∀ {now : UInt64} {hot : MarketHot} {st st' : Stats F} {q q' : Pos F} {closing : Bool}
      {ts : List (PaperTrade F)}, Turn cfg now hot st q closing st' q' ts → ∀ t ∈ ts, t.closed = true → t.exitNs = now := by
    intro now hot st st' q q' closing ts hturn t ht hclosed
    cases hturn with
    | fill =>
      rw [List.mem_singleton.mp ht] at hclosed
      cases hclosed
    | exit reason hh hhalt hm heq => rw [List.mem_singleton.mp ht, heq]; rfl
    | close reason hh heq => rw [List.mem_singleton.mp ht, heq]; rfl
    | _ => exact absurd ht List.not_mem_nil
  intro t ht
  cases c with
  | signal => exact absurd ht List.not_mem_nil
  | step now hot =>
    obtain ⟨x, -, st', ht⟩ := mem_walk ht
    exact hturn (stepPos_turn cfg st' x.1 (hot x.2 x.1.t.sym) now) t ht
  | closeAll now reason hot =>
    obtain ⟨x, -, st', ht⟩ := mem_walk ht
    exact hturn (closePos_turn cfg reason st' x.1 (hot x.2 x.1.t.sym) now) t ht

/-- While the clock does not go back, trades are closed in the order of their exits. -/
theorem exits_sorted (cfg : PaperConfig F) {calls : List (Call F)} (hclock : (calls.map Call.now).Pairwise (· ≤ ·)) :
    (closedTrades (run cfg calls).2).Pairwise fun t t' => t.exitNs ≤ t'.exitNs := by
  -- each exit is at the time of a call of the run
  have hall : (closedTrades (run cfg calls).2).Pairwise (fun t t' => t.exitNs ≤ t'.exitNs) ∧
      ∀ t ∈ closedTrades (run cfg calls).2, ∃ c ∈ calls, t.exitNs = c.now := by
    induction calls using List.reverseRecOn with
    | nil =>
      rw [show closedTrades (run cfg []).2 = [] from rfl]
      exact ⟨.nil, fun t ht => absurd ht List.not_mem_nil⟩
    | append_singleton calls c ih =>
      rw [List.map_append, List.pairwise_append] at hclock
      obtain ⟨hpast, -, hle⟩ := hclock
      obtain ⟨hsorted, htimes⟩ := ih hpast
      have hnew : ∀ t ∈ closedTrades ((run cfg calls).1.call cfg c).2, t.exitNs = c.now := by
        intro t ht
        obtain ⟨hmem, hclosed⟩ := List.mem_filter.mp ht
        exact exitNs_call _ c t hmem hclosed
      rw [run_concat, closedTrades, List.filter_append]
      refine ⟨List.pairwise_append.mpr ⟨hsorted, ?_, fun t ht t' ht' => ?_⟩, fun t ht => ?_⟩
      · refine List.Pairwise.imp_of_mem (fun ha hb _ => ?_) (List.pairwise_of_forall fun _ _ => trivial)
        rw [hnew _ ha, hnew _ hb]
        exact UInt64.le_refl _
      · obtain ⟨c', hc', heq⟩ := htimes t ht
        rw [heq, hnew t' ht']
        exact hle _ (List.mem_map_of_mem hc') _ (List.mem_singleton.mpr rfl)
      · rcases List.mem_append.mp ht with ht | ht
        · obtain ⟨c', hc', heq⟩ := htimes t ht
          exact ⟨c', List.mem_append_left _ hc', heq⟩
        · exact ⟨c, List.mem_append_right _ List.mem_cons_self, hnew t ht⟩
  exact hall.1

end

/-! ## The order of the trades -/

/-- The counts and the sums of an account, as functions of its results. -/
theorem account_totals (l : List ℚ) :
    (account l).wins = l.countP (fun x => decide (0 < x)) ∧ (account l).losses = l.countP (fun x => !decide (0 < x)) ∧
      (account l).grossWin = (l.filter fun x => decide (0 < x)).sum ∧
      (account l).grossLoss = -(l.filter fun x => !decide (0 < x)).sum ∧ (account l).total = l.sum := by
  induction l using List.reverseRecOn with
  | nil => exact ⟨rfl, rfl, rfl, rfl, rfl⟩
  | append_singleton l x ih =>
    obtain ⟨hwins, hlosses, hwin, hloss, htotal⟩ := ih
    have hlt : Dbl.lt (ofRat 0 : ℚ) x = decide (0 < x) := rfl
    rw [account_concat]
    simp only [Account.add, hlt, List.countP_append, List.filter_append, List.sum_append, hwins, hlosses, hwin, hloss, htotal]
    by_cases hx : 0 < x
    · simp [hx]
    · simp [hx]
      ring

theorem account_perm {l l' : List ℚ} (h : l.Perm l') :
    (account l).wins = (account l').wins ∧ (account l).losses = (account l').losses ∧
      (account l).grossWin = (account l').grossWin ∧ (account l).grossLoss = (account l').grossLoss ∧
      (account l).total = (account l').total := by
  obtain ⟨hwins, hlosses, hwin, hloss, htotal⟩ := account_totals l
  obtain ⟨hwins', hlosses', hwin', hloss', htotal'⟩ := account_totals l'
  rw [hwins, hlosses, hwin, hloss, htotal, hwins', hlosses', hwin', hloss', htotal']
  exact ⟨h.countP_eq _, h.countP_eq _, (h.filter _).sum_eq, congrArg _ (h.filter _).sum_eq, h.sum_eq⟩

theorem exTop3_eq (total : ℚ) (l : List ℚ) :
    exTop3 total l = total - ((l.take 3).filter fun x => decide (0 < x)).sum := by
  have hfold : ∀ (l : List ℚ) (total : ℚ), l.foldl (fun x pnl => if Dbl.lt (ofRat 0) pnl then x - pnl else x) total =
      total - (l.filter fun x => decide (0 < x)).sum := by
    intro l
    induction l with
    | nil => exact fun total => (sub_zero total).symm
    | cons x l ih =>
      intro total
      have hlt : Dbl.lt (ofRat 0 : ℚ) x = decide (0 < x) := rfl
      rw [List.foldl_cons, ih, hlt]
      by_cases hx : 0 < x
      · simp [hx]
        ring
      · simp [hx]
  exact hfold _ _

/-! ## The report -/

/-- The two sorts of `trade_stats`. -/
structure Sorts (sortRows : List (TradeRow ℚ) → List (TradeRow ℚ)) (sortPnls : List ℚ → List ℚ) : Prop where
  rows : Lib.SortsBy (fun a b => decide (a.exitNs < b.exitNs)) sortRows
  pnls : Lib.SortsBy (fun a b => Dbl.lt b a) sortPnls

variable {sortRows : List (TradeRow ℚ) → List (TradeRow ℚ)} {sortPnls : List ℚ → List ℚ}

/-- The results that are gains. -/
def gains (rows : List (TradeRow ℚ)) : List ℚ := (rows.map (·.pnlUsd)).filter fun x => decide (0 < x)

theorem total_eq (hs : Sorts sortRows sortPnls) (rows : List (TradeRow ℚ)) :
    (tradeStats sortRows sortPnls rows).total = (rows.map (·.pnlUsd)).sum := by
  obtain ⟨-, -, -, -, -, htotal, -⟩ := tradeStats_account sortRows sortPnls hs.rows.nil rows
  rw [htotal, (account_totals _).2.2.2.2]
  exact ((hs.rows.perm rows).map _).sum_eq

/-- What the report takes off its total are the three largest gains. -/
theorem totalExTop3_eq (hs : Sorts sortRows sortPnls) (rows : List (TradeRow ℚ)) :
    ∃ top, Lib.Largest 3 (gains rows) top ∧
      (tradeStats sortRows sortPnls rows).totalExTop3 = (tradeStats sortRows sortPnls rows).total - top.sum := by
  let pnls := sortPnls ((sortRows rows).map (·.pnlUsd))
  have hperm : pnls.Perm (rows.map (·.pnlUsd)) := (hs.pnls.perm _).trans ((hs.rows.perm rows).map _)
  have hdesc : pnls.Pairwise fun a b => b ≤ a :=
    (hs.pnls.sorted _).imp fun h => not_lt.mp (of_decide_eq_false h)
  have htake := Lib.take_filter_of_sorted hdesc 0 3
  have hlargest : Lib.Largest 3 (gains rows) ((pnls.take 3).filter fun x => decide (0 < x)) := by
    rw [htake]
    exact Lib.largest_take (hperm.filter _) (hdesc.filter _) 3
  refine ⟨_, hlargest, ?_⟩
  cases rows with
  | nil =>
    have hnil : pnls = [] := hperm.eq_nil
    rw [hnil]
    exact (sub_zero _).symm
  | cons t rows => exact exTop3_eq _ _

theorem top_nonneg {rows : List (TradeRow ℚ)} {top : List ℚ} {k : Nat} (h : Lib.Largest k (gains rows) top) : 0 ≤ top.sum := by
  obtain ⟨rest, hperm, -⟩ := h.rest
  refine List.sum_nonneg fun x hx => ?_
  have hmem : x ∈ gains rows := hperm.mem_iff.mp (List.mem_append_left _ hx)
  exact (of_decide_eq_true (List.mem_filter.mp hmem).2).le

theorem totalExTop3_perm (hs : Sorts sortRows sortPnls) {rows rows' : List (TradeRow ℚ)} (h : rows.Perm rows') :
    (tradeStats sortRows sortPnls rows).totalExTop3 = (tradeStats sortRows sortPnls rows').totalExTop3 := by
  obtain ⟨top, htop, heq⟩ := totalExTop3_eq hs rows
  obtain ⟨top', htop', heq'⟩ := totalExTop3_eq hs rows'
  rw [heq, heq', total_eq hs, total_eq hs, (h.map _).sum_eq, htop.sum_eq htop' ((h.map _).filter _)]

/-- A journal of the trades: their exits and their results, in any order. -/
def Journals (rows : List (TradeRow ℚ)) (ts : List (PaperTrade ℚ)) : Prop :=
  (rows.map fun r => (r.exitNs, r.pnlUsd)).Perm (ts.map fun t => (t.exitNs, t.pnlUsd))

/-- Trades in the order of their exits are added up in that order. -/
theorem sortRows_eq (hs : Sorts sortRows sortPnls) {rows : List (TradeRow ℚ)} {ts : List (PaperTrade ℚ)} (hrows : Journals rows ts)
    (hd : (ts.map (·.exitNs)).Nodup) (hsorted : ts.Pairwise fun t t' => t.exitNs ≤ t'.exitNs) :
    (sortRows rows).map (·.pnlUsd) = ts.map (·.pnlUsd) := by
  have hperm : ((sortRows rows).map fun r => (r.exitNs, r.pnlUsd)).Perm (ts.map fun t => (t.exitNs, t.pnlUsd)) :=
    ((hs.rows.perm rows).map _).trans hrows
  have hleft : ((sortRows rows).map fun r => (r.exitNs, r.pnlUsd)).Pairwise fun a b => a.1.toNat ≤ b.1.toNat := by
    refine List.pairwise_map.mpr ((hs.rows.sorted rows).imp fun h => ?_)
    exact UInt64.le_iff_toNat_le.mp (UInt64.not_lt.mp (of_decide_eq_false h))
  have hright : (ts.map fun t => (t.exitNs, t.pnlUsd)).Pairwise fun a b => a.1.toNat ≤ b.1.toNat :=
    List.pairwise_map.mpr (hsorted.imp UInt64.le_iff_toNat_le.mp)
  have hkeys : (((sortRows rows).map fun r => (r.exitNs, r.pnlUsd)).map fun a => a.1.toNat).Nodup := by
    rw [(hperm.map _).nodup_iff, List.map_map]
    have hnat : ts.map (fun t => t.exitNs.toNat) = (ts.map (·.exitNs)).map UInt64.toNat := by rw [List.map_map]; rfl
    exact hnat ▸ hd.map fun _ _ => UInt64.toNat_inj.mp
  have heq := congrArg (List.map Prod.snd) (Lib.eq_of_sorted_keys hperm hleft hright hkeys)
  rwa [List.map_map, List.map_map] at heq

/-- The report of the trades of a run, whatever their order, has the trader's counts and sums; and its drawdown,
while the clock does not go back. The total without the three largest gains is what it says for every list. -/
theorem report_agrees (cfg : PaperConfig ℚ) (calls : List (Call ℚ)) (hs : Sorts sortRows sortPnls)
    (hd : ((closedTrades (run cfg calls).2).map (·.exitNs)).Nodup) (rows : List (TradeRow ℚ))
    (hrows : Journals rows (closedTrades (run cfg calls).2)) :
    let st := (run cfg calls).1.st
    let rep := tradeStats sortRows sortPnls rows
    (rep.n = st.closed ∧ rep.wins = st.wins ∧ rep.losses = st.losses ∧ rep.grossWin = st.grossWin ∧
        rep.grossLoss = st.grossLoss ∧ rep.total = st.realized ∧
        ((calls.map Call.now).Pairwise (· ≤ ·) → rep.maxDrawdown = st.maxDrawdown)) ∧
      ∀ trades : List (TradeRow ℚ),
        (∃ top, Lib.Largest 3 (gains trades) top ∧
          (tradeStats sortRows sortPnls trades).totalExTop3 = (tradeStats sortRows sortPnls trades).total - top.sum) ∧
        (tradeStats sortRows sortPnls trades).totalExTop3 ≤ (tradeStats sortRows sortPnls trades).total ∧
        ∀ trades', trades.Perm trades' →
          (tradeStats sortRows sortPnls trades).totalExTop3 = (tradeStats sortRows sortPnls trades').totalExTop3 := by
  intro st rep
  obtain ⟨hclosed, haccount⟩ := agrees_after cfg calls
  obtain ⟨hn, hwins, hlosses, hwin, hloss, htotal, hdrawdown⟩ := tradeStats_account sortRows sortPnls hs.rows.nil rows
  have hpnls : ((sortRows rows).map (·.pnlUsd)).Perm (pnls (run cfg calls).2) := by
    have hmap := hrows.map Prod.snd
    rw [List.map_map, List.map_map] at hmap
    exact ((hs.rows.perm rows).map _).trans hmap
  obtain ⟨hwins', hlosses', hwin', hloss', htotal'⟩ := account_perm hpnls
  rw [← haccount] at hwins' hlosses' hwin' hloss' htotal'
  refine ⟨⟨?_, hwins.trans hwins', hlosses.trans hlosses', hwin.trans hwin', hloss.trans hloss', htotal.trans htotal',
    fun hclock => ?_⟩, fun trades => ?_⟩
  · have hlen := hrows.length_eq
    rw [List.length_map, List.length_map] at hlen
    exact hn.trans (hlen.trans hclosed.symm)
  · have hsame := sortRows_eq hs hrows hd (exits_sorted cfg hclock)
    rw [hdrawdown, hsame]
    exact (congrArg Account.maxDrawdown haccount).symm
  · obtain ⟨top, htop, heq⟩ := totalExTop3_eq hs trades
    refine ⟨⟨top, htop, heq⟩, ?_, fun trades' hperm => totalExTop3_perm hs hperm⟩
    rw [heq]
    exact sub_le_self _ (top_nonneg htop)

/-! ## Samples -/

def exitSort : List (TradeRow ℚ) → List (TradeRow ℚ) := List.insertionSort fun a b => a.exitNs.toNat ≤ b.exitNs.toNat

def pnlSort : List ℚ → List ℚ := List.insertionSort fun a b => -a ≤ -b

theorem sorts_insertion : Sorts exitSort pnlSort where
  rows :=
    { perm := (Lib.sortsBy_insertionSort fun r : TradeRow ℚ => r.exitNs.toNat).perm
      sorted := fun l => ((Lib.sortsBy_insertionSort fun r : TradeRow ℚ => r.exitNs.toNat).sorted l).imp fun h =>
        decide_eq_false fun hlt => of_decide_eq_false h (UInt64.lt_iff_toNat_lt.mp hlt) }
  pnls :=
    { perm := (Lib.sortsBy_insertionSort fun x : ℚ => -x).perm
      sorted := fun l => ((Lib.sortsBy_insertionSort fun x : ℚ => -x).sorted l).imp fun h =>
        decide_eq_false fun hlt => of_decide_eq_false h (neg_lt_neg hlt) }

/-- The row of a trade. -/
def rowOf (t : PaperTrade ℚ) : TradeRow ℚ :=
  { exitNs := t.exitNs, pnlUsd := t.pnlUsd, pnlPct := t.pnlPct, mfe := t.mfePct, mae := t.maePct
    holdS := (t.exitNs - t.entryNs).toNat / 1000000000 }

theorem journals_rowOf (ts : List (PaperTrade ℚ)) : Journals (ts.map rowOf) ts := by
  unfold Journals
  rw [List.map_map]
  rfl

/-- The report of a run. -/
def reportOf (calls : List (Call ℚ)) : TradeStats ℚ := tradeStats exitSort pnlSort ((closedTrades (run {} calls).2).map rowOf)

theorem report_agrees_once :
    (reportOf tradeOnce).n = 1 ∧ (reportOf tradeOnce).total = (run {} tradeOnce).1.st.realized ∧
      (reportOf tradeOnce).maxDrawdown = (run {} tradeOnce).1.st.maxDrawdown := by
  obtain ⟨⟨-, -, -, -, -, htotal, hdrawdown⟩, -⟩ := report_agrees {} tradeOnce sorts_insertion (by decide +kernel) _
    (journals_rowOf (closedTrades (run {} tradeOnce).2))
  exact ⟨by decide +kernel, htotal, hdrawdown (by decide)⟩

/-- A loss, a gain and a loss, the last of them after the clock went back by five seconds. -/
def clockBack : List (Call ℚ) :=
  [.signal (alertAt 0 2) 0, .step 1000000000 (quotes 19900 20000 0 0), .step 2000000000 (quotes 18000 18100 0 0),
   .signal (alertAt 0 2) 3000000000, .step 4000000000 (quotes 19900 20000 0 0), .step 10000000000 (quotes 30000 30100 0 0),
   .signal (alertAt 0 2) 5000000000, .step 6000000000 (quotes 19900 20000 0 0), .step 7000000000 (quotes 18000 18100 0 0)]

/-- The report sorts the two losses together. -/
theorem report_clock_back :
    Sorts exitSort pnlSort ∧ ((closedTrades (run {} clockBack).2).map (·.exitNs)).Nodup ∧
      Journals ((closedTrades (run {} clockBack).2).map rowOf) (closedTrades (run {} clockBack).2) ∧
      (run {} clockBack).1.st.maxDrawdown < (reportOf clockBack).maxDrawdown :=
  ⟨sorts_insertion, by decide +kernel, journals_rowOf _, by decide +kernel⟩

end Report

end Stok
