import Stok.Market.BaselineText

/-!
# Runs of the baseline store

Appends and rebuilds with one window, in any order. The history stands for the rows of a rolling
window (`run_stored`), so that a rebuild leaves the last sessions of the latest dates, and the
baseline says of each ticker what its rows there come to (`baseline_of_last_sessions`).
-/

namespace Stok.BaselineStore

open Lib

inductive StoreCall where
  | append (date : Bytes) {n : Nat} (board : MarketBoard n) (symbols : SymbolTable ℚ)
  | rebuild

/-- A date and a session of symbols that traded, each once and with a usable ticker. -/
def StoreCall.Ok : StoreCall → Prop
  | .append date board symbols => SessionOk date (sessionRows ℚ board symbols)
  | .rebuild => True

def call (N : Nat) (s : BaselineStore) : StoreCall → BaselineStore
  | .append date board symbols => (s.appendSession ℚ date board symbols).1
  | .rebuild =>
    match rebuild ℚ s N with
    | some (s', _) => s'
    | none => s

def run (N : Nat) (calls : List StoreCall) : BaselineStore := calls.foldl (call N) {}

/-- A call as one on the window. -/
def StoreCall.op : StoreCall → RollingWindow.Op Bytes Entry
  | .append date board symbols => .replace date ((sessionRows ℚ board symbols).map (Prod.mk date))
  | .rebuild => .trim

/-- The rows of the last append of each date. -/
def lastSessions (calls : List StoreCall) : List (Bytes × List Entry) := RollingWindow.lasts (calls.map StoreCall.op)

def lastRows (calls : List StoreCall) : List Entry := (lastSessions calls).flatMap Prod.snd

/-- The `N` latest dates appended. -/
def latestDates (N : Nat) (calls : List StoreCall) : List Bytes :=
  RollingWindow.latest N (OrderedMap.setOf strLt (RollingWindow.keys (calls.map StoreCall.op)))

/-- The rows of the last append of each of the `N` latest dates. -/
def retained (N : Nat) (calls : List StoreCall) : List Entry :=
  ((lastSessions calls).filter fun e => (latestDates N calls).contains e.1).flatMap Prod.snd

/-! ## The files stand for the window -/

/-- The history is the text of `es`; before the first append there is none. -/
structure Stored (s : BaselineStore) (es : List Entry) : Prop where
  text : s.history = none ∧ es = [] ∨ s.history = some (historyText es)
  ok : ∀ e ∈ es, EntryOk e

theorem Stored.getD {s : BaselineStore} {es : List Entry} (h : Stored s es) :
    s.history.getD [] = historyText es := by
  rcases h.text with ⟨hnone, rfl⟩ | hsome
  · rw [hnone]
    rfl
  · rw [hsome]
    rfl

theorem StoreCall.Ok.op {c : StoreCall} (h : c.Ok) : RollingWindow.Op.Ok Prod.fst c.op := by
  cases c with
  | append date board symbols =>
    refine ⟨fun hnil => h.traded (List.map_eq_nil_iff.1 hnil), fun e he => ?_⟩
    obtain ⟨r, -, rfl⟩ := List.mem_map.1 he
    rfl
  | rebuild => trivial

theorem Stored.call {s : BaselineStore} {es : List Entry} (h : Stored s es) (N : Nat) {c : StoreCall}
    (hc : c.Ok) : Stored (call N s c) (RollingWindow.step strLt Prod.fst N es c.op) := by
  cases c with
  | append date board symbols =>
    have happ := append_entries h.ok h.getD hc
    refine ⟨.inr ?_, fun e he => ?_⟩
    · simp only [BaselineStore.call, appendSession, happ]
      rfl
    · rcases List.mem_append.1 he with he | he
      · exact h.ok e (List.mem_filter.1 he).1
      · exact SessionOk.entries hc e he
  | rebuild =>
    rcases h.text with ⟨hnone, rfl⟩ | hsome
    · refine ⟨.inl ⟨?_, rfl⟩, fun e he => absurd he List.not_mem_nil⟩
      simp only [BaselineStore.call, BaselineStore.rebuild, hnone]
    · obtain ⟨report, hre⟩ := rebuild_entries h.ok hsome N
      refine ⟨.inr ?_, fun e he => h.ok e (List.mem_filter.1 he).1⟩
      simp only [BaselineStore.call, hre]
      rfl

theorem run_stored (N : Nat) {calls : List StoreCall} (hok : ∀ c ∈ calls, c.Ok) :
    Stored (run N calls) (RollingWindow.run strLt Prod.fst N (calls.map StoreCall.op)) := by
  induction calls using List.reverseRecOn with
  | nil => exact ⟨.inl ⟨rfl, rfl⟩, fun e he => absurd he List.not_mem_nil⟩
  | append_singleton calls c ih =>
    rw [run, List.foldl_append, List.map_append, RollingWindow.run, List.foldl_append]
    exact (ih fun d hd => hok d (List.mem_append_left _ hd)).call N
      (hok c (List.mem_append_right _ (List.mem_singleton.2 rfl)))

theorem ops_ok {calls : List StoreCall} (hok : ∀ c ∈ calls, c.Ok) :
    ∀ op ∈ calls.map StoreCall.op, RollingWindow.Op.Ok Prod.fst op := by
  intro op hop
  obtain ⟨c, hc, rfl⟩ := List.mem_map.1 hop
  exact (hok c hc).op

/-- A rebuild leaves the retained rows. -/
theorem trim_eq_retained (N : Nat) {calls : List StoreCall} (hok : ∀ c ∈ calls, c.Ok) :
    RollingWindow.trim strLt Prod.fst N (RollingWindow.run strLt Prod.fst N (calls.map StoreCall.op)) =
      retained N calls := by
  have hrun := RollingWindow.run_trim strLt N (ops_ok hok)
  rw [RollingWindow.run, List.foldl_append] at hrun
  refine hrun.trans ?_
  unfold retained latestDates
  refine congrArg (List.flatMap _) (List.filter_congr fun e _ => ?_)
  rw [List.contains_eq_mem, decide_eq_decide]

/-! ## What a ticker's rows come to -/

/-- A row of the baseline. -/
structure Stat where
  prevClose : ℚ
  adv : ℚ
  days : Nat
  asof : Bytes

def statRow (t : Bytes) (st : Stat) : Bytes :=
  [9].intercalate [t, Dbl.fixed 4 st.prevClose, Dbl.fixed 0 st.adv, Dbl.digits st.days, st.asof] ++ [10]

/-- The mean volume and the number of the rows of `t`, and the close of the latest of them. -/
structure IsStat (es : List Entry) (t : Bytes) (st : Stat) : Prop where
  adv : st.adv = ((es.filter fun e => e.2.ticker = t).map fun e => (e.2.volume.toNat : ℚ)).sum /
    (es.filter fun e => e.2.ticker = t).length
  days : st.days = (es.filter fun e => e.2.ticker = t).length
  last : ∃ e ∈ es, e.2.ticker = t ∧ st.asof = e.1 ∧ st.prevClose = dollars e.2 ∧
    ∀ d ∈ es, d.2.ticker = t → ¬ strLt e.1 d.1

theorem foldl_entryStep (l : List Entry) :
    (l.foldl entryStep {}).n = UInt32.ofNat l.length ∧
    (l.foldl entryStep {}).volSum = (l.map fun e => (e.2.volume.toNat : ℚ)).sum ∧
    (l ≠ [] → ∃ e ∈ l, (l.foldl entryStep {}).lastDate = e.1 ∧ (l.foldl entryStep {}).lastClose = dollars e.2 ∧
      ∀ d ∈ l, ¬ strLt e.1 d.1) := by
  induction l using List.reverseRecOn with
  | nil => exact ⟨rfl, rfl, fun h => absurd rfl h⟩
  | append_singleton l r ih =>
    obtain ⟨hn, hvol, hlast⟩ := ih
    obtain ⟨a, ha⟩ : ∃ a : Acc ℚ, l.foldl entryStep {} = a := ⟨_, rfl⟩
    rw [ha] at hn hvol hlast
    rw [List.foldl_append, ha, List.foldl_cons, List.foldl_nil]
    refine ⟨?_, ?_, fun _ => ?_⟩
    · have hstep : (entryStep a r).n = a.n + 1 := by
        unfold entryStep
        dsimp only
        split <;> rfl
      rw [hstep, hn, List.length_append, List.length_singleton, UInt32.ofNat_add]
      rfl
    · have hstep : (entryStep a r).volSum = a.volSum + r.2.volume.toNat := by
        unfold entryStep
        dsimp only
        split <;> rfl
      rw [hstep, hvol, List.map_append, List.sum_append, List.map_singleton, List.sum_singleton]
    · by_cases hlt : strLt r.1 a.lastDate
      · -- an older row: there was a row before, and it stays the last
        have hne : l ≠ [] := by
          rintro rfl
          rw [← ha] at hlt
          exact List.not_lt_nil _ hlt
        obtain ⟨e, he, hdate, hclose, hmax⟩ := hlast hne
        have hstep : entryStep a r = { a with volSum := a.volSum + r.2.volume.toNat, n := a.n + 1 } := if_pos hlt
        refine ⟨e, List.mem_append_left _ he, by rw [hstep]; exact hdate, by rw [hstep]; exact hclose, ?_⟩
        intro d hd
        rcases List.mem_append.1 hd with hd | hd
        · exact hmax d hd
        · rw [List.mem_singleton.1 hd, ← hdate]
          exact asymm_of strLt hlt
      · refine ⟨r, List.mem_append_right _ (List.mem_singleton.2 rfl), ?_, ?_, ?_⟩
        · unfold entryStep
          exact congrArg Acc.lastDate (if_neg hlt)
        · unfold entryStep
          exact congrArg Acc.lastClose (if_neg hlt)
        · intro d hd hrd
          rcases List.mem_append.1 hd with hd | hd
          · obtain ⟨e, he, hdate, -, hmax⟩ := hlast (List.ne_nil_of_mem hd)
            rw [hdate] at hlt
            rcases trichotomous_of strLt d.1 e.1 with hde | hde | hed
            · exact hlt (trans_of strLt hrd hde)
            · exact hlt (hde ▸ hrd)
            · exact hmax d hd hed
          · rw [List.mem_singleton.1 hd] at hrd
            exact irrefl_of strLt _ hrd

/-! ## The retained rows -/

theorem lastSessions_ok {calls : List StoreCall} (hok : ∀ c ∈ calls, c.Ok) :
    ∀ x ∈ lastSessions calls, ∃ session, SessionOk x.1 session ∧ x.2 = session.map (Prod.mk x.1) := by
  rintro ⟨date, new⟩ hx
  obtain ⟨c, hc, hop⟩ := List.mem_map.1 (RollingWindow.replace_mem_of_lasts hx)
  cases c with
  | append date' board symbols =>
    obtain ⟨rfl, rfl⟩ : date' = date ∧ (sessionRows ℚ board symbols).map (Prod.mk date') = new := by
      simpa [StoreCall.op] using hop
    exact ⟨_, hok _ hc, rfl⟩
  | rebuild => cases hop

theorem retained_eq_filter (N : Nat) {calls : List StoreCall} (hok : ∀ c ∈ calls, c.Ok) :
    retained N calls = (lastRows calls).filter fun e => (latestDates N calls).contains e.1 :=
  (RollingWindow.filter_flatMap_rows (RollingWindow.lasts_rows (ops_ok hok))
    fun d => (latestDates N calls).contains d).symm

/-- A ticker has one row for a date. -/
theorem nodup_lastRows {calls : List StoreCall} (hok : ∀ c ∈ calls, c.Ok) :
    ((lastRows calls).map fun e => (e.1, e.2.ticker)).Nodup := by
  have hdates := RollingWindow.nodup_lasts (calls.map StoreCall.op)
  rw [lastRows, List.map_flatMap, List.nodup_flatMap]
  refine ⟨fun x hx => ?_, ?_⟩
  · obtain ⟨session, hsession, hrows⟩ := lastSessions_ok hok x hx
    rw [hrows, List.map_map]
    have : (fun e : Entry => (e.1, e.2.ticker)) ∘ Prod.mk x.1 = Prod.mk x.1 ∘ DayRow.ticker := rfl
    rw [this, ← List.map_map]
    exact hsession.unique.map (Prod.mk_right_injective x.1)
  · refine List.Pairwise.imp_of_mem (fun {x y} hx hy hxy => ?_) (List.pairwise_map.1 hdates)
    intro p hpx hpy
    obtain ⟨e, he, rfl⟩ := List.mem_map.1 hpx
    obtain ⟨d, hd, heq⟩ := List.mem_map.1 hpy
    have hex := RollingWindow.lasts_rows (ops_ok hok) x hx e he
    have hdy := RollingWindow.lasts_rows (ops_ok hok) y hy d hd
    exact hxy (hex.symm.trans ((congrArg Prod.fst heq).symm.trans hdy))

theorem lastRows_ok {calls : List StoreCall} (hok : ∀ c ∈ calls, c.Ok) : ∀ e ∈ lastRows calls, EntryOk e := by
  intro e he
  obtain ⟨x, hx, he⟩ := List.mem_flatMap.1 he
  obtain ⟨session, hsession, hrows⟩ := lastSessions_ok hok x hx
  rw [hrows] at he
  exact hsession.entries e he

/-- A ticker has at most one row for each date that is kept. -/
theorem length_rows_le (N : Nat) {calls : List StoreCall} (hok : ∀ c ∈ calls, c.Ok) (t : Bytes) :
    ((retained N calls).filter fun e => e.2.ticker = t).length ≤ N := by
  have hnodup : (((retained N calls).filter fun e => e.2.ticker = t).map Prod.fst).Nodup := by
    have hpairs : (((retained N calls).filter fun e => e.2.ticker = t).map fun e => (e.1, e.2.ticker)).Nodup := by
      rw [retained_eq_filter N hok]
      exact (nodup_lastRows hok).sublist ((List.filter_sublist.trans List.filter_sublist).map _)
    have hmap : ((retained N calls).filter fun e => e.2.ticker = t).map (fun e => (e.1, e.2.ticker)) =
        (((retained N calls).filter fun e => e.2.ticker = t).map Prod.fst).map fun d => (d, t) := by
      rw [List.map_map]
      refine List.map_congr_left fun e he => ?_
      rw [Function.comp_apply, of_decide_eq_true (List.mem_filter.1 he).2]
    rw [hmap] at hpairs
    exact hpairs.of_map _
  have hsub : ((retained N calls).filter fun e => e.2.ticker = t).map Prod.fst ⊆ latestDates N calls := by
    intro d hd
    obtain ⟨e, he, rfl⟩ := List.mem_map.1 hd
    have hret := (List.mem_filter.1 he).1
    rw [retained_eq_filter N hok] at hret
    exact List.contains_iff_mem.1 (List.mem_filter.1 hret).2
  have hlen := (List.subperm_of_subset hnodup hsub).length_le
  rw [List.length_map] at hlen
  refine hlen.trans ?_
  rw [latestDates, RollingWindow.latest, List.length_drop]
  omega

/-! ## The baseline -/

def statOf (es : List Entry) (t : Bytes) : Stat where
  prevClose := (accOf es t).lastClose
  adv := (accOf es t).volSum / (es.filter fun e => e.2.ticker = t).length
  days := (es.filter fun e => e.2.ticker = t).length
  asof := (accOf es t).lastDate

theorem rows_ne_nil {es : List Entry} {t : Bytes} (ht : t ∈ tickers es) :
    (es.filter fun e => e.2.ticker = t) ≠ [] := by
  obtain ⟨e, he, rfl⟩ := List.mem_map.1 ((OrderedMap.mem_setOf strLt).1 ht)
  exact List.ne_nil_of_mem (List.mem_filter.2 ⟨he, decide_eq_true rfl⟩)

theorem isStat_statOf {es : List Entry} {t : Bytes} (ht : t ∈ tickers es) : IsStat es t (statOf es t) := by
  obtain ⟨-, hvol, hlast⟩ := foldl_entryStep (es.filter fun e => e.2.ticker = t)
  obtain ⟨e, he, hdate, hclose, hmax⟩ := hlast (rows_ne_nil ht)
  obtain ⟨hmem, hticker⟩ := List.mem_filter.1 he
  refine ⟨congrArg (· / _) hvol, rfl, e, hmem, of_decide_eq_true hticker, hdate, hclose, fun d hd hdt => ?_⟩
  exact hmax d (List.mem_filter.2 ⟨hd, decide_eq_true hdt⟩)

theorem length_fixed_zero {q : ℚ} (h0 : 0 ≤ q) (h : q ≤ (2 ^ 64 - 1 : Nat)) : (Dbl.fixed 0 q).length ≤ 20 := by
  have hsign : Dbl.signBit q = false := decide_eq_false (not_lt.2 h0)
  have hround : Dbl.roundEven (|q| * 10 ^ 0) ≤ 2 ^ 64 - 1 := by
    rw [pow_zero, mul_one]
    exact roundEven_le (abs_nonneg q) (by rwa [abs_of_nonneg h0])
  have hrat : Dbl.toRat q = q := rfl
  unfold Dbl.fixed
  rw [hsign, hrat]
  simp only [Bool.false_eq_true, if_false, if_true, List.nil_append, List.append_nil, Nat.pow_zero, Nat.div_one]
  exact Dbl.length_digits_le (by decide) (by omega)

/-- A mean of volumes is one that fits into 64 bits. -/
theorem mean_bounds {l : List Entry} (hne : l ≠ []) :
    0 ≤ (l.map fun e => (e.2.volume.toNat : ℚ)).sum / l.length ∧
      (l.map fun e => (e.2.volume.toNat : ℚ)).sum / l.length ≤ (2 ^ 64 - 1 : Nat) := by
  have hpos : (0 : ℚ) < l.length := by exact_mod_cast List.length_pos_iff.2 hne
  have hsum : (0 : ℚ) ≤ (l.map fun e => (e.2.volume.toNat : ℚ)).sum := by
    refine List.sum_nonneg fun x hx => ?_
    obtain ⟨e, -, rfl⟩ := List.mem_map.1 hx
    exact Nat.cast_nonneg _
  refine ⟨div_nonneg hsum hpos.le, ?_⟩
  rw [div_le_iff₀ hpos, mul_comm]
  have hle := List.sum_le_card_nsmul (l.map fun e => (e.2.volume.toNat : ℚ)) ((2 ^ 64 - 1 : Nat) : ℚ) fun x hx => by
    obtain ⟨e, -, rfl⟩ := List.mem_map.1 hx
    have := e.2.volume.toNat_lt
    exact_mod_cast (by omega : e.2.volume.toNat ≤ 2 ^ 64 - 1)
  rwa [List.length_map, nsmul_eq_mul] at hle

theorem baselineRow_eq {es : List Entry} (hes : ∀ e ∈ es, EntryOk e) {t : Bytes} (ht : t ∈ tickers es)
    (hlen : (es.filter fun e => e.2.ticker = t).length < 2 ^ 31) :
    baselineRow t (accOf es t) = statRow t (statOf es t) := by
  obtain ⟨hn, hvol, -⟩ := foldl_entryStep (es.filter fun e => e.2.ticker = t)
  have hne := rows_ne_nil ht
  have hcount : (accOf es t).n.toNat = (es.filter fun e => e.2.ticker = t).length := by
    have hn' : (accOf es t).n = UInt32.ofNat (es.filter fun e => e.2.ticker = t).length := hn
    rw [hn', UInt32.toNat_ofNat']
    omega
  have hpos := List.length_pos_iff.2 hne
  have hn0 : (accOf es t).n ≠ 0 := by
    intro h0
    rw [h0] at hcount
    exact absurd hcount (by rw [UInt32.toNat_zero]; omega)
  obtain ⟨e, he, hticker, hasof, hclose, -⟩ := (isStat_statOf ht).last
  have hdate := (hes e he).date
  have htick := (hes e he).ticker
  rw [hticker] at htick
  have hmean : (statOf es t).adv = (accOf es t).volSum / Dbl.ofRat ((accOf es t).n.toNat : ℚ) := by
    rw [hcount]
    rfl
  have hadv := mean_bounds hne
  rw [← (isStat_statOf ht).adv] at hadv
  have hlast : cstr (accOf es t).lastDate = (statOf es t).asof := by
    rw [statOf, cstr_eq_self]
    have : (accOf es t).lastDate = e.1 := hasof
    rw [this]
    exact fun h0 => (hdate.plain _ h0).ne.1 rfl
  unfold baselineRow
  rw [if_pos hn0, cstr_eq_self htick.nulFree, hlast, ← hmean, hcount]
  refine List.take_of_length_le (i := 159) ?_
  have hpx := length_fixed_dollars e.2
  have hav := length_fixed_zero hadv.1 hadv.2
  have hdg : (Dbl.digits (es.filter fun e => e.2.ticker = t).length).length ≤ 10 :=
    Dbl.length_digits_le (by decide) (by omega)
  have hsh := htick.short
  have hdl := hdate.length
  have hcl : (accOf es t).lastClose = dollars e.2 := hclose
  rw [hcl, hasof]
  have hfive : ∀ a b c d e : Bytes, ([9].intercalate [a, b, c, d, e] ++ [10]).length =
      a.length + b.length + c.length + d.length + e.length + 5 := by
    intro a b c d e
    simp only [List.intercalate, List.intersperse_cons_cons, List.intersperse_singleton, List.flatten_cons, List.flatten_nil,
      List.length_append, List.length_cons, List.length_nil]
    omega
  rw [hfive]
  omega

/-- What a ticker's rows come to does not depend on their order. -/
theorem IsStat.unique {es es' : List Entry} (hperm : es.Perm es')
    (hunique : (es.map fun e => (e.1, e.2.ticker)).Nodup) {t : Bytes} {st st' : Stat} (h : IsStat es t st)
    (h' : IsStat es' t st') : st = st' := by
  have hrows := hperm.filter fun e => decide (e.2.ticker = t)
  have hadv : st.adv = st'.adv := by rw [h.adv, h'.adv, (hrows.map _).sum_eq, hrows.length_eq]
  have hdays : st.days = st'.days := by rw [h.days, h'.days, hrows.length_eq]
  obtain ⟨e, he, het, hasof, hclose, hmax⟩ := h.last
  obtain ⟨d, hd, hdt, hasof', hclose', hmax'⟩ := h'.last
  rw [← hperm.mem_iff] at hd
  have hdate : e.1 = d.1 := by
    have hle : ¬ strLt e.1 d.1 := hmax d hd hdt
    exact OrderedMap.eq_of_not_lt hle (hmax' e (hperm.mem_iff.1 he) het)
  have hed : e = d := List.inj_on_of_nodup_map hunique he hd (Prod.ext hdate (het.trans hdt.symm))
  cases st
  cases st'
  simp_all

theorem mem_keys_iff {calls : List StoreCall} (hok : ∀ c ∈ calls, c.Ok) {d : Bytes} :
    d ∈ RollingWindow.keys (calls.map StoreCall.op) ↔ ∃ e ∈ lastRows calls, e.1 = d := by
  rw [RollingWindow.mem_keys_iff]
  constructor
  · rintro ⟨new, hnew⟩
    obtain ⟨session, hsession, hrows⟩ := lastSessions_ok hok _ hnew
    obtain ⟨r, hr⟩ := List.exists_mem_of_ne_nil session hsession.traded
    refine ⟨(d, r), List.mem_flatMap.2 ⟨_, hnew, ?_⟩, rfl⟩
    rw [hrows]
    exact List.mem_map_of_mem hr
  · rintro ⟨e, he, rfl⟩
    obtain ⟨x, hx, he⟩ := List.mem_flatMap.1 he
    have hkey : e.1 = x.1 := RollingWindow.lasts_rows (ops_ok hok) x hx e he
    rw [hkey]
    exact ⟨x.2, hx⟩

theorem retained_perm (N : Nat) {calls calls' : List StoreCall} (hok : ∀ c ∈ calls, c.Ok)
    (hok' : ∀ c ∈ calls', c.Ok) (hsame : ∀ e, e ∈ lastRows calls ↔ e ∈ lastRows calls') :
    (retained N calls).Perm (retained N calls') := by
  have hdates : latestDates N calls = latestDates N calls' := by
    refine congrArg (RollingWindow.latest N) (OrderedMap.setOf_ext strLt fun d => ?_)
    simp only [mem_keys_iff hok, mem_keys_iff hok', hsame]
  rw [retained_eq_filter N hok, retained_eq_filter N hok', hdates]
  exact ((List.perm_ext_iff_of_nodup (nodup_lastRows hok).of_map (nodup_lastRows hok').of_map).2 hsame).filter _

theorem baselineText_eq (N : Nat) (hN : N < 2 ^ 31) {calls : List StoreCall} (hok : ∀ c ∈ calls, c.Ok) :
    baselineText (retained N calls) =
      header ++ (tickers (retained N calls)).flatMap fun t => statRow t (statOf (retained N calls) t) := by
  refine congrArg (header ++ ·) (List.flatMap_congr fun t ht => baselineRow_eq (fun e he => ?_) ht ?_)
  · rw [retained_eq_filter N hok] at he
    exact lastRows_ok hok e (List.mem_filter.1 he).1
  · exact (length_rows_le N hok t).trans_lt hN

/-- Without an append there is no file. -/
theorem run_of_no_rows (N : Nat) {calls : List StoreCall} (hok : ∀ c ∈ calls, c.Ok) (h : lastRows calls = []) :
    run N calls = {} := by
  have hkeys : RollingWindow.keys (calls.map StoreCall.op) = [] := by
    refine List.eq_nil_iff_forall_not_mem.2 fun d hd => ?_
    obtain ⟨e, he, -⟩ := (mem_keys_iff hok).1 hd
    rw [h] at he
    exact List.not_mem_nil he
  clear h hok
  induction calls using List.reverseRecOn with
  | nil => rfl
  | append_singleton calls c ih =>
    rw [List.map_append, RollingWindow.keys_append, List.append_eq_nil_iff] at hkeys
    rw [run, List.foldl_append, ← run, ih hkeys.1]
    cases c with
    | append date board symbols => exact absurd hkeys.2 (List.cons_ne_nil _ _)
    | rebuild => rfl

theorem history_ne_none (N : Nat) {calls : List StoreCall} (hok : ∀ c ∈ calls, c.Ok) (h : lastRows calls ≠ []) :
    (run N calls).history ≠ none := by
  induction calls using List.reverseRecOn with
  | nil => exact absurd rfl h
  | append_singleton calls c ih =>
    have hcalls : ∀ c ∈ calls, c.Ok := fun d hd => hok d (List.mem_append_left _ hd)
    rw [run, List.foldl_append, ← run]
    cases c with
    | append date board symbols =>
      have hc := hok _ (List.mem_append_right _ (List.mem_singleton.2 rfl))
      have hstored := run_stored N hcalls
      simp only [List.foldl_cons, List.foldl_nil, call, appendSession, append_entries hstored.ok hstored.getD hc]
      exact Option.some_ne_none _
    | rebuild =>
      have hrows : lastRows (calls ++ [.rebuild]) = lastRows calls := by
        unfold lastRows lastSessions
        rw [List.map_append]
        exact congrArg (List.flatMap _) (RollingWindow.lasts_concat_trim _)
      rw [hrows] at h
      obtain ⟨hist, hhist⟩ := Option.ne_none_iff_exists'.1 (ih hcalls h)
      simp only [List.foldl_cons, List.foldl_nil, call, rebuild, hhist]
      exact Option.some_ne_none _

/-- A rebuild after an append leaves the retained rows and their baseline. -/
theorem run_rebuild (N : Nat) {calls : List StoreCall} (hok : ∀ c ∈ calls, c.Ok) (h : lastRows calls ≠ []) :
    run N (calls ++ [.rebuild]) =
      { history := some (historyText (retained N calls)), baseline := some (baselineText (retained N calls)) } := by
  have hstored := run_stored N hok
  have hrun : run N (calls ++ [.rebuild]) = call N (run N calls) .rebuild := by
    rw [run, List.foldl_append]
    rfl
  rw [hrun, call]
  rcases hstored.text with ⟨hnone, -⟩ | hsome
  · exact absurd hnone (history_ne_none N hok h)
  · obtain ⟨report, hre⟩ := rebuild_entries hstored.ok hsome N
    rw [hre, trim_eq_retained N hok]

theorem retained_rebuild (N : Nat) (calls : List StoreCall) :
    lastRows (calls ++ [.rebuild]) = lastRows calls ∧ retained N (calls ++ [.rebuild]) = retained N calls := by
  have hlast : lastSessions (calls ++ [.rebuild]) = lastSessions calls := by
    unfold lastSessions
    rw [List.map_append]
    exact RollingWindow.lasts_concat_trim _
  have hdates : latestDates N (calls ++ [.rebuild]) = latestDates N calls := by
    unfold latestDates
    rw [List.map_append, RollingWindow.keys_append]
    exact congrArg (fun l => RollingWindow.latest N (OrderedMap.setOf strLt l)) (List.append_nil _)
  refine ⟨congrArg (fun l => l.flatMap Prod.snd) hlast, ?_⟩
  unfold retained
  rw [hlast, hdates]

theorem ok_rebuild {calls : List StoreCall} (hok : ∀ c ∈ calls, c.Ok) : ∀ c ∈ calls ++ [.rebuild], c.Ok := by
  intro c hc
  rcases List.mem_append.1 hc with hc | hc
  · exact hok c hc
  · rw [List.mem_singleton.1 hc]
    trivial

/-- After calls that end in a rebuild the history has exactly the rows of the last append of each of the
`N` latest dates, and the baseline says of each ticker the mean volume and the number of its
rows there and the close of the latest. A second rebuild changes nothing, and other calls with the same last
rows give the same baseline. -/
theorem baseline_of_last_sessions {N : Nat} (hN : N < 2 ^ 31) {calls : List StoreCall} (hok : ∀ c ∈ calls, c.Ok) :
    (run N (calls ++ [.rebuild])).history.getD [] = historyText (retained N calls) ∧
    (lastRows calls ≠ [] → ∃ stat : Bytes → Stat,
      (run N (calls ++ [.rebuild])).baseline =
          some (header ++ (tickers (retained N calls)).flatMap fun t => statRow t (stat t)) ∧
        ∀ t ∈ tickers (retained N calls), IsStat (retained N calls) t (stat t)) ∧
    run N (calls ++ [.rebuild, .rebuild]) = run N (calls ++ [.rebuild]) ∧
    ∀ calls' : List StoreCall, (∀ c ∈ calls', c.Ok) → (∀ e, e ∈ lastRows calls ↔ e ∈ lastRows calls') →
      (run N (calls' ++ [.rebuild])).baseline = (run N (calls ++ [.rebuild])).baseline := by
  have hrebuild := ok_rebuild hok
  obtain ⟨hrows, hret⟩ := retained_rebuild N calls
  have hnil : lastRows calls = [] → run N (calls ++ [.rebuild]) = {} ∧ retained N calls = [] := by
    intro h
    refine ⟨run_of_no_rows N hrebuild (hrows.trans h), ?_⟩
    rw [retained_eq_filter N hok, h]
    rfl
  have htwo : run N (calls ++ [.rebuild, .rebuild]) = run N ((calls ++ [.rebuild]) ++ [.rebuild]) := by
    rw [List.append_assoc]
    rfl
  refine ⟨?_, fun h => ⟨statOf (retained N calls), ?_, fun t ht => isStat_statOf ht⟩, ?_, fun calls' hok' hsame => ?_⟩
  · by_cases h : lastRows calls = []
    · rw [(hnil h).1, (hnil h).2]
      rfl
    · rw [run_rebuild N hok h]
      rfl
  · rw [run_rebuild N hok h, baselineText_eq N hN hok]
  · rw [htwo]
    by_cases h : lastRows calls = []
    · rw [(hnil h).1, run, List.foldl_append, ← run, (hnil h).1]
      rfl
    · rw [run_rebuild N hrebuild (by rwa [hrows]), hret, run_rebuild N hok h]
  · have hempty : lastRows calls' = [] ↔ lastRows calls = [] := by
      simp only [List.eq_nil_iff_forall_not_mem, hsame]
    by_cases h : lastRows calls = []
    · rw [(hnil h).1, run_of_no_rows N (ok_rebuild hok') ((retained_rebuild N calls').1.trans (hempty.2 h))]
    · have hperm := retained_perm N hok hok' hsame
      have hunique : ((retained N calls).map fun e => (e.1, e.2.ticker)).Nodup := by
        rw [retained_eq_filter N hok]
        exact (nodup_lastRows hok).sublist (List.filter_sublist.map _)
      have htickers : tickers (retained N calls') = tickers (retained N calls) :=
        OrderedMap.setOf_ext strLt fun t => (hperm.map _).symm.mem_iff
      rw [run_rebuild N hok h, run_rebuild N hok' (fun h' => h (hempty.1 h')), baselineText_eq N hN hok,
        baselineText_eq N hN hok', htickers]
      refine congrArg (fun x => some (header ++ x)) (List.flatMap_congr fun t ht => ?_)
      rw [(isStat_statOf ht).unique hperm hunique (isStat_statOf (htickers ▸ ht))]

/-! ## Examples -/

def oneSymbol (volume : UInt64) (close : Int) : MarketBoard 1 :=
  { states := fun _ => { hot := { closePx := close, dayVolume := volume } } }

theorem one_symbol_lt (s : SymbolInfo ℚ) : [s].length < 2 ^ 32 := by
  rw [List.length_singleton]
  decide

def named (t : Bytes) : SymbolTable ℚ where
  syms := [{ acme with ticker := t }]
  byNorm := acmeSymbols.byNorm
  size_le := one_symbol_lt _

/-- A day that is replayed after the next one and a rebuild. -/
def replayed : List StoreCall :=
  [.append (lit "2026-01-05") (oneSymbol 100 20000) (named (lit "ACME")),
    .append (lit "2026-01-06") (oneSymbol 300 21000) (named (lit "ACME")), .rebuild,
    .append (lit "2026-01-05") (oneSymbol 200 20000) (named (lit "ACME"))]

theorem replayed_ok : ∀ c ∈ replayed, c.Ok := by
  have hticker : IsTicker (lit "ACME") := ⟨by decide, by decide, by decide, by decide⟩
  have hsession : ∀ {date : Bytes} (volume : UInt64) (close : Int), volume ≠ 0 → IsDate date →
      SessionOk date (sessionRows ℚ (oneSymbol volume close) (named (lit "ACME"))) := by
    intro date volume close hv hdate
    have hrows : sessionRows ℚ (oneSymbol volume close) (named (lit "ACME")) =
        [⟨lit "ACME", volume, Int32.ofInt (closePx { closePx := close, dayVolume := volume })⟩] := by
      have hvol : ((oneSymbol volume close).states 0).hot.dayVolume ≠ 0 := hv
      simp [sessionRows, List.finRange_succ, named, hvol]
      exact ⟨rfl, rfl⟩
    rw [hrows]
    refine ⟨List.cons_ne_nil _ _, hdate, fun r hr => ?_, List.nodup_singleton _⟩
    rw [List.mem_singleton.1 hr]
    exact hticker
  intro c hc
  simp only [replayed, List.mem_cons, List.not_mem_nil, or_false] at hc
  rcases hc with rfl | rfl | rfl | rfl
  · exact hsession _ _ (by decide) ⟨by decide, by decide⟩
  · exact hsession _ _ (by decide) ⟨by decide, by decide⟩
  · trivial
  · exact hsession _ _ (by decide) ⟨by decide, by decide⟩

theorem baseline_of_replayed :
    (run 2 (replayed ++ [.rebuild])).history.getD [] = historyText (retained 2 replayed) :=
  (baseline_of_last_sessions (by decide) replayed_ok).1

/-- A session of one symbol with a tab-free ticker, whose row a rebuild does not leave in the history. -/
def RowLost (t : Bytes) : Prop :=
  9 ∉ t ∧ sessionRows ℚ (oneSymbol 1 10000) (named t) = [⟨t, 1, 10000⟩] ∧
    (run 1 [.append (lit "2026-01-05") (oneSymbol 1 10000) (named t), .rebuild]).history.getD [] ≠
      historyText (retained 1 [.append (lit "2026-01-05") (oneSymbol 1 10000) (named t)])

/-- A ticker with a newline, one with a NUL, and one that is too long for the buffer of a row. -/
theorem rows_lost : RowLost (lit "A\nB") ∧ RowLost (lit "A\x00B") ∧ RowLost (List.replicate 120 (ch 'A')) := by
  unfold RowLost
  decide +kernel

end Stok.BaselineStore
