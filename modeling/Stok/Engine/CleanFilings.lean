import Stok.Engine.Outcomes
import Stok.Ref.FilingsAlgebra

/-!
# `HIGH` and clean filings

A story copies the dilution flags of its ticker into the watch, and `evaluate` decides `HIGH` much
later from the copy, with a mask that leaves out the flags which block a story. In between the filings
may change: the copy is renewed only by a stronger story, or gets a bit outside the mask.
`Undiluted` is the condition on a call under which this cannot be seen; `high_means_clean` follows it
through a run.
-/

namespace Stok

open Dbl (ofRat)

namespace Engine

variable {F : Type} [Dbl F]

/-- The flags that a story is refused for. -/
def hardFlags : UInt32 := kFlagOfferingRecent ||| kFlagEffectRecent ||| kFlagUnregisteredSale

/-- The flags that a ticker with clean filings has none of. -/
def dilutingFlags : UInt32 := softPenaltyFlags ||| hardFlags

/-- What holds of the engine before each call of a run, and of the call. -/
def Along (env : Env F) (P : Engine F → Call F → Prop) : Engine F → List (Call F) → Prop
  | _, [] => True
  | e, c :: calls => P e c ∧ Along env P (call env e c) calls

section

variable (env : Env F)

/-- The flags of a symbol's filings. -/
def issuerFlags (h : FilingsHistory) (sym : UInt32) (day : Int) : UInt32 :=
  h.flags (env.info sym).cik day env.cfg.dilution

/-- Every `HIGH` of the call is for a watch without flags and an issuer with clean filings. A call adds
no filing after its first signal, so its filings at that moment are those that it leaves. -/
def HighMeansClean (e : Engine F) (c : Call F) : Prop :=
  ∀ m ∈ (call env e c).trace.emitted.drop e.trace.emitted.length, m.signal.tier = .high →
    m.signal.dilutionFlags = 0 ∧
      issuerFlags env (call env e c).filings m.signal.sym (easternDay m.now) &&& dilutingFlags = 0

/-- What a watch needs to become `HIGH`, besides the price. -/
def Candidate (w : Watch F) : Prop :=
  w.tier.rank < Tier.high.rank ∧ env.cfg.highScore ≤ w.score ∧
    Dbl.lt (ofRat 0) (env.info w.sym).sharesOutstanding = true ∧
    Dbl.le (env.info w.sym).sharesOutstanding env.cfg.highMaxShares = true ∧
    w.dilutionFlags &&& softPenaltyFlags = 0

/-- The symbol's filings in `h'` show a flag on the day `d'` only if those in `h` did on `d`. -/
def StaysClean (sym : UInt32) (h : FilingsHistory) (d : Int) (h' : FilingsHistory) (d' : Int) : Prop :=
  issuerFlags env h sym d = 0 → issuerFlags env h' sym d' = 0

/-- The engine with the day and the filing of a story. -/
def noted (e : Engine F) (ev : NewsEvent F) (now : UInt64) : Engine F :=
  if ev.kind = .filing then e.noteFiling ev now else e.todayDays now

/-- The story is a filing that is scored, and is stored over that of the watch. -/
def Retold (e : Engine F) (ev : NewsEvent F) (now : UInt64) (hot : Hot) (w : Watch F) : Prop :=
  ev.kind = .filing ∧ classifyForm ev.form.bytes ∈ [.form8K, .form6K] ∧ ev.tickers.head? = some w.sym ∧
    Stored env (noted e ev now) (filingScore env ev) (w.sym, 0) hot ∧
    w.score < (assess env (noted e ev now) (filingScore env ev) w.sym
      (env.look hot (.news 0) w.sym)).r.score

end

/-- A filing that sets a flag in the watches of its tickers. -/
def Registers (ev : NewsEvent F) (sym : UInt32) : Prop :=
  ev.kind = .filing ∧ classifyForm ev.form.bytes ∈ [.prospectus, .effect, .s1, .s3] ∧ sym ∈ ev.tickers

/-- No flag comes up for a watch that can become `HIGH`, by a filing or by the change of the day, unless
the filing's own story replaces the watch's; and none between the day that the engine takes for a
story's and the day of the clock. -/
def Undiluted (env : Env F) (e : Engine F) : Call F → Prop
  | .news ev now hot => ev.kind ≠ .halt →
    (∀ i ∈ e.active, Candidate env (e.watch i) → ¬ Retold env e ev now hot (e.watch i) →
      ¬ Registers ev (e.watch i).sym ∧ ∀ day ∈ [(noted e ev now).cachedDay, easternDay now],
        StaysClean env (e.watch i).sym e.filings e.cachedDay (noted e ev now).filings day) ∧
    ∀ sym ∈ ev.tickers, StaysClean env sym (noted e ev now).filings (noted e ev now).cachedDay
      (noted e ev now).filings (easternDay now)
  | .evaluate now _ => ∀ i ∈ e.active, Candidate env (e.watch i) →
      StaysClean env (e.watch i).sym e.filings e.cachedDay e.filings (easternDay now)
  | .scanMovers now _ => ∀ i ∈ e.active, Candidate env (e.watch i) →
      StaysClean env (e.watch i).sym e.filings e.cachedDay e.filings (e.todayDays now).cachedDay
  | _ => True

variable {env : Env F} {e e' : Engine F} {now : UInt64} {hot : Hot} {ds : List Int} {x : Option UInt32}
  {sym : UInt32} {P Q : Emission F → Prop}

/-! ## Flags -/

theorem and_or_mask (a b m : UInt32) : (a ||| b) &&& m = a &&& m ||| b &&& m :=
  UInt32.eq_of_toBitVec_eq BitVec.and_or_distrib_right

theorem or_masked {a b m : UInt32} (ha : a &&& m = a) (hb : b &&& m = b) : (a ||| b) &&& m = a ||| b := by
  rw [and_or_mask, ha, hb]

/-- Filings set no flags but the diluting ones. -/
theorem entry_diluting (p : DilutionPolicy) (age : Int) (en : FilingsHistory.Entry) :
    en.flags p age &&& dilutingFlags = en.flags p age := by
  have hif : ∀ (c : Prop) [Decidable c] {flag : UInt32}, flag &&& dilutingFlags = flag →
      (if c then flag else 0) &&& dilutingFlags = if c then flag else 0 := by
    intro c _ flag hflag
    split
    · exact hflag
    · exact UInt32.zero_and
  unfold FilingsHistory.Entry.flags
  split
  · exact UInt32.zero_and
  · cases en.cls with
    | prospectus | effect | s1 | s3 | preProxy | nt => exact hif _ (by decide)
    | form8K | form6K =>
      exact or_masked (or_masked (hif _ (by decide)) (hif _ (by decide))) (hif _ (by decide))
    | _ => exact UInt32.zero_and

theorem issuerFlags_diluting (env : Env F) (h : FilingsHistory) (sym : UInt32) (day : Int) :
    issuerFlags env h sym day &&& dilutingFlags = issuerFlags env h sym day := by
  rw [issuerFlags, FilingsHistory.flags_eq]
  induction h.entries with
  | nil => exact UInt32.zero_and
  | cons en es ih =>
    refine or_masked ?_ ih
    unfold FilingsHistory.Entry.flagsOf
    split
    · exact entry_diluting _ _ en
    · exact UInt32.zero_and

/-- A word that is refused for nothing and in no penalty is clean. -/
theorem dilutionOf_clean (hsoft : dilutionOf env e sym &&& softPenaltyFlags = 0)
    (hhard : dilutionOf env e sym &&& hardFlags = 0) :
    dilutionOf env e sym = 0 ∧ issuerFlags env e.filings sym e.cachedDay = 0 := by
  have hmask : dilutionOf env e sym &&& dilutingFlags = dilutionOf env e sym := by
    refine or_masked (issuerFlags_diluting env _ _ _) ?_
    split <;> decide
  have hzero : dilutionOf env e sym = 0 := by
    rw [← hmask, dilutingFlags, UInt32.and_comm, and_or_mask, UInt32.and_comm softPenaltyFlags,
      UInt32.and_comm hardFlags, hsoft, hhard, UInt32.zero_or]
  exact ⟨hzero, (UInt32.or_eq_zero_iff.mp hzero).1⟩

/-! ## What is emitted -/

/-- Every `HIGH` emitted from `e` to `e'` has the property. -/
def Highs (P : Emission F → Prop) (e e' : Engine F) : Prop :=
  ∃ ms, e'.trace.emitted = e.trace.emitted ++ ms ∧ ∀ m ∈ ms, m.signal.tier = .high → P m

theorem Highs.of_eq (h : e'.trace.emitted = e.trace.emitted) : Highs P e e' :=
  ⟨[], by rw [h, List.append_nil], fun m hm => absurd hm List.not_mem_nil⟩

theorem Highs.trans {e₁ e₂ e₃ : Engine F} (h : Highs P e₁ e₂) (h' : Highs P e₂ e₃) : Highs P e₁ e₃ := by
  obtain ⟨ms, hms, hP⟩ := h
  obtain ⟨ms', hms', hP'⟩ := h'
  refine ⟨ms ++ ms', by rw [hms', hms, List.append_assoc], fun m hm => ?_⟩
  rcases List.mem_append.mp hm with hm | hm
  · exact hP m hm
  · exact hP' m hm

theorem Highs.mono (h : Highs P e e') (hPQ : ∀ m, P m → Q m) : Highs Q e e' := by
  obtain ⟨ms, hms, hP⟩ := h
  exact ⟨ms, hms, fun m hm ht => hPQ m (hP m hm ht)⟩

theorem Highs.emit (h : Highs P e e') {w : Watch F} {tier : Tier} {hs : MarketHot} {reason : Bytes}
    (hw : tier = .high → ∀ m : Emission F, m.now = now → m.signal.sym = w.sym →
      m.signal.dilutionFlags = w.dilutionFlags → P m) : Highs P e (emit env e' w tier now hs reason) := by
  refine h.trans ⟨_, rfl, fun m hm ht => ?_⟩
  rw [List.mem_singleton.mp hm] at ht ⊢
  exact hw ht _ rfl rfl rfl

/-- The state that a `HIGH` is decided from stays. -/
structure Still (e e' : Engine F) : Prop where
  watch : e'.watch = e.watch
  active : e'.active = e.active
  filings : e'.filings = e.filings
  day : e'.cachedDay = e.cachedDay

theorem Still.trans {e₁ e₂ e₃ : Engine F} (h : Still e₁ e₂) (h' : Still e₂ e₃) : Still e₁ e₃ :=
  ⟨h'.watch.trans h.watch, h'.active.trans h.active, h'.filings.trans h.filings, h'.day.trans h.day⟩

theorem Aside.still (h : Aside e e') : Still e e' :=
  ⟨congrArg Core.watch h.core, congrArg Core.active h.core, h.filings, congrArg Core.cachedDay h.core⟩

theorem Aside.highs (h : Aside e e') : Highs P e e' := .of_eq (congrArg (·.trace.emitted) h.core)

theorem emitCooled_still (env : Env F) (now : UInt64) (e : Engine F) (w : Watch F) (tier : Tier) (hs : MarketHot) :
    Still e (emitCooled env e w tier now hs) ∧
      ((tier = .high → ∀ m : Emission F, m.now = now → m.signal.sym = w.sym →
        m.signal.dilutionFlags = w.dilutionFlags → P m) → Highs P e (emitCooled env e w tier now hs)) := by
  unfold emitCooled cooledDown
  dsimp only
  split
  · rename_i heq
    split at heq <;> cases heq
    exact ⟨⟨rfl, rfl, rfl, rfl⟩, fun hw => (Highs.of_eq rfl).emit hw⟩
  · rename_i heq
    split at heq <;> cases heq
    exact ⟨⟨rfl, rfl, rfl, rfl⟩, fun _ => .of_eq rfl⟩

/-! ## Halts and movers -/

theorem still_handleHalt (e : Engine F) (sym : UInt32) (halted : Bool) (reason title : Bytes) (i : Nat) :
    Still e (handleHalt env e sym halted reason now title hot i) ∧
      Highs P e (handleHalt env e sym halted reason now title hot i) := by
  have hnote : Still e (e.noteHalt sym halted now).1 ∧ Highs P e (e.noteHalt sym halted now).1 := by
    unfold noteHalt
    dsimp only
    split
    · exact ⟨⟨rfl, rfl, rfl, rfl⟩, .of_eq rfl⟩
    · exact ⟨⟨rfl, rfl, rfl, rfl⟩, .of_eq rfl⟩
  unfold handleHalt
  split
  · exact ⟨⟨rfl, rfl, rfl, rfl⟩, .of_eq rfl⟩
  · split
    · rename_i heq
      rwa [heq] at hnote
    · rename_i heq
      rw [heq] at hnote
      split
      · exact hnote
      · exact ⟨hnote.1.trans ⟨rfl, rfl, rfl, rfl⟩, hnote.2.emit fun h => absurd h (by decide)⟩

theorem still_scanSym (e : Engine F) (sym : UInt32) :
    Still e (scanSym env now hot e sym) ∧ Highs P e (scanSym env now hot e sym) := by
  unfold scanSym
  split
  · exact ⟨⟨rfl, rfl, rfl, rfl⟩, .of_eq rfl⟩
  · split
    · exact ⟨⟨rfl, rfl, rfl, rfl⟩, .of_eq rfl⟩
    · dsimp only
      split
      · exact ⟨⟨rfl, rfl, rfl, rfl⟩, .of_eq rfl⟩
      · exact ⟨⟨rfl, rfl, rfl, rfl⟩, (Highs.of_eq rfl).emit fun h => absurd h (by decide)⟩

theorem still_foldl {α : Type} {f : Engine F → α → Engine F}
    (hf : ∀ e a, Still e (f e a) ∧ Highs P e (f e a)) (l : List α) (e : Engine F) :
    Still e (l.foldl f e) ∧ Highs P e (l.foldl f e) := by
  induction l generalizing e with
  | nil => exact ⟨⟨rfl, rfl, rfl, rfl⟩, .of_eq rfl⟩
  | cons a l ih =>
    obtain ⟨hs, hh⟩ := hf e a
    obtain ⟨hs', hh'⟩ := ih (f e a)
    exact ⟨hs.trans hs', hh.trans hh'⟩

/-! ## Fair watches -/

/-- A watch that can become `HIGH` has no flags, nor has its issuer in the filings `h` on the days. -/
def Fair (env : Env F) (h : FilingsHistory) (ds : List Int) (w : Watch F) : Prop :=
  Candidate env w → w.dilutionFlags = 0 ∧ ∀ day ∈ ds, issuerFlags env h w.sym day = 0

/-- The active watches are fair, but for one on the symbol `x`. -/
def Fairs (env : Env F) (ds : List Int) (x : Option UInt32) (e : Engine F) : Prop :=
  ∀ i ∈ e.active, x ≠ some (e.watch i).sym → Fair env e.filings ds (e.watch i)

theorem Still.fairs (h : Still e e') (hf : Fairs env ds x e) : Fairs env ds x e' := by
  intro i hi hx
  rw [h.watch, h.filings] at *
  exact hf i (h.active ▸ hi) hx

/-- The other watches are fair, and the one in the slot `i` becomes so. -/
theorem fairs_setWatch {i : SlotId} {w : Watch F}
    (hother : ∀ j ∈ e.active, j ≠ i → x ≠ some (e.watch j).sym → Fair env e.filings ds (e.watch j))
    (hw : x ≠ some w.sym → Fair env e.filings ds w) : Fairs env ds x (e.setWatch i w) := by
  intro j hj hx
  rcases setWatch_cases e i j w with ⟨-, hjw⟩ | ⟨hji, hjw⟩
  · rw [hjw] at hx ⊢
    exact hw hx
  · rw [hjw] at hx ⊢
    exact hother j hj hji hx

theorem Fairs.deactivate (hf : Fairs env ds x e) (k : Nat) : Fairs env ds x (e.deactivateWatch k) := by
  cases hk : e.active[k]? with
  | none =>
    rw [deactivateWatch, hk]
    exact hf
  | some i =>
    have hset : Fairs env ds x (e.setWatch i { e.watch i with active := false }) :=
      fairs_setWatch (fun j hj _ => hf j hj) fun hx hc => hf i (List.mem_of_getElem? hk) hx hc
    rw [deactivateWatch_eq hk]
    exact fun j hj => hset j ((Lib.swapRemove_perm hk i).mem_iff.mp (List.mem_cons_of_mem i hj))

theorem deactivateWatch_filings (e : Engine F) (k : Nat) :
    (e.deactivateWatch k).filings = e.filings := by
  unfold deactivateWatch
  split <;> rfl

/-- The pieces of a call that keep the filings and the day, emit `HIGH` only as `P` has it, and leave
the watches fair. -/
structure Keeps (env : Env F) (P : Emission F → Prop) (ds : List Int) (x : Option UInt32) (e e' : Engine F) :
    Prop where
  filings : e'.filings = e.filings
  day : e'.cachedDay = e.cachedDay
  highs : Highs P e e'
  fairs : Fairs env ds x e'

theorem Keeps.trans {e₁ e₂ e₃ : Engine F} {x y : Option UInt32} (h : Keeps env P ds x e₁ e₂)
    (h' : Keeps env P ds y e₂ e₃) : Keeps env P ds y e₁ e₃ :=
  ⟨h'.filings.trans h.filings, h'.day.trans h.day, h.highs.trans h'.highs, h'.fairs⟩

theorem Still.keeps (h : Still e e') (hh : Highs P e e') (hf : Fairs env ds x e) : Keeps env P ds x e e' :=
  ⟨h.filings, h.day, hh, h.fairs hf⟩

/-! ## Stories -/

theorem storeStory_keeps {i : SlotId} {w : Watch F} (hs : MarketHot)
    (hother : ∀ j ∈ e.active, j ≠ i → x ≠ some (e.watch j).sym → Fair env e.filings ds (e.watch j))
    (hw : Fair env e.filings ds w) : Keeps env P ds x e (storeStory env e i w now hs) := by
  unfold storeStory
  split
  · rename_i hnone
    have hfair : Fair env e.filings ds { w with tier := .watch } := by
      rintro ⟨-, hc⟩
      refine hw ⟨?_, hc⟩
      rw [hnone]
      decide
    obtain ⟨hstill, hhighs⟩ := emitCooled_still (P := P) env now (e.setWatch i { w with tier := .watch })
      { w with tier := .watch } .watch hs
    have hset := fairs_setWatch hother fun _ => hfair
    exact ⟨hstill.filings, hstill.day, hhighs fun h => absurd h (by decide), hstill.fairs hset⟩
  · exact ⟨rfl, rfl, .of_eq rfl, fairs_setWatch hother fun _ => hw⟩

/-- Making room and taking a slot leaves the other watches fair. -/
theorem activateWatch_fairs (ht : TableOk env e.core) (hf : Fairs env ds x e) (sym : UInt32) :
    let r := e.activateWatch sym
    r.1.filings = e.filings ∧ r.1.cachedDay = e.cachedDay ∧ r.1.trace.emitted = e.trace.emitted ∧
      ∀ j ∈ r.1.active, j ≠ r.2 → x ≠ some (r.1.watch j).sym → Fair env r.1.filings ds (r.1.watch j) := by
  intro r
  obtain ⟨htab, hfree, -, -⟩ := ht.evict
  have hkept := evict_kept e
  have hevict : e.evict.filings = e.filings ∧ Fairs env ds x e.evict := by
    unfold evict
    split
    · exact ⟨deactivateWatch_filings e _, hf.deactivate _⟩
    · exact ⟨rfl, hf⟩
  have hr : r = _ := activateWatch_eq e sym
  rw [hr]
  refine ⟨hevict.1, hkept.day, hkept.emitted, fun j hj hne hx => ?_⟩
  have hmem : j ∈ e.evict.active := by
    rcases List.mem_append.mp hj with hj | hj
    · exact hj
    · exact absurd (List.mem_singleton.mp hj) hne
  have hwatch : (e.evict.place sym (e.evict.trace.lives + 1)).watch j = e.evict.watch j :=
    htab.place_watch hfree sym _ hmem
  have hfair := hevict.2 j hmem
  rw [← hwatch] at hfair
  exact hfair hx

/-- A story that is stored leaves a fair watch. -/
theorem storyOn_keeps (ht : TableOk env e.core) (hf : Fairs env ds x e) (ev : NewsEvent F) {p : Primary F}
    (hp : p.dil &&& softPenaltyFlags = 0 → p.dil = 0 ∧ ∀ day ∈ ds, issuerFlags env e.filings p.sym day = 0)
    (h hs : MarketHot) : Keeps env P ds x e (storyOn env e ev p now h hs).1 := by
  unfold storyOn
  split
  · rename_i i hfind
    obtain ⟨-, hsym⟩ := ht.findWatch hfind
    split
    · exact ⟨rfl, rfl, .of_eq rfl, hf⟩
    · refine storeStory_keeps hs (fun j hj _ => hf j hj) ?_
      rintro ⟨-, -, -, -, hsoft⟩
      obtain ⟨hzero, hdays⟩ := hp hsoft
      exact ⟨hzero, hsym.symm ▸ hdays⟩
  · obtain ⟨-, hslot⟩ := activateWatch_slot e p.sym
    obtain ⟨hfil, hday, hem, hother⟩ := activateWatch_fairs ht hf p.sym
    generalize e.activateWatch p.sym = r at hslot hfil hday hem hother ⊢
    obtain ⟨e₁, i⟩ := r
    dsimp only at hslot hfil hday hem hother ⊢
    have hfair : Fair env e₁.filings ds
        (storyWatch env (freshWatch env (e₁.watch i) ev now h) ev p.r p.dil p.mcap) := by
      rintro ⟨-, -, -, -, hsoft⟩
      obtain ⟨hzero, hdays⟩ := hp hsoft
      refine ⟨hzero, ?_⟩
      rw [hfil]
      show ∀ day ∈ ds, issuerFlags env e.filings (e₁.watch i).sym day = 0
      rw [hslot]
      exact hdays
    have hk : Keeps env P ds x e₁ (storeStory env e₁ i
        (storyWatch env (freshWatch env (e₁.watch i) ev now h) ev p.r p.dil p.mcap) now hs) :=
      storeStory_keeps hs hother hfair
    exact ⟨hk.filings.trans hfil, hk.day.trans hday, (Highs.of_eq hem).trans hk.highs, hk.fairs⟩

/-- The word that a story copies, if the story is not refused for it. -/
theorem assess_clean {r : ScoreResult F} {h : MarketHot}
    (hblock : hardBlock (assess env e r sym h).r (assess env e r sym h).dil = false)
    (hstay : StaysClean env sym e.filings e.cachedDay e.filings (easternDay now)) :
    (assess env e r sym h).dil &&& softPenaltyFlags = 0 → (assess env e r sym h).dil = 0 ∧
      ∀ day ∈ [e.cachedDay, easternDay now], issuerFlags env e.filings sym day = 0 := by
  intro hsoft
  have hhard : dilutionOf env e sym &&& hardFlags = 0 :=
    bne_eq_false_iff_eq.mp (Bool.or_eq_false_iff.mp hblock).2
  obtain ⟨hzero, hday⟩ := dilutionOf_clean hsoft hhard
  refine ⟨hzero, fun day hmem => ?_⟩
  rcases List.mem_cons.mp hmem with rfl | hmem
  · exact hday
  · rw [List.mem_singleton.mp hmem]
    exact hstay hday

/-- A stronger story on the symbol that may be unfair replaces its watch. -/
theorem storyOn_retold (ht : TableOk env e.core) (ev : NewsEvent F) {p : Primary F}
    (hf : Fairs env ds (some p.sym) e)
    (hp : p.dil &&& softPenaltyFlags = 0 → p.dil = 0 ∧ ∀ day ∈ ds, issuerFlags env e.filings p.sym day = 0)
    {i : SlotId} (hi : i ∈ e.active) (hsym : (e.watch i).sym = p.sym) (hscore : (e.watch i).score < p.r.score)
    (h hs : MarketHot) : Keeps env P ds none e (storyOn env e ev p now h hs).1 := by
  have hfind : e.findWatch p.sym = some i := by
    rw [findWatch_eq]
    exact (ht.index _ i).mpr ⟨hi, congrArg UInt32.toUInt64 hsym.symm⟩
  unfold storyOn
  rw [hfind]
  dsimp only
  rw [if_neg (Int32.not_le.mpr hscore)]
  refine storeStory_keeps hs (fun j hj hji _ => hf j hj fun heq => hji ?_) ?_
  · exact ht.unique hj hi ((Option.some.inj heq).symm.trans hsym.symm)
  · rintro ⟨-, -, -, -, hsoft⟩
    obtain ⟨hzero, hdays⟩ := hp hsoft
    exact ⟨hzero, hsym.symm ▸ hdays⟩

theorem newsTicker_keeps {l : NewsLoop F} (ht : TableOk env l.e.core)
    (hf : Fairs env [l.e.cachedDay, easternDay now] x l.e) (ev : NewsEvent F) (r : ScoreResult F)
    (t : UInt32 × Nat) (hstay : StaysClean env t.1 l.e.filings l.e.cachedDay l.e.filings (easternDay now)) :
    Keeps env P [l.e.cachedDay, easternDay now] x l.e (newsTicker env ev r now hot l t).e := by
  unfold newsTicker
  dsimp only
  split
  · exact ⟨rfl, rfl, .of_eq rfl, hf⟩
  · generalize hn : ({ l.e with lastNewsBySym := l.e.lastNewsBySym.insertOrAssign t.1.toUInt64 now } :
      Engine F) = e₁
    have haside : Aside l.e e₁ := by
      subst hn
      exact ⟨rfl, rfl, rfl, rfl⟩
    have hnoted := haside.still.keeps (P := P) haside.highs hf
    split
    · exact hnoted
    · rename_i hstored
      simp only [not_or, Bool.not_eq_true', Bool.not_eq_false, Bool.not_eq_true] at hstored
      have hp := assess_clean hstored.2.1 hstay
      rw [← haside.filings] at hp
      exact hnoted.trans (storyOn_keeps (haside.core ▸ ht) hnoted.fairs ev hp _ _)

theorem newsTicker_retold {l : NewsLoop F} (ht : TableOk env l.e.core) (ev : NewsEvent F)
    {r : ScoreResult F} {t : UInt32 × Nat} (hf : Fairs env [l.e.cachedDay, easternDay now] (some t.1) l.e)
    (hstay : StaysClean env t.1 l.e.filings l.e.cachedDay l.e.filings (easternDay now))
    {i : SlotId} (hi : i ∈ l.e.active) (hsym : (l.e.watch i).sym = t.1) (hstored : Stored env l.e r t hot)
    (hscore : (l.e.watch i).score < (assess env l.e r t.1 (env.look hot (.news t.2) t.1)).r.score) :
    Keeps env P [l.e.cachedDay, easternDay now] none l.e (newsTicker env ev r now hot l t).e := by
  obtain ⟨hsize, hinu, hblock, hwatch⟩ := hstored
  have hp := assess_clean hblock hstay
  unfold newsTicker
  dsimp only
  rw [if_neg (Nat.not_le.mpr hsize)]
  generalize hn : ({ l.e with lastNewsBySym := l.e.lastNewsBySym.insertOrAssign t.1.toUInt64 now } :
    Engine F) = e₁
  have haside : Aside l.e e₁ := by
    subst hn
    exact ⟨rfl, rfl, rfl, rfl⟩
  have hstill := haside.still
  rw [← hstill.filings] at hp
  rw [← hstill.active] at hi
  rw [← hstill.watch] at hsym hscore
  rw [if_neg]
  · exact (hstill.keeps haside.highs hf).trans
      (storyOn_retold (haside.core ▸ ht) ev (hstill.fairs hf) hp hi hsym hscore _ _)
  · simp only [not_or, Bool.not_eq_true', Bool.not_eq_false, Bool.not_eq_true]
    exact ⟨hinu, hblock, Int32.not_lt.mpr hwatch⟩

theorem newsLoop_keeps (ev : NewsEvent F) (r : ScoreResult F) (ts : List (UInt32 × Nat)) {l : NewsLoop F}
    (ht : TableOk env l.e.core) (hf : Fairs env [l.e.cachedDay, easternDay now] x l.e)
    (hstay : ∀ t ∈ ts, StaysClean env t.1 l.e.filings l.e.cachedDay l.e.filings (easternDay now)) :
    Keeps env P [l.e.cachedDay, easternDay now] x l.e (ts.foldl (newsTicker env ev r now hot) l).e := by
  induction ts generalizing l with
  | nil => exact ⟨rfl, rfl, .of_eq rfl, hf⟩
  | cons t ts ih =>
    have hk : Keeps env P [l.e.cachedDay, easternDay now] x l.e (newsTicker env ev r now hot l t).e :=
      newsTicker_keeps ht hf ev r t (hstay t List.mem_cons_self)
    have hrest := @ih (newsTicker env ev r now hot l t) (ht.steps (steps_newsTicker ev r hot l t ht))
    rw [hk.day, hk.filings] at hrest
    exact hk.trans (hrest hk.fairs fun s hs => hstay s (List.mem_cons_of_mem t hs))

/-! ## The walk -/

/-- A signal for a watch without flags, whose issuer has none in `h` on the days. -/
def Clean (env : Env F) (now : UInt64) (h : FilingsHistory) (ds : List Int) (m : Emission F) : Prop :=
  m.now = now ∧ m.signal.dilutionFlags = 0 ∧ ∀ day ∈ ds, issuerFlags env h m.signal.sym day = 0

/-- A look keeps what a candidate is told by, and only a candidate rises to `HIGH`. -/
theorem lookAt_candidate (env : Env F) (now : UInt64) (w : Watch F) (h : MarketHot) :
    (lookAt env w now h).1.sym = w.sym ∧ (lookAt env w now h).1.dilutionFlags = w.dilutionFlags ∧
      (Candidate env (lookAt env w now h).1 → Candidate env w) ∧
      ((lookAt env w now h).2.2 = some .high → Candidate env w) := by
  unfold lookAt
  split
  · exact ⟨rfl, rfl, id, fun h => absurd h (Option.some_ne_none _).symm⟩
  · dsimp only
    generalize horizons _ 0 _ _ = hz
    have href : ∃ px, (if w.refPx ≤ 0 then { w with refPx := h.lastPx } else w) = { w with refPx := px } := by
      split
      · exact ⟨_, rfl⟩
      · exact ⟨w.refPx, rfl⟩
    obtain ⟨px, href⟩ := href
    rw [href]
    split
    · exact ⟨rfl, rfl, id, fun h => absurd h (Option.some_ne_none _).symm⟩
    · rename_i hrank
      have hlow : w.tier.rank < Tier.high.rank := Nat.not_le.mp (not_or.mp hrank).1
      generalize hhigh : isHigh env _ h = high
      have ht : (if high = true then Tier.high else Tier.alert) = .high → high = true := by
        cases high <;> decide
      generalize (if high = true then Tier.high else Tier.alert) = t at ht ⊢
      split
      · refine ⟨rfl, rfl, fun hc => ⟨hlow, hc.2⟩, fun hrise => ⟨hlow, ?_⟩⟩
        rw [ht (Option.some.inj hrise), isHigh] at hhigh
        simp only [Bool.and_eq_true, decide_eq_true_eq, beq_iff_eq] at hhigh
        exact ⟨hhigh.1.1.1.1, hhigh.1.1.1.2, hhigh.1.1.2, hhigh.1.2⟩
      · exact ⟨rfl, rfl, id, fun h => absurd h (Option.some_ne_none _).symm⟩

theorem evalAt_keeps (hf : Fairs env ds none e) (k : Nat) :
    Keeps env (Clean env now e.filings ds) ds none e (evalAt env now hot e k) := by
  unfold evalAt
  split
  · exact ⟨rfl, rfl, .of_eq rfl, hf⟩
  · rename_i i hk
    have hi : i ∈ e.active := List.mem_of_getElem? hk
    split
    · refine ⟨deactivateWatch_filings e k, (deactivateWatch_kept e k).day, ?_, hf.deactivate k⟩
      exact .of_eq (deactivateWatch_kept e k).emitted
    · split
      · exact ⟨rfl, rfl, .of_eq rfl, hf⟩
      · have hspec := lookAt_candidate env now (e.watch i) (hot (.eval k) (e.watch i).sym)
        have hwatch := hf i hi (Option.some_ne_none _).symm
        split
        · rename_i w outs heq
          rw [heq] at hspec
          obtain ⟨hsym, hflags, hcand, -⟩ := hspec
          have hset : Fairs env ds none (e.setWatch i w) := fairs_setWatch (fun j hj _ => hf j hj) fun _ hc => by
            rw [hflags, hsym]
            exact hwatch (hcand hc)
          exact ⟨rfl, rfl, .of_eq rfl, hset⟩
        · rename_i w outs t heq
          rw [heq] at hspec
          obtain ⟨hsym, hflags, hcand, hhigh⟩ := hspec
          have hset : Fairs env ds none (e.setWatch i w) := fairs_setWatch (fun j hj _ => hf j hj) fun _ hc => by
            rw [hflags, hsym]
            exact hwatch (hcand hc)
          obtain ⟨hstill, hhighs⟩ := emitCooled_still (P := Clean env now e.filings ds) env now
            ((e.setWatch i w).write outs) w t (hot (.evalSignal k) w.sym)
          refine ⟨hstill.filings, hstill.day, (hhighs ?_), hstill.fairs hset⟩
          rintro rfl m hnow hmsym hmflags
          obtain ⟨hzero, hdays⟩ := hwatch (hhigh rfl)
          refine ⟨hnow, ?_, ?_⟩
          · rw [hmflags, hflags, hzero]
          · rw [hmsym, hsym]
            exact hdays

theorem evaluate_keeps (hf : Fairs env ds none e) :
    Keeps env (Clean env now e.filings ds) ds none e (evaluate env e now hot) := by
  have hloop : ∀ k (e : Engine F), Fairs env ds none e →
      Keeps env (Clean env now e.filings ds) ds none e (evalLoop env now hot k e).1 := by
    intro k
    induction k with
    | zero => exact fun e hf => ⟨rfl, rfl, .of_eq rfl, hf⟩
    | succ k ih =>
      intro e hf
      have hturn : Keeps env (Clean env now e.filings ds) ds none e (evalAt env now hot e k) :=
        evalAt_keeps hf k
      have hrest := ih _ hturn.fairs
      rw [hturn.filings] at hrest
      exact hturn.trans hrest
  have hwalk := hloop e.active.length e hf
  unfold evaluate
  generalize evalLoop env now hot e.active.length e = p at hwalk
  obtain ⟨e₁, seen⟩ := p
  have htrade : ∀ walk : Walk,
      Aside { e₁ with trace := { e₁.trace with walks := e₁.trace.walks ++ [walk] } }
        (paperStep env { e₁ with trace := { e₁.trace with walks := e₁.trace.walks ++ [walk] } } now hot) :=
    fun _ => aside_paperStep now hot
  have hfairs : ∀ walk : Walk,
      Fairs env ds none { e₁ with trace := { e₁.trace with walks := e₁.trace.walks ++ [walk] } } :=
    fun _ => hwalk.fairs
  refine hwalk.trans ?_
  have hk := (htrade { now := now, before := e.active.map fun i => (i, (e.watch i).tNews)
                       examined := seen, after := e₁.active }).still.keeps (P := Clean env now e.filings ds)
    (htrade _).highs (hfairs _)
  exact ⟨hk.filings, hk.day, hk.highs, hk.fairs⟩

/-! ## The day and the filing of a call -/

theorem todayDays_idem (e : Engine F) : (e.todayDays now).todayDays now = e.todayDays now := by
  unfold todayDays
  split
  · split <;> rfl
  · rfl

theorem todayDays_still (e : Engine F) (now : UInt64) : (e.todayDays now).watch = e.watch ∧
    (e.todayDays now).active = e.active ∧ (e.todayDays now).filings = e.filings ∧
    (e.todayDays now).trace = e.trace := by
  unfold todayDays
  split <;> exact ⟨rfl, rfl, rfl, rfl⟩

theorem noted_still (e : Engine F) (now : UInt64) (ev : NewsEvent F) : (noted e ev now).watch = e.watch ∧
    (noted e ev now).active = e.active ∧ (noted e ev now).trace = e.trace := by
  obtain ⟨hwatch, hactive, -, htrace⟩ := todayDays_still e now
  unfold noted
  split <;> exact ⟨hwatch, hactive, htrace⟩

/-- What is set aside does not matter to the day and the filing. -/
theorem Aside.noted (h : Aside e e') (ev : NewsEvent F) (now : UInt64) :
    Aside (noted e ev now) (noted e' ev now) := by
  have hday := congrArg Core.cachedDay h.core
  have huntil := congrArg Core.cachedDayUntil h.core
  have htoday : Aside (e.todayDays now) (e'.todayDays now) := by
    unfold todayDays
    rw [show e'.cachedDayUntil = e.cachedDayUntil from huntil, show e'.cachedDay = e.cachedDay from hday]
    split
    · refine ⟨?_, h.haltSeen, h.filings, h.outcomes⟩
      have hset := congrArg (fun c : Core F => { c with
        cachedDay := easternDay now, cachedDayUntil := now + 60 * kNsPerSec }) h.core
      exact hset
    · exact h
  unfold Engine.noted
  split
  · refine ⟨htoday.core, htoday.haltSeen, ?_, htoday.outcomes⟩
    show FilingsHistory.add _ _ _ _ _ = FilingsHistory.add _ _ _ _ _
    rw [htoday.filings, show (e'.todayDays now).cachedDay = _ from congrArg Core.cachedDay htoday.core]
    rfl
  · exact htoday

theorem noted_today (e : Engine F) (ev : NewsEvent F) : (noted e ev now).todayDays now = noted e ev now := by
  have hset : ∀ (e : Engine F) (h : FilingsHistory),
      ({ e with filings := h } : Engine F).todayDays now = { e.todayDays now with filings := h } := by
    intro e h
    unfold todayDays
    split <;> rfl
  unfold noted
  split
  · unfold noteFiling
    rw [hset, todayDays_idem]
  · exact todayDays_idem e

variable {ev : NewsEvent F}

/-- With its day and filing a story finds the watches fair, but for one that it replaces. -/
theorem noted_fairs (hf : Fairs env [e.cachedDay] none e)
    (hu : ∀ i ∈ e.active, Candidate env (e.watch i) → ¬ Retold env e ev now hot (e.watch i) →
      ¬ Registers ev (e.watch i).sym ∧ ∀ day ∈ [(noted e ev now).cachedDay, easternDay now],
        StaysClean env (e.watch i).sym e.filings e.cachedDay (noted e ev now).filings day) :
    ∃ x, Fairs env [(noted e ev now).cachedDay, easternDay now] x (noted e ev now) ∧
      (x = none ∨ ∃ i ∈ e.active, x = some (e.watch i).sym ∧ Retold env e ev now hot (e.watch i)) := by
  obtain ⟨hwatch, hactive, -⟩ := noted_still e now ev
  have hfair : ∀ i ∈ e.active, ¬ Retold env e ev now hot (e.watch i) →
      Fair env (noted e ev now).filings [(noted e ev now).cachedDay, easternDay now] (e.watch i) := by
    intro i hi hret hc
    obtain ⟨hzero, hclean⟩ := hf i hi (Option.some_ne_none _).symm hc
    exact ⟨hzero, fun day hday => (hu i hi hc hret).2 day hday (hclean _ (List.mem_singleton.mpr rfl))⟩
  rcases em (∃ i ∈ e.active, Retold env e ev now hot (e.watch i)) with ⟨i, hi, hret⟩ | hnone
  · refine ⟨some (e.watch i).sym, fun j hj hx => ?_, .inr ⟨i, hi, rfl, hret⟩⟩
    rw [hwatch] at hx ⊢
    rw [hactive] at hj
    refine hfair j hj fun hret' => hx ?_
    exact hret.2.2.1.symm.trans hret'.2.2.1
  · refine ⟨none, fun j hj _ => ?_, .inl rfl⟩
    rw [hwatch]
    rw [hactive] at hj
    exact hfair j hj fun hret => hnone ⟨j, hj, hret⟩

/-! ## Calls -/

/-- The loop of a scored story. Where a watch may be unfair, the story is a filing on its symbol and
replaces it. -/
theorem listed_keeps {r : ScoreResult F} (he : e.todayDays now = e') (ht : TableOk env e'.core)
    (hf : Fairs env [e'.cachedDay, easternDay now] x e')
    (hstay : ∀ s ∈ ev.tickers, StaysClean env s e'.filings e'.cachedDay e'.filings (easternDay now))
    (hx : x = none ∨ ev.kind = .filing ∧ ∃ i ∈ e'.active, x = some (e'.watch i).sym ∧
      ev.tickers.head? = some (e'.watch i).sym ∧ Stored env e' r ((e'.watch i).sym, 0) hot ∧
      (e'.watch i).score < (assess env e' r (e'.watch i).sym
        (env.look hot (.news 0) (e'.watch i).sym)).r.score) :
    Keeps env P [e'.cachedDay, easternDay now] none e' (listed env e ev r now hot).e := by
  unfold listed
  rw [he]
  rcases hx with rfl | ⟨hkind, i, hi, rfl, hhead, hstored, hscore⟩
  · refine newsLoop_keeps (l := { e := e', p := _, touched := false }) ev r _ ht hf
      fun t htm => hstay t.1 ?_
    have hmem := List.fst_mem_of_mem_zipIdx htm
    split at hmem
    · exact hmem
    · exact List.mem_of_mem_take hmem
  · obtain ⟨rest, htickers⟩ : ∃ rest, ev.tickers = (e'.watch i).sym :: rest := by
      cases hl : ev.tickers with
      | nil => rw [hl] at hhead; cases hhead
      | cons s rest =>
        rw [hl] at hhead
        exact ⟨rest, by rw [Option.some.inj hhead]⟩
    have hone : (if ev.kind = .news then ev.tickers else ev.tickers.take 1).zipIdx =
        [((e'.watch i).sym, 0)] := by
      have hnews : ev.kind ≠ .news := by
        rw [hkind]
        decide
      rw [if_neg hnews, htickers]
      rfl
    have hmem : (e'.watch i).sym ∈ ev.tickers := by
      rw [htickers]
      exact List.mem_cons_self
    rw [hone, List.foldl_cons, List.foldl_nil]
    exact newsTicker_retold (l := { e := e', p := _, touched := false }) (t := ((e'.watch i).sym, 0))
      ht ev hf (hstay _ hmem) hi rfl hstored hscore

/-- A scored story, from the engine with its day and filing. -/
theorem onScored_keeps (d : Dedupe) {r : ScoreResult F}
    (hlist : Keeps env (Clean env now e'.filings ds) ds none e' (listed env e ev r now hot).e) :
    Keeps env (Clean env now e'.filings ds) ds none e' (onScored env e ev d r now hot) := by
  rw [onScored_eq]
  generalize listed env e ev r now hot = l at hlist
  have hnews := aside_journalNews (e := l.e) ev d l.p now
  have hwritten := hlist.trans (hnews.still.keeps hnews.highs hlist.fairs)
  split
  · have heval : Keeps env (Clean env now (l.e.journalNews ev d l.p now).filings ds) ds none
        (l.e.journalNews ev d l.p now) (evaluate env (l.e.journalNews ev d l.p now) now hot) :=
      evaluate_keeps hwritten.fairs
    rw [hwritten.filings] at heval
    exact hwritten.trans heval
  · exact hwritten

/-- A registration sets flags only in watches that cannot become `HIGH`. -/
theorem registration_keeps (ht : TableOk env e.core) (hf : Fairs env ds none e)
    (hclear : ∀ i ∈ e.active, Candidate env (e.watch i) → ¬ Registers ev (e.watch i).sym)
    (hkind : ev.kind = .filing) : Keeps env (fun _ => False) ds none e (onRegistration env e ev now hot) := by
  unfold onRegistration
  dsimp only
  split
  · rename_i hcls
    have hmem : classifyForm ev.form.bytes ∈ [FormClass.prospectus, .effect, .s1, .s3] := by simpa using hcls
    have hall : ∀ t ∈ ev.tickers.zipIdx, t.1 ∈ ev.tickers := fun t => List.fst_mem_of_mem_zipIdx
    generalize ev.tickers.zipIdx = ts at hall
    induction ts generalizing e with
    | nil => exact ⟨rfl, rfl, .of_eq rfl, hf⟩
    | cons t ts ih =>
      have hsteps : Steps env now e (dilutionInfo env ev (classifyForm ev.form.bytes) now hot e t) :=
        steps_dilutionInfo ht ev _ hot t
      have hturn : Keeps env (fun _ => False) ds none e
          (dilutionInfo env ev (classifyForm ev.form.bytes) now hot e t) ∧
          ∀ i ∈ (dilutionInfo env ev (classifyForm ev.form.bytes) now hot e t).active,
            Candidate env ((dilutionInfo env ev (classifyForm ev.form.bytes) now hot e t).watch i) →
              ¬ Registers ev ((dilutionInfo env ev (classifyForm ev.form.bytes) now hot e t).watch i).sym := by
        unfold dilutionInfo
        split
        · exact ⟨⟨rfl, rfl, .of_eq rfl, hf⟩, hclear⟩
        · rename_i i hfind
          obtain ⟨hi, hsym⟩ := ht.findWatch hfind
          dsimp only
          generalize (if classifyForm ev.form.bytes = FormClass.prospectus then kFlagOfferingRecent
            else kFlagEffectRecent) = flag
          have hnot : ¬ Candidate env { e.watch i with dilutionFlags := (e.watch i).dilutionFlags ||| flag } := by
            rintro ⟨h1, h2, h3, h4, hsoft⟩
            rw [and_or_mask] at hsoft
            refine hclear i hi ⟨h1, h2, h3, h4, (UInt32.or_eq_zero_iff.mp hsoft).1⟩ ⟨hkind, hmem, ?_⟩
            exact hsym.symm ▸ hall t List.mem_cons_self
          have hset : Fairs env ds none (e.setWatch i { e.watch i with
              dilutionFlags := (e.watch i).dilutionFlags ||| flag }) :=
            fairs_setWatch (fun j hj _ => hf j hj) fun _ hc => absurd hc hnot
          refine ⟨⟨rfl, rfl, (Highs.of_eq rfl).emit fun h => absurd h (by decide), hset⟩, fun j hj hc => ?_⟩
          show ¬ Registers ev ((e.setWatch i _).watch j).sym
          rcases setWatch_cases e i j { e.watch i with dilutionFlags := (e.watch i).dilutionFlags ||| flag } with
            ⟨-, hw⟩ | ⟨-, hw⟩
          · exact absurd (hw ▸ hc) hnot
          · rw [hw]
            exact hclear j hj (hw ▸ hc)
      exact hturn.1.trans (ih (ht.steps hsteps) hturn.1.fairs hturn.2 fun s hs => hall s (List.mem_cons_of_mem t hs))
  · exact ⟨rfl, rfl, .of_eq rfl, hf⟩

theorem assess_congr (hfil : e'.filings = e.filings) (hday : e'.cachedDay = e.cachedDay) (r : ScoreResult F)
    (s : UInt32) (h : MarketHot) : assess env e' r s h = assess env e r s h := by
  have hdil : dilutionOf env e' s = dilutionOf env e s := by
    unfold dilutionOf
    rw [hfil, hday]
  unfold assess
  rw [hdil]

variable {c : Call F}

theorem Keeps.fairs_day {e₁ : Engine F} (h : Keeps env P ds none e₁ e') (hd : e₁.cachedDay ∈ ds) :
    Fairs env [e'.cachedDay] none e' := by
  intro i hi hx hc
  obtain ⟨hzero, hdays⟩ := h.fairs i hi hx hc
  refine ⟨hzero, fun day hday => hdays day ?_⟩
  rw [List.mem_singleton.mp hday, h.day]
  exact hd

theorem Keeps.clean {e₁ : Engine F} (h : Keeps env (Clean env now e₁.filings ds) ds none e₁ (call env e c))
    (htrace : e₁.trace = e.trace) (hd : easternDay now ∈ ds) : HighMeansClean env e c := by
  intro m hm hhigh
  obtain ⟨ms, hms, hP⟩ := h.highs
  rw [htrace] at hms
  rw [hms, List.drop_left] at hm
  obtain ⟨rfl, hzero, hdays⟩ := hP m hm hhigh
  refine ⟨hzero, ?_⟩
  rw [h.filings, hdays _ hd]
  exact UInt32.zero_and

/-- A call that emits no `HIGH`. -/
theorem Keeps.quiet {e₁ : Engine F} (h : Keeps env (fun _ => False) ds none e₁ (call env e c))
    (htrace : e₁.trace = e.trace) : HighMeansClean env e c := by
  intro m hm hhigh
  obtain ⟨ms, hms, hP⟩ := h.highs
  rw [htrace] at hms
  rw [hms, List.drop_left] at hm
  exact absurd (hP m hm hhigh) id

/-- A scored story keeps the watches fair, and its `HIGH` signals are clean. -/
theorem scored_clean {n e₁ : Engine F} {d : Dedupe} {r : ScoreResult F} (ht : TableOk env n.core)
    (htrace : n.trace = e.trace) (he : e₁.todayDays now = n)
    (hf : Fairs env [n.cachedDay, easternDay now] x n)
    (hstay : ∀ s ∈ ev.tickers, StaysClean env s n.filings n.cachedDay n.filings (easternDay now))
    (hx : x = none ∨ ev.kind = .filing ∧ ∃ i ∈ n.active, x = some (n.watch i).sym ∧
      ev.tickers.head? = some (n.watch i).sym ∧ Stored env n r ((n.watch i).sym, 0) hot ∧
      (n.watch i).score < (assess env n r (n.watch i).sym (env.look hot (.news 0) (n.watch i).sym)).r.score)
    (hcall : call env e c = onScored env e₁ ev d r now hot) :
    Fairs env [(call env e c).cachedDay] none (call env e c) ∧ HighMeansClean env e c := by
  have hk := onScored_keeps d (listed_keeps (P := Clean env now n.filings [n.cachedDay, easternDay now])
    he ht hf hstay hx)
  rw [← hcall] at hk
  exact ⟨hk.fairs_day List.mem_cons_self,
    hk.clean htrace (List.mem_cons_of_mem _ (List.mem_singleton.mpr rfl))⟩

theorem halt_clean (hf : Fairs env [e.cachedDay] none e) (hk : ev.kind = .halt) :
    Fairs env [(onNews env e ev now hot).cachedDay] none (onNews env e ev now hot) ∧
      HighMeansClean env e (.news ev now hot) := by
  have haside := aside_dedupe e ev
  have hloop := still_foldl (P := fun _ => False) (f := fun e t => handleHalt env e t.1
    (ev.halt.resumeTradeNs == 0) ev.halt.reason.bytes now (cstr ev.title.bytes) hot t.2)
    (fun e t => still_handleHalt e _ _ _ _ _) ev.tickers.zipIdx (e.dedupe ev).1
  have hrec := aside_journalNews (e := onHaltNews env (e.dedupe ev).1 ev now hot) ev (e.dedupe ev).2
    (unscored ev) now
  have heq : onNews env e ev now hot =
      (onHaltNews env (e.dedupe ev).1 ev now hot).journalNews ev (e.dedupe ev).2 (unscored ev) now := by
    simp only [onNews, hk]
  have hkeeps : Keeps env (fun _ => False) [e.cachedDay] none e (call env e (.news ev now hot)) := by
    show Keeps env _ _ _ _ (onNews env e ev now hot)
    rw [heq]
    exact ((haside.still.trans hloop.1).trans hrec.still).keeps
      ((haside.highs.trans hloop.2).trans hrec.highs) hf
  exact ⟨hkeeps.fairs_day (List.mem_singleton.mpr rfl), hkeeps.quiet rfl⟩

theorem news_clean (ht : TableOk env e.core) (hf : Fairs env [e.cachedDay] none e)
    (hu : Undiluted env e (.news ev now hot)) :
    Fairs env [(onNews env e ev now hot).cachedDay] none (onNews env e ev now hot) ∧
      HighMeansClean env e (.news ev now hot) := by
  rcases eq_or_ne ev.kind .halt with hhalt | hscored
  · exact halt_clean hf hhalt
  · obtain ⟨hcand, hstories⟩ := hu hscored
    obtain ⟨x, hfx, hx⟩ := noted_fairs hf hcand
    obtain ⟨hwatch, hactive, htrace⟩ := noted_still e now ev
    have hn := (aside_dedupe e ev).noted ev now
    have htable : TableOk env (noted (e.dedupe ev).1 ev now).core := by
      have hd : TableOk env (e.dedupe ev).1.core := (aside_dedupe e ev).core ▸ ht
      have htoday : TableOk env ((e.dedupe ev).1.todayDays now).core := hd.micro (.today _)
      unfold noted
      split
      · exact htoday
      · exact htoday
    obtain ⟨n, hn⟩ : ∃ n, noted (e.dedupe ev).1 ev now = n := ⟨_, rfl⟩
    have haside : Aside (noted e ev now) n := hn ▸ (aside_dedupe e ev).noted ev now
    rw [hn] at htable
    have htoday : n.todayDays now = n := hn ▸ noted_today (e.dedupe ev).1 ev
    have hstill := haside.still
    have hfair := hstill.fairs hfx
    rw [← hstill.day] at hfair hstories
    rw [← hstill.filings] at hstories
    have hscore : ∀ (e₁ : Engine F) (r : ScoreResult F), e₁.todayDays now = n →
        (x = none ∨ r = filingScore env ev) →
        onNews env e ev now hot = onScored env e₁ ev (e.dedupe ev).2 r now hot →
        Fairs env [(onNews env e ev now hot).cachedDay] none (onNews env e ev now hot) ∧
          HighMeansClean env e (.news ev now hot) := by
      intro e₁ r he hr hcall
      refine scored_clean (c := .news ev now hot) htable ((congrArg Core.trace haside.core).trans htrace) he hfair hstories ?_ hcall
      rcases hx with hx | ⟨i, hi, hx, hret⟩
      · exact .inl hx
      · obtain rfl : r = filingScore env ev := hr.resolve_left (hx ▸ Option.some_ne_none _)
        obtain ⟨hkind, -, hhead, ⟨hsize, hstored⟩, hlt⟩ := hret
        refine .inr ⟨hkind, i, ?_, ?_⟩
        · rw [hstill.active, hactive]
          exact hi
        · rw [hstill.watch, hwatch]
          refine ⟨hx, hhead, ⟨hsize, ?_⟩, ?_⟩
          · rw [assess_congr hstill.filings hstill.day]
            exact hstored
          · rw [assess_congr hstill.filings hstill.day]
            exact hlt
    have hplain : ev.kind ≠ .filing → onNews env e ev now hot = onScored env (e.dedupe ev).1 ev
        (e.dedupe ev).2 (env.scoreText ev.title.bytes ev.body.bytes) now hot →
        Fairs env [(onNews env e ev now hot).cachedDay] none (onNews env e ev now hot) ∧
          HighMeansClean env e (.news ev now hot) := by
      intro hk hcall
      have hxn : x = none := by
        rcases hx with hx | ⟨i, -, -, hret⟩
        · exact hx
        · exact absurd hret.1 hk
      exact hscore (e.dedupe ev).1 _ (by rw [← hn, noted, if_neg hk]) (.inl hxn) hcall
    cases hk : ev.kind with
    | halt => exact absurd hk hscored
    | filing =>
      have hfile : (e.dedupe ev).1.noteFiling ev now = n := by
        rw [← hn, noted, if_pos hk]
      rcases em (classifyForm ev.form.bytes ≠ .form8K ∧ classifyForm ev.form.bytes ≠ .form6K) with hcls | hcls
      · have hret : ∀ w : Watch F, ¬ Retold env e ev now hot w := by
          rintro w ⟨-, hmem, -⟩
          rcases List.mem_pair.mp hmem with h | h
          · exact hcls.1 h
          · exact hcls.2 h
        obtain rfl : x = none := by
          rcases hx with hx | ⟨i, -, -, hold⟩
          · exact hx
          · exact absurd hold (hret _)
        have hclear : ∀ i ∈ n.active, Candidate env (n.watch i) → ¬ Registers ev (n.watch i).sym := by
          rw [hstill.active, hactive, hstill.watch, hwatch]
          exact fun i hi hc => (hcand i hi hc (hret _)).1
        have hreg : Keeps env (fun _ => False) [n.cachedDay, easternDay now] none n
            (onRegistration env n ev now hot) := registration_keeps htable hfair hclear hk
        have hrec := aside_journalNews (e := onRegistration env n ev now hot) ev (e.dedupe ev).2
          (unscored ev) now
        have heq : onNews env e ev now hot =
            (onRegistration env n ev now hot).journalNews ev (e.dedupe ev).2 (unscored ev) now := by
          simp only [onNews, hk, if_pos hcls, hfile]
        have hkeeps : Keeps env (fun _ => False) [n.cachedDay, easternDay now] none n
            (call env e (.news ev now hot)) := by
          show Keeps env _ _ _ _ (onNews env e ev now hot)
          rw [heq]
          exact hreg.trans (hrec.still.keeps hrec.highs hreg.fairs)
        exact ⟨hkeeps.fairs_day List.mem_cons_self,
          hkeeps.quiet ((congrArg Core.trace haside.core).trans htrace)⟩
      · refine hscore n (filingScore env ev) htoday (.inr rfl) ?_
        simp only [onNews, hk, if_neg hcls, hfile]
    | news => exact hplain (by rw [hk]; decide) (by simp only [onNews, hk])
    | filingDoc => exact hplain (by rw [hk]; decide) (by simp only [onNews, hk])

theorem call_clean (ht : TableOk env e.core) (hf : Fairs env [e.cachedDay] none e) (hu : Undiluted env e c) :
    Fairs env [(call env e c).cachedDay] none (call env e c) ∧ HighMeansClean env e c := by
  cases c with
  | news ev now hot => exact news_clean ht hf hu
  | market ev now hot =>
    have hstill : Still e (call env e (.market ev now hot)) ∧
        Highs (fun _ => False) e (call env e (.market ev now hot)) := by
      show Still e (onMarketEvent env e ev now hot) ∧ Highs _ e (onMarketEvent env e ev now hot)
      unfold onMarketEvent
      split
      · exact still_handleHalt e _ _ _ _ _
      · exact ⟨⟨rfl, rfl, rfl, rfl⟩, .of_eq rfl⟩
    have hk := hstill.1.keeps hstill.2 hf
    exact ⟨hk.fairs_day (List.mem_singleton.mpr rfl), hk.quiet rfl⟩
  | evaluate now hot =>
    have hboth : Fairs env [e.cachedDay, easternDay now] none e := by
      intro i hi hx hc
      obtain ⟨hzero, hclean⟩ := hf i hi hx hc
      have hday := hclean _ (List.mem_singleton.mpr rfl)
      refine ⟨hzero, fun day hmem => ?_⟩
      rcases List.mem_pair.mp hmem with rfl | rfl
      · exact hday
      · exact hu i hi hc hday
    have hk : Keeps env (Clean env now e.filings [e.cachedDay, easternDay now]) [e.cachedDay, easternDay now]
        none e (call env e (.evaluate now hot)) := evaluate_keeps hboth
    exact ⟨hk.fairs_day List.mem_cons_self, hk.clean rfl (List.mem_cons_of_mem _ (List.mem_singleton.mpr rfl))⟩
  | scanMovers now hot =>
    obtain ⟨hwatch, hactive, hfil, htrace⟩ := todayDays_still e now
    have htoday : Fairs env [(e.todayDays now).cachedDay] none (e.todayDays now) := by
      intro i hi hx hc
      rw [hwatch] at hx hc ⊢
      rw [hactive] at hi
      obtain ⟨hzero, hclean⟩ := hf i hi hx hc
      refine ⟨hzero, fun day hmem => ?_⟩
      rw [List.mem_singleton.mp hmem, hfil]
      exact hu i hi hc (hclean _ (List.mem_singleton.mpr rfl))
    have hscan : call env e (.scanMovers now hot) = e ∨
        Still (e.todayDays now) (call env e (.scanMovers now hot)) ∧
          Highs (fun _ => False) (e.todayDays now) (call env e (.scanMovers now hot)) := by
      show scanMovers env e now hot = e ∨ Still _ (scanMovers env e now hot) ∧ Highs _ _ (scanMovers env e now hot)
      unfold scanMovers
      split
      · exact .inl rfl
      · split
        · exact .inl rfl
        · exact .inr (still_foldl (fun e sym => still_scanSym e sym) _ _)
    rcases hscan with heq | ⟨hstill, hhighs⟩
    · have hk : Keeps env (fun _ => False) [e.cachedDay] none e (call env e (.scanMovers now hot)) := by
        rw [heq]
        exact ⟨rfl, rfl, .of_eq rfl, hf⟩
      exact ⟨hk.fairs_day (List.mem_singleton.mpr rfl), hk.quiet rfl⟩
    · have hk := hstill.keeps hhighs htoday
      exact ⟨hk.fairs_day (List.mem_singleton.mpr rfl), hk.quiet htrace⟩
  | shutdown now hot =>
    have haside : Aside e (call env e (.shutdown now hot)) := by
      show Aside e (shutdown env e now hot)
      unfold shutdown
      split
      · exact ⟨rfl, rfl, rfl, rfl⟩
      · exact aside_trades _ _
    have hk := haside.still.keeps (P := fun _ => False) haside.highs hf
    exact ⟨hk.fairs_day (List.mem_singleton.mpr rfl), hk.quiet rfl⟩

/-! ## Runs -/

theorem along_clean {calls : List (Call F)} (ht : TableOk env e.core) (hf : Fairs env [e.cachedDay] none e)
    (h : Along env (Undiluted env) e calls) : Along env (HighMeansClean env) e calls := by
  induction calls generalizing e with
  | nil => trivial
  | cons c calls ih =>
    obtain ⟨hfairs, hclean⟩ := call_clean ht hf h.1
    exact ⟨hclean, ih (ht.steps (steps_call ht c)) hfairs h.2⟩

/-- In a run whose calls bring up no flag for a watch that can become `HIGH`, every `HIGH` is for a
watch without flags, whose issuer's filings have none on the day. -/
theorem high_means_clean (env : Env F) (filings : FilingsHistory) (calls : List (Call F))
    (h : Along env (Undiluted env) (init env filings) calls) :
    Along env (HighMeansClean env) (init env filings) calls :=
  along_clean (tableOk_init filings) (fun _ hi => absurd hi List.not_mem_nil) h

/-- One symbol with a board, and a scorer that finds every story strong. -/
def strongEnv : Env ℚ :=
  { acmeEnv with scoreText := fun _ _ => { ScoreResult.zero with catalyst := .fdaApproval, textScore := 80 } }

/-- The prices when the story comes. -/
def calmTape : Hot := fun _ _ => { lastPx := 20000 }

/-- A prospectus of the issuer. -/
def offering : NewsEvent ℚ :=
  { acmeEvent with kind := .filing, cik := 7, form := .print pos_16 (lit "424B5") }

/-- A story and the move that confirms it. -/
theorem high_means_clean_confirmed :
    let calls : List (Call ℚ) := [.news acmeEvent 1700000000000000000 calmTape, .evaluate 1700000002000000000 runner]
    ((run strongEnv (init strongEnv {}) calls).trace.emitted.map fun m => m.signal.tier) = [.watch, .high] ∧
      Along strongEnv (HighMeansClean strongEnv) (init strongEnv {}) calls := by
  refine ⟨by decide +kernel, high_means_clean strongEnv {} _ ⟨fun _ => ⟨?_, fun sym _ _ => ?_⟩, ?_, trivial⟩⟩
  · exact fun i hi => absurd hi List.not_mem_nil
  · have hfil : (noted (init strongEnv {}) acmeEvent 1700000000000000000).filings = {} := by decide +kernel
    rw [hfil]
    rfl
  · have hfil : (call strongEnv (init strongEnv {}) (.news acmeEvent 1700000000000000000 calmTape)).filings =
        {} := by decide +kernel
    intro i _ _ _
    rw [hfil]
    rfl

/-- A prospectus between the story and the move does not keep the ticker from becoming `HIGH`. -/
theorem offering_then_high :
    ¬ Along strongEnv (HighMeansClean strongEnv) (init strongEnv {}) [.news acmeEvent 1700000000000000000 calmTape,
      .news offering 1700000001000000000 calmTape, .evaluate 1700000002000000000 runner] := by
  rintro ⟨-, -, hlast, -⟩
  have hany : ((call strongEnv (call strongEnv (call strongEnv (init strongEnv {})
      (.news acmeEvent 1700000000000000000 calmTape)) (.news offering 1700000001000000000 calmTape))
      (.evaluate 1700000002000000000 runner)).trace.emitted.drop 2).any
        (fun m => decide (m.signal.tier = .high ∧ m.signal.dilutionFlags ≠ 0)) = true := by decide +kernel
  have htwo : (call strongEnv (call strongEnv (init strongEnv {})
      (.news acmeEvent 1700000000000000000 calmTape))
      (.news offering 1700000001000000000 calmTape)).trace.emitted.length = 2 := by decide +kernel
  rw [← htwo] at hany
  obtain ⟨m, hm, hbad⟩ := List.any_eq_true.mp hany
  obtain ⟨hhigh, hflags⟩ := of_decide_eq_true hbad
  exact hflags (hlast m hm hhigh).1

end Engine

end Stok
