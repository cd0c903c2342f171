import Stok.Engine.Emission
import Stok.Engine.Turns

/-!
# Outcomes and their stories

An outcome is written for a watch, and a watch is started by a story and may be taken over by a later
one. `Ledger` follows both through a run: every watch is tagged with the call and the place of the
ticker that started it, and every outcome with the tag of its watch and the place of its horizon. No
two outcomes have the same origin.
-/

namespace Stok

open Dbl (ofRat)

namespace Engine

variable {F : Type} [Dbl F]

/-- Where an outcome comes from: the call that handled the story, the place of the ticker in the
story and the place of the horizon in the configuration. -/
structure Origin where
  call : Nat
  ticker : Nat
  horizon : Nat
  deriving DecidableEq, Repr

/-- The time that a story counts as received at. -/
def receivedAt (ev : NewsEvent F) (now : UInt64) : UInt64 := if ev.recvNs ≠ 0 then ev.recvNs else now

section

variable (env : Env F)

/-- The reference price taken when a story is handled, for its ticker at the place `j`. -/
def refAt (hot : Hot) (j : Nat) (sym : UInt32) : Int :=
  let h := env.look hot (.news j) sym
  if 0 < h.lastPx then h.lastPx
  else Time.toInt (Dbl.lround ((env.info sym).prevClose * ofRat 10000))

/-- The engine, duplicate data and score that `on_news` scores a story with; `none` if it does not. -/
def scoring (e : Engine F) (ev : NewsEvent F) (now : UInt64) :
    Option (Engine F × Dedupe × ScoreResult F) :=
  let (e, d) := e.dedupe ev
  match ev.kind with
  | .halt => none
  | .filing =>
    let cls := classifyForm ev.form.bytes
    if cls ≠ .form8K ∧ cls ≠ .form6K then none
    else some (e.noteFiling ev now, d, filingScore env ev)
  | .news | .filingDoc => some (e, d, env.scoreText ev.title.bytes ev.body.bytes)

/-- The loop of a scored story over its tickers. -/
def listed (e : Engine F) (ev : NewsEvent F) (r : ScoreResult F) (now : UInt64) (hot : Hot) :
    NewsLoop F :=
  (if ev.kind = .news then ev.tickers else ev.tickers.take 1).zipIdx.foldl
    (newsTicker env ev r now hot)
    { e := e.todayDays now
      p := { r := r, sym := SymbolTable.kInvalid, dil := 0, mcap := ofRat 0, price := ofRat 0
             inu := false }
      touched := false }

/-- The engine that a call walks through its watches, if it does. -/
def evaluated (e : Engine F) : Call F → Option (Engine F)
  | .news ev now hot =>
    match scoring env e ev now with
    | none => none
    | some (e, d, r) =>
      let l := listed env e ev r now hot
      if l.touched then some (l.e.journalNews ev d l.p now) else none
  | .evaluate _ _ => some e
  | _ => none

variable (filings : FilingsHistory) (calls : List (Call F))

/-- The `b`th call looks at a watch on `sym` and reads the price `px`. -/
def Sees (b : Nat) (sym : UInt32) (px : Int) : Prop :=
  ∃ c e k i, calls[b]? = some c ∧
    evaluated env (run env (init env filings) (calls.take b)) c = some e ∧
    e.active[k]? = some i ∧ (e.watch i).sym = sym ∧ px = (env.look c.hot (.eval k) sym).lastPx

/-- A reference price of a watch on `sym` from the call `a`: the one taken then, or if that was
unknown the first print seen since. -/
def RefPrice (a : Nat) (sym : UInt32) (taken px : Int) : Prop :=
  0 < px ∧ (0 < taken ∧ px = taken ∨ taken ≤ 0 ∧ ∃ b, a ≤ b ∧ Sees env filings calls b sym px ∧
    ∀ b', a ≤ b' → b' < b → ∀ px', Sees env filings calls b' sym px' → px' ≤ 0)

/-- The id `n` is that of the story `ev` of the call `a`, or of a later story on the same ticker. -/
def Named (a : Nat) (ev : NewsEvent F) (sym : UInt32) (n : UInt64) : Prop :=
  n = ev.idHash ∨ ∃ b ev' now' hot', a < b ∧ calls[b]? = some (.news ev' now' hot') ∧
    ev'.kind ≠ .halt ∧ sym ∈ ev'.tickers ∧ n = ev'.idHash

/-- An outcome is that of the story and ticker of its origin: their time, their reference price and
a horizon that has passed. -/
def Belongs (o : Outcome F) (g : Origin) : Prop :=
  ∃ ev now hot h px, calls[g.call]? = some (.news ev now hot) ∧ ev.kind ≠ .halt ∧
    ev.tickers[g.ticker]? = some o.sym ∧
    env.cfg.outcomeHorizonsS[g.horizon]? = some h ∧ o.horizonS = h.toUInt32 ∧
    o.tNewsRecvNs = receivedAt ev now ∧
    o.horizonS.toNat * 1000000000 ≤ o.tNs.toNat - o.tNewsRecvNs.toNat ∧
    o.refPrice = MarketHot.dollars px ∧
    RefPrice env filings calls g.call o.sym (refAt env hot g.ticker o.sym) px ∧
    Named calls g.call ev o.sym o.newsId

end

/-! ## What a watch tells of its story -/

structure Tale where
  sym : UInt32
  newsId : UInt64
  tNews : UInt64
  refPx : Int
  horizonsDone : UInt32

def Watch.tale (w : Watch F) : Tale := ⟨w.sym, w.newsId, w.tNews, w.refPx, w.horizonsDone⟩

variable {env : Env F} {e e' : Engine F} {c : Call F} {ev : NewsEvent F} {now : UInt64} {hot : Hot}
  {filings : FilingsHistory} {calls : List (Call F)}

/-- The watches keep what they tell, and no outcome is written. -/
structure SameTales (e e' : Engine F) : Prop where
  active : e'.active = e.active
  tale : ∀ i, (e'.watch i).tale = (e.watch i).tale
  outcomes : e'.outcomes = e.outcomes

theorem SameTales.refl (e : Engine F) : SameTales e e := ⟨rfl, fun _ => rfl, rfl⟩

theorem SameTales.trans {e₁ e₂ e₃ : Engine F} (h : SameTales e₁ e₂) (h' : SameTales e₂ e₃) :
    SameTales e₁ e₃ :=
  ⟨h'.active.trans h.active, fun i => (h'.tale i).trans (h.tale i), h'.outcomes.trans h.outcomes⟩

theorem Aside.sameTales (h : Aside e e') : SameTales e e' :=
  ⟨congrArg Core.active h.core, fun i => congrArg (fun c => (c.watch i).tale) h.core, h.outcomes⟩

theorem SameTales.foldl {α : Type} {f : Engine F → α → Engine F} (hf : ∀ e a, SameTales e (f e a))
    (l : List α) (e : Engine F) : SameTales e (l.foldl f e) := by
  induction l generalizing e with
  | nil => exact .refl e
  | cons a l ih => exact (hf e a).trans (ih _)

theorem outcomes_emit (w : Watch F) (tier : Tier) (h : MarketHot) (reason : Bytes) :
    (emit env e w tier now h reason).outcomes = e.outcomes := by
  show List.filterMap _ (e.journal ++ [_]) = _
  rw [List.filterMap_append]
  exact List.append_nil _

theorem SameTales.emit (hs : SameTales e e') {w : Watch F} {tier : Tier} {h : MarketHot}
    {reason : Bytes} : SameTales e (emit env e' w tier now h reason) :=
  ⟨hs.active, hs.tale, (outcomes_emit w tier h reason).trans hs.outcomes⟩

theorem SameTales.emitCooled (hs : SameTales e e') (env : Env F) (w : Watch F) (tier : Tier) (now : UInt64)
    (h : MarketHot) : SameTales e (emitCooled env e' w tier now h) := by
  unfold Engine.emitCooled cooledDown
  dsimp only
  split
  · rename_i heq
    split at heq <;> cases heq
    refine SameTales.emit ?_
    exact ⟨hs.active, hs.tale, hs.outcomes⟩
  · rename_i heq
    split at heq <;> cases heq
    exact ⟨hs.active, hs.tale, hs.outcomes⟩

theorem sameTales_todayDays (e : Engine F) (now : UInt64) : SameTales e (e.todayDays now) := by
  unfold todayDays
  split
  · exact ⟨rfl, fun _ => rfl, rfl⟩
  · exact .refl e

theorem sameTales_dilutionInfo (ev : NewsEvent F) (cls : FormClass) (e : Engine F)
    (t : UInt32 × Nat) : SameTales e (dilutionInfo env ev cls now hot e t) := by
  unfold dilutionInfo
  split
  · exact .refl e
  · rename_i i hfind
    refine SameTales.emit ?_
    refine ⟨rfl, fun j => ?_, rfl⟩
    show (Function.update e.watch i _ j).tale = _
    rcases eq_or_ne j i with rfl | hj
    · rw [Function.update_self]
      rfl
    · rw [Function.update_of_ne hj]

theorem sameTales_scanSym (e : Engine F) (sym : UInt32) : SameTales e (scanSym env now hot e sym) := by
  unfold scanSym
  split
  · exact .refl e
  · split
    · exact .refl e
    · dsimp only
      split
      · exact ⟨rfl, fun _ => rfl, rfl⟩
      · refine SameTales.emit ?_
        exact ⟨rfl, fun _ => rfl, rfl⟩

theorem sameTales_handleHalt (e : Engine F) (sym : UInt32) (halted : Bool) (reason title : Bytes)
    (i : Nat) : SameTales e (handleHalt env e sym halted reason now title hot i) := by
  have hnote : SameTales e (e.noteHalt sym halted now).1 := by
    unfold noteHalt
    dsimp only
    split <;> exact ⟨rfl, fun _ => rfl, rfl⟩
  unfold handleHalt
  split
  · exact .refl e
  · generalize e.noteHalt sym halted now = p at hnote
    obtain ⟨e', passed⟩ := p
    cases passed with
    | false => exact hnote
    | true =>
      dsimp only
      split
      · exact hnote
      · exact hnote.emit

/-! ## A call that does not look at its watches -/

/-- What `on_news` does with a story that it does not score. -/
theorem sameTales_unscored (hs : scoring env e ev now = none) :
    SameTales e (onNews env e ev now hot) := by
  have hd := (aside_dedupe e ev).sameTales
  unfold scoring at hs
  unfold onNews
  generalize e.dedupe ev = p at hs hd
  obtain ⟨e', d⟩ := p
  dsimp only at hs hd ⊢
  refine hd.trans ?_
  cases hk : ev.kind with
  | halt =>
    refine .trans ?_ (aside_journalNews ev d _ now).sameTales
    exact .foldl (fun e t => sameTales_handleHalt e _ _ _ _ _) _ _
  | filing =>
    rw [hk] at hs
    dsimp only at hs ⊢
    split at hs
    · rename_i hcls
      rw [if_pos hcls]
      have hfile : SameTales e' (e'.noteFiling ev now) :=
        (sameTales_todayDays e' now).trans ⟨rfl, fun _ => rfl, rfl⟩
      refine hfile.trans (.trans ?_ (aside_journalNews ev d _ now).sameTales)
      unfold onRegistration
      dsimp only
      split
      · exact .foldl (fun e t => sameTales_dilutionInfo ev _ e t) _ _
      · exact .refl _
    · cases hs
  | news =>
    rw [hk] at hs
    cases hs
  | filingDoc =>
    rw [hk] at hs
    cases hs

/-- What it does with one that it scores. -/
theorem onNews_scored (hot : Hot) {e₁ : Engine F} {d : Dedupe} {r : ScoreResult F}
    (hs : scoring env e ev now = some (e₁, d, r)) :
    SameTales e e₁ ∧ Steps env now e e₁ ∧ ev.kind ≠ .halt ∧
      onNews env e ev now hot = onScored env e₁ ev d r now hot := by
  have hd := (aside_dedupe e ev).sameTales
  have hq : Steps env now e (e.dedupe ev).1 := steps_quiet (dedupe_core e ev)
  unfold scoring at hs
  unfold onNews
  generalize e.dedupe ev = p at hs hd hq
  obtain ⟨e', d'⟩ := p
  dsimp only at hs hd hq ⊢
  cases hk : ev.kind with
  | halt =>
    rw [hk] at hs
    cases hs
  | filing =>
    rw [hk] at hs
    dsimp only at hs ⊢
    split at hs
    · cases hs
    · rename_i hcls
      rw [if_neg hcls]
      cases hs
      have hfile : Steps env now e' (e'.noteFiling ev now) :=
        .tail (.single (.today e')) (.quiet rfl)
      exact ⟨hd.trans ((sameTales_todayDays e' now).trans ⟨rfl, fun _ => rfl, rfl⟩), hq.trans hfile,
        nofun, rfl⟩
  | news =>
    rw [hk] at hs
    cases hs
    exact ⟨hd, hq, nofun, rfl⟩
  | filingDoc =>
    rw [hk] at hs
    cases hs
    exact ⟨hd, hq, nofun, rfl⟩

theorem onScored_eq (d : Dedupe) (r : ScoreResult F) :
    onScored env e ev d r now hot =
      if (listed env e ev r now hot).touched then
        evaluate env ((listed env e ev r now hot).e.journalNews ev d (listed env e ev r now hot).p now)
          now hot
      else (listed env e ev r now hot).e.journalNews ev d (listed env e ev r now hot).p now := rfl

/-! ## A look at a watch -/

/-- A horizon that the walk takes as reached has passed, also where its product with the seconds wraps. -/
theorem horizon_passed {h : Int32} {age : UInt64} (hle : toU64 h.toInt * kNsPerSec ≤ age) :
    h.toUInt32.toNat * 1000000000 ≤ age.toNat := by
  have hle' := UInt64.le_iff_toNat_le.mp hle
  have hprod : (toU64 h.toInt * kNsPerSec).toNat =
      (h.toInt % 2 ^ 64).toNat % 2 ^ 64 * 1000000000 % 2 ^ 64 := by
    rw [UInt64.toNat_mul, toU64, UInt64.toNat_ofNat']
    rfl
  have hint : h.toInt = (h.toUInt32.toBitVec).toInt := rfl
  have hlt : h.toUInt32.toNat < 2 ^ 32 := h.toUInt32.toNat_lt
  rw [BitVec.toInt_eq_toNat_cond] at hint
  have hnat : h.toUInt32.toBitVec.toNat = h.toUInt32.toNat := rfl
  rw [hnat] at hint
  rw [hprod] at hle'
  split at hint <;> rw [hint] at hle' <;> omega

theorem ageOf_toNat (now tNews : UInt64) : (ageOf now tNews).toNat = now.toNat - tNews.toNat := by
  unfold ageOf
  split
  · rename_i hlt
    exact UInt64.toNat_sub_of_le _ _ (UInt64.le_of_lt hlt)
  · rename_i hge
    have hle := UInt64.le_iff_toNat_le.mp (UInt64.not_lt.mp hge)
    show 0 = _
    omega

/-- The horizon `h` at the place `p` is reached, and its bit is set by it. -/
def Reached (age : UInt64) (hs : List Int32) (done done' : UInt32) (h : Int32) (p : Nat) : Prop :=
  p < 32 ∧ hs[p]? = some h ∧ h.toUInt32.toNat * 1000000000 ≤ age.toNat ∧ hasBit done p = false ∧
    hasBit done' p = true

/-- The horizons due are those reached now, each at a place of its own; bits that are set stay. -/
theorem horizons_spec (age : UInt64) (all : List Int32) (k : Nat) (done : UInt32) (hs : List Int32)
    (hall : all.drop k = hs) :
    (∀ p < 32, hasBit done p = true → hasBit (horizons age k done hs).1 p = true) ∧
      ∃ ps : List Nat, ps.Nodup ∧ (∀ p ∈ ps, k ≤ p) ∧
        List.Forall₂ (Reached age all done (horizons age k done hs).1) (horizons age k done hs).2 ps := by
  induction hs generalizing k done with
  | nil => exact ⟨fun p _ hp => hp, [], List.nodup_nil, nofun, .nil⟩
  | cons h hs ih =>
    have hget : all[k]? = some h := by
      rw [← List.head?_drop, hall]
      rfl
    have hdrop : all.drop (k + 1) = hs := by
      rw [← List.tail_drop, hall]
      rfl
    rw [horizons]
    split
    · exact ⟨fun p _ hp => hp, [], List.nodup_nil, nofun, .nil⟩
    · rename_i hk
      split
      · rename_i hdue
        obtain ⟨hkeep, ps, hnd, hle, hall₂⟩ := ih (k + 1) (done ||| 1 <<< UInt32.ofNat k) hdrop
        have hbit : ∀ p < 32, hasBit (done ||| 1 <<< UInt32.ofNat k) p =
            (hasBit done p || decide (p = k)) := fun p hp => hasBit_or done (Nat.not_le.mp hk) hp
        generalize horizons age (k + 1) (done ||| 1 <<< UInt32.ofNat k) hs = hz at hkeep hall₂ ⊢
        obtain ⟨done', due⟩ := hz
        dsimp only at hkeep hall₂ ⊢
        refine ⟨fun p hp hset => hkeep p hp ?_, k :: ps, ?_, ?_, .cons ?_ (hall₂.imp ?_)⟩
        · rw [hbit p hp, hset]
          rfl
        · exact List.nodup_cons.mpr ⟨fun hmem => Nat.not_succ_le_self k (hle k hmem), hnd⟩
        · intro p hp
          rcases List.mem_cons.mp hp with rfl | hp
          · exact le_rfl
          · exact (hle p hp).trans' (Nat.le_succ k)
        · refine ⟨Nat.not_le.mp hk, hget, horizon_passed hdue.2, ?_, hkeep k (Nat.not_le.mp hk) ?_⟩
          · simpa using hdue.1
          · rw [hbit k (Nat.not_le.mp hk)]
            simp
        · rintro h' p ⟨hp, hget', hage, hunset, hset⟩
          rw [hbit p hp, Bool.or_eq_false_iff] at hunset
          exact ⟨hp, hget', hage, hunset.1, hset⟩
      · obtain ⟨hkeep, ps, hnd, hle, hall₂⟩ := ih (k + 1) done hdrop
        exact ⟨hkeep, ps, hnd, fun p hp => (hle p hp).trans' (Nat.le_succ k), hall₂⟩

/-- What a look does to the tale of a watch, and the outcomes it writes. -/
theorem lookAt_tale (env : Env F) (now : UInt64) (w : Watch F) (h : MarketHot) (hpx : 0 < h.lastPx) :
    let hz := horizons (ageOf now w.tNews) 0 w.horizonsDone env.cfg.outcomeHorizonsS
    ∃ (v : Watch F) (move : F), v.tale = { w.tale with
        refPx := if w.refPx ≤ 0 then h.lastPx else w.refPx
        horizonsDone := hz.1 } ∧
      (lookAt env w now h).1.tale = v.tale ∧
      (lookAt env w now h).2.1 = hz.2.map fun s => .outcome (outcomeOf env v s now h move) := by
  intro hz
  have href : ∀ px : Int, (if w.refPx ≤ 0 then { w with refPx := px } else w).tale =
      { w.tale with refPx := if w.refPx ≤ 0 then px else w.refPx } := by
    intro px
    split <;> rfl
  have hnews := congrArg Tale.tNews (href h.lastPx)
  have hdone := congrArg Tale.horizonsDone (href h.lastPx)
  replace href := href h.lastPx
  unfold lookAt
  rw [if_neg (not_le.mpr hpx)]
  generalize (if w.refPx ≤ 0 then { w with refPx := h.lastPx } else w) = w' at href hnews hdone ⊢
  have hz' : horizons (ageOf now w'.tNews) 0 w'.horizonsDone env.cfg.outcomeHorizonsS = hz := by
    show _ = horizons _ _ _ _
    rw [show w'.tNews = w.tNews from hnews, show w'.horizonsDone = w.horizonsDone from hdone]
  dsimp only
  rw [hz']
  refine ⟨{ w' with
    maxMove := Dbl.max w'.maxMove (movePct h.lastPx w'.refPx)
    minMove := Dbl.min w'.minMove (movePct h.lastPx w'.refPx)
    horizonsDone := hz.1 }, movePct h.lastPx w'.refPx, ?_, ?_⟩
  · show (⟨w'.sym, w'.newsId, w'.tNews, w'.refPx, hz.1⟩ : Tale) = _
    exact congrArg (fun t : Tale => { t with horizonsDone := hz.1 }) href
  · split
    · exact ⟨rfl, rfl⟩
    · generalize (if isHigh env _ h = true then Tier.high else Tier.alert) = t
      split <;> exact ⟨rfl, rfl⟩

theorem outcomes_write (outs : List (Outcome F)) (e : Engine F) :
    (e.write (outs.map .outcome)).outcomes = e.outcomes ++ outs := by
  show List.filterMap _ (e.journal ++ outs.map .outcome) = _
  rw [List.filterMap_append, List.filterMap_map]
  congr 1
  exact List.filterMap_some

/-- What a turn of the walk does: it removes the watch, or reads no price, or looks at it. -/
theorem evalAt_tale (env : Env F) (now : UInt64) (hot : Hot) {k : Nat} {i : SlotId} (hk : e.active[k]? = some i) :
    let e' := evalAt env now hot e k
    let w := e.watch i
    let h := env.look hot (.eval k) w.sym
    let hz := horizons (ageOf now w.tNews) 0 w.horizonsDone env.cfg.outcomeHorizonsS
    (e'.active = Lib.swapRemove e.active k i ∧ (∀ j, (e'.watch j).tale = (e.watch j).tale) ∧
      e'.outcomes = e.outcomes) ∨
    (h.lastPx ≤ 0 ∧ SameTales e e') ∨
    (0 < h.lastPx ∧ e'.active = e.active ∧ (∀ j ≠ i, (e'.watch j).tale = (e.watch j).tale) ∧
      ∃ (v : Watch F) (move : F), v.tale = { w.tale with
          refPx := if w.refPx ≤ 0 then h.lastPx else w.refPx
          horizonsDone := hz.1 } ∧
        (e'.watch i).tale = v.tale ∧
        e'.outcomes = e.outcomes ++ hz.2.map fun s => outcomeOf env v s now h move) := by
  intro e' w h hz
  have hset : ∀ v : Watch F, v.tale = w.tale → ∀ j, (Function.update e.watch i v j).tale = (e.watch j).tale := by
    intro v hv j
    rcases eq_or_ne j i with rfl | hj
    · rw [Function.update_self, hv]
    · rw [Function.update_of_ne hj]
  show _ ∨ _
  simp only [e', evalAt, hk]
  split
  · left
    rw [deactivateWatch_eq hk]
    exact ⟨rfl, hset _ rfl, rfl⟩
  · right
    split
    · rename_i hboard
      left
      have hlook : h = {} := if_neg fun hb => by rw [hb] at hboard; cases hboard
      rw [hlook]
      exact ⟨le_rfl, .refl e⟩
    · rename_i hboard
      have hlook : h = hot (.eval k) w.sym := if_pos (by simpa using hboard)
      rw [show e.watch i = w from rfl, ← hlook]
      rcases le_or_gt h.lastPx 0 with hpx | hpx
      · left
        have hnone : lookAt env w now h = (w, [], none) := by rw [lookAt, if_pos hpx]
        rw [hnone]
        refine ⟨hpx, rfl, hset w rfl, ?_⟩
        exact (outcomes_write [] (e.setWatch i w)).trans (List.append_nil _)
      · right
        obtain ⟨v, move, hv, htale, houts⟩ := lookAt_tale env now w h hpx
        generalize lookAt env w now h = r at htale houts
        obtain ⟨w', outs, t⟩ := r
        dsimp only at htale houts
        have hnew : outs = (hz.2.map fun s => outcomeOf env v s now h move).map .outcome := by
          rw [houts, List.map_map]
          rfl
        have hafter : ((e.setWatch i w').write outs).outcomes =
            e.outcomes ++ hz.2.map fun s => outcomeOf env v s now h move := by
          rw [hnew]
          exact outcomes_write _ (e.setWatch i w')
        have hself : (((e.setWatch i w').write outs).watch i).tale = v.tale := by
          show (Function.update e.watch i w' i).tale = _
          rw [Function.update_self, htale]
        have hother : ∀ j ≠ i, (((e.setWatch i w').write outs).watch j).tale = (e.watch j).tale := by
          intro j hj
          show (Function.update e.watch i w' j).tale = _
          rw [Function.update_of_ne hj]
        cases t with
        | none => exact ⟨hpx, rfl, hother, v, move, hv, hself, hafter⟩
        | some t =>
          have hs := (SameTales.refl ((e.setWatch i w').write outs)).emitCooled env w' t
            now (hot (.evalSignal k) w'.sym)
          exact ⟨hpx, hs.active, fun j hj => (hs.tale j).trans (hother j hj), v, move, hv,
            (hs.tale i).trans hself, hs.outcomes.trans hafter⟩

/-! ## The ledger -/

section

variable (env filings calls)

/-- The tale of a watch that the call `a` started with its ticker at the place `p`, where the prints
of the calls below `upto` have been seen. -/
structure Story (upto a p : Nat) (ev : NewsEvent F) (now : UInt64) (hot : Hot) (t : Tale) : Prop where
  handled : calls[a]? = some (.news ev now hot)
  kind : ev.kind ≠ .halt
  ticker : ev.tickers[p]? = some t.sym
  received : t.tNews = receivedAt ev now
  named : Named calls a ev t.sym t.newsId
  price : RefPrice env filings calls a t.sym (refAt env hot p t.sym) t.refPx ∨
    t.refPx ≤ 0 ∧ refAt env hot p t.sym ≤ 0 ∧
      ∀ b, a ≤ b → b < upto → ∀ px, Sees env filings calls b t.sym px → px ≤ 0

/-- The place of a ticker comes before the place `j` of the call `n`. -/
def Before (t : Nat × Nat) (n j : Nat) : Prop := t.1 < n ∨ t.1 = n ∧ t.2 < j

/-- The outcomes written before the place `j` of the call `n` have origins, and the watches are
tagged with the call and ticker that started them. -/
structure Ledger (n j : Nat) (upto : SlotId → Nat) (tag : SlotId → Nat × Nat) (origins : List Origin)
    (e : Engine F) : Prop where
  belongs : List.Forall₂ (Belongs env filings calls) e.outcomes origins
  nodup : origins.Nodup
  past : ∀ g ∈ origins, Before (g.call, g.ticker) n j
  older : ∀ i ∈ e.active, Before (tag i) n j
  story : ∀ i ∈ e.active, ∃ ev now hot,
    Story env filings calls (upto i) (tag i).1 (tag i).2 ev now hot (e.watch i).tale
  distinct : ∀ i ∈ e.active, ∀ k ∈ e.active, tag i = tag k → i = k
  done : ∀ g ∈ origins, ∀ i ∈ e.active, tag i = (g.call, g.ticker) → g.horizon < 32 →
    hasBit (e.watch i).horizonsDone g.horizon = true

end

variable {n j : Nat} {upto : SlotId → Nat} {tag : SlotId → Nat × Nat} {origins : List Origin}

theorem Before.mono {t : Nat × Nat} {n' j' : Nat} (h : Before t n j) (hle : n < n' ∨ n = n' ∧ j ≤ j') :
    Before t n' j' := by
  unfold Before at *
  omega

/-- The ledger is kept where watches keep what they tell, or go. -/
theorem Ledger.shrink (h : Ledger env filings calls n j upto tag origins e)
    (hactive : ∀ i ∈ e'.active, i ∈ e.active) (htale : ∀ i, (e'.watch i).tale = (e.watch i).tale)
    (houts : e'.outcomes = e.outcomes) : Ledger env filings calls n j upto tag origins e' where
  belongs := by rw [houts]; exact h.belongs
  nodup := h.nodup
  past := h.past
  older i hi := h.older i (hactive i hi)
  story i hi := by rw [htale]; exact h.story i (hactive i hi)
  distinct i hi k hk := h.distinct i (hactive i hi) k (hactive k hk)
  done g hg i hi ht hlt := by
    have := h.done g hg i (hactive i hi) ht hlt
    rwa [show (e'.watch i).horizonsDone = (e.watch i).horizonsDone from
      congrArg Tale.horizonsDone (htale i)]

theorem Ledger.sameTales (h : Ledger env filings calls n j upto tag origins e)
    (hs : SameTales e e') : Ledger env filings calls n j upto tag origins e' :=
  h.shrink (fun i hi => by rwa [hs.active] at hi) hs.tale hs.outcomes

/-- A print that is not positive changes nothing. -/
theorem Story.seen {u u' a p : Nat} {t : Tale} (h : Story env filings calls u a p ev now hot t)
    (hnone : ∀ b, u ≤ b → b < u' → ∀ px, Sees env filings calls b t.sym px → px ≤ 0) :
    Story env filings calls u' a p ev now hot t where
  handled := h.handled
  kind := h.kind
  ticker := h.ticker
  received := h.received
  named := h.named
  price := by
    rcases h.price with hp | ⟨hpx, htaken, hsees⟩
    · exact .inl hp
    · refine .inr ⟨hpx, htaken, fun b hab hb px hs => ?_⟩
      rcases Nat.lt_or_ge b u with hlt | hge
      · exact hsees b hab hlt px hs
      · exact hnone b hge hb px hs

/-- The reference price after a print. -/
theorem Story.print {a p : Nat} {t : Tale} {px : Int}
    (h : Story env filings calls n a p ev now hot t) (hle : a ≤ n)
    (hsees : Sees env filings calls n t.sym px) (hpx : 0 < px) :
    RefPrice env filings calls a t.sym (refAt env hot p t.sym) (if t.refPx ≤ 0 then px else t.refPx) := by
  rcases h.price with hp | ⟨hle0, htaken, hnone⟩
  · rw [if_neg (not_le.mpr hp.1)]
    exact hp
  · rw [if_pos hle0]
    exact ⟨hpx, .inr ⟨htaken, n, hle, hsees, fun b hab hb px' => hnone b hab hb px'⟩⟩

/-! ## The walk -/

theorem exists_of_forall₂ {α β : Type} {R : α → β → Prop} {l : List α} {l' : List β}
    (h : List.Forall₂ R l l') {b : β} (hb : b ∈ l') : ∃ a, R a b := by
  induction h with
  | nil => cases hb
  | cons hr _ ih =>
    rcases List.mem_cons.mp hb with rfl | hb
    · exact ⟨_, hr⟩
    · exact ih hb

/-- The origins of the outcomes of a look. -/
theorem Story.belongs {a p : Nat} {t : Tale} {evaluatedAt : UInt64} {h : MarketHot} {v : Watch F} {move : F}
    {px : Int} (hst : Story env filings calls n a p ev now hot t) (hle : a ≤ n)
    (hsees : Sees env filings calls n t.sym px) (hpx : 0 < px) {done : UInt32}
    (hv : v.tale = { t with refPx := if t.refPx ≤ 0 then px else t.refPx, horizonsDone := done })
    {s : Int32} {q : Nat}
    (hr : Reached (ageOf evaluatedAt t.tNews) env.cfg.outcomeHorizonsS t.horizonsDone done s q) :
    Belongs env filings calls (outcomeOf env v s evaluatedAt h move) ⟨a, p, q⟩ := by
  have hsym : v.sym = t.sym := congrArg Tale.sym hv
  have hnews : v.tNews = t.tNews := congrArg Tale.tNews hv
  have hid : v.newsId = t.newsId := congrArg Tale.newsId hv
  have href : v.refPx = if t.refPx ≤ 0 then px else t.refPx := congrArg Tale.refPx hv
  obtain ⟨-, hget, hage, -, -⟩ := hr
  rw [ageOf_toNat] at hage
  refine ⟨ev, now, hot, s, v.refPx, hst.handled, hst.kind, ?_, hget, rfl, ?_, ?_, rfl, ?_, ?_⟩
  · exact hst.ticker.trans (congrArg some hsym.symm)
  · exact hnews.trans hst.received
  · show s.toUInt32.toNat * 1000000000 ≤ evaluatedAt.toNat - v.tNews.toNat
    rw [hnews]
    exact hage
  · show RefPrice env filings calls a v.sym (refAt env hot p v.sym) v.refPx
    rw [hsym, href]
    exact hst.print hle hsees hpx
  · show Named calls a ev v.sym v.newsId
    rw [hsym, hid]
    exact hst.named

theorem Ledger.evalAt (now : UInt64) (h : Ledger env filings calls n j upto tag origins e) (hnd : e.active.Nodup)
    {k : Nat} {i : SlotId} (hk : e.active[k]? = some i) (hupto : upto i = n)
    (hsees : ∀ px, Sees env filings calls n (e.watch i).sym px ↔
      px = (env.look hot (.eval k) (e.watch i).sym).lastPx) :
    ∃ origins', Ledger env filings calls n j (Function.update upto i (n + 1)) tag origins'
      (evalAt env now hot e k) := by
  have hi : i ∈ e.active := List.mem_of_getElem? hk
  obtain ⟨ev₀, now₀, hot₀, hst⟩ := h.story i hi
  rw [hupto] at hst
  have hle : (tag i).1 ≤ n := by
    have := h.older i hi
    unfold Before at this
    omega
  have hother : ∀ m ∈ e.active, m ≠ i → ∃ ev now hot, Story env filings calls
      (Function.update upto i (n + 1) m) (tag m).1 (tag m).2 ev now hot (e.watch m).tale := by
    intro m hm hne
    rw [Function.update_of_ne hne]
    exact h.story m hm
  rcases evalAt_tale env now hot hk with
    ⟨hactive, htale, houts⟩ | ⟨hpx, hs⟩ | ⟨hpx, hactive, htale, v, move, hv, hself, houts⟩
  · have hperm := Lib.swapRemove_perm hk i
    have hgone : ∀ m ∈ (Engine.evalAt env now hot e k).active, m ∈ e.active ∧ m ≠ i := by
      intro m hm
      rw [hactive] at hm
      refine ⟨hperm.mem_iff.mp (List.mem_cons_of_mem i hm), ?_⟩
      rintro rfl
      exact (List.nodup_cons.mp (hperm.nodup_iff.mpr hnd)).1 hm
    have h' := h.shrink (fun m hm => (hgone m hm).1) htale houts
    refine ⟨origins, h'.belongs, h'.nodup, h'.past, h'.older, fun m hm => ?_, h'.distinct, h'.done⟩
    rw [htale]
    exact hother m (hgone m hm).1 (hgone m hm).2
  · have h' := h.sameTales hs
    refine ⟨origins, h'.belongs, h'.nodup, h'.past, h'.older, fun m hm => ?_, h'.distinct, h'.done⟩
    rw [hs.active] at hm
    rw [hs.tale]
    rcases eq_or_ne m i with rfl | hne
    · rw [Function.update_self]
      refine ⟨ev₀, now₀, hot₀, hst.seen fun b hb hb' px hsee => ?_⟩
      obtain rfl : b = n := by omega
      rw [(hsees px).mp hsee]
      exact hpx
    · exact hother m hm hne
  · obtain ⟨hkeep, ps, hpsnd, -, hall⟩ := horizons_spec (ageOf now (e.watch i).tNews)
      env.cfg.outcomeHorizonsS 0 (e.watch i).horizonsDone env.cfg.outcomeHorizonsS rfl
    have hsee := (hsees _).mpr rfl
    have hdone : ((Engine.evalAt env now hot e k).watch i).horizonsDone =
        (horizons (ageOf now (e.watch i).tNews) 0 (e.watch i).horizonsDone
          env.cfg.outcomeHorizonsS).1 :=
      (congrArg Tale.horizonsDone hself).trans (congrArg Tale.horizonsDone hv)
    have hnew : ∀ g ∈ ps.map (Origin.mk (tag i).1 (tag i).2), (g.call, g.ticker) = tag i ∧
        hasBit (e.watch i).horizonsDone g.horizon = false ∧
        hasBit ((Engine.evalAt env now hot e k).watch i).horizonsDone g.horizon = true ∧
        g.horizon < 32 := by
      intro g hg
      obtain ⟨q, hq, rfl⟩ := List.mem_map.mp hg
      obtain ⟨s, hr⟩ := exists_of_forall₂ hall hq
      rw [hdone]
      exact ⟨rfl, hr.2.2.2.1, hr.2.2.2.2, hr.1⟩
    refine ⟨origins ++ ps.map (Origin.mk (tag i).1 (tag i).2), ?_, ?_, fun g hg => ?_, fun m hm => ?_,
      fun m hm => ?_, fun m hm m' hm' => ?_, fun g hg m hm ht hlt => ?_⟩
    · rw [houts]
      refine List.rel_append h.belongs ?_
      rw [List.forall₂_map_left_iff, List.forall₂_map_right_iff]
      exact hall.imp fun s q hr => hst.belongs hle hsee hpx hv hr
    · refine List.nodup_append.mpr ⟨h.nodup, hpsnd.map fun q q' hq => (Origin.mk.inj hq).2.2, ?_⟩
      rintro g hg _ hg' rfl
      obtain ⟨ht, hunset, -, hlt⟩ := hnew g hg'
      exact absurd (hunset.symm.trans (h.done g hg i hi ht.symm hlt)) Bool.false_ne_true
    · rcases List.mem_append.mp hg with hg | hg
      · exact h.past g hg
      · rw [(hnew g hg).1]
        exact h.older i hi
    · rw [hactive] at hm
      exact h.older m hm
    · rw [hactive] at hm
      rcases eq_or_ne m i with rfl | hne
      · rw [Function.update_self, hself, hv]
        exact ⟨ev₀, now₀, hot₀, hst.handled, hst.kind, hst.ticker, hst.received, hst.named,
          .inl (hst.print hle hsee hpx)⟩
      · rw [htale m hne]
        exact hother m hm hne
    · rw [hactive] at hm hm'
      exact h.distinct m hm m' hm'
    · rw [hactive] at hm
      rcases eq_or_ne m i with rfl | hne
      · rcases List.mem_append.mp hg with hg | hg
        · rw [hdone]
          exact hkeep _ hlt (h.done g hg m hm ht hlt)
        · exact (hnew g hg).2.2.1
      · rw [show ((Engine.evalAt env now hot e k).watch m).horizonsDone = (e.watch m).horizonsDone from
          congrArg Tale.horizonsDone (htale m hne)]
        rcases List.mem_append.mp hg with hg | hg
        · exact h.done g hg m hm ht hlt
        · exact absurd (h.distinct m hm i hi (ht.trans (hnew g hg).1)) hne

theorem evalAt_sym {k : Nat} {i : SlotId} (hk : e.active[k]? = some i) (m : SlotId) :
    ((evalAt env now hot e k).watch m).sym = (e.watch m).sym := by
  rcases evalAt_tale env now hot hk with
    ⟨-, htale, -⟩ | ⟨-, hs⟩ | ⟨-, -, htale, v, move, hv, hself, -⟩
  · exact congrArg Tale.sym (htale m)
  · exact congrArg Tale.sym (hs.tale m)
  · rcases eq_or_ne m i with rfl | hne
    · exact (congrArg Tale.sym hself).trans (congrArg Tale.sym hv)
    · exact congrArg Tale.sym (htale m hne)

/-- A turn leaves the entries below its position. -/
theorem evalAt_below (env : Env F) (now : UInt64) (hot : Hot) {k : Nat} {i : SlotId} (hk : e.active[k]? = some i) (hnd : e.active.Nodup) :
    (evalAt env now hot e k).active.take k = e.active.take k ∧
      (evalAt env now hot e k).active.Nodup := by
  have hactive : (evalAt env now hot e k).active = if decide (windowNs env < ageOf now (e.watch i).tNews) then
      Lib.swapRemove e.active k i else e.active := (evalAt_turn hot e k i (fun _ => rfl) hk).2
  rw [hactive]
  split
  · exact ⟨(Lib.swapRemove_spec hk i).1,
      (List.nodup_cons.mp ((Lib.swapRemove_perm hk i).nodup_iff.mpr hnd)).2⟩
  · exact ⟨rfl, hnd⟩

/-- A call reads one price of a watched ticker. -/
theorem sees_iff {e₀ : Engine F} (hc : calls[n]? = some c)
    (hev : evaluated env (run env (init env filings) (calls.take n)) c = some e₀)
    (ht : TableOk env e₀.core) {k : Nat} {i : SlotId} (hk : e₀.active[k]? = some i) (px : Int) :
    Sees env filings calls n (e₀.watch i).sym px ↔
      px = (env.look c.hot (.eval k) (e₀.watch i).sym).lastPx := by
  constructor
  · rintro ⟨c', e', k', i', hc', hev', hk', hsym, rfl⟩
    obtain rfl := Option.some.inj (hc.symm.trans hc')
    obtain rfl := Option.some.inj (hev.symm.trans hev')
    obtain rfl : i' = i := ht.unique (List.mem_of_getElem? hk') (List.mem_of_getElem? hk) hsym
    obtain rfl : k = k' :=
      (List.getElem?_inj (List.getElem?_eq_some_iff.mp hk).1 ht.active_nodup).mp (hk.trans hk'.symm)
    rfl
  · rintro rfl
    exact ⟨c, e₀, k, i, hc, hev, hk, rfl, rfl⟩

theorem Ledger.evalLoop (now : UInt64) {e₀ : Engine F} (hc : calls[n]? = some c) (hhot : c.hot = hot)
    (hev : evaluated env (run env (init env filings) (calls.take n)) c = some e₀)
    (ht : TableOk env e₀.core) {k : Nat} (hle : k ≤ e₀.active.length) {s : Engine F}
    (hsame : s.active.take k = e₀.active.take k) (hsym : ∀ i, (s.watch i).sym = (e₀.watch i).sym)
    (hnd : s.active.Nodup)
    (h : Ledger env filings calls n j (fun i => if i ∈ s.active.take k then n else n + 1) tag origins s) :
    ∃ origins', Ledger env filings calls n j (fun _ => n + 1) tag origins'
      (evalLoop env now hot k s).1 := by
  induction k generalizing s origins with
  | zero =>
    have hupto : (fun i => if i ∈ s.active.take 0 then n else n + 1) = fun _ => n + 1 := by
      funext i
      exact if_neg (by simp)
    rw [hupto] at h
    exact ⟨origins, h⟩
  | succ k ih =>
    obtain ⟨i, hi⟩ : ∃ i, e₀.active[k]? = some i := ⟨_, List.getElem?_eq_getElem hle⟩
    have hk : s.active[k]? = some i := by
      have := congrArg (·[k]?) hsame
      simpa [List.getElem?_take, hi] using this
    have htake : s.active.take (k + 1) = s.active.take k ++ [i] := by
      rw [List.take_add_one, hk]
      rfl
    have hnotin : i ∉ s.active.take k := by
      have hnd' : (s.active.take k ++ [i]).Nodup := htake ▸ hnd.sublist (List.take_sublist _ _)
      exact fun hmem => (List.nodup_append.mp hnd').2.2 i hmem i (List.mem_singleton.mpr rfl) rfl
    obtain ⟨hbelow, hnd'⟩ := evalAt_below env now hot hk hnd
    have hread : ∀ px, Sees env filings calls n (s.watch i).sym px ↔
        px = (env.look hot (.eval k) (s.watch i).sym).lastPx := by
      rw [hsym i, ← hhot]
      exact sees_iff hc hev ht hi
    obtain ⟨origins', h'⟩ := h.evalAt now hnd hk
      (if_pos (by rw [htake]; exact List.mem_append_right _ (List.mem_singleton.mpr rfl))) hread
    have hupto : Function.update (fun i => if i ∈ s.active.take (k + 1) then n else n + 1) i (n + 1) =
        fun m => if m ∈ (Engine.evalAt env now hot s k).active.take k then n else n + 1 := by
      funext m
      rw [hbelow]
      rcases eq_or_ne m i with rfl | hne
      · rw [Function.update_self, if_neg hnotin]
      · rw [Function.update_of_ne hne, htake]
        simp only [List.mem_append, List.mem_singleton, hne, or_false]
    rw [hupto] at h'
    refine ih (Nat.le_of_succ_le hle) (hbelow.trans ?_) (fun m => ?_) hnd' h'
    · have := congrArg (List.take k) hsame
      rwa [List.take_take, List.take_take, Nat.min_eq_left (Nat.le_succ k)] at this
    · rw [evalAt_sym hk, hsym]

/-- The ledger of the next call, when the call has seen what it sees. -/
theorem Ledger.next (h : Ledger env filings calls n j upto tag origins e)
    (hupto : ∀ i ∈ e.active, upto i = n + 1) :
    Ledger env filings calls (n + 1) 0 (fun _ => n + 1) tag origins e where
  belongs := h.belongs
  nodup := h.nodup
  past g hg := (h.past g hg).mono (.inl (Nat.lt_succ_self n))
  older i hi := (h.older i hi).mono (.inl (Nat.lt_succ_self n))
  story i hi := hupto i hi ▸ h.story i hi
  distinct := h.distinct
  done := h.done

theorem Ledger.evaluate (now : UInt64) (hc : calls[n]? = some c) (hhot : c.hot = hot)
    (hev : evaluated env (run env (init env filings) (calls.take n)) c = some e)
    (ht : TableOk env e.core) (h : Ledger env filings calls n j (fun _ => n) tag origins e) :
    ∃ origins', Ledger env filings calls (n + 1) 0 (fun _ => n + 1) tag origins'
      (evaluate env e now hot) := by
  have hstart : Ledger env filings calls n j
      (fun i => if i ∈ e.active.take e.active.length then n else n + 1) tag origins e := by
    refine ⟨h.belongs, h.nodup, h.past, h.older, fun i hi => ?_, h.distinct, h.done⟩
    rw [List.take_length, if_pos hi]
    exact h.story i hi
  obtain ⟨origins', h'⟩ := Ledger.evalLoop now hc hhot hev ht le_rfl rfl (fun _ => rfl)
    ht.active_nodup hstart
  refine ⟨origins', (h'.next fun _ _ => rfl).sameTales ?_⟩
  refine SameTales.trans ?_ (aside_paperStep now hot).sameTales
  exact ⟨rfl, fun _ => rfl, rfl⟩

/-- The same for a call that looks at no watch. -/
theorem Ledger.unseen (hc : calls[n]? = some c)
    (hev : evaluated env (run env (init env filings) (calls.take n)) c = none)
    (h : Ledger env filings calls n j (fun _ => n) tag origins e) :
    Ledger env filings calls (n + 1) 0 (fun _ => n + 1) tag origins e := by
  have h' : Ledger env filings calls n j (fun _ => n + 1) tag origins e := by
    refine ⟨h.belongs, h.nodup, h.past, h.older, fun i hi => ?_, h.distinct, h.done⟩
    obtain ⟨ev, now, hot, hst⟩ := h.story i hi
    refine ⟨ev, now, hot, hst.seen fun b hb hb' px hs => ?_⟩
    obtain rfl : b = n := by omega
    obtain ⟨c', e', k, i', hc', hev', -⟩ := hs
    obtain rfl := Option.some.inj (hc.symm.trans hc')
    exact absurd (hev.symm.trans hev') nofun
  exact h'.next fun _ _ => rfl

/-! ## Stories -/

theorem Ledger.later (h : Ledger env filings calls n j upto tag origins e) :
    Ledger env filings calls n (j + 1) upto tag origins e where
  belongs := h.belongs
  nodup := h.nodup
  past g hg := (h.past g hg).mono (.inr ⟨rfl, Nat.le_succ j⟩)
  older i hi := (h.older i hi).mono (.inr ⟨rfl, Nat.le_succ j⟩)
  story := h.story
  distinct := h.distinct
  done := h.done

/-- A watch that is taken over by a later story. -/
theorem Ledger.takeover (h : Ledger env filings calls n j upto tag origins e)
    (hc : calls[n]? = some (.news ev now hot)) (hkind : ev.kind ≠ .halt) {i : SlotId}
    (hsym : (e.watch i).sym ∈ ev.tickers) (hactive : e'.active = e.active)
    (houts : e'.outcomes = e.outcomes) (hother : ∀ m ≠ i, (e'.watch m).tale = (e.watch m).tale)
    (hself : (e'.watch i).tale = { (e.watch i).tale with newsId := ev.idHash }) :
    Ledger env filings calls n j upto tag origins e' where
  belongs := by rw [houts]; exact h.belongs
  nodup := h.nodup
  past := h.past
  older m hm := h.older m (hactive ▸ hm)
  story m hm := by
    rw [hactive] at hm
    obtain ⟨ev₀, now₀, hot₀, hst⟩ := h.story m hm
    rcases eq_or_ne m i with rfl | hne
    · refine ⟨ev₀, now₀, hot₀, ?_⟩
      rw [hself]
      refine ⟨hst.handled, hst.kind, hst.ticker, hst.received, ?_, hst.price⟩
      rcases h.older m hm with hlt | ⟨heq, -⟩
      · exact .inr ⟨n, ev, now, hot, hlt, hc, hkind, hsym, rfl⟩
      · have hsame := hst.handled
        rw [heq, hc] at hsame
        cases hsame
        exact .inl rfl
    · rw [hother m hne]
      exact ⟨ev₀, now₀, hot₀, hst⟩
  distinct m hm m' hm' := h.distinct m (hactive ▸ hm) m' (hactive ▸ hm')
  done g hg m hm ht hlt := by
    have hdone : (e'.watch m).horizonsDone = (e.watch m).horizonsDone := by
      rcases eq_or_ne m i with rfl | hne
      · exact congrArg Tale.horizonsDone hself
      · exact congrArg Tale.horizonsDone (hother m hne)
    rw [hdone]
    exact h.done g hg m (hactive ▸ hm) ht hlt

/-- A watch that the story starts. -/
theorem Ledger.start (h : Ledger env filings calls n j (fun _ => n) tag origins e) {i : SlotId}
    (hi : i ∉ e.active) (hactive : e'.active = e.active ++ [i]) (houts : e'.outcomes = e.outcomes)
    (hother : ∀ m ∈ e.active, (e'.watch m).tale = (e.watch m).tale)
    (hst : ∃ ev now hot, Story env filings calls n n j ev now hot (e'.watch i).tale) :
    Ledger env filings calls n (j + 1) (fun _ => n) (Function.update tag i (n, j)) origins e' := by
  have hcases : ∀ m ∈ e'.active, m ∈ e.active ∧ m ≠ i ∧ Function.update tag i (n, j) m = tag m ∨
      m = i ∧ Function.update tag i (n, j) m = (n, j) := by
    intro m hm
    rw [hactive] at hm
    rcases List.mem_append.mp hm with hm | hm
    · have hne : m ≠ i := fun heq => hi (heq ▸ hm)
      exact .inl ⟨hm, hne, Function.update_of_ne hne _ _⟩
    · obtain rfl := List.mem_singleton.mp hm
      exact .inr ⟨rfl, Function.update_self ..⟩
  have hfresh : ∀ t : Nat × Nat, Before t n j → t ≠ (n, j) := by
    rintro t ht rfl
    unfold Before at ht
    omega
  have hl := h.later
  refine ⟨houts ▸ h.belongs, h.nodup, hl.past, fun m hm => ?_, fun m hm => ?_, fun m hm m' hm' heq => ?_,
    fun g hg m hm ht hlt => ?_⟩
  · rcases hcases m hm with ⟨hm, -, htag⟩ | ⟨-, htag⟩ <;> rw [htag]
    · exact hl.older m hm
    · exact .inr ⟨rfl, Nat.lt_succ_self j⟩
  · rcases hcases m hm with ⟨hm, -, htag⟩ | ⟨rfl, htag⟩ <;> rw [htag]
    · rw [hother m hm]
      exact h.story m hm
    · exact hst
  · rcases hcases m hm with ⟨hm, -, htag⟩ | ⟨hmi, htag⟩ <;>
      rcases hcases m' hm' with ⟨hm', -, htag'⟩ | ⟨hmi', htag'⟩ <;> rw [htag, htag'] at heq
    · exact h.distinct m hm m' hm' heq
    · exact absurd heq (hfresh _ (h.older m hm))
    · exact absurd heq.symm (hfresh _ (h.older m' hm'))
    · exact hmi.trans hmi'.symm
  · rcases hcases m hm with ⟨hm, -, htag⟩ | ⟨-, htag⟩ <;> rw [htag] at ht
    · rw [show (e'.watch m).horizonsDone = (e.watch m).horizonsDone from
        congrArg Tale.horizonsDone (hother m hm)]
      exact h.done g hg m hm ht hlt
    · exact absurd ht.symm (hfresh _ (h.past g hg))

theorem storeStory_tale (env : Env F) (e : Engine F) (now : UInt64) (i : SlotId) (w : Watch F) (h : MarketHot) :
    (storeStory env e i w now h).active = e.active ∧
      (storeStory env e i w now h).outcomes = e.outcomes ∧
      (∀ m ≠ i, ((storeStory env e i w now h).watch m).tale = (e.watch m).tale) ∧
      ((storeStory env e i w now h).watch i).tale = w.tale := by
  have hset : ∀ v : Watch F, v.tale = w.tale → (e.setWatch i v).active = e.active ∧
      (e.setWatch i v).outcomes = e.outcomes ∧
      (∀ m ≠ i, ((e.setWatch i v).watch m).tale = (e.watch m).tale) ∧
      ((e.setWatch i v).watch i).tale = w.tale := by
    intro v hv
    refine ⟨rfl, rfl, fun m hm => ?_, ?_⟩
    · show (Function.update e.watch i v m).tale = _
      rw [Function.update_of_ne hm]
    · show (Function.update e.watch i v i).tale = _
      rw [Function.update_self, hv]
  unfold storeStory
  split
  · obtain ⟨hactive, houts, hother, hself⟩ := hset { w with tier := .watch } rfl
    have hs := (SameTales.refl (e.setWatch i { w with tier := .watch })).emitCooled env
      { w with tier := .watch } .watch now h
    exact ⟨hs.active.trans hactive, hs.outcomes.trans houts, fun m hm => (hs.tale m).trans (hother m hm),
      (hs.tale i).trans hself⟩
  · exact hset w rfl

theorem Ledger.evict (h : Ledger env filings calls n j upto tag origins e) (ht : TableOk env e.core) :
    Ledger env filings calls n j upto tag origins e.evict := by
  unfold Engine.evict
  split
  · rename_i hfree
    obtain ⟨i, hi, -⟩ := oldest_spec (ht.active_ne_nil (List.isEmpty_iff.mp hfree))
    rw [deactivateWatch_eq hi]
    refine h.shrink (fun m hm => ?_) (fun m => ?_) rfl
    · exact (Lib.swapRemove_perm hi i).mem_iff.mp (List.mem_cons_of_mem i hm)
    · show (Function.update e.watch i _ m).tale = _
      rcases eq_or_ne m i with rfl | hne
      · rw [Function.update_self]
        rfl
      · rw [Function.update_of_ne hne]
  · exact h

theorem activateWatch_tale (ht : TableOk env e.core) (sym : UInt32) :
    (e.activateWatch sym).2 ∉ e.evict.active ∧
      (e.activateWatch sym).1.active = e.evict.active ++ [(e.activateWatch sym).2] ∧
      (e.activateWatch sym).1.outcomes = e.evict.outcomes ∧
      ∀ m ∈ e.evict.active,
        ((e.activateWatch sym).1.watch m).tale = (e.evict.watch m).tale := by
  obtain ⟨htab, hfree, -, -⟩ := ht.evict
  rw [activateWatch_eq]
  refine ⟨?_, rfl, rfl, fun m hm => congrArg Watch.tale (htab.place_watch hfree _ _ hm)⟩
  show e.evict.free.headD default ∉ e.evict.active
  obtain ⟨i, rest, hl⟩ := List.exists_cons_of_ne_nil hfree
  rw [hl]
  refine fun hi => (List.nodup_append.mp htab.nodup).2.2 i hi i ?_ rfl
  show i ∈ e.evict.free
  rw [hl]
  exact List.mem_cons_self

theorem Ledger.storyOn (h : Ledger env filings calls n j (fun _ => n) tag origins e)
    (ht : TableOk env e.core) (hc : calls[n]? = some (.news ev now hot)) (hkind : ev.kind ≠ .halt)
    {p : Primary F} (hsym : ev.tickers[j]? = some p.sym) (hs : MarketHot) :
    ∃ tag', Ledger env filings calls n (j + 1) (fun _ => n) tag' origins
      (storyOn env e ev p now (env.look hot (.news j) p.sym) hs).1 := by
  unfold Engine.storyOn
  split
  · rename_i i hfind
    obtain ⟨hi, hsame⟩ := ht.findWatch hfind
    split
    · exact ⟨tag, h.later⟩
    · obtain ⟨hactive, houts, hother, hself⟩ := storeStory_tale env e now i
        (storyWatch env (e.watch i) ev p.r p.dil p.mcap) hs
      refine ⟨tag, (h.takeover hc hkind ?_ hactive houts hother hself).later⟩
      rw [hsame]
      exact List.mem_of_getElem? hsym
  · have hev := h.evict ht
    obtain ⟨hnotin, hactive, houts, htales⟩ := activateWatch_tale ht p.sym
    have hslot := (activateWatch_slot e p.sym).2
    generalize e.activateWatch p.sym = r at hnotin hactive houts htales hslot
    obtain ⟨e₁, i⟩ := r
    dsimp only at hnotin hactive houts htales hslot ⊢
    obtain ⟨hactive', houts', hother, hself⟩ := storeStory_tale env e₁ now i
      (storyWatch env (freshWatch env (e₁.watch i) ev now (env.look hot (.news j) p.sym)) ev p.r p.dil
        p.mcap) hs
    refine ⟨Function.update tag i (n, j), hev.start hnotin
      (hactive'.trans hactive) (houts'.trans houts) (fun m hm => ?_) ?_⟩
    · have hne : m ≠ i := fun heq => hnotin (heq ▸ hm)
      exact (hother m hne).trans (htales m hm)
    · rw [hself, hslot]
      refine ⟨ev, now, hot, hc, hkind, hsym, rfl, .inl rfl, ?_⟩
      show RefPrice env filings calls n p.sym (refAt env hot j p.sym) (refAt env hot j p.sym) ∨
        refAt env hot j p.sym ≤ 0 ∧ refAt env hot j p.sym ≤ 0 ∧ _
      rcases lt_or_ge 0 (refAt env hot j p.sym) with hpos | hneg
      · exact .inl ⟨hpos, .inl ⟨hpos, rfl⟩⟩
      · exact .inr ⟨hneg, hneg, fun b hb hb' => absurd hb' (Nat.not_lt.mpr hb)⟩

theorem Ledger.newsTicker {l : NewsLoop F} {sym : UInt32} {r : ScoreResult F}
    (h : Ledger env filings calls n j (fun _ => n) tag origins l.e) (ht : TableOk env l.e.core)
    (hc : calls[n]? = some (.news ev now hot)) (hkind : ev.kind ≠ .halt)
    (hsym : ev.tickers[j]? = some sym) :
    ∃ tag', Ledger env filings calls n (j + 1) (fun _ => n) tag' origins
      (newsTicker env ev r now hot l (sym, j)).e := by
  unfold Engine.newsTicker
  dsimp only
  split
  · exact ⟨tag, h.later⟩
  · have hnoted : Aside l.e { l.e with
        lastNewsBySym := l.e.lastNewsBySym.insertOrAssign sym.toUInt64 now } := ⟨rfl, rfl, rfl, rfl⟩
    have h' := h.sameTales hnoted.sameTales
    split
    · exact ⟨tag, h'.later⟩
    · exact h'.storyOn (p := assess env l.e r sym (env.look hot (.news j) sym)) ht hc hkind hsym _

/-- A loop over a list with the places in it. -/
theorem foldl_zipIdx {S α : Type} {f : S → α × Nat → S} {P : Nat → S → Prop} (l : List α)
    (hf : ∀ s a j, l[j]? = some a → P j s → P (j + 1) (f s (a, j))) {s : S} (h : P 0 s) :
    P l.length (l.zipIdx.foldl f s) := by
  have hgen : ∀ k (l' : List α) (s : S), (∀ i, l[k + i]? = l'[i]?) → P k s →
      P (k + l'.length) ((l'.zipIdx k).foldl f s) := by
    intro k l'
    induction l' generalizing k with
    | nil => exact fun s _ h => h
    | cons a l' ih =>
      intro s hl h
      have hstep := hf s a k (hl 0) h
      have := ih (k + 1) (f s (a, k)) (fun i => by rw [Nat.add_right_comm]; exact hl (i + 1)) hstep
      rwa [Nat.add_right_comm, Nat.add_assoc] at this
  have := hgen 0 l s (fun i => by rw [Nat.zero_add]) h
  rwa [Nat.zero_add] at this

theorem Ledger.listed {r : ScoreResult F} (h : Ledger env filings calls n 0 (fun _ => n) tag origins e)
    (ht : TableOk env e.core) (hc : calls[n]? = some (.news ev now hot)) (hkind : ev.kind ≠ .halt) :
    TableOk env (listed env e ev r now hot).e.core ∧
      ∃ j tag', Ledger env filings calls n j (fun _ => n) tag' origins (listed env e ev r now hot).e := by
  unfold Engine.listed
  have hplace : ∀ (j : Nat) sym, (if ev.kind = .news then ev.tickers else ev.tickers.take 1)[j]? = some sym →
      ev.tickers[j]? = some sym := by
    intro j sym hj
    split at hj
    · exact hj
    · rw [List.getElem?_take] at hj
      split at hj
      · exact hj
      · cases hj
  generalize (if ev.kind = .news then ev.tickers else ev.tickers.take 1) = tickers at hplace
  have htoday : TableOk env (e.todayDays now).core := ht.steps (.single (.today e))
  have hloop := foldl_zipIdx (f := Engine.newsTicker env ev r now hot)
    (P := fun j l => TableOk env l.e.core ∧
      ∃ tag', Ledger env filings calls n j (fun _ => n) tag' origins l.e) tickers
    (s := { e := e.todayDays now, p := { r := r, sym := SymbolTable.kInvalid, dil := 0, mcap := Dbl.ofRat 0, price := Dbl.ofRat 0, inu := false }, touched := false })
    (fun l sym j hj ⟨ht, tag', h⟩ =>
      ⟨ht.steps (steps_newsTicker ev r hot l (sym, j) ht),
        h.newsTicker ht hc hkind (hplace j sym hj)⟩)
    ⟨htoday, tag, h.sameTales (sameTales_todayDays e now)⟩
  exact ⟨hloop.1, tickers.length, hloop.2⟩

/-! ## Runs -/

theorem Ledger.onNews (he : e = run env (init env filings) (calls.take n))
    (h : Ledger env filings calls n 0 (fun _ => n) tag origins e) (ht : TableOk env e.core)
    (hc : calls[n]? = some (.news ev now hot)) :
    ∃ tag' origins', Ledger env filings calls (n + 1) 0 (fun _ => n + 1) tag' origins'
      (onNews env e ev now hot) := by
  have hev : ∀ x, evaluated env e (.news ev now hot) = x →
      evaluated env (run env (init env filings) (calls.take n)) (.news ev now hot) = x := by
    intro x hx
    rw [← he, hx]
  cases hs : scoring env e ev now with
  | none =>
    have hnone : evaluated env e (.news ev now hot) = none := by rw [evaluated, hs]
    exact ⟨tag, origins, (h.sameTales (sameTales_unscored hs)).unseen hc (hev _ hnone)⟩
  | some p =>
    obtain ⟨e₁, d, r⟩ := p
    obtain ⟨hsame, hsteps, hkind, hnews⟩ := onNews_scored hot hs
    obtain ⟨ht', j, tag', h'⟩ := (h.sameTales hsame).listed (r := r) (ht.steps hsteps) hc hkind
    have hj := h'.sameTales
      (aside_journalNews ev d (Engine.listed env e₁ ev r now hot).p now).sameTales
    have hsome : evaluated env e (.news ev now hot) =
        if (Engine.listed env e₁ ev r now hot).touched then
          some ((Engine.listed env e₁ ev r now hot).e.journalNews ev d
            (Engine.listed env e₁ ev r now hot).p now)
        else none := by rw [evaluated, hs]
    rw [hnews, onScored_eq]
    split
    · rename_i htouched
      rw [if_pos htouched] at hsome
      obtain ⟨origins', hl⟩ := hj.evaluate now hc rfl (hev _ hsome) ht'
      exact ⟨tag', origins', hl⟩
    · rename_i htouched
      rw [if_neg htouched] at hsome
      exact ⟨tag', origins, hj.unseen hc (hev _ hsome)⟩

theorem Ledger.call (he : e = run env (init env filings) (calls.take n))
    (h : Ledger env filings calls n 0 (fun _ => n) tag origins e) (ht : TableOk env e.core)
    (hc : calls[n]? = some c) :
    ∃ tag' origins', Ledger env filings calls (n + 1) 0 (fun _ => n + 1) tag' origins'
      (call env e c) := by
  cases c with
  | news ev now hot => exact h.onNews he ht hc
  | market ev now hot =>
    have hs : SameTales e (onMarketEvent env e ev now hot) := by
      unfold onMarketEvent
      split
      · exact sameTales_handleHalt e _ _ _ _ _
      · exact .refl e
    exact ⟨tag, origins, (h.sameTales hs).unseen hc rfl⟩
  | evaluate now hot =>
    obtain ⟨origins', h'⟩ := h.evaluate now hc rfl (by rw [he]; rfl) ht
    exact ⟨tag, origins', h'⟩
  | scanMovers now hot =>
    have hs : SameTales e (scanMovers env e now hot) := by
      unfold scanMovers
      split
      · exact .refl e
      · split
        · exact .refl e
        · exact (sameTales_todayDays e now).trans (.foldl sameTales_scanSym _ _)
    exact ⟨tag, origins, (h.sameTales hs).unseen hc rfl⟩
  | shutdown now hot =>
    have hs : SameTales e (shutdown env e now hot) := by
      unfold shutdown
      split
      · exact .refl e
      · exact (aside_trades _ _).sameTales
    exact ⟨tag, origins, (h.sameTales hs).unseen hc rfl⟩

theorem ledger_init : Ledger env filings calls 0 0 (fun _ => 0) (fun _ => (0, 0)) []
    (init env filings) := by
  refine ⟨.nil, List.nodup_nil, nofun, ?_, ?_, ?_, nofun⟩ <;> exact fun i hi => nomatch hi

theorem ledger_run (env : Env F) (filings : FilingsHistory) (hn : n ≤ calls.length) :
    ∃ tag origins, Ledger env filings calls n 0 (fun _ => n) tag origins
      (run env (init env filings) (calls.take n)) := by
  induction n with
  | zero => exact ⟨_, _, ledger_init⟩
  | succ n ih =>
    obtain ⟨tag, origins, h⟩ := ih (Nat.le_of_succ_le hn)
    have hc : calls[n]? = some calls[n] := List.getElem?_eq_getElem hn
    have hrun : run env (init env filings) (calls.take (n + 1)) =
        Engine.call env (run env (init env filings) (calls.take n)) calls[n] := by
      rw [List.take_add_one, hc]
      exact List.foldl_concat ..
    rw [hrun]
    exact h.call rfl ((tableOk_init filings).run _) hc

/-- Every outcome of a run belongs to the story and ticker that started its watch: it gives their
time of receipt and reference price, it is written no sooner than its horizon, and it names that
story, or a later one on the ticker. At most one outcome is written for a story, ticker and
horizon. -/
theorem outcomes_belong (env : Env F) (filings : FilingsHistory) (calls : List (Call F)) :
    ∃ origins : List Origin, origins.Nodup ∧
      List.Forall₂ (Belongs env filings calls) (run env (init env filings) calls).outcomes origins := by
  obtain ⟨tag, origins, h⟩ := ledger_run env filings (le_refl calls.length)
  rw [List.take_length] at h
  exact ⟨origins, h.nodup, h.belongs⟩

/-- The id of the story that a call brings, and its time of receipt. -/
def Call.story? : Call F → Option (UInt64 × UInt64)
  | .news ev now _ => some (ev.idHash, receivedAt ev now)
  | _ => none

/-- Two symbols, and a score of 60 for a story without a title and of 80 for one with it. -/
def storyEnv : Env ℚ :=
  { acmeEnv with
    symbols :=
      { syms := [acme, { acme with ticker := lit "ACMF" }]
        byNorm := acmeSymbols.byNorm.insertOrAssign (hashBytes (lit "ACMF")) 1
        size_le := by decide }
    boardSize := some 2
    scoreText := fun title _ => { ScoreResult.zero with
      textScore := if title.isEmpty then 60 else 80
      catalyst := .contract } }

/-- A story, and half a minute later a stronger one on the same ticker. -/
def takeover : List (Call ℚ) :=
  [.news { acmeEvent with recvNs := 1000000000 } 1000000000 runner,
    .news { acmeEvent with
      idHash := 2, recvNs := 31000000000, title := .assign pos_256 (lit "Acme") } 31000000000 runner,
    .evaluate 61000000000 runner]

/-- A story on two tickers. -/
def twoTickers : List (Call ℚ) :=
  [.news { acmeEvent with
      recvNs := 1000000000, tickers := [0, 1], tickers_le := by decide } 1000000000 runner,
    .evaluate 61000000000 runner]

/-- The stronger story is named by an outcome with the time of the first, and a story on two tickers
has two outcomes of one horizon. -/
theorem outcome_of_other_story :
    (¬ ∀ o ∈ (run storyEnv (init storyEnv {}) takeover).outcomes,
      ∃ s ∈ takeover.filterMap Call.story?, s.1 = o.newsId ∧ o.tNewsRecvNs = s.2 ∧
        o.horizonS.toNat * 1000000000 ≤ o.tNs.toNat - s.2.toNat) ∧
    ¬ ((run storyEnv (init storyEnv {}) twoTickers).outcomes.map fun o =>
      (o.newsId, o.horizonS)).Nodup := by
  decide +kernel

end Engine

end Stok
