import Stok.Engine.Engine

/-!
# Looks at the date

The paper trader looks at the date at most once a minute, and when it is asked to. Two engines that
differ in nothing but when their traders looked (`Behind`, `Like`) stay so under every call on one
Eastern date, and write the same.
-/

namespace Stok

open Dbl (ofRat)

namespace PaperTrader

open Paper

variable {F : Type} [Dbl F] {cfg : PaperConfig F} {p p' : PaperTrader F} {d : Int} {t now : UInt64}

/-- The trader looks at the date whenever it is asked from `t` on. -/
def Checks (p : PaperTrader F) (t : UInt64) : Prop :=
  ∀ now, t ≤ now → ¬(p.day ≠ 0 ∧ p.dayCheckedAt ≤ now ∧ now - p.dayCheckedAt < 60 * kNsPerSec)

/-- The trader `p` may have looked at the date less often than `p'`, from `t` on the date `d`. -/
inductive Behind (d : Int) (t : UInt64) (p p' : PaperTrader F) : Prop where
  | same (heq : p' = p) (hchecked : p.dayCheckedAt ≤ t)
  | settled (hpos : p'.pos = p.pos) (hst : p'.st = p.st) (hday : p.day = d) (hday' : p'.day = d)
  | ahead (hpos : p'.pos = p.pos) (hst : p'.st = { p.st with dayRealized := ofRat 0 })
      (hday : p.day ≠ d) (hday' : p'.day = d) (hchecks : Checks p t)

/-- Both have looked at the date. -/
def Level (d : Int) (t : UInt64) (p p' : PaperTrader F) : Prop :=
  p'.pos = p.pos ∧ p'.st = p.st ∧
    (p'.day = p.day ∧ p'.dayCheckedAt = p.dayCheckedAt ∧ p.dayCheckedAt ≤ t ∨ p.day = d ∧ p'.day = d)

theorem Checks.mono (h : Checks p t) (hle : t ≤ now) : Checks p now :=
  fun now' hnow' => h now' (UInt64.le_trans hle hnow')

theorem Behind.mono (h : Behind d t p p') (hle : t ≤ now) : Behind d now p p' := by
  cases h with
  | same heq hchecked => exact .same heq (UInt64.le_trans hchecked hle)
  | settled hpos hst hday hday' => exact .settled hpos hst hday hday'
  | ahead hpos hst hday hday' hchecks => exact .ahead hpos hst hday hday' (hchecks.mono hle)

theorem Level.behind (h : Level d t p p') : Behind d t p p' := by
  obtain ⟨hpos, hst, ⟨hday, hat, hle⟩ | ⟨hday, hday'⟩⟩ := h
  · refine .same ?_ hle
    cases p
    cases p'
    simp_all
  · exact .settled hpos hst hday hday'

theorem Behind.pos (h : Behind d t p p') : p'.pos = p.pos := by
  cases h with
  | same heq => rw [heq]
  | settled hpos => exact hpos
  | ahead hpos => exact hpos

/-- A look at the date changes nothing else on the same date. -/
theorem rollDay_day (hnow : easternDay now = d) (hday : p.day = d) :
    (p.rollDay now).pos = p.pos ∧ (p.rollDay now).st = p.st ∧ (p.rollDay now).day = d := by
  unfold rollDay
  split
  · exact ⟨rfl, rfl, hday⟩
  · dsimp only
    rw [hnow, if_neg (not_not_intro hday.symm)]
    exact ⟨rfl, rfl, hday⟩

/-- On another date a trader that looks starts the day anew. -/
theorem rollDay_checks (hnow : easternDay now = d) (hday : p.day ≠ d) (hchecks : Checks p now) :
    p.rollDay now =
      { p with dayCheckedAt := now, day := d, st := { p.st with dayRealized := ofRat 0 } } := by
  unfold rollDay
  rw [if_neg (hchecks now (UInt64.le_refl now))]
  dsimp only
  rw [hnow, if_pos hday.symm]

theorem rollDay_pos (p : PaperTrader F) (now : UInt64) : (p.rollDay now).pos = p.pos := by
  unfold rollDay
  dsimp only
  split
  · rfl
  · split <;> rfl

theorem rollDay_checkedAt (hle : p.dayCheckedAt ≤ now) : (p.rollDay now).dayCheckedAt ≤ now := by
  unfold rollDay
  dsimp only
  split
  · exact hle
  · split <;> exact UInt64.le_refl now

theorem Behind.rollDay (h : Behind d t p p') (hle : t ≤ now) (hnow : easternDay now = d) :
    Level d now (p.rollDay now) (p'.rollDay now) := by
  cases h with
  | same heq hchecked =>
    subst heq
    exact ⟨rfl, rfl, .inl ⟨rfl, rfl, rollDay_checkedAt (UInt64.le_trans hchecked hle)⟩⟩
  | settled hpos hst hday hday' =>
    obtain ⟨hp, hs, hd⟩ := rollDay_day hnow hday
    obtain ⟨hp', hs', hd'⟩ := rollDay_day hnow hday'
    exact ⟨by rw [hp', hp, hpos], by rw [hs', hs, hst], .inr ⟨hd, hd'⟩⟩
  | ahead hpos hst hday hday' hchecks =>
    obtain ⟨hp', hs', hd'⟩ := rollDay_day hnow hday'
    rw [rollDay_checks hnow hday (hchecks.mono hle)]
    exact ⟨by rw [hp', hpos], by rw [hs', hst], .inr ⟨rfl, hd'⟩⟩

/-- A trader that did not look stays behind one that did. -/
theorem Behind.rollDay_right (h : Behind d t p p') (hle : t ≤ now) (hnow : easternDay now = d) :
    Behind d now p (p'.rollDay now) := by
  cases h with
  | same heq hchecked =>
    subst heq
    by_cases hday : p'.day = d
    · obtain ⟨hp, hs, hd⟩ := rollDay_day hnow hday
      exact .settled hp hs hday hd
    · by_cases hskip : p'.day ≠ 0 ∧ p'.dayCheckedAt ≤ now ∧ now - p'.dayCheckedAt < 60 * kNsPerSec
      · have hroll : p'.rollDay now = p' := by
          unfold PaperTrader.rollDay
          exact if_pos hskip
        rw [hroll]
        exact .same rfl hskip.2.1
      · -- a minute has passed, and passes at every later time
        have hchecks : Checks p' now := by
          rintro now' hnow' ⟨hne, hle', hlt⟩
          have hc := UInt64.le_trans hchecked hle
          refine hskip ⟨hne, hc, ?_⟩
          simp only [UInt64.lt_iff_toNat_lt, UInt64.le_iff_toNat_le] at *
          rw [UInt64.toNat_sub_of_le _ _ (UInt64.le_iff_toNat_le.mpr hle')] at hlt
          rw [UInt64.toNat_sub_of_le _ _ (UInt64.le_iff_toNat_le.mpr hc)]
          omega
        rw [rollDay_checks hnow hday hchecks]
        exact .ahead rfl rfl hday rfl hchecks
  | settled hpos hst hday hday' =>
    obtain ⟨hp', hs', hd'⟩ := rollDay_day hnow hday'
    exact .settled (hp'.trans hpos) (hs'.trans hst) hday hd'
  | ahead hpos hst hday hday' hchecks =>
    obtain ⟨hp', hs', hd'⟩ := rollDay_day hnow hday'
    exact .ahead (hp'.trans hpos) (hs'.trans hst) hday hd' (hchecks.mono hle)

/-! ## In step -/

theorem Behind.onSignal (h : Behind d t p p') (hle : t ≤ now) (hnow : easternDay now = d) (s : Signal F) :
    Behind d now (p.onSignal cfg s now) (p'.onSignal cfg s now) := by
  have hroll := h.rollDay hle hnow
  unfold PaperTrader.onSignal
  dsimp only
  split
  · exact h.mono hle
  · generalize p.rollDay now = q at hroll
    generalize p'.rollDay now = q' at hroll
    obtain ⟨pos, st, day, at_⟩ := q
    obtain ⟨pos', st', day', at'⟩ := q'
    obtain ⟨rfl, rfl, hor⟩ := hroll
    dsimp only at hor ⊢
    split
    · exact Level.behind ⟨rfl, rfl, hor⟩
    · split
      · exact Level.behind ⟨rfl, rfl, hor⟩
      · split <;> exact Level.behind ⟨rfl, rfl, hor⟩

theorem Behind.step (h : Behind d t p p') (hle : t ≤ now) (hnow : easternDay now = d)
    (hot : Nat → UInt32 → MarketHot) :
    (p'.step cfg now hot).2 = (p.step cfg now hot).2 ∧
      Behind d now (p.step cfg now hot).1 (p'.step cfg now hot).1 := by
  have hroll := h.rollDay hle hnow
  unfold PaperTrader.step
  dsimp only
  generalize p.rollDay now = q at hroll
  generalize p'.rollDay now = q' at hroll
  obtain ⟨pos, st, day, at_⟩ := q
  obtain ⟨pos', st', day', at'⟩ := q'
  obtain ⟨rfl, rfl, hor⟩ := hroll
  exact ⟨rfl, Level.behind ⟨rfl, rfl, hor⟩⟩

theorem walk_idle (f : Stats F → Pos F → MarketHot → Stats F × Pos F × List (PaperTrade F))
    (hf : ∀ st q h, q.active = false → f st q h = (st, q, [])) (hot : Nat → UInt32 → MarketHot) (i : Nat)
    (st : Stats F) {ps : List (Pos F)} (hps : ∀ q ∈ ps, q.active = false) :
    walk f hot i st ps = (st, ps, []) := by
  induction ps generalizing i st with
  | nil => rfl
  | cons q ps ih =>
    rw [walk, hf _ _ _ (hps q List.mem_cons_self)]
    dsimp only
    rw [ih _ _ fun q hq => hps q (List.mem_cons_of_mem _ hq)]
    rfl

theorem mem_inactive (h : p.openPositions = 0) : ∀ q ∈ p.pos, q.active = false := by
  intro q hq
  cases hact : q.active with
  | false => rfl
  | true =>
    have hmem : q ∈ p.pos.filter (·.active) := List.mem_filter.mpr ⟨hq, hact⟩
    rw [List.eq_nil_of_length_eq_zero h] at hmem
    cases hmem

/-- A step without open positions only looks at the date. -/
theorem step_idle (h : p.openPositions = 0) (hot : Nat → UInt32 → MarketHot) :
    p.step cfg now hot = (p.rollDay now, []) := by
  have hps : ∀ q ∈ (p.rollDay now).pos, q.active = false := by
    rw [rollDay_pos]
    exact mem_inactive h
  unfold step
  dsimp only
  rw [walk_idle _ (fun st q h hq => by rw [stepPos, hq]; rfl) hot 0 _ hps]

/-- The trades of `close_all` depend on the positions only. -/
theorem Behind.closeAll (h : Behind d t p p') (reason : Bytes) (hot : Nat → UInt32 → MarketHot) :
    (p'.closeAll cfg now reason hot).2 = (p.closeAll cfg now reason hot).2 := by
  have hgo : ∀ (ps : List (Pos F)) (i : Nat) (st st' : Stats F),
      (walk (fun st q h => closePos cfg reason st q h now) hot i st ps).2.2 =
        (walk (fun st q h => closePos cfg reason st q h now) hot i st' ps).2.2 := by
    intro ps
    induction ps with
    | nil => exact fun _ _ _ => rfl
    | cons q ps ih =>
      intro i st st'
      have hone : ∀ st st' : Stats F, (closePos cfg reason st q (hot i q.t.sym) now).2.2 =
          (closePos cfg reason st' q (hot i q.t.sym) now).2.2 := by
        intro st st'
        unfold closePos finish
        split
        · rfl
        · split <;> rfl
      rw [walk, walk]
      dsimp only
      rw [hone st st', ih (i + 1) _ (closePos cfg reason st' q (hot i q.t.sym) now).1]
  unfold PaperTrader.closeAll
  dsimp only
  rw [h.pos]
  exact hgo p.pos 0 p'.st p.st

end PaperTrader

namespace Engine

variable {F : Type} [Dbl F] {env : Env F} {d : Int} {t now : UInt64} {hot : Hot} {e e' : Engine F}

/-! ## Engines in step -/

/-- The engine with another trader and other walks in its trace. -/
def swap (e : Engine F) (p : Option (PaperTrader F)) (ws : List Walk) : Engine F :=
  { e with paper := p, trace := { e.trace with walks := ws } }

/-- The engines differ in their walks, and in when their traders looked at the date. -/
def Like (d : Int) (t : UInt64) (e e' : Engine F) : Prop :=
  ∃ p ws, e' = e.swap p ws ∧ Option.Rel (PaperTrader.Behind d t) e.paper p

/-- What the call is made of reads neither the trader nor the walks. -/
theorem Like.of_swap (h : Like d t e e') {f : Engine F → Engine F}
    (hf : ∀ p ws, f (e.swap p ws) = (f e).swap p ws) (hp : (f e).paper = e.paper) :
    Like d t (f e) (f e') := by
  obtain ⟨p, ws, rfl, hrel⟩ := h
  exact ⟨p, ws, hf p ws, by rwa [hp]⟩

theorem Like.mono (h : Like d t e e') (hle : t ≤ now) : Like d now e e' := by
  obtain ⟨p, ws, rfl, hrel⟩ := h
  refine ⟨p, ws, rfl, ?_⟩
  cases hp : e.paper with
  | none =>
    rw [hp] at hrel
    cases hrel
    exact .none
  | some q =>
    rw [hp] at hrel
    cases hrel with
    | some hb => exact .some (hb.mono hle)

theorem Like.foldl {α : Type} {f : Engine F → α → Engine F}
    (hf : ∀ a e e', Like d t e e' → Like d t (f e a) (f e' a)) (l : List α) (h : Like d t e e') :
    Like d t (l.foldl f e) (l.foldl f e') := by
  induction l generalizing e e' with
  | nil => exact h
  | cons a l ih => exact ih (hf a e e' h)

theorem Like.todayDays (h : Like d t e e') (now : UInt64) : Like d t (e.todayDays now) (e'.todayDays now) := by
  refine h.of_swap (f := fun e => e.todayDays now) (fun p ws => ?_) ?_
  · unfold Engine.todayDays
    split
    · rename_i hc
      rw [if_pos (show e.cachedDayUntil ≤ now ∨ e.cachedDay = 0 from hc)]
      rfl
    · rename_i hc
      rw [if_neg (show ¬(e.cachedDayUntil ≤ now ∨ e.cachedDay = 0) from hc)]
  · show (e.todayDays now).paper = e.paper
    unfold Engine.todayDays
    split <;> rfl

/-- A signal for the trader is one for both. -/
theorem Like.emit (h : Like d now e e') (hday : easternDay now = d) (w : Watch F) (tier : Tier)
    (hs : MarketHot) (reason : Bytes) :
    Like d now (emit env e w tier now hs reason) (emit env e' w tier now hs reason) := by
  obtain ⟨p, ws, rfl, hrel⟩ := h
  refine ⟨(Engine.emit env (e.swap p ws) w tier now hs reason).paper, ws, rfl, ?_⟩
  show Option.Rel _ (if tier = .alert ∨ tier = .high then e.paper.map _ else e.paper)
    (if tier = .alert ∨ tier = .high then p.map _ else p)
  split
  · cases hp : e.paper with
    | none =>
      rw [hp] at hrel
      cases hrel
      exact .none
    | some q =>
      rw [hp] at hrel
      cases hrel with
      | some hb => exact .some (hb.onSignal (UInt64.le_refl now) hday _)
  · exact hrel

theorem cooledDown_swap (e : Engine F) (p : Option (PaperTrader F)) (ws : List Walk) (sym : UInt32)
    (tier : Tier) (now : UInt64) : cooledDown env (e.swap p ws) sym tier now =
      ((cooledDown env e sym tier now).1.swap p ws, (cooledDown env e sym tier now).2) ∧
      (cooledDown env e sym tier now).1.paper = e.paper := by
  unfold cooledDown
  dsimp only [swap]
  split <;> exact ⟨rfl, rfl⟩

theorem Like.emitCooled (h : Like d now e e') (hday : easternDay now = d) (w : Watch F) (tier : Tier)
    (hs : MarketHot) : Like d now (emitCooled env e w tier now hs) (emitCooled env e' w tier now hs) := by
  obtain ⟨p, ws, rfl, hrel⟩ := h
  obtain ⟨hswap, hpaper⟩ := cooledDown_swap e p ws w.sym tier now
  unfold Engine.emitCooled
  rw [hswap]
  generalize cooledDown env e w.sym tier now = c at hpaper
  obtain ⟨e₁, b⟩ := c
  have h₁ : Like d now e₁ (e₁.swap p ws) := ⟨p, ws, rfl, by rwa [hpaper]⟩
  cases b with
  | true => exact h₁.emit hday w tier hs []
  | false => exact h₁

theorem Like.write (h : Like d t e e') (rs : List (JournalRecord F)) : Like d t (e.write rs) (e'.write rs) :=
  h.of_swap (f := fun e => e.write rs) (fun _ _ => rfl) rfl

theorem Like.setWatch (h : Like d t e e') (i : SlotId) (w : Watch F) :
    Like d t (e.setWatch i w) (e'.setWatch i w) :=
  h.of_swap (f := fun e => e.setWatch i w) (fun _ _ => rfl) rfl

theorem deactivateWatch_swap (e : Engine F) (p : Option (PaperTrader F)) (ws : List Walk) (k : Nat) :
    (e.swap p ws).deactivateWatch k = (e.deactivateWatch k).swap p ws ∧
      (e.deactivateWatch k).paper = e.paper := by
  have hactive : (e.swap p ws).active = e.active := rfl
  unfold deactivateWatch
  rw [hactive]
  cases e.active[k]? <;> exact ⟨rfl, rfl⟩

theorem Like.deactivateWatch (h : Like d t e e') (k : Nat) :
    Like d t (e.deactivateWatch k) (e'.deactivateWatch k) :=
  h.of_swap (f := fun e => e.deactivateWatch k) (fun p ws => (deactivateWatch_swap e p ws k).1)
    (deactivateWatch_swap e none [] k).2

theorem oldest_swap (e : Engine F) (p : Option (PaperTrader F)) (ws : List Walk) :
    (e.swap p ws).oldest = e.oldest := by
  have hgo : ∀ (l : List SlotId) (oldest k : Nat),
      (e.swap p ws).oldestFrom oldest k l = e.oldestFrom oldest k l := by
    intro l
    induction l with
    | nil => exact fun _ _ => rfl
    | cons i l ih => exact fun _ _ => ih _ _
  exact hgo e.active.tail 0 1

theorem activateWatch_swap (e : Engine F) (p : Option (PaperTrader F)) (ws : List Walk) (sym : UInt32) :
    (e.swap p ws).activateWatch sym = ((e.activateWatch sym).1.swap p ws, (e.activateWatch sym).2) ∧
      (e.activateWatch sym).1.paper = e.paper := by
  unfold activateWatch
  dsimp only
  rw [show (e.swap p ws).free.isEmpty = e.free.isEmpty from rfl]
  split
  · rw [oldest_swap, (deactivateWatch_swap e p ws e.oldest).1]
    exact ⟨rfl, (deactivateWatch_swap e none [] e.oldest).2⟩
  · exact ⟨rfl, rfl⟩

/-! ### Evaluation -/

theorem Like.evalAt (h : Like d now e e') (hday : easternDay now = d) (k : Nat) :
    Like d now (evalAt env now hot e k) (evalAt env now hot e' k) := by
  have hact : e'.active = e.active ∧ e'.watch = e.watch := by
    obtain ⟨p, ws, rfl, -⟩ := h
    exact ⟨rfl, rfl⟩
  unfold Engine.evalAt
  rw [hact.1, hact.2]
  split
  · exact h
  · rename_i i _
    split
    · exact h.deactivateWatch k
    · split
      · exact h
      · generalize lookAt env (e.watch i) now (hot (.eval k) (e.watch i).sym) = look
        obtain ⟨w, outs, tier⟩ := look
        cases tier with
        | none => exact (h.setWatch i w).write outs
        | some t => exact ((h.setWatch i w).write outs).emitCooled hday w t _

theorem Like.evalLoop (h : Like d now e e') (hday : easternDay now = d) (k : Nat) :
    Like d now (evalLoop env now hot k e).1 (evalLoop env now hot k e').1 := by
  unfold Engine.evalLoop
  induction k generalizing e e' with
  | zero => exact h
  | succ k ih => exact ih (h.evalAt hday k)

theorem Like.paperStep (h : Like d now e e') (hday : easternDay now = d) :
    Like d now (paperStep env e now hot) (paperStep env e' now hot) := by
  obtain ⟨p, ws, rfl, hrel⟩ := h
  unfold Engine.paperStep
  rw [show (e.swap p ws).paper = p from rfl]
  cases hp : e.paper with
  | none =>
    rw [hp] at hrel
    cases hrel
    exact ⟨none, ws, rfl, by rw [hp]; exact .none⟩
  | some q =>
    rw [hp] at hrel
    cases hrel with
    | some hb =>
      obtain ⟨htrades, hstep⟩ := hb.step (UInt64.le_refl now) hday
        fun i => hot (.paper i)
      dsimp only
      rw [htrades]
      exact ⟨_, ws, rfl, .some hstep⟩

/-- Walks may differ. -/
theorem Like.walks (h : Like d t e e') (us us' : List Walk) :
    Like d t { e with trace := { e.trace with walks := us } }
      { e' with trace := { e'.trace with walks := us' } } := by
  obtain ⟨p, ws, rfl, hrel⟩ := h
  exact ⟨p, us', rfl, hrel⟩

theorem Like.active (h : Like d t e e') : e'.active = e.active := by
  obtain ⟨p, ws, rfl, -⟩ := h
  rfl

theorem Like.evaluate (h : Like d now e e') (hday : easternDay now = d) :
    Like d now (evaluate env e now hot) (evaluate env e' now hot) := by
  unfold Engine.evaluate
  dsimp only
  rw [h.active]
  exact ((h.evalLoop hday _).walks _ _).paperStep hday

/-! ### Halts and movers -/

theorem Like.handleHalt (h : Like d now e e') (hday : easternDay now = d) (sym : UInt32) (halted : Bool)
    (reason title : Bytes) (i : Nat) :
    Like d now (handleHalt env e sym halted reason now title hot i)
      (handleHalt env e' sym halted reason now title hot i) := by
  unfold Engine.handleHalt
  split
  · exact h
  · obtain ⟨p, ws, rfl, hrel⟩ := h
    have hnote : (e.swap p ws).noteHalt sym halted now =
        ((e.noteHalt sym halted now).1.swap p ws, (e.noteHalt sym halted now).2) ∧
        (e.noteHalt sym halted now).1.paper = e.paper := by
      unfold noteHalt
      dsimp only [swap]
      split <;> exact ⟨rfl, rfl⟩
    rw [hnote.1]
    obtain ⟨-, hpaper⟩ := hnote
    generalize e.noteHalt sym halted now = c at hpaper
    obtain ⟨e₁, b⟩ := c
    have h₁ : Like d now e₁ (e₁.swap p ws) := ⟨p, ws, rfl, by rwa [hpaper]⟩
    cases b with
    | false => exact h₁
    | true =>
      dsimp only
      rw [show haltAlert env (e₁.swap p ws) = haltAlert env e₁ from rfl,
        show haltWatch env (e₁.swap p ws) = haltWatch env e₁ from rfl]
      split
      · exact h₁
      · exact h₁.emit hday _ _ _ _

theorem Like.scanSym (h : Like d now e e') (hday : easternDay now = d) (sym : UInt32) :
    Like d now (scanSym env now hot e sym) (scanSym env now hot e' sym) := by
  unfold Engine.scanSym
  split
  · exact h
  · obtain ⟨p, ws, rfl, hrel⟩ := h
    rw [show (e.swap p ws).findWatch sym = e.findWatch sym from rfl]
    split
    · exact ⟨p, ws, rfl, hrel⟩
    · dsimp only
      rw [show (e.swap p ws).moverAlerted = e.moverAlerted from rfl,
        show (e.swap p ws).cachedDay = e.cachedDay from rfl]
      split
      · exact ⟨p, ws, rfl, hrel⟩
      · generalize ((e.moverAlerted.tryEmplace sym.toUInt64).1.modify sym.toUInt64 fun _ =>
          toU64 e.cachedDay) = tab
        have h₁ : Like d now { e with moverAlerted := tab } { e.swap p ws with moverAlerted := tab } :=
          ⟨p, ws, rfl, hrel⟩
        exact h₁.emit hday _ _ _ _

theorem Like.scanMovers (h : Like d now e e') (hday : easternDay now = d) :
    Like d now (scanMovers env e now hot) (scanMovers env e' now hot) := by
  unfold Engine.scanMovers
  split
  · exact h
  · split
    · exact h
    · exact (h.todayDays now).foldl (fun sym _ _ h => h.scanSym hday sym) _

/-! ### News -/

theorem Like.storeStory (h : Like d now e e') (hday : easternDay now = d) (i : SlotId) (w : Watch F)
    (hs : MarketHot) : Like d now (storeStory env e i w now hs) (storeStory env e' i w now hs) := by
  unfold Engine.storeStory
  split
  · exact (h.setWatch i _).emitCooled hday _ _ hs
  · exact h.setWatch i w

theorem Like.storyOn (h : Like d now e e') (hday : easternDay now = d) (ev : NewsEvent F) (q : Primary F)
    (m hs : MarketHot) :
    Like d now (storyOn env e ev q now m hs).1 (storyOn env e' ev q now m hs).1 ∧
      (storyOn env e' ev q now m hs).2 = (storyOn env e ev q now m hs).2 := by
  obtain ⟨p, ws, rfl, hrel⟩ := h
  have h : Like d now e (e.swap p ws) := ⟨p, ws, rfl, hrel⟩
  unfold Engine.storyOn
  rw [show (e.swap p ws).findWatch q.sym = e.findWatch q.sym from rfl]
  split
  · rename_i i _
    rw [show (e.swap p ws).watch = e.watch from rfl]
    split
    · exact ⟨h, rfl⟩
    · exact ⟨h.storeStory hday i _ hs, rfl⟩
  · obtain ⟨hact, hpaper⟩ := activateWatch_swap e p ws q.sym
    rw [hact]
    generalize e.activateWatch q.sym = c at hpaper
    obtain ⟨e₁, i⟩ := c
    have h₁ : Like d now e₁ (e₁.swap p ws) := ⟨p, ws, rfl, by rwa [hpaper]⟩
    exact ⟨h₁.storeStory hday i _ hs, rfl⟩

/-- The states of the loop over the tickers of a story. -/
def LikeLoop (d : Int) (t : UInt64) (l l' : NewsLoop F) : Prop :=
  Like d t l.e l'.e ∧ l'.p = l.p ∧ l'.touched = l.touched

theorem LikeLoop.newsTicker {l l' : NewsLoop F} (h : LikeLoop d now l l') (hday : easternDay now = d)
    (ev : NewsEvent F) (r : ScoreResult F) (x : UInt32 × Nat) :
    LikeLoop d now (newsTicker env ev r now hot l x) (newsTicker env ev r now hot l' x) := by
  obtain ⟨e, q, b⟩ := l
  obtain ⟨e', q', b'⟩ := l'
  obtain ⟨hlike, rfl, rfl⟩ := h
  dsimp only at hlike
  unfold Engine.newsTicker
  split
  · exact ⟨hlike, rfl, rfl⟩
  · obtain ⟨p, ws, rfl, hrel⟩ := hlike
    dsimp only
    rw [show ∀ h, assess env (e.swap p ws) r x.1 h = assess env e r x.1 h from fun _ => rfl]
    have h₁ : Like d now { e with lastNewsBySym := e.lastNewsBySym.insertOrAssign x.1.toUInt64 now }
        { e.swap p ws with lastNewsBySym := e.lastNewsBySym.insertOrAssign x.1.toUInt64 now } :=
      ⟨p, ws, rfl, hrel⟩
    split
    · exact ⟨h₁, rfl, rfl⟩
    · obtain ⟨hon, htouched⟩ := h₁.storyOn hday ev
        (assess env e r x.1 (env.look hot (.news x.2) x.1)) (env.look hot (.news x.2) x.1)
        (hot (.newsSignal x.2) x.1)
      refine ⟨hon, rfl, ?_⟩
      show (_ || _) = (_ || _)
      rw [← htouched]
      rfl

theorem LikeLoop.foldl {l l' : NewsLoop F} (h : LikeLoop d now l l') (hday : easternDay now = d)
    (ev : NewsEvent F) (r : ScoreResult F) (xs : List (UInt32 × Nat)) :
    LikeLoop d now (xs.foldl (Engine.newsTicker env ev r now hot) l)
      (xs.foldl (Engine.newsTicker env ev r now hot) l') := by
  induction xs generalizing l l' with
  | nil => exact h
  | cons x xs ih => exact ih (h.newsTicker hday ev r x)

theorem Like.onScored (h : Like d now e e') (hday : easternDay now = d) (ev : NewsEvent F) (dd : Dedupe)
    (r : ScoreResult F) : Like d now (onScored env e ev dd r now hot) (onScored env e' ev dd r now hot) := by
  unfold Engine.onScored
  dsimp only
  generalize (if ev.kind = .news then ev.tickers else ev.tickers.take 1).zipIdx = xs
  generalize Primary.mk r SymbolTable.kInvalid 0 (ofRat 0) (ofRat 0) false = q
  have hl : LikeLoop d now ⟨e.todayDays now, q, false⟩ ⟨e'.todayDays now, q, false⟩ :=
    ⟨h.todayDays now, rfl, rfl⟩
  obtain ⟨hlike, hp, htouched⟩ := hl.foldl hday ev r xs
  rw [htouched, hp]
  split
  · exact (hlike.write _).evaluate hday
  · exact hlike.write _

theorem Like.dilutionInfo (h : Like d now e e') (hday : easternDay now = d) (ev : NewsEvent F)
    (cls : FormClass) (x : UInt32 × Nat) :
    Like d now (dilutionInfo env ev cls now hot e x) (dilutionInfo env ev cls now hot e' x) := by
  obtain ⟨p, ws, rfl, hrel⟩ := h
  unfold Engine.dilutionInfo
  rw [show (e.swap p ws).findWatch x.1 = e.findWatch x.1 from rfl]
  split
  · exact ⟨p, ws, rfl, hrel⟩
  · rename_i i _
    exact Like.emit (Like.setWatch ⟨p, ws, rfl, hrel⟩ i _) hday _ _ _ _

theorem Like.onNews (h : Like d now e e') (hday : easternDay now = d) (ev : NewsEvent F) :
    Like d now (onNews env e ev now hot) (onNews env e' ev now hot) := by
  obtain ⟨p, ws, rfl, hrel⟩ := h
  have hdedupe : (e.swap p ws).dedupe ev = ((e.dedupe ev).1.swap p ws, (e.dedupe ev).2) ∧
      (e.dedupe ev).1.paper = e.paper := by
    unfold dedupe
    dsimp only [swap]
    split
    · split <;> exact ⟨rfl, rfl⟩
    · exact ⟨rfl, rfl⟩
  unfold Engine.onNews
  rw [hdedupe.1]
  obtain ⟨-, hpaper⟩ := hdedupe
  generalize e.dedupe ev = c at hpaper
  obtain ⟨e₁, dd⟩ := c
  have h₁ : Like d now e₁ (e₁.swap p ws) := ⟨p, ws, rfl, by rwa [hpaper]⟩
  dsimp only
  split
  · refine Like.write (Like.foldl (fun x _ _ h => ?_) _ h₁) _
    exact h.handleHalt hday x.1 _ _ _ x.2
  · have hfiling : Like d now (e₁.noteFiling ev now) ((e₁.swap p ws).noteFiling ev now) :=
      (h₁.todayDays now).of_swap (f := fun e => { e with
        filings := e.filings.add ev.cik e.cachedDay (classifyForm ev.form.bytes) ev.itemsMask })
        (fun _ _ => rfl) rfl
    split
    · refine Like.write ?_ _
      unfold Engine.onRegistration
      dsimp only
      split
      · exact hfiling.foldl (fun x _ _ h => h.dilutionInfo hday ev _ x) _
      · exact hfiling
    · exact hfiling.onScored hday ev dd _
  · exact h₁.onScored hday ev dd _
  · exact h₁.onScored hday ev dd _

/-- Every call but the shutdown keeps engines in step. -/
theorem Like.call {c : Call F} (h : Like d t e e') (hle : t ≤ c.now) (hday : easternDay c.now = d)
    (hc : ∀ now hot, c ≠ .shutdown now hot) : Like d c.now (call env e c) (call env e' c) := by
  have h := h.mono hle
  cases c with
  | news ev now hot => exact h.onNews hday ev
  | market ev now hot =>
    show Like d now (onMarketEvent env e ev now hot) (onMarketEvent env e' ev now hot)
    unfold onMarketEvent
    split
    · exact h.handleHalt hday _ _ _ _ _
    · exact h
  | evaluate now hot => exact h.evaluate hday
  | scanMovers now hot => exact h.scanMovers hday
  | shutdown now hot => exact absurd rfl (hc now hot)

theorem Like.journal (h : Like d t e e') : e'.journal = e.journal := by
  obtain ⟨p, ws, rfl, -⟩ := h
  rfl

/-- The shutdown writes the same trades. -/
theorem Like.shutdown (h : Like d t e e') (now : UInt64) :
    (shutdown env e' now hot).journal = (shutdown env e now hot).journal := by
  obtain ⟨p, ws, rfl, hrel⟩ := h
  unfold Engine.shutdown
  rw [show (e.swap p ws).paper = p from rfl]
  cases hp : e.paper with
  | none =>
    rw [hp] at hrel
    cases hrel
    rfl
  | some q =>
    rw [hp] at hrel
    cases hrel with
    | some hb =>
      have htrades := @PaperTrader.Behind.closeAll F _ env.cfg.paper q _ d t now hb (lit "shutdown") fun i => hot (.paper i)
      exact congrArg (fun ts => e.journal ++ ts.map .trade) htrades

end Engine

end Stok
