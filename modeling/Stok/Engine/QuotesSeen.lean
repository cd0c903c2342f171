import Stok.Engine.DateChecks
import Stok.Engine.Halts
import Stok.Engine.PaperRun

/-!
# The quotes that an engine sees

An engine looks at the quotes of a symbol only when it has news, a watch or a position, and of any
symbol at the last price. Two boards that agree on the symbols of the news (`AgreeOn`) lead it through
the same states, as long as every watch and position is on one of those symbols (`Covered`).
-/

namespace Stok

open Dbl (ofRat)

namespace PaperTrader

open Paper

variable {F : Type} [Dbl F] {cfg : PaperConfig F} {p : PaperTrader F} {K : UInt32 → Prop} {now : UInt64}
  {hot hot' : Nat → UInt32 → MarketHot}

/-- The positions are on symbols of `K`. -/
def Held (K : UInt32 → Prop) (ps : List (Pos F)) : Prop := ∀ q ∈ ps, q.active = true → K q.t.sym

/-- A position that is open after its turn was open before, on the same symbol. -/
theorem Turn.sym {h : MarketHot} {st st' : Stats F} {q q' : Pos F} {closing : Bool} {ts : List (PaperTrade F)}
    (hturn : Turn cfg now h st q closing st' q' ts) (ha : q'.active = true) :
    q.active = true ∧ q'.t.sym = q.t.sym := by
  cases hturn with
  | free | wait => exact ⟨ha, rfl⟩
  | timeout | chase | small | exit | drop | close => cases ha
  | fill => exact ⟨ha, rfl⟩
  | hold hq ht =>
    refine ⟨ha, ?_⟩
    rcases ht with rfl | rfl <;> rfl

section

variable {f : Stats F → Pos F → MarketHot → Stats F × Pos F × List (PaperTrade F)}

theorem walk_agree (hf : ∀ st q h, q.active = false → f st q h = (st, q, []))
    (hagree : ∀ i sym, K sym → hot' i sym = hot i sym) (i : Nat) (st : Stats F) {ps : List (Pos F)}
    (hps : Held K ps) : walk f hot' i st ps = walk f hot i st ps := by
  induction ps generalizing i st with
  | nil => rfl
  | cons q ps ih =>
    have hone : f st q (hot' i q.t.sym) = f st q (hot i q.t.sym) := by
      cases ha : q.active with
      | false => rw [hf _ _ _ ha, hf _ _ _ ha]
      | true => rw [hagree i q.t.sym (hps q List.mem_cons_self ha)]
    rw [walk, walk, hone]
    dsimp only
    rw [ih _ _ fun q hq => hps q (List.mem_cons_of_mem _ hq)]

theorem walk_held (hf : ∀ st q h, (f st q h).2.1.active = true →
      q.active = true ∧ (f st q h).2.1.t.sym = q.t.sym) (i : Nat) (st : Stats F) {ps : List (Pos F)}
    (hps : Held K ps) : Held K (walk f hot i st ps).2.1 := by
  induction ps generalizing i st with
  | nil => exact fun _ hq => absurd hq List.not_mem_nil
  | cons q ps ih =>
    have hrest := ih (i + 1) (f st q (hot i q.t.sym)).1 fun q hq => hps q (List.mem_cons_of_mem _ hq)
    intro x hx ha
    rcases List.mem_cons.mp hx with rfl | hx
    · obtain ⟨hact, hsym⟩ := hf _ _ _ ha
      rw [hsym]
      exact hps q List.mem_cons_self hact
    · exact hrest x hx ha

end

theorem step_agree (hagree : ∀ i sym, K sym → hot' i sym = hot i sym) (hp : Held K p.pos) :
    p.step cfg now hot' = p.step cfg now hot := by
  unfold step
  dsimp only
  rw [walk_agree (fun st q h hq => by rw [stepPos, hq]; rfl) hagree 0 _ (by rwa [rollDay_pos])]

theorem step_held (hp : Held K p.pos) : Held K (p.step cfg now hot).1.pos :=
  walk_held (fun st q h ha => (stepPos_turn cfg st q h now).sym ha) 0 _ (by rwa [rollDay_pos])

theorem closeAll_agree (reason : Bytes) (hagree : ∀ i sym, K sym → hot' i sym = hot i sym)
    (hp : Held K p.pos) : p.closeAll cfg now reason hot' = p.closeAll cfg now reason hot := by
  unfold closeAll
  rw [walk_agree (fun st q h hq => by rw [closePos, hq]; rfl) hagree 0 _ hp]

theorem closeAll_held (reason : Bytes) (hp : Held K p.pos) :
    Held K (p.closeAll cfg now reason hot).1.pos :=
  walk_held (fun st q h ha => (closePos_turn cfg reason st q h now).sym ha) 0 _ hp

theorem onSignal_held {s : Signal F} (hs : K s.sym) (hp : Held K p.pos) :
    Held K (p.onSignal cfg s now).pos := by
  rcases onSignal_cases cfg p s now with heq | htaken
  · rwa [heq]
  · generalize (p.onSignal cfg s now).pos = ps at htaken
    generalize (p.onSignal cfg s now).st = st at htaken
    generalize hpos : p.pos = qs at htaken hp
    cases htaken with
    | dup | risk | full => exact hp
    | accept hfree hother =>
      intro x hx ha
      rcases List.mem_append.mp hx with hx | hx
      · exact hp x (List.mem_append_left _ hx) ha
      · rcases List.mem_cons.mp hx with rfl | hx
        · exact hs
        · exact hp x (List.mem_append_right _ (List.mem_cons_of_mem _ hx)) ha

end PaperTrader

namespace Engine

variable {F : Type} [Dbl F] {env : Env F} {K : UInt32 → Prop} {now : UInt64} {hot hot' : Hot}
  {e : Engine F}

/-- The same readings for the symbols of `K`, the same last prices for all. -/
def AgreeOn (K : UInt32 → Prop) (hot hot' : Hot) : Prop :=
  ∀ site sym, (K sym → hot' site sym = hot site sym) ∧ (hot' site sym).lastPx = (hot site sym).lastPx

theorem AgreeOn.look (ha : AgreeOn K hot hot') {sym : UInt32} (hK : K sym) (site : Site) :
    env.look hot' site sym = env.look hot site sym := by
  unfold Env.look
  rw [(ha site sym).1 hK]

/-- The watches and positions are on symbols of `K`. -/
structure Covered (K : UInt32 → Prop) (env : Env F) (e : Engine F) : Prop where
  table : TableOk env e.core
  watched : ∀ i ∈ e.active, K (e.watch i).sym
  held : ∀ p ∈ e.paper, PaperTrader.Held K p.pos

namespace Covered

theorem findWatch (h : Covered K env e) {sym : UInt32} {i : SlotId} (hf : e.findWatch sym = some i) :
    i ∈ e.active ∧ (e.watch i).sym = sym ∧ K sym := by
  obtain ⟨hi, hsym⟩ := h.table.findWatch hf
  refine ⟨hi, hsym, ?_⟩
  rw [← hsym]
  exact h.watched i hi

/-- A change of what neither the table nor the trader depends on. -/
theorem congr (h : Covered K env e) {e' : Engine F} (hcore : e'.core = e.core) (hpaper : e'.paper = e.paper) :
    Covered K env e' where
  table := by rw [hcore]; exact h.table
  watched i hi := by
    have hactive : e'.active = e.active := congrArg Core.active hcore
    have hwatch : e'.watch = e.watch := congrArg Core.watch hcore
    rw [hwatch]
    exact h.watched i (hactive ▸ hi)
  held := by rw [hpaper]; exact h.held

theorem write (h : Covered K env e) (rs : List (JournalRecord F)) : Covered K env (e.write rs) :=
  h.congr rfl rfl

theorem todayDays (h : Covered K env e) (now : UInt64) : Covered K env (e.todayDays now) := by
  unfold Engine.todayDays
  split
  · exact ⟨⟨h.table.slots, h.table.index, h.table.activations, h.table.walks⟩, h.watched, h.held⟩
  · exact h

theorem setWatch (h : Covered K env e) {i : SlotId} {w : Watch F} (hw : w.Same (e.watch i)) :
    Covered K env (e.setWatch i w) where
  table := h.table.setWatch hw
  watched j hj := by
    rw [setWatch_sym hw.1]
    exact h.watched j hj
  held := h.held

theorem emit (h : Covered K env e) {w : Watch F} {tier : Tier} (hK : tier = .alert ∨ tier = .high → K w.sym)
    (hs : MarketHot) (reason : Bytes) : Covered K env (emit env e w tier now hs reason) where
  table := ⟨h.table.slots, h.table.index, h.table.activations, h.table.walks⟩
  watched := h.watched
  held p hp := by
    have hp' : p ∈ if tier = .alert ∨ tier = .high then
        e.paper.map (·.onSignal env.cfg.paper (signalOf env e w tier now hs reason) now) else e.paper := hp
    split at hp'
    · obtain ⟨q, hq, rfl⟩ := Option.mem_map.mp hp'
      exact PaperTrader.onSignal_held (hK ‹_›) (h.held q hq)
    · exact h.held p hp'

theorem emitCooled (h : Covered K env e) {w : Watch F} {tier : Tier}
    (hK : tier = .alert ∨ tier = .high → K w.sym) (hs : MarketHot) :
    Covered K env (emitCooled env e w tier now hs) := by
  have hcool : Covered K env (cooledDown env e w.sym tier now).1 := by
    unfold cooledDown
    dsimp only
    split <;> exact ⟨⟨h.table.slots, h.table.index, h.table.activations, h.table.walks⟩, h.watched, h.held⟩
  unfold Engine.emitCooled
  generalize cooledDown env e w.sym tier now = c at hcool
  obtain ⟨e₁, b⟩ := c
  cases b with
  | true => exact hcool.emit hK hs []
  | false => exact hcool

theorem deactivate (h : Covered K env e) {k : Nat} {i : SlotId} (hk : e.active[k]? = some i) :
    Covered K env (e.deactivateWatch k) where
  table := h.table.deactivate hk
  watched j hj := by
    rw [deactivateWatch_eq hk] at hj ⊢
    have hj' : j ∈ e.active := (Lib.swapRemove_perm hk i).mem_iff.mp (List.mem_cons_of_mem i hj)
    have hsym := setWatch_sym (e := e) (i := i) (w := { e.watch i with active := false }) rfl j
    exact hsym ▸ h.watched j hj'
  held := by
    rw [deactivateWatch_eq hk]
    exact h.held

theorem activate (h : Covered K env e) {sym : UInt32} (hf : e.findWatch sym = none) (hK : K sym) :
    Covered K env (e.activateWatch sym).1 := by
  have hevict : Covered K env e.evict := by
    unfold evict
    split
    · rename_i hfree
      obtain ⟨i, hi, -⟩ := oldest_spec (h.table.active_ne_nil (List.isEmpty_iff.mp hfree))
      exact h.deactivate hi
    · exact h
  obtain ⟨-, hfree, -⟩ := h.table.evict
  refine ⟨h.table.start hf, fun j hj => ?_, hevict.held⟩
  rw [activateWatch_eq] at hj ⊢
  rcases List.mem_append.mp hj with hj | hj
  · have hkeep := hevict.table.place_watch hfree sym (e.evict.trace.lives + 1) hj
    show K ((e.evict.place sym (e.evict.trace.lives + 1)).watch j).sym
    rw [hkeep]
    exact hevict.watched j hj
  · rw [List.mem_singleton.mp hj]
    show K (Function.update e.evict.watch _ _ _).sym
    rw [Function.update_self]
    exact hK

end Covered

/-! ## Evaluation -/

theorem Covered.evalAt (h : Covered K env e) (k : Nat) : Covered K env (evalAt env now hot e k) := by
  unfold Engine.evalAt
  split
  · exact h
  · rename_i i hk
    split
    · exact h.deactivate hk
    · split
      · exact h
      · have hspec := lookAt_spec env now (e.watch i) (hot (.eval k) (e.watch i).sym)
        have hsym := h.watched i (List.mem_of_getElem? hk)
        generalize lookAt env (e.watch i) now (hot (.eval k) (e.watch i).sym) = look at hspec
        obtain ⟨w, outs, tier⟩ := look
        have hset : Covered K env ((e.setWatch i w).write outs) := (h.setWatch hspec.1).write outs
        cases tier with
        | none => exact hset
        | some t => exact hset.emitCooled (fun _ => hspec.1.1 ▸ hsym) _

theorem evalAt_agree (h : Covered K env e) (ha : AgreeOn K hot hot') (k : Nat) :
    evalAt env now hot' e k = evalAt env now hot e k := by
  unfold evalAt
  cases hk : e.active[k]? with
  | none => rfl
  | some i =>
    have hsym := h.watched i (List.mem_of_getElem? hk)
    have hspec := lookAt_spec env now (e.watch i) (hot (.eval k) (e.watch i).sym)
    dsimp only
    rw [(ha (.eval k) (e.watch i).sym).1 hsym]
    generalize lookAt env (e.watch i) now (hot (.eval k) (e.watch i).sym) = look at hspec
    obtain ⟨w, outs, tier⟩ := look
    have hw : K w.sym := hspec.1.1 ▸ hsym
    cases tier with
    | none => rfl
    | some t =>
      dsimp only
      rw [(ha (.evalSignal k) w.sym).1 hw]

/-- The loop over the watches, for two turns that agree. -/
theorem walkBack_agree {f f' : Engine F → Nat → Engine F}
    (hf : ∀ e k, Covered K env e → f' e k = f e k ∧ Covered K env (f e k)) (h : Covered K env e) (k : Nat) :
    Lib.walkBack Engine.active f' k e = Lib.walkBack Engine.active f k e ∧
      Covered K env (Lib.walkBack Engine.active f k e).1 := by
  induction k generalizing e with
  | zero => exact ⟨rfl, h⟩
  | succ k ih =>
    obtain ⟨heq, hcov⟩ := hf e k h
    obtain ⟨hrest, hcov'⟩ := ih hcov
    rw [Lib.walkBack, Lib.walkBack, heq, hrest]
    exact ⟨rfl, hcov'⟩

theorem evalLoop_agree (h : Covered K env e) (ha : AgreeOn K hot hot') (k : Nat) :
    evalLoop env now hot' k e = evalLoop env now hot k e ∧ Covered K env (evalLoop env now hot k e).1 :=
  walkBack_agree (fun _ k hcov => ⟨evalAt_agree hcov ha k, hcov.evalAt k⟩) h k

theorem paperStep_agree (h : Covered K env e) (ha : AgreeOn K hot hot') :
    paperStep env e now hot' = paperStep env e now hot ∧ Covered K env (paperStep env e now hot) := by
  unfold paperStep
  cases hp : e.paper with
  | none => exact ⟨rfl, h⟩
  | some p =>
    have hheld := h.held p hp
    dsimp only
    rw [PaperTrader.step_agree (fun i sym hK => (ha (.paper i) sym).1 hK) hheld]
    refine ⟨rfl, h.table, h.watched, fun q hq => ?_⟩
    cases hq
    exact PaperTrader.step_held hheld

theorem evaluate_agree (h : Covered K env e) (ha : AgreeOn K hot hot') :
    evaluate env e now hot' = evaluate env e now hot ∧ Covered K env (evaluate env e now hot) := by
  obtain ⟨heq, hcov⟩ := evalLoop_agree h ha e.active.length
  have hwalk := h.table.walk now hot
  unfold evaluate
  rw [heq]
  dsimp only
  refine paperStep_agree ?_ ha
  refine ⟨⟨hcov.table.slots, hcov.table.index, hcov.table.activations, fun w hmem => ?_⟩, hcov.watched,
    hcov.held⟩
  rcases List.mem_append.mp hmem with hmem | hmem
  · exact hcov.table.walks w hmem
  · rw [List.mem_singleton.mp hmem]
    exact hwalk

/-! ## Halts -/

theorem haltAlert_px {sym : UInt32} {h h' : MarketHot} (heq : h'.lastPx = h.lastPx) :
    haltAlert env e sym h' = haltAlert env e sym h := by
  have hlast : (h'.last : F) = h.last := congrArg MarketHot.dollars heq
  unfold haltAlert
  rw [heq, hlast]

/-- A halt is signalled with the quotes of its symbol: one that is watched, or one of `K`. -/
theorem handleHalt_agree (h : Covered K env e) (ha : AgreeOn K hot hot') {sym : UInt32}
    (hK : env.cfg.haltAlerts ≠ 2 ∨ K sym) (halted : Bool) (reason title : Bytes) (i : Nat) :
    handleHalt env e sym halted reason now title hot' i = handleHalt env e sym halted reason now title hot i ∧
      Covered K env (handleHalt env e sym halted reason now title hot i) := by
  have hcov : Covered K env (e.noteHalt sym halted now).1 := by
    refine h.congr (noteHalt_core e sym halted now) ?_
    unfold noteHalt
    dsimp only
    split <;> rfl
  have hlook : (env.look hot' (.halt i) sym).lastPx = (env.look hot (.halt i) sym).lastPx := by
    unfold Env.look
    split
    · exact (ha (.halt i) sym).2
    · rfl
  unfold handleHalt
  split
  · exact ⟨rfl, h⟩
  · generalize e.noteHalt sym halted now = c at hcov
    obtain ⟨e₁, b⟩ := c
    cases b with
    | false => exact ⟨rfl, hcov⟩
    | true =>
      dsimp only at hcov ⊢
      rw [haltAlert_px hlook]
      split
      · exact ⟨rfl, hcov⟩
      · rename_i halert
        have hsym : K sym := by
          rcases hK with hne | hK
          · have halert' : haltAlert env e₁ sym (env.look hot (.halt i) sym) = true := by simpa using halert
            unfold haltAlert at halert'
            rw [if_neg hne] at halert'
            obtain ⟨-, hsome⟩ := of_decide_eq_true halert'
            obtain ⟨j, hj⟩ := Option.isSome_iff_exists.mp hsome
            exact (hcov.findWatch hj).2.2
          · exact hK
        rw [(ha (.haltSignal i) sym).1 hsym]
        exact ⟨rfl, hcov.emit (fun ht => absurd ht (by decide)) _ _⟩

/-! ## News -/

theorem Covered.storeStory (h : Covered K env e) {i : SlotId} {w : Watch F}
    (hw : w.Same (e.watch i)) (hs : MarketHot) : Covered K env (storeStory env e i w now hs) := by
  unfold Engine.storeStory
  split
  · have hset := h.setWatch (i := i) (w := { w with tier := .watch }) hw
    exact hset.emitCooled (fun ht => absurd ht (by decide)) hs
  · exact h.setWatch hw

theorem Covered.storyOn (h : Covered K env e) (ev : NewsEvent F) {q : Primary F} (hK : K q.sym)
    (m hs : MarketHot) : Covered K env (storyOn env e ev q now m hs).1 := by
  unfold Engine.storyOn
  split
  · rename_i i hf
    split
    · exact h
    · exact h.storeStory (w := storyWatch env (e.watch i) ev q.r q.dil q.mcap) ⟨rfl, rfl⟩ hs
  · rename_i hf
    have hact := h.activate hf hK
    generalize e.activateWatch q.sym = c at hact
    obtain ⟨e₁, i⟩ := c
    exact hact.storeStory (w := storyWatch env (freshWatch env (e₁.watch i) ev now m) ev q.r q.dil q.mcap)
      ⟨rfl, rfl⟩ hs

theorem newsTicker_agree {l : NewsLoop F} (h : Covered K env l.e) (ha : AgreeOn K hot hot') (ev : NewsEvent F)
    (r : ScoreResult F) {x : UInt32 × Nat} (hK : K x.1) :
    newsTicker env ev r now hot' l x = newsTicker env ev r now hot l x ∧
      Covered K env (newsTicker env ev r now hot l x).e := by
  unfold newsTicker
  rw [ha.look hK, (ha (.newsSignal x.2) x.1).1 hK]
  refine ⟨rfl, ?_⟩
  split
  · exact h
  · dsimp only
    have h₁ : Covered K env { l.e with lastNewsBySym := l.e.lastNewsBySym.insertOrAssign x.1.toUInt64 now } :=
      h.congr rfl rfl
    split
    · exact h₁
    · exact h₁.storyOn ev hK _ _

/-- A loop over a story's tickers, all of `K`. -/
theorem foldl_agree {S : Type} (eng : S → Engine F) {f f' : S → UInt32 × Nat → S} {xs : List (UInt32 × Nat)}
    (hf : ∀ s x, x ∈ xs → Covered K env (eng s) → f' s x = f s x ∧ Covered K env (eng (f s x))) {s : S}
    (h : Covered K env (eng s)) : xs.foldl f' s = xs.foldl f s ∧ Covered K env (eng (xs.foldl f s)) := by
  induction xs generalizing s with
  | nil => exact ⟨rfl, h⟩
  | cons x xs ih =>
    obtain ⟨heq, hcov⟩ := hf s x List.mem_cons_self h
    rw [List.foldl_cons, List.foldl_cons, heq]
    exact ih (fun s x hx => hf s x (List.mem_cons_of_mem _ hx)) hcov

theorem mem_of_mem_zipIdx {l : List UInt32} {x : UInt32 × Nat} (h : x ∈ l.zipIdx) : x.1 ∈ l :=
  List.fst_mem_of_mem_zipIdx h

theorem onScored_agree (h : Covered K env e) (ha : AgreeOn K hot hot') {ev : NewsEvent F}
    (hK : ∀ sym ∈ ev.tickers, K sym) (d : Dedupe) (r : ScoreResult F) :
    onScored env e ev d r now hot' = onScored env e ev d r now hot ∧
      Covered K env (onScored env e ev d r now hot) := by
  have hin : ∀ x ∈ (if ev.kind = .news then ev.tickers else ev.tickers.take 1).zipIdx, K x.1 := by
    intro x hx
    have hmem := mem_of_mem_zipIdx hx
    split at hmem
    · exact hK _ hmem
    · exact hK _ (List.mem_of_mem_take hmem)
  unfold onScored
  dsimp only
  generalize (if ev.kind = .news then ev.tickers else ev.tickers.take 1).zipIdx = xs at hin
  generalize Primary.mk r SymbolTable.kInvalid 0 (ofRat 0) (ofRat 0) false = q
  obtain ⟨heq, hcov⟩ := foldl_agree NewsLoop.e (f := newsTicker env ev r now hot)
    (s := ⟨e.todayDays now, q, false⟩)
    (fun l x hx hl => newsTicker_agree hl ha ev r (hin x hx)) (h.todayDays now)
  rw [heq]
  split
  · exact evaluate_agree (hcov.write _) ha
  · exact ⟨rfl, hcov.write _⟩

theorem dilutionInfo_agree (h : Covered K env e) (ha : AgreeOn K hot hot') (ev : NewsEvent F)
    (cls : FormClass) (x : UInt32 × Nat) :
    dilutionInfo env ev cls now hot' e x = dilutionInfo env ev cls now hot e x ∧
      Covered K env (dilutionInfo env ev cls now hot e x) := by
  unfold dilutionInfo
  split
  · exact ⟨rfl, h⟩
  · rename_i i hf
    obtain ⟨-, hsym, hK⟩ := h.findWatch hf
    dsimp only
    rw [(ha (.newsSignal x.2) (e.watch i).sym).1 (hsym.symm ▸ hK)]
    have hset := h.setWatch (i := i) (w := { e.watch i with dilutionFlags := (e.watch i).dilutionFlags |||
      if cls = .prospectus then kFlagOfferingRecent else kFlagEffectRecent }) ⟨rfl, rfl⟩
    exact ⟨rfl, hset.emit (fun ht => absurd ht (by decide)) _ _⟩

theorem onNews_agree (h : Covered K env e) (ha : AgreeOn K hot hot') {ev : NewsEvent F}
    (hK : ∀ sym ∈ ev.tickers, K sym) :
    onNews env e ev now hot' = onNews env e ev now hot ∧ Covered K env (onNews env e ev now hot) := by
  have hdedupe : Covered K env (e.dedupe ev).1 := by
    refine h.congr (dedupe_core e ev) ?_
    unfold dedupe
    split
    · dsimp only
      split <;> rfl
    · rfl
  unfold onNews
  generalize e.dedupe ev = c at hdedupe
  obtain ⟨e₁, d⟩ := c
  dsimp only at hdedupe ⊢
  split
  · unfold onHaltNews
    obtain ⟨heq, hcov⟩ := foldl_agree (fun e => e)
      (f := fun e t => handleHalt env e t.1 (ev.halt.resumeTradeNs == 0) ev.halt.reason.bytes now
        (cstr ev.title.bytes) hot t.2)
      (fun e x hx hcov => handleHalt_agree hcov ha (.inr (hK _ (mem_of_mem_zipIdx hx))) _ _ _ _) hdedupe
    rw [heq]
    exact ⟨rfl, hcov.write _⟩
  · have hfiling : Covered K env (e₁.noteFiling ev now) := (hdedupe.todayDays now).congr rfl rfl
    split
    · unfold onRegistration
      dsimp only
      split
      · obtain ⟨heq, hcov⟩ := foldl_agree (fun e => e)
          (f := dilutionInfo env ev (classifyForm ev.form.bytes) now hot)
          (fun e x _ hcov => dilutionInfo_agree hcov ha ev _ x) hfiling
        rw [heq]
        exact ⟨rfl, hcov.write _⟩
      · exact ⟨rfl, hfiling.write _⟩
    · exact onScored_agree hfiling ha hK d _
  · exact onScored_agree hdedupe ha hK d _
  · exact onScored_agree hdedupe ha hK d _

/-! ## Calls -/

/-- A call that the board of other quotes leads to. -/
def Call.on (hot : Hot) : Call F → Call F
  | .news ev now _ => .news ev now hot
  | .market ev now _ => .market ev now hot
  | .evaluate now _ => .evaluate now hot
  | .scanMovers now _ => .scanMovers now hot
  | .shutdown now _ => .shutdown now hot

/-- The tickers of the story of a call. -/
def Call.tickers : Call F → List UInt32
  | .news ev _ _ => ev.tickers
  | _ => []

/-- Without movers and without alerts for every halt, a call does the same on both boards. -/
theorem call_agree (h : Covered K env e) {c : Call F} (ha : AgreeOn K c.hot hot')
    (hK : ∀ sym ∈ c.tickers, K sym) (hmovers : env.cfg.moversEnabled = false)
    (hhalts : env.cfg.haltAlerts ≠ 2) :
    call env e (c.on hot') = call env e c ∧ Covered K env (call env e c) := by
  cases c with
  | news ev now hot => exact onNews_agree h ha hK
  | market ev now hot =>
    show onMarketEvent env e ev now hot' = onMarketEvent env e ev now hot ∧
      Covered K env (onMarketEvent env e ev now hot)
    unfold onMarketEvent
    split
    · exact handleHalt_agree h ha (.inl hhalts) _ _ _ _
    · exact ⟨rfl, h⟩
  | evaluate now hot => exact evaluate_agree h ha
  | scanMovers now hot =>
    have hscan : ∀ hot : Hot, scanMovers env e now hot = e := by
      intro hot
      unfold scanMovers
      split
      · rfl
      · exact if_pos (by rw [hmovers]; rfl)
    show scanMovers env e now hot' = scanMovers env e now hot ∧ Covered K env (scanMovers env e now hot)
    rw [hscan, hscan]
    exact ⟨rfl, h⟩
  | shutdown now hot =>
    show shutdown env e now hot' = shutdown env e now hot ∧ Covered K env (shutdown env e now hot)
    unfold shutdown
    cases hp : e.paper with
    | none => exact ⟨rfl, h⟩
    | some p =>
      have hheld := h.held p hp
      dsimp only
      rw [PaperTrader.closeAll_agree _ (fun i sym hK => (ha (.paper i) sym).1 hK) hheld]
      refine ⟨rfl, h.table, h.watched, fun q hq => ?_⟩
      cases hq
      exact PaperTrader.closeAll_held _ hheld

/-- A fresh engine has neither watches nor positions. -/
theorem covered_init (filings : FilingsHistory) : Covered K env (init env filings) where
  table := tableOk_init filings
  watched := nofun
  held p hp := by
    have hp' : p ∈ if env.cfg.paper.enabled ∧ env.hasBoard then some (PaperTrader.init env.cfg.paper)
        else none := hp
    split at hp'
    · cases hp'
      intro q hq ha
      rw [List.eq_of_mem_replicate hq] at ha
      cases ha
    · cases hp'

end Engine

end Stok
