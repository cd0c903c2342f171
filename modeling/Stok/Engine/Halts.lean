import Stok.Engine.Emission
import Stok.Engine.Turns
import Stok.Lib.LastSeen

/-!
# Halts from two sources

The exchange feed reports trading halts and resumptions through `on_market_event`, the halts feed
through `on_news`. `handle_halt` keeps the last state let through for a symbol and its time, and drops
a report of the same state within two minutes: `Stok.Lib.LastSeen`, at the states `H` and `T`.
-/

namespace Stok

namespace Engine

open Lib LastSeen

variable {F : Type} [Dbl F]

/-- The symbol of a trading action. -/
def marketSym {n : Nat} (ev : MarketEvent n) : UInt32 :=
  match ev.sym with
  | some s => .ofNat s
  | none => SymbolTable.kInvalid

/-- The reports on `sym` that a call makes: the exchange feed is the source `true`, the halts feed
the source `false`. -/
def Call.reports (sym : UInt32) : Call F → List (Report UInt8)
  | .news ev now _ =>
    if ev.kind = .halt then
      (ev.tickers.filter fun s => s = sym).map fun _ =>
        ⟨false, haltState (ev.halt.resumeTradeNs == 0), now.toNat⟩
    else []
  | .market ev now _ =>
    if ev.type = .tradingAction ∧ marketSym ev = sym then
      [⟨true, haltState (ev.state != ch 'T'), now.toNat⟩]
    else []
  | _ => []

/-- Halt alerts are on for `sym` wherever the call looks at it. -/
def Enabled (env : Env F) (e : Engine F) (sym : UInt32) : Call F → Prop
  | .news ev _ hot => ev.kind = .halt → ∀ t ∈ ev.tickers.zipIdx, t.1 = sym →
      haltAlert env e sym (env.look hot (.halt t.2) sym) = true
  | .market ev _ hot => ev.type = .tradingAction → marketSym ev = sym →
      haltAlert env e sym (env.look hot (.halt 0) sym) = true
  | _ => True

/-- The number of `HALT` signals on `sym` so far. -/
def haltCount (sym : UInt32) (e : Engine F) : Nat :=
  e.trace.emitted.countP fun m => m.signal.tier = .halt ∧ m.signal.sym = sym

/-- The reports on `sym` in a run, each with the number of `HALT` signals on it that its call emits. -/
def heard (env : Env F) (sym : UInt32) : Engine F → List (Call F) → List (Report UInt8 × Nat)
  | _, [] => []
  | e, c :: calls =>
    ((c.reports sym).map fun r => (r, haltCount sym (call env e c) - haltCount sym e)) ++
      heard env sym (call env e c) calls

def haltWindow : Nat := 120 * 1000000000

variable {env : Env F} {e e' : Engine F} {c : Call F} {now : UInt64} {sym : UInt32}

/-- The last state let through for a symbol, and its time. -/
def seen (sym : UInt32) (e : Engine F) : Option (UInt8 × Nat) :=
  (e.haltSeen.map.lookup sym.toUInt64).map fun hs => (hs.state, hs.t.toNat)

/-! ## Calls that report no halt -/

/-- No `HALT` signal is emitted and the table of halts is not written. -/
structure Calm (e e' : Engine F) : Prop where
  haltSeen : e'.haltSeen = e.haltSeen
  count : ∀ sym, haltCount sym e' = haltCount sym e

theorem Calm.of_emitted (hs : e'.haltSeen = e.haltSeen) (he : e'.trace.emitted = e.trace.emitted) :
    Calm e e' :=
  ⟨hs, fun sym => by rw [haltCount, haltCount, he]⟩

theorem Calm.trans {e₁ e₂ e₃ : Engine F} (h : Calm e₁ e₂) (h' : Calm e₂ e₃) : Calm e₁ e₃ :=
  ⟨h'.haltSeen.trans h.haltSeen, fun sym => (h'.count sym).trans (h.count sym)⟩

theorem haltCount_emit (w : Watch F) (tier : Tier) (h : MarketHot) (reason : Bytes) :
    haltCount sym (emit env e w tier now h reason) =
      haltCount sym e + if tier = .halt ∧ w.sym = sym then 1 else 0 := by
  show List.countP _ (e.trace.emitted ++ [_]) = _
  rw [List.countP_append, List.countP_singleton]
  show haltCount sym e + (if decide (tier = .halt ∧ w.sym = sym) = true then 1 else 0) = _
  simp only [decide_eq_true_eq]

theorem Calm.emit (hcalm : Calm e e') {w : Watch F} {tier : Tier} (ht : tier ≠ .halt) {h : MarketHot}
    {reason : Bytes} : Calm e (emit env e' w tier now h reason) :=
  ⟨hcalm.haltSeen, fun sym => by
    rw [haltCount_emit, if_neg fun hc => ht hc.1, Nat.add_zero, hcalm.count]⟩

theorem Calm.emitCooled (hcalm : Calm e e') {w : Watch F} {tier : Tier} (ht : tier ≠ .halt)
    {h : MarketHot} : Calm e (emitCooled env e' w tier now h) := by
  unfold Engine.emitCooled cooledDown
  dsimp only
  split
  · rename_i heq
    split at heq <;> cases heq
    refine Calm.emit ?_ ht
    exact ⟨hcalm.haltSeen, hcalm.count⟩
  · rename_i heq
    split at heq <;> cases heq
    exact ⟨hcalm.haltSeen, hcalm.count⟩

theorem calm_deactivateWatch (k : Nat) : Calm e (e.deactivateWatch k) := by
  unfold deactivateWatch
  split
  · exact .of_emitted rfl rfl
  · exact .of_emitted rfl rfl

theorem calm_activateWatch (sym : UInt32) : Calm e (e.activateWatch sym).1 := by
  rw [activateWatch_eq]
  have hevict : Calm e e.evict := by
    unfold evict
    split
    · exact calm_deactivateWatch _
    · exact .of_emitted rfl rfl
  exact hevict.trans (.of_emitted rfl rfl)

theorem Calm.storeStory (hcalm : Calm e e') {i : SlotId} {w : Watch F} {h : MarketHot} :
    Calm e (storeStory env e' i w now h) := by
  unfold Engine.storeStory
  split
  · refine Calm.emitCooled ?_ (show Tier.watch ≠ .halt from nofun)
    exact ⟨hcalm.haltSeen, hcalm.count⟩
  · exact ⟨hcalm.haltSeen, hcalm.count⟩

theorem calm_storyOn (ev : NewsEvent F) (p : Primary F) (h hs : MarketHot) :
    Calm e (storyOn env e ev p now h hs).1 := by
  unfold storyOn
  split
  · split
    · exact .of_emitted rfl rfl
    · exact Calm.storeStory (.of_emitted rfl rfl)
  · exact (calm_activateWatch p.sym).storeStory

theorem calm_dilutionInfo (ev : NewsEvent F) (cls : FormClass) (hot : Hot) (t : UInt32 × Nat) :
    Calm e (dilutionInfo env ev cls now hot e t) := by
  unfold dilutionInfo
  split
  · exact .of_emitted rfl rfl
  · refine Calm.emit ?_ (show Tier.info ≠ .halt from nofun)
    exact .of_emitted rfl rfl

theorem calm_evalAt (hot : Hot) (k : Nat) : Calm e (evalAt env now hot e k) := by
  unfold evalAt
  split
  · exact .of_emitted rfl rfl
  · rename_i i hk
    split
    · exact calm_deactivateWatch k
    · split
      · exact .of_emitted rfl rfl
      · have hspec := lookAt_spec env now (e.watch i)
          (hot (.eval k) (e.watch i).sym)
        split
        · exact .of_emitted rfl rfl
        · rename_i w outs t heq
          rw [heq] at hspec
          have ht : t ≠ .halt := by
            rintro rfl
            exact absurd hspec.2.2.2.2 (by decide)
          refine Calm.emitCooled ?_ ht
          exact .of_emitted rfl rfl

theorem calm_scanSym (hot : Hot) (sym : UInt32) : Calm e (scanSym env now hot e sym) := by
  unfold scanSym
  split
  · exact .of_emitted rfl rfl
  · split
    · exact .of_emitted rfl rfl
    · dsimp only
      split
      · exact .of_emitted rfl rfl
      · refine Calm.emit ?_ (by decide)
        exact .of_emitted rfl rfl

theorem calm_turn (hc : c.halts = false) (h : Turn env c e e') : Calm e e' := by
  cases h with
  | aside h => exact .of_emitted h.haltSeen (congrArg (·.trace.emitted) h.core)
  | today =>
    unfold todayDays
    split
    · exact .of_emitted rfl rfl
    · exact .of_emitted rfl rfl
  | filing => exact .of_emitted rfl rfl
  | dilution => exact calm_dilutionInfo ..
  | story => exact calm_storyOn ..
  | look => exact calm_evalAt ..
  | walked => exact .of_emitted rfl rfl
  | mover => exact calm_scanSym ..
  | halt _ _ _ _ _ _ hh => exact absurd (hc.symm.trans hh) Bool.false_ne_true

theorem calm_call (hc : c.halts = false) (e : Engine F) : Calm e (call env e c) := by
  have h : Turns env c e (call env e c) := turns_call c e
  generalize call env e c = e' at h
  induction h with
  | refl => exact .of_emitted rfl rfl
  | tail _ h ih => exact ih.trans (calm_turn hc h)

/-! ## Calls that report halts -/

/-- The table holds no time after `now`. -/
def SeenBy (sym : UInt32) (now : UInt64) (e : Engine F) : Prop :=
  ∀ hs, e.haltSeen.map.lookup sym.toUInt64 = some hs → hs.t ≤ now

theorem noteHalt_core (e : Engine F) (s : UInt32) (halted : Bool) (now : UInt64) :
    (e.noteHalt s halted now).1.core = e.core := by
  unfold noteHalt
  dsimp only
  split
  · rfl
  · rfl

theorem noteHalt_cases (e : Engine F) (s : UInt32) (halted : Bool) (now : UInt64) :
    (∃ hs, e.haltSeen.map.lookup s.toUInt64 = some hs ∧
        (hs.state = haltState halted ∧ now - hs.t < 120 * kNsPerSec) ∧
        (e.noteHalt s halted now).2 = false ∧
        (e.noteHalt s halted now).1.haltSeen.map = e.haltSeen.map) ∨
      ((∀ hs, e.haltSeen.map.lookup s.toUInt64 = some hs →
          ¬ (hs.state = haltState halted ∧ now - hs.t < 120 * kNsPerSec)) ∧
        (e.noteHalt s halted now).2 = true ∧
        (e.noteHalt s halted now).1.haltSeen.map =
          e.haltSeen.map.insert s.toUInt64 { state := haltState halted, t := now }) := by
  have hassign := e.haltSeen.map_assign (symKey_ne s) { state := haltState halted, t := now }
  have hcases := e.haltSeen.tryEmplace_cases (symKey_ne s)
  unfold noteHalt
  dsimp only
  generalize e.haltSeen.tryEmplace s.toUInt64 = r at hassign hcases ⊢
  obtain ⟨tab, hs, inserted⟩ := r
  dsimp only at hassign hcases ⊢
  rcases hcases with ⟨v, hlook, hres, hmap⟩ | ⟨hlook, hres, -⟩
  · obtain ⟨rfl, rfl⟩ := Prod.mk.inj hres
    by_cases hdrop : hs.state = haltState halted ∧ now - hs.t < 120 * kNsPerSec
    · rw [if_pos ⟨rfl, hdrop⟩]
      exact .inl ⟨hs, hlook, hdrop, rfl, hmap⟩
    · rw [if_neg fun hc => hdrop hc.2]
      refine .inr ⟨fun hs' hlook' => ?_, rfl, hassign⟩
      rw [← Option.some.inj (hlook.symm.trans hlook')]
      exact hdrop
  · obtain ⟨rfl, rfl⟩ := Prod.mk.inj hres
    rw [if_neg fun hc => absurd hc.1 (by decide)]
    exact .inr ⟨fun hs' hlook' => absurd (hlook.symm.trans hlook') nofun, rfl, hassign⟩

/-- A report on another symbol. -/
theorem noteHalt_other (e : Engine F) {s : UInt32} (hs : s ≠ sym) (halted : Bool) (now : UInt64) :
    (e.noteHalt s halted now).1.haltSeen.map.lookup sym.toUInt64 =
      e.haltSeen.map.lookup sym.toUInt64 := by
  rcases noteHalt_cases e s halted now with ⟨-, -, -, -, hmap⟩ | ⟨-, -, hmap⟩
  · rw [hmap]
  · rw [hmap, Finmap.lookup_insert_of_ne _ fun h => hs (symKey_inj h).symm]

/-- A report passes as in `LastSeen`. -/
theorem noteHalt_self (hle : SeenBy sym now e) (src : Bool) (halted : Bool) :
    (e.noteHalt sym halted now).2 =
        passes haltWindow (seen sym e) ⟨src, haltState halted, now.toNat⟩ ∧
      seen sym (e.noteHalt sym halted now).1 =
        note haltWindow (seen sym e) ⟨src, haltState halted, now.toNat⟩ ∧
      SeenBy sym now (e.noteHalt sym halted now).1 := by
  have hnat : ∀ hs, e.haltSeen.map.lookup sym.toUInt64 = some hs →
      (now - hs.t < 120 * kNsPerSec ↔ now.toNat - hs.t.toNat < haltWindow) := by
    intro hs hlook
    rw [UInt64.lt_iff_toNat_lt, UInt64.toNat_sub_of_le _ _ (hle hs hlook)]
    rfl
  rcases noteHalt_cases e sym halted now with ⟨hs, hlook, hdrop, hres, hmap⟩ | ⟨hfresh, hres, hmap⟩
  · have hp : passes haltWindow (seen sym e) ⟨src, haltState halted, now.toNat⟩ = false := by
      rw [seen, hlook]
      simp [passes, hdrop.1, (hnat hs hlook).mp hdrop.2]
    refine ⟨hres.trans hp.symm, ?_, ?_⟩
    · rw [note_of_not hp, seen, hmap]
      rfl
    · unfold SeenBy
      rw [hmap]
      exact hle
  · have hp : passes haltWindow (seen sym e) ⟨src, haltState halted, now.toNat⟩ = true := by
      rw [seen]
      cases hlook : e.haltSeen.map.lookup sym.toUInt64 with
      | none => rfl
      | some hs =>
        simp only [Option.map_some, passes, Bool.not_eq_true', Bool.and_eq_false_iff,
          decide_eq_false_iff_not]
        rcases not_and_or.mp (hfresh hs hlook) with h | h
        · exact .inl h
        · exact .inr fun hc => h ((hnat hs hlook).mpr hc)
    refine ⟨hres.trans hp.symm, ?_, ?_⟩
    · rw [note_of_passes hp, seen, hmap, Finmap.lookup_insert]
      rfl
    · intro hs hlook
      rw [hmap, Finmap.lookup_insert] at hlook
      cases hlook
      exact UInt64.le_refl _

/-- What a call keeps while it handles halts one by one. -/
structure Holds (env : Env F) (sym : UInt32) (now : UInt64) (e e' : Engine F) : Prop where
  table : TableOk env e'.core
  seenBy : SeenBy sym now e'
  watches : e'.watchBySym = e.watchBySym

theorem haltAlert_congr (h : e'.watchBySym = e.watchBySym) (hot : MarketHot) :
    haltAlert env e' sym hot = haltAlert env e sym hot := by
  unfold haltAlert findWatch
  rw [h]

theorem TableOk.haltWatch_sym (h : TableOk env e.core) (sym : UInt32) (halted : Bool)
    (reason title : Bytes) (now : UInt64) :
    (haltWatch env e sym halted reason title now).sym = sym := by
  unfold haltWatch
  cases hf : e.findWatch sym with
  | none => rfl
  | some i => exact (h.findWatch hf).2

/-- A halt is for an unknown symbol, noted only, or noted and signalled. -/
theorem handleHalt_cases (env : Env F) (now : UInt64) (e : Engine F) (s : UInt32) (halted : Bool)
    (reason title : Bytes) (hot : Hot) (i : Nat) :
    env.symbols.size ≤ s.toNat ∧ handleHalt env e s halted reason now title hot i = e ∨
      ((e.noteHalt s halted now).2 = false ∨ haltAlert env e s (env.look hot (.halt i) s) = false) ∧
        handleHalt env e s halted reason now title hot i = (e.noteHalt s halted now).1 ∨
      (e.noteHalt s halted now).2 = true ∧
        handleHalt env e s halted reason now title hot i = emit env (e.noteHalt s halted now).1
          (haltWatch env (e.noteHalt s halted now).1 s halted reason title now) .halt now
          (hot (.haltSignal i) s) reason := by
  have halert : haltAlert env (e.noteHalt s halted now).1 s (env.look hot (.halt i) s) =
      haltAlert env e s (env.look hot (.halt i) s) :=
    haltAlert_congr (congrArg Core.watchBySym (noteHalt_core e s halted now)) _
  unfold handleHalt
  split
  · rename_i hsize
    exact .inl ⟨hsize, rfl⟩
  · refine .inr ?_
    split
    · rename_i e₁ heq
      rw [heq]
      exact .inl ⟨.inl rfl, rfl⟩
    · rename_i e₁ heq
      rw [heq] at halert ⊢
      split
      · rename_i hoff
        rw [halert] at hoff
        exact .inl ⟨.inr (by simpa using hoff), rfl⟩
      · exact .inr ⟨rfl, rfl⟩

/-- One halt: a report on `sym` goes through the table and is signalled if it passes; one on another
symbol leaves `sym` alone. -/
theorem handleHalt_spec (s : UInt32) (halted : Bool) (reason title : Bytes) {hot : Hot} {i : Nat}
    (src : Bool) (hsym : sym.toNat < env.symbols.size) (htable : TableOk env e.core)
    (hle : SeenBy sym now e)
    (halert : s = sym → haltAlert env e sym (env.look hot (.halt i) sym) = true) :
    let rs : List (Report UInt8) := if s = sym then [⟨src, haltState halted, now.toNat⟩] else []
    let e' := handleHalt env e s halted reason now title hot i
    Holds env sym now e e' ∧ seen sym e' = after haltWindow (seen sym e) rs ∧
      haltCount sym e' = haltCount sym e + (marks haltWindow (seen sym e) rs).countP (·.2) := by
  intro rs e'
  have hcore := noteHalt_core e s halted now
  have htable' : TableOk env (e.noteHalt s halted now).1.core := by rw [hcore]; exact htable
  have hcount : haltCount sym (e.noteHalt s halted now).1 = haltCount sym e := by
    rw [haltCount, haltCount, show (e.noteHalt s halted now).1.trace = e.trace from
      congrArg Core.trace hcore]
  have hwatches : (e.noteHalt s halted now).1.watchBySym = e.watchBySym := congrArg Core.watchBySym hcore
  have hsig := htable'.haltWatch_sym s halted reason title now
  have hcases := handleHalt_cases env now e s halted reason title hot i
  by_cases hs : s = sym
  · subst hs
    obtain ⟨hpass, hseen, hle'⟩ := noteHalt_self hle src halted
    have hrs : rs = [⟨src, haltState halted, now.toNat⟩] := if_pos rfl
    have hmarks : (marks haltWindow (seen s e) rs).countP (·.2) =
        if (e.noteHalt s halted now).2 = true then 1 else 0 := by
      rw [hrs, hpass]
      exact List.countP_singleton ..
    have hafter : after haltWindow (seen s e) rs = seen s (e.noteHalt s halted now).1 := by
      rw [hrs, hseen]
      rfl
    rw [hmarks, hafter]
    rcases hcases with ⟨hsize, -⟩ | ⟨hoff, he'⟩ | ⟨hfresh, he'⟩
    · exact absurd hsym (Nat.not_lt.mpr hsize)
    · have hold := hoff.resolve_right (by rw [halert rfl]; exact nofun)
      rw [show e' = _ from he', hold]
      exact ⟨⟨htable', hle', hwatches⟩, rfl, hcount⟩
    · rw [show e' = _ from he', hfresh]
      refine ⟨⟨htable'.sameSyms rfl rfl rfl (fun _ => rfl) rfl rfl, hle', hwatches⟩, rfl, ?_⟩
      rw [haltCount_emit, if_pos ⟨rfl, hsig⟩, hcount]
      rfl
  · have hrs : rs = [] := if_neg hs
    have hlook := noteHalt_other e hs halted now
    have hseen : seen sym (e.noteHalt s halted now).1 = seen sym e := by rw [seen, seen, hlook]
    have hle' : SeenBy sym now (e.noteHalt s halted now).1 := by
      unfold SeenBy
      rw [hlook]
      exact hle
    rw [hrs]
    rcases hcases with ⟨-, he'⟩ | ⟨-, he'⟩ | ⟨-, he'⟩
    · rw [show e' = _ from he']
      exact ⟨⟨htable, hle, rfl⟩, rfl, rfl⟩
    · rw [show e' = _ from he']
      exact ⟨⟨htable', hle', hwatches⟩, hseen, hcount⟩
    · rw [show e' = _ from he']
      refine ⟨⟨htable'.sameSyms rfl rfl rfl (fun _ => rfl) rfl rfl, hle', hwatches⟩, hseen, ?_⟩
      rw [haltCount_emit, if_neg fun hc => hs (hsig.symm.trans hc.2), hcount]
      rfl

/-- The halts of one event, in the order of its tickers. -/
theorem onHaltNews_spec (ev : NewsEvent F) {hot : Hot} (hsym : sym.toNat < env.symbols.size)
    (l : List (UInt32 × Nat)) (htable : TableOk env e.core) (hle : SeenBy sym now e)
    (halert : ∀ t ∈ l, t.1 = sym → haltAlert env e sym (env.look hot (.halt t.2) sym) = true) :
    let rs : List (Report UInt8) := ((l.map Prod.fst).filter fun s => s = sym).map fun _ =>
      ⟨false, haltState (ev.halt.resumeTradeNs == 0), now.toNat⟩
    let e' := l.foldl (fun e t => handleHalt env e t.1 (ev.halt.resumeTradeNs == 0)
      ev.halt.reason.bytes now (cstr ev.title.bytes) hot t.2) e
    Holds env sym now e e' ∧ seen sym e' = after haltWindow (seen sym e) rs ∧
      haltCount sym e' = haltCount sym e + (marks haltWindow (seen sym e) rs).countP (·.2) := by
  induction l generalizing e with
  | nil => exact ⟨⟨htable, hle, rfl⟩, rfl, rfl⟩
  | cons t l ih =>
    intro rs e'
    obtain ⟨ht, hl⟩ := List.forall_mem_cons.mp halert
    obtain ⟨hold, hseen, hcount⟩ := handleHalt_spec t.1 (ev.halt.resumeTradeNs == 0)
      ev.halt.reason.bytes (cstr ev.title.bytes) false hsym htable hle ht
    obtain ⟨hold', hseen', hcount'⟩ := ih hold.table hold.seenBy fun t' ht' heq => by
      rw [haltAlert_congr hold.watches]
      exact hl t' ht' heq
    have hrs : rs = (if t.1 = sym then [⟨false, haltState (ev.halt.resumeTradeNs == 0), now.toNat⟩]
        else []) ++ ((l.map Prod.fst).filter fun s => s = sym).map fun _ =>
          ⟨false, haltState (ev.halt.resumeTradeNs == 0), now.toNat⟩ := by
      show List.map _ (List.filter _ (t.1 :: l.map Prod.fst)) = _
      by_cases hs : t.1 = sym
      · rw [List.filter_cons_of_pos (p := fun s => decide (s = sym)) (decide_eq_true hs), if_pos hs]
        rfl
      · rw [List.filter_cons_of_neg (by simpa using hs), if_neg hs]
        rfl
    refine ⟨⟨hold'.table, hold'.seenBy, hold'.watches.trans hold.watches⟩, ?_, ?_⟩
    · rw [hrs, after, List.foldl_append]
      exact hseen'.trans (congrArg (fun x => after haltWindow x _) hseen)
    · rw [hrs, marks_append, List.countP_append, ← Nat.add_assoc, ← hcount, ← hseen]
      exact hcount'

/-- Every call takes its reports through the table, and signals those that pass. -/
theorem call_heard (hsym : sym.toNat < env.symbols.size) (htable : TableOk env e.core)
    (hle : SeenBy sym c.now e) (henabled : Enabled env e sym c) :
    SeenBy sym c.now (call env e c) ∧
      seen sym (call env e c) = after haltWindow (seen sym e) (c.reports sym) ∧
      haltCount sym (call env e c) = haltCount sym e +
        (marks haltWindow (seen sym e) (c.reports sym)).countP (·.2) := by
  by_cases hc : c.halts = true
  · cases c with
    | news ev now hot =>
      have hk : ev.kind = .halt := of_decide_eq_true hc
      have hrs : (Call.news ev now hot).reports sym = ((ev.tickers.zipIdx.map Prod.fst).filter
          fun s => s = sym).map fun _ =>
            ⟨false, haltState (ev.halt.resumeTradeNs == 0), now.toNat⟩ := by
        rw [List.zipIdx_map_fst]
        exact if_pos hk
      have haside := aside_dedupe e ev
      obtain ⟨hold, hseen, hcount⟩ := onHaltNews_spec ev (e := (e.dedupe ev).1) hsym ev.tickers.zipIdx (by rw [haside.core]; exact htable)
        (by unfold SeenBy; rw [haside.haltSeen]; exact hle) (fun t ht hs => by
          rw [haltAlert_congr (congrArg Core.watchBySym haside.core)]
          exact henabled hk t ht hs)
      have hcall : call env e (.news ev now hot) = (onHaltNews env (e.dedupe ev).1 ev now hot).journalNews
          ev (e.dedupe ev).2 (unscored ev) now := by
        show onNews env e ev now hot = _
        unfold onNews
        rw [hk]
      have hseen₀ : seen sym (e.dedupe ev).1 = seen sym e := by rw [seen, seen, haside.haltSeen]
      have hcount₀ : haltCount sym (e.dedupe ev).1 = haltCount sym e := by
        rw [haltCount, haltCount, show (e.dedupe ev).1.trace = e.trace from congrArg Core.trace haside.core]
      rw [hcall, hrs, ← hseen₀, ← hcount₀]
      exact ⟨hold.seenBy, hseen, hcount⟩
    | @market n ev now hot =>
      have ht : ev.type = .tradingAction := of_decide_eq_true hc
      have hcall : call env e (.market ev now hot) = handleHalt env e (marketSym ev)
          (ev.state != ch 'T') (cstr ev.reason) now [] hot 0 := by
        show onMarketEvent env e ev now hot = _
        unfold onMarketEvent
        rw [ht]
        rfl
      obtain ⟨hold, hseen, hcount⟩ := handleHalt_spec (marketSym ev) (ev.state != ch 'T')
        (cstr ev.reason) [] true hsym htable hle (henabled ht)
      have hrs : (Call.market ev now hot : Call F).reports sym = if marketSym ev = sym then
          [⟨true, haltState (ev.state != ch 'T'), now.toNat⟩] else [] := by
        unfold Call.reports
        simp only [ht, true_and]
      rw [hcall, hrs]
      exact ⟨hold.seenBy, hseen, hcount⟩
    | evaluate => exact absurd hc Bool.false_ne_true
    | scanMovers => exact absurd hc Bool.false_ne_true
    | shutdown => exact absurd hc Bool.false_ne_true
  · have hcalm : Calm e (call env e c) := calm_call (eq_false_of_ne_true hc) e
    have hrs : c.reports sym = [] := by
      cases c with
      | news ev now hot => exact if_neg fun hk => hc (decide_eq_true hk)
      | market ev now hot => exact if_neg fun ht => hc (decide_eq_true ht.1)
      | _ => rfl
    rw [hrs]
    refine ⟨?_, by rw [seen, hcalm.haltSeen]; rfl, hcalm.count sym⟩
    unfold SeenBy
    rw [hcalm.haltSeen]
    exact hle

/-! ## Runs -/

omit [Dbl F] in
/-- A call makes one report at most, or the same one several times. -/
theorem reports_replicate (sym : UInt32) (c : Call F) : ∃ m r, c.reports sym = List.replicate m r := by
  cases c with
  | news ev now hot =>
    by_cases hk : ev.kind = .halt
    · exact ⟨_, _, (if_pos hk).trans List.map_const'⟩
    · exact ⟨0, ⟨false, 0, 0⟩, if_neg hk⟩
  | market ev now hot =>
    by_cases ht : ev.type = .tradingAction ∧ marketSym ev = sym
    · exact ⟨1, _, if_pos ht⟩
    · exact ⟨0, ⟨false, 0, 0⟩, if_neg ht⟩
  | _ => exact ⟨0, ⟨false, 0, 0⟩, rfl⟩

omit [Dbl F] in
theorem reports_time {r : Report UInt8} (h : r ∈ c.reports sym) : r.time = c.now.toNat := by
  cases c with
  | news ev now hot =>
    unfold Call.reports at h
    dsimp only at h
    split at h
    · obtain ⟨-, -, rfl⟩ := List.mem_map.mp h
      rfl
    · cases h
  | market ev now hot =>
    unfold Call.reports at h
    dsimp only at h
    split at h
    · rw [List.mem_singleton.mp h]
      rfl
    · cases h
  | _ => cases h

omit [Dbl F] in
/-- Where each source reports every change once, no call reports one twice. -/
theorem reports_length {calls : List (Call F)} {v : Nat → UInt8} {n : Nat}
    (h : Doubled haltWindow v n (calls.flatMap (·.reports sym))) (hc : c ∈ calls) :
    (c.reports sym).length ≤ 1 := by
  obtain ⟨past, rest, rfl⟩ := List.append_of_mem hc
  obtain ⟨m, r, hm⟩ := reports_replicate sym c
  rw [List.flatMap_append, List.flatMap_cons] at h
  rw [hm, List.length_replicate]
  by_contra htwo
  obtain ⟨k, rfl⟩ : ∃ k, m = k + 1 + 1 := ⟨m - 2, by omega⟩
  rw [hm, List.replicate_succ, List.replicate_succ] at h
  have h1 := h.value rfl
  have hagain : past.flatMap (·.reports sym) ++ (r :: r :: List.replicate k r ++
      rest.flatMap (·.reports sym)) = (past.flatMap (·.reports sym) ++ [r]) ++
        r :: (List.replicate k r ++ rest.flatMap (·.reports sym)) := by
    simp
  have h2 := h.value hagain
  rw [count_concat_self rfl] at h2
  exact h.step _ (h2.symm.trans h1)

/-- The signals of a run are the reports that pass. -/
theorem heard_eq (hsym : sym.toNat < env.symbols.size) {calls : List (Call F)}
    (htime : calls.Pairwise fun c c' => c.now ≤ c'.now)
    (hone : ∀ c ∈ calls, (c.reports sym).length ≤ 1) (htable : TableOk env e.core)
    (hle : ∀ c ∈ calls, SeenBy sym c.now e)
    (henabled : ∀ past c rest, calls = past ++ c :: rest → Enabled env (run env e past) sym c) :
    heard env sym e calls = (marks haltWindow (seen sym e) (calls.flatMap (·.reports sym))).map
      fun x => (x.1, if x.2 = true then 1 else 0) := by
  induction calls generalizing e with
  | nil => rfl
  | cons c calls ih =>
    obtain ⟨hc, hcalls⟩ := List.forall_mem_cons.mp hone
    obtain ⟨hnow, hrest⟩ := List.pairwise_cons.mp htime
    obtain ⟨hle', hseen, hcount⟩ := call_heard hsym htable (hle c List.mem_cons_self)
      (henabled [] c calls rfl)
    have hih := ih (e := call env e c) hrest hcalls (htable.run [c])
      (fun c' hc' hs hlook => UInt64.le_trans (hle' hs hlook) (hnow c' hc'))
      fun past c' rest h => henabled (c :: past) c' rest (congrArg (c :: ·) h)
    rw [heard, List.flatMap_cons, marks_append, List.map_append, ← hseen, hih]
    refine congrArg (· ++ _) ?_
    cases hr : c.reports sym with
    | nil => rfl
    | cons r rs =>
      rw [hr] at hc hcount
      obtain rfl : rs = [] := List.length_eq_zero_iff.mp (Nat.le_zero.mp (Nat.le_of_succ_le_succ hc))
      have hdiff : haltCount sym (call env e c) - haltCount sym e =
          if passes haltWindow (seen sym e) r = true then 1 else 0 := by
        rw [hcount, Nat.add_sub_cancel_left]
        exact List.countP_singleton ..
      rw [List.map_singleton, hdiff]
      rfl

/-- The state after the change `k` of an alternating sequence of halts and resumptions. -/
def transition (halted : Bool) (k : Nat) : UInt8 := haltState (halted ^^ k.bodd)

theorem transition_succ (halted : Bool) (k : Nat) : transition halted (k + 1) ≠ transition halted k := by
  unfold transition
  rw [Nat.bodd_succ]
  cases halted <;> cases k.bodd <;> decide

/-- **Halts are signalled once.** The exchange feed and the halts feed report the same alternating
halts and resumptions of `sym`, each once and in order, less than two minutes apart, in a run with any
other calls between them and halt alerts on at each report. Then each transition is signalled exactly
once if and only if neither source ever reports a transition before the other has reported the one
before it. -/
theorem halt_once_iff (env : Env F) (filings : FilingsHistory) (sym : UInt32)
    (hsym : sym.toNat < env.symbols.size) (calls : List (Call F))
    (htime : calls.Pairwise fun c c' => c.now ≤ c'.now)
    (henabled : ∀ past c rest, calls = past ++ c :: rest →
      Enabled env (run env (init env filings) past) sym c)
    (halted : Bool) (n : Nat)
    (heach : ∀ src, (reportsOf src (calls.flatMap (·.reports sym))).map Report.value =
      (List.range n).map (transition halted))
    (hclose : ∀ (k : Nat) (r r' : Report UInt8),
      (reportsOf true (calls.flatMap (·.reports sym)))[k]? = some r →
      (reportsOf false (calls.flatMap (·.reports sym)))[k]? = some r' →
      r.time < r'.time + haltWindow ∧ r'.time < r.time + haltWindow) :
    (∀ (k : Nat) x y,
      ((heard env sym (init env filings) calls).filter (·.1.source = true))[k]? = some x →
      ((heard env sym (init env filings) calls).filter (·.1.source = false))[k]? = some y →
      x.2 + y.2 = 1) ↔ Together (calls.flatMap (·.reports sym)) := by
  have hsorted : (calls.flatMap (·.reports sym)).Pairwise fun r r' => r.time ≤ r'.time := by
    refine List.pairwise_flatMap.mpr ⟨fun c _ => ?_, htime.imp fun {c c'} hle r hr r' hr' => ?_⟩
    · obtain ⟨m, r, hm⟩ := reports_replicate sym c
      rw [hm]
      exact List.pairwise_replicate.mpr (.inr le_rfl)
    · rw [reports_time hr, reports_time hr']
      exact UInt64.le_iff_toNat_le.mp hle
  have hdoubled : Doubled haltWindow (transition halted) n (calls.flatMap (·.reports sym)) :=
    ⟨heach, transition_succ halted, hsorted, hclose⟩
  have hnone : (init env filings).haltSeen.map.lookup sym.toUInt64 = none := by
    simp only [init, table, Table.map_new]
    rfl
  have hseen : seen sym (init env filings) = none := by
    rw [seen, hnone]
    rfl
  have hheard := heard_eq (e := init env filings) hsym htime
    (fun c hc => reports_length hdoubled hc) (tableOk_init filings)
    (fun c _ hs hlook => absurd (hlook.symm.trans hnone) (Option.some_ne_none _)) henabled
  rw [← once_iff hdoubled, hheard, hseen]
  let tally : Report UInt8 × Bool → Report UInt8 × Nat := fun x => (x.1, if x.2 = true then 1 else 0)
  have hof : ∀ (src : Bool) (k : Nat), (((marks haltWindow none (calls.flatMap (·.reports sym))).map
      tally).filter (·.1.source = src))[k]? =
        (of src (marks haltWindow none (calls.flatMap (·.reports sym))))[k]?.map tally := by
    intro src k
    rw [List.filter_map, List.getElem?_map]
    rfl
  constructor
  · intro h k x y hx hy heq
    have hsum : (if x.2 = true then 1 else 0) + (if y.2 = true then 1 else 0) = 1 :=
      h k (tally x) (tally y) (by rw [hof, hx]; rfl) (by rw [hof, hy]; rfl)
    rw [heq] at hsum
    revert hsum
    cases y.2 <;> decide
  · intro h k x y hx hy
    rw [hof] at hx hy
    obtain ⟨x', hx', rfl⟩ := Option.map_eq_some_iff.mp hx
    obtain ⟨y', hy', rfl⟩ := Option.map_eq_some_iff.mp hy
    have hne := h k x' y' hx' hy'
    show (if x'.2 = true then 1 else 0) + (if y'.2 = true then 1 else 0) = 1
    revert hne
    cases x'.2 <;> cases y'.2 <;> decide

/-! ## Two sources on one symbol -/

def haltEnv : Env ℚ := { acmeEnv with cfg := { haltAlerts := 2 } }

def feedHalt (state : UInt8) (now : UInt64) : Call ℚ :=
  .market (n := 1) { type := .tradingAction, state := state, sym := some (Fin.last 0), tsNs := 0 } now runner

def rssHalt (resumed : Bool) (now : UInt64) : Call ℚ :=
  .news { acmeEvent with
    kind := .halt
    halt := { acmeEvent.halt with resumeTradeNs := if resumed then 1 else 0 } } now runner

/-- A halt that both sources report. -/
theorem halt_once_iff_halt :
    let calls := [feedHalt (ch 'H') 0, rssHalt false 1000000000]
    ∀ (k : Nat) x y,
      ((heard haltEnv 0 (init haltEnv {}) calls).filter (·.1.source = true))[k]? = some x →
      ((heard haltEnv 0 (init haltEnv {}) calls).filter (·.1.source = false))[k]? = some y →
      x.2 + y.2 = 1 := by
  intro calls
  refine (halt_once_iff haltEnv {} 0 (by decide) calls (by decide) ?_ true 1 (by decide) ?_).mpr ?_
  · show ∀ _ _ _, _ :: _ :: [] = _ → _
    rw [forall_splits_cons, forall_splits_cons]
    refine ⟨fun _ _ => by decide +kernel, fun _ t ht _ => ?_, fun past c rest h => absurd h (by simp)⟩
    rw [List.mem_singleton.mp ht]
    decide +kernel
  · intro k r r' hr hr'
    cases k with
    | zero =>
      cases hr
      cases hr'
      decide
    | succ k => cases hr
  · intro past rest h src
    have hlen : past.length ≤ 2 := by
      have := congrArg List.length h
      rw [List.length_append] at this
      have h2 : (calls.flatMap (·.reports 0)).length = 2 := by decide
      omega
    have hpast : past = (calls.flatMap (·.reports 0)).take past.length := by
      rw [h, List.take_left]
    rw [hpast]
    generalize past.length = m at hlen
    interval_cases m <;> cases src <;> decide

/-- The halts feed is behind: both its reports come after the resumption on the exchange feed, and
each transition is signalled twice. -/
theorem lagging_halt_repeats :
    let calls := [feedHalt (ch 'H') 0, feedHalt (ch 'T') 10000000000, rssHalt false 20000000000,
      rssHalt true 21000000000]
    (∀ src, (reportsOf src (calls.flatMap (·.reports 0))).map Report.value =
      (List.range 2).map (transition true)) ∧
    (calls.flatMap (·.reports 0)).map Report.time = [0, 10000000000, 20000000000, 21000000000] ∧
    (heard haltEnv 0 (init haltEnv {}) calls).map (fun x => (x.1.source, x.2)) =
      [(true, 1), (true, 1), (false, 1), (false, 1)] := by
  refine ⟨by decide, by decide, by decide +kernel⟩

end Engine

end Stok
