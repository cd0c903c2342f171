import Mathlib.Logic.Relation
import Stok.Engine.Engine

/-!
# The watch table

What a call can do to the state that signals depend on, in small steps: `Micro` lists them once,
and every call is a sequence of them at its time. `TableOk` is the invariant of the watch table
with what the trace says of activations and walks; every step keeps it.
-/

namespace Stok

namespace Engine

/-- An activation takes one slot, and one watch goes for it only when no slot is free: one of
those with the oldest news. -/
def Activation.Ok (a : Activation) : Prop :=
  (a.full = true ↔ a.before.length = kSlots) ∧
  (a.full = false → a.after = a.before ++ [(a.sym, 0)]) ∧
  (a.full = true → ∃ out ∈ a.before, (∀ s ∈ a.before, out.2 ≤ s.2) ∧
    a.after.Perm ((a.sym, 0) :: a.before.erase out))

/-- A walk examines every active watch once and removes those past the window. -/
def Walk.Ok (window : UInt64) (w : Walk) : Prop :=
  (w.before.map Prod.fst).Nodup ∧ w.examined.Perm (w.before.map Prod.fst) ∧
    w.after.Perm ((w.before.filter fun s => !decide (window < ageOf w.now s.2)).map Prod.fst)

/-- The part of the state that the watch table and the emission of signals depend on. -/
structure Core (F : Type) [Dbl F] where
  watch : SlotId → Watch F
  active : List SlotId
  free : List SlotId
  watchBySym : Table SlotId
  moverAlerted : Table UInt64
  lastTierNs : Table UInt64
  cachedDay : Int
  cachedDayUntil : UInt64
  trace : Trace F

section

variable {F : Type} [Dbl F]

def core (e : Engine F) : Core F where
  watch := e.watch
  active := e.active
  free := e.free
  watchBySym := e.watchBySym
  moverAlerted := e.moverAlerted
  lastTierNs := e.lastTierNs
  cachedDay := e.cachedDay
  cachedDayUntil := e.cachedDayUntil
  trace := e.trace

/-- A change of the watch in a slot that is not another watch. -/
def Watch.Same (w v : Watch F) : Prop := w.sym = v.sym ∧ w.life = v.life

/-- The steps of a call at the time `now`. -/
inductive Micro (env : Env F) (now : UInt64) : Engine F → Engine F → Prop where
  | quiet {e e' : Engine F} : e'.core = e.core → Micro env now e e'
  | today (e : Engine F) : Micro env now e (e.todayDays now)
  | update {e : Engine F} {i : SlotId} {w : Watch F} : i ∈ e.active → w.Same (e.watch i) →
      w.tier = (e.watch i).tier → Micro env now e (e.setWatch i w)
  | rise {e : Engine F} {i : SlotId} {w : Watch F} (h : MarketHot) : i ∈ e.active →
      w.Same (e.watch i) → (e.watch i).tier.rank < w.tier.rank → w.tier.rank ≤ Tier.high.rank →
      Micro env now e (emitCooled env (e.setWatch i w) w w.tier now h)
  | start {e : Engine F} {sym : UInt32} : e.findWatch sym = none →
      Micro env now e (e.activateWatch sym).1
  | other (e : Engine F) (w : Watch F) {tier : Tier} (h : MarketHot) (reason : Bytes) :
      tier = .halt ∨ tier = .info → Micro env now e (emit env e w tier now h reason)
  | mover {e : Engine F} (hot : Hot) (sym : UInt32) :
      e.cachedDay ≠ 0 ∨ e.cachedDay = easternDay now → Micro env now e (scanSym env now hot e sym)
  | expire {e : Engine F} {k : Nat} {i : SlotId} : e.active[k]? = some i →
      Micro env now e (e.deactivateWatch k)
  | walked (e : Engine F) {w : Walk} : w.Ok (windowNs env) →
      Micro env now e { e with trace := { e.trace with walks := e.trace.walks ++ [w] } }

abbrev Steps (env : Env F) (now : UInt64) : Engine F → Engine F → Prop :=
  Relation.ReflTransGen (Micro env now)

/-! ## The invariant -/

structure TableOk (env : Env F) (c : Core F) : Prop where
  slots : (c.active ++ c.free).Perm (List.finRange kSlots)
  index : ∀ key i, c.watchBySym.map.lookup key = some i ↔
    i ∈ c.active ∧ key = (c.watch i).sym.toUInt64
  activations : ∀ a ∈ c.trace.activations, a.Ok
  walks : ∀ w ∈ c.trace.walks, w.Ok (windowNs env)

variable {env : Env F} {e e' : Engine F} {now : UInt64}

theorem TableOk.nodup {c : Core F} (h : TableOk env c) : (c.active ++ c.free).Nodup :=
  h.slots.nodup_iff.mpr (List.nodup_finRange _)

theorem TableOk.active_nodup {c : Core F} (h : TableOk env c) : c.active.Nodup :=
  (List.nodup_append.mp h.nodup).1

/-- A symbol has at most one active watch. -/
theorem TableOk.unique {c : Core F} (h : TableOk env c) {i j : SlotId} (hi : i ∈ c.active)
    (hj : j ∈ c.active) (hs : (c.watch i).sym = (c.watch j).sym) : i = j := by
  have h1 := (h.index (c.watch i).sym.toUInt64 i).mpr ⟨hi, rfl⟩
  have h2 := (h.index (c.watch i).sym.toUInt64 j).mpr ⟨hj, by rw [hs]⟩
  exact Option.some.inj (h1.symm.trans h2)

theorem symKey_ne (sym : UInt32) : sym.toUInt64 ≠ kEmpty := by
  intro h
  have h' := congrArg UInt64.toNat h
  rw [UInt32.toNat_toUInt64] at h'
  have hlt : sym.toNat < 2 ^ 32 := sym.toNat_lt
  have hk : kEmpty.toNat = 2 ^ 64 - 1 := rfl
  omega

theorem symKey_inj {a b : UInt32} (h : a.toUInt64 = b.toUInt64) : a = b := by
  have h' := congrArg UInt64.toNat h
  rwa [UInt32.toNat_toUInt64, UInt32.toNat_toUInt64, UInt32.toNat_inj] at h'

theorem findWatch_eq (e : Engine F) (sym : UInt32) :
    e.findWatch sym = e.watchBySym.map.lookup sym.toUInt64 := e.watchBySym.find_eq (symKey_ne sym)

theorem TableOk.findWatch (h : TableOk env e.core) {sym : UInt32} {i : SlotId}
    (hf : e.findWatch sym = some i) : i ∈ e.active ∧ (e.watch i).sym = sym := by
  rw [findWatch_eq] at hf
  obtain ⟨h1, h2⟩ := (h.index _ _).mp hf
  exact ⟨h1, (symKey_inj h2).symm⟩

/-- Watches that keep their symbols keep the table. -/
theorem TableOk.sameSyms {c c' : Core F} (h : TableOk env c) (hactive : c'.active = c.active)
    (hfree : c'.free = c.free) (hmap : c'.watchBySym = c.watchBySym)
    (hsym : ∀ i, (c'.watch i).sym = (c.watch i).sym)
    (hact : c'.trace.activations = c.trace.activations) (hwalks : c'.trace.walks = c.trace.walks) :
    TableOk env c' where
  slots := by rw [hactive, hfree]; exact h.slots
  index key i := by rw [hmap, hactive, hsym]; exact h.index key i
  activations := by rw [hact]; exact h.activations
  walks := by rw [hwalks]; exact h.walks

theorem setWatch_sym {i : SlotId} {w : Watch F} (h : w.sym = (e.watch i).sym) (j : SlotId) :
    ((e.setWatch i w).watch j).sym = (e.watch j).sym := by
  show (Function.update e.watch i w j).sym = _
  rcases eq_or_ne j i with rfl | hj
  · rw [Function.update_self, h]
  · rw [Function.update_of_ne hj]

/-! ## Deactivation -/

theorem deactivateWatch_eq {k : Nat} {i : SlotId} (hk : e.active[k]? = some i) :
    e.deactivateWatch k = { e.setWatch i { e.watch i with active := false } with
      watchBySym := e.watchBySym.erase (e.watch i).sym.toUInt64
      active := Lib.swapRemove e.active k i
      free := i :: e.free } := by
  rw [deactivateWatch, hk]

theorem TableOk.deactivate (h : TableOk env e.core) {k : Nat} {i : SlotId}
    (hk : e.active[k]? = some i) : TableOk env (e.deactivateWatch k).core := by
  have hperm := Lib.swapRemove_perm hk i
  have hmem : i ∈ e.active := List.mem_of_getElem? hk
  have hnotin : i ∉ Lib.swapRemove e.active k i :=
    (List.nodup_cons.mp (hperm.nodup_iff.mpr h.active_nodup)).1
  have hsym := setWatch_sym (e := e) (i := i) (w := { e.watch i with active := false }) rfl
  rw [deactivateWatch_eq hk]
  refine ⟨?_, fun key j => ?_, h.activations, h.walks⟩
  · refine List.Perm.trans ?_ h.slots
    refine List.perm_middle.trans ?_
    exact List.Perm.append_right e.free hperm
  · show (e.watchBySym.erase (e.watch i).sym.toUInt64).map.lookup key = some j ↔
      j ∈ Lib.swapRemove e.active k i ∧ key = ((e.setWatch i _).watch j).sym.toUInt64
    rw [Table.map_erase, hsym]
    constructor
    · intro hl
      rcases eq_or_ne key (e.watch i).sym.toUInt64 with rfl | hne
      · rw [Finmap.lookup_erase] at hl
        cases hl
      · rw [Finmap.lookup_erase_ne hne] at hl
        obtain ⟨hj, hkey⟩ := (h.index key j).mp hl
        refine ⟨?_, hkey⟩
        rcases List.mem_cons.mp (hperm.mem_iff.mpr hj) with rfl | hj'
        · exact absurd hkey hne
        · exact hj'
    · rintro ⟨hj, rfl⟩
      have hj' : j ∈ e.active := hperm.mem_iff.mp (List.mem_cons_of_mem i hj)
      have hne : (e.watch j).sym.toUInt64 ≠ (e.watch i).sym.toUInt64 := by
        intro hs
        have := h.unique hj' hmem (symKey_inj hs)
        exact hnotin (this ▸ hj)
      rw [Finmap.lookup_erase_ne hne]
      exact (h.index _ j).mpr ⟨hj', rfl⟩

/-! ## Activation -/

/-- The loop keeps the position of the oldest story so far. -/
theorem oldestFrom_spec (e : Engine F) {seen rest : List SlotId} (hl : e.active = seen ++ rest)
    {oldest : Nat} {i : SlotId} (hi : seen[oldest]? = some i)
    (hmin : ∀ j ∈ seen, (e.watch i).tNews ≤ (e.watch j).tNews) :
    ∃ i, e.active[e.oldestFrom oldest seen.length rest]? = some i ∧
      ∀ j ∈ e.active, (e.watch i).tNews ≤ (e.watch j).tNews := by
  induction rest generalizing seen oldest i with
  | nil =>
    rw [List.append_nil] at hl
    rw [hl]
    exact ⟨i, hi, hmin⟩
  | cons j rest ih =>
    have hget : e.active.getD oldest j = i := by
      rw [List.getD_eq_getElem?_getD, hl, List.getElem?_append_left (List.getElem?_eq_some_iff.mp hi).1,
        hi]
      rfl
    have hl' : e.active = (seen ++ [j]) ++ rest := by rw [hl, List.append_assoc]; rfl
    have hlen : (seen ++ [j]).length = seen.length + 1 := by rw [List.length_append]; rfl
    rw [oldestFrom, hget, ← hlen]
    split
    · rename_i hlt
      refine ih hl' (i := j) (by simp) fun x hx => ?_
      rcases List.mem_append.mp hx with hx | hx
      · exact UInt64.le_trans (UInt64.le_of_lt hlt) (hmin x hx)
      · rw [List.mem_singleton.mp hx]
        exact UInt64.le_refl _
    · rename_i hge
      refine ih hl' (i := i) ?_ fun x hx => ?_
      · rw [List.getElem?_append_left (List.getElem?_eq_some_iff.mp hi).1, hi]
      · rcases List.mem_append.mp hx with hx | hx
        · exact hmin x hx
        · rw [List.mem_singleton.mp hx]
          exact UInt64.not_lt.mp hge

theorem oldest_spec (h : e.active ≠ []) :
    ∃ i, e.active[e.oldest]? = some i ∧ ∀ j ∈ e.active, (e.watch i).tNews ≤ (e.watch j).tNews := by
  obtain ⟨i, rest, hl⟩ := List.exists_cons_of_ne_nil h
  have htail : e.active.tail = rest := by rw [hl]; rfl
  rw [oldest, htail]
  refine oldestFrom_spec e (show e.active = [i] ++ rest from hl) rfl fun j hj => ?_
  rw [List.mem_singleton.mp hj]
  exact UInt64.le_refl _

/-- The engine with a free slot. -/
def evict (e : Engine F) : Engine F := if e.free.isEmpty then e.deactivateWatch e.oldest else e

/-- What the place of an activation is, given the engine with a free slot. -/
def place (e : Engine F) (sym : UInt32) (life : Nat) : Engine F :=
  { e.setWatch (e.free.headD default) { Watch.fresh with active := true, sym := sym, life := life } with
    free := e.free.tail
    active := e.active ++ [e.free.headD default]
    watchBySym := e.watchBySym.insertOrAssign sym.toUInt64 (e.free.headD default) }

theorem activateWatch_eq (e : Engine F) (sym : UInt32) :
    e.activateWatch sym =
      let e' := e.evict.place sym (e.evict.trace.lives + 1)
      ({ e' with trace := { e'.trace with
          lives := e.evict.trace.lives + 1
          activations := e'.trace.activations ++ [{
            sym := sym, full := e.free.isEmpty, before := e.stories, after := e'.stories }] } },
        e.evict.free.headD default) := rfl

theorem deactivateWatch_stories {k : Nat} {i : SlotId} (hk : e.active[k]? = some i) :
    (((e.watch i).sym, (e.watch i).tNews) :: (e.deactivateWatch k).stories).Perm e.stories := by
  have hmap : (e.deactivateWatch k).stories = (Lib.swapRemove e.active k i).map
      fun j => ((e.watch j).sym, (e.watch j).tNews) := by
    rw [deactivateWatch_eq hk]
    refine List.map_congr_left fun j _ => ?_
    show ((Function.update e.watch i _ j).sym, (Function.update e.watch i _ j).tNews) = _
    rcases eq_or_ne j i with rfl | hj
    · rw [Function.update_self]
    · rw [Function.update_of_ne hj]
  rw [hmap]
  exact (Lib.swapRemove_perm hk i).map fun j => ((e.watch j).sym, (e.watch j).tNews)

theorem TableOk.length (h : TableOk env e.core) : e.active.length + e.free.length = kSlots := by
  have := h.slots.length_eq
  rwa [List.length_append, List.length_finRange] at this

theorem TableOk.active_ne_nil (h : TableOk env e.core) (hfree : e.free = []) : e.active ≠ [] := by
  intro hactive
  have := h.length
  rw [hfree, hactive] at this
  cases this

/-- Making room removes at most one watch, one of the oldest. -/
theorem TableOk.evict (h : TableOk env e.core) :
    TableOk env e.evict.core ∧ e.evict.free ≠ [] ∧
      (∀ sym, e.findWatch sym = none → e.evict.findWatch sym = none) ∧
      ((e.free.isEmpty = false ∧ e.evict = e) ∨
        e.free.isEmpty = true ∧ ∃ out ∈ e.stories, (∀ s ∈ e.stories, out.2 ≤ s.2) ∧
          e.evict.stories.Perm (e.stories.erase out)) := by
  cases hfree : e.free.isEmpty with
  | false =>
    have he : e.evict = e := by rw [Engine.evict, hfree, if_neg Bool.false_ne_true]
    have hne : e.free ≠ [] := by
      intro hnil
      rw [hnil] at hfree
      cases hfree
    rw [he]
    exact ⟨h, hne, fun _ hs => hs, .inl ⟨rfl, rfl⟩⟩
  | true =>
    have he : e.evict = e.deactivateWatch e.oldest := by rw [Engine.evict, if_pos hfree]
    obtain ⟨i, hi, hmin⟩ := oldest_spec (h.active_ne_nil (List.isEmpty_iff.mp hfree))
    rw [he]
    refine ⟨h.deactivate hi, ?_, fun sym hs => ?_, .inr ⟨rfl, ((e.watch i).sym, (e.watch i).tNews), ?_⟩⟩
    · rw [deactivateWatch_eq hi]
      exact List.cons_ne_nil _ _
    · rw [findWatch_eq] at hs ⊢
      rw [deactivateWatch_eq hi]
      show (e.watchBySym.erase _).map.lookup _ = none
      rw [Table.map_erase]
      rcases eq_or_ne sym.toUInt64 (e.watch i).sym.toUInt64 with heq | hne
      · rw [heq, Finmap.lookup_erase]
      · rw [Finmap.lookup_erase_ne hne, hs]
    · refine ⟨List.mem_map.mpr ⟨i, List.mem_of_getElem? hi, rfl⟩, fun s hs => ?_, ?_⟩
      · obtain ⟨j, hj, rfl⟩ := List.mem_map.mp hs
        exact hmin j hj
      · exact (List.cons_perm_iff_perm_erase.mp (deactivateWatch_stories hi)).2

/-- The watches that were active stay as they are. -/
theorem TableOk.place_watch (h : TableOk env e.core) (hfree : e.free ≠ []) (sym : UInt32)
    (life : Nat) {j : SlotId} (hj : j ∈ e.active) : (e.place sym life).watch j = e.watch j := by
  obtain ⟨i, rest, hl⟩ := List.exists_cons_of_ne_nil hfree
  have hij : j ≠ i := by
    intro heq
    have hdisj := (List.nodup_append.mp h.nodup).2.2 j hj i (by
      show i ∈ e.free
      rw [hl]
      exact List.mem_cons_self)
    exact hdisj heq
  show Function.update e.watch (e.free.headD default) _ j = _
  rw [hl]
  exact Function.update_of_ne hij _ _

theorem TableOk.place (h : TableOk env e.core) (hfree : e.free ≠ []) {sym : UInt32}
    (hsym : e.findWatch sym = none) (life : Nat) : TableOk env (e.place sym life).core := by
  have hkeep := fun j (hj : j ∈ e.active) => h.place_watch hfree sym life hj
  obtain ⟨i, rest, hl⟩ := List.exists_cons_of_ne_nil hfree
  have hi : i ∉ e.active := fun hi =>
    (List.nodup_append.mp h.nodup).2.2 i hi i (by show i ∈ e.free; rw [hl]; exact List.mem_cons_self) rfl
  have hnew : (e.place sym life).watch i =
      { Watch.fresh with active := true, sym := sym, life := life } := by
    show Function.update e.watch (e.free.headD default) _ i = _
    rw [hl]
    exact Function.update_self ..
  have hactive : (e.place sym life).active = e.active ++ [i] := by
    show e.active ++ [e.free.headD default] = _
    rw [hl]
    rfl
  have htail : (e.place sym life).free = rest := by
    show e.free.tail = _
    rw [hl]
    rfl
  rw [findWatch_eq] at hsym
  refine ⟨?_, fun key j => ?_, h.activations, h.walks⟩
  · show ((e.place sym life).active ++ (e.place sym life).free).Perm _
    rw [hactive, htail, List.append_assoc]
    have := h.slots
    rwa [show e.core.free = i :: rest from hl] at this
  · show (e.watchBySym.insertOrAssign sym.toUInt64 (e.free.headD default)).map.lookup key = some j ↔
      j ∈ (e.place sym life).active ∧ key = ((e.place sym life).watch j).sym.toUInt64
    rw [Table.map_insertOrAssign _ (symKey_ne sym), hactive, hl]
    rcases eq_or_ne key sym.toUInt64 with rfl | hne
    · rw [Finmap.lookup_insert, Option.some.injEq]
      constructor
      · rintro rfl
        exact ⟨List.mem_append_right _ (List.mem_singleton.mpr rfl), by rw [List.headD_cons, hnew]⟩
      · rintro ⟨hj, hkey⟩
        rcases List.mem_append.mp hj with hj | hj
        · rw [hkeep j hj] at hkey
          exact absurd (hsym.symm.trans ((h.index _ j).mpr ⟨hj, hkey⟩)) nofun
        · exact (List.mem_singleton.mp hj).symm
    · rw [Finmap.lookup_insert_of_ne _ hne]
      constructor
      · intro hlook
        obtain ⟨hj, hkey⟩ := (h.index key j).mp hlook
        exact ⟨List.mem_append_left _ hj, by rw [hkeep j hj]; exact hkey⟩
      · rintro ⟨hj, hkey⟩
        rcases List.mem_append.mp hj with hj | hj
        · rw [hkeep j hj] at hkey
          exact (h.index key j).mpr ⟨hj, hkey⟩
        · rw [List.mem_singleton.mp hj, hnew] at hkey
          exact absurd hkey hne

theorem TableOk.place_stories (h : TableOk env e.core) (hfree : e.free ≠ []) (sym : UInt32)
    (life : Nat) : (e.place sym life).stories = e.stories ++ [(sym, 0)] := by
  obtain ⟨i, rest, hl⟩ := List.exists_cons_of_ne_nil hfree
  have hnew : (e.place sym life).watch (e.free.headD default) =
      { Watch.fresh with active := true, sym := sym, life := life } := Function.update_self ..
  show (e.active ++ [e.free.headD default]).map _ = _
  rw [List.map_append, List.map_singleton, hnew]
  congr 1
  refine List.map_congr_left fun j hj => ?_
  rw [h.place_watch hfree _ _ hj]

theorem TableOk.start (h : TableOk env e.core) {sym : UInt32} (hsym : e.findWatch sym = none) :
    TableOk env (e.activateWatch sym).1.core := by
  obtain ⟨hev, hfree, hnone, hout⟩ := h.evict
  have hplace := hev.place hfree (hnone sym hsym) (e.evict.trace.lives + 1)
  rw [activateWatch_eq]
  refine ⟨hplace.slots, hplace.index, fun a ha => ?_, hplace.walks⟩
  rcases List.mem_append.mp ha with ha | ha
  · exact hplace.activations a ha
  · rw [List.mem_singleton.mp ha]
    have hstories := hev.place_stories hfree sym (e.evict.trace.lives + 1)
    refine ⟨?_, fun hf => ?_, fun hf => ?_⟩
    · show e.free.isEmpty = true ↔ (e.active.map _).length = kSlots
      rw [List.length_map, List.isEmpty_iff_length_eq_zero, ← h.length]
      omega
    · rcases hout with ⟨-, he⟩ | ⟨ht, -⟩
      · show (e.evict.place sym _).stories = e.stories ++ _
        rw [hstories, he]
      · exact absurd (hf.symm.trans ht) Bool.false_ne_true
    · rcases hout with ⟨hfalse, -⟩ | ⟨-, out, hmem, hmin, hperm⟩
      · exact absurd (hfalse.symm.trans hf) Bool.false_ne_true
      · refine ⟨out, hmem, hmin, ?_⟩
        show (e.evict.place sym _).stories.Perm _
        rw [hstories]
        exact (List.perm_append_singleton _ _).trans (hperm.cons _)

/-! ## Steps keep the table -/

theorem TableOk.emitCooled (h : TableOk env e.core) (w : Watch F) (t : Tier) (hot : MarketHot) :
    TableOk env (emitCooled env e w t now hot).core := by
  unfold Engine.emitCooled cooledDown
  dsimp only
  split
  · rename_i heq
    split at heq <;> cases heq
    exact ⟨h.slots, h.index, h.activations, h.walks⟩
  · rename_i heq
    split at heq <;> cases heq
    exact ⟨h.slots, h.index, h.activations, h.walks⟩

theorem TableOk.setWatch (h : TableOk env e.core) {i : SlotId} {w : Watch F}
    (hw : w.Same (e.watch i)) : TableOk env (e.setWatch i w).core :=
  h.sameSyms rfl rfl rfl (setWatch_sym hw.1) rfl rfl

theorem TableOk.scanSym (h : TableOk env e.core) (hot : Hot) (sym : UInt32) :
    TableOk env (scanSym env now hot e sym).core := by
  unfold Engine.scanSym
  split
  · exact h
  · split
    · exact h
    · dsimp only
      split
      · exact ⟨h.slots, h.index, h.activations, h.walks⟩
      · exact ⟨h.slots, h.index, h.activations, h.walks⟩

theorem TableOk.micro (h : TableOk env e.core) (hm : Micro env now e e') : TableOk env e'.core := by
  cases hm with
  | quiet hq => rwa [hq]
  | today =>
    unfold todayDays
    split
    · exact ⟨h.slots, h.index, h.activations, h.walks⟩
    · exact h
  | update hi hw ht => exact h.setWatch hw
  | rise hot hi hw hlt hle => exact (h.setWatch hw).emitCooled _ _ _
  | start hs => exact h.start hs
  | other w hot reason ht => exact ⟨h.slots, h.index, h.activations, h.walks⟩
  | mover hot sym hday => exact h.scanSym hot sym
  | expire hk => exact h.deactivate hk
  | walked hw =>
    refine ⟨h.slots, h.index, h.activations, fun w hmem => ?_⟩
    rcases List.mem_append.mp hmem with hmem | hmem
    · exact h.walks w hmem
    · rw [List.mem_singleton.mp hmem]
      exact hw

theorem TableOk.steps (h : TableOk env e.core) (hs : Steps env now e e') : TableOk env e'.core := by
  induction hs with
  | refl => exact h
  | tail _ hm ih => exact ih.micro hm

/-! ## Calls are steps -/

theorem steps_quiet (h : e'.core = e.core) : Steps env now e e' := .single (.quiet h)

/-- A loop whose turns are steps is steps; `eng` is the engine of the loop's state. -/
theorem steps_foldl {S α : Type} (eng : S → Engine F) {f : S → α → S}
    (hf : ∀ s a, TableOk env (eng s).core → Steps env now (eng s) (eng (f s a))) (l : List α)
    {s : S} (h : TableOk env (eng s).core) : Steps env now (eng s) (eng (l.foldl f s)) := by
  induction l generalizing s with
  | nil => exact .refl
  | cons a l ih => exact (hf s a h).trans (ih (h.steps (hf s a h)))

/-- A look keeps a watch's identity and news time. Its tier stays, or rises to the one returned. -/
theorem lookAt_spec (env : Env F) (now : UInt64) (w : Watch F) (h : MarketHot) :
    (lookAt env w now h).1.Same w ∧ (lookAt env w now h).1.tNews = w.tNews ∧
      match (lookAt env w now h).2.2 with
      | none => (lookAt env w now h).1.tier = w.tier
      | some t => (lookAt env w now h).1.tier = t ∧ w.tier.rank < t.rank ∧
          t.rank ≤ Tier.high.rank := by
  unfold lookAt
  split
  · exact ⟨⟨rfl, rfl⟩, rfl, rfl⟩
  · dsimp only
    generalize horizons _ 0 _ _ = hz
    have hpx : ∀ px : Int, (if w.refPx ≤ 0 then { w with refPx := px } else w).Same w ∧
        (if w.refPx ≤ 0 then { w with refPx := px } else w).tNews = w.tNews ∧
        (if w.refPx ≤ 0 then { w with refPx := px } else w).tier = w.tier := by
      intro px
      split <;> exact ⟨⟨rfl, rfl⟩, rfl, rfl⟩
    obtain ⟨hsame, hnews, htier⟩ := hpx h.lastPx
    generalize (if w.refPx ≤ 0 then { w with refPx := h.lastPx } else w) = w' at hsame hnews htier ⊢
    split
    · exact ⟨hsame, hnews, htier⟩
    · generalize isHigh env _ h = high
      have hle : (if high = true then Tier.high else Tier.alert).rank ≤ Tier.high.rank := by
        cases high <;> decide
      generalize (if high = true then Tier.high else Tier.alert) = t at hle ⊢
      split
      · rename_i hlt
        refine ⟨hsame, hnews, rfl, ?_, hle⟩
        rw [← htier]
        exact hlt
      · exact ⟨hsame, hnews, htier⟩

theorem steps_evalAt (hot : Hot) (k : Nat) : Steps env now e (evalAt env now hot e k) := by
  unfold evalAt
  split
  · exact .refl
  · rename_i i hk
    have hi : i ∈ e.active := List.mem_of_getElem? hk
    split
    · exact .single (.expire hk)
    · split
      · exact .refl
      · have hspec := lookAt_spec env now (e.watch i)
          (hot (.eval k) (e.watch i).sym)
        split
        · rename_i w outs heq
          rw [heq] at hspec
          obtain ⟨hsame, -, htier⟩ := hspec
          exact .tail (.single (.update hi hsame htier)) (.quiet rfl)
        · rename_i w outs t heq
          rw [heq] at hspec
          obtain ⟨hsame, -, htier, hlt, hle⟩ := hspec
          obtain rfl : w.tier = t := htier
          exact .tail (steps_quiet (show (e.write outs).core = e.core from rfl))
            (.rise (e := e.write outs) _ hi hsame hlt hle)

theorem steps_evalLoop (hot : Hot) (k : Nat) : Steps env now e (evalLoop env now hot k e).1 := by
  induction k generalizing e with
  | zero => exact .refl
  | succ k ih => exact (steps_evalAt hot k).trans ih

/-- A turn leaves the news times, and removes the entry if it is past the window. -/
theorem evalAt_turn (hot : Hot) (s : Engine F) (k : Nat) (x : SlotId)
    (hI : ∀ j, (s.watch j).tNews = (e.watch j).tNews) (hx : s.active[k]? = some x) :
    (∀ j, ((evalAt env now hot s k).watch j).tNews = (e.watch j).tNews) ∧
      (evalAt env now hot s k).active =
        if decide (windowNs env < ageOf now (e.watch x).tNews) then Lib.swapRemove s.active k x
        else s.active := by
  have hset : ∀ w : Watch F, w.tNews = (s.watch x).tNews → ∀ j,
      (Function.update s.watch x w j).tNews = (e.watch j).tNews := by
    intro w hw j
    rcases eq_or_ne j x with rfl | hj
    · rw [Function.update_self, hw, hI]
    · rw [Function.update_of_ne hj, hI]
  simp only [evalAt, hx, hI x, decide_eq_true_eq]
  split
  · rw [deactivateWatch_eq hx]
    exact ⟨hset _ rfl, rfl⟩
  · split
    · exact ⟨hI, rfl⟩
    · have hspec := lookAt_spec env now (s.watch x)
        (hot (.eval k) (s.watch x).sym)
      split
      · rename_i w outs heq
        rw [heq] at hspec
        exact ⟨hset w hspec.2.1, rfl⟩
      · rename_i w outs t heq
        rw [heq] at hspec
        unfold emitCooled cooledDown
        dsimp only
        split
        · rename_i heq'
          split at heq' <;> cases heq'
          exact ⟨hset w hspec.2.1, rfl⟩
        · rename_i heq'
          split at heq' <;> cases heq'
          exact ⟨hset w hspec.2.1, rfl⟩

theorem TableOk.walk (h : TableOk env e.core) (now : UInt64) (hot : Hot) :
    Walk.Ok (windowNs env) {
      now := now
      before := e.active.map fun i => (i, (e.watch i).tNews)
      examined := (evalLoop env now hot e.active.length e).2
      after := (evalLoop env now hot e.active.length e).1.active } := by
  have hfst : (e.active.map fun i => (i, (e.watch i).tNews)).map Prod.fst = e.active := by
    rw [List.map_map]
    exact List.map_id _
  obtain ⟨hseen, hafter, -⟩ := Lib.walkBack_spec Engine.active (evalAt env now hot)
    (fun s => ∀ j, (s.watch j).tNews = (e.watch j).tNews)
    (fun i => decide (windowNs env < ageOf now (e.watch i).tNews))
    (evalAt_turn hot) (s := e) fun _ => rfl
  refine ⟨?_, ?_, ?_⟩
  · rw [hfst]
    exact h.active_nodup
  · rw [hfst]
    show (evalLoop env now hot e.active.length e).2.Perm e.active
    rw [evalLoop, hseen]
    exact List.reverse_perm _
  · rw [List.filter_map, List.map_map]
    show (evalLoop env now hot e.active.length e).1.active.Perm _
    rw [evalLoop]
    refine hafter.trans (List.Perm.of_eq ?_)
    exact (List.map_id _).symm

theorem paperStep_core (e : Engine F) (hot : Hot) : (paperStep env e now hot).core = e.core := by
  unfold paperStep
  split <;> rfl

theorem steps_evaluate (h : TableOk env e.core) (hot : Hot) :
    Steps env now e (evaluate env e now hot) := by
  refine (steps_evalLoop hot e.active.length).trans ?_
  refine .head (.walked _ (h.walk now hot)) (steps_quiet ?_)
  exact paperStep_core _ _

theorem steps_handleHalt (sym : UInt32) (halted : Bool) (reason title : Bytes) (hot : Hot) (i : Nat) :
    Steps env now e (handleHalt env e sym halted reason now title hot i) := by
  have hnote : (e.noteHalt sym halted now).1.core = e.core := by
    unfold noteHalt
    dsimp only
    split <;> rfl
  have hq : Steps env now e (e.noteHalt sym halted now).1 := steps_quiet hnote
  unfold handleHalt
  split
  · exact .refl
  · split
    · rename_i e' heq
      rwa [heq] at hq
    · rename_i e' heq
      rw [heq] at hq
      split
      · exact hq
      · exact .tail hq (.other _ _ _ _ (.inl rfl))

theorem steps_storeStory {i : SlotId} {w : Watch F} (h : MarketHot) (hi : i ∈ e.active)
    (hw : w.Same (e.watch i)) (ht : w.tier = (e.watch i).tier) :
    Steps env now e (storeStory env e i w now h) := by
  unfold storeStory
  split
  · rename_i hnone
    have hlt : (e.watch i).tier.rank < Tier.watch.rank := by
      rw [← ht, hnone]
      decide
    have hle : Tier.watch.rank ≤ Tier.high.rank := by decide
    exact .single (.rise (w := { w with tier := .watch }) h hi hw hlt hle)
  · exact .single (.update hi hw ht)

theorem activateWatch_slot (e : Engine F) (sym : UInt32) :
    (e.activateWatch sym).2 ∈ (e.activateWatch sym).1.active ∧
      ((e.activateWatch sym).1.watch (e.activateWatch sym).2) =
        { Watch.fresh with active := true, sym := sym, life := e.evict.trace.lives + 1 } := by
  rw [activateWatch_eq]
  exact ⟨List.mem_append_right _ (List.mem_singleton.mpr rfl), Function.update_self ..⟩

theorem steps_storyOn (h : TableOk env e.core) (ev : NewsEvent F) (p : Primary F)
    (hot hs : MarketHot) : Steps env now e (storyOn env e ev p now hot hs).1 := by
  unfold storyOn
  split
  · rename_i i hfind
    obtain ⟨hi, -⟩ := h.findWatch hfind
    split
    · exact .refl
    · exact steps_storeStory hs hi ⟨rfl, rfl⟩ rfl
  · rename_i hfind
    obtain ⟨hi, -⟩ := activateWatch_slot e p.sym
    exact .trans (.single (.start hfind)) (steps_storeStory hs hi ⟨rfl, rfl⟩ rfl)

theorem steps_newsTicker (ev : NewsEvent F) (r : ScoreResult F) (hot : Hot) (l : NewsLoop F)
    (t : UInt32 × Nat) (h : TableOk env l.e.core) :
    Steps env now l.e (newsTicker env ev r now hot l t).e := by
  unfold newsTicker
  dsimp only
  split
  · exact .refl
  · generalize he : ({ l.e with lastNewsBySym := l.e.lastNewsBySym.insertOrAssign t.1.toUInt64 now } :
      Engine F) = e
    have hcore : e.core = l.e.core := by
      rw [← he]
      rfl
    have hq : Steps env now l.e e := steps_quiet hcore
    split
    · exact hq
    · exact hq.trans (steps_storyOn (h.steps hq) ev _ _ _)

theorem steps_onScored (h : TableOk env e.core) (ev : NewsEvent F) (d : Dedupe) (r : ScoreResult F)
    (hot : Hot) : Steps env now e (onScored env e ev d r now hot) := by
  have htoday : Steps env now e (e.todayDays now) := .single (.today e)
  unfold onScored
  dsimp only
  generalize (if ev.kind = EventKind.news then ev.tickers else ev.tickers.take 1).zipIdx = ts
  have hloop : Steps env now _ _ := steps_foldl NewsLoop.e
    (steps_newsTicker ev r hot) ts
    (s := { e := e.todayDays now, p := { r := r, sym := SymbolTable.kInvalid, dil := 0, mcap := Dbl.ofRat 0, price := Dbl.ofRat 0, inu := false }, touched := false }) (h.steps htoday)
  generalize ts.foldl _ _ = l at hloop ⊢
  have hall : Steps env now e (l.e.journalNews ev d l.p now) :=
    (htoday.trans hloop).tail (.quiet rfl)
  split
  · exact hall.trans (steps_evaluate (h.steps hall) hot)
  · exact hall

theorem dedupe_core (e : Engine F) (ev : NewsEvent F) : (e.dedupe ev).1.core = e.core := by
  unfold dedupe
  split
  · dsimp only
    split <;> rfl
  · rfl

theorem steps_dilutionInfo (h : TableOk env e.core) (ev : NewsEvent F) (cls : FormClass) (hot : Hot)
    (t : UInt32 × Nat) : Steps env now e (dilutionInfo env ev cls now hot e t) := by
  unfold dilutionInfo
  split
  · exact .refl
  · rename_i i hfind
    obtain ⟨hi, -⟩ := h.findWatch hfind
    dsimp only
    generalize (if cls = FormClass.prospectus then kFlagOfferingRecent else kFlagEffectRecent) = flag
    have hset : Steps env now e
        (e.setWatch i { e.watch i with dilutionFlags := (e.watch i).dilutionFlags ||| flag }) :=
      .single (.update hi ⟨rfl, rfl⟩ rfl)
    exact hset.tail (.other _ _ _ _ (.inr rfl))

theorem steps_onRegistration (h : TableOk env e.core) (ev : NewsEvent F) (hot : Hot) :
    Steps env now e (onRegistration env e ev now hot) := by
  unfold onRegistration
  dsimp only
  split
  · exact steps_foldl (fun e => e) (fun s t hs => steps_dilutionInfo hs ev _ hot t) _ h
  · exact .refl

theorem steps_onNews (h : TableOk env e.core) (ev : NewsEvent F) (hot : Hot) :
    Steps env now e (onNews env e ev now hot) := by
  have hd : Steps env now e (e.dedupe ev).1 := steps_quiet (dedupe_core e ev)
  have hok := h.steps hd
  unfold onNews
  generalize e.dedupe ev = p at hd hok
  obtain ⟨e', d⟩ := p
  dsimp only at hd hok ⊢
  refine hd.trans ?_
  cases ev.kind with
  | halt =>
    refine .tail (steps_foldl (fun e => e) (fun s t _ => ?_) _ hok) (.quiet rfl)
    exact steps_handleHalt _ _ _ _ _ _
  | filing =>
    have hfile : Steps env now e' (e'.noteFiling ev now) :=
      .tail (.single (.today e')) (.quiet rfl)
    refine hfile.trans ?_
    have hok' := hok.steps hfile
    dsimp only
    split
    · exact (steps_onRegistration hok' ev hot).tail (.quiet rfl)
    · exact steps_onScored hok' ev d _ hot
  | news => exact steps_onScored hok ev d _ hot
  | filingDoc => exact steps_onScored hok ev d _ hot

theorem todayDays_day (e : Engine F) :
    (e.todayDays now).cachedDay ≠ 0 ∨ (e.todayDays now).cachedDay = easternDay now := by
  unfold todayDays
  split
  · exact .inr rfl
  · rename_i h
    exact .inl (not_or.mp h).2

theorem scanSym_cachedDay (e : Engine F) (hot : Hot) (sym : UInt32) :
    (scanSym env now hot e sym).cachedDay = e.cachedDay := by
  unfold scanSym
  split
  · rfl
  · split
    · rfl
    · dsimp only
      split <;> rfl

theorem steps_scan (hot : Hot) (syms : List UInt32)
    (hday : e.cachedDay ≠ 0 ∨ e.cachedDay = easternDay now) :
    Steps env now e (syms.foldl (scanSym env now hot) e) := by
  induction syms generalizing e with
  | nil => exact .refl
  | cons sym syms ih =>
    refine .head (.mover hot sym hday) (ih ?_)
    rw [scanSym_cachedDay]
    exact hday

/-- Every call is a sequence of steps at its time. -/
theorem steps_call (h : TableOk env e.core) (c : Call F) : Steps env c.now e (call env e c) := by
  cases c with
  | news ev now hot => exact steps_onNews h ev hot
  | market ev now hot =>
    show Steps env now e (onMarketEvent env e ev now hot)
    unfold onMarketEvent
    split
    · exact steps_handleHalt _ _ _ _ _ _
    · exact .refl
  | evaluate now hot => exact steps_evaluate h hot
  | scanMovers now hot =>
    show Steps env now e (scanMovers env e now hot)
    unfold scanMovers
    split
    · exact .refl
    · split
      · exact .refl
      · exact .head (.today e) (steps_scan hot _ (todayDays_day e))
  | shutdown now hot =>
    refine steps_quiet ?_
    show (shutdown env e now hot).core = _
    unfold shutdown
    split <;> rfl

/-! ## Runs -/

theorem tableOk_init (filings : FilingsHistory) : TableOk env (init env filings).core where
  slots := by simp only [core, init, List.nil_append, List.Perm.refl]
  index key i := by
    simp only [core, init, table, Table.map_new]
    simp
  activations := nofun
  walks := nofun

theorem TableOk.run (h : TableOk env e.core) (calls : List (Call F)) :
    TableOk env (run env e calls).core := by
  induction calls generalizing e with
  | nil => exact h
  | cons c calls ih => exact ih (h.steps (steps_call h c))

/-- After every sequence of calls: the slots are split between the active and the free ones, each
once; the index maps exactly the symbols of the active slots, each to its slot; every activation
that found no free slot evicted one watch, one of those with the oldest news; and every walk of
`evaluate` examined each watch that was active at its start once and removed those past the
window. -/
theorem watch_table (env : Env F) (filings : FilingsHistory) (calls : List (Call F)) :
    let e := run env (init env filings) calls
    (e.active ++ e.free).Perm (List.finRange kSlots) ∧
    (∀ key i, e.watchBySym.map.lookup key = some i ↔
      i ∈ e.active ∧ key = (e.watch i).sym.toUInt64) ∧
    (∀ i ∈ e.active, ∀ j ∈ e.active, (e.watch i).sym = (e.watch j).sym → i = j) ∧
    (∀ a ∈ e.trace.activations, a.Ok) ∧
    (∀ w ∈ e.trace.walks, w.Ok (windowNs env)) := by
  intro e
  have h : TableOk env e.core := (tableOk_init filings).run calls
  exact ⟨h.slots, h.index, fun i hi j hj hs => h.unique hi hj hs, h.activations, h.walks⟩

end

end Engine

end Stok
