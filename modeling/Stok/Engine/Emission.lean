import Stok.Engine.WatchTable
import Stok.Util.Calendar

/-!
# The discipline of signals

Three invariants of the steps of a call, each over the emissions so far and the part of the state
that decides the next one: `Paced` for the cooldown table, `Ranked` for the lives of watches and
their tiers, `Movers` for the days of movers.
-/

namespace Stok

namespace Engine

variable {F : Type} [Dbl F] {env : Env F} {e e' : Engine F} {now : UInt64}

/-- A tier that has a cooldown: `WATCH`, `ALERT` or `HIGH`. -/
def Emission.Tiered (m : Emission F) : Prop :=
  m.signal.tier = .watch ∨ m.signal.tier = .alert ∨ m.signal.tier = .high

omit [Dbl F] in
theorem Emission.tiered_of_rank {m : Emission F} (h : 0 < m.signal.tier.rank)
    (h' : m.signal.tier.rank ≤ Tier.high.rank) : m.Tiered := by
  unfold Emission.Tiered
  cases ht : m.signal.tier <;> rw [ht] at h h' <;> simp [Tier.rank] at h h' ⊢

/-- Two signals of one ticker and tier keep the cooldown. -/
def Apart (env : Env F) (a b : Emission F) : Prop :=
  a.signal.sym = b.signal.sym → a.signal.tier = b.signal.tier → a.Tiered →
    (a.now.toNat : Int) + env.cfg.cooldownS.toInt * 1000000000 ≤ b.now.toNat

/-- The tiers of one watch rise. -/
def Rising (a b : Emission F) : Prop :=
  a.life = b.life → a.Tiered → b.Tiered → a.signal.tier.rank < b.signal.tier.rank

/-- Two movers of one ticker are of different days. -/
def DaysApart (a b : Emission F) : Prop :=
  a.signal.tier = .mover → b.signal.tier = .mover → a.signal.sym = b.signal.sym → a.day ≠ b.day

theorem pairwise_concat {α : Type} {R : α → α → Prop} {l : List α} {x : α} (h : l.Pairwise R)
    (hx : ∀ a ∈ l, R a x) : (l ++ [x]).Pairwise R := by
  refine List.pairwise_append.mpr ⟨h, List.pairwise_singleton R x, fun a ha b hb => ?_⟩
  rw [List.mem_singleton.mp hb]
  exact hx a ha

/-! ## What the emitting steps do -/

theorem tierKey_ne (sym : UInt32) (t : Tier) : tierKey sym t ≠ kEmpty := by
  intro h
  have h' := congrArg UInt64.toNat h
  have hrank : t.rank < 2 ^ 36 := by cases t <;> decide
  have hlt : (tierKey sym t).toNat < 2 ^ 36 := by
    rw [tierKey, UInt64.toNat_or]
    refine Nat.or_lt_two_pow ?_ ?_
    · rw [UInt64.toNat_shiftLeft, UInt32.toNat_toUInt64, Nat.shiftLeft_eq]
      refine lt_of_le_of_lt (Nat.mod_le _ _) ?_
      have := sym.toNat_lt
      have h3 : (3 : UInt64).toNat % 64 = 3 := rfl
      rw [h3]
      omega
    · rw [UInt64.toNat_ofNat']
      exact lt_of_le_of_lt (Nat.mod_le _ _) hrank
  have hk : kEmpty.toNat = 2 ^ 64 - 1 := rfl
  omega

/-- The core with one more emission. -/
def Core.emitted (c : Core F) (m : Emission F) : Core F :=
  { c with trace := { c.trace with emitted := c.trace.emitted ++ [m] } }

/-- A tier that has not cooled down changes nothing; otherwise it is emitted and the time noted. -/
theorem emitCooled_cases (env : Env F) (now : UInt64) (e : Engine F) (w : Watch F) (t : Tier) (h : MarketHot) :
    (∃ tab, (emitCooled env e w t now h).core = { e.core with lastTierNs := tab } ∧
        tab.map = e.lastTierNs.map) ∨
      ∃ tab m, (emitCooled env e w t now h).core =
          ({ e.core with lastTierNs := tab } : Core F).emitted m ∧
        tab.map = e.lastTierNs.map.insert (tierKey w.sym t) now ∧
        m.life = w.life ∧ m.now = now ∧ m.signal.sym = w.sym ∧ m.signal.tier = t ∧
        ∀ x, e.lastTierNs.map.lookup (tierKey w.sym t) = some x →
          ¬ now - x < toU64 env.cfg.cooldownS.toInt * kNsPerSec := by
  have hassign := e.lastTierNs.map_assign (tierKey_ne w.sym t) now
  have hcases := e.lastTierNs.tryEmplace_cases (tierKey_ne w.sym t)
  unfold emitCooled cooledDown
  dsimp only
  generalize e.lastTierNs.tryEmplace (tierKey w.sym t) = r at hassign hcases ⊢
  obtain ⟨tab, last, inserted⟩ := r
  dsimp only at hassign hcases ⊢
  rcases hcases with ⟨v, hv, hres, hmap⟩ | ⟨hnone, hres, -⟩
  · obtain ⟨rfl, rfl⟩ := Prod.mk.inj hres
    rcases em (now - last < toU64 env.cfg.cooldownS.toInt * kNsPerSec) with hlt | hge
    · rw [if_pos ⟨rfl, hlt⟩]
      exact .inl ⟨tab, rfl, hmap⟩
    · rw [if_neg fun hc => hge hc.2]
      refine .inr ⟨_, _, rfl, hassign, rfl, rfl, rfl, rfl, fun x hx => ?_⟩
      rw [Option.some.inj (hx.symm.trans hv)]
      exact hge
  · obtain ⟨rfl, rfl⟩ := Prod.mk.inj hres
    rw [if_neg fun hc => absurd hc.1 (by decide)]
    refine .inr ⟨_, _, rfl, hassign, rfl, rfl, rfl, rfl, fun x hx => ?_⟩
    exact absurd (hx.symm.trans hnone) (Option.some_ne_none _)

/-- A scan of a symbol emits at most one mover, for a ticker without a watch and a day that the
table does not hold. -/
theorem scanSym_cases (h : TableOk env e.core) (now : UInt64) (hot : Hot) (sym : UInt32) :
    (∃ tab, (scanSym env now hot e sym).core = { e.core with moverAlerted := tab } ∧
        tab.map = e.moverAlerted.map) ∨
      ∃ tab m, (scanSym env now hot e sym).core =
          ({ e.core with moverAlerted := tab } : Core F).emitted m ∧
        tab.map = e.moverAlerted.map.insert sym.toUInt64 (toU64 e.cachedDay) ∧
        m.day = e.cachedDay ∧ m.watched = false ∧ m.signal.sym = sym ∧ m.signal.tier = .mover ∧
        ∀ x, e.moverAlerted.map.lookup sym.toUInt64 = some x → x ≠ toU64 e.cachedDay := by
  have hassign := e.moverAlerted.map_assign (symKey_ne sym) (toU64 e.cachedDay)
  have hcases := e.moverAlerted.tryEmplace_cases (symKey_ne sym)
  unfold scanSym
  split
  · exact .inl ⟨e.moverAlerted, rfl, rfl⟩
  · split
    · exact .inl ⟨e.moverAlerted, rfl, rfl⟩
    · rename_i hwatch
      have hfree : (e.active.any fun i => (e.watch i).sym == sym) = false := by
        rw [List.any_eq_false]
        intro i hi hs
        have hnone : e.findWatch sym = none := by simpa using hwatch
        rw [findWatch_eq] at hnone
        have := (h.index sym.toUInt64 i).mpr ⟨hi, by rw [← beq_iff_eq.mp hs]; rfl⟩
        exact absurd (this.symm.trans hnone) (Option.some_ne_none _)
      dsimp only
      generalize e.moverAlerted.tryEmplace sym.toUInt64 = r at hassign hcases ⊢
      obtain ⟨tab, seen, inserted⟩ := r
      dsimp only at hassign hcases ⊢
      rcases hcases with ⟨v, hv, hres, hmap⟩ | ⟨hnone, hres, -⟩
      · obtain ⟨rfl, rfl⟩ := Prod.mk.inj hres
        rcases eq_or_ne seen (toU64 e.cachedDay) with heq | hne
        · rw [if_pos ⟨rfl, heq⟩]
          exact .inl ⟨tab, rfl, hmap⟩
        · rw [if_neg fun hc => hne hc.2]
          refine .inr ⟨_, _, rfl, hassign, rfl, hfree, rfl, rfl, fun x hx => ?_⟩
          rw [Option.some.inj (hx.symm.trans hv)]
          exact hne
      · obtain ⟨rfl, rfl⟩ := Prod.mk.inj hres
        rw [if_neg fun hc => absurd hc.1 (by decide)]
        refine .inr ⟨_, _, rfl, hassign, rfl, hfree, rfl, rfl, fun x hx => ?_⟩
        exact absurd (hx.symm.trans hnone) (Option.some_ne_none _)

/-- What the tables and the trace hold after a step, but for the watches. -/
structure Kept (c c' : Core F) : Prop where
  last : c'.lastTierNs.map = c.lastTierNs.map
  mover : c'.moverAlerted.map = c.moverAlerted.map
  emitted : c'.trace.emitted = c.trace.emitted
  day : c'.cachedDay = c.cachedDay

/-- The effect of a step on the emissions and the tables that decide them. -/
inductive Effect (env : Env F) (now : UInt64) (c c' : Core F) : Prop where
  | silent : Kept c c' → Effect env now c c'
  | today : Kept c { c' with cachedDay := c.cachedDay } → c'.cachedDay = easternDay now →
      Effect env now c c'
  | tier (m : Emission F) : c'.trace.emitted = c.trace.emitted ++ [m] → m.Tiered → m.now = now →
      c'.lastTierNs.map = c.lastTierNs.map.insert (tierKey m.signal.sym m.signal.tier) now →
      c'.moverAlerted.map = c.moverAlerted.map → c'.cachedDay = c.cachedDay →
      (∀ x, c.lastTierNs.map.lookup (tierKey m.signal.sym m.signal.tier) = some x →
        ¬ now - x < toU64 env.cfg.cooldownS.toInt * kNsPerSec) → Effect env now c c'
  | other (m : Emission F) : c'.trace.emitted = c.trace.emitted ++ [m] →
      m.signal.tier = .halt ∨ m.signal.tier = .info → c'.lastTierNs.map = c.lastTierNs.map →
      c'.moverAlerted.map = c.moverAlerted.map → c'.cachedDay = c.cachedDay → Effect env now c c'
  | mover (m : Emission F) : c'.trace.emitted = c.trace.emitted ++ [m] → m.signal.tier = .mover →
      m.day = c.cachedDay → m.watched = false → c'.lastTierNs.map = c.lastTierNs.map →
      c'.moverAlerted.map = c.moverAlerted.map.insert m.signal.sym.toUInt64 (toU64 c.cachedDay) →
      c'.cachedDay = c.cachedDay → (c.cachedDay ≠ 0 ∨ c.cachedDay = easternDay now) →
      (∀ x, c.moverAlerted.map.lookup m.signal.sym.toUInt64 = some x → x ≠ toU64 c.cachedDay) →
      Effect env now c c'

theorem deactivateWatch_kept (e : Engine F) (k : Nat) : Kept e.core (e.deactivateWatch k).core := by
  unfold deactivateWatch
  split <;> exact ⟨rfl, rfl, rfl, rfl⟩

theorem evict_kept (e : Engine F) : Kept e.core e.evict.core := by
  unfold evict
  split
  · exact deactivateWatch_kept e _
  · exact ⟨rfl, rfl, rfl, rfl⟩

theorem Micro.effect (h : TableOk env e.core) (hm : Micro env now e e') :
    Effect env now e.core e'.core := by
  cases hm with
  | quiet hq => exact .silent (hq ▸ ⟨rfl, rfl, rfl, rfl⟩)
  | today =>
    unfold todayDays
    split
    · exact .today ⟨rfl, rfl, rfl, rfl⟩ rfl
    · exact .silent ⟨rfl, rfl, rfl, rfl⟩
  | update hi hw ht => exact .silent ⟨rfl, rfl, rfl, rfl⟩
  | @rise i w hot hi hw hlt hle =>
    rcases emitCooled_cases env now (e.setWatch i w) w w.tier hot with
      ⟨tab, hcore, hmap⟩ | ⟨tab, m, hcore, hmap, -, hnow, hsym, htier, hcool⟩
    · rw [hcore]
      exact .silent ⟨hmap, rfl, rfl, rfl⟩
    · rw [hcore]
      have htiered : m.Tiered := Emission.tiered_of_rank (by rw [htier]; omega) (by rwa [htier])
      rw [← hsym, ← htier] at hmap hcool
      exact .tier m rfl htiered hnow hmap rfl rfl hcool
  | start hs =>
    rw [activateWatch_eq]
    have hk := evict_kept e
    exact .silent ⟨hk.last, hk.mover, hk.emitted, hk.day⟩
  | other w hot reason ht => exact .other _ rfl ht rfl rfl rfl
  | mover hot sym hday =>
    rcases scanSym_cases h now hot sym with
      ⟨tab, hcore, hmap⟩ | ⟨tab, m, hcore, hmap, hd, hwatched, hsym, htier, hnew⟩
    · rw [hcore]
      exact .silent ⟨rfl, hmap, rfl, rfl⟩
    · rw [hcore]
      rw [← hsym] at hmap hnew
      exact .mover m rfl htier hd hwatched rfl hmap rfl hday hnew
  | expire hk => exact .silent (deactivateWatch_kept e _)
  | walked hw => exact .silent ⟨rfl, rfl, rfl, rfl⟩

/-! ## Cooldowns -/

/-- Signals of a tier are apart; the table holds the time of the last one, which is not in the
future. -/
structure Paced (env : Env F) (now : UInt64) (c : Core F) : Prop where
  apart : c.trace.emitted.Pairwise (Apart env)
  last : ∀ m ∈ c.trace.emitted, m.Tiered → ∃ x,
    c.lastTierNs.map.lookup (tierKey m.signal.sym m.signal.tier) = some x ∧ m.now ≤ x
  past : ∀ key x, c.lastTierNs.map.lookup key = some x → x ≤ now

theorem Paced.mono {c : Core F} {later : UInt64} (h : Paced env now c) (hle : now ≤ later) :
    Paced env later c :=
  ⟨h.apart, h.last, fun key x hx => UInt64.le_trans (h.past key x hx) hle⟩

/-- The cooldown in nanoseconds is what the subtraction of the source compares with. -/
theorem cooled_le {x : UInt64} (hx : x ≤ now)
    (h : ¬ now - x < toU64 env.cfg.cooldownS.toInt * kNsPerSec) :
    (x.toNat : Int) + env.cfg.cooldownS.toInt * 1000000000 ≤ now.toNat := by
  have hle := UInt64.le_iff_toNat_le.mp hx
  rcases Int.lt_or_le env.cfg.cooldownS.toInt 0 with hneg | hpos
  · omega
  · have hlt := env.cfg.cooldownS.toInt_lt
    rw [UInt64.not_lt, UInt64.le_iff_toNat_le, UInt64.toNat_sub_of_le _ _ hx] at h
    have hc : (toU64 env.cfg.cooldownS.toInt * kNsPerSec).toNat =
        env.cfg.cooldownS.toInt.toNat * 1000000000 := by
      have hk : kNsPerSec.toNat = 1000000000 := rfl
      rw [UInt64.toNat_mul, toU64, UInt64.toNat_ofNat', hk]
      omega
    omega

theorem Paced.emit {c c' : Core F} (h : Paced env now c) (hmap : c'.lastTierNs.map = c.lastTierNs.map)
    {m : Emission F} (hm : c'.trace.emitted = c.trace.emitted ++ [m])
    (ht : ¬ m.Tiered) : Paced env now c' where
  apart := by
    rw [hm]
    refine pairwise_concat h.apart fun a _ _ htier ha => absurd ?_ ht
    unfold Emission.Tiered at ha ⊢
    rwa [← htier]
  last m' hm' := by
    rw [hm] at hm'
    rw [hmap]
    rcases List.mem_append.mp hm' with hm' | hm'
    · exact h.last m' hm'
    · rw [List.mem_singleton.mp hm']
      exact fun ht' => absurd ht' ht
  past := by rw [hmap]; exact h.past

theorem Paced.effect {c c' : Core F} (h : Paced env now c) (he : Effect env now c c') :
    Paced env now c' := by
  cases he with
  | silent hk =>
    refine ⟨?_, ?_, ?_⟩
    · rw [hk.emitted]; exact h.apart
    · rw [hk.emitted, hk.last]; exact h.last
    · rw [hk.last]; exact h.past
  | today hk hday => exact ⟨hk.emitted ▸ h.apart, hk.emitted ▸ hk.last ▸ h.last, hk.last ▸ h.past⟩
  | tier m hm ht hnow hlast hmover hday hcool =>
    refine ⟨?_, fun m' hm' ht' => ?_, fun key x hx => ?_⟩
    · rw [hm]
      refine pairwise_concat h.apart fun a ha hsym htier hta => ?_
      obtain ⟨x, hx, hax⟩ := h.last a ha hta
      rw [hsym, htier] at hx
      have hle := cooled_le (h.past _ x hx) (hcool x hx)
      have := UInt64.le_iff_toNat_le.mp hax
      rw [hnow]
      omega
    · rw [hlast, hm] at *
      rcases eq_or_ne (tierKey m'.signal.sym m'.signal.tier) (tierKey m.signal.sym m.signal.tier)
        with hkey | hkey
      · rw [hkey, Finmap.lookup_insert]
        refine ⟨now, rfl, ?_⟩
        rcases List.mem_append.mp hm' with hm' | hm'
        · obtain ⟨x, hx, hle⟩ := h.last m' hm' ht'
          exact UInt64.le_trans hle (h.past _ x hx)
        · rw [List.mem_singleton.mp hm', hnow]
          exact UInt64.le_refl _
      · rw [Finmap.lookup_insert_of_ne _ hkey]
        rcases List.mem_append.mp hm' with hm' | hm'
        · exact h.last m' hm' ht'
        · exact absurd (by rw [List.mem_singleton.mp hm']) hkey
    · rw [hlast] at hx
      rcases eq_or_ne key (tierKey m.signal.sym m.signal.tier) with rfl | hkey
      · rw [Finmap.lookup_insert] at hx
        rw [← Option.some.inj hx]
        exact UInt64.le_refl _
      · rw [Finmap.lookup_insert_of_ne _ hkey] at hx
        exact h.past key x hx
  | other m hm ht hlast hmover hday =>
    refine h.emit hlast hm ?_
    unfold Emission.Tiered
    rcases ht with ht | ht <;> rw [ht] <;> decide
  | mover m hm ht hd hw hlast hmover hday hcomp hnew =>
    refine h.emit hlast hm ?_
    unfold Emission.Tiered
    rw [ht]
    decide

/-! ## Movers -/

theorem toInt64_toInt {x : UInt64} (h : x.toNat < 2 ^ 63) : x.toInt64.toInt = x.toNat := by
  show (x.toBitVec).toInt = x.toNat
  rw [BitVec.toInt_eq_toNat_of_lt]
  · rfl
  · show 2 * x.toNat < 2 ^ 64
    omega

theorem easternDay_mono {s t : UInt64} (hst : s ≤ t) (ht : t.toNat < 2 ^ 63) :
    easternDay s ≤ easternDay t := by
  have hle := UInt64.le_iff_toNat_le.mp hst
  have hdiv : ∀ n : Nat, (n : Int).tdiv Time.kNs = n / 1000000000 := fun n =>
    Int.tdiv_eq_ediv_of_nonneg (Int.natCast_nonneg n)
  simp only [easternDay]
  rw [toInt64_toInt ht, toInt64_toInt (by omega), Time.daysFromCivil_easternDate (by omega) (by omega),
    Time.daysFromCivil_easternDate (by omega) (by omega)]
  simp only [Time.easternLocal, hdiv]
  exact Time.easternLocal_day_mono (by omega)

/-- Movers of a ticker have different days, the table holds the last of them, and it is not after
the day that is cached. -/
structure Movers (now : UInt64) (c : Core F) : Prop where
  apart : c.trace.emitted.Pairwise DaysApart
  unwatched : ∀ m ∈ c.trace.emitted, m.signal.tier = .mover → m.watched = false
  seen : ∀ m ∈ c.trace.emitted, m.signal.tier = .mover → ∃ d : Int,
    c.moverAlerted.map.lookup m.signal.sym.toUInt64 = some (toU64 d) ∧ m.day ≤ d ∧ d ≤ c.cachedDay
  day : (c.cachedDay = 0 ∧ ∀ m ∈ c.trace.emitted, m.signal.tier ≠ .mover) ∨
    ∃ t ≤ now, c.cachedDay = easternDay t

theorem Movers.mono {c : Core F} {later : UInt64} (h : Movers now c) (hle : now ≤ later) :
    Movers later c := by
  refine ⟨h.apart, h.unwatched, h.seen, h.day.imp_right ?_⟩
  rintro ⟨t, ht, hd⟩
  exact ⟨t, UInt64.le_trans ht hle, hd⟩

/-- An emission that is not a mover. -/
theorem Movers.emit {c c' : Core F} (h : Movers now c)
    (hmap : c'.moverAlerted.map = c.moverAlerted.map) (hday : c'.cachedDay = c.cachedDay)
    {m : Emission F} (hm : c'.trace.emitted = c.trace.emitted ++ [m])
    (ht : m.signal.tier ≠ .mover) : Movers now c' := by
  have hmem : ∀ m' ∈ c'.trace.emitted, m'.signal.tier = .mover → m' ∈ c.trace.emitted := by
    intro m' hm' ht'
    rw [hm] at hm'
    rcases List.mem_append.mp hm' with hm' | hm'
    · exact hm'
    · rw [List.mem_singleton.mp hm'] at ht'
      exact absurd ht' ht
  refine ⟨?_, fun m' hm' ht' => h.unwatched m' (hmem m' hm' ht') ht', fun m' hm' ht' => ?_, ?_⟩
  · rw [hm]
    exact pairwise_concat h.apart fun a _ _ hb => absurd hb ht
  · rw [hmap, hday]
    exact h.seen m' (hmem m' hm' ht') ht'
  · rw [hday]
    exact h.day.imp_left fun hz => ⟨hz.1, fun m' hm' ht' => hz.2 m' (hmem m' hm' ht') ht'⟩

theorem Movers.effect {c c' : Core F} (h : Movers now c) (hnow : now.toNat < 2 ^ 63)
    (he : Effect env now c c') : Movers now c' := by
  cases he with
  | silent hk =>
    refine ⟨?_, ?_, ?_, ?_⟩
    · rw [hk.emitted]; exact h.apart
    · rw [hk.emitted]; exact h.unwatched
    · rw [hk.emitted, hk.mover, hk.day]; exact h.seen
    · rw [hk.emitted, hk.day]; exact h.day
  | today hk hday =>
    have hemitted : c'.trace.emitted = c.trace.emitted := hk.emitted
    have hmover : c'.moverAlerted.map = c.moverAlerted.map := hk.mover
    refine ⟨hemitted ▸ h.apart, hemitted ▸ h.unwatched, fun m hm ht => ?_,
      .inr ⟨now, UInt64.le_refl _, hday⟩⟩
    rw [hemitted] at hm
    obtain ⟨d, hd, hmd, hdc⟩ := h.seen m hm ht
    rcases h.day with hz | ⟨t, ht', hc⟩
    · exact absurd ht (hz.2 m hm)
    · have := easternDay_mono ht' hnow
      rw [hmover, hday]
      exact ⟨d, hd, hmd, by omega⟩
  | tier m hm ht _ hlast hmover hday hcool =>
    refine h.emit hmover hday hm ?_
    rcases ht with ht | ht | ht <;> rw [ht] <;> decide
  | other m hm ht hlast hmover hday =>
    refine h.emit hmover hday hm ?_
    rcases ht with ht | ht <;> rw [ht] <;> decide
  | mover m hm ht hd hw hlast hmover hday hcomp hnew =>
    refine ⟨?_, fun m' hm' => ?_, fun m' hm' ht' => ?_, ?_⟩
    · rw [hm]
      refine pairwise_concat h.apart fun a ha hta _ hsym => ?_
      obtain ⟨d, hlook, hmd, hdc⟩ := h.seen a ha hta
      rw [hsym] at hlook
      have hne : d ≠ c.cachedDay := fun heq => hnew _ hlook (by rw [heq])
      omega
    · rw [hm] at hm'
      rcases List.mem_append.mp hm' with hm' | hm'
      · exact h.unwatched m' hm'
      · rw [List.mem_singleton.mp hm']
        exact fun _ => hw
    · rw [hm] at hm'
      rw [hmover, hday]
      rcases eq_or_ne m'.signal.sym.toUInt64 m.signal.sym.toUInt64 with hkey | hkey
      · rw [hkey, Finmap.lookup_insert]
        refine ⟨c.cachedDay, rfl, ?_, le_rfl⟩
        rcases List.mem_append.mp hm' with hm' | hm'
        · obtain ⟨d, -, hmd, hdc⟩ := h.seen m' hm' ht'
          omega
        · rw [List.mem_singleton.mp hm', hd]
      · rw [Finmap.lookup_insert_of_ne _ hkey]
        rcases List.mem_append.mp hm' with hm' | hm'
        · exact h.seen m' hm' ht'
        · exact absurd (by rw [List.mem_singleton.mp hm']) hkey
    · rw [hday]
      refine .inr ?_
      rcases h.day with ⟨hz, -⟩ | hcomputed
      · rcases hcomp with hne | heq
        · exact absurd hz hne
        · exact ⟨now, UInt64.le_refl _, heq⟩
      · exact hcomputed

/-! ## Lives and tiers -/

/-- Active watches have lives of their own, and have reached every tier emitted for them. -/
structure Ranked (c : Core F) : Prop where
  alive : ∀ i ∈ c.active, (c.watch i).life ≤ c.trace.lives
  distinct : ∀ i ∈ c.active, ∀ j ∈ c.active, (c.watch i).life = (c.watch j).life → i = j
  known : ∀ m ∈ c.trace.emitted, m.Tiered → m.life ≤ c.trace.lives
  reached : ∀ m ∈ c.trace.emitted, m.Tiered → ∀ i ∈ c.active, (c.watch i).life = m.life →
    m.signal.tier.rank ≤ (c.watch i).tier.rank
  rising : c.trace.emitted.Pairwise Rising

/-- A watch that was alive before is in the slot it was in, with a tier no lower. -/
structure Grows (c c' : Core F) : Prop where
  lives : c.trace.lives ≤ c'.trace.lives
  tier : ∀ j ∈ c'.active, (c'.watch j).life ≤ c.trace.lives →
    j ∈ c.active ∧ (c.watch j).life = (c'.watch j).life ∧
      (c.watch j).tier.rank ≤ (c'.watch j).tier.rank

theorem Grows.refl (c : Core F) : Grows c c := ⟨le_rfl, fun _ hj _ => ⟨hj, rfl, le_rfl⟩⟩

theorem Grows.trans {c c' c'' : Core F} (h : Grows c c') (h' : Grows c' c'') : Grows c c'' := by
  refine ⟨h.lives.trans h'.lives, fun j hj hlife => ?_⟩
  obtain ⟨hj', hl', ht'⟩ := h'.tier j hj (hlife.trans h.lives)
  obtain ⟨hj'', hl, ht⟩ := h.tier j hj' (hl'.trans_le hlife)
  exact ⟨hj'', hl.trans hl', ht.trans ht'⟩

/-- No watch begins and none changes its tier. -/
theorem Ranked.shrink {c c' : Core F} (h : Ranked c) (hactive : ∀ i ∈ c'.active, i ∈ c.active)
    (hlife : ∀ i, (c'.watch i).life = (c.watch i).life)
    (htier : ∀ i, (c'.watch i).tier = (c.watch i).tier) (hlives : c'.trace.lives = c.trace.lives)
    (hemitted : c'.trace.emitted = c.trace.emitted) : Ranked c' ∧ Grows c c' := by
  refine ⟨⟨fun i hi => ?_, fun i hi j hj hij => ?_, ?_, fun m hm ht i hi hij => ?_, ?_⟩,
    hlives.ge, fun j hj _ => ⟨hactive j hj, (hlife j).symm, by rw [htier]⟩⟩
  · rw [hlife, hlives]
    exact h.alive i (hactive i hi)
  · rw [hlife, hlife] at hij
    exact h.distinct i (hactive i hi) j (hactive j hj) hij
  · rw [hemitted, hlives]
    exact h.known
  · rw [hemitted] at hm
    rw [hlife] at hij
    rw [htier]
    exact h.reached m hm ht i (hactive i hi) hij
  · rw [hemitted]
    exact h.rising

/-- An emission for no tier of a watch. -/
theorem Ranked.emit {c : Core F} (h : Ranked c) {m : Emission F} (ht : ¬ m.Tiered) :
    Ranked (c.emitted m) ∧ Grows c (c.emitted m) := by
  have hmem : ∀ m' ∈ (c.emitted m).trace.emitted, m'.Tiered → m' ∈ c.trace.emitted := by
    intro m' hm' ht'
    rcases List.mem_append.mp hm' with hm' | hm'
    · exact hm'
    · rw [List.mem_singleton.mp hm'] at ht'
      exact absurd ht' ht
  refine ⟨⟨h.alive, h.distinct, fun m' hm' ht' => h.known m' (hmem m' hm' ht') ht',
    fun m' hm' ht' => h.reached m' (hmem m' hm' ht') ht', ?_⟩, le_rfl,
    fun _ hj _ => ⟨hj, rfl, le_rfl⟩⟩
  exact pairwise_concat h.rising fun a _ _ _ hb => absurd hb ht

theorem setWatch_cases (e : Engine F) (i j : SlotId) (w : Watch F) :
    (j = i ∧ (e.setWatch i w).watch j = w) ∨ (j ≠ i ∧ (e.setWatch i w).watch j = e.watch j) := by
  rcases eq_or_ne j i with rfl | hj
  · exact .inl ⟨rfl, Function.update_self ..⟩
  · exact .inr ⟨hj, Function.update_of_ne hj ..⟩

theorem Ranked.raise (h : Ranked e.core) {i : SlotId} (hi : i ∈ e.active) {w : Watch F}
    (hw : w.Same (e.watch i)) (hlt : (e.watch i).tier.rank < w.tier.rank) :
    Ranked (e.setWatch i w).core ∧ Grows e.core (e.setWatch i w).core := by
  have hlife : ∀ j, ((e.setWatch i w).watch j).life = (e.watch j).life := by
    intro j
    rcases setWatch_cases e i j w with ⟨rfl, hj⟩ | ⟨-, hj⟩ <;> rw [hj]
    exact hw.2
  have htier : ∀ j, (e.watch j).tier.rank ≤ ((e.setWatch i w).watch j).tier.rank := by
    intro j
    rcases setWatch_cases e i j w with ⟨rfl, hj⟩ | ⟨-, hj⟩ <;> rw [hj]
    exact hlt.le
  refine ⟨⟨fun j hj => ?_, fun j hj k hk hjk => ?_, h.known, fun m hm ht j hj hjm => ?_, h.rising⟩,
    le_rfl, fun j hj _ => ⟨hj, (hlife j).symm, htier j⟩⟩
  · exact (hlife j).trans_le (h.alive j hj)
  · exact h.distinct j hj k hk ((hlife j).symm.trans (hjk.trans (hlife k)))
  · exact (h.reached m hm ht j hj ((hlife j).symm.trans hjm)).trans (htier j)

/-- The emission of the tier that a watch has risen to. -/
theorem Ranked.rise {c : Core F} (h : Ranked c) {i : SlotId} (hi : i ∈ c.active) {m : Emission F}
    (hlife : m.life = (c.watch i).life) (htier : m.signal.tier = (c.watch i).tier)
    (hold : ∀ a ∈ c.trace.emitted, a.Tiered → a.life = m.life →
      a.signal.tier.rank < m.signal.tier.rank) : Ranked (c.emitted m) := by
  refine ⟨h.alive, h.distinct, fun m' hm' ht' => ?_, fun m' hm' ht' j hj hjm => ?_, ?_⟩
  · rcases List.mem_append.mp hm' with hm' | hm'
    · exact h.known m' hm' ht'
    · rw [List.mem_singleton.mp hm', hlife]
      exact h.alive i hi
  · rcases List.mem_append.mp hm' with hm' | hm'
    · exact h.reached m' hm' ht' j hj hjm
    · rw [List.mem_singleton.mp hm'] at hjm ⊢
      have hji : j = i := h.distinct j hj i hi (hjm.trans hlife)
      rw [htier, ← hji]
      exact le_rfl
  · exact pairwise_concat h.rising fun a ha hal hta _ => hold a ha hta hal

theorem Ranked.emitCooled (h : Ranked e.core) {i : SlotId} (hi : i ∈ e.active) {w : Watch F}
    (hw : w.Same (e.watch i)) (hlt : (e.watch i).tier.rank < w.tier.rank) (hot : MarketHot) :
    Ranked (emitCooled env (e.setWatch i w) w w.tier now hot).core ∧
      Grows e.core (emitCooled env (e.setWatch i w) w w.tier now hot).core := by
  obtain ⟨hr, hg⟩ := h.raise hi hw hlt
  have hself : (e.setWatch i w).watch i = w := Function.update_self ..
  rcases emitCooled_cases env now (e.setWatch i w) w w.tier hot with
    ⟨tab, hcore, -⟩ | ⟨tab, m, hcore, -, hlife, -, -, htier, -⟩
  · rw [hcore]
    exact ⟨⟨hr.alive, hr.distinct, hr.known, hr.reached, hr.rising⟩, hg.lives, hg.tier⟩
  · rw [hcore]
    have hr' : Ranked ({ (e.setWatch i w).core with lastTierNs := tab } : Core F) :=
      ⟨hr.alive, hr.distinct, hr.known, hr.reached, hr.rising⟩
    refine ⟨hr'.rise hi ?_ ?_ fun a ha hta hal => ?_, hg.lives, hg.tier⟩
    · rw [hlife]
      exact congrArg Watch.life hself.symm
    · rw [htier]
      exact congrArg Watch.tier hself.symm
    · rw [htier]
      refine lt_of_le_of_lt (h.reached a ha hta i hi ?_) hlt
      rw [hal, hlife]
      exact hw.2.symm

theorem Ranked.deactivate (h : Ranked e.core) (k : Nat) :
    Ranked (e.deactivateWatch k).core ∧ Grows e.core (e.deactivateWatch k).core := by
  cases hk : e.active[k]? with
  | none =>
    have heq : e.deactivateWatch k = e := by rw [deactivateWatch, hk]
    rw [heq]
    exact ⟨h, .refl _⟩
  | some i =>
    have hwatch : ∀ j, ((e.deactivateWatch k).watch j).life = (e.watch j).life ∧
        ((e.deactivateWatch k).watch j).tier = (e.watch j).tier := by
      intro j
      rw [deactivateWatch_eq hk]
      show ((e.setWatch i _).watch j).life = _ ∧ ((e.setWatch i _).watch j).tier = _
      rcases setWatch_cases e i j { e.watch i with active := false } with ⟨rfl, hj⟩ | ⟨-, hj⟩ <;>
        rw [hj] <;> exact ⟨rfl, rfl⟩
    refine h.shrink (fun j hj => ?_) (fun j => (hwatch j).1) (fun j => (hwatch j).2) ?_ ?_
    · rw [deactivateWatch_eq hk] at hj
      exact (Lib.swapRemove_perm hk i).mem_iff.mp (List.mem_cons_of_mem i hj)
    · rw [deactivateWatch_eq hk]
      rfl
    · exact (deactivateWatch_kept e k).emitted

theorem Ranked.start (h : Ranked e.core) (ht : TableOk env e.core) (sym : UInt32) :
    Ranked (e.activateWatch sym).1.core ∧ Grows e.core (e.activateWatch sym).1.core := by
  have hev : Ranked e.evict.core ∧ Grows e.core e.evict.core := by
    unfold evict
    split
    · exact h.deactivate _
    · exact ⟨h, .refl _⟩
  obtain ⟨hr, hg⟩ := hev
  obtain ⟨htab, hfree, -, -⟩ := ht.evict
  rw [activateWatch_eq]
  generalize e.evict = e₁ at hr hg htab hfree ⊢
  have hkeep := fun j (hj : j ∈ e₁.active) =>
    htab.place_watch hfree sym (e₁.trace.lives + 1) hj
  have hnew : (e₁.place sym (e₁.trace.lives + 1)).watch (e₁.free.headD default) =
      { Watch.fresh with active := true, sym := sym, life := e₁.trace.lives + 1 } :=
    Function.update_self ..
  have hactive : ∀ j ∈ (e₁.place sym (e₁.trace.lives + 1)).active,
      (j ∈ e₁.active ∧ (e₁.place sym (e₁.trace.lives + 1)).watch j = e₁.watch j) ∨
        ((e₁.place sym (e₁.trace.lives + 1)).watch j).life = e₁.trace.lives + 1 ∧
          j = e₁.free.headD default := by
    intro j hj
    rcases List.mem_append.mp hj with hj | hj
    · exact .inl ⟨hj, hkeep j hj⟩
    · rw [List.mem_singleton.mp hj, hnew]
      exact .inr ⟨rfl, rfl⟩
  refine ⟨⟨fun j hj => ?_, fun j hj k hk hjk => ?_, fun m hm hmt => ?_, fun m hm hmt j hj hjm => ?_,
    hr.rising⟩, hg.trans ⟨Nat.le_succ _, fun j hj hlife => ?_⟩⟩
  · show ((e₁.place sym _).watch j).life ≤ e₁.trace.lives + 1
    rcases hactive j hj with ⟨hj, hw⟩ | ⟨hl, -⟩
    · rw [hw]
      exact (hr.alive j hj).trans (Nat.le_succ _)
    · exact hl.le
  · replace hjk : ((e₁.place sym (e₁.trace.lives + 1)).watch j).life =
      ((e₁.place sym (e₁.trace.lives + 1)).watch k).life := hjk
    rcases hactive j hj with ⟨hj, hwj⟩ | ⟨hlj, hj⟩ <;> rcases hactive k hk with ⟨hk, hwk⟩ | ⟨hlk, hk⟩
    · rw [hwj, hwk] at hjk
      exact hr.distinct j hj k hk hjk
    · have := hr.alive j hj
      rw [hwj, hlk] at hjk
      exact absurd (hjk.symm.trans_le this) (Nat.not_succ_le_self _)
    · have := hr.alive k hk
      rw [hwk, hlj] at hjk
      exact absurd (hjk.trans_le this) (Nat.not_succ_le_self _)
    · exact hj.trans hk.symm
  · exact (hr.known m hm hmt).trans (Nat.le_succ _)
  · replace hjm : ((e₁.place sym (e₁.trace.lives + 1)).watch j).life = m.life := hjm
    show _ ≤ ((e₁.place sym _).watch j).tier.rank
    rcases hactive j hj with ⟨hj, hw⟩ | ⟨hl, -⟩
    · rw [hw] at hjm ⊢
      exact hr.reached m hm hmt j hj hjm
    · have := hr.known m hm hmt
      exact absurd ((hl.symm.trans hjm).trans_le this) (Nat.not_succ_le_self _)
  · replace hlife : ((e₁.place sym (e₁.trace.lives + 1)).watch j).life ≤ e₁.trace.lives := hlife
    rcases hactive j hj with ⟨hj, hw⟩ | ⟨hl, -⟩
    · exact ⟨hj, congrArg Watch.life hw.symm, (congrArg (fun w => w.tier.rank) hw.symm).le⟩
    · exact absurd (hl.symm.trans_le hlife) (Nat.not_succ_le_self _)

theorem Ranked.micro (h : Ranked e.core) (ht : TableOk env e.core) (hm : Micro env now e e') :
    Ranked e'.core ∧ Grows e.core e'.core := by
  cases hm with
  | quiet hq =>
    rw [hq]
    exact ⟨h, .refl _⟩
  | today =>
    unfold todayDays
    split
    · exact h.shrink (fun _ hi => hi) (fun _ => rfl) (fun _ => rfl) rfl rfl
    · exact ⟨h, .refl _⟩
  | @update i w hi hw htier =>
    refine h.shrink (fun _ hi => hi) (fun j => ?_) (fun j => ?_) rfl rfl
    · show ((e.setWatch i w).watch j).life = (e.watch j).life
      rcases setWatch_cases e i j w with ⟨rfl, hj⟩ | ⟨-, hj⟩ <;> rw [hj]
      exact hw.2
    · show ((e.setWatch i w).watch j).tier = (e.watch j).tier
      rcases setWatch_cases e i j w with ⟨rfl, hj⟩ | ⟨-, hj⟩ <;> rw [hj]
      exact htier
  | rise hot hi hw hlt hle => exact h.emitCooled hi hw hlt hot
  | start hs => exact h.start ht _
  | other w hot reason htier =>
    refine h.emit ?_
    unfold Emission.Tiered
    rcases htier with rfl | rfl <;> simp [signalOf]
  | mover hot sym hday =>
    rcases scanSym_cases ht now hot sym with
      ⟨tab, hcore, -⟩ | ⟨tab, m, hcore, -, -, -, -, htier, -⟩
    · rw [hcore]
      exact h.shrink (fun _ hi => hi) (fun _ => rfl) (fun _ => rfl) rfl rfl
    · rw [hcore]
      have hr : Ranked ({ e.core with moverAlerted := tab } : Core F) :=
        ⟨h.alive, h.distinct, h.known, h.reached, h.rising⟩
      obtain ⟨hr', hg⟩ := hr.emit (m := m) (by
        unfold Emission.Tiered
        rw [htier]
        decide)
      exact ⟨hr', hg.lives, hg.tier⟩
  | expire hk => exact h.deactivate _
  | walked hw => exact h.shrink (fun _ hi => hi) (fun _ => rfl) (fun _ => rfl) rfl rfl

/-! ## Runs -/

/-- The invariant of a run up to the time `now`; that the days rise needs a clock below `2 ^ 63`,
which the source reads as a signed number. -/
structure EmitOk (env : Env F) (now : UInt64) (c : Core F) : Prop where
  table : TableOk env c
  paced : Paced env now c
  unwatched : ∀ m ∈ c.trace.emitted, m.signal.tier = .mover → m.watched = false
  movers : now.toNat < 2 ^ 63 → Movers now c
  ranked : Ranked c

theorem Effect.unwatched {c c' : Core F} (he : Effect env now c c')
    (h : ∀ m ∈ c.trace.emitted, m.signal.tier = .mover → m.watched = false) :
    ∀ m ∈ c'.trace.emitted, m.signal.tier = .mover → m.watched = false := by
  have hone : ∀ m, c'.trace.emitted = c.trace.emitted ++ [m] →
      (m.signal.tier = .mover → m.watched = false) →
      ∀ m' ∈ c'.trace.emitted, m'.signal.tier = .mover → m'.watched = false := by
    intro m hm hw m' hm'
    rw [hm] at hm'
    rcases List.mem_append.mp hm' with hm' | hm'
    · exact h m' hm'
    · rw [List.mem_singleton.mp hm']
      exact hw
  cases he with
  | silent hk => rw [hk.emitted]; exact h
  | today hk hday => exact hk.emitted ▸ h
  | tier m hm ht _ hlast hmover hday hcool =>
    refine hone m hm fun hmover => ?_
    rw [Emission.Tiered, hmover] at ht
    exact absurd ht (by decide)
  | other m hm ht hlast hmover hday =>
    refine hone m hm fun hmover => ?_
    rw [hmover] at ht
    exact absurd ht (by decide)
  | mover m hm ht hd hw hlast hmover hday hcomp hnew => exact hone m hm fun _ => hw

theorem EmitOk.mono {c : Core F} {later : UInt64} (h : EmitOk env now c) (hle : now ≤ later) :
    EmitOk env later c := by
  refine ⟨h.table, h.paced.mono hle, h.unwatched, fun hlt => ?_, h.ranked⟩
  exact (h.movers (lt_of_le_of_lt (UInt64.le_iff_toNat_le.mp hle) hlt)).mono hle

theorem EmitOk.steps (h : EmitOk env now e.core) (hs : Steps env now e e') :
    EmitOk env now e'.core ∧ Grows e.core e'.core := by
  induction hs with
  | refl => exact ⟨h, .refl _⟩
  | tail _ hm ih =>
    obtain ⟨hi, hg⟩ := ih
    have heff := hm.effect hi.table
    obtain ⟨hr, hg'⟩ := hi.ranked.micro hi.table hm
    exact ⟨⟨hi.table.micro hm, hi.paced.effect heff, heff.unwatched hi.unwatched,
      fun hlt => (hi.movers hlt).effect hlt heff, hr⟩, hg.trans hg'⟩

theorem EmitOk.run {calls : List (Call F)} {start : UInt64} (h : EmitOk env start e.core)
    (hstart : ∀ c ∈ calls, start ≤ c.now) (hsorted : (calls.map Call.now).Pairwise (· ≤ ·)) :
    (∃ now, EmitOk env now (run env e calls).core ∧ (now = start ∨ ∃ c ∈ calls, now = c.now)) ∧
      Grows e.core (run env e calls).core := by
  induction calls generalizing e start with
  | nil => exact ⟨⟨start, h, .inl rfl⟩, .refl _⟩
  | cons c calls ih =>
    obtain ⟨hle, hsorted⟩ := List.pairwise_cons.mp hsorted
    have hc := h.mono (hstart c List.mem_cons_self)
    obtain ⟨hcall, hg⟩ := hc.steps (steps_call h.table c)
    obtain ⟨⟨now, hrun, hnow⟩, hg'⟩ :=
      ih hcall (fun c' hmem => hle _ (List.mem_map_of_mem hmem)) hsorted
    refine ⟨⟨now, hrun, .inr ?_⟩, hg.trans hg'⟩
    rcases hnow with rfl | ⟨c', hmem, rfl⟩
    · exact ⟨c, List.mem_cons_self, rfl⟩
    · exact ⟨c', List.mem_cons_of_mem _ hmem, rfl⟩

theorem emitOk_init (filings : FilingsHistory) : EmitOk env 0 (init env filings).core := by
  have hactive : (init env filings).core.active = [] := rfl
  have hemitted : (init env filings).core.trace.emitted = [] := rfl
  have hlast : (init env filings).core.lastTierNs.map = ∅ := by
    simp only [core, init, table, Table.map_new]
  refine ⟨tableOk_init filings, ⟨?_, ?_, ?_⟩, ?_, fun _ => ⟨?_, ?_, ?_, .inl ⟨rfl, ?_⟩⟩,
    ⟨?_, ?_, ?_, ?_, ?_⟩⟩ <;> simp [hactive, hemitted, hlast]

/-- In every run with a clock that does not go back: signals of one ticker and tier among `WATCH`,
`ALERT` and `HIGH` are a cooldown apart; the tier of a watch does not fall while the watch lives,
and the tiers emitted for it rise; movers are emitted for tickers without an active watch, and with
a clock below `2 ^ 63` those of one ticker have different days. -/
theorem emission_discipline (env : Env F) (filings : FilingsHistory) (calls : List (Call F))
    (hsorted : (calls.map Call.now).Pairwise (· ≤ ·)) :
    let e := run env (init env filings) calls
    e.trace.emitted.Pairwise (Apart env) ∧
    (∀ past rest, calls = past ++ rest →
      let e₀ := run env (init env filings) past
      ∀ i ∈ e₀.active, ∀ j ∈ e.active, (e₀.watch i).life = (e.watch j).life →
        (e₀.watch i).tier.rank ≤ (e.watch j).tier.rank) ∧
    e.trace.emitted.Pairwise Rising ∧
    ((∀ c ∈ calls, c.now.toNat < 2 ^ 63) → e.trace.emitted.Pairwise DaysApart) ∧
    (∀ m ∈ e.trace.emitted, m.signal.tier = .mover → m.watched = false) := by
  intro e
  have hinit : EmitOk env 0 (init env filings).core := emitOk_init filings
  obtain ⟨⟨now, h, hnow⟩, -⟩ := hinit.run (fun c _ => UInt64.zero_le) hsorted
  refine ⟨h.paced.apart, fun past rest hcalls => ?_, h.ranked.rising, fun hclock => ?_, h.unwatched⟩
  · intro e₀ i hi j hj hlife
    subst hcalls
    rw [List.map_append, List.pairwise_append] at hsorted
    obtain ⟨hs, hs', hcross⟩ := hsorted
    obtain ⟨⟨t, h₀, ht⟩, -⟩ := hinit.run (fun c _ => UInt64.zero_le) hs
    have hlater : ∀ c ∈ rest, t ≤ c.now := by
      intro c hc
      rcases ht with rfl | ⟨c', hc', rfl⟩
      · exact UInt64.zero_le
      · exact hcross _ (List.mem_map_of_mem hc') _ (List.mem_map_of_mem hc)
    obtain ⟨-, hg⟩ := h₀.run hlater hs'
    have he : run env e₀ rest = e := (List.foldl_append ..).symm
    rw [he] at hg
    obtain ⟨hj', hl, htier⟩ := hg.tier j hj (hlife.symm.trans_le (h₀.ranked.alive i hi))
    rw [h₀.ranked.distinct i hi j hj' (hlife.trans hl.symm)]
    exact htier
  · refine (h.movers ?_).apart
    rcases hnow with rfl | ⟨c, hc, rfl⟩
    · decide
    · exact hclock c hc

/-- One symbol with a board, and no rules. -/
def acmeEnv : Env ℚ :=
  { cfg := {}, symbols := acmeSymbols, boardSize := some 1, scoreText := fun _ _ => .zero
    rule := fun _ => ⟨[], [], 0, .cat, .none⟩, wallNs := fun _ => 0 }

/-- Three dollars and ten million shares, at every reading. -/
def runner : Hot := fun _ _ =>
  { lastPx := 30000, dayVolume := 10000000, notionalE4 := 300000000000 }

/-- Two scans, two days apart, and the movers they emit. -/
theorem emission_discipline_movers :
    let e := run acmeEnv (init acmeEnv {}) [.scanMovers 0 runner, .scanMovers 172800000000000 runner]
    (e.trace.emitted.map fun m => (m.signal.tier, m.day)) = [(.mover, -1), (.mover, 1)] ∧
      e.trace.emitted.Pairwise DaysApart := by
  refine ⟨by decide +kernel, ?_⟩
  exact (emission_discipline acmeEnv {} _ (by decide)).2.2.2.1 (by decide)

/-- From `2 ^ 63` on the clock reads as a time before 1970, whose day can come back. -/
theorem mover_day_returns :
    ∃ calls : List (Call ℚ), (calls.map Call.now).Pairwise (· ≤ ·) ∧
      ¬ (run acmeEnv (init acmeEnv {}) calls).trace.emitted.Pairwise DaysApart := by
  refine ⟨[.scanMovers 0 runner, .scanMovers 172800000000000 runner,
    .scanMovers 0xFFFFFFFFFFFFFFFF runner], by decide, fun h => ?_⟩
  have hmap : (run acmeEnv (init acmeEnv {}) [.scanMovers 0 runner,
      .scanMovers 172800000000000 runner, .scanMovers 0xFFFFFFFFFFFFFFFF runner]).trace.emitted.map
      (fun m => (m.signal.tier, m.signal.sym, m.day)) =
      [(.mover, 0, -1), (.mover, 0, 1), (.mover, 0, -1)] := by decide +kernel
  have hday : ([(.mover, 0, -1), (.mover, 0, 1), (.mover, 0, -1)] : List (Tier × UInt32 × Int)).Pairwise
      fun a b => a.1 = .mover → b.1 = .mover → a.2.1 = b.2.1 → a.2.2 ≠ b.2.2 := by
    rw [← hmap]
    exact List.pairwise_map.mpr h
  exact absurd hday (by decide)

end Engine

end Stok
