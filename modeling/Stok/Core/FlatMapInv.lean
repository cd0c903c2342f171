import Stok.Core.FlatMap

/-!
# The invariant of the open-addressing map

`Core` says that a table is a well-formed open-addressing table: a power-of-two
capacity, a size that counts the occupied slots, and the probing invariant of
`Stok.Lib.Probing`. `WF` adds that the load limit is respected, which leaves an
empty slot for every probe loop to stop at. `Binds m k v` says that `k` is
stored with value `v`; each operation is specified by what it does to `Binds`.
-/

namespace Stok.FlatMap64

open Stok.Lib.Probing

variable {V : Type} [Inhabited V]

/-! ## Capacities -/

theorem nextPow2Loop_pow (v : Nat) : ∀ fuel k, ∃ k', k ≤ k' ∧ nextPow2Loop v fuel (2 ^ k) = 2 ^ k'
  | 0, k => ⟨k, Nat.le_refl k, rfl⟩
  | fuel + 1, k => by
    unfold nextPow2Loop
    split
    · rw [Nat.shiftLeft_eq, ← Nat.pow_add]
      obtain ⟨k', hk, e⟩ := nextPow2Loop_pow v fuel (k + 1)
      exact ⟨k', by omega, e⟩
    · exact ⟨k, Nat.le_refl k, rfl⟩

theorem nextPow2Loop_ge (v : Nat) : ∀ fuel p, 0 < p → v ≤ p + fuel → v ≤ nextPow2Loop v fuel p
  | 0, p, _, h => h
  | fuel + 1, p, hp, h => by
    unfold nextPow2Loop
    split
    · exact nextPow2Loop_ge v fuel _ (by rw [Nat.shiftLeft_eq]; omega)
        (by rw [Nat.shiftLeft_eq]; omega)
    · omega

theorem nextPow2_pow (v : Nat) : ∃ k, nextPow2 v = 2 ^ k := by
  obtain ⟨k, -, e⟩ := nextPow2Loop_pow v v 0
  exact ⟨k, e⟩

theorem le_nextPow2 (v : Nat) : v ≤ nextPow2 v := nextPow2Loop_ge v v 1 (by omega) (by omega)

theorem next_eq_land {n k i : Nat} (hn : n = 2 ^ k) (hi : i < n) :
    (i + 1) &&& (n - 1) = next n i := by
  subst hn
  rw [Nat.and_two_pow_sub_one_eq_mod]
  unfold next
  split
  · next h => rw [h, Nat.mod_self]
  · exact Nat.mod_eq_of_lt (by omega)

/-! ## Reading and writing slots -/

/-- The key stored in slot `i`. -/
def keyAt (m : FlatMap64 V) (i : Nat) : Option UInt64 :=
  if (m.slot i).key = kEmpty then none else some (m.slot i).key

theorem keyAt_eq_none {m : FlatMap64 V} {i : Nat} : m.keyAt i = none ↔ (m.slot i).key = kEmpty := by
  unfold keyAt; split <;> simp_all

theorem keyAt_eq_some {m : FlatMap64 V} {i : Nat} {k : UInt64} :
    m.keyAt i = some k ↔ (m.slot i).key = k ∧ k ≠ kEmpty := by
  unfold keyAt; split <;> grind

theorem slot_of_lt {m : FlatMap64 V} {i : Nat} (h : i < m.capacity) : m.slot i = m.slots[i] := by
  unfold slot; rw [List.getD_eq_getElem?_getD, List.getElem?_eq_getElem h]; rfl

/-- Reading a table with slot `i` overwritten. -/
theorem slot_set {m : FlatMap64 V} {i j : Nat} {s : Slot V} (hi : i < m.capacity)
    {m' : FlatMap64 V} (h : m'.slots = m.slots.set i s) :
    m'.slot j = if j = i then s else m.slot j := by
  unfold slot
  rw [h, List.getD_eq_getElem?_getD, List.getD_eq_getElem?_getD, List.getElem?_set]
  unfold capacity at hi
  split <;> grind

/-- The number of occupied slots. -/
def occupied (m : FlatMap64 V) : Nat := m.slots.countP fun s => s.key != kEmpty

theorem occupied_set (m' : FlatMap64 V) {m : FlatMap64 V} {i : Nat} {s : Slot V} (hi : i < m.capacity)
    (h : m'.slots = m.slots.set i s) :
    m'.occupied + (if (m.slot i).key = kEmpty then 0 else 1) =
      m.occupied + if s.key = kEmpty then 0 else 1 := by
  unfold occupied
  rw [h, List.countP_set hi, slot_of_lt hi]
  have hpos : (m.slots[i].key != kEmpty) = true → 0 < m.slots.countP fun s => s.key != kEmpty :=
    fun hk => List.countP_pos_iff.2 ⟨_, List.getElem_mem hi, hk⟩
  simp only [bne_iff_ne, ne_eq] at hpos ⊢
  split_ifs <;> simp_all

/-! ## The invariant -/

structure Core (m : FlatMap64 V) : Prop where
  pow : ∃ k, m.capacity = 2 ^ k
  cap_ge : 8 ≤ m.capacity
  mask_eq : m.mask = m.capacity - 1
  size_eq : m.size = m.occupied
  growAt_eq : m.growAt = ⌊(m.capacity : ℚ) * m.maxLoad⌋₊
  load_ge : 1 / 8 ≤ m.maxLoad
  load_lt : m.maxLoad < 1
  probed : Probed m.capacity m.index m.keyAt
  distinct : Distinct m.capacity m.keyAt

structure WF (m : FlatMap64 V) : Prop extends Core m where
  size_le : m.size ≤ m.growAt

/-- `k` is stored with value `v`. -/
def Binds (m : FlatMap64 V) (k : UInt64) (v : V) : Prop :=
  k ≠ kEmpty ∧ ∃ i < m.capacity, m.slot i = ⟨k, v⟩

theorem Core.index_lt {m : FlatMap64 V} (h : m.Core) (k : UInt64) : m.index k < m.capacity := by
  have := h.cap_ge
  unfold index
  rw [h.mask_eq]
  exact Nat.lt_of_le_of_lt Nat.and_le_right (by omega)

theorem Core.probe_eq_walk {m : FlatMap64 V} (h : m.Core) (stop : Slot V → Bool) :
    ∀ fuel i, i < m.capacity →
      m.probe stop fuel i = walk m.capacity (fun i => stop (m.slot i)) fuel i
  | 0, _, _ => rfl
  | fuel + 1, i, hi => by
    obtain ⟨k, hk⟩ := h.pow
    unfold probe walk
    rw [h.mask_eq, next_eq_land hk hi, h.probe_eq_walk stop fuel _ (next_lt hi)]

theorem Core.growAt_lt {m : FlatMap64 V} (h : m.Core) : m.growAt < m.capacity := by
  have hc : (0 : ℚ) < m.capacity := by
    have := h.cap_ge
    exact_mod_cast (by omega : 0 < m.capacity)
  rw [h.growAt_eq, Nat.floor_lt (by have := h.load_ge; positivity)]
  calc (m.capacity : ℚ) * m.maxLoad < m.capacity * 1 := by
        exact mul_lt_mul_of_pos_left h.load_lt hc
    _ = m.capacity := mul_one _

/-- A table that is not full has an empty slot. -/
theorem Core.exists_empty {m : FlatMap64 V} (h : m.Core) (hs : m.size < m.capacity) :
    ∃ i, i < m.capacity ∧ (m.slot i).key = kEmpty := by
  by_contra hcon
  push Not at hcon
  have : m.occupied = m.capacity := by
    unfold occupied capacity
    rw [List.countP_eq_length]
    intro s hs
    obtain ⟨i, hi, rfl⟩ := List.getElem_of_mem hs
    have := hcon i hi
    rw [slot_of_lt hi] at this
    simpa using this
  rw [h.size_eq] at hs
  omega

/-- A probe that stops at empty slots returns, at the nearest slot it may stop at. -/
theorem Core.probe_spec {m : FlatMap64 V} (h : m.Core) (hs : m.size < m.capacity)
    (stop : Slot V → Bool) (hstop : ∀ s : Slot V, s.key = kEmpty → stop s = true) {i : Nat}
    (hi : i < m.capacity) :
    ∃ p, m.probe stop m.capacity i = some p ∧ p < m.capacity ∧ stop (m.slot p) = true ∧
      ∀ q, q < m.capacity → dist m.capacity i q < dist m.capacity i p → stop (m.slot q) = false := by
  rw [h.probe_eq_walk stop _ i hi]
  obtain ⟨e, he, hk⟩ := h.exists_empty hs
  exact walk_spec hi ⟨e, he, hstop _ hk⟩

/-- The lookup probe ends at the slot of a stored key, and at an empty slot otherwise. -/
theorem Core.probe_key {m : FlatMap64 V} (h : m.Core) (hs : m.size < m.capacity) (key : UInt64)
    (stop : Slot V → Bool) (hstop : ∀ s : Slot V, stop s = true ↔ s.key = key ∨ s.key = kEmpty) :
    ∃ p, m.probe stop m.capacity (m.index key) = some p ∧ p < m.capacity ∧
      ((m.slot p).key = key ∨ (m.slot p).key = kEmpty ∧ (∀ i, i < m.capacity →
          (m.slot i).key ≠ key) ∧
        ∀ q, q < m.capacity → dist m.capacity (m.index key) q < dist m.capacity (m.index key) p →
          (m.slot q).key ≠ kEmpty) := by
  obtain ⟨p, hp, hlt, hsp, hbefore⟩ :=
    h.probe_spec hs stop (fun s hk => (hstop s).2 (.inr hk)) (h.index_lt key)
  refine ⟨p, hp, hlt, ?_⟩
  have hnot : ∀ q, q < m.capacity →
      dist m.capacity (m.index key) q < dist m.capacity (m.index key) p →
      (m.slot q).key ≠ key ∧ (m.slot q).key ≠ kEmpty := fun q hq hd => by
    have hf := hbefore q hq hd
    constructor
    · intro e; rw [(hstop _).2 (.inl e)] at hf; cases hf
    · intro e; rw [(hstop _).2 (.inr e)] at hf; cases hf
  by_cases hkey : (m.slot p).key = key
  · exact .inl hkey
  have hemp : (m.slot p).key = kEmpty := ((hstop _).1 hsp).resolve_left hkey
  refine .inr ⟨hemp, fun i hi hik => ?_, fun q hq hd => (hnot q hq hd).2⟩
  have hne : key ≠ kEmpty := fun e => hkey (by rw [hemp, e])
  -- a stored key before `p` would have stopped the probe, one after it would cross `p`
  rcases Nat.lt_trichotomy (dist m.capacity (m.index key) i)
    (dist m.capacity (m.index key) p) with hlt' | heq | hgt
  · exact (hnot i hi hlt').1 hik
  · exact hkey (dist_inj (h.index_lt key) hi hlt heq ▸ hik)
  · exact h.probed i key hi (keyAt_eq_some.2 ⟨hik, hne⟩) p hlt hgt (keyAt_eq_none.2 hemp)

theorem Core.binds_unique {m : FlatMap64 V} (h : m.Core) {k : UInt64} {v w : V}
    (hv : m.Binds k v) (hw : m.Binds k w) : v = w := by
  obtain ⟨hk, i, hi, ei⟩ := hv
  obtain ⟨-, j, hj, ej⟩ := hw
  have : i = j := h.distinct i j k hi hj (keyAt_eq_some.2 ⟨by rw [ei], hk⟩)
    (keyAt_eq_some.2 ⟨by rw [ej], hk⟩)
  subst this
  rw [ei] at ej
  exact (Slot.mk.injEq .. ▸ ej).2

/-! ## Building tables -/

theorem blank_slot (cap : Nat) (load : ℚ) (i : Nat) :
    (blank cap load : FlatMap64 V).slot i = ⟨kEmpty, default⟩ := by
  unfold slot blank
  rw [List.getD_eq_getElem?_getD, List.getElem?_replicate]
  split <;> rfl

@[simp] theorem blank_capacity (cap : Nat) (load : ℚ) :
    (blank cap load : FlatMap64 V).capacity = cap := List.length_replicate

theorem blank_core {cap k : Nat} {load : ℚ} (hp : cap = 2 ^ k) (h8 : 8 ≤ cap)
    (hlo : 1 / 8 ≤ load) (hhi : load < 1) : (blank cap load : FlatMap64 V).Core where
  pow := ⟨k, by simpa using hp⟩
  cap_ge := by simpa using h8
  mask_eq := by rw [blank_capacity]; rfl
  size_eq := by simp [blank, occupied, List.countP_replicate]
  growAt_eq := by rw [blank_capacity]; rfl
  load_ge := hlo
  load_lt := hhi
  probed i k _ h := by rw [keyAt_eq_some, blank_slot] at h; exact absurd h.1.symm h.2
  distinct i j k _ _ h := by rw [keyAt_eq_some, blank_slot] at h; exact absurd h.1.symm h.2

theorem blank_binds (cap : Nat) (load : ℚ) (k : UInt64) (v : V) :
    ¬ (blank cap load : FlatMap64 V).Binds k v := by
  rintro ⟨hk, i, -, e⟩
  rw [blank_slot] at e
  exact hk (Slot.mk.injEq .. ▸ e).1.symm

/-- Filling the empty slot `p` at the end of the walk of `s.key`. -/
theorem Core.fill {m m' : FlatMap64 V} (h : m.Core) {p : Nat} {s : Slot V} (hp : p < m.capacity)
    (hemp : (m.slot p).key = kEmpty) (hk : s.key ≠ kEmpty)
    (hnew : ∀ i, i < m.capacity → (m.slot i).key ≠ s.key)
    (hbefore : ∀ q, q < m.capacity →
      dist m.capacity (m.index s.key) q < dist m.capacity (m.index s.key) p →
      (m.slot q).key ≠ kEmpty)
    (hm' : m' = { m with slots := m.slots.set p s, size := m.size + 1 }) :
    m'.Core ∧ m'.capacity = m.capacity ∧
      ∀ k v, m'.Binds k v ↔ m.Binds k v ∨ k = s.key ∧ v = s.value := by
  subst hm'
  set m' : FlatMap64 V := { m with slots := m.slots.set p s, size := m.size + 1 } with hm'
  have hcap : m'.capacity = m.capacity := List.length_set
  have hslot : ∀ j, m'.slot j = if j = p then s else m.slot j := fun j => slot_set hp rfl
  have hat : m'.keyAt p = some s.key := keyAt_eq_some.2 ⟨by rw [hslot]; simp, hk⟩
  have hoff : ∀ i, i < m.capacity → i ≠ p → m'.keyAt i = m.keyAt i := fun i _ hi => by
    unfold keyAt; rw [hslot, if_neg hi]
  refine ⟨?_, hcap, fun k v => ?_⟩
  · refine ⟨hcap ▸ h.pow, hcap ▸ h.cap_ge, by rw [hcap]; exact h.mask_eq, ?_, by
      rw [hcap]; exact h.growAt_eq, h.load_ge, h.load_lt, ?_, ?_⟩
    · have := occupied_set m' hp rfl
      rw [hemp, if_pos rfl, if_neg hk] at this
      show m.size + 1 = m'.occupied
      rw [h.size_eq]; omega
    · rw [hcap]
      exact Probed.fill (k := s.key) h.probed hp
        (fun q hq hd => by rw [ne_eq, keyAt_eq_none]; exact hbefore q hq hd) hat hoff
    · rw [hcap]
      refine Distinct.fill (k := s.key) h.distinct (fun i hi he => ?_) hat hoff
      exact hnew i hi (keyAt_eq_some.1 he).1
  · unfold Binds
    rw [hcap]
    constructor
    · rintro ⟨hke, i, hi, e⟩
      rw [hslot] at e
      split at e
      · exact .inr ⟨by rw [e], by rw [e]⟩
      · exact .inl ⟨hke, i, hi, e⟩
    · rintro (⟨hke, i, hi, e⟩ | ⟨rfl, rfl⟩)
      · refine ⟨hke, i, hi, ?_⟩
        rw [hslot, if_neg, e]
        rintro rfl
        rw [e] at hemp
        exact hke hemp
      · exact ⟨hk, p, hp, by rw [hslot, if_pos rfl]⟩

theorem Core.place_spec {m : FlatMap64 V} (h : m.Core) (hs : m.size < m.capacity) {s : Slot V}
    (hk : s.key ≠ kEmpty) (hnew : ∀ v, ¬ m.Binds s.key v) :
    ∃ m', m.place s = some m' ∧ m'.Core ∧ m'.capacity = m.capacity ∧ m'.size = m.size + 1 ∧
      m'.maxLoad = m.maxLoad ∧
      ∀ k v, m'.Binds k v ↔ m.Binds k v ∨ k = s.key ∧ v = s.value := by
  obtain ⟨p, hp, hlt, hsp, hbefore⟩ := h.probe_spec hs
    (fun s => s.key == kEmpty) (fun s hk => by simpa using hk) (h.index_lt s.key)
  obtain ⟨hcore, hcap, hb⟩ := h.fill hlt (by simpa using hsp) hk
    (fun i hi e => hnew (m.slot i).value ⟨hk, i, hi, by rw [← e]⟩)
    (fun q hq hd => by simpa using hbefore q hq hd) rfl
  exact ⟨_, by simp [place, hp], hcore, hcap, rfl, rfl, hb⟩

/-- Re-inserting a list of slots with distinct keys. -/
theorem Core.placeAll_spec : ∀ (l : List (Slot V)) {m : FlatMap64 V}, m.Core →
    m.size + l.countP (fun s => s.key != kEmpty) < m.capacity →
    l.Pairwise (fun a b => a.key ≠ kEmpty → a.key ≠ b.key) →
    (∀ s ∈ l, s.key ≠ kEmpty → ∀ v, ¬ m.Binds s.key v) →
    ∃ m', l.foldlM (fun n s => if s.key == kEmpty then some n else n.place s) m = some m' ∧
      m'.Core ∧ m'.capacity = m.capacity ∧ m'.maxLoad = m.maxLoad ∧
      m'.size = m.size + l.countP (fun s => s.key != kEmpty) ∧
      ∀ k v, m'.Binds k v ↔ m.Binds k v ∨ k ≠ kEmpty ∧ ⟨k, v⟩ ∈ l
  | [], m, h, _, _, _ => ⟨m, rfl, h, rfl, rfl, by simp, by simp⟩
  | s :: l, m, h, hs, hd, hnew => by
    rw [List.pairwise_cons] at hd
    rw [List.countP_cons] at hs
    by_cases hk : s.key = kEmpty
    · obtain ⟨m', e, h1, h2, h3, h4, h5⟩ := placeAll_spec l h (by omega) hd.2
        (fun s' hs' => hnew s' (List.mem_cons_of_mem _ hs'))
      refine ⟨m', by simpa [hk] using e, h1, h2, h3, ?_, fun k v => ?_⟩
      · rw [h4, List.countP_cons]; simp [hk]
      · rw [h5, List.mem_cons]
        constructor
        · rintro (hb | ⟨hne, hm⟩)
          · exact .inl hb
          · exact .inr ⟨hne, .inr hm⟩
        · rintro (hb | ⟨hne, rfl | hm⟩)
          · exact .inl hb
          · exact absurd hk hne
          · exact .inr ⟨hne, hm⟩
    · have hs1 : m.size < m.capacity := by omega
      obtain ⟨m1, e1, hc1, hcap1, hsz1, hld1, hb1⟩ := h.place_spec hs1 hk (hnew s List.mem_cons_self hk)
      have hk' : (s.key != kEmpty) = true := by simpa using hk
      rw [hk', if_pos rfl] at hs
      obtain ⟨m', e, h1, h2, h3, h4, h5⟩ := placeAll_spec l hc1 (by rw [hcap1]; omega) hd.2
        (fun s' hs' hk' v hb => by
          rcases (hb1 _ _).1 hb with hb | ⟨he, -⟩
          · exact hnew s' (List.mem_cons_of_mem _ hs') hk' v hb
          · exact hd.1 s' hs' hk he.symm)
      refine ⟨m', ?_, h1, h2.trans hcap1, h3.trans hld1, ?_, fun k v => ?_⟩
      · have : (s.key == kEmpty) = false := by simpa using hk
        rw [List.foldlM_cons, this]
        simp only [Bool.false_eq_true, ↓reduceIte, e1]
        exact e
      · rw [h4, hsz1, List.countP_cons, hk', if_pos rfl]; omega
      · rw [h5, hb1, List.mem_cons]
        constructor
        · rintro ((hb | ⟨rfl, rfl⟩) | ⟨hne, hm⟩)
          · exact .inl hb
          · exact .inr ⟨hk, .inl rfl⟩
          · exact .inr ⟨hne, .inr hm⟩
        · rintro (hb | ⟨hne, rfl | hm⟩)
          · exact .inl (.inl hb)
          · exact .inl (.inr ⟨rfl, rfl⟩)
          · exact .inr ⟨hne, hm⟩

theorem Core.pairwise {m : FlatMap64 V} (h : m.Core) :
    m.slots.Pairwise fun a b => a.key ≠ kEmpty → a.key ≠ b.key := by
  rw [List.pairwise_iff_getElem]
  intro i j hi hj hij hk e
  have h1 : m.keyAt i = some m.slots[i].key := keyAt_eq_some.2 ⟨by rw [slot_of_lt hi], hk⟩
  have h2 : m.keyAt j = some m.slots[i].key := keyAt_eq_some.2 ⟨by rw [slot_of_lt hj, e], hk⟩
  exact absurd (h.distinct i j _ hi hj h1 h2) (by omega)

theorem binds_iff_mem {m : FlatMap64 V} {k : UInt64} {v : V} :
    m.Binds k v ↔ k ≠ kEmpty ∧ ⟨k, v⟩ ∈ m.slots := by
  refine and_congr_right fun _ => ⟨?_, fun hm => ?_⟩
  · rintro ⟨i, hi, e⟩
    rw [← e, slot_of_lt hi]
    exact List.getElem_mem hi
  · obtain ⟨i, hi, e⟩ := List.getElem_of_mem hm
    exact ⟨i, hi, by rw [slot_of_lt hi, e]⟩

/-- A rehash to a larger power of two keeps the bindings and restores the load limit. -/
theorem WF.rehash_spec {m : FlatMap64 V} (h : m.WF) {cap k : Nat} (hp : cap = 2 ^ k)
    (hgt : m.capacity < cap) :
    ∃ m', m.rehash cap = some m' ∧ m'.WF ∧ m'.capacity = cap ∧ m'.size = m.size ∧
      m'.size + 1 ≤ m'.growAt ∧ ∀ k v, m'.Binds k v ↔ m.Binds k v := by
  have hsz := h.size_le
  have hg := h.growAt_lt
  have h8 := h.cap_ge
  have hocc : m.slots.countP (fun s => s.key != kEmpty) = m.size := h.size_eq.symm
  obtain ⟨m', e, h1, h2, h3, h4, h5⟩ := Core.placeAll_spec m.slots
    (blank_core (V := V) hp (by omega) h.load_ge h.load_lt)
    (by rw [hocc, blank_capacity]; show 0 + m.size < cap; omega) h.pairwise
    (fun s _ _ v => blank_binds cap m.maxLoad s.key v)
  rw [hocc] at h4
  rw [blank_capacity] at h2
  have hsize : m'.size = m.size := by rw [h4]; show 0 + m.size = m.size; omega
  -- doubling the capacity at least doubles the limit, which was at least one
  have hcap2 : 2 * m.capacity ≤ cap := by
    obtain ⟨k0, hk0⟩ := h.pow
    rw [hk0, hp] at hgt
    have : k0 < k := (Nat.pow_lt_pow_iff_right (by omega)).1 hgt
    calc 2 * m.capacity = 2 ^ (k0 + 1) := by rw [hk0, Nat.pow_succ]; omega
      _ ≤ 2 ^ k := Nat.pow_le_pow_right (by omega) this
      _ = cap := hp.symm
  have hgrow : m.growAt + 1 ≤ m'.growAt := by
    have hl := h.load_ge
    have hc8 : (8 : ℚ) ≤ m.capacity := by exact_mod_cast h8
    have hc2 : 2 * (m.capacity : ℚ) ≤ cap := by exact_mod_cast hcap2
    rw [h1.growAt_eq, h3, h2]
    apply Nat.le_floor
    have hfl : (m.growAt : ℚ) ≤ m.capacity * m.maxLoad := by
      rw [h.growAt_eq]; exact Nat.floor_le (by positivity)
    have h1' : (1 : ℚ) ≤ m.capacity * m.maxLoad := by nlinarith
    push_cast
    show (m.growAt : ℚ) + 1 ≤ cap * m.maxLoad
    nlinarith
  refine ⟨m', e, ⟨h1, by omega⟩, h2, hsize, by omega, fun k v => ?_⟩
  rw [h5, binds_iff_mem (m := m)]
  exact or_iff_right (blank_binds cap m.maxLoad k v)

/-! ## Operations -/

theorem WF.size_lt {m : FlatMap64 V} (h : m.WF) : m.size < m.capacity :=
  Nat.lt_of_le_of_lt h.size_le h.growAt_lt

theorem mk'_wf (cap : Nat) {load : ℚ} (hlo : 1 / 8 ≤ load) (hhi : load < 1) :
    (mk' cap load : FlatMap64 V).WF := by
  unfold mk'
  set c := if cap < 8 then 8 else cap with hc
  have h8 : 8 ≤ c := by rw [hc]; split <;> omega
  obtain ⟨k, hk⟩ := nextPow2_pow c
  exact ⟨blank_core hk (le_trans h8 (le_nextPow2 c)) hlo hhi, Nat.zero_le _⟩

theorem mk'_binds (cap : Nat) (load : ℚ) (k : UInt64) (v : V) :
    ¬ (mk' cap load : FlatMap64 V).Binds k v := blank_binds _ _ k v

/-- `findSlot` returns; a key other than `kEmpty` is found exactly when it is stored. -/
theorem WF.findSlot_spec {m : FlatMap64 V} (h : m.WF) (key : UInt64) :
    (∃ i, m.findSlot key = some (some i) ∧ i < m.capacity ∧ (m.slot i).key = key) ∨
      m.findSlot key = some none ∧ key ≠ kEmpty ∧ ∀ v, ¬ m.Binds key v := by
  obtain ⟨p, hp, hlt, hor⟩ := h.probe_key h.size_lt key
    (fun s => s.key == key || s.key == kEmpty) (fun s => by simp)
  rcases hor with hkey | ⟨hemp, hno, -⟩
  · exact .inl ⟨p, by simp [findSlot, hp, hkey], hlt, hkey⟩
  · have hne : (m.slot p).key ≠ key := hno p hlt
    refine .inr ⟨by simp [findSlot, hp, hne], fun e => hne (by rw [hemp, e]), ?_⟩
    rintro v ⟨-, i, hi, e⟩
    exact hno i hi (by rw [e])

theorem WF.find_spec {m : FlatMap64 V} (h : m.WF) {key : UInt64} (hk : key ≠ kEmpty) :
    ∃ r, m.find key = some r ∧ ∀ v, r = some v ↔ m.Binds key v := by
  rcases h.findSlot_spec key with ⟨i, e, hi, hik⟩ | ⟨e, -, hno⟩
  · refine ⟨some (m.slot i).value, by simp [find, e], fun v => ⟨?_, fun hb => ?_⟩⟩
    · rintro ⟨⟩
      exact ⟨hk, i, hi, by rw [← hik]⟩
    · rw [h.binds_unique hb ⟨hk, i, hi, by rw [← hik]⟩]
  · exact ⟨none, by simp [find, e], fun v => ⟨by simp, fun hb => absurd hb (hno v)⟩⟩

theorem WF.contains_isSome {m : FlatMap64 V} (h : m.WF) (key : UInt64) :
    ∃ b, m.contains key = some b := by
  rcases h.findSlot_spec key with ⟨i, e, -, -⟩ | ⟨e, -, -⟩
  · exact ⟨true, by simp [contains, find, e]⟩
  · exact ⟨false, by simp [contains, find, e]⟩

/-- Overwriting the value of a slot keeps the keys in place. -/
theorem WF.write_spec {m : FlatMap64 V} (h : m.WF) {i : Nat} (hi : i < m.capacity) (v : V) :
    (m.write i v).WF ∧ (m.write i v).capacity = m.capacity ∧ (m.write i v).size = m.size ∧
      ∀ k w, (m.write i v).Binds k w ↔
        if k = (m.slot i).key then k ≠ kEmpty ∧ w = v else m.Binds k w := by
  have hslot : ∀ j, (m.write i v).slot j = if j = i then ⟨(m.slot i).key, v⟩ else m.slot j :=
    fun j => slot_set hi rfl
  have hcap : (m.write i v).capacity = m.capacity := List.length_set
  have hkeyAt : (m.write i v).keyAt = m.keyAt := by
    funext j
    unfold keyAt
    rw [hslot]
    split
    · next e => subst e; rfl
    · rfl
  have hkey : ∀ j, ((m.write i v).slot j).key = (m.slot j).key := fun j => by
    rw [hslot]
    split
    · next e => rw [e]
    · rfl
  have hocc : (m.write i v).occupied = m.occupied := by
    have := occupied_set (m.write i v) hi rfl
    simpa using this
  refine ⟨⟨⟨hcap ▸ h.pow, hcap ▸ h.cap_ge, hcap ▸ h.mask_eq, hocc ▸ h.size_eq, hcap ▸ h.growAt_eq,
    h.load_ge, h.load_lt, ?_, ?_⟩, h.size_le⟩, hcap, rfl, fun k w => ?_⟩
  · rw [hcap, hkeyAt]; exact h.probed
  · rw [hcap, hkeyAt]; exact h.distinct
  · unfold Binds
    rw [hcap]
    split
    · next e =>
      refine and_congr_right fun hk => ⟨?_, ?_⟩
      · rintro ⟨j, hj, ej⟩
        have : j = i := h.distinct j i k hj hi
          (keyAt_eq_some.2 ⟨by rw [← hkey, ej], hk⟩) (keyAt_eq_some.2 ⟨e.symm, hk⟩)
        rw [this, hslot, if_pos rfl] at ej
        exact (Slot.mk.injEq .. ▸ ej).2.symm
      · rintro rfl
        exact ⟨i, hi, by rw [hslot, if_pos rfl, e]⟩
    · next e =>
      refine and_congr_right fun hk => exists_congr fun j => and_congr_right fun hj => ?_
      rw [hslot]
      split
      · next ej =>
        subst ej
        constructor
        · intro e'; exact absurd (Slot.mk.injEq .. ▸ e').1.symm e
        · intro e'; exact absurd (by rw [e']) e
      · rfl

/-- After the growth step there is room for one more entry. -/
theorem WF.grow_spec {m : FlatMap64 V} (h : m.WF) :
    ∃ m', m.grow = some m' ∧ m'.WF ∧ m'.size + 1 ≤ m'.growAt ∧ m'.size = m.size ∧
      ∀ k v, m'.Binds k v ↔ m.Binds k v := by
  unfold grow
  split
  · obtain ⟨k, hk⟩ := h.pow
    have := h.cap_ge
    have hdouble : m.capacity * 2 = 2 ^ (k + 1) := by rw [hk, Nat.pow_succ]
    obtain ⟨m', e, h1, -, h3, h4, h5⟩ := h.rehash_spec hdouble (by omega)
    exact ⟨m', e, h1, h4, h3, h5⟩
  · exact ⟨m, rfl, h, by omega, rfl, fun _ _ => Iff.rfl⟩

/-- `try_emplace` returns. A stored key (or `kEmpty`) is found; a new key is bound to `V{}`. -/
theorem WF.tryEmplace_spec {m : FlatMap64 V} (h : m.WF) (key : UInt64) :
    ∃ m' i ins, m.tryEmplace key = some (m', i, ins) ∧ m'.WF ∧ i < m'.capacity ∧
      (m'.slot i).key = key ∧ m'.size = (if ins then m.size + 1 else m.size) ∧
      (key ≠ kEmpty → (ins = true ↔ ∀ v, ¬ m.Binds key v)) ∧
      (ins = true → key ≠ kEmpty ∧ (m'.slot i).value = default) ∧
      ∀ k v, m'.Binds k v ↔ m.Binds k v ∨ ins = true ∧ k = key ∧ v = default := by
  obtain ⟨m1, e1, hwf, hroom, hsz, hb1⟩ := h.grow_spec
  obtain ⟨p, hp, hlt, hor⟩ := hwf.probe_key hwf.size_lt key
    (fun s => s.key == key || s.key == kEmpty) (fun s => by simp)
  rcases hor with hkey | ⟨hemp, hno, hbefore⟩
  · refine ⟨m1, p, false, ?_, hwf, hlt, hkey, by simpa using hsz, fun hk => ?_, by simp,
      fun k v => by simp [hb1]⟩
    · simp [tryEmplace, e1, hp, hkey]
    · simp only [Bool.false_eq_true, false_iff, not_forall, not_not]
      exact ⟨_, (hb1 _ _).1 ⟨hk, p, hlt, by rw [← hkey]⟩⟩
  · have hne : (m1.slot p).key ≠ key := hno p hlt
    have hk : key ≠ kEmpty := fun e => hne (by rw [hemp, e])
    obtain ⟨hcore, hcap, hb⟩ := hwf.fill (s := ⟨key, default⟩) hlt hemp hk hno hbefore rfl
    refine ⟨_, p, true, ?_, ⟨hcore, hroom⟩, by rw [hcap]; exact hlt, ?_, by simp [hsz], fun _ => ?_,
      fun _ => ⟨hk, ?_⟩, fun k v => ?_⟩
    · simp [tryEmplace, e1, hp, hne]
    · rw [slot_set (m := m1) hlt rfl, if_pos rfl]
    · simp only [true_iff]
      intro v hv
      obtain ⟨-, i, hi, e⟩ := (hb1 _ _).2 hv
      exact hno i hi (by rw [e])
    · rw [slot_set (m := m1) hlt rfl, if_pos rfl]
    · rw [hb, hb1]; simp

theorem WF.insertOrAssign_spec {m : FlatMap64 V} (h : m.WF) (key : UInt64) (v : V) :
    ∃ m', m.insertOrAssign key v = some m' ∧ m'.WF ∧
      (key ≠ kEmpty → ((∃ w, m.Binds key w) → m'.size = m.size) ∧
        ((∀ w, ¬ m.Binds key w) → m'.size = m.size + 1)) ∧
      ∀ k w, m'.Binds k w ↔ if k = key then k ≠ kEmpty ∧ w = v else m.Binds k w := by
  obtain ⟨m1, i, ins, e, hwf, hi, hkey, hsz, hins, -, hb⟩ := h.tryEmplace_spec key
  obtain ⟨h1, -, h3, h4⟩ := hwf.write_spec hi v
  refine ⟨m1.write i v, by simp [insertOrAssign, e], h1, fun hk => ?_, fun k w => ?_⟩
  · rw [h3, hsz]
    refine ⟨fun ⟨w, hw⟩ => if_neg fun hc => (hins hk).1 hc w hw, fun hno => if_pos ((hins hk).2 hno)⟩
  · rw [h4, hkey]
    split
    · rfl
    · next hne => rw [hb]; simp [hne]

theorem WF.modify_spec {m : FlatMap64 V} (h : m.WF) (key : UInt64) (f : V → V) :
    ∃ m', m.modify key f = some m' ∧ m'.WF ∧ m'.size = m.size ∧ (key ≠ kEmpty →
      ∀ k w, m'.Binds k w ↔ if k = key then ∃ v, m.Binds key v ∧ w = f v else m.Binds k w) := by
  rcases h.findSlot_spec key with ⟨i, e, hi, hik⟩ | ⟨e, -, hno⟩
  · obtain ⟨h1, -, h3, h4⟩ := h.write_spec hi (f (m.slot i).value)
    refine ⟨_, by simp [modify, e], h1, h3, fun hk k w => ?_⟩
    have hbi : m.Binds key (m.slot i).value := ⟨hk, i, hi, by rw [← hik]⟩
    rw [h4, hik]
    split
    · next e' =>
      subst e'
      refine ⟨fun hw => ⟨_, hbi, hw.2⟩, ?_⟩
      rintro ⟨v, hv, rfl⟩
      exact ⟨hk, by rw [h.binds_unique hv hbi]⟩
    · rfl
  · refine ⟨m, by simp [modify, e], h, rfl, fun _ k w => ?_⟩
    split
    · next e' =>
      subst e'
      exact ⟨fun hw => absurd hw (hno w), fun ⟨v, hv, _⟩ => absurd hv (hno v)⟩
    · rfl

/-! ## Deletion -/

/-- `k` is stored with value `v` in a slot other than the hole. -/
def BindsOff (m : FlatMap64 V) (hole : Nat) (k : UInt64) (v : V) : Prop :=
  k ≠ kEmpty ∧ ∃ i < m.capacity, i ≠ hole ∧ m.slot i = ⟨k, v⟩

/-- The part of the invariant the shift loop relies on. -/
structure Shifting (m : FlatMap64 V) (hole j : Nat) : Prop where
  pow : ∃ k, m.capacity = 2 ^ k
  mask_eq : m.mask = m.capacity - 1
  hole : HoleAt m.capacity m.index m.keyAt hole j

theorem movable_iff (hole j ideal : Nat) :
    (if hole ≤ j then decide (ideal ≤ hole) || decide (ideal > j)
      else decide (ideal ≤ hole) && decide (ideal > j)) = true ↔ Movable hole j ideal := by
  unfold Movable
  split <;> simp

/-- What the shift loop leaves behind: the table without the hole's entry. -/
structure Shifted (m m' : FlatMap64 V) (hole : Nat) : Prop where
  capacity_eq : m'.capacity = m.capacity
  frame : m'.mask = m.mask ∧ m'.size = m.size ∧ m'.growAt = m.growAt ∧ m'.maxLoad = m.maxLoad
  probed : Probed m'.capacity m'.index m'.keyAt
  distinct : Distinct m'.capacity m'.keyAt
  occupied_eq : m'.occupied + 1 = m.occupied
  binds : ∀ k v, m'.Binds k v ↔ m.BindsOff hole k v

theorem Shifting.index_lt {m : FlatMap64 V} {hole j : Nat} (h : m.Shifting hole j) (k : UInt64) :
    m.index k < m.capacity := by
  have := h.hole.hole_lt
  unfold index
  rw [h.mask_eq]
  exact Nat.lt_of_le_of_lt Nat.and_le_right (by omega)

theorem Shifting.hole_key {m : FlatMap64 V} {hole j : Nat} (h : m.Shifting hole j) :
    (m.slot hole).key ≠ kEmpty := fun e =>
  h.hole.filled hole h.hole.hole_lt (by rw [dist_self]; omega) (keyAt_eq_none.2 e)

/-- The cluster ends after `j`: the hole becomes an empty slot. -/
theorem Shifting.close {m m' : FlatMap64 V} {hole j : Nat} (h : m.Shifting hole j)
    (hemp : (m.slot (next m.capacity j)).key = kEmpty)
    (hm' : m' = { m with slots := m.slots.set hole ⟨kEmpty, (m.slot hole).value⟩ }) :
    Shifted m m' hole := by
  subst hm'
  set m' : FlatMap64 V := { m with slots := m.slots.set hole ⟨kEmpty, (m.slot hole).value⟩ } with hm'
  have hhole := h.hole.hole_lt
  have hcap : m'.capacity = m.capacity := List.length_set
  have hslot : ∀ i, m'.slot i = if i = hole then ⟨kEmpty, (m.slot hole).value⟩ else m.slot i :=
    fun i => slot_set hhole rfl
  have hfin := h.hole.finish m'.keyAt h.index_lt (keyAt_eq_none.2 hemp)
    (keyAt_eq_none.2 (by rw [hslot, if_pos rfl]))
    (fun i _ hi => by unfold keyAt; rw [hslot, if_neg hi])
  refine ⟨hcap, ⟨rfl, rfl, rfl, rfl⟩, by rw [hcap]; exact hfin.1, by rw [hcap]; exact hfin.2,
    ?_, fun k v => ?_⟩
  · have := occupied_set m' hhole rfl
    rw [if_neg h.hole_key, if_pos rfl] at this
    exact this
  · unfold Binds BindsOff
    rw [hcap]
    refine and_congr_right fun hkk => exists_congr fun i => and_congr_right fun hi => ?_
    rw [hslot]
    by_cases hih : i = hole
    · rw [if_pos hih]
      exact ⟨fun e' => absurd (Slot.mk.injEq .. ▸ e').1.symm hkk, fun e' => absurd hih e'.1⟩
    · rw [if_neg hih]; exact ⟨fun e' => ⟨hih, e'⟩, fun e' => e'.2⟩

/-- The entry after `j` moved into the hole: shifting on from its old slot is shifting from here. -/
theorem Shifting.carry {m m1 m' : FlatMap64 V} {hole j : Nat} (h : m.Shifting hole j)
    (hne : next m.capacity j ≠ hole) (hk : (m.slot (next m.capacity j)).key ≠ kEmpty)
    (hm1 : m1 = { m with slots := m.slots.set hole (m.slot (next m.capacity j)) })
    (hs : Shifted m1 m' (next m.capacity j)) : Shifted m m' hole := by
  have hhole := h.hole.hole_lt
  have hcap : m1.capacity = m.capacity := by rw [hm1]; exact List.length_set
  have hslots : m1.slots = m.slots.set hole (m.slot (next m.capacity j)) := by rw [hm1]
  have hslot : ∀ i, m1.slot i = if i = hole then m.slot (next m.capacity j) else m.slot i :=
    fun i => slot_set hhole hslots
  obtain ⟨f1, f2, f3, f4⟩ := hs.frame
  refine ⟨hs.capacity_eq.trans hcap, ⟨by rw [f1, hm1], by rw [f2, hm1], by rw [f3, hm1],
    by rw [f4, hm1]⟩, hs.probed, hs.distinct, ?_, fun k v => ?_⟩
  · have := occupied_set m1 hhole hslots
    rw [if_neg h.hole_key, if_neg hk] at this
    rw [hs.occupied_eq]; omega
  · rw [hs.binds]
    unfold BindsOff
    rw [hcap]
    refine and_congr_right fun hkk => ⟨?_, ?_⟩
    · rintro ⟨i, hi, hij, ei⟩
      rw [hslot] at ei
      split at ei
      · exact ⟨next m.capacity j, next_lt h.hole.j_lt, hne, ei⟩
      · next hih => exact ⟨i, hi, hih, ei⟩
    · rintro ⟨i, hi, hih, ei⟩
      by_cases hij : i = next m.capacity j
      · subst hij
        exact ⟨hole, hhole, fun e' => hne e'.symm, by rw [hslot, if_pos rfl, ei]⟩
      · exact ⟨i, hi, hij, by rw [hslot, if_neg hih, ei]⟩

/-- The shift loop returns before it comes back to an empty slot `e`. -/
theorem shift_spec : ∀ (fuel : Nat) {m : FlatMap64 V} {hole j e : Nat}, m.Shifting hole j →
    e < m.capacity → (m.slot e).key = kEmpty → dist m.capacity j e ≤ fuel →
    ∃ m', m.shift fuel hole j = some m' ∧ Shifted m m' hole
  | 0, m, hole, j, e, h, he, hemp, hd => by
    have : j = e := dist_eq_zero h.hole.j_lt (Nat.le_zero.1 hd)
    subst this
    exact absurd (keyAt_eq_none.2 hemp) (h.hole.filled j he (Nat.le_refl _))
  | fuel + 1, m, hole, j, e, h, he, hemp, hd => by
    obtain ⟨k, hk⟩ := h.pow
    have hj := h.hole.j_lt
    have hne := h.hole.next_ne_hole ⟨e, he, keyAt_eq_none.2 hemp⟩
    have hje : j ≠ e := fun eq => h.hole.filled j hj (Nat.le_refl _) (keyAt_eq_none.2 (eq ▸ hemp))
    have hdn := dist_next_left hj he hje
    have hstep : (j + 1) &&& m.mask = next m.capacity j := by
      rw [h.mask_eq, next_eq_land hk hj]
    unfold shift
    simp only [hstep]
    by_cases hkj : (m.slot (next m.capacity j)).key = kEmpty
    · rw [if_pos (by simpa using hkj)]
      exact ⟨_, rfl, h.close hkj rfl⟩
    rw [if_neg (by simpa using hkj)]
    have hkeyAt : m.keyAt (next m.capacity j) = some (m.slot (next m.capacity j)).key :=
      keyAt_eq_some.2 ⟨rfl, hkj⟩
    by_cases hmov : Movable hole (next m.capacity j) (m.index (m.slot (next m.capacity j)).key)
    · rw [if_pos ((movable_iff _ _ _).2 hmov)]
      set m1 : FlatMap64 V :=
        { m with slots := m.slots.set hole (m.slot (next m.capacity j)) } with hm1
      have hcap : m1.capacity = m.capacity := List.length_set
      have hslot : ∀ i, m1.slot i = if i = hole then m.slot (next m.capacity j) else m.slot i :=
        fun i => slot_set h.hole.hole_lt rfl
      have hmove := h.hole.move m1.keyAt (h.index_lt _) hkeyAt hne hmov
        (keyAt_eq_some.2 ⟨by rw [hslot, if_pos rfl], hkj⟩)
        (fun i _ hi => by unfold keyAt; rw [hslot, if_neg hi])
      have heh : e ≠ hole := fun eq => h.hole_key (eq ▸ hemp)
      have hshift : m1.Shifting (next m.capacity j) (next m.capacity j) :=
        ⟨hcap ▸ h.pow, by rw [hcap]; exact h.mask_eq, by rw [hcap]; exact hmove⟩
      obtain ⟨m', e', hs⟩ := shift_spec fuel (e := e) hshift (by rw [hcap]; exact he)
        (by rw [hslot, if_neg heh]; exact hemp) (by rw [hcap]; omega)
      exact ⟨m', e', h.carry hne hkj rfl hs⟩
    · rw [if_neg (fun hc => hmov ((movable_iff _ _ _).1 hc))]
      exact shift_spec fuel ⟨⟨k, hk⟩, h.mask_eq, h.hole.stay (h.index_lt _) hkeyAt hne hmov⟩ he hemp
        (by omega)

/-- `erase` returns; it answers `true` exactly when the key was stored, and removes only it. -/
theorem WF.erase_spec {m : FlatMap64 V} (h : m.WF) (key : UInt64) :
    ∃ m' b, m.erase key = some (m', b) ∧ m'.WF ∧ (b = true ↔ ∃ v, m.Binds key v) ∧
      m'.size + (if b then 1 else 0) = m.size ∧
      ∀ k v, m'.Binds k v ↔ m.Binds k v ∧ (k = key → b = false) := by
  obtain ⟨p, hp, hlt, hor⟩ := h.probe_key h.size_lt key
    (fun s => s.key == kEmpty || s.key == key) (fun s => by simp; tauto)
  by_cases hemp : (m.slot p).key = kEmpty
  · refine ⟨m, false, by simp [erase, hp, hemp], h, ?_, by simp, by simp⟩
    simp only [Bool.false_eq_true, false_iff]
    rintro ⟨v, hk, i, hi, e⟩
    rcases hor with hkey | ⟨-, hno, -⟩
    · exact hk (by rw [← hkey, hemp])
    · exact hno i hi (by rw [e])
  · have hkey : (m.slot p).key = key := hor.resolve_right fun h' => hemp h'.1
    have hk : key ≠ kEmpty := fun e => hemp (by rw [hkey, e])
    have hpk : m.keyAt p = some key := keyAt_eq_some.2 ⟨hkey, hk⟩
    obtain ⟨e, he, hee⟩ := h.exists_empty h.size_lt
    have hshift : m.Shifting p p :=
      ⟨h.pow, h.mask_eq, HoleAt.start h.probed h.distinct hlt (by rw [hpk]; simp)⟩
    obtain ⟨m1, e1, hs⟩ := shift_spec m.capacity hshift he hee
      (Nat.le_of_lt (dist_lt hlt he))
    obtain ⟨hmask, hsize, hgrow, hload⟩ := hs.frame
    have hcap := hs.capacity_eq
    have hocc := hs.occupied_eq
    have hsz := h.size_eq
    have hle := h.size_le
    set m' : FlatMap64 V := { m1 with size := m1.size - 1 } with hm'
    have hwf : m'.WF := by
      refine ⟨⟨hcap ▸ h.pow, hcap ▸ h.cap_ge, ?_, ?_, ?_, ?_, ?_, hs.probed, hs.distinct⟩, ?_⟩
      · show m1.mask = m1.capacity - 1
        rw [hmask, hcap]; exact h.mask_eq
      · show m1.size - 1 = m1.occupied
        omega
      · show m1.growAt = ⌊(m1.capacity : ℚ) * m1.maxLoad⌋₊
        rw [hgrow, hcap, hload]; exact h.growAt_eq
      · show 1 / 8 ≤ m1.maxLoad
        rw [hload]; exact h.load_ge
      · show m1.maxLoad < 1
        rw [hload]; exact h.load_lt
      · show m1.size - 1 ≤ m1.growAt
        omega
    refine ⟨m', true, by simp [erase, hp, hemp, e1, hm'], hwf, ?_, ?_, fun k v => ?_⟩
    · simp only [true_iff]
      exact ⟨(m.slot p).value, hk, p, hlt, by rw [← hkey]⟩
    · show m1.size - 1 + 1 = m.size
      omega
    · show m1.Binds k v ↔ _
      rw [hs.binds]
      unfold BindsOff Binds
      constructor
      · rintro ⟨hkk, i, hi, hip, ei⟩
        refine ⟨⟨hkk, i, hi, ei⟩, fun ek => absurd ?_ hip⟩
        exact h.distinct i p k hi hlt (keyAt_eq_some.2 ⟨by rw [ei], hkk⟩)
          (keyAt_eq_some.2 ⟨by rw [hkey, ek], hkk⟩)
      · rintro ⟨⟨hkk, i, hi, ei⟩, himp⟩
        refine ⟨hkk, i, hi, fun eip => ?_, ei⟩
        have : k = key := by rw [← hkey, ← eip, ei]
        exact absurd (himp this) (by simp)

/-! ## Clearing and reserving -/

theorem WF.clear_spec {m : FlatMap64 V} (h : m.WF) :
    m.clear.WF ∧ m.clear.size = 0 ∧ ∀ k v, ¬ m.clear.Binds k v := by
  have hcap : m.clear.capacity = m.capacity := List.length_map _
  have hslot : ∀ i, (m.clear.slot i).key = kEmpty := fun i => by
    unfold slot clear
    rw [List.getD_eq_getElem?_getD, List.getElem?_map]
    cases m.slots[i]? <;> rfl
  have hnone : ∀ i k, m.clear.keyAt i ≠ some k := fun i k e => by
    rw [keyAt_eq_none.2 (hslot i)] at e; cases e
  refine ⟨⟨⟨hcap ▸ h.pow, hcap ▸ h.cap_ge, hcap ▸ h.mask_eq, ?_, hcap ▸ h.growAt_eq, h.load_ge,
    h.load_lt, fun i k _ e => absurd e (hnone i k), fun i j k _ _ e => absurd e (hnone i k)⟩,
    Nat.zero_le _⟩, rfl, ?_⟩
  · show 0 = m.clear.occupied
    unfold occupied clear
    rw [List.countP_map, eq_comm, List.countP_eq_zero]
    simp
  · rintro k v ⟨hk, i, -, e⟩
    exact hk (by rw [← hslot i, e])

theorem WF.reserve_spec {m : FlatMap64 V} (h : m.WF) (n : Nat) :
    ∃ m', m.reserve n = some m' ∧ m'.WF ∧ m'.size = m.size ∧ ∀ k v, m'.Binds k v ↔ m.Binds k v := by
  unfold reserve
  simp only
  split
  · next hgt =>
    obtain ⟨k, hk⟩ := nextPow2_pow (⌊roundDouble (roundDouble n / m.maxLoad)⌋₊ + 1)
    obtain ⟨m', e, h1, -, h3, -, h5⟩ := h.rehash_spec hk hgt
    exact ⟨m', e, h1, h3, h5⟩
  · exact ⟨m, rfl, h, rfl, fun _ _ => Iff.rfl⟩

end Stok.FlatMap64
