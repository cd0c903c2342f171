import Stok.Core.FlatMapInv

/-!
# `FlatMap64` refines a finite map

`toFinmap m` is the finite map a table stands for. `Op` are the calls a client
makes, `step` runs one of them on the table, and `Agrees` is what the same call
does on the finite map: every result and the next map. `run_refines` says that
a run from a fresh table of any capacity returns and agrees call by call.

`Table V` is a table with its invariant, with total operations for the modules
that keep one.
-/

namespace Stok

abbrev KeyMap (V : Type) := Finmap fun _ : UInt64 => V

namespace FlatMap64

variable {V : Type} [Inhabited V]

/-- The bindings of a table as a finite map. -/
def toFinmap (m : FlatMap64 V) : KeyMap V := (m.forEach.map fun p => ⟨p.1, p.2⟩ : List _).toFinmap

theorem mem_forEach {m : FlatMap64 V} {k : UInt64} {v : V} :
    (k, v) ∈ m.forEach ↔ m.Binds k v := by
  rw [binds_iff_mem, forEach, List.mem_map]
  constructor
  · rintro ⟨s, hs, e⟩
    rw [List.mem_filter] at hs
    cases e
    exact ⟨by simpa using hs.2, hs.1⟩
  · rintro ⟨hk, hm⟩
    exact ⟨⟨k, v⟩, List.mem_filter.2 ⟨hm, by simpa using hk⟩, rfl⟩

theorem Core.nodupKeys {m : FlatMap64 V} (h : m.Core) :
    (m.forEach.map fun p => (⟨p.1, p.2⟩ : Σ _ : UInt64, V)).NodupKeys := by
  rw [List.nodupKeys_iff_pairwise, forEach, List.map_map, List.pairwise_map, List.pairwise_filter]
  refine h.pairwise.imp fun hab ha _ => hab ?_
  simpa using ha

theorem Core.lookup_iff {m : FlatMap64 V} (h : m.Core) {k : UInt64} {v : V} :
    m.toFinmap.lookup k = some v ↔ m.Binds k v := by
  rw [toFinmap, Finmap.dlookup_list_toFinmap, ← mem_forEach]
  refine (List.mem_dlookup_iff h.nodupKeys).trans ?_
  simp

theorem Core.mem_toFinmap {m : FlatMap64 V} (h : m.Core) {k : UInt64} :
    k ∈ m.toFinmap ↔ ∃ v, m.Binds k v := by
  rw [Finmap.mem_iff]
  exact exists_congr fun v => h.lookup_iff

/-- Two tables with the same bindings stand for the same map. -/
theorem Core.toFinmap_eq {m : FlatMap64 V} (h : m.Core) {f : KeyMap V}
    (hb : ∀ k v, m.Binds k v ↔ f.lookup k = some v) : m.toFinmap = f :=
  Finmap.ext_lookup fun k => Option.ext fun v => h.lookup_iff.trans (hb k v)

/-- `for_each` visits the entries of the map, each once. -/
theorem Core.entries_eq {m : FlatMap64 V} (h : m.Core) :
    m.toFinmap.entries = ((m.forEach.map fun p => (⟨p.1, p.2⟩ : Σ _ : UInt64, V)) : Multiset _) := by
  unfold toFinmap
  have hd := h.nodupKeys
  revert hd
  generalize (m.forEach.map fun p => (⟨p.1, p.2⟩ : Σ _ : UInt64, V)) = l
  intro hd
  induction l with
  | nil => rfl
  | cons s l ih =>
    rw [List.nodupKeys_cons] at hd
    obtain ⟨k, v⟩ := s
    rw [Finmap.toFinmap_cons, Finmap.entries_insert_of_notMem, ih hd.2, Multiset.cons_coe]
    rw [Finmap.mem_list_toFinmap]
    rintro ⟨w, hw⟩
    exact hd.1 (List.mem_keys.2 ⟨w, hw⟩)

theorem Core.size_eq_card {m : FlatMap64 V} (h : m.Core) : m.size = m.toFinmap.keys.card := by
  have hc : m.toFinmap.keys.card = m.toFinmap.entries.card := by
    show (m.toFinmap.entries.map Sigma.fst).card = _
    exact Multiset.card_map _ _
  rw [hc, h.entries_eq, Multiset.coe_card, List.length_map, forEach, List.length_map, h.size_eq,
    occupied, List.countP_eq_length_filter]

/-! ## Calls, results and the finite-map specification -/

/-- The calls of a client. -/
inductive Op (V : Type) where
  | find (key : UInt64)
  | contains (key : UInt64)
  | tryEmplace (key : UInt64)
  | insertOrAssign (key : UInt64) (v : V)
  | erase (key : UInt64)
  | clear
  | reserve (n : Nat)
  | forEach
  | size

/-- The key a call is about. -/
def Op.key? : Op V → Option UInt64
  | .find k | .contains k | .tryEmplace k | .insertOrAssign k _ | .erase k => some k
  | .clear | .reserve _ | .forEach | .size => none

/-- What a call answers. A returned pointer answers with the value it points to. -/
inductive Res (V : Type) where
  | found (v : Option V)
  | flag (b : Bool)
  | emplaced (v : V) (inserted : Bool)
  | visited (l : List (UInt64 × V))
  | count (n : Nat)
  | done
  deriving DecidableEq

def step (m : FlatMap64 V) : Op V → Option (Res V × FlatMap64 V)
  | .find k => do return (.found (← m.find k), m)
  | .contains k => do return (.flag (← m.contains k), m)
  | .tryEmplace k => do
    let (m, i, inserted) ← m.tryEmplace k
    return (.emplaced (m.slot i).value inserted, m)
  | .insertOrAssign k v => do return (.found (some v), ← m.insertOrAssign k v)
  | .erase k => do
    let (m, b) ← m.erase k
    return (.flag b, m)
  | .clear => some (.done, m.clear)
  | .reserve n => do return (.done, ← m.reserve n)
  | .forEach => some (.visited m.forEach, m)
  | .size => some (.count m.size, m)

def run (m : FlatMap64 V) : List (Op V) → Option (List (Res V) × FlatMap64 V)
  | [] => some ([], m)
  | op :: ops => do
    let (r, m) ← m.step op
    let (rs, m) ← m.run ops
    return (r :: rs, m)

/-- The same call on a finite map: the answer and the next map. -/
def Agrees (f : KeyMap V) : Op V → Res V → KeyMap V → Prop
  | .find k, r, f' => r = .found (f.lookup k) ∧ f' = f
  | .contains k, r, f' => r = .flag (decide (k ∈ f)) ∧ f' = f
  | .tryEmplace k, r, f' =>
    match f.lookup k with
    | some v => r = .emplaced v false ∧ f' = f
    | none => r = .emplaced default true ∧ f' = f.insert k default
  | .insertOrAssign k v, r, f' => r = .found (some v) ∧ f' = f.insert k v
  | .erase k, r, f' => r = .flag (decide (k ∈ f)) ∧ f' = f.erase k
  | .clear, r, f' => r = .done ∧ f' = ∅
  | .reserve _, r, f' => r = .done ∧ f' = f
  | .forEach, r, f' => f' = f ∧ ∃ l, r = .visited l ∧
      ((l.map fun p => (⟨p.1, p.2⟩ : Σ _ : UInt64, V)) : Multiset _) = f.entries
  | .size, r, f' => r = .count f.keys.card ∧ f' = f

/-- A run of calls on a finite map. -/
inductive SpecRun : KeyMap V → List (Op V) → List (Res V) → KeyMap V → Prop where
  | nil (f : KeyMap V) : SpecRun f [] [] f
  | cons {f f' f'' : KeyMap V} {op : Op V} {r : Res V} {ops : List (Op V)} {rs : List (Res V)} :
      Agrees f op r f' → SpecRun f' ops rs f'' → SpecRun f (op :: ops) (r :: rs) f''

omit [Inhabited V] in
theorem lookup_insert_iff {f : KeyMap V} {k key : UInt64} {v w : V} :
    (f.insert key v).lookup k = some w ↔ if k = key then w = v else f.lookup k = some w := by
  split
  · next e => subst e; rw [Finmap.lookup_insert, Option.some.injEq, eq_comm]
  · next e => rw [Finmap.lookup_insert_of_ne f e]

theorem WF.find_eq_lookup {m : FlatMap64 V} (h : m.WF) {k : UInt64} (hk : k ≠ kEmpty) :
    m.find k = some (m.toFinmap.lookup k) := by
  obtain ⟨r, e, hr⟩ := h.find_spec hk
  rw [e, Option.some.injEq]
  exact Option.ext fun v => (hr v).trans h.lookup_iff.symm

theorem WF.insertOrAssign_toFinmap {m : FlatMap64 V} (h : m.WF) {k : UInt64} (hk : k ≠ kEmpty)
    (v : V) : ∃ m', m.insertOrAssign k v = some m' ∧ m'.WF ∧
      m'.toFinmap = m.toFinmap.insert k v := by
  obtain ⟨m', e, h1, -, hb⟩ := h.insertOrAssign_spec k v
  refine ⟨m', e, h1, h1.toFinmap_eq fun q w => ?_⟩
  rw [hb, lookup_insert_iff]
  split
  · next eq => subst eq; simp [hk]
  · exact h.lookup_iff.symm

theorem WF.erase_toFinmap {m : FlatMap64 V} (h : m.WF) (k : UInt64) :
    ∃ m', m.erase k = some (m', decide (k ∈ m.toFinmap)) ∧ m'.WF ∧
      m'.toFinmap = m.toFinmap.erase k := by
  obtain ⟨m', b, e, h1, hbt, -, hb⟩ := h.erase_spec k
  have hbd : b = decide (k ∈ m.toFinmap) := by
    rw [← h.mem_toFinmap] at hbt
    cases b <;> simp_all
  refine ⟨m', by rw [e, hbd], h1, h1.toFinmap_eq fun q w => ?_⟩
  rw [hb]
  by_cases eq : q = k
  · subst eq
    rw [Finmap.lookup_erase]
    refine ⟨fun hw => ?_, by simp⟩
    have : b = true := hbt.2 ⟨w, hw.1⟩
    rw [hw.2 rfl] at this
    cases this
  · rw [Finmap.lookup_erase_ne eq, h.lookup_iff]
    simp [eq]

/-- One call returns, keeps the invariant and agrees with the finite map. -/
theorem WF.step_agrees {m : FlatMap64 V} (h : m.WF) (op : Op V) (hk : op.key? ≠ some kEmpty) :
    ∃ r m', m.step op = some (r, m') ∧ m'.WF ∧ Agrees m.toFinmap op r m'.toFinmap := by
  cases op with
  | find k =>
    have hk : k ≠ kEmpty := fun e => hk (by rw [e]; rfl)
    exact ⟨_, m, by simp [step, h.find_eq_lookup hk], h, rfl, rfl⟩
  | contains k =>
    have hk : k ≠ kEmpty := fun e => hk (by rw [e]; rfl)
    refine ⟨.flag (m.toFinmap.lookup k).isSome, m, by simp [step, contains, h.find_eq_lookup hk], h,
      ?_, rfl⟩
    congr 1
    rw [Bool.eq_iff_iff, decide_eq_true_iff, Finmap.lookup_isSome]
  | tryEmplace k =>
    have hk : k ≠ kEmpty := fun e => hk (by rw [e]; rfl)
    obtain ⟨m', i, ins, e, hwf, hi, hkey, -, hins, hdef, hb⟩ := h.tryEmplace_spec k
    refine ⟨.emplaced (m'.slot i).value ins, m', by simp [step, e], hwf, ?_⟩
    have hbi : m'.Binds k (m'.slot i).value := ⟨hk, i, hi, by rw [← hkey]⟩
    cases ins with
    | true =>
      have hnone : m.toFinmap.lookup k = none := by
        rw [Finmap.lookup_eq_none, h.mem_toFinmap]
        rintro ⟨v, hv⟩
        exact (hins hk).1 rfl v hv
      simp only [Agrees, hnone, (hdef rfl).2, true_and]
      refine hwf.toFinmap_eq fun q w => ?_
      rw [hb, lookup_insert_iff]
      split
      · next eq =>
        subst eq
        have := (hins hk).1 rfl w
        simp [this]
      · next eq => simp [eq, h.lookup_iff]
    | false =>
      simp only [Bool.false_eq_true, false_and, or_false] at hb
      have hsome : m.toFinmap.lookup k = some (m'.slot i).value :=
        h.lookup_iff.2 ((hb _ _).1 hbi)
      simp only [Agrees, hsome, true_and]
      exact hwf.toFinmap_eq fun q w => (hb q w).trans h.lookup_iff.symm
  | insertOrAssign k v =>
    have hk : k ≠ kEmpty := fun e => hk (by rw [e]; rfl)
    obtain ⟨m', e, h1, h2⟩ := h.insertOrAssign_toFinmap hk v
    exact ⟨_, m', by simp [step, e], h1, rfl, h2⟩
  | erase k =>
    obtain ⟨m', e, h1, h2⟩ := h.erase_toFinmap k
    exact ⟨_, m', by simp [step, e], h1, rfl, h2⟩
  | clear =>
    obtain ⟨h1, -, h3⟩ := h.clear_spec
    exact ⟨_, m.clear, rfl, h1, rfl, h1.toFinmap_eq fun q w => by simp [h3]⟩
  | reserve n =>
    obtain ⟨m', e, h1, -, h3⟩ := h.reserve_spec n
    exact ⟨_, m', by simp [step, e], h1, rfl,
      h1.toFinmap_eq fun q w => (h3 q w).trans h.lookup_iff.symm⟩
  | forEach => exact ⟨_, m, rfl, h, rfl, _, rfl, h.entries_eq.symm⟩
  | size => exact ⟨_, m, rfl, h, by rw [h.size_eq_card], rfl⟩

theorem WF.run_agrees : ∀ (ops : List (Op V)) {m : FlatMap64 V}, m.WF →
    (∀ op ∈ ops, op.key? ≠ some kEmpty) →
    ∃ rs m', m.run ops = some (rs, m') ∧ m'.WF ∧ SpecRun m.toFinmap ops rs m'.toFinmap
  | [], m, h, _ => ⟨[], m, rfl, h, .nil _⟩
  | op :: ops, m, h, hk => by
    obtain ⟨r, m1, e1, h1, ha⟩ := h.step_agrees op (hk op List.mem_cons_self)
    obtain ⟨rs, m', e2, h2, hr⟩ := run_agrees ops h1 fun o ho => hk o (List.mem_cons_of_mem _ ho)
    exact ⟨r :: rs, m', by simp [run, e1, e2], h2, .cons ha hr⟩

theorem defaultLoad_bounds : 1 / 8 ≤ defaultLoad ∧ defaultLoad < 1 := by
  unfold defaultLoad; norm_num

theorem mk'_toFinmap (cap : Nat) {load : ℚ} (hlo : 1 / 8 ≤ load) (hhi : load < 1) :
    (mk' cap load : FlatMap64 V).toFinmap = ∅ :=
  (mk'_wf cap hlo hhi).toFinmap_eq fun k v => by simp [mk'_binds]

/-- From a fresh table of any capacity every run of calls returns, answers as the
finite map does, and ends with an empty slot on which every probe loop stops. -/
theorem run_refines (cap : Nat) (ops : List (Op V)) (hk : ∀ op ∈ ops, op.key? ≠ some kEmpty) :
    ∃ rs m, (mk' cap : FlatMap64 V).run ops = some (rs, m) ∧ SpecRun ∅ ops rs m.toFinmap ∧
      (∃ i < m.capacity, (m.slot i).key = kEmpty) ∧
      ∀ (stop : Slot V → Bool) (i : Nat), (∀ s : Slot V, s.key = kEmpty → stop s = true) →
        i < m.capacity → (m.probe stop m.capacity i).isSome = true := by
  obtain ⟨hlo, hhi⟩ := defaultLoad_bounds
  obtain ⟨rs, m, e, h, hr⟩ := (mk'_wf (V := V) cap hlo hhi).run_agrees ops hk
  rw [mk'_toFinmap cap hlo hhi] at hr
  refine ⟨rs, m, e, hr, h.exists_empty h.size_lt, fun stop i hstop hi => ?_⟩
  obtain ⟨p, hp, -⟩ := h.probe_spec h.size_lt _ hstop hi
  rw [hp]; rfl

/-- The run behind the churn test: two keys of one bucket and a deletion between them. -/
theorem run_refines_churn :
    ∃ rs m, (mk' 8 : FlatMap64 Nat).run
        [.insertOrAssign 4 40, .insertOrAssign 5 50, .erase 4, .find 5, .tryEmplace 4, .size] =
          some (rs, m) ∧
      SpecRun ∅ [.insertOrAssign 4 40, .insertOrAssign 5 50, .erase 4, .find 5, .tryEmplace 4, .size]
        rs m.toFinmap :=
  let ⟨rs, m, e, hr, _⟩ := run_refines (V := Nat) 8
    [.insertOrAssign 4 40, .insertOrAssign 5 50, .erase 4, .find 5, .tryEmplace 4, .size]
    (by decide)
  ⟨rs, m, e, hr⟩

end FlatMap64

/-! ## Tables with their invariant -/

/-- A table that satisfies its invariant. -/
structure Table (V : Type) [Inhabited V] extends FlatMap64 V where
  wf : toFlatMap64.WF

namespace Table

variable {V : Type} [Inhabited V]

/-- The finite map a table stands for. -/
abbrev map (t : Table V) : KeyMap V := t.toFlatMap64.toFinmap

def new (cap : Nat) (load : ℚ) (h : 1 / 8 ≤ load ∧ load < 1) : Table V :=
  ⟨.mk' cap load, FlatMap64.mk'_wf cap h.1 h.2⟩

@[simp] theorem map_new (cap : Nat) (load : ℚ) (h : 1 / 8 ≤ load ∧ load < 1) :
    (new cap load h : Table V).map = ∅ := FlatMap64.mk'_toFinmap cap h.1 h.2

def clear (t : Table V) : Table V := ⟨t.toFlatMap64.clear, t.wf.clear_spec.1⟩

@[simp] theorem map_clear (t : Table V) : t.clear.map = ∅ := by
  obtain ⟨hwf, -, hnone⟩ := t.wf.clear_spec
  refine hwf.toFinmap_eq fun k v => ?_
  rw [Finmap.lookup_empty]
  exact ⟨fun h => absurd h (hnone k v), nofun⟩

theorem find_isSome (t : Table V) (k : UInt64) : (t.toFlatMap64.find k).isSome = true := by
  rcases t.wf.findSlot_spec k with ⟨i, e, -, -⟩ | ⟨e, -, -⟩ <;> simp [FlatMap64.find, e]

def find (t : Table V) (k : UInt64) : Option V := (t.toFlatMap64.find k).get (t.find_isSome k)

theorem find_eq (t : Table V) {k : UInt64} (hk : k ≠ kEmpty) : t.find k = t.map.lookup k := by
  unfold find
  simp only [t.wf.find_eq_lookup hk, Option.get_some]

def contains (t : Table V) (k : UInt64) : Bool := (t.find k).isSome

theorem tryEmplace_isSome (t : Table V) (k : UInt64) :
    (t.toFlatMap64.tryEmplace k).isSome = true := by
  obtain ⟨m', i, ins, e, -⟩ := t.wf.tryEmplace_spec k
  rw [e]; rfl

/-- The table, the value pointed to and whether it was inserted. -/
def tryEmplace (t : Table V) (k : UInt64) : Table V × V × Bool :=
  let r := (t.toFlatMap64.tryEmplace k).get (t.tryEmplace_isSome k)
  (⟨r.1, by
    obtain ⟨m', i, ins, e, h, -⟩ := t.wf.tryEmplace_spec k
    simp only [r, e, Option.get_some]
    exact h⟩, (r.1.slot r.2.1).value, r.2.2)

theorem mem_map_tryEmplace (t : Table V) (k q : UInt64) :
    q ∈ (t.tryEmplace k).1.map ↔ q ∈ t.map ∨ q = k ∧ k ≠ kEmpty := by
  obtain ⟨m', i, ins, e, h, -, -, -, hins, hdef, hb⟩ := t.wf.tryEmplace_spec k
  have hm : (t.tryEmplace k).1.map = m'.toFinmap := by
    unfold tryEmplace map
    simp only [e, Option.get_some]
  rw [hm, h.mem_toFinmap, t.wf.mem_toFinmap]
  simp only [hb]
  constructor
  · rintro ⟨v, hv | ⟨hi, rfl, rfl⟩⟩
    · exact .inl ⟨v, hv⟩
    · exact .inr ⟨rfl, (hdef hi).1⟩
  · rintro (⟨v, hv⟩ | ⟨rfl, hk⟩)
    · exact ⟨v, .inl hv⟩
    · by_cases hi : ins = true
      · exact ⟨default, .inr ⟨hi, rfl, rfl⟩⟩
      · rw [hins hk] at hi
        push Not at hi
        obtain ⟨v, hv⟩ := hi
        exact ⟨v, .inl hv⟩

/-- What `try_emplace` answers, and the map after it. -/
theorem tryEmplace_cases (t : Table V) {k : UInt64} (hk : k ≠ kEmpty) :
    (∃ v, t.map.lookup k = some v ∧ (t.tryEmplace k).2 = (v, false) ∧
        (t.tryEmplace k).1.map = t.map) ∨
      (t.map.lookup k = none ∧ (t.tryEmplace k).2 = (default, true) ∧
        (t.tryEmplace k).1.map = t.map.insert k default) := by
  obtain ⟨m', i, ins, e, -⟩ := t.wf.tryEmplace_spec k
  obtain ⟨r, m₂, hstep, -, hagree⟩ := t.wf.step_agrees (.tryEmplace k) (by simpa [FlatMap64.Op.key?])
  have hr : r = .emplaced (m'.slot i).value ins ∧ m₂ = m' := by
    simp only [FlatMap64.step, e, Option.bind_eq_bind, Option.bind_some] at hstep
    cases hstep
    exact ⟨rfl, rfl⟩
  obtain ⟨rfl, rfl⟩ := hr
  have hres : (t.tryEmplace k).2 = ((m₂.slot i).value, ins) ∧ (t.tryEmplace k).1.map = m₂.toFinmap := by
    unfold tryEmplace map
    simp only [e, Option.get_some, and_self]
  rw [hres.1, hres.2]
  cases hl : t.map.lookup k with
  | some v =>
    simp only [FlatMap64.Agrees, hl] at hagree
    obtain ⟨hr, hm⟩ := hagree
    simp only [FlatMap64.Res.emplaced.injEq] at hr
    exact .inl ⟨v, rfl, by rw [hr.1, hr.2], hm⟩
  | none =>
    simp only [FlatMap64.Agrees, hl] at hagree
    obtain ⟨hr, hm⟩ := hagree
    simp only [FlatMap64.Res.emplaced.injEq] at hr
    exact .inr ⟨rfl, by rw [hr.1, hr.2], hm⟩

/-- A key that is not contained is neither bound nor the reserved one. -/
theorem contains_eq_false {t : Table V} {k : UInt64} :
    t.contains k = false ↔ k ≠ kEmpty ∧ k ∉ t.map := by
  unfold contains
  rcases eq_or_ne k kEmpty with rfl | hk
  · have hf : (t.find kEmpty).isSome = true := by
      unfold find
      rcases t.wf.findSlot_spec kEmpty with ⟨i, e, -, -⟩ | ⟨-, hne, -⟩
      · simp [FlatMap64.find, e]
      · exact absurd rfl hne
    simp [hf]
  · rw [t.find_eq hk, Option.isSome_eq_false_iff, Option.isNone_iff_eq_none, Finmap.lookup_eq_none]
    simp [hk]

theorem insertOrAssign_isSome (t : Table V) (k : UInt64) (v : V) :
    (t.toFlatMap64.insertOrAssign k v).isSome = true := by
  obtain ⟨m', e, -⟩ := t.wf.insertOrAssign_spec k v
  rw [e]; rfl

def insertOrAssign (t : Table V) (k : UInt64) (v : V) : Table V :=
  ⟨(t.toFlatMap64.insertOrAssign k v).get (t.insertOrAssign_isSome k v), by
    obtain ⟨m', e, h, -⟩ := t.wf.insertOrAssign_spec k v
    simp only [e, Option.get_some]
    exact h⟩

theorem map_insertOrAssign (t : Table V) {k : UInt64} (hk : k ≠ kEmpty) (v : V) :
    (t.insertOrAssign k v).map = t.map.insert k v := by
  obtain ⟨m', e, -, h⟩ := t.wf.insertOrAssign_toFinmap hk v
  unfold insertOrAssign map
  simp only [e, Option.get_some]
  exact h

theorem erase_isSome (t : Table V) (k : UInt64) : (t.toFlatMap64.erase k).isSome = true := by
  obtain ⟨m', e, -⟩ := t.wf.erase_toFinmap k
  rw [e]; rfl

def erase (t : Table V) (k : UInt64) : Table V :=
  ⟨((t.toFlatMap64.erase k).get (t.erase_isSome k)).1, by
    obtain ⟨m', e, h, -⟩ := t.wf.erase_toFinmap k
    simp only [e, Option.get_some]
    exact h⟩

theorem map_erase (t : Table V) (k : UInt64) : (t.erase k).map = t.map.erase k := by
  obtain ⟨m', e, -, h⟩ := t.wf.erase_toFinmap k
  unfold erase map
  simp only [e, Option.get_some]
  exact h

theorem modify_isSome (t : Table V) (k : UInt64) (f : V → V) :
    (t.toFlatMap64.modify k f).isSome = true := by
  obtain ⟨m', e, -⟩ := t.wf.modify_spec k f
  rw [e]; rfl

/-- Write through the pointer that `find` returns. -/
def modify (t : Table V) (k : UInt64) (f : V → V) : Table V :=
  ⟨(t.toFlatMap64.modify k f).get (t.modify_isSome k f), by
    obtain ⟨m', e, h, -⟩ := t.wf.modify_spec k f
    simp only [e, Option.get_some]
    exact h⟩

theorem map_modify (t : Table V) {k : UInt64} (hk : k ≠ kEmpty) {v : V}
    (hv : t.map.lookup k = some v) (f : V → V) : (t.modify k f).map = t.map.insert k (f v) := by
  obtain ⟨m', e, h, -, hb⟩ := t.wf.modify_spec k f
  have hbind := t.wf.lookup_iff.1 hv
  unfold modify map
  simp only [e, Option.get_some]
  refine h.toFinmap_eq fun q w => ?_
  rw [hb hk, FlatMap64.lookup_insert_iff]
  split
  · refine ⟨?_, fun hw => ⟨v, hbind, hw⟩⟩
    rintro ⟨v', hv', rfl⟩
    rw [t.wf.binds_unique hv' hbind]
  · exact t.wf.lookup_iff.symm

/-- `try_emplace` followed by an assignment through the pointer. -/
theorem map_assign (t : Table V) {k : UInt64} (hk : k ≠ kEmpty) (v : V) :
    ((t.tryEmplace k).1.modify k fun _ => v).map = t.map.insert k v := by
  rcases t.tryEmplace_cases hk with ⟨w, hw, -, hm⟩ | ⟨-, -, hm⟩
  · rw [map_modify _ hk (by rw [hm]; exact hw), hm]
  · rw [map_modify _ hk (by rw [hm]; exact Finmap.lookup_insert _), hm, Finmap.insert_insert]

end Table

/-! ## Sums over a finite map -/

namespace KeyMap

variable {V : Type}

/-- The sum of a weight over the bound values. -/
def sum (f : KeyMap V) (w : V → Nat) : Nat := (f.entries.map fun e => w e.2).sum

@[simp] theorem sum_empty (w : V → Nat) : sum (∅ : KeyMap V) w = 0 := rfl

theorem insert_erase (f : KeyMap V) (k : UInt64) (v : V) : (f.erase k).insert k v = f.insert k v := by
  refine Finmap.ext_lookup fun q => ?_
  rcases eq_or_ne q k with rfl | hne
  · rw [Finmap.lookup_insert, Finmap.lookup_insert]
  · rw [Finmap.lookup_insert_of_ne _ hne, Finmap.lookup_insert_of_ne _ hne,
      Finmap.lookup_erase_ne hne]

theorem sum_insert (f : KeyMap V) (k : UInt64) (v : V) (w : V → Nat) :
    sum (f.insert k v) w = w v + sum (f.erase k) w := by
  rw [← insert_erase, sum, Finmap.entries_insert_of_notMem (Finmap.notMem_erase_self), sum]
  simp

theorem sum_of_lookup {f : KeyMap V} {k : UInt64} {v : V} (h : f.lookup k = some v) (w : V → Nat) :
    sum f w = w v + sum (f.erase k) w := by
  rw [← sum_insert]
  congr 1
  refine Finmap.ext_lookup fun q => ?_
  rcases eq_or_ne q k with rfl | hne
  · rw [Finmap.lookup_insert, h]
  · rw [Finmap.lookup_insert_of_ne _ hne]

theorem sum_insert_of_none {f : KeyMap V} {k : UInt64} (h : f.lookup k = none) (v : V)
    (w : V → Nat) : sum (f.insert k v) w = w v + sum f w := by
  rw [sum, Finmap.entries_insert_of_notMem (Finmap.lookup_eq_none.1 h), sum]
  simp

/-- Weights that agree on the bound values have the same sum. -/
theorem sum_congr {f : KeyMap V} {w w' : V → Nat} (h : ∀ k v, f.lookup k = some v → w v = w' v) :
    sum f w = sum f w' := by
  unfold sum
  congr 1
  refine Multiset.map_congr rfl fun e he => ?_
  exact h e.1 e.2 (Finmap.lookup_eq_some_iff.2 he)

end KeyMap

end Stok
