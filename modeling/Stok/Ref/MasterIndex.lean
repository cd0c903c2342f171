import Stok.Ref.Master

/-!
# The indexes of the master agree with the table

The tickers, the keys and the issuers of a table have an index each. A step keeps an index right
when what it writes there does not belong to another symbol (`Clean`); the loaders do not check
this. `Consistent` is kept by every clean step, and gives `Agrees`, what the readers of the table
rely on.
-/

namespace Stok.Master

open SymbolTable (kInvalid normChar)

/-! ## One index at a time -/

/-- A ticker that `find` can find. -/
structure Spelled (names : Bytes → Prop) (x : Bytes) : Prop where
  ne_nil : x ≠ []
  length_le : x.length ≤ 32
  trim_eq : trim x = x
  known : names (normalize x)

theorem Spelled.normalize_eq {names : Bytes → Prop} {x : Bytes} (h : Spelled names x) :
    normalize x = x.map normChar := by
  rw [normalize, h.trim_eq]

structure TickerIndex (names : Bytes → Prop) (ts : List Bytes) (t : Table UInt32) : Prop where
  spelled : ∀ x ∈ ts, Spelled names x
  lookup : ∀ (i : Nat) (x : Bytes), ts[i]? = some x → t.map.lookup (hashBytes (normalize x)) = some (.ofNat i)
  valid : ∀ h v, t.map.lookup h = some v → v.toNat < ts.length

def KeyIndex (ks : List UInt64) (t : Table UInt32) : Prop :=
  ∀ (i : Nat) (k : UInt64), ks[i]? = some k → k ≠ kEmpty ∧ t.map.lookup k = some (.ofNat i)

def CikIndex (cs : List UInt32) (f : UInt32 → List UInt32) : Prop :=
  ∀ cik, cik ≠ 0 → (f cik).Nodup ∧ ∀ id : UInt32, id ∈ f cik ↔ cs[id.toNat]? = some cik

variable {names : Bytes → Prop} {ts : List Bytes} {ks : List UInt64} {cs : List UInt32} {t : Table UInt32}
  {f : UInt32 → List UInt32}

theorem getElem?_concat {α : Type} {l : List α} {a b : α} {i : Nat} (h : (l ++ [a])[i]? = some b) :
    l[i]? = some b ∨ i = l.length ∧ b = a := by
  rcases Nat.lt_trichotomy i l.length with hi | rfl | hi
  · rw [List.getElem?_append_left hi] at h
    exact .inl h
  · rw [List.getElem?_append_right (le_refl _), Nat.sub_self] at h
    exact .inr ⟨rfl, (Option.some.inj h).symm⟩
  · rw [List.getElem?_append_right hi.le, List.getElem?_singleton, if_neg (by omega)] at h
    cases h

theorem toNat_ofNat {n : Nat} (h : n < 2 ^ 32) : (UInt32.ofNat n).toNat = n := UInt32.toNat_ofNat_of_lt' h

theorem TickerIndex.insert (h : TickerIndex names ts t) (hh : HashApart names) {a : Bytes} {id : UInt32}
    (ha : names (normalize a)) (hid : id.toNat < ts.length)
    (hother : ∀ (i : Nat) (x : Bytes), ts[i]? = some x → normalize x = normalize a → .ofNat i = id) :
    TickerIndex names ts (t.insertOrAssign (hashBytes (normalize a)) id) := by
  have hmap := t.map_insertOrAssign (hh.ne_empty _ ha) id
  refine ⟨h.spelled, fun i x hx => ?_, fun k v hv => ?_⟩
  · rw [hmap]
    by_cases heq : normalize x = normalize a
    · rw [heq, Finmap.lookup_insert, hother i x hx heq]
    · have hkey : hashBytes (normalize x) ≠ hashBytes (normalize a) := fun he =>
        heq (hh.inj _ _ (h.spelled x (List.mem_of_getElem? hx)).known ha he)
      rw [Finmap.lookup_insert_of_ne _ hkey]
      exact h.lookup i x hx
  · rw [hmap, FlatMap64.lookup_insert_iff] at hv
    split at hv
    · rwa [hv]
    · exact h.valid k v hv

theorem TickerIndex.push (h : TickerIndex names ts t) (hh : HashApart names) {a : Bytes} (ha : Spelled names a)
    (hsize : ts.length < 2 ^ 32) (hnew : ∀ x ∈ ts, normalize x ≠ normalize a) :
    TickerIndex names (ts ++ [a]) (t.insertOrAssign (hashBytes (normalize a)) (.ofNat ts.length)) := by
  have hmap := t.map_insertOrAssign (hh.ne_empty _ ha.known) (.ofNat ts.length)
  refine ⟨fun x hx => ?_, fun i x hx => ?_, fun k v hv => ?_⟩
  · rcases List.mem_append.mp hx with hx | hx
    · exact h.spelled x hx
    · rwa [List.mem_singleton.mp hx]
  · rw [hmap]
    rcases getElem?_concat hx with hx | ⟨rfl, rfl⟩
    · have hmem := List.mem_of_getElem? hx
      have hkey : hashBytes (normalize x) ≠ hashBytes (normalize a) := fun he =>
        hnew x hmem (hh.inj _ _ (h.spelled x hmem).known ha.known he)
      rw [Finmap.lookup_insert_of_ne _ hkey]
      exact h.lookup i x hx
    · rw [Finmap.lookup_insert]
  · rw [hmap, FlatMap64.lookup_insert_iff] at hv
    rw [List.length_append, List.length_singleton]
    split at hv
    · rw [hv, toNat_ofNat hsize]
      omega
    · have := h.valid k v hv
      omega

theorem KeyIndex.set (h : KeyIndex ks t) {k : UInt64} {id : UInt32} (hk : k ≠ kEmpty)
    (hother : ∀ i : Nat, ks[i]? = some k → .ofNat i = id) :
    KeyIndex (ks.set id.toNat k) (t.insertOrAssign k id) := by
  intro i x hx
  rw [t.map_insertOrAssign hk]
  rw [List.getElem?_set] at hx
  split at hx
  · rename_i hi
    split at hx
    · cases hx
      rw [Finmap.lookup_insert, ← hi, UInt32.ofNat_toNat]
      exact ⟨hk, rfl⟩
    · cases hx
  · obtain ⟨hne, hlook⟩ := h i x hx
    refine ⟨hne, ?_⟩
    by_cases heq : x = k
    · rw [heq, Finmap.lookup_insert, hother i (heq ▸ hx)]
    · rw [Finmap.lookup_insert_of_ne _ heq, hlook]

theorem KeyIndex.push (h : KeyIndex ks t) {k : UInt64} (hk : k ≠ kEmpty) (hnew : k ∉ ks) :
    KeyIndex (ks ++ [k]) (t.insertOrAssign k (.ofNat ks.length)) := by
  intro i x hx
  rw [t.map_insertOrAssign hk]
  rcases getElem?_concat hx with hx | ⟨rfl, rfl⟩
  · obtain ⟨hne, hlook⟩ := h i x hx
    have heq : x ≠ k := fun heq => hnew (heq ▸ List.mem_of_getElem? hx)
    rw [Finmap.lookup_insert_of_ne _ heq]
    exact ⟨hne, hlook⟩
  · rw [Finmap.lookup_insert]
    exact ⟨hk, rfl⟩

/-- A symbol without an issuer gets one. -/
theorem CikIndex.set (h : CikIndex cs f) {id c : UInt32} (hc : c ≠ 0) (hid : cs[id.toNat]? = some 0) :
    CikIndex (cs.set id.toNat c) (Function.update f c (f c ++ [id])) := by
  intro cik hcik
  obtain ⟨hnodup, hmem⟩ := h cik hcik
  have hlt : id.toNat < cs.length := (List.getElem?_eq_some_iff.mp hid).1
  have hnot : id ∉ f cik := fun hin => by
    have := (hmem id).mp hin
    rw [hid] at this
    exact hcik (Option.some.inj this).symm
  have hset : ∀ j : UInt32, (cs.set id.toNat c)[j.toNat]? = some cik ↔
      cs[j.toNat]? = some cik ∨ j = id ∧ cik = c := by
    intro j
    rw [List.getElem?_set]
    split
    · rename_i hj
      obtain rfl : id = j := UInt32.toNat_inj.mp hj
      constructor
      · intro he
        exact .inr ⟨rfl, (Option.some.inj he).symm⟩
      · rintro (he | ⟨-, rfl⟩)
        · rw [hid] at he
          exact absurd (Option.some.inj he).symm hcik
        · rfl
    · rename_i hj
      refine ⟨.inl, ?_⟩
      rintro (he | ⟨rfl, -⟩)
      · exact he
      · exact absurd rfl hj
  rcases eq_or_ne cik c with rfl | hne
  · rw [Function.update_self]
    refine ⟨List.nodup_append.mpr ⟨hnodup, List.nodup_singleton id, ?_⟩, fun j => ?_⟩
    · rintro a ha b hb rfl
      exact hnot (List.mem_singleton.mp hb ▸ ha)
    · rw [List.mem_append, List.mem_singleton, hmem, hset]
      tauto
  · rw [Function.update_of_ne hne]
    refine ⟨hnodup, fun j => ?_⟩
    rw [hmem, hset]
    tauto

theorem CikIndex.push (h : CikIndex cs f) (c : UInt32) (hsize : cs.length < 2 ^ 32) :
    CikIndex (cs ++ [c])
      (if c ≠ 0 then Function.update f c (f c ++ [.ofNat cs.length]) else f) := by
  have hzero : CikIndex (cs ++ [0]) f := by
    intro cik hcik
    obtain ⟨hnodup, hmem⟩ := h cik hcik
    refine ⟨hnodup, fun id => (hmem id).trans ?_⟩
    constructor
    · intro he
      rw [List.getElem?_append_left (List.getElem?_eq_some_iff.mp he).1, he]
    · intro he
      rcases getElem?_concat he with he | ⟨-, he⟩
      · exact he
      · exact absurd he hcik
  split
  · rename_i hc
    have hlast : (cs ++ [0])[(UInt32.ofNat cs.length).toNat]? = some 0 := by
      rw [toNat_ofNat hsize, List.getElem?_append_right (le_refl _), Nat.sub_self]
      rfl
    have hset := hzero.set hc hlast
    rwa [toNat_ofNat hsize, List.set_append_right _ _ (le_refl _), Nat.sub_self] at hset
  · rename_i hc
    rwa [not_not.mp hc]

/-! ## The table and its indexes -/

variable {F : Type}

/-- What every clean step keeps. -/
structure Consistent (names : Bytes → Prop) (m : Master F) : Prop where
  size : m.syms.length < 2 ^ 32
  tickers : TickerIndex names (m.syms.map (·.ticker)) m.byNorm
  keys : KeyIndex (m.syms.map (·.key)) m.byKey
  ciks : CikIndex (m.syms.map (·.cik)) m.byCik

theorem consistent_init : Consistent names ({} : Master F) :=
  ⟨Nat.two_pow_pos 32, ⟨nofun, nofun, fun k v hv => by simp at hv⟩, nofun,
    fun cik _ => ⟨List.nodup_nil, by simp⟩⟩

/-- What the readers of the table rely on: a ticker and a key find their symbol, whatever other
spellings are known, no two symbols have one ticker, and an issuer has the list of its symbols. -/
structure Agrees (m : Master F) : Prop where
  find : ∀ (i : Nat) (s : Security F), m.syms[i]? = some s →
    m.find s.ticker = .ofNat i ∧ m.findKey s.key = .ofNat i
  ticker : ∀ (i j : Nat) (s s' : Security F), m.syms[i]? = some s → m.syms[j]? = some s' →
    s.ticker = s'.ticker → i = j
  cik : ∀ cik, cik ≠ 0 → (m.byCik cik).Nodup ∧
    ∀ id : UInt32, id ∈ m.byCik cik ↔ ∃ s, m.syms[id.toNat]? = some s ∧ s.cik = cik
  alias_ : ∀ (i : Nat) (s : Security F) (x : Bytes), m.syms[i]? = some s →
    x.map normChar = s.ticker.map normChar → m.find x = .ofNat i

variable {m : Master F}

/-- A spelling of a ticker finds the symbol of the ticker. -/
theorem Consistent.find_spelling (h : Consistent names m) (hh : HashApart names) {i : Nat} {s : Security F}
    {x : Bytes} (hs : m.syms[i]? = some s) (hx : x.map normChar = s.ticker.map normChar) :
    m.find x = .ofNat i := by
  have hticker : (m.syms.map (·.ticker))[i]? = some s.ticker := by rw [List.getElem?_map, hs]; rfl
  have hspell := h.tickers.spelled s.ticker (List.mem_of_getElem? hticker)
  have hlen : x.length = s.ticker.length := by simpa using congrArg List.length hx
  have hne : x ≠ [] := fun hnil => hspell.ne_nil (List.length_eq_zero_iff.mp (by rw [← hlen, hnil]; rfl))
  have hguard : ¬ (x.isEmpty ∨ 32 < x.length) := by
    rw [List.isEmpty_iff, hlen, not_or]
    exact ⟨hne, Nat.not_lt.mpr hspell.length_le⟩
  rw [find, if_neg hguard, hx, ← hspell.normalize_eq, Table.find_eq _ (hh.ne_empty _ hspell.known),
    h.tickers.lookup i s.ticker hticker]
  rfl

theorem Consistent.agrees (h : Consistent names m) (hh : HashApart names) : Agrees m := by
  refine ⟨fun i s hs => ⟨h.find_spelling hh hs rfl, ?_⟩, fun i j s s' hs hs' heq => ?_, fun cik hcik => ?_,
    fun i s x hs hx => h.find_spelling hh hs hx⟩
  · obtain ⟨hk, hlook⟩ := h.keys i s.key (by rw [List.getElem?_map, hs]; rfl)
    rw [findKey, Table.find_eq _ hk, hlook]
    rfl
  · have h1 := h.find_spelling hh hs rfl
    have h2 := h.find_spelling hh hs' rfl
    rw [heq, h2] at h1
    have hi : i < m.syms.length := (List.getElem?_eq_some_iff.mp hs).1
    have hj : j < m.syms.length := (List.getElem?_eq_some_iff.mp hs').1
    have := congrArg UInt32.toNat h1
    rwa [toNat_ofNat (hj.trans h.size), toNat_ofNat (hi.trans h.size), eq_comm] at this
  · obtain ⟨hnodup, hmem⟩ := h.ciks cik hcik
    refine ⟨hnodup, fun id => (hmem id).trans ?_⟩
    rw [List.getElem?_map, Option.map_eq_some_iff]

theorem Consistent.find_lt (h : Consistent names m) (hh : HashApart names) {x : Bytes}
    (hx : names (x.map normChar)) (hfind : m.find x ≠ kInvalid) : (m.find x).toNat < m.syms.length := by
  unfold Master.find at hfind ⊢
  split at hfind
  · exact absurd rfl hfind
  · rename_i hguard
    rw [if_neg hguard, Table.find_eq _ (hh.ne_empty _ hx)]
    rw [Table.find_eq _ (hh.ne_empty _ hx)] at hfind
    cases hv : m.byNorm.map.lookup (hashBytes (x.map normChar)) with
    | none =>
      rw [hv] at hfind
      exact absurd rfl hfind
    | some v => simpa using h.tickers.valid _ v hv

/-! ## Clean writes -/

/-- A symbol whose ticker can be found and, like its key, is not that of another one. -/
structure AddClean (names : Bytes → Prop) (m : Master F) (ticker : Bytes) (key : UInt64) : Prop where
  spelled : Spelled names ticker
  ticker_new : ∀ s ∈ m.syms, normalize s.ticker ≠ normalize ticker
  key_ne : key ≠ kEmpty
  key_new : ∀ s ∈ m.syms, s.key ≠ key
  room : m.syms.length + 1 < 2 ^ 32

/-- A ticker that is found, or can be added. -/
def UpsertClean (names : Bytes → Prop) (m : Master F) (ticker : Bytes) : Prop :=
  names (ticker.map normChar) ∧
    (m.find ticker = kInvalid → AddClean names m (normalize ticker) (makeKey (normalize ticker)))

/-- A key that belongs to no symbol but the one that `ticker` finds. -/
def KeyClean (m : Master F) (ticker : Bytes) (key : UInt64) : Prop :=
  key ≠ kEmpty ∧ ∀ (i : Nat) (s : Security F), m.syms[i]? = some s → s.key = key → m.find ticker = .ofNat i

/-- An alias that is the ticker of no symbol but the one that `ticker` finds. -/
def AliasClean (names : Bytes → Prop) (m : Master F) (ticker a : Bytes) : Prop :=
  a ≠ [] → names (normalize a) ∧ ∀ (i : Nat) (s : Security F), m.syms[i]? = some s →
    normalize s.ticker = normalize a → m.find ticker = .ofNat i

theorem Consistent.add (h : Consistent names m) (hh : HashApart names) (info : Security F)
    (hc : AddClean names m info.ticker (if info.key = 0 then makeKey info.ticker else info.key)) :
    Consistent names (m.add info).1 ∧ ∃ s, (m.add info).1.syms = m.syms ++ [s] ∧ s.ticker = info.ticker ∧
      s.key = if info.key = 0 then makeKey info.ticker else info.key := by
  have hsize : m.syms.length < 2 ^ 32 := by have := hc.room; omega
  obtain ⟨s, hs⟩ : ∃ s, s = if info.key = 0 then { info with key := makeKey info.ticker } else info := ⟨_, rfl⟩
  have hticker : s.ticker = info.ticker := by
    rw [hs]
    split <;> rfl
  have hkey : s.key = if info.key = 0 then makeKey info.ticker else info.key := by
    rw [hs]
    split <;> rfl
  have hadd : (m.add info).1 =
      { syms := m.syms ++ [s]
        byNorm := m.byNorm.insertOrAssign (hashBytes (normalize s.ticker)) (.ofNat m.syms.length)
        byKey := m.byKey.insertOrAssign s.key (.ofNat m.syms.length)
        byCik := if s.cik ≠ 0 then Function.update m.byCik s.cik (m.byCik s.cik ++ [.ofNat m.syms.length])
          else m.byCik
        byName := m.byName } := by
    have hne : ¬ s.ticker.isEmpty := by
      rw [List.isEmpty_iff, hticker]
      exact hc.spelled.ne_nil
    simp only [Master.add, ← hs, indexAlias, if_neg hne, indexKey, indexCik]
    split <;> rfl
  rw [← hkey, ← hticker] at hc
  refine ⟨?_, s, by rw [hadd], hticker, hkey⟩
  rw [hadd]
  refine ⟨?_, ?_, ?_, ?_⟩
  · rw [List.length_append]
    exact hc.room
  · have := h.tickers.push hh hc.spelled (by rwa [List.length_map]) (by simpa using hc.ticker_new)
    rwa [List.length_map, ← List.map_singleton (f := fun s : Security F => s.ticker), ← List.map_append] at this
  · have := h.keys.push hc.key_ne (by simpa using hc.key_new)
    rwa [List.length_map, ← List.map_singleton (f := fun s : Security F => s.key), ← List.map_append] at this
  · have := h.ciks.push s.cik (by rwa [List.length_map])
    rwa [List.length_map, ← List.map_singleton (f := fun s : Security F => s.cik), ← List.map_append] at this

/-! ## Writing to a symbol -/

/-- A write that leaves a column alone. -/
theorem map_modify_eq {α : Type} (l : List (Security F)) (i : Nat) {f : Security F → Security F}
    {g : Security F → α} (h : ∀ s, g (f s) = g s) : (l.modify i f).map g = l.map g := by
  refine List.ext_getElem? fun j => ?_
  rw [List.getElem?_map, List.getElem?_map, List.getElem?_modify]
  cases l[j]? with
  | none => rfl
  | some s =>
    by_cases hj : i = j
    · simp [hj, h]
    · simp [hj]

/-- A write of one value to a column. -/
theorem map_modify_set {α : Type} (l : List (Security F)) (i : Nat) {f : Security F → Security F}
    {g : Security F → α} {a : α} (h : ∀ s, g (f s) = a) : (l.modify i f).map g = (l.map g).set i a := by
  refine List.ext_getElem? fun j => ?_
  rw [List.getElem?_map, List.getElem?_modify, List.getElem?_set, List.getElem?_map, List.length_map]
  by_cases hj : i = j
  · subst hj
    rcases Nat.lt_or_ge i l.length with hlt | hge
    · rw [List.getElem?_eq_getElem hlt]
      simp [h, hlt]
    · rw [List.getElem?_eq_none hge]
      simp [Nat.not_lt.mpr hge]
  · rw [if_neg hj]
    cases l[j]? with
    | none => rfl
    | some s => simp [hj]

/-- A write to the fields that are not indexed. -/
theorem Consistent.modify (h : Consistent names m) (id : UInt32) {f : Security F → Security F}
    (hf : ∀ s, (f s).ticker = s.ticker ∧ (f s).key = s.key ∧ (f s).cik = s.cik) :
    Consistent names (m.modify id f) := by
  refine ⟨?_, ?_, ?_, ?_⟩
  · show (m.syms.modify id.toNat f).length < 2 ^ 32
    rw [List.length_modify]
    exact h.size
  · show TickerIndex names ((m.syms.modify id.toNat f).map (·.ticker)) m.byNorm
    rw [map_modify_eq _ _ fun s => (hf s).1]
    exact h.tickers
  · show KeyIndex ((m.syms.modify id.toNat f).map (·.key)) m.byKey
    rw [map_modify_eq _ _ fun s => (hf s).2.1]
    exact h.keys
  · show CikIndex ((m.syms.modify id.toNat f).map (·.cik)) m.byCik
    rw [map_modify_eq _ _ fun s => (hf s).2.2]
    exact h.ciks

/-- A write of a key, which is then indexed. -/
theorem Consistent.rekey (h : Consistent names m) {id : UInt32} {key : UInt64} {f : Security F → Security F}
    (hf : ∀ s, (f s).ticker = s.ticker ∧ (f s).key = key ∧ (f s).cik = s.cik) (hk : key ≠ kEmpty)
    (hother : ∀ (i : Nat) (s : Security F), m.syms[i]? = some s → s.key = key → .ofNat i = id) :
    Consistent names ((m.modify id f).indexKey key id) := by
  refine ⟨?_, ?_, ?_, ?_⟩
  · show (m.syms.modify id.toNat f).length < 2 ^ 32
    rw [List.length_modify]
    exact h.size
  · show TickerIndex names ((m.syms.modify id.toNat f).map (·.ticker)) m.byNorm
    rw [map_modify_eq _ _ fun s => (hf s).1]
    exact h.tickers
  · show KeyIndex ((m.syms.modify id.toNat f).map (·.key)) (m.byKey.insertOrAssign key id)
    rw [map_modify_set _ _ fun s => (hf s).2.1]
    refine h.keys.set hk fun i hi => ?_
    rw [List.getElem?_map, Option.map_eq_some_iff] at hi
    obtain ⟨s, hs, hkey⟩ := hi
    exact hother i s hs hkey
  · show CikIndex ((m.syms.modify id.toNat f).map (·.cik)) m.byCik
    rw [map_modify_eq _ _ fun s => (hf s).2.2]
    exact h.ciks

/-- Another spelling for a symbol of the table. -/
theorem Consistent.indexAlias (h : Consistent names m) (hh : HashApart names) {a : Bytes} {id : UInt32}
    (hid : id.toNat < m.syms.length)
    (ha : a ≠ [] → names (normalize a) ∧ ∀ (i : Nat) (s : Security F), m.syms[i]? = some s →
      normalize s.ticker = normalize a → .ofNat i = id) : Consistent names (m.indexAlias a id) := by
  unfold Master.indexAlias
  split
  · exact h
  · rename_i hne
    obtain ⟨hname, hother⟩ := ha fun hnil => hne (by rw [hnil]; rfl)
    refine ⟨h.size, h.tickers.insert hh hname (by rwa [List.length_map]) fun i x hx hsame => ?_, h.keys, h.ciks⟩
    rw [List.getElem?_map, Option.map_eq_some_iff] at hx
    obtain ⟨s, hs, rfl⟩ := hx
    exact hother i s hs hsame

theorem indexAlias_indexKey (m : Master F) (a : Bytes) (key : UInt64) (id : UInt32) :
    (m.indexAlias a id).indexKey key id = (m.indexKey key id).indexAlias a id := by
  unfold Master.indexAlias
  split <;> rfl

/-- A write of a key, with two other spellings. -/
theorem Consistent.relist (h : Consistent names m) (hh : HashApart names) {id : UInt32} {key : UInt64}
    {f : Security F → Security F} (hf : ∀ s, (f s).ticker = s.ticker ∧ (f s).key = key ∧ (f s).cik = s.cik)
    (hk : key ≠ kEmpty) (hid : id.toNat < m.syms.length)
    (hother : ∀ (i : Nat) (s : Security F), m.syms[i]? = some s → s.key = key → .ofNat i = id) {a b : Bytes}
    (ha : a ≠ [] → names (normalize a) ∧ ∀ (i : Nat) (s : Security F), m.syms[i]? = some s →
      normalize s.ticker = normalize a → .ofNat i = id)
    (hb : b ≠ [] → names (normalize b) ∧ ∀ (i : Nat) (s : Security F), m.syms[i]? = some s →
      normalize s.ticker = normalize b → .ofNat i = id) :
    Consistent names ((((m.modify id f).indexAlias a id).indexAlias b id).indexKey key id) := by
  have hrekey := h.rekey hf hk hother
  -- the write leaves the tickers
  have hticker : ∀ (i : Nat) (s : Security F), (m.syms.modify id.toNat f)[i]? = some s →
      ∃ s', m.syms[i]? = some s' ∧ s'.ticker = s.ticker := by
    intro i s hs
    have hcol := congrArg (·[i]?) (map_modify_eq m.syms id.toNat (f := f) (g := fun s => s.ticker) fun s => (hf s).1)
    simp only [List.getElem?_map, hs, Option.map_some] at hcol
    exact Option.map_eq_some_iff.mp hcol.symm
  have hlen : id.toNat < (m.syms.modify id.toNat f).length := by rwa [List.length_modify]
  have hsyms : ∀ (m : Master F) (a : Bytes), (m.indexAlias a id).syms = m.syms := by
    intro m a
    unfold Master.indexAlias
    split <;> rfl
  have hspell : ∀ {x : Bytes} {m' : Master F}, m'.syms = m.syms.modify id.toNat f →
      (x ≠ [] → names (normalize x) ∧ ∀ (i : Nat) (s : Security F), m.syms[i]? = some s →
        normalize s.ticker = normalize x → .ofNat i = id) →
      x ≠ [] → names (normalize x) ∧ ∀ (i : Nat) (s : Security F), m'.syms[i]? = some s →
        normalize s.ticker = normalize x → .ofNat i = id := by
    intro x m' hm' hx hne
    refine ⟨(hx hne).1, fun i s hs hsame => ?_⟩
    obtain ⟨s', hs', htick⟩ := hticker i s (hm' ▸ hs)
    exact (hx hne).2 i s' hs' (htick ▸ hsame)
  rw [indexAlias_indexKey, indexAlias_indexKey]
  have hfirst := hrekey.indexAlias hh hlen (hspell rfl ha)
  exact hfirst.indexAlias hh (by rw [hsyms]; exact hlen) (hspell (hsyms _ a) hb)

/-- An issuer for a symbol of the table that has none. -/
theorem Consistent.indexCik (h : Consistent names m) {id cik : UInt32} {s : Security F}
    (hs : m.syms[id.toNat]? = some s) (h0 : s.cik = 0) (hcik : cik ≠ 0) :
    Consistent names ((m.modify id fun s => { s with cik := cik }).indexCik cik id) := by
  refine ⟨?_, ?_, ?_, ?_⟩
  · show (m.syms.modify id.toNat _).length < 2 ^ 32
    rw [List.length_modify]
    exact h.size
  · show TickerIndex names ((m.syms.modify id.toNat _).map (·.ticker)) m.byNorm
    rw [map_modify_eq]
    · exact h.tickers
    · exact fun _ => rfl
  · show KeyIndex ((m.syms.modify id.toNat _).map (·.key)) m.byKey
    rw [map_modify_eq]
    · exact h.keys
    · exact fun _ => rfl
  · show CikIndex ((m.syms.modify id.toNat _).map (·.cik)) (Function.update m.byCik cik (m.byCik cik ++ [id]))
    rw [map_modify_set (a := cik)]
    · refine h.ciks.set hcik ?_
      rw [List.getElem?_map, hs, Option.map_some, h0]
    · exact fun _ => rfl

/-! ## Clean steps -/

variable [Dbl F]

/-- What the loaders do not check of a row. -/
def Clean (names : Bytes → Prop) (m : Master F) : Step F → Prop
  | .nasdaq c => c.getD 0 [] ≠ [] →
    UpsertClean names m (c.getD 0 []) ∧ KeyClean m (c.getD 0 []) (makeKey (c.getD 0 []))
  | .other c => c.getD 0 [] ≠ [] →
    UpsertClean names m (c.getD 0 []) ∧ AliasClean names m (c.getD 0 []) (c.getD 3 []) ∧
      AliasClean names m (c.getD 0 []) (c.getD 7 []) ∧
      KeyClean m (c.getD 0 []) (makeKey (if (c.getD 7 []).isEmpty then c.getD 0 [] else c.getD 7 []))
  | .sec r => r.ticker ≠ [] → r.cik ≠ 0 →
    UpsertClean names m r.ticker ∧ (m.find r.ticker ≠ kInvalid →
      (m.sym (m.find r.ticker)).cik = 0 ∨ (m.sym (m.find r.ticker)).cik = r.cik)
  | .fundamentals _ | .baseline _ | .shortVolume _ => True
  | .directory key _ _ _ => m.findKey key = kInvalid → key ≠ 0 ∧ AddClean names m (keyTicker key) key
  | .add info => AddClean names m info.ticker (if info.key = 0 then makeKey info.ticker else info.key)
  | .upsert ticker => UpsertClean names m ticker

/-- What `upsert` answers is in the table, and is the symbol that the ticker finds if it finds one. -/
theorem Consistent.upsert (h : Consistent names m) (hh : HashApart names) {x : Bytes} (hx : UpsertClean names m x) :
    Consistent names (m.upsert x).1 ∧ (m.upsert x).2.toNat < (m.upsert x).1.syms.length ∧
      ∀ (i : Nat) (s : Security F), (m.upsert x).1.syms[i]? = some s →
        (m.syms[i]? = some s → m.find x = .ofNat i) → .ofNat i = (m.upsert x).2 := by
  unfold Master.upsert
  by_cases hfind : m.find x = kInvalid
  · rw [if_neg (not_not.mpr hfind)]
    have hc := hx.2 hfind
    have hroom := hc.room
    obtain ⟨hcons, s, hsyms, -, -⟩ := h.add hh { (blank : Security F) with ticker := normalize x }
      (by simpa [blank] using hc)
    have hid : (m.add { (blank : Security F) with ticker := normalize x }).2 = .ofNat m.syms.length := rfl
    refine ⟨hcons, ?_, fun i s' hi hold => ?_⟩
    · rw [hsyms, hid, toNat_ofNat (by omega), List.length_append, List.length_singleton]
      omega
    · rw [hsyms] at hi
      rcases getElem?_concat hi with hi | ⟨rfl, -⟩
      · have hlt := (List.getElem?_eq_some_iff.mp hi).1
        have he := congrArg UInt32.toNat (hfind.symm.trans (hold hi))
        rw [toNat_ofNat (by omega)] at he
        have hk : kInvalid.toNat = 2 ^ 32 - 1 := rfl
        omega
      · rfl
  · rw [if_pos hfind]
    exact ⟨h, h.find_lt hh hx.1 hfind, fun i s hi hold => (hold hi).symm⟩

theorem Consistent.nasdaqRow (h : Consistent names m) (hh : HashApart names) {c : List Bytes}
    (hc : Clean names m (.nasdaq c)) : Consistent names (m.nasdaqRow c).1 := by
  unfold Master.nasdaqRow
  simp only
  split
  · exact h
  · rename_i hne
    obtain ⟨hup, hkey, hother⟩ := hc fun hnil => hne (by rw [hnil]; rfl)
    obtain ⟨hcons, -, hid⟩ := h.upsert hh hup
    refine hcons.rekey (fun _ => ⟨rfl, rfl, rfl⟩) hkey fun i s hs hk => ?_
    exact hid i s hs fun hold => hother i s hold hk

theorem Consistent.otherRow (h : Consistent names m) (hh : HashApart names) {c : List Bytes}
    (hc : Clean names m (.other c)) : Consistent names (m.otherRow c).1 := by
  unfold Master.otherRow
  simp only
  split
  · exact h
  · rename_i hne
    obtain ⟨hup, ha, hb, hkey, hother⟩ := hc fun hnil => hne (by rw [hnil]; rfl)
    obtain ⟨hcons, hlt, hid⟩ := h.upsert hh hup
    refine hcons.relist hh ?_ hkey hlt (fun i s hs hk => ?_) (fun hne => ?_) fun hne => ?_
    · exact fun _ => ⟨rfl, rfl, rfl⟩
    · exact hid i s hs fun hold => hother i s hold hk
    · exact ⟨(ha hne).1, fun i s hs hsame => hid i s hs fun hold => (ha hne).2 i s hold hsame⟩
    · exact ⟨(hb hne).1, fun i s hs hsame => hid i s hs fun hold => (hb hne).2 i s hold hsame⟩

theorem Consistent.secRow (h : Consistent names m) (hh : HashApart names) {r : SecRow}
    (hc : Clean names m (.sec r)) : Consistent names (m.secRow r).1 := by
  unfold Master.secRow
  simp only
  split
  · exact h
  · rename_i hrow
    rw [List.isEmpty_iff, not_or] at hrow
    obtain ⟨⟨hname, hnew⟩, hcik⟩ := hc hrow.1 hrow.2
    split
    · rename_i hfind
      exact (h.add hh _ (by simpa [blank] using hnew hfind)).1
    · rename_i hfind
      refine Consistent.modify ?_ _ fun _ => ⟨rfl, rfl, rfl⟩
      split
      · rename_i hdiff
        have hlt := h.find_lt hh hname hfind
        have hsym : m.syms[(m.find r.ticker).toNat]? = some (m.sym (m.find r.ticker)) := by
          rw [sym, List.getElem?_eq_getElem hlt]
          rfl
        exact h.indexCik hsym ((hcik hfind).resolve_right hdiff) hrow.2
      · exact h

theorem Consistent.fundamentalsRow (h : Consistent names m) (line : Bytes) :
    Consistent names (m.fundamentalsRow line).1 := by
  unfold Master.fundamentalsRow
  simp only
  split
  · -- the symbols of the issuer one by one
    generalize m.byCik _ = ids
    generalize (0 : Nat) = n
    induction ids generalizing m n with
    | nil => exact h
    | cons id ids ih =>
      rw [List.foldl_cons]
      refine ih (h.modify id fun s => ?_) _
      split_ifs <;> exact ⟨rfl, rfl, rfl⟩
  · exact h

/-- Every clean step keeps the indexes right. -/
theorem Consistent.step (h : Consistent names m) (hh : HashApart names) {s : Step F} (hs : Clean names m s) :
    Consistent names (m.step s).1 := by
  cases s with
  | nasdaq c => exact h.nasdaqRow hh hs
  | other c => exact h.otherRow hh hs
  | sec r => exact h.secRow hh hs
  | fundamentals line => exact h.fundamentalsRow line
  | baseline line =>
    simp only [Master.step, baselineRow]
    split
    · exact h
    · exact h.modify _ fun _ => ⟨rfl, rfl, rfl⟩
  | shortVolume c =>
    simp only [Master.step, shortVolumeRow]
    split
    · exact h
    · exact h.modify _ fun _ => ⟨rfl, rfl, rfl⟩
  | directory key cat fin roundLot =>
    simp only [Master.step, directory]
    split
    · exact h
    · rename_i hfind
      obtain ⟨hkey, hclean⟩ := hs (not_not.mp hfind)
      exact (h.add hh _ (by simpa [hkey] using hclean)).1
  | add info => exact (h.add hh info hs).1
  | upsert ticker => exact (h.upsert hh hs).1

/-! ## Runs -/

/-- The table after some calls. -/
def run (m : Master F) (loads : List (Load F)) : Master F := loads.foldl (fun m l => (m.load l).1) m

/-- Every row is clean in the state in which it is read. -/
def CleanRun (names : Bytes → Prop) (m : Master F) (ss : List (Step F)) : Prop :=
  ∀ past s rest, ss = past ++ s :: rest → Clean names (past.foldl (fun m s => (m.step s).1) m) s

theorem steps_eq (m : Master F) (ss : List (Step F)) :
    (m.steps ss).1 = ss.foldl (fun m s => (m.step s).1) m := by
  unfold steps
  exact (List.foldl_hom Prod.fst fun _ _ => rfl).symm

theorem run_eq (m : Master F) (loads : List (Load F)) :
    m.run loads = (loads.flatMap Load.steps).foldl (fun m s => (m.step s).1) m := by
  induction loads generalizing m with
  | nil => rfl
  | cons l loads ih =>
    rw [List.flatMap_cons, List.foldl_append, ← steps_eq m, ← ih]
    rfl

theorem Consistent.run {ss : List (Step F)} (h : Consistent names m) (hh : HashApart names)
    (hc : CleanRun names m ss) : Consistent names (ss.foldl (fun m s => (m.step s).1) m) := by
  induction ss generalizing m with
  | nil => exact h
  | cons s ss ih =>
    obtain ⟨hs, hrest⟩ := forall_splits_cons.mp hc
    exact ih (h.step hh hs) hrest

/-- In a run whose rows are all clean, the indexes agree with the table after every call. -/
theorem agrees_run (hh : HashApart names) (loads : List (Load F))
    (hc : CleanRun names ({} : Master F) (loads.flatMap Load.steps)) (past rest : List (Load F))
    (hpast : loads = past ++ rest) : Agrees (({} : Master F).run past) := by
  have hclean : CleanRun names ({} : Master F) (past.flatMap Load.steps) := by
    intro p s q hsplit
    refine hc p s (q ++ rest.flatMap Load.steps) ?_
    rw [hpast, List.flatMap_append, hsplit, List.append_assoc, List.cons_append]
  rw [run_eq]
  exact (consistent_init.run hh hclean).agrees hh

/-- The SEC's list with one company. -/
def secText (cik : String) : Bytes :=
  lit "\x7b\"fields\":[\"cik\",\"name\",\"ticker\",\"exchange\"],\"data\":[[" ++ lit cik ++
    lit ",\"Acme Corp\",\"ACME\",\"Nasdaq\"]]\x7d"

def acmeRow : SecRow := { ticker := lit "ACME", cik := 1, name := some (lit "Acme Corp"), exchange := lit "Nasdaq" }

theorem secRows_acme : secRows (F := ℚ) (secText "1") = [acmeRow] ∧
    secRows (F := ℚ) (secText "2") = [{ acmeRow with cik := 2 }] := by
  constructor <;> rw [secText, lit_ofList, lit_ofList, lit_ofList] <;> decide +kernel

/-- The same list on two days. -/
theorem agrees_run_refresh : Agrees (({} : Master ℚ).run [.secTickers (secText "1"), .secTickers (secText "1")]) := by
  have hsteps : [Load.secTickers (secText "1"), .secTickers (secText "1")].flatMap (Load.steps (F := ℚ)) =
      [.sec acmeRow, .sec acmeRow] := by
    simp only [List.flatMap_cons, List.flatMap_nil, Load.steps, secRows_acme.1]
    rfl
  have hh : HashApart (· = lit "ACME") :=
    ⟨fun a b ha hb _ => ha.trans hb.symm, fun a ha => by rw [ha]; decide +kernel⟩
  have hnew : Clean (· = lit "ACME") ({} : Master ℚ) (.sec acmeRow) := by
    have hnone : ({} : Master ℚ).find acmeRow.ticker = kInvalid := by decide +kernel
    have hempty : ({} : Master ℚ).syms = [] := rfl
    generalize ({} : Master ℚ) = m at hnone hempty
    have hadd : AddClean (· = lit "ACME") m (normalize acmeRow.ticker) (makeKey (normalize acmeRow.ticker)) := by
      refine ⟨⟨by decide, by decide, by decide, by decide⟩, ?_, by decide +kernel, ?_, ?_⟩
      all_goals simp [hempty]
    exact fun _ _ => ⟨⟨by decide, fun _ => hadd⟩, fun hne => absurd hnone hne⟩
  have hsame : Clean (· = lit "ACME") (({} : Master ℚ).step (.sec acmeRow)).1 (.sec acmeRow) := by
    have hfind : (({} : Master ℚ).step (.sec acmeRow)).1.find acmeRow.ticker = 0 := by decide +kernel
    have hcik : ((({} : Master ℚ).step (.sec acmeRow)).1.sym 0).cik = acmeRow.cik := by decide +kernel
    generalize (({} : Master ℚ).step (.sec acmeRow)).1 = m at hfind hcik
    refine fun _ _ => ⟨⟨by decide, fun hnone => ?_⟩, fun _ => .inr (by rw [hfind, hcik])⟩
    rw [hfind] at hnone
    exact absurd hnone (by decide)
  refine agrees_run hh [.secTickers (secText "1"), .secTickers (secText "1")] ?_ _ [] rfl
  rw [hsteps]
  refine forall_splits_cons.mpr ⟨hnew, forall_splits_cons.mpr ⟨hsame, fun past s rest hnil => ?_⟩⟩
  simp at hnil

/-- A company whose number changes stays in the list of the old one. -/
theorem byCik_stale :
    ¬ Agrees (({} : Master ℚ).run [.secTickers (secText "1"), .secTickers (secText "2")]) := by
  have hrun : ({} : Master ℚ).run [.secTickers (secText "1"), .secTickers (secText "2")] =
      ((({} : Master ℚ).step (.sec acmeRow)).1.step (.sec { acmeRow with cik := 2 })).1 := by
    rw [run_eq]
    simp only [List.flatMap_cons, List.flatMap_nil, Load.steps, secRows_acme.1, secRows_acme.2]
    rfl
  rw [hrun]
  intro h
  obtain ⟨s, hs, hcik⟩ := ((h.cik 1 (by decide)).2 0).mp (by decide +kernel)
  have hnow : (((({} : Master ℚ).step (.sec acmeRow)).1.step (.sec { acmeRow with cik := 2 })).1.syms[0]?).map
      (·.cik) = some 2 := by decide +kernel
  have hboth : some s.cik = some 2 := by
    rw [← hnow]
    exact (congrArg (Option.map (·.cik)) hs).symm
  rw [hcik] at hboth
  exact absurd hboth (by decide)

end Stok.Master
