import Stok.Ref.Master

/-!
# The index of company names

`build_name_index` and `find_by_name` of `ref/symbols.cpp`. The slot of a name holds the security
that has it, or a mark once two have it. `Indexed` says so of the securities that the loop has been
through; two of them are never of one issuer, since an issuer has one primary security, so the
second one always sets the mark.
-/

namespace Stok.Master

open SymbolTable (kInvalid)

def kAmbiguous : UInt32 := 0xFFFFFFFE

/-- The words that have been read, and the letters of the next one. -/
def companyWord (st : List Bytes × Bytes) (c : UInt8) : List Bytes × Bytes :=
  let flushed := if st.2.isEmpty then st.1 else st.1 ++ [st.2]
  if isAlnum c then (st.1, st.2 ++ [toUpper c])
  else if c = ch '&' then (flushed ++ [lit "AND"], [])
  -- "Macy's" is MACYS and "U.S." is US
  else if c = 39 ∨ c = ch '.' then st
  else (flushed, [])

def companyWords (name : Bytes) : List Bytes :=
  let st := name.foldl companyWord ([], [])
  if st.2.isEmpty then st.1 else st.1 ++ [st.2]

def kSuffix : List Bytes :=
  ["INC", "INCORPORATED", "CORP", "CORPORATION", "CO", "COMPANY", "LTD", "LIMITED", "PLC", "LLC", "LP",
    "HOLDINGS", "HOLDING", "GROUP", "SA", "NV", "AG", "SE", "ADR", "ADS", "THE", "COMMON", "STOCK", "SHARES",
    "ORDINARY", "CLASS", "A", "B"].map lit

/-- The words without the suffixes at their end, but for the first word. -/
def dropSuffixes : List Bytes → List Bytes
  | [] => []
  | w :: ws => w :: (ws.reverse.dropWhile (· ∈ kSuffix)).reverse

def normalizeCompanyName (name : Bytes) : Bytes :=
  let name := match Stok.find (lit " - ") name 0 with
    | some dash => name.take dash
    | none => name
  let words := dropSuffixes (companyWords name)
  let words := if 1 < words.length ∧ words.head? = some (lit "THE") then words.tail else words
  words.foldl (fun out w => (if out.isEmpty then out else out ++ [32]) ++ w) []

variable {F : Type} [Dbl F]

/-- A listed security that is not an ETF, a test issue or a derivative one, with a name. -/
def named (s : Security F) : Bool :=
  s.exchange.isExchangeListed && !s.etf && !s.testIssue && !s.isDerivativeSecurity && !s.name.isEmpty

/-- One round of the loop: the slots by the hash of the name, and the issuer of the first security
in each. -/
def indexName (m : Master F) (st : Table UInt32 × (UInt64 → UInt32)) (id : UInt32) :
    Table UInt32 × (UInt64 → UInt32) :=
  let s := m.sym id
  if named s = false then st
  else if (if s.cik ≠ 0 then m.primaryForCik s.cik else id) ≠ id then st
  else
    let n := normalizeCompanyName s.name
    if n.length < 4 then st
    else
      let h := hashBytes n
      let (t, slot, inserted) := st.1.tryEmplace h
      if inserted then (t.modify h fun _ => id, Function.update st.2 h s.cik)
      else if slot ≠ kAmbiguous ∧ (st.2 h ≠ s.cik ∨ s.cik = 0) then (t.modify h fun _ => kAmbiguous, st.2)
      else (t, st.2)

/-- The ids of a table. -/
def ids (m : Master F) : List UInt32 := (List.range m.syms.length).map .ofNat

def buildNameIndex (m : Master F) : Master F :=
  { m with byName := (m.ids.foldl m.indexName (m.byName.clear, fun _ => 0)).1 }

def findByName (m : Master F) (companyName : Bytes) : UInt32 :=
  let n := normalizeCompanyName companyName
  if n.length < 4 then kInvalid
  else
    match m.byName.find (hashBytes n) with
    | none => kInvalid
    | some v => if v = kAmbiguous then kInvalid else v

/-! ## The securities of a name -/

/-- The security has the name and can be found by it: it is the primary one of its issuer, or has no
issuer. -/
def Holds (m : Master F) (n : Bytes) (id : UInt32) : Prop :=
  named (m.sym id) = true ∧ (if (m.sym id).cik ≠ 0 then m.primaryForCik (m.sym id).cik else id) = id ∧
    normalizeCompanyName (m.sym id).name = n

instance (m : Master F) (n : Bytes) : DecidablePred (m.Holds n) := fun _ => inferInstanceAs (Decidable (_ ∧ _))

/-- Two securities of one issuer are not both its primary one. -/
theorem Holds.cik_ne {m : Master F} {n n' : Bytes} {i j : UInt32} (hi : m.Holds n i) (hj : m.Holds n' j)
    (hne : i ≠ j) : (m.sym i).cik ≠ (m.sym j).cik ∨ (m.sym j).cik = 0 := by
  rcases eq_or_ne (m.sym j).cik 0 with h0 | h0
  · exact .inr h0
  · refine .inl fun heq => hne ?_
    have h1 := hi.2.1
    have h2 := hj.2.1
    rw [if_pos (heq ▸ h0), heq] at h1
    rw [if_pos h0] at h2
    exact h1.symm.trans h2

/-- What the slot of a name holds when these securities have it. -/
def slotOf : List UInt32 → Option UInt32
  | [] => none
  | [id] => some id
  | _ :: _ :: _ => some kAmbiguous

theorem slotOf_concat (l : List UInt32) (id : UInt32) (hl : l ≠ []) : slotOf (l ++ [id]) = some kAmbiguous := by
  match l with
  | [] => exact absurd rfl hl
  | [_] => rfl
  | _ :: _ :: _ => rfl

/-- The slots after the loop has been through `l`. -/
def Indexed (m : Master F) (names : Bytes → Prop) (l : List UInt32)
    (st : Table UInt32 × (UInt64 → UInt32)) : Prop :=
  ∀ n, names n → 4 ≤ n.length →
    st.1.map.lookup (hashBytes n) = slotOf (l.filter (m.Holds n)) ∧
      ∀ id, l.filter (m.Holds n) = [id] → st.2 (hashBytes n) = (m.sym id).cik

variable {m : Master F} {names : Bytes → Prop} {l : List UInt32} {st : Table UInt32 × (UInt64 → UInt32)}

/-- A round for a security that cannot be found by a name. -/
theorem indexName_skip {id : UInt32} (h : ∀ n, 4 ≤ n.length → ¬ m.Holds n id) : m.indexName st id = st := by
  unfold indexName
  simp only
  by_cases hnamed : named (m.sym id) = false
  · rw [if_pos hnamed]
  rw [if_neg hnamed]
  by_cases hprimary : (if (m.sym id).cik ≠ 0 then m.primaryForCik (m.sym id).cik else id) ≠ id
  · rw [if_pos hprimary]
  rw [if_neg hprimary, if_pos]
  by_contra hlen
  exact h _ (Nat.le_of_not_lt hlen) ⟨by simpa using hnamed, not_not.mp hprimary, rfl⟩

/-- A round for a security that can. -/
theorem indexName_holds {n : Bytes} {id : UInt32} (h : m.Holds n id) (hlen : 4 ≤ n.length)
    (hne : hashBytes n ≠ kEmpty) :
    (st.1.map.lookup (hashBytes n) = none →
      (m.indexName st id).1.map = st.1.map.insert (hashBytes n) id ∧
        (m.indexName st id).2 = Function.update st.2 (hashBytes n) (m.sym id).cik) ∧
    (∀ v, st.1.map.lookup (hashBytes n) = some v →
      (m.indexName st id).1.map =
        (if v ≠ kAmbiguous ∧ (st.2 (hashBytes n) ≠ (m.sym id).cik ∨ (m.sym id).cik = 0) then
          st.1.map.insert (hashBytes n) kAmbiguous else st.1.map) ∧
        (m.indexName st id).2 = st.2) := by
  obtain ⟨hnamed, hprimary, hname⟩ := h
  have hround : m.indexName st id =
      (let r := st.1.tryEmplace (hashBytes n)
      if r.2.2 then (r.1.modify (hashBytes n) fun _ => id, Function.update st.2 (hashBytes n) (m.sym id).cik)
      else if r.2.1 ≠ kAmbiguous ∧ (st.2 (hashBytes n) ≠ (m.sym id).cik ∨ (m.sym id).cik = 0) then
        (r.1.modify (hashBytes n) fun _ => kAmbiguous, st.2)
      else (r.1, st.2)) := by
    unfold indexName
    simp only [hname, hnamed, Bool.true_eq_false, if_false]
    rw [if_neg (not_not.mpr hprimary), if_neg (Nat.not_lt.mpr hlen)]
  rw [hround]
  rcases st.1.tryEmplace_cases hne with ⟨v, hv, hres, hmap⟩ | ⟨hnone, hres, -⟩
  · refine ⟨fun h => (by rw [hv] at h; cases h), fun w hw => ?_⟩
    rw [hv] at hw
    cases hw
    simp only [hres, Bool.false_eq_true, if_false]
    split
    · exact ⟨st.1.map_assign hne kAmbiguous, rfl⟩
    · exact ⟨hmap, rfl⟩
  · refine ⟨fun _ => ?_, fun w hw => (by rw [hnone] at hw; cases hw)⟩
    simp only [hres, if_true]
    exact ⟨st.1.map_assign hne id, trivial⟩

theorem Indexed.step (h : Indexed m names l st) (hhash : HashApart names) {id : UInt32} (hid : id ∉ l)
    (hl : ∀ i ∈ l, i ≠ kAmbiguous) (hnames : ∀ n, m.Holds n id → 4 ≤ n.length → names n) :
    Indexed m names (l ++ [id]) (m.indexName st id) := by
  have hfilter : ∀ n, (l ++ [id]).filter (m.Holds n) =
      l.filter (m.Holds n) ++ if m.Holds n id then [id] else [] := by
    intro n
    rw [List.filter_append]
    by_cases hn : m.Holds n id <;> simp [hn]
  by_cases hsome : ∃ n, 4 ≤ n.length ∧ m.Holds n id
  · obtain ⟨n₀, hlen₀, hold⟩ := hsome
    have hn₀ := hnames n₀ hold hlen₀
    obtain ⟨hfree, htaken⟩ := @indexName_holds F _ m st n₀ id hold hlen₀ (hhash.ne_empty n₀ hn₀)
    intro n hn hlen
    obtain ⟨hslot, howner⟩ := h n hn hlen
    rw [hfilter]
    rcases eq_or_ne n n₀ with rfl | hne
    · rw [if_pos hold]
      cases hholders : l.filter (m.Holds n) with
      | nil =>
        rw [hholders] at hslot
        obtain ⟨hmap, hown⟩ := hfree hslot
        rw [hmap, hown, Finmap.lookup_insert, Function.update_self]
        exact ⟨rfl, fun i hi => by cases hi; rfl⟩
      | cons i rest =>
        rw [slotOf_concat _ _ (by simp)]
        refine ⟨?_, fun j hj => absurd hj (by simp)⟩
        rw [hholders] at hslot howner
        cases rest with
        | nil =>
          -- the first security of the name is of another issuer, or of none that is known
          have hi : i ∈ l.filter (m.Holds n) := hholders ▸ List.mem_singleton.mpr rfl
          obtain ⟨hil, hiholds⟩ := List.mem_filter.mp hi
          have hcik := (of_decide_eq_true hiholds).cik_ne hold fun heq => hid (heq ▸ hil)
          rw [(htaken i hslot).1, if_pos ⟨hl i hil, by rwa [howner i rfl]⟩, Finmap.lookup_insert]
        | cons j rest =>
          rw [(htaken kAmbiguous hslot).1, if_neg fun h => h.1 rfl, hslot]
          rfl
    · have hnot : ¬ m.Holds n id := fun h => hne (h.2.2.symm.trans hold.2.2)
      have hkey : hashBytes n ≠ hashBytes n₀ := fun heq => hne (hhash.inj n n₀ hn hn₀ heq)
      rw [if_neg hnot, List.append_nil, ← hslot]
      cases hv : st.1.map.lookup (hashBytes n₀) with
      | none =>
        obtain ⟨hmap, hown⟩ := hfree hv
        rw [hmap, hown, Finmap.lookup_insert_of_ne _ hkey, Function.update_of_ne hkey]
        exact ⟨rfl, howner⟩
      | some v =>
        obtain ⟨hmap, hown⟩ := htaken v hv
        rw [hmap, hown]
        refine ⟨?_, howner⟩
        split
        · rw [Finmap.lookup_insert_of_ne _ hkey]
        · rfl
  · have hskip : ∀ n, 4 ≤ n.length → ¬ m.Holds n id := fun n hlen hold => hsome ⟨n, hlen, hold⟩
    rw [indexName_skip hskip]
    intro n hn hlen
    rw [hfilter, if_neg (hskip n hlen), List.append_nil]
    exact h n hn hlen

theorem indexed_build (m : Master F) (hhash : HashApart names) (hsize : m.syms.length ≤ kAmbiguous.toNat)
    (hnames : ∀ n id, id ∈ m.ids → m.Holds n id → 4 ≤ n.length → names n) :
    Indexed m names m.ids (m.ids.foldl m.indexName (m.byName.clear, fun _ => 0)) := by
  have htoNat : ∀ i ≤ m.syms.length, (UInt32.ofNat i).toNat = i := fun i hi =>
    UInt32.toNat_ofNat_of_lt' (lt_of_le_of_lt (hi.trans hsize) (by decide))
  have hprefix : ∀ k ≤ m.syms.length, Indexed m names ((List.range k).map .ofNat)
      (((List.range k).map UInt32.ofNat).foldl m.indexName (m.byName.clear, fun _ => 0)) := by
    intro k
    induction k with
    | zero =>
      intro _ n hn hlen
      exact ⟨by simp [slotOf], nofun⟩
    | succ k ih =>
      intro hk
      rw [List.range_succ, List.map_append, List.map_singleton, List.foldl_concat]
      refine (ih (by omega)).step hhash ?_ ?_ (fun n => hnames n _ ?_)
      · intro hmem
        obtain ⟨i, hi, heq⟩ := List.mem_map.mp hmem
        have hi' := List.mem_range.mp hi
        have := congrArg UInt32.toNat heq
        rw [htoNat i (by omega), htoNat k (by omega)] at this
        omega
      · intro i hi heq
        obtain ⟨j, hj, rfl⟩ := List.mem_map.mp hi
        have hj' := List.mem_range.mp hj
        have := congrArg UInt32.toNat heq
        rw [htoNat j (by omega)] at this
        omega
      · exact List.mem_map.mpr ⟨k, List.mem_range.mpr (by omega), rfl⟩
  exact hprefix _ (le_refl _)

/-- A security of the table that can be found by a name. -/
def Eligible (m : Master F) (n : Bytes) (id : UInt32) : Prop := id.toNat < m.syms.length ∧ m.Holds n id

/-- The names that a lookup of `c` compares. -/
def NamesOf (m : Master F) (c n : Bytes) : Prop := n = normalizeCompanyName c ∨ ∃ id, m.Eligible n id

/-- A company name finds the only security that has it, and none if there are two. -/
theorem findByName_iff (m : Master F) (hsize : m.syms.length ≤ kAmbiguous.toNat) (c : Bytes)
    (hhash : HashApart (m.NamesOf c)) :
    let n := normalizeCompanyName c
    let r := m.buildNameIndex.findByName c
    (∀ id : UInt32, id.toNat < m.syms.length →
      (r = id ↔ 4 ≤ n.length ∧ m.Eligible n id ∧ ∀ j, m.Eligible n j → j = id)) ∧
    ((∃ i j, i ≠ j ∧ m.Eligible n i ∧ m.Eligible n j) → r = kInvalid) ∧
    (r = kInvalid ∨ r.toNat < m.syms.length) := by
  intro n r
  have hmem : ∀ id : UInt32, id ∈ m.ids ↔ id.toNat < m.syms.length := by
    intro id
    rw [ids, List.mem_map]
    constructor
    · rintro ⟨i, hi, rfl⟩
      have hi' := List.mem_range.mp hi
      rwa [UInt32.toNat_ofNat_of_lt' (lt_of_lt_of_le hi' (hsize.trans (by decide)))]
    · exact fun h => ⟨id.toNat, List.mem_range.mpr h, UInt32.ofNat_toNat⟩
  have hidx := indexed_build m hhash hsize
    fun n id hid hold _ => (.inr ⟨id, (hmem id).mp hid, hold⟩ : m.NamesOf c n)
  have hholders : ∀ id, id ∈ m.ids.filter (m.Holds n) ↔ m.Eligible n id := by
    intro id
    rw [List.mem_filter, hmem, decide_eq_true_iff]
    rfl
  have hvalid : ∀ id : UInt32, id.toNat < m.syms.length → id ≠ kInvalid ∧ id ≠ kAmbiguous := by
    intro id hid
    constructor
    · rintro rfl
      exact absurd (lt_of_lt_of_le hid hsize) (by decide)
    · rintro rfl
      exact absurd (lt_of_lt_of_le hid hsize) (by decide)
  by_cases hlen : 4 ≤ n.length
  · have hn : m.NamesOf c n := .inl rfl
    have hr : r = match slotOf (m.ids.filter (m.Holds n)) with
        | none => kInvalid
        | some v => if v = kAmbiguous then kInvalid else v := by
      show findByName _ c = _
      unfold findByName
      simp only
      rw [if_neg (Nat.not_lt.mpr hlen), Table.find_eq _ (hhash.ne_empty n hn), ← (hidx n hn hlen).1]
      rfl
    cases hl : m.ids.filter (m.Holds n) with
    | nil =>
      rw [hl] at hr hholders
      have hnone : ∀ id, ¬ m.Eligible n id := fun id h => absurd ((hholders id).mpr h) List.not_mem_nil
      refine ⟨fun id hid => iff_of_false ?_ fun h => hnone id h.2.1, fun ⟨i, _, _, hi, _⟩ => absurd hi (hnone i),
        .inl hr⟩
      rw [hr]
      exact (hvalid id hid).1.symm
    | cons i rest =>
      rw [hl] at hr hholders
      cases rest with
      | nil =>
        have honly : ∀ id, m.Eligible n id ↔ id = i := fun id => by rw [← hholders, List.mem_singleton]
        have hi := (honly i).mpr rfl
        have hri : r = i := hr.trans (if_neg (hvalid i hi.1).2)
        refine ⟨fun id hid => ?_, ?_, .inr (hri ▸ hi.1)⟩
        · rw [hri]
          constructor
          · rintro rfl
            exact ⟨hlen, hi, fun j hj => (honly j).mp hj⟩
          · rintro ⟨-, -, hall⟩
            exact hall i hi
        · rintro ⟨j, k, hne, hj, hk⟩
          exact absurd (((honly j).mp hj).trans ((honly k).mp hk).symm) hne
      | cons j rest =>
        have hij : i ≠ j := by
          have hnodup : (m.ids.filter (m.Holds n)).Nodup := by
            refine List.Nodup.filter _ (List.Nodup.map_on ?_ List.nodup_range)
            intro x hx y hy heq
            have := congrArg UInt32.toNat heq
            rwa [UInt32.toNat_ofNat_of_lt' (lt_of_lt_of_le (List.mem_range.mp hx) (hsize.trans (by decide))),
              UInt32.toNat_ofNat_of_lt' (lt_of_lt_of_le (List.mem_range.mp hy) (hsize.trans (by decide)))] at this
          rw [hl] at hnodup
          exact fun heq => (List.nodup_cons.mp hnodup).1 (heq ▸ List.mem_cons_self)
        have hi := (hholders i).mp List.mem_cons_self
        have hj := (hholders j).mp (List.mem_cons_of_mem i List.mem_cons_self)
        have hrk : r = kInvalid := hr.trans (if_pos rfl)
        refine ⟨fun id hid => iff_of_false ?_ ?_, fun _ => hrk, .inl hrk⟩
        · rw [hrk]
          exact (hvalid id hid).1.symm
        · rintro ⟨-, -, hall⟩
          exact hij ((hall i hi).trans (hall j hj).symm)
  · have hrk : r = kInvalid := if_pos (Nat.lt_of_not_le hlen)
    refine ⟨fun id hid => iff_of_false ?_ fun h => hlen h.1, fun _ => hrk, .inl hrk⟩
    rw [hrk]
    exact (hvalid id hid).1.symm

/-- Two issuers with a common stock each. -/
def twoIssuers : Master ℚ :=
  { syms := [
      { blank with
        ticker := lit "ACMR"
        name := lit "Acme Robotics, Inc. - Common Stock"
        exchange := .nasdaqCM
        cik := 7 },
      { blank with ticker := lit "BETM", name := lit "The Beta Mining Corp", exchange := .nyse, cik := 8 }]
    byCik := fun cik => if cik = 7 then [0] else if cik = 8 then [1] else [] }

theorem eligible_twoIssuers {n : Bytes} {id : UInt32} (h : twoIssuers.Eligible n id) :
    id = 0 ∧ n = lit "ACME ROBOTICS" ∨ id = 1 ∧ n = lit "BETA MINING" := by
  obtain ⟨hid, -, -, hname⟩ := h
  have hlt : id.toNat < 2 := hid
  have hcases : id = 0 ∨ id = 1 := by
    rw [← UInt32.toNat_inj, ← UInt32.toNat_inj]
    show id.toNat = 0 ∨ id.toNat = 1
    omega
  rcases hcases with rfl | rfl
  · exact .inl ⟨rfl, hname.symm.trans (by decide +kernel)⟩
  · exact .inr ⟨rfl, hname.symm.trans (by decide +kernel)⟩

theorem findByName_acme_robotics : twoIssuers.buildNameIndex.findByName (lit "acme robotics") = 0 := by
  have hname : normalizeCompanyName (lit "acme robotics") = lit "ACME ROBOTICS" := by decide +kernel
  have hnames : ∀ n, twoIssuers.NamesOf (lit "acme robotics") n → n = lit "ACME ROBOTICS" ∨ n = lit "BETA MINING" := by
    rintro n (rfl | ⟨id, hid⟩)
    · exact .inl hname
    · exact (eligible_twoIssuers hid).imp (·.2) (·.2)
  have hhash : HashApart (twoIssuers.NamesOf (lit "acme robotics")) := by
    refine ⟨fun a b ha hb heq => ?_, fun a ha => ?_⟩
    · have hne : hashBytes (lit "ACME ROBOTICS") ≠ hashBytes (lit "BETA MINING") := by decide +kernel
      rcases hnames a ha with rfl | rfl <;> rcases hnames b hb with rfl | rfl
      exacts [rfl, absurd heq hne, absurd heq.symm hne, rfl]
    · rcases hnames a ha with rfl | rfl <;> decide +kernel
  refine ((findByName_iff twoIssuers (by decide) (lit "acme robotics") hhash).1 0 (by decide)).mpr ?_
  rw [hname]
  refine ⟨by decide, ⟨by decide, by decide +kernel⟩, fun j hj => ?_⟩
  rcases eligible_twoIssuers hj with ⟨rfl, -⟩ | ⟨-, hn⟩
  · rfl
  · exact absurd hn (by decide)

end Stok.Master
