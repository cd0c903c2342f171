import Mathlib.Data.List.GetD
import Stok.Engine.Scorer
import Stok.Lib.AhoCorasick

/-!
# The scorer finds what a naive search finds

The states of the trie are labelled with the words that lead to them (`Labelled`), and
each knows the rules whose phrase is its word (`Owned`). The breadth-first pass keeps
`Pass`: of the states already visited every transition leads to the longest suffix that
is a state, and the output lists every phrase that ends there. At the end all states are
visited, so a scan reads the automaton of `Stok.Lib.AhoCorasick`.
-/

namespace Stok.Scorer

open Lib.AhoCorasick

/-! ## The trie -/

namespace Trie

def size (T : Trie) : Nat := T.go.length

def ownAt (T : Trie) (s : Nat) : List UInt16 := T.own.getD s []

/-- `lab s` is the word that leads from the root to `s`. -/
structure Labelled (T : Trie) (lab : Nat → List Letter) : Prop where
  own_length : T.own.length = T.size
  root_lt : 0 < T.size
  root : lab 0 = []
  inj : ∀ {s t}, s < T.size → t < T.size → lab s = lab t → s = t
  parent : ∀ {t}, t < T.size → t ≠ 0 → ∃ s c, s < T.size ∧ T.row s c = t
  row_nonneg : ∀ {s c}, s < T.size → 0 ≤ T.row s c →
    ∃ t, t < T.size ∧ T.row s c = t ∧ lab t = lab s ++ [c]
  row_eq : ∀ {s c t}, s < T.size → t < T.size → lab t = lab s ++ [c] → T.row s c = t

/-- The words of the states. -/
def nodes (T : Trie) (lab : Nat → List Letter) : Set (List Letter) :=
  {w | ∃ s, s < T.size ∧ lab s = w}

/-- A state lists the words `ws` that are its own, each once. -/
structure Owned (T : Trie) (lab : Nat → List Letter) (ws : List (List Letter)) : Prop where
  mem : ∀ w ∈ ws, w ∈ T.nodes lab
  count : ∀ {s}, s < T.size → ∀ id : UInt16,
    (T.ownAt s).count id = if ws[id.toNat]? = some (lab s) then 1 else 0

theorem row_lt_zero {lab : Nat → List Letter} {T : Trie} (h : T.Labelled lab) {s : Nat}
    (hs : s < T.size) {c : Letter} (hn : T.row s c < 0) {t : Nat} (ht : t < T.size) :
    lab t ≠ lab s ++ [c] := by
  intro hl
  have := h.row_eq hs ht hl
  omega

theorem labelled_root : root.Labelled fun _ => [] where
  own_length := rfl
  root_lt := Nat.one_pos
  root := rfl
  inj := by intro s t hs ht _; simp only [root, size, List.length_singleton] at hs ht; omega
  parent := by intro t ht h0; simp only [root, size, List.length_singleton] at ht; omega
  row_nonneg := by intro s c hs h; simp [root, row, size] at hs h
  row_eq := by intro s c t _ _ h; simp at h

theorem Labelled.isNodes {T : Trie} {lab : Nat → List Letter} (h : T.Labelled lab) :
    Nodes (T.nodes lab) where
  nil := ⟨0, h.root_lt, h.root⟩
  init := by
    rintro u c ⟨t, ht, hl⟩
    have h0 : t ≠ 0 := by
      rintro rfl
      rw [h.root] at hl
      simp at hl
    obtain ⟨s, c', hs, hr⟩ := h.parent ht h0
    obtain ⟨t', ht', hr', hl'⟩ := h.row_nonneg hs (by omega : 0 ≤ T.row s c')
    obtain rfl : t' = t := by omega
    rw [hl] at hl'
    exact ⟨s, hs, (List.append_inj' hl' rfl).1.symm⟩

theorem Labelled.row_pos {T : Trie} {lab : Nat → List Letter} (h : T.Labelled lab) {s : Nat}
    (hs : s < T.size) {c : Letter} :
    0 < T.row s c ↔ lab s ++ [c] ∈ T.nodes lab := by
  constructor
  · intro hp
    obtain ⟨t, ht, -, hl⟩ := h.row_nonneg hs hp.le
    exact ⟨t, ht, hl⟩
  · rintro ⟨t, ht, hl⟩
    rw [h.row_eq hs ht hl]
    have : t ≠ 0 := by
      rintro rfl
      rw [h.root] at hl
      simp at hl
    omega

/-! ### Adding a successor -/

section child

variable {T : Trie} {lab : Nat → List Letter} {s : Nat} {c : Letter}

/-- The trie with a new state below `s`. -/
def grown (T : Trie) (s : Nat) (c : Letter) : Trie :=
  { go := T.go.set s (Function.update (T.row s) c T.go.length) ++ [fun _ => -1],
    own := T.own ++ [[]] }

theorem size_grown : (T.grown s c).size = T.size + 1 := by simp [grown, size]

theorem row_grown (hs : s < T.size) (x : Nat) (d : Letter) :
    (T.grown s c).row x d = if x = s ∧ d = c then (T.size : Int) else T.row x d := by
  unfold size at *
  rcases Nat.lt_trichotomy x T.go.length with hx | rfl | hx
  · rcases eq_or_ne s x with rfl | hne
    · rcases eq_or_ne d c with rfl | hd <;>
        simp_all [row, grown, List.getD_eq_getElem?_getD, List.getElem?_append_left]
    · simp [row, grown, List.getD_eq_getElem?_getD, List.getElem?_append_left, hx, hne, hne.symm]
  · simp [row, grown, List.getD_eq_getElem?_getD, hs.ne']
  · have hx' : T.go.length + 1 ≤ x := hx
    have hne : x ≠ s := by omega
    simp [row, grown, List.getD_eq_getElem?_getD, hne, List.getElem?_eq_none, hx', hx.le]

theorem ownAt_grown (x : Nat) : (T.grown s c).ownAt x = T.ownAt x := by
  rcases Nat.lt_or_ge x T.own.length with hx | hx
  · simp [ownAt, grown, List.getD_eq_getElem?_getD, List.getElem?_append_left hx]
  · rcases Nat.eq_or_lt_of_le hx with rfl | hx'
    · simp [ownAt, grown, List.getD_eq_getElem?_getD]
    · simp [ownAt, grown, List.getD_eq_getElem?_getD, List.getElem?_eq_none, hx, Nat.succ_le_of_lt hx']

theorem Labelled.grown (h : T.Labelled lab) (hs : s < T.size) (hn : T.row s c < 0) :
    (T.grown s c).Labelled (Function.update lab T.size (lab s ++ [c])) := by
  have hsz := size_grown (T := T) (s := s) (c := c)
  have hlab : ∀ {x}, x < T.size → Function.update lab T.size (lab s ++ [c]) x = lab x :=
    fun hx => Function.update_of_ne hx.ne _ _
  have hnew : Function.update lab T.size (lab s ++ [c]) T.size = lab s ++ [c] :=
    Function.update_self ..
  have hfresh := fun {t} => row_lt_zero h hs hn (t := t)
  constructor
  case own_length => simp [Trie.grown, h.own_length, size]
  case root_lt => omega
  case root => rw [hlab h.root_lt, h.root]
  case inj =>
    intro x y hx hy hxy
    rcases Nat.lt_or_ge x T.size with hx' | hx' <;> rcases Nat.lt_or_ge y T.size with hy' | hy'
    · rw [hlab hx', hlab hy'] at hxy
      exact h.inj hx' hy' hxy
    · obtain rfl : y = T.size := by omega
      rw [hlab hx', hnew] at hxy
      exact absurd hxy (hfresh hx')
    · obtain rfl : x = T.size := by omega
      rw [hlab hy', hnew] at hxy
      exact absurd hxy.symm (hfresh hy')
    · omega
  case parent =>
    intro t ht h0
    rcases Nat.lt_or_ge t T.size with ht' | ht'
    · obtain ⟨x, d, hx, hr⟩ := h.parent ht' h0
      refine ⟨x, d, by omega, ?_⟩
      rw [row_grown hs, if_neg, hr]
      rintro ⟨rfl, rfl⟩
      omega
    · refine ⟨s, c, by omega, ?_⟩
      rw [row_grown hs, if_pos ⟨rfl, rfl⟩]
      omega
  case row_nonneg =>
    intro x d hx hr
    rw [row_grown hs] at hr ⊢
    split at hr
    · rename_i hxd
      obtain ⟨rfl, rfl⟩ := hxd
      exact ⟨T.size, by omega, by simp, by rw [hnew, hlab hs]⟩
    · rename_i hxd
      rcases Nat.lt_or_ge x T.size with hx' | hx'
      · obtain ⟨t, ht, hrt, hl⟩ := h.row_nonneg hx' hr
        exact ⟨t, by omega, by rw [if_neg hxd, hrt], by rw [hlab ht, hlab hx', hl]⟩
      · have : T.row x d = -1 := by
          simp [row, List.getD_eq_getElem?_getD, List.getElem?_eq_none (show T.go.length ≤ x from hx')]
        omega
  case row_eq =>
    intro x d t hx ht hl
    rw [row_grown hs]
    rcases Nat.lt_or_ge t T.size with ht' | ht'
    · rw [hlab ht'] at hl
      rcases Nat.lt_or_ge x T.size with hx' | hx'
      · rw [hlab hx'] at hl
        rw [if_neg, h.row_eq hx' ht' hl]
        rintro ⟨rfl, rfl⟩
        exact hfresh ht' hl
      · -- a state below the new one would have been a successor of `s` first
        obtain rfl : x = T.size := by omega
        rw [hnew] at hl
        obtain ⟨y, hy, hly⟩ := h.isNodes.init _ _ ⟨t, ht', hl⟩
        exact absurd hly (hfresh hy)
    · obtain rfl : t = T.size := by omega
      rw [hnew] at hl
      rcases Nat.lt_or_ge x T.size with hx' | hx'
      · rw [hlab hx'] at hl
        obtain ⟨hsx, hcd⟩ := List.append_inj' hl rfl
        cases hcd
        rw [if_pos ⟨(h.inj hs hx' hsx).symm, rfl⟩]
      · obtain rfl : x = T.size := by omega
        rw [hnew] at hl
        simpa using congrArg List.length hl

end child

/-- What walking down a path leaves: an old trie grown, and the state of the path. -/
structure Extends (T : Trie) (lab : Nat → List Letter) (T' : Trie) (lab' : Nat → List Letter) :
    Prop where
  labelled : T'.Labelled lab'
  size_le : T.size ≤ T'.size
  lab_eq : ∀ x, x < T.size → lab' x = lab x
  ownAt_eq : ∀ x, T'.ownAt x = T.ownAt x

theorem Extends.refl {T : Trie} {lab : Nat → List Letter} (h : T.Labelled lab) :
    T.Extends lab T lab := ⟨h, le_rfl, fun _ _ => rfl, fun _ => rfl⟩

theorem Extends.trans {T T' T'' : Trie} {lab lab' lab'' : Nat → List Letter}
    (h : T.Extends lab T' lab') (h' : T'.Extends lab' T'' lab'') : T.Extends lab T'' lab'' where
  labelled := h'.labelled
  size_le := h.size_le.trans h'.size_le
  lab_eq x hx := (h'.lab_eq x (hx.trans_le h.size_le)).trans (h.lab_eq x hx)
  ownAt_eq x := (h'.ownAt_eq x).trans (h.ownAt_eq x)

theorem child_spec {T : Trie} {lab : Nat → List Letter} (h : T.Labelled lab) {s : Nat}
    (hs : s < T.size) (c : Letter) :
    ∃ lab', T.Extends lab (T.child s c).1 lab' ∧ (T.child s c).2 < (T.child s c).1.size ∧
      lab' (T.child s c).2 = lab s ++ [c] := by
  rcases lt_or_ge (T.row s c) 0 with hr | hr
  · have e : T.child s c = (T.grown s c, T.size) := by simp [child, hr, grown, size]
    rw [e]
    refine ⟨Function.update lab T.size (lab s ++ [c]), ?_, by simp [size_grown], by simp⟩
    exact ⟨h.grown hs hr, by simp [size_grown], fun x hx => Function.update_of_ne hx.ne _ _,
      ownAt_grown⟩
  · obtain ⟨t, ht, hrt, hl⟩ := h.row_nonneg hs hr
    have e : T.child s c = (T, t) := by simp [child, hrt]
    rw [e]
    exact ⟨lab, .refl h, ht, hl⟩

theorem path_spec {T : Trie} {lab : Nat → List Letter} (h : T.Labelled lab) {s : Nat}
    (hs : s < T.size) (w : List Letter) :
    ∃ lab', T.Extends lab (T.path s w).1 lab' ∧ (T.path s w).2 < (T.path s w).1.size ∧
      lab' (T.path s w).2 = lab s ++ w := by
  induction w generalizing T lab s with
  | nil => exact ⟨lab, .refl h, hs, by simp [path]⟩
  | cons c w ih =>
    obtain ⟨lab₁, hx₁, ht₁, hl₁⟩ := child_spec h hs c
    obtain ⟨lab₂, hx₂, ht₂, hl₂⟩ := ih hx₁.labelled ht₁
    exact ⟨lab₂, hx₁.trans hx₂, ht₂, by rw [path, hl₂, hl₁]; simp⟩

theorem Owned.extend {T T' : Trie} {lab lab' : Nat → List Letter} {ws : List (List Letter)}
    (ho : T.Owned lab ws) (h : T.Labelled lab) (hx : T.Extends lab T' lab') :
    T'.Owned lab' ws where
  mem w hw := by
    obtain ⟨s, hs, hl⟩ := ho.mem w hw
    exact ⟨s, hs.trans_le hx.size_le, by rw [hx.lab_eq s hs, hl]⟩
  count := by
    intro x hxs id
    rw [hx.ownAt_eq]
    rcases Nat.lt_or_ge x T.size with hx' | hx'
    · rw [ho.count hx', hx.lab_eq x hx']
    · -- a state that is new owns nothing, and no word leads to it
      have hnil : T.ownAt x = [] := by
        rw [← h.own_length] at hx'
        simp [ownAt, List.getD_eq_getElem?_getD, List.getElem?_eq_none hx']
      rw [hnil, List.count_nil, if_neg]
      intro hw
      obtain ⟨y, hy, hl⟩ := ho.mem _ (List.mem_of_getElem? hw)
      rw [← hx.lab_eq y hy] at hl
      have := hx.labelled.inj (hy.trans_le hx.size_le) hxs hl
      omega

theorem ownAt_modify {T : Trie} {s : Nat} (hs : s < T.own.length) (id : UInt16) (x : Nat) :
    ({ T with own := T.own.modify s (· ++ [id]) } : Trie).ownAt x =
      T.ownAt x ++ if x = s then [id] else [] := by
  rcases eq_or_ne s x with rfl | hne
  · simp [ownAt, List.getD_eq_getElem?_getD, hs]
  · simp [ownAt, List.getD_eq_getElem?_getD, hne, hne.symm]

theorem insert_spec {T : Trie} {lab : Nat → List Letter} {ws : List (List Letter)}
    (h : T.Labelled lab) (ho : T.Owned lab ws) (hlen : ws.length < 2 ^ 16) (w : List Letter) :
    ∃ lab', (T.insert ws.length w).Labelled lab' ∧
      (T.insert ws.length w).Owned lab' (ws ++ [w]) := by
  obtain ⟨lab', hx, hs, hl⟩ := path_spec h h.root_lt w
  rw [h.root, List.nil_append] at hl
  have ho' := ho.extend h hx
  have hsown : (T.path 0 w).2 < (T.path 0 w).1.own.length := by
    rw [hx.labelled.own_length]; exact hs
  have hid : (UInt16.ofNat ws.length).toNat = ws.length := by
    rw [UInt16.toNat_ofNat']
    exact Nat.mod_eq_of_lt hlen
  have hown := ownAt_modify hsown (UInt16.ofNat ws.length)
  refine ⟨lab', ?_, ?_, ?_⟩
  · have hlab := hx.labelled
    exact ⟨by simpa [insert, size] using hlab.own_length, hlab.root_lt, hlab.root, hlab.inj,
      hlab.parent, hlab.row_nonneg, hlab.row_eq⟩
  · intro v hv
    rcases List.mem_append.1 hv with hv | hv
    · exact ho'.mem v hv
    · rw [List.mem_singleton.1 hv]
      exact ⟨_, hs, hl⟩
  · intro x hxs id
    have hxs' : x < (T.path 0 w).1.size := hxs
    rw [show (T.insert ws.length w).ownAt x = _ from hown x, List.count_append, ho'.count hxs']
    rcases eq_or_ne id (UInt16.ofNat ws.length) with rfl | hne
    · -- the new id: its word is the label of the state at the end of the path, and of no other
      have hlx : w = lab' x ↔ x = (T.path 0 w).2 :=
        ⟨fun e => hx.labelled.inj hxs' hs (by rw [hl, e]), fun e => by rw [e, hl]⟩
      rw [hid]
      by_cases hxe : x = (T.path 0 w).2
      · simp [hxe, hl]
      · simp [hxe, hlx]
    · have hlt : id.toNat ≠ ws.length := by
        intro e
        exact hne (UInt16.toNat_inj.1 (by rw [hid, e]))
      have hget : (ws ++ [w])[id.toNat]? = ws[id.toNat]? := by
        rcases Nat.lt_or_ge id.toNat ws.length with hi | hi
        · rw [List.getElem?_append_left hi]
        · rw [List.getElem?_eq_none (by simp; omega), List.getElem?_eq_none hi]
      have hzero : (if x = (T.path 0 w).2 then [UInt16.ofNat ws.length] else []).count id = 0 := by
        split
        · exact List.count_eq_zero.2 (by simpa using hne)
        · rfl
      rw [hget, hzero, Nat.add_zero]

/-- The trie of a list of words. -/
theorem ofWords_spec (ws : List (List Letter)) (hlen : ws.length ≤ 2 ^ 16) :
    ∃ lab, (ofWords ws).Labelled lab ∧ (ofWords ws).Owned lab ws := by
  induction ws using List.reverseRecOn with
  | nil =>
    refine ⟨fun _ => [], labelled_root, fun w hw => (List.not_mem_nil hw).elim, ?_⟩
    intro s hs id
    obtain rfl : s = 0 := by simpa [ofWords, root, size] using hs
    rfl
  | append_singleton ws w ih =>
    rw [List.length_append, List.length_singleton] at hlen
    obtain ⟨lab, h, ho⟩ := ih (by omega)
    have e : ofWords (ws ++ [w]) = (ofWords ws).insert ws.length w := by
      simp [ofWords, List.zipIdx_append]
    rw [e]
    exact insert_spec h ho (by omega) w

/-- The successors of `s`. -/
def children (T : Trie) (s : Nat) : List Nat :=
  (List.finRange kAlpha).filterMap fun c => if 0 < T.row s c then some (T.row s c).toNat else none

theorem mem_children {T : Trie} {s t : Nat} :
    t ∈ T.children s ↔ ∃ c, T.row s c = t ∧ 0 < t := by
  simp only [children, List.mem_filterMap, List.mem_finRange, true_and]
  constructor
  · rintro ⟨c, h⟩
    split at h <;> simp at h
    exact ⟨c, by omega⟩
  · rintro ⟨c, h, h0⟩
    exact ⟨c, by simp [h, h0]⟩

theorem Labelled.lab_child {T : Trie} {lab : Nat → List Letter} (h : T.Labelled lab) {s t : Nat}
    {c : Letter} (hs : s < T.size) (hr : T.row s c = t) : t < T.size ∧ lab t = lab s ++ [c] := by
  obtain ⟨t', ht', hr', hl⟩ := h.row_nonneg hs (by omega : 0 ≤ T.row s c)
  obtain rfl : t' = t := by omega
  exact ⟨ht', hl⟩

theorem Labelled.nodup_children {T : Trie} {lab : Nat → List Letter} (h : T.Labelled lab)
    {s : Nat} (hs : s < T.size) : (T.children s).Nodup := by
  refine List.Nodup.filterMap ?_ (List.nodup_finRange kAlpha)
  intro c c' t hc hc'
  simp only [Option.mem_def, Option.ite_none_right_eq_some, Option.some.injEq] at hc hc'
  have h1 := (h.lab_child hs (show T.row s c = t by omega)).2
  have h2 := (h.lab_child hs (show T.row s c' = t by omega)).2
  rw [h1] at h2
  simpa using h2

end Trie

/-! ## The breadth-first pass -/

namespace Bfs

structure Sized (n : Nat) (b : Bfs) : Prop where
  fail : b.fail.length = n
  delta : b.delta.length = n * kAlpha
  outs : b.outs.length = n

/-- Where the transition of `s` on `c` leads when the failure state's leads to `d`. -/
def target (T : Trie) (s : Nat) (c : Letter) (d : UInt16) : UInt16 :=
  if 0 < T.row s c then UInt16.ofNat (T.row s c).toNat else d

section link

variable {T : Trie} {lab : Nat → List Letter} {b : Bfs} {s : Nat} {c : Letter} {d : UInt16}

theorem Sized.link (h : Sized T.size b) : Sized T.size (b.link T s c d) := by
  unfold Bfs.link
  dsimp only
  split <;> exact ⟨by simpa using h.fail, by simpa using h.delta, h.outs⟩

theorem outs_link : (b.link T s c d).outs = b.outs := by
  unfold Bfs.link
  dsimp only
  split <;> rfl

theorem outs_foldl (cs : List Letter) (d : Letter → UInt16) (b : Bfs) :
    (cs.foldl (fun b c => b.link T s c (d c)) b).outs = b.outs := by
  induction cs generalizing b with
  | nil => rfl
  | cons c cs ih => rw [List.foldl_cons, ih, outs_link]

theorem failAt_link (hT : T.Labelled lab) (h : Sized T.size b) (hs : s < T.size) (x : Nat) :
    (b.link T s c d).failAt x =
      if 0 < T.row s c ∧ T.row s c = x then d.toNat else b.failAt x := by
  unfold Bfs.link
  dsimp only
  split
  · rename_i hr
    obtain ⟨t, ht, hrt, -⟩ := hT.row_nonneg hs hr.le
    rw [← h.fail] at ht
    rcases eq_or_ne t x with rfl | hne
    · simp only [failAt, hrt, Int.toNat_natCast, List.getD_eq_getElem?_getD]
      have h0 : t ≠ 0 := by omega
      simp [ht, h0]
    · simp only [failAt, hrt, Int.toNat_natCast, List.getD_eq_getElem?_getD]
      simp [hne]
  · rename_i hr
    simp [failAt, hr]

theorem flat_index {s x : Nat} {c e : Letter} :
    s * kAlpha + (c : Nat) = x * kAlpha + (e : Nat) ↔ s = x ∧ c = e := by
  have hc := c.isLt
  have he := e.isLt
  rw [Fin.ext_iff]
  simp only [kAlpha] at *
  omega

theorem flat_lt {s n : Nat} (hs : s < n) (c : Letter) : s * kAlpha + (c : Nat) < n * kAlpha := by
  have hc := c.isLt
  simp only [kAlpha] at *
  omega

theorem deltaAt_link (h : Sized T.size b) (hs : s < T.size) (x : Nat) (e : Letter) :
    (b.link T s c d).deltaAt x e =
      if x = s ∧ e = c then target T s c d else b.deltaAt x e := by
  have hidx : s * kAlpha + (c : Nat) < b.delta.length := by rw [h.delta]; exact flat_lt hs c
  have hset : ∀ v : UInt16, (b.delta.set (s * kAlpha + c) v).getD (x * kAlpha + e) 0 =
      if x = s ∧ e = c then v else b.deltaAt x e := by
    intro v
    rw [List.getD_eq_getElem?_getD, List.getElem?_set]
    by_cases hse : x = s ∧ e = c
    · obtain ⟨rfl, rfl⟩ := hse
      simp [hidx]
    · rw [if_neg (fun he => hse ⟨(flat_index.1 he).1.symm, (flat_index.1 he).2.symm⟩), if_neg hse,
        deltaAt, List.getD_eq_getElem?_getD]
  unfold Bfs.link target
  dsimp only
  split
  · exact hset _
  · exact hset _

end link

/-- The row of `s` written, its successors queued with their failure states. -/
structure Linked (T : Trie) (s : Nat) (d : Letter → UInt16) (cs : List Letter) (b b' : Bfs) :
    Prop where
  sized : Sized T.size b'
  q : b'.q = b.q ++ cs.filterMap fun c =>
    if 0 < T.row s c then some (T.row s c).toNat else none
  fail_other : ∀ x : Nat, (∀ c, T.row s c ≠ x) → b'.failAt x = b.failAt x
  fail_skip : ∀ (c : Letter) (x : Nat), T.row s c = x → c ∉ cs → b'.failAt x = b.failAt x
  fail_child : ∀ c ∈ cs, ∀ t : Nat, 0 < t → T.row s c = t → b'.failAt t = (d c).toNat
  delta_other : ∀ x e, x ≠ s ∨ e ∉ cs → b'.deltaAt x e = b.deltaAt x e
  delta_self : ∀ c ∈ cs, b'.deltaAt s c = target T s c (d c)

theorem linked_foldl {T : Trie} {lab : Nat → List Letter} (hT : T.Labelled lab) {s : Nat}
    (hs : s < T.size) (d : Letter → UInt16) (cs : List Letter) (hcs : cs.Nodup) (b : Bfs)
    (hb : Sized T.size b) :
    Linked T s d cs b (cs.foldl (fun b c => b.link T s c (d c)) b) := by
  have hinj : ∀ {c e : Letter} {x : Nat}, T.row s c = x → T.row s e = x → c = e := by
    intro c e x hc he
    have h1 := (hT.lab_child hs hc).2
    rw [(hT.lab_child hs he).2] at h1
    simpa using h1.symm
  induction cs generalizing b with
  | nil =>
    exact ⟨hb, by simp, fun _ _ => rfl, fun _ _ _ _ => rfl, by simp, fun _ _ _ => rfl, by simp⟩
  | cons c cs ih =>
    obtain ⟨hc, hcs⟩ := List.nodup_cons.1 hcs
    have hl := ih hcs (b.link T s c (d c)) hb.link
    rw [List.foldl_cons]
    refine ⟨hl.sized, ?_, ?_, ?_, ?_, ?_, ?_⟩
    · rw [hl.q, Bfs.link]
      by_cases hr : 0 < T.row s c <;> simp [hr]
    · intro x hx
      rw [hl.fail_other x hx, failAt_link hT hb hs, if_neg (fun h => hx c h.2)]
    · intro e x he hmem
      rw [List.mem_cons, not_or] at hmem
      obtain ⟨hne, hmem⟩ := hmem
      rw [hl.fail_skip e x he hmem, failAt_link hT hb hs, if_neg (fun h => hne (hinj he h.2))]
    · intro e he t ht hr
      rcases List.mem_cons.1 he with rfl | he
      · rw [hl.fail_skip e t hr hc, failAt_link hT hb hs, if_pos ⟨by omega, hr⟩]
      · exact hl.fail_child e he t ht hr
    · intro x e hx
      rw [hl.delta_other x e (hx.imp_right fun h => fun hm => h (List.mem_cons_of_mem c hm)),
        deltaAt_link hb hs, if_neg]
      rintro ⟨rfl, rfl⟩
      simp at hx
    · intro e he
      rcases List.mem_cons.1 he with rfl | he
      · rw [hl.delta_other s e (.inr hc), deltaAt_link hb hs, if_pos ⟨rfl, rfl⟩]
      · exact hl.delta_self e he

/-- The loop over the letters reads the row of the failure state, which it does not write. -/
theorem foldl_visit {T : Trie} {lab : Nat → List Letter} (hT : T.Labelled lab) {s : Nat}
    (hs : s < T.size) (d : Letter → UInt16) (f : Nat) (hf : f ≠ s) (cs : List Letter) (b : Bfs)
    (hb : Sized T.size b) (hfail : b.failAt s = f) (hd : ∀ c, b.deltaAt f c = d c) :
    cs.foldl (fun b c => b.link T s c (b.deltaAt (b.failAt s) c)) b =
      cs.foldl (fun b c => b.link T s c (d c)) b := by
  induction cs generalizing b with
  | nil => rfl
  | cons c cs ih =>
    rw [List.foldl_cons, List.foldl_cons, hfail, hd c]
    refine ih _ hb.link ?_ ?_
    · rw [failAt_link hT hb hs, if_neg, hfail]
      rintro ⟨-, hr⟩
      simpa using congrArg List.length (hT.lab_child hs hr).2
    · intro e
      rw [deltaAt_link hb hs, if_neg (fun h => hf h.1), hd]

/-- The states visited and the queue of those to visit, in the order of their depth. -/
structure Frontier (T : Trie) (lab : Nat → List Letter) (q : List Nat) (P : Finset Nat) :
    Prop where
  root : 0 ∈ P ∨ 0 ∈ q
  lt : ∀ {s}, s ∈ P ∨ s ∈ q → s < T.size
  fresh : ∀ {s}, s ∈ q → s ∉ P
  nodup : q.Nodup
  down : ∀ {s t}, s ∈ P → t ∈ T.children s → t ∈ P ∨ t ∈ q
  up : ∀ {t}, t ∈ P ∨ t ∈ q → t ≠ 0 → ∃ s ∈ P, t ∈ T.children s
  sorted : q.Pairwise fun s t => (lab s).length ≤ (lab t).length
  span : ∀ {s t}, s ∈ q → t ∈ q → (lab t).length ≤ (lab s).length + 1

namespace Frontier

variable {T : Trie} {lab : Nat → List Letter} {q : List Nat} {P : Finset Nat} {s : Nat}

/-- A state is visited, or one as near to the root is queued. -/
theorem reached (h : Frontier T lab q P) (hT : T.Labelled lab) {t : Nat} (ht : t < T.size) :
    t ∈ P ∨ ∃ x ∈ q, (lab x).length ≤ (lab t).length := by
  obtain ⟨n, hn⟩ : ∃ n, n = (lab t).length := ⟨_, rfl⟩
  -- walking up from `t`, by the length of its word
  induction n using Nat.strong_induction_on generalizing t with
  | h n ih =>
    rcases eq_or_ne t 0 with rfl | h0
    · exact h.root.imp_right fun hq => ⟨0, hq, le_rfl⟩
    · obtain ⟨p, c, hp, hr⟩ := hT.parent ht h0
      have hl := congrArg List.length (hT.lab_child hp hr).2
      rw [List.length_append, List.length_singleton] at hl
      rcases ih _ (by omega) hp rfl with hpP | ⟨x, hx, hxl⟩
      · refine (h.down hpP (Trie.mem_children.2 ⟨c, hr, Nat.pos_of_ne_zero h0⟩)).imp_right ?_
        exact fun hq => ⟨t, hq, le_rfl⟩
      · exact .inr ⟨x, hx, by omega⟩

/-- The states nearer to the root than the front of the queue are visited. -/
theorem shallow (h : Frontier T lab (s :: q) P) (hT : T.Labelled lab) {t : Nat}
    (ht : t < T.size) (hl : (lab t).length < (lab s).length) : t ∈ P := by
  refine (h.reached hT ht).resolve_right ?_
  rintro ⟨x, hx, hxl⟩
  rcases List.mem_cons.1 hx with rfl | hx
  · omega
  · have := (List.pairwise_cons.1 h.sorted).1 x hx
    omega

theorem all (h : Frontier T lab [] P) (hT : T.Labelled lab) {t : Nat} (ht : t < T.size) :
    t ∈ P :=
  (h.reached hT ht).resolve_right (by simp)

theorem init (hT : T.Labelled lab) : Frontier T lab [0] ∅ where
  root := by simp
  lt := by simpa using hT.root_lt
  fresh := by simp
  nodup := by simp
  down := by simp
  up := by simp
  sorted := by simp
  span := by simp

/-- A successor of the front of the queue is seen for the first time. -/
theorem child_fresh (h : Frontier T lab (s :: q) P) (hT : T.Labelled lab) {t : Nat}
    (ht : t ∈ T.children s) : ¬ (t ∈ P ∨ t ∈ s :: q) := by
  intro hseen
  have hs : s ∉ P := h.fresh (List.mem_cons_self ..)
  have hslt := h.lt (.inr (List.mem_cons_self ..) : s ∈ P ∨ s ∈ s :: q)
  obtain ⟨c, hr, h0⟩ := Trie.mem_children.1 ht
  obtain ⟨p, hp, htp⟩ := h.up hseen h0.ne'
  obtain ⟨c', hr', -⟩ := Trie.mem_children.1 htp
  have hl := (hT.lab_child hslt hr).2
  rw [(hT.lab_child (h.lt (.inl hp)) hr').2] at hl
  exact hs (hT.inj (h.lt (.inl hp)) hslt (List.append_inj' hl rfl).1 ▸ hp)

theorem visit (h : Frontier T lab (s :: q) P) (hT : T.Labelled lab) :
    Frontier T lab (q ++ T.children s) (insert s P) := by
  have hs : s < T.size := h.lt (.inr (List.mem_cons_self ..))
  have hlab : ∀ {t}, t ∈ T.children s → (lab t).length = (lab s).length + 1 := by
    intro t ht
    obtain ⟨c, hr, -⟩ := Trie.mem_children.1 ht
    simpa using congrArg List.length (hT.lab_child hs hr).2
  obtain ⟨hfront, hsorted⟩ := List.pairwise_cons.1 h.sorted
  obtain ⟨hsq, hnodup⟩ := List.nodup_cons.1 h.nodup
  have hnear : ∀ {x}, x ∈ q → (lab x).length ≤ (lab s).length + 1 := fun hx =>
    h.span (List.mem_cons_self ..) (List.mem_cons_of_mem _ hx)
  -- what was seen before is seen now
  have hkeep : ∀ {x}, x ∈ P ∨ x ∈ s :: q → x ∈ insert s P ∨ x ∈ q ++ T.children s := by
    intro x hx
    simp only [Finset.mem_insert, List.mem_append, List.mem_cons] at hx ⊢
    tauto
  have hseen : ∀ {x}, x ∈ insert s P ∨ x ∈ q ++ T.children s →
      (x ∈ P ∨ x ∈ s :: q) ∨ x ∈ T.children s := by
    intro x hx
    simp only [Finset.mem_insert, List.mem_append, List.mem_cons] at hx ⊢
    tauto
  constructor
  case root => exact hkeep h.root
  case lt =>
    intro x hx
    rcases hseen hx with hx | hx
    · exact h.lt hx
    · obtain ⟨c, hr, -⟩ := Trie.mem_children.1 hx
      exact (hT.lab_child hs hr).1
  case fresh =>
    intro x hx hP
    rcases List.mem_append.1 hx with hxq | hxc <;> rcases Finset.mem_insert.1 hP with rfl | hxP
    · exact hsq hxq
    · exact h.fresh (List.mem_cons_of_mem _ hxq) hxP
    · exact h.child_fresh hT hxc (.inr (List.mem_cons_self ..))
    · exact h.child_fresh hT hxc (.inl hxP)
  case nodup =>
    refine List.nodup_append.2 ⟨hnodup, hT.nodup_children hs, ?_⟩
    rintro x hx _ hc rfl
    exact h.child_fresh hT hc (.inr (List.mem_cons_of_mem _ hx))
  case down =>
    intro x t hx ht
    rcases Finset.mem_insert.1 hx with rfl | hx
    · exact .inr (List.mem_append_right _ ht)
    · exact hkeep (h.down hx ht)
  case up =>
    intro t ht h0
    rcases hseen ht with ht | ht
    · obtain ⟨p, hp, htp⟩ := h.up ht h0
      exact ⟨p, Finset.mem_insert_of_mem hp, htp⟩
    · exact ⟨s, Finset.mem_insert_self .., ht⟩
  case sorted =>
    refine List.pairwise_append.2 ⟨hsorted, ?_, ?_⟩
    · refine List.Pairwise.imp_of_mem ?_ (hT.nodup_children hs)
      intro a b ha hb _
      rw [hlab ha, hlab hb]
    · intro a ha b hb
      rw [hlab hb]
      exact hnear ha
  case span =>
    intro a b ha hb
    have hge : (lab s).length ≤ (lab a).length := by
      rcases List.mem_append.1 ha with ha | ha
      · exact hfront a ha
      · rw [hlab ha]; omega
    have hle : (lab b).length ≤ (lab s).length + 1 := by
      rcases List.mem_append.1 hb with hb | hb
      · exact hnear hb
      · rw [hlab hb]
    omega

end Frontier

/-- The word of rule `id` ends at `u`. -/
def endsAt (ws : List (List Letter)) (id : UInt16) (u : List Letter) : Bool :=
  ws[id.toNat]?.any fun w => decide (w <:+ u)

/-- The invariant of the pass: the rows and outputs of the visited states `P` and the failure
states of the visited and the queued ones are final. -/
structure Pass (T : Trie) (lab : Nat → List Letter) (ws : List (List Letter)) (b : Bfs)
    (P : Finset Nat) : Prop where
  sized : Sized T.size b
  frontier : Frontier T lab b.q P
  fail : ∀ {t}, t ∈ P ∨ t ∈ b.q → t ≠ 0 →
    b.failAt t < T.size ∧ Longest (T.nodes lab) (lab t).tail (lab (b.failAt t))
  delta : ∀ {s}, s ∈ P → ∀ c, (b.deltaAt s c).toNat < T.size ∧
    Longest (T.nodes lab) (lab s ++ [c]) (lab (b.deltaAt s c).toNat)
  outs : ∀ {s}, s ∈ P → ∀ id, (b.outsAt s).count id = if endsAt ws id (lab s) then 1 else 0

namespace Pass

variable {T : Trie} {lab : Nat → List Letter} {ws : List (List Letter)} {b b' : Bfs}
  {P : Finset Nat} {s : Nat} {q : List Nat} {d : Letter → UInt16}

/-- Where a state's transition leads, given where its tail's leads. -/
theorem target_spec (hT : T.Labelled lab) (hsize : T.size ≤ 2 ^ 16) (hs : s < T.size) (c : Letter)
    {v : UInt16} (hv : v.toNat < T.size)
    (hl : Longest (T.nodes lab) (lab s ++ [c]).tail (lab v.toNat)) :
    (target T s c v).toNat < T.size ∧
      Longest (T.nodes lab) (lab s ++ [c]) (lab (target T s c v).toNat) := by
  unfold target
  split
  · rename_i hr
    obtain ⟨t, ht, hrt, hlt⟩ := hT.row_nonneg hs hr.le
    have e : (UInt16.ofNat (T.row s c).toNat).toNat = t := by
      rw [hrt, Int.toNat_natCast, UInt16.toNat_ofNat']
      exact Nat.mod_eq_of_lt (ht.trans_le hsize)
    rw [e, hlt]
    exact ⟨ht, .self ⟨t, ht, hlt⟩⟩
  · rename_i hr
    exact ⟨hv, hl.of_tail (fun hmem => hr ((hT.row_pos hs).2 hmem))⟩

/-- Visiting the front of the queue, given where the transitions of its tail lead. -/
theorem visited (h : Pass T lab ws b P) (hT : T.Labelled lab) (hsize : T.size ≤ 2 ^ 16)
    (hq : b.q = s :: q) (hl : Linked T s d (List.finRange kAlpha) { b with q := q } b')
    {o : List UInt16} (houts : b'.outs = b.outs.set s o)
    (hd : ∀ c, (d c).toNat < T.size ∧ Longest (T.nodes lab) (lab s ++ [c]).tail (lab (d c).toNat))
    (ho : ∀ id, o.count id = if endsAt ws id (lab s) then 1 else 0) :
    Pass T lab ws b' (insert s P) := by
  have hf : Frontier T lab (s :: q) P := hq ▸ h.frontier
  have hs : s < T.size := hf.lt (.inr (List.mem_cons_self ..))
  have hsP : s ∉ P := hf.fresh (List.mem_cons_self ..)
  have hq' : b'.q = q ++ T.children s := hl.q
  constructor
  case sized =>
    exact hl.sized
  case frontier => exact hq' ▸ hf.visit hT
  case fail =>
    intro t ht h0
    by_cases hc : t ∈ T.children s
    · obtain ⟨c, hr, hpos⟩ := Trie.mem_children.1 hc
      have e : b'.failAt t = (d c).toNat := hl.fail_child c (List.mem_finRange c) t hpos hr
      have hlt := (hT.lab_child hs hr).2
      rw [e, hlt]
      exact hd c
    · have e : b'.failAt t = b.failAt t :=
        hl.fail_other t fun c hr => hc (Trie.mem_children.2 ⟨c, hr, Nat.pos_of_ne_zero h0⟩)
      rw [e]
      refine h.fail ?_ h0
      rw [hq]
      have ht' : t ∈ insert s P ∨ t ∈ q ++ T.children s := hq' ▸ ht
      simp only [Finset.mem_insert, List.mem_append, List.mem_cons] at ht' ⊢
      tauto
  case delta =>
    intro x hx c
    rcases Finset.mem_insert.1 hx with rfl | hx
    · rw [hl.delta_self c (List.mem_finRange c)]
      exact target_spec hT hsize hs c (hd c).1 (hd c).2
    · rw [hl.delta_other x c (.inl fun e => hsP (e ▸ hx))]
      exact h.delta hx c
  case outs =>
    intro x hx id
    rcases Finset.mem_insert.1 hx with rfl | hx
    · have hxo : x < b.outs.length := by rw [h.sized.outs]; exact hs
      simpa [outsAt, houts, List.getD_eq_getElem?_getD, hxo] using ho id
    · have hne : s ≠ x := fun e => hsP (e ▸ hx)
      simpa [outsAt, houts, List.getD_eq_getElem?_getD, hne] using h.outs hx id

theorem endsAt_nil (id : UInt16) : endsAt ws id [] = (ws[id.toNat]? == some []) := by
  unfold endsAt
  cases ws[id.toNat]? with
  | none => rfl
  | some w => cases w <;> simp

theorem start (hT : T.Labelled lab) (ho : T.Owned lab ws) (hsize : T.size ≤ 2 ^ 16) :
    Pass T lab ws (Bfs.start T) {0} := by
  let b₀ : Bfs :=
    { fail := List.replicate T.size 0, delta := List.replicate (T.size * kAlpha) 0,
      outs := List.replicate T.size [], q := [0] }
  have h₀ : Pass T lab ws b₀ ∅ :=
    ⟨⟨by simp [b₀], by simp [b₀], by simp [b₀]⟩, .init hT,
      by intro t ht h0; simp [b₀, h0] at ht, by simp, by simp⟩
  have hl := linked_foldl hT hT.root_lt (fun _ => 0) (List.finRange kAlpha)
    (List.nodup_finRange kAlpha) { b₀ with q := [] } ⟨by simp [b₀], by simp [b₀], by simp [b₀]⟩
  have houts := outs_foldl (T := T) (s := 0) (List.finRange kAlpha) (fun _ => 0)
    { b₀ with q := [] }
  have hl' : Linked T 0 (fun _ => 0) (List.finRange kAlpha) { b₀ with q := [] } (Bfs.start T) :=
    ⟨⟨hl.sized.fail, hl.sized.delta, (List.length_set ..).trans hl.sized.outs⟩, hl.q,
      hl.fail_other, hl.fail_skip, hl.fail_child, hl.delta_other, hl.delta_self⟩
  refine h₀.visited hT hsize rfl hl' (o := T.own.getD 0 []) ?_ ?_ ?_
  · exact congrArg (List.set · 0 _) houts
  · intro c
    rw [show ((0 : UInt16)).toNat = 0 from rfl, hT.root]
    exact ⟨hT.root_lt, .self ⟨0, hT.root_lt, hT.root⟩⟩
  · intro id
    rw [show T.own.getD 0 [] = T.ownAt 0 from rfl, ho.count hT.root_lt, hT.root, endsAt_nil]
    simp

/-- The output of a state: its own words and those of its failure state. -/
theorem count_outs (ho : T.Owned lab ws) (hs : s < T.size) (h0 : lab s ≠ [])
    {f : Nat} (hl : Longest (T.nodes lab) (lab s).tail (lab f)) {o : List UInt16}
    (hf : ∀ id, o.count id = if endsAt ws id (lab f) then 1 else 0) (id : UInt16) :
    (T.ownAt s ++ o).count id = if endsAt ws id (lab s) then 1 else 0 := by
  rw [List.count_append, ho.count hs, hf, endsAt, endsAt]
  cases hw : ws[id.toNat]? with
  | none => simp
  | some w =>
    have hiff := hl.suffix_iff_tail (ho.mem w (List.mem_of_getElem? hw)) h0
    rcases eq_or_ne w (lab s) with rfl | hne
    · have hnot : ¬ lab s <:+ lab f := fun h => absurd h.length_le (not_le.2 (hl.length_lt h0))
      simp [hnot]
    · simp [hne, hiff]

theorem visit (h : Pass T lab ws b P) (hT : T.Labelled lab) (ho : T.Owned lab ws)
    (hsize : T.size ≤ 2 ^ 16) (hq : b.q = s :: q) (h0 : s ≠ 0) :
    Pass T lab ws (Bfs.visit T s { b with q := q }) (insert s P) := by
  have hf : Frontier T lab (s :: q) P := hq ▸ h.frontier
  have hs : s < T.size := hf.lt (.inr (List.mem_cons_self ..))
  have hlab : lab s ≠ [] := fun e => h0 (hT.inj hs hT.root_lt (e.trans hT.root.symm))
  obtain ⟨hflt, hfl⟩ := h.fail (t := s) (by simp [hq]) h0
  have hfP : b.failAt s ∈ P := hf.shallow hT hflt (hfl.length_lt hlab)
  have hne : b.failAt s ≠ s := fun e => hf.fresh (List.mem_cons_self ..) (e ▸ hfP)
  have houts : (b.outs.set s (T.ownAt s)).getD (b.failAt s) [] = b.outsAt (b.failAt s) := by
    simp [outsAt, List.getD_eq_getElem?_getD, hne.symm]
  -- the state before the loop over the letters
  let b₁ : Bfs := { b with q := q, outs := b.outs.set s (T.ownAt s ++ b.outsAt (b.failAt s)) }
  have hb₁ : Sized T.size b₁ := ⟨h.sized.fail, h.sized.delta, by simpa [b₁] using h.sized.outs⟩
  have hvisit : Bfs.visit T s { b with q := q } =
      (List.finRange kAlpha).foldl
        (fun b₂ c => b₂.link T s c (b.deltaAt (b.failAt s) c)) b₁ := by
    rw [← foldl_visit hT hs (fun c => b.deltaAt (b.failAt s) c) (b.failAt s) hne _ b₁ hb₁ rfl
      fun _ => rfl]
    have e : b.outs.set s (T.ownAt s ++ b.outsAt (b.failAt s)) =
        (b.outs.set s (T.ownAt s)).set s
          (T.ownAt s ++ (b.outs.set s (T.ownAt s)).getD (b.failAt s) []) := by
      rw [houts, List.set_set]
    simp only [b₁, e]
    rfl
  have hl := linked_foldl hT hs (fun c => b.deltaAt (b.failAt s) c) (List.finRange kAlpha)
    (List.nodup_finRange kAlpha) b₁ hb₁
  have hl' : Linked T s (fun c => b.deltaAt (b.failAt s) c) (List.finRange kAlpha)
      { b with q := q } _ :=
    ⟨hl.sized, hl.q, hl.fail_other, hl.fail_skip, hl.fail_child, hl.delta_other, hl.delta_self⟩
  rw [hvisit]
  refine h.visited hT hsize hq hl' ?_ ?_ (count_outs ho hs hlab hfl (h.outs hfP))
  · exact outs_foldl (List.finRange kAlpha) (fun c => b.deltaAt (b.failAt s) c) b₁
  · intro c
    obtain ⟨hlt, hstep⟩ := h.delta hfP c
    exact ⟨hlt, hfl.tail_step hT.isNodes hlab hstep⟩

/-- Enough turns empty the queue: every turn visits one more state. -/
theorem run (hT : T.Labelled lab) (ho : T.Owned lab ws) (hsize : T.size ≤ 2 ^ 16) (fuel : Nat)
    (h : Pass T lab ws b P) (h0 : 0 ∈ P) (hfuel : T.size ≤ fuel + P.card) :
    ∃ P', Pass T lab ws (Bfs.run T fuel b) P' ∧ ∀ s, s < T.size → s ∈ P' := by
  have hcard : P.card ≤ T.size := by
    have hsub : P ⊆ Finset.range T.size := fun s hs => Finset.mem_range.2 (h.frontier.lt (.inl hs))
    simpa using Finset.card_le_card hsub
  induction fuel generalizing b P with
  | zero =>
    refine ⟨P, h, fun s hs => ?_⟩
    have hsub : P ⊆ Finset.range T.size := fun s hs => Finset.mem_range.2 (h.frontier.lt (.inl hs))
    have e := Finset.eq_of_subset_of_card_le hsub (by rw [Finset.card_range]; omega)
    rw [e]
    exact Finset.mem_range.2 hs
  | succ fuel ih =>
    rw [Bfs.run]
    rcases hq : b.q with _ | ⟨s, q⟩
    · have hf : Frontier T lab [] P := hq ▸ h.frontier
      exact ⟨P, h, fun s hs => hf.all hT hs⟩
    · have hf : Frontier T lab (s :: q) P := hq ▸ h.frontier
      have hsP : s ∉ P := hf.fresh (List.mem_cons_self ..)
      have hv := h.visit hT ho hsize hq (fun e => hsP (e ▸ h0))
      have hsub : insert s P ⊆ Finset.range T.size :=
        fun x hx => Finset.mem_range.2 (hv.frontier.lt (.inl hx))
      refine ih hv (Finset.mem_insert_of_mem h0) ?_ (by simpa using Finset.card_le_card hsub)
      rw [Finset.card_insert_of_notMem hsP]
      omega

end Pass

end Bfs

/-- The finished automaton. -/
theorem automaton_spec {T : Trie} {lab : Nat → List Letter} {ws : List (List Letter)}
    (hT : T.Labelled lab) (ho : T.Owned lab ws) (hsize : T.size ≤ 2 ^ 16) :
    ∃ P, Bfs.Pass T lab ws (automaton T) P ∧ ∀ s, s < T.size → s ∈ P :=
  (Bfs.Pass.start hT ho hsize).run hT ho hsize _ (Finset.mem_singleton_self 0) (by
    rw [Finset.card_singleton]
    exact Nat.le_succ _)

/-! ## The flat output table -/

theorem map_getD_range' {β : Type} (a x b : List β) (y : β) :
    (List.range' a.length x.length).map (fun i => (a ++ (x ++ b)).getD i y) = x := by
  refine List.ext_getElem (by simp) fun i h _ => ?_
  have hi : i < x.length := by simpa using h
  have hget : (a ++ (x ++ b))[a.length + i]? = x[i]? := by
    rw [List.getElem?_append_right (Nat.le_add_right ..), Nat.add_sub_cancel_left,
      List.getElem?_append_left hi]
  simp [List.getD_eq_getElem?_getD, hget, hi]

/-- A list of ids in which each stands at most once is short. -/
theorem length_le_of_count {o : List UInt16} (h : ∀ id, o.count id ≤ 1) : o.length ≤ 2 ^ 16 := by
  have hnodup : o.Nodup := List.nodup_iff_count_le_one.2 h
  have hmap : (o.map UInt16.toNat).Nodup :=
    hnodup.map fun _ _ e => UInt16.toNat_inj.1 e
  have hsub : (o.map UInt16.toNat).toFinset ⊆ Finset.range (2 ^ 16) := by
    intro n hn
    obtain ⟨id, -, rfl⟩ := List.mem_map.1 (List.mem_toFinset.1 hn)
    exact Finset.mem_range.2 id.toNat_lt
  simpa [List.toFinset_card_of_nodup hmap] using Finset.card_le_card hsub

theorem length_flatten_le {β : Type} {n : Nat} (L : List (List β))
    (h : ∀ x ∈ L, x.length ≤ n) : L.flatten.length ≤ L.length * n := by
  induction L with
  | nil => simp
  | cons x L ih =>
    have hx := h x (List.mem_cons_self ..)
    have hL := ih fun y hy => h y (List.mem_cons_of_mem _ hy)
    rw [List.flatten_cons, List.length_append, List.length_cons, Nat.succ_mul]
    omega

/-- The slice of the flat table between a state's offsets is the state's output. -/
theorem emit_flat {L : List (List UInt16)} (hL : L.flatten.length < 2 ^ 32) {s : Nat}
    (hs : s < L.length) (sc : Scorer) (hids : sc.outIds = L.flatten) (v : UInt16)
    (hv : v.toNat = s)
    (hbegin : sc.outBegin = (List.range (L.length + 1)).map fun s =>
      UInt32.ofNat (L.take s).flatten.length) : sc.emit v = L.getD s [] := by
  have hsplit : L.flatten = (L.take s).flatten ++ (L.getD s [] ++ (L.drop (s + 1)).flatten) := by
    rw [← List.flatten_cons, ← List.flatten_append, List.getD_eq_getElem _ _ hs,
      List.getElem_cons_drop, List.take_append_drop]
  have hnext : (L.take (s + 1)).flatten = (L.take s).flatten ++ L.getD s [] := by
    rw [List.take_succ_eq_append_getElem hs, List.flatten_append, List.getD_eq_getElem _ _ hs]
    simp
  have hoff : ∀ i, i ≤ L.length →
      (sc.outBegin.getD i 0).toNat = (L.take i).flatten.length := by
    intro i hi
    have hle : (L.take i).flatten.length ≤ L.flatten.length := by
      conv_rhs => rw [← List.take_append_drop i L, List.flatten_append, List.length_append]
      omega
    rw [hbegin, List.getD_eq_getElem _ _ (by simpa using Nat.lt_succ_of_le hi), List.getElem_map,
      List.getElem_range, UInt32.toNat_ofNat']
    exact Nat.mod_eq_of_lt (hle.trans_lt hL)
  rw [emit, hv, hoff s hs.le, hoff (s + 1) hs, hnext, List.length_append, Nat.add_sub_cancel_left, hids]
  conv_lhs => rw [hsplit]
  exact map_getD_range' _ _ _ _

/-! ## Folded text -/

/-- The maximal runs of letters and digits. -/
def words (text : Bytes) : List Bytes :=
  (text.splitOnP fun c => !isAlnum c).filter (· ≠ [])

/-- Words in lower case, each followed by a separator. -/
def spaced (ws : List Bytes) : Bytes := (ws.map fun w => w.map toLower ++ [32]).flatten

/-- A text with one separator before, between and after its words. -/
def folded (text : Bytes) : Bytes := 32 :: spaced (words text)

/-- What a phrase stands for: its folded text, without the last separator for a phrase
that ends in `*`. -/
def pattern (phrase : Bytes) : Bytes :=
  if phrase.getLast? = some (ch '*') then 32 :: (spaced (words phrase.dropLast)).dropLast
  else folded phrase

/-- The letters that a scan reads after the leading one. -/
def letters : Bool → Bytes → List Letter
  | prevSep, [] => if prevSep then [] else [0]
  | prevSep, byte :: text =>
    if kClass byte = 0 ∧ prevSep then letters prevSep text
    else kClass byte :: letters (decide (kClass byte = 0)) text

theorem kClass_byte (c : UInt8) : (kClass c = 0 ↔ isAlnum c = false) ∧ kClass (toLower c) = kClass c ∧
    (isAlnum c = true → toLower c ≠ 32) :=
  byte_forall (p := fun c => (kClass c = 0 ↔ isAlnum c = false) ∧ kClass (toLower c) = kClass c ∧
    (isAlnum c = true → toLower c ≠ 32)) (by decide +kernel) c

theorem kClass_eq_zero (c : UInt8) : kClass c = 0 ↔ isAlnum c = false := (kClass_byte c).1

theorem kClass_toLower (c : UInt8) : kClass (toLower c) = kClass c := (kClass_byte c).2.1

theorem toLower_ne_sep {c : UInt8} (h : isAlnum c = true) : toLower c ≠ 32 := (kClass_byte c).2.2 h

/-- The rest of a text inside a word: the rest of the word, then the other words. -/
def spacedFrom : List Bytes → Bytes
  | [] => []
  | w :: ws => w.map toLower ++ 32 :: spaced (ws.filter (· ≠ []))

theorem spaced_cons (w : Bytes) (ws : List Bytes) :
    spaced (w :: ws) = w.map toLower ++ 32 :: spaced ws := by
  simp [spaced]

theorem words_cons_sep {c : UInt8} (h : isAlnum c = false) (t : Bytes) :
    words (c :: t) = words t := by
  simp [words, List.splitOnP_cons_eq_if_modifyHead, h]

/-- A text that begins inside a word continues the word. -/
theorem spacedFrom_cons {c : UInt8} (h : isAlnum c = true) (t : Bytes) :
    spacedFrom ((c :: t).splitOnP fun c => !isAlnum c) =
      toLower c :: spacedFrom (t.splitOnP fun c => !isAlnum c) := by
  rw [List.splitOnP_cons_eq_if_modifyHead]
  cases hs : t.splitOnP fun c => !isAlnum c with
  | nil => exact absurd hs (List.splitOnP_ne_nil _ _)
  | cons w ws => simp [h, spacedFrom]

theorem spacedFrom_cons_sep {c : UInt8} (h : isAlnum c = false) (t : Bytes) :
    spacedFrom ((c :: t).splitOnP fun c => !isAlnum c) = 32 :: spaced (words t) := by
  simp [List.splitOnP_cons_eq_if_modifyHead, h, spacedFrom, words]

theorem spaced_words_cons {c : UInt8} (h : isAlnum c = true) (t : Bytes) :
    spaced (words (c :: t)) = toLower c :: spacedFrom (t.splitOnP fun c => !isAlnum c) := by
  rw [← spacedFrom_cons h, words, List.splitOnP_cons_eq_if_modifyHead]
  cases hs : t.splitOnP fun c => !isAlnum c with
  | nil => exact absurd hs (List.splitOnP_ne_nil _ _)
  | cons w ws => simp [h, spacedFrom, spaced_cons]

theorem letters_eq (text : Bytes) :
    letters true text = (spaced (words text)).map kClass ∧
      letters false text =
        (spacedFrom (text.splitOnP fun c => !isAlnum c)).map kClass := by
  induction text with
  | nil => simp [letters, words, spaced, spacedFrom, show kClass 32 = 0 by decide]
  | cons c t ih =>
    cases h : isAlnum c with
    | false =>
      have hc := (kClass_eq_zero c).2 h
      rw [words_cons_sep h, spacedFrom_cons_sep h]
      simp [letters, hc, ih.1, show kClass 32 = 0 by decide]
    | true =>
      have hc : kClass c ≠ 0 := fun e => by simp [(kClass_eq_zero c).1 e] at h
      rw [spaced_words_cons h, spacedFrom_cons h]
      simp [letters, hc, ih.2, kClass_toLower]

/-- A scan emits the outputs of the automaton along the letters it reads. -/
theorem scan_eq_emits (sc : Scorer) (h : sc.nStates ≠ 0) (text : Bytes) (hits : List UInt16) :
    sc.scan text hits = hits ++ emits sc.next sc.emit (sc.next 0 0) (letters true text) := by
  have key : ∀ (text : Bytes) (st : Scan), (text.foldl (Scan.step sc) st).finish sc =
      st.hits ++ emits sc.next sc.emit st.s (letters st.prevSep text) := by
    intro text
    induction text with
    | nil => intro st; cases hp : st.prevSep <;> simp [Scan.finish, letters, emits, hp]
    | cons c t ih =>
      intro st
      rw [List.foldl_cons, ih, letters, Scan.step]
      by_cases hc : kClass c = 0 ∧ st.prevSep = true
      · simp [hc]
      · simp [hc, emits]
  rw [scan, if_neg h]
  exact key text _

/-! ## Normalised phrases -/

theorem foldl_normalise (p n : Bytes) (hn : n ≠ []) :
    pushSep (p.foldl (fun n c => if kClass c ≠ 0 then n ++ [toLower c] else pushSep n) n) =
      n ++ if n.getLast? = some 32 then spaced (words p)
        else spacedFrom (p.splitOnP fun c => !isAlnum c) := by
  induction p generalizing n with
  | nil =>
    rw [List.foldl_nil, pushSep]
    split <;> simp [words, spaced, spacedFrom]
  | cons c p ih =>
    rw [List.foldl_cons]
    cases h : isAlnum c with
    | false =>
      have hc := (kClass_eq_zero c).2 h
      rw [words_cons_sep h, spacedFrom_cons_sep h, if_neg (not_not.2 hc)]
      by_cases hl : n.getLast? = some 32
      · rw [show pushSep n = n from if_pos hl, ih n hn, if_pos hl, if_pos hl]
      · rw [show pushSep n = n ++ [32] from if_neg hl, ih (n ++ [32]) (by simp),
          if_pos (by simp), if_neg hl]
        simp
    | true =>
      have hc : kClass c ≠ 0 := fun e => by simp [(kClass_eq_zero c).1 e] at h
      rw [if_pos hc, ih _ (by simp), if_neg (by simpa using toLower_ne_sep h),
        spaced_words_cons h, spacedFrom_cons h]
      simp

theorem mem_words (text : Bytes) {w : Bytes} (h : w ∈ words text) : w ≠ [] ∧ ∀ c ∈ w, isAlnum c = true := by
  obtain ⟨hw, hne⟩ := List.mem_filter.1 h
  refine ⟨by simpa using hne, ?_⟩
  clear hne h
  induction text generalizing w with
  | nil =>
    obtain rfl : w = [] := by simpa using hw
    simp
  | cons c t ih =>
    rw [List.splitOnP_cons_eq_if_modifyHead] at hw
    split at hw
    · rcases List.mem_cons.1 hw with rfl | hw
      · simp
      · exact ih hw
    · rename_i hc
      cases hs : t.splitOnP fun c => !isAlnum c with
      | nil => exact absurd hs (List.splitOnP_ne_nil _ _)
      | cons x xs =>
        rw [hs, List.modifyHead_cons] at hw
        rcases List.mem_cons.1 hw with rfl | hw
        · intro d hd
          rcases List.mem_cons.1 hd with rfl | hd
          · simpa using hc
          · exact ih (by rw [hs]; exact List.mem_cons_self ..) d hd
        · exact ih (by rw [hs]; exact List.mem_cons_of_mem _ hw)

/-- Spaced words end in exactly one separator. -/
theorem rdropWhile_spaced {ws : List Bytes} (h : ∀ w ∈ ws, w ≠ [] ∧ ∀ c ∈ w, isAlnum c = true) :
    (spaced ws).rdropWhile (· == 32) = (spaced ws).dropLast ∧
      (spaced ws).dropLast.rdropWhile (· == 32) = (spaced ws).dropLast := by
  rcases List.eq_nil_or_concat ws with rfl | ⟨ws, w, rfl⟩
  · simp [spaced]
  · obtain ⟨hne, hal⟩ := h w (by simp)
    have e : spaced (ws.concat w) = (spaced ws ++ w.map toLower) ++ [32] := by simp [spaced]
    have hlast : (spaced ws ++ w.map toLower).rdropWhile (· == 32) =
        spaced ws ++ w.map toLower := by
      rw [List.rdropWhile_eq_self_iff]
      intro hl
      rw [List.getLast_append_of_ne_nil _ (by simpa using hne), List.getLast_map]
      simpa using toLower_ne_sep (hal _ (List.getLast_mem hne))
    rw [e, List.dropLast_concat]
    exact ⟨by rw [List.rdropWhile_concat_pos _ _ _ (by simp), hlast], hlast⟩

/-- The source's normalisation of a phrase gives its pattern. -/
theorem normalise_eq_pattern (phrase : Bytes) : normalise phrase = pattern phrase := by
  unfold normalise pattern
  by_cases hstar : phrase.getLast? = some (ch '*')
  · simp only [hstar, if_true]
    obtain ⟨n, hn⟩ : ∃ n, n = phrase.dropLast.foldl
      (fun n c => if kClass c ≠ 0 then n ++ [toLower c] else pushSep n) [32] := ⟨_, rfl⟩
    have hfold := foldl_normalise phrase.dropLast [32] (by simp)
    have hw := rdropWhile_spaced fun _ => mem_words phrase.dropLast
    rw [← hn] at hfold ⊢
    rw [if_pos (by simp), pushSep] at hfold
    split at hfold
    · rw [hfold]
      simpa using hw.1
    · -- the separator is missing: `n` is the pattern already
      have hne : n ≠ [] := by
        rw [hn]
        refine List.foldlRecOn (motive := (· ≠ [])) _ _ (by simp) fun n hn c _ => ?_
        split
        · simp
        · unfold pushSep; split <;> simp [hn]
      have hsp : spaced (words phrase.dropLast) ≠ [] := by
        intro e
        rw [e] at hfold
        exact hne (by simpa using hfold)
      have e : n = 32 :: (spaced (words phrase.dropLast)).dropLast := by
        have := congrArg List.dropLast hfold
        rwa [List.dropLast_concat, List.singleton_append, List.dropLast_cons_of_ne_nil hsp] at this
      rw [e]
      simpa using hw.2
  · simp only [hstar, if_false]
    rw [foldl_normalise _ _ (by simp), if_pos (by simp)]
    rfl

/-! ## Bytes and letters -/

/-- The separator and the lower-case letters and digits. -/
def clean (c : UInt8) : Bool := c == 32 || isAlnum c && toLower c == c

/-- The clean byte of a letter. -/
def byteOf (c : Letter) : UInt8 :=
  if c = 0 then 32 else if c.val ≤ 10 then UInt8.ofNat (47 + c.val) else UInt8.ofNat (86 + c.val)

theorem clean_byte (c : UInt8) : (clean c = true → byteOf (kClass c) = c) ∧
    (isAlnum c = true → clean (toLower c) = true) :=
  byte_forall (p := fun c => (clean c = true → byteOf (kClass c) = c) ∧
    (isAlnum c = true → clean (toLower c) = true)) (by decide +kernel) c

theorem byteOf_kClass {c : UInt8} (h : clean c = true) : byteOf (kClass c) = c := (clean_byte c).1 h

theorem clean_toLower {c : UInt8} (h : isAlnum c = true) : clean (toLower c) = true := (clean_byte c).2 h

theorem clean_spaced {ws : List Bytes} (h : ∀ w ∈ ws, w ≠ [] ∧ ∀ c ∈ w, isAlnum c = true) :
    ∀ c ∈ spaced ws, clean c = true := by
  intro c hc
  obtain ⟨_, hv, hc⟩ := List.mem_flatten.1 hc
  obtain ⟨w, hw, rfl⟩ := List.mem_map.1 hv
  rcases List.mem_append.1 hc with hc | hc
  · obtain ⟨d, hd, rfl⟩ := List.mem_map.1 hc
    exact clean_toLower ((h w hw).2 d hd)
  · rw [List.mem_singleton.1 hc]
    rfl

theorem clean_folded (text : Bytes) : ∀ c ∈ folded text, clean c = true := by
  intro c hc
  rcases List.mem_cons.1 hc with rfl | hc
  · rfl
  · exact clean_spaced (fun _ => mem_words _) c hc

theorem clean_pattern (phrase : Bytes) : ∀ c ∈ pattern phrase, clean c = true := by
  intro c hc
  unfold pattern at hc
  split at hc
  · rcases List.mem_cons.1 hc with rfl | hc
    · rfl
    · exact clean_spaced (fun _ => mem_words _) c (List.mem_of_mem_dropLast hc)
  · exact clean_folded _ c hc

theorem map_byteOf {u : Bytes} (h : ∀ c ∈ u, clean c = true) : (u.map kClass).map byteOf = u := by
  rw [List.map_map]
  exact (List.map_congr_left fun c hc => byteOf_kClass (h c hc)).trans (List.map_id u)

theorem suffix_map_kClass {u v : Bytes} (hu : ∀ c ∈ u, clean c = true)
    (hv : ∀ c ∈ v, clean c = true) : u.map kClass <:+ v.map kClass ↔ u <:+ v := by
  constructor
  · intro h
    have := h.map byteOf
    rwa [map_byteOf hu, map_byteOf hv] at this
  · exact fun h => h.map kClass

theorem endings_map_kClass {u v : Bytes} (hu : ∀ c ∈ u, clean c = true)
    (hv : ∀ c ∈ v, clean c = true) (start : Nat) :
    endings (u.map kClass) (v.map kClass) start = endings u v start := by
  unfold endings
  rw [List.length_map]
  refine List.countP_congr fun e _ => ?_
  rw [← List.map_take, decide_eq_true_iff, decide_eq_true_iff]
  exact suffix_map_kClass hu fun c hc => hv c (List.mem_of_mem_take hc)

/-! ## The scan -/

/-- The words in the trie of a built scorer. -/
def phraseWords (sc : Scorer) : List (List Letter) := sc.norm.map (·.map kClass)

/-- A built scorer with fewer than `65535` states reads the automaton of its phrases. -/
structure Matches (sc : Scorer) (lab : Nat → List Letter) : Prop where
  nodes : Nodes ((trie sc.norm).nodes lab)
  root_lt : 0 < sc.nStates
  root : lab 0 = []
  mem : ∀ w ∈ sc.phraseWords, w ∈ (trie sc.norm).nodes lab
  next : ∀ (s : UInt16) (c : Letter), s.toNat < sc.nStates → (sc.next s c).toNat < sc.nStates ∧
    Longest ((trie sc.norm).nodes lab) (lab s.toNat ++ [c]) (lab (sc.next s c).toNat)
  emit : ∀ s : UInt16, s.toNat < sc.nStates → ∀ id,
    (sc.emit s).count id = if Bfs.endsAt sc.phraseWords id (lab s.toNat) then 1 else 0
  row : ∀ (s : Nat) (c : Letter), s < sc.nStates → 0 < (trie sc.norm).row s c →
    ((sc.delta.getD (s * kAlpha + c) 0).toNat : Int) = (trie sc.norm).row s c

theorem build_matches (sc : Scorer) (hrules : sc.rules.length < 65535)
    (hstates : sc.build.nStates < 65535) : ∃ lab, sc.build.Matches lab := by
  have hlen : sc.build.phraseWords.length ≤ 2 ^ 16 := by
    simp only [phraseWords, build, List.length_map]
    omega
  obtain ⟨lab, hT, ho⟩ : ∃ lab, (trie sc.build.norm).Labelled lab ∧
      (trie sc.build.norm).Owned lab sc.build.phraseWords := Trie.ofWords_spec _ hlen
  have hsz : (trie sc.build.norm).size < 65535 := hstates
  obtain ⟨P, hpass, hall⟩ := automaton_spec hT ho (by omega)
  have hshort : ∀ x ∈ (automaton (trie sc.build.norm)).outs, x.length ≤ 2 ^ 16 := by
    intro x hx
    obtain ⟨s, hs, rfl⟩ := List.getElem_of_mem hx
    refine length_le_of_count fun id => ?_
    have hc := hpass.outs (hall s (hpass.sized.outs ▸ hs)) id
    rw [Bfs.outsAt, List.getD_eq_getElem _ _ hs] at hc
    show List.count id _ ≤ 1
    rw [hc]
    split <;> omega
  have hflat : (automaton (trie sc.build.norm)).outs.flatten.length < 2 ^ 32 := by
    have h1 := length_flatten_le _ hshort
    have h2 : (automaton (trie sc.build.norm)).outs.length = (trie sc.build.norm).size :=
      hpass.sized.outs
    rw [h2] at h1
    omega
  refine ⟨lab, hT.isNodes, hT.root_lt, hT.root, ho.mem, ?_, ?_, ?_⟩
  · exact fun s c hs => hpass.delta (hall _ hs) c
  · intro s hs id
    have hs' : s.toNat < (automaton (trie sc.build.norm)).outs.length := by
      rw [show (automaton (trie sc.build.norm)).outs.length = _ from hpass.sized.outs]
      exact hs
    have hbegin : sc.build.outBegin =
        (List.range ((automaton (trie sc.build.norm)).outs.length + 1)).map fun s =>
          UInt32.ofNat ((automaton (trie sc.build.norm)).outs.take s).flatten.length := by
      rw [show (automaton (trie sc.build.norm)).outs.length = _ from hpass.sized.outs]
      rfl
    rw [emit_flat hflat hs' sc.build rfl s rfl hbegin]
    exact hpass.outs (hall _ hs) id
  · intro s c hs hr
    obtain ⟨t, ht, hrt, hl⟩ := hT.row_nonneg hs hr.le
    obtain ⟨hlt, hlong⟩ := hpass.delta (hall _ hs) c
    -- the longest suffix of a node's word is the word
    have hu := hlong.unique (Longest.self ⟨t, ht, hl⟩)
    have e := hT.inj hlt ht (hu.trans hl.symm)
    rw [hrt, ← e]
    rfl

theorem Matches.count_scan {sc : Scorer} {lab : Nat → List Letter} (h : sc.Matches lab)
    (text : Bytes) (id : UInt16) :
    (emits sc.next sc.emit (sc.next 0 0) (letters true text)).count id =
      match sc.phraseWords[id.toNat]? with
      | some w => endings w ((folded text).map kClass) 2
      | none => 0 := by
  have h0 := h.next 0 0 (by simpa using h.root_lt)
  rw [show (0 : UInt16).toNat = 0 from rfl, h.root, List.nil_append] at h0
  cases hw : sc.phraseWords[id.toNat]? with
  | none =>
    refine List.count_eq_zero.2 fun hmem => ?_
    obtain ⟨s, hs, hid⟩ := exists_of_mem_emits (fun s : UInt16 => s.toNat < sc.nStates)
      (fun s c hs => (h.next s c hs).1) h0.1 hmem
    have hc := h.emit s hs id
    rw [Bfs.endsAt, hw] at hc
    exact List.count_eq_zero.1 hc hid
  | some w =>
    have hcount := count_emits (fun s : UInt16 => s.toNat < sc.nStates)
      (fun s : UInt16 => lab s.toNat) sc.emit (b := id) h.nodes h.next
      (h.mem w (List.mem_of_getElem? hw))
      (fun s hs => by rw [h.emit s hs id, Bfs.endsAt, hw]; simp) [0] (letters true text)
      (sc.next 0 0) h0.1 h0.2
    rw [hcount, (letters_eq text).1]
    rfl

theorem loadRules_rules (sc : Scorer) (tsv : Bytes) : (loadRules sc tsv).2.rules = (parseRules tsv).1 := by
  unfold loadRules
  dsimp only
  split
  · rfl
  · split
    · rfl
    · split <;> rfl

theorem loadRules_ok {sc : Scorer} {tsv : Bytes} (h : (sc.loadRules tsv).1 = .ok ()) :
    ∃ sc₀ : Scorer, (sc.loadRules tsv).2 = sc₀.build ∧ sc₀.rules.length < 65535 ∧
      sc₀.build.nStates < 65535 := by
  unfold loadRules at h ⊢
  dsimp only at h ⊢
  split at h
  · simp at h
  · split at h
    · simp at h
    · split at h
      · simp at h
      · rename_i herr hrules hstates
        refine ⟨{ sc with rules := (parseRules tsv).1 }, ?_, not_le.1 hrules, not_le.1 hstates⟩
        simp [hrules, hstates]

/-- A scan of a built scorer finds every rule as often as its pattern ends in the folded text. -/
theorem Matches.scan {sc₀ : Scorer} {lab : Nat → List Letter} (hm : sc₀.build.Matches lab)
    (text : Bytes) (hits : List UInt16) : ∃ found, sc₀.build.scan text hits = hits ++ found ∧
      ∀ id : UInt16, found.count id =
        match sc₀.build.rules[id.toNat]? with
        | some r => endings (pattern r.phrase) (folded text) 2
        | none => 0 := by
  refine ⟨_, scan_eq_emits _ hm.root_lt.ne' text hits, fun id => ?_⟩
  rw [hm.count_scan text id]
  have hwords : sc₀.build.phraseWords[id.toNat]? =
      sc₀.build.rules[id.toNat]?.map fun r => (pattern r.phrase).map kClass := by
    simp [phraseWords, build, normalise_eq_pattern, Function.comp_def]
  rw [hwords]
  cases sc₀.build.rules[id.toNat]? with
  | none => rfl
  | some r => exact endings_map_kClass (clean_pattern _) (clean_folded _) 2

/-- For a rules file that is accepted, a scan appends every rule as often as its pattern
ends in the folded text, not counting the leading separator, and nothing else; and the
16-bit table holds the states of the trie as they are. -/
theorem scan_naive (sc : Scorer) (tsv : Bytes) (h : (sc.loadRules tsv).1 = .ok ()) :
    (∀ text hits, ∃ found, (sc.loadRules tsv).2.scan text hits = hits ++ found ∧
      ∀ id : UInt16, found.count id =
        match (sc.loadRules tsv).2.rules[id.toNat]? with
        | some r => endings (pattern r.phrase) (folded text) 2
        | none => 0) ∧
    ∀ (s : Nat) (c : Letter), s < (sc.loadRules tsv).2.nStates →
      ((sc.loadRules tsv).2.delta.getD (s * kAlpha + c) 0).toNat < (sc.loadRules tsv).2.nStates ∧
      (0 < (trie (sc.loadRules tsv).2.norm).row s c →
        (((sc.loadRules tsv).2.delta.getD (s * kAlpha + c) 0).toNat : Int) =
          (trie (sc.loadRules tsv).2.norm).row s c) := by
  obtain ⟨sc₀, e, hrules, hstates⟩ := loadRules_ok h
  obtain ⟨lab, hm⟩ := build_matches sc₀ hrules hstates
  rw [e]
  refine ⟨hm.scan, fun s c hs => ⟨?_, hm.row s c hs⟩⟩
  have hs' : (UInt16.ofNat s).toNat = s := by
    rw [UInt16.toNat_ofNat']
    exact Nat.mod_eq_of_lt (by omega)
  have := (hm.next (UInt16.ofNat s) c (by omega)).1
  rwa [next, hs'] at this

example : endings (pattern (lit "FDA approv*")) (folded (lit "FDA: approved, FDA approval")) 2 = 2 := by
  rw [lit_ofList, lit_ofList]
  decide +kernel

/-- Rules whose phrases overlap: one is the end of another, one is its beginning. -/
def overlapping : Bytes := lit "cat:fda\t40\tFDA approv*\nspam\t5\tapprov*\nneg\t1\tFDA\n"

theorem scan_naive_overlapping :
    (loadRules {} overlapping).1 = .ok () ∧
      ∃ found, (loadRules {} overlapping).2.scan (lit "The FDA approval, fda.") [] = found ∧
        found.count 0 = 1 ∧ found.count 2 = 2 := by
  have htsv : overlapping = _ := lit_ofList _
  have hok : (loadRules {} overlapping).1 = .ok () := by
    rw [htsv]
    decide +kernel
  obtain ⟨found, hscan, hcount⟩ := (scan_naive {} overlapping hok).1 (lit "The FDA approval, fda.") []
  rw [loadRules_rules, htsv, show lit "The FDA approval, fda." = _ from lit_ofList _] at hcount
  refine ⟨hok, found, hscan, (hcount 0).trans ?_, (hcount 2).trans ?_⟩ <;> decide +kernel

end Stok.Scorer
