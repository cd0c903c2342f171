import Mathlib.Tactic

/-!
# Matching many words at once

`N` is a set of words closed under initial segments: the nodes of a trie. The
state of a multi-word matcher after reading `w` is the longest suffix of `w` that is
a node (`Longest N w u`). `Longest.step` says how the state moves with one letter,
`Longest.tail_step` and `Longest.of_tail` how it is found from the state of the tail
of a node, which is what a failure link records.

`emits` is the output of a deterministic automaton along a word. `count_emits` counts
it: an automaton whose states are longest suffixes and whose output lists the words
that end at a state emits a word once for each place where it ends.
-/

namespace Stok.Lib.AhoCorasick

variable {α : Type*}

/-- The nodes of a trie. -/
structure Nodes (N : Set (List α)) : Prop where
  nil : [] ∈ N
  init : ∀ u c, u ++ [c] ∈ N → u ∈ N

/-- `u` is the longest suffix of `w` in `N`. -/
structure Longest (N : Set (List α)) (w u : List α) : Prop where
  mem : u ∈ N
  suffix : u <:+ w
  longest : ∀ v ∈ N, v <:+ w → v <:+ u

theorem suffix_concat_iff {u v : List α} {c : α} : u ++ [c] <:+ v ++ [c] ↔ u <:+ v := by
  constructor
  · rintro ⟨t, h⟩
    rw [← List.append_assoc] at h
    exact ⟨t, List.append_cancel_right h⟩
  · rintro ⟨t, rfl⟩
    exact ⟨t, by simp⟩

/-- A suffix of `w ++ [c]` is empty or one letter more than a suffix of `w`. -/
theorem suffix_concat {v w : List α} {c : α} (h : v <:+ w ++ [c]) :
    v = [] ∨ ∃ v', v = v' ++ [c] ∧ v' <:+ w := by
  rcases List.eq_nil_or_concat v with rfl | ⟨v', x, rfl⟩
  · exact .inl rfl
  · obtain ⟨t, ht⟩ := h
    rw [List.concat_eq_append, ← List.append_assoc] at ht
    obtain ⟨rfl, hx⟩ := List.append_inj' ht rfl
    cases hx
    exact .inr ⟨v', List.concat_eq_append, ⟨t, rfl⟩⟩

theorem eq_or_suffix_tail {v u : List α} (h : v <:+ u) : v = u ∨ v <:+ u.tail := by
  cases u with
  | nil => exact .inl (List.suffix_nil.1 h)
  | cons a u => exact (List.suffix_cons_iff.1 h).imp_right id

namespace Longest

variable {N : Set (List α)} {u v w : List α} {c : α}

theorem unique (h : Longest N w u) (h' : Longest N w v) : u = v := by
  have huv := h'.longest u h.mem h.suffix
  have hvu := h.longest v h'.mem h'.suffix
  exact huv.eq_of_length (le_antisymm huv.length_le hvu.length_le)

/-- A node is its own longest suffix. -/
theorem self (hu : u ∈ N) : Longest N u u := ⟨hu, List.suffix_rfl, fun _ _ h => h⟩

/-- One letter: the state after `w` decides the state after `w ++ [c]`. -/
theorem step (hN : Nodes N) (h : Longest N w u) (h' : Longest N (u ++ [c]) v) :
    Longest N (w ++ [c]) v := by
  refine ⟨h'.mem, h'.suffix.trans (suffix_concat_iff.2 h.suffix), fun x hx hs => ?_⟩
  obtain rfl | ⟨x', rfl, hs'⟩ := suffix_concat hs
  · exact List.nil_suffix
  · exact h'.longest _ hx (suffix_concat_iff.2 (h.longest x' (hN.init _ _ hx) hs'))

/-- The state of the tail of a node moves like any other. -/
theorem tail_step (hN : Nodes N) (hu : u ≠ []) (h : Longest N u.tail w)
    (h' : Longest N (w ++ [c]) v) : Longest N (u ++ [c]).tail v := by
  rw [List.tail_append_of_ne_nil hu]
  exact h.step hN h'

/-- A word that is no node has the state of its tail. -/
theorem of_tail (hw : w ∉ N) (h : Longest N w.tail v) : Longest N w v := by
  refine ⟨h.mem, h.suffix.trans (List.tail_suffix w), fun x hx hs => ?_⟩
  obtain rfl | hs := eq_or_suffix_tail hs
  · exact absurd hx hw
  · exact h.longest x hx hs

/-- The nodes that end at `w` are those that end at its state. -/
theorem suffix_iff (h : Longest N w u) (hv : v ∈ N) : v <:+ w ↔ v <:+ u :=
  ⟨h.longest v hv, fun hs => hs.trans h.suffix⟩

/-- The nodes that end at a node are the node and those that end at the state of its tail. -/
theorem suffix_iff_tail (h : Longest N u.tail w) (hv : v ∈ N) (hu : u ≠ []) :
    v <:+ u ↔ v = u ∨ v <:+ w := by
  constructor
  · intro hs
    exact (eq_or_suffix_tail hs).imp_right (h.suffix_iff hv).1
  · rintro (rfl | hs)
    · exact List.suffix_rfl
    · exact hs.trans (h.suffix.trans (List.tail_suffix u))

theorem length_lt (h : Longest N u.tail w) (hu : u ≠ []) : w.length < u.length := by
  have h1 := h.suffix.length_le
  have h2 := List.length_pos_of_ne_nil hu
  rw [List.length_tail] at h1
  omega

end Longest

/-! ## Output along a word -/

/-- The output of an automaton that reads a word, one state after another. -/
def emits {σ β : Type*} (next : σ → α → σ) (out : σ → List β) : σ → List α → List β
  | _, [] => []
  | s, c :: w => out (next s c) ++ emits next out (next s c) w

/-- The number of places `e`, from `start` on, at which `p` ends in `w`. -/
def endings [DecidableEq α] (p w : List α) (start : Nat) : Nat :=
  (List.range' start (w.length + 1 - start)).countP fun e => decide (p <:+ w.take e)

theorem endings_cons [DecidableEq α] (p pre w : List α) (c : α) :
    endings p (pre ++ c :: w) (pre.length + 1) =
      (if p <:+ pre ++ [c] then 1 else 0) +
        endings p (pre ++ [c] ++ w) ((pre ++ [c]).length + 1) := by
  have hn : (pre ++ c :: w).length + 1 - (pre.length + 1) = w.length + 1 := by simp
  have hn' : (pre ++ [c] ++ w).length + 1 - ((pre ++ [c]).length + 1) = w.length := by
    simp only [List.length_append, List.length_singleton]; omega
  have htake : (pre ++ c :: w).take (pre.length + 1) = pre ++ [c] := by
    simp [List.take_append]
  have hlen : (pre ++ [c]).length + 1 = pre.length + 1 + 1 := by simp
  have hassoc : pre ++ [c] ++ w = pre ++ c :: w := by simp
  rw [endings, endings, hn, hn', hlen, hassoc, List.range'_succ, List.countP_cons, htake,
    Nat.add_comm]
  simp

section

variable {σ β : Type*} {N : Set (List α)} {next : σ → α → σ}
  {out : σ → List β}

/-- What is emitted is the output of some state. -/
theorem exists_of_mem_emits (ok : σ → Prop) (hnext : ∀ s c, ok s → ok (next s c)) {b : β} {w : List α} {s : σ}
    (hs : ok s) (h : b ∈ emits next out s w) : ∃ s, ok s ∧ b ∈ out s := by
  induction w generalizing s with
  | nil => simp [emits] at h
  | cons c w ih =>
    rcases List.mem_append.1 h with h | h
    · exact ⟨_, hnext s c hs, h⟩
    · exact ih (hnext s c hs) h

/-- An automaton emits a word once for every place where it ends in the input. -/
theorem count_emits [DecidableEq α] [DecidableEq β] (ok : σ → Prop) (label : σ → List α)
    (out : σ → List β) (hN : Nodes N)
    (hnext : ∀ s c, ok s → ok (next s c) ∧ Longest N (label s ++ [c]) (label (next s c)))
    {p : List α} {b : β} (hp : p ∈ N)
    (hout : ∀ s, ok s → (out s).count b = if p <:+ label s then 1 else 0)
    (pre w : List α) (s : σ) (hs : ok s) (hl : Longest N pre (label s)) :
    (emits next out s w).count b = endings p (pre ++ w) (pre.length + 1) := by
  induction w generalizing pre s with
  | nil => simp [emits, endings]
  | cons c w ih =>
    obtain ⟨hok, hstep⟩ := hnext s c hs
    have hl' := hl.step hN hstep
    rw [emits, List.count_append, hout _ hok, endings_cons, ih (pre ++ [c]) _ hok hl']
    simp [hl'.suffix_iff hp]

end

end Stok.Lib.AhoCorasick
