import Mathlib.Data.List.Induction
import Mathlib.Data.List.Sort
import Mathlib.Order.RelClasses

/-!
# Ordered sets and maps

`std::set` and `std::map` over a comparator `lt`, as the lists that an iteration goes through.
`setOf` inserts keys one by one; `group` updates the value under the key of each row. A set is
determined by its members (`setOf_ext`), a group by the rows of each key (`group_eq`).
-/

namespace Stok.Lib.OrderedMap

variable {κ β ρ : Type*} (lt : κ → κ → Prop) [DecidableRel lt]

/-- `std::set::insert` -/
def insert (k : κ) : List κ → List κ
  | [] => [k]
  | a :: l => if lt a k then a :: insert k l else if lt k a then k :: a :: l else a :: l

/-- The set of the keys of a list. -/
def setOf (l : List κ) : List κ := l.foldl (fun s k => insert lt k s) []

/-- An update of `m[k]`, which is `v₀` where there was no value. -/
def alter (k : κ) (v₀ : β) (f : β → β) : List (κ × β) → List (κ × β)
  | [] => [(k, f v₀)]
  | (a, v) :: m =>
    if lt a k then (a, v) :: alter k v₀ f m
    else if lt k a then (k, f v₀) :: (a, v) :: m
    else (a, f v) :: m

/-- One update for each row, under its key. -/
def group (key : ρ → κ) (v₀ : β) (step : β → ρ → β) (rows : List ρ) : List (κ × β) :=
  rows.foldl (fun m r => alter lt (key r) v₀ (fun v => step v r) m) []

variable [IsStrictTotalOrder κ lt]

section

variable {lt}

omit [DecidableRel lt] in
theorem eq_of_not_lt {a b : κ} (h : ¬ lt a b) (h' : ¬ lt b a) : a = b := by
  rcases trichotomous_of lt a b with hlt | heq | hgt
  · exact absurd hlt h
  · exact heq
  · exact absurd hgt h'

theorem mem_insert {k x : κ} {l : List κ} : x ∈ insert lt k l ↔ x = k ∨ x ∈ l := by
  induction l with
  | nil => exact List.mem_singleton.trans (by simp)
  | cons a l ih =>
    rw [insert]
    split
    · rw [List.mem_cons, ih, List.mem_cons]
      tauto
    · rename_i hak
      split
      · rw [List.mem_cons]
      · rename_i hka
        rw [eq_of_not_lt hak hka, List.mem_cons]
        tauto

theorem pairwise_insert {k : κ} {l : List κ} (h : l.Pairwise lt) : (insert lt k l).Pairwise lt := by
  induction l with
  | nil => exact List.pairwise_singleton _ _
  | cons a l ih =>
    have ⟨ha, hl⟩ := List.pairwise_cons.1 h
    rw [insert]
    split
    · rename_i hak
      refine List.pairwise_cons.2 ⟨fun x hx => ?_, ih hl⟩
      rcases mem_insert.1 hx with rfl | hx
      · exact hak
      · exact ha x hx
    · split
      · rename_i hka
        refine List.pairwise_cons.2 ⟨fun x hx => ?_, h⟩
        rcases List.mem_cons.1 hx with rfl | hx
        · exact hka
        · exact trans_of lt hka (ha x hx)
      · exact h

omit [DecidableRel lt] in
theorem nodup_of_pairwise {l : List κ} (h : l.Pairwise lt) : l.Nodup := h.imp fun hab heq => by
  rw [heq] at hab
  exact irrefl_of lt _ hab

omit [DecidableRel lt] in
/-- A list in strict order is determined by its members. -/
theorem eq_of_pairwise {l l' : List κ} (h : l.Pairwise lt) (h' : l'.Pairwise lt)
    (hmem : ∀ x, x ∈ l ↔ x ∈ l') : l = l' := by
  refine List.Perm.eq_of_pairwise (fun a b _ _ hab hba => ?_) h h' ?_
  · exact absurd hba (asymm_of lt hab)
  · exact (List.perm_ext_iff_of_nodup (nodup_of_pairwise h) (nodup_of_pairwise h')).2 hmem

end

omit [IsStrictTotalOrder κ lt] in
theorem setOf_concat (l : List κ) (k : κ) : setOf lt (l ++ [k]) = insert lt k (setOf lt l) := by
  rw [setOf, List.foldl_append]
  rfl

theorem pairwise_setOf (l : List κ) : (setOf lt l).Pairwise lt := by
  induction l using List.reverseRecOn with
  | nil => exact List.Pairwise.nil
  | append_singleton l k ih =>
    rw [setOf_concat]
    exact pairwise_insert ih

theorem nodup_setOf (l : List κ) : (setOf lt l).Nodup := nodup_of_pairwise (pairwise_setOf lt l)

@[simp] theorem mem_setOf {l : List κ} {x : κ} : x ∈ setOf lt l ↔ x ∈ l := by
  induction l using List.reverseRecOn with
  | nil => exact Iff.rfl
  | append_singleton l k ih =>
    rw [setOf_concat, mem_insert, ih, List.mem_append, List.mem_singleton]
    exact or_comm

theorem setOf_ext {l l' : List κ} (h : ∀ x, x ∈ l ↔ x ∈ l') : setOf lt l = setOf lt l' :=
  eq_of_pairwise (pairwise_setOf lt l) (pairwise_setOf lt l') fun x => by
    rw [mem_setOf, mem_setOf]
    exact h x

/-! ## Groups -/

variable [DecidableEq κ]

/-- Where the keys of a map are a set and the values a function of the key, `v₀` off the set, an update
changes the function in one place. -/
theorem alter_map {k : κ} {v₀ : β} {f : β → β} {g : κ → β} {l : List κ} (hl : l.Pairwise lt)
    (hg : k ∉ l → g k = v₀) :
    alter lt k v₀ f (l.map fun a => (a, g a)) =
      (insert lt k l).map fun a => (a, if a = k then f (g k) else g a) := by
  induction l with
  | nil => simp [alter, insert, hg]
  | cons a l ih =>
    have ⟨ha, hl'⟩ := List.pairwise_cons.1 hl
    rw [List.map_cons, alter, insert]
    split
    · rename_i hak
      have hne : a ≠ k := by
        rintro rfl
        exact irrefl_of lt _ hak
      rw [ih hl' fun hk => hg fun h => (List.mem_cons.1 h).elim (fun e => hne e.symm) hk, List.map_cons,
        if_neg hne]
    · rename_i hak
      split
      · rename_i hka
        have hnot : ∀ x ∈ a :: l, x ≠ k := by
          rintro x hx rfl
          rcases List.mem_cons.1 hx with rfl | hx
          · exact irrefl_of lt _ hka
          · exact irrefl_of lt _ (trans_of lt hka (ha x hx))
        rw [List.map_cons, if_pos rfl, hg fun hk => hnot k hk rfl, ← List.map_cons (f := fun a => (a, g a))]
        refine congrArg _ (List.map_congr_left fun x hx => ?_)
        rw [if_neg (hnot x hx)]
      · rename_i hka
        obtain rfl := eq_of_not_lt hak hka
        rw [List.map_cons, if_pos rfl]
        refine congrArg _ (List.map_congr_left fun x hx => ?_)
        have hne : x ≠ a := by
          rintro rfl
          exact irrefl_of lt _ (ha x hx)
        rw [if_neg hne]

/-- A group has the keys of the rows, and under each key what its rows come to. -/
theorem group_eq (key : ρ → κ) (v₀ : β) (step : β → ρ → β) (rows : List ρ) :
    group lt key v₀ step rows =
      (setOf lt (rows.map key)).map fun k => (k, (rows.filter fun r => key r = k).foldl step v₀) := by
  induction rows using List.reverseRecOn with
  | nil => rfl
  | append_singleton rows r ih =>
    rw [group, List.foldl_append, List.foldl_cons, List.foldl_nil, ← group, ih, List.map_append,
      List.map_singleton, setOf_concat, alter_map lt (pairwise_setOf lt _)]
    · refine List.map_congr_left fun k _ => ?_
      rw [List.filter_append, List.foldl_append]
      rcases eq_or_ne (key r) k with rfl | hne
      · simp
      · rw [if_neg hne.symm]
        simp [hne]
    · intro hk
      rw [mem_setOf, List.mem_map] at hk
      have hnil : (rows.filter fun r' => key r' = key r) = [] := by
        refine List.filter_eq_nil_iff.2 fun r' hr' heq => ?_
        exact hk ⟨r', hr', of_decide_eq_true heq⟩
      rw [hnil]
      rfl

end Stok.Lib.OrderedMap
