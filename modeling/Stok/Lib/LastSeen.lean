import Mathlib.Data.List.Basic
import Mathlib.Tactic

/-!
# Dropping the second report of a change by the last one let through

Two sources report the values that something takes, one after another. A report is dropped if the
last one let through has the same value and is less than `window` old. The sources report every
change once and in order, the two reports of a change less than `window` apart. Then one report of
each change goes through, and only one, if and only if no source is ever two changes ahead of the
other (`once_iff`).
-/

namespace Stok.Lib.LastSeen

variable {β : Type*} [DecidableEq β]

structure Report (β : Type*) where
  source : Bool
  value : β
  time : Nat

variable (window : Nat)

def passes (seen : Option (β × Nat)) (r : Report β) : Bool :=
  match seen with
  | none => true
  | some (v, t) => !(decide (v = r.value) && decide (r.time - t < window))

def note (seen : Option (β × Nat)) (r : Report β) : Option (β × Nat) :=
  if passes window seen r then some (r.value, r.time) else seen

/-- Each report with whether it goes through. -/
def marks : Option (β × Nat) → List (Report β) → List (Report β × Bool)
  | _, [] => []
  | seen, r :: rs => (r, passes window seen r) :: marks (note window seen r) rs

def after (seen : Option (β × Nat)) (rs : List (Report β)) : Option (β × Nat) :=
  rs.foldl (note window) seen

/-- The marked reports of one source. -/
def of (src : Bool) (l : List (Report β × Bool)) : List (Report β × Bool) :=
  l.filter fun x => x.1.source = src

def reportsOf (src : Bool) (rs : List (Report β)) : List (Report β) :=
  rs.filter fun r => r.source = src

def count (src : Bool) (rs : List (Report β)) : Nat := (reportsOf src rs).length

/-- The sources report the changes to `v 0`, …, `v (n - 1)`, each once and in order. -/
structure Doubled (v : Nat → β) (n : Nat) (rs : List (Report β)) : Prop where
  each : ∀ src, (reportsOf src rs).map Report.value = (List.range n).map v
  step : ∀ k, v (k + 1) ≠ v k
  sorted : rs.Pairwise fun r r' => r.time ≤ r'.time
  close : ∀ (k : Nat) (r r' : Report β), (reportsOf true rs)[k]? = some r → (reportsOf false rs)[k]? = some r' →
    r.time < r'.time + window ∧ r'.time < r.time + window

section Lists

omit [DecidableEq β]

variable {src : Bool} {past : List (Report β)} {r : Report β}

theorem of_concat_self (src : Bool) {x : Report β × Bool} (l : List (Report β × Bool)) (h : x.1.source = src) :
    of src (l ++ [x]) = of src l ++ [x] := by
  rw [of, List.filter_append, List.filter_singleton, decide_eq_true h]
  rfl

theorem of_concat_other (src : Bool) {x : Report β × Bool} (l : List (Report β × Bool)) (h : x.1.source ≠ src) :
    of src (l ++ [x]) = of src l := by
  rw [of, List.filter_append, List.filter_singleton, decide_eq_false h]
  exact List.append_nil _

theorem count_concat_self (h : r.source = src) : count src (past ++ [r]) = count src past + 1 := by
  simp [count, reportsOf, List.filter_append, h]

theorem count_concat_other (h : r.source ≠ src) : count src (past ++ [r]) = count src past := by
  simp [count, reportsOf, List.filter_append, h]

theorem reportsOf_next (rest : List (Report β)) :
    (reportsOf r.source (past ++ r :: rest))[count r.source past]? = some r := by
  have hcons : reportsOf r.source (r :: rest) = r :: reportsOf r.source rest :=
    List.filter_cons_of_pos (decide_eq_true rfl)
  have happ : reportsOf r.source (past ++ r :: rest) =
      reportsOf r.source past ++ reportsOf r.source (r :: rest) := List.filter_append ..
  rw [happ, hcons, count, List.getElem?_append_right le_rfl, Nat.sub_self]
  rfl

end Lists

variable {window}

section Doubled

omit [DecidableEq β]

variable {v : Nat → β} {n : Nat} {rs past rest : List (Report β)} {r : Report β}

theorem Doubled.count_eq (h : Doubled window v n rs) (src : Bool) : count src rs = n := by
  have := congrArg List.length (h.each src)
  rwa [List.length_map, List.length_map, List.length_range] at this

/-- The next report of a source is of the next change. -/
theorem Doubled.value (h : Doubled window v n rs) (hs : rs = past ++ r :: rest) :
    r.value = v (count r.source past) := by
  have heach := congrArg (·[count r.source past]?) (h.each r.source)
  simp only [List.getElem?_map, hs, reportsOf_next, Option.map_some] at heach
  cases hk : (List.range n)[count r.source past]? with
  | none =>
    rw [hk] at heach
    cases heach
  | some k =>
    rw [hk] at heach
    obtain ⟨hlt, rfl⟩ := List.getElem?_eq_some_iff.mp hk
    rw [List.getElem_range] at heach
    exact Option.some.inj heach

/-- Of the two reports of a change, one goes through. -/
def Once (l : List (Report β × Bool)) : Prop :=
  ∀ (k : Nat) x y, (of true l)[k]? = some x → (of false l)[k]? = some y → x.2 ≠ y.2

theorem Once.ne {l : List (Report β × Bool)} (h : Once l) {src : Bool} {k : Nat}
    {x y : Report β × Bool} (hx : (of src l)[k]? = some x) (hy : (of (!src) l)[k]? = some y) :
    x.2 ≠ y.2 := by
  cases src with
  | true => exact h k x y hx hy
  | false => exact (h k y x hy hx).symm

theorem Once.of_ne {l : List (Report β × Bool)} (src : Bool)
    (h : ∀ (k : Nat) x y, (of src l)[k]? = some x → (of (!src) l)[k]? = some y → x.2 ≠ y.2) : Once l := by
  intro k x y hx hy
  cases src with
  | true => exact h k x y hx hy
  | false => exact (h k y x hy hx).symm

end Doubled

variable {v : Nat → β} {n : Nat} {rs past rest : List (Report β)} {r : Report β} {src : Bool}

theorem marks_append (seen : Option (β × Nat)) (past rest : List (Report β)) :
    marks window seen (past ++ rest) =
      marks window seen past ++ marks window (after window seen past) rest := by
  induction past generalizing seen with
  | nil => rfl
  | cons a past ih => exact congrArg ((a, passes window seen a) :: ·) (ih (note window seen a))

theorem marks_concat (seen : Option (β × Nat)) (past : List (Report β)) (r : Report β) :
    marks window seen (past ++ [r]) =
      marks window seen past ++ [(r, passes window (after window seen past) r)] :=
  marks_append seen past [r]

theorem marks_fst (window : Nat) (seen : Option (β × Nat)) (rs : List (Report β)) :
    (marks window seen rs).map Prod.fst = rs := by
  induction rs generalizing seen with
  | nil => rfl
  | cons r rs ih => exact congrArg (r :: ·) (ih _)

theorem of_fst (window : Nat) (src : Bool) (seen : Option (β × Nat)) (rs : List (Report β)) :
    (of src (marks window seen rs)).map Prod.fst = reportsOf src rs := by
  conv_rhs => rw [← marks_fst window seen rs]
  rw [reportsOf, List.filter_map]
  rfl

theorem of_length (src : Bool) (seen : Option (β × Nat)) (rs : List (Report β)) :
    (of src (marks window seen rs)).length = count src rs := by
  rw [count, ← of_fst window src seen, List.length_map]

theorem after_concat (seen : Option (β × Nat)) (past : List (Report β)) (r : Report β) :
    after window seen (past ++ [r]) = note window (after window seen past) r :=
  List.foldl_concat ..

/-- The marks of the first reports are those of all. -/
theorem of_getElem? {k : Nat} {x : Report β × Bool} (h : (of src (marks window none past))[k]? = some x)
    (rest : List (Report β)) : (of src (marks window none (past ++ rest)))[k]? = some x := by
  have happ : of src (marks window none (past ++ rest)) = of src (marks window none past) ++
      of src (marks window (after window none past) rest) := by
    rw [marks_append]
    exact List.filter_append ..
  rw [happ, List.getElem?_append_left (List.getElem?_eq_some_iff.mp h).1, h]

/-- The mark of a report. -/
theorem of_next (window : Nat) (past : List (Report β)) (r : Report β) :
    (of r.source (marks window none (past ++ [r])))[count r.source past]? =
      some (r, passes window (after window none past) r) := by
  rw [marks_concat, of_concat_self r.source _ rfl, List.getElem?_append_right (by rw [of_length]), of_length,
    Nat.sub_self]
  rfl

/-! ## Who is ahead -/

/-- Both sources have reported the same changes. -/
def Even (window : Nat) (v : Nat → β) (past : List (Report β)) : Prop :=
  count true past = count false past ∧ (count true past = 0 → after window none past = none) ∧
    ∀ k, count true past = k + 1 → ∃ t, after window none past = some (v k, t)

/-- The source is ahead: the last report let through is its last, and so was each that the other has
not made yet. -/
def Ahead (window : Nat) (v : Nat → β) (past : List (Report β)) (src : Bool) : Prop :=
  count (!src) past < count src past ∧
  (∃ k r, count src past = k + 1 ∧ (of src (marks window none past))[k]? = some (r, true) ∧
    after window none past = some (v k, r.time)) ∧
  ∀ k, count (!src) past ≤ k → k < count src past →
    ∃ r, (of src (marks window none past))[k]? = some (r, true)

theorem passes_of_ne {w : β} {t : Nat} (h : w ≠ r.value) : passes window (some (w, t)) r = true := by
  simp [passes, h]

theorem note_of_passes {seen : Option (β × Nat)} (h : passes window seen r = true) :
    note window seen r = some (r.value, r.time) :=
  if_pos h

theorem note_of_not {seen : Option (β × Nat)} (h : passes window seen r = false) :
    note window seen r = seen :=
  if_neg (ne_true_of_eq_false h)

/-- The report of a change that neither source has reported goes through. -/
theorem passes_first (h : Doubled window v n rs) (hs : rs = past ++ r :: rest)
    (hpast : Even window v past ∨ Ahead window v past r.source) :
    passes window (after window none past) r = true := by
  have hv := h.value hs
  rcases hpast with ⟨heq, h0, hsucc⟩ | ⟨-, ⟨k, r₀, hk, -, hafter⟩, -⟩
  · have hcount : count r.source past = count true past := by
      cases r.source
      · exact heq.symm
      · rfl
    rw [hcount] at hv
    cases hk : count true past with
    | zero =>
      rw [h0 hk]
      rfl
    | succ k =>
      obtain ⟨t, ht⟩ := hsucc k hk
      rw [ht]
      exact passes_of_ne (by rw [hv, hk]; exact (h.step k).symm)
  · rw [hafter]
    rw [hk] at hv
    exact passes_of_ne (by rw [hv]; exact (h.step k).symm)

/-- After it, its source is ahead. -/
theorem Ahead.first (h : Doubled window v n rs) (hs : rs = past ++ r :: rest)
    (hpast : Even window v past ∨ Ahead window v past r.source) :
    Ahead window v (past ++ [r]) r.source := by
  have hpass := passes_first h hs hpast
  have hne : r.source ≠ !r.source := by cases r.source <;> decide
  have hle : count (!r.source) past ≤ count r.source past := by
    rcases hpast with ⟨heq, -⟩ | ⟨hlt, -⟩
    · cases r.source
      · exact heq.le
      · exact heq.symm.le
    · exact hlt.le
  have hlast : (of r.source (marks window none (past ++ [r])))[count r.source past]? =
      some (r, true) := by
    rw [of_next, hpass]
  refine ⟨?_, ⟨count r.source past, r, count_concat_self rfl, hlast, ?_⟩, fun k hk hlt => ?_⟩
  · rw [count_concat_self rfl, count_concat_other hne]
    omega
  · rw [after_concat, note_of_passes hpass, h.value hs]
  · rw [count_concat_self rfl] at hlt
    rw [count_concat_other hne] at hk
    rcases Nat.lt_succ_iff_lt_or_eq.mp hlt with hlt | rfl
    · rcases hpast with ⟨heq, -⟩ | ⟨-, -, hall⟩
      · cases hr : r.source <;> rw [hr] at hk hlt <;> simp only [Bool.not_false, Bool.not_true] at hk <;>
          omega
      · obtain ⟨r₁, hr₁⟩ := hall k hk hlt
        exact ⟨r₁, of_getElem? hr₁ [r]⟩
    · exact ⟨r, hlast⟩

/-- A report of the other source that is dropped. -/
theorem Ahead.second (hpast : Ahead window v past src) (hr : r.source = !src)
    (hdrop : passes window (after window none past) r = false) :
    if count src past = count (!src) past + 1 then Even window v (past ++ [r])
    else Ahead window v (past ++ [r]) src := by
  have hne : r.source ≠ src := by rw [hr]; cases src <;> decide
  have hsrc : count src (past ++ [r]) = count src past := count_concat_other hne
  have hother : count (!src) (past ++ [r]) = count (!src) past + 1 := count_concat_self hr
  have hafter : after window none (past ++ [r]) = after window none past := by
    rw [after_concat, note_of_not hdrop]
  have hmarks : of src (marks window none (past ++ [r])) = of src (marks window none past) := by
    rw [marks_concat]
    exact of_concat_other _ _ hne
  obtain ⟨hlt, ⟨k, r₀, hk, hr₀, hseen⟩, hall⟩ := hpast
  split
  · rename_i hone
    have heq : count true (past ++ [r]) = count false (past ++ [r]) ∧
        count true (past ++ [r]) = count src past := by
      cases src <;> simp only [Bool.not_false, Bool.not_true] at hone hother <;> omega
    refine ⟨heq.1, fun h0 => by omega, fun j hj => ⟨r₀.time, ?_⟩⟩
    obtain rfl : j = k := by omega
    rw [hafter, hseen]
  · rename_i hmore
    refine ⟨by omega, ⟨k, r₀, by rw [hsrc, hk], by rw [hmarks, hr₀], by rw [hafter, hseen]⟩, ?_⟩
    intro j hj hjlt
    rw [hmarks]
    exact hall j (by omega) (by omega)

/-! ## One report of each change goes through -/

/-- If one report of each change goes through, a source that is two changes ahead is not caught up
with. -/
theorem not_ahead_of_once (h : Doubled window v n rs) (hs : rs = past ++ rest)
    (honce : Once (marks window none rs)) (hpast : Ahead window v past src)
    (htwo : count (!src) past + 2 ≤ count src past) : False := by
  induction rest generalizing past with
  | nil =>
    rw [List.append_nil] at hs
    subst hs
    have h1 := h.count_eq src
    have h2 := h.count_eq (!src)
    omega
  | cons r rest ih =>
    have hs' : rs = (past ++ [r]) ++ rest := by rw [hs, List.append_assoc]; rfl
    by_cases hr : r.source = src
    · subst hr
      refine ih hs' (Ahead.first h hs (.inr hpast)) ?_
      rw [count_concat_self rfl, count_concat_other (by cases r.source <;> decide)]
      omega
    · have hr' : r.source = !src := by revert hr; cases r.source <;> cases src <;> decide
      obtain ⟨r₀, hr₀⟩ := hpast.2.2 _ le_rfl hpast.1
      -- both reports of the change would go through
      have hdrop : passes window (after window none past) r = false := by
        by_contra hpass
        have hx : (of src (marks window none rs))[count (!src) past]? = some (r₀, true) := by
          rw [hs]
          exact of_getElem? hr₀ _
        have hy : (of (!src) (marks window none rs))[count (!src) past]? = some (r, true) := by
          have hnext := of_getElem? (of_next window past r) rest
          rwa [← hs', hr', Bool.not_eq_false _ |>.mp hpass] at hnext
        exact honce.ne hx hy rfl
      have hnext := Ahead.second hpast hr' hdrop
      rw [if_neg (by omega)] at hnext
      rcases Nat.lt_or_ge (count (!src) past + 2) (count src past) with hthree | hle
      · refine ih hs' hnext ?_
        rw [count_concat_other hr, count_concat_self hr']
        omega
      · -- two ahead: the report has another value than the last one let through
        obtain ⟨-, ⟨k, r₁, hk, -, hseen⟩, -⟩ := hpast
        rw [hseen] at hdrop
        refine absurd hdrop (ne_false_of_eq_true (passes_of_ne ?_))
        rw [h.value hs, hr', show k = count (!src) past + 1 by omega]
        exact h.step _

/-- The two reports of a change: the second is dropped. -/
theorem passes_second (h : Doubled window v n rs) (hs : rs = past ++ r :: rest)
    (hpast : Ahead window v past src) (hr : r.source = !src)
    (hone : count src past = count (!src) past + 1) :
    passes window (after window none past) r = false := by
  obtain ⟨-, ⟨k, r₀, hk, hr₀, hseen⟩, -⟩ := hpast
  have hkey : k = count r.source past := by rw [hr]; omega
  have hget : (reportsOf src rs)[k]? = some r₀ := by
    rw [← of_fst window src none, List.getElem?_map, hs, of_getElem? hr₀]
    rfl
  have hnext : (reportsOf (!src) rs)[k]? = some r := by
    rw [hkey, hs, ← hr]
    exact reportsOf_next rest
  have hclose : r.time < r₀.time + window := by
    cases src with
    | true => exact (h.close k r₀ r hget hnext).2
    | false => exact (h.close k r r₀ hnext hget).1
  have hle : r₀.time ≤ r.time := by
    have hmem : r₀ ∈ past := by
      have := List.mem_of_getElem? hr₀
      rw [← marks_fst window none past]
      exact List.mem_map_of_mem (f := Prod.fst) (List.mem_filter.mp this).1
    have hsorted := h.sorted
    rw [hs] at hsorted
    exact (List.pairwise_append.mp hsorted).2.2 r₀ hmem r List.mem_cons_self
  rw [hseen]
  have hv : v k = r.value := by rw [h.value hs, hkey]
  simp only [passes, hv, decide_true, Bool.true_and, Bool.not_eq_false', decide_eq_true_eq]
  omega

/-- No source is two changes ahead of the other. -/
def Together (rs : List (Report β)) : Prop :=
  ∀ past rest, rs = past ++ rest → ∀ src, count src past ≤ count (!src) past + 1

/-- The sources are level, or one is ahead by one change. -/
def Near (window : Nat) (v : Nat → β) (past : List (Report β)) : Prop :=
  Even window v past ∨ ∃ src, Ahead window v past src ∧ count src past = count (!src) past + 1

theorem Near.count_le (h : Near window v past) (src : Bool) :
    count src past ≤ count (!src) past + 1 := by
  rcases h with ⟨heq, -⟩ | ⟨src', -, hone⟩
  · cases src <;> simp only [Bool.not_false, Bool.not_true] <;> omega
  · cases src <;> cases src' <;> simp only [Bool.not_false, Bool.not_true] at hone ⊢ <;> omega

/-- A report of the source that is ahead by one would put it two ahead. -/
theorem Near.next (h : Doubled window v n rs) (hs : rs = past ++ r :: rest) (hnear : Near window v past)
    (htwo : ¬ (Ahead window v (past ++ [r]) r.source ∧
      count (!r.source) (past ++ [r]) + 2 ≤ count r.source (past ++ [r]))) :
    Near window v (past ++ [r]) := by
  have hne : r.source ≠ !r.source := by cases r.source <;> decide
  have hself : count r.source (past ++ [r]) = count r.source past + 1 := count_concat_self rfl
  have hother : count (!r.source) (past ++ [r]) = count (!r.source) past := count_concat_other hne
  have hfirst : Even window v past ∨ Ahead window v past r.source → Near window v (past ++ [r]) := by
    intro hpast
    have hahead := Ahead.first h hs hpast
    have hle := hahead.1
    exact .inr ⟨r.source, hahead, by
      by_contra hcount
      exact htwo ⟨hahead, by omega⟩⟩
  rcases hnear with heven | ⟨src, hahead, hone⟩
  · exact hfirst (.inl heven)
  · by_cases hr : r.source = src
    · exact hfirst (.inr (hr ▸ hahead))
    · have hr' : r.source = !src := by revert hr; cases r.source <;> cases src <;> decide
      have hsecond := Ahead.second hahead hr' (passes_second h hs hahead hr' hone)
      rw [if_pos hone] at hsecond
      exact .inl hsecond

theorem Once.concat (honce : Once (marks window none past)) (h : Doubled window v n rs)
    (hs : rs = past ++ r :: rest) (hnear : Near window v past) :
    Once (marks window none (past ++ [r])) := by
  have hne : r.source ≠ !r.source := by cases r.source <;> decide
  refine .of_ne r.source fun k x y hx hy => ?_
  rw [marks_concat, of_concat_other (!r.source) _ hne] at hy
  rw [marks_concat, of_concat_self r.source _ rfl] at hx
  rcases Nat.lt_or_ge k (count r.source past) with hlt | hge
  · rw [List.getElem?_append_left (by rw [of_length]; exact hlt)] at hx
    exact honce.ne hx hy
  · rw [List.getElem?_append_right (by rw [of_length]; exact hge), of_length] at hx
    have hlen := (List.getElem?_eq_some_iff.mp hy).1
    rw [of_length] at hlen
    -- the report is the second of its change
    rcases hnear with ⟨heq, -⟩ | ⟨src, hahead, hone⟩
    · cases hr : r.source <;> rw [hr] at hge hlen <;>
        simp only [Bool.not_false, Bool.not_true] at hlen <;> omega
    · have hr : r.source = !src := by
        by_contra hr
        have hsrc : src = r.source := by revert hr; cases r.source <;> cases src <;> decide
        rw [hsrc] at hone
        omega
      have hsrc : (!r.source) = src := by rw [hr, Bool.not_not]
      rw [hsrc] at hy hlen
      rw [hr] at hge
      have hdrop := passes_second h hs hahead hr hone
      obtain ⟨-, ⟨j, r₀, hj, hr₀, -⟩, -⟩ := hahead
      obtain rfl : k = j := by omega
      rw [hr₀] at hy
      cases hy
      have hk : k - count r.source past = 0 := by rw [hr]; omega
      rw [hk, hdrop] at hx
      cases hx
      exact Bool.false_ne_true

theorem near_of_once (h : Doubled window v n rs) (honce : Once (marks window none rs)) :
    ∀ past rest, rs = past ++ rest → Near window v past := by
  intro past
  induction past using List.reverseRecOn with
  | nil => exact fun _ _ => .inl ⟨rfl, fun _ => rfl, nofun⟩
  | append_singleton past r ih =>
    intro rest hs
    have hs' : rs = past ++ r :: rest := by rw [hs, List.append_assoc]; rfl
    refine (ih _ hs').next h hs' fun htwo => ?_
    exact not_ahead_of_once h hs honce htwo.1 htwo.2

/-- What is dropped, as long as the sources stay together: the second report of each change. -/
theorem once_of_together (h : Doubled window v n rs) (ht : Together rs) :
    ∀ past rest, rs = past ++ rest → Near window v past ∧ Once (marks window none past) := by
  intro past
  induction past using List.reverseRecOn with
  | nil => exact fun _ _ => ⟨.inl ⟨rfl, fun _ => rfl, nofun⟩, nofun⟩
  | append_singleton past r ih =>
    intro rest hs
    have hs' : rs = past ++ r :: rest := by rw [hs, List.append_assoc]; rfl
    obtain ⟨hnear, honce⟩ := ih _ hs'
    refine ⟨hnear.next h hs' fun htwo => ?_, ?_⟩
    · have := ht _ _ hs r.source
      omega
    · exact honce.concat h hs' hnear

theorem once_iff (h : Doubled window v n rs) : Once (marks window none rs) ↔ Together rs := by
  constructor
  · intro honce past rest hs src
    exact (near_of_once h honce past rest hs).count_le src
  · intro ht
    exact (once_of_together h ht rs [] (List.append_nil rs).symm).2

end Stok.Lib.LastSeen
