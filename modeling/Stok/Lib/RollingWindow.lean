import Mathlib.Data.List.Sort
import Mathlib.Order.RelClasses
import Stok.Lib.OrderedMap

/-!
# A rolling window over keyed rows

Rows that belong to keys: a key's rows are replaced together, and a trim keeps the rows of the
`N` greatest keys. A trim between two replacements is not seen after the next one: what it drops
would be dropped later in any case (`Within.trim`).
-/

namespace Stok.Lib.RollingWindow

open OrderedMap (setOf)

variable {κ ρ : Type*}

/-- The last `N` of a set in order. -/
def latest (N : Nat) (s : List κ) : List κ := s.drop (s.length - N)

variable (lt : κ → κ → Prop) [DecidableRel lt] [DecidableEq κ] (key : ρ → κ)

/-- The rows of `d` are now `new`. -/
def replace (d : κ) (new rows : List ρ) : List ρ := (rows.filter fun r => key r ≠ d) ++ new

def trim (N : Nat) (rows : List ρ) : List ρ :=
  let keep := latest N (setOf lt (rows.map key))
  rows.filter fun r => key r ∈ keep

omit [DecidableEq κ] in
theorem mem_latest [IsStrictTotalOrder κ lt] {N : Nat} {s : List κ} (hs : s.Pairwise lt) {x : κ} :
    x ∈ latest N s ↔ x ∈ s ∧ s.countP (fun y => decide (lt x y)) < N := by
  rcases Classical.em (x ∈ s) with hx | hx
  · obtain ⟨front, back, rfl⟩ := List.append_of_mem hx
    obtain ⟨hfront, hback, hcross⟩ := List.pairwise_append.1 hs
    have hxback := (List.pairwise_cons.1 hback).1
    have hcount : (front ++ x :: back).countP (fun y => decide (lt x y)) = back.length := by
      have h1 : front.countP (fun y => decide (lt x y)) = 0 := by
        refine List.countP_eq_zero.2 fun y hy hxy => ?_
        exact asymm_of lt (hcross y hy x List.mem_cons_self) (of_decide_eq_true hxy)
      have h2 : back.countP (fun y => decide (lt x y)) = back.length :=
        List.countP_eq_length.2 fun y hy => decide_eq_true (hxback y hy)
      rw [List.countP_append, List.countP_cons, h1, h2, if_neg (by simp [irrefl_of lt x])]
      omega
    have hnot : x ∉ front := fun h => irrefl_of lt x (hcross x h x List.mem_cons_self)
    have hnot' : x ∉ back := fun h => irrefl_of lt x (hxback x h)
    rw [hcount, latest, List.length_append, List.length_cons]
    constructor
    · intro h
      refine ⟨hx, Nat.lt_of_not_le fun hle => ?_⟩
      rw [List.drop_append, List.drop_eq_nil_of_le (by omega), List.nil_append] at h
      obtain ⟨m, hm⟩ : ∃ m, front.length + (back.length + 1) - N - front.length = m + 1 := ⟨back.length - N, by omega⟩
      rw [hm, List.drop_succ_cons] at h
      exact hnot' (List.mem_of_mem_drop h)
    · rintro ⟨-, hlt⟩
      rw [List.drop_append_of_le_length (by omega)]
      exact List.mem_append_right _ List.mem_cons_self
  · exact iff_of_false (fun h => hx (List.mem_of_mem_drop h)) fun h => hx h.1

omit [DecidableRel lt] [DecidableEq κ] in
theorem latest_filter {N : Nat} {s : List κ} {p : κ → Bool} (hp : ∀ x ∈ latest N s, p x = true) :
    latest N (s.filter p) = latest N s := by
  have hback : (latest N s).filter p = latest N s := List.filter_eq_self.2 hp
  have hsplit : s.filter p = (s.take (s.length - N)).filter p ++ latest N s := by
    conv_lhs => rw [← List.take_append_drop (s.length - N) s]
    rw [List.filter_append]
    exact congrArg _ hback
  have hlen : (latest N s).length = s.length - (s.length - N) := List.length_drop
  rw [latest, hsplit, List.length_append, hlen]
  rcases Nat.le_total s.length N with hle | hle
  · have h0 : s.length - N = 0 := by omega
    have h1 : 0 + (s.length - 0) - N = 0 := by omega
    rw [h0, List.take_zero, List.filter_nil, List.nil_append, List.length_nil, h1, List.drop_zero]
  · rw [show s.length - (s.length - N) = N by omega, Nat.add_sub_cancel, List.drop_left]

/-- `rows` are those of `all` under some keys, the `N` greatest among them. -/
def Within (N : Nat) (rows all : List ρ) : Prop :=
  ∃ p : κ → Bool, rows = (all.filter fun r => p (key r)) ∧
    ∀ d ∈ latest N (setOf lt (all.map key)), p d = true

variable {lt key} {N : Nat} {rows all : List ρ}

omit [DecidableEq κ] in
theorem within_self : Within lt key N rows rows :=
  ⟨fun _ => true, (List.filter_eq_self.2 fun _ _ => rfl).symm, fun _ _ => rfl⟩

variable [IsStrictTotalOrder κ lt]

theorem Within.replace {d : κ} {new : List ρ} (h : Within lt key N rows all) (hne : new ≠ [])
    (hnew : ∀ r ∈ new, key r = d) : Within lt key N (replace key d new rows) (replace key d new all) := by
  obtain ⟨p, rfl, hp⟩ := h
  refine ⟨fun x => p x || decide (x = d), ?_, fun x hx => ?_⟩
  · have hold : ((all.filter fun r => key r ≠ d).filter fun r => p (key r) || decide (key r = d)) =
        (all.filter fun r => p (key r)).filter fun r => key r ≠ d := by
      rw [List.filter_filter, List.filter_filter]
      refine List.filter_congr fun r _ => ?_
      by_cases hr : key r = d <;> simp [hr]
    have hkeep : (new.filter fun r => p (key r) || decide (key r = d)) = new := by
      refine List.filter_eq_self.2 fun r hr => ?_
      rw [decide_eq_true (hnew r hr), Bool.or_true]
    rw [RollingWindow.replace, RollingWindow.replace, List.filter_append, hold, hkeep]
  · -- a key that stays among the latest was there before, as a replacement takes no key away
    rcases eq_or_ne x d with rfl | hxd
    · simp
    · rw [mem_latest lt (OrderedMap.pairwise_setOf lt _)] at hx
      obtain ⟨hmem, hcount⟩ := hx
      obtain ⟨r0, hr0⟩ := List.exists_mem_of_ne_nil new hne
      have hsub : ∀ y ∈ setOf lt (all.map key), y ∈ setOf lt ((RollingWindow.replace key d new all).map key) := by
        intro y hy
        rw [OrderedMap.mem_setOf, List.mem_map] at hy ⊢
        obtain ⟨r, hr, rfl⟩ := hy
        rcases eq_or_ne (key r) d with hrd | hrd
        · exact ⟨r0, List.mem_append_right _ hr0, (hnew r0 hr0).trans hrd.symm⟩
        · exact ⟨r, List.mem_append_left _ (List.mem_filter.2 ⟨hr, decide_eq_true hrd⟩), rfl⟩
      have hold : p x = true := by
        refine hp x ((mem_latest lt (OrderedMap.pairwise_setOf lt _)).2 ⟨?_, lt_of_le_of_lt ?_ hcount⟩)
        · rw [OrderedMap.mem_setOf, List.mem_map] at hmem ⊢
          obtain ⟨r, hr, rfl⟩ := hmem
          rcases List.mem_append.1 hr with hr | hr
          · exact ⟨r, (List.mem_filter.1 hr).1, rfl⟩
          · exact absurd (hnew r hr) hxd
        · exact (List.subperm_of_subset (OrderedMap.nodup_setOf lt _) hsub).countP_le _
      simp [hold]

theorem Within.trim (h : Within lt key N rows all) : trim lt key N rows = trim lt key N all := by
  obtain ⟨p, rfl, hp⟩ := h
  have hset : setOf lt ((all.filter fun r => p (key r)).map key) = (setOf lt (all.map key)).filter p := by
    refine OrderedMap.eq_of_pairwise (OrderedMap.pairwise_setOf lt _)
      ((OrderedMap.pairwise_setOf lt _).filter _) fun x => ?_
    rw [OrderedMap.mem_setOf, List.mem_filter, OrderedMap.mem_setOf, List.mem_map, List.mem_map]
    constructor
    · rintro ⟨r, hr, rfl⟩
      obtain ⟨hr, hpr⟩ := List.mem_filter.1 hr
      exact ⟨⟨r, hr, rfl⟩, hpr⟩
    · rintro ⟨⟨r, hr, rfl⟩, hpr⟩
      exact ⟨r, List.mem_filter.2 ⟨hr, hpr⟩, rfl⟩
  unfold RollingWindow.trim
  rw [hset, latest_filter hp, List.filter_filter]
  refine List.filter_congr fun r _ => ?_
  by_cases hr : key r ∈ latest N (setOf lt (all.map key))
  · simp [hr, hp _ hr]
  · simp [hr]

omit [IsStrictTotalOrder κ lt] in
theorem within_trim (all : List ρ) : Within lt key N (RollingWindow.trim lt key N all) all :=
  ⟨fun x => decide (x ∈ latest N (setOf lt (all.map key))), rfl, fun _ => decide_eq_true⟩

theorem trim_trim (all : List ρ) :
    RollingWindow.trim lt key N (RollingWindow.trim lt key N all) = RollingWindow.trim lt key N all :=
  (within_trim all).trim

/-! ## Runs -/

inductive Op (κ ρ : Type*) where
  | replace (d : κ) (new : List ρ)
  | trim

variable (lt key)

def step (N : Nat) (rows : List ρ) : Op κ ρ → List ρ
  | .replace d new => replace key d new rows
  | .trim => trim lt key N rows

def run (N : Nat) (ops : List (Op κ ρ)) : List ρ := ops.foldl (step lt key N) []

/-- The keys of the replacements. -/
def keys : List (Op κ ρ) → List κ
  | [] => []
  | .replace d _ :: ops => d :: keys ops
  | .trim :: ops => keys ops

/-- The last replacement of each key, in the order of the run. -/
def lasts : List (Op κ ρ) → List (κ × List ρ)
  | [] => []
  | .replace d new :: ops => if d ∈ keys ops then lasts ops else (d, new) :: lasts ops
  | .trim :: ops => lasts ops

/-- A key has rows, and they are its own. -/
def Op.Ok : Op κ ρ → Prop
  | .replace d new => new ≠ [] ∧ ∀ r ∈ new, key r = d
  | .trim => True

variable {key} {ops : List (Op κ ρ)}

omit [DecidableEq κ] in
theorem keys_append (ops ops' : List (Op κ ρ)) : keys (ops ++ ops') = keys ops ++ keys ops' := by
  induction ops with
  | nil => rfl
  | cons op ops ih =>
    cases op with
    | replace d new => exact congrArg (d :: ·) ih
    | trim => exact ih

theorem lasts_concat_trim (ops : List (Op κ ρ)) : lasts (ops ++ [.trim]) = lasts ops := by
  induction ops with
  | nil => rfl
  | cons op ops ih =>
    cases op with
    | replace d new =>
      have hkeys : d ∈ keys (ops ++ [.trim]) ↔ d ∈ keys ops := by
        rw [keys_append, List.mem_append]
        exact or_iff_left List.not_mem_nil
      simp only [List.cons_append, lasts, hkeys, ih]
    | trim => exact ih

theorem lasts_concat_replace (ops : List (Op κ ρ)) (d : κ) (new : List ρ) :
    lasts (ops ++ [.replace d new]) = ((lasts ops).filter fun e => e.1 ≠ d) ++ [(d, new)] := by
  induction ops with
  | nil => simp [lasts, keys]
  | cons op ops ih =>
    cases op with
    | replace d' new' =>
      have hkeys : d' ∈ keys (ops ++ [.replace d new]) ↔ d' ∈ keys ops ∨ d' = d := by
        rw [keys_append, List.mem_append]
        exact or_congr_right List.mem_singleton
      simp only [List.cons_append, lasts, hkeys, ih]
      rcases eq_or_ne d' d with rfl | hne
      · rw [if_pos (.inr rfl)]
        split
        · rfl
        · rw [List.filter_cons_of_neg (by simp)]
      · simp only [hne, or_false]
        split
        · rfl
        · rw [List.filter_cons_of_pos (by simpa using hne), List.cons_append]
    | trim => exact ih

theorem mem_keys_iff {d : κ} : d ∈ keys ops ↔ ∃ new, (d, new) ∈ lasts ops := by
  induction ops with
  | nil => simp [keys, lasts]
  | cons op ops ih =>
    cases op with
    | replace d' new' =>
      rw [keys, lasts, List.mem_cons]
      split
      · rename_i hd'
        rw [← ih]
        refine ⟨fun h => h.elim (fun e => ?_) id, .inr⟩
        rwa [e]
      · rw [ih]
        constructor
        · rintro (rfl | ⟨new, h⟩)
          · exact ⟨new', List.mem_cons_self⟩
          · exact ⟨new, List.mem_cons_of_mem _ h⟩
        · rintro ⟨new, h⟩
          rcases List.mem_cons.1 h with heq | h
          · exact .inl (congrArg Prod.fst heq)
          · exact .inr ⟨new, h⟩
    | trim => exact ih

theorem replace_mem_of_lasts {d : κ} {new : List ρ} (h : (d, new) ∈ lasts ops) : .replace d new ∈ ops := by
  induction ops with
  | nil => exact absurd h List.not_mem_nil
  | cons op ops ih =>
    cases op with
    | replace d' new' =>
      rw [lasts] at h
      split at h
      · exact List.mem_cons_of_mem _ (ih h)
      · rcases List.mem_cons.1 h with heq | h
        · obtain ⟨rfl, rfl⟩ := Prod.mk.inj heq
          exact List.mem_cons_self
        · exact List.mem_cons_of_mem _ (ih h)
    | trim => exact List.mem_cons_of_mem _ (ih h)

/-- A key is listed once. -/
theorem nodup_lasts (ops : List (Op κ ρ)) : ((lasts ops).map Prod.fst).Nodup := by
  induction ops with
  | nil => exact List.nodup_nil
  | cons op ops ih =>
    cases op with
    | replace d new =>
      rw [lasts]
      split
      · exact ih
      · rename_i hd
        refine List.nodup_cons.2 ⟨fun h => hd ?_, ih⟩
        obtain ⟨e, he, heq⟩ := List.mem_map.1 h
        obtain rfl : e.1 = d := heq
        exact mem_keys_iff.2 ⟨e.2, he⟩
    | trim => exact ih

omit [DecidableEq κ] in
theorem filter_flatMap_rows {es : List (κ × List ρ)} (hes : ∀ e ∈ es, ∀ r ∈ e.2, key r = e.1) (p : κ → Bool) :
    ((es.flatMap Prod.snd).filter fun r => p (key r)) = (es.filter fun e => p e.1).flatMap Prod.snd := by
  induction es with
  | nil => rfl
  | cons e es ih =>
    have hrows : (e.2.filter fun r => p (key r)) = if p e.1 = true then e.2 else [] := by
      split
      · rename_i hp
        exact List.filter_eq_self.2 fun r hr => by rw [hes e List.mem_cons_self r hr, hp]
      · rename_i hp
        exact List.filter_eq_nil_iff.2 fun r hr => by rwa [hes e List.mem_cons_self r hr]
    rw [List.flatMap_cons, List.filter_append, ih fun d hd => hes d (List.mem_cons_of_mem _ hd), hrows,
      List.filter_cons]
    split <;> rfl

theorem lasts_rows (hok : ∀ op ∈ ops, Op.Ok key op) : ∀ e ∈ lasts ops, ∀ r ∈ e.2, key r = e.1 :=
  fun e he => (hok (.replace e.1 e.2) (replace_mem_of_lasts he)).2

theorem run_within (N : Nat) (hok : ∀ op ∈ ops, Op.Ok key op) :
    Within lt key N (run lt key N ops) ((lasts ops).flatMap Prod.snd) := by
  induction ops using List.reverseRecOn with
  | nil => exact within_self
  | append_singleton ops op ih =>
    have hops : ∀ op ∈ ops, Op.Ok key op := fun o ho => hok o (List.mem_append_left _ ho)
    have hrun : run lt key N (ops ++ [op]) = step lt key N (run lt key N ops) op := by
      rw [run, List.foldl_append]
      rfl
    rw [hrun]
    cases op with
    | replace d new =>
      obtain ⟨hne, hnew⟩ := hok (.replace d new) (List.mem_append_right _ (List.mem_singleton.2 rfl))
      have hall : (lasts (ops ++ [.replace d new])).flatMap Prod.snd =
          replace key d new ((lasts ops).flatMap Prod.snd) := by
        have := filter_flatMap_rows (lasts_rows hops) fun x => decide (x ≠ d)
        rw [lasts_concat_replace, List.flatMap_append, replace, this, List.flatMap_singleton]
      rw [hall]
      exact (ih hops).replace hne hnew
    | trim =>
      rw [lasts_concat_trim]
      rw [step, (ih hops).trim]
      exact within_trim _

/-- After a trim the rows are those of the last replacements of the `N` greatest keys. -/
theorem run_trim (N : Nat) (hok : ∀ op ∈ ops, Op.Ok key op) :
    run lt key N (ops ++ [.trim]) =
      ((lasts ops).filter fun e => decide (e.1 ∈ latest N (setOf lt (keys ops)))).flatMap Prod.snd := by
  have hrun : run lt key N (ops ++ [.trim]) = trim lt key N (run lt key N ops) := by
    rw [run, List.foldl_append]
    rfl
  have hkeys : setOf lt (((lasts ops).flatMap Prod.snd).map key) = setOf lt (keys ops) := by
    refine OrderedMap.setOf_ext lt fun x => ?_
    rw [mem_keys_iff, List.mem_map]
    constructor
    · rintro ⟨r, hr, rfl⟩
      obtain ⟨e, he, hr⟩ := List.mem_flatMap.1 hr
      have hkey : key r = e.1 := lasts_rows hok e he r hr
      rw [hkey]
      exact ⟨e.2, he⟩
    · rintro ⟨new, h⟩
      obtain ⟨hne, hnew⟩ : new ≠ [] ∧ ∀ r ∈ new, key r = x := hok _ (replace_mem_of_lasts h)
      obtain ⟨r, hr⟩ := List.exists_mem_of_ne_nil new hne
      exact ⟨r, List.mem_flatMap.2 ⟨_, h, hr⟩, hnew r hr⟩
  rw [hrun, (run_within lt N hok).trim, trim, hkeys]
  exact filter_flatMap_rows (lasts_rows hok) fun x => decide (x ∈ latest N (setOf lt (keys ops)))

end Stok.Lib.RollingWindow
