import Mathlib.Data.List.TakeWhile
import Mathlib.Tactic

/-!
# Self-synchronising codes

The words of such a code begin with a symbol that no word has in another place, and no word is
another one with symbols added. Where a text of the code may be cut then shows in one symbol, the
first one after the cut (`text_take_iff`).
-/

namespace Stok.Lib.SelfSync

structure Code (α : Type) where
  /-- The symbols that stand inside words. -/
  cont : α → Bool
  word : List α → Prop
  shape : ∀ {w}, word w → ∃ b t, w = b :: t ∧ cont b = false ∧ ∀ c ∈ t, cont c = true
  prefixFree : ∀ {w t}, word w → word (w ++ t) → t = []

namespace Code

variable {α : Type} (C : Code α) {a b s w : List α}

inductive Text : List α → Prop
  | nil : Text []
  | cons {w s : List α} : C.word w → Text s → Text (w ++ s)

/-- A text may begin here. -/
def Starts (s : List α) : Prop := ∀ c, s.head? = some c → C.cont c = false

variable {C}

theorem starts_nil : C.Starts [] := nofun

theorem starts_cons {c : α} : C.Starts (c :: s) ↔ C.cont c = false := by
  simp [Starts]

theorem text_word (h : C.word w) : C.Text w := by
  simpa using Text.cons h .nil

theorem Text.starts (h : C.Text s) : C.Starts s := by
  cases h with
  | nil => exact starts_nil
  | cons hw hs =>
    obtain ⟨b, t, rfl, hb, -⟩ := C.shape hw
    exact starts_cons.mpr hb

theorem Text.append (ha : C.Text a) (hb : C.Text b) : C.Text (a ++ b) := by
  induction ha with
  | nil => exact hb
  | cons hw _ ih =>
    rw [List.append_assoc]
    exact .cons hw ih

theorem takeWhile_append_of_starts {t : List α} (ht : ∀ c ∈ t, C.cont c = true) (hs : C.Starts s) :
    (t ++ s).takeWhile C.cont = t ∧ (t ++ s).dropWhile C.cont = s := by
  rw [List.takeWhile_append_of_pos ht, List.dropWhile_append_of_pos ht]
  cases s with
  | nil => simp
  | cons c s => simp [starts_cons.mp hs]

/-- The first word reaches as far as the symbols that stand inside words. -/
theorem text_cons_iff {x : α} :
    C.Text (x :: s) ↔ C.word (x :: s.takeWhile C.cont) ∧ C.Text (s.dropWhile C.cont) := by
  constructor
  · intro h
    generalize hl : x :: s = l at h
    cases h with
    | nil => cases hl
    | @cons w r hw hr =>
      obtain ⟨b, t, rfl, -, ht⟩ := C.shape hw
      rw [List.cons_append] at hl
      obtain ⟨rfl, rfl⟩ := List.cons.inj hl
      obtain ⟨h1, h2⟩ := takeWhile_append_of_starts ht hr.starts
      rw [h1, h2]
      exact ⟨hw, hr⟩
  · rintro ⟨hw, hs⟩
    have := Text.cons hw hs
    rwa [List.cons_append, List.takeWhile_append_dropWhile] at this

theorem text_append_iff (hb : C.Starts b) : C.Text (a ++ b) ↔ C.Text a ∧ C.Text b := by
  refine ⟨fun h => ?_, fun h => h.1.append h.2⟩
  -- on the length of `a`: a word is taken off its front
  induction hn : a.length using Nat.strong_induction_on generalizing a with
  | _ n ih =>
    cases a with
    | nil => exact ⟨.nil, h⟩
    | cons x a =>
      rw [List.cons_append] at h
      obtain ⟨hw, hs⟩ := text_cons_iff.mp h
      have hsplit : (a ++ b).takeWhile C.cont = a.takeWhile C.cont ∧
          (a ++ b).dropWhile C.cont = a.dropWhile C.cont ++ b := by
        have hcont : ∀ c ∈ a.takeWhile C.cont, C.cont c = true := fun c hc => List.mem_takeWhile_imp hc
        have hstart : C.Starts (a.dropWhile C.cont ++ b) := by
          cases hd : a.dropWhile C.cont with
          | nil => exact hb
          | cons y l =>
            have hnot := List.head?_dropWhile_not C.cont a
            rw [hd] at hnot
            exact starts_cons.mpr (by simpa using hnot)
        have := takeWhile_append_of_starts hcont hstart
        rwa [← List.append_assoc, List.takeWhile_append_dropWhile] at this
      rw [hsplit.1] at hw
      rw [hsplit.2] at hs
      have hlt : (a.dropWhile C.cont).length < n := by
        have := (List.dropWhile_sublist C.cont (l := a)).length_le
        rw [← hn, List.length_cons]
        omega
      obtain ⟨h1, h2⟩ := ih _ hlt hs rfl
      exact ⟨text_cons_iff.mpr ⟨hw, h1⟩, h2⟩

theorem Text.right (ha : C.Text a) (h : C.Text (a ++ b)) : C.Text b := by
  induction ha with
  | nil => exact h
  | @cons w s hw hs ih =>
    refine ih ?_
    obtain ⟨x, t, rfl, -, ht⟩ := C.shape hw
    rw [List.append_assoc, List.cons_append] at h
    obtain ⟨hw', hd⟩ := text_cons_iff.mp h
    rw [List.takeWhile_append_of_pos ht] at hw'
    -- the word `x :: t` cannot go on
    have hnil : (s ++ b).takeWhile C.cont = [] := C.prefixFree hw hw'
    rw [List.dropWhile_append_of_pos ht] at hd
    rwa [← List.takeWhile_append_dropWhile (p := C.cont) (l := s ++ b), hnil, List.nil_append]

/-- A text is left where a text can go on. -/
theorem text_left_iff (h : C.Text (a ++ b)) : C.Text a ↔ C.Starts b :=
  ⟨fun ha => (ha.right h).starts, fun hb => ((text_append_iff hb).mp h).1⟩

theorem text_take_iff (h : C.Text s) (n : Nat) :
    C.Text (s.take n) ↔ ∀ c, s[n]? = some c → C.cont c = false := by
  rw [← List.take_append_drop n s] at h
  rw [text_left_iff h, Starts, List.head?_drop]

theorem text_drop (h : C.Text s) {n : Nat} (hn : ∀ c, s[n]? = some c → C.cont c = false) :
    C.Text (s.drop n) := by
  rw [← List.take_append_drop n s] at h
  refine ((text_append_iff ?_).mp h).2
  rwa [Starts, List.head?_drop]

/-- Something in the place of a word that is none. -/
theorem not_text_of_not_word {x : α} {t : List α} (ht : ∀ c ∈ t, C.cont c = true)
    (hw : ¬ C.word (x :: t)) : ¬ C.Text (x :: t) := by
  intro h
  have := (text_cons_iff.mp h).1
  rw [List.takeWhile_eq_self_iff.mpr ht] at this
  exact hw this

end Code

end Stok.Lib.SelfSync
