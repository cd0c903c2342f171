import Stok.Util.HtmlUtf8

/-!
# The HTML stripper keeps to its bounds

`html_to_text` appends to a string of its caller. `HtmlRuns` are the runs of its loop without fuel,
with what its subtractions need; every text has one (`htmlLoop_runs`), and along it what was in the
string stays (`HtmlRuns.keeps`).
-/

namespace Stok.Text

variable {sep : UInt8} {startLen maxOut : Nat} {o r : HtmlOut} {c : UInt8} {s out : Bytes}

/-! ## What was in the output stays -/

/-- The first `startLen` bytes of `out` are those of `out'`. -/
def Keeps (startLen : Nat) (out out' : Bytes) : Prop := startLen ≤ out'.length ∧ out'.take startLen = out.take startLen

namespace Keeps

variable {out' out'' : Bytes}

theorem refl (h : startLen ≤ out.length) : Keeps startLen out out := ⟨h, rfl⟩

theorem trans (h : Keeps startLen out out') (h' : Keeps startLen out' out'') : Keeps startLen out out'' :=
  ⟨h'.1, h'.2.trans h.2⟩

theorem append (h : startLen ≤ out.length) (t : Bytes) : Keeps startLen out (out ++ t) :=
  ⟨by rw [List.length_append]; omega, List.take_append_of_le_length h⟩

/-- What stays in a part stays in a shorter part. -/
theorem mono {n : Nat} (h : Keeps n out out') (hn : startLen ≤ n) : Keeps startLen out out' := by
  refine ⟨hn.trans h.1, ?_⟩
  have := congrArg (List.take startLen) h.2
  rwa [List.take_take, List.take_take, Nat.min_eq_left hn] at this

theorem popWhile (h : startLen ≤ out.length) (p : UInt8 → Bool) : Keeps startLen out (HtmlOut.popWhile p startLen out) := by
  refine ⟨HtmlOut.le_length_popWhile h, ?_⟩
  rw [HtmlOut.popWhile, List.take_append_of_le_length (by rw [List.length_take, Nat.min_eq_left h]), List.take_take,
    Nat.min_self]

theorem pushSpace (h : startLen ≤ o.out.length) : Keeps startLen o.out o.pushSpace.out := by
  unfold HtmlOut.pushSpace
  split
  · exact refl h
  · exact append h _

theorem pushBlock (h : startLen ≤ o.out.length) : Keeps startLen o.out (o.pushBlock startLen sep).out := by
  unfold HtmlOut.pushBlock
  split
  · exact pushSpace h
  · have hpop := popWhile h (· == 32)
    dsimp only
    split
    · exact hpop.trans (append hpop.1 _)
    · exact hpop

theorem pushEntity (h : startLen ≤ o.out.length) (t : Bytes) : Keeps startLen o.out (o.pushEntity t).out := by
  unfold HtmlOut.pushEntity
  split
  · exact pushSpace h
  · split
    · exact refl h
    · exact append h _

theorem htmlFinish (h : startLen ≤ out.length) (sep : UInt8) (maxOut : Nat) :
    Keeps startLen out (htmlFinish startLen maxOut sep out) := by
  have hpop := popWhile h fun c => c == 32 || c == sep
  unfold Text.htmlFinish
  dsimp only
  generalize HtmlOut.popWhile (fun c => c == 32 || c == sep) startLen out = out' at hpop
  split
  · refine ⟨?_, ?_⟩
    · rw [List.length_take]
      have := hpop.1
      omega
    · rw [List.take_take, Nat.min_eq_left (Nat.le_add_right _ _)]
      exact hpop.2
  · exact hpop

end Keeps

/-! ## Runs -/

/-- A round that goes on keeps the output and shortens the text. -/
theorem htmlRound_next {rest : Bytes} {o' : HtmlOut} (h : startLen ≤ o.out.length)
    (hr : htmlRound sep startLen c s o = .next rest o') :
    Keeps startLen o.out o'.out ∧ rest.length ≤ s.length := by
  have hdoes := htmlRound_does sep startLen c s o
  rw [hr] at hdoes
  cases hdoes with
  | markup _ hrest ho =>
    rcases ho with rfl | rfl
    · exact ⟨.refl h, hrest.length_le⟩
    · exact ⟨.pushBlock h, hrest.length_le⟩
  | reference _ hdec => exact ⟨.pushEntity h _, (decodeOne_spec hdec).2.length_le⟩
  | space => exact ⟨.pushSpace h, le_rfl⟩
  | byte => exact ⟨.append h _, le_rfl⟩

theorem htmlRound_cdata {inner rest : Bytes} (hr : htmlRound sep startLen c s o = .cdata inner rest) :
    inner.length ≤ s.length ∧ rest.length ≤ s.length := by
  have hdoes := htmlRound_does sep startLen c s o
  rw [hr] at hdoes
  cases hdoes with
  | cdata _ _ hinner hrest => exact ⟨hinner, hrest.length_le⟩

/-- The loop of `html_to_text` from `o` ends with `r`. The output is never shorter than `startLen`, and
never longer by `maxOut` where room for a CDATA section is computed. -/
inductive HtmlRuns (sep : UInt8) : Nat → Nat → Bytes → HtmlOut → HtmlOut → Prop
  | eof {startLen maxOut : Nat} {o : HtmlOut} : startLen ≤ o.out.length → HtmlRuns sep startLen maxOut [] o o
  | full {startLen maxOut : Nat} {c : UInt8} {s : Bytes} {o : HtmlOut} : startLen ≤ o.out.length →
      maxOut ≤ o.out.length - startLen → HtmlRuns sep startLen maxOut (c :: s) o o
  | stop {startLen maxOut : Nat} {c : UInt8} {s : Bytes} {o : HtmlOut} : startLen ≤ o.out.length →
      o.out.length - startLen < maxOut → htmlRound sep startLen c s o = .stop →
      HtmlRuns sep startLen maxOut (c :: s) o o
  | next {startLen maxOut : Nat} {c : UInt8} {s rest : Bytes} {o o' r : HtmlOut} : startLen ≤ o.out.length →
      o.out.length - startLen < maxOut → htmlRound sep startLen c s o = .next rest o' →
      HtmlRuns sep startLen maxOut rest o' r → HtmlRuns sep startLen maxOut (c :: s) o r
  | cdata {startLen maxOut : Nat} {c : UInt8} {s inner rest : Bytes} {o sub r : HtmlOut} :
      startLen ≤ o.out.length → o.out.length - startLen < maxOut →
      htmlRound sep startLen c s o = .cdata inner rest →
      HtmlRuns sep o.out.length (maxOut - (o.out.length - startLen)) inner (.start o.out) sub →
      o.out.length ≤ sub.out.length →
      HtmlRuns sep startLen maxOut rest
        (.start (htmlFinish o.out.length (maxOut - (o.out.length - startLen)) sep sub.out)) r →
      HtmlRuns sep startLen maxOut (c :: s) o r

theorem HtmlRuns.keeps (h : HtmlRuns sep startLen maxOut s o r) : Keeps startLen o.out r.out := by
  induction h with
  | eof h => exact .refl h
  | full h => exact .refl h
  | stop h => exact .refl h
  | next h _ hr _ ih => exact (htmlRound_next h hr).1.trans ih
  | cdata h _ _ _ hle _ ihsub ih =>
    exact Keeps.trans (Keeps.mono (Keeps.trans ihsub (Keeps.htmlFinish hle _ _)) h) ih

theorem HtmlRuns.le (h : HtmlRuns sep startLen maxOut s o r) : startLen ≤ o.out.length := by
  cases h <;> assumption

/-- The loop comes to an end on every text. -/
theorem htmlLoop_runs (fuel : Nat) : ∀ {startLen maxOut : Nat} {s : Bytes} {o : HtmlOut}, s.length ≤ fuel →
    startLen ≤ o.out.length → HtmlRuns sep startLen maxOut s o (htmlLoop sep fuel startLen maxOut s o) := by
  induction fuel with
  | zero =>
    intro startLen maxOut s o hs ho
    obtain rfl : s = [] := List.length_eq_zero_iff.mp (Nat.le_zero.mp hs)
    exact .eof ho
  | succ fuel ih =>
    intro startLen maxOut s o hs ho
    cases s with
    | nil => exact .eof ho
    | cons c s =>
      have hfuel : s.length ≤ fuel := Nat.le_of_succ_le_succ hs
      rcases Nat.lt_or_ge (o.out.length - startLen) maxOut with hroom | hfull
      · rw [htmlLoop_cons _ _ _ _ _ _ _ hroom.not_ge]
        cases hr : htmlRound sep startLen c s o with
        | stop => exact .stop ho hroom hr
        | next rest o' =>
          obtain ⟨hkeeps, hrest⟩ := htmlRound_next ho hr
          exact .next ho hroom hr (ih (hrest.trans hfuel) hkeeps.1)
        | cdata inner rest =>
          obtain ⟨hinner, hrest⟩ := htmlRound_cdata hr
          have hsub := @ih _ (maxOut - (o.out.length - startLen)) _ (.start o.out) (hinner.trans hfuel) le_rfl
          have hkeeps := hsub.keeps
          have hfinish := hkeeps.trans (Keeps.htmlFinish hkeeps.1 sep (maxOut - (o.out.length - startLen)))
          exact .cdata ho hroom hr hsub hkeeps.1 (ih (hrest.trans hfuel) (hfinish.mono ho).1)
      · rw [htmlLoop, if_pos hfull]
        exact .full ho hfull

/-! ## The end of the text -/

theorem popWhile_getLast {p : UInt8 → Bool} {b : UInt8} (h : ((HtmlOut.popWhile p startLen out).drop startLen).getLast? = some b)
    (hle : startLen ≤ out.length) : p b = false := by
  have hdrop : (HtmlOut.popWhile p startLen out).drop startLen = ((out.drop startLen).reverse.dropWhile p).reverse := by
    rw [HtmlOut.popWhile, List.drop_left' (by rw [List.length_take, Nat.min_eq_left hle])]
  rw [hdrop, List.getLast?_reverse] at h
  have hnot := List.head?_dropWhile_not p (out.drop startLen).reverse
  rw [h] at hnot
  simpa using hnot

/-- The text that is appended, before it is cut to the limit. -/
def trimmed (sep : UInt8) (startLen : Nat) (out : Bytes) : Bytes :=
  (HtmlOut.popWhile (fun c => c == 32 || c == sep) startLen out).drop startLen

/-- Whatever the text, the loop ends, what was in `out` stays, at most `maxOut` bytes are appended, and they end in white space
only where they are cut. -/
theorem htmlToText_bounded (html out : Bytes) (maxOut : Nat) (sep : UInt8) :
    ∃ r a, HtmlRuns sep out.length maxOut html (.start out) r ∧
      htmlToText html out maxOut sep = out ++ a ∧ a.length ≤ maxOut ∧
      (a.getLast? ≠ some 32 ∧ a.getLast? ≠ some sep ∨
        maxOut < (trimmed sep out.length r.out).length ∧
          a = (trimmed sep out.length r.out).take (utf8Cut (trimmed sep out.length r.out) maxOut)) := by
  have hruns : HtmlRuns sep out.length maxOut html (.start out)
      (htmlLoop sep html.length out.length maxOut html (.start out)) := htmlLoop_runs html.length le_rfl le_rfl
  obtain ⟨hlen, htake⟩ : Keeps out.length out
      (htmlLoop sep html.length out.length maxOut html (.start out)).out := hruns.keeps
  rw [htmlToText]
  generalize htmlLoop sep html.length out.length maxOut html (.start out) = r at hruns hlen htake ⊢
  obtain ⟨-, htake'⟩ := Keeps.htmlFinish hlen sep maxOut
  refine ⟨r, (htmlFinish out.length maxOut sep r.out).drop out.length, hruns, ?_, ?_, ?_⟩
  · have hout : (htmlFinish out.length maxOut sep r.out).take out.length = out :=
      htake'.trans (htake.trans (List.take_length))
    conv_lhs => rw [← List.take_append_drop out.length (htmlFinish out.length maxOut sep r.out), hout]
  · have := htmlFinish_le sep out.length maxOut r.out
    rw [List.length_drop]
    omega
  · have hcut : (trimmed sep out.length r.out).length =
        (HtmlOut.popWhile (fun c => c == 32 || c == sep) out.length r.out).length - out.length := List.length_drop
    rw [hcut]
    simp only [htmlFinish]
    split
    · refine .inr ⟨‹_›, ?_⟩
      rw [List.drop_take, Nat.add_sub_cancel_left]
      rfl
    · refine .inl ⟨fun hlast => ?_, fun hlast => ?_⟩
      · have hnot := popWhile_getLast hlast hlen
        simp at hnot
      · have hnot := popWhile_getLast hlast hlen
        simp at hnot

end Stok.Text
