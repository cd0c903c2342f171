import Mathlib
import Stok.Net.Http

/-!
# The response parser does not see how bytes arrive

`parse_chunked` and `feed` are resumable in the sense of `Stok.Lib.Loop.Resumable`: a round on a
part of the input does what it would do on the whole, an answer is the one on the whole, and the
state left by an answer that asks for more goes on as the one before. The size limit on headers
is the one place where an answer depends on the cuts; it is out of play when the header section
ends within the limit (`HeaderEnds`) or the input is no longer than it.
-/

namespace Stok.Net

open Stok.Lib Stok.Lib.Loop

def isMore (r : Result) : Bool := r = .needMore

theorem slice_append {s t : Bytes} {a b : Nat} (hb : b ≤ s.length) :
    ((s ++ t).drop a).take (b - a) = (s.drop a).take (b - a) := by
  rcases Nat.le_total a s.length with ha | ha
  · rw [List.drop_append_of_le_length ha, List.take_append_of_le_length]
    rw [List.length_drop]
    omega
  · rw [show b - a = 0 by omega, List.take_zero, List.take_zero]

theorem byteAt_append {s t : Bytes} {i : Nat} (hi : i < s.length) :
    byteAt (s ++ t) i = byteAt s i := by
  simp only [byteAt, List.getD_eq_getElem?_getD, List.getElem?_append_left hi]

section Chunked

variable {s t : Bytes} {p q : ResponseParser} {r : Result}

/-- The whole chunk is there. -/
theorem takeData_append (h : ¬ (p.takeData s).chunkLeft > 0) :
    p.takeData (s ++ t) = p.takeData s := by
  simp only [ResponseParser.takeData] at h ⊢
  have h1 : min (s.length - p.cpos) p.chunkLeft = p.chunkLeft := by omega
  have h2 : min ((s ++ t).length - p.cpos) p.chunkLeft = p.chunkLeft := by
    rw [List.length_append]; omega
  have h3 : (s ++ t).drop p.cpos = s.drop p.cpos ++ t ∨ p.chunkLeft = 0 := by
    rcases Nat.le_total p.cpos s.length with hc | hc
    · exact .inl (List.drop_append_of_le_length hc)
    · exact .inr (by omega)
  rw [h1, h2]
  rcases h3 with h3 | h3
  · rw [h3, List.take_append_of_le_length (by rw [List.length_drop]; omega)]
  · rw [h3, List.take_zero, List.take_zero]

/-- A part of a chunk and then the rest is the chunk. -/
theorem takeData_takeData (hc : p.cpos ≤ s.length) (h : (p.takeData s).chunkLeft > 0) :
    (p.takeData s).takeData (s ++ t) = p.takeData (s ++ t) := by
  simp only [ResponseParser.takeData] at h ⊢
  have h1 : min (s.length - p.cpos) p.chunkLeft = s.length - p.cpos := by omega
  have h2 : min ((s ++ t).length - p.cpos) p.chunkLeft =
      s.length - p.cpos + min t.length (p.chunkLeft - (s.length - p.cpos)) := by
    rw [List.length_append]; omega
  have h3 : p.cpos + (s.length - p.cpos) = s.length := by omega
  have h4 : (s ++ t).length - s.length = t.length := by rw [List.length_append]; omega
  rw [h1, h2, h3, h4, List.drop_append_of_le_length hc, List.drop_left,
    List.take_of_length_le (l := s.drop p.cpos) (by rw [List.length_drop])]
  congr 1
  · omega
  · omega
  · rw [List.append_assoc, List.take_append, List.length_drop, Nat.add_sub_cancel_left,
      List.take_of_length_le (l := s.drop p.cpos) (by rw [List.length_drop]; omega)]

theorem chunkStep_cont (hc : p.cpos ≤ s.length) (h : chunkStep s p = .inl q) :
    chunkStep (s ++ t) p = .inl q ∧ q.cpos ≤ s.length := by
  unfold chunkStep at h ⊢
  cases hcs : p.cs with
  | size =>
    simp only [hcs] at h ⊢
    cases he : find crlf s p.cpos with
    | none => simp only [he] at h; cases h
    | some e =>
      have hb : e + 2 ≤ s.length := (find_bounds he).2
      simp only [he] at h
      simp only [find_append t he, slice_append (s := s) (t := t) (show e ≤ s.length by omega)]
      refine ⟨h, ?_⟩
      split at h
      · cases h
      · split at h <;> cases h <;> exact hb
  | data =>
    simp only [hcs] at h ⊢
    split at h
    · cases h
    · rename_i hleft
      rw [takeData_append hleft, if_neg hleft]
      cases h
      refine ⟨rfl, ?_⟩
      simp only [ResponseParser.takeData]
      omega
  | dataCrlf =>
    simp only [hcs] at h ⊢
    split at h
    · cases h
    · rw [if_neg (by rw [List.length_append]; omega), byteAt_append (by omega),
        byteAt_append (by omega)]
      refine ⟨h, ?_⟩
      split at h <;> cases h
      show p.cpos + 2 ≤ s.length
      omega
  | trailer =>
    simp only [hcs] at h ⊢
    cases he : find crlf s p.cpos with
    | none => simp only [he] at h; cases h
    | some e =>
      simp only [he] at h
      simp only [find_append t he]
      refine ⟨h, ?_⟩
      split at h <;> cases h
      exact (find_bounds he).2

theorem chunkStep_settle (h : chunkStep s p = .inr (q, r)) (hr : r ≠ .needMore) :
    chunkStep (s ++ t) p = .inr (q, r) := by
  unfold chunkStep at h ⊢
  cases hcs : p.cs with
  | size =>
    simp only [hcs] at h ⊢
    cases he : find crlf s p.cpos with
    | none => simp only [he] at h; cases h; exact absurd rfl hr
    | some e =>
      have hb : e + 2 ≤ s.length := (find_bounds he).2
      simp only [he] at h
      simp only [find_append t he, slice_append (s := s) (t := t) (show e ≤ s.length by omega)]
      exact h
  | data =>
    simp only [hcs] at h ⊢
    split at h <;> cases h
    exact absurd rfl hr
  | dataCrlf =>
    simp only [hcs] at h ⊢
    split at h
    · cases h; exact absurd rfl hr
    · rw [if_neg (by rw [List.length_append]; omega), byteAt_append (by omega),
        byteAt_append (by omega)]
      exact h
  | trailer =>
    simp only [hcs] at h ⊢
    cases he : find crlf s p.cpos with
    | none => simp only [he] at h; cases h; exact absurd rfl hr
    | some e =>
      simp only [he] at h
      simp only [find_append t he]
      exact h

theorem chunkStep_wait (hc : p.cpos ≤ s.length) (h : chunkStep s p = .inr (q, .needMore)) :
    chunkStep (s ++ t) q = chunkStep (s ++ t) p ∧ q.cpos ≤ s.length := by
  have hsame : q = p → chunkStep (s ++ t) q = chunkStep (s ++ t) p ∧ q.cpos ≤ s.length := by
    rintro rfl
    exact ⟨rfl, hc⟩
  unfold chunkStep at h
  cases hcs : p.cs with
  | size =>
    simp only [hcs] at h
    cases he : find crlf s p.cpos with
    | none => simp only [he] at h; cases h; exact hsame rfl
    | some e =>
      simp only [he] at h
      split at h
      · cases h
      · split at h <;> cases h
  | data =>
    simp only [hcs] at h
    split at h <;> cases h
    rename_i hleft
    have hcs' : (p.takeData s).cs = .data := hcs
    constructor
    · unfold chunkStep
      simp only [hcs, hcs', takeData_takeData hc hleft]
    · simp only [ResponseParser.takeData]
      omega
  | dataCrlf =>
    simp only [hcs] at h
    split at h
    · cases h; exact hsame rfl
    · split at h <;> cases h
  | trailer =>
    simp only [hcs] at h
    cases he : find crlf s p.cpos with
    | none => simp only [he] at h; cases h; exact hsame rfl
    | some e =>
      simp only [he] at h
      split at h <;> cases h

theorem parseChunked_resumable (S : Bytes) :
    Resumable parseChunked isMore (fun _ a => a) Eq (fun s p => p.cpos ≤ s.length ∧ s <+: S) S where
  congr := by
    rintro x _ rfl
    exact agree_refl (fun _ => rfl) _
  cont := by
    rintro s p q ⟨hc, t, rfl⟩ h
    obtain ⟨h1, h2⟩ := chunkStep_cont (t := t) hc h
    exact ⟨h1, h2, List.prefix_append s t⟩
  settle := by
    rintro s p ⟨q, r⟩ ⟨hc, t, rfl⟩ h hr
    exact ⟨_, chunkStep_settle h (of_decide_eq_false hr), rfl⟩
  wait := by
    rintro s p ⟨q, r⟩ ⟨hc, t, rfl⟩ h hr
    obtain rfl : r = .needMore := of_decide_eq_true hr
    obtain ⟨h1, h2⟩ := chunkStep_wait (t := t) hc h
    refine ⟨?_, h2, List.prefix_append s t⟩
    show Agree _ _ (chunkStep (s ++ t) q) (chunkStep (s ++ t) p)
    rw [h1]
    exact agree_refl (fun _ => rfl) _

/-- What a round of `parse_chunked` leaves alone. -/
theorem chunkStep_frame (s : Bytes) (p : ResponseParser) :
    (∀ q, chunkStep s p = .inl q →
      q.bodyLen = p.bodyLen ∧ q.scan = p.scan ∧ q.phase = p.phase) ∧
    (∀ q r, chunkStep s p = .inr (q, r) →
      q.bodyLen = p.bodyLen ∧ q.scan = p.scan ∧ (r = .needMore → q.phase = p.phase)) := by
  constructor
  · intro q h
    unfold chunkStep at h
    repeat' split at h
    all_goals cases h <;> exact ⟨rfl, rfl, rfl⟩
  · intro q r h
    unfold chunkStep at h
    repeat' split at h
    all_goals cases h <;> exact ⟨rfl, rfl, by first | exact fun _ => rfl | exact nofun⟩

theorem parseChunked_frame (s : Bytes) (p : ResponseParser) :
    (parseChunked.run s p).1.bodyLen = p.bodyLen ∧ (parseChunked.run s p).1.scan = p.scan ∧
    ((parseChunked.run s p).2 = .needMore → (parseChunked.run s p).1.phase = p.phase) := by
  refine run_induct parseChunked s (P := fun p => (parseChunked.run s p).1.bodyLen = p.bodyLen ∧
    (parseChunked.run s p).1.scan = p.scan ∧
    ((parseChunked.run s p).2 = .needMore → (parseChunked.run s p).1.phase = p.phase)) ?_ ?_ p
  · intro p q h ih
    obtain ⟨h1, h2, h3⟩ := (chunkStep_frame s p).1 q h
    rw [run_inl h]
    exact ⟨ih.1.trans h1, ih.2.1.trans h2, fun hr => (ih.2.2 hr).trans h3⟩
  · rintro p ⟨q, r⟩ h
    rw [run_inr h]
    exact (chunkStep_frame s p).2 q r h

def ResponseParser.withScan (k : Nat) (p : ResponseParser) : ResponseParser := { p with scan := k }

/-- `parse_chunked` does not read `scan_`. -/
theorem chunkStep_scan (s : Bytes) (p : ResponseParser) (k : Nat) :
    chunkStep s (p.withScan k) = (chunkStep s p).map (·.withScan k) (Prod.map (·.withScan k) id) := by
  have hcs' : (p.withScan k).cs = p.cs := rfl
  have hpos : (p.withScan k).cpos = p.cpos := rfl
  have htake : (p.withScan k).takeData s = (p.takeData s).withScan k := rfl
  unfold chunkStep
  rw [hcs', hpos, htake]
  cases p.cs with
  | size =>
    simp only
    split
    · rfl
    · split
      · rfl
      · split <;> rfl
  | data =>
    show (if (p.takeData s).chunkLeft > 0 then _ else _) = Sum.map _ _ (if _ then _ else _)
    split <;> rfl
  | dataCrlf =>
    simp only
    split
    · rfl
    · split <;> rfl
  | trailer =>
    simp only
    split
    · rfl
    · split <;> rfl

theorem parseChunked_scan (s : Bytes) (p : ResponseParser) (k : Nat) :
    parseChunked.run s (p.withScan k) = Prod.map (·.withScan k) id (parseChunked.run s p) :=
  run_map (L := parseChunked) (g := ResponseParser.withScan k) (fun p => chunkStep_scan s p k) p

end Chunked

/-- The header section of `S` that the parser `p` is in ends at byte `h`: at the first block that
is not interim, or is bad. -/
inductive HeaderEnds (S : Bytes) : ResponseParser → Nat → Prop where
  | last {p : ResponseParser} {e : Nat} : find (crlf ++ crlf) S p.from = some e →
      (∀ q, p.onHeaders S e = .inl q → q.phase ≠ .headers) → HeaderEnds S p (e + 4)
  | interim {p q : ResponseParser} {e h : Nat} : find (crlf ++ crlf) S p.from = some e →
      p.onHeaders S e = .inl q → q.phase = .headers → HeaderEnds S q h → HeaderEnds S p h

theorem onHeaders_append {s t : Bytes} {e : Nat} {p : ResponseParser} (h : e + 2 ≤ s.length) :
    p.onHeaders (s ++ t) e = p.onHeaders s e := by
  unfold ResponseParser.onHeaders
  rw [slice_append h]

/-- A header block is read without regard to `scan_`, which only an interim one sets. -/
theorem onHeaders_scan (s : Bytes) (e : Nat) (p : ResponseParser) (k : Nat) :
    (∃ q, p.onHeaders s e = .inl q ∧ q.phase = .headers ∧ (p.withScan k).onHeaders s e = .inl q) ∨
    (∃ q, p.onHeaders s e = .inl q ∧ q.phase ≠ .headers ∧
      (p.withScan k).onHeaders s e = .inl (q.withScan k)) ∨
    (∃ q, p.onHeaders s e = .inr (q, .error) ∧
      (p.withScan k).onHeaders s e = .inr (q.withScan k, .error)) := by
  have hk : (p.withScan k).onHeaders s e = (p.withScan k).afterHeaders e
      (parseHeaders p.head p.fields ((s.drop p.bodyStart).take (e + 2 - p.bodyStart))) := rfl
  rw [hk, ResponseParser.onHeaders]
  rcases hr : parseHeaders p.head p.fields ((s.drop p.bodyStart).take (e + 2 - p.bodyStart)) with
    ⟨f, msg | phase⟩ <;> simp only [ResponseParser.afterHeaders]
  · exact .inr (.inr ⟨_, rfl, rfl⟩)
  · split
    · exact .inl ⟨_, rfl, rfl, rfl⟩
    · exact .inr (.inl ⟨_, rfl, parseHeaders_phase hr, rfl⟩)

/-- The positions a header block leaves. -/
theorem onHeaders_frame {s : Bytes} {e : Nat} {p q : ResponseParser} (h : p.onHeaders s e = .inl q) :
    (q.scan = p.scan ∨ q.scan = e + 4) ∧ (q.cpos = p.cpos ∨ q.cpos = e + 4) ∧
    q.bodyLen = p.bodyLen := by
  rw [ResponseParser.onHeaders] at h
  rcases hr : parseHeaders p.head p.fields ((s.drop p.bodyStart).take (e + 2 - p.bodyStart)) with
    ⟨f, msg | phase⟩ <;> rw [hr, ResponseParser.afterHeaders] at h
  · cases h
  · simp only at h
    split at h <;> cases h
    · exact ⟨.inr rfl, .inl rfl, rfl⟩
    · exact ⟨.inl rfl, .inr rfl, rfl⟩

theorem onHeaders_error {s : Bytes} {e : Nat} {p : ResponseParser} {a : ResponseParser × Result}
    (h : p.onHeaders s e = .inr a) : a.2 = .error ∧ a.1.bodyLen = p.bodyLen := by
  rw [ResponseParser.onHeaders] at h
  rcases hr : parseHeaders p.head p.fields ((s.drop p.bodyStart).take (e + 2 - p.bodyStart)) with
    ⟨f, msg | phase⟩ <;> rw [hr, ResponseParser.afterHeaders] at h
  · cases h
    exact ⟨rfl, rfl⟩
  · simp only at h
    split at h <;> cases h

theorem HeaderEnds.found {S : Bytes} {p : ResponseParser} {h : Nat} (he : HeaderEnds S p h) :
    ∃ e, find (crlf ++ crlf) S p.from = some e ∧ e + 4 ≤ h := by
  induction he with
  | last hf _ => exact ⟨_, hf, le_rfl⟩
  | @interim p q e h hf ho hq _ ih =>
    obtain ⟨e', hf', hle⟩ := ih
    refine ⟨e, hf, ?_⟩
    have hscan := (onHeaders_inl ho).resolve_left (not_not_intro hq)
    have hb := (find_bounds hf').1
    rw [from_eq, hscan] at hb
    omega

/-- The search goes on where the last one could not have looked. -/
theorem find_resume {s t : Bytes} {p : ResponseParser} (hs : p.scan ≤ s.length)
    (h : find (crlf ++ crlf) s p.from = none) :
    find (crlf ++ crlf) (s ++ t) (p.withScan s.length).from =
      find (crlf ++ crlf) (s ++ t) p.from := by
  have hl : (crlf ++ crlf).length = 4 := rfl
  have hk : (p.withScan s.length).from = s.length - 3 := from_eq _
  have hp := from_eq p
  rcases Nat.lt_or_ge 3 s.length with h3 | h3
  · exact (find_append_of_none t h (by omega) (by omega)).symm
  · rw [show (p.withScan s.length).from = p.from by omega]

theorem HeaderEnds.resume {s t : Bytes} {p : ResponseParser} {h : Nat}
    (he : HeaderEnds (s ++ t) p h) (hs : p.scan ≤ s.length)
    (hn : find (crlf ++ crlf) s p.from = none) : HeaderEnds (s ++ t) (p.withScan s.length) h := by
  have hf := find_resume (t := t) hs hn
  cases he with
  | @last _ e hfind hlast =>
    refine .last (hf.trans hfind) ?_
    intro q hq
    rcases onHeaders_scan (s ++ t) e p s.length with ⟨q', h1, h2, -⟩ | ⟨q', h1, h2, h3⟩ | ⟨q', h1, h3⟩
    · exact absurd h2 (hlast q' h1)
    · rw [h3] at hq
      cases hq
      exact h2
    · rw [h3] at hq
      cases hq
  | @interim _ q e _ hfind ho hq hrest =>
    rcases onHeaders_scan (s ++ t) e p s.length with ⟨q', h1, h2, h3⟩ | ⟨q', h1, h2, -⟩ | ⟨q', h1, -⟩
    · rw [ho] at h1
      cases h1
      exact .interim (hf.trans hfind) h3 hq hrest
    · rw [ho] at h1
      cases h1
      exact absurd hq h2
    · rw [ho] at h1
      cases h1

/-- The states of `feed` on a part of the input `S`. -/
structure Fits (S : Bytes) (i : Bytes × Bool) (p : ResponseParser) : Prop where
  notEof : i.2 = false
  part : i.1 <+: S
  scan : p.scan ≤ i.1.length
  cpos : p.cpos ≤ i.1.length
  bodyLen : p.bodyLen = 0
  headers : p.phase = .headers → S.length ≤ headerLimit ∨ ∃ h ≤ headerLimit, HeaderEnds S p h

/-- Outside the headers `scan_` is not read. -/
def Eqv (p q : ResponseParser) : Prop := p = q ∨ p.phase ≠ .headers ∧ ∃ k, p = q.withScan k

theorem view_append {s t : Bytes} {b b' : Bool} {a : ResponseParser × Result}
    (h : a.1.bodyLen ≤ s.length - a.1.bodyStart) : view (s ++ t, b') a = view (s, b) a := by
  have hb : a.1.body (s ++ t) = a.1.body s := by
    unfold ResponseParser.body
    split
    · rfl
    · have := slice_append (s := s) (t := t) (a := a.1.bodyStart)
        (b := min s.length (a.1.bodyStart + a.1.bodyLen)) (Nat.min_le_left _ _)
      rwa [show min s.length (a.1.bodyStart + a.1.bodyLen) - a.1.bodyStart = a.1.bodyLen by omega]
        at this
  simp only [view, hb]

theorem eqv_congr {j : Bytes × Bool} {x y : ResponseParser} (h : Eqv x y) :
    Agree Eqv (view j) (feedStep j x) (feedStep j y) := by
  rcases h with rfl | ⟨hp, k, rfl⟩
  · exact agree_refl (fun _ => .inl rfl) _
  · obtain ⟨S, eof⟩ := j
    have hphase : (y.withScan k).phase = y.phase := rfl
    unfold feedStep
    simp only [hphase]
    cases hy : y.phase with
    | headers => exact absurd hy hp
    | length =>
      show Agree _ _ (if ((S.length - y.bodyStart : Nat) : Int) < y.fields.contentLength then _ else _) _
      simp only
      split
      · split <;> rfl
      · rfl
    | chunked =>
      simp only [parseChunked_scan, Prod.map]
      generalize parseChunked.run S y = a
      simp only [id]
      split <;> rfl
    | untilClose =>
      simp only
      split <;> rfl
    | done => rfl

section Feed

variable {S : Bytes} {eof : Bool} {i : Bytes × Bool} {p : ResponseParser}

theorem feed_cont {q : ResponseParser} (hf : Fits S i p) (h : feedStep i p = .inl q) :
    feedStep (S, eof) p = .inl q ∧ Fits S i q := by
  obtain ⟨s, b⟩ := i
  obtain rfl : b = false := hf.notEof
  obtain ⟨t, rfl⟩ := hf.part
  unfold feedStep at h ⊢
  simp only at h ⊢
  cases hp : p.phase with
  | headers =>
    simp only [hp] at h ⊢
    cases he : find (crlf ++ crlf) s p.from with
    | none => simp only [he] at h; split_ifs at h
    | some e =>
      simp only [he] at h
      have hb : e + 4 ≤ s.length := (find_bounds he).2
      have hwhole : find (crlf ++ crlf) (s ++ t) p.from = some e := find_append t he
      have ho : p.onHeaders (s ++ t) e = .inl q := (onHeaders_append (by omega)).trans h
      simp only [hwhole]
      obtain ⟨h1, h2, h3⟩ := onHeaders_frame h
      have hscan := hf.scan
      have hcpos := hf.cpos
      simp only at hscan hcpos
      refine ⟨ho, rfl, ⟨t, rfl⟩, ?_, ?_, h3.trans hf.bodyLen, fun hq => ?_⟩
      · show q.scan ≤ s.length
        omega
      · show q.cpos ≤ s.length
        omega
      · refine (hf.headers hp).imp_right ?_
        rintro ⟨n, hn, hends⟩
        refine ⟨n, hn, ?_⟩
        cases hends with
        | last hfind hlast =>
          cases hwhole.symm.trans hfind
          exact absurd hq (hlast q ho)
        | interim hfind ho' hq' hrest =>
          cases hwhole.symm.trans hfind
          cases ho.symm.trans ho'
          exact hrest
  | length => simp only [hp] at h; split_ifs at h
  | chunked => simp only [hp] at h; split_ifs at h
  | untilClose => simp only [hp] at h; split_ifs at h
  | done => simp only [hp] at h; cases h

/-- The size limit is not met before the end of the header section. -/
theorem Fits.not_large (hf : Fits S i p) (hp : p.phase = .headers)
    (hn : find (crlf ++ crlf) i.1 p.from = none) : ¬ i.1.length > headerLimit := by
  obtain ⟨t, rfl⟩ := hf.part
  intro hlarge
  rcases hf.headers hp with hS | ⟨n, hle, hends⟩
  · rw [List.length_append] at hS
    omega
  · obtain ⟨e, hfind, he⟩ := hends.found
    obtain ⟨h1, -, h3, -⟩ := find_eq_some.mp hfind
    have hl : (crlf ++ crlf).length = 4 := rfl
    exact find_eq_none.mp hn e h1 (by omega) ((prefix_drop_append (by omega)).mp h3)

theorem feed_settle {a : ResponseParser × Result} (hf : Fits S i p) (h : feedStep i p = .inr a)
    (hm : isMore a.2 = false) :
    ∃ b, feedStep (S, eof) p = .inr b ∧ view (S, eof) b = view i a := by
  have hmore : a.2 ≠ .needMore := of_decide_eq_false hm
  obtain ⟨s, b⟩ := i
  obtain rfl : b = false := hf.notEof
  obtain ⟨t, ht⟩ := hf.part
  have hlarge := hf.not_large
  have h0 := hf.bodyLen
  subst ht
  unfold feedStep at h ⊢
  simp only at h hlarge ⊢
  cases hp : p.phase with
  | headers =>
    simp only [hp] at h ⊢
    cases he : find (crlf ++ crlf) s p.from with
    | none =>
      simp only [he] at h
      rw [if_neg (hlarge hp he)] at h
      cases h
      exact absurd rfl hmore
    | some e =>
      simp only [he] at h
      have hb : e + 4 ≤ s.length := (find_bounds he).2
      simp only [find_append t he, onHeaders_append (show e + 2 ≤ s.length by omega)]
      refine ⟨a, h, view_append ?_⟩
      rw [(onHeaders_error h).2, h0]
      exact Nat.zero_le _
  | length =>
    simp only [hp] at h ⊢
    split at h
    · cases h
      exact absurd rfl hmore
    · rename_i hlen
      cases h
      rw [if_neg (by rw [List.length_append]; omega)]
      refine ⟨_, rfl, view_append ?_⟩
      show p.fields.contentLength.toNat ≤ s.length - p.bodyStart
      omega
  | chunked =>
    simp only [hp] at h ⊢
    have hframe := parseChunked_frame s p
    split at h
    · rename_i hc
      cases hc.2
    · cases h
      have hrun : parseChunked.run (s ++ t) p = parseChunked.run s p :=
        (parseChunked_resumable (s ++ t)).run_settle ⟨hf.cpos, t, rfl⟩ (decide_eq_false hmore)
      rw [hrun]
      simp only at hmore
      rw [if_neg fun hc => hmore hc.1]
      refine ⟨_, rfl, view_append ?_⟩
      rw [hframe.1, h0]
      exact Nat.zero_le _
  | untilClose =>
    simp only [hp] at h
    cases h
    exact absurd rfl hmore
  | done =>
    simp only [hp] at h ⊢
    cases h
    refine ⟨_, rfl, view_append ?_⟩
    show p.bodyLen ≤ _
    rw [h0]
    exact Nat.zero_le _

/-- Asking for more of the headers moves only `scan_`. -/
theorem headers_wait {s t : Bytes} {p : ResponseParser} (hp : p.phase = .headers)
    (hscan : p.scan ≤ s.length) (hn : find (crlf ++ crlf) s p.from = none) :
    Agree Eqv (view (s ++ t, eof)) (feedStep (s ++ t, eof) (p.withScan s.length))
      (feedStep (s ++ t, eof) p) := by
  have hp' : (p.withScan s.length).phase = .headers := hp
  unfold feedStep
  simp only [hp, hp', find_resume (t := t) hscan hn]
  cases find (crlf ++ crlf) (s ++ t) p.from with
  | none => exact agree_refl (fun _ => .inl rfl) _
  | some e =>
    simp only
    rcases onHeaders_scan (s ++ t) e p s.length with ⟨q, h1, -, h2⟩ | ⟨q, h1, hq, h2⟩ | ⟨q, h1, h2⟩ <;>
      rw [h1, h2]
    · exact .inl rfl
    · exact .inr ⟨hq, _, rfl⟩
    · rfl

theorem feed_wait {a : ResponseParser × Result} (hf : Fits S i p) (h : feedStep i p = .inr a)
    (hm : isMore a.2 = true) :
    Agree Eqv (view (S, eof)) (feedStep (S, eof) a.1) (feedStep (S, eof) p) ∧ Fits S i a.1 := by
  have hmore : a.2 = .needMore := of_decide_eq_true hm
  obtain ⟨s, b⟩ := i
  obtain rfl : b = false := hf.notEof
  have hsame : a.1 = p →
      Agree Eqv (view (S, eof)) (feedStep (S, eof) a.1) (feedStep (S, eof) p) ∧
      Fits S (s, false) a.1 := by
    rintro ha
    rw [ha]
    exact ⟨agree_refl (fun _ => .inl rfl) _, hf⟩
  unfold feedStep at h
  simp only at h
  cases hp : p.phase with
  | headers =>
    simp only [hp] at h
    cases he : find (crlf ++ crlf) s p.from with
    | none =>
      simp only [he] at h
      rw [if_neg (hf.not_large hp he), if_neg Bool.false_ne_true] at h
      obtain rfl : a = (p.withScan s.length, .needMore) := by
        rw [← Sum.inr.inj h, ResponseParser.withScan, hp]
      obtain ⟨t, rfl⟩ := hf.part
      refine ⟨headers_wait hp hf.scan he, rfl, ⟨t, rfl⟩, le_rfl, hf.cpos, hf.bodyLen, fun _ => ?_⟩
      refine (hf.headers hp).imp_right ?_
      rintro ⟨n, hn, hends⟩
      exact ⟨n, hn, hends.resume hf.scan he⟩
    | some e =>
      simp only [he] at h
      rw [(onHeaders_error h).1] at hmore
      cases hmore
  | length =>
    simp only [hp] at h
    split at h <;> cases h
    · exact hsame rfl
    · cases hmore
  | chunked =>
    simp only [hp] at h
    split at h
    · rename_i hc
      cases hc.2
    · cases h
      obtain ⟨t, rfl⟩ := hf.part
      obtain ⟨h1, h2, h3⟩ := parseChunked_frame s p
      obtain ⟨hrun, hcpos, -⟩ :=
        (parseChunked_resumable (s ++ t)).run_wait ⟨hf.cpos, t, rfl⟩ (decide_eq_true hmore)
      have hphase : (parseChunked.run s p).1.phase = .chunked := (h3 hmore).trans hp
      constructor
      · unfold feedStep
        simp only [hp, hphase, hrun]
        exact agree_refl (fun _ => .inl rfl) _
      · refine ⟨rfl, ⟨t, rfl⟩, h2.trans_le hf.scan, hcpos, h1.trans hf.bodyLen, fun hh => ?_⟩
        exact absurd (hphase.symm.trans hh) nofun
  | untilClose =>
    simp only [hp] at h
    cases h
    exact hsame rfl
  | done =>
    simp only [hp] at h
    cases h
    cases hmore

end Feed

theorem feed_resumable (S : Bytes) (eof : Bool) :
    Resumable feed isMore view Eqv (Fits S) (S, eof) where
  congr := eqv_congr
  cont := feed_cont
  settle := feed_settle
  wait := feed_wait

/-- The calls of `feed` on a buffer that holds `buf` and grows by the pieces; none is at the end
of the stream. -/
def calls (buf : Bytes) : List Bytes → List (Bytes × Bool)
  | [] => []
  | piece :: pieces => (buf ++ piece, false) :: calls (buf ++ piece) pieces

theorem calls_mem {pieces : List Bytes} {buf : Bytes} {i : Bytes × Bool} (h : i ∈ calls buf pieces) :
    i.2 = false ∧ buf <+: i.1 ∧ i.1 <+: buf ++ pieces.flatten := by
  induction pieces generalizing buf with
  | nil => cases h
  | cons piece pieces ih =>
    rw [List.flatten_cons, ← List.append_assoc]
    rcases List.mem_cons.mp h with rfl | h
    · exact ⟨rfl, List.prefix_append _ _, List.prefix_append _ _⟩
    · obtain ⟨h1, h2, h3⟩ := ih h
      exact ⟨h1, (List.prefix_append _ _).trans h2, h3⟩

theorem calls_pairwise (pieces : List Bytes) (buf : Bytes) :
    (calls buf pieces).Pairwise fun i j => j.2 = false ∧ i.1 <+: j.1 ∧ j.1 <+: buf ++ pieces.flatten := by
  induction pieces generalizing buf with
  | nil => exact .nil
  | cons piece pieces ih =>
    rw [List.flatten_cons, ← List.append_assoc]
    exact .cons (fun j hj => calls_mem hj) (ih _)

/-- The calls on the pieces of a stream are on parts of it. -/
theorem feedAll_calls {head eof : Bool} {pieces : List Bytes} {S : Bytes} (hpart : pieces.flatten <+: S)
    (hlimit : S.length ≤ 2 ^ 20 ∨ ∃ h ≤ 2 ^ 20, HeaderEnds S (.reset head) h) :
    feed.feedAll isMore view (calls [] pieces) (S, eof) (.reset head) =
      view (S, eof) (feed.run (S, eof) (.reset head)) := by
  refine (feed_resumable S eof).feedAll_eq
    (fun i j => j.2 = false ∧ i.1 <+: j.1 ∧ j.1 <+: [] ++ pieces.flatten) ?_
    (calls_pairwise pieces []) ?_
  · rintro i j p ⟨h1, h2, h3⟩ hf
    exact ⟨h1, h3.trans hpart, hf.scan.trans h2.length_le, hf.cpos.trans h2.length_le, hf.bodyLen,
      hf.headers⟩
  · intro i hi
    obtain ⟨h1, -, h3⟩ := calls_mem hi
    exact ⟨h1, h3.trans hpart, Nat.zero_le _, Nat.zero_le _, rfl, fun _ => hlimit⟩

/-- **Parsing does not depend on how bytes arrive.** Let the stream `S` come in pieces, with the
end of the stream seen at the last call or not at all. If the header section of `S` ends within
the first `2 ^ 20` bytes, or `S` is no longer than that, the first result other than `NeedMore`
of the calls on the growing buffer, with the fields, the error and the body at that point, is
that of a single call on `S`. -/
theorem feed_cuts (head eof : Bool) (pieces : List Bytes) (last S : Bytes)
    (hS : S = pieces.flatten ++ last)
    (hlimit : S.length ≤ 2 ^ 20 ∨ ∃ h ≤ 2 ^ 20, HeaderEnds S (.reset head) h) :
    feed.feedAll isMore view (calls [] pieces) (S, eof) (.reset head) =
      view (S, eof) (feed.run (S, eof) (.reset head)) :=
  feedAll_calls (hS ▸ List.prefix_append _ _) hlimit

/-- A chunked response that arrives in three pieces. -/
theorem feed_cuts_chunked :
    feed.feedAll isMore view
      (calls [] [lit "HTTP/1.1 200 OK\r\nTransfer-Encoding: chunked\r\n\r", lit "\n5;e\r\nhel"])
      (lit "HTTP/1.1 200 OK\r\nTransfer-Encoding: chunked\r\n\r\n5;e\r\nhello\r\n0\r\n\r\n", false)
      (.reset false) =
    view (lit "HTTP/1.1 200 OK\r\nTransfer-Encoding: chunked\r\n\r\n5;e\r\nhello\r\n0\r\n\r\n", false)
      (feed.run (lit "HTTP/1.1 200 OK\r\nTransfer-Encoding: chunked\r\n\r\n5;e\r\nhello\r\n0\r\n\r\n", false)
        (.reset false)) :=
  feed_cuts false false _ (lit "lo\r\n0\r\n\r\n") _ (by decide) (.inl (by decide))

end Stok.Net
