import Mathlib
import Stok.Net.Http

/-!
# Interim responses and the response after them

`feed` skips header blocks with an interim status. Each block starts with a new status line, so the
status, `keep_alive` and the `chunked` flag are its own; the other members are set by the header
lines that name them and cleared by `reset` alone. A header line is read into a `Setting`, and a
`Key` is a member that outlives its block.

What an interim block leaves in such a member is still there after the final response, unless a line
of that response sets it again: `interim_kept_iff` says exactly when the reports agree.
-/

namespace Stok.Net

open Stok.Lib Stok.Lib.Loop

/-! ## Header lines -/

/-- What a header line says. -/
inductive Setting where
  | contentLength (n : Nat)
  | gzip
  | deflate
  | keepAlive (b : Bool)
  | contentType (value : Bytes)
  | chunked
  | etag (value : Bytes)
  | lastModified (value : Bytes)
  | location (value : Bytes)
  | keepAliveTimeoutS (n : Int)
  deriving DecidableEq, Repr

def Setting.apply : Setting → Fields × Bool → Fields × Bool
  | .contentLength n, x => ({ x.1 with contentLength := n }, x.2)
  | .gzip, x => ({ x.1 with gzip := true }, x.2)
  | .deflate, x => ({ x.1 with deflate := true }, x.2)
  | .keepAlive b, x => ({ x.1 with keepAlive := b }, x.2)
  | .contentType v, x => ({ x.1 with contentType := v }, x.2)
  | .chunked, x => (x.1, true)
  | .etag v, x => ({ x.1 with etag := v }, x.2)
  | .lastModified v, x => ({ x.1 with lastModified := v }, x.2)
  | .location v, x => ({ x.1 with location := v }, x.2)
  | .keepAliveTimeoutS n, x => ({ x.1 with keepAliveTimeoutS := n }, x.2)

/-- A header line by its name and value. -/
def setting (h : Bytes) : Except String (Option Setting) :=
  match h.idxOf? (ch ':') with
  | none => .ok none
  | some colon =>
    let name := trim (h.take colon)
    let value := trim (h.drop (colon + 1))
    let c := toLower (name.headD (ch ' '))
    if c = ch 'c' then
      if iequals name (lit "content-length") then
        match parseI64 value with
        | some n => if n < 0 then .error "bad content-length" else .ok (some (.contentLength n.toNat))
        | none => .error "bad content-length"
      else if iequals name (lit "content-encoding") then
        if (ifind value (lit "gzip")).isSome then .ok (some .gzip)
        else if (ifind value (lit "deflate")).isSome then .ok (some .deflate)
        else .ok none
      else if iequals name (lit "connection") then
        if (ifind value (lit "close")).isSome then .ok (some (.keepAlive false))
        else if (ifind value (lit "keep-alive")).isSome then .ok (some (.keepAlive true))
        else .ok none
      else if iequals name (lit "content-type") then .ok (some (.contentType value))
      else .ok none
    else if c = ch 't' then
      if iequals name (lit "transfer-encoding") && (ifind value (lit "chunked")).isSome then
        .ok (some .chunked)
      else .ok none
    else if c = ch 'e' then
      if iequals name (lit "etag") then .ok (some (.etag value)) else .ok none
    else if c = ch 'l' then
      if iequals name (lit "last-modified") then .ok (some (.lastModified value))
      else if iequals name (lit "location") then .ok (some (.location value))
      else .ok none
    else if c = ch 'k' then
      if iequals name (lit "keep-alive") then
        .ok ((keepAliveTimeout value).map .keepAliveTimeoutS)
      else .ok none
    else .ok none

theorem headerLine_eq (h : Bytes) (f : Fields) (c : Bool) :
    headerLine h f c = (setting h).map fun s => s.elim (f, c) fun s => s.apply (f, c) := by
  unfold headerLine setting
  rcases h.idxOf? (ch ':') with _ | colon
  · rfl
  · dsimp only
    generalize trim (h.take colon) = name
    generalize trim (h.drop (colon + 1)) = value
    simp only [apply_ite (Except.map _)]
    refine ite_congr rfl (fun _ => ite_congr rfl (fun _ => ?_) fun _ => rfl) fun _ =>
      ite_congr rfl (fun _ => rfl) fun _ => ite_congr rfl (fun _ => rfl) fun _ =>
      ite_congr rfl (fun _ => rfl) fun _ => ite_congr rfl (fun _ => ite_congr rfl (fun _ => ?_)
        fun _ => rfl) fun _ => rfl
    · rcases parseI64 value with _ | n
      · rfl
      · dsimp only
        split
        · rfl
        · rename_i hn
          show _ = Except.ok ({ f with contentLength := (n.toNat : Int) }, c)
          rw [Int.toNat_of_nonneg (Int.not_lt.mp hn)]
    · rcases keepAliveTimeout value with _ | v
      · rfl
      · rfl

/-- The settings of the lines up to the first bad one, and what is wrong with that. -/
def said : List Bytes → List Setting × Option String
  | [] => ([], none)
  | h :: rest =>
    match setting h with
    | .error msg => ([], some msg)
    | .ok none => said rest
    | .ok (some s) => (s :: (said rest).1, (said rest).2)

def applyAll (ss : List Setting) (x : Fields × Bool) : Fields × Bool :=
  ss.foldl (fun x s => s.apply x) x

theorem headerLines_eq (ls : List Bytes) (f : Fields) (c : Bool) :
    headerLines ls f c = ((applyAll (said ls).1 (f, c)).1,
      match (said ls).2 with
      | some msg => .error msg
      | none => .ok (applyAll (said ls).1 (f, c)).2) := by
  induction ls generalizing f c with
  | nil => rfl
  | cons h rest ih =>
    rw [headerLines, headerLine_eq, said]
    rcases setting h with msg | _ | s
    · rfl
    · exact ih f c
    · exact ih _ _

/-! ## Members that outlive a block -/

inductive Key where
  | keepAliveTimeoutS | gzip | deflate | etag | lastModified | location | contentType | contentLength
  deriving DecidableEq, Repr

def Setting.key : Setting → Option Key
  | .contentLength _ => some .contentLength
  | .gzip => some .gzip
  | .deflate => some .deflate
  | .keepAlive _ => none
  | .contentType _ => some .contentType
  | .chunked => none
  | .etag _ => some .etag
  | .lastModified _ => some .lastModified
  | .location _ => some .location
  | .keepAliveTimeoutS _ => some .keepAliveTimeoutS

/-- Two parsers hold the same in the member. -/
def Key.Same (f g : Fields) : Key → Prop
  | .keepAliveTimeoutS => f.keepAliveTimeoutS = g.keepAliveTimeoutS
  | .gzip => f.gzip = g.gzip
  | .deflate => f.deflate = g.deflate
  | .etag => f.etag = g.etag
  | .lastModified => f.lastModified = g.lastModified
  | .location => f.location = g.location
  | .contentType => f.contentType = g.contentType
  | .contentLength => f.contentLength = g.contentLength

theorem Key.Same.trans {f g h : Fields} {k : Key} (h₁ : k.Same f g) (h₂ : k.Same g h) : k.Same f h := by
  cases k <;> exact Eq.trans h₁ h₂

theorem Key.Same.symm {f g : Fields} {k : Key} (h : k.Same f g) : k.Same g f := by
  cases k <;> exact Eq.symm h

instance (f g : Fields) (k : Key) : Decidable (k.Same f g) := by
  cases k <;> exact inferInstanceAs (Decidable (_ = _))

theorem same_apply (s : Setting) (x y : Fields × Bool) (k : Key) :
    k.Same (s.apply x).1 (s.apply y).1 ↔ s.key = some k ∨ k.Same x.1 y.1 := by
  cases s <;> cases k <;> simp [Setting.apply, Setting.key, Key.Same]

/-- A member is the same after the same settings if one of them sets it, or it was before. -/
theorem same_applyAll (ss : List Setting) (x y : Fields × Bool) (k : Key) :
    k.Same (applyAll ss x).1 (applyAll ss y).1 ↔ (∃ s ∈ ss, s.key = some k) ∨ k.Same x.1 y.1 := by
  induction ss generalizing x y with
  | nil => simp [applyAll]
  | cons s ss ih =>
    show k.Same (applyAll ss (s.apply x)).1 (applyAll ss (s.apply y)).1 ↔ _
    rw [ih, same_apply, List.exists_mem_cons_iff, or_assoc, or_left_comm]

/-- A member that no setting sets stays. -/
theorem same_applyAll_self {ss : List Setting} {k : Key} (h : ∀ s ∈ ss, s.key ≠ some k)
    (x : Fields × Bool) : k.Same (applyAll ss x).1 x.1 := by
  induction ss generalizing x with
  | nil => cases k <;> rfl
  | cons s ss ih =>
    obtain ⟨hs, hss⟩ := List.forall_mem_cons.mp h
    refine (ih hss (s.apply x)).trans ?_
    cases s <;> cases k <;> first | rfl | exact absurd rfl hs

/-- The rest of what the header lines of a block decide. -/
def Level (x y : Fields × Bool) : Prop :=
  x.1.status = y.1.status ∧ x.1.keepAlive = y.1.keepAlive ∧ x.2 = y.2

theorem Level.applyAll {x y : Fields × Bool} (h : Level x y) (ss : List Setting) :
    Level (applyAll ss x) (applyAll ss y) := by
  induction ss generalizing x y with
  | nil => exact h
  | cons s ss ih =>
    refine ih (x := s.apply x) (y := s.apply y) ?_
    obtain ⟨h1, h2, h3⟩ := h
    cases s <;> first | exact ⟨h1, h2, h3⟩ | exact ⟨h1, rfl, h3⟩ | exact ⟨h1, h2, rfl⟩

theorem applyAll_status (ss : List Setting) (x : Fields × Bool) :
    (applyAll ss x).1.status = x.1.status := by
  induction ss generalizing x with
  | nil => rfl
  | cons s ss ih =>
    refine (ih (s.apply x)).trans ?_
    cases s <;> rfl

/-! ## A header block -/

/-- A status line is good or bad whatever the members were; a good one sets two of them. -/
theorem statusLine_cases (line : Bytes) :
    (∃ code b, ∀ f, statusLine line f = ({ f with keepAlive := b, status := code }, .ok ())) ∨
      ∃ msg, ∀ f, ∃ b, statusLine line f = ({ f with keepAlive := b }, .error msg) := by
  unfold statusLine
  rcases !istartsWith line (lit "http/1.") with _ | _
  · rcases line.idxOf? (ch ' ') with _ | sp
    · exact .inr ⟨_, fun f => ⟨_, rfl⟩⟩
    · by_cases hsp : sp + 4 > line.length
      · exact .inr ⟨_, fun f => ⟨_, if_pos hsp⟩⟩
      · simp only [hsp, if_false, Bool.false_eq_true]
        rcases parseI32 ((line.drop (sp + 1)).take 3) with _ | code
        · exact .inr ⟨_, fun f => ⟨_, rfl⟩⟩
        · exact .inl ⟨code, _, fun f => rfl⟩
  · exact .inr ⟨_, fun f => ⟨f.keepAlive, rfl⟩⟩

/-- The code of a status line, if it can be read. -/
def statusCode (line : Bytes) : Option Int :=
  match statusLine line {} with
  | (f, .ok ()) => some f.status
  | (_, .error _) => none

theorem statusLine_some {line : Bytes} {code : Int} (h : statusCode line = some code) :
    ∃ b, ∀ f, statusLine line f = ({ f with keepAlive := b, status := code }, .ok ()) := by
  rcases statusLine_cases line with ⟨code', b, hb⟩ | ⟨msg, hmsg⟩
  · rw [statusCode, hb] at h
    cases h
    exact ⟨b, hb⟩
  · obtain ⟨b, hb⟩ := hmsg {}
    rw [statusCode, hb] at h
    cases h

theorem statusLine_none {line : Bytes} (h : statusCode line = none) :
    ∃ msg, ∀ f, ∃ b, statusLine line f = ({ f with keepAlive := b }, .error msg) := by
  rcases statusLine_cases line with ⟨code, b, hb⟩ | hmsg
  · rw [statusCode, hb] at h
    cases h
  · exact hmsg

/-- Where the body ends, from what the header lines say. -/
def framing (isHead : Bool) (x : Fields × Bool) : Fields × Except String Phase :=
  if isHead || x.1.status = 204 || x.1.status = 304 || (x.1.status ≥ 100 && x.1.status < 200) then
    (x.1, .ok .done)
  else if x.2 then (x.1, .ok .chunked)
  else if x.1.contentLength ≥ 0 then (x.1, .ok .length)
  else ({ x.1 with keepAlive := false }, .ok .untilClose)

def blockStatus (block : Bytes) : Option Int := statusCode ((crlfLines block).headD [])

def blockSaid (block : Bytes) : List Setting × Option String := said (crlfLines block).tail

theorem parseHeaders_none {block : Bytes} (h : blockStatus block = none) (isHead : Bool) (f : Fields) :
    ∃ msg b, parseHeaders isHead f block = ({ f with keepAlive := b }, .error msg) := by
  obtain ⟨msg, hmsg⟩ := statusLine_none h
  obtain ⟨b, hb⟩ := hmsg f
  refine ⟨msg, b, ?_⟩
  unfold parseHeaders
  dsimp only
  rw [hb]

theorem parseHeaders_some {block : Bytes} {code : Int} (h : blockStatus block = some code) :
    ∃ b, ∀ isHead f, parseHeaders isHead f block =
      let x := applyAll (blockSaid block).1 ({ f with keepAlive := b, status := code }, false)
      match (blockSaid block).2 with
      | some msg => (x.1, .error msg)
      | none => framing isHead x := by
  obtain ⟨b, hb⟩ := statusLine_some h
  refine ⟨b, fun isHead f => ?_⟩
  unfold parseHeaders
  dsimp only
  rw [hb]
  dsimp only
  rw [headerLines_eq]
  show _ = match (said (crlfLines block).tail).2 with
    | some msg => _
    | none => _
  rcases (said (crlfLines block).tail).2 with _ | msg
  · rfl
  · rfl

/-! ## Where a block starts -/

/-- The blank line that ends a header block. -/
def blank : Bytes := crlf ++ crlf

theorem drop_add_append (X Y : Bytes) (i : Nat) : (X ++ Y).drop (X.length + i) = Y.drop i := by
  rw [List.drop_append, List.drop_eq_nil_of_le (Nat.le_add_right _ _), List.nil_append,
    Nat.add_sub_cancel_left]

theorem find_shift (pat X Y : Bytes) (a : Nat) :
    find pat (X ++ Y) (X.length + a) = (find pat Y a).map (X.length + ·) := by
  unfold find
  have hlen : (X ++ Y).length + 1 - (X.length + a) = Y.length + 1 - a := by
    rw [List.length_append]
    omega
  rw [hlen, ← List.map_add_range', List.find?_map]
  congr 2
  funext i
  exact congrArg (List.isPrefixOf pat) (drop_add_append X Y i)

theorem find_skip {pat s : Bytes} {a b : Nat} (hab : a ≤ b)
    (h : ∀ i, a ≤ i → i < b → ¬ pat <+: s.drop i) : find pat s a = find pat s b := by
  cases hb : find pat s b with
  | none =>
    refine find_eq_none.mpr fun i hi hle => ?_
    rcases Nat.lt_or_ge i b with hlt | hge
    · exact h i hi hlt
    · exact find_eq_none.mp hb i hge hle
  | some e =>
    obtain ⟨h1, h2, h3, h4⟩ := find_eq_some.mp hb
    refine find_eq_some.mpr ⟨hab.trans h1, h2, h3, fun i hi hlt => ?_⟩
    rcases Nat.lt_or_ge i b with hib | hge
    · exact h i hi hib
    · exact h4 i hge hlt

/-- The bytes before a header block: none, or a block with its blank line. -/
def Ended (X : Bytes) : Prop := X = [] ∨ blank <:+ X

/-- The search for the end of a block starts three bytes before it, and can find the end of the block
before it again. -/
theorem find_block {X : Bytes} (hX : Ended X) (Y : Bytes) :
    find blank (X ++ Y) (X.length - 3) = (find blank Y 0).map (X.length + ·) ∨
      crlf <+: Y ∧ 2 ≤ X.length ∧ find blank (X ++ Y) (X.length - 3) = some (X.length - 2) := by
  rcases hX with rfl | ⟨W, rfl⟩
  · refine .inl ?_
    exact find_shift blank [] Y 0
  · have hlen : (W ++ blank).length = W.length + 4 := by rw [List.length_append]; rfl
    have hdrop : ∀ i, ((W ++ blank) ++ Y).drop (W.length + i) = (blank ++ Y).drop i := by
      intro i
      rw [List.append_assoc, drop_add_append]
    by_cases hY : crlf <+: Y
    · refine .inr ⟨hY, by omega, find_eq_some.mpr ⟨by omega, ?_, ?_, ?_⟩⟩
      · rw [show ((W ++ blank) ++ Y).length = (W ++ blank).length + Y.length from List.length_append]
        omega
      · rw [hlen, Nat.add_sub_assoc (by decide), hdrop]
        exact (List.prefix_append_right_inj crlf).mpr hY
      · intro i hi hlt
        obtain rfl : i = W.length + 1 := by omega
        rw [hdrop]
        simp [blank, crlf]
    · refine .inl ?_
      rw [find_skip (b := (W ++ blank).length + 0) (by omega), find_shift]
      intro i hi hlt hp
      obtain ⟨k, rfl⟩ : ∃ k, i = W.length + k := ⟨i - W.length, by omega⟩
      rw [hdrop] at hp
      have hk : k = 1 ∨ k = 2 ∨ k = 3 := by omega
      rcases hk with rfl | rfl | rfl
      · simp [blank, crlf] at hp
      · exact hY ((List.prefix_append_right_inj crlf).mp hp)
      · simp [blank, crlf] at hp

/-- An empty line is no status line. -/
theorem blockStatus_crlf {Y : Bytes} (hY : crlf <+: Y) : blockStatus Y = none := by
  obtain ⟨t, rfl⟩ := hY
  rfl

/-! ## Running over interim blocks -/

theorem feed_inl {i : Bytes × Bool} {p q : ResponseParser} (h : feedStep i p = .inl q) :
    feed.run i p = feed.run i q :=
  run_inl h

theorem feed_inr {i : Bytes × Bool} {p : ResponseParser} {a : ResponseParser × Result}
    (h : feedStep i p = .inr a) : feed.run i p = a :=
  run_inr h

/-- The parser at the start of the header block after `X`. -/
def atBlock (isHead : Bool) (X : Bytes) (f : Fields) : ResponseParser :=
  { fields := f, head := isHead, scan := X.length, bodyStart := X.length }

section Blocks

variable {X Y : Bytes} {isHead eof : Bool} {f : Fields} {e : Nat}

theorem feedStep_some (h : find blank (X ++ Y) (X.length - 3) = some e) :
    feedStep (X ++ Y, eof) (atBlock isHead X f) = (atBlock isHead X f).afterHeaders e
      (parseHeaders isHead f (Y.take (e + 2 - X.length))) := by
  have hfind : find (crlf ++ crlf) (X ++ Y)
      ({ fields := f, head := isHead, scan := X.length, bodyStart := X.length } :
        ResponseParser).from = some e := by
    rw [from_eq]
    exact h
  unfold feedStep
  dsimp only [atBlock]
  rw [hfind]
  show (atBlock isHead X f).afterHeaders e (parseHeaders isHead f
    (((X ++ Y).drop X.length).take (e + 2 - X.length))) = _
  rw [List.drop_left]
  rfl

theorem feedStep_none (eof isHead : Bool) (f : Fields) (h : find blank (X ++ Y) (X.length - 3) = none) :
    ∃ q r, feedStep (X ++ Y, eof) (atBlock isHead X f) = .inr (q, r) ∧ q.fields = f := by
  have hfind : find (crlf ++ crlf) (X ++ Y)
      ({ fields := f, head := isHead, scan := X.length, bodyStart := X.length } :
        ResponseParser).from = none := by
    rw [from_eq]
    exact h
  unfold feedStep
  dsimp only [atBlock]
  rw [hfind]
  dsimp only
  split_ifs
  · exact ⟨_, _, rfl, rfl⟩
  · exact ⟨_, _, rfl, rfl⟩
  · exact ⟨_, _, rfl, rfl⟩

/-- The first header block of a stream, without its blank line. -/
def headBlock (s : Bytes) : Option Bytes := (find blank s 0).map fun e => s.take (e + 2)

def statusOf (s : Bytes) : Option Int := (headBlock s).bind blockStatus

def saidBy (s : Bytes) : List Setting × Option String := ((headBlock s).map blockSaid).getD ([], none)

theorem crlf_prefix_take (hY : crlf <+: Y) (n : Nat) : crlf <+: Y.take (n + 2) := by
  obtain ⟨t, rfl⟩ := hY
  exact ⟨t.take n, rfl⟩

/-- Without a status line that can be read the parser stops and keeps its status. -/
theorem feedStep_stuck (eof isHead : Bool) (f : Fields) (hX : Ended X) (h : statusOf Y = none) :
    ∃ q r, feedStep (X ++ Y, eof) (atBlock isHead X f) = .inr (q, r) ∧
      q.fields.status = f.status := by
  have hbad : ∀ e, find blank (X ++ Y) (X.length - 3) = some e →
      blockStatus (Y.take (e + 2 - X.length)) = none →
      ∃ q r, feedStep (X ++ Y, eof) (atBlock isHead X f) = .inr (q, r) ∧
        q.fields.status = f.status := by
    intro e he hb
    obtain ⟨msg, b, hp⟩ := parseHeaders_none hb isHead f
    rw [feedStep_some he, hp]
    exact ⟨_, _, rfl, rfl⟩
  rcases find_block hX Y with hfind | ⟨hY, hlen, hfind⟩
  · cases he : find blank Y 0 with
    | none =>
      rw [he] at hfind
      obtain ⟨q, r, hstep, hq⟩ := feedStep_none eof isHead f hfind
      exact ⟨q, r, hstep, by rw [hq]⟩
    | some e =>
      rw [he] at hfind
      refine hbad _ hfind ?_
      rw [statusOf, headBlock, he] at h
      rw [Nat.add_assoc, Nat.add_sub_cancel_left]
      exact h
  · refine hbad _ hfind ?_
    rw [show X.length - 2 + 2 - X.length = 0 by omega]
    rfl

theorem not_crlf_of_statusOf (h : statusOf Y ≠ none) : ¬ crlf <+: Y := by
  intro hY
  refine h ?_
  unfold statusOf headBlock
  cases find blank Y 0 with
  | none => rfl
  | some e => exact blockStatus_crlf (crlf_prefix_take hY e)

theorem feedStep_found (hX : Ended X) (h : statusOf Y ≠ none) (he : find blank Y 0 = some e) :
    feedStep (X ++ Y, eof) (atBlock isHead X f) = (atBlock isHead X f).afterHeaders (X.length + e)
      (parseHeaders isHead f (Y.take (e + 2))) := by
  rcases find_block hX Y with hfind | ⟨hY, -⟩
  · rw [he] at hfind
    rw [feedStep_some hfind, Nat.add_assoc, Nat.add_sub_cancel_left]
  · exact absurd hY (not_crlf_of_statusOf h)

end Blocks

/-- Whether a code announces another header block. -/
def interimStatus (code : Int) : Bool := code ≥ 100 && code < 200 && code ≠ 101

theorem framing_interim {x : Fields × Bool} (h : interimStatus x.1.status = true) (isHead : Bool) :
    framing isHead x = (x.1, .ok .done) := by
  refine if_pos ?_
  simp only [interimStatus, Bool.and_eq_true] at h
  simp only [Bool.or_eq_true, Bool.and_eq_true]
  exact .inr h.1

/-- A header block with its blank line and an interim status, with any lines. -/
def Interim (b : Bytes) : Prop :=
  find blank b 0 = some (b.length - 4) ∧ ∃ code, statusOf b = some code ∧ interimStatus code = true

/-- What header blocks leave in the members that outlive them. -/
def leftBy (blocks : List Bytes) : Fields :=
  (applyAll (blocks.flatMap fun b => (saidBy b).1) ({}, false)).1

section Interim

variable {X b : Bytes} {blocks : List Bytes} {isHead eof : Bool} {f : Fields}

theorem Interim.ended (hb : Interim b) : Ended (X ++ b) := by
  obtain ⟨-, h2, h3, -⟩ := find_eq_some.mp hb.1
  have hlen := (find_bounds hb.1).2
  have hbl : blank.length = 4 := rfl
  have hdrop : b.drop (b.length - 4) = blank := by
    refine (List.IsPrefix.eq_of_length h3 ?_).symm
    rw [List.length_drop]
    omega
  exact .inr ⟨X ++ b.take (b.length - 4), by rw [List.append_assoc, ← hdrop, List.take_append_drop]⟩

/-- One interim block: the parser is before the next one if its lines are good, and stops if not. -/
theorem feedStep_interim (eof isHead : Bool) (f : Fields) (hX : Ended X) (hb : Interim b) (rest : Bytes) :
    ((saidBy b).2 = none → ∃ f', interimStatus f'.status = true ∧
      (∀ k : Key, k.Same f' (applyAll (saidBy b).1 (f, false)).1) ∧
      ∀ eof, feedStep (X ++ (b ++ rest), eof) (atBlock isHead X f) =
        .inl (atBlock isHead (X ++ b) f')) ∧
    ((saidBy b).2 ≠ none → ∃ q r, interimStatus q.fields.status = true ∧
      feedStep (X ++ (b ++ rest), eof) (atBlock isHead X f) = .inr (q, r)) := by
  obtain ⟨hfind, code, hcode, hint⟩ := hb
  have hlen := (find_bounds hfind).2
  have hbl : blank.length = 4 := rfl
  have hhead : headBlock b = some (b.take (b.length - 4 + 2)) := by rw [headBlock, hfind]; rfl
  have htake : (b ++ rest).take (b.length - 4 + 2) = b.take (b.length - 4 + 2) :=
    List.take_append_of_le_length (by omega)
  have hstatus : blockStatus (b.take (b.length - 4 + 2)) = some code := by
    rw [statusOf, hhead] at hcode
    exact hcode
  have hrest : statusOf (b ++ rest) ≠ none := by
    rw [statusOf, headBlock, find_append rest hfind, Option.map_some, htake, Option.bind_some, hstatus]
    exact Option.some_ne_none code
  have hsaid : saidBy b = blockSaid (b.take (b.length - 4 + 2)) := by rw [saidBy, hhead]; rfl
  obtain ⟨ka, hparse⟩ := parseHeaders_some hstatus
  have hstep : ∀ eof, feedStep (X ++ (b ++ rest), eof) (atBlock isHead X f) =
      (atBlock isHead X f).afterHeaders (X.length + (b.length - 4)) (match (saidBy b).2 with
        | some msg => ((applyAll (saidBy b).1 ({ f with keepAlive := ka, status := code }, false)).1,
            .error msg)
        | none => framing isHead
            (applyAll (saidBy b).1 ({ f with keepAlive := ka, status := code }, false))) := by
    intro eof
    rw [feedStep_found hX hrest (find_append rest hfind), htake, hparse isHead f, ← hsaid]
  have hend : (X ++ b).length = X.length + (b.length - 4) + 4 := by
    rw [List.length_append]
    omega
  have hcodeOut := applyAll_status (saidBy b).1 ({ f with keepAlive := ka, status := code }, false)
  constructor
  · intro hgood
    refine ⟨_, (congrArg interimStatus hcodeOut).trans hint, fun k => ?_, fun eof => ?_⟩
    · refine (same_applyAll _ _ _ k).mpr (.inr ?_)
      cases k <;> rfl
    · have hx := (congrArg interimStatus hcodeOut).trans hint
      rw [hgood, framing_interim hx] at hstep
      refine (hstep eof).trans ((if_pos hx).trans ?_)
      refine congrArg Sum.inl ?_
      unfold atBlock
      rw [hend]
      rfl
  · intro hbad
    obtain ⟨msg, hmsg⟩ := Option.ne_none_iff_exists'.mp hbad
    rw [hmsg] at hstep
    exact ⟨_, _, (congrArg interimStatus hcodeOut).trans hint, hstep eof⟩

/-- Interim blocks with good lines bring the parser to the block after them. -/
theorem feed_blocks (isHead : Bool) (hX : Ended X) (hb : ∀ b ∈ blocks, Interim b)
    (hgood : ∀ b ∈ blocks, (saidBy b).2 = none) (R : Bytes) {y : Fields × Bool}
    (hy : ∀ k : Key, k.Same f y.1) :
    ∃ f', (interimStatus f'.status = true ∨ blocks = [] ∧ f' = f) ∧ Ended (X ++ blocks.flatten) ∧
      (∀ k : Key, k.Same f' (applyAll (blocks.flatMap fun b => (saidBy b).1) y).1) ∧
      ∀ eof, feed.run (X ++ (blocks.flatten ++ R), eof) (atBlock isHead X f) =
        feed.run ((X ++ blocks.flatten) ++ R, eof) (atBlock isHead (X ++ blocks.flatten) f') := by
  induction blocks generalizing X f y with
  | nil => exact ⟨f, .inr ⟨rfl, rfl⟩, by simpa using hX, hy, fun eof => by simp⟩
  | cons b blocks ih =>
    obtain ⟨hb, hblocks⟩ := List.forall_mem_cons.mp hb
    obtain ⟨hgood, hgoods⟩ := List.forall_mem_cons.mp hgood
    obtain ⟨f₁, hint, hsame, hstep⟩ :=
      (feedStep_interim false isHead f hX hb (blocks.flatten ++ R)).1 hgood
    have hy₁ : ∀ k : Key, k.Same f₁ (applyAll (saidBy b).1 y).1 := fun k =>
      (hsame k).trans ((same_applyAll _ _ _ k).mpr (.inr (hy k)))
    obtain ⟨f', hstatus, hend, hkeys, hrun⟩ := ih (hb.ended (X := X)) hblocks hgoods hy₁
    rw [List.append_assoc] at hend
    refine ⟨f', ?_, hend, ?_, fun eof => ?_⟩
    · rcases hstatus with hstatus | ⟨-, rfl⟩
      · exact .inl hstatus
      · exact .inl hint
    · rw [List.flatMap_cons, applyAll, List.foldl_append]
      exact hkeys
    · rw [List.flatten_cons, List.append_assoc b, feed_inl (hstep eof), ← List.append_assoc,
        ← List.append_assoc X, ← hrun, List.append_assoc X]

/-- Among interim blocks one with a bad line stops the parser. -/
theorem feed_bad_block (hX : Ended X) (hb : ∀ b ∈ blocks, Interim b)
    (hbad : ∃ b ∈ blocks, (saidBy b).2 ≠ none) (R : Bytes) :
    interimStatus (feed.run (X ++ (blocks.flatten ++ R), eof) (atBlock isHead X f)).1.fields.status =
      true := by
  induction blocks generalizing X f with
  | nil => exact absurd hbad (by simp)
  | cons b blocks ih =>
    obtain ⟨hb, hblocks⟩ := List.forall_mem_cons.mp hb
    have hstep := feedStep_interim eof isHead f hX hb (blocks.flatten ++ R)
    rw [List.flatten_cons, List.append_assoc b]
    by_cases hgood : (saidBy b).2 = none
    · obtain ⟨f₁, -, -, hstep⟩ := hstep.1 hgood
      rw [feed_inl (hstep eof), ← List.append_assoc]
      refine ih hb.ended hblocks ?_
      rcases (List.exists_mem_cons_iff _ _ _).mp hbad with h | h
      · exact absurd hgood h
      · exact h
    · obtain ⟨q, r, hint, hstep⟩ := hstep.2 hgood
      rw [feed_inr hstep]
      exact hint

end Interim

/-! ## The final response -/

/-- The parser `q` further on in a buffer, behind `X`, with other fields. -/
def behind (X : Bytes) (g : Fields) (q : ResponseParser) : ResponseParser :=
  { q with fields := g, scan := X.length, bodyStart := X.length + q.bodyStart,
           cpos := X.length + q.cpos }

section Final

variable {X R : Bytes} {g : Fields} {q : ResponseParser} {eof isHead : Bool}

theorem body_behind : (behind X g q).body (X ++ R) = q.body R := by
  show (if q.useDechunked = true then q.dechunked
    else ((X ++ R).drop (X.length + q.bodyStart)).take q.bodyLen) = _
  rw [drop_add_append]
  rfl

theorem takeData_behind : (behind X g q).takeData (X ++ R) = behind X g (q.takeData R) := by
  have hlen : (X ++ R).length - (X.length + q.cpos) = R.length - q.cpos := by
    rw [List.length_append]
    omega
  show ResponseParser.takeData (X ++ R) _ = _
  unfold ResponseParser.takeData behind
  dsimp only
  rw [hlen, drop_add_append, Nat.add_assoc]

/-- `parse_chunked` works the same wherever the response starts. -/
theorem chunkStep_behind : chunkStep (X ++ R) (behind X g q) =
    (chunkStep R q).map (behind X g) (Prod.map (behind X g) id) := by
  have hcs : (behind X g q).cs = q.cs := rfl
  have hpos : (behind X g q).cpos = X.length + q.cpos := rfl
  unfold chunkStep
  rw [hcs, hpos, takeData_behind, find_shift]
  have hline : ∀ e, ((X ++ R).drop (X.length + q.cpos)).take (X.length + e - (X.length + q.cpos)) =
      (R.drop q.cpos).take (e - q.cpos) := by
    intro e
    rw [drop_add_append, Nat.add_sub_add_left]
  have hlen : (X ++ R).length - (X.length + q.cpos) = R.length - q.cpos := by
    rw [List.length_append]
    omega
  have hbyte : ∀ i, byteAt (X ++ R) (X.length + i) = byteAt R i := by
    intro i
    simp [byteAt, List.getD_eq_getElem?_getD, List.getElem?_append_right]
  cases q.cs with
  | size =>
    dsimp only
    cases find crlf R q.cpos with
    | none => rfl
    | some e =>
      dsimp only [Option.map_some]
      rw [hline]
      rcases chunkSize ((R.drop q.cpos).take (e - q.cpos)) with msg | size
      · rfl
      · dsimp only
        split
        · rfl
        · rfl
  | data =>
    dsimp only
    show (if (q.takeData R).chunkLeft > 0 then _ else _) = Sum.map _ _ (if _ then _ else _)
    split
    · rfl
    · rfl
  | dataCrlf =>
    dsimp only
    rw [hlen, Nat.add_assoc, hbyte, hbyte]
    split
    · rfl
    · split
      · rfl
      · rfl
  | trailer =>
    dsimp only
    cases find crlf R q.cpos with
    | none => rfl
    | some e =>
      dsimp only [Option.map_some]
      simp only [Nat.add_left_cancel_iff]
      split
      · rfl
      · rfl

theorem parseChunked_behind : parseChunked.run (X ++ R) (behind X g q) =
    Prod.map (behind X g) id (parseChunked.run R q) :=
  run_map (L := parseChunked) (g := behind X g) (fun _ => chunkStep_behind) q

theorem chunkStep_fields (s : Bytes) (q : ResponseParser) :
    (∀ p, chunkStep s q = .inl p → p.fields = q.fields) ∧
      ∀ p r, chunkStep s q = .inr (p, r) → p.fields = q.fields := by
  constructor
  · intro p h
    unfold chunkStep at h
    repeat' split at h
    all_goals cases h <;> rfl
  · intro p r h
    unfold chunkStep at h
    repeat' split at h
    all_goals cases h <;> rfl

theorem parseChunked_fields (s : Bytes) (q : ResponseParser) :
    (parseChunked.run s q).1.fields = q.fields := by
  refine run_induct parseChunked s (P := fun q => (parseChunked.run s q).1.fields = q.fields) ?_ ?_ q
  · intro q p h ih
    rw [run_inl h, ih]
    exact (chunkStep_fields s q).1 p h
  · rintro q ⟨p, r⟩ h
    rw [run_inr h]
    exact (chunkStep_fields s q).2 p r h

/-- What `feed` makes of the answer of `parse_chunked`. -/
def chunkedAnswer (eof : Bool) (a : ResponseParser × Result) : ResponseParser ⊕ ResponseParser × Result :=
  if a.2 = .needMore ∧ eof then .inr ({ a.1 with error := some "eof inside chunked body" }, .error)
  else .inr a

theorem feedStep_chunked (hq : q.phase = .chunked) :
    feedStep (R, eof) q = chunkedAnswer eof (parseChunked.run R q) := by
  unfold feedStep
  dsimp only
  rw [hq]
  rfl

/-- Past the headers a call answers at once. -/
theorem feed_body (R : Bytes) (eof : Bool) (hq : q.phase ≠ .headers) :
    ∃ a, feedStep (R, eof) q = .inr a ∧ a.1.fields = q.fields := by
  unfold feedStep
  dsimp only
  cases hp : q.phase with
  | headers => exact absurd hp hq
  | length =>
    dsimp only
    split_ifs
    · exact ⟨_, rfl, rfl⟩
    · exact ⟨_, rfl, rfl⟩
    · exact ⟨_, rfl, rfl⟩
  | chunked =>
    dsimp only
    split_ifs
    · exact ⟨_, rfl, parseChunked_fields R q⟩
    · exact ⟨_, rfl, parseChunked_fields R q⟩
  | untilClose =>
    dsimp only
    split_ifs
    · exact ⟨_, rfl, rfl⟩
    · exact ⟨_, rfl, rfl⟩
  | done => exact ⟨_, rfl, rfl⟩

/-- The body is read the same wherever the response starts, given the same length. -/
theorem feedStep_behind (X R : Bytes) (eof : Bool) (hq : q.phase ≠ .headers)
    (hlen : q.phase = .length → g.contentLength = q.fields.contentLength) :
    feedStep (X ++ R, eof) (behind X g q) =
      (feedStep (R, eof) q).map (behind X g) (Prod.map (behind X g) id) := by
  have hrest : (X ++ R).length - (behind X g q).bodyStart = R.length - q.bodyStart := by
    show (X ++ R).length - (X.length + q.bodyStart) = _
    rw [List.length_append]
    omega
  by_cases hchunked : q.phase = .chunked
  · rw [feedStep_chunked hchunked, feedStep_chunked (q := behind X g q) hchunked, parseChunked_behind]
    unfold chunkedAnswer
    dsimp only [Prod.map, id]
    split_ifs
    · rfl
    · rfl
  obtain ⟨qf, qerror, phase, qhead, qscan, qstart, qcs, qpos, qleft, qde, quse, qlen⟩ := q
  unfold feedStep
  dsimp only at hrest hlen ⊢
  cases phase with
  | headers => exact absurd rfl hq
  | length =>
    show (if (_ : Int) < g.contentLength then _ else Sum.inr (ResponseParser.mk _ _ _ _ _ _ _ _ _ _ _
      g.contentLength.toNat, _)) = _
    rw [hrest, hlen rfl]
    dsimp only
    split_ifs
    · rfl
    · rfl
    · rfl
  | chunked => exact absurd rfl hchunked
  | untilClose =>
    show (if (!eof) = true then _ else _) = _
    rw [hrest]
    dsimp only
    split_ifs
    · rfl
    · rfl
  | done => rfl

/-- What a caller reads of a response: all but the length it was framed by. -/
def report (i : Bytes × Bool) (a : ResponseParser × Result) : Result × Fields × Bytes :=
  (a.2, { a.1.fields with contentLength := -1 }, a.1.body i.1)

theorem report_behind (hq : q.phase ≠ .headers)
    (hlen : q.phase = .length → g.contentLength = q.fields.contentLength) :
    report (X ++ R, eof) (feed.run (X ++ R, eof) (behind X g q)) =
        report (R, eof) (feed.run (R, eof) q) ↔
      { g with contentLength := -1 } = { q.fields with contentLength := -1 } := by
  obtain ⟨a, ha, hf⟩ := feed_body R eof hq
  have hX := feedStep_behind X R eof hq hlen
  rw [ha] at hX
  rw [feed_inr ha, feed_inr hX, report, report, ← hf]
  show (a.2, _, (behind X g a.1).body (X ++ R)) = _ ↔ _
  rw [body_behind]
  constructor
  · intro h
    exact (Prod.mk.inj (Prod.mk.inj h).2).1
  · intro h
    exact congrArg (fun f => (a.2, f, a.1.body R)) h

theorem fields_eq_iff {x y : Fields × Bool} (h : Level x y) :
    { x.1 with contentLength := -1 } = { y.1 with contentLength := -1 } ↔
      ∀ k : Key, k ≠ .contentLength → k.Same x.1 y.1 := by
  obtain ⟨h1, h2, -⟩ := h
  constructor
  · intro heq k hk
    cases k with
    | contentLength => exact absurd rfl hk
    | _ => injection heq
  · intro hk
    have ht : x.1.keepAliveTimeoutS = y.1.keepAliveTimeoutS := hk .keepAliveTimeoutS nofun
    have hg : x.1.gzip = y.1.gzip := hk .gzip nofun
    have hd : x.1.deflate = y.1.deflate := hk .deflate nofun
    have he : x.1.etag = y.1.etag := hk .etag nofun
    have hm : x.1.lastModified = y.1.lastModified := hk .lastModified nofun
    have hl : x.1.location = y.1.location := hk .location nofun
    have hc : x.1.contentType = y.1.contentType := hk .contentType nofun
    dsimp only
    rw [h1, h2, ht, hg, hd, he, hm, hl, hc]

theorem chunked_applyAll (ss : List Setting) (x : Fields × Bool) :
    (applyAll ss x).2 = true ↔ Setting.chunked ∈ ss ∨ x.2 = true := by
  induction ss generalizing x with
  | nil => simp [applyAll]
  | cons s ss ih =>
    refine (ih (s.apply x)).trans ?_
    cases s <;> simp [Setting.apply]

theorem contentLength_applyAll (ss : List Setting) {x : Fields × Bool} (hx : -1 ≤ x.1.contentLength) :
    -1 ≤ (applyAll ss x).1.contentLength := by
  induction ss generalizing x with
  | nil => exact hx
  | cons s ss ih =>
    refine ih (x := s.apply x) ?_
    cases s with
    | contentLength n => exact le_trans (by decide) (Int.natCast_nonneg n)
    | _ => exact hx

/-- A response without a body, whatever its lines say. -/
def bodyless (isHead : Bool) (code : Int) : Bool :=
  isHead || code = 204 || code = 304 || (code ≥ 100 && code < 200)

/-- The `Content-Length` of the response, or its absence, says where the body ends. -/
def LengthFramed (isHead : Bool) (R : Bytes) : Prop :=
  (saidBy R).2 = none ∧ Setting.chunked ∉ (saidBy R).1 ∧
    ∀ code, statusOf R = some code → bodyless isHead code = false

/-- Nothing that a parser with the fields `f` brings to the response `R` shows after it. -/
def Covered (isHead : Bool) (f : Fields) (R : Bytes) : Prop :=
  ∀ k : Key, k.Same f {} ∨ (∃ s ∈ (saidBy R).1, s.key = some k) ∨
    k = .contentLength ∧ ¬ LengthFramed isHead R

theorem covered_of_not {f : Fields} (h : ¬ LengthFramed isHead R) : Covered isHead f R ↔
    ∀ k : Key, k ≠ .contentLength → k.Same f {} ∨ ∃ s ∈ (saidBy R).1, s.key = some k := by
  constructor
  · intro hc k hk
    rcases hc k with hk' | hk' | ⟨hk', -⟩
    · exact .inl hk'
    · exact .inr hk'
    · exact absurd hk' hk
  · intro hc k
    by_cases hk : k = .contentLength
    · exact .inr (.inr ⟨hk, h⟩)
    · exact (hc k hk).imp_right .inl

theorem covered_congr {f f' : Fields} (h : ∀ k : Key, k.Same f f') :
    Covered isHead f R ↔ Covered isHead f' R := by
  refine forall_congr' fun k => or_congr_left ?_
  exact ⟨fun hk => (h k).symm.trans hk, fun hk => (h k).trans hk⟩

theorem covered_of_framed {f : Fields} (h : LengthFramed isHead R) : Covered isHead f R ↔
    ∀ k : Key, k.Same f {} ∨ ∃ s ∈ (saidBy R).1, s.key = some k := by
  refine forall_congr' fun k => or_congr_right ?_
  exact or_iff_left fun hk => hk.2 h

/-- What the first header block of `R` makes of the fields `f`. -/
def finalFields (R : Bytes) (f : Fields) (keepAlive : Bool) (code : Int) : Fields × Bool :=
  applyAll (saidBy R).1 ({ f with keepAlive := keepAlive, status := code }, false)

theorem feedStep_final {code : Int} (hR : statusOf R = some code) :
    ∃ e b, ∀ isHead X f eof, Ended X → feedStep (X ++ R, eof) (atBlock isHead X f) =
      (atBlock isHead X f).afterHeaders (X.length + e) (match (saidBy R).2 with
        | some msg => ((finalFields R f b code).1, .error msg)
        | none => framing isHead (finalFields R f b code)) := by
  have hne : statusOf R ≠ none := by rw [hR]; exact nofun
  unfold statusOf headBlock at hR
  cases he : find blank R 0 with
  | none =>
    rw [he] at hR
    cases hR
  | some e =>
    rw [he] at hR
    obtain ⟨b, hparse⟩ := parseHeaders_some (show blockStatus (R.take (e + 2)) = some _ from hR)
    have hsaid : saidBy R = blockSaid (R.take (e + 2)) := by rw [saidBy, headBlock, he]; rfl
    refine ⟨e, b, fun isHead X f eof hX => ?_⟩
    rw [feedStep_found hX hne he, hparse isHead f, ← hsaid]
    rfl

/-- The parser at the body of a response that starts at the beginning of the buffer. -/
def atBody (isHead : Bool) (g : Fields) (phase : Phase) (n : Nat) : ResponseParser :=
  { fields := g, phase := phase, head := isHead, bodyStart := n, cpos := n,
    useDechunked := phase == .chunked }

theorem afterHeaders_body (g' : Fields) {f : Fields} {phase : Phase} {e : Nat} (hg : interimStatus g.status = false) :
    (atBlock isHead X f).afterHeaders (X.length + e) (g, .ok phase) =
      .inl (behind X g (atBody isHead g' phase (e + 4))) := by
  unfold ResponseParser.afterHeaders
  refine (if_neg (ne_true_of_eq_false hg)).trans ?_
  rfl

theorem behind_nil (phase : Phase) (n : Nat) :
    behind [] g (atBody isHead g phase n) = atBody isHead g phase n := by
  unfold behind atBody
  simp only [List.length_nil, Nat.zero_add]

/-- A parser with the fields `f` that comes to `R` behind `X` reports of it what a fresh one does. -/
def Agrees (isHead : Bool) (X : Bytes) (f : Fields) (R : Bytes) : Prop :=
  ∀ eof, report (X ++ R, eof) (feed.run (X ++ R, eof) (atBlock isHead X f)) =
    report (R, eof) (feed.run (R, eof) (atBlock isHead [] {}))

/-- What `feed` does after the header block at `e` if `parse_headers` returns `r`. -/
def Enters (isHead : Bool) (X : Bytes) (f : Fields) (R : Bytes) (e : Nat)
    (r : Fields × Except String Phase) : Prop :=
  ∀ eof, feedStep (X ++ R, eof) (atBlock isHead X f) =
    (atBlock isHead X f).afterHeaders (X.length + e) r

variable {f g g' : Fields} {e : Nat}

theorem agrees_of_error {msg : String} (h : Enters isHead X f R e (g, .error msg))
    (h' : Enters isHead [] {} R e (g', .error msg)) :
    Agrees isHead X f R ↔ { g with contentLength := -1 } = { g' with contentLength := -1 } := by
  have hrun : ∀ eof, report (X ++ R, eof) (feed.run (X ++ R, eof) (atBlock isHead X f)) =
      report (R, eof) (feed.run (R, eof) (atBlock isHead [] {})) ↔
      { g with contentLength := -1 } = { g' with contentLength := -1 } := by
    intro eof
    rw [feed_inr (h eof), feed_inr (i := (R, eof)) (h' eof)]
    show (Result.error, _, ([] : Bytes)) = (Result.error, _, ([] : Bytes)) ↔ _
    rw [Prod.mk.injEq, Prod.mk.injEq]
    exact (and_iff_right rfl).trans (and_iff_left rfl)
  exact ⟨fun ha => (hrun true).mp (ha true), fun ha eof => (hrun eof).mpr ha⟩

theorem agrees_of_phase (g g' : Fields) (phase : Phase) (hp : phase ≠ .headers) (hg : interimStatus g.status = false)
    (hg' : interimStatus g'.status = false)
    (hlen : phase = .length → g.contentLength = g'.contentLength)
    (h : Enters isHead X f R e (g, .ok phase)) (h' : Enters isHead [] {} R e (g', .ok phase)) :
    Agrees isHead X f R ↔ { g with contentLength := -1 } = { g' with contentLength := -1 } := by
  have hrun : ∀ eof, report (X ++ R, eof) (feed.run (X ++ R, eof) (atBlock isHead X f)) =
      report (R, eof) (feed.run (R, eof) (atBlock isHead [] {})) ↔
      { g with contentLength := -1 } = { g' with contentLength := -1 } := by
    intro eof
    have h0 := (h' eof).trans (afterHeaders_body g' hg')
    rw [behind_nil] at h0
    rw [feed_inl ((h eof).trans (afterHeaders_body g' hg)), feed_inl (i := (R, eof)) h0]
    exact report_behind (q := atBody isHead g' phase (e + 4)) hp hlen
  exact ⟨fun ha => (hrun true).mp (ha true), fun ha eof => (hrun eof).mpr ha⟩

/-- A body that ends at a length and one that ends with the stream. -/
theorem not_agrees_of_length (g' : Fields) (hg : interimStatus g.status = false) (hg' : interimStatus g'.status = false)
    (h : Enters isHead X f R e (g, .ok .length)) (h' : Enters isHead [] {} R e (g', .ok .untilClose)) :
    ¬ Agrees isHead X f R := by
  intro ha
  have hX : ∀ eof, feed.run (X ++ R, eof) (atBlock isHead X f) =
      feed.run (X ++ R, eof) (behind X g (atBody isHead g .length (e + 4))) := fun eof =>
    feed_inl ((h eof).trans (afterHeaders_body _ hg))
  have h0 : ∀ eof, feed.run (R, eof) (atBlock isHead [] {}) =
      feed.run (R, eof) (behind [] g' (atBody isHead g' .untilClose (e + 4))) := fun eof =>
    feed_inl (i := (R, eof)) ((h' eof).trans (afterHeaders_body _ hg'))
  -- before the end of the stream the second waits, so the first has too little; at the end it fails
  have hmore : (((X ++ R).length - (X.length + (e + 4)) : Nat) : Int) < g.contentLength := by
    by_contra hge
    have hdone := feed_inr (i := (X ++ R, false))
      (p := behind X g (atBody isHead g .length (e + 4))) (if_neg hge)
    have hwait := feed_inr (i := (R, false)) (p := behind [] g' (atBody isHead g' .untilClose (e + 4)))
      rfl
    have hres := congrArg Prod.fst (ha false)
    rw [hX, h0, hdone, hwait] at hres
    cases hres
  have hfail := feed_inr (i := (X ++ R, true))
    (p := behind X g (atBody isHead g .length (e + 4))) (if_pos hmore)
  have hdone := feed_inr (i := (R, true)) (p := behind [] g' (atBody isHead g' .untilClose (e + 4))) rfl
  have hres := congrArg Prod.fst (ha true)
  rw [hX, h0, hfail, hdone] at hres
  cases hres

/-- Framing by the length, or by the end of the stream if there is none. -/
def byLength (x : Fields) : Fields × Except String Phase :=
  if x.contentLength ≥ 0 then (x, .ok .length) else ({ x with keepAlive := false }, .ok .untilClose)

theorem agrees_of_length {x y : Fields × Bool} (hlevel : Level x y)
    (hx : interimStatus x.1.status = false) (hy : interimStatus y.1.status = false)
    (hlen : x.1.contentLength = y.1.contentLength ∨ 0 ≤ x.1.contentLength ∧ y.1.contentLength = -1)
    (h : Enters isHead X f R e (byLength x.1)) (h' : Enters isHead [] {} R e (byLength y.1)) :
    Agrees isHead X f R ↔ ∀ k : Key, k.Same x.1 y.1 := by
  unfold byLength at h h'
  rcases hlen with hlen | ⟨hxl, hyl⟩
  · have hall : (∀ k : Key, k.Same x.1 y.1) ↔ ∀ k : Key, k ≠ .contentLength → k.Same x.1 y.1 := by
      refine ⟨fun h k _ => h k, fun h k => ?_⟩
      by_cases hk : k = .contentLength
      · rw [hk]
        exact hlen
      · exact h k hk
    rw [hall]
    by_cases h0 : x.1.contentLength ≥ 0
    · rw [if_pos h0] at h
      rw [if_pos (h0.trans_eq hlen)] at h'
      exact (agrees_of_phase _ _ .length nofun hx hy (fun _ => hlen) h h').trans
        (fields_eq_iff hlevel)
    · rw [if_neg h0] at h
      rw [if_neg (hlen ▸ h0)] at h'
      refine (agrees_of_phase { x.1 with keepAlive := false }
        { y.1 with keepAlive := false } .untilClose nofun hx hy nofun h h').trans ?_
      refine (fields_eq_iff (x := ({ x.1 with keepAlive := false }, false))
        (y := ({ y.1 with keepAlive := false }, false)) ⟨hlevel.1, rfl, rfl⟩).trans ?_
      refine forall₂_congr fun k _ => ?_
      cases k <;> rfl
  · rw [if_pos hxl] at h
    rw [if_neg (by rw [hyl]; decide)] at h'
    refine iff_of_false (not_agrees_of_length { y.1 with keepAlive := false } hx hy h h') fun hk => ?_
    have hl : x.1.contentLength = y.1.contentLength := hk .contentLength
    omega

theorem framing_eq (isHead : Bool) (x : Fields × Bool) : framing isHead x =
    if bodyless isHead x.1.status then (x.1, .ok .done)
    else if x.2 then (x.1, .ok .chunked)
    else byLength x.1 :=
  rfl

theorem framing_spec (isHead : Bool) (x : Fields × Bool) :
    ∃ g phase, g.status = x.1.status ∧ phase ≠ .headers ∧ framing isHead x = (g, .ok phase) := by
  rw [framing_eq, byLength]
  split_ifs
  · exact ⟨_, .done, rfl, nofun, rfl⟩
  · exact ⟨_, .chunked, rfl, nofun, rfl⟩
  · exact ⟨_, .length, rfl, nofun, rfl⟩
  · exact ⟨{ x.1 with keepAlive := false }, .untilClose, rfl, nofun, rfl⟩

/-- The report of a final response whose status line can be read. -/
theorem agrees_iff_covered {code : Int} (hR : statusOf R = some code) (hint : interimStatus code = false)
    (hX : Ended X) (hf : -1 ≤ f.contentLength) :
    Agrees isHead X f R ↔ Covered isHead f R := by
  obtain ⟨e, b, hstep⟩ := feedStep_final hR
  have hlevel : Level (finalFields R f b code) (finalFields R {} b code) :=
    Level.applyAll (x := ({ f with keepAlive := b, status := code }, false))
      (y := ({ keepAlive := b, status := code }, false)) ⟨rfl, rfl, rfl⟩ (saidBy R).1
  have hsame : ∀ k : Key, k.Same (finalFields R f b code).1 (finalFields R {} b code).1 ↔
      k.Same f {} ∨ ∃ s ∈ (saidBy R).1, s.key = some k := by
    intro k
    refine (same_applyAll _ _ _ k).trans (or_comm.trans (or_congr_left ?_))
    cases k <;> rfl
  have hkeys : { (finalFields R f b code).1 with contentLength := -1 } =
      { (finalFields R {} b code).1 with contentLength := -1 } ↔
      ∀ k : Key, k ≠ .contentLength → k.Same f {} ∨ ∃ s ∈ (saidBy R).1, s.key = some k :=
    (fields_eq_iff hlevel).trans (forall₂_congr fun k _ => hsame k)
  have hcode : ∀ f, (finalFields R f b code).1.status = code := fun f => applyAll_status _ _
  have hint' : ∀ f, interimStatus (finalFields R f b code).1.status = false := fun f => by
    rw [hcode, hint]
  have henter : ∀ {X f r}, Ended X → (match (saidBy R).2 with
        | some msg => ((finalFields R f b code).1, .error msg)
        | none => framing isHead (finalFields R f b code)) = r → Enters isHead X f R e r := by
    intro X f r hX hr eof
    rw [← hr]
    exact hstep isHead X f eof hX
  cases hbad : (saidBy R).2 with
  | some msg =>
    rw [covered_of_not fun h => absurd (hbad.symm.trans h.1) nofun, ← hkeys]
    exact agrees_of_error (henter hX (by rw [hbad])) (henter (.inl rfl) (by rw [hbad]))
  | none =>
    have hframe : ∀ {X f r}, Ended X → framing isHead (finalFields R f b code) = r →
        Enters isHead X f R e r := fun hX hr => henter hX (by rw [hbad]; exact hr)
    have hchunked : ∀ f, (finalFields R f b code).2 = true ↔ Setting.chunked ∈ (saidBy R).1 := fun f =>
      (chunked_applyAll _ _).trans (or_iff_left Bool.false_ne_true)
    by_cases hbody : bodyless isHead code = true
    · have hdone : ∀ f, framing isHead (finalFields R f b code) = ((finalFields R f b code).1, .ok .done) :=
        fun f => by rw [framing_eq, hcode, if_pos hbody]
      rw [covered_of_not fun h => absurd (h.2.2 code hR) (by rw [hbody]; exact nofun), ← hkeys]
      exact agrees_of_phase _ _ .done nofun (hint' f) (hint' {}) nofun (hframe hX (hdone f))
        (hframe (.inl rfl) (hdone {}))
    by_cases hch : Setting.chunked ∈ (saidBy R).1
    · have hdone : ∀ f, framing isHead (finalFields R f b code) =
          ((finalFields R f b code).1, .ok .chunked) := fun f => by
        rw [framing_eq, hcode, if_neg hbody, if_pos ((hchunked f).mpr hch)]
      rw [covered_of_not fun h => absurd hch h.2.1, ← hkeys]
      exact agrees_of_phase _ _ .chunked nofun (hint' f) (hint' {}) nofun (hframe hX (hdone f))
        (hframe (.inl rfl) (hdone {}))
    have hlenf : ∀ f, framing isHead (finalFields R f b code) = byLength (finalFields R f b code).1 :=
      fun f => by rw [framing_eq, hcode, if_neg hbody, if_neg fun h => hch ((hchunked f).mp h)]
    have hframed : LengthFramed isHead R := ⟨hbad, hch, fun code' hcode' => by
      rw [hR] at hcode'
      cases hcode'
      exact eq_false_of_ne_true hbody⟩
    rw [covered_of_framed hframed, ← forall_congr' hsame]
    refine agrees_of_length hlevel (hint' f) (hint' {}) ?_ (hframe hX (hlenf f))
      (hframe (.inl rfl) (hlenf {}))
    by_cases hset : ∃ s ∈ (saidBy R).1, s.key = some .contentLength
    · exact .inl ((hsame .contentLength).mpr (.inr hset))
    -- nothing in `R` sets the length: each parser keeps the one it came with
    have hnone : ∀ s ∈ (saidBy R).1, s.key ≠ some .contentLength := fun s hs hk => hset ⟨s, hs, hk⟩
    have hxl : (finalFields R f b code).1.contentLength = f.contentLength :=
      same_applyAll_self (k := .contentLength) hnone _
    have hyl : (finalFields R {} b code).1.contentLength = -1 :=
      same_applyAll_self (k := .contentLength) hnone _
    rw [hxl, hyl]
    omega

/-- The status line of `R` cannot be read: the parser keeps the status it had. -/
theorem status_of_stuck (eof isHead : Bool) (f : Fields) (hX : Ended X) (hR : statusOf R = none) :
    (feed.run (X ++ R, eof) (atBlock isHead X f)).1.fields.status = f.status := by
  obtain ⟨q, r, hstep, hq⟩ := feedStep_stuck eof isHead f hX hR
  rw [feed_inr hstep]
  exact hq

/-- A fresh parser never reports an interim status of a final response. -/
theorem status_fresh (hR : ∀ code, statusOf R = some code → interimStatus code = false) :
    interimStatus (feed.run (R, eof) (.reset isHead)).1.fields.status = false := by
  cases hcode : statusOf R with
  | none =>
    have hstuck := status_of_stuck (X := []) eof isHead {} (.inl rfl) hcode
    exact congrArg interimStatus hstuck
  | some code =>
    obtain ⟨e, b, hstep⟩ := feedStep_final hcode
    replace hstep := hstep isHead [] {} eof (.inl rfl)
    have hx : (finalFields R {} b code).1.status = code := applyAll_status _ _
    have hint := hR code hcode
    cases hbad : (saidBy R).2 with
    | some msg =>
      rw [hbad] at hstep
      rw [show feed.run (R, eof) (.reset isHead) = _ from feed_inr (i := (R, eof)) hstep]
      exact (congrArg interimStatus hx).trans hint
    | none =>
      rw [hbad] at hstep
      obtain ⟨g, phase, hg, hp, hframe⟩ := framing_spec isHead (finalFields R {} b code)
      rw [hframe, afterHeaders_body g (by rw [hg, hx, hint])] at hstep
      rw [show feed.run (R, eof) (.reset isHead) = _ from feed_inl (i := (R, eof)) hstep]
      obtain ⟨a, ha, hfields⟩ := feed_body R eof
        (q := behind [] g (atBody isHead g phase (e + 4))) hp
      rw [feed_inr ha, hfields]
      exact (congrArg interimStatus (hg.trans hx)).trans hint

end Final

/-- The interim blocks have good lines, the status line of `R` can be read, and what they leave in a
member is its initial value, is set again by `R` or says nothing about `R`. -/
structure Clean (isHead : Bool) (blocks : List Bytes) (R : Bytes) : Prop where
  good : ∀ b ∈ blocks, (saidBy b).2 = none
  status : statusOf R ≠ none
  covered : Covered isHead (leftBy blocks) R

/-- **Interim responses and the final one.** Header blocks with an interim status come before the
bytes `R` of a final response. The parser reports of `R` what it reports of it alone, before and at
the end of the stream, if and only if there is no interim block or all is `Clean`. -/
theorem interim_kept_iff (isHead : Bool) (blocks : List Bytes) (hblocks : ∀ b ∈ blocks, Interim b)
    (R : Bytes) (hR : ∀ code, statusOf R = some code → interimStatus code = false) :
    (∀ eof, report (blocks.flatten ++ R, eof) (feed.run (blocks.flatten ++ R, eof) (.reset isHead)) =
      report (R, eof) (feed.run (R, eof) (.reset isHead))) ↔ blocks = [] ∨ Clean isHead blocks R := by
  -- a parser that reports an interim status has not read the final response
  have hleak : ∀ eof, interimStatus (feed.run (blocks.flatten ++ R, eof)
      (.reset isHead)).1.fields.status = true → report (blocks.flatten ++ R, eof)
        (feed.run (blocks.flatten ++ R, eof) (.reset isHead)) ≠
      report (R, eof) (feed.run (R, eof) (.reset isHead)) := by
    intro eof hint heq
    have hstatus := congrArg (fun r => r.2.1.status) heq
    exact ne_true_of_eq_false (status_fresh hR) ((congrArg interimStatus hstatus).symm.trans hint)
  by_cases hgood : ∀ b ∈ blocks, (saidBy b).2 = none
  · rcases blocks.eq_nil_or_concat with rfl | ⟨init, last, hconcat⟩
    · exact iff_of_true (fun _ => rfl) (.inl rfl)
    have hne : blocks ≠ [] := by rw [hconcat]; simp
    obtain ⟨f, hstatus, hend, hkeys, hrun⟩ := feed_blocks (X := []) (f := {}) isHead
      (y := ({}, false)) (.inl rfl) hblocks hgood R (fun k => by cases k <;> rfl)
    have hint := hstatus.resolve_right fun h => hne h.1
    rw [List.nil_append] at hend
    have hagree : (∀ eof, report (blocks.flatten ++ R, eof)
        (feed.run (blocks.flatten ++ R, eof) (.reset isHead)) =
        report (R, eof) (feed.run (R, eof) (.reset isHead))) ↔ Agrees isHead blocks.flatten f R :=
      forall_congr' fun eof => by
        rw [show feed.run (blocks.flatten ++ R, eof) (.reset isHead) = _ from hrun eof]
        rfl
    cases hcode : statusOf R with
    | none =>
      refine iff_of_false (fun h => hleak true ?_ (h true)) fun h => (h.resolve_left hne).status hcode
      rw [show feed.run (blocks.flatten ++ R, true) (.reset isHead) = _ from hrun true]
      exact (congrArg interimStatus (status_of_stuck _ _ _ hend hcode)).trans hint
    | some code =>
      have hlen : -1 ≤ f.contentLength := by
        rw [show f.contentLength = _ from hkeys .contentLength]
        exact contentLength_applyAll _ le_rfl
      rw [hagree, agrees_iff_covered hcode (hR code hcode) hend hlen, covered_congr hkeys, or_iff_right hne]
      exact ⟨fun h => ⟨hgood, by rw [hcode]; exact nofun, h⟩, fun h => h.covered⟩
  · obtain ⟨b, hb, hbad⟩ : ∃ b ∈ blocks, (saidBy b).2 ≠ none := by
      by_contra hno
      exact hgood fun b hb => by_contra fun h => hno ⟨b, hb, h⟩
    refine iff_of_false (fun h => hleak true ?_ (h true)) ?_
    · exact feed_bad_block (X := []) (.inl rfl) hblocks ⟨b, hb, hbad⟩ R
    · rintro (rfl | hclean)
      · cases hb
      · exact hbad (hclean.good b hb)

/-- The first three rounds of `feed`. -/
theorem feed_unroll (i : Bytes × Bool) (p : ResponseParser) : feed.run i p =
    (feedStep i p).elim (fun q => (feedStep i q).elim (fun q => (feedStep i q).elim (feed.run i) id)
      id) id := by
  have hrun : ∀ p, feed.run i p = (feedStep i p).elim (feed.run i) id := by
    intro p
    cases h : feedStep i p with
    | inl q => exact feed_inl h
    | inr a => exact feed_inr h
  rw [hrun]
  congr 1
  funext q
  rw [hrun]
  congr 1
  funext q
  rw [hrun]

def okHi : Bytes := lit "HTTP/1.1 200 OK\r\n\r\nhi"

theorem okHi_final : ∀ code, statusOf okHi = some code → interimStatus code = false := by
  intro code h
  have hcode : statusOf okHi = some 200 := by
    rw [show okHi = _ from lit_ofList _]
    decide +kernel
  rw [hcode] at h
  cases h
  rfl

/-- An interim block without header lines. -/
theorem interim_kept_iff_continue :
    report (lit "HTTP/1.1 100 Continue\r\n\r\n" ++ okHi, true)
        (feed.run (lit "HTTP/1.1 100 Continue\r\n\r\n" ++ okHi, true) (.reset false)) =
      report (okHi, true) (feed.run (okHi, true) (.reset false)) := by
  refine (interim_kept_iff false [lit "HTTP/1.1 100 Continue\r\n\r\n"] ?_ okHi okHi_final).mpr
    (.inr ⟨?_, by decide +kernel, fun k => .inl ?_⟩) true
  · exact List.forall_mem_singleton.mpr ⟨by decide +kernel, 100, by decide +kernel, rfl⟩
  · exact List.forall_mem_singleton.mpr (by decide +kernel)
  · cases k <;> decide +kernel

/-- The length an early hint gives cuts off the body of the response after it. -/
theorem interim_leaks :
    let hints := lit "HTTP/1.1 103 Early Hints\r\nContent-Length: 0\r\n\r\n"
    Interim hints ∧ (∀ code, statusOf okHi = some code → interimStatus code = false) ∧
      (report (hints ++ okHi, true) (feed.run (hints ++ okHi, true) (.reset false))).2.2 = [] ∧
      (report (okHi, true) (feed.run (okHi, true) (.reset false))).2.2 = lit "hi" := by
  intro hints
  have hhints : hints = _ := lit_ofList _
  have hok : okHi = _ := lit_ofList _
  refine ⟨?_, okHi_final, ?_⟩ <;> rw [hhints]
  · exact ⟨by decide +kernel, 103, by decide +kernel, rfl⟩
  rw [hok]
  constructor
  · rw [feed_unroll]
    decide +kernel
  · rw [feed_unroll]
    decide +kernel

end Stok.Net
