import Stok.Net.HttpInterim
import Stok.Net.HttpResume

/-!
# Where a body ends

The wire format of a response: a header block, and a body in chunks, of a given length, up to the
end of the stream, or none. Over any division of the stream into pieces `feed` finds the body that
was sent, reads nothing after its end as a part of it, and takes no part of a message for a whole
one.
-/

namespace Stok.Net

open Stok.Lib Stok.Lib.Loop

/-! ## Chunks -/

/-- There is no line end in the text. -/
def OneLine (s : Bytes) : Prop := ¬ crlf <:+: s

/-- The value of hexadecimal digits of either case. -/
def hexValue (ds : Bytes) : Option Nat :=
  ds.foldlM (fun n c => (hexDigitValue c).map fun d => n * 16 + d) 0

/-- The line before a chunk of `n` bytes. -/
structure SizeLine (n : Nat) where
  digits : Bytes
  ext : Option Bytes
  value : hexValue digits = some n
  ne_nil : digits ≠ []
  length_le : digits.length ≤ 12
  oneLine : ∀ e, ext = some e → OneLine e

def SizeLine.text {n : Nat} (l : SizeLine n) : Bytes :=
  l.digits ++ match l.ext with
    | none => []
    | some e => ch ';' :: e

structure Chunk where
  data : Bytes
  size : SizeLine data.length
  ne_nil : data ≠ []
  length_le : data.length ≤ 512 * 2 ^ 20

def Chunk.wire (c : Chunk) : Bytes := c.size.text ++ (crlf ++ (c.data ++ crlf))

/-- The end of a chunked body: a size of zero, lines that are not empty, and an empty one. -/
structure Trailer where
  size : SizeLine 0
  lines : List Bytes
  lines_ok : ∀ l ∈ lines, l ≠ [] ∧ OneLine l

def Trailer.wire (t : Trailer) : Bytes :=
  t.size.text ++ (crlf ++ (t.lines.flatMap (· ++ crlf) ++ crlf))

def chunkedWire (chunks : List Chunk) (t : Trailer) : Bytes := chunks.flatMap Chunk.wire ++ t.wire

theorem oneLine_nil : OneLine [] := by
  intro h
  cases List.infix_nil.mp h

theorem oneLine_cons {c : UInt8} {s : Bytes} (hc : c ≠ 13) : OneLine (c :: s) ↔ OneLine s := by
  refine not_congr ?_
  rw [List.infix_cons_iff]
  refine or_iff_right ?_
  rintro ⟨t, ht⟩
  exact hc (List.cons.inj ht).1.symm

theorem oneLine_append {ds s : Bytes} (hds : ∀ c ∈ ds, c ≠ 13) (hs : OneLine s) : OneLine (ds ++ s) := by
  induction ds with
  | nil => exact hs
  | cons d ds ih =>
    obtain ⟨hd, hds⟩ := List.forall_mem_cons.mp hds
    exact (oneLine_cons hd).mpr (ih hds)

/-- The line end after a line is the first one. -/
theorem find_line {line : Bytes} (h : OneLine line) (a r : Bytes) :
    find crlf (a ++ (line ++ (crlf ++ r))) a.length = some (a.length + line.length) := by
  have hfind : find crlf (line ++ (crlf ++ r)) 0 = some line.length := by
    refine find_eq_some.mpr ⟨Nat.zero_le _, by rw [List.length_append]; omega, ?_, ?_⟩
    · rw [List.drop_left]
      exact List.prefix_append _ _
    · intro i _ hi hp
      rw [List.drop_append_of_le_length (by omega)] at hp
      have hsuf : line.drop i <:+: line := (List.drop_suffix i line).isInfix
      -- at the last byte the second one would be the first of the line end
      match hd : line.drop i with
      | [] =>
        have := congrArg List.length hd
        rw [List.length_drop, List.length_nil] at this
        omega
      | [c] =>
        rw [hd] at hp
        obtain ⟨t, ht⟩ := hp
        simp [crlf] at ht
      | c :: d :: s =>
        rw [hd] at hp hsuf
        obtain ⟨t, ht⟩ := hp
        obtain ⟨rfl, htail⟩ := List.cons.inj ht
        obtain ⟨rfl, -⟩ := List.cons.inj htail
        exact h (List.IsInfix.trans (List.prefix_append crlf s).isInfix hsuf)
  have := find_shift crlf a (line ++ (crlf ++ r)) 0
  rwa [Nat.add_zero, hfind] at this

theorem hexValue_digits {ds : Bytes} {n : Nat} (h : hexValue ds = some n) :
    ∀ c ∈ ds, (hexDigitValue c).isSome := by
  have hgen : ∀ k, (ds.foldlM (fun n c => (hexDigitValue c).map fun d => n * 16 + d) k).isSome →
      ∀ c ∈ ds, (hexDigitValue c).isSome := by
    clear h
    induction ds with
    | nil => exact fun _ _ c hc => absurd hc List.not_mem_nil
    | cons d ds ih =>
      intro k hk
      rw [List.foldlM_cons] at hk
      cases hd : hexDigitValue d with
      | none =>
        rw [hd] at hk
        cases hk
      | some v =>
        rw [hd] at hk
        exact List.forall_mem_cons.mpr ⟨by rw [hd]; rfl, ih _ hk⟩
  refine hgen 0 ?_
  rw [hexValue] at h
  rw [h]
  rfl

theorem hexDigit_plain {c : UInt8} (h : (hexDigitValue c).isSome) :
    c ≠ 13 ∧ c ≠ ch ';' ∧ isSpace c = false := by
  have hnone : hexDigitValue 13 = none ∧ hexDigitValue (ch ';') = none := by decide
  refine ⟨?_, ?_, ?_⟩
  · rintro rfl
    rw [hnone.1] at h
    cases h
  · rintro rfl
    rw [hnone.2] at h
    cases h
  · rw [← Bool.not_eq_true]
    intro hs
    simp only [isSpace, Bool.or_eq_true, beq_iff_eq] at hs
    rcases hs with ((((rfl | rfl) | rfl) | rfl) | rfl) | rfl <;> exact absurd h (by decide)

section SizeLine

variable {n : Nat} (l : SizeLine n)

theorem SizeLine.plain : ∀ c ∈ l.digits, c ≠ 13 ∧ c ≠ ch ';' ∧ isSpace c = false := fun c hc =>
  hexDigit_plain (hexValue_digits l.value c hc)

theorem SizeLine.oneLine_text : OneLine l.text := by
  refine oneLine_append (fun c hc => (l.plain c hc).1) ?_
  split
  · exact oneLine_nil
  · rename_i e he
    exact (oneLine_cons (by decide)).mpr (l.oneLine e he)

theorem SizeLine.chunkSize_text (hn : n ≤ 512 * 2 ^ 20) : chunkSize l.text = .ok n := by
  have htake : l.text.takeWhile (· ≠ ch ';') = l.digits := by
    have hall : ∀ c ∈ l.digits, decide (c ≠ ch ';') = true := fun c hc =>
      decide_eq_true (l.plain c hc).2.1
    rw [SizeLine.text, List.takeWhile_append_of_pos hall]
    split
    · simp
    · simp
  have htrim : trim l.digits = l.digits := by
    refine trim_eq_self (fun c hc => ?_) (fun c hc => ?_)
    · exact (l.plain c (List.mem_of_mem_head? hc)).2.2
    · exact (l.plain c (List.mem_of_getLast? hc)).2.2
  have hshort : (l.digits.isEmpty || decide (l.digits.length > 12)) = false := by
    have h1 := l.ne_nil
    have h2 := l.length_le
    simp [h1, h2]
  have hvalue := l.value
  rw [hexValue] at hvalue
  unfold chunkSize
  simp only [htake, htrim, hshort, Bool.false_eq_true, if_false, hvalue]
  exact if_neg (by omega)

end SizeLine

/-! ## Reading chunks -/

/-- The parser at position `n` of the body, with the data `d` of the chunks before. -/
def ResponseParser.atChunk (p : ResponseParser) (cs : ChunkState) (n : Nat) (d : Bytes) : ResponseParser :=
  { p with cs := cs, cpos := n, chunkLeft := 0, dechunked := d }

section Read

variable {p : ResponseParser} {a : Bytes}

/-- A size line leads to the data, or to the trailer. -/
theorem step_size {n : Nat} (l : SizeLine n) (hn : n ≤ 512 * 2 ^ 20) (d r : Bytes) :
    chunkStep (a ++ (l.text ++ (crlf ++ r))) (p.atChunk .size a.length d) =
      .inl (if n = 0 then p.atChunk .trailer (a.length + l.text.length + 2) d
        else { p.atChunk .data (a.length + l.text.length + 2) d with chunkLeft := n }) := by
  have hslice : ((a ++ (l.text ++ (crlf ++ r))).drop a.length).take
      (a.length + l.text.length - a.length) = l.text := by
    rw [List.drop_left, Nat.add_sub_cancel_left, List.take_left]
  unfold chunkStep
  simp only [ResponseParser.atChunk, find_line l.oneLine_text, hslice, l.chunkSize_text hn]
  split
  · rfl
  · rfl

theorem step_data (c : Bytes) (d r : Bytes) :
    chunkStep (a ++ (c ++ r)) { p.atChunk .data a.length d with chunkLeft := c.length } =
      .inl (p.atChunk .dataCrlf (a.length + c.length) (d ++ c)) := by
  have hmin : min ((a ++ (c ++ r)).length - a.length) c.length = c.length := by
    simp only [List.length_append]
    omega
  unfold chunkStep
  simp only [ResponseParser.atChunk, ResponseParser.takeData, hmin, Nat.sub_self, gt_iff_lt, Nat.lt_irrefl,
    if_false, List.drop_left, List.take_left]

theorem step_dataCrlf (d r : Bytes) :
    chunkStep (a ++ (crlf ++ r)) (p.atChunk .dataCrlf a.length d) =
      .inl (p.atChunk .size (a.length + 2) d) := by
  have hlen : ¬ (a ++ (crlf ++ r)).length - a.length < 2 := by
    simp only [List.length_append, crlf, List.length_cons, List.length_nil]
    omega
  have h0 : byteAt (a ++ (crlf ++ r)) a.length = 13 := by
    simp [byteAt, crlf]
  have h1 : byteAt (a ++ (crlf ++ r)) (a.length + 1) = 10 := by
    simp [byteAt, crlf]
  unfold chunkStep
  simp only [ResponseParser.atChunk, hlen, h0, h1, if_false, ne_eq, not_true_eq_false, or_self]

theorem run_chunk (c : Chunk) (d r : Bytes) :
    parseChunked.run (a ++ (c.wire ++ r)) (p.atChunk .size a.length d) =
      parseChunked.run (a ++ (c.wire ++ r)) (p.atChunk .size (a ++ c.wire).length (d ++ c.data)) := by
  have hne : c.data.length ≠ 0 := mt List.length_eq_zero_iff.mp c.ne_nil
  have hsize := step_size (p := p) (a := a) c.size c.length_le d (c.data ++ (crlf ++ r))
  have hdata := step_data (p := p) (a := a ++ (c.size.text ++ crlf)) c.data d (crlf ++ r)
  have hcrlf := step_dataCrlf (p := p) (a := a ++ (c.size.text ++ (crlf ++ c.data))) (d ++ c.data) r
  have hwire : c.wire ++ r = c.size.text ++ (crlf ++ (c.data ++ (crlf ++ r))) := by
    simp only [Chunk.wire, List.append_assoc]
  have h2 : crlf.length = 2 := rfl
  rw [if_neg hne] at hsize
  simp only [List.append_assoc, List.length_append, h2] at hdata hcrlf
  rw [hwire, run_inl hsize, Nat.add_assoc, run_inl hdata]
  rw [show a.length + (c.size.text.length + 2) + c.data.length =
    a.length + (c.size.text.length + (2 + c.data.length)) by omega, run_inl hcrlf]
  congr 2
  simp only [Chunk.wire, List.length_append, h2]
  omega

theorem run_chunks (chunks : List Chunk) (d r : Bytes) :
    parseChunked.run (a ++ (chunks.flatMap Chunk.wire ++ r)) (p.atChunk .size a.length d) =
      parseChunked.run (a ++ (chunks.flatMap Chunk.wire ++ r))
        (p.atChunk .size (a ++ chunks.flatMap Chunk.wire).length (d ++ chunks.flatMap Chunk.data)) := by
  induction chunks generalizing a d with
  | nil => simp
  | cons c chunks ih =>
    have hih := ih (a := a ++ c.wire) (d ++ c.data)
    simp only [List.append_assoc] at hih
    simp only [List.flatMap_cons, List.append_assoc]
    rw [run_chunk, hih]

theorem step_line {l : Bytes} (hne : l ≠ []) (hl : OneLine l) (d r : Bytes) :
    chunkStep (a ++ (l ++ (crlf ++ r))) (p.atChunk .trailer a.length d) =
      .inl (p.atChunk .trailer (a.length + l.length + 2) d) := by
  have hlen : a.length + l.length ≠ a.length := by
    have := List.length_pos_of_ne_nil hne
    omega
  unfold chunkStep
  simp only [ResponseParser.atChunk, find_line hl, hlen, if_false]

theorem step_empty (d r : Bytes) :
    chunkStep (a ++ (crlf ++ r)) (p.atChunk .trailer a.length d) =
      .inr ({ p.atChunk .trailer (a.length + 2) d with phase := .done }, .done) := by
  have hfind := find_line oneLine_nil a r
  rw [List.nil_append, List.length_nil, Nat.add_zero] at hfind
  unfold chunkStep
  simp only [ResponseParser.atChunk, hfind, if_true]

theorem run_lines {lines : List Bytes} (hl : ∀ l ∈ lines, l ≠ [] ∧ OneLine l) (d r : Bytes) :
    parseChunked.run (a ++ (lines.flatMap (· ++ crlf) ++ (crlf ++ r))) (p.atChunk .trailer a.length d) =
      ({ p.atChunk .trailer ((a ++ lines.flatMap (· ++ crlf)).length + 2) d with phase := .done }, .done) := by
  induction lines generalizing a with
  | nil =>
    rw [List.flatMap_nil, List.append_nil, List.nil_append]
    exact run_inr (step_empty d r)
  | cons l lines ih =>
    obtain ⟨⟨hne, hone⟩, hls⟩ := List.forall_mem_cons.mp hl
    have hih := ih (a := a ++ (l ++ crlf)) hls
    have hlen : (a ++ (l ++ crlf)).length = a.length + l.length + 2 := by
      simp only [List.length_append, crlf, List.length_cons, List.length_nil]
      omega
    rw [hlen] at hih
    simp only [List.flatMap_cons, List.append_assoc] at hih ⊢
    rw [run_inl (step_line hne hone d _), hih]

/-- A chunked body is read to its end, and no further. -/
theorem run_chunked (chunks : List Chunk) (t : Trailer) (r : Bytes) :
    parseChunked.run (a ++ (chunkedWire chunks t ++ r)) (p.atChunk .size a.length []) =
      ({ p.atChunk .trailer (a ++ chunkedWire chunks t).length (chunks.flatMap Chunk.data) with
        phase := .done }, .done) := by
  have hchunks := run_chunks (p := p) (a := a) chunks [] (t.wire ++ r)
  have hsize := step_size (p := p) (a := a ++ chunks.flatMap Chunk.wire) t.size (Nat.zero_le _)
    (chunks.flatMap Chunk.data) (t.lines.flatMap (· ++ crlf) ++ (crlf ++ r))
  have hlines := run_lines (p := p) (a := a ++ (chunks.flatMap Chunk.wire ++ (t.size.text ++ crlf)))
    t.lines_ok (chunks.flatMap Chunk.data) r
  have h2 : crlf.length = 2 := rfl
  rw [if_pos rfl] at hsize
  simp only [List.append_assoc, List.length_append, h2] at hsize hlines
  simp only [chunkedWire, Trailer.wire, List.append_assoc, List.nil_append] at hchunks ⊢
  rw [hchunks, List.length_append, run_inl hsize]
  rw [show a.length + (chunks.flatMap Chunk.wire).length + t.size.text.length + 2 =
    a.length + ((chunks.flatMap Chunk.wire).length + (t.size.text.length + 2)) by omega, hlines]
  simp only [List.length_append, h2, Nat.add_assoc]

/-- The position that an answer leaves is in the buffer. -/
theorem chunkStep_cpos_le {s : Bytes} {q : ResponseParser} {r : Result} (hp : p.cpos ≤ s.length)
    (h : chunkStep s p = .inr (q, r)) : q.cpos ≤ s.length := by
  unfold chunkStep at h
  split at h
  · split at h
    · cases h
      exact hp
    · split at h
      · cases h
        exact hp
      · split at h <;> cases h
  · split at h
    · cases h
      simp only [ResponseParser.takeData]
      omega
    · cases h
  · split at h
    · cases h
      exact hp
    · split at h <;> cases h
      exact hp
  · split at h
    · cases h
      exact hp
    · rename_i e he
      have hb : e + 2 ≤ s.length := (find_bounds he).2
      split at h <;> cases h
      exact hb

theorem run_cpos_le (s : Bytes) (hp : p.cpos ≤ s.length) :
    (parseChunked.run s p).1.cpos ≤ s.length := by
  refine run_induct parseChunked s (P := fun p => p.cpos ≤ s.length →
    (parseChunked.run s p).1.cpos ≤ s.length) ?_ ?_ p hp
  · intro p q hstep ih hp
    rw [run_inl hstep]
    exact ih (chunkStep_cont (t := []) hp hstep).2
  · rintro p ⟨q, r⟩ hstep hp
    rw [run_inr hstep]
    exact chunkStep_cpos_le hp hstep

/-- A part of a chunked body is not taken for the whole: the answer would be that for the whole, which
ends further on. -/
theorem run_part {chunks : List Chunk} {t : Trailer} {w : Bytes} (hw : w <+: chunkedWire chunks t)
    (hne : w ≠ chunkedWire chunks t) :
    (parseChunked.run (a ++ w) (p.atChunk .size a.length [])).2 ≠ .done := by
  intro hdone
  obtain ⟨v, hv⟩ := hw
  have hwhole := (parseChunked_resumable (a ++ chunkedWire chunks t)).run_settle (i := a ++ w)
    (x := p.atChunk .size a.length []) ⟨by simp [ResponseParser.atChunk], v, by rw [List.append_assoc, hv]⟩
    (by rw [hdone]; rfl)
  have hfull := run_chunked (p := p) (a := a) chunks t []
  rw [List.append_nil, hwhole] at hfull
  have hle := run_cpos_le (p := p.atChunk .size a.length []) (a ++ w) (by simp [ResponseParser.atChunk])
  rw [hfull] at hle
  simp only [ResponseParser.atChunk, List.length_append] at hle
  have hlen := congrArg List.length hv
  rw [List.length_append] at hlen
  have hv0 : v = [] := List.length_eq_zero_iff.mp (by omega)
  rw [hv0, List.append_nil] at hv
  exact hne hv

end Read

/-! ## Header blocks -/

/-- The header block of a response, with its blank line. -/
structure HeaderBlock where
  bytes : Bytes
  code : Int
  settings : List Setting
  ends : find blank bytes 0 = some (bytes.length - 4)
  status : statusOf bytes = some code
  good : saidBy bytes = (settings, none)
  final : interimStatus code = false

/-- The last length that header lines give. -/
def lengthSaid : List Setting → Option Nat
  | [] => none
  | s :: ss => (lengthSaid ss).or (match s with
    | .contentLength n => some n
    | _ => none)

theorem contentLength_said (ss : List Setting) (x : Fields × Bool) :
    (applyAll ss x).1.contentLength = (lengthSaid ss).elim x.1.contentLength fun n => (n : Int) := by
  induction ss generalizing x with
  | nil => rfl
  | cons s ss ih =>
    refine (ih (s.apply x)).trans ?_
    cases s <;> cases hl : lengthSaid ss <;> simp [lengthSaid, hl, Setting.apply]

namespace HeaderBlock

/-- A body in chunks. -/
def Chunked (h : HeaderBlock) (isHead : Bool) : Prop :=
  bodyless isHead h.code = false ∧ .chunked ∈ h.settings

/-- A body of `n` bytes. -/
def Length (h : HeaderBlock) (isHead : Bool) (n : Nat) : Prop :=
  bodyless isHead h.code = false ∧ .chunked ∉ h.settings ∧ lengthSaid h.settings = some n

/-- A body up to the end of the stream. -/
def UntilClose (h : HeaderBlock) (isHead : Bool) : Prop :=
  bodyless isHead h.code = false ∧ .chunked ∉ h.settings ∧ lengthSaid h.settings = none

end HeaderBlock

/-- A message that says itself where it ends, and the body it carries. -/
inductive Framed (h : HeaderBlock) (isHead : Bool) : Bytes → Bytes → Prop where
  | chunked (chunks : List Chunk) (t : Trailer) : h.Chunked isHead →
      Framed h isHead (h.bytes ++ chunkedWire chunks t) (chunks.flatMap Chunk.data)
  | length (body : Bytes) : h.Length isHead body.length → Framed h isHead (h.bytes ++ body) body

section Header

variable (h : HeaderBlock) (isHead : Bool)

theorem HeaderBlock.find_ends (rest : Bytes) :
    find blank (h.bytes ++ rest) 0 = some (h.bytes.length - 4) :=
  find_append rest h.ends

theorem HeaderBlock.length_bytes : 4 ≤ h.bytes.length := by
  have := (find_bounds h.ends).2
  rw [show blank.length = 4 from rfl] at this
  omega

/-- The block leads to a body: `feed` goes on behind it in a phase. -/
def HeaderBlock.Enters (g : Fields) (phase : Phase) : Prop :=
  phase ≠ .headers ∧ ∀ rest, (ResponseParser.reset isHead).onHeaders (h.bytes ++ rest) (h.bytes.length - 4) =
    .inl (atBody isHead g phase h.bytes.length)

/-- What the lines of the block set decides where the body ends. -/
theorem HeaderBlock.enters : ∃ x : Fields × Bool, x.1.status = h.code ∧
    (x.2 = true ↔ Setting.chunked ∈ h.settings) ∧
    x.1.contentLength = (lengthSaid h.settings).elim (-1) (fun n => (n : Int)) ∧
    ∀ {g phase}, framing isHead x = (g, .ok phase) → h.Enters isHead g phase := by
  have hblock : headBlock h.bytes = some (h.bytes.take (h.bytes.length - 4 + 2)) := by
    rw [headBlock, h.ends]
    rfl
  have hstatus : blockStatus (h.bytes.take (h.bytes.length - 4 + 2)) = some h.code := by
    have := h.status
    rwa [statusOf, hblock] at this
  have hsaid : blockSaid (h.bytes.take (h.bytes.length - 4 + 2)) = (h.settings, none) := by
    have := h.good
    rwa [saidBy, hblock] at this
  obtain ⟨b, hparse⟩ := parseHeaders_some hstatus
  have hlen := h.length_bytes
  refine ⟨applyAll h.settings ({ keepAlive := b, status := h.code }, false), ?_, ?_, ?_, ?_⟩
  · exact applyAll_status _ _
  · rw [chunked_applyAll]
    simp
  · exact contentLength_said _ _
  · intro g phase hframing
    have hp := hparse isHead {}
    rw [hsaid] at hp
    dsimp only at hp
    rw [hframing] at hp
    refine ⟨parseHeaders_phase hp, fun rest => ?_⟩
    have htake : (h.bytes ++ rest).take (h.bytes.length - 4 + 2) = h.bytes.take (h.bytes.length - 4 + 2) :=
      List.take_append_of_le_length (by omega)
    have hstat : interimStatus g.status = false := by
      obtain ⟨g', phase', hg, -, hf⟩ := framing_spec isHead
        (applyAll h.settings ({ keepAlive := b, status := h.code }, false))
      rw [hframing] at hf
      obtain ⟨rfl, -⟩ := Prod.mk.inj hf
      rw [hg, applyAll_status]
      exact h.final
    have hafter := @afterHeaders_body [] g isHead g {} phase (h.bytes.length - 4) hstat
    rw [behind_nil, List.length_nil, Nat.zero_add, Nat.sub_add_cancel hlen] at hafter
    rw [← hafter, ← hp, ← htake]
    rfl

theorem feedStep_enters {g : Fields} {phase : Phase} (he : h.Enters isHead g phase) (rest : Bytes)
    (eof : Bool) : feedStep (h.bytes ++ rest, eof) (.reset isHead) =
      .inl (atBody isHead g phase h.bytes.length) := by
  rw [← he.2 rest]
  have hfind : find (crlf ++ crlf) (h.bytes ++ rest) (ResponseParser.reset isHead).from =
      some (h.bytes.length - 4) := by
    rw [from_eq]
    exact h.find_ends rest
  unfold feedStep
  dsimp only [ResponseParser.reset] at hfind ⊢
  rw [hfind]

theorem headerEnds_enters {g : Fields} {phase : Phase} (he : h.Enters isHead g phase) (rest : Bytes) :
    HeaderEnds (h.bytes ++ rest) (.reset isHead) h.bytes.length := by
  have hlast : HeaderEnds (h.bytes ++ rest) (.reset isHead) (h.bytes.length - 4 + 4) := by
    refine .last ?_ fun q hq => ?_
    · rw [from_eq]
      exact h.find_ends rest
    · rw [he.2 rest] at hq
      obtain rfl := Sum.inl.inj hq
      exact he.1
  rwa [Nat.sub_add_cancel h.length_bytes] at hlast

end Header

/-! ## Answers -/

/-- What a caller sees when the stream comes in pieces, `eof` with the last one. -/
def answer (isHead : Bool) (pieces : List Bytes) (last : Bytes) (eof : Bool) : View :=
  feed.feedAll isMore view (calls [] pieces) (pieces.flatten ++ last, eof) (.reset isHead)

/-- One call for the whole stream, or a header block that the limit on headers admits. -/
def Admitted (h : HeaderBlock) (pieces : List Bytes) : Prop :=
  pieces = [] ∨ h.bytes.length ≤ headerLimit

section Answer

variable {h : HeaderBlock} {isHead : Bool} {S : Bytes}

/-- A part of a stream that begins with a header block is a part of the block, or has it whole. -/
theorem part_of_block {rest : Bytes} (hS : S <+: h.bytes ++ rest) :
    (S.length < h.bytes.length ∧ S <+: h.bytes) ∨ ∃ r, r <+: rest ∧ S = h.bytes ++ r := by
  rcases Nat.lt_or_ge S.length h.bytes.length with hlt | hge
  · exact .inl ⟨hlt, List.prefix_of_prefix_length_le hS (List.prefix_append _ _) hlt.le⟩
  · obtain ⟨r, rfl⟩ := List.prefix_of_prefix_length_le (List.prefix_append _ _) hS hge
    exact .inr ⟨r, (List.prefix_append_right_inj h.bytes).mp hS, rfl⟩

theorem answer_eq (isHead : Bool) {rest last : Bytes} {pieces : List Bytes} (hS : S <+: h.bytes ++ rest)
    (hpieces : pieces.flatten ++ last = S) (hadm : Admitted h pieces) (eof : Bool) :
    answer isHead pieces last eof = view (S, eof) (feed.run (S, eof) (.reset isHead)) := by
  unfold answer
  rw [hpieces]
  rcases hadm with rfl | hlimit
  · rfl
  · refine feedAll_calls (hpieces ▸ List.prefix_append _ _) ?_
    rcases part_of_block hS with ⟨hlt, -⟩ | ⟨r, -, rfl⟩
    · exact .inl (hlt.le.trans hlimit)
    · obtain ⟨x, -, -, -, henters⟩ := h.enters isHead
      obtain ⟨g, phase, -, -, hf⟩ := framing_spec isHead x
      exact .inr ⟨_, hlimit, headerEnds_enters h isHead (henters hf) r⟩

theorem HeaderBlock.Chunked.enters (hc : h.Chunked isHead) : ∃ g, h.Enters isHead g .chunked := by
  obtain ⟨x, hstatus, hchunked, -, henters⟩ := h.enters isHead
  refine ⟨x.1, henters ?_⟩
  rw [framing_eq, hstatus, hc.1, hchunked.mpr hc.2]
  rfl

theorem HeaderBlock.Length.enters {n : Nat} (hl : h.Length isHead n) :
    ∃ g, g.contentLength = (n : Int) ∧ h.Enters isHead g .length := by
  obtain ⟨x, hstatus, hchunked, hlen, henters⟩ := h.enters isHead
  rw [hl.2.2, Option.elim_some] at hlen
  refine ⟨x.1, hlen, henters ?_⟩
  rw [framing_eq, hstatus, hl.1, Bool.eq_false_iff.mpr (mt hchunked.mp hl.2.1),
    if_neg Bool.false_ne_true, if_neg Bool.false_ne_true, byLength, hlen, if_pos (Int.natCast_nonneg n)]

theorem HeaderBlock.UntilClose.enters (hu : h.UntilClose isHead) :
    ∃ g, h.Enters isHead g .untilClose := by
  obtain ⟨x, hstatus, hchunked, hlen, henters⟩ := h.enters isHead
  rw [hu.2.2, Option.elim_none] at hlen
  refine ⟨{ x.1 with keepAlive := false }, henters ?_⟩
  rw [framing_eq, hstatus, hu.1, Bool.eq_false_iff.mpr (mt hchunked.mp hu.2.1),
    if_neg Bool.false_ne_true, if_neg Bool.false_ne_true, byLength, if_neg (by rw [hlen]; decide)]

theorem HeaderBlock.enters_done (hb : bodyless isHead h.code = true) : ∃ g, h.Enters isHead g .done := by
  obtain ⟨x, hstatus, -, -, henters⟩ := h.enters isHead
  refine ⟨x.1, henters ?_⟩
  rw [framing_eq, hstatus, hb]
  rfl

/-- The answer of a call that has the header block whole is that of a round behind it. -/
theorem run_enters {g : Fields} {phase : Phase} (eof : Bool) (he : h.Enters isHead g phase) {r : Bytes}
    {a : ResponseParser × Result}
    (ha : feedStep (h.bytes ++ r, eof) (atBody isHead g phase h.bytes.length) = .inr a) :
    feed.run (h.bytes ++ r, eof) (.reset isHead) = a := by
  rw [feed_inl (feedStep_enters h isHead he r eof), feed_inr ha]

theorem run_body_chunked {g : Fields} (he : h.Enters isHead g .chunked) (chunks : List Chunk) (t : Trailer)
    (extra : Bytes) (eof : Bool) :
    let v := view (h.bytes ++ (chunkedWire chunks t ++ extra), eof)
      (feed.run (h.bytes ++ (chunkedWire chunks t ++ extra), eof) (.reset isHead))
    v.result = .done ∧ v.body = chunks.flatMap Chunk.data := by
  have hrun := run_chunked (p := atBody isHead g .chunked h.bytes.length) (a := h.bytes) chunks t extra
  have hphase : (atBody isHead g .chunked h.bytes.length).phase = .chunked := rfl
  have hstep := @feedStep_chunked (h.bytes ++ (chunkedWire chunks t ++ extra)) _ eof hphase
  rw [show atBody isHead g .chunked h.bytes.length =
    (atBody isHead g .chunked h.bytes.length).atChunk .size h.bytes.length [] from rfl, hrun] at hstep
  dsimp only
  rw [run_enters _ he (hstep.trans (if_neg nofun))]
  exact ⟨rfl, rfl⟩

theorem run_part_chunked {g : Fields} (he : h.Enters isHead g .chunked) {chunks : List Chunk} {t : Trailer}
    {r : Bytes} (hr : r <+: chunkedWire chunks t) (hne : r ≠ chunkedWire chunks t) :
    (feed.run (h.bytes ++ r, true) (.reset isHead)).2 = .error := by
  have hphase : (atBody isHead g .chunked h.bytes.length).phase = .chunked := rfl
  have hstep := @feedStep_chunked (h.bytes ++ r) _ true hphase
  have hpart := run_part (p := atBody isHead g .chunked h.bytes.length) (a := h.bytes) hr hne
  rw [show (atBody isHead g .chunked h.bytes.length).atChunk .size h.bytes.length [] =
    atBody isHead g .chunked h.bytes.length from rfl] at hpart
  generalize parseChunked.run (h.bytes ++ r) (atBody isHead g .chunked h.bytes.length) = a at hstep hpart
  obtain ⟨q, res⟩ := a
  cases res with
  | needMore => rw [run_enters _ he (hstep.trans (if_pos ⟨rfl, rfl⟩))]
  | done => exact absurd rfl hpart
  | error => rw [run_enters _ he (hstep.trans (if_neg nofun))]

theorem run_body_length {g : Fields} {body : Bytes} (he : h.Enters isHead g .length)
    (hlen : g.contentLength = body.length) (extra : Bytes) (eof : Bool) :
    let v := view (h.bytes ++ (body ++ extra), eof)
      (feed.run (h.bytes ++ (body ++ extra), eof) (.reset isHead))
    v.result = .done ∧ v.body = body := by
  have henough : ¬ ((((h.bytes ++ (body ++ extra)).length - h.bytes.length : Nat) : Int) < g.contentLength) := by
    rw [hlen]
    simp only [List.length_append]
    omega
  have hstep : feedStep (h.bytes ++ (body ++ extra), eof) (atBody isHead g .length h.bytes.length) =
      .inr ({ atBody isHead g .length h.bytes.length with
        bodyLen := g.contentLength.toNat, phase := .done }, .done) := if_neg henough
  dsimp only
  rw [run_enters _ he hstep]
  refine ⟨rfl, ?_⟩
  change ((h.bytes ++ (body ++ extra)).drop h.bytes.length).take g.contentLength.toNat = body
  rw [List.drop_left, hlen, Int.toNat_natCast, List.take_left]

theorem run_part_length {g : Fields} {body r : Bytes} (he : h.Enters isHead g .length)
    (hlen : g.contentLength = body.length) (hr : r <+: body) (hne : r ≠ body) :
    (feed.run (h.bytes ++ r, true) (.reset isHead)).2 = .error := by
  have hshort : r.length < body.length := by
    rcases Nat.lt_or_ge r.length body.length with hlt | hge
    · exact hlt
    · exact absurd (hr.eq_of_length (Nat.le_antisymm hr.length_le hge)) hne
  have hless : (((h.bytes ++ r).length - h.bytes.length : Nat) : Int) < g.contentLength := by
    rw [hlen]
    simp only [List.length_append]
    omega
  have hstep : feedStep (h.bytes ++ r, true) (atBody isHead g .length h.bytes.length) =
      .inr ({ atBody isHead g .length h.bytes.length with
        error := some "eof before content-length satisfied" }, .error) := (if_pos hless).trans (if_pos rfl)
  rw [run_enters _ he hstep]

/-- At the end of the stream a part of the header block is an error. -/
theorem run_part_header (hS : S <+: h.bytes) (hlt : S.length < h.bytes.length) :
    (feed.run (S, true) (.reset isHead)).2 = .error := by
  have hnone : find (crlf ++ crlf) S (ResponseParser.reset isHead).from = none := by
    rw [from_eq]
    change find blank S 0 = none
    cases hf : find blank S 0 with
    | none => rfl
    | some e =>
      obtain ⟨t, ht⟩ := hS
      have hends := find_append t hf
      rw [ht, h.ends] at hends
      have hb := (find_bounds hf).2
      have := Option.some.inj hends
      have := h.length_bytes
      rw [show blank.length = 4 from rfl] at hb
      omega
  have hstep : ∃ q, feedStep (S, true) (.reset isHead) = .inr (q, .error) := by
    unfold feedStep
    dsimp only [ResponseParser.reset] at hnone ⊢
    rw [hnone]
    dsimp only
    split
    · exact ⟨_, rfl⟩
    · exact ⟨_, rfl⟩
  obtain ⟨q, hq⟩ := hstep
  rw [feed_inr hq]

theorem run_whole {message body : Bytes} (hf : Framed h isHead message body) (extra : Bytes) (eof : Bool) :
    let v := view (message ++ extra, eof) (feed.run (message ++ extra, eof) (.reset isHead))
    v.result = .done ∧ v.body = body := by
  cases hf with
  | chunked chunks t hc =>
    obtain ⟨g, he⟩ := hc.enters
    rw [List.append_assoc]
    exact run_body_chunked he chunks t extra eof
  | length body hl =>
    obtain ⟨g, hlen, he⟩ := hl.enters
    rw [List.append_assoc]
    exact run_body_length he hlen extra eof

theorem run_part_error {message body : Bytes} (hf : Framed h isHead message body) (hS : S <+: message)
    (hne : S ≠ message) : (feed.run (S, true) (.reset isHead)).2 = .error := by
  cases hf with
  | chunked chunks t hc =>
    rcases part_of_block hS with ⟨hlt, hpart⟩ | ⟨r, hr, rfl⟩
    · exact run_part_header hpart hlt
    · obtain ⟨g, he⟩ := hc.enters
      exact run_part_chunked he hr fun h => hne (by rw [h])
  | length body hl =>
    rcases part_of_block hS with ⟨hlt, hpart⟩ | ⟨r, hr, rfl⟩
    · exact run_part_header hpart hlt
    · obtain ⟨g, hlen, he⟩ := hl.enters
      exact run_part_length he hlen hr fun h => hne (by rw [h])

end Answer

/-- **Body framing is exact.** However a stream comes in pieces: a message that says where it ends gives
its body, whatever follows it, and no part of it is taken for a message; a response that does not
say gives what comes before the end of the stream; one without a body gives none. -/
theorem body_framing (h : HeaderBlock) (isHead : Bool) :
    (∀ message body extra pieces last eof, Framed h isHead message body → Admitted h pieces →
      pieces.flatten ++ last = message ++ extra →
      (answer isHead pieces last eof).result = .done ∧ (answer isHead pieces last eof).body = body) ∧
    (∀ message body S pieces last, Framed h isHead message body → Admitted h pieces →
      pieces.flatten ++ last = S → S <+: message → S ≠ message →
      (answer isHead pieces last true).result = .error) ∧
    (∀ body pieces last, h.UntilClose isHead → Admitted h pieces →
      pieces.flatten ++ last = h.bytes ++ body →
      (answer isHead pieces last true).result = .done ∧ (answer isHead pieces last true).body = body ∧
        (answer isHead pieces last false).result = .needMore) ∧
    ∀ rest pieces last eof, (isHead = true ∨ h.code = 204 ∨ h.code = 304) → Admitted h pieces →
      pieces.flatten ++ last = h.bytes ++ rest →
      (answer isHead pieces last eof).result = .done ∧ (answer isHead pieces last eof).body = [] := by
  refine ⟨?_, ?_, ?_, ?_⟩
  · intro message body extra pieces last eof hf hadm hpieces
    have hpart : message ++ extra <+: h.bytes ++ (message ++ extra).drop h.bytes.length := by
      cases hf <;> simp only [List.append_assoc, List.drop_left, List.prefix_refl]
    rw [answer_eq isHead hpart hpieces hadm]
    exact run_whole hf extra eof
  · intro message body S pieces last hf hadm hpieces hS hne
    have hpart : S <+: h.bytes ++ message.drop h.bytes.length := by
      cases hf <;> rwa [List.drop_left]
    rw [answer_eq isHead hpart hpieces hadm]
    exact run_part_error hf hS hne
  · intro body pieces last hu hadm hpieces
    obtain ⟨g, he⟩ := hu.enters
    have hanswer := answer_eq isHead (List.prefix_refl _) hpieces hadm
    rw [hanswer true, hanswer false, run_enters true he rfl, run_enters false he rfl]
    refine ⟨rfl, ?_, rfl⟩
    change ((h.bytes ++ body).drop h.bytes.length).take ((h.bytes ++ body).length - h.bytes.length) = body
    rw [List.drop_left, List.length_append, Nat.add_sub_cancel_left, List.take_length]
  · intro rest pieces last eof hb hadm hpieces
    have hbodyless : bodyless isHead h.code = true := by
      rcases hb with rfl | hc | hc
      · rfl
      · simp [bodyless, hc]
      · simp [bodyless, hc]
    obtain ⟨g, he⟩ := h.enters_done hbodyless
    rw [answer_eq isHead (List.prefix_refl _) hpieces hadm, run_enters _ he rfl]
    exact ⟨rfl, rfl⟩

/-- The header block of a chunked response. -/
def chunkedHeader : HeaderBlock where
  bytes := lit "HTTP/1.1 200 OK\r\nTransfer-Encoding: chunked\r\n\r\n"
  code := 200
  settings := [.chunked]
  ends := by decide
  status := by decide
  good := by decide
  final := by decide

def hello : Chunk where
  data := lit "hello"
  size :=
    { digits := lit "005", ext := some (lit " a=\r"), value := by decide, ne_nil := by decide,
      length_le := by decide, oneLine := fun e he => by obtain rfl := Option.some.inj he; unfold OneLine; decide }
  ne_nil := by decide
  length_le := by decide

def noMore : Trailer where
  size := { digits := lit "0", ext := none, value := by decide, ne_nil := by decide,
            length_le := by decide, oneLine := nofun }
  lines := [lit "X: y"]
  lines_ok := by unfold OneLine; decide

/-- Two chunks and the beginning of another response, in two pieces. -/
theorem body_framing_hello :
    (answer false [lit "HTTP/1.1 200 OK\r\nTransfer-Enc"]
      (lit "oding: chunked\r\n\r\n" ++ hello.wire ++ hello.wire ++ noMore.wire ++ lit "HTTP/1.1 2") false).body =
        lit "hellohello" := by
  have hframed : Framed chunkedHeader false
      (chunkedHeader.bytes ++ chunkedWire [hello, hello] noMore) (lit "hellohello") :=
    .chunked [hello, hello] noMore ⟨by decide, by decide⟩
  refine ((body_framing chunkedHeader false).1 _ _ (lit "HTTP/1.1 2") _ _ _ hframed (.inr (by decide)) ?_).2
  decide

end Stok.Net
