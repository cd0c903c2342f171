import Mathlib
import Stok.Core.Ascii
import Stok.Lib.Resume

/-!
# The incremental response parser (`net/http.cpp`)

`ResponseParser::feed` is called with the whole receive buffer each time bytes arrive and resumes
where it stopped. `Fields` is what the header lines set; the other members of the parser are its
resumable positions. A position never passes the end of a buffer that only grows, so the sizes
are naturals. The loops of `parse_chunked` and `feed` are total: each round moves a position.
-/

namespace Stok.Net

open Stok.Lib

inductive Result where
  | needMore | done | error
  deriving DecidableEq, Repr

inductive Phase where
  | headers | length | chunked | untilClose | done
  deriving DecidableEq, Repr

inductive ChunkState where
  | size | data | dataCrlf | trailer
  deriving DecidableEq, Repr

/-- What the status line and the header lines set. -/
structure Fields where
  status : Int := 0
  keepAlive : Bool := true
  keepAliveTimeoutS : Int := -1
  gzip : Bool := false
  deflate : Bool := false
  etag : Bytes := []
  lastModified : Bytes := []
  location : Bytes := []
  contentType : Bytes := []
  contentLength : Int := -1
  deriving DecidableEq, Repr

structure ResponseParser where
  fields : Fields := {}
  error : Option String := none
  phase : Phase := .headers
  head : Bool := false
  scan : Nat := 0
  bodyStart : Nat := 0
  cs : ChunkState := .size
  cpos : Nat := 0
  chunkLeft : Nat := 0
  dechunked : Bytes := []
  useDechunked : Bool := false
  bodyLen : Nat := 0
  deriving DecidableEq, Repr

namespace ResponseParser

def reset (headRequest : Bool) : ResponseParser := { head := headRequest }

/-- The body, in the buffer `s` of the last call. -/
def body (p : ResponseParser) (s : Bytes) : Bytes :=
  if p.useDechunked then p.dechunked else (s.drop p.bodyStart).take p.bodyLen

end ResponseParser

def crlf : Bytes := [13, 10]

/-- The pieces of `s` between line ends, when `cur`, in reverse, has been read of the first; no
piece for what follows the last line end if that is empty. -/
def crlfLinesFrom : Bytes → Bytes → List Bytes
  | [], [] => []
  | cur, [] => [cur.reverse]
  | cur, c :: s =>
    match c, s with
    | 13, 10 :: s => cur.reverse :: crlfLinesFrom [] s
    | c, s => crlfLinesFrom (c :: cur) s

def crlfLines (s : Bytes) : List Bytes := crlfLinesFrom [] s

/-- The `timeout=` parameter of a `Keep-Alive` header. -/
def keepAliveTimeout (value : Bytes) : Option Int :=
  match ifind value (lit "timeout=") with
  | none => none
  | some t => parseI32 ((value.drop (t + 8)).takeWhile isDigit)

/-- One header line; the flag is `chunked`. -/
def headerLine (h : Bytes) (f : Fields) (chunked : Bool) : Except String (Fields × Bool) :=
  match h.idxOf? (ch ':') with
  | none => .ok (f, chunked)
  | some colon =>
    let name := trim (h.take colon)
    let value := trim (h.drop (colon + 1))
    let c := toLower (name.headD (ch ' '))
    if c = ch 'c' then
      if iequals name (lit "content-length") then
        match parseI64 value with
        | some n => if n < 0 then .error "bad content-length" else .ok ({ f with contentLength := n }, chunked)
        | none => .error "bad content-length"
      else if iequals name (lit "content-encoding") then
        if (ifind value (lit "gzip")).isSome then .ok ({ f with gzip := true }, chunked)
        else if (ifind value (lit "deflate")).isSome then .ok ({ f with deflate := true }, chunked)
        else .ok (f, chunked)
      else if iequals name (lit "connection") then
        if (ifind value (lit "close")).isSome then .ok ({ f with keepAlive := false }, chunked)
        else if (ifind value (lit "keep-alive")).isSome then .ok ({ f with keepAlive := true }, chunked)
        else .ok (f, chunked)
      else if iequals name (lit "content-type") then .ok ({ f with contentType := value }, chunked)
      else .ok (f, chunked)
    else if c = ch 't' then
      if iequals name (lit "transfer-encoding") && (ifind value (lit "chunked")).isSome then .ok (f, true)
      else .ok (f, chunked)
    else if c = ch 'e' then
      if iequals name (lit "etag") then .ok ({ f with etag := value }, chunked) else .ok (f, chunked)
    else if c = ch 'l' then
      if iequals name (lit "last-modified") then .ok ({ f with lastModified := value }, chunked)
      else if iequals name (lit "location") then .ok ({ f with location := value }, chunked)
      else .ok (f, chunked)
    else if c = ch 'k' then
      if iequals name (lit "keep-alive") then
        match keepAliveTimeout value with
        | some v => .ok ({ f with keepAliveTimeoutS := v }, chunked)
        | none => .ok (f, chunked)
      else .ok (f, chunked)
    else .ok (f, chunked)

/-- The header lines in turn. A bad line stops the loop and leaves what the lines before it set. -/
def headerLines : List Bytes → Fields → Bool → Fields × Except String Bool
  | [], f, chunked => (f, .ok chunked)
  | h :: rest, f, chunked =>
    match headerLine h f chunked with
    | .error msg => (f, .error msg)
    | .ok (f, chunked) => headerLines rest f chunked

/-- The status line: the code, or why it is bad. `keep_alive` is set once the version is read. -/
def statusLine (line : Bytes) (f : Fields) : Fields × Except String Unit :=
  if !istartsWith line (lit "http/1.") then (f, .error "bad status line")
  else
    let http10 := line.length > 7 && byteAt line 7 == ch '0'
    let f := { f with keepAlive := !http10 }
    match line.idxOf? (ch ' ') with
    | none => (f, .error "bad status line")
    | some sp =>
      if sp + 4 > line.length then (f, .error "bad status line")
      else
        match parseI32 ((line.drop (sp + 1)).take 3) with
        | none => (f, .error "bad status code")
        | some code => ({ f with status := code }, .ok ())

/-- How the body is delimited, when the header block is good. -/
def parseHeaders (isHead : Bool) (f : Fields) (block : Bytes) : Fields × Except String Phase :=
  let ls := crlfLines block
  match statusLine (ls.headD []) f with
  | (f, .error msg) => (f, .error msg)
  | (f, .ok ()) =>
    match headerLines ls.tail f false with
    | (f, .error msg) => (f, .error msg)
    | (f, .ok chunked) =>
      if isHead || f.status = 204 || f.status = 304 || (f.status ≥ 100 && f.status < 200) then
        (f, .ok .done)
      else if chunked then (f, .ok .chunked)
      else if f.contentLength ≥ 0 then (f, .ok .length)
      else ({ f with keepAlive := false }, .ok .untilClose)

def hexDigitValue (c : UInt8) : Option Nat :=
  if isDigit c then some (c.toNat - 48)
  else if ch 'a' ≤ c ∧ c ≤ ch 'f' then some (c.toNat - 97 + 10)
  else if ch 'A' ≤ c ∧ c ≤ ch 'F' then some (c.toNat - 65 + 10)
  else none

/-- A chunk-size line without its line end. -/
def chunkSize (line : Bytes) : Except String Nat :=
  let line := trim (line.takeWhile (· ≠ ch ';'))
  if line.isEmpty || line.length > 12 then .error "bad chunk size"
  else
    match line.foldlM (fun size c => (hexDigitValue c).map fun d => size * 16 + d) 0 with
    | none => .error "bad chunk size"
    | some size => if size > 536870912 then .error "chunk too large" else .ok size

/-- Move what there is of the chunk's data to the body. -/
def ResponseParser.takeData (s : Bytes) (p : ResponseParser) : ResponseParser :=
  let take := min (s.length - p.cpos) p.chunkLeft
  { p with dechunked := p.dechunked ++ (s.drop p.cpos).take take, cpos := p.cpos + take,
           chunkLeft := p.chunkLeft - take }

/-- One round of `parse_chunked`. -/
def chunkStep (s : Bytes) (p : ResponseParser) : ResponseParser ⊕ ResponseParser × Result :=
  match p.cs with
  | .size =>
    match find crlf s p.cpos with
    | none => .inr (p, .needMore)
    | some e =>
      match chunkSize ((s.drop p.cpos).take (e - p.cpos)) with
      | .error msg => .inr ({ p with error := some msg }, .error)
      | .ok size =>
        if size = 0 then .inl { p with cpos := e + 2, cs := .trailer }
        else .inl { p with cpos := e + 2, chunkLeft := size, cs := .data }
  | .data =>
    if (p.takeData s).chunkLeft > 0 then .inr (p.takeData s, .needMore)
    else .inl { p.takeData s with cs := .dataCrlf }
  | .dataCrlf =>
    if s.length - p.cpos < 2 then .inr (p, .needMore)
    else if byteAt s p.cpos ≠ 13 ∨ byteAt s (p.cpos + 1) ≠ 10 then
      .inr ({ p with error := some "missing chunk CRLF" }, .error)
    else .inl { p with cpos := p.cpos + 2, cs := .size }
  | .trailer =>
    match find crlf s p.cpos with
    | none => .inr (p, .needMore)
    | some e =>
      if e = p.cpos then .inr ({ p with cpos := e + 2, phase := .done }, .done)
      else .inl { p with cpos := e + 2 }

theorem chunkStep_decreasing (s : Bytes) (p q : ResponseParser) (h : chunkStep s p = .inl q) :
    2 * (s.length - q.cpos) + (if q.cs = .data then 1 else 0) <
      2 * (s.length - p.cpos) + (if p.cs = .data then 1 else 0) := by
  unfold chunkStep at h
  split at h
  · rename_i hcs
    split at h
    · cases h
    · rename_i e he
      have hb := find_bounds he
      have hl : crlf.length = 2 := rfl
      split at h
      · cases h
      · split at h <;> cases h
        · simp only [hcs, reduceCtorEq, if_false]
          omega
        · simp only [hcs, reduceCtorEq, if_true, if_false]
          omega
  · rename_i hcs
    split at h <;> cases h
    simp only [hcs, ResponseParser.takeData, reduceCtorEq, if_true, if_false]
    omega
  · rename_i hcs
    split at h
    · cases h
    · split at h <;> cases h
      simp only [hcs, reduceCtorEq, if_false]
      omega
  · rename_i hcs
    split at h
    · cases h
    · rename_i e he
      have hb := find_bounds he
      have hl : crlf.length = 2 := rfl
      split at h <;> cases h
      simp only [hcs, reduceCtorEq, if_false]
      omega

/-- `ResponseParser::parse_chunked`. -/
def parseChunked : Loop Bytes ResponseParser Result where
  step := chunkStep
  measure s p := 2 * (s.length - p.cpos) + if p.cs = .data then 1 else 0
  decreasing := chunkStep_decreasing

/-- A good header block that announces another one. -/
def Fields.interim (f : Fields) : Bool := f.status ≥ 100 && f.status < 200 && f.status ≠ 101

def headerLimit : Nat := 2 ^ 20

/-- Where the search for the end of the header block starts. -/
def ResponseParser.from (p : ResponseParser) : Nat := if p.scan > 3 then p.scan - 3 else 0

theorem from_eq (p : ResponseParser) : p.from = p.scan - 3 := by
  unfold ResponseParser.from
  split <;> omega

/-- What `feed` does with the result of `parse_headers` on the block that ends at `e`. -/
def ResponseParser.afterHeaders (p : ResponseParser) (e : Nat) :
    Fields × Except String Phase → ResponseParser ⊕ ResponseParser × Result
  | (f, .error msg) => .inr ({ p with fields := f, error := some msg }, .error)
  | (f, .ok phase) =>
    let p := { p with fields := f, phase := phase, bodyStart := e + 4,
                      useDechunked := p.useDechunked || phase == Phase.chunked }
    if f.interim then .inl { p with phase := .headers, scan := e + 4 }
    else .inl { p with cpos := e + 4 }

def ResponseParser.onHeaders (p : ResponseParser) (s : Bytes) (e : Nat) :
    ResponseParser ⊕ ResponseParser × Result :=
  p.afterHeaders e (parseHeaders p.head p.fields ((s.drop p.bodyStart).take (e + 2 - p.bodyStart)))

/-- One round of `feed` on the buffer `s`. -/
def feedStep (i : Bytes × Bool) (p : ResponseParser) : ResponseParser ⊕ ResponseParser × Result :=
  let (s, eof) := i
  match p.phase with
  | .headers =>
    match find (crlf ++ crlf) s p.from with
    | none =>
      let p := { p with scan := s.length }
      if s.length > headerLimit then .inr ({ p with error := some "headers too large" }, .error)
      else if eof then .inr ({ p with error := some "eof in headers" }, .error)
      else .inr (p, .needMore)
    | some e => p.onHeaders s e
  | .length =>
    let have_ := s.length - p.bodyStart
    if (have_ : Int) < p.fields.contentLength then
      if eof then .inr ({ p with error := some "eof before content-length satisfied" }, .error)
      else .inr (p, .needMore)
    else .inr ({ p with bodyLen := p.fields.contentLength.toNat, phase := .done }, .done)
  | .chunked =>
    let (p, r) := parseChunked.run s p
    if r = .needMore ∧ eof then .inr ({ p with error := some "eof inside chunked body" }, .error)
    else .inr (p, r)
  | .untilClose =>
    if !eof then .inr (p, .needMore)
    else .inr ({ p with bodyLen := s.length - p.bodyStart, phase := .done }, .done)
  | .done => .inr (p, .done)

theorem parseHeaders_phase {isHead : Bool} {f f' : Fields} {block : Bytes} {phase : Phase}
    (h : parseHeaders isHead f block = (f', .ok phase)) : phase ≠ .headers := by
  unfold parseHeaders at h
  simp only at h
  split at h
  · cases h
  · split at h
    · cases h
    · split_ifs at h <;> cases h <;> decide

/-- A round that read a header block goes on to the body or to the next block. -/
theorem onHeaders_inl {s : Bytes} {e : Nat} {p q : ResponseParser} (h : p.onHeaders s e = .inl q) :
    q.phase ≠ .headers ∨ q.scan = e + 4 := by
  unfold ResponseParser.onHeaders at h
  rcases hr : parseHeaders p.head p.fields ((s.drop p.bodyStart).take (e + 2 - p.bodyStart)) with
    ⟨f, msg | phase⟩ <;> rw [hr, ResponseParser.afterHeaders] at h
  · cases h
  · simp only at h
    split at h <;> cases h
    · exact .inr rfl
    · exact .inl (parseHeaders_phase hr)

theorem feedStep_decreasing (i : Bytes × Bool) (p q : ResponseParser) (h : feedStep i p = .inl q) :
    (if q.phase = .headers then i.1.length + 2 - q.scan else 0) <
      (if p.phase = .headers then i.1.length + 2 - p.scan else 0) := by
  unfold feedStep at h
  simp only at h
  split at h
  · rename_i hp
    split at h
    · split_ifs at h
    · rename_i e he
      have hb := find_bounds he
      have hl : (crlf ++ crlf).length = 4 := rfl
      rw [from_eq] at hb
      rw [if_pos hp]
      split
      · rename_i hq
        have hscan := (onHeaders_inl h).resolve_left (not_not_intro hq)
        omega
      · omega
  · split_ifs at h
  · split_ifs at h
  · split_ifs at h
  · cases h

/-- `ResponseParser::feed`. -/
def feed : Loop (Bytes × Bool) ResponseParser Result where
  step := feedStep
  measure i p := if p.phase = .headers then i.1.length + 2 - p.scan else 0
  decreasing := feedStep_decreasing

/-- What a caller sees of an answer. -/
structure View where
  result : Result
  fields : Fields
  error : Option String
  body : Bytes
  deriving DecidableEq, Repr

def view (i : Bytes × Bool) (a : ResponseParser × Result) : View :=
  { result := a.2, fields := a.1.fields, error := a.1.error, body := a.1.body i.1 }

end Stok.Net
