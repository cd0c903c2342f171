import Stok.Market.ItchEncode
import Stok.Market.ItchFile

/-!
# The buffer of `ItchFileReader` (`market/sources.hpp`, `market/sources.cpp`)

`Buffered` is the reader with the whole of `buf_` and the two offsets into it. `none` is a read
outside of the filled part of the buffer. `view` forgets everything but the bytes between the
offsets: what is left is the `Reader`, and the calls of the one are the calls of the other, with no
such read.
-/

namespace Stok

namespace ItchFile

open Itch

structure Buffered (H : Type) where
  handler : H
  buf : Bytes
  pos : Nat := 0
  len : Nat := 0
  src : Bytes
  eof : Bool := false
  reads : Nat := 0
  st : Stats := {}
  /-- The messages handed to `itch::decode`. -/
  out : List Bytes := []

section

variable {H : Type} (on : H → Msg → H) (piece : Nat → Nat)

/-- `open` -/
def openFile (h0 : H) (file : Bytes) : Buffered H := { handler := h0, buf := List.replicate kBuf 0, src := file }

/-- `len_ - pos_` -/
def Buffered.left (r : Buffered H) : Nat := sub64 r.len r.pos

/-- A byte of the filled part. -/
def Buffered.byte (r : Buffered H) (i : Nat) : Option UInt8 := if i < r.len then r.buf[i]? else none

/-- `memmove(buf, buf + i, n)` -/
def memmove (buf : Bytes) (i n : Nat) : Bytes := (buf.drop i).take n ++ buf.drop n

/-- After a `gzread` that gave `n` bytes, stored at `len_`. -/
def Buffered.stored (r : Buffered H) (n : Nat) : Buffered H :=
  { r with
    reads := r.reads + 1
    buf := r.buf.take r.len ++ r.src.take n ++ r.buf.drop (r.len + n)
    src := r.src.drop n }

def gzread (r : Buffered H) : Buffered H × Nat :=
  let n := min (max 1 (piece r.reads)) (min (r.buf.length - r.len) r.src.length)
  (r.stored n, n)

def fillLoop : Nat → Buffered H → Buffered H
  | 0, r => r
  | fuel + 1, r =>
    if r.len < r.buf.length then
      let (r, n) := gzread piece r
      if n = 0 then { r with eof := true }
      else fillLoop fuel { r with len := r.len + n }
    else r

/-- Move the partial message to the front. -/
def Buffered.slid (r : Buffered H) : Buffered H :=
  { r with
    buf := if r.left ≠ 0 ∧ r.pos ≠ 0 then memmove r.buf r.pos r.left else r.buf
    pos := 0
    len := r.left }

/-- `refill` -/
def fill (r : Buffered H) : Option (Buffered H × Bool) :=
  if r.eof then some (r, false)
  else if r.left ≠ 0 ∧ r.pos ≠ 0 ∧ r.len < r.pos + r.left then none
  else
    let rem := r.left
    let r := fillLoop piece (r.src.length + 1) r.slid
    some (r, rem < r.len || 2 ≤ rem)

/-- The bytes from `pos_` on are less than a message. -/
def Buffered.short (r : Buffered H) : Option Bool := do
  if r.left < 2 then return true
  let mlen ← be16Mem r.byte r.pos
  return r.left < 2 + mlen.toNat

def ready (r : Buffered H) : Option (Buffered H × Bool) := do
  if ← r.short then
    let (r, ok) ← fill piece r
    if !ok then return (r, false)
    return (r, !(← r.short))
  else return (r, true)

/-- Past a message of `mlen` bytes, decoded as `m`. -/
def Buffered.passed (r : Buffered H) (mlen : Nat) (m : Option Msg) : Buffered H :=
  { r with
    pos := r.pos + (2 + mlen)
    out := r.out ++ [(r.buf.drop (r.pos + 2)).take mlen]
    handler := match m with
      | some m => on r.handler m
      | none => r.handler
    st :=
      { messages := r.st.messages + 1
        bytes := r.st.bytes + 2 + mlen
        bad := if m.isNone then r.st.bad + 1 else r.st.bad } }

def deliver (r : Buffered H) : Option (Buffered H) := do
  let mlen ← be16Mem r.byte r.pos
  let m ← decodeMem (fun i => r.byte (r.pos + 2 + i)) mlen.toNat
  return r.passed on mlen.toNat m

def callLoop (maxMessages : Nat) : Nat → Nat → Buffered H → Option (Buffered H × Bool)
  | 0, _, r => some (r, false)
  | fuel + 1, n, r => do
    match ← ready piece r with
    | (r, false) => return (r, false)
    | (r, true) =>
      let r ← deliver on r
      if maxMessages ≠ 0 ∧ maxMessages ≤ n + 1 then return (r, true)
      else callLoop maxMessages fuel (n + 1) r

/-- `run` -/
def call (r : Buffered H) (maxMessages : Nat) : Option (Buffered H × Bool) :=
  callLoop on piece maxMessages (r.left + r.src.length + 1) 0 r

/-- Calls of `run`, one for each limit, up to the one that returns false. -/
def calls : List Nat → Buffered H → Option (Buffered H × Bool)
  | [], r => some (r, true)
  | m :: ms, r => do
    match ← call on piece r m with
    | (r, false) => return (r, false)
    | (r, true) => calls ms r

end

/-! ## The offsets stay in the buffer -/

variable {H : Type}

structure Buffered.Fits (r : Buffered H) : Prop where
  size : r.buf.length = kBuf
  pos_le : r.pos ≤ r.len
  len_le : r.len ≤ kBuf

/-- The bytes that wait to be read. -/
def Buffered.window (r : Buffered H) : Bytes := (r.buf.drop r.pos).take (r.len - r.pos)

def Buffered.view (r : Buffered H) : Reader H :=
  { handler := r.handler, buf := r.window, src := r.src, eof := r.eof, reads := r.reads, st := r.st, out := r.out }

namespace Buffered

variable {r : Buffered H} (h : r.Fits)

include h

theorem Fits.window_length : r.window.length = r.len - r.pos := by
  have := h.size
  have := h.len_le
  rw [window, List.length_take, List.length_drop]
  omega

theorem Fits.left_eq : r.left = r.window.length := by
  have hk : kBuf < 2 ^ 64 := by decide
  have := h.len_le
  rw [h.window_length, left, sub64_eq (by omega) h.pos_le]

theorem Fits.byte_eq {i : Nat} (hi : i < r.window.length) : r.byte (r.pos + i) = some (byteAt r.window i) := by
  have hlen := h.window_length
  have hlt : r.pos + i < r.len := by omega
  have hbuf : r.pos + i < r.buf.length := by
    have := h.size
    have := h.len_le
    omega
  rw [byte, if_pos hlt, List.getElem?_eq_getElem hbuf, byteAt, List.getD_eq_getElem _ _ hi]
  simp only [window, List.getElem_take, List.getElem_drop]

theorem Fits.be16_eq (h2 : 2 ≤ r.window.length) : be16Mem r.byte r.pos = some (be16 r.window 0) :=
  @be16Mem_eq (fun i => r.byte (r.pos + i)) r.window 0 (fun _ hi => h.byte_eq hi) h2

theorem Fits.short_eq : r.short = some (ItchFile.short r.window) := by
  unfold short ItchFile.short
  rw [h.left_eq]
  by_cases h2 : r.window.length < 2
  · simp [h2]
  · rw [if_neg h2, h.be16_eq (by omega)]
    simp [h2]

/-- The bytes of the message at `pos_`, where `itch::decode` reads them. -/
theorem Fits.deliver_eq (on : H → Msg → H) (hs : ItchFile.short r.window = false) :
    ∃ r', deliver on r = some r' ∧ r'.Fits ∧ r'.view = take on r.view := by
  have hle := short_false hs
  have hbe : be16Mem r.byte r.pos = some (be16 r.window 0) := h.be16_eq (by omega)
  have hlen := h.window_length
  generalize hm : (be16 r.window 0).toNat = mlen at hle
  let msg := (r.window.drop 2).take mlen
  have hmsg : msg.length = mlen := by
    rw [List.length_take, List.length_drop]
    omega
  have hslice : (r.buf.drop (r.pos + 2)).take mlen = msg := by
    show _ = (r.window.drop 2).take mlen
    rw [window, List.drop_take, List.drop_drop, List.take_take, min_eq_left (by omega)]
  have hdec : decodeMem (fun i => r.byte (r.pos + 2 + i)) mlen = some (decode msg) := by
    rw [← hmsg]
    refine decodeMem_eq fun i hi => ?_
    have hi' : 2 + i < r.window.length := by omega
    rw [Nat.add_assoc, h.byte_eq hi', byteAt, byteAt, List.getD_eq_getElem _ _ hi', List.getD_eq_getElem _ _ hi]
    simp only [msg, List.getElem_take, List.getElem_drop]
  have hwin : (r.buf.drop (r.pos + (2 + mlen))).take (r.len - (r.pos + (2 + mlen))) = r.window.drop (2 + mlen) := by
    rw [window, List.drop_take, List.drop_drop, Nat.sub_sub]
  refine ⟨r.passed on mlen (decode msg), ?_, ⟨h.size, ?_, h.len_le⟩, ?_⟩
  · unfold deliver
    rw [hbe]
    simp only [Option.bind_eq_bind, Option.bind_some, hm, hdec]
    rfl
  · show r.pos + (2 + mlen) ≤ r.len
    omega
  · have hout : (r.passed on mlen (decode msg)).out = r.out ++ [msg] := congrArg (fun m => r.out ++ [m]) hslice
    have hhandler : (r.passed on mlen (decode msg)).handler = feed on r.handler msg := by
      unfold passed feed
      cases decode msg <;> rfl
    have hbuf : (r.passed on mlen (decode msg)).window = r.window.drop (2 + mlen) := hwin
    unfold take
    rw [view, hout, hhandler, hbuf, show (be16 r.view.buf 0).toNat = mlen from hm]
    rfl

end Buffered

/-! ## Refilling -/

section Filling

variable {r : Buffered H} (piece : Nat → Nat)

theorem memmove_length {buf : Bytes} {i n : Nat} (h : i + n ≤ buf.length) : (memmove buf i n).length = buf.length := by
  rw [memmove, List.length_append, List.length_take, List.length_drop, List.length_drop]
  omega

theorem memmove_take {buf : Bytes} {i n : Nat} (h : i + n ≤ buf.length) : (memmove buf i n).take n = (buf.drop i).take n := by
  have hlen : ((buf.drop i).take n).length = n := by
    rw [List.length_take, List.length_drop]
    omega
  rw [memmove, List.take_append_of_le_length hlen.ge, List.take_of_length_le hlen.le]

theorem Buffered.Fits.view_length (h : r.Fits) (hpos : r.pos = 0) : r.view.buf.length = r.len := by
  show r.window.length = r.len
  rw [h.window_length, hpos]
  rfl

/-- What `gzread` stores comes behind the bytes that wait. -/
theorem gzread_view (h : r.Fits) (hpos : r.pos = 0) :
    let n := min (max 1 (piece r.view.reads)) (min (kBuf - r.view.buf.length) r.view.src.length)
    ∃ r', gzread piece r = (r', n) ∧ { r' with len := r'.len + n }.Fits ∧ r'.pos = 0 ∧
      { r' with len := r'.len + n }.view =
        { r.view with
          reads := r.view.reads + 1
          buf := r.view.buf ++ r.view.src.take n
          src := r.view.src.drop n } := by
  intro n
  have hn : min (max 1 (piece r.reads)) (min (r.buf.length - r.len) r.src.length) = n := by
    simp only [n, h.view_length hpos, h.size]
    rfl
  have hsize := h.size
  have hroom := h.len_le
  have hsrc : n ≤ r.src.length := by omega
  have hfront : (r.buf.take r.len ++ r.src.take n).length = r.len + n := by
    rw [List.length_append, List.length_take, List.length_take]
    omega
  have hlength : (r.buf.take r.len ++ r.src.take n ++ r.buf.drop (r.len + n)).length = kBuf := by
    rw [List.length_append, hfront, List.length_drop]
    omega
  refine ⟨r.stored n, by rw [gzread, hn], ⟨hlength, ?_, ?_⟩, hpos, ?_⟩
  · show r.pos ≤ r.len + n
    omega
  · show r.len + n ≤ kBuf
    omega
  · have hwin : (r.buf.take r.len ++ r.src.take n ++ r.buf.drop (r.len + n)).take (r.len + n) =
        r.window ++ r.src.take n := by
      rw [List.take_append_of_le_length hfront.ge, List.take_of_length_le hfront.le, Buffered.window, hpos]
      rfl
    have hview : ({ r.stored n with len := r.len + n } : Buffered H).window = r.window ++ r.src.take n := by
      rw [← hwin, Buffered.window]
      show ((_ : Bytes).drop r.pos).take (r.len + n - r.pos) = _
      rw [hpos]
      rfl
    unfold Buffered.view
    exact congrArg (fun buf => Reader.mk r.handler buf (r.src.drop n) r.eof (r.reads + 1) r.st r.out) hview

/-- The loops of the two readers keep step. -/
theorem fillLoop_view (fuel : Nat) (h : r.Fits) (hpos : r.pos = 0) :
    (fillLoop piece fuel r).Fits ∧ (fillLoop piece fuel r).pos = 0 ∧
      (fillLoop piece fuel r).view = refillLoop piece fuel r.view := by
  induction fuel generalizing r with
  | zero => exact ⟨h, hpos, rfl⟩
  | succ fuel ih =>
    rw [fillLoop, refillLoop, h.view_length hpos, ← h.size]
    by_cases hroom : r.len < r.buf.length
    · rw [if_pos hroom, if_pos hroom, h.size, ← h.view_length hpos]
      obtain ⟨r', heq, hfits, hpos', hview⟩ := gzread_view piece h hpos
      rw [heq]
      dsimp only at hview ⊢
      generalize min (max 1 (piece r.view.reads)) (min (kBuf - r.view.buf.length) r.view.src.length) = n at hfits hview ⊢
      by_cases h0 : n = 0
      · rw [if_pos h0, if_pos h0]
        subst h0
        refine ⟨⟨hfits.size, hfits.pos_le, hfits.len_le⟩, hpos', ?_⟩
        rw [List.take_zero, List.append_nil, List.drop_zero] at hview
        exact congrArg (fun v : Reader H => { v with eof := true }) hview
      · rw [if_neg h0, if_neg h0, ← hview]
        exact ih hfits hpos'
    · rw [if_neg hroom, if_neg hroom]
      exact ⟨h, hpos, rfl⟩

theorem slid_view (h : r.Fits) : r.slid.Fits ∧ r.slid.view = r.view := by
  have hleft := h.left_eq
  have hlen := h.window_length
  have hsize := h.size
  have hpos := h.pos_le
  have hle := h.len_le
  have hin : r.pos + r.left ≤ r.buf.length := by omega
  have hmoved : r.slid.buf.length = kBuf ∧ r.slid.buf.take r.left = r.window := by
    have hwin : r.window = (r.buf.drop r.pos).take r.left := by
      rw [hleft, hlen]
      rfl
    unfold Buffered.slid
    dsimp only
    split
    · exact ⟨(memmove_length hin).trans hsize, (memmove_take hin).trans hwin.symm⟩
    · rename_i hstay
      refine ⟨hsize, ?_⟩
      rw [hwin]
      rcases Nat.eq_zero_or_pos r.left with h0 | h0
      · rw [h0, List.take_zero, List.take_zero]
      · have hpos0 : r.pos = 0 := by omega
        rw [hpos0, List.drop_zero]
  refine ⟨⟨hmoved.1, Nat.zero_le _, ?_⟩, ?_⟩
  · show r.left ≤ kBuf
    omega
  · exact congrArg (fun buf => Reader.mk r.handler buf r.src r.eof r.reads r.st r.out) hmoved.2

/-- `refill` reads within the filled part. -/
theorem fill_view (h : r.Fits) :
    ∃ r', fill piece r = some (r', (refill piece r.view).2) ∧ r'.Fits ∧ r'.view = (refill piece r.view).1 := by
  unfold fill refill
  by_cases heof : r.eof
  · rw [if_pos heof, if_pos (show r.view.eof = true from heof)]
    exact ⟨r, rfl, h, rfl⟩
  rw [if_neg heof, if_neg (show ¬ r.view.eof = true from heof)]
  have hleft := h.left_eq
  have hlen := h.window_length
  have hpos := h.pos_le
  rw [if_neg (show ¬ (r.left ≠ 0 ∧ r.pos ≠ 0 ∧ r.len < r.pos + r.left) by omega)]
  obtain ⟨hslid, hview⟩ := slid_view h
  obtain ⟨hfits, hpos0, hloop⟩ := fillLoop_view piece (r.src.length + 1) hslid rfl
  rw [hview] at hloop
  refine ⟨_, ?_, hfits, hloop⟩
  have hlen' := hfits.view_length hpos0
  dsimp only
  rw [← hlen', hloop, hleft]
  rfl

theorem ready_view (h : r.Fits) :
    ∃ r', ready piece r = some (r', (ensure piece r.view).2) ∧ r'.Fits ∧ r'.view = (ensure piece r.view).1 := by
  unfold ready ensure
  rw [h.short_eq, show short r.view.buf = short r.window from rfl]
  cases short r.window with
  | false => exact ⟨r, rfl, h, rfl⟩
  | true =>
    obtain ⟨r', hfill, hfits, hview⟩ := fill_view piece h
    simp only [Option.bind_eq_bind, Option.bind_some, if_true, hfill, hfits.short_eq]
    rw [← hview]
    cases (refill piece r.view).2 with
    | false => exact ⟨r', rfl, hfits, rfl⟩
    | true => exact ⟨r', rfl, hfits, rfl⟩

/-- What `ensure` answers is whether a message can be taken. -/
theorem ensure_whole (r : Reader H) : (ensure piece r).2 = true → short (ensure piece r).1.buf = false := by
  unfold ensure
  split
  · intro hok
    have hok : ((refill piece r).2 && !short (refill piece r).1.buf) = true := hok
    rw [Bool.and_eq_true, Bool.not_eq_true'] at hok
    exact hok.2
  · rename_i hs
    exact fun _ => Bool.not_eq_true _ ▸ hs

theorem callLoop_view (on : H → Msg → H) {maxMessages fuel n : Nat} (h : r.Fits) :
    ∃ r', callLoop on piece maxMessages fuel n r = some (r', (runLoop on piece maxMessages fuel n r.view).2) ∧
      r'.Fits ∧ r'.view = (runLoop on piece maxMessages fuel n r.view).1 := by
  induction fuel generalizing n r with
  | zero => exact ⟨r, rfl, h, rfl⟩
  | succ fuel ih =>
    obtain ⟨r₁, hready, hfits, hview⟩ := ready_view piece h
    have hwhole := ensure_whole piece r.view
    rw [callLoop, runLoop, hready]
    generalize ensure piece r.view = e at hview hwhole ⊢
    obtain ⟨v, ok⟩ := e
    dsimp only at hview hwhole ⊢
    subst hview
    cases ok with
    | false => exact ⟨r₁, rfl, hfits, rfl⟩
    | true =>
      obtain ⟨r₂, hdeliver, hfits₂, hview₂⟩ := hfits.deliver_eq on (hwhole rfl)
      simp only [Option.bind_eq_bind, Option.bind_some, hdeliver]
      rw [← hview₂]
      split
      · exact ⟨r₂, rfl, hfits₂, rfl⟩
      · exact ih hfits₂

theorem call_view (on : H → Msg → H) {maxMessages : Nat} (h : r.Fits) :
    ∃ r', call on piece r maxMessages = some (r', (run on piece r.view maxMessages).2) ∧ r'.Fits ∧
      r'.view = (run on piece r.view maxMessages).1 := by
  unfold call run
  rw [h.left_eq]
  exact callLoop_view piece on h

theorem calls_view (on : H → Msg → H) (ms : List Nat) (h : r.Fits) :
    ∃ r', calls on piece ms r = some (r', (runs on piece ms r.view).2) ∧ r'.Fits ∧
      r'.view = (runs on piece ms r.view).1 := by
  induction ms generalizing r with
  | nil => exact ⟨r, rfl, h, rfl⟩
  | cons m ms ih =>
    obtain ⟨r₁, hcall, hfits, hview⟩ := call_view piece on h
    rw [calls, runs, hcall]
    generalize run on piece r.view m = e at hview ⊢
    obtain ⟨v, ok⟩ := e
    dsimp only at hview ⊢
    subst hview
    cases ok with
    | false => exact ⟨r₁, rfl, hfits, rfl⟩
    | true => exact ih hfits

end Filling

/-! ## The frames of a file -/

/-- A message after its length in two bytes. -/
def framed (msg : Bytes) : Bytes := beBytes 2 msg.length ++ msg

theorem framed_length (msg : Bytes) : (framed msg).length = msg.length + 2 := by
  rw [framed, List.length_append, length_beBytes, Nat.add_comm]

theorem flatMap_framed_length (msgs : List Bytes) :
    (msgs.flatMap framed).length = (msgs.map fun m => m.length + 2).sum := by
  rw [List.length_flatMap]
  exact congrArg List.sum (List.map_congr_left fun m _ => framed_length m)

/-- The front of a text that is not short. -/
theorem framed_front {s : Bytes} (h : short s = false) :
    framed ((s.drop 2).take (be16 s 0).toNat) ++ s.drop (2 + (be16 s 0).toNat) = s := by
  have hle := short_false h
  obtain ⟨a, b, rest, rfl⟩ := two_front (by omega : 2 ≤ s.length)
  have hbe : (be16 (a :: b :: rest) 0).toNat = a.toNat * 256 + b.toNat := by
    have ha := a.toNat_lt
    have hb := b.toNat_lt
    have hnat : beNat (a :: b :: rest) 0 2 = a.toNat * 256 + b.toNat := by simp [beNat, byteAt]
    rw [be16, UInt16.toNat_ofNat', hnat]
    omega
  generalize (be16 (a :: b :: rest) 0).toNat = n at hbe hle
  have hmsg : ((List.drop 2 (a :: b :: rest)).take n).length = n := by
    rw [List.length_take, List.length_drop]
    omega
  have hprefix : beBytes 2 n = [a, b] := by
    have ha : n / 256 % 256 = a.toNat := by
      have := b.toNat_lt
      have := a.toNat_lt
      omega
    have hb : n % 256 = b.toNat := by
      have := b.toNat_lt
      omega
    simp only [beBytes, ha, hb, UInt8.ofNat_toNat]
    rfl
  have hdrop : (a :: b :: rest).drop (2 + n) = rest.drop n := by rw [← List.drop_drop]; rfl
  have htake : (List.drop 2 (a :: b :: rest)).take n = rest.take n := rfl
  rw [framed, hmsg, hprefix, List.append_assoc, hdrop, htake, List.take_append_drop]
  rfl

/-- A file is the frames of its messages and less than a message. -/
theorem messages_framed (s : Bytes) : ∃ tail, s = (messages s).flatMap framed ++ tail ∧ short tail = true := by
  induction hn : s.length using Nat.strong_induction_on generalizing s with
  | _ n ih =>
    cases hs : short s with
    | true => exact ⟨s, by rw [messages_short hs]; rfl, hs⟩
    | false =>
      have hle := short_false hs
      have hlt : (s.drop (2 + (be16 s 0).toNat)).length < n := by
        rw [List.length_drop]
        omega
      obtain ⟨tail, heq, htail⟩ := ih _ hlt _ rfl
      refine ⟨tail, ?_, htail⟩
      rw [messages_cons hs, List.flatMap_cons, List.append_assoc, ← heq, framed_front hs]

section

variable (on : H → Msg → H) (piece : Nat → Nat) {h0 : H} {file : Bytes}

/-- Where the calls stand, whether or not the last one returned false. -/
theorem runs_reads (ms : List Nat) {r : Reader H} (h : Reads on h0 file r) :
    Reads on h0 file (runs on piece ms r).1 ∧
      ((runs on piece ms r).2 = false → (runs on piece ms r).1.out = messages file) := by
  induction ms generalizing r with
  | nil => exact ⟨h, nofun⟩
  | cons m ms ih =>
    obtain ⟨hr, hno, -⟩ := run_spec piece m h
    rw [runs]
    generalize run on piece r m = e at hr hno ⊢
    obtain ⟨r', ok⟩ := e
    cases ok with
    | true => exact ih hr
    | false =>
      refine ⟨hr, fun _ => ?_⟩
      have hrest := hr.rest
      rwa [hno rfl, List.append_nil] at hrest

theorem openFile_fits (h0 : H) (file : Bytes) : (openFile h0 file).Fits where
  size := List.length_replicate
  pos_le := le_rfl
  len_le := Nat.zero_le _

theorem openFile_view (h0 : H) (file : Bytes) : (openFile h0 file).view = { handler := h0, src := file } := by
  unfold Buffered.view
  have hwin : (openFile h0 file).window = [] := by
    show List.take 0 _ = []
    exact List.take_zero
  rw [hwin]
  rfl

/-- Calls of `run` with any limits, `gzread` giving pieces of any size: no read goes outside of the filled part of
the buffer, and the messages handed on are those of the file, each once and in order. -/
theorem calls_exact (h0 : H) (file : Bytes) (ms : List Nat) :
    (∃ tail, file = (messages file).flatMap framed ++ tail ∧ short tail = true) ∧
    ∃ r ok, calls on piece ms (openFile h0 file) = some (r, ok) ∧
      r.out <+: messages file ∧
      r.handler = r.out.foldl (feed on) h0 ∧
      r.st.messages = r.out.length ∧
      r.st.bytes = (r.out.flatMap framed).length ∧
      (ok = false → r.out = messages file) ∧
      ((messages file).length < ms.length → ok = false) := by
  refine ⟨messages_framed file, ?_⟩
  obtain ⟨r, hcalls, -, hview⟩ := calls_view piece on ms (openFile_fits h0 file)
  rw [openFile_view] at hcalls hview
  obtain ⟨hreads, hall⟩ := runs_reads on piece ms (reads_fresh on h0 file)
  rw [← hview] at hreads hall
  refine ⟨r, _, hcalls, ⟨_, hreads.rest⟩, hreads.handler, hreads.count, ?_, hall, fun hms => ?_⟩
  · rw [flatMap_framed_length]
    exact hreads.bytes
  · exact (runs_spec piece ms (reads_fresh on h0 file) (by simpa using hms)).1

end

end ItchFile

end Stok
