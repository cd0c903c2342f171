import Stok.Market.Itch

/-!
# ITCH files (`ItchFileReader` of `market/sources.hpp`)

A file is a sequence of messages, each after its length in two bytes. `Reader` is the reader
with the handler that it feeds: `buf` is the filled part of its buffer from `pos_` on, `src` what
`gzread` has still to give. How many bytes a call of `gzread` gives is up to `piece`, by the
number of the call; it gives none at the end of the file only. `out` records the messages
handed to `itch::decode`. Runs are unpaced and not stopped.
-/

namespace Stok

namespace Itch

/-- `itch::decode` on a handler. -/
def feed {H : Type} (on : H → Msg → H) (h : H) (msg : Bytes) : H :=
  match decode msg with
  | some m => on h m
  | none => h

end Itch

namespace ItchFile

open Itch

/-- `8 << 20` -/
def kBuf : Nat := 8388608

structure Stats where
  messages : Nat := 0
  bad : Nat := 0
  bytes : Nat := 0
  deriving DecidableEq, Repr

structure Reader (H : Type) where
  handler : H
  buf : Bytes := []
  src : Bytes
  eof : Bool := false
  reads : Nat := 0
  st : Stats := {}
  out : List Bytes := []

/-- The buffer does not begin with a whole message. -/
def short (buf : Bytes) : Bool := buf.length < 2 || buf.length < 2 + (be16 buf 0).toNat

section

variable {H : Type} (on : H → Msg → H) (piece : Nat → Nat)

/-- The loop of `refill`: one `gzread` a round. -/
def refillLoop : Nat → Reader H → Reader H
  | 0, r => r
  | fuel + 1, r =>
    if r.buf.length < kBuf then
      let n := min (max 1 (piece r.reads)) (min (kBuf - r.buf.length) r.src.length)
      let r := { r with reads := r.reads + 1 }
      if n = 0 then { r with eof := true }
      else refillLoop fuel { r with buf := r.buf ++ r.src.take n, src := r.src.drop n }
    else r

def refill (r : Reader H) : Reader H × Bool :=
  if r.eof then (r, false)
  else
    let r' := refillLoop piece (r.src.length + 1) r
    (r', r.buf.length < r'.buf.length || 2 ≤ r.buf.length)

/-- Before a message is taken: whether there is a whole one. -/
def ensure (r : Reader H) : Reader H × Bool :=
  if short r.buf then
    let (r, ok) := refill piece r
    (r, ok && !short r.buf)
  else (r, true)

/-- Hands the message at the front of the buffer on. -/
def take (r : Reader H) : Reader H :=
  let mlen := (be16 r.buf 0).toNat
  let msg := (r.buf.drop 2).take mlen
  { r with
    buf := r.buf.drop (2 + mlen)
    out := r.out ++ [msg]
    handler := feed on r.handler msg
    st :=
      { messages := r.st.messages + 1
        bytes := r.st.bytes + 2 + mlen
        bad := if (decode msg).isNone then r.st.bad + 1 else r.st.bad } }

/-- The loop of `run` with `n` messages handled. -/
def runLoop (maxMessages : Nat) : Nat → Nat → Reader H → Reader H × Bool
  | 0, _, r => (r, false)
  | fuel + 1, n, r =>
    match ensure piece r with
    | (r, false) => (r, false)
    | (r, true) =>
      let r := take on r
      if maxMessages ≠ 0 ∧ maxMessages ≤ n + 1 then (r, true)
      else runLoop maxMessages fuel (n + 1) r

/-- `run`: whether it stopped before the end of the file. -/
def run (r : Reader H) (maxMessages : Nat) : Reader H × Bool :=
  runLoop on piece maxMessages (r.buf.length + r.src.length + 1) 0 r

/-- Calls of `run`, one for each limit, up to the one that returns false. -/
def runs : List Nat → Reader H → Reader H × Bool
  | [], r => (r, true)
  | m :: ms, r =>
    match run on piece r m with
    | (r, false) => (r, false)
    | (r, true) => runs ms r

end

/-! ## What is read -/

/-- The messages of a file; an incomplete last one does not count. -/
def messagesFrom : Nat → Bytes → List Bytes
  | 0, _ => []
  | fuel + 1, s =>
    if short s then []
    else
      let mlen := (be16 s 0).toNat
      (s.drop 2).take mlen :: messagesFrom fuel (s.drop (2 + mlen))

def messages (s : Bytes) : List Bytes := messagesFrom s.length s

theorem short_false {s : Bytes} (h : short s = false) : 2 + (be16 s 0).toNat ≤ s.length := by
  simp only [short, Bool.or_eq_false_iff, decide_eq_false_iff_not, not_lt] at h
  exact h.2

theorem short_nil : short [] = true := rfl

theorem messagesFrom_short {s : Bytes} (h : short s = true) (fuel : Nat) :
    messagesFrom fuel s = [] := by
  cases fuel with
  | zero => rfl
  | succ fuel => rw [messagesFrom, if_pos h]

/-- More fuel than bytes changes nothing. -/
theorem messagesFrom_eq {fuel fuel' : Nat} (s : Bytes) (h : s.length ≤ fuel)
    (h' : s.length ≤ fuel') : messagesFrom fuel s = messagesFrom fuel' s := by
  induction fuel generalizing fuel' s with
  | zero =>
    obtain rfl := List.eq_nil_of_length_eq_zero (Nat.le_zero.mp h)
    rw [messagesFrom_short short_nil, messagesFrom_short short_nil]
  | succ fuel ih =>
    cases fuel' with
    | zero =>
      obtain rfl := List.eq_nil_of_length_eq_zero (Nat.le_zero.mp h')
      rw [messagesFrom_short short_nil, messagesFrom_short short_nil]
    | succ fuel' =>
      cases hs : short s with
      | true => rw [messagesFrom_short hs, messagesFrom_short hs]
      | false =>
        have := short_false hs
        rw [messagesFrom, messagesFrom, hs, if_neg Bool.false_ne_true, if_neg Bool.false_ne_true]
        refine congrArg _ (ih _ ?_ ?_)
        · rw [List.length_drop]
          omega
        · rw [List.length_drop]
          omega

theorem messages_short {s : Bytes} (h : short s = true) : messages s = [] :=
  messagesFrom_short h _

theorem messages_cons {s : Bytes} (h : short s = false) :
    messages s = (s.drop 2).take (be16 s 0).toNat :: messages (s.drop (2 + (be16 s 0).toNat)) := by
  have hle := short_false h
  obtain ⟨n, hn⟩ : ∃ n, s.length = n + 1 := ⟨s.length - 1, by omega⟩
  rw [messages, hn, messagesFrom, h, if_neg Bool.false_ne_true, messages]
  refine congrArg _ (messagesFrom_eq _ ?_ le_rfl)
  rw [List.length_drop]
  omega

theorem two_front : ∀ {s : Bytes}, 2 ≤ s.length → ∃ a b rest, s = a :: b :: rest
  | a :: b :: rest, _ => ⟨a, b, rest, rfl⟩

theorem be16_append (buf : Bytes) (h : 2 ≤ buf.length) (src : Bytes) :
    be16 (buf ++ src) 0 = be16 buf 0 := by
  obtain ⟨a, b, rest, rfl⟩ := two_front h
  rfl

theorem messages_append {buf : Bytes} (h : short buf = false) (src : Bytes) :
    messages (buf ++ src) = (buf.drop 2).take (be16 buf 0).toNat ::
      messages (buf.drop (2 + (be16 buf 0).toNat) ++ src) := by
  have hle := short_false h
  have hbe := be16_append buf (by omega) src
  have hshort : short (buf ++ src) = false := by
    simp only [short, Bool.or_eq_false_iff, decide_eq_false_iff_not, not_lt, hbe, List.length_append]
    omega
  rw [messages_cons hshort, hbe, List.drop_append_of_le_length (by omega),
    List.drop_append_of_le_length (by omega), List.take_append_of_le_length]
  rw [List.length_drop]
  omega

section

variable {H : Type} (on : H → Msg → H) (piece : Nat → Nat)

/-- What a refill does: bytes move from the file to the buffer. -/
structure Refilled (r r' : Reader H) : Prop where
  bytes : r'.buf ++ r'.src = r.buf ++ r.src
  grows : r.buf.length ≤ r'.buf.length
  eof : (r.eof = true → r.src = []) → r'.eof = true → r'.src = []
  handler : r'.handler = r.handler
  st : r'.st = r.st
  out : r'.out = r.out

theorem Refilled.refl (r : Reader H) : Refilled r r :=
  ⟨rfl, le_rfl, fun h => h, rfl, rfl, rfl⟩

/-- The loop ends when the file or the room in the buffer does. -/
theorem refillLoop_spec {fuel : Nat} {r : Reader H} (hfuel : r.src.length < fuel) :
    Refilled r (refillLoop piece fuel r) ∧
      ((refillLoop piece fuel r).src = [] ∨ kBuf ≤ (refillLoop piece fuel r).buf.length) := by
  induction fuel generalizing r with
  | zero => exact absurd hfuel (Nat.not_lt_zero _)
  | succ fuel ih =>
    rw [refillLoop]
    split
    · rename_i hroom
      dsimp only
      generalize hn : min (max 1 (piece r.reads)) (min (kBuf - r.buf.length) r.src.length) = n
      split
      · rename_i h0
        have hsrc : r.src = [] := List.eq_nil_of_length_eq_zero (by omega)
        exact ⟨⟨rfl, le_rfl, fun _ _ => hsrc, rfl, rfl, rfl⟩, .inl hsrc⟩
      · rename_i h0
        have hlen : (r.src.drop n).length < fuel := by
          rw [List.length_drop]
          omega
        obtain ⟨href, hend⟩ := ih (r := { r with
          reads := r.reads + 1, buf := r.buf ++ r.src.take n, src := r.src.drop n }) hlen
        refine ⟨⟨?_, ?_, fun heof => href.eof fun he => ?_, href.handler, href.st, href.out⟩, hend⟩
        · rw [href.bytes]
          simp
        · refine le_trans ?_ href.grows
          rw [List.length_append]
          exact Nat.le_add_right _ _
        · show r.src.drop n = []
          rw [heof he, List.drop_nil]
    · exact ⟨.refl r, .inr (Nat.le_of_not_lt ‹_›)⟩

theorem not_short_of_full {buf : Bytes} (h : kBuf ≤ buf.length) : short buf = false := by
  have := (be16 buf 0).toNat_lt
  simp only [kBuf] at h
  simp only [short, Bool.or_eq_false_iff, decide_eq_false_iff_not, not_lt]
  omega

theorem refill_spec {r : Reader H} (heof : r.eof = true → r.src = []) (hshort : short r.buf = true) :
    Refilled r (refill piece r).1 ∧
      ((refill piece r).2 = false → short (refill piece r).1.buf = true) ∧
      (short (refill piece r).1.buf = true →
        messages ((refill piece r).1.buf ++ (refill piece r).1.src) = []) := by
  unfold refill
  split
  · rename_i he
    refine ⟨.refl r, fun _ => hshort, fun _ => ?_⟩
    rw [heof he, List.append_nil]
    exact messages_short hshort
  · obtain ⟨href, hend⟩ := refillLoop_spec piece (Nat.lt_succ_self r.src.length)
    refine ⟨href, fun hno => ?_, fun hs => ?_⟩
    · simp only [Bool.or_eq_false_iff, decide_eq_false_iff_not, not_lt, not_le] at hno
      simp only [short, Bool.or_eq_true, decide_eq_true_eq]
      exact .inl (lt_of_le_of_lt hno.1 hno.2)
    · rcases hend with hsrc | hfull
      · dsimp only at hs ⊢
        rw [hsrc, List.append_nil]
        exact messages_short hs
      · dsimp only at hs
        rw [not_short_of_full hfull] at hs
        cases hs

/-- A whole message is in the buffer, or there is none left. -/
theorem ensure_spec {r : Reader H} (heof : r.eof = true → r.src = []) :
    Refilled r (ensure piece r).1 ∧
      ((ensure piece r).2 = true → short (ensure piece r).1.buf = false) ∧
      ((ensure piece r).2 = false →
        messages ((ensure piece r).1.buf ++ (ensure piece r).1.src) = []) := by
  cases hshort : short r.buf with
  | false =>
    rw [ensure, hshort, if_neg Bool.false_ne_true]
    exact ⟨.refl r, fun _ => hshort, nofun⟩
  | true =>
    have heq : ensure piece r = ((refill piece r).1, (refill piece r).2 && !short (refill piece r).1.buf) := by
      rw [ensure, if_pos hshort]
    obtain ⟨href, hno, hnone⟩ := refill_spec piece heof hshort
    rw [heq]
    refine ⟨href, fun h => ?_, fun h => hnone ?_⟩
    · rw [Bool.and_eq_true, Bool.not_eq_true'] at h
      exact h.2
    · rcases Bool.and_eq_false_iff.mp h with h | h
      · exact hno h
      · simpa using h

/-- Where a reader of a file stands: what it handed on and what is to come make up the file. -/
structure Reads (h0 : H) (file : Bytes) (r : Reader H) : Prop where
  rest : r.out ++ messages (r.buf ++ r.src) = messages file
  eof : r.eof = true → r.src = []
  handler : r.handler = r.out.foldl (feed on) h0
  count : r.st.messages = r.out.length
  bytes : r.st.bytes = (r.out.map fun m => m.length + 2).sum

variable {on} {h0 : H} {file : Bytes}

theorem Reads.refilled {r r' : Reader H} (h : Reads on h0 file r) (hr : Refilled r r') :
    Reads on h0 file r' where
  rest := by rw [hr.out, hr.bytes, h.rest]
  eof := hr.eof h.eof
  handler := by rw [hr.handler, hr.out, h.handler]
  count := by rw [hr.st, hr.out, h.count]
  bytes := by rw [hr.st, hr.out, h.bytes]

theorem Reads.take {r : Reader H} (h : Reads on h0 file r) (hs : short r.buf = false) :
    Reads on h0 file (take on r) where
  rest := by
    have := h.rest
    rw [messages_append hs] at this
    rw [← this]
    exact List.append_assoc ..
  eof := h.eof
  handler := by
    show feed on r.handler _ = (r.out ++ [_]).foldl _ _
    rw [List.foldl_append, h.handler]
    rfl
  count := by
    show r.st.messages + 1 = (r.out ++ [_]).length
    rw [List.length_append, h.count]
    rfl
  bytes := by
    have hle := short_false hs
    have hlen : ((r.buf.drop 2).take (be16 r.buf 0).toNat).length = (be16 r.buf 0).toNat := by
      rw [List.length_take, List.length_drop]
      omega
    show r.st.bytes + 2 + _ = ((r.out ++ [(r.buf.drop 2).take (be16 r.buf 0).toNat]).map _).sum
    rw [List.map_append, List.sum_append, h.bytes]
    simp only [List.map_cons, List.map_nil, List.sum_cons, List.sum_nil, hlen]
    omega

theorem take_rest (on : H → Msg → H) {r : Reader H} (hs : short r.buf = false) :
    ((take on r).buf ++ (take on r).src).length < (r.buf ++ r.src).length := by
  have := short_false hs
  show (r.buf.drop _ ++ r.src).length < _
  rw [List.length_append, List.length_append, List.length_drop]
  omega

/-- A run hands on messages in order. It stops at the limit, or with no message left. -/
theorem runLoop_spec {maxMessages fuel n : Nat} {r : Reader H} (h : Reads on h0 file r)
    (hfuel : (r.buf ++ r.src).length < fuel) :
    Reads on h0 file (runLoop on piece maxMessages fuel n r).1 ∧
      ((runLoop on piece maxMessages fuel n r).2 = false →
        messages ((runLoop on piece maxMessages fuel n r).1.buf ++
          (runLoop on piece maxMessages fuel n r).1.src) = []) ∧
      ((runLoop on piece maxMessages fuel n r).2 = true →
        r.out.length < (runLoop on piece maxMessages fuel n r).1.out.length) := by
  induction fuel generalizing n r with
  | zero => exact absurd hfuel (Nat.not_lt_zero _)
  | succ fuel ih =>
    obtain ⟨href, hyes, hno⟩ := ensure_spec piece h.eof
    rw [runLoop]
    generalize he : ensure piece r = e at href hyes hno ⊢
    obtain ⟨r', ok⟩ := e
    have h' := h.refilled href
    cases ok with
    | false => exact ⟨h', fun _ => hno rfl, nofun⟩
    | true =>
      have hs : short r'.buf = false := hyes rfl
      have hout : (take on r').out.length = r.out.length + 1 := by
        show (r'.out ++ [_]).length = _
        rw [List.length_append, href.out]
        rfl
      dsimp only
      split
      · exact ⟨h'.take hs, nofun, fun _ => lt_of_lt_of_eq (Nat.lt_succ_self _) hout.symm⟩
      · have hlt := take_rest on hs
        have hbytes := congrArg List.length href.bytes
        simp only at hbytes
        obtain ⟨h1, h2, h3⟩ := ih (n := n + 1) (r := take on r') (h'.take hs) (by omega)
        exact ⟨h1, h2, fun hend => lt_trans (lt_of_lt_of_eq (Nat.lt_succ_self _) hout.symm) (h3 hend)⟩

theorem run_spec (maxMessages : Nat) {r : Reader H} (h : Reads on h0 file r) :
    Reads on h0 file (run on piece r maxMessages).1 ∧
      ((run on piece r maxMessages).2 = false →
        messages ((run on piece r maxMessages).1.buf ++ (run on piece r maxMessages).1.src) = []) ∧
      ((run on piece r maxMessages).2 = true →
        r.out.length < (run on piece r maxMessages).1.out.length) :=
  runLoop_spec piece h (by rw [List.length_append]; omega)

/-- Enough calls read the whole file, whatever their limits. -/
theorem runs_spec (ms : List Nat) {r : Reader H} (h : Reads on h0 file r)
    (hms : (messages file).length < r.out.length + ms.length) :
    (runs on piece ms r).2 = false ∧ (runs on piece ms r).1.out = messages file ∧
      Reads on h0 file (runs on piece ms r).1 := by
  induction ms generalizing r with
  | nil =>
    have hle : r.out.length ≤ (messages file).length := by
      rw [← h.rest, List.length_append]
      exact Nat.le_add_right _ _
    exact absurd hms (by simpa using hle)
  | cons m ms ih =>
    obtain ⟨hr, hno, hyes⟩ := run_spec piece m h
    rw [runs]
    generalize run on piece r m = e at hr hno hyes ⊢
    obtain ⟨r', ok⟩ := e
    cases ok with
    | false =>
      refine ⟨rfl, ?_, hr⟩
      have hrest := hr.rest
      rwa [hno rfl, List.append_nil] at hrest
    | true =>
      have hlt := hyes rfl
      rw [List.length_cons] at hms
      simp only at hlt
      exact ih hr (by omega)

theorem reads_fresh (on : H → Msg → H) (h0 : H) (file : Bytes) : Reads on h0 file { handler := h0, src := file } :=
  ⟨rfl, nofun, rfl, rfl, rfl⟩

end

end ItchFile

end Stok
