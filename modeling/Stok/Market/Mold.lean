import Stok.Market.Itch

/-!
# The MoldUDP64 receiver (`MoldUdp64Receiver` of `market/sources.hpp`)

`Mold H` is the receiver together with the handler `H` it feeds. Sequence numbers
and clock readings are the source's 64-bit words as naturals below `2 ^ 64`, added
and subtracted with `add64` and `sub64`; event counters are plain naturals.
`pending_` is the source's ordered map, as a list sorted by key.

`Trace` is not state of the source. It records what a run has done: every message
handed to `itch::decode` with its number, the ranges given up by `tick`, the number
the receiver synchronised on, and whether a subtraction has wrapped.
-/

namespace Stok

open Itch

/-- `std::map::emplace`: an entry that is already there stays. -/
def emplace {α : Type} (k : Nat) (v : α) : List (Nat × α) → List (Nat × α)
  | [] => [(k, v)]
  | e :: l => if k < e.1 then (k, v) :: e :: l else if k = e.1 then e :: l else e :: emplace k v l

namespace Mold

/-- `recovery` says that a request sink is set. -/
structure Options where
  recovery : Bool
  gapTimeoutMs : Int := 250
  retryMs : Int := 50
  maxRequest : Nat := 1000
  maxBuffered : Nat := 20000

structure Stats where
  packets : Nat := 0
  messages : Nat := 0
  heartbeats : Nat := 0
  gaps : Nat := 0
  gapMessages : Nat := 0
  dups : Nat := 0
  bad : Nat := 0
  requests : Nat := 0
  recovered : Nat := 0
  gapTimeouts : Nat := 0
  bufferedPeak : Nat := 0
  deriving Repr, DecidableEq

structure Trace where
  delivered : List (Nat × Bytes) := []
  skipped : List (Nat × Nat) := []
  requested : List (Bytes × Nat × Nat) := []
  first : Nat := 0
  wrapped : Bool := false
  clockWrapped : Bool := false
  deriving Repr, DecidableEq

end Mold

structure Mold (H : Type) where
  handler : H
  expectedSeq : Nat := 0
  session : Bytes := List.replicate 10 0
  ended : Bool := false
  recovering : Bool := false
  gapSince : Nat := 0
  gapEnd : Nat := 0
  lastRequest : Nat := 0
  pending : List (Nat × Bytes) := []
  stats : Mold.Stats := {}
  trace : Mold.Trace := {}
  deriving DecidableEq

namespace Mold

def packetSeq (p : Bytes) : Nat := (be64 p 10).toNat

def packetCount (p : Bytes) : Nat := (be16 p 18).toNat

section Receiver

variable {H : Type} (on : H → Msg → H) (o : Options)

/-- Record the operands of a subtraction of sequence numbers. -/
def noteSub (r : Mold H) (a b : Nat) : Mold H :=
  { r with trace.wrapped := r.trace.wrapped || decide (a < b) }

/-- Record the operands of a subtraction of clock readings. -/
def noteClock (r : Mold H) (a b : Nat) : Mold H :=
  { r with trace.clockWrapped := r.trace.clockWrapped || decide (a < b) }

/-- The body of `process` for a message that is not skipped. -/
def hand (r : Mold H) (number : Nat) (msg : Bytes) : Mold H :=
  let r := { r with
    stats.messages := r.stats.messages + 1
    trace.delivered := r.trace.delivered ++ [(number, msg)] }
  match decode msg with
  | none => { r with stats.bad := r.stats.bad + 1 }
  | some m => { r with handler := on r.handler m }

/-- The loop of `process`: `todo` messages are left, the next one is number `i` of the packet. -/
def processLoop (p : Bytes) (skip : Nat) : Nat → Nat → Nat → Mold H → Mold H
  | 0, _, _, r => r
  | todo + 1, i, off, r =>
    if off + 2 > p.length then { r with stats.bad := r.stats.bad + 1 }
    else
      let mlen := (be16 p off).toNat
      let off := off + 2
      if off + mlen > p.length then { r with stats.bad := r.stats.bad + 1 }
      else
        let r := if i ≥ skip then r.hand on (packetSeq p + i) ((p.drop off).take mlen) else r
        processLoop p skip todo (i + 1) (off + mlen) r

def process (r : Mold H) (p : Bytes) (skip : Nat) : Mold H :=
  processLoop on p skip (packetCount p) 0 20 r

/-- The `end` of `request_gap`: the first buffered number, else what the heartbeat told. -/
def requestEnd (r : Mold H) : Nat :=
  match r.pending with
  | [] => r.gapEnd
  | e :: _ => e.1

def requestGap (r : Mold H) (now : Nat) : Mold H :=
  if !o.recovery then r
  else if r.requestEnd ≤ r.expectedSeq then r
  else
    let want := sub64 r.requestEnd r.expectedSeq
    let count := (if want < o.maxRequest then want else o.maxRequest) % 2 ^ 16
    let r := r.noteSub r.requestEnd r.expectedSeq
    { r with
      trace.requested := r.trace.requested ++ [(r.session, r.expectedSeq, count)]
      stats.requests := r.stats.requests + 1
      lastRequest := now }

/-- The loop of `drain` over the buffered packets. -/
def drainLoop : List (Nat × Bytes) → Mold H → Mold H
  | [], r => { r with pending := [] }
  | (seq, pkt) :: rest, r =>
    if seq > r.expectedSeq then { r with pending := (seq, pkt) :: rest }
    else
      let next := add64 seq (packetCount pkt)
      let r := if next > r.expectedSeq then
          let skip := sub64 r.expectedSeq seq
          { (r.noteSub r.expectedSeq seq).process on pkt skip with expectedSeq := next }
        else r
      drainLoop rest r

def drain (r : Mold H) (now : Nat) : Mold H :=
  let r := drainLoop on r.pending r
  if r.pending.isEmpty then
    let r := if r.recovering then { r with stats.recovered := r.stats.recovered + 1 } else r
    { r with recovering := false }
  else if r.recovering then r.requestGap o now
  else r

/-- A gap is seen while none is open: ask for the messages before `seq`. -/
def openGap (r : Mold H) (seq now : Nat) : Mold H :=
  if r.recovering then r
  else
    { r with
      recovering := true
      gapSince := now
      gapEnd := seq
      stats.gaps := r.stats.gaps + 1
      lastRequest := 0 }.requestGap o now

/-- A new session resynchronises on this packet. -/
def checkSession (r : Mold H) (p : Bytes) : Mold H :=
  if p.take 10 = r.session then r
  else { r with session := p.take 10, expectedSeq := 0, pending := [], recovering := false }

/-- `if (expected_seq_ == 0) expected_seq_ = seq`. -/
def sync (r : Mold H) (seq : Nat) : Mold H :=
  if r.expectedSeq = 0 then { r with expectedSeq := seq, trace.first := seq } else r

def onHeartbeat (r : Mold H) (seq now : Nat) : Mold H :=
  let r := { r with stats.heartbeats := r.stats.heartbeats + 1 }
  if r.expectedSeq = 0 then r.sync seq
  else if seq > r.expectedSeq ∧ o.recovery then r.openGap o seq now
  else r

/-- Account for the numbers from the expected one up to `seq` as lost. -/
def countGap (r : Mold H) (seq : Nat) : Mold H :=
  { r.noteSub seq r.expectedSeq with
    stats.gapMessages := add64 r.stats.gapMessages (sub64 seq r.expectedSeq) }

/-- Keep a packet while a gap is open, if there is room. -/
def buffer (r : Mold H) (p : Bytes) : Mold H :=
  let pending := if r.pending.length < o.maxBuffered then emplace (packetSeq p) p r.pending
    else r.pending
  { r with
    pending := pending
    stats.bufferedPeak := max r.stats.bufferedPeak pending.length }

/-- A packet past the expected number. -/
def onAhead (r : Mold H) (p : Bytes) (now : Nat) : Mold H :=
  let seq := packetSeq p
  if !o.recovery then
    let r := { r with stats.gaps := r.stats.gaps + 1 }.countGap seq
    { r.process on p 0 with expectedSeq := add64 seq (packetCount p) }
  else (r.buffer o p).openGap o seq now

def onData (r : Mold H) (p : Bytes) (now : Nat) : Mold H :=
  let seq := packetSeq p
  let r := r.sync seq
  let next := add64 seq (packetCount p)
  if next ≤ r.expectedSeq then { r with stats.dups := r.stats.dups + 1 }
  else if seq > r.expectedSeq then r.onAhead on o p now
  else
    let skip := sub64 r.expectedSeq seq
    { (r.noteSub r.expectedSeq seq).process on p skip with expectedSeq := next }.drain on o now

/-- `mono` is what `mono_ns()` would answer. -/
def onPacket (r : Mold H) (p : Bytes) (now mono : Nat) : Mold H :=
  if p.length < 20 then { r with stats.bad := r.stats.bad + 1 }
  else
    let now := if now = 0 then mono else now
    let r := { r with stats.packets := r.stats.packets + 1 }.checkSession p
    if packetCount p = 0xFFFF then { r with ended := true }
    else if packetCount p = 0 then r.onHeartbeat o (packetSeq p) now
    else r.onData on o p now

def tick (r : Mold H) (now : Nat) : Mold H :=
  if !r.recovering then r
  else
    let r := r.noteClock now r.gapSince
    if sub64 now r.gapSince > msToNs o.gapTimeoutMs then
      let r := { r with stats.gapTimeouts := r.stats.gapTimeouts + 1 }
      match r.pending with
      | [] => { r with recovering := false }
      | e :: _ =>
        { r.countGap e.1 with
          trace.skipped := r.trace.skipped ++ [(r.expectedSeq, e.1)]
          expectedSeq := e.1
          gapSince := now }.drain on o now
    else
      let r := r.noteClock now r.lastRequest
      if sub64 now r.lastRequest > msToNs o.retryMs then r.requestGap o now else r

/-- The calls made on a receiver. -/
inductive Call where
  | packet (p : Bytes) (now mono : Nat)
  | tick (now : Nat)
  deriving DecidableEq

def call (r : Mold H) : Call → Mold H
  | .packet p now mono => r.onPacket on o p now mono
  | .tick now => r.tick on o now

def run (r : Mold H) (calls : List Call) : Mold H := calls.foldl (fun r c => r.call on o c) r

end Receiver

end Mold

end Stok
