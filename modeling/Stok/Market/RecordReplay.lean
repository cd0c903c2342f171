import Stok.Market.MoldDelivery
import Stok.Market.Recorder

/-!
# Recording a session and replaying it

`process` gives each message to the recorder and then to `itch::decode`, so what the recorder is
pushed in a run of the receiver is the run's `delivered`. A file the recorder has written without
drops gives these messages back, and a handler fed with them stands where the live one does.
-/

namespace Stok

open Itch

/-! ## The frames of the recorder are the reader's -/

namespace Recorder

theorem short_frameOf {msg : Bytes} (h : msg.length ≤ kData) :
    ItchFile.short (frameOf msg) = false ∧ (be16 (frameOf msg) 0).toNat = msg.length := by
  have hbe : (be16 (frameOf msg) 0).toNat = msg.length := by
    have hlen : (UInt8.ofNat msg.length).toNat = msg.length := by
      rw [UInt8.toNat_ofNat', Nat.mod_eq_of_lt (by simp only [kData] at h; omega)]
    have hnat : beNat (frameOf msg) 0 2 = msg.length := by
      simp [beNat, byteAt, frameOf, hlen]
    rw [be16, hnat, UInt16.toNat_ofNat', Nat.mod_eq_of_lt (by simp only [kData] at h; omega)]
  refine ⟨?_, hbe⟩
  simp only [ItchFile.short, hbe, Bool.or_eq_false_iff, decide_eq_false_iff_not, not_lt]
  simp only [frameOf, List.length_cons]
  omega

theorem messages_frames {msgs : List Bytes} (h : ∀ m ∈ msgs, m.length ≤ kData) :
    ItchFile.messages (msgs.flatMap frameOf) = msgs := by
  induction msgs with
  | nil => rfl
  | cons m ms ih =>
    obtain ⟨hshort, hbe⟩ := short_frameOf (h m List.mem_cons_self)
    rw [List.flatMap_cons, ItchFile.messages_append hshort, hbe]
    have hmsg : ((frameOf m).drop 2).take m.length = m := List.take_length
    have hrest : (frameOf m).drop (2 + m.length) = [] := by
      rw [Nat.add_comm]
      exact List.drop_length
    rw [hmsg, hrest, List.nil_append, ih fun m' hm => h m' (List.mem_cons_of_mem _ hm)]

end Recorder

/-! ## The live handler -/

namespace Mold

section

variable {H : Type} {on : H → Msg → H} {o : Options} {h0 : H}

/-- The messages handed to `itch::decode`. -/
def messages (r : Mold H) : List Bytes := r.trace.delivered.map Prod.snd

/-- The handler is where the delivered messages take it. -/
def Fed (on : H → Msg → H) (h0 : H) (r : Mold H) : Prop :=
  r.handler = r.messages.foldl (feed on) h0

theorem Fed.hand {r : Mold H} (h : Fed on h0 r) (number : Nat) (m : Bytes) :
    Fed on h0 (r.hand on number m) := by
  have hfold : ((r.trace.delivered ++ [(number, m)]).map Prod.snd).foldl (feed on) h0 =
      feed on r.handler m := by
    rw [List.map_append, List.foldl_append]
    exact congrArg (feed on · m) h.symm
  unfold Mold.hand
  dsimp only
  split
  · rename_i hd
    refine Eq.trans ?_ hfold.symm
    rw [feed, hd]
  · rename_i msg hd
    refine Eq.trans ?_ hfold.symm
    rw [feed, hd]

theorem Fed.processLoop (p : Bytes) (skip : Nat) :
    ∀ (n i off : Nat) {r : Mold H}, Fed on h0 r → Fed on h0 (processLoop on p skip n i off r)
  | 0, _, _, _, h => h
  | n + 1, i, off, r, h => by
    rw [Mold.processLoop]
    dsimp only
    split
    · exact h
    · split
      · exact h
      · apply Fed.processLoop p skip n
        split
        · exact h.hand _ _
        · exact h

theorem Fed.process {r : Mold H} (h : Fed on h0 r) (p : Bytes) (skip e : Nat) :
    Fed on h0 { r.process on p skip with expectedSeq := e } :=
  Fed.processLoop p skip (packetCount p) 0 20 h

theorem Fed.requestGap {r : Mold H} (h : Fed on h0 r) (now : Nat) :
    Fed on h0 (r.requestGap o now) := by
  unfold Mold.requestGap
  split
  · exact h
  · split <;> exact h

theorem Fed.openGap {r : Mold H} (h : Fed on h0 r) (seq now : Nat) :
    Fed on h0 (r.openGap o seq now) := by
  unfold Mold.openGap
  split
  · exact h
  · exact Fed.requestGap (r := { r with
      recovering := true
      gapSince := now
      gapEnd := seq
      stats.gaps := r.stats.gaps + 1
      lastRequest := 0 }) h now

theorem Fed.drainLoop : ∀ (l : List (Nat × Bytes)) {r : Mold H}, Fed on h0 r →
    Fed on h0 (drainLoop on l r)
  | [], _, h => h
  | (seq, pkt) :: rest, r, h => by
    rw [Mold.drainLoop]
    split
    · exact h
    · apply Fed.drainLoop rest
      split
      · exact Fed.process (r := r.noteSub r.expectedSeq seq) h _ _ _
      · exact h

theorem Fed.drain {r : Mold H} (h : Fed on h0 r) (now : Nat) : Fed on h0 (r.drain on o now) := by
  have hd := Fed.drainLoop r.pending h
  unfold Mold.drain
  dsimp only
  split
  · split <;> exact hd
  · split
    · exact hd.requestGap now
    · exact hd

theorem Fed.sync {r : Mold H} (h : Fed on h0 r) (seq : Nat) : Fed on h0 (r.sync seq) := by
  unfold Mold.sync
  split <;> exact h

theorem Fed.onHeartbeat {r : Mold H} (h : Fed on h0 r) (seq now : Nat) :
    Fed on h0 (r.onHeartbeat o seq now) := by
  have h' : Fed on h0 { r with stats.heartbeats := r.stats.heartbeats + 1 } := h
  unfold Mold.onHeartbeat
  dsimp only
  split
  · exact h'.sync seq
  · split
    · exact h'.openGap seq now
    · exact h'

theorem Fed.onData {r : Mold H} (h : Fed on h0 r) (p : Bytes) (now : Nat) :
    Fed on h0 (r.onData on o p now) := by
  have hs := h.sync (packetSeq p)
  unfold Mold.onData
  dsimp only
  generalize r.sync (packetSeq p) = r at hs ⊢
  split
  · exact hs
  · split
    · unfold Mold.onAhead
      dsimp only
      split
      · exact Fed.process (r := { r with stats.gaps := r.stats.gaps + 1 }.countGap (packetSeq p))
          hs p 0 _
      · exact Fed.openGap (r := r.buffer o p) hs _ now
    · exact (Fed.process (r := r.noteSub r.expectedSeq (packetSeq p)) hs p _ _).drain now

theorem Fed.onPacket {r : Mold H} (h : Fed on h0 r) (p : Bytes) (now mono : Nat) :
    Fed on h0 (r.onPacket on o p now mono) := by
  unfold Mold.onPacket
  dsimp only
  split
  · exact h
  · have hc : Fed on h0 ({ r with stats.packets := r.stats.packets + 1 }.checkSession p) := by
      unfold Mold.checkSession
      split <;> exact h
    split
    · exact hc
    · split
      · exact hc.onHeartbeat _ _
      · exact hc.onData p _

theorem Fed.tick {r : Mold H} (h : Fed on h0 r) (now : Nat) : Fed on h0 (r.tick on o now) := by
  unfold Mold.tick
  split
  · exact h
  · dsimp only
    split
    · split
      · exact h
      · rename_i e l _
        exact Fed.drain (r := { { r.noteClock now r.gapSince with
          stats.gapTimeouts := r.stats.gapTimeouts + 1 }.countGap e.1 with
            trace.skipped := r.trace.skipped ++ [(r.expectedSeq, e.1)]
            expectedSeq := e.1
            gapSince := now }) h now
    · split
      · exact Fed.requestGap (r := (r.noteClock now r.gapSince).noteClock now r.lastRequest) h now
      · exact h

theorem Fed.run : ∀ (calls : List Call) {r : Mold H}, Fed on h0 r → Fed on h0 (r.run on o calls)
  | [], _, h => h
  | c :: calls, r, h => by
    have hc : Fed on h0 (r.call on o c) := by
      cases c with
      | packet p now mono => exact h.onPacket p now mono
      | tick now => exact h.tick now
    exact Fed.run calls hc

end

end Mold

/-! ## Replay -/

namespace Recorder

open Stok.Lib

/-- For every run of the receiver and every interleaving of the pushes of its messages with the
recorder's thread that ends with the thread gone and no drop: reading the file hands
`itch::decode` the messages that the receiver handed it, in order, and takes a fresh handler to
where the live one is. The reads of the file may come in any pieces, and the reader may be run in
any number of limited calls. -/
theorem record_replay {H : Type} (on : H → Msg → H) (h0 : H) (o : Mold.Options)
    (calls : List Mold.Call) (s : State) (past : List State)
    (hrec : History step (init (Mold.run on o { handler := h0 } calls).messages) s past)
    (hexit : s.thread = .exited) (hdrop : s.dropped = 0) (piece : Nat → Nat) (limits : List Nat)
    (hlimits : s.written < limits.length) :
    let live := Mold.run on o { handler := h0 } calls
    let read := ItchFile.runs on piece limits { handler := h0, src := s.file }
    read.2 = false ∧ read.1.out = live.messages ∧ read.1.handler = live.handler := by
  intro live read
  obtain ⟨hfile, hfits, hwritten⟩ := exited_file hrec hexit hdrop
  have hmsgs : ItchFile.messages s.file = live.messages := by
    rw [hfile]
    exact messages_frames hfits
  obtain ⟨hend, hout, hreads⟩ := ItchFile.runs_spec piece limits
    (ItchFile.reads_fresh on h0 s.file) (by
      rw [hmsgs, ← hwritten]
      simpa using hlimits)
  have hlive : Mold.Fed on h0 live := Mold.Fed.run calls rfl
  refine ⟨hend, hout.trans hmsgs, ?_⟩
  rw [hreads.handler, hout, hmsgs]
  exact hlive.symm

/-- Three messages, the last two out of order, are recorded while the first is being drained, and
read back in bits of at most 7 bytes and one message a call. -/
theorem record_replay_gap :
    let on := fun (n : Nat) (_ : Msg) => n + 1
    let calls := [.packet (Mold.moldPacket 1 [Mold.systemEvent]) 1 1,
      .packet (Mold.moldPacket 3 [Mold.systemEvent]) 2 2, .tick 3,
      .packet (Mold.moldPacket 2 [Mold.systemEvent]) 4 4]
    let live := Mold.run on { recovery := true } { handler := 0 } calls
    ∃ s past, History step (init live.messages) s past ∧ s.thread = .exited ∧ s.dropped = 0 ∧
      s.written = 3 ∧
      (ItchFile.runs on (fun _ => 7) [1, 1, 1, 1] { handler := 0, src := s.file }).1.handler =
        live.handler := by
  intro on calls live
  let sched : List Act := [.push, .fill, .publish, .load, .publishTail, .front, .frontTail, .push,
    .gzwrite, .fill, .pop, .publish, .popHead, .publishTail, .front, .frontTail, .push, .gzwrite,
    .fill, .pop, .publish, .publishTail, .stop, .popHead, .front, .frontTail, .gzwrite, .pop,
    .popHead, .front, .frontTail, .drained, .load, .front, .frontTail, .drained]
  have hrun : (replay step (init live.messages) [] sched).map
      (fun p => (p.1.thread, p.1.dropped, p.1.written)) = some (.exited, 0, 3) := by
    decide +kernel
  obtain ⟨⟨s, past⟩, hrep, hs⟩ := Option.map_eq_some_iff.mp hrun
  obtain ⟨hexit, hdrop, hwritten⟩ : s.thread = .exited ∧ s.dropped = 0 ∧ s.written = 3 := by
    simpa using hs
  have hist := History.start.replay _ hrep
  refine ⟨s, past, hist, hexit, hdrop, hwritten, ?_⟩
  exact (record_replay on 0 { recovery := true } calls s past hist hexit hdrop (fun _ => 7)
    [1, 1, 1, 1] (by rw [hwritten]; decide)).2.2

end Recorder

end Stok
