import Stok.Market.Mold

/-!
# In-order, exactly-once delivery

A session is a function `content` from message numbers to bytes; `IsData` says that
a packet is well formed and carries the bytes of its numbers. `Inv` is the
invariant of the receiver over the part of its state that matters (`View`), and
`delivery` is what it gives for every run: numbers handed on strictly increase, the
counters account for every number passed, buffered packets lie ahead, and with
recovery a number is only ever passed over by a timeout of `tick`.
-/

namespace Stok.Mold

open Itch

/-! ## Well-formed packets -/

/-- Read `n` length-prefixed blocks. -/
def blocks : Nat → Bytes → Option (List Bytes)
  | 0, _ => some []
  | n + 1, p =>
    let mlen := (be16 p 0).toNat
    if p.length < 2 + mlen then none
    else (blocks n ((p.drop 2).drop mlen)).map ((p.drop 2).take mlen :: ·)

/-- A data packet of the session: its blocks are the messages of its numbers. -/
structure IsData (content : Nat → Bytes) (p : Bytes) : Prop where
  header : 20 ≤ p.length
  count_pos : 1 ≤ packetCount p
  count_le : packetCount p ≤ 65534
  seq_pos : 1 ≤ packetSeq p
  no_wrap : packetSeq p + packetCount p < 2 ^ 64
  blocks_eq : blocks (packetCount p) (p.drop 20) =
    some ((List.range (packetCount p)).map fun i => content (packetSeq p + i))

theorem be16_drop (p : Bytes) (off : Nat) : be16 (p.drop off) 0 = be16 p off := by
  simp [be16, beNat, byteAt_drop]

theorem blocks_length : ∀ {n : Nat} {p : Bytes} {ms : List Bytes}, blocks n p = some ms →
    ms.length = n
  | 0, _, _, h => by cases h; rfl
  | n + 1, p, ms, h => by
    simp only [blocks] at h
    split at h
    · cases h
    · obtain ⟨ms', h', rfl⟩ := Option.map_eq_some_iff.1 h
      rw [List.length_cons, blocks_length h']

section Receiver

variable {H : Type} {on : H → Msg → H} {o : Options} {session : Bytes} {content : Nat → Bytes}

/-- Hand on a list of messages with consecutive numbers. -/
def handAll (on : H → Msg → H) (r : Mold H) (number : Nat) : List Bytes → Mold H
  | [] => r
  | m :: ms => handAll on (r.hand on number m) (number + 1) ms

theorem processLoop_eq (p : Bytes) (skip : Nat) :
    ∀ (n i off : Nat) (ms : List Bytes) (r : Mold H), blocks n (p.drop off) = some ms →
      processLoop on p skip n i off r =
        handAll on r (packetSeq p + max i skip) (ms.drop (skip - i))
  | 0, i, off, ms, r, h => by cases h; simp [processLoop, handAll]
  | n + 1, i, off, ms, r, h => by
    simp only [blocks, be16_drop, List.length_drop] at h
    split at h
    · cases h
    · next hlen =>
      obtain ⟨ms', h', rfl⟩ := Option.map_eq_some_iff.1 h
      rw [List.drop_drop, List.drop_drop, ← Nat.add_assoc] at h'
      rw [processLoop]
      have h1 : ¬ off + 2 > p.length := by omega
      have h2 : ¬ off + 2 + (be16 p off).toNat > p.length := by omega
      simp only [h1, h2, if_false]
      rw [processLoop_eq p skip n (i + 1) _ ms' _ h']
      rcases Nat.lt_or_ge i skip with hi | hi
      · rw [if_neg (by omega), show skip - i = skip - (i + 1) + 1 by omega, List.drop_succ_cons,
          Nat.max_eq_right (by omega), Nat.max_eq_right (by omega)]
      · rw [if_pos hi, show skip - i = 0 by omega, show skip - (i + 1) = 0 by omega,
          Nat.max_eq_left (by omega), Nat.max_eq_left hi, List.drop_zero, List.drop_zero,
          List.drop_drop]
        rfl

/-! ## The invariant -/

/-- The part of a receiver the invariant is about. -/
structure View where
  session : Bytes
  expected : Nat
  messages : Nat
  gapMessages : Nat
  pending : List (Nat × Bytes)
  delivered : List (Nat × Bytes)
  skipped : List (Nat × Nat)
  first : Nat
  wrapped : Bool

def view (r : Mold H) : View where
  session := r.session
  expected := r.expectedSeq
  messages := r.stats.messages
  gapMessages := r.stats.gapMessages
  pending := r.pending
  delivered := r.trace.delivered
  skipped := r.trace.skipped
  first := r.trace.first
  wrapped := r.trace.wrapped

/-- Every number from the first expected one on is delivered or was given up by `tick`. -/
def Covered (v : View) : Prop :=
  ∀ m, v.first ≤ m → m < v.expected →
    m ∈ v.delivered.map Prod.fst ∨ ∃ s ∈ v.skipped, s.1 ≤ m ∧ m < s.2

/-- Buffered packets are data packets of the session, sorted by their numbers. -/
structure Buffered (content : Nat → Bytes) (l : List (Nat × Bytes)) : Prop where
  sorted : l.Pairwise fun a b => a.1 < b.1
  data : ∀ e ∈ l, IsData content e.2 ∧ packetSeq e.2 = e.1

/-- What holds at every point of a call, also before the buffer is drained. -/
structure Core (o : Options) (session : Bytes) (content : Nat → Bytes) (v : View) : Prop where
  in_session : v.session = session
  first_le : v.first ≤ v.expected
  expected_lt : v.expected < 2 ^ 64
  counted : v.messages + v.gapMessages = v.expected - v.first
  increasing : (v.delivered.map Prod.fst).Pairwise (· < ·)
  below : ∀ d ∈ v.delivered, d.1 < v.expected ∧ d.2 = content d.1
  covered : o.recovery = true → Covered v
  buffered : Buffered content v.pending
  unsynced : v.expected = 0 → v.pending = []
  unbuffered : o.recovery = false → v.pending = []
  unwrapped : v.wrapped = false

/-- What holds between calls. -/
structure Inv (o : Options) (session : Bytes) (content : Nat → Bytes) (v : View) : Prop
    extends Core o session content v where
  ahead : ∀ e ∈ v.pending, v.expected < e.1

/-- `v` after handing on the messages `expected .. next - 1`. -/
def View.deliver (v : View) (content : Nat → Bytes) (next : Nat) : View :=
  { v with
    expected := next
    messages := v.messages + (next - v.expected)
    delivered := v.delivered ++
      (List.range (next - v.expected)).map fun i => (v.expected + i, content (v.expected + i)) }

theorem Core.deliver {v : View} (h : Core o session content v) (next : Nat) (hn : v.expected < next)
    (hlt : next < 2 ^ 64) : Core o session content (v.deliver content next) where
  in_session := h.in_session
  first_le := by
    have := h.first_le
    show v.first ≤ next
    omega
  expected_lt := hlt
  counted := by
    have h1 := h.counted
    have h2 := h.first_le
    show v.messages + (next - v.expected) + v.gapMessages = next - v.first
    omega
  increasing := by
    show (List.map Prod.fst (v.delivered ++ _)).Pairwise (· < ·)
    rw [List.map_append, List.pairwise_append, List.map_map]
    refine ⟨h.increasing, ?_, ?_⟩
    · rw [List.pairwise_map]
      exact List.pairwise_lt_range.imp fun hab => by simpa using hab
    · intro a ha b hb
      obtain ⟨d, hd, rfl⟩ := List.mem_map.1 ha
      obtain ⟨i, -, rfl⟩ := List.mem_map.1 hb
      have := (h.below d hd).1
      simp only [Function.comp_apply]
      omega
  below := by
    intro d hd
    rcases List.mem_append.1 hd with hd | hd
    · exact ⟨(h.below d hd).1.trans hn, (h.below d hd).2⟩
    · obtain ⟨i, hi, rfl⟩ := List.mem_map.1 hd
      rw [List.mem_range] at hi
      exact ⟨by show v.expected + i < next; omega, rfl⟩
  covered := by
    intro ho m hm hmn
    rcases Nat.lt_or_ge m v.expected with hlo | hhi
    · rcases h.covered ho m hm hlo with hd | hs
      · left
        show m ∈ List.map Prod.fst (v.delivered ++ _)
        rw [List.map_append]
        exact List.mem_append_left _ hd
      · exact .inr hs
    · left
      have hmn : m < next := hmn
      show m ∈ List.map Prod.fst (v.delivered ++ _)
      rw [List.map_append, List.map_map]
      refine List.mem_append_right _ (List.mem_map.2 ⟨m - v.expected, ?_, ?_⟩)
      · rw [List.mem_range]; omega
      · simp only [Function.comp_apply]; omega
  buffered := h.buffered
  unsynced := by
    intro e
    have e : next = 0 := e
    omega
  unbuffered := h.unbuffered
  unwrapped := h.unwrapped

/-- `v` after giving up the numbers `expected .. next - 1`. -/
def View.skip (v : View) (next : Nat) (note : List (Nat × Nat)) : View :=
  { v with
    expected := next
    gapMessages := v.gapMessages + (next - v.expected)
    skipped := v.skipped ++ note }

/-- Numbers may be given up without a note only when there is no recovery. -/
theorem Core.skip {v : View} (h : Core o session content v) (next : Nat) (note : List (Nat × Nat))
    (hn : v.expected ≤ next) (hlt : next < 2 ^ 64)
    (hnote : o.recovery = true → note = [(v.expected, next)])
    (hp : next = 0 → v.pending = []) : Core o session content (v.skip next note) where
  in_session := h.in_session
  first_le := h.first_le.trans hn
  expected_lt := hlt
  counted := by
    have h1 := h.counted
    have h2 := h.first_le
    show v.messages + (v.gapMessages + (next - v.expected)) = next - v.first
    omega
  increasing := h.increasing
  below := fun d hd => ⟨Nat.lt_of_lt_of_le (h.below d hd).1 hn, (h.below d hd).2⟩
  covered := by
    intro ho m hm hmn
    rcases Nat.lt_or_ge m v.expected with hlo | hhi
    · rcases h.covered ho m hm hlo with hd | ⟨s, hs, hsm⟩
      · exact .inl hd
      · exact .inr ⟨s, List.mem_append_left _ hs, hsm⟩
    · refine .inr ⟨(v.expected, next), ?_, hhi, hmn⟩
      show _ ∈ v.skipped ++ note
      rw [hnote ho]
      exact List.mem_append_right _ (List.mem_singleton.2 rfl)
  buffered := h.buffered
  unsynced := hp
  unbuffered := h.unbuffered
  unwrapped := h.unwrapped

/-- A different buffer of data packets changes nothing else. -/
theorem Core.rebuffer {v : View} (h : Core o session content v) {l : List (Nat × Bytes)}
    (hl : Buffered content l) (h0 : v.expected = 0 → l = []) (ho : o.recovery = false → l = []) :
    Core o session content { v with pending := l } :=
  { in_session := h.in_session, first_le := h.first_le, expected_lt := h.expected_lt, counted := h.counted,
    increasing := h.increasing, below := h.below, covered := h.covered, buffered := hl,
    unsynced := h0, unbuffered := ho, unwrapped := h.unwrapped }

/-! ## One step keeps the invariant -/

theorem view_hand (r : Mold H) (number : Nat) (m : Bytes) :
    (r.hand on number m).view = { r.view with
      messages := r.view.messages + 1
      delivered := r.view.delivered ++ [(number, m)] } := by
  unfold hand
  split <;> rfl

theorem view_handAll : ∀ (ms : List Bytes) (number : Nat) (r : Mold H),
    (handAll on r number ms).view = { r.view with
      messages := r.view.messages + ms.length
      delivered := r.view.delivered ++ ms.mapIdx fun i m => (number + i, m) }
  | [], _, r => by simp [handAll]
  | m :: ms, number, r => by
    rw [handAll, view_handAll ms, view_hand]
    simp [List.mapIdx_cons, Nat.add_assoc, Nat.add_comm 1]

/-- Processing a packet hands on its messages from number `skip` on. -/
theorem view_process (on : H → Msg → H) (r : Mold H) {p : Bytes} (hp : IsData content p) (skip : Nat) :
    (r.process on p skip).view = { r.view with
      messages := r.view.messages + (packetCount p - skip)
      delivered := r.view.delivered ++ (List.range (packetCount p - skip)).map fun i =>
        (packetSeq p + skip + i, content (packetSeq p + skip + i)) } := by
  rw [process, processLoop_eq p _ _ _ _ _ r hp.blocks_eq, view_handAll, Nat.zero_max, Nat.sub_zero]
  have hmap : ((((List.range (packetCount p)).map fun i => content (packetSeq p + i)).drop
      skip).mapIdx fun i m => (packetSeq p + skip + i, m)) =
      (List.range (packetCount p - skip)).map fun i =>
        (packetSeq p + skip + i, content (packetSeq p + skip + i)) := by
    apply List.ext_getElem
    · simp
    · intro i h1 h2
      simp [Nat.add_assoc]
  rw [hmap]
  simp

theorem view_noteSub {r : Mold H} {a b : Nat} (h : b ≤ a) : (r.noteSub a b).view = r.view := by
  show View.mk _ _ _ _ _ _ _ _ _ = View.mk _ _ _ _ _ _ _ _ _
  congr 1
  have : ¬ a < b := by omega
  simp [noteSub, this]

theorem view_requestGap (r : Mold H) (now : Nat) : (r.requestGap o now).view = r.view := by
  unfold requestGap
  split
  · rfl
  · split
    · rfl
    · next h => exact view_noteSub (r := r) (Nat.le_of_lt (Nat.lt_of_not_le h))

theorem view_openGap (r : Mold H) (seq now : Nat) : (r.openGap o seq now).view = r.view := by
  unfold openGap
  split
  · rfl
  · exact view_requestGap _ now

/-- The packet at the expected number, as `on_packet` and `drain` process it. -/
theorem Core.process {r : Mold H} (h : Core o session content r.view) {p : Bytes}
    (hp : IsData content p) (hlo : packetSeq p ≤ r.expectedSeq)
    (hhi : r.expectedSeq < packetSeq p + packetCount p) :
    Core o session content { (r.noteSub r.expectedSeq (packetSeq p)).process on p
      (sub64 r.expectedSeq (packetSeq p)) with expectedSeq := packetSeq p + packetCount p }.view := by
  have hcount : packetCount p - (r.expectedSeq - packetSeq p) =
      packetSeq p + packetCount p - r.expectedSeq := by omega
  have hseq : packetSeq p + (r.expectedSeq - packetSeq p) = r.expectedSeq := by omega
  have hv := view_process on (r.noteSub r.expectedSeq (packetSeq p)) hp
    (r.expectedSeq - packetSeq p)
  rw [view_noteSub hlo, hcount, hseq] at hv
  have hd : { (r.noteSub r.expectedSeq (packetSeq p)).process on p (r.expectedSeq - packetSeq p) with
      expectedSeq := packetSeq p + packetCount p }.view =
      r.view.deliver content (packetSeq p + packetCount p) :=
    congrArg (fun v : View => { v with expected := packetSeq p + packetCount p }) hv
  rw [sub64_eq (a := r.expectedSeq) h.expected_lt hlo, hd]
  exact h.deliver _ hhi hp.no_wrap

/-- Draining a sorted buffer leaves only packets ahead of the expected number. -/
theorem Core.drainLoop (on : H → Msg → H) : ∀ (l : List (Nat × Bytes)) {r : Mold H}, Core o session content r.view →
    Buffered content l → (r.expectedSeq = 0 → l = []) → (o.recovery = false → l = []) →
    Inv o session content (drainLoop on l r).view
  | [], r, h, hl, h0, ho =>
    { h.rebuffer hl h0 ho with ahead := fun e he => by cases he }
  | (seq, pkt) :: rest, r, h, hl, h0, ho => by
    have hrest : Buffered content rest :=
      ⟨(List.pairwise_cons.1 hl.sorted).2, fun e he => hl.data e (List.mem_cons_of_mem _ he)⟩
    obtain ⟨hpkt, rfl⟩ : IsData content pkt ∧ packetSeq pkt = seq := hl.data _ List.mem_cons_self
    rw [Mold.drainLoop, add64_eq hpkt.no_wrap]
    split
    · next hgt =>
      refine { h.rebuffer hl h0 ho with ahead := fun e he => ?_ }
      rcases List.mem_cons.1 he with rfl | he
      · exact hgt
      · exact Nat.lt_trans hgt ((List.pairwise_cons.1 hl.sorted).1 e he)
    · next hle =>
      have ho' : o.recovery = false → rest = [] := fun e => by cases ho e
      dsimp only
      split
      · next hnext =>
        refine Core.drainLoop on rest (h.process hpkt (by omega) hnext) hrest (fun e => ?_) ho'
        have := hpkt.count_pos
        have e : packetSeq pkt + packetCount pkt = 0 := e
        omega
      · exact Core.drainLoop on rest h hrest (fun e => by cases h0 e) ho'

theorem Core.drain {r : Mold H} (h : Core o session content r.view) (now : Nat) :
    Inv o session content (r.drain on o now).view := by
  have hi := Core.drainLoop on r.pending h h.buffered h.unsynced h.unbuffered
  unfold Mold.drain
  dsimp only
  split
  · split <;> exact hi
  · split
    · rw [view_requestGap]; exact hi
    · exact hi

theorem mem_emplace {α : Type} {k : Nat} {v : α} : ∀ {l : List (Nat × α)} {e : Nat × α},
    e ∈ emplace k v l → e = (k, v) ∨ e ∈ l
  | [], e, he => .inl (List.mem_singleton.1 he)
  | a :: l, e, he => by
    rw [emplace] at he
    split at he
    · exact List.mem_cons.1 he
    · split at he
      · exact .inr he
      · rcases List.mem_cons.1 he with rfl | he
        · exact .inr List.mem_cons_self
        · exact (mem_emplace he).imp_right (List.mem_cons_of_mem _)

theorem emplace_sorted {α : Type} {k : Nat} {v : α} : ∀ {l : List (Nat × α)},
    l.Pairwise (fun a b => a.1 < b.1) → (emplace k v l).Pairwise fun a b => a.1 < b.1
  | [], _ => List.pairwise_singleton _ _
  | a :: l, h => by
    have ⟨ha, hl⟩ := List.pairwise_cons.1 h
    rw [emplace]
    split
    · next hlt =>
      refine List.pairwise_cons.2 ⟨fun b hb => ?_, h⟩
      rcases List.mem_cons.1 hb with rfl | hb
      · exact hlt
      · exact Nat.lt_trans hlt (ha b hb)
    · split
      · exact h
      · next hge hne =>
        refine List.pairwise_cons.2 ⟨fun b hb => ?_, emplace_sorted hl⟩
        rcases mem_emplace hb with rfl | hb
        · show a.1 < k
          omega
        · exact ha b hb

theorem Buffered.emplace {l : List (Nat × Bytes)} (h : Buffered content l) {p : Bytes}
    (hp : IsData content p) : Buffered content (emplace (packetSeq p) p l) where
  sorted := emplace_sorted h.sorted
  data := by
    intro e he
    rcases mem_emplace he with rfl | he
    · exact ⟨hp, rfl⟩
    · exact h.data e he

/-- Synchronising on a number below `2 ^ 64`. -/
theorem Inv.sync {r : Mold H} (h : Inv o session content r.view) (seq : Nat) (hs : seq < 2 ^ 64) :
    Inv o session content (r.sync seq).view := by
  unfold Mold.sync
  split
  · next h0 =>
    have hp : r.pending = [] := h.unsynced h0
    have hnone : r.trace.delivered = [] :=
      List.eq_nil_iff_forall_not_mem.2 fun d hd => by
        have hlt : d.1 < r.expectedSeq := (h.below d hd).1
        omega
    have hc : r.stats.messages + r.stats.gapMessages = r.expectedSeq - r.trace.first := h.counted
    refine { in_session := h.in_session, first_le := le_rfl, expected_lt := hs, counted := ?_, increasing := h.increasing,
             below := ?_, covered := ?_, buffered := h.buffered, unsynced := fun _ => hp,
             unbuffered := h.unbuffered, unwrapped := h.unwrapped, ahead := ?_ }
    · show r.stats.messages + r.stats.gapMessages = seq - seq
      omega
    · intro d hd
      have hd : d ∈ r.trace.delivered := hd
      rw [hnone] at hd
      cases hd
    · intro _ m hm hlt
      exact absurd hlt (Nat.not_lt.2 hm)
    · intro e he
      have he : e ∈ r.pending := he
      rw [hp] at he
      cases he
  · exact h

theorem Inv.onHeartbeat {r : Mold H} (h : Inv o session content r.view) {seq : Nat} (hs : seq < 2 ^ 64)
    (now : Nat) : Inv o session content (r.onHeartbeat o seq now).view := by
  unfold Mold.onHeartbeat
  dsimp only
  split
  · exact Inv.sync (r := { r with stats.heartbeats := r.stats.heartbeats + 1 }) h _ hs
  · split
    · rw [view_openGap]; exact h
    · exact h

theorem Core.view_countGap {r : Mold H} (h : Core o session content r.view) {seq : Nat}
    (hle : r.expectedSeq ≤ seq) (hlt : seq < 2 ^ 64) : (r.countGap seq).view =
      { r.view with gapMessages := r.stats.gapMessages + (seq - r.expectedSeq) } := by
  have hc : r.stats.messages + r.stats.gapMessages = r.expectedSeq - r.trace.first := h.counted
  have hsub : sub64 seq r.expectedSeq = seq - r.expectedSeq := sub64_eq hlt hle
  have hadd : add64 r.stats.gapMessages (seq - r.expectedSeq) =
      r.stats.gapMessages + (seq - r.expectedSeq) := add64_eq (by omega)
  unfold countGap
  rw [hsub, hadd]
  exact congrArg (fun v : View => { v with
    gapMessages := r.stats.gapMessages + (seq - r.expectedSeq) }) (view_noteSub (r := r) hle)

/-- Without recovery a gap is counted and the packet processed. -/
theorem Inv.passGap {r : Mold H} (h : Inv o session content r.view) (ho : o.recovery = false) {p : Bytes}
    (hp : IsData content p) (hgt : r.expectedSeq < packetSeq p) :
    Inv o session content { (r.countGap (packetSeq p)).process on p 0 with
      expectedSeq := packetSeq p + packetCount p }.view := by
  have hno_wrap := hp.no_wrap
  have hpos := hp.count_pos
  have hv := view_process on (r.countGap (packetSeq p)) hp 0
  rw [h.view_countGap (Nat.le_of_lt hgt) (by omega), Nat.sub_zero, Nat.add_zero] at hv
  have hd : { (r.countGap (packetSeq p)).process on p 0 with
      expectedSeq := packetSeq p + packetCount p }.view =
      (r.view.skip (packetSeq p) []).deliver content (packetSeq p + packetCount p) := by
    refine (congrArg (fun v : View => { v with expected := packetSeq p + packetCount p }) hv).trans ?_
    simp only [View.deliver, View.skip, Nat.add_sub_cancel_left, List.append_nil]
    rfl
  have hskip : Core o session content (r.view.skip (packetSeq p) []) :=
    h.toCore.skip _ _ (Nat.le_of_lt hgt) (by omega) (by simp [ho]) (fun e => by omega)
  have hcore := hskip.deliver (packetSeq p + packetCount p)
    (by show packetSeq p < _; omega) hno_wrap
  rw [hd]
  refine { hcore with ahead := fun e he => ?_ }
  have he : e ∈ r.view.pending := he
  rw [h.unbuffered ho] at he
  cases he

/-- With recovery the packet is kept, if there is room. -/
theorem Inv.buffer {r : Mold H} (h : Inv o session content r.view) (ho : o.recovery = true) {p : Bytes}
    (hp : IsData content p) (hgt : r.expectedSeq < packetSeq p) (h0 : r.expectedSeq ≠ 0) :
    Inv o session content (r.buffer o p).view := by
  unfold Mold.buffer
  dsimp only
  split
  · refine { h.rebuffer (h.buffered.emplace hp) (fun e => absurd e h0) (by simp [ho]) with
      ahead := fun e he => ?_ }
    rcases mem_emplace he with rfl | he
    · exact hgt
    · exact h.ahead e he
  · exact h

theorem Inv.onAhead {r : Mold H} (h : Inv o session content r.view) {p : Bytes} (hp : IsData content p)
    (hgt : r.expectedSeq < packetSeq p) (h0 : r.expectedSeq ≠ 0) (now : Nat) :
    Inv o session content (r.onAhead on o p now).view := by
  unfold Mold.onAhead
  dsimp only
  split
  · next ho =>
    rw [add64_eq hp.no_wrap]
    exact Inv.passGap (r := { r with stats.gaps := r.stats.gaps + 1 }) h (by simpa using ho) hp hgt
  · next ho =>
    rw [view_openGap]
    exact h.buffer (by simpa using ho) hp hgt h0

theorem sync_ne_zero (r : Mold H) {seq : Nat} (hs : 1 ≤ seq) : (r.sync seq).expectedSeq ≠ 0 := by
  unfold Mold.sync
  split
  · show seq ≠ 0
    omega
  · next h => exact h

theorem Inv.onData {r : Mold H} (h : Inv o session content r.view) {p : Bytes} (hp : IsData content p)
    (now : Nat) : Inv o session content (r.onData on o p now).view := by
  have hno_wrap := hp.no_wrap
  have hs := h.sync (packetSeq p) (by omega)
  have h0 := sync_ne_zero r hp.seq_pos
  unfold Mold.onData
  dsimp only
  rw [add64_eq hno_wrap]
  generalize r.sync (packetSeq p) = r at hs h0 ⊢
  split
  · exact hs
  · next hnext =>
    split
    · next hgt => exact hs.onAhead hp hgt h0 now
    · next hle => exact (hs.process hp (by omega) (by omega)).drain now

/-- A packet of the session: a heartbeat or a data packet. -/
structure IsPacket (session : Bytes) (content : Nat → Bytes) (p : Bytes) : Prop where
  header : 20 ≤ p.length
  session_eq : p.take 10 = session
  payload : packetCount p = 0 ∨ IsData content p

/-- The admissible calls of a session: its packets, and ticks. -/
def Admissible (session : Bytes) (content : Nat → Bytes) : Call → Prop
  | .packet p _ _ => IsPacket session content p
  | .tick _ => True

/-- Either no packet has been seen, or the receiver follows the session. -/
def Good (o : Options) (session : Bytes) (content : Nat → Bytes) (r : Mold H) : Prop :=
  Inv o session content r.view ∨
    (Inv o r.session content r.view ∧ r.expectedSeq = 0 ∧ r.recovering = false)

theorem Core.resession {v : View} {s s' : Bytes} (h : Core o s content v) :
    Core o s' content { v with session := s' } :=
  { h with in_session := rfl }

theorem Good.checkSession {r : Mold H} (h : Good o session content r) {p : Bytes}
    (hp : p.take 10 = session) : Inv o session content (r.checkSession p).view := by
  unfold Mold.checkSession
  split
  · next e =>
    rcases h with h | ⟨h, -⟩
    · exact h
    · rwa [← e, hp] at h
  · next e =>
    rcases h with h | ⟨h, h0, -⟩
    · exact absurd (hp.trans h.in_session.symm) e
    · have hpend : r.pending = [] := h.unsynced h0
      have hv : { r with
          session := p.take 10
          expectedSeq := 0
          pending := []
          recovering := false }.view = { r.view with session := session } := by
        show View.mk _ _ _ _ _ _ _ _ _ = View.mk _ _ _ _ _ _ _ _ _
        simp only [view, hp, hpend, h0]
      rw [hv]
      exact { h.toCore.resession with ahead := h.ahead }

theorem Good.onPacket {r : Mold H} (h : Good o session content r) {p : Bytes}
    (hp : IsPacket session content p) (now mono : Nat) :
    Inv o session content (r.onPacket on o p now mono).view := by
  unfold Mold.onPacket
  rw [if_neg (Nat.not_lt.2 hp.header)]
  have hg : Good o session content { r with stats.packets := r.stats.packets + 1 } := h
  have hi := hg.checkSession hp.session_eq
  dsimp only
  generalize { r with stats.packets := r.stats.packets + 1 }.checkSession p = r at hi ⊢
  split
  · exact hi
  · split
    · exact hi.onHeartbeat (be64 p 10).toNat_lt _
    · next hcount =>
      rcases hp.payload with h0 | hd
      · exact absurd h0 hcount
      · exact hi.onData hd _

/-- The timeout of `tick` gives up the numbers before the first buffered packet. -/
theorem Inv.giveUp {r : Mold H} (h : Inv o session content r.view) {e : Nat × Bytes}
    {l : List (Nat × Bytes)} (hl : r.pending = e :: l) (now : Nat) :
    Core o session content { r.countGap e.1 with
      trace.skipped := r.trace.skipped ++ [(r.expectedSeq, e.1)]
      expectedSeq := e.1
      gapSince := now }.view := by
  have hmem : e ∈ r.pending := by rw [hl]; exact List.mem_cons_self
  have hlt : r.expectedSeq < e.1 := h.ahead e hmem
  obtain ⟨hd, he⟩ : IsData content e.2 ∧ packetSeq e.2 = e.1 := h.buffered.data e hmem
  have hno_wrap := hd.no_wrap
  have hv := h.view_countGap (Nat.le_of_lt hlt) (by omega)
  have hs := h.toCore.skip e.1 [(r.expectedSeq, e.1)] (Nat.le_of_lt hlt)
    (by omega) (fun _ => rfl) (fun e0 => by omega)
  have hview : { r.countGap e.1 with
      trace.skipped := r.trace.skipped ++ [(r.expectedSeq, e.1)]
      expectedSeq := e.1
      gapSince := now }.view = r.view.skip e.1 [(r.expectedSeq, e.1)] :=
    congrArg (fun v : View => { v with
      skipped := v.skipped ++ [(r.expectedSeq, e.1)], expected := e.1 }) hv
  rw [hview]
  exact hs

theorem Inv.tick {r : Mold H} (h : Inv o session content r.view) (now : Nat) :
    Inv o session content (r.tick on o now).view := by
  unfold Mold.tick
  split
  · exact h
  · dsimp only
    split
    · split
      · exact h
      · next e l hl =>
        exact Core.drain (Inv.giveUp (r := { r.noteClock now r.gapSince with
          stats.gapTimeouts := r.stats.gapTimeouts + 1 }) h hl now) now
    · split
      · rw [view_requestGap]; exact h
      · exact h

theorem Good.call {r : Mold H} (h : Good o session content r) {c : Call}
    (hc : Admissible session content c) : Good o session content (r.call on o c) := by
  cases c with
  | packet p now mono => exact .inl (h.onPacket hc now mono)
  | tick now =>
    rcases h with h | ⟨h, h0, hr⟩
    · exact .inl (h.tick now)
    · right
      have e : r.call on o (.tick now) = r := by simp [Mold.call, Mold.tick, hr]
      rw [e]
      exact ⟨h, h0, hr⟩

theorem good_fresh (o : Options) (session : Bytes) (content : Nat → Bytes) (h0 : H) :
    Good o session content { handler := h0 } := by
  right
  refine ⟨⟨⟨rfl, le_rfl, Nat.two_pow_pos 64, rfl, List.Pairwise.nil, ?_, ?_, ⟨List.Pairwise.nil, ?_⟩,
    fun _ => rfl, fun _ => rfl, rfl⟩, ?_⟩, rfl, rfl⟩
  · intro d hd; cases hd
  · intro _ m _ hm; exact absurd hm (Nat.not_lt_zero m)
  · intro e he; cases he
  · intro e he; cases he

theorem Good.run {r : Mold H} (h : Good o session content r) (on : H → Msg → H) :
    ∀ (calls : List Call), (∀ c ∈ calls, Admissible session content c) →
      Good o session content (r.run on o calls) := by
  intro calls
  induction calls generalizing r with
  | nil => exact fun _ => h
  | cons c calls ih =>
    intro hc
    exact ih (h.call (hc c List.mem_cons_self)) fun c' h' => hc c' (List.mem_cons_of_mem _ h')

/-! ## Clock readings -/

/-- The time at which a call is handled. -/
def Call.time : Call → Nat
  | .packet _ now mono => if now = 0 then mono else now
  | .tick now => now

/-- The clock readings kept so far are at most `t`, and no difference of them has wrapped. -/
structure ClockOk (t : Nat) (r : Mold H) : Prop where
  gapSince_le : r.gapSince ≤ t
  lastRequest_le : r.lastRequest ≤ t
  unwrapped : r.trace.clockWrapped = false

theorem ClockOk.mono {t t' : Nat} {r : Mold H} (h : ClockOk t r) (ht : t ≤ t') : ClockOk t' r :=
  ⟨h.gapSince_le.trans ht, h.lastRequest_le.trans ht, h.unwrapped⟩

theorem ClockOk.noteClock {t b : Nat} {r : Mold H} (h : ClockOk t r) (hb : b ≤ t) :
    ClockOk t (r.noteClock t b) :=
  ⟨h.gapSince_le, h.lastRequest_le, by simp [Mold.noteClock, h.unwrapped, hb]⟩

theorem ClockOk.hand {t : Nat} {r : Mold H} (h : ClockOk t r) (number : Nat) (m : Bytes) :
    ClockOk t (r.hand on number m) := by
  unfold Mold.hand
  split <;> exact ⟨h.1, h.2, h.3⟩

theorem ClockOk.processLoop (on : H → Msg → H) {t : Nat} (p : Bytes) (skip : Nat) :
    ∀ (n i off : Nat) {r : Mold H}, ClockOk t r → ClockOk t (processLoop on p skip n i off r)
  | 0, _, _, _, h => h
  | n + 1, i, off, r, h => by
    rw [Mold.processLoop]
    dsimp only
    split
    · exact ⟨h.1, h.2, h.3⟩
    · split
      · exact ⟨h.1, h.2, h.3⟩
      · apply ClockOk.processLoop on p skip n
        split
        · exact h.hand _ _
        · exact h

theorem ClockOk.process {t : Nat} {r : Mold H} (h : ClockOk t r) (p : Bytes) (skip e : Nat) :
    ClockOk t { r.process on p skip with expectedSeq := e } :=
  have h' := ClockOk.processLoop on p skip (packetCount p) 0 20 h
  ⟨h'.1, h'.2, h'.3⟩

theorem ClockOk.requestGap {t : Nat} {r : Mold H} (h : ClockOk t r) :
    ClockOk t (r.requestGap o t) := by
  unfold Mold.requestGap
  split
  · exact h
  · split
    · exact h
    · exact ⟨h.1, le_rfl, h.3⟩

theorem ClockOk.openGap {t seq : Nat} {r : Mold H} (h : ClockOk t r) :
    ClockOk t (r.openGap o seq t) := by
  unfold Mold.openGap
  split
  · exact h
  · exact ClockOk.requestGap ⟨le_rfl, Nat.zero_le t, h.3⟩

theorem ClockOk.drainLoop (on : H → Msg → H) {t : Nat} : ∀ (l : List (Nat × Bytes)) {r : Mold H}, ClockOk t r →
    ClockOk t (drainLoop on l r)
  | [], _, h => ⟨h.1, h.2, h.3⟩
  | (seq, pkt) :: rest, r, h => by
    rw [Mold.drainLoop]
    split
    · exact ⟨h.1, h.2, h.3⟩
    · apply ClockOk.drainLoop on rest
      split
      · exact ClockOk.process (r := r.noteSub r.expectedSeq seq) ⟨h.1, h.2, h.3⟩ _ _ _
      · exact h

theorem ClockOk.drain {t : Nat} {r : Mold H} (h : ClockOk t r) : ClockOk t (r.drain on o t) := by
  have hd := ClockOk.drainLoop on r.pending h
  unfold Mold.drain
  dsimp only
  split
  · split <;> exact ⟨hd.1, hd.2, hd.3⟩
  · split
    · exact hd.requestGap
    · exact hd

theorem ClockOk.sync {t seq : Nat} {r : Mold H} (h : ClockOk t r) : ClockOk t (r.sync seq) := by
  unfold Mold.sync
  split
  · exact ⟨h.1, h.2, h.3⟩
  · exact h

theorem ClockOk.onHeartbeat {t seq : Nat} {r : Mold H} (h : ClockOk t r) :
    ClockOk t (r.onHeartbeat o seq t) := by
  have h' : ClockOk t { r with stats.heartbeats := r.stats.heartbeats + 1 } := ⟨h.1, h.2, h.3⟩
  unfold Mold.onHeartbeat
  dsimp only
  split
  · exact h'.sync
  · split
    · exact h'.openGap
    · exact h'

theorem ClockOk.onData {t : Nat} {r : Mold H} (h : ClockOk t r) (p : Bytes) :
    ClockOk t (r.onData on o p t) := by
  have hs : ClockOk t (r.sync (packetSeq p)) := h.sync
  unfold Mold.onData
  dsimp only
  generalize r.sync (packetSeq p) = r at hs ⊢
  split
  · exact ⟨hs.1, hs.2, hs.3⟩
  · split
    · unfold Mold.onAhead
      dsimp only
      split
      · exact ClockOk.process (r := { r with stats.gaps := r.stats.gaps + 1 }.countGap (packetSeq p))
          ⟨hs.1, hs.2, hs.3⟩ p 0 _
      · exact ClockOk.openGap (r := r.buffer o p) ⟨hs.1, hs.2, hs.3⟩
    · exact (ClockOk.process (r := r.noteSub r.expectedSeq (packetSeq p))
        ⟨hs.1, hs.2, hs.3⟩ p _ _).drain

theorem ClockOk.onPacket {t now mono : Nat} {r : Mold H} (h : ClockOk t r) (p : Bytes)
    (ht : t ≤ if now = 0 then mono else now) :
    ClockOk (if now = 0 then mono else now) (r.onPacket on o p now mono) := by
  have h' := h.mono ht
  unfold Mold.onPacket
  dsimp only
  generalize (if now = 0 then mono else now) = t' at h' ⊢
  split
  · exact ⟨h'.1, h'.2, h'.3⟩
  · have hc : ClockOk t' ({ r with stats.packets := r.stats.packets + 1 }.checkSession p) := by
      unfold Mold.checkSession
      split <;> exact ⟨h'.1, h'.2, h'.3⟩
    split
    · exact ⟨hc.1, hc.2, hc.3⟩
    · split
      · exact hc.onHeartbeat
      · exact hc.onData p

theorem ClockOk.tick {t now : Nat} {r : Mold H} (h : ClockOk t r) (ht : t ≤ now) :
    ClockOk now (r.tick on o now) := by
  have h' := h.mono ht
  unfold Mold.tick
  split
  · exact h'
  · have h1 := h'.noteClock h'.gapSince_le
    dsimp only
    split
    · split
      · exact ⟨h1.1, h1.2, h1.3⟩
      · exact ClockOk.drain ⟨le_rfl, h1.2, h1.3⟩
    · have h2 := h1.noteClock (r := r.noteClock now r.gapSince) h1.lastRequest_le
      split
      · exact h2.requestGap
      · exact h2

theorem ClockOk.run : ∀ (calls : List Call) {t : Nat} {r : Mold H}, ClockOk t r →
    (∀ c ∈ calls, t ≤ c.time) → (calls.map Call.time).Pairwise (· ≤ ·) →
    (r.run on o calls).trace.clockWrapped = false
  | [], _, _, h, _, _ => h.unwrapped
  | c :: calls, t, r, h, ht, hs => by
    obtain ⟨hc, hs⟩ := List.pairwise_cons.1 hs
    have hcall : ClockOk c.time (r.call on o c) := by
      cases c with
      | packet p now mono => exact h.onPacket p (ht _ List.mem_cons_self)
      | tick now => exact h.tick (ht _ List.mem_cons_self)
    exact ClockOk.run calls hcall
      (fun c' h' => hc _ (List.mem_map_of_mem h')) hs

/-! ## Delivery -/

/-- After every run of packets and ticks of one session: the numbers handed to `decode`
strictly increase and carry the session's bytes; delivered and lost messages add up to
the numbers passed since the first expected one; buffered packets lie ahead, so that no
subtraction wraps; and with recovery a number from the first expected one on is left out
only by a timeout of `tick`. -/
theorem delivery (on : H → Msg → H) (h0 : H) (o : Options) (session : Bytes)
    (content : Nat → Bytes) (calls : List Call)
    (hc : ∀ c ∈ calls, Admissible session content c) :
    let r := run on o { handler := h0 } calls
    ((r.trace.delivered.map Prod.fst).Pairwise (· < ·) ∧
      ∀ d ∈ r.trace.delivered, d.2 = content d.1) ∧
    (r.trace.first ≤ r.expectedSeq ∧
      r.stats.messages + r.stats.gapMessages = r.expectedSeq - r.trace.first) ∧
    ((∀ e ∈ r.pending, r.expectedSeq < e.1) ∧ r.trace.wrapped = false ∧
      ((calls.map Call.time).Pairwise (· ≤ ·) → r.trace.clockWrapped = false)) ∧
    (o.recovery = true → ∀ m, r.trace.first ≤ m → m < r.expectedSeq →
      m ∈ r.trace.delivered.map Prod.fst ∨ ∃ s ∈ r.trace.skipped, s.1 ≤ m ∧ m < s.2) := by
  intro r
  obtain ⟨s, h⟩ : ∃ s, Inv o s content r.view := by
    rcases (good_fresh o session content h0).run on calls hc with h | ⟨h, -⟩
    · exact ⟨_, h⟩
    · exact ⟨_, h⟩
  refine ⟨⟨h.increasing, fun d hd => (h.below d hd).2⟩, ⟨h.first_le, h.counted⟩,
    ⟨h.ahead, h.unwrapped, fun hs => ?_⟩, fun ho => h.covered ho⟩
  exact ClockOk.run calls (t := 0) ⟨le_rfl, le_rfl, rfl⟩ (fun _ _ => Nat.zero_le _) hs

end Receiver

/-! ## Runs of a small session -/

def put16 (v : Nat) : Bytes := [.ofNat (v / 256), .ofNat v]

def put64 (v : Nat) : Bytes := (List.range 8).map fun i => .ofNat (v / 256 ^ (7 - i))

/-- A packet of the session `SESSION001`. -/
def moldPacket (seq : Nat) (msgs : List Bytes) : Bytes :=
  "SESSION001".toList.map ch ++ put64 seq ++ put16 msgs.length ++
    msgs.flatMap fun m => put16 m.length ++ m

/-- A system event message. -/
def systemEvent : Bytes := ch 'S' :: List.replicate 11 0

theorem isPacket_one (seq : Nat) (h : seq ∈ [1, 2, 3, 5]) :
    IsPacket ("SESSION001".toList.map ch) (fun _ => systemEvent) (moldPacket seq [systemEvent]) := by
  fin_cases h <;>
    exact ⟨by decide, by decide, .inr ⟨by decide, by decide, by decide, by decide, by decide,
      by decide⟩⟩

/-- Message 3 overtakes message 2; the retransmission closes the gap. -/
theorem delivery_gap :
    let calls := [.packet (moldPacket 1 [systemEvent]) 1 1, .packet (moldPacket 3 [systemEvent]) 2 2,
      .tick 3, .packet (moldPacket 2 [systemEvent]) 4 4]
    let r := run (fun (n : Nat) _ => n + 1) { recovery := true } { handler := 0 } calls
    (∀ c ∈ calls, Admissible ("SESSION001".toList.map ch) (fun _ => systemEvent) c) ∧
      (r.trace.delivered.map Prod.fst).Pairwise (· < ·) ∧
      r.stats.messages + r.stats.gapMessages = r.expectedSeq - r.trace.first := by
  intro calls r
  have hc : ∀ c ∈ calls, Admissible ("SESSION001".toList.map ch) (fun _ => systemEvent) c := by
    intro c hc
    simp only [calls, List.mem_cons, List.not_mem_nil, or_false] at hc
    rcases hc with rfl | rfl | rfl | rfl
    · exact isPacket_one 1 (by decide)
    · exact isPacket_one 3 (by decide)
    · trivial
    · exact isPacket_one 2 (by decide)
  obtain ⟨⟨h1, -⟩, ⟨-, h2⟩, -⟩ := delivery (fun (n : Nat) _ => n + 1) 0 { recovery := true }
    ("SESSION001".toList.map ch) (fun _ => systemEvent) calls hc
  exact ⟨hc, h1, h2⟩

/-- A receiver that joins at message 5 has passed number 1 with no delivery and no timeout. -/
theorem late_join_misses :
    ∃ (session : Bytes) (content : Nat → Bytes) (calls : List Call),
      (∀ c ∈ calls, Admissible session content c) ∧
      ∃ m, let r := run (fun (n : Nat) _ => n + 1) { recovery := true } { handler := 0 } calls
        1 ≤ m ∧ m < r.expectedSeq ∧ m ∉ r.trace.delivered.map Prod.fst ∧
          ¬ ∃ s ∈ r.trace.skipped, s.1 ≤ m ∧ m < s.2 := by
  refine ⟨"SESSION001".toList.map ch, fun _ => systemEvent,
    [.packet (moldPacket 5 [systemEvent]) 1 1], ?_, 1, ?_⟩
  · intro c hc
    rw [List.mem_singleton] at hc
    subst hc
    exact isPacket_one 5 (by decide)
  · decide +kernel

end Stok.Mold
