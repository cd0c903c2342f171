import Stok.Market.MoldDelivery

/-!
# Gap recovery

What decides how a gap is recovered is the part `Rec` of a receiver, without the messages and the
handler; `rec_call` says that it is a machine of its own. `reach` is how far the buffered packets
lead on from a number.

A hole gets a timer of its own when recovery begins and when `tick` gives one up, but not when a
packet fills a hole and another one lies behind it; and recovery ends when nothing is buffered,
whether or not the end of the gap is reached. The two main results hold for runs in which neither
happens.
-/

namespace Stok.Mold

/-- The state that decides the recovery of a gap. -/
structure Rec where
  session : Bytes
  expected : Nat
  recovering : Bool
  gapSince : Nat
  gapEnd : Nat
  pending : List (Nat × Bytes)
  recovered : Nat
  timeouts : Nat
  skipped : List (Nat × Nat)

/-- The number that the buffered packets lead to from `n`, and those that are left. -/
def reach : Nat → List (Nat × Bytes) → Nat × List (Nat × Bytes)
  | n, [] => (n, [])
  | n, (seq, pkt) :: rest =>
    if seq > n then (n, (seq, pkt) :: rest)
    else
      let next := add64 seq (packetCount pkt)
      reach (if next > n then next else n) rest

namespace Rec

variable (o : Options)

def drain (v : Rec) : Rec :=
  let (n, l) := reach v.expected v.pending
  let v := { v with expected := n, pending := l }
  if l.isEmpty then
    { v with recovering := false, recovered := if v.recovering then v.recovered + 1 else v.recovered }
  else v

def openGap (v : Rec) (seq now : Nat) : Rec :=
  if v.recovering then v else { v with recovering := true, gapSince := now, gapEnd := seq }

def checkSession (v : Rec) (p : Bytes) : Rec :=
  if p.take 10 = v.session then v
  else { v with session := p.take 10, expected := 0, pending := [], recovering := false }

def sync (v : Rec) (seq : Nat) : Rec := if v.expected = 0 then { v with expected := seq } else v

def onHeartbeat (v : Rec) (seq now : Nat) : Rec :=
  if v.expected = 0 then v.sync seq else if seq > v.expected then v.openGap seq now else v

/-- A packet past the expected number. -/
def onAhead (v : Rec) (p : Bytes) (now : Nat) : Rec :=
  { v with pending := if v.pending.length < o.maxBuffered then emplace (packetSeq p) p v.pending
    else v.pending }.openGap (packetSeq p) now

def onData (v : Rec) (p : Bytes) (now : Nat) : Rec :=
  let v := v.sync (packetSeq p)
  let next := add64 (packetSeq p) (packetCount p)
  if next ≤ v.expected then v
  else if packetSeq p > v.expected then v.onAhead o p now
  else { v with expected := next }.drain

def onPacket (v : Rec) (p : Bytes) (now : Nat) : Rec :=
  if p.length < 20 then v
  else
    let v := v.checkSession p
    if packetCount p = 0xFFFF then v
    else if packetCount p = 0 then v.onHeartbeat (packetSeq p) now
    else v.onData o p now

/-- The numbers before `n` are given up. -/
def skipTo (v : Rec) (n now : Nat) : Rec :=
  { v with
    timeouts := v.timeouts + 1
    skipped := v.skipped ++ [(v.expected, n)]
    expected := n
    gapSince := now }

def tick (v : Rec) (now : Nat) : Rec :=
  if !v.recovering then v
  else if sub64 now v.gapSince > msToNs o.gapTimeoutMs then
    match v.pending with
    | [] => { v with timeouts := v.timeouts + 1, recovering := false }
    | e :: _ => (v.skipTo e.1 now).drain
  else v

def call (v : Rec) : Call → Rec
  | .packet p now mono => v.onPacket o p (if now = 0 then mono else now)
  | .tick now => v.tick o now

end Rec

section Receiver

variable {H : Type} {on : H → Itch.Msg → H} {o : Options}

/-- The part of a receiver that decides the recovery. -/
def toRec (r : Mold H) : Rec where
  session := r.session
  expected := r.expectedSeq
  recovering := r.recovering
  gapSince := r.gapSince
  gapEnd := r.gapEnd
  pending := r.pending
  recovered := r.stats.recovered
  timeouts := r.stats.gapTimeouts
  skipped := r.trace.skipped

theorem toRec_hand (r : Mold H) (number : Nat) (m : Bytes) : (r.hand on number m).toRec = r.toRec := by
  unfold hand
  dsimp only
  split <;> rfl

theorem toRec_processLoop (p : Bytes) (skip : Nat) : ∀ (n i off : Nat) (r : Mold H),
    (processLoop on p skip n i off r).toRec = r.toRec
  | 0, _, _, _ => rfl
  | n + 1, i, off, r => by
    rw [processLoop]
    split
    · rfl
    · dsimp only
      split
      · rfl
      · rw [toRec_processLoop p skip n]
        split
        · exact toRec_hand r _ _
        · rfl

theorem toRec_process (r : Mold H) (p : Bytes) (skip : Nat) : (r.process on p skip).toRec = r.toRec :=
  toRec_processLoop p skip _ _ _ r

theorem toRec_requestGap (r : Mold H) (now : Nat) : (r.requestGap o now).toRec = r.toRec := by
  unfold requestGap
  split
  · rfl
  · split
    · rfl
    · rfl

theorem toRec_openGap (r : Mold H) (seq now : Nat) :
    (r.openGap o seq now).toRec = r.toRec.openGap seq now := by
  unfold openGap Rec.openGap
  split
  · rename_i h
    exact (if_pos h).symm
  · rename_i h
    exact (toRec_requestGap _ now).trans (if_neg h).symm

/-- A packet at the expected number. -/
theorem toRec_pass (r : Mold H) (p : Bytes) (skip next a b : Nat) :
    ({ (r.noteSub a b).process on p skip with expectedSeq := next } : Mold H).toRec =
      { r.toRec with expected := next } := by
  have h : ((r.noteSub a b).process on p skip).toRec = r.toRec := toRec_process (r.noteSub a b) p skip
  exact congrArg (fun v : Rec => { v with expected := next }) h

theorem toRec_drainLoop : ∀ (l : List (Nat × Bytes)) (r : Mold H), (drainLoop on l r).toRec =
    { r.toRec with expected := (reach r.expectedSeq l).1, pending := (reach r.expectedSeq l).2 }
  | [], _ => rfl
  | (seq, pkt) :: rest, r => by
    rw [drainLoop, reach]
    split
    · rfl
    · dsimp only
      rw [toRec_drainLoop rest]
      split
      · rename_i h
        rw [toRec_pass]
      · rfl

theorem toRec_drain (r : Mold H) (now : Nat) : (r.drain on o now).toRec = r.toRec.drain := by
  have h : (drainLoop on r.pending r).toRec = { r.toRec with
      expected := (reach r.expectedSeq r.pending).1
      pending := (reach r.expectedSeq r.pending).2 } := toRec_drainLoop r.pending r
  unfold drain Rec.drain
  dsimp only
  generalize drainLoop on r.pending r = d at h ⊢
  have hp : d.pending.isEmpty = (reach r.toRec.expected r.toRec.pending).2.isEmpty :=
    congrArg (fun v : Rec => v.pending.isEmpty) h
  have hr : d.recovering = r.toRec.recovering := congrArg Rec.recovering h
  cases hl : (reach r.toRec.expected r.toRec.pending).2.isEmpty with
  | true =>
    rw [if_pos (hp.trans hl), if_pos rfl, ← hr]
    have hout := congrArg (fun v : Rec => { v with
      recovering := false
      recovered := if d.recovering then v.recovered + 1 else v.recovered }) h
    refine Eq.trans ?_ hout
    cases d.recovering <;> rfl
  | false =>
    rw [if_neg (by rw [hp, hl]; decide)]
    refine Eq.trans ?_ (if_neg Bool.false_ne_true).symm
    split
    · exact (toRec_requestGap d now).trans h
    · exact h

theorem toRec_sync (r : Mold H) (seq : Nat) : (r.sync seq).toRec = r.toRec.sync seq := by
  unfold sync Rec.sync
  split
  · rename_i h
    exact (if_pos h).symm
  · rename_i h
    exact (if_neg h).symm

theorem toRec_checkSession (r : Mold H) (p : Bytes) :
    (r.checkSession p).toRec = r.toRec.checkSession p := by
  unfold checkSession Rec.checkSession
  split
  · rename_i h
    exact (if_pos h).symm
  · rename_i h
    exact (if_neg h).symm

theorem toRec_onHeartbeat (ho : o.recovery = true) (r : Mold H) (seq now : Nat) :
    (r.onHeartbeat o seq now).toRec = r.toRec.onHeartbeat seq now := by
  unfold onHeartbeat Rec.onHeartbeat
  dsimp only
  split
  · rename_i h
    exact (toRec_sync { r with stats.heartbeats := r.stats.heartbeats + 1 } seq).trans (if_pos h).symm
  · rename_i h
    refine Eq.trans ?_ (if_neg h).symm
    split
    · rename_i hs
      exact (toRec_openGap _ seq now).trans (if_pos hs.1).symm
    · rename_i hs
      exact (if_neg fun hlt => hs ⟨hlt, ho⟩).symm

theorem toRec_onAhead (ho : o.recovery = true) (r : Mold H) (p : Bytes) (now : Nat) :
    (r.onAhead on o p now).toRec = r.toRec.onAhead o p now := by
  unfold onAhead
  dsimp only
  rw [if_neg (by rw [ho]; decide)]
  exact toRec_openGap (r.buffer o p) (packetSeq p) now

theorem toRec_onData (ho : o.recovery = true) (r : Mold H) (p : Bytes) (now : Nat) :
    (r.onData on o p now).toRec = r.toRec.onData o p now := by
  unfold onData Rec.onData
  dsimp only
  rw [← toRec_sync]
  generalize r.sync (packetSeq p) = s
  split
  · rename_i h
    exact (if_pos h).symm
  · rename_i h
    refine Eq.trans ?_ (if_neg h).symm
    split
    · rename_i hs
      exact (toRec_onAhead ho s p now).trans (if_pos hs).symm
    · rename_i hs
      refine Eq.trans ?_ (if_neg hs).symm
      rw [toRec_drain, toRec_pass]

theorem toRec_onPacket (ho : o.recovery = true) (r : Mold H) (p : Bytes) (now mono : Nat) :
    (r.onPacket on o p now mono).toRec = r.toRec.onPacket o p (if now = 0 then mono else now) := by
  unfold onPacket Rec.onPacket
  split
  · rfl
  · dsimp only
    have hsession : (({ r with stats.packets := r.stats.packets + 1 } : Mold H).checkSession p).toRec =
        r.toRec.checkSession p := toRec_checkSession _ p
    rw [← hsession]
    generalize ({ r with stats.packets := r.stats.packets + 1 } : Mold H).checkSession p = s
    split
    · rfl
    · split
      · exact toRec_onHeartbeat ho s _ _
      · exact toRec_onData ho s p _

theorem toRec_tick (r : Mold H) (now : Nat) : (r.tick on o now).toRec = r.toRec.tick o now := by
  unfold tick Rec.tick
  split
  · rename_i h
    exact (if_pos h).symm
  · rename_i h
    refine Eq.trans ?_ (if_neg h).symm
    dsimp only
    split
    · rename_i ht
      refine Eq.trans ?_ (if_pos ht).symm
      split
      · rename_i hp
        split
        · rfl
        · rename_i hp'
          exact absurd (hp.symm.trans hp') (List.cons_ne_nil _ _).symm
      · rename_i e rest hp
        rw [show r.toRec.pending = e :: rest from hp]
        exact toRec_drain _ now
    · rename_i ht
      refine Eq.trans ?_ (if_neg ht).symm
      split
      · exact toRec_requestGap _ now
      · rfl

/-- The recovery of a receiver goes on as that of its part `toRec` does. -/
theorem toRec_call (on : H → Itch.Msg → H) (ho : o.recovery = true) (r : Mold H) (c : Call) :
    (r.call on o c).toRec = r.toRec.call o c := by
  cases c with
  | packet p now mono => exact toRec_onPacket ho r p now mono
  | tick now => exact toRec_tick r now

end Receiver

/-! ## The moves of the machine -/

/-- What the buffered packets lead to. -/
theorem reach_spec : ∀ (n : Nat) {l : List (Nat × Bytes)}, l.Pairwise (fun a b => a.1 < b.1) →
    n ≤ (reach n l).1 ∧ (reach n l).2.Sublist l ∧ (∀ e ∈ (reach n l).2, (reach n l).1 < e.1) ∧
      ((reach n l).2 = [] → ∀ e ∈ l, e.1 ≤ (reach n l).1 ∧ add64 e.1 (packetCount e.2) ≤ (reach n l).1)
  | n, [], _ => ⟨le_rfl, List.Sublist.refl _, fun e he => absurd he List.not_mem_nil,
      fun _ e he => absurd he List.not_mem_nil⟩
  | n, (seq, pkt) :: rest, hs => by
    obtain ⟨hlt, hs'⟩ := List.pairwise_cons.mp hs
    rw [reach]
    split
    · rename_i hgt
      refine ⟨le_rfl, List.Sublist.refl _, fun e he => ?_, fun h => absurd h (List.cons_ne_nil _ _)⟩
      rcases List.mem_cons.mp he with rfl | he
      · exact hgt
      · exact Nat.lt_trans hgt (hlt e he)
    · rename_i hle
      dsimp only
      have hmax : n ≤ (if add64 seq (packetCount pkt) > n then add64 seq (packetCount pkt) else n) ∧
          add64 seq (packetCount pkt) ≤
            (if add64 seq (packetCount pkt) > n then add64 seq (packetCount pkt) else n) := by
        split <;> omega
      generalize (if add64 seq (packetCount pkt) > n then add64 seq (packetCount pkt) else n) = m
        at hmax ⊢
      obtain ⟨h1, h2, h3, h4⟩ := reach_spec m hs'
      refine ⟨hmax.1.trans h1, h2.cons _, h3, fun h e he => ?_⟩
      rcases List.mem_cons.mp he with rfl | he
      · exact ⟨(Nat.le_of_not_lt hle).trans (hmax.1.trans h1), hmax.2.trans h1⟩
      · exact h4 h e he

namespace Rec

variable {o : Options} {v v' : Rec} {c : Call}

/-- The invariant of the machine: what is buffered lies ahead, in order, and only while a gap is
open. -/
structure Ok (v : Rec) : Prop where
  sorted : v.pending.Pairwise fun a b => a.1 < b.1
  ahead : ∀ e ∈ v.pending, v.expected < e.1
  gap : v.pending ≠ [] → v.recovering = true
  started : v.recovering = true → v.expected ≠ 0

/-- A data packet of the session that a receiver follows. -/
def Follows (v : Rec) (p : Bytes) : Prop :=
  20 ≤ p.length ∧ p.take 10 = v.session ∧ packetCount p ≠ 0 ∧ packetCount p ≠ 0xFFFF

/-- A packet at the expected number. -/
def Fills (v : Rec) (p : Bytes) : Prop :=
  v.Follows p ∧ packetSeq p ≤ v.expected ∧ v.expected < add64 (packetSeq p) (packetCount p)

/-- What a call does. -/
inductive Move (o : Options) (v : Rec) (c : Call) : Rec → Prop where
  | keep : Move o v c v
  /-- The receiver joins a session. -/
  | join {v' : Rec} : v.expected = 0 ∨ v'.session ≠ v.session → v'.recovering = false →
      v'.pending = [] → v'.recovered = v.recovered → v'.timeouts = v.timeouts →
      v'.skipped = v.skipped → Move o v c v'
  | gap {p : Bytes} {now mono : Nat} {l : List (Nat × Bytes)} : c = .packet p now mono →
      v.recovering = false → v.expected ≠ 0 → v.expected < packetSeq p →
      l = [] ∨ l = [(packetSeq p, p)] →
      Move o v c { v with recovering := true, gapSince := c.time, gapEnd := packetSeq p, pending := l }
  | buffer {p : Bytes} {now mono : Nat} : c = .packet p now mono → v.recovering = true →
      v.Follows p → v.expected < packetSeq p → v.pending.length < o.maxBuffered →
      Move o v c { v with pending := emplace (packetSeq p) p v.pending }
  | fill {p : Bytes} {now mono : Nat} : c = .packet p now mono → v.Fills p → v.expected ≠ 0 →
      Move o v c { v with expected := add64 (packetSeq p) (packetCount p) }.drain
  | abandon {now : Nat} : c = .tick now → v.recovering = true → v.pending = [] →
      Move o v c { v with timeouts := v.timeouts + 1, recovering := false }
  | giveUp {now : Nat} {e : Nat × Bytes} {rest : List (Nat × Bytes)} : c = .tick now →
      v.recovering = true → v.pending = e :: rest → sub64 now v.gapSince > msToNs o.gapTimeoutMs →
      Move o v c (v.skipTo e.1 now).drain

theorem drain_nil (hp : v.pending = []) (hr : v.recovering = false) : v.drain = v := by
  obtain ⟨session, expected, recovering, gapSince, gapEnd, pending, recovered, timeouts, skipped⟩ := v
  dsimp only at hp hr
  subst hp hr
  rfl

theorem drain_cases (v : Rec) :
    ((reach v.expected v.pending).2 = [] ∧ v.drain = { v with
      expected := (reach v.expected v.pending).1
      pending := []
      recovering := false
      recovered := if v.recovering then v.recovered + 1 else v.recovered }) ∨
    ((reach v.expected v.pending).2 ≠ [] ∧ v.drain = { v with
      expected := (reach v.expected v.pending).1
      pending := (reach v.expected v.pending).2 }) := by
  unfold drain
  rcases hr : reach v.expected v.pending with ⟨n, _ | ⟨e, l⟩⟩
  · exact .inl ⟨rfl, rfl⟩
  · exact .inr ⟨List.cons_ne_nil _ _, rfl⟩

/-- A packet of a session that has just begun. -/
theorem onPacket_join (h0 : v.expected = 0) (hr : v.recovering = false) (hp : v.pending = [])
    (p : Bytes) (now : Nat) :
    let v' := if packetCount p = 0xFFFF then v
      else if packetCount p = 0 then v.onHeartbeat (packetSeq p) now else v.onData o p now
    v'.session = v.session ∧ v'.recovering = false ∧ v'.pending = [] ∧ v'.recovered = v.recovered ∧
      v'.timeouts = v.timeouts ∧ v'.skipped = v.skipped := by
  have hsync : v.sync (packetSeq p) = { v with expected := packetSeq p } := if_pos h0
  dsimp only
  split
  · exact ⟨rfl, hr, hp, rfl, rfl, rfl⟩
  · split
    · rw [onHeartbeat, if_pos h0, hsync]
      exact ⟨rfl, hr, hp, rfl, rfl, rfl⟩
    · rw [onData, hsync]
      dsimp only
      split
      · exact ⟨rfl, hr, hp, rfl, rfl, rfl⟩
      · rw [if_neg (Nat.lt_irrefl _)]
        have hd : ({ v with expected := add64 (packetSeq p) (packetCount p) } : Rec).drain =
            { v with expected := add64 (packetSeq p) (packetCount p) } := drain_nil hp hr
        rw [hd]
        exact ⟨rfl, hr, hp, rfl, rfl, rfl⟩

/-- Nothing is buffered while no gap is open. -/
theorem Ok.pending_nil (hv : v.Ok) (hr : v.recovering = false) : v.pending = [] := by
  by_contra hne
  exact absurd (hv.gap hne) (by rw [hr]; decide)

theorem onAhead_move (hv : v.Ok) {p : Bytes} {now mono : Nat} (hp : v.Follows p) (h0 : v.expected ≠ 0)
    (hlt : v.expected < packetSeq p) :
    Move o v (.packet p now mono) (v.onAhead o p (if now = 0 then mono else now)) := by
  unfold onAhead
  by_cases hr : v.recovering = true
  · have hopen : ∀ l, ({ v with pending := l } : Rec).openGap (packetSeq p)
        (if now = 0 then mono else now) = { v with pending := l } := fun l => if_pos hr
    rw [hopen]
    split
    · rename_i hlen
      exact .buffer rfl hr hp hlt hlen
    · exact .keep
  · have hopen : ∀ l, ({ v with pending := l } : Rec).openGap (packetSeq p)
        (if now = 0 then mono else now) = { v with
          recovering := true
          gapSince := if now = 0 then mono else now
          gapEnd := packetSeq p
          pending := l } := fun l => if_neg hr
    have hr : v.recovering = false := by simpa using hr
    rw [hopen, hv.pending_nil hr]
    refine .gap rfl hr h0 hlt ?_
    split
    · exact .inr rfl
    · exact .inl rfl

theorem onPacket_move (hv : v.Ok) (p : Bytes) (now mono : Nat) :
    Move o v (.packet p now mono) (v.onPacket o p (if now = 0 then mono else now)) := by
  unfold onPacket
  split
  · exact .keep
  · rename_i hlen
    unfold checkSession
    split
    · rename_i hs
      by_cases h0 : v.expected = 0
      · have hr : v.recovering = false := by
          cases hr : v.recovering with
          | false => rfl
          | true => exact absurd h0 (hv.started hr)
        obtain ⟨-, h⟩ := onPacket_join (o := o) h0 hr (hv.pending_nil hr) p
          (if now = 0 then mono else now)
        exact .join (.inl h0) h.1 h.2.1 h.2.2.1 h.2.2.2.1 h.2.2.2.2
      · dsimp only
        split
        · exact .keep
        · rename_i hend
          split
          · rw [onHeartbeat, if_neg h0]
            split
            · rename_i hlt
              unfold openGap
              split
              · exact .keep
              · rename_i hr
                have hr : v.recovering = false := by simpa using hr
                exact .gap rfl hr h0 hlt (.inl (hv.pending_nil hr))
            · exact .keep
          · rename_i hcount
            have hsync : v.sync (packetSeq p) = v := if_neg h0
            rw [onData, hsync]
            have hf : v.Follows p := ⟨by omega, hs, hcount, hend⟩
            split
            · exact .keep
            · rename_i hnext
              split
              · rename_i hlt
                exact onAhead_move hv hf h0 hlt
              · rename_i hle
                exact .fill rfl ⟨hf, by omega, by omega⟩ h0
    · rename_i hs
      obtain ⟨hsess, h⟩ := onPacket_join (o := o)
        (v := { v with session := p.take 10, expected := 0, pending := [], recovering := false })
        rfl rfl rfl p (if now = 0 then mono else now)
      refine .join (.inr ?_) h.1 h.2.1 h.2.2.1 h.2.2.2.1 h.2.2.2.2
      exact fun heq => hs (hsess.symm.trans heq)

theorem call_move (hv : v.Ok) (c : Call) : Move o v c (v.call o c) := by
  cases c with
  | packet p now mono => exact onPacket_move hv p now mono
  | tick now =>
    show Move o v _ (v.tick o now)
    unfold tick
    split
    · exact .keep
    · rename_i hr
      have hr : v.recovering = true := by simpa using hr
      split
      · rename_i ht
        split
        · rename_i hp
          exact .abandon rfl hr hp
        · rename_i e rest hp
          exact .giveUp rfl hr hp ht
      · exact .keep

/-! ## The invariant -/

theorem Ok.drain {v : Rec} (hs : v.pending.Pairwise fun a b => a.1 < b.1)
    (hr : v.pending ≠ [] → v.recovering = true) (h0 : v.expected ≠ 0) : v.drain.Ok := by
  obtain ⟨hle, hsub, hahead, -⟩ := reach_spec v.expected hs
  unfold Rec.drain
  dsimp only
  split
  · rename_i hnil
    rw [List.isEmpty_iff] at hnil
    rw [hnil] at hahead ⊢
    exact ⟨List.Pairwise.nil, fun e he => absurd he List.not_mem_nil, fun h => absurd rfl h,
      fun h => absurd h Bool.false_ne_true⟩
  · refine ⟨hs.sublist hsub, hahead, fun hne => hr fun hnil => hne ?_,
      fun _ => Nat.ne_of_gt ((Nat.pos_of_ne_zero h0).trans_le hle)⟩
    show (reach v.expected v.pending).2 = []
    rw [hnil]
    rfl

theorem Move.ok (hv : v.Ok) (hm : Move o v c v') : v'.Ok := by
  cases hm with
  | keep => exact hv
  | join hs hr hp =>
    refine ⟨?_, ?_, fun h => absurd hp h, fun h => absurd h (by rw [hr]; decide)⟩
    · rw [hp]
      exact List.Pairwise.nil
    · rw [hp]
      exact fun e he => absurd he List.not_mem_nil
  | gap hc hr h0 hlt hl =>
    refine ⟨?_, ?_, fun _ => rfl, fun _ => h0⟩
    · rcases hl with rfl | rfl
      · exact List.Pairwise.nil
      · exact List.pairwise_singleton _ _
    · rcases hl with rfl | rfl
      · exact fun e he => absurd he List.not_mem_nil
      · intro e he
        rw [List.mem_singleton.mp he]
        exact hlt
  | buffer hc hr hf hlt hlen =>
    refine ⟨emplace_sorted hv.sorted, fun e he => ?_, fun _ => hr, hv.started⟩
    rcases mem_emplace he with rfl | he
    · exact hlt
    · exact hv.ahead e he
  | fill hc hf h0 =>
    refine Ok.drain hv.sorted hv.gap ?_
    have := hf.2.2
    show add64 _ _ ≠ 0
    omega
  | abandon hc hr hp =>
    refine ⟨hv.sorted, hv.ahead, fun h => absurd hp h, fun h => absurd h Bool.false_ne_true⟩
  | @giveUp now e rest hc hr hp ht =>
    refine Ok.drain hv.sorted hv.gap ?_
    have := hv.ahead e (by rw [hp]; exact List.mem_cons_self)
    show e.1 ≠ 0
    omega

def run (o : Options) (v : Rec) (calls : List Call) : Rec := calls.foldl (call o) v

theorem run_concat (v : Rec) (calls : List Call) (c : Call) :
    run o v (calls ++ [c]) = (run o v calls).call o c :=
  List.foldl_concat ..

theorem Ok.run (hv : v.Ok) (calls : List Call) : (run o v calls).Ok := by
  induction calls generalizing v with
  | nil => exact hv
  | cons c calls ih => exact ih ((call_move hv c).ok hv)

/-! ## Timers -/

/-- The end of the hole at the expected number, as far as it is known. -/
def holeEnd (v : Rec) : Nat :=
  match v.pending with
  | [] => v.gapEnd
  | e :: _ => e.1

/-- The numbers from `a` to `b` are missing, and nothing is buffered before them. -/
def NextHole (v : Rec) (a b : Nat) : Prop :=
  v.recovering = true ∧ v.expected ≤ a ∧ ∀ e ∈ v.pending, b ≤ e.1

/-- A packet past `b` is buffered, or was handled by the call. -/
def Knows (v : Rec) (c : Call) (b : Nat) : Prop :=
  (∃ e ∈ v.pending, b ≤ e.1) ∨
    match c with
    | .packet p _ _ => b ≤ packetSeq p
    | .tick _ => False

/-- A packet that arrives in order while a gap is open closes no hole or all of them, and one that
is buffered first does not lie past the end of the gap. -/
def Fair (o : Options) (v : Rec) : Call → Prop
  | .packet p _ _ => v.recovering = true → v.Follows p →
    (v.Fills p → let left := (reach (add64 (packetSeq p) (packetCount p)) v.pending).2
      left = v.pending ∨ left = []) ∧
    (v.expected < packetSeq p → v.pending = [] → 0 < o.maxBuffered → packetSeq p ≤ v.gapEnd)
  | .tick _ => True

/-- After the calls `past`: the timer of the hole was set by a call that knew of a packet past it,
and since then it has been the hole at the expected number. -/
def Timer (o : Options) (v₀ : Rec) (past : List Call) : Prop :=
  let v := run o v₀ past
  v.recovering = true → ∃ i c, past[i]? = some c ∧ c.time = v.gapSince ∧
    Knows (run o v₀ (past.take (i + 1))) c v.holeEnd ∧
    ∀ k, i < k → k ≤ past.length → NextHole (run o v₀ (past.take k)) v.expected v.holeEnd

theorem NextHole.mono {a b a' b' : Nat} (h : NextHole v a b) (ha : a ≤ a') (hb : b' ≤ b) :
    NextHole v a' b' :=
  ⟨h.1, h.2.1.trans ha, fun e he => hb.trans (h.2.2 e he)⟩

theorem Knows.mono {b b' : Nat} (h : Knows v c b) (hb : b' ≤ b) : Knows v c b' := by
  rcases h with ⟨e, he, hle⟩ | h
  · exact .inl ⟨e, he, hb.trans hle⟩
  · cases c with
    | packet p now mono => exact .inr (hb.trans h)
    | tick now => exact .inr h

theorem Ok.holeEnd_le (hv : v.Ok) : ∀ e ∈ v.pending, v.holeEnd ≤ e.1 := by
  intro e he
  have hs := hv.sorted
  unfold holeEnd
  cases hp : v.pending with
  | nil => rw [hp] at he; exact absurd he List.not_mem_nil
  | cons x l =>
    rw [hp] at he hs
    rcases List.mem_cons.mp he with rfl | he
    · exact le_rfl
    · exact ((List.pairwise_cons.mp hs).1 e he).le

theorem Ok.nextHole (hv : v.Ok) (hr : v.recovering = true) : NextHole v v.expected v.holeEnd :=
  ⟨hr, le_rfl, hv.holeEnd_le⟩

variable {v₀ : Rec} {past : List Call}

/-- A call that sets the timer. -/
theorem Timer.start (hv : (run o v₀ (past ++ [c])).Ok)
    (hsince : (run o v₀ (past ++ [c])).gapSince = c.time)
    (hk : (run o v₀ (past ++ [c])).recovering = true →
      Knows (run o v₀ (past ++ [c])) c (run o v₀ (past ++ [c])).holeEnd) :
    Timer o v₀ (past ++ [c]) := by
  intro hr
  have htake : (past ++ [c]).take (past.length + 1) = past ++ [c] :=
    List.take_of_length_le (by simp)
  refine ⟨past.length, c, by simp, hsince.symm, ?_, fun k hlt hle => ?_⟩
  · rw [htake]
    exact hk hr
  · rw [List.length_append] at hle
    have : k = past.length + 1 := Nat.le_antisymm hle hlt
    rw [this, htake]
    exact hv.nextHole hr

/-- A call that leaves the timer and does not put the hole elsewhere. -/
theorem Timer.extend (ht : Timer o v₀ past) (hv : (run o v₀ (past ++ [c])).Ok)
    (hr : (run o v₀ past).recovering = true)
    (hsince : (run o v₀ (past ++ [c])).gapSince = (run o v₀ past).gapSince)
    (hexp : (run o v₀ past).expected ≤ (run o v₀ (past ++ [c])).expected)
    (hend : (run o v₀ (past ++ [c])).holeEnd ≤ (run o v₀ past).holeEnd) :
    Timer o v₀ (past ++ [c]) := by
  intro hr'
  obtain ⟨i, c', hi, htime, hk, hnext⟩ := ht hr
  have hlt : i < past.length := (List.getElem?_eq_some_iff.mp hi).1
  refine ⟨i, c', ?_, htime.trans hsince.symm, ?_, fun k hik hle => ?_⟩
  · rw [List.getElem?_append_left hlt]
    exact hi
  · rw [List.take_append_of_le_length hlt]
    exact hk.mono hend
  · rcases Nat.lt_or_ge past.length k with hk' | hk'
    · rw [List.take_of_length_le (by rw [List.length_append]; exact hk')]
      exact hv.nextHole hr'
    · rw [List.take_append_of_le_length hk']
      exact (hnext k hik hk').mono hexp hend

theorem holeEnd_emplace (k : Nat) (p : Bytes) (hk : v.pending = [] → k ≤ v.gapEnd) :
    ({ v with pending := emplace k p v.pending } : Rec).holeEnd ≤ v.holeEnd := by
  unfold holeEnd
  cases hp : v.pending with
  | nil => exact hk hp
  | cons e l =>
    show (match emplace k p (e :: l) with | [] => v.gapEnd | x :: _ => x.1) ≤ e.1
    rw [emplace]
    by_cases hlt : k < e.1
    · rw [if_pos hlt]
      exact hlt.le
    · rw [if_neg hlt]
      by_cases heq : k = e.1
      · rw [if_pos heq]
      · rw [if_neg heq]

theorem Timer.call (hv : (run o v₀ past).Ok) (ht : Timer o v₀ past)
    (hfair : Fair o (run o v₀ past) c) : Timer o v₀ (past ++ [c]) := by
  have hm := call_move (o := o) hv c
  have hok := hm.ok hv
  rw [← run_concat] at hm hok
  have hoff : (run o v₀ (past ++ [c])).recovering = false → Timer o v₀ (past ++ [c]) :=
    fun h hr => absurd hr (by rw [h]; decide)
  generalize hv' : run o v₀ (past ++ [c]) = v' at hm
  cases hm with
  | keep =>
    intro hr
    rw [hv'] at hr
    exact ht.extend hok hr (by rw [hv']) (by rw [hv']) (by rw [hv']) (hv' ▸ hr)
  | join hs hr hp => exact hoff (by rw [hv']; exact hr)
  | @gap p now mono l hc hr h0 hlt hl =>
    refine Timer.start hok (by rw [hv']) fun _ => ?_
    rw [hv', hc]
    refine .inr ?_
    rcases hl with rfl | rfl <;> exact le_rfl
  | @buffer p now mono hc hr hf hlt hlen =>
    subst hc
    refine ht.extend hok hr (by rw [hv']) (by rw [hv']) ?_
    rw [hv']
    refine holeEnd_emplace _ p fun hnil => ?_
    exact (hfair hr hf).2 hlt hnil (by rwa [hnil] at hlen)
  | @fill p now mono hc hf h0 =>
    subst hc
    rcases drain_cases { run o v₀ past with expected := add64 (packetSeq p) (packetCount p) } with
      ⟨-, hd⟩ | ⟨hne, hd⟩
    · exact hoff (by rw [hv', hd])
    · have hr : (run o v₀ past).recovering = true := by
        refine hv.gap fun hnil => hne ?_
        show (reach _ (run o v₀ past).pending).2 = []
        rw [hnil]
        rfl
      have hleft : (reach (add64 (packetSeq p) (packetCount p)) (run o v₀ past).pending).2 =
          (run o v₀ past).pending := ((hfair hr hf.1).1 hf).resolve_right hne
      obtain ⟨hle, -⟩ := reach_spec (add64 (packetSeq p) (packetCount p)) hv.sorted
      refine ht.extend hok hr ?_ ?_ ?_
      · rw [hv', hd]
      · rw [hv', hd]
        exact (Nat.le_of_lt hf.2.2).trans hle
      · rw [hv', hd]
        unfold holeEnd
        dsimp only
        rw [hleft]
  | abandon hc hr hp => exact hoff (by rw [hv'])
  | @giveUp now e rest hc hr hp htime =>
    subst hc
    refine Timer.start hok ?_ fun hr' => .inl ?_
    · rcases drain_cases ((run o v₀ past).skipTo e.1 now) with ⟨-, hd⟩ | ⟨-, hd⟩
      · rw [hv', hd]
        rfl
      · rw [hv', hd]
        rfl
    · have hne : (run o v₀ (past ++ [.tick now])).pending ≠ [] := by
        rcases drain_cases ((run o v₀ past).skipTo e.1 now) with ⟨-, hd⟩ | ⟨hne, hd⟩
        · rw [hv', hd] at hr'
          exact absurd hr' Bool.false_ne_true
        · rw [hv', hd]
          exact hne
      obtain ⟨x, l, hx⟩ := List.exists_cons_of_ne_nil hne
      refine ⟨x, by rw [hx]; exact List.mem_cons_self, ?_⟩
      exact hok.holeEnd_le x (by rw [hx]; exact List.mem_cons_self)

theorem timer_run (hv : v₀.Ok) (hr : v₀.recovering = false) (calls : List Call)
    (hfair : ∀ past c rest, calls = past ++ c :: rest → Fair o (run o v₀ past) c) :
    ∀ past rest, calls = past ++ rest → Timer o v₀ past := by
  intro past
  induction past using List.reverseRecOn with
  | nil => exact fun _ _ h => absurd h (by show ¬ v₀.recovering = true; rw [hr]; decide)
  | append_singleton past c ih =>
    intro rest hcalls
    rw [List.append_assoc] at hcalls
    exact Timer.call (hv.run past) (ih _ hcalls) (hfair past c rest hcalls)

/-- A range is given up by a tick whose time is out, at the expected number. -/
theorem skipped_tick (hv : v.Ok) (now : Nat) {a b : Nat}
    (h : (v.call o (.tick now)).skipped = v.skipped ++ [(a, b)]) :
    v.recovering = true ∧ a = v.expected ∧ b = v.holeEnd ∧
      sub64 now v.gapSince > msToNs o.gapTimeoutMs := by
  have hm := call_move (o := o) hv (.tick now)
  have hself : ∀ l : List (Nat × Nat), l ≠ l ++ [(a, b)] := fun l heq => by
    have := congrArg List.length heq
    simp at this
  generalize v.call o (.tick now) = v' at hm h
  cases hm with
  | keep => exact absurd h (hself _)
  | join hs hr hp hrec ht hskip => exact absurd (hskip.symm.trans h) (hself _)
  | abandon hc hr hp => exact absurd h (hself _)
  | @giveUp now' e rest hc hr hp ht =>
    cases hc
    have hskip : (v.skipTo e.1 now).drain.skipped = v.skipped ++ [(v.expected, e.1)] := by
      rcases drain_cases (v.skipTo e.1 now) with ⟨-, hd⟩ | ⟨-, hd⟩ <;> rw [hd] <;> rfl
    have heq := List.append_cancel_left (hskip.symm.trans h)
    obtain ⟨rfl, rfl⟩ := Prod.mk.inj (List.cons.inj heq).1
    refine ⟨hr, rfl, ?_, ht⟩
    rw [holeEnd, hp]
  | gap hc => cases hc
  | buffer hc => cases hc
  | fill hc => cases hc

end Rec

theorem sub64_le {a b : Nat} (h : b ≤ a) : sub64 a b ≤ a - b := by
  simp only [sub64, UInt64.toNat_sub, UInt64.toNat_ofNat']
  omega

section Receiver

variable {H : Type} {on : H → Itch.Msg → H} {o : Options}

theorem toRec_run (on : H → Itch.Msg → H) (ho : o.recovery = true) (r : Mold H) (calls : List Call) :
    (run on o r calls).toRec = Rec.run o r.toRec calls := by
  induction calls generalizing r with
  | nil => rfl
  | cons c calls ih =>
    show (run on o (r.call on o c) calls).toRec = Rec.run o (r.toRec.call o c) calls
    rw [ih, toRec_call on ho]

theorem fresh_ok (h0 : H) : (toRec { handler := h0 }).Ok :=
  ⟨List.Pairwise.nil, fun _ he => absurd he List.not_mem_nil, fun h => absurd rfl h,
    fun h => absurd h Bool.false_ne_true⟩

/-- The numbers from `a` to `b` are given up at the time `now`, more than the timeout after a call
that knew of a packet past them, and since that call they have been the next thing expected. -/
def OwnTimeout (on : H → Itch.Msg → H) (o : Options) (r₀ : Mold H) (past : List Call) (a b now : Nat) :
    Prop :=
  ∃ i c, past[i]? = some c ∧ msToNs o.gapTimeoutMs < now - c.time ∧
    Rec.Knows (run on o r₀ (past.take (i + 1))).toRec c b ∧
    ∀ k, i < k → k ≤ past.length → Rec.NextHole (run on o r₀ (past.take k)).toRec a b

/-- In a run with a clock that does not go back, whose packets meet the condition of `Fair`, every
range that a tick gives up has had the timeout for itself. -/
theorem hole_timeout (on : H → Itch.Msg → H) (h0 : H) (o : Options) (ho : o.recovery = true)
    (calls : List Call) (hsorted : (calls.map Call.time).Pairwise (· ≤ ·))
    (hfair : ∀ past c rest, calls = past ++ c :: rest →
      Rec.Fair o (run on o { handler := h0 } past).toRec c) :
    ∀ past now rest a b, calls = past ++ .tick now :: rest →
      let r := run on o { handler := h0 } past
      (r.tick on o now).trace.skipped = r.trace.skipped ++ [(a, b)] →
        OwnTimeout on o { handler := h0 } past a b now := by
  intro past now rest a b hcalls r hskip
  have hv : r.toRec.Ok := by
    rw [toRec_run on ho]
    exact (fresh_ok h0).run past
  have htimer := Rec.timer_run (fresh_ok h0) rfl calls (by
    intro past c rest hsplit
    rw [← toRec_run on ho]
    exact hfair past c rest hsplit) past _ hcalls
  obtain ⟨hr, rfl, rfl, ht⟩ := Rec.skipped_tick (o := o) hv now (by
    rw [← toRec_call on ho]
    exact hskip)
  unfold Rec.Timer at htimer
  rw [← toRec_run on ho] at htimer
  obtain ⟨i, c, hi, htime, hk, hnext⟩ := htimer hr
  have hle : c.time ≤ now := by
    rw [hcalls, List.map_append, List.pairwise_append] at hsorted
    exact hsorted.2.2 _ (List.mem_map_of_mem (List.mem_of_getElem? hi)) _ (by simp [Call.time])
  refine ⟨i, c, hi, ?_, ?_, fun k h1 h2 => ?_⟩
  · rw [← htime] at ht
    exact lt_of_lt_of_le ht (sub64_le hle)
  · rw [toRec_run on ho]
    exact hk
  · rw [toRec_run on ho]
    exact hnext k h1 h2

end Receiver

/-! ## The end of a recovery -/

theorem reach_end : ∀ (n : Nat) (l : List (Nat × Bytes)), (reach n l).2 = [] →
    (reach n l).1 = n ∨ ∃ e ∈ l, (reach n l).1 = add64 e.1 (packetCount e.2)
  | n, [], _ => .inl rfl
  | n, (seq, pkt) :: rest, h => by
    rw [reach] at h ⊢
    split at h
    · exact absurd h (List.cons_ne_nil _ _)
    · rename_i hle
      rw [if_neg hle]
      dsimp only at h ⊢
      rcases reach_end _ rest h with heq | ⟨e, he, heq⟩
      · rw [heq]
        split
        · exact .inr ⟨_, List.mem_cons_self, rfl⟩
        · exact .inl rfl
      · exact .inr ⟨e, List.mem_cons_of_mem _ he, heq⟩

namespace Rec

variable {o : Options} {v v' : Rec} {c : Call}

/-- If the buffered packets all follow on from `n`, then `n` or one of them reaches the end of the
gap. -/
def Covers (v : Rec) (n : Nat) : Prop :=
  (reach n v.pending).2 = [] →
    v.gapEnd ≤ n ∨ ∃ e ∈ v.pending, v.gapEnd ≤ add64 e.1 (packetCount e.2)

/-- A packet that arrives in order while a gap is open, and a tick that gives a hole up, leave
something buffered or reach the end of the gap. -/
def Whole (o : Options) (v : Rec) : Call → Prop
  | .packet p _ _ => v.recovering = true → v.Fills p → v.Covers (add64 (packetSeq p) (packetCount p))
  | .tick now => v.recovering = true → sub64 now v.gapSince > msToNs o.gapTimeoutMs →
    ∀ e rest, v.pending = e :: rest → v.Covers e.1

/-- Recovery is declared finished with the gap filled. -/
def Finished (v v' : Rec) : Prop :=
  v.recovering = true → v'.recovering = false → v'.recovered = v.recovered + 1 →
    v.gapEnd ≤ v'.expected

/-- A drain from the number `n`, of a receiver with the buffer of `v`. -/
theorem finished_drain {w : Rec} (hs : v.pending.Pairwise fun a b => a.1 < b.1)
    (hr : v.recovering = true) (hw : w.recovering = v.recovering) (hp : w.pending = v.pending)
    (hrec : w.recovered = v.recovered) : Finished v w.drain ↔ v.Covers w.expected := by
  obtain ⟨hle, -, -, hall⟩ := reach_spec w.expected hs
  rw [← hp] at hle hall
  unfold Finished Covers
  rw [← hp]
  rcases drain_cases w with ⟨hnil, hd⟩ | ⟨hne, hd⟩
  · rw [hd, hw, hr, hrec]
    constructor
    · intro h _
      have hend : v.gapEnd ≤ (reach w.expected w.pending).1 := h rfl rfl rfl
      rcases reach_end _ _ hnil with heq | ⟨e, he, heq⟩
      · exact .inl (heq ▸ hend)
      · exact .inr ⟨e, he, heq ▸ hend⟩
    · intro h _ _ _
      rcases h hnil with hend | ⟨e, he, hend⟩
      · exact hend.trans hle
      · exact hend.trans (hall hnil e he).2
  · rw [hd]
    refine iff_of_true (fun _ hoff => ?_) fun hnil => absurd hnil hne
    exact absurd (hw.symm.trans hoff |>.symm.trans hr) Bool.false_ne_true

theorem finished_fill (hv : v.Ok) (hr : v.recovering = true) (n : Nat) :
    Finished v ({ v with expected := n } : Rec).drain ↔ v.Covers n :=
  finished_drain (w := { v with expected := n }) hv.sorted hr rfl rfl rfl

theorem finished_skip (hv : v.Ok) (hr : v.recovering = true) (n now : Nat) :
    Finished v (v.skipTo n now).drain ↔ v.Covers n :=
  finished_drain (w := v.skipTo n now) hv.sorted hr rfl rfl rfl

theorem onPacket_fills {p : Bytes} (hf : v.Fills p) (h0 : v.expected ≠ 0) (now : Nat) :
    v.onPacket o p now = { v with expected := add64 (packetSeq p) (packetCount p) }.drain := by
  obtain ⟨⟨hlen, hs, hcount, hend⟩, hseq, hnext⟩ := hf
  have hsync : v.sync (packetSeq p) = v := if_neg h0
  rw [onPacket, if_neg (by omega)]
  dsimp only
  rw [checkSession, if_pos hs, if_neg hend, if_neg hcount, onData, hsync, if_neg (by omega), if_neg (by omega)]

theorem tick_timeout {now : Nat} {e : Nat × Bytes} {rest : List (Nat × Bytes)}
    (hr : v.recovering = true) (ht : sub64 now v.gapSince > msToNs o.gapTimeoutMs)
    (hp : v.pending = e :: rest) : v.tick o now = (v.skipTo e.1 now).drain := by
  rw [tick, if_neg (by rw [hr]; decide), if_pos ht, hp]

/-- A call declares no recovery finished before its end if and only if it is `Whole`. -/
theorem finished_iff (hv : v.Ok) (c : Call) : Finished v (v.call o c) ↔ Whole o v c := by
  constructor
  · intro h
    cases c with
    | packet p now mono =>
      intro hr hf
      have h' : Finished v (v.onPacket o p (if now = 0 then mono else now)) := h
      rw [onPacket_fills hf (hv.started hr)] at h'
      exact (finished_fill hv hr _).mp h'
    | tick now =>
      intro hr ht e rest hp
      have h' : Finished v (v.tick o now) := h
      rw [tick_timeout hr ht hp] at h'
      exact (finished_skip hv hr _ now).mp h'
  · intro h
    have hm := call_move (o := o) hv c
    generalize v.call o c = v' at hm ⊢
    intro hr
    cases hm with
    | keep => exact fun hoff => absurd (hoff.symm.trans hr) Bool.false_ne_true
    | join hs hoff hp hrec => exact fun _ hinc => absurd (hrec.symm.trans hinc) (by omega)
    | gap hc hoff => exact absurd (hoff.symm.trans hr) Bool.false_ne_true
    | buffer hc hon => exact fun hoff => absurd (hoff.symm.trans hon) Bool.false_ne_true
    | fill hc hf h0 =>
      subst hc
      exact (finished_fill hv hr _).mpr (h hr hf) hr
    | abandon hc hon hp => exact fun _ hinc => absurd hinc (by show ¬ v.recovered = _; omega)
    | @giveUp now e rest hc hon hp ht =>
      subst hc
      exact (finished_skip hv hr _ now).mpr (h hr ht e rest hp) hr

/-- Within a session the expected number does not fall. -/
theorem Move.expected_le (hv : v.Ok) (hm : Move o v c v') (h0 : v.expected ≠ 0)
    (hs : v'.session = v.session) : v.expected ≤ v'.expected := by
  have hdrain : ∀ w : Rec, w.pending = v.pending → v.expected ≤ w.expected →
      v.expected ≤ w.drain.expected := by
    intro w hp hle
    have hreach := (reach_spec w.expected (hp ▸ hv.sorted)).1
    rcases drain_cases w with ⟨-, hd⟩ | ⟨-, hd⟩
    · rw [hd]
      exact hle.trans hreach
    · rw [hd]
      exact hle.trans hreach
  cases hm with
  | keep => exact le_rfl
  | join hj => exact absurd hs (hj.resolve_left h0)
  | gap => exact le_rfl
  | buffer => exact le_rfl
  | fill hc hf => exact hdrain _ rfl hf.2.2.le
  | abandon => exact le_rfl
  | @giveUp now e rest hc hr hp ht =>
    exact hdrain _ rfl (hv.ahead e (by rw [hp]; exact List.mem_cons_self)).le

/-- A gap stays open until its end is reached, a timeout or another session. -/
theorem Move.open (hv : v.Ok) (hm : Move o v c v') (hw : Whole o v c) (hr : v.recovering = true)
    (hs : v'.session = v.session) (ht : v'.timeouts = v.timeouts) :
    (v'.recovering = true ∧ v'.gapEnd = v.gapEnd) ∨ v.gapEnd ≤ v'.expected := by
  cases hm with
  | keep => exact .inl ⟨hr, rfl⟩
  | join hj => exact absurd hs (hj.resolve_left (hv.started hr))
  | gap hc hoff => exact absurd (hoff.symm.trans hr) Bool.false_ne_true
  | buffer => exact .inl ⟨hr, rfl⟩
  | @fill p now mono hc hf h0 =>
    subst hc
    rcases drain_cases { v with expected := add64 (packetSeq p) (packetCount p) } with
      ⟨hnil, hd⟩ | ⟨hne, hd⟩
    · refine .inr ?_
      refine (finished_fill hv hr _).mpr (hw hr hf) hr ?_ ?_
      · rw [hd]
      · rw [hd]
        exact if_pos hr
    · rw [hd]
      exact .inl ⟨hr, rfl⟩
  | abandon => exact absurd ht (Nat.succ_ne_self _)
  | @giveUp now e rest hc =>
    refine absurd ht ?_
    rcases drain_cases (v.skipTo e.1 now) with ⟨-, hd⟩ | ⟨-, hd⟩ <;> rw [hd] <;>
      exact Nat.succ_ne_self _

/-- A stretch of a run without a timeout, in one session. -/
def Steady (o : Options) (v : Rec) (mid : List Call) : Prop :=
  ∀ m, m <+: mid → (run o v m).session = v.session ∧ (run o v m).timeouts = v.timeouts

theorem open_run (hv : v.Ok) (hr : v.recovering = true) (mid : List Call)
    (hw : ∀ past c rest, mid = past ++ c :: rest → Whole o (run o v past) c)
    (hs : Steady o v mid) :
    (run o v mid).expected ≠ 0 ∧
      (((run o v mid).recovering = true ∧ (run o v mid).gapEnd = v.gapEnd) ∨
        v.gapEnd ≤ (run o v mid).expected) := by
  induction mid using List.reverseRecOn with
  | nil => exact ⟨hv.started hr, .inl ⟨hr, rfl⟩⟩
  | append_singleton mid c ih =>
    obtain ⟨h0, hopen⟩ := ih (fun past c' rest h => hw past c' (rest ++ [c]) (by rw [h]; simp))
      fun m hm => hs m (hm.trans (List.prefix_append _ _))
    have hmid := hs mid (List.prefix_append _ _)
    have hend := hs (mid ++ [c]) (List.prefix_refl _)
    have hok := hv.run (o := o) mid
    have hm := call_move (o := o) hok c
    rw [← run_concat] at hm
    have hle := hm.expected_le hok h0 (hend.1.trans hmid.1.symm)
    refine ⟨by omega, ?_⟩
    rcases hopen with ⟨hon, hgap⟩ | hdone
    · rw [← hgap]
      exact hm.open hok (hw mid c [] rfl) hon (hend.1.trans hmid.1.symm) (hend.2.trans hmid.2.symm)
    · exact .inr (hdone.trans hle)

end Rec

section Receiver

variable {H : Type} {on : H → Itch.Msg → H} {o : Options}

/-- A tick while a gap is open, its time not out and the last request old: the numbers from the
expected one on are asked for again. -/
theorem tick_requests (ho : o.recovery = true) {r : Mold H} (hv : r.toRec.Ok)
    (hr : r.recovering = true) (hlt : r.expectedSeq < r.gapEnd) {now : Nat}
    (ht : ¬ sub64 now r.gapSince > msToNs o.gapTimeoutMs)
    (hretry : sub64 now r.lastRequest > msToNs o.retryMs) :
    r.expectedSeq < r.requestEnd ∧ (r.tick on o now).trace.requested = r.trace.requested ++
      [(r.session, r.expectedSeq, (if sub64 r.requestEnd r.expectedSeq < o.maxRequest
        then sub64 r.requestEnd r.expectedSeq else o.maxRequest) % 2 ^ 16)] := by
  have hend : r.expectedSeq < r.requestEnd := by
    unfold requestEnd
    split
    · exact hlt
    · rename_i e rest hp
      exact hv.ahead e (by show e ∈ r.pending; rw [hp]; exact List.mem_cons_self)
  refine ⟨hend, ?_⟩
  have htick : r.tick on o now =
      requestGap o ((r.noteClock now r.gapSince).noteClock now r.lastRequest) now := by
    rw [tick, if_neg (by rw [hr]; decide)]
    dsimp only
    rw [if_neg (show ¬ sub64 now (r.noteClock now r.gapSince).gapSince > _ from ht)]
    exact if_pos hretry
  rw [htick, requestGap, if_neg (by rw [ho]; decide)]
  rw [if_neg (show ¬ ((r.noteClock now r.gapSince).noteClock now r.lastRequest).requestEnd ≤
    ((r.noteClock now r.gapSince).noteClock now r.lastRequest).expectedSeq from
      Nat.not_le.mpr hend)]
  rfl

/-- Recovery is declared finished only when the gap is filled: the expected number is past its end
and, in a session of well-formed packets, every message before it was delivered or given up. -/
def FinishesFilled (on : H → Itch.Msg → H) (o : Options) (r₀ : Mold H) (calls : List Call) : Prop :=
  ∀ past c rest, calls = past ++ c :: rest →
    let r := run on o r₀ past
    let r' := r.call on o c
    r.recovering = true → r'.recovering = false → r'.stats.recovered = r.stats.recovered + 1 →
      r.gapEnd ≤ r'.expectedSeq ∧
      ∀ session content, (∀ c ∈ calls, Admissible session content c) →
        ∀ m, r'.trace.first ≤ m → m < r.gapEnd →
          m ∈ r'.trace.delivered.map Prod.fst ∨ ∃ s ∈ r'.trace.skipped, s.1 ≤ m ∧ m < s.2

/-- While the end of an open gap is ahead, without a timeout and in one session, the gap stays open
and a tick asks for the rest of it whenever the last request is old enough. -/
def KeepsAsking (on : H → Itch.Msg → H) (o : Options) (r₀ : Mold H) (calls : List Call) : Prop :=
  ∀ past mid rest, calls = past ++ (mid ++ rest) →
    let r := run on o r₀ past
    let r' := run on o r₀ (past ++ mid)
    r.recovering = true → Rec.Steady o r.toRec mid → r'.expectedSeq < r.gapEnd →
      r'.recovering = true ∧ r'.gapEnd = r.gapEnd ∧ ∀ now,
        ¬ sub64 now r'.gapSince > msToNs o.gapTimeoutMs →
        sub64 now r'.lastRequest > msToNs o.retryMs →
          r'.expectedSeq < r'.requestEnd ∧ (r'.tick on o now).trace.requested =
            r'.trace.requested ++ [(r'.session, r'.expectedSeq,
              (if sub64 r'.requestEnd r'.expectedSeq < o.maxRequest
                then sub64 r'.requestEnd r'.expectedSeq else o.maxRequest) % 2 ^ 16)]

theorem run_ok (on : H → Itch.Msg → H) (ho : o.recovery = true) (h0 : H) (calls : List Call) :
    (run on o { handler := h0 } calls).toRec.Ok := by
  rw [toRec_run on ho]
  exact (fresh_ok h0).run calls

/-- A run declares no recovery finished before the gap is filled, and keeps asking for the rest of
it, if and only if all its calls are `Whole`. -/
theorem recovery_finish_iff (on : H → Itch.Msg → H) (h0 : H) (o : Options) (ho : o.recovery = true)
    (calls : List Call) :
    (FinishesFilled on o { handler := h0 } calls ∧ KeepsAsking on o { handler := h0 } calls) ↔
      ∀ past c rest, calls = past ++ c :: rest →
        Rec.Whole o (run on o { handler := h0 } past).toRec c := by
  constructor
  · rintro ⟨h, -⟩ past c rest hcalls
    refine (Rec.finished_iff (run_ok on ho h0 past) c).mp fun hr hoff hrec => ?_
    rw [← toRec_call on ho] at hoff hrec ⊢
    exact (h past c rest hcalls hr hoff hrec).1
  · intro h
    constructor
    · intro past c rest hcalls r r' hr hoff hrec
      have hend : r.gapEnd ≤ r'.expectedSeq := by
        have hfin := (Rec.finished_iff (o := o) (run_ok on ho h0 past) c).mpr (h past c rest hcalls)
        rw [← toRec_call on ho] at hfin
        exact hfin hr hoff hrec
      refine ⟨hend, fun session content hadm m hm hlt => ?_⟩
      have hgood := (good_fresh o session content h0).run on
        (past ++ [c]) fun c' hc' => hadm c' (by
          rw [hcalls, List.append_cons]
          exact List.mem_append_left _ hc')
      have hrun : run on o { handler := h0 } (past ++ [c]) = r' := List.foldl_concat ..
      rw [hrun] at hgood
      rcases hgood with hinv | ⟨hinv, -⟩
      · exact hinv.covered ho m hm (lt_of_lt_of_le hlt hend)
      · exact hinv.covered ho m hm (lt_of_lt_of_le hlt hend)
    · intro past mid rest hcalls r r' hr hs hlt
      have hok := run_ok on ho h0 past
      have hrun : ∀ m, run on o { handler := h0 } (past ++ m) = run on o r m := fun m =>
        List.foldl_append ..
      obtain ⟨-, hopen⟩ := Rec.open_run hok hr mid (fun past' c rest' hmid => by
        have := h (past ++ past') c (rest' ++ rest) (by rw [hcalls, hmid]; simp)
        rwa [hrun, toRec_run on ho] at this) hs
      rw [← toRec_run on ho, ← hrun] at hopen
      obtain ⟨hon, hgap⟩ := hopen.resolve_right (Nat.not_le.mpr hlt)
      refine ⟨hon, hgap, fun now ht hretry => ?_⟩
      exact tick_requests ho (run_ok on ho h0 _) hon (hlt.trans_eq hgap.symm) ht hretry

end Receiver

/-- Message 2 is lost and given up. -/
theorem hole_timeout_once :
    let past := [.packet (moldPacket 1 [systemEvent]) 1 1,
      .packet (moldPacket 3 [systemEvent]) 1000000 1000000]
    OwnTimeout (fun (n : Nat) _ => n + 1) { recovery := true } { handler := 0 } past 2 3 260000000 := by
  intro past
  refine hole_timeout (fun (n : Nat) _ => n + 1) 0 { recovery := true } rfl
    (past ++ [.tick 260000000]) (by decide) ?_ past 260000000 [] 2 3 rfl (by decide +kernel)
  show ∀ _ _ _, _ :: _ :: _ :: [] = _ → _
  rw [forall_splits_cons, forall_splits_cons, forall_splits_cons]
  refine ⟨fun hr => ?_, fun hr => ?_, trivial, fun past c rest h => absurd h (by simp)⟩
  · exact absurd hr (by decide +kernel)
  · exact absurd hr (by decide +kernel)

/-- Messages 2 and 4 are lost; 2 comes back after 240 ms, and 4 is given up 12 ms later. -/
theorem hole_shares_timer :
    let past := [.packet (moldPacket 1 [systemEvent]) 1 1,
      .packet (moldPacket 3 [systemEvent]) 1000000 1000000,
      .packet (moldPacket 5 [systemEvent]) 2000000 2000000,
      .packet (moldPacket 2 [systemEvent]) 240000000 240000000]
    let r := run (fun (n : Nat) _ => n + 1) { recovery := true } { handler := 0 } past
    (r.tick (fun (n : Nat) _ => n + 1) { recovery := true } 252000000).trace.skipped =
        r.trace.skipped ++ [(4, 5)] ∧
      ¬ OwnTimeout (fun (n : Nat) _ => n + 1) { recovery := true } { handler := 0 } past 4 5
        252000000 := by
  intro past r
  refine ⟨by decide +kernel, ?_⟩
  rintro ⟨i, c, hi, htime, -, hnext⟩
  have hlen := (List.getElem?_eq_some_iff.mp hi).1
  have hhole := hnext (i + 1) (Nat.lt_succ_self i) hlen
  replace hlen : i < 4 := hlen
  interval_cases i <;> cases hi
  · exact absurd hhole (by unfold Rec.NextHole; decide +kernel)
  · exact absurd hhole (by unfold Rec.NextHole; decide +kernel)
  · exact absurd htime (by decide)
  · exact absurd htime (by decide)

/-- A gap that a packet opens and the retransmission closes. -/
theorem recovery_finish_iff_gap :
    let calls := [.packet (moldPacket 1 [systemEvent]) 1 1, .packet (moldPacket 3 [systemEvent]) 2 2,
      .packet (moldPacket 2 [systemEvent]) 4 4]
    (run (fun (n : Nat) _ => n + 1) { recovery := true } { handler := 0 } calls).stats.recovered = 1 ∧
      FinishesFilled (fun (n : Nat) _ => n + 1) { recovery := true } { handler := 0 } calls := by
  intro calls
  refine ⟨by decide +kernel,
    ((recovery_finish_iff (fun (n : Nat) _ => n + 1) 0 { recovery := true } rfl calls).mpr ?_).1⟩
  show ∀ _ _ _, _ :: _ :: _ :: [] = _ → _
  rw [forall_splits_cons, forall_splits_cons, forall_splits_cons]
  refine ⟨fun hr => ?_, fun hr => ?_, fun _ _ _ => .inr ?_, fun past c rest h => absurd h (by simp)⟩
  · exact absurd hr (by decide +kernel)
  · exact absurd hr (by decide +kernel)
  · decide +kernel

/-- A heartbeat tells of messages up to 9; the reply with message 2 alone ends the recovery. -/
theorem recovery_ends_early :
    ¬ FinishesFilled (fun (n : Nat) _ => n + 1) { recovery := true } { handler := 0 }
      [.packet (moldPacket 1 [systemEvent]) 1 1, .packet (moldPacket 10 []) 2 2,
        .packet (moldPacket 2 [systemEvent]) 3 3] := by
  intro h
  have hend := (h [.packet (moldPacket 1 [systemEvent]) 1 1, .packet (moldPacket 10 []) 2 2]
    (.packet (moldPacket 2 [systemEvent]) 3 3) [] rfl (by decide +kernel) (by decide +kernel)
    (by decide +kernel)).1
  exact absurd hend (by decide +kernel)

/-- In order, nothing is recovered. -/
example : (run (fun (n : Nat) _ => n + 1) { recovery := true } { handler := 0 }
    [.packet (moldPacket 1 [systemEvent]) 1 1, .packet (moldPacket 2 [systemEvent]) 2 2]).stats.recovered = 0 := by
  decide +kernel

end Stok.Mold
