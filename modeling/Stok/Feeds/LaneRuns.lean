import Stok.Feeds.Lanes

/-!
# The discipline of polling

What the lanes of a feed may ask of a server, whatever the connections do: a lane keeps its pace, it
has one request out at a time, and no lane sends while the feed is backing off. The log of a run
says all of this, so the invariant ties the state to the log.
-/

namespace Stok.Poller

open Net Lib

namespace PollMark

def lane : PollMark → Nat
  | request i _ _ | response i _ _ | closed i => i

/-- The time of a request on lane `i`. -/
def sentOn (i : Nat) : PollMark → Option Nat
  | request j now _ => if j = i then some now.toNat else none
  | _ => none

/-- Whether a request of lane `i` is out after the mark, if one was out before. -/
def outAfter (i : Nat) (out : Bool) (m : PollMark) : Bool :=
  if m.lane ≠ i then out
  else match m with
    | request _ _ ok => ok
    | _ => false

/-- Ten seconds, doubled for each throttled response of a row. -/
def backoffEnd (now streak : Nat) : Nat := now + 10 * 2 ^ streak * 1000000000

/-- How far a row of throttled responses has got, and until when the feed backs off. -/
def backoffAfter (b : Nat × Nat) : PollMark → Nat × Nat
  | response _ status now =>
    if status = 200 then (0, b.2)
    else if status = 403 ∨ status = 429 ∨ status = 503 then
      (min (b.1 + 1) 6, backoffEnd now.toNat (min (b.1 + 1) 6))
    else b
  | _ => b

end PollMark

def sentTimes (i : Nat) (log : List PollMark) : List Nat := log.filterMap (PollMark.sentOn i)

def outOn (i : Nat) (log : List PollMark) : Bool := log.foldl (PollMark.outAfter i) false

def backoffOf (log : List PollMark) : Nat × Nat := log.foldl PollMark.backoffAfter (0, 0)

/-- A request is sent on a lane that has none out, and not before the end of the backoff; a response is
to a request that is out. -/
def PollMark.Allowed (pre : List PollMark) : PollMark → Prop
  | request i now _ => outOn i pre = false ∧ (backoffOf pre).2 ≤ now.toNat
  | response i _ _ => outOn i pre = true
  | closed _ => True

def Obeys (log : List PollMark) : Prop := ∀ pre m post, log = pre ++ m :: post → m.Allowed pre

section

variable {log : List PollMark} {m : PollMark} {i j : Nat}

theorem sentTimes_snoc_none (h : m.sentOn j = none) : sentTimes j (log ++ [m]) = sentTimes j log := by
  unfold sentTimes
  rw [List.filterMap_append, List.filterMap_cons_none h, List.filterMap_nil, List.append_nil]

theorem sentTimes_snoc_some {t : Nat} (h : m.sentOn j = some t) :
    sentTimes j (log ++ [m]) = sentTimes j log ++ [t] := by
  unfold sentTimes
  rw [List.filterMap_append, List.filterMap_cons_some h, List.filterMap_nil]

theorem sentTimes_snoc_other (h : m.lane ≠ j) : sentTimes j (log ++ [m]) = sentTimes j log := by
  refine sentTimes_snoc_none ?_
  cases m with
  | request => exact if_neg h
  | _ => rfl

theorem outOn_snoc : outOn i (log ++ [m]) = m.outAfter i (outOn i log) := List.foldl_concat ..

theorem outOn_snoc_other (h : m.lane ≠ j) : outOn j (log ++ [m]) = outOn j log := by
  rw [outOn_snoc]
  exact if_pos h

theorem backoffOf_snoc : backoffOf (log ++ [m]) = m.backoffAfter (backoffOf log) := List.foldl_concat ..

theorem obeys_nil : Obeys [] := by
  intro pre m post h
  exact absurd h.symm (List.append_ne_nil_of_right_ne_nil pre nofun)

theorem Obeys.snoc (h : Obeys log) (hm : m.Allowed log) : Obeys (log ++ [m]) := by
  intro pre x post heq
  rcases List.append_eq_append_iff.mp heq with ⟨mid, hpre, hmid⟩ | ⟨mid, hlog, hmid⟩
  · cases mid with
    | nil =>
      rw [List.append_nil] at hpre
      rw [hpre, ← (List.cons.inj hmid).1]
      exact hm
    | cons y mid =>
      obtain ⟨-, hnil⟩ := List.cons.inj hmid
      exact absurd hnil.symm (List.append_ne_nil_of_right_ne_nil mid nofun)
  · cases mid with
    | nil =>
      rw [List.append_nil] at hlog
      rw [← hlog, (List.cons.inj hmid).1]
      exact hm
    | cons y mid =>
      obtain ⟨rfl, -⟩ := List.cons.inj hmid
      exact h pre x mid hlog

end

/-! ## The invariant -/

/-- What the log says of a lane. -/
structure Lane.Follows (period : UInt64) (l : Lane) (i : Nat) (log : List PollMark) : Prop where
  steady : l.periodNs = period
  paced : Paced period.toNat l.nextFire.toNat (sentTimes i log)
  out : l.conn.busy = outOn i log
  settled : l.conn.state ≠ .done

def Feed.backoff (f : Feed) : Nat × Nat := (f.backoffStreak, f.backoffUntil)

structure Polling.Sound {E : Type} (period : UInt64) (p : Polling E) : Prop where
  lanes : ∀ i (l : Lane), p.lanes[i]? = some l → l.Follows period i p.log
  silent : ∀ i, p.lanes[i]? = none → sentTimes i p.log = []
  backoff : p.feed.backoff = backoffOf p.log
  /-- The end of the backoff is a clock reading. -/
  clock : p.feed.backoffUntil < 2 ^ 64
  obeys : Obeys p.log

variable {E : Type} {period : UInt64} {p p' : Polling E} {i : Nat} {l l' : Lane}

theorem getElem?_setLane_none {j : Nat} : (p.lanes.set i l')[j]? = none ↔ p.lanes[j]? = none := by
  rw [List.getElem?_eq_none_iff, List.getElem?_eq_none_iff, List.length_set]

theorem getElem?_setLane {j : Nat} {x : Lane} (h : (p.lanes.set i l')[j]? = some x) :
    j = i ∧ x = l' ∨ j ≠ i ∧ p.lanes[j]? = some x := by
  rw [List.getElem?_set] at h
  split at h
  · rename_i hij
    obtain ⟨-, h⟩ := Option.ite_none_right_eq_some.mp h
    exact .inl ⟨hij.symm, (Option.some.inj h).symm⟩
  · rename_i hij
    exact .inr ⟨Ne.symm hij, h⟩

/-- A lane is put off, with no request on the way. -/
theorem Polling.Sound.quiet (h : p.Sound period) (hi : p.lanes[i]? = some l) (hlanes : p'.lanes = p.lanes.set i l')
    (hlog : p'.log = p.log) (hfeed : p'.feed = p.feed) (hperiod : l'.periodNs = l.periodNs)
    (hlater : l.nextFire ≤ l'.nextFire) (hbusy : l'.conn.busy = l.conn.busy)
    (hsettled : l'.conn.state ≠ .done) : p'.Sound period := by
  refine ⟨fun j x hj => ?_, fun j hj => ?_, ?_, ?_, ?_⟩
  · rw [hlanes] at hj
    rw [hlog]
    rcases getElem?_setLane hj with ⟨rfl, rfl⟩ | ⟨-, hj⟩
    · have hl := h.lanes _ l hi
      exact ⟨hperiod.trans hl.steady, hl.paced.later (UInt64.le_iff_toNat_le.mp hlater),
        hbusy.trans hl.out, hsettled⟩
    · exact h.lanes j x hj
  · rw [hlanes, getElem?_setLane_none] at hj
    rw [hlog]
    exact h.silent j hj
  · rw [hfeed, hlog]
    exact h.backoff
  · rw [hfeed]
    exact h.clock
  · rw [hlog]
    exact h.obeys

/-- Something happens on a lane. -/
theorem Polling.Sound.marked (h : p.Sound period) {m : PollMark} (hi : p.lanes[m.lane]? = some l) (hlanes : p'.lanes = p.lanes.set m.lane l')
    (hlog : p'.log = p.log ++ [m]) (hlane : l'.Follows period m.lane (p.log ++ [m]))
    (hfeed : p'.feed.backoff = m.backoffAfter p.feed.backoff) (hclock : p'.feed.backoffUntil < 2 ^ 64)
    (hallowed : m.Allowed p.log) :
    p'.Sound period := by
  refine ⟨fun j x hj => ?_, fun j hj => ?_, ?_, hclock, ?_⟩
  · rw [hlanes] at hj
    rw [hlog]
    rcases getElem?_setLane hj with ⟨rfl, rfl⟩ | ⟨hne, hj⟩
    · exact hlane
    · have hl := h.lanes j x hj
      refine ⟨hl.steady, ?_, ?_, hl.settled⟩
      · rw [sentTimes_snoc_other hne.symm]
        exact hl.paced
      · rw [outOn_snoc_other hne.symm]
        exact hl.out
  · rw [hlanes, getElem?_setLane_none] at hj
    have hne : m.lane ≠ j := by
      rintro rfl
      cases hi.symm.trans hj
    rw [hlog, sentTimes_snoc_other hne]
    exact h.silent j hj
  · rw [hlog, backoffOf_snoc, hfeed, h.backoff]
  · rw [hlog]
    exact h.obeys.snoc hallowed

/-! ## Calls -/

/-- The clock does not wrap around in what is added to a reading. -/
structure Fits (period now : UInt64) : Prop where
  period : now.toNat + period.toNat < 2 ^ 64
  backoff : now.toNat + 640 * 1000000000 < 2 ^ 64

theorem Lane.after_toNat {now : UInt64} (hdue : l.nextFire ≤ now) (hfit : Fits l.periodNs now) :
    now ≤ l.after now ∧ l.nextFire.toNat + l.periodNs.toNat ≤ (l.after now).toNat := by
  have hle := UInt64.le_iff_toNat_le.mp hdue
  have hperiod := hfit.period
  have hsum : (l.nextFire + l.periodNs).toNat = l.nextFire.toNat + l.periodNs.toNat := by
    rw [UInt64.toNat_add, Nat.mod_eq_of_lt (by omega)]
  have hnow : (now + l.periodNs).toNat = now.toNat + l.periodNs.toNat := by
    rw [UInt64.toNat_add, Nat.mod_eq_of_lt hperiod]
  unfold Lane.after
  split
  · rw [UInt64.le_iff_toNat_le, hnow]
    omega
  · rename_i hlt
    rw [UInt64.le_iff_toNat_le, hsum] at hlt
    rw [UInt64.le_iff_toNat_le, hsum]
    omega

theorem startConnect_spec (l : Lane) (now : UInt64) (resolved : Bool) (net : Connection.Network)
    (hidle : l.conn.busy = false) (hsettled : l.conn.state ≠ .done) :
    (l.startConnect now resolved net).periodNs = l.periodNs ∧
      (l.startConnect now resolved net).nextFire = l.nextFire ∧
      (l.startConnect now resolved net).conn.busy = false ∧
      (l.startConnect now resolved net).conn.state ≠ .done := by
  have hconnect := @Connection.connect_state net l.conn
  unfold Lane.startConnect
  split
  · exact ⟨rfl, rfl, hidle, hsettled⟩
  · generalize l.conn.connect net = c at hconnect
    obtain ⟨conn, ok⟩ := c
    dsimp only
    split
    · exact ⟨rfl, rfl, hconnect⟩
    · exact ⟨rfl, rfl, hconnect⟩

theorem Polling.Sound.startConnect (h : p.Sound period) (hi : p.lanes[i]? = some l) (now : UInt64)
    (resolved : Bool) (net : Connection.Network) (hidle : l.conn.busy = false)
    (hconn : l'.conn.busy = false ∧ l'.conn.state ≠ .done) (hperiod : l'.periodNs = l.periodNs)
    (hnext : l'.nextFire = l.nextFire) : (p.setLane i (l'.startConnect now resolved net)).Sound period := by
  obtain ⟨hp, hn, hb, hs⟩ := startConnect_spec l' now resolved net hconn.1 hconn.2
  refine h.quiet hi rfl rfl rfl (hp.trans hperiod) ?_ (hb.trans hidle.symm) hs
  rw [hn, hnext]
  exact UInt64.le_refl _

section

variable {F : Type} [Dbl F] {Doc Item : Type} {scan : Doc → List (Item × UInt64)} {fill : Item → Option E}
  {now : UInt64}

theorem Polling.Sound.service (h : p.Sound period) (host : Host F) (resolved stale : Bool) (net : Connection.Network)
    (hfit : Fits period now)
    (hwait : now.toNat + ((host.take now).2.waitNs now).1 < 2 ^ 64) :
    (p.service i host now resolved stale net).Sound period := by
  unfold Polling.service
  split
  · exact h
  · rename_i l hi
    have hl := h.lanes i l hi
    have hbusy {s : Connection.State} (hs : l.conn.state = s) (hw : s ≠ .writing) (hr : s ≠ .reading) :
        l.conn.busy = false := Connection.busy_eq hs hw hr
    split
    · rename_i hstate
      have hidle : l.conn.busy = false := by
        rcases hstate with hs | hs
        · exact hbusy hs nofun nofun
        · exact hbusy hs nofun nofun
      split
      · exact h.startConnect hi now resolved net hidle ⟨hidle, hl.settled⟩ rfl rfl
      · exact h
    · split
      · rename_i hstale
        have hidle : l.conn.busy = false := hbusy (of_decide_eq_true hstale.1) nofun nofun
        exact h.startConnect hi now resolved net hidle ⟨rfl, nofun⟩ rfl rfl
      · split
        · exact h
        · rename_i hdue
          have hdue : l.nextFire ≤ now := UInt64.not_lt.mp hdue
          split
          · rename_i hback
            refine h.quiet hi rfl rfl rfl rfl ?_ rfl hl.settled
            have hle := UInt64.le_iff_toNat_le.mp hdue
            show l.nextFire ≤ UInt64.ofNat p.feed.backoffUntil
            rw [UInt64.le_iff_toNat_le, UInt64.toNat_ofNat', Nat.mod_eq_of_lt h.clock]
            omega
          · rename_i hback
            obtain ⟨hnow, hperiod⟩ := Lane.after_toNat hdue (hl.steady ▸ hfit)
            split
            · exact h.quiet hi rfl rfl rfl rfl (UInt64.le_trans hdue hnow) rfl hl.settled
            · rename_i hready
              have hready : l.conn.state = .ready := by
                by_contra hne
                exact hready (by simp [Connection.ready, hne])
              have hidle : l.conn.busy = false := hbusy hready nofun nofun
              split
              · rename_i host' htake
                replace hwait : now.toNat + (host'.waitNs now).1 < 2 ^ 64 := by
                  rw [htake] at hwait
                  exact hwait
                refine h.quiet hi rfl rfl rfl rfl (UInt64.le_trans hdue ?_) rfl hl.settled
                show now ≤ now + UInt64.ofNat (host'.waitNs now).1
                rw [UInt64.le_iff_toNat_le, UInt64.toNat_add, UInt64.toNat_ofNat',
                  Nat.mod_eq_of_lt (show (host'.waitNs now).1 < 2 ^ 64 by omega), Nat.mod_eq_of_lt hwait]
                exact Nat.le_add_right _ _
              · have hsend := @Connection.send_state net l.conn hl.settled hidle
                generalize l.conn.send net = c at hsend
                obtain ⟨conn, ok⟩ := c
                have hsent : (PollMark.request i now ok).sentOn i = some now.toNat := if_pos rfl
                refine h.marked (m := .request i now ok) hi rfl rfl ⟨hl.steady, ?_, ?_, hsend.2⟩ rfl h.clock ?_
                · show Paced _ _ (sentTimes i _)
                  rw [sentTimes_snoc_some hsent, ← hl.steady]
                  exact (hl.steady ▸ hl.paced).fire (UInt64.le_iff_toNat_le.mp hdue)
                    (UInt64.le_iff_toNat_le.mp hnow) hperiod
                · show conn.busy = outOn i _
                  rw [outOn_snoc]
                  exact hsend.1.trans (if_neg (not_not.mpr rfl)).symm
                · refine ⟨hl.out.symm.trans hidle, ?_⟩
                  rw [← h.backoff]
                  exact Nat.not_lt.mp hback

omit [Dbl F] in
theorem onItem_backoff (r : Reply Doc) (st : Scan E) (it : Item × UInt64) :
    (onItem fill r st it).feed.backoff = st.feed.backoff := by
  unfold onItem
  dsimp only
  split
  · rfl
  · split
    · rfl
    · split
      · rfl
      · split <;> rfl

theorem backoffNs_eq {k : Nat} (h : k ≤ 6) : backoffNs k = 10 * 2 ^ k * 1000000000 := by
  interval_cases k <;> decide

theorem backoffEnd_lt {t k : Nat} (h : k ≤ 6) (hfit : t + 640 * 1000000000 < 2 ^ 64) :
    PollMark.backoffEnd t k < 2 ^ 64 := by
  have hpow : 2 ^ k ≤ 64 := Nat.pow_le_pow_right Nat.two_pos h
  unfold PollMark.backoffEnd
  calc t + 10 * 2 ^ k * 1000000000
      ≤ t + 640 * 1000000000 :=
        Nat.add_le_add_left (Nat.mul_le_mul_right _ (Nat.mul_le_mul_left 10 hpow)) t
    _ < 2 ^ 64 := hfit

theorem add64_backoffNs {t k : Nat} (h : k ≤ 6) (hfit : t + 640 * 1000000000 < 2 ^ 64) :
    add64 t (backoffNs k) = PollMark.backoffEnd t k := by
  have hlt := backoffEnd_lt h hfit
  unfold PollMark.backoffEnd at hlt ⊢
  rw [backoffNs_eq h, add64_eq hlt]

/-- What a response does to the backoff of its feed. -/
theorem onResponse_backoff (f : Feed) (r : Reply Doc) {lane : Nat} (hnow : r.now = now.toNat)
    (hfit : now.toNat + 640 * 1000000000 < 2 ^ 64) :
    (onResponse scan fill f r).1.backoff = (PollMark.response lane r.status now).backoffAfter f.backoff := by
  have hend := add64_backoffNs (Nat.min_le_right (f.backoffStreak + 1) 6) hfit
  unfold onResponse PollMark.backoffAfter
  split
  · rename_i hs
    exact (if_neg (by omega)).symm.trans (if_neg (by omega)).symm
  · split
    · rename_i hs
      split
      · rename_i hthrottled
        refine Eq.trans ?_ ((if_neg hs).trans (if_pos hthrottled)).symm
        rw [hnow]
        exact congrArg (Prod.mk _) hend
      · rename_i hother
        exact ((if_neg hs).trans (if_neg hother)).symm
    · rename_i hs
      have hscan (st : Scan E) (its : List (Item × UInt64)) :
          (its.foldl (onItem fill r) st).feed.backoff = st.feed.backoff := by
        induction its generalizing st with
        | nil => rfl
        | cons it its ih => exact (ih _).trans (onItem_backoff r st it)
      refine Eq.trans ?_ (if_pos (not_not.mp hs)).symm
      unfold onOk
      dsimp only
      split
      · rfl
      · exact hscan _ _

theorem backoffAfter_lt (b : Nat × Nat) (hb : b.2 < 2 ^ 64) (lane status : Nat)
    (hfit : now.toNat + 640 * 1000000000 < 2 ^ 64) :
    ((PollMark.response lane status now).backoffAfter b).2 < 2 ^ 64 := by
  unfold PollMark.backoffAfter
  dsimp only
  split
  · exact hb
  · split
    · exact backoffEnd_lt (Nat.min_le_right _ _) hfit
    · exact hb

theorem Polling.Sound.event (h : p.Sound period) (hi : p.lanes[i]? = some l) {ev : Connection.Event}
    {conn : Connection} (he : l.conn.Emits ev conn) (reply : Reply Doc)
    (hfit : now.toNat + 640 * 1000000000 < 2 ^ 64) :
    (p.onLaneEvent scan fill i { l with conn } ev now reply).Sound period := by
  have hl := h.lanes i l hi
  have hidle {s : Connection.State} (hs : conn.state = s) (hw : s ≠ .writing) (hr : s ≠ .reading) :
      conn.busy = false := Connection.busy_eq hs hw hr
  cases he with
  | none hb hd => exact h.quiet hi rfl rfl rfl rfl (UInt64.le_refl _) hb hd
  | connected hb hs =>
    refine h.quiet hi rfl rfl rfl rfl (UInt64.le_refl _) ((hidle hs nofun nofun).trans hb.symm) ?_
    show conn.state ≠ .done
    rw [hs]
    nofun
  | response hb hs =>
    obtain ⟨hrest, hsettled⟩ := Connection.recycle_state hs
    have hback := @onResponse_backoff E Doc Item scan fill now p.feed
      { reply with status := conn.status.toNat, now := now.toNat } i rfl hfit
    refine h.marked (m := .response i conn.status.toNat now) hi rfl rfl ⟨hl.steady, ?_, ?_, hsettled⟩ hback ?_
      (hl.out.symm.trans hb)
    · show Paced _ _ (sentTimes i _)
      rw [sentTimes_snoc_none rfl]
      exact hl.paced
    · show conn.recycle.busy = outOn i _
      rw [outOn_snoc]
      exact hrest.trans (if_neg (not_not.mpr rfl)).symm
    · show ((onResponse scan fill p.feed _).1.backoff).2 < 2 ^ 64
      rw [hback]
      exact backoffAfter_lt p.feed.backoff h.clock i conn.status.toNat hfit
  | closed hs =>
    have hclosed : (conn.busy = outOn i (p.log ++ [.closed i])) := by
      rw [outOn_snoc]
      exact (hidle hs nofun nofun).trans (if_neg (not_not.mpr rfl)).symm
    have hsettled : conn.state ≠ .done := by
      rw [hs]
      nofun
    have hpaced : Paced period.toNat l.nextFire.toNat (sentTimes i (p.log ++ [.closed i])) := by
      rw [sentTimes_snoc_none rfl]
      exact hl.paced
    unfold Polling.onLaneEvent
    dsimp only
    split
    · exact h.marked (m := .closed i) hi rfl rfl ⟨hl.steady, hpaced, hclosed, hsettled⟩ rfl h.clock trivial
    · exact h.marked (m := .closed i) hi rfl rfl ⟨hl.steady, hpaced, hclosed, hsettled⟩ rfl h.clock trivial

/-- The clock does not wrap around in a call. -/
def PollCall.Fits (period : UInt64) : PollCall F Doc → Prop
  | .service _ host now _ _ _ =>
    Poller.Fits period now ∧ now.toNat + ((host.take now).2.waitNs now).1 < 2 ^ 64
  | .events _ _ _ now _ | .timeout _ _ now _ => Poller.Fits period now

theorem Polling.Sound.call (h : p.Sound period) {c : PollCall F Doc} (hfit : c.Fits period) :
    (p.call scan fill c).Sound period := by
  cases c with
  | service i host now resolved stale net => exact h.service host resolved stale net hfit.1 hfit.2
  | events i ready net now reply =>
    unfold Polling.call
    dsimp only
    split
    · exact h
    · rename_i l hi
      exact h.event hi (Connection.onEvents_emits ready (h.lanes i l hi).settled) reply hfit.backoff
  | timeout i late now reply =>
    unfold Polling.call
    dsimp only
    split
    · exact h
    · rename_i l hi
      exact h.event hi (Connection.checkTimeout_emits late (h.lanes i l hi).settled) reply hfit.backoff

theorem Polling.Sound.run (h : p.Sound period) {calls : List (PollCall F Doc)}
    (hfit : ∀ c ∈ calls, c.Fits period) : (p.run scan fill calls).Sound period := by
  induction calls generalizing p with
  | nil => exact h
  | cons c calls ih =>
    exact ih (h.call (hfit c List.mem_cons_self)) fun x hx => hfit x (List.mem_cons_of_mem c hx)

omit [Dbl F] in
theorem init_sound (tls emitBacklog : Bool) (intervalMs lanes : UInt32) (now : UInt64) :
    (Polling.init (E := E) tls emitBacklog intervalMs lanes now).Sound (lanePeriod intervalMs lanes) where
  lanes i l hi := by
    obtain ⟨k, -, rfl⟩ := List.mem_map.mp (List.mem_of_getElem? hi)
    exact ⟨rfl, paced_nil _ _, rfl, nofun⟩
  silent _ _ := rfl
  backoff := rfl
  clock := Nat.two_pow_pos 64
  obeys := obeys_nil

/-- **The discipline of polling.** Whatever the connections, the server and the other users of its
host do: in a window of `w` ns a lane sends at most two requests more than `w` has periods, each on a
connection that has none out, and no lane sends before the end of the backoff that the responses up
to then call for; a response is to the request that its lane has out. -/
theorem polling_discipline (tls emitBacklog : Bool) (intervalMs lanes : UInt32) (now₀ : UInt64)
    (calls : List (PollCall F Doc)) (hfit : ∀ c ∈ calls, c.Fits (lanePeriod intervalMs lanes)) :
    let p := (Polling.init (E := E) tls emitBacklog intervalMs lanes now₀).run scan fill calls
    (∀ i t w k, (sentTimes i p.log).countP (fun x => decide (t ≤ x ∧ x < t + w)) = k + 2 →
      k * (lanePeriod intervalMs lanes).toNat < w) ∧
      Obeys p.log := by
  have h : Polling.Sound (lanePeriod intervalMs lanes)
      ((Polling.init (E := E) tls emitBacklog intervalMs lanes now₀).run scan fill calls) :=
    (init_sound tls emitBacklog intervalMs lanes now₀).run hfit
  refine ⟨fun i t w k hcount => ?_, h.obeys⟩
  cases hi : (Polling.run scan fill _ calls).lanes[i]? with
  | none =>
    rw [h.silent i hi] at hcount
    cases hcount
  | some l => exact (h.lanes i l hi).paced.spaced.window t w k hcount

end

/-- Throttled twice in a row: forty seconds. -/
example : backoffOf [.response 0 429 100, .response 0 429 200] = (2, 40000000200) := by decide +kernel

/-- A lane of a quarter of a second is throttled once, and asks again twenty seconds later. -/
def throttledCalls : List (PollCall ℚ (List (Nat × UInt64))) :=
  [.service 0 (Host.init 1) 5 true false { connect := .done },
    .service 0 (Host.init 1) 7 true false { io := .done },
    .events 0 { inp := true } { io := .done, status := 429 } 100 { status := 0, doc := [] },
    .service 0 (Host.init 1) 250000008 true false {},
    .service 0 (Host.init 1) 20000000100 true false { io := .done }]

theorem polling_discipline_throttled :
    let p := (Polling.init (E := Nat) false true 250 1 5).run id some throttledCalls
    p.log = [.request 0 7 true] ++ [.response 0 429 100] ++ [.request 0 20000000100 true] ∧
      (sentTimes 0 p.log).countP (fun x => decide (7 ≤ x ∧ x < 7 + 20000000094)) = 0 + 2 ∧
      0 * (lanePeriod 250 1).toNat < 20000000094 ∧
      (backoffOf [.request 0 7 true, .response 0 429 100]).2 ≤ (20000000100 : UInt64).toNat := by
  have hlog : ((Polling.init (E := Nat) false true 250 1 5).run id some throttledCalls).log =
      [.request 0 7 true] ++ [.response 0 429 100] ++ [.request 0 20000000100 true] := by decide +kernel
  have hcount : (sentTimes 0 ([.request 0 7 true] ++ [.response 0 429 100] ++ [.request 0 20000000100 true])).countP
      (fun x => decide (7 ≤ x ∧ x < 7 + 20000000094)) = 0 + 2 := by decide +kernel
  have hfit : ∀ c ∈ throttledCalls, c.Fits (lanePeriod 250 1) := by
    intro c hc
    simp only [throttledCalls, List.mem_cons, List.not_mem_nil, or_false] at hc
    rcases hc with rfl | rfl | rfl | rfl | rfl
    · exact ⟨⟨by decide, by decide⟩, by decide +kernel⟩
    · exact ⟨⟨by decide, by decide⟩, by decide +kernel⟩
    · exact ⟨by decide, by decide⟩
    · exact ⟨⟨by decide, by decide⟩, by decide +kernel⟩
    · exact ⟨⟨by decide, by decide⟩, by decide +kernel⟩
  obtain ⟨hwindow, hobeys⟩ := polling_discipline false true 250 1 5 throttledCalls hfit
  refine ⟨hlog, ?_, ?_, ?_⟩
  · rw [hlog]
    exact hcount
  · refine hwindow 0 7 20000000094 0 ?_
    rw [hlog]
    exact hcount
  · exact (hobeys _ _ [] hlog).2

end Stok.Poller
