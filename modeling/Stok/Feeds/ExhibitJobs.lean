import Stok.Feeds.Exhibits

/-!
# No exhibit job is lost

Every job is counted once or held by a lane, never both (`Accounts`), and a lane holds one job more than its queue
can take at most (`JobLane.Ok`). A call for a lane preserves both, whatever the other lanes hold.
-/

namespace Stok.Poller

open Net

variable {F : Type}

/-- The jobs that a lane holds, with whether the request is out. -/
def JobLane.held (jl : JobLane F) : List (Bool × Job F) :=
  (if jl.inflight then [(true, jl.cur)] else []) ++ jl.q.map (Prod.mk false)

/-- The job that an entry counts. -/
def Entry.counts (e : Entry) : Option Nat :=
  match e.mark with
  | .counted _ => some e.id
  | .sent _ => none

def countedIds (log : List Entry) : List Nat := log.filterMap Entry.counts

/-- The requests made for a job fit its stage. -/
structure Within (p : Bool × Job F) (log : List Entry) : Prop where
  page : p.2.stage % 10 ≤ 1
  tries : p.2.stage / 10 ≤ 1
  sent : log.count ⟨p.2.id, .sent (p.2.stage % 10)⟩ ≤ p.2.stage / 10 + p.1.toNat
  later : p.2.stage % 10 = 0 → log.count ⟨p.2.id, .sent 1⟩ = 0

structure Accounts (all : List (Bool × Job F)) (g : Ledger F) : Prop where
  ids : (countedIds g.log ++ all.map fun p => p.2.id).Perm (List.range g.st.queued)
  tally : ∀ f, g.st.of f = g.log.countP fun e => e.mark = .counted f
  past : ∀ e ∈ g.log, e.id < g.st.queued
  /-- Nothing about a job comes after it is counted. -/
  final : g.log.Pairwise fun e e' => e.counts = none ∨ e'.id ≠ e.id
  within : ∀ p ∈ all, Within p g.log
  twice : ∀ id page, g.log.count ⟨id, .sent page⟩ ≤ 2

theorem count_append_other {log : List Entry} {e x : Entry} (hne : e ≠ x) : (log ++ [e]).count x = log.count x := by
  rw [List.count_append, List.count_singleton, if_neg (by simpa using hne), Nat.add_zero]

/-- An entry about another job changes nothing for a job. -/
theorem Within.append {p : Bool × Job F} {log : List Entry} (h : Within p log) {e : Entry} (hne : p.2.id ≠ e.id) :
    Within p (log ++ [e]) where
  page := h.page
  tries := h.tries
  sent := by
    rw [count_append_other fun heq => hne (by rw [heq])]
    exact h.sent
  later h0 := by
    rw [count_append_other fun heq => hne (by rw [heq])]
    exact h.later h0

namespace Accounts

variable {all all' : List (Bool × Job F)} {g : Ledger F} {b : Bool} {j j' : Job F}

theorem perm (h : Accounts all g) (hp : all.Perm all') : Accounts all' g where
  ids := ((hp.symm.map _).append_left _).trans h.ids
  tally := h.tally
  past := h.past
  final := h.final
  within p hm := h.within p (hp.mem_iff.mpr hm)
  twice := h.twice

theorem publish (h : Accounts all g) (out : List (NewsEvent F)) : Accounts all { g with out := out } :=
  ⟨h.ids, h.tally, h.past, h.final, h.within, h.twice⟩

/-- A job that is held is known, is not counted and is held once. -/
theorem head (h : Accounts ((b, j) :: all) g) :
    j.id < g.st.queued ∧ j.id ∉ countedIds g.log ∧ ∀ p ∈ all, p.2.id ≠ j.id := by
  have hids := h.ids
  rw [List.map_cons] at hids
  have hnodup := List.nodup_middle.mp (hids.nodup_iff.mpr List.nodup_range)
  have hmem : j.id ∈ List.range g.st.queued := hids.mem_iff.mp (by simp)
  rw [List.nodup_cons, List.mem_append, not_or] at hnodup
  refine ⟨List.mem_range.mp hmem, hnodup.1.1, fun p hp heq => hnodup.1.2 ?_⟩
  exact List.mem_map.mpr ⟨p, hp, heq⟩

/-- An entry of a held job comes before it is counted. -/
theorem final_append (h : Accounts ((b, j) :: all) g) (m : Mark) :
    (g.log ++ [(⟨j.id, m⟩ : Entry)]).Pairwise fun e e' => e.counts = none ∨ e'.id ≠ e.id := by
  refine List.pairwise_append.mpr ⟨h.final, List.pairwise_singleton _ _, fun e he e' he' => ?_⟩
  rw [List.mem_singleton.mp he']
  cases hc : e.counts with
  | none => exact .inl rfl
  | some id =>
    refine .inr fun heq => h.head.2.1 ?_
    have hid : id = e.id := by
      unfold Entry.counts at hc
      split at hc
      · exact (Option.some.inj hc).symm
      · cases hc
    exact List.mem_filterMap.mpr ⟨e, he, by rw [hc, hid, ← heq]⟩

theorem past_append (h : Accounts ((b, j) :: all) g) (m : Mark) :
    ∀ e ∈ g.log ++ [(⟨j.id, m⟩ : Entry)], e.id < g.st.queued := by
  intro e he
  rcases List.mem_append.mp he with he | he
  · exact h.past e he
  · rw [List.mem_singleton.mp he]
    exact h.head.1

theorem within_append (h : Accounts ((b, j) :: all) g) (m : Mark) :
    ∀ p ∈ all, Within p (g.log ++ [(⟨j.id, m⟩ : Entry)]) :=
  fun p hp => (h.within p (List.mem_cons_of_mem _ hp)).append (h.head.2.2 p hp)

theorem sent (h : Accounts ((false, j) :: all) g) : Accounts ((true, j) :: all) (g.sent j) := by
  have hj := h.within _ List.mem_cons_self
  have hpage : (g.log ++ [(⟨j.id, .sent (j.stage % 10)⟩ : Entry)]).count ⟨j.id, .sent (j.stage % 10)⟩ ≤ j.stage / 10 + 1 := by
    rw [List.count_append, List.count_singleton_self]
    exact Nat.succ_le_succ hj.sent
  refine ⟨?_, fun f => ?_, h.past_append _, h.final_append _, ?_, fun id page => ?_⟩
  · have hcounted : countedIds (g.sent j).log = countedIds g.log := by
      show countedIds (g.log ++ [_]) = _
      unfold countedIds
      rw [List.filterMap_append]
      exact List.append_nil _
    rw [hcounted]
    exact h.ids
  · refine (h.tally f).trans ?_
    show _ = List.countP _ (g.log ++ [_])
    rw [List.countP_append]
    rfl
  · intro p hp
    rcases List.mem_cons.mp hp with rfl | hp
    · refine ⟨hj.page, hj.tries, hpage, fun h0 => ?_⟩
      show List.count _ (g.log ++ [_]) = 0
      rw [count_append_other, hj.later h0]
      intro heq
      have hmark : Mark.sent (j.stage % 10) = .sent 1 := congrArg Entry.mark heq
      rw [h0] at hmark
      cases hmark
    · exact h.within_append _ p hp
  · show List.count _ (g.log ++ [_]) ≤ 2
    by_cases heq : (⟨j.id, .sent (j.stage % 10)⟩ : Entry) = ⟨id, .sent page⟩
    · rw [← heq]
      exact hpage.trans (Nat.succ_le_succ hj.tries)
    · rw [count_append_other heq]
      exact h.twice id page

theorem count (h : Accounts ((b, j) :: all) g) (f : Fate) : Accounts all (g.count j f) := by
  refine ⟨?_, fun f' => ?_, ?_, h.final_append _, h.within_append _, fun id page => ?_⟩
  · have hcounted : countedIds (g.count j f).log = countedIds g.log ++ [j.id] := by
      show countedIds (g.log ++ [_]) = _
      unfold countedIds
      rw [List.filterMap_append]
      rfl
    rw [hcounted, List.append_assoc]
    have hqueued : (g.count j f).st.queued = g.st.queued := by cases f <;> rfl
    rw [hqueued]
    exact h.ids
  · show (g.st.bump f).of f' = List.countP _ (g.log ++ [_])
    rw [List.countP_append, ← h.tally f']
    cases f <;> cases f' <;> rfl
  · have hqueued : (g.count j f).st.queued = g.st.queued := by cases f <;> rfl
    rw [hqueued]
    exact h.past_append _
  · show List.count _ (g.log ++ [_]) ≤ 2
    rw [count_append_other (by simp)]
    exact h.twice id page

/-- A job that waits again, at another stage. -/
theorem again (h : Accounts ((true, j) :: all) g) (hid : j'.id = j.id)
    (hstage : j.stage < 10 ∧ j'.stage = j.stage + 10 ∨ j.stage % 10 = 0 ∧ j'.stage = 1) :
    Accounts ((false, j') :: all) g := by
  have hj := h.within _ List.mem_cons_self
  refine ⟨?_, h.tally, h.past, h.final, ?_, h.twice⟩
  · have hids := h.ids
    rw [List.map_cons] at hids ⊢
    rwa [hid]
  · intro p hp
    rcases List.mem_cons.mp hp with rfl | hp
    · have hpage := hj.page
      have hsent := hj.sent
      have hlater := hj.later
      simp only [Bool.toNat_true] at hpage hsent hlater
      rcases hstage with ⟨hlt, hs⟩ | ⟨h0, hs⟩
      · have hmod : j'.stage % 10 = j.stage % 10 := by omega
        refine ⟨by rw [hmod]; exact hpage, by simp only; omega, ?_, fun h0 => ?_⟩
        · rw [hmod, hid]
          simp only [Bool.toNat_false]
          omega
        · rw [hid]
          exact hlater (hmod ▸ h0)
      · refine ⟨by rw [hs], by rw [hs]; decide, ?_, fun h1 => by rw [hs] at h1; cases h1⟩
        rw [hs, hid]
        exact (hlater h0).le
    · exact h.within p (List.mem_cons_of_mem _ hp)

theorem queue (h : Accounts all g) (hid : j.id = g.st.queued) (hstage : j.stage = 0) :
    Accounts ((false, j) :: all) g.queue := by
  have hnone : ∀ m, g.log.count ⟨j.id, m⟩ = 0 := by
    intro m
    refine List.count_eq_zero.mpr fun hm => ?_
    have hlt := h.past _ hm
    rw [hid] at hlt
    exact lt_irrefl _ hlt
  refine ⟨?_, ?_, fun e he => Nat.lt_succ_of_lt (h.past e he), h.final, ?_, h.twice⟩
  · show (countedIds g.log ++ List.map _ ((false, j) :: all)).Perm (List.range (g.st.queued + 1))
    rw [List.map_cons, List.range_succ]
    refine List.perm_middle.trans (((h.ids.cons j.id).trans ?_))
    rw [hid]
    exact (List.perm_append_singleton _ _).symm
  · intro f
    refine Eq.trans ?_ (h.tally f)
    cases f <;> rfl
  · intro p hp
    rcases List.mem_cons.mp hp with rfl | hp
    · refine ⟨by rw [hstage]; decide, by rw [hstage]; decide, (hnone _).le.trans (Nat.zero_le _), fun _ => hnone _⟩
    · exact h.within p hp

end Accounts

/-! ## Lanes -/

/-- What a lane keeps: a job is in flight exactly while its connection is busy. -/
structure JobLane.Ok (jl : JobLane F) (max : Nat) : Prop where
  busy : jl.inflight = jl.conn.busy
  rest : jl.conn.state ≠ .done
  bases : ∀ p ∈ jl.held, p.2.base.isSome
  url : jl.inflight = true → (parseUrl jl.cur.url).isSome
  room : jl.held.length ≤ max + 1

/-- A lane among others: `rest` is what the other lanes hold. -/
structure JobLane.Sound (max : Nat) (rest : List (Bool × Job F)) (jl : JobLane F) (g : Ledger F) : Prop where
  ok : jl.Ok max
  accounts : Accounts (jl.held ++ rest) g

namespace JobLane

variable {max : Nat} {rest : List (Bool × Job F)} {jl : JobLane F} {g : Ledger F} {net : Connection.Network}

theorem held_true (h : jl.inflight = true) : jl.held = (true, jl.cur) :: jl.q.map (Prod.mk false) := by
  rw [held, if_pos h]
  rfl

theorem held_false (h : jl.inflight = false) : jl.held = jl.q.map (Prod.mk false) := by
  rw [held, h]
  rfl

theorem held_length (jl : JobLane F) : jl.held.length = jl.q.length + if jl.inflight then 1 else 0 := by
  rw [held, List.length_append, List.length_map, Nat.add_comm]
  split <;> rfl

/-- What a lane holds, its queue and the state of its connection decide whether it is sound. -/
theorem Sound.of_eq {jl' : JobLane F} (h : Sound max rest jl g) (hheld : jl'.held = jl.held) (hcur : jl'.cur = jl.cur)
    (hinflight : jl'.inflight = jl.inflight) (hbusy : jl'.conn.busy = jl.conn.busy) (hstate : jl'.conn.state ≠ .done) :
    Sound max rest jl' g where
  ok :=
    { busy := by rw [hinflight, hbusy, h.ok.busy]
      rest := hstate
      bases := by rw [hheld]; exact h.ok.bases
      url := by rw [hinflight, hcur]; exact h.ok.url
      room := by rw [hheld]; exact h.ok.room }
  accounts := by rw [hheld]; exact h.accounts

theorem Sound.connection (h : Sound max rest jl g) {conn : Connection} (hbusy : conn.busy = jl.conn.busy)
    (hstate : conn.state ≠ .done) : Sound max rest { jl with conn := conn } g :=
  h.of_eq rfl rfl rfl hbusy hstate

theorem Sound.reconnect (h : Sound max rest jl g) (reconnectAt : UInt64) (streak : UInt32) :
    Sound max rest { jl with reconnectAt := reconnectAt, failStreak := streak } g :=
  h.of_eq rfl rfl rfl rfl h.ok.rest

/-- The job in flight is put back or counted: an idle lane that holds `q`. -/
theorem Sound.of_idle {jl' : JobLane F} {q : List (Job F)} {g' : Ledger F} (hq : jl'.q = q) (hinflight : jl'.inflight = false)
    (hbusy : jl'.conn.busy = false) (hstate : jl'.conn.state ≠ .done) (hbases : ∀ j ∈ q, j.base.isSome)
    (hroom : q.length ≤ max + 1) (haccounts : Accounts (q.map (Prod.mk false) ++ rest) g') : Sound max rest jl' g' where
  ok :=
    { busy := by rw [hinflight, hbusy]
      rest := hstate
      bases := by
        rw [held_false hinflight, hq]
        intro p hp
        obtain ⟨j, hj, rfl⟩ := List.mem_map.mp hp
        exact hbases j hj
      url := fun h => by rw [hinflight] at h; cases h
      room := by rw [held_length, hinflight, hq]; exact hroom }
  accounts := by rwa [held_false hinflight, hq]

theorem Ok.queue_bases (h : jl.Ok max) : ∀ j ∈ jl.q, j.base.isSome :=
  fun j hj => h.bases (false, j) (List.mem_append_right _ (List.mem_map_of_mem hj))

theorem Ok.queue_length (h : jl.Ok max) : jl.q.length + (if jl.inflight then 1 else 0) ≤ max + 1 :=
  held_length jl ▸ h.room

theorem startConnect_sound (h : Sound max rest jl g) (hidle : jl.conn.busy = false) (now : UInt64) (resolved : Bool) :
    Sound max rest (jl.startConnect now resolved net) g := by
  obtain ⟨hbusy, hstate⟩ := @Connection.connect_state net jl.conn
  have hnew := h.connection (hbusy.trans hidle.symm) hstate
  unfold startConnect
  split
  · exact h.reconnect _ _
  · dsimp only
    split
    · exact hnew
    · exact hnew.reconnect _ _

/-- A request goes out, or its URL is bad, or the job waits on. -/
theorem dispatch_sound (h : Sound max rest jl g) (hfree : jl.inflight = false) (now : UInt64) :
    Sound max rest (jl.dispatch now net g).1 (jl.dispatch now net g).2 := by
  unfold dispatch
  cases hq : jl.q with
  | nil => exact h
  | cons j q =>
    have hbases := h.ok.queue_bases
    have hroom := h.ok.queue_length
    have haccounts := h.accounts
    rw [held_false hfree] at haccounts
    rw [hq] at hbases hroom haccounts
    have hidle : jl.conn.busy = false := h.ok.busy ▸ hfree
    dsimp only
    cases hurl : parseUrl j.url with
    | none =>
      refine .of_idle (q := q) rfl hfree hidle h.ok.rest (fun j' hj => hbases j' (List.mem_cons_of_mem _ hj)) ?_
        (haccounts.count .errors)
      simp only [List.length_cons] at hroom
      omega
    | some u =>
      have hsome : (parseUrl j.url).isSome = true := by rw [hurl]; rfl
      obtain ⟨hbusy, hstate⟩ := @Connection.send_state net _ h.ok.rest hidle
      dsimp only
      generalize jl.conn.send net = r at hbusy hstate ⊢
      obtain ⟨conn, ok⟩ := r
      cases ok with
      | true =>
        refine ⟨⟨hbusy.symm, hstate, ?_, fun _ => hsome, ?_⟩, ?_⟩
        · rw [held_true rfl]
          intro p hp
          rcases List.mem_cons.mp hp with rfl | hp
          · exact hbases j List.mem_cons_self
          · obtain ⟨j', hj, rfl⟩ := List.mem_map.mp hp
            exact hbases j' (List.mem_cons_of_mem _ hj)
        · rw [held_true rfl, List.length_cons, List.length_map]
          rw [hfree] at hroom
          exact hroom
        · rw [held_true rfl]
          exact haccounts.sent
      | false => exact .of_idle (q := j :: q) rfl hfree hbusy hstate hbases (by rw [hfree] at hroom; exact hroom) haccounts

theorem service_sound [Dbl F] (h : Sound max rest jl g) (host : Host F) (now : UInt64) (resolved : Bool) :
    Sound max rest (jl.service host now resolved net g).1 (jl.service host now resolved net g).2.2 := by
  unfold service
  split
  · rename_i hdown
    have hidle : jl.conn.busy = false := by
      rcases hdown with hs | hs
      · exact Connection.busy_eq hs nofun nofun
      · exact Connection.busy_eq hs nofun nofun
    split
    · exact startConnect_sound h hidle now resolved
    · exact h
  · split
    · exact h
    · rename_i hgo
      simp only [Bool.or_eq_true, not_or, Bool.not_eq_true] at hgo
      split
      · exact h
      · exact dispatch_sound h hgo.1.1 now

/-- A response counts the job, or puts it back for its exhibit. -/
theorem onJobResponse_spec (jl : JobLane F) (env : Around) (hbases : ∀ j ∈ jl.q, j.base.isSome) (hbase : jl.cur.base.isSome)
    (hurl : (parseUrl jl.cur.url).isSome) (hroom : jl.q.length ≤ max)
    (h : Accounts ((true, jl.cur) :: (jl.q.map (Prod.mk false) ++ rest)) g) :
    (jl.onJobResponse env g).1.conn = jl.conn ∧ (jl.onJobResponse env g).1.inflight = jl.inflight ∧
      (∀ j ∈ (jl.onJobResponse env g).1.q, j.base.isSome) ∧ (jl.onJobResponse env g).1.q.length ≤ max + 1 ∧
      Accounts ((jl.onJobResponse env g).1.q.map (Prod.mk false) ++ rest) (jl.onJobResponse env g).2 := by
  have hcount : ∀ f, Accounts (jl.q.map (Prod.mk false) ++ rest) (g.count jl.cur f) := h.count
  have hlen : jl.q.length ≤ max + 1 := Nat.le_succ_of_le hroom
  unfold onJobResponse
  dsimp only
  split
  · exact ⟨rfl, rfl, hbases, hlen, hcount _⟩
  · split
    · exact ⟨rfl, rfl, hbases, hlen, hcount _⟩
    · split
      · rename_i hstage
        split
        · exact ⟨rfl, rfl, hbases, hlen, hcount _⟩
        · split
          · rename_i hbad
            rw [hbad] at hurl
            cases hurl
          · refine ⟨rfl, rfl, fun j hj => ?_, Nat.succ_le_succ hroom, h.again rfl (.inr ⟨hstage, rfl⟩)⟩
            rcases List.mem_cons.mp hj with rfl | hj
            · exact hbase
            · exact hbases j hj
      · split
        · exact ⟨rfl, rfl, hbases, hlen, hcount _⟩
        · exact ⟨rfl, rfl, hbases, hlen, (hcount _).publish _⟩

/-- The job in flight is put back, or counted when it was retried before. -/
theorem drop_sound (h : Sound max rest jl g) {conn : Connection} (hidle : conn.busy = false) (hrest : conn.state ≠ .done) :
    Sound max rest ({ jl with conn := conn }.drop g).1 ({ jl with conn := conn }.drop g).2 := by
  have hbases := h.ok.queue_bases
  have hroom := h.ok.queue_length
  have haccounts := h.accounts
  unfold drop
  by_cases hfly : jl.inflight = true
  · rw [held_true hfly] at haccounts
    rw [if_pos hfly] at hroom
    rw [if_pos hfly]
    dsimp only
    split
    · rename_i hretry
      refine .of_idle rfl rfl hidle hrest (fun j hj => ?_) hroom (haccounts.again rfl (.inl ⟨hretry.2, rfl⟩))
      rcases List.mem_cons.mp hj with rfl | hj
      · exact hretry.1
      · exact hbases j hj
    · exact .of_idle rfl rfl hidle hrest hbases (Nat.le_of_succ_le hroom) (haccounts.count _)
  · rw [if_neg hfly]
    rw [Bool.not_eq_true] at hfly
    exact h.of_eq rfl rfl rfl (hidle.trans (h.ok.busy.symm.trans hfly).symm) hrest

theorem onJobEvent_sound (h : Sound max rest jl g) {conn : Connection} {e : Connection.Event} (hemits : jl.conn.Emits e conn)
    (now : UInt64) (env : Around) :
    Sound max rest ({ jl with conn := conn }.onJobEvent e now env g).1
      ({ jl with conn := conn }.onJobEvent e now env g).2 := by
  have hbases := h.ok.queue_bases
  have hroom := h.ok.queue_length
  have haccounts := h.accounts
  unfold onJobEvent
  cases hemits with
  | none hbusy hstate => exact h.connection hbusy hstate
  | connected hidle hstate =>
    have hbusy : conn.busy = jl.conn.busy := (Connection.busy_eq hstate nofun nofun).trans hidle.symm
    exact (h.connection hbusy (by rw [hstate]; nofun)).reconnect _ _
  | response hbusy hstate =>
    have hfly : jl.inflight = true := h.ok.busy.trans hbusy
    rw [held_true hfly] at haccounts
    rw [hfly] at hroom
    have hcur := h.ok.bases (true, jl.cur) (by rw [held_true hfly]; exact List.mem_cons_self)
    obtain ⟨hconn, hfree, hbases', hroom', haccounts'⟩ := onJobResponse_spec
      { jl with conn := conn, inflight := false } env hbases hcur (h.ok.url hfly) (Nat.le_of_succ_le_succ hroom) haccounts
    obtain ⟨hidle, hrest⟩ := Connection.recycle_state hstate
    dsimp only
    generalize { jl with conn := conn, inflight := false }.onJobResponse env g = r at hconn hfree hbases' hroom' haccounts' ⊢
    obtain ⟨jl', g'⟩ := r
    exact .of_idle rfl hfree (by rw [hconn]; exact hidle) (by rw [hconn]; exact hrest) hbases' hroom' haccounts'
  | closed hstate =>
    have hidle : conn.busy = false := Connection.busy_eq hstate nofun nofun
    have hrest : conn.state ≠ .done := by rw [hstate]; nofun
    have hdrop := drop_sound h hidle hrest
    dsimp only
    generalize { jl with conn := conn }.drop g = r at hdrop ⊢
    obtain ⟨jl', g'⟩ := r
    dsimp only
    split
    · exact hdrop.reconnect _ _
    · exact hdrop.reconnect _ _

theorem held_push (jl : JobLane F) (q : List (Job F)) (j : Job F) :
    ({ jl with q := q ++ [j] } : JobLane F).held = ({ jl with q := q } : JobLane F).held ++ [(false, j)] := by
  simp only [held, List.map_append, List.map_singleton, List.append_assoc]

/-- A job comes in; when the queue is full the last one of it goes. -/
theorem push_sound (h : Sound max rest jl g) (hmax : 1 ≤ max) {j : Job F} (hid : j.id = g.st.queued) (hstage : j.stage = 0)
    (hbase : j.base.isSome) : Sound max rest (jl.push max j g).1 (jl.push max j g).2 := by
  have hroom := h.ok.queue_length
  -- with what stays of the queue, and the ledger
  have hadd : ∀ (q : List (Job F)) (g' : Ledger F), g'.st.queued = g.st.queued → (∀ j' ∈ q, j' ∈ jl.q) →
      q.length + (if jl.inflight then 1 else 0) ≤ max → Accounts (({ jl with q := q } : JobLane F).held ++ rest) g' →
      Sound max rest { jl with q := q ++ [j] } g'.queue := by
    intro q g' hqueued hsub hlen haccounts
    refine ⟨⟨h.ok.busy, h.ok.rest, ?_, h.ok.url, ?_⟩, ?_⟩
    · rw [held_push]
      intro p hp
      rcases List.mem_append.mp hp with hp | hp
      · refine h.ok.bases p ?_
        rcases List.mem_append.mp hp with hp | hp
        · exact List.mem_append_left _ hp
        · obtain ⟨j', hj, rfl⟩ := List.mem_map.mp hp
          exact List.mem_append_right _ (List.mem_map_of_mem (hsub j' hj))
      · rw [List.mem_singleton.mp hp]
        exact hbase
    · rw [held_push, List.length_append, held_length]
      exact Nat.succ_le_succ hlen
    · rw [held_push]
      refine (haccounts.queue (hid.trans hqueued.symm) hstage).perm ?_
      rw [List.append_assoc]
      exact List.perm_middle.symm
  unfold push
  by_cases hfull : max ≤ jl.q.length
  · rw [if_pos hfull]
    have hne : jl.q ≠ [] := fun hnil => by
      rw [hnil, List.length_nil] at hfull
      omega
    rw [List.getLast?_eq_getLast_of_ne_nil hne]
    have hsplit := List.dropLast_append_getLast hne
    generalize jl.q.getLast hne = last at hsplit ⊢
    have hlen : jl.q.dropLast.length + 1 = jl.q.length := by
      rw [List.length_dropLast]
      have := List.length_pos_of_ne_nil hne
      omega
    refine hadd jl.q.dropLast (g.count last .overflow) rfl (fun j' hj => List.mem_of_mem_dropLast hj) (by omega) ?_
    have haccounts := h.accounts
    rw [show jl = { jl with q := jl.q.dropLast ++ [last] } by rw [hsplit], held_push] at haccounts
    rw [List.append_assoc] at haccounts
    exact (haccounts.perm List.perm_middle).count .overflow
  · rw [if_neg hfull]
    refine hadd jl.q g rfl (fun _ hj => hj) ?_ h.accounts
    split at hroom
    · rename_i hfly
      rw [if_pos hfly]
      omega
    · rename_i hfly
      rw [if_neg hfly]
      omega

end JobLane

/-! ## Runs -/

namespace Exhibits

/-- The jobs that the lanes hold. -/
def held (s : Exhibits F) : List (Bool × Job F) := s.lanes.flatMap JobLane.held

structure Sound (max : Nat) (s : Exhibits F) : Prop where
  lanes : ∀ jl ∈ s.lanes, jl.Ok max
  accounts : Accounts s.held s.ledger

variable {max : Nat} {s : Exhibits F}

/-- A call for one lane leaves the others as they are. -/
theorem onLane_sound (h : s.Sound max) (i : Nat) {f : JobLane F → Ledger F → JobLane F × Ledger F}
    (hf : ∀ jl rest, JobLane.Sound max rest jl s.ledger → JobLane.Sound max rest (f jl s.ledger).1 (f jl s.ledger).2) :
    (s.onLane i f).Sound max := by
  unfold onLane
  cases hget : s.lanes[i]? with
  | none => exact h
  | some jl =>
    obtain ⟨hi, rfl⟩ := List.getElem?_eq_some_iff.mp hget
    let rest := (s.lanes.eraseIdx i).flatMap JobLane.held
    have hheld : s.held.Perm (s.lanes[i].held ++ rest) :=
      ((List.getElem_cons_eraseIdx_perm hi).symm.flatMap_right JobLane.held)
    have hnew := hf s.lanes[i] rest ⟨h.lanes _ (List.getElem_mem hi), h.accounts.perm hheld⟩
    dsimp only
    generalize f s.lanes[i] s.ledger = r at hnew ⊢
    have hset := List.set_perm_cons_eraseIdx hi r.1
    refine ⟨fun jl hjl => ?_, hnew.accounts.perm (hset.flatMap_right JobLane.held).symm⟩
    rcases List.mem_cons.mp (hset.mem_iff.mp hjl) with rfl | hjl
    · exact hnew.ok
    · exact h.lanes jl (List.mem_of_mem_eraseIdx hjl)

theorem init_sound (max : Nat) (hosts : List (Bytes × Bool)) : (init hosts : Exhibits F).Sound max := by
  have hlane : ∀ jl ∈ (init hosts : Exhibits F).lanes, jl.held = [] ∧ jl.Ok max := by
    intro jl hjl
    obtain ⟨h, -, rfl⟩ := List.mem_map.mp hjl
    exact ⟨rfl, rfl, nofun, nofun, nofun, Nat.zero_le _⟩
  refine ⟨fun jl hjl => (hlane jl hjl).2, ?_⟩
  have hnone : (init hosts : Exhibits F).held = [] := List.flatMap_eq_nil_iff.mpr fun jl hjl => (hlane jl hjl).1
  rw [hnone]
  exact ⟨.refl _, fun f => by cases f <;> rfl, nofun, .nil, nofun, fun _ _ => Nat.zero_le _⟩

variable [Dbl F] (opts : PollerOptions F) (symbols : UInt32 → SymbolInfo F)

theorem call_sound (hmax : 1 ≤ opts.exhibitQueueMax) (h : s.Sound opts.exhibitQueueMax) (c : JobCall F) :
    (call opts symbols s c).Sound opts.exhibitQueueMax := by
  cases c with
  | queue ev now =>
    unfold call maybeQueueExhibit
    dsimp only
    split
    · exact h
    · split
      · exact h
      · exact onLane_sound h _ fun jl rest hjl => JobLane.push_sound hjl hmax rfl rfl rfl
  | service i host now resolved net =>
    unfold call
    dsimp only
    exact onLane_sound h i fun jl rest hjl => JobLane.service_sound hjl host now resolved
  | events i ready net now env =>
    exact onLane_sound h i fun jl rest hjl => JobLane.onJobEvent_sound hjl (Connection.onEvents_emits ready hjl.ok.rest) now env
  | timeout i late now env =>
    exact onLane_sound h i fun jl rest hjl => JobLane.onJobEvent_sound hjl (Connection.checkTimeout_emits late hjl.ok.rest) now env

theorem run_sound (hmax : 1 ≤ opts.exhibitQueueMax) (calls : List (JobCall F)) (h : s.Sound opts.exhibitQueueMax) :
    (run opts symbols s calls).Sound opts.exhibitQueueMax := by
  induction calls generalizing s with
  | nil => exact h
  | cons c calls ih => exact ih (call_sound opts symbols hmax h c)

end Exhibits

/-! ## What the statistics say -/

theorem countedIds_length (log : List Entry) :
    (countedIds log).length = (log.countP fun e => e.mark = .counted .fetched) + (log.countP fun e => e.mark = .counted .none) +
      (log.countP fun e => e.mark = .counted .errors) + (log.countP fun e => e.mark = .counted .overflow) := by
  induction log with
  | nil => rfl
  | cons e log ih =>
    obtain ⟨id, m⟩ := e
    cases m with
    | sent page =>
      have hsame : countedIds (⟨id, .sent page⟩ :: log) = countedIds log := rfl
      rw [hsame, ih]
      simp
    | counted f =>
      have hmore : countedIds (⟨id, .counted f⟩ :: log) = id :: countedIds log := rfl
      rw [hmore, List.length_cons, ih]
      cases f with
      | fetched => simp; omega
      | none => simp; omega
      | errors => simp; omega
      | overflow => simp; omega

theorem Accounts.conserved {all : List (Bool × Job F)} {g : Ledger F} (h : Accounts all g) :
    g.st.queued = g.st.fetched + g.st.none + g.st.errors + g.st.overflow + all.length := by
  have hlen := h.ids.length_eq
  rw [List.length_append, List.length_map, List.length_range, countedIds_length] at hlen
  have hfetched := h.tally .fetched
  have hnone := h.tally .none
  have herrors := h.tally .errors
  have hoverflow := h.tally .overflow
  simp only [ExhibitStats.of] at hfetched hnone herrors hoverflow
  omega

/-- Every job is counted once or held once, and not both. -/
theorem Accounts.once {all : List (Bool × Job F)} {g : Ledger F} (h : Accounts all g) {id : Nat} (hid : id < g.st.queued) :
    (countedIds g.log).count id + (all.map fun p => p.2.id).count id = 1 := by
  rw [← List.count_append, h.ids.count_eq]
  exact List.count_eq_one_of_mem List.nodup_range (List.mem_range.mpr hid)

theorem Exhibits.held_length (s : Exhibits F) :
    s.held.length = (s.lanes.map fun jl => jl.q.length + if jl.inflight then 1 else 0).sum := by
  rw [Exhibits.held, List.length_flatMap]
  exact congrArg List.sum (List.map_congr_left fun jl _ => jl.held_length)

/-- Jobs are conserved: the statistics and what the lanes hold make up the jobs queued, each counted once or held;
a lane holds at most one job more than its queue can take; and each page of a job is asked for at most twice, never
after the job is counted. -/
theorem jobs_conserved [Dbl F] (opts : PollerOptions F) (symbols : UInt32 → SymbolInfo F) (hosts : List (Bytes × Bool))
    (calls : List (JobCall F)) (hmax : 1 ≤ opts.exhibitQueueMax) :
    let s := Exhibits.run opts symbols (Exhibits.init hosts) calls
    let st := s.ledger.st
    let log := s.ledger.log
    st.queued = st.fetched + st.none + st.errors + st.overflow +
        (s.lanes.map fun jl => jl.q.length + if jl.inflight then 1 else 0).sum ∧
      (∀ jl ∈ s.lanes, jl.q.length + (if jl.inflight then 1 else 0) ≤ opts.exhibitQueueMax + 1) ∧
      (∀ f, st.of f = log.countP fun e => e.mark = .counted f) ∧
      (∀ id < st.queued, (countedIds log).count id + (s.held.map fun p => p.2.id).count id = 1) ∧
      (∀ id page, log.count ⟨id, .sent page⟩ ≤ 2) ∧
      log.Pairwise fun e e' => e.counts = none ∨ e'.id ≠ e.id := by
  have hs := Exhibits.run_sound opts symbols hmax calls (Exhibits.init_sound opts.exhibitQueueMax hosts)
  intro s st log
  refine ⟨?_, fun jl hjl => (hs.lanes jl hjl).queue_length, hs.accounts.tally, fun id hid => hs.accounts.once hid,
    hs.accounts.twice, hs.accounts.final⟩
  rw [← s.held_length]
  exact hs.accounts.conserved

/-- A filing of `acme`. -/
def acmeFiling : NewsEvent ℚ :=
  { idHash := 1, titleKey := 0, recvNs := 0, sentNs := 0, publishedNs := 0, parsedNs := 0, cik := 7, itemsMask := 0
    source := 0, kind := .filing, flags := 0, tickers := [0], unresolved := [], form := .print pos_16 (lit "8-K")
    halt := { reason := .empty pos_8, market := .empty pos_12, haltNs := 0, resumeQuoteNs := 0
              resumeTradeNs := 0, pauseThreshold := 0 }
    title := .empty pos_256, link := .assign pos_320 (lit "http://www.sec.gov/a-index.htm")
    body := .empty pos_3072, tickers_le := one_ticker_le, unresolved_le := no_unresolved_le }

/-- Two filings for a queue of one job, and a response to the request of the second. -/
def acmeCalls : List (JobCall ℚ) :=
  [.service 0 (Host.init 5) 1 true { connect := .done }, .queue acmeFiling 2, .queue acmeFiling 3,
   .service 0 (Host.init 5) 4 true { io := .done }, .events 0 { inp := true } { io := .done } 5 {}]

def acmeOptions : PollerOptions ℚ := { exhibitMaxShares := 500000000, exhibitQueueMax := 1 }

theorem jobs_conserved_acme :
    let s := Exhibits.run acmeOptions (fun _ => acme) (Exhibits.init [(lit "www.sec.gov", false)]) acmeCalls
    s.ledger.st = { queued := 2, none := 1, overflow := 1 } ∧
      s.ledger.st.queued = s.ledger.st.fetched + s.ledger.st.none + s.ledger.st.errors + s.ledger.st.overflow +
        (s.lanes.map fun jl => jl.q.length + if jl.inflight then 1 else 0).sum :=
  ⟨by decide +kernel,
    (jobs_conserved acmeOptions (fun _ => acme) [(lit "www.sec.gov", false)] acmeCalls (by decide)).1⟩

end Stok.Poller
