import Stok.Feeds.HostRate
import Stok.Feeds.Parsers
import Stok.Net.Connection
import Stok.Net.Url
import Stok.Ref.Filings
import Stok.Ref.Symbols

/-!
# Exhibit jobs (`feeds/poller.cpp`)

A filing that may carry a press release becomes a `Job`: its index page is fetched, and then the exhibit
that the page links to. The jobs of a host wait in the queue of its `JobLane`, which has one connection.
The number of a job and the `log` of a `Ledger` are not in the source, and nothing reads them: they record which
job is sent and which is counted.
-/

namespace Stok.Poller

open Net

/-! ## Index pages -/

/-- The rank and the link of a row of an index page that lists an exhibit. -/
def rowExhibit (row : Bytes) : Option (Nat × Bytes) := do
  let ex ← ifind row (lit ">ex-99")
  -- Prefer EX-99.1 (the press release) over later exhibits.
  let first := ex + 8 < row.length && byteAt row (ex + 6) == ch '.' && byteAt row (ex + 7) == ch '1' &&
    !isDigit (byteAt row (ex + 8))
  let a ← ifind row (lit "href=")
  let q := a + 5
  if row.length ≤ q then failure
  let quote := byteAt row q
  let href ←
    if quote = 34 ∨ quote = 39 then (find [quote] row (q + 1)).map fun qe => (row.take qe).drop (q + 1)
    else some ((row.drop q).takeWhile fun c => !isSpace c && c != ch '>')
  return (if first then 0 else 5, if istartsWith href (lit "/ix?doc=") then href.drop 8 else href)

/-- The rows from `pos` on, with the best link so far and its rank. -/
def exhibitFrom (html : Bytes) : Nat → Nat → Bytes → Nat → Bytes
  | 0, _, best, _ => best
  | fuel + 1, pos, best, bestRank =>
    match find (lit "<tr") (toLowerCopy html) pos with
    | none => best
    | some tr =>
      let stop := (find (lit "</tr") (toLowerCopy html) (tr + 3)).getD html.length
      match rowExhibit ((html.take stop).drop tr) with
      | none => exhibitFrom html fuel stop best bestRank
      | some (rank, href) =>
        if bestRank ≤ rank then exhibitFrom html fuel stop best bestRank
        else if rank = 0 then href
        else exhibitFrom html fuel stop href rank

def findExhibitHref (html : Bytes) : Bytes := exhibitFrom html (html.length + 1) 0 [] 99

example : findExhibitHref (lit "<tr><a href='b'>EX-99.2</tr><TR>>EX-99.1<a href=a></TR>") = lit "a" := by
  rw [lit_ofList, lit_ofList]
  decide +kernel

/-! ## Jobs -/

structure Job (F : Type) where
  id : Nat := 0
  url : Bytes := []
  /-- 0: the index page, 1: the exhibit. Ten more after a retry. -/
  stage : Nat := 0
  base : Option (NewsEvent F) := none
  queuedMono : UInt64 := 0

structure JobLane (F : Type) where
  hostName : Bytes
  conn : Connection
  q : List (Job F) := []
  cur : Job F := {}
  inflight : Bool := false
  reconnectAt : UInt64 := 0
  failStreak : UInt32 := 0

/-- How a job ends. -/
inductive Fate where
  | fetched | none | errors | overflow
  deriving DecidableEq, Repr

structure ExhibitStats where
  queued : Nat := 0
  fetched : Nat := 0
  none : Nat := 0
  errors : Nat := 0
  overflow : Nat := 0
  deriving DecidableEq, Repr

inductive Mark where
  | sent (page : Nat)
  | counted (f : Fate)
  deriving DecidableEq, Repr

structure Entry where
  id : Nat
  mark : Mark
  deriving DecidableEq, Repr

/-- The statistics and the published exhibits. -/
structure Ledger (F : Type) where
  st : ExhibitStats := {}
  out : List (NewsEvent F) := []
  log : List Entry := []

def ExhibitStats.of (st : ExhibitStats) : Fate → Nat
  | .fetched => st.fetched
  | .none => st.none
  | .errors => st.errors
  | .overflow => st.overflow

def ExhibitStats.bump (st : ExhibitStats) : Fate → ExhibitStats
  | .fetched => { st with fetched := st.fetched + 1 }
  | .none => { st with none := st.none + 1 }
  | .errors => { st with errors := st.errors + 1 }
  | .overflow => { st with overflow := st.overflow + 1 }

section

variable {F : Type}

def Ledger.count (g : Ledger F) (j : Job F) (f : Fate) : Ledger F :=
  { g with st := g.st.bump f, log := g.log ++ [⟨j.id, .counted f⟩] }

def Ledger.sent (g : Ledger F) (j : Job F) : Ledger F := { g with log := g.log ++ [⟨j.id, .sent (j.stage % 10)⟩] }

def Ledger.queue (g : Ledger F) : Ledger F := { g with st.queued := g.st.queued + 1 }

/-- When to reconnect after the `streak`-th failure in a row. -/
def retryAt (now base : UInt64) (cap streak : UInt32) : UInt64 :=
  now + min 30000 (base <<< (min streak cap).toUInt64) * 1000000

variable [Dbl F]

structure PollerOptions (F : Type) where
  exhibitMaxShares : F
  exhibitQueueMax : Nat := 256

/-- Items 5.02, 5.05, 5.07, 5.08 and 9.01. -/
def kBoring : UInt32 :=
  ([17, 20, 22, 23, 31] : List UInt32).foldl (fun mask bit => mask ||| (1 : UInt32) <<< bit) 0

/-- The URL of a filing that is worth a job. -/
def exhibitUrl (opts : PollerOptions F) (symbols : UInt32 → SymbolInfo F) (ev : NewsEvent F) : Option Url := do
  let t ← ev.tickers.head?
  if ev.link.bytes = [] then failure
  let cls := classifyForm ev.form.bytes
  if cls ≠ .form8K ∧ cls ≠ .form6K then failure
  let s := symbols t
  if !s.exchange.isExchangeListed then failure
  if Dbl.lt (Dbl.ofRat 0) s.sharesOutstanding && Dbl.lt opts.exhibitMaxShares s.sharesOutstanding then failure
  -- 8-Ks carrying only governance items rarely have a press release.
  if cls = .form8K ∧ ev.itemsMask ≠ 0 ∧ ev.itemsMask &&& ~~~kBoring = 0 then failure
  parseUrl ev.link.bytes

omit [Dbl F] in
/-- A job at the back of a queue, in the place of the last one when the queue is full. -/
def JobLane.push (jl : JobLane F) (max : Nat) (j : Job F) (g : Ledger F) : JobLane F × Ledger F :=
  let (q, g) :=
    if max ≤ jl.q.length then
      match jl.q.getLast? with
      | some last => (jl.q.dropLast, g.count last .overflow)
      | none => (jl.q, g)
    else (jl.q, g)
  ({ jl with q := q ++ [j] }, g.queue)

omit [Dbl F] in
/-- `resolved`: the host has an address. -/
def JobLane.startConnect (jl : JobLane F) (now : UInt64) (resolved : Bool) (net : Connection.Network) : JobLane F :=
  if !resolved then
    let streak := jl.failStreak + 1
    { jl with failStreak := streak, reconnectAt := retryAt now 250 7 streak }
  else
    let (conn, ok) := jl.conn.connect net
    if ok then { jl with conn }
    else
      let streak := jl.failStreak + 1
      { jl with conn, failStreak := streak, reconnectAt := retryAt now 100 8 streak }

/-- Feed polls have priority: leave a token for them when the bucket is low. -/
def Host.spare (h : Host F) (now : UInt64) : Bool × Host F :=
  let (wait, h) := h.waitNs now
  if wait ≠ 0 ∨ Dbl.lt h.tokens (Dbl.min (Dbl.ofRat (3 / 2)) h.burst) then (false, h)
  else h.take now

omit [Dbl F] in
/-- Takes the front of the queue and sends its request. -/
def JobLane.dispatch (jl : JobLane F) (now : UInt64) (net : Connection.Network) (g : Ledger F) :
    JobLane F × Ledger F :=
  match jl.q with
  | [] => (jl, g)
  | j :: q =>
    let jl := { jl with cur := j, q := q }
    match parseUrl j.url with
    | none => (jl, g.count j .errors)
    | some _ =>
      let (conn, ok) := jl.conn.send net
      if ok then ({ jl with conn, inflight := true }, g.sent j)
      else ({ jl with conn, q := j :: q, cur := { j with base := none }, reconnectAt := now }, g)

/-- `service_jobs` -/
def JobLane.service (jl : JobLane F) (host : Host F) (now : UInt64) (resolved : Bool) (net : Connection.Network)
    (g : Ledger F) : JobLane F × Host F × Ledger F :=
  if jl.conn.state = .idle ∨ jl.conn.state = .failed then
    if jl.reconnectAt ≤ now then (jl.startConnect now resolved net, host, g) else (jl, host, g)
  else if jl.inflight || jl.q.isEmpty || !jl.conn.ready then (jl, host, g)
  else
    match host.spare now with
    | (false, host) => (jl, host, g)
    | (true, host) =>
      let (jl, g) := jl.dispatch now net g
      (jl, host, g)

/-- What the poller meets around a response: room in the engine ring, and the clocks. -/
structure Around where
  ring : Bool := true
  recvNs : UInt64 := 0
  sentNs : UInt64 := 0
  parsedNs : UInt64 := 0

omit [Dbl F] in
/-- `on_job_response` -/
def JobLane.onJobResponse (jl : JobLane F) (env : Around) (g : Ledger F) : JobLane F × Ledger F :=
  let job := jl.cur
  let jl := { jl with cur := { jl.cur with base := none } }
  match job.base with
  | none => (jl, g.count job .errors)
  | some filing =>
    if jl.conn.status ≠ 200 then (jl, g.count job .errors)
    else if job.stage % 10 = 0 then
      let href := findExhibitHref jl.conn.payload
      if href = [] then (jl, g.count job .none)
      else match parseUrl job.url with
        | none => (jl, g)
        | some base =>
          -- finish this filing before starting another
          ({ jl with q := { job with url := resolveHref base href, stage := 1 } :: jl.q }, g)
    else if !env.ring then (jl, g.count job .errors)
    else
      let ev := { Parsers.fillExhibitEvent jl.conn.payload filing job.url with
        recvNs := env.recvNs, sentNs := env.sentNs, parsedNs := env.parsedNs }
      (jl, { g.count job .fetched with out := g.out ++ [ev] })

omit [Dbl F] in
/-- The job in flight when its connection closes is retried once. -/
def JobLane.drop (jl : JobLane F) (g : Ledger F) : JobLane F × Ledger F :=
  if jl.inflight then
    let jl := { jl with inflight := false }
    if jl.cur.base.isSome ∧ jl.cur.stage < 10 then
      let job := { jl.cur with stage := jl.cur.stage + 10 }
      ({ jl with q := job :: jl.q, cur := { job with base := none } }, g)
    else (jl, g.count jl.cur .errors)
  else (jl, g)

omit [Dbl F] in
/-- `on_job_event` -/
def JobLane.onJobEvent (jl : JobLane F) (ev : Connection.Event) (now : UInt64) (env : Around) (g : Ledger F) :
    JobLane F × Ledger F :=
  match ev with
  | .connected => ({ jl with failStreak := 0 }, g)
  | .response =>
    let (jl, g) := { jl with inflight := false }.onJobResponse env g
    let conn := jl.conn.recycle
    ({ jl with conn, reconnectAt := if conn.ready then jl.reconnectAt else now }, g)
  | .closed =>
    let (jl, g) := jl.drop g
    if jl.conn.idleClose then ({ jl with reconnectAt := now }, g)
    else
      let streak := jl.failStreak + 1
      ({ jl with failStreak := streak, reconnectAt := retryAt now 100 8 streak }, g)
  | .none => (jl, g)

/-! ## Runs -/

/-- The job lanes of a poller. -/
structure Exhibits (F : Type) where
  lanes : List (JobLane F)
  ledger : Ledger F := {}

/-- A call that concerns the job lanes. Other requests to its host come between two calls for a lane, so `service`
takes the host as it finds it. -/
inductive JobCall (F : Type) where
  | queue (ev : NewsEvent F) (now : UInt64)
  | service (lane : Nat) (host : Host F) (now : UInt64) (resolved : Bool) (net : Connection.Network)
  | events (lane : Nat) (ready : Connection.Readiness) (net : Connection.Network) (now : UInt64) (env : Around)
  | timeout (lane : Nat) (late : Bool) (now : UInt64) (env : Around)

omit [Dbl F] in
def Exhibits.onLane (s : Exhibits F) (i : Nat) (f : JobLane F → Ledger F → JobLane F × Ledger F) : Exhibits F :=
  match s.lanes[i]? with
  | none => s
  | some jl =>
    let (jl, ledger) := f jl s.ledger
    { lanes := s.lanes.set i jl, ledger }

/-- `maybe_queue_exhibit` -/
def Exhibits.maybeQueueExhibit (opts : PollerOptions F) (symbols : UInt32 → SymbolInfo F) (s : Exhibits F) (ev : NewsEvent F)
    (now : UInt64) : Exhibits F :=
  match exhibitUrl opts symbols ev with
  | none => s
  | some u =>
    let j := { id := s.ledger.st.queued, url := ev.link.bytes, base := some ev, queuedMono := now }
    match s.lanes.findIdx? fun jl => jl.hostName == u.host with
    | none => s
    | some i => s.onLane i fun jl g => jl.push opts.exhibitQueueMax j g

def Exhibits.call (opts : PollerOptions F) (symbols : UInt32 → SymbolInfo F) (s : Exhibits F) : JobCall F → Exhibits F
  | .queue ev now => s.maybeQueueExhibit opts symbols ev now
  | .service i host now resolved net => s.onLane i fun jl g =>
    let (jl, _, g) := jl.service host now resolved net g
    (jl, g)
  | .events i ready net now env => s.onLane i fun jl g =>
    let (conn, e) := jl.conn.onEvents net ready
    { jl with conn }.onJobEvent e now env g
  | .timeout i late now env => s.onLane i fun jl g =>
    let (conn, e) := jl.conn.checkTimeout late
    { jl with conn }.onJobEvent e now env g

def Exhibits.run (opts : PollerOptions F) (symbols : UInt32 → SymbolInfo F) (s : Exhibits F) (calls : List (JobCall F)) :
    Exhibits F :=
  calls.foldl (Exhibits.call opts symbols) s

/-- The lanes of `init`, by the name of their host and whether it speaks TLS. -/
def Exhibits.init (hosts : List (Bytes × Bool)) : Exhibits F :=
  { lanes := hosts.map fun h => { hostName := h.1, conn := { tls := h.2 } } }

end

end Stok.Poller
