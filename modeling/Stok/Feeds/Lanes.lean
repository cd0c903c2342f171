import Stok.Feeds.Exhibits
import Stok.Feeds.Poller
import Stok.Lib.Pacing

/-!
# The lanes of a feed (`feeds/poller.cpp`)

A feed is polled over several connections, its lanes, that fire in staggered phases. `service_lane` keeps
a lane connected and sends its request when it is due; `on_lane_event` takes what comes back.
`Polling` is one feed with its lanes. Other requests to its host come between two calls, so
`service` takes the host as it finds it. The `log` is not in the source, and nothing reads it.
-/

namespace Stok.Poller

open Net Lib

structure Lane where
  conn : Connection
  periodNs : UInt64
  nextFire : UInt64
  reconnectAt : UInt64 := 0
  failStreak : UInt32 := 0

/-- The counters of `FeedStats` that belong to the lanes. -/
structure LaneStats where
  requests : Nat := 0
  netErrors : Nat := 0
  connects : Nat := 0
  skippedBusy : Nat := 0
  rateLimited : Nat := 0
  deriving DecidableEq, Repr

inductive PollMark where
  /-- A request was given to the connection, which may have failed. -/
  | request (lane : Nat) (now : UInt64) (out : Bool)
  | response (lane : Nat) (status : Nat) (now : UInt64)
  | closed (lane : Nat)
  deriving DecidableEq, Repr

structure Polling (E : Type) where
  feed : Feed
  lanes : List Lane
  stats : LaneStats := {}
  out : List (Published E) := []
  log : List PollMark := []

/-- `start_connect`. `resolved`: the host has an address. -/
def Lane.startConnect (l : Lane) (now : UInt64) (resolved : Bool) (net : Connection.Network) : Lane :=
  if !resolved then
    let streak := l.failStreak + 1
    { l with failStreak := streak, reconnectAt := retryAt now 250 7 streak }
  else
    let (conn, ok) := l.conn.connect net
    if ok then { l with conn }
    else
      let streak := l.failStreak + 1
      { l with conn, failStreak := streak, reconnectAt := retryAt now 100 8 streak }

/-- A period after the time that was set, or after now when that is past. -/
def Lane.after (l : Lane) (now : UInt64) : UInt64 :=
  if l.nextFire + l.periodNs ≤ now then now + l.periodNs else l.nextFire + l.periodNs

section

variable {F : Type} [Dbl F] {Doc Item E : Type} (scan : Doc → List (Item × UInt64)) (fill : Item → Option E)

omit [Dbl F] in
def Polling.setLane (p : Polling E) (i : Nat) (l : Lane) : Polling E := { p with lanes := p.lanes.set i l }

/-- `service_lane`. `stale`: the connection is near the end of the keep-alive time of its server. -/
def Polling.service (p : Polling E) (i : Nat) (host : Host F) (now : UInt64) (resolved stale : Bool)
    (net : Connection.Network) : Polling E :=
  match p.lanes[i]? with
  | none => p
  | some l =>
    if l.conn.state = .idle ∨ l.conn.state = .failed then
      if l.reconnectAt ≤ now then p.setLane i (l.startConnect now resolved net) else p
    else if l.conn.ready ∧ stale ∧ now < l.nextFire then
      p.setLane i ({ l with conn := { l.conn with state := .idle } }.startConnect now resolved net)
    else if now < l.nextFire then p
    else if now.toNat < p.feed.backoffUntil then
      p.setLane i { l with nextFire := .ofNat p.feed.backoffUntil }
    else if !l.conn.ready then
      { p.setLane i { l with nextFire := l.after now } with
        stats.skippedBusy := p.stats.skippedBusy + 1 }
    else
      match host.take now with
      | (false, host) =>
        { p.setLane i { l with nextFire := now + .ofNat (host.waitNs now).1 } with
          stats.rateLimited := p.stats.rateLimited + 1 }
      | (true, _) =>
        let (conn, ok) := l.conn.send net
        let l := { l with conn, reconnectAt := if ok then l.reconnectAt else now, nextFire := l.after now }
        { p.setLane i l with
          stats := if ok then { p.stats with requests := p.stats.requests + 1 }
            else { p.stats with netErrors := p.stats.netErrors + 1 }
          log := p.log ++ [.request i now ok] }

/-- `on_lane_event`; the connection `l.conn` has just given the event. -/
def Polling.onLaneEvent (p : Polling E) (i : Nat) (l : Lane) (ev : Connection.Event) (now : UInt64)
    (reply : Reply Doc) : Polling E :=
  match ev with
  | .connected =>
    { p.setLane i { l with failStreak := 0 } with stats.connects := p.stats.connects + 1 }
  | .response =>
    let (feed, out) := onResponse scan fill p.feed
      { reply with status := l.conn.status.toNat, now := now.toNat }
    let conn := l.conn.recycle
    { p.setLane i { l with conn, reconnectAt := if conn.ready then l.reconnectAt else now } with
      feed := feed
      out := p.out ++ out
      log := p.log ++ [.response i l.conn.status.toNat now] }
  | .closed =>
    if l.conn.idleClose then
      { p.setLane i { l with reconnectAt := now } with log := p.log ++ [.closed i] }
    else
      let streak := l.failStreak + 1
      { p.setLane i { l with failStreak := streak, reconnectAt := retryAt now 100 8 streak } with
        stats.netErrors := p.stats.netErrors + 1
        log := p.log ++ [.closed i] }
  | .none => p.setLane i l

/-- The calls that `step` makes for a feed, of `service_lane`, of `on_events` and of `check_timeout`. -/
inductive PollCall (F Doc : Type) where
  | service (lane : Nat) (host : Host F) (now : UInt64) (resolved stale : Bool) (net : Connection.Network)
  | events (lane : Nat) (ready : Connection.Readiness) (net : Connection.Network) (now : UInt64)
      (reply : Reply Doc)
  | timeout (lane : Nat) (late : Bool) (now : UInt64) (reply : Reply Doc)

omit [Dbl F] in
def PollCall.now : PollCall F Doc → UInt64
  | .service _ _ now _ _ _ | .events _ _ _ now _ | .timeout _ _ now _ => now

def Polling.call (p : Polling E) : PollCall F Doc → Polling E
  | .service i host now resolved stale net => p.service i host now resolved stale net
  | .events i ready net now reply =>
    match p.lanes[i]? with
    | none => p
    | some l =>
      let (conn, e) := l.conn.onEvents net ready
      p.onLaneEvent scan fill i { l with conn } e now reply
  | .timeout i late now reply =>
    match p.lanes[i]? with
    | none => p
    | some l =>
      let (conn, e) := l.conn.checkTimeout late
      p.onLaneEvent scan fill i { l with conn } e now reply

def Polling.run (p : Polling E) (calls : List (PollCall F Doc)) : Polling E :=
  calls.foldl (Polling.call scan fill) p

end

def lanePeriod (intervalMs lanes : UInt32) : UInt64 :=
  (max 50 intervalMs).toUInt64 * (max 1 lanes).toUInt64 * 1000000

/-- The lanes of `init`: staggered evenly across the period; first poll right away. `init` also starts
to connect them, as the first `service` of each lane does here. -/
def Polling.init {E : Type} (tls emitBacklog : Bool) (intervalMs lanes : UInt32) (now : UInt64) : Polling E :=
  { feed := { emitBacklog }
    lanes := (List.range (max 1 lanes).toNat).map fun k =>
      { conn := { tls }
        periodNs := lanePeriod intervalMs lanes
        nextFire := now + (max 50 intervalMs).toUInt64 * .ofNat k * 1000000 } }

end Stok.Poller
