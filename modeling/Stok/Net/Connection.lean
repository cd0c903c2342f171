import Stok.Core.Word

/-!
# Connections (`net/connection.cpp`)

A `Connection` is driven by readiness events and by timeouts, and never blocks. What the socket and
the TLS library answer in a call is the argument `net` of the call. `Emits` lists what an
event says of the states around it; a request is out exactly in the busy states.
-/

namespace Stok.Net

namespace Connection

inductive State where
  | idle | connecting | handshaking | ready | writing | reading | done | failed
  deriving DecidableEq, Repr

inductive Event where
  | none | connected | response | closed
  deriving DecidableEq, Repr

/-- How a call of the socket or of the TLS library ends. -/
inductive Io where
  | failed | blocked | done
  deriving DecidableEq, Repr

/-- What the peer and the system do around one call. -/
structure Network where
  /-- `socket` gives a descriptor. -/
  socket : Bool := true
  /-- `connect` -/
  connect : Io := .blocked
  /-- `SO_ERROR` is clear. -/
  tcp : Bool := true
  /-- The handshake, the write or the read: a read is done when it completes the response. -/
  io : Io := .blocked
  status : Int := 200
  keepAlive : Bool := true
  payload : Bytes := []

/-- The bits of an epoll event. -/
structure Readiness where
  err : Bool := false
  hup : Bool := false
  inp : Bool := false
  rdhup : Bool := false
  out : Bool := false

end Connection

open Connection

structure Connection where
  tls : Bool
  state : State := .idle
  status : Int := 0
  keepAlive : Bool := true
  payload : Bytes := []
  idleClose : Bool := false

namespace Connection

def ready (c : Connection) : Bool := c.state = .ready

/-- A request is out. -/
def busy (c : Connection) : Bool := c.state = .writing ∨ c.state = .reading

def fail (c : Connection) : Connection × Event :=
  ({ c with state := .failed, idleClose := c.state = .ready }, .closed)

variable (net : Network)

def doHandshake (c : Connection) : Connection × Event :=
  match net.io with
  | .done => ({ c with state := .ready }, .connected)
  | .blocked => (c, .none)
  | .failed => c.fail

def finishConnect (c : Connection) : Connection × Event :=
  if !net.tcp then c.fail
  else if !c.tls then ({ c with state := .ready }, .connected)
  else doHandshake net { c with state := .handshaking }

/-- `connect`, and whether it goes on. -/
def connect (c : Connection) : Connection × Bool :=
  let c := { c with state := .idle, idleClose := false }
  if !net.socket then ({ c with state := .failed }, false)
  else match net.connect with
    | .done =>
      let (c, e) := finishConnect net { c with state := .connecting }
      (c, e ≠ .closed)
    | .failed => (c.fail.1, false)
    | .blocked => ({ c with state := .connecting }, true)

def doWrite (c : Connection) : Connection × Event :=
  match net.io with
  | .done => ({ c with state := .reading }, .none)
  | .blocked => (c, .none)
  | .failed => c.fail

/-- `send`, and whether the request is out. -/
def send (c : Connection) : Connection × Bool :=
  if c.state ≠ .ready then (c, false)
  else
    let (c, e) := doWrite net { c with state := .writing }
    (c, e ≠ .closed)

def doRead (c : Connection) : Connection × Event :=
  match net.io with
  | .done =>
    ({ c with state := .done, status := net.status, keepAlive := net.keepAlive, payload := net.payload }, .response)
  | .blocked => (c, .none)
  | .failed => c.fail

/-- Anything to read on an idle connection ends it. -/
def drainIdle (c : Connection) : Connection × Event :=
  match net.io with
  | .blocked => (c, .none)
  | _ => c.fail

def onEvents (ev : Readiness) (c : Connection) : Connection × Event :=
  match c.state with
  | .connecting => finishConnect net c
  | .handshaking => doHandshake net c
  | .writing => if ev.err || ev.hup then c.fail else doWrite net c
  | .reading =>
    if ev.inp || ev.rdhup || ev.hup || ev.err then doRead net c
    else if ev.out then doRead net c
    else (c, .none)
  | .ready =>
    if ev.err then c.fail
    else if ev.inp || ev.rdhup || ev.hup then drainIdle net c
    else (c, .none)
  | _ => (c, .none)

/-- `late`: the time that the state allows is over. -/
def checkTimeout (late : Bool) (c : Connection) : Connection × Event :=
  match c.state with
  | .connecting | .handshaking | .writing | .reading => if late then c.fail else (c, .none)
  | _ => (c, .none)

/-- After a response: ready again, or closed. -/
def recycle (c : Connection) : Connection :=
  if c.state ≠ .done then c
  else if c.keepAlive then { c with state := .ready }
  else { c with state := .idle }

/-! ## Events and states -/

/-- The states around an event. -/
inductive Emits (c : Connection) : Event → Connection → Prop where
  | none {c' : Connection} : c'.busy = c.busy → c'.state ≠ .done → Emits c .none c'
  | connected {c' : Connection} : c.busy = false → c'.state = .ready → Emits c .connected c'
  | response {c' : Connection} : c.busy = true → c'.state = .done → Emits c .response c'
  | closed {c' : Connection} : c'.state = .failed → Emits c .closed c'

variable {net} {c : Connection}

theorem busy_eq {c : Connection} {s : State} (h : c.state = s) (hw : s ≠ .writing) (hr : s ≠ .reading) : c.busy = false := by
  unfold busy
  rw [h]
  exact decide_eq_false (not_or.mpr ⟨hw, hr⟩)

theorem fail_emits : c.Emits c.fail.2 c.fail.1 := .closed rfl

theorem doHandshake_emits (h : c.state = .handshaking) : c.Emits (doHandshake net c).2 (doHandshake net c).1 := by
  unfold doHandshake
  cases net.io with
  | done => exact .connected (busy_eq h nofun nofun) rfl
  | blocked => exact .none rfl (h ▸ nofun)
  | failed => exact fail_emits

theorem finishConnect_emits (h : c.state = .connecting) : c.Emits (finishConnect net c).2 (finishConnect net c).1 := by
  have hbusy : c.busy = false := busy_eq h nofun nofun
  unfold finishConnect
  split
  · exact fail_emits
  · split
    · exact .connected hbusy rfl
    · unfold doHandshake
      cases net.io with
      | done => exact .connected hbusy rfl
      | blocked => exact .none hbusy.symm nofun
      | failed => exact .closed rfl

theorem doRead_emits (h : c.state = .reading) : c.Emits (doRead net c).2 (doRead net c).1 := by
  unfold doRead
  cases net.io with
  | done => exact .response (decide_eq_true (.inr h)) rfl
  | blocked => exact .none rfl (h ▸ nofun)
  | failed => exact fail_emits

theorem doWrite_emits (h : c.state = .writing) : c.Emits (doWrite net c).2 (doWrite net c).1 := by
  unfold doWrite
  cases net.io with
  | done => exact .none (decide_eq_true (.inl h)).symm nofun
  | blocked => exact .none rfl (h ▸ nofun)
  | failed => exact fail_emits

theorem onEvents_emits (ev : Readiness) (h : c.state ≠ .done) : c.Emits (c.onEvents net ev).2 (c.onEvents net ev).1 := by
  have hstay : c.Emits .none c := .none rfl h
  unfold onEvents
  split
  · exact finishConnect_emits ‹_›
  · exact doHandshake_emits ‹_›
  · split
    · exact fail_emits
    · exact doWrite_emits ‹_›
  · split
    · exact doRead_emits ‹_›
    · split
      · exact doRead_emits ‹_›
      · exact hstay
  · split
    · exact fail_emits
    · split
      · unfold drainIdle
        split
        · exact hstay
        · exact fail_emits
      · exact hstay
  · exact hstay

theorem checkTimeout_emits (late : Bool) (h : c.state ≠ .done) :
    c.Emits (c.checkTimeout late).2 (c.checkTimeout late).1 := by
  unfold checkTimeout
  split <;> first | exact .none rfl h | (split; exact fail_emits; exact .none rfl h)

/-- A new connection has no request out. -/
theorem connect_state : (c.connect net).1.busy = false ∧ (c.connect net).1.state ≠ .done := by
  unfold connect
  dsimp only
  split
  · exact ⟨rfl, nofun⟩
  · split
    · generalize hc : { c with state := State.connecting, idleClose := false } = c'
      have hstate : c'.state = .connecting := by rw [← hc]
      have hemits := @finishConnect_emits net _ hstate
      generalize finishConnect net c' = r at hemits ⊢
      obtain ⟨c₁, e⟩ := r
      cases hemits with
      | none hb hd => exact ⟨hb.trans (busy_eq hstate nofun nofun), hd⟩
      | connected _ hs => exact ⟨busy_eq hs nofun nofun, by rw [hs]; nofun⟩
      | response hb _ => exact absurd hb (by rw [busy_eq hstate nofun nofun]; nofun)
      | closed hs => exact ⟨busy_eq hs nofun nofun, by rw [hs]; nofun⟩
    · exact ⟨rfl, nofun⟩
    · exact ⟨rfl, nofun⟩

/-- A request is out after `send` exactly when it says so. -/
theorem send_state (h : c.state ≠ .done) (hb : c.busy = false) :
    (c.send net).1.busy = (c.send net).2 ∧ (c.send net).1.state ≠ .done := by
  unfold send
  split
  · exact ⟨hb, h⟩
  · unfold doWrite
    cases net.io with
    | done => exact ⟨rfl, nofun⟩
    | blocked => exact ⟨rfl, nofun⟩
    | failed => exact ⟨rfl, nofun⟩

theorem recycle_state (h : c.state = .done) : c.recycle.busy = false ∧ c.recycle.state ≠ .done := by
  unfold recycle
  rw [if_neg (not_not.mpr h)]
  split
  · exact ⟨rfl, nofun⟩
  · exact ⟨rfl, nofun⟩

end Connection

end Stok.Net
