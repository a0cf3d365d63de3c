import GuardianCouncil.Lib.Fallible

/-!
# A layer of the crossbar

A layer carries the packets to one destination port.  It is busy for some time after each of them.  A source port that
tries to send while the layer is busy, or while an earlier packet is waiting for the peer, is refused and put at
the end of `waitingForLayer`; a port whose packet was not accepted by the peer is kept in `waitingForPeer`.

When the layer is released, the first of the waiting ports is sent a retry, in which it may call the layer again; if it
does not, the layer is busy until the next clock edge, so that it is released again.  When the peer sends a retry, the port
that waits for it goes to the front.

The functions say what the ports are told: `Event`.
-/

namespace GuardianCouncil.XBar

abbrev Tick := ℕ

inductive LayerState
  | idle
  | busy
  | retry
deriving DecidableEq

inductive DrainState
  | running
  | draining
  | drained
deriving DecidableEq

inductive Fault
  | assertion
  /-- The release event is scheduled already, or for a time that has passed. -/
  | schedule
deriving DecidableEq

variable {P : Type*}

structure Layer (P : Type*) where
  state : LayerState := .idle
  waitingForLayer : List P := []
  waitingForPeer : Option P := none
  /-- When the release event is scheduled. -/
  releaseEvent : Option Tick := none
  drainState : DrainState := .running
  curTick : Tick := 0

/-- What becomes of a packet, with the time for which the layer is then busy. -/
inductive Outcome
  | succeeded (busy_time : Tick)
  | failed (busy_time : Tick)

/-- What the ports and the peer have been told and have answered. -/
inductive Event (P : Type*)
  /-- A try was refused. -/
  | refused (p : P)
  /-- A try was granted, and failed at the peer. -/
  | failed (p : P)
  /-- The port was sent a retry. -/
  | retried (p : P)
  /-- The peer has sent a retry. -/
  | peerRetry
deriving DecidableEq

namespace Layer

variable (l : Layer P)

def occupyLayer (until_ : Tick) : Except Fault (Layer P) :=
  if l.state ≠ .busy then .error .assertion
  else if until_ = 0 then .error .assertion
  else if l.releaseEvent ≠ none ∨ until_ < l.curTick then .error .schedule
  else .ok { l with releaseEvent := some until_ }

def tryTiming [DecidableEq P] (src_port : P) : Except Fault (Layer P × Bool) :=
  if l.state = .busy ∨ l.waitingForPeer.isSome then
    if src_port ∈ l.waitingForLayer then .error .assertion
    else .ok ({ l with waitingForLayer := l.waitingForLayer ++ [src_port] }, false)
  else .ok ({ l with state := .busy }, true)

def succeededTiming (busy_time : Tick) : Except Fault (Layer P) :=
  if l.state ≠ .busy then .error .assertion
  else l.occupyLayer busy_time

def failedTiming (src_port : P) (busy_time : Tick) : Except Fault (Layer P) :=
  if l.waitingForPeer.isSome then .error .assertion
  else
    let l := { l with waitingForPeer := some src_port }
    if l.state ≠ .busy then .error .assertion
    else l.occupyLayer busy_time

/-- The report on a packet whose try was granted. -/
def report (src_port : P) : Outcome → Except Fault (Layer P × List (Event P))
  | .succeeded busy_time => do
    let l ← l.succeededTiming busy_time
    .ok (l, [])
  | .failed busy_time => do
    let l ← l.failedTiming src_port busy_time
    .ok (l, [.failed src_port])

/-- A port tries to send a packet.  If it is granted, the outcome is reported at once. -/
def send [DecidableEq P] (src_port : P) (outcome : Outcome) : Except Fault (Layer P × List (Event P)) := do
  let (l, granted) ← l.tryTiming src_port
  if granted then l.report src_port outcome else .ok (l, [.refused src_port])

/-- `sendRetry`: the port may call the layer again at once. -/
def sendRetry [DecidableEq P] (retry_port : P) : Option Outcome → Except Fault (Layer P × List (Event P))
  | none => .ok (l, [])
  | some outcome => l.send retry_port outcome

/-- The end of `retryWaiting`: the port has not called. -/
def leaveRetry (clockEdge : Tick → Tick) : Except Fault (Layer P) :=
  if l.state = .retry then occupyLayer { l with state := .busy } (clockEdge l.curTick) else .ok l

def retryWaiting [DecidableEq P] (clockEdge : Tick → Tick) (callback : Option Outcome) :
    Except Fault (Layer P × List (Event P)) :=
  match l.waitingForLayer with
  | [] => .error .assertion
  | retryingPort :: waiting =>
    if l.state ≠ .idle then .error .assertion
    else do
      let (l, events) ← sendRetry { l with state := .retry, waitingForLayer := waiting } retryingPort callback
      let l ← l.leaveRetry clockEdge
      .ok (l, .retried retryingPort :: events)

/-- The release event, which is not scheduled any more when it is processed. -/
def releaseLayer [DecidableEq P] (clockEdge : Tick → Tick) (callback : Option Outcome) :
    Except Fault (Layer P × List (Event P)) :=
  if l.state ≠ .busy then .error .assertion
  else if l.releaseEvent ≠ none then .error .assertion
  else
    let l := { l with state := .idle }
    if l.waitingForLayer ≠ [] then
      if l.waitingForPeer = none then l.retryWaiting clockEdge callback else .ok (l, [])
    else if l.waitingForPeer = none ∧ l.drainState = .draining then
      .ok ({ l with drainState := .drained }, [])
    else .ok (l, [])

def recvRetry [DecidableEq P] (clockEdge : Tick → Tick) (callback : Option Outcome) :
    Except Fault (Layer P × List (Event P)) :=
  match l.waitingForPeer with
  | none => .error .assertion
  | some p =>
    let l := { l with waitingForLayer := p :: l.waitingForLayer, waitingForPeer := none }
    if l.state = .idle then do
      let (l, events) ← l.retryWaiting clockEdge callback
      .ok (l, .peerRetry :: events)
    else if l.state ≠ .busy then .error .assertion
    else .ok (l, [.peerRetry])

def drain : Layer P :=
  { l with drainState := if l.state ≠ .idle then .draining else .drained }

end Layer

/-! ## Runs -/

/-- What happens to a layer, at a given time. -/
inductive Op (P : Type*)
  /-- A port tries to send. -/
  | send (p : P) (outcome : Outcome)
  /-- The release event comes up; `callback` is what the retried port does, if there is one. -/
  | release (callback : Option Outcome)
  /-- The peer sends a retry. -/
  | peerRetry (callback : Option Outcome)
  | drain

def Op.exec [DecidableEq P] (clockEdge : Tick → Tick) (l : Layer P) : Op P → Except Fault (Layer P × List (Event P))
  | .send p outcome => l.send p outcome
  | .release callback => Layer.releaseLayer { l with releaseEvent := none } clockEdge callback
  | .peerRetry callback => l.recvRetry clockEdge callback
  | .drain => .ok (l.drain, [])

/-- A layer, and what has been said so far. -/
structure Run (P : Type*) where
  layer : Layer P := {}
  log : List (Event P) := []

/-- An operation at a time. -/
def Run.step [DecidableEq P] (clockEdge : Tick → Tick) (r : Run P) (op : Tick × Op P) : Except Fault (Run P) := do
  let (l, events) ← op.2.exec clockEdge { r.layer with curTick := op.1 }
  .ok ⟨l, r.log ++ events⟩

end GuardianCouncil.XBar
