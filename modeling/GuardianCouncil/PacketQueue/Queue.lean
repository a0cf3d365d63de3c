import GuardianCouncil.Lib.BackInsert
import GuardianCouncil.Lib.Fallible

/-!
# The packet queue of a port

Packets wait in the transmit list until they are ready and the other side accepts them.  A send event
is scheduled for the first packet; a packet that is rejected goes back to the front, and the queue
waits for a retry.

While `sendTiming` runs, the packet is in neither place, and the other side may queue more packets.
So the sending of a packet is two operations here: the first hands it over (`beginSend`), and the
second is the answer (`sent`).
-/

namespace GuardianCouncil.PacketQueue

structure Packet where
  addr : Nat
  isExpressSnoop : Bool := false
deriving DecidableEq

/-- A packet on the list, with the number of the call that queued it and its `force_order`. -/
structure DeferredPacket where
  tick : Nat
  pkt : Packet
  number : Nat
  forceOrder : Bool
deriving DecidableEq

/-- A panic or an assertion of the source. -/
inductive Failure
  | inThePast
  | isExpressSnoop
  | grownBeyond
  | stillScheduled
  | isWaitingOnRetry
  | notWaitingOnRetry
  | notReady
  /-- There is no packet to be answered. -/
  | notSending
deriving DecidableEq

def maxTick : Nat := 0xffffffffffffffff

structure Queue where
  disableSanityCheck : Bool
  curTick : Nat
  transmitList : List DeferredPacket
  /-- When the send event is scheduled. -/
  sendEvent : Option Nat
  waitingOnRetry : Bool
  /-- The packet in `sendTiming`. -/
  sending : Option DeferredPacket
  /-- All packets so far, in the order of the calls. -/
  queued : List DeferredPacket
  /-- The packets handed to `sendTiming`, and when. -/
  handed : List (DeferredPacket × Nat)
  accepted : List DeferredPacket

namespace Queue

variable (s : Queue)

def new (disableSanityCheck : Bool) : Queue :=
  ⟨disableSanityCheck, 0, [], none, false, none, [], [], []⟩

def deferredPacketReadyTime : Nat :=
  match s.transmitList with
  | [] => maxTick
  | dp :: _ => dp.tick

/-- When the send event is scheduled after `schedSendEvent`. -/
def eventFor (when : Nat) : Option Nat :=
  if when ≠ maxTick then
    let when := max when (s.curTick + 1)
    match s.sendEvent with
    | none => some when
    | some scheduled => if when < scheduled then some when else some scheduled
  else s.sendEvent

def schedSendEvent (when : Nat) : Except Failure Queue :=
  if s.waitingOnRetry then
    if s.sendEvent.isSome then .error .stillScheduled else .ok s
  else .ok { s with sendEvent := s.eventFor when }

/-- May the packet go before one that is on the list? -/
def passes (dp other : DeferredPacket) : Bool :=
  dp.tick < other.tick && !(dp.forceOrder && other.pkt.addr = dp.pkt.addr)

def schedSendTiming (pkt : Packet) (when : Nat) (forceOrder : Bool) : Except Failure Queue :=
  if when < s.curTick then .error .inThePast
  else if pkt.isExpressSnoop then .error .isExpressSnoop
  else if !s.disableSanityCheck && s.transmitList.length > 100 then .error .grownBeyond
  else
    let dp : DeferredPacket := ⟨when, pkt, s.queued.length, forceOrder⟩
    match s.transmitList with
    | [] => schedSendEvent { s with transmitList := [dp], queued := s.queued ++ [dp] } when
    | front :: rest =>
      -- the loop ends at the front of the list, without a look at it
      .ok { s with
        transmitList := front :: BackInsert.insert (passes dp) dp rest
        queued := s.queued ++ [dp] }

/-- `sendDeferredPacket`, up to the call of `sendTiming`. -/
def beginSend : Except Failure Queue :=
  if s.waitingOnRetry then .error .isWaitingOnRetry
  else
    match s.transmitList with
    | [] => .error .notReady
    | dp :: rest =>
      if s.curTick < dp.tick then .error .notReady
      else .ok { s with
        transmitList := rest
        sending := some dp
        handed := s.handed ++ [(dp, s.curTick)] }

/-- `sendDeferredPacket`, from the return of `sendTiming`. -/
def sent (success : Bool) : Except Failure Queue :=
  match s.sending with
  | none => .error .notSending
  | some dp =>
    if success then
      schedSendEvent { s with
        waitingOnRetry := false
        sending := none
        accepted := s.accepted ++ [dp] } s.deferredPacketReadyTime
    else .ok { s with
      waitingOnRetry := true
      sending := none
      transmitList := dp :: s.transmitList }

def processSendEvent : Except Failure Queue :=
  if s.waitingOnRetry then .error .isWaitingOnRetry
  else beginSend { s with sendEvent := none }

def retry : Except Failure Queue :=
  if !s.waitingOnRetry then .error .notWaitingOnRetry
  else beginSend { s with waitingOnRetry := false }

end Queue

inductive Op
  /-- Time passes. -/
  | advance (tick : Nat)
  | schedSendTiming (pkt : Packet) (when : Nat) (forceOrder : Bool)
  | processSendEvent
  | retry
  | sent (success : Bool)
deriving DecidableEq

namespace Queue

variable (s : Queue)

def exec : Op → Except Failure Queue
  | .advance tick => .ok { s with curTick := tick }
  | .schedSendTiming pkt when forceOrder => s.schedSendTiming pkt when forceOrder
  | .processSendEvent => s.processSendEvent
  | .retry => s.retry
  | .sent success => s.sent success

/-- Time does not pass over a scheduled event, and events are processed at their time.  While a packet
is being sent, only the answer may come, or more packets. -/
def Allows : Op → Prop
  | .advance tick =>
    s.sending = none ∧ s.curTick ≤ tick ∧ ∀ scheduled ∈ s.sendEvent, tick ≤ scheduled
  | .schedSendTiming _ _ _ => True
  | .processSendEvent => s.sending = none ∧ s.sendEvent = some s.curTick
  | .retry => s.sending = none
  | .sent _ => s.sending.isSome

instance : ∀ op, Decidable (s.Allows op)
  | .advance _ => inferInstanceAs (Decidable (_ ∧ _))
  | .schedSendTiming .. => isTrue trivial
  | .processSendEvent => inferInstanceAs (Decidable (_ ∧ _))
  | .retry => inferInstanceAs (Decidable (_ = none))
  | .sent _ => inferInstanceAs (Decidable (_ = true))

end Queue

end GuardianCouncil.PacketQueue
