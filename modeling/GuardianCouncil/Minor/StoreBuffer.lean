import GuardianCouncil.Lib.Fallible
import Mathlib.Algebra.GroupWithZero.Nat

/-!
# The store buffer of the in-order core

Stores of the in-order core enter the store buffer in program order, once they are known to be
performed.  The buffer sends them to the memory system in order (`StoreBuffer.step`), one packet for
each cache line a store touches, and drops a store when all of its packets have been answered
(`recvTimingResp`).  Answers need not come in order, so stores leave the buffer out of order.  A
store that is also a barrier stays until everything before it has left.

A load is first compared with the stores in the buffer, from the youngest to the oldest
(`canForwardDataToLoad`).  The comparison takes an access to be the range of its size at the physical
address of its first fragment.  Depending on the first store whose range touches the load's, the load
is given the store's data, has to wait, or goes to memory (`tryToSendToTransfers`).

Loads, and the stores that may not be buffered, are sent from the transfers queue.  Here they only
matter for the packets they have in the memory system.  Physical addresses are numbers: they stay
far from the end of the range of an `Addr`.
-/

namespace GuardianCouncil.Minor

/-! ## Requests -/

/-- The parameters of the load/store queue, as its constructor accepts them. -/
structure Config where
  lineWidth : Nat
  inMemorySystemLimit : Nat
  numSlots : Nat
  storeLimitPerCycle : Nat
  inMemorySystemLimit_pos : 1 ≤ inMemorySystemLimit := by decide
  numSlots_pos : 1 ≤ numSlots := by decide
  storeLimitPerCycle_pos : 1 ≤ storeLimitPerCycle := by decide

/-- The part of an access that lies in one cache line, after translation. -/
structure Fragment where
  paddr : Nat
  size : Nat
deriving DecidableEq

/-- The physical addresses of the bytes of a fragment. -/
def Fragment.addrs (f : Fragment) : List Nat := List.range' f.paddr f.size

/-- `LSQRequest`, after translation.  A request with one fragment is a `SingleDataRequest`, one with
several is a `SplitDataRequest`. -/
structure Request (cfg : Config) where
  threadId : Nat
  fragments : List Fragment
  size_pos : ∀ f ∈ fragments, 0 < f.size := by decide
  inLine : ∀ f ∈ fragments, f.paddr % cfg.lineWidth + f.size ≤ cfg.lineWidth := by decide

namespace Request

variable {cfg : Config} (request : Request cfg)

/-- `request.getSize`. -/
def size : Nat := (request.fragments.map Fragment.size).sum

/-- `request.getPaddr`: that of the first fragment. -/
def paddr : Nat := (request.fragments.head?.map Fragment.paddr).getD 0

/-- Is this a `SplitDataRequest`? -/
def isSplit : Bool := 1 < request.fragments.length

/-- The physical addresses of the bytes of an access, in the order of its data. -/
def addrs : List Nat := request.fragments.flatMap Fragment.addrs

end Request

/-- A store for the store buffer.  Without fragments it is a `BarrierDataRequest`, which has no
packet and does not write. -/
structure Store (cfg : Config) extends Request cfg where
  data : List UInt8
  isBarrier : Bool
  data_length : data.length = (toRequest).size := by decide
  barrier_of_nil : fragments = [] → isBarrier := by decide

/-- The byte a store writes to an address. -/
def Store.written {cfg : Config} (store : Store cfg) (a : Nat) : Option UInt8 :=
  (store.addrs.zip store.data).lookup a

/-- A load that has been translated. -/
structure Load (cfg : Config) extends Request cfg where
  nonempty : fragments ≠ [] := by decide
  isStrictlyOrdered : Bool
  isLLSC : Bool
  isSwap : Bool

/-- Loads that are not bufferable are only performed by the head instruction. -/
def Load.bufferable {cfg : Config} (load : Load cfg) : Bool :=
  !(load.isStrictlyOrdered || load.isLLSC || load.isSwap)

/-! ## The state -/

/-- The states of a request while it is in the store buffer. -/
inductive RequestState
  | storeInStoreBuffer
  | storeBufferIssuing
  | storeBufferNeedsRetry
  | complete
deriving DecidableEq

/-- An entry of the store buffer.  Stores are numbered as they enter it; the number stands for the
pointer to the request. -/
structure Slot (cfg : Config) where
  num : Nat
  store : Store cfg
  state : RequestState
  numIssuedFragments : Nat := 0
  numRetiredFragments : Nat := 0
  skipped : Bool := false

/-- The memory system either takes requests, or has asked to wait for a retry. -/
inductive MemoryState
  | memoryRunning
  | memoryNeedsRetry
deriving DecidableEq

/-- The owner of a packet. -/
inductive Sender
  /-- Fragment `index` of store `num`. -/
  | storeBuffer (num index : Nat)
  | transfers
deriving DecidableEq

structure Packet where
  sender : Sender
  paddr : Nat
deriving DecidableEq

/-- `retryRequest`, with the packet to be sent again. -/
inductive Retry
  | storeBuffer (num : Nat)
  | transfers (paddr : Nat)
deriving DecidableEq

/-- The load/store queue, as far as the store buffer goes. -/
structure LSQ (cfg : Config) where
  /-- The entries of the store buffer, the oldest first. -/
  slots : List (Slot cfg)
  numUnissuedAccesses : Nat
  state : MemoryState
  retryRequest : Option Retry
  numAccessesInMemorySystem : Nat
  /-- The packets in the memory system, in the order they were sent. -/
  inFlight : List Packet
  /-- The stores that have entered the buffer, in program order. -/
  entered : List (Store cfg)

/-- The assertions of the load/store queue, and its uses of requests that no longer exist. -/
inductive Failure
  | noSuchPacket
  | noHeadPacket
  | badRequestState
  | allFragmentsRetired
  | notWaitingForRetry
  | deletedRequest
deriving DecidableEq

variable {cfg : Config}

namespace Slot

variable (slot : Slot cfg)

def isComplete : Bool := slot.state = .complete

def sentAllPackets : Bool := slot.numIssuedFragments = slot.store.fragments.length

def hasPacketsInMemSystem : Bool := slot.numIssuedFragments ≠ slot.numRetiredFragments

/-- `retireResponse` of a split request, once the answer has been counted.  An error makes it skip
the rest: it then completes as soon as nothing is in flight, even with fragments not sent. -/
def retireSplit (isError : Bool) : Slot cfg :=
  let slot := { slot with skipped := slot.skipped || isError }
  if slot.skipped && !slot.hasPacketsInMemSystem then { slot with state := .complete }
  else if slot.numRetiredFragments = slot.store.fragments.length then
    { slot with state := .complete }
  else slot

def retireResponse (isError : Bool) : Except Failure (Slot cfg) :=
  let retired := { slot with numRetiredFragments := slot.numRetiredFragments + 1 }
  if slot.store.isSplit then
    if slot.numRetiredFragments < slot.store.fragments.length then .ok (retired.retireSplit isError)
    else .error .allFragmentsRetired
  else .ok { retired with state := .complete }

end Slot

namespace LSQ

variable (s : LSQ cfg)

/-- The request a pointer leads to, while it is in the store buffer. -/
def slot? (num : Nat) : Option (Slot cfg) := s.slots.find? fun slot => slot.num = num

/-- Writes back the fields of a request. -/
def setSlot (slot : Slot cfg) : LSQ cfg :=
  { s with slots := s.slots.map fun x => if x.num = slot.num then slot else x }

def deleteRequest (num : Nat) : LSQ cfg :=
  { s with slots := s.slots.filter fun x => x.num ≠ num }

def insert (store : Store cfg) : LSQ cfg :=
  { s with
    numUnissuedAccesses := s.numUnissuedAccesses + 1
    slots := s.slots ++ [{
      num := s.entered.length
      store := store
      -- a `BarrierDataRequest` is complete from the beginning
      state := if store.fragments = [] then .complete else .storeInStoreBuffer }]
    entered := s.entered ++ [store] }

def canSendToMemorySystem : Bool :=
  s.state = .memoryRunning ∧ s.numAccessesInMemorySystem < cfg.inMemorySystemLimit

/-- A packet that the memory system has taken. -/
def sendPacket (packet : Packet) : LSQ cfg :=
  { s with
    numAccessesInMemorySystem := s.numAccessesInMemorySystem + 1
    inFlight := s.inFlight ++ [packet]
    state := .memoryRunning }

/-- A packet that the memory system has refused. -/
def needRetry (retry : Retry) : LSQ cfg :=
  { s with state := .memoryNeedsRetry, retryRequest := some retry }

/-- `tryToSend`, for a request in the store buffer: whether all of its packets have been sent. -/
def tryToSend (slot : Slot cfg) (accepts : Bool) : Except Failure (Bool × LSQ cfg) :=
  if !s.canSendToMemorySystem then .ok (false, s)
  else
    match slot.store.fragments[slot.numIssuedFragments]? with
    | none => .error .noHeadPacket
    | some fragment =>
      if slot.state = .storeInStoreBuffer ∨ slot.state = .storeBufferIssuing then
        if accepts then
          let slot' := { slot with
            numIssuedFragments := slot.numIssuedFragments + 1, state := .storeBufferIssuing }
          .ok (slot'.sentAllPackets, (s.setSlot slot').sendPacket
            ⟨.storeBuffer slot.num slot.numIssuedFragments, fragment.paddr⟩)
        else
          .ok (false, (s.setSlot { slot with state := .storeBufferNeedsRetry }).needRetry
            (.storeBuffer slot.num))
      else .error .badRequestState

/-- `tryToSend`, for a packet of a request in the transfers queue. -/
def tryToSendTransfer (paddr : Nat) (accepts : Bool) : LSQ cfg :=
  if !s.canSendToMemorySystem then s
  else if accepts then s.sendPacket ⟨.transfers, paddr⟩
  else s.needRetry (.transfers paddr)

/-- `StoreBuffer::countIssuedStore`: barriers are counted when they leave the buffer. -/
def countIssuedStore (slot : Slot cfg) : LSQ cfg :=
  if slot.store.isBarrier then s
  else { s with numUnissuedAccesses := s.numUnissuedAccesses - 1 }

/-- The loop of `StoreBuffer::step` that clears the leading barriers. -/
def clearBarriers : LSQ cfg :=
  { s with
    slots := s.slots.dropWhile fun slot => slot.isComplete && slot.store.isBarrier
    numUnissuedAccesses := s.numUnissuedAccesses -
      (s.slots.takeWhile fun slot => slot.isComplete && slot.store.isBarrier).length }

/-- The loop of `StoreBuffer::step` that issues stores.  `accepts n` is the answer of the memory
system to packet `n` of the cycle. -/
def issueStores (accepts : Nat → Bool) : List Nat → Nat → LSQ cfg → Except Failure (LSQ cfg)
  | [], _, s => .ok s
  | num :: nums, issueCount, s =>
    if issueCount < cfg.storeLimitPerCycle ∧ s.canSendToMemorySystem then
      match s.slot? num with
      | none => .error .deletedRequest
      | some slot =>
        if slot.store.isBarrier && slot.isComplete then .ok s
        else if slot.state = .storeBufferIssuing ∧ slot.sentAllPackets then
          issueStores accepts nums issueCount s
        else do
          let (sent, s') ← s.tryToSend slot (accepts issueCount)
          if sent then issueStores accepts nums (issueCount + 1) (s'.countIssuedStore slot)
          else .ok s'
    else .ok s

def step (accepts : Nat → Bool) : Except Failure (LSQ cfg) :=
  if s.numUnissuedAccesses ≠ 0 ∧ s.state = .memoryRunning then
    let s' := s.clearBarriers
    issueStores accepts (s'.slots.map Slot.num) 0 s'
  else .ok s

/-- `recvTimingResp`, for packet `i` of those in the memory system. -/
def recvTimingResp (i : Nat) (isError : Bool) : Except Failure (LSQ cfg) :=
  match s.inFlight[i]? with
  | none => .error .noSuchPacket
  | some packet =>
    let s' := { s with
      numAccessesInMemorySystem := s.numAccessesInMemorySystem - 1
      inFlight := s.inFlight.eraseIdx i }
    match packet.sender with
    | .transfers => .ok s'
    | .storeBuffer num _ =>
      match s.slot? num with
      | none => .error .deletedRequest
      | some slot =>
        if slot.state = .storeBufferIssuing ∨ slot.state = .storeBufferNeedsRetry then do
          let slot' ← slot.retireResponse isError
          -- a store that is also a barrier stays, to be removed in order
          if slot'.isComplete && !slot.store.isBarrier then .ok (s'.deleteRequest num)
          else .ok (s'.setSlot slot')
        else .error .badRequestState

def recvReqRetry (accepts : Bool) : Except Failure (LSQ cfg) :=
  if s.state = .memoryNeedsRetry then
    let s' := { s with state := .memoryRunning }
    match s.retryRequest with
    | none => .error .deletedRequest
    | some (.transfers paddr) => .ok (s'.tryToSendTransfer paddr accepts)
    | some (.storeBuffer num) =>
      match s.slot? num with
      | none => .error .deletedRequest
      | some slot =>
        if slot.state = .storeBufferNeedsRetry then do
          let slot' := { slot with state := .storeInStoreBuffer }
          let (sent, s'') ← (s'.setSlot slot').tryToSend slot' accepts
          if sent then .ok { s''.countIssuedStore slot' with retryRequest := none }
          else .ok s''
        else .error .badRequestState
  else .error .notWaitingForRetry

end LSQ

/-- What happens to the load/store queue. -/
inductive Op (cfg : Config)
  /-- A store or a barrier enters the store buffer. -/
  | insert (store : Store cfg)
  /-- The store buffer is stepped. -/
  | step (accepts : Nat → Bool)
  /-- A packet of the transfers queue is sent. -/
  | send (paddr : Nat) (accepts : Bool)
  /-- Packet `i` of those in the memory system is answered. -/
  | recvTimingResp (i : Nat) (isError : Bool)
  | recvReqRetry (accepts : Bool)

def exec (s : LSQ cfg) : Op cfg → Except Failure (LSQ cfg)
  | .insert store => .ok (s.insert store)
  | .step accepts => s.step accepts
  | .send paddr accepts => .ok (s.tryToSendTransfer paddr accepts)
  | .recvTimingResp i isError => s.recvTimingResp i isError
  | .recvReqRetry accepts => s.recvReqRetry accepts

def init (cfg : Config) : LSQ cfg := ⟨[], 0, .memoryRunning, none, 0, [], []⟩

/-! ## Loads -/

inductive AddrRangeCoverage
  | noCoverage
  | partialCoverage
  | fullCoverage
deriving DecidableEq

/-- `LSQRequest::containsAddrRangeOf`, on ranges. -/
def containsAddrRange (addr₁ size₁ addr₂ size₂ : Nat) : AddrRangeCoverage :=
  let end₁ := addr₁ + size₁
  let end₂ := addr₂ + size₂
  if addr₁ > end₂ ∨ end₁ < addr₂ then .noCoverage
  else if addr₁ ≤ addr₂ ∧ end₁ ≥ end₂ then .fullCoverage
  else .partialCoverage

/-- `LSQRequest::containsAddrRangeOf`. -/
def Request.containsAddrRangeOf (request other : Request cfg) : AddrRangeCoverage :=
  containsAddrRange request.paddr request.size other.paddr other.size

/-- The loop of `canForwardDataToLoad`, over the entries from the youngest to the oldest.  It
returns the entry it has found with the coverage. -/
def forwardingSlot (load : Load cfg) : List (Slot cfg) → Option (Slot cfg × AddrRangeCoverage)
  | [] => none
  | slot :: slots =>
    if slot.store.fragments ≠ [] ∧ slot.store.threadId = load.threadId then
      match slot.store.containsAddrRangeOf load.toRequest with
      | .noCoverage => forwardingSlot load slots
      | coverage => some (slot, coverage)
    else forwardingSlot load slots

def LSQ.canForwardDataToLoad (s : LSQ cfg) (load : Load cfg) : Option (Slot cfg × AddrRangeCoverage) :=
  forwardingSlot load s.slots.reverse

def forwardStoreData (store : Store cfg) (load : Load cfg) : List UInt8 :=
  (store.data.drop (load.paddr - store.paddr)).take load.size

/-- What the rest of the pipeline says about a load when it is tried. -/
structure Attempt where
  isFront : Bool
  transfersFull : Bool
  /-- `isComplete()`, or the state is `Failed`. -/
  isOver : Bool
  isRightStream : Bool
  hasPacketsInMemSystem : Bool
  fault : Bool
  isHeadInst : Bool
  numStoresInTransfers : Nat

/-- What becomes of a load when it is tried. -/
inductive Verdict
  /-- It is tried again later, for a reason other than the stores in the buffer. -/
  | waits
  /-- It leaves without an access. -/
  | skips
  /-- It may not be given forwarded data and waits for the store buffer to drain. -/
  | drains
  /-- It is only partly satisfied by the store buffer and waits for the store. -/
  | stalls
  /-- It is given data of the store buffer. -/
  | forwards (data : List UInt8)
  /-- It is sent to the memory system. -/
  | goesToMemory
deriving DecidableEq

/-- What `tryToSendToTransfers` does with a load once nothing but the store buffer can stop it. -/
def LSQ.accessLoad (s : LSQ cfg) (load : Load cfg) : Verdict :=
  let access := if s.canSendToMemorySystem then Verdict.goesToMemory else .waits
  if load.isLLSC then access
  else
    match s.canForwardDataToLoad load with
    | none => access
    | some (slot, .fullCoverage) => .forwards (forwardStoreData slot.store load)
    | some _ => .stalls

/-- `tryToSendToTransfers`, for a load that is not in translation. -/
def LSQ.tryToSendToTransfers (s : LSQ cfg) (attempt : Attempt) (load : Load cfg) : Verdict :=
  if s.state = .memoryNeedsRetry then .waits
  else if !attempt.isFront then .waits
  else if attempt.transfersFull then .waits
  else if attempt.isOver then .skips
  else if !attempt.isRightStream then
    if attempt.hasPacketsInMemSystem then .waits else .skips
  else if attempt.fault then .skips
  else if attempt.numStoresInTransfers ≠ 0 then .waits
  else if load.bufferable then s.accessLoad load
  else if !attempt.isHeadInst then .waits
  else if (s.canForwardDataToLoad load).isSome then .drains
  else s.accessLoad load

end GuardianCouncil.Minor
