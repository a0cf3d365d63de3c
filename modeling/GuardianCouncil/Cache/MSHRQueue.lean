import GuardianCouncil.Cache.MSHR
import GuardianCouncil.Lib.NodeList

/-!
# The queue of MSHRs

A `MSHRQueue` owns a fixed number of MSHRs and keeps them in three lists: those that are free, those
that are allocated, and those that are ready to be sent, in the order of their ready times as far as
possible.  An allocated MSHR keeps its iterators into the last two lists.  An entry is known by its
index.
-/

namespace GuardianCouncil.Cache

open Mem Function

/-- The number of entries of a queue, with the reserve. -/
structure QueueConfig where
  numEntries : Nat
  numReserve : Nat

/-- What the simulator stops at, and what is not defined. -/
inductive QueueFailure
  | mshr (failure : Failure)
  | freeListEmpty
  | entryHasTargets
  | noTargets
  | notInService
  /-- `moveToFront`: `mshr == *(mshr->readyIter)`. -/
  | otherEntry
  /-- The `assert(false)` at the end of `addToReadyList`. -/
  | endOfReadyList
  /-- An iterator of a node that has been erased is used. -/
  | danglingIterator
deriving DecidableEq

/-- `MSHRQueue`, with the MSHRs and their iterators by index. -/
structure MSHRQueue (cfg : QueueConfig) where
  mshr : Nat → MSHR
  readyIter : Nat → Nat
  allocIter : Nat → Nat
  allocatedList : NodeList Nat
  readyList : NodeList Nat
  freeList : List Nat
  numInService : Int
  allocated : Int

/-- What else the cache does with an MSHR between the calls to the queue. -/
inductive Access
  | allocateTarget (pkt : Packet) (whenReady order : Nat) (allocOnFill : Bool)
  | handleSnoop (pkt : Packet) (order curTick : Nat)
  | setForward (isForward : Bool)
  | setDownstreamPending
  | clearDownstreamPending
  | promoteWritable
  | extractServiceableTargets (cmd : MemCmd)
  | promoteDeferredTargets (curTick : Nat)

def MSHR.access (m : MSHR) : Access → Except Failure MSHR
  | .allocateTarget pkt whenReady order allocOnFill => m.allocateTarget pkt whenReady order allocOnFill
  | .handleSnoop pkt order curTick => do
    let (_, m) ← m.handleSnoop pkt order curTick
    .ok m
  | .setForward isForward => .ok { m with isForward := isForward }
  | .setDownstreamPending =>
    if m.downstreamPending then .error .downstreamPending
    else .ok { m with downstreamPending := true }
  | .clearDownstreamPending => m.clearDownstreamPending
  | .promoteWritable => m.promoteWritable
  | .extractServiceableTargets cmd => do
    let (_, m) ← m.extractServiceableTargets cmd
    .ok m
  | .promoteDeferredTargets curTick => .ok (m.promoteDeferredTargets curTick).2

variable {cfg : QueueConfig}

namespace MSHRQueue

def init (cfg : QueueConfig) : MSHRQueue cfg where
  mshr := fun _ => {}
  readyIter := fun _ => 0
  allocIter := fun _ => 0
  allocatedList := {}
  readyList := {}
  freeList := List.range cfg.numEntries
  numInService := 0
  allocated := 0

variable (q : MSHRQueue cfg)

def setMSHR (i : Nat) (m : MSHR) : MSHRQueue cfg :=
  { q with mshr := update q.mshr i m }

def isFull : Bool := q.allocated ≥ (cfg.numEntries : Int) - cfg.numReserve

/-- The place `addToReadyList` finds for an entry: at the end, or before the first entry that is ready
later. -/
def readyPlace (i : Nat) : Except QueueFailure Nat :=
  let readyTime := (q.mshr i).readyTime
  if q.readyList.toList.getLast?.all fun last => (q.mshr last).readyTime ≤ readyTime then
    .ok q.readyList.toList.length
  else
    match q.readyList.toList.findIdx? fun j => (q.mshr j).readyTime > readyTime with
    | some place => .ok place
    | none => .error .endOfReadyList

/-- `addToReadyList`, with the iterator it returns. -/
def addToReadyList (i : Nat) : Except QueueFailure (MSHRQueue cfg) := do
  let place ← q.readyPlace i
  .ok { q with
    readyList := q.readyList.insertAt place i
    readyIter := update q.readyIter i q.readyList.fresh }

/-- `readyList.erase(mshr->readyIter)`. -/
def eraseReady (i : Nat) : Except QueueFailure (MSHRQueue cfg) :=
  if (q.readyList.get? (q.readyIter i)).isNone then .error .danglingIterator
  else .ok { q with readyList := q.readyList.erase (q.readyIter i) }

/-- `allocatedList.erase(entry->allocIter)`. -/
def eraseAllocated (i : Nat) : Except QueueFailure (MSHRQueue cfg) :=
  if (q.allocatedList.get? (q.allocIter i)).isNone then .error .danglingIterator
  else .ok { q with allocatedList := q.allocatedList.erase (q.allocIter i) }

def allocate (miss : Miss) : Except QueueFailure (MSHRQueue cfg) :=
  match q.freeList with
  | [] => .error .freeListEmpty
  | i :: rest =>
    if (q.mshr i).getNumTargets ≠ 0 then .error .entryHasTargets
    else do
      let m ← ((q.mshr i).allocate miss).mapError .mshr
      let q : MSHRQueue cfg := { q.setMSHR i m with
        freeList := rest
        allocatedList := q.allocatedList.insertAt q.allocatedList.toList.length i
        allocIter := update q.allocIter i q.allocatedList.fresh }
      let q ← q.addToReadyList i
      .ok { q with allocated := q.allocated + 1 }

/-- An entry that is deallocated is no longer in service, or no longer ready. -/
def retire (i : Nat) : Except QueueFailure (MSHRQueue cfg) :=
  if (q.mshr i).inService then .ok { q with numInService := q.numInService - 1 }
  else q.eraseReady i

/-- `Queue::deallocate`. -/
def deallocate (i : Nat) : Except QueueFailure (MSHRQueue cfg) := do
  let q ← q.eraseAllocated i
  let q : MSHRQueue cfg := { q with freeList := i :: q.freeList, allocated := q.allocated - 1 }
  let q ← q.retire i
  let m ← (q.mshr i).deallocate.mapError .mshr
  .ok (q.setMSHR i m)

def moveToFront (i : Nat) : Except QueueFailure (MSHRQueue cfg) :=
  if (q.mshr i).inService then .ok q
  else
    match q.readyList.get? (q.readyIter i) with
    | none => .error .danglingIterator
    | some j =>
      if j ≠ i then .error .otherEntry
      else do
        let q ← q.eraseReady i
        .ok { q with
          readyList := q.readyList.insertAt 0 i
          readyIter := update q.readyIter i q.readyList.fresh }

def markInService (i : Nat) (pendingModifiedResp : Bool) : Except QueueFailure (MSHRQueue cfg) := do
  let m ← ((q.mshr i).markInService pendingModifiedResp).mapError .mshr
  let q ← (q.setMSHR i m).eraseReady i
  .ok { q with numInService := q.numInService + 1 }

def markPending (i : Nat) : Except QueueFailure (MSHRQueue cfg) :=
  if !(q.mshr i).inService then .error .notInService
  else
    let q := q.setMSHR i { q.mshr i with inService := false }
    { q with numInService := q.numInService - 1 }.addToReadyList i

/-- `forceDeallocateTarget`, which tells whether the queue is no longer full. -/
def forceDeallocateTarget (i curTick : Nat) : Except QueueFailure (Bool × MSHRQueue cfg) :=
  let wasFull := q.isFull
  if !(q.mshr i).hasTargets then .error .noTargets
  else
    let m := (q.mshr i).popTarget
    if m.hasTargets then
      let q := q.setMSHR i m
      .ok (wasFull && !q.isFull, q)
    else
      match m.promoteDeferredTargets curTick with
      | (true, m) =>
        let q := q.setMSHR i m
        .ok (wasFull && !q.isFull, q)
      | (false, m) => do
        let q ← (q.setMSHR i m).deallocate i
        .ok (wasFull && !q.isFull, q)

end MSHRQueue

/-! ## Runs -/

/-- What the cache does with the queue. -/
inductive QueueOp
  | allocate (miss : Miss)
  | markInService (i : Nat) (pendingModifiedResp : Bool)
  | markPending (i : Nat)
  | moveToFront (i : Nat)
  | forceDeallocateTarget (i curTick : Nat)
  | deallocate (i : Nat)
  | access (i : Nat) (access : Access)

namespace MSHRQueue

def exec (q : MSHRQueue cfg) : QueueOp → Except QueueFailure (MSHRQueue cfg)
  | .allocate miss => q.allocate miss
  | .markInService i pendingModifiedResp => q.markInService i pendingModifiedResp
  | .markPending i => q.markPending i
  | .moveToFront i => q.moveToFront i
  | .forceDeallocateTarget i curTick => do
    let (_, q) ← q.forceDeallocateTarget i curTick
    .ok q
  | .deallocate i => q.deallocate i
  | .access i access => do
    let m ← ((q.mshr i).access access).mapError .mshr
    .ok (q.setMSHR i m)

/-- The functions are called for entries that are allocated. -/
def Allows (q : MSHRQueue cfg) : QueueOp → Prop
  | .allocate _ => True
  | .markInService i _ | .markPending i | .moveToFront i | .forceDeallocateTarget i _ |
    .deallocate i | .access i _ => i ∈ q.allocatedList.toList

instance (q : MSHRQueue cfg) : DecidablePred q.Allows
  | .allocate _ => isTrue trivial
  | .markInService i _ | .markPending i | .moveToFront i | .forceDeallocateTarget i _ |
    .deallocate i | .access i _ => inferInstanceAs (Decidable (i ∈ q.allocatedList.toList))

end MSHRQueue

end GuardianCouncil.Cache
