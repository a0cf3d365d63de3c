import GuardianCouncil.Lib.Fallible
import GuardianCouncil.Lib.Ring

/-!
# The load and store queues of the out-of-order core

An `LSQUnit` keeps the loads and the stores of a thread in two rings, in program order.  Both rings
have one entry more than they can hold.  A store enters without data (`insertStore`), is given its
address and data when it executes (`write`), may be written back once it has committed
(`commitStores`), and leaves the queue some time after it has been written back (`completeStore`).
Between `storeHead` and `storeWBIdx` are the stores that have been written back, between `storeWBIdx`
and `storeTail` those that have not.

A load is compared with the stores before it that have not been written back, from the youngest to
the oldest (`read`).  For this it keeps the value `storeTail` had when it entered, in `sqIdx`.

The cells of a ring that hold nothing keep what they had last.  Whether the cache takes a packet, and
whether a store conditional succeeds, is an argument of the functions that ask for it.  Addresses are
64-bit numbers.
-/

namespace GuardianCouncil.LSQUnit

open Ring Function

/-- The parameters of a unit.  The sizes of the queues include the additional entry. -/
structure Config where
  lqEntries : Nat
  sqEntries : Nat
  needsTSO : Bool
  cacheStorePorts : Nat
  lqEntries_pos : 1 ≤ lqEntries := by decide
  sqEntries_pos : 1 ≤ sqEntries := by decide

/-- What the simulator stops at. -/
inductive Failure
  | loadQueueFull
  | storeQueueFull
  | noInst
  | alreadyExecuted
  | effAddrInvalid
  | dataTooLarge
  | alreadyCommitted
  | splitStoreConditional
  | retryPending
  | noRetryPacket
  /-- `read`: "Should not check one of these". -/
  | completedStore
  /-- `squash`: "Is stalled should have been cleared by stalling load!". -/
  | stillStalled
deriving DecidableEq

/-! ## Instructions and queues -/

structure StoreInst where
  seqNum : Nat
  isStoreConditional : Bool := false
  isDataPrefetch : Bool := false
  strictlyOrdered : Bool := false
  isMmappedIpr : Bool := false
  effAddr : Nat := 0
  effAddrValid : Bool := false
deriving DecidableEq

structure SQEntry where
  inst : Option StoreInst := none
  size : Nat := 0
  isSplit : Bool := false
  canWB : Bool := false
  committed : Bool := false
  completed : Bool := false
  isAllZeros : Bool := false
  data : List UInt8 := List.replicate 16 0
deriving DecidableEq

/-- A load instruction.  `sqIdx` is `none` where the source has `-1`. -/
structure LoadInst where
  seqNum : Nat
  sqIdx : Option Nat
  isExecuted : Bool := false
deriving DecidableEq

structure WriteReq where
  vaddr : Nat
  size : Nat
  isSplit : Bool := false
  cacheBlockZero : Bool := false
  strictlyOrdered : Bool := false
  isMmappedIpr : Bool := false
  data : List UInt8
  data_length : cacheBlockZero = false → data.length = size := by decide

structure ReadReq where
  vaddr : Nat
  size : Nat
  isStrictlyOrdered : Bool := false
  isMmappedIpr : Bool := false
  /-- Is the load ready to commit? -/
  isAtCommit : Bool := false

/-- What becomes of a load. -/
inductive ReadResult
  /-- A strictly ordered load that is not the oldest instruction is rescheduled. -/
  | rescheduled
  /-- A register of the processor is read. -/
  | readIpr
  /-- The load is given data of a store and will be written back. -/
  | forwarded (data : List UInt8)
  /-- The load will be executed again. -/
  | mustWait
  /-- The load is sent to the cache. -/
  | accessesMemory
deriving DecidableEq

/-- What a store in the queue has to do with a load. -/
inductive Match
  | covers
  | overlaps
  | apart
deriving DecidableEq

/-- The comparisons of `read`, in 64-bit arithmetic. -/
def compareRanges (vaddr size effAddr storeSize : Nat) : Match :=
  let loadEnd := (vaddr + size) % 2 ^ 64
  let storeEnd := (effAddr + storeSize) % 2 ^ 64
  let storeHasLowerLimit := vaddr ≥ effAddr
  let storeHasUpperLimit := loadEnd ≤ storeEnd
  let lowerLoadHasStorePart := vaddr < storeEnd
  let upperLoadHasStorePart := loadEnd > effAddr
  if storeHasLowerLimit ∧ storeHasUpperLimit then .covers
  else if (storeHasLowerLimit ∧ lowerLoadHasStorePart) ∨ (storeHasUpperLimit ∧ upperLoadHasStorePart) ∨
      (lowerLoadHasStorePart ∧ upperLoadHasStorePart) then .overlaps
  else .apart

/-- The data forwarded from a store. -/
def SQEntry.forward (entry : SQEntry) (effAddr : Nat) (req : ReadReq) : List UInt8 :=
  if entry.isAllZeros then List.replicate req.size 0
  else (entry.data.drop (req.vaddr - effAddr)).take req.size

/-- A packet of the store at `storeWBIdx`. -/
inductive StorePacket
  | whole
  | low
  | high
deriving DecidableEq

/-- What the cache and the lock monitor answer. -/
structure Env where
  /-- Does the cache take packet `n` of the cycle? -/
  accepts : Nat → Bool
  /-- `handleLockedWrite`, for the store conditional at an index. -/
  locked : Nat → Bool

structure State (cfg : Config) where
  loadQueue : Nat → Option LoadInst
  storeQueue : Nat → SQEntry
  loads : Nat
  stores : Nat
  storesToWB : Nat
  loadHead : Nat
  loadTail : Nat
  storeHead : Nat
  storeWBIdx : Nat
  storeTail : Nat
  stalled : Bool
  stallingStoreIsn : Nat
  stallingLoadIdx : Nat
  isStoreBlocked : Bool
  retryPkt : Option StorePacket
  pendingPkt : Option StorePacket
  storeInFlight : Bool
  /-- The indices of the stores whose packets are in the memory system. -/
  inFlight : List Nat
  /-- The highest sequence number that has entered. -/
  lastSeqNum : Nat

/-- `init` and `resetState`. -/
def init (cfg : Config) : State cfg where
  loadQueue := fun _ => none
  storeQueue := fun _ => {}
  loads := 0
  stores := 0
  storesToWB := 0
  loadHead := 0
  loadTail := 0
  storeHead := 0
  storeWBIdx := 0
  storeTail := 0
  stalled := false
  stallingStoreIsn := 0
  stallingLoadIdx := 0
  isStoreBlocked := false
  retryPkt := none
  pendingPkt := none
  storeInFlight := false
  inFlight := []
  lastSeqNum := 0

variable {cfg : Config}

namespace State

variable (s : State cfg)

def setStore (idx : Nat) (entry : SQEntry) : State cfg :=
  { s with storeQueue := update s.storeQueue idx entry }

def setLoad (idx : Nat) (load : Option LoadInst) : State cfg :=
  { s with loadQueue := update s.loadQueue idx load }

/-! ## Entering the queues -/

def insertLoad (seqNum : Nat) : Except Failure (State cfg) :=
  if (s.loadTail + 1) % cfg.lqEntries = s.loadHead ∨ cfg.lqEntries ≤ s.loads then
    .error .loadQueueFull
  else
    let load : LoadInst :=
      { seqNum := seqNum, sqIdx := if s.stores = 0 then none else some s.storeTail }
    .ok { s with
      loadQueue := update s.loadQueue s.loadTail (some load)
      loadTail := next cfg.lqEntries s.loadTail
      loads := s.loads + 1
      lastSeqNum := seqNum }

def insertStore (inst : StoreInst) : Except Failure (State cfg) :=
  if (s.storeTail + 1) % cfg.sqEntries = s.storeHead ∨ cfg.sqEntries ≤ s.stores then
    .error .storeQueueFull
  else .ok { s with
    storeQueue := update s.storeQueue s.storeTail { inst := some inst }
    storeTail := next cfg.sqEntries s.storeTail
    stores := s.stores + 1
    lastSeqNum := inst.seqNum }

/-! ## Stores -/

/-- `BaseDynInst::writeMem` after translation, and `LSQUnit::write`.  The size is kept in eight
bits. -/
def write (idx : Nat) (req : WriteReq) : Except Failure (State cfg) :=
  let entry := s.storeQueue idx
  match entry.inst with
  | none => .error .noInst
  | some inst =>
    if req.size ≤ 16 ∨ req.cacheBlockZero then
      .ok (s.setStore idx { entry with
        inst := some { inst with
          effAddr := req.vaddr
          effAddrValid := true
          strictlyOrdered := req.strictlyOrdered
          isMmappedIpr := req.isMmappedIpr }
        size := req.size % 256
        isSplit := entry.isSplit || req.isSplit
        isAllZeros := req.cacheBlockZero
        data := if req.cacheBlockZero then entry.data
          else req.data.take req.size ++ entry.data.drop req.size })
    else .error .dataTooLarge

/-- `executeStore`: the store is written, unless it faults or is not executed by predication.  A
store conditional that was written may be written back at once. -/
def executeStore (idx : Nat) (req : Option WriteReq) : Except Failure (State cfg) := do
  let s ← req.elim (.ok s) fun req => s.write idx req
  let entry := s.storeQueue idx
  match entry.inst with
  | none => .error .noInst
  | some inst =>
    if entry.size ≠ 0 ∧ inst.isStoreConditional then
      .ok { s.setStore idx { entry with canWB := true } with storesToWB := s.storesToWB + 1 }
    else .ok s

def commitStoresLoop (youngest : Nat) : List Nat → State cfg → Except Failure (State cfg)
  | [], s => .ok s
  | idx :: rest, s =>
    let entry := s.storeQueue idx
    match entry.inst with
    | none => .error .noInst
    | some inst =>
      if entry.canWB then commitStoresLoop youngest rest s
      else if inst.seqNum > youngest then .ok s
      else commitStoresLoop youngest rest
        { s.setStore idx { entry with canWB := true } with storesToWB := s.storesToWB + 1 }

def commitStores (youngest : Nat) : Except Failure (State cfg) :=
  commitStoresLoop youngest (between cfg.sqEntries s.storeHead s.storeTail) s

/-- The loop of `commitLoads`, which removes at most `loads` loads. -/
def commitLoadsLoop (youngest : Nat) : Nat → State cfg → Except Failure (State cfg)
  | 0, s => .ok s
  | loads + 1, s =>
    match s.loadQueue s.loadHead with
    | none => .error .noInst
    | some load =>
      if load.seqNum ≤ youngest then
        commitLoadsLoop youngest loads { s.setLoad s.loadHead none with
          loadHead := next cfg.lqEntries s.loadHead
          loads := s.loads - 1 }
      else .ok s

def commitLoads (youngest : Nat) : Except Failure (State cfg) :=
  commitLoadsLoop youngest s.loads s

/-- When the stalling store is written back, the unit is no longer stalled. -/
def unstall (inst : StoreInst) : State cfg :=
  let unstalls : Bool := s.stalled ∧ inst.seqNum = s.stallingStoreIsn
  { s with
    stalled := s.stalled && !unstalls
    stallingStoreIsn := if unstalls then 0 else s.stallingStoreIsn }

/-- The stores that leave the queue behind a completed head: those that have completed, up to the
first that has not. -/
def completedBehind (storeQueue : Nat → SQEntry) : List Nat → Nat
  | [] => 0
  | idx :: rest =>
    if (storeQueue idx).completed then completedBehind storeQueue rest + 1 else 0

/-- When the head of the queue has completed, it leaves with the completed stores behind it. -/
def removeCompleted (idx : Nat) : State cfg :=
  if idx = s.storeHead then
    let left := completedBehind s.storeQueue
      (between cfg.sqEntries (next cfg.sqEntries s.storeHead) s.storeTail) + 1
    { s with
      storeHead := (s.storeHead + left) % cfg.sqEntries
      stores := s.stores - left }
  else s

def completeStore (idx : Nat) : Except Failure (State cfg) :=
  match (s.storeQueue idx).inst with
  | none => .error .noInst
  | some inst =>
    let s' := (s.setStore idx { s.storeQueue idx with completed := true }).removeCompleted idx
    .ok { s'.unstall inst with
      storesToWB := s.storesToWB - 1
      storeInFlight := s.storeInFlight && !cfg.needsTSO }

def incrWBIdx : State cfg := { s with storeWBIdx := next cfg.sqEntries s.storeWBIdx }

/-- `storePostSend`: all packets of the store at `storeWBIdx` have been sent. -/
def storePostSend : Except Failure (State cfg) :=
  match (s.storeQueue s.storeWBIdx).inst with
  | none => .error .noInst
  | some inst =>
    let s := s.unstall inst
    .ok { s.incrWBIdx with
      storeInFlight := s.storeInFlight || cfg.needsTSO
      inFlight := s.inFlight ++ [s.storeWBIdx] }

/-- `sendStore`: whether the cache has taken the packet. -/
def sendStore (packet : StorePacket) (accepts : Bool) : Except Failure (Bool × State cfg) :=
  if accepts then .ok (true, s)
  else if s.retryPkt.isSome then .error .retryPending
  else .ok (false, { s with isStoreBlocked := true, retryPkt := some packet })

def writebackPendingStore (accepts : Bool) : Except Failure (State cfg) :=
  match s.pendingPkt with
  | none => .ok s
  | some packet => do
    let (sent, s) ← s.sendStore packet accepts
    if sent then do
      let s ← s.storePostSend
      .ok { s with pendingPkt := none }
    else .ok { s with pendingPkt := none }

/-- The packets of an entry are sent.  The counts of the ports used and of the packets sent are
returned when the loop of `writebackStores` goes on. -/
def sendPackets (env : Env) (entry : SQEntry) (usedPorts sends : Nat) :
    Except Failure (Option (Nat × Nat) × State cfg) := do
  let (sent, s) ← s.sendStore (if entry.isSplit then .low else .whole) (env.accepts sends)
  if !sent then .ok (none, s)
  else if entry.isSplit then
    if usedPorts + 1 < cfg.cacheStorePorts then do
      let (sent, s) ← s.sendStore .high (env.accepts (sends + 1))
      if !sent then .ok (none, s)
      else do
        let s ← s.storePostSend
        .ok (some (usedPorts + 2, sends + 2), s)
    else .ok (none, { s with pendingPkt := some .high })
  else do
    let s ← s.storePostSend
    .ok (some (usedPorts + 1, sends + 1), s)

/-- A store that completes without being sent. -/
def completeNext (idx : Nat) : Except Failure (State cfg) := do
  let s ← s.completeStore idx
  .ok s.incrWBIdx

/-- An entry that may be written back. -/
def writebackEntry (env : Env) (idx : Nat) (entry : SQEntry) (inst : StoreInst)
    (usedPorts sends : Nat) : Except Failure (Option (Nat × Nat) × State cfg) :=
  if entry.size = 0 then do
    let s ← s.completeNext idx
    .ok (some (usedPorts, sends), s)
  else if inst.isDataPrefetch then .ok (some (usedPorts + 1, sends), s.incrWBIdx)
  else if entry.committed then .error .alreadyCommitted
  else if inst.isStoreConditional ∧ entry.isSplit then .error .splitStoreConditional
  else
    let s := s.setStore idx { entry with committed := true }
    if (inst.isStoreConditional ∧ !env.locked idx) ∨ inst.isMmappedIpr then do
      let s ← s.completeNext idx
      .ok (some (usedPorts + 1, sends), s)
    else s.sendPackets env entry usedPorts sends

/-- The loop of `writebackStores`, over the entries from `storeWBIdx` to `storeTail`.  Every round
that is not the last one moves `storeWBIdx` on. -/
def writebackLoop (env : Env) : List Nat → Nat → Nat → State cfg → Except Failure (State cfg)
  | [], _, _, s => .ok s
  | idx :: rest, usedPorts, sends, s =>
    match (s.storeQueue idx).inst with
    | none => .ok s
    | some inst =>
      if s.storesToWB = 0 ∨ !(s.storeQueue idx).canWB ∨ (cfg.needsTSO ∧ s.storeInFlight) ∨
          cfg.cacheStorePorts ≤ usedPorts ∨ s.isStoreBlocked then .ok s
      else do
        let (more, s) ← s.writebackEntry env idx (s.storeQueue idx) inst usedPorts sends
        match more with
        | none => .ok s
        | some (usedPorts, sends) => writebackLoop env rest usedPorts sends s

def writebackStores (env : Env) : Except Failure (State cfg) := do
  let s ← s.writebackPendingStore (env.accepts 0)
  writebackLoop env (between cfg.sqEntries s.storeWBIdx s.storeTail) 0 1 s

/-- `recvRetry`: the packet is sent again, and behind the first half of a split store the second. -/
def recvRetry (accepts : Nat → Bool) : Except Failure (State cfg) :=
  if !s.isStoreBlocked then .ok s
  else
    match s.retryPkt with
    | none => .error .noRetryPacket
    | some packet =>
      if !accepts 0 then .ok s
      else
        let s := { s with retryPkt := none, isStoreBlocked := false }
        if packet = .low then do
          let (sent, s) ← s.sendStore .high (accepts 1)
          if sent then s.storePostSend else .ok s
        else s.storePostSend

/-- `completeDataAccess`, for a store: its last packet has been answered. -/
def completeDataAccess (idx : Nat) : Except Failure (State cfg) :=
  { s with inFlight := s.inFlight.erase idx }.completeStore idx

/-! ## Squashing -/

/-- When the stalling load is squashed, the unit is no longer stalled. -/
def unstallLoad (idx : Nat) : State cfg :=
  let unstalls : Bool := s.stalled ∧ idx = s.stallingLoadIdx
  { s with
    stalled := s.stalled && !unstalls
    stallingStoreIsn := if unstalls then 0 else s.stallingStoreIsn
    stallingLoadIdx := if unstalls then 0 else s.stallingLoadIdx }

/-- The loop of `squash` over the loads, from the youngest. -/
def squashLoads (squashedNum : Nat) : Nat → State cfg → Except Failure (State cfg)
  | 0, s => .ok s
  | loads + 1, s =>
    let idx := prev cfg.lqEntries s.loadTail
    match s.loadQueue idx with
    | none => .error .noInst
    | some load =>
      if load.seqNum > squashedNum then
        squashLoads squashedNum loads
          { (s.unstallLoad idx).setLoad idx none with loadTail := idx, loads := s.loads - 1 }
      else .ok s

/-- The loop of `squash` over the stores, from the youngest. -/
def squashStores (squashedNum : Nat) : Nat → State cfg → Except Failure (State cfg)
  | 0, s => .ok s
  | stores + 1, s =>
    let idx := prev cfg.sqEntries s.storeTail
    let entry := s.storeQueue idx
    match entry.inst with
    | none => .error .noInst
    | some inst =>
      if inst.seqNum > squashedNum ∧ !entry.canWB then
        if s.stalled ∧ inst.seqNum = s.stallingStoreIsn then .error .stillStalled
        else squashStores squashedNum stores
          { s.setStore idx { entry with inst := none, canWB := false } with
            storeTail := idx, stores := s.stores - 1 }
      else .ok s

def squash (squashedNum : Nat) : Except Failure (State cfg) := do
  let s ← squashLoads squashedNum s.loads s
  squashStores squashedNum s.stores s

/-! ## Loads -/

/-- The unit is stalled for a load, unless it is stalled for an older one. -/
def stallFor (loadIdx : Nat) (load : LoadInst) (storeSeqNum : Nat) : Except Failure (State cfg) :=
  let stallNow : State cfg :=
    { s with stalled := true, stallingStoreIsn := storeSeqNum, stallingLoadIdx := loadIdx }
  if !s.stalled then .ok stallNow
  else
    match s.loadQueue s.stallingLoadIdx with
    | none => .error .noInst
    | some other => .ok (if load.seqNum < other.seqNum then stallNow else s)

/-- The loop of `read`, over the entries it visits. -/
def readLoop (loadIdx : Nat) (load : LoadInst) (req : ReadReq) : List Nat → Except Failure (ReadResult × State cfg)
  | [] => .ok (.accessesMemory, s)
  | idx :: rest =>
    let entry := s.storeQueue idx
    match entry.inst with
    | none => .error .noInst
    | some inst =>
      if entry.size = 0 then readLoop loadIdx load req rest
      else if inst.strictlyOrdered then readLoop loadIdx load req rest
      else if !inst.effAddrValid then .error .effAddrInvalid
      else
        match compareRanges req.vaddr req.size inst.effAddr entry.size with
        | .covers => .ok (.forwarded (entry.forward inst.effAddr req), s)
        | .overlaps =>
          if entry.completed then .error .completedStore
          else do
            let s ← s.stallFor loadIdx load inst.seqNum
            .ok (.mustWait, s)
        | .apart => readLoop loadIdx load req rest

def read (loadIdx : Nat) (req : ReadReq) : Except Failure (ReadResult × State cfg) :=
  match s.loadQueue loadIdx with
  | none => .error .noInst
  | some load =>
    if load.isExecuted then .error .alreadyExecuted
    else if req.isStrictlyOrdered ∧ (loadIdx ≠ s.loadHead ∨ !req.isAtCommit) then
      .ok (.rescheduled, s)
    else if req.isMmappedIpr then .ok (.readIpr, s)
    else
      match load.sqIdx with
      | none => .ok (.accessesMemory, s)
      | some sqIdx =>
        s.readLoop loadIdx load req (between cfg.sqEntries s.storeWBIdx sqIdx).reverse

/-- `writeback`, for a load. -/
def writebackLoad (idx : Nat) : Except Failure (State cfg) :=
  match s.loadQueue idx with
  | none => .error .noInst
  | some load => .ok (s.setLoad idx (some { load with isExecuted := true }))

end State

/-! ## Runs -/

inductive Op
  | insertLoad (seqNum : Nat)
  | insertStore (inst : StoreInst)
  | executeStore (idx : Nat) (req : Option WriteReq)
  | read (loadIdx : Nat) (req : ReadReq)
  | writebackLoad (idx : Nat)
  /-- `commitStores` and `commitLoads`, which are called together. -/
  | commit (youngest : Nat)
  | writebackStores (env : Env)
  | recvRetry (accepts : Nat → Bool)
  | completeDataAccess (idx : Nat)
  | squash (squashedNum : Nat)

def exec (s : State cfg) : Op → Except Failure (State cfg)
  | .insertLoad seqNum => s.insertLoad seqNum
  | .insertStore inst => s.insertStore inst
  | .executeStore idx req => s.executeStore idx req
  | .read loadIdx req => do
    let (_, s) ← s.read loadIdx req
    .ok s
  | .writebackLoad idx => s.writebackLoad idx
  | .commit youngest => do
    let s ← s.commitStores youngest
    s.commitLoads youngest
  | .writebackStores env => s.writebackStores env
  | .recvRetry accepts => s.recvRetry accepts
  | .completeDataAccess idx => s.completeDataAccess idx
  | .squash squashedNum => s.squash squashedNum

/-- The order in which the pipeline calls the unit.  Instructions enter in the order of their
numbers; a store that executes is in the queue and has not committed; a store conditional executes
when all older loads have committed; a load that is stalled has not committed; and the answers are
for stores in the memory system. -/
def Allows (s : State cfg) : Op → Prop
  | .insertLoad seqNum => s.lastSeqNum < seqNum
  | .insertStore inst => s.lastSeqNum < inst.seqNum
  | .executeStore idx _ => idx ∈ between cfg.sqEntries s.storeHead s.storeTail ∧
      (s.storeQueue idx).canWB = false ∧ ∀ inst ∈ (s.storeQueue idx).inst, inst.isStoreConditional →
        ∀ i < cfg.lqEntries, ∀ load ∈ s.loadQueue i, inst.seqNum < load.seqNum
  | .commit youngest => s.stalled → ∀ load ∈ s.loadQueue s.stallingLoadIdx, youngest < load.seqNum
  | .completeDataAccess idx => idx ∈ s.inFlight
  | _ => True

instance (s : State cfg) : DecidablePred (Allows s)
  | .insertLoad _ | .insertStore _ => inferInstanceAs (Decidable (_ < _))
  | .executeStore _ _ =>
    inferInstanceAs (Decidable (_ ∧ _ ∧ ∀ inst ∈ _, _ → ∀ i < cfg.lqEntries, ∀ load ∈ _, _))
  | .commit _ => inferInstanceAs (Decidable (_ → ∀ load ∈ _, _))
  | .completeDataAccess idx => inferInstanceAs (Decidable (idx ∈ s.inFlight))
  | .read _ _ | .writebackLoad _ | .writebackStores _ | .recvRetry _ | .squash _ => isTrue trivial

end GuardianCouncil.LSQUnit
