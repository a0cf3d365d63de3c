import GuardianCouncil.Lib.Fallible
import GuardianCouncil.Mem.Command

/-!
# Miss status holding registers

An `MSHR` collects the requests for a block that missed, as its targets.  While its own request is in
service, requests that the response will not serve are deferred (`allocateTarget`), and snoops that the
response has to be passed on to become targets themselves (`handleSnoop`).  When the response arrives,
the targets it serves are extracted and the deferred ones take their place (`recvTimingResp`).

Targets may come from the MSHR of a cache above.  That a request is pending there is recorded in that
cache's MSHR; here only the flag of the target is kept.
-/

namespace GuardianCouncil.Cache

open Mem

/-- What the simulator stops at. -/
inductive Failure
  /-- The first target of a list that an invalidating response serves is from the CPU. -/
  | notFromCPU
  /-- The targets behind it are from the CPU or snoops. -/
  | notFromSnoop
  | prefetchTarget
  | uncacheableTarget
  | flagsSet
  | inService
  | notInService
  | noTargets
  | hasTargets
  | needsWritable
  | downstreamPending
  | notDownstreamPending
  /-- `handleSnoop`: "needsWritable does not match isInvalidate". -/
  | snoopMismatch
  | cacheResponding
deriving DecidableEq

/-! ## Packets -/

/-- A request. -/
structure Packet where
  cmd : MemCmd
  isSecure : Bool := false
  isUncacheable : Bool := false
  isExpressSnoop : Bool := false
  cacheResponding : Bool := false
  responderHadWritable : Bool := false
  hasSharers : Bool := false
  /-- Does the packet come from the MSHR of a cache above? -/
  fromMSHR : Bool := false
  isRequest : cmd.isRequest = true := by decide

/-- The commands of `replaceUpgrade`. -/
def replaceUpgradeCmd : MemCmd → MemCmd
  | .upgradeReq => .readExReq
  | .scUpgradeReq => .scUpgradeFailReq
  | .storeCondReq => .storeCondFailReq
  | cmd => cmd

theorem isRequest_replaceUpgradeCmd {cmd : MemCmd} (h : cmd.isRequest = true) :
    (replaceUpgradeCmd cmd).isRequest = true := by
  cases cmd <;> exact h

/-- `replaceUpgrade`: the copy above has been invalidated. -/
def replaceUpgrade (pkt : Packet) : Packet :=
  { pkt with
    cmd := replaceUpgradeCmd pkt.cmd
    isRequest := isRequest_replaceUpgradeCmd pkt.isRequest }

/-! ## Targets -/

/-- `Target::Source`. -/
inductive Source
  | fromCPU
  | fromSnoop
  | fromPrefetcher
deriving DecidableEq

structure Target where
  readyTime : Nat
  order : Nat
  pkt : Packet
  source : Source
  markedPending : Bool
  allocOnFill : Bool

structure TargetList where
  list : List Target := []
  needsWritable : Bool := false
  hasUpgrade : Bool := false
  allocOnFill : Bool := false

namespace TargetList

variable (l : TargetList)

def updateFlags (pkt : Packet) (source : Source) (allocOnFill : Bool) : TargetList :=
  if source ≠ .fromSnoop then
    { l with
      needsWritable := l.needsWritable || pkt.cmd.needsWritable
      hasUpgrade := l.hasUpgrade || (pkt.cmd.isUpgrade || pkt.cmd = .storeCondReq)
      allocOnFill := l.allocOnFill || allocOnFill }
  else l

def resetFlags : TargetList :=
  { l with needsWritable := false, hasUpgrade := false, allocOnFill := false }

def isReset : Bool := !l.needsWritable && !l.hasUpgrade && !l.allocOnFill

def populateFlags : TargetList :=
  l.list.foldl (fun l t => l.updateFlags t.pkt t.source t.allocOnFill) l.resetFlags

def add (pkt : Packet) (readyTime order : Nat) (source : Source) (markPending allocOnFill : Bool) : TargetList :=
  let l := l.updateFlags pkt source allocOnFill
  { l with list := l.list ++
    [{ readyTime, order, pkt, source, markedPending := markPending && pkt.fromMSHR, allocOnFill }] }

def replaceUpgrades : TargetList :=
  if l.hasUpgrade then
    { l with list := l.list.map fun t => { t with pkt := replaceUpgrade t.pkt }, hasUpgrade := false }
  else l

/-- The upgrades in the list are replaced when a snoop takes the block away. -/
def snoopUpgrades (pkt : Packet) : TargetList :=
  if pkt.cmd.needsWritable then l.replaceUpgrades else l

def clearDownstreamPending : TargetList :=
  { l with list := l.list.map fun t => { t with markedPending := false } }

end TargetList

/-! ## MSHRs -/

structure MSHR where
  blkAddr : Nat := 0
  blkSize : Nat := 0
  isSecure : Bool := false
  readyTime : Nat := 0
  order : Nat := 0
  isUncacheable : Bool := false
  inService : Bool := false
  isForward : Bool := false
  downstreamPending : Bool := false
  pendingModified : Bool := false
  postInvalidate : Bool := false
  postDowngrade : Bool := false
  targets : TargetList := {}
  deferredTargets : TargetList := {}

/-- The arguments of `MSHR::allocate`. -/
structure Miss where
  blkAddr : Nat
  blkSize : Nat
  target : Packet
  whenReady : Nat
  order : Nat
  allocOnFill : Bool

namespace MSHR

variable (m : MSHR)

def getNumTargets : Nat := m.targets.list.length + m.deferredTargets.list.length

def hasTargets : Bool := !m.targets.list.isEmpty

def allocate (miss : Miss) : Except Failure MSHR :=
  if !m.targets.isReset then .error .flagsSet
  else
    let source : Source := if miss.target.cmd = .hardPFReq then .fromPrefetcher else .fromCPU
    let m := { m with
      blkAddr := miss.blkAddr
      blkSize := miss.blkSize
      isSecure := miss.target.isSecure
      readyTime := miss.whenReady
      order := miss.order
      isForward := false
      isUncacheable := miss.target.isUncacheable
      inService := false
      downstreamPending := false
      targets := m.targets.add miss.target miss.whenReady miss.order source true miss.allocOnFill }
    if !m.deferredTargets.isReset then .error .flagsSet else .ok m

/-- `clearDownstreamPending`, called by the MSHR below. -/
def clearDownstreamPending : Except Failure MSHR :=
  if !m.downstreamPending then .error .notDownstreamPending
  else .ok { m with downstreamPending := false, targets := m.targets.clearDownstreamPending }

def markInService (pendingModifiedResp : Bool) : Except Failure MSHR :=
  if m.inService then .error .inService
  else .ok { m with
    inService := true
    pendingModified := m.targets.needsWritable || pendingModifiedResp
    postInvalidate := false
    postDowngrade := false
    targets := if m.downstreamPending then m.targets else m.targets.clearDownstreamPending }

def deallocate : Except Failure MSHR :=
  if m.hasTargets then .error .hasTargets
  else if !m.deferredTargets.isReset then .error .flagsSet
  else .ok { m with targets := m.targets.resetFlags, inService := false }

/-- A new target has to wait until after the response. -/
def defersTarget (pkt : Packet) : Bool :=
  m.inService &&
    (!m.deferredTargets.list.isEmpty || m.postInvalidate ||
      (pkt.cmd.needsWritable && (!m.pendingModified || m.postDowngrade || m.isForward)))

def allocateTarget (pkt : Packet) (whenReady order : Nat) (allocOnFill : Bool) : Except Failure MSHR :=
  if pkt.cmd = .hardPFReq then .error .prefetchTarget
  else if m.isUncacheable then .error .uncacheableTarget
  else if m.defersTarget pkt then
    let pkt := if m.postInvalidate then replaceUpgrade pkt else pkt
    .ok { m with
      deferredTargets := m.deferredTargets.add pkt whenReady order .fromCPU true allocOnFill }
  else .ok { m with
    targets := m.targets.add pkt whenReady order .fromCPU (!m.inService) allocOnFill }

/-- What `handleSnoop` answers: whether the MSHR has dealt with the snoop, and the flags of the
packet. -/
structure Snooped where
  handled : Bool
  pkt : Packet

/-- The copy of a snooped packet that becomes a target. -/
def snoopCopy (pkt : Packet) (willRespond : Bool) : Packet :=
  { pkt with
    isExpressSnoop := false
    cacheResponding := false
    responderHadWritable := false
    hasSharers := false
    fromMSHR := willRespond && pkt.fromMSHR }

/-- `handleSnoop`, where the snoop comes after the request of the MSHR and no invalidation has come
before it. -/
def recordSnoop (pkt : Packet) (order curTick : Nat) : Except Failure (Snooped × MSHR) :=
  let willRespond := m.pendingModified && pkt.cmd.needsResponse
  let isTarget := m.pendingModified || pkt.cmd.isInvalidate
  if isTarget && willRespond && (pkt.cacheResponding || pkt.responderHadWritable) then
    .error .cacheResponding
  else
    let downgrades := !pkt.cmd.needsWritable && !pkt.isUncacheable
    .ok (⟨true, { pkt with
        cacheResponding := pkt.cacheResponding || (isTarget && willRespond)
        responderHadWritable := pkt.responderHadWritable || (isTarget && willRespond)
        hasSharers := pkt.hasSharers || downgrades }⟩,
      { m with
        targets :=
          if isTarget then
            m.targets.add (snoopCopy pkt willRespond) curTick order .fromSnoop
              (m.downstreamPending && m.targets.needsWritable) false
          else m.targets
        postInvalidate := m.postInvalidate || (isTarget && pkt.cmd.needsWritable)
        postDowngrade := m.postDowngrade || downgrades })

def handleSnoop (pkt : Packet) (order curTick : Nat) : Except Failure (Snooped × MSHR) :=
  if pkt.cmd.needsWritable ≠ pkt.cmd.isInvalidate then .error .snoopMismatch
  else
    let m := { m with deferredTargets := m.deferredTargets.snoopUpgrades pkt }
    if !m.inService || (pkt.isExpressSnoop && m.downstreamPending) then
      -- the snoop comes before the request
      .ok (⟨false, pkt⟩, { m with targets := m.targets.snoopUpgrades pkt })
    else if m.postInvalidate then .ok (⟨true, pkt⟩, m)
    else m.recordSnoop pkt order curTick

/-- `extractServiceableTargets`, for the command of a response. -/
def extractServiceableTargets (cmd : MemCmd) : Except Failure (TargetList × MSHR) :=
  if cmd = .readRespWithInvalidate then
    match m.targets.list with
    | [] => .error .noTargets
    | t :: rest =>
      if t.source ≠ .fromCPU then .error .notFromCPU
      else if rest.any fun t => t.source = .fromPrefetcher then .error .notFromSnoop
      else
        let ready : TargetList := { list := t :: rest.filter fun t => t.source ≠ .fromCPU }
        let left : TargetList := { m.targets with list := rest.filter fun t => t.source = .fromCPU }
        .ok (ready.populateFlags, { m with targets := left.populateFlags })
  else
    let left : TargetList := {}
    .ok (m.targets, { m with targets := left.populateFlags })

/-- The targets with the deferred ones behind them. -/
def promotedTargets : TargetList :=
  if m.targets.list.isEmpty then m.deferredTargets
  else { m.targets with list := m.targets.list ++ m.deferredTargets.list }.populateFlags

def promoteDeferredTargets (curTick : Nat) : Bool × MSHR :=
  match m.promotedTargets.list with
  | [] => (false, m)
  | t :: _ => (true, { m with
    targets := m.promotedTargets
    deferredTargets := {}
    order := t.order
    readyTime := max curTick t.readyTime })

def promoteWritable : Except Failure MSHR :=
  if m.deferredTargets.needsWritable then
    if !m.inService then .error .notInService
    else if m.postInvalidate || m.postDowngrade then .ok m
    else if m.targets.needsWritable then .error .needsWritable
    else if m.downstreamPending then .error .downstreamPending
    else .ok { m with
      targets := { m.targets with
        needsWritable := true
        list := m.targets.list ++ m.deferredTargets.clearDownstreamPending.list }
      deferredTargets := {} }
  else .ok m

def popTarget : MSHR := { m with targets := { m.targets with list := m.targets.list.tail } }

/-- While the extracted targets are served, a write of a whole line makes the block writable. -/
def serveTargets : List Target → MSHR → Except Failure MSHR
  | [], m => .ok m
  | t :: rest, m =>
    if t.source = .fromCPU ∧ t.pkt.cmd = .writeLineReq then do
      let m ← m.promoteWritable
      serveTargets rest m
    else serveTargets rest m

/-- What remains after `recvTimingResp`: the MSHR waits to be sent again, or it is free. -/
inductive Remains
  | pending
  | free
deriving DecidableEq

/-- A response without sharers passes the block on writable. -/
def receiveWritable (hasSharers : Bool) : Except Failure MSHR :=
  if !m.hasTargets then .error .noTargets
  else if hasSharers then .ok m
  else m.promoteWritable

/-- What `Cache::recvTimingResp` does with the MSHR.  The targets that were extracted are returned. -/
def recvTimingResp (cmd : MemCmd) (hasSharers : Bool) (curTick : Nat) :
    Except Failure (List Target × Remains × MSHR) := do
  let m ← m.receiveWritable hasSharers
  let (extracted, m) ← m.extractServiceableTargets cmd
  let m ← serveTargets extracted.list m
  match m.promoteDeferredTargets curTick with
  | (true, m) =>
    -- `markPending`
    if !m.inService then .error .notInService
    else .ok (extracted.list, .pending, { m with inService := false })
  | (false, m) => do
    let m ← m.deallocate
    .ok (extracted.list, .free, m)

end MSHR

end GuardianCouncil.Cache
