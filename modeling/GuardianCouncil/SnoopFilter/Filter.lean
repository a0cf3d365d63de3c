import GuardianCouncil.Lib.Fallible
import GuardianCouncil.Lib.OneHot
import GuardianCouncil.Mem.Command
import Mathlib.Data.Finmap

/-!
# The snoop filter of a crossbar

The filter knows for each line which ports have asked for it (`requested`) and which may have a copy
(`holder`), and sends a snoop only to these.  A request is looked up before it is sent on; if it is not
accepted, it comes again, and `finishRequest` puts the entry back as it was.  Responses move a port
from `requested` to `holder`.

A line stands under its address, with the lowest bit set if it is in secure memory (`lineAddr`).
-/

namespace GuardianCouncil.SnoopFilter

open Mem

abbrev Addr := BitVec 64

abbrev SnoopMask := BitVec 64

/-- What the filter reads of a packet. -/
structure Packet where
  cmd : MemCmd
  addr : Addr
  isSecure : Bool := false
  isUncacheable : Bool := false
  cacheResponding : Bool := false
  hasSharers : Bool := false
  isBlockCached : Bool := false
deriving DecidableEq

/-! ## Ports and lines -/

structure Config where
  /-- For each slave port of the crossbar, whether it is snooping. -/
  ports : List Bool
  linesize : Nat
  lookupLatency : Nat
  maxCapacity : Nat
  snooping_le : ports.count true ≤ 64 := by decide
  linesize_pos : 0 < linesize := by decide

namespace Config

variable (cfg : Config)

def isSnooping (port : Nat) : Bool := cfg.ports.getD port false

/-- The snooping ports, as `setSlavePorts` collects them. -/
def slavePorts : List Nat := (List.range cfg.ports.length).filter cfg.isSnooping

/-- `localSlavePortIds`: the snooping ports are numbered as they are collected. -/
def localSlavePortId (port : Nat) : Nat := cfg.slavePorts.idxOf port

def maxEntryCount : Nat := cfg.maxCapacity / cfg.linesize

def portToMask (port : Nat) : SnoopMask :=
  if !cfg.isSnooping port then 0 else 1 <<< cfg.localSlavePortId port

def maskToPortList (portMask : SnoopMask) : List Nat :=
  cfg.slavePorts.filter fun p => portMask &&& cfg.portToMask p ≠ 0

def lineAddr (addr : Addr) (isSecure : Bool) : Addr :=
  let lineAddr := addr &&& ~~~BitVec.ofNat 64 (cfg.linesize - 1)
  if isSecure then lineAddr ||| 1 else lineAddr

/-- The line that a packet is about. -/
def line (pkt : Packet) : Addr := cfg.lineAddr pkt.addr pkt.isSecure

/-- Does a request make an entry of its own? -/
def allocates (pkt : Packet) (port : Nat) : Bool :=
  !pkt.isUncacheable && cfg.isSnooping port && pkt.cmd.fromCache

def snoopSelected (ports : List Nat) : List Nat × Nat := (ports, cfg.lookupLatency)

def snoopDown : List Nat × Nat := ([], cfg.lookupLatency)

end Config

/-! ## The filter -/

/-- A panic or an assertion of the source. -/
inductive Failure
  | doubleRequest
  | needToHold
  | notHolder
  | capacity
  | doesNotHaveLine
  | missingRequest
  | missingRequestBit
  | assertion
deriving DecidableEq

structure SnoopItem where
  requested : SnoopMask
  holder : SnoopMask
deriving DecidableEq

namespace SnoopItem

variable (item : SnoopItem)

def interested : SnoopMask := item.holder ||| item.requested

def isNull : Bool := item.requested ||| item.holder = 0

end SnoopItem

abbrev SnoopFilterCache := Finmap fun _ : Addr => SnoopItem

structure Filter (cfg : Config) where
  cachedLocations : SnoopFilterCache
  /-- The entry of the last request, if it has one. -/
  reqLookupResult : Option Addr
  retryItem : SnoopItem

def eraseIfNullEntry (cached : SnoopFilterCache) (line : Addr) : SnoopFilterCache :=
  match cached.lookup line with
  | none => cached
  | some item => if item.isNull then cached.erase line else cached

namespace Filter

variable {cfg : Config} (s : Filter cfg)

def new : Filter cfg := ⟨∅, none, ⟨0, 0⟩⟩

/-- What a request from a cache does to its entry. -/
def markRequest (pkt : Packet) (reqPort : SnoopMask) (item : SnoopItem) : Except Failure SnoopItem :=
  if pkt.cmd.needsResponse then
    if !pkt.cacheResponding then
      if item.requested &&& reqPort ≠ 0 then .error .doubleRequest
      else .ok { item with requested := item.requested ||| reqPort }
    else if item.holder &&& reqPort = 0 then .error .needToHold
    else .ok item
  else if !pkt.cmd.isEviction then .error .assertion
  else if item.holder &&& reqPort = 0 then .error .notHolder
  else if !pkt.isBlockCached then .ok { item with holder := item.holder &&& ~~~reqPort }
  else .ok item

def lookupRequest (pkt : Packet) (slavePort : Nat) : Except Failure ((List Nat × Nat) × Filter cfg) :=
  let lineAddr := cfg.line pkt
  let reqPort := cfg.portToMask slavePort
  let hit := s.cachedLocations.lookup lineAddr
  if hit.isNone && !cfg.allocates pkt slavePort then
    .ok (cfg.snoopDown, { s with reqLookupResult := none })
  else
    let item := hit.getD ⟨0, 0⟩
    let s := { s with
      cachedLocations := s.cachedLocations.insert lineAddr item
      reqLookupResult := some lineAddr
      retryItem := item }
    let result := cfg.snoopSelected (cfg.maskToPortList (item.interested &&& ~~~reqPort))
    if !cfg.allocates pkt slavePort then .ok (result, s)
    else do
      let item ← markRequest pkt reqPort item
      .ok (result, { s with cachedLocations := s.cachedLocations.insert lineAddr item })

def finishRequest (willRetry : Bool) (addr : Addr) (isSecure : Bool) : Except Failure (Filter cfg) :=
  match s.reqLookupResult with
  | none => .ok s
  | some line =>
    if line ≠ cfg.lineAddr addr isSecure then .error .assertion
    else
      let cached :=
        if willRetry then s.cachedLocations.insert line s.retryItem else s.cachedLocations
      .ok { s with cachedLocations := eraseIfNullEntry cached line }

/-- An invalidating snoop clears the holders, unless a request is on its way. -/
def snoopedItem (pkt : Packet) (item : SnoopItem) : SnoopItem :=
  if pkt.cmd.isInvalidate && item.requested = 0 then { item with holder := 0 } else item

def lookupSnoop (pkt : Packet) : Except Failure ((List Nat × Nat) × Filter cfg) :=
  if !pkt.cmd.isRequest then .error .assertion
  else
    let lineAddr := cfg.line pkt
    match s.cachedLocations.lookup lineAddr with
    | none =>
      if s.cachedLocations.keys.card ≥ cfg.maxEntryCount then .error .capacity
      else .ok (cfg.snoopDown, s)
    | some item =>
      if !(pkt.cmd.isWriteback || pkt.isUncacheable ||
          pkt.cmd.isInvalidate == pkt.cmd.needsWritable) then .error .assertion
      else
        let cached := s.cachedLocations.insert lineAddr (snoopedItem pkt item)
        .ok (cfg.snoopSelected (cfg.maskToPortList item.interested),
          { s with cachedLocations := eraseIfNullEntry cached lineAddr })

/-- A snoop response without sharers: there are no other copies. -/
def droppedItem (pkt : Packet) (item : SnoopItem) : SnoopItem :=
  if !pkt.hasSharers then { item with holder := 0 } else item

/-- A port has got what it asked for. -/
def filledItem (port : SnoopMask) (item : SnoopItem) : SnoopItem :=
  ⟨item.requested &&& ~~~port, item.holder ||| port⟩

def updateSnoopResponse (pkt : Packet) (rspPort reqPort : Nat) : Except Failure (Filter cfg) :=
  if !pkt.cmd.isResponse || !pkt.cacheResponding then .error .assertion
  else if pkt.isUncacheable || !cfg.isSnooping reqPort then .ok s
  else
    let lineAddr := cfg.line pkt
    let rspMask := cfg.portToMask rspPort
    let reqMask := cfg.portToMask reqPort
    let item := (s.cachedLocations.lookup lineAddr).getD ⟨0, 0⟩
    if item.holder &&& rspMask = 0 then .error .doesNotHaveLine
    else if item.requested &&& reqMask = 0 then .error .missingRequest
    else if pkt.cmd.isWriteback then .error .assertion
    else
      let item := filledItem reqMask (droppedItem pkt item)
      if item.isNull then .error .assertion
      else .ok { s with cachedLocations := s.cachedLocations.insert lineAddr item }

def updateSnoopForward (pkt : Packet) : Except Failure (Filter cfg) :=
  if !pkt.cmd.isResponse || !pkt.cacheResponding then .error .assertion
  else
    let lineAddr := cfg.line pkt
    match s.cachedLocations.lookup lineAddr with
    | none => .ok s
    | some item =>
      let cached := s.cachedLocations.insert lineAddr (droppedItem pkt item)
      .ok { s with cachedLocations := eraseIfNullEntry cached lineAddr }

def updateResponse (pkt : Packet) (slavePort : Nat) : Except Failure (Filter cfg) :=
  if !pkt.cmd.isResponse then .error .assertion
  else if pkt.isUncacheable || !cfg.isSnooping slavePort then .ok s
  else
    let lineAddr := cfg.line pkt
    match s.cachedLocations.lookup lineAddr with
    | none => .ok s
    | some item =>
      let slaveMask := cfg.portToMask slavePort
      if item.requested &&& slaveMask = 0 then .error .missingRequestBit
      else
        let item := filledItem slaveMask item
        if item.isNull then .error .assertion
        else .ok { s with cachedLocations := s.cachedLocations.insert lineAddr item }

end Filter

/-! ## Transactions -/

/-- What the crossbar does with the filter. -/
inductive Transaction
  /-- `lookupRequest`, then `finishRequest`. -/
  | request (pkt : Packet) (port : Nat) (willRetry : Bool)
  | snoop (pkt : Packet)
  | snoopResponse (pkt : Packet) (rspPort reqPort : Nat)
  | snoopForward (pkt : Packet)
  | response (pkt : Packet) (port : Nat)
deriving DecidableEq

namespace Filter

variable {cfg : Config} (s : Filter cfg)

def exec : Transaction → Except Failure (Filter cfg)
  | .request pkt port willRetry => do
    let (_, s) ← s.lookupRequest pkt port
    s.finishRequest willRetry pkt.addr pkt.isSecure
  | .snoop pkt => do
    let (_, s) ← s.lookupSnoop pkt
    .ok s
  | .snoopResponse pkt rspPort reqPort => s.updateSnoopResponse pkt rspPort reqPort
  | .snoopForward pkt => s.updateSnoopForward pkt
  | .response pkt port => s.updateResponse pkt port

end Filter

end GuardianCouncil.SnoopFilter
