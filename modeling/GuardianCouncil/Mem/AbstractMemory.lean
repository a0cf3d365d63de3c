import GuardianCouncil.Lib.Fallible
import GuardianCouncil.Mem.Command

/-!
# A memory without timing

`AbstractMemory::access` serves a packet: it reads or writes the bytes of the packet's range, or does
both for a swap.  A load-linked leaves a record of its context and of the 16-byte granule of its
address (`trackLoadLocked`), one for each context; a store-conditional is carried out only if its
record is still there, and a store that is carried out erases all records of the granule
(`checkLockedAddrList`).

`stores` is whether an access overwrites the bytes of its packet.  `access_byte` says that nothing
else ever changes.
-/

namespace GuardianCouncil.AbstractMemory

open Fallible Mem

abbrev Addr := BitVec 64

structure Request where
  paddr : Addr
  contextId : Int
  extraData : BitVec 64 := 0
  isAtomic : Bool := false
  isCondSwap : Bool := false
  isInstFetch : Bool := false

structure Packet where
  cmd : MemCmd
  addr : Addr
  data : List UInt8
  req : Request
  cacheResponding : Bool := false
  /-- `getAtomicOp`: what an atomic operation makes of the bytes in memory. -/
  atomicOp : List UInt8 → List UInt8 := id
  /-- The operand has the size of the packet. -/
  length_atomicOp : ∀ bytes, (atomicOp bytes).length = bytes.length := by intro; rfl

namespace Packet

/-- A packet for the address of its request. -/
def ofRequest (cmd : MemCmd) (req : Request) (data : List UInt8) : Packet where
  cmd := cmd
  addr := req.paddr
  data := data
  req := req

variable (pkt : Packet)

def size : Nat := pkt.data.length

/-- The addresses of the bytes of a packet. -/
def addrs : List Addr := (List.range pkt.size).map fun i => pkt.addr + BitVec.ofNat 64 i

def isLLSC : Bool := pkt.cmd.isLLSC

def makeResponse : Packet := { pkt with cmd := pkt.cmd.responseCommand }

end Packet

/-! ## Locked addresses -/

structure LockedAddr where
  addr : Addr
  contextId : Int
deriving DecidableEq

namespace LockedAddr

/-- The granule of an address, `paddr & ~Addr_Mask`. -/
def mask (paddr : Addr) : Addr := paddr &&& ~~~0xf#64

def matchesContext (l : LockedAddr) (req : Request) : Bool := l.contextId == req.contextId

def ofRequest (req : Request) : LockedAddr := ⟨mask req.paddr, req.contextId⟩

end LockedAddr

open LockedAddr (mask)

/-- The record of the context, if it has one, gets the new address. -/
def modifyLock (req : Request) : List LockedAddr → List LockedAddr
  | [] => []
  | l :: rest =>
    if l.matchesContext req then { l with addr := mask req.paddr } :: rest
    else l :: modifyLock req rest

def trackLoadLocked (lockedAddrList : List LockedAddr) (req : Request) : List LockedAddr :=
  if lockedAddrList.any (·.matchesContext req) then modifyLock req lockedAddrList
  else .ofRequest req :: lockedAddrList

/-- What a check of a write decides, and what it leaves. -/
structure WriteCheck where
  allowStore : Bool
  lockedAddrList : List LockedAddr
  req : Request

def checkLockedAddrList (lockedAddrList : List LockedAddr) (pkt : Packet) : WriteCheck :=
  let paddr := mask pkt.req.paddr
  let allowStore := !pkt.isLLSC ||
    lockedAddrList.any fun l => l.addr == paddr && l.matchesContext pkt.req
  { allowStore := allowStore
    lockedAddrList :=
      if allowStore then lockedAddrList.filter (·.addr ≠ paddr) else lockedAddrList
    req := if pkt.isLLSC then { pkt.req with extraData := if allowStore then 1 else 0 } else pkt.req }

def writeOK (lockedAddrList : List LockedAddr) (pkt : Packet) : WriteCheck :=
  if lockedAddrList.isEmpty then
    { allowStore := !pkt.isLLSC
      lockedAddrList := lockedAddrList
      req := if pkt.isLLSC then { pkt.req with extraData := 0 } else pkt.req }
  else checkLockedAddrList lockedAddrList pkt

/-! ## Bytes -/

/-- The backing store, by address. -/
abbrev Host := Addr → UInt8

def readBytes (host : Host) (addr : Addr) (size : Nat) : List UInt8 :=
  (List.range size).map fun i => host (addr + BitVec.ofNat 64 i)

def writeBytes (host : Host) (addr : Addr) : List UInt8 → Host
  | [] => host
  | byte :: bytes => writeBytes (Function.update host addr byte) (addr + 1#64) bytes

/-- The first bytes of a word in memory. -/
def wordBytes (word : BitVec 64) (size : Nat) : List UInt8 :=
  (List.range size).map fun i => UInt8.ofBitVec (word.extractLsb' (8 * i) 8)

theorem length_readBytes (host : Host) (addr : Addr) (size : Nat) : (readBytes host addr size).length = size := by
  simp [readBytes]

/-- Bytes outside of what is written stay as they are. -/
theorem writeBytes_of_ne {host : Host} {addr a : Addr} {bytes : List UInt8}
    (h : ∀ i < bytes.length, addr + BitVec.ofNat 64 i ≠ a) : writeBytes host addr bytes a = host a := by
  induction bytes generalizing host addr with
  | nil => rfl
  | cons byte bytes ih =>
    have hf : addr ≠ a := by simpa using h 0 (Nat.succ_pos _)
    rw [writeBytes, ih, Function.update_of_ne hf.symm]
    intro i hi
    have hnext := h (i + 1) (Nat.succ_lt_succ hi)
    rwa [BitVec.add_assoc, ← BitVec.ofNat_add 1 i, Nat.add_comm]

/-! ## The memory -/

structure Memory where
  /-- The first and the last address, `range`. -/
  start : Addr
  stop : Addr
  /-- `none` for a null memory, which stores nothing. -/
  pmemAddr : Option Host
  lockedAddrList : List LockedAddr := []

inductive Fault where
  | assertion
  /-- A swap in a null memory. -/
  | nullSwap
  /-- A conditional swap of a size other than four or eight. -/
  | invalidSize
  | unimplemented
deriving DecidableEq

/-- Whether a swap overwrites what is in memory. -/
def overwriteMem (host : Host) (pkt : Packet) : Bool :=
  !pkt.req.isCondSwap || wordBytes pkt.req.extraData pkt.size == readBytes host pkt.addr pkt.size

namespace Memory

variable (mem : Memory) (pkt : Packet)

def isSubset : Bool :=
  mem.start ≤ pkt.addr && pkt.addr + (BitVec.ofNat 64 pkt.size - 1) ≤ mem.stop

/-- An atomic operation.  It has no effect on a null memory. -/
def atomic : Memory × Packet :=
  match mem.pmemAddr with
  | none => (mem, pkt)
  | some host =>
    let bytes := readBytes host pkt.addr pkt.size
    ({ mem with pmemAddr := some (writeBytes host pkt.addr (pkt.atomicOp bytes)) }, { pkt with data := bytes })

def swap : Except Fault (Memory × Packet) :=
  match mem.pmemAddr with
  | none => .error .nullSwap
  | some host =>
    if pkt.req.isCondSwap ∧ pkt.size ≠ 8 ∧ pkt.size ≠ 4 then .error .invalidSize
    else if pkt.req.isInstFetch then .error .assertion
    else .ok
      ({ mem with
          pmemAddr := some (if overwriteMem host pkt then writeBytes host pkt.addr pkt.data else host) },
        { pkt with data := readBytes host pkt.addr pkt.size })

def read : Except Fault (Memory × Packet) :=
  if pkt.cmd.isWrite then .error .assertion
  else .ok
    ({ mem with
        lockedAddrList :=
          if pkt.isLLSC then trackLoadLocked mem.lockedAddrList pkt.req else mem.lockedAddrList },
      match mem.pmemAddr with
      | none => pkt
      | some host => { pkt with data := readBytes host pkt.addr pkt.size })

def write : Except Fault (Memory × Packet) :=
  let check := writeOK mem.lockedAddrList pkt
  if check.allowStore ∧ pkt.req.isInstFetch then .error .assertion
  else .ok
    ({ mem with
        pmemAddr :=
          if check.allowStore then mem.pmemAddr.map (writeBytes · pkt.addr pkt.data) else mem.pmemAddr
        lockedAddrList := check.lockedAddrList },
      { pkt with req := check.req })

/-- The packet is none of the memory's business: a cache responds, or there is nothing to write. -/
def ignores : Bool :=
  pkt.cacheResponding || pkt.cmd == .cleanEvict || pkt.cmd == .writebackClean

def serve : Except Fault (Memory × Packet) :=
  if pkt.cmd = .swapReq then
    if pkt.req.isAtomic then .ok (mem.atomic pkt) else mem.swap pkt
  else if pkt.cmd.isRead then mem.read pkt
  else if pkt.cmd.isInvalidate then .ok (mem, pkt)
  else if pkt.cmd.isWrite then mem.write pkt
  else .error .unimplemented

def access : Except Fault (Memory × Packet) :=
  if ignores pkt then .ok (mem, pkt)
  else if !mem.isSubset pkt then .error .assertion
  else do
    let (mem, pkt) ← mem.serve pkt
    .ok (mem, if pkt.cmd.needsResponse then pkt.makeResponse else pkt)

/-! ## What is written -/

/-- The access overwrites the bytes of its packet. -/
def stores : Bool :=
  !ignores pkt && match mem.pmemAddr with
  | none => false
  | some host =>
    if pkt.cmd = .swapReq then pkt.req.isAtomic || overwriteMem host pkt
    else !pkt.cmd.isRead && !pkt.cmd.isInvalidate && pkt.cmd.isWrite &&
      (writeOK mem.lockedAddrList pkt).allowStore

/-- The byte at an address; a null memory has none. -/
def byte (a : Addr) : Option UInt8 := mem.pmemAddr.map (· a)

/-- What an access can do to the memory. -/
inductive Does : Memory → Prop
  | ignored (h : ignores pkt = true) : Does mem
  | nullAtomic (hswap : pkt.cmd = .swapReq) (hhost : mem.pmemAddr = none) : Does mem
  | atomic (host : Host) (hignores : ignores pkt = false) (hswap : pkt.cmd = .swapReq)
      (hatomic : pkt.req.isAtomic = true) (hhost : mem.pmemAddr = some host) :
      Does { mem with
        pmemAddr :=
          some (writeBytes host pkt.addr (pkt.atomicOp (readBytes host pkt.addr pkt.size))) }
  | swap (host : Host) (hignores : ignores pkt = false) (hswap : pkt.cmd = .swapReq)
      (hhost : mem.pmemAddr = some host) :
      Does { mem with
        pmemAddr := some (if overwriteMem host pkt then writeBytes host pkt.addr pkt.data else host) }
  | read (hignores : ignores pkt = false) (hswap : pkt.cmd ≠ .swapReq)
      (hread : pkt.cmd.isRead = true) :
      Does { mem with
        lockedAddrList :=
          if pkt.isLLSC then trackLoadLocked mem.lockedAddrList pkt.req else mem.lockedAddrList }
  | invalidate (hswap : pkt.cmd ≠ .swapReq) (hread : pkt.cmd.isRead = false)
      (hinvalidate : pkt.cmd.isInvalidate = true) : Does mem
  | write (hignores : ignores pkt = false) (hswap : pkt.cmd ≠ .swapReq)
      (hread : pkt.cmd.isRead = false) (hinvalidate : pkt.cmd.isInvalidate = false)
      (hwrite : pkt.cmd.isWrite = true) :
      Does { mem with
        pmemAddr :=
          if (writeOK mem.lockedAddrList pkt).allowStore then
            mem.pmemAddr.map (writeBytes · pkt.addr pkt.data)
          else mem.pmemAddr
        lockedAddrList := (writeOK mem.lockedAddrList pkt).lockedAddrList }

variable {mem pkt} {mem' : Memory} {pkt' : Packet}

theorem does_of_atomic (hignores : ignores pkt = false) (hswap : pkt.cmd = .swapReq)
    (hatomic : pkt.req.isAtomic = true) : mem.Does pkt (mem.atomic pkt).1 := by
  rw [atomic]
  rcases hhost : mem.pmemAddr with - | host
  · exact .nullAtomic hswap hhost
  · exact .atomic host hignores hswap hatomic hhost

theorem does_of_swap (hignores : ignores pkt = false) (hswap : pkt.cmd = .swapReq)
    (h : mem.swap pkt = .ok (mem', pkt')) : mem.Does pkt mem' := by
  rw [swap] at h
  rcases hhost : mem.pmemAddr with - | host
  · rw [hhost] at h
    cases h
  · simp only [hhost, check_eq_ok] at h
    obtain ⟨rfl, -⟩ := Prod.mk.inj (Except.ok.inj h.2.2)
    exact .swap host hignores hswap hhost

theorem does_of_serve (hignores : ignores pkt = false) (h : mem.serve pkt = .ok (mem', pkt')) : mem.Does pkt mem' := by
  rw [serve] at h
  split_ifs at h with hswap hatomic hread hinvalidate hwrite
  · obtain ⟨rfl, -⟩ := Prod.mk.inj (Except.ok.inj h)
    exact does_of_atomic hignores hswap hatomic
  · exact does_of_swap hignores hswap h
  · rw [read, check_eq_ok] at h
    obtain ⟨rfl, -⟩ := Prod.mk.inj (Except.ok.inj h.2)
    exact .read hignores hswap hread
  · obtain ⟨rfl, -⟩ := Prod.mk.inj (Except.ok.inj h)
    exact .invalidate hswap (Bool.eq_false_iff.2 hread) hinvalidate
  · simp only [write, check_eq_ok] at h
    obtain ⟨rfl, -⟩ := Prod.mk.inj (Except.ok.inj h.2)
    exact .write hignores hswap (Bool.eq_false_iff.2 hread) (Bool.eq_false_iff.2 hinvalidate) hwrite

theorem does_of_access (h : mem.access pkt = .ok (mem', pkt')) : mem.Does pkt mem' := by
  rw [access] at h
  by_cases hignores : ignores pkt = true
  · rw [if_pos hignores] at h
    obtain ⟨rfl, -⟩ := Prod.mk.inj (Except.ok.inj h)
    exact .ignored hignores
  · rw [if_neg hignores, check_eq_ok] at h
    obtain ⟨⟨mem'', pkt''⟩, hse, hre⟩ := bind_eq_ok.1 h.2
    obtain ⟨rfl, -⟩ := Prod.mk.inj (Except.ok.inj hre)
    exact does_of_serve (Bool.eq_false_iff.2 hignores) hse

/-- **Nothing else changes.**  A byte that an access changes is one of its packet, and the access is
one that stores. -/
theorem access_byte {a : Addr} (h : mem.access pkt = .ok (mem', pkt'))
    (hby : mem'.byte a ≠ mem.byte a) : mem.stores pkt = true ∧ a ∈ pkt.addrs := by
  have hf : ∀ {host : Host} (bytes : List UInt8), mem.pmemAddr = some host → bytes.length = pkt.size →
      mem'.pmemAddr = some (writeBytes host pkt.addr bytes) → a ∈ pkt.addrs := by
    intro host bytes hhost hleng hh'
    by_contra ha
    refine hby ?_
    rw [byte, byte, hhost, hh', Option.map_some, Option.map_some, writeBytes_of_ne fun i hi heq =>
      ha (List.mem_map.2 ⟨i, List.mem_range.2 (hleng ▸ hi), heq⟩)]
  cases does_of_access h with
  | ignored | nullAtomic | invalidate | read => exact absurd rfl hby
  | atomic host hignores hswap hatomic hhost =>
    refine ⟨by simp [stores, hignores, hhost, hswap, hatomic], hf _ hhost ?_ rfl⟩
    rw [pkt.length_atomicOp, length_readBytes]
  | swap host hignores hswap hhost =>
    by_cases ho : overwriteMem host pkt = true
    · refine ⟨by simp [stores, hignores, hhost, hswap, ho], hf pkt.data hhost rfl ?_⟩
      rw [if_pos ho]
    · refine absurd ?_ hby
      rw [byte, byte, hhost, if_neg ho]
  | write hignores hswap hread hinvalidate hwrite =>
    by_cases hal : (writeOK mem.lockedAddrList pkt).allowStore = true
    · rcases hhost : mem.pmemAddr with - | host
      · simp [byte, hhost] at hby
      · refine ⟨?_, hf pkt.data hhost rfl ?_⟩
        · simp [stores, hignores, hhost, hswap, hread, hinvalidate, hwrite, hal]
        · rw [if_pos hal, hhost, Option.map_some]
    · refine absurd ?_ hby
      rw [byte, byte, if_neg hal]

/-- A write of one byte. -/
theorem access_byte_write : 16#64 ∈ (Packet.ofRequest .writeReq { paddr := 16, contextId := 0 } [1]).addrs :=
  (access_byte (show access ⟨0, 0xff, some fun _ => 0, []⟩ _ = .ok _ from rfl) (by decide)).2

end Memory

end GuardianCouncil.AbstractMemory
