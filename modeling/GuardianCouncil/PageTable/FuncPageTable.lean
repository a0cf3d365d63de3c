import GuardianCouncil.Lib.Fallible
import GuardianCouncil.Lib.FrontCache
import Mathlib.Algebra.GroupWithZero.Nat

/-!
# The functional page table

`FuncPageTable` maps virtual pages to entries of the ISA's TLB, in a hash map with the last three
entries kept in front of it.  `map`, `unmap` and `remap` go through a region page by page; each of them
keeps the cache up to date for the page it changes, and `lookup` fills it.  `TlbEntryOps` is what it uses of the
ISA's entries, and `armEntry` what the ARM ISA provides.
-/

namespace GuardianCouncil.PageTable

abbrev Addr := BitVec 64

/-- `TheISA::TlbEntry`, as the page table uses it.  An entry keeps its physical page when it is moved. -/
structure TlbEntryOps (Entry : Type) where
  /-- The constructor, from process, virtual and physical address, uncacheable, read-only. -/
  make : BitVec 64 → Addr → Addr → Bool → Bool → Entry
  /-- The default constructor. -/
  blank : Entry
  updateVaddr : Entry → Addr → Entry
  pageStart : Entry → Addr
  /-- The start of the page that a physical address is in. -/
  frame : Addr → Addr
  pageStart_make : ∀ pid vaddr paddr uncacheable readOnly,
    pageStart (make pid vaddr paddr uncacheable readOnly) = frame paddr
  pageStart_updateVaddr : ∀ entry vaddr, pageStart (updateVaddr entry vaddr) = pageStart entry

/-- The fields of the ARM entry that the constructor takes from its arguments. -/
structure ArmEntry where
  pfn : Addr
  vpn : Addr
  asid : BitVec 16
  ap : BitVec 8
  valid : Bool
  nonCacheable : Bool
deriving DecidableEq

def armEntry : TlbEntryOps ArmEntry where
  make pid vaddr paddr uncacheable readOnly :=
    { pfn := paddr >>> 12, vpn := vaddr >>> 12, asid := pid.setWidth 16,
      ap := if readOnly then 3 else 0, valid := true, nonCacheable := uncacheable }
  blank := { pfn := 0, vpn := 0, asid := 0, ap := 0, valid := false, nonCacheable := false }
  updateVaddr entry vaddr := { entry with vpn := vaddr >>> 12 }
  pageStart entry := entry.pfn <<< 12
  frame paddr := paddr >>> 12 <<< 12
  pageStart_make _ _ _ _ _ := rfl
  pageStart_updateVaddr _ _ := rfl

structure Config (Entry : Type) extends TlbEntryOps Entry where
  pid : BitVec 64
  /-- The page size is a power of two, as the constructor asserts. -/
  pageShift : Nat
  pageShift_lt : pageShift < 64

/-- The page table of a process, with the ARM ISA's `PageBytes`. -/
def Config.arm (pid : BitVec 64) : Config ArmEntry :=
  { armEntry with pid := pid, pageShift := 12, pageShift_lt := by decide }

namespace Config

variable {Entry : Type} (cfg : Config Entry)

def pageSize : Addr := BitVec.twoPow 64 cfg.pageShift

/-- `mask(floorLog2(pageSize))`. -/
def offsetMask : Addr := cfg.pageSize - 1

def pageAlign (a : Addr) : Addr := a &&& ~~~cfg.offsetMask

def pageOffset (a : Addr) : Addr := a &&& cfg.offsetMask

/-- How often the loop `for (; size > 0; size -= pageSize)` runs. -/
def numPages (size : Int64) : Nat := (size.toInt.toNat + 2 ^ cfg.pageShift - 1) / 2 ^ cfg.pageShift

/-- The address `a` after `i` rounds of `a += pageSize`. -/
def page (a : Addr) (i : Nat) : Addr := a + BitVec.ofNat 64 (i * 2 ^ cfg.pageShift)

end Config

structure State (Entry : Type) where
  pTable : Addr → Option Entry
  /-- The valid entries of `pTableCache`; an entry that is not valid is `none`. -/
  pTableCache : FrontCache.Slots Addr Entry

def State.init (Entry : Type) : State Entry := ⟨fun _ => none, [none, none, none]⟩

inductive Fault where
  | assertion
  /-- `FuncPageTable::allocate: addr already mapped`. -/
  | alreadyMapped (vaddr : Addr)
deriving DecidableEq

def Clobber : BitVec 64 := 1
def Uncacheable : BitVec 64 := 4
def ReadOnly : BitVec 64 := 8

namespace State

variable {Entry : Type} (cfg : Config Entry) (s : State Entry)

def updateCache (vaddr : Addr) (entry : Entry) : State Entry :=
  { s with pTableCache := FrontCache.push vaddr entry s.pTableCache }

def eraseCacheEntry (vaddr : Addr) : State Entry :=
  { s with pTableCache := FrontCache.erase vaddr s.pTableCache }

/-- `pTable[vaddr] = entry`, or `pTable.erase(vaddr)`. -/
def setTable (vaddr : Addr) (entry : Option Entry) : State Entry :=
  { s with pTable := Function.update s.pTable vaddr entry }

/-- One round of `map`. -/
def mapPage (flags : BitVec 64) (vaddr paddr : Addr) : Except Fault (State Entry) :=
  if flags &&& Clobber = 0 ∧ (s.pTable vaddr).isSome then .error (.alreadyMapped vaddr)
  else
    let entry := cfg.make cfg.pid vaddr paddr (flags &&& Uncacheable ≠ 0) (flags &&& ReadOnly ≠ 0)
    .ok (((s.setTable vaddr (some entry)).eraseCacheEntry vaddr).updateCache vaddr entry)

def map (vaddr paddr : Addr) (size : Int64) (flags : BitVec 64) : Except Fault (State Entry) :=
  if cfg.pageOffset vaddr ≠ 0 then .error .assertion
  else (List.range (cfg.numPages size)).foldlM
    (fun s i => s.mapPage cfg flags (cfg.page vaddr i) (cfg.page paddr i)) s

/-- One round of `remap`.  The destination is read again after the source has been erased. -/
def remapPage (vaddr newVaddr : Addr) : Except Fault (State Entry) :=
  match s.pTable vaddr with
  | none => .error .assertion
  | some moved =>
    let s := ((s.setTable newVaddr (some moved)).setTable vaddr none).eraseCacheEntry vaddr
    let entry := cfg.updateVaddr ((s.pTable newVaddr).getD cfg.blank) newVaddr
    .ok ((s.setTable newVaddr (some entry)).updateCache newVaddr entry)

def remap (vaddr : Addr) (size : Int64) (newVaddr : Addr) : Except Fault (State Entry) :=
  if cfg.pageOffset vaddr ≠ 0 then .error .assertion
  else if cfg.pageOffset newVaddr ≠ 0 then .error .assertion
  else (List.range (cfg.numPages size)).foldlM
    (fun s i => s.remapPage cfg (cfg.page vaddr i) (cfg.page newVaddr i)) s

/-- One round of `unmap`. -/
def unmapPage (vaddr : Addr) : Except Fault (State Entry) :=
  if (s.pTable vaddr).isNone then .error .assertion
  else .ok ((s.setTable vaddr none).eraseCacheEntry vaddr)

def unmap (vaddr : Addr) (size : Int64) : Except Fault (State Entry) :=
  if cfg.pageOffset vaddr ≠ 0 then .error .assertion
  else (List.range (cfg.numPages size)).foldlM (fun s i => s.unmapPage (cfg.page vaddr i)) s

def lookup (vaddr : Addr) : Option Entry × State Entry :=
  let pageAddr := cfg.pageAlign vaddr
  match FrontCache.find pageAddr s.pTableCache with
  | some entry => (some entry, s)
  | none =>
    match s.pTable pageAddr with
    | none => (none, s)
    | some entry => (some entry, s.updateCache pageAddr entry)

/-- `PageTableBase::translate`. -/
def translate (vaddr : Addr) : Option Addr × State Entry :=
  let (entry, s) := s.lookup cfg vaddr
  (entry.map fun entry => cfg.pageOffset vaddr + cfg.pageStart entry, s)

end State

/-! ## Calls -/

inductive Op where
  | map (vaddr paddr : Addr) (size : Int64) (flags : BitVec 64)
  | remap (vaddr : Addr) (size : Int64) (newVaddr : Addr)
  | unmap (vaddr : Addr) (size : Int64)
  | lookup (vaddr : Addr)
  | translate (vaddr : Addr)

def State.exec {Entry : Type} (cfg : Config Entry) (s : State Entry) : Op → Except Fault (State Entry)
  | .map vaddr paddr size flags => s.map cfg vaddr paddr size flags
  | .remap vaddr size newVaddr => s.remap cfg vaddr size newVaddr
  | .unmap vaddr size => s.unmap cfg vaddr size
  | .lookup vaddr => .ok (s.lookup cfg vaddr).2
  | .translate vaddr => .ok (s.translate cfg vaddr).2

end GuardianCouncil.PageTable
