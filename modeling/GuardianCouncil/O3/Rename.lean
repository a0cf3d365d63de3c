import Mathlib.Data.Fintype.Sigma
import GuardianCouncil.Lib.Fallible
import GuardianCouncil.Lib.Undo

/-!
# Register renaming in the out-of-order core

The rename stage gives every destination of an instruction a fresh physical register
(`renameDestRegs`), keeps what it changed in a history buffer, and gives registers back on two
paths: when an instruction has committed, the register its destination had before
(`removeFromHistory`), and when it is squashed, the register it was given (`doSquash`).  The free
lists are shared by all threads; the rename map and the history buffer are a thread's own.  The
commit stage keeps a map of its own, which it updates as instructions retire (`commitHead`).

Physical registers are numbered through the three classes, integer registers first; a misc register
is given a number beyond them all and is never renamed.  The integer zero register is not renamed
either.  Architectural registers have a *unified* index, in which the classes follow one another,
and a *relative* one within their class.

A failed assertion, and an index outside of the map it is used with, is a `Failure`.
-/

namespace GuardianCouncil.O3

open Function

/-! ## Registers -/

/-- The classes of registers that are renamed. -/
inductive RenamedClass
  | int
  | float
  | cc
deriving DecidableEq

/-- The classes of registers. -/
inductive RegClass
  | renamed (c : RenamedClass)
  | misc
deriving DecidableEq

/-- What the simulator stops at. -/
inductive Failure
  /-- `regIdxToClass`: the index is not below `Max_Reg_Index`. -/
  | badRegIndex
  /-- An index outside of a rename map. -/
  | outOfMap
  /-- `SimpleFreeList::getReg`: no register is free. -/
  | noFreeReg
  /-- `SimpleRenameMap::rename`: the zero register is mapped to another register. -/
  | zeroRegMoved
  /-- A physical register of another class. -/
  | wrongClass
  /-- `UnifiedRenameMap::setEntry`: a misc register is mapped to another register. -/
  | miscMoved
  /-- `ROB::retireHead`: there is no instruction. -/
  | emptyROB
deriving DecidableEq

/-- The register constants of an instruction set. -/
structure Isa where
  /-- `NumIntRegs`, `NumFloatRegs` and `NumCCRegs`. -/
  numRegs : RenamedClass → Nat
  numMiscRegs : Nat
  fpRegBase : Nat
  zeroReg : Nat
  /-- The integer registers are below the floating-point ones. -/
  numIntRegs_le : numRegs .int ≤ fpRegBase
  /-- Unified indices fit into a `RegIndex`. -/
  index_lt : fpRegBase + numRegs .float + numRegs .cc + numMiscRegs < 2 ^ 16

namespace Isa

variable (isa : Isa)

/-- `CC_Reg_Base`. -/
def ccRegBase : Nat := isa.fpRegBase + isa.numRegs .float

/-- `Misc_Reg_Base`. -/
def miscRegBase : Nat := isa.ccRegBase + isa.numRegs .cc

/-- `Max_Reg_Index`. -/
def maxRegIndex : Nat := isa.miscRegBase + isa.numMiscRegs

/-- The unified index of the first register of a class. -/
def regBase : RegClass → Nat
  | .renamed .int => 0
  | .renamed .float => isa.fpRegBase
  | .renamed .cc => isa.ccRegBase
  | .misc => isa.miscRegBase

/-- The class of a unified index, and the index within the class. -/
def regIdxToClass (regIdx : Nat) : Except Failure (RegClass × Nat) :=
  if regIdx < isa.maxRegIndex then
    if regIdx < isa.fpRegBase then .ok (.renamed .int, regIdx)
    else if regIdx < isa.ccRegBase then .ok (.renamed .float, regIdx - isa.fpRegBase)
    else if regIdx < isa.miscRegBase then .ok (.renamed .cc, regIdx - isa.ccRegBase)
    else .ok (.misc, regIdx - isa.miscRegBase)
  else .error .badRegIndex

/-- The index that the map of a class never renames, as `UnifiedRenameMap::init` is told.  It is an
index outside of the map for the classes without a zero register. -/
def zeroRegOf : RenamedClass → Nat
  | .int => isa.zeroReg
  | .float => isa.numRegs .float + 1
  | .cc => 2 ^ 16 - 1

/-- An architectural register that is renamed. -/
abbrev ArchReg : Type := (c : RenamedClass) × Fin (isa.numRegs c)

/-- The register of a class with a relative index. -/
def archReg (c : RenamedClass) (rel : Nat) : Except Failure isa.ArchReg :=
  if h : rel < isa.numRegs c then .ok ⟨c, rel, h⟩ else .error .outOfMap

def unified (r : isa.ArchReg) : Nat := r.2 + isa.regBase (.renamed r.1)

end Isa

/-- The physical registers, by the number of each class. -/
structure PhysRegFile where
  numPhysRegs : RenamedClass → Nat

namespace PhysRegFile

variable (regFile : PhysRegFile)

/-- The first physical register of a class: 0, `baseFloatRegIndex` and `baseCCRegIndex`. -/
def base : RenamedClass → Nat
  | .int => 0
  | .float => regFile.numPhysRegs .int
  | .cc => regFile.numPhysRegs .int + regFile.numPhysRegs .float

/-- `totalNumPhysRegs`. -/
def totalNumRegs : Nat := regFile.base .cc + regFile.numPhysRegs .cc

/-- `isIntPhysReg`, `isFloatPhysReg` and `isCCPhysReg`. -/
def isPhysReg (c : RenamedClass) (reg : Nat) : Bool :=
  regFile.base c ≤ reg ∧ reg < regFile.base c + regFile.numPhysRegs c

end PhysRegFile

/-- A core: its instruction set, its physical registers and its threads. -/
structure Config where
  isa : Isa
  regFile : PhysRegFile
  threads : Nat
  /-- The constructor of the core asserts that there are enough registers. -/
  enough : ∀ c, threads * isa.numRegs c ≤ regFile.numPhysRegs c

variable {cfg : Config}

/-- The free registers of each class. -/
abbrev UnifiedFreeList : Type := RenamedClass → List Nat

/-- The physical register of each architectural one that is renamed. -/
abbrev RenameMap (cfg : Config) : Type := cfg.isa.ArchReg → Nat

/-- `SimpleFreeList::getReg`. -/
def UnifiedFreeList.getReg (freeList : UnifiedFreeList) (c : RenamedClass) : Except Failure (Nat × UnifiedFreeList) :=
  match freeList c with
  | [] => .error .noFreeReg
  | reg :: rest => .ok (reg, update freeList c rest)

/-- `UnifiedFreeList::addReg`: the register goes to the list of its class. -/
def UnifiedFreeList.addReg (freeList : UnifiedFreeList) (regFile : PhysRegFile)
    (reg : Nat) : Except Failure UnifiedFreeList :=
  if regFile.isPhysReg .int reg then
    .ok (update freeList .int (freeList .int ++ [reg]))
  else if regFile.isPhysReg .float reg then
    .ok (update freeList .float (freeList .float ++ [reg]))
  else if regFile.isPhysReg .cc reg then
    .ok (update freeList .cc (freeList .cc ++ [reg]))
  else .error .wrongClass

/-- The physical register of a misc register. -/
def lookupMisc (cfg : Config) (rel : Nat) : Nat := rel + cfg.regFile.totalNumRegs

/-- `UnifiedRenameMap::setEntry`. -/
def RenameMap.setEntry (map : RenameMap cfg) (archReg : Nat) (physReg : Nat) : Except Failure (RenameMap cfg) := do
  match ← cfg.isa.regIdxToClass archReg with
  | (.renamed c, rel) =>
    if cfg.regFile.isPhysReg c physReg then
      let r ← cfg.isa.archReg c rel
      .ok (update map r physReg)
    else .error .wrongClass
  | (.misc, rel) => if physReg = lookupMisc cfg rel then .ok map else .error .miscMoved

/-! ## The rename stage -/

/-- A renamed destination: its unified index and the physical registers it has now and had
before. -/
structure Renamed where
  archReg : Nat
  newPhysReg : Nat
  prevPhysReg : Nat
deriving DecidableEq

structure RenameHistory extends Renamed where
  instSeqNum : Nat
deriving DecidableEq

/-- What the rename stage works on for a thread. -/
structure Rename (cfg : Config) where
  freeList : UnifiedFreeList
  renameMap : RenameMap cfg
  /-- The renamed destinations, the newest first. -/
  historyBuffer : List RenameHistory

structure Inst where
  seqNum : Nat
  /-- The unified indices of its destinations. -/
  destRegs : List Nat
  /-- `flattenIntIndex`, `flattenFloatIndex` and `flattenCCIndex` of the thread context. -/
  flatten : RenamedClass → Nat → Nat

/-- `SimpleRenameMap::rename`: the new and the previous physical register. -/
def Rename.rename (st : Rename cfg) (r : cfg.isa.ArchReg) : Except Failure ((Nat × Nat) × Rename cfg) :=
  let prevReg := st.renameMap r
  if (r.2 : Nat) ≠ cfg.isa.zeroRegOf r.1 then do
    let (renamedReg, freeList) ← st.freeList.getReg r.1
    .ok ((renamedReg, prevReg), { st with freeList := freeList, renameMap := update st.renameMap r renamedReg })
  else if prevReg = cfg.isa.zeroRegOf r.1 then
    .ok ((cfg.isa.zeroRegOf r.1, prevReg), st)
  else .error .zeroRegMoved

/-- `renameInt`, `renameFloat` and `renameCC`. -/
def Rename.renameRel (st : Rename cfg) (c : RenamedClass) (rel : Nat) : Except Failure ((Nat × Nat) × Rename cfg) := do
  let r ← cfg.isa.archReg c rel
  let (info, st) ← st.rename r
  if cfg.regFile.isPhysReg c info.1 then .ok (info, st) else .error .wrongClass

/-- An iteration of the loop of `renameDestRegs`. -/
def Rename.renameDestReg (inst : Inst) (st : Rename cfg) (destReg : Nat) : Except Failure (Renamed × Rename cfg) := do
  let (cls, rel) ← cfg.isa.regIdxToClass destReg
  let (dest, st) ← (match cls with
    | .renamed c => do
      let flatRel := inst.flatten c rel
      let (info, st) ← st.renameRel c flatRel
      .ok (⟨flatRel + cfg.isa.regBase cls, info.1, info.2⟩, st)
    | .misc =>
      -- A misc register is not flattened, and is given the number it always has.
      .ok (⟨rel + cfg.isa.regBase cls, lookupMisc cfg rel, lookupMisc cfg rel⟩, st))
  .ok (dest, { st with historyBuffer := ⟨dest, inst.seqNum⟩ :: st.historyBuffer })

/-- The destinations of an instruction are renamed one after the other, and recorded with it. -/
def Rename.renameDestRegs (inst : Inst) : List Nat → Rename cfg → Except Failure (List Renamed × Rename cfg)
  | [], st => .ok ([], st)
  | destReg :: rest, st => do
    let (dest, st) ← st.renameDestReg inst destReg
    let (dests, st) ← renameDestRegs inst rest st
    .ok (dest :: dests, st)

/-- The mapping of an entry is undone, if it was a change. -/
def Rename.undoEntry (st : Rename cfg) (entry : RenameHistory) : Except Failure (Rename cfg) :=
  if entry.newPhysReg ≠ entry.prevPhysReg then do
    let renameMap ← st.renameMap.setEntry entry.archReg entry.prevPhysReg
    let freeList ← st.freeList.addReg cfg.regFile entry.newPhysReg
    .ok { st with renameMap := renameMap, freeList := freeList }
  else .ok st

/-- The loop of `doSquash`, from the front of the history buffer. -/
def Rename.squashLoop (squashedSeqNum : Nat) : List RenameHistory → Rename cfg → Except Failure (Rename cfg)
  | [], st => .ok { st with historyBuffer := [] }
  | entry :: rest, st =>
    if entry.instSeqNum > squashedSeqNum then do
      let st ← st.undoEntry entry
      squashLoop squashedSeqNum rest st
    else .ok { st with historyBuffer := entry :: rest }

/-- Undoes the renames of the instructions younger than a number. -/
def Rename.doSquash (st : Rename cfg) (squashedSeqNum : Nat) : Except Failure (Rename cfg) :=
  Rename.squashLoop squashedSeqNum st.historyBuffer st

/-- The previous register of an entry is freed, if it is another one. -/
def Rename.freePrev (st : Rename cfg) (entry : RenameHistory) : Except Failure (Rename cfg) :=
  if entry.newPhysReg ≠ entry.prevPhysReg then do
    let freeList ← st.freeList.addReg cfg.regFile entry.prevPhysReg
    .ok { st with freeList := freeList }
  else .ok st

/-- The loop of `removeFromHistory`, over the history buffer from its back. -/
def Rename.removeLoop (instSeqNum : Nat) : List RenameHistory → Rename cfg → Except Failure (Rename cfg)
  | [], st => .ok { st with historyBuffer := [] }
  | entry :: rest, st =>
    if entry.instSeqNum ≤ instSeqNum then do
      let st ← st.freePrev entry
      removeLoop instSeqNum rest st
    else .ok { st with historyBuffer := (entry :: rest).reverse }

/-- Drops the entries of committed instructions. -/
def Rename.removeFromHistory (st : Rename cfg) (instSeqNum : Nat) : Except Failure (Rename cfg) :=
  match st.historyBuffer.reverse with
  | [] => .ok st
  | oldest :: rest =>
    if oldest.instSeqNum > instSeqNum then .ok st
    else Rename.removeLoop instSeqNum (oldest :: rest) st

/-! ## The core -/

/-- A renamed instruction on its way to commit. -/
structure DynInst where
  seqNum : Nat
  dests : List Renamed
deriving DecidableEq

/-- The map right after an instruction was renamed. -/
structure Snapshot (cfg : Config) where
  seqNum : Nat
  renameMap : RenameMap cfg

/-- What belongs to a thread. -/
structure Thread (cfg : Config) where
  renameMap : RenameMap cfg
  commitRenameMap : RenameMap cfg
  historyBuffer : List RenameHistory
  /-- The instructions that are renamed and neither retired nor squashed, the oldest first. -/
  rob : List DynInst
  /-- The number of the last instruction that retired. -/
  lastCommitted : Option Nat
  /-- History: every instruction that was ever renamed, the youngest first. -/
  renamed : List (Snapshot cfg)
  /-- History: those of them that have not been squashed. -/
  kept : List (Snapshot cfg)

structure State (cfg : Config) where
  freeList : UnifiedFreeList
  thread : Fin cfg.threads → Thread cfg

/-- What the rename stage works on for a thread. -/
def Thread.view (th : Thread cfg) (freeList : UnifiedFreeList) : Rename cfg where
  freeList := freeList
  renameMap := th.renameMap
  historyBuffer := th.historyBuffer

/-- The thread after the rename stage has worked for it. -/
def Thread.setRename (th : Thread cfg) (st : Rename cfg) : Thread cfg :=
  { th with
    renameMap := st.renameMap
    historyBuffer := st.historyBuffer }

/-- The renamed destinations of a retiring instruction enter the map of the commit stage. -/
def commitDests : List Renamed → RenameMap cfg → Except Failure (RenameMap cfg)
  | [], map => .ok map
  | dest :: rest, map => do
    let map ← map.setEntry dest.archReg dest.newPhysReg
    commitDests rest map

/-- What happens to a thread. -/
inductive Op
  | rename (inst : Inst)
  /-- The oldest instruction retires. -/
  | commitHead
  /-- The rename stage is told the number of a committed instruction. -/
  | removeFromHistory (instSeqNum : Nat)
  /-- The instructions younger than a number are squashed. -/
  | squash (squashedSeqNum : Nat)

/-- One operation on a thread, with the free lists of the core. -/
def Thread.exec (freeList : UnifiedFreeList) (th : Thread cfg) : Op → Except Failure (UnifiedFreeList × Thread cfg)
  | .rename inst => do
    let (dests, st) ← Rename.renameDestRegs inst inst.destRegs (th.view freeList)
    let snapshot : Snapshot cfg := ⟨inst.seqNum, st.renameMap⟩
    .ok (st.freeList,
      { th.setRename st with
        rob := th.rob ++ [⟨inst.seqNum, dests⟩]
        renamed := snapshot :: th.renamed
        kept := snapshot :: th.kept })
  | .commitHead =>
    match th.rob with
    | [] => .error .emptyROB
    | head :: rest => do
      let map ← commitDests head.dests th.commitRenameMap
      .ok (freeList,
        { th with
          commitRenameMap := map
          rob := rest
          lastCommitted := some head.seqNum })
  | .removeFromHistory instSeqNum => do
    let st ← (th.view freeList).removeFromHistory instSeqNum
    .ok (st.freeList, th.setRename st)
  | .squash squashedSeqNum => do
    let st ← (th.view freeList).doSquash squashedSeqNum
    .ok (st.freeList,
      { th.setRename st with
        rob := th.rob.filter fun inst => inst.seqNum ≤ squashedSeqNum
        kept := th.kept.filter fun snapshot => snapshot.seqNum ≤ squashedSeqNum })

/-- One operation of the core, on one of its threads. -/
def exec (s : State cfg) (op : Fin cfg.threads × Op) : Except Failure (State cfg) := do
  let (freeList, th) ← (s.thread op.1).exec s.freeList op.2
  .ok { freeList := freeList, thread := update s.thread op.1 th }

/-! ## The constructor of the core -/

def initFreeList (regFile : PhysRegFile) : UnifiedFreeList :=
  fun c => List.range' (regFile.base c) (regFile.numPhysRegs c)

/-- A register of a thread is given a physical one, in both of its maps. -/
def State.setEntries (s : State cfg) (tid : Fin cfg.threads) (r : cfg.isa.ArchReg) (physReg : Nat) : State cfg :=
  { s with
    thread := update s.thread tid
      { s.thread tid with
        renameMap := update (s.thread tid).renameMap r physReg
        commitRenameMap := update (s.thread tid).commitRenameMap r physReg } }

/-- A register of a thread is given the next free physical register. -/
def State.bindReg (s : State cfg) (tid : Fin cfg.threads) (r : cfg.isa.ArchReg) : Except Failure (State cfg) := do
  let (physReg, freeList) ← s.freeList.getReg r.1
  .ok { s.setEntries tid r physReg with freeList := freeList }

/-- The registers of a class, in the order in which they are given physical ones. -/
def Isa.regsOf (isa : Isa) (c : RenamedClass) : List isa.ArchReg :=
  (List.finRange (isa.numRegs c)).map fun i => ⟨c, i⟩

/-- The registers of a thread, in the same order. -/
def Isa.allRegs (isa : Isa) : List isa.ArchReg :=
  isa.regsOf .int ++ isa.regsOf .float ++ isa.regsOf .cc

/-- Before any register is given a physical one. -/
def State.blank (cfg : Config) : State cfg where
  freeList := initFreeList cfg.regFile
  thread := fun _ =>
    { renameMap := fun _ => 0
      commitRenameMap := fun _ => 0
      historyBuffer := []
      rob := []
      lastCommitted := none
      renamed := []
      kept := [] }

/-- The threads' registers in the order in which they are given physical ones: thread by thread,
class by class. -/
def bindOrder (cfg : Config) : List (Fin cfg.threads × cfg.isa.ArchReg) :=
  (List.finRange cfg.threads).flatMap fun tid => cfg.isa.allRegs.map fun r => (tid, r)

/-- The registers of a list are given physical ones. -/
def State.bindRegs : List (Fin cfg.threads × cfg.isa.ArchReg) → State cfg → Except Failure (State cfg)
  | [], s => .ok s
  | (tid, r) :: rest, s => do
    let s ← s.bindReg tid r
    bindRegs rest s

def init (cfg : Config) : Except Failure (State cfg) :=
  State.bindRegs (bindOrder cfg) (State.blank cfg)

end GuardianCouncil.O3
