import GuardianCouncil.Lib.Fallible

/-!
# Waking instructions up

The instruction queue keeps for each physical register the chain of the instructions that wait for it (`dependGraph`) and
whether its value has been produced (`regScoreboard`).  An instruction that enters is put once on the chain of a register
for each source that is not ready.  When the producer of a register completes, the chain is emptied, and each instruction
on it is told that one more of its sources is ready, but not which one.  When it has been told so as often as it has
sources, it can issue.

A squash removes an instruction from the chains of those sources that were not ready when it entered; only these are
marked in the instruction.

Instructions are known by their sequence numbers.  What the memory dependence unit does with an instruction whose
registers are ready is not modelled: both ways of becoming ready, on a ready list and in that unit, are noted in `ready`.
-/

namespace GuardianCouncil.IQ

open Function

abbrev InstSeqNum := ℕ
abbrev ThreadID := ℕ
abbrev PhysRegIndex := ℕ

inductive Fault
  /-- `addToProducers`: "Dependency graph %i not empty!". -/
  | graphNotEmpty
  /-- `DependencyGraph::remove`: the end of the chain is reached. -/
  | notOnChain
  /-- `scheduleNonSpec`: there is no such instruction. -/
  | notNonSpec
  /-- `doSquash`: a non-speculative instruction is gone, and has not faulted. -/
  | nonSpecGone
deriving DecidableEq

structure DynInst where
  threadNumber : ThreadID := 0
  /-- The source registers, each with whether it is marked as ready. -/
  srcRegs : List (PhysRegIndex × Bool) := []
  destRegs : List PhysRegIndex := []
  /-- How many sources are ready, marked or not. -/
  readyRegs : ℕ := 0
  canIssue : Bool := false
  isIssued : Bool := false
  isMemRef : Bool := false
  isLoad : Bool := false
  isStore : Bool := false
  isStoreConditional : Bool := false
  isMemBarrier : Bool := false
  isWriteBarrier : Bool := false
  isNonSpeculative : Bool := false
  memOpDone : Bool := false
  isCompleted : Bool := false
  hasFault : Bool := false
  isSquashedInIQ : Bool := false
deriving DecidableEq

namespace DynInst

variable (inst : DynInst)

def numSrcRegs : ℕ := inst.srcRegs.length

def markSrcRegReady : DynInst :=
  { inst with
    readyRegs := inst.readyRegs + 1
    canIssue := inst.canIssue || inst.readyRegs + 1 == inst.numSrcRegs }

/-- `markSrcRegReady(src_idx)`. -/
def markSrcRegReadyAt (src_idx : ℕ) : DynInst :=
  markSrcRegReady { inst with srcRegs := inst.srcRegs.modify src_idx fun src => (src.1, true) }

/-- The condition under which `doSquash` removes the instruction from the chains. -/
def isOnChains : Bool :=
  let is_acq_rel := inst.isMemBarrier && (inst.isLoad || inst.isStore && !inst.isStoreConditional)
  is_acq_rel || !inst.isNonSpeculative && !inst.isStoreConditional && !inst.isMemBarrier && !inst.isWriteBarrier

end DynInst

/-- `DependencyEntry`: the head of the list of a register. -/
structure DepEntry where
  inst : Option InstSeqNum := none
  chain : List InstSeqNum := []

structure InstructionQueue where
  numPhysRegs : ℕ
  insts : InstSeqNum → DynInst := fun _ => {}
  instList : ThreadID → List InstSeqNum := fun _ => []
  dependGraph : PhysRegIndex → DepEntry := fun _ => {}
  regScoreboard : PhysRegIndex → Bool := fun _ => false
  nonSpecInsts : List InstSeqNum := []
  /-- The instructions that were found ready, the latest at the end. -/
  ready : List InstSeqNum := []

namespace InstructionQueue

variable (q : InstructionQueue)

def setInst (seq : InstSeqNum) (inst : DynInst) : InstructionQueue :=
  { q with insts := update q.insts seq inst }

def setEntry (reg : PhysRegIndex) (entry : DepEntry) : InstructionQueue :=
  { q with dependGraph := update q.dependGraph reg entry }

/-! ## The dependency graph -/

/-- `DependencyGraph::insert`. -/
def graphInsert (reg : PhysRegIndex) (seq : InstSeqNum) : InstructionQueue :=
  q.setEntry reg { q.dependGraph reg with chain := seq :: (q.dependGraph reg).chain }

/-- The loop of `DependencyGraph::remove`. -/
def removeLoop (seq : InstSeqNum) : List InstSeqNum → Except Fault (List InstSeqNum)
  | [] => .error .notOnChain
  | curr :: next =>
    if curr = seq then .ok next
    else do
      let next ← removeLoop seq next
      .ok (curr :: next)

/-- `DependencyGraph::remove`. -/
def graphRemove (reg : PhysRegIndex) (seq : InstSeqNum) : Except Fault InstructionQueue :=
  match (q.dependGraph reg).chain with
  | [] => .ok q
  | chain => do
    let chain ← removeLoop seq chain
    .ok (q.setEntry reg { q.dependGraph reg with chain := chain })

/-! ## Entering -/

/-- A round of `addToDependents`. -/
def addSrcReg (seq : InstSeqNum) (src_reg_idx : ℕ) : InstructionQueue :=
  match (q.insts seq).srcRegs[src_reg_idx]? with
  | none => q
  | some (src_reg, isReady) =>
    if isReady then q
    else if q.numPhysRegs ≤ src_reg then q
    else if !q.regScoreboard src_reg then q.graphInsert src_reg seq
    else q.setInst seq ((q.insts seq).markSrcRegReadyAt src_reg_idx)

def addToDependents (seq : InstSeqNum) : InstructionQueue :=
  (List.range (q.insts seq).numSrcRegs).foldl (fun q src_reg_idx => q.addSrcReg seq src_reg_idx) q

/-- A round of `addToProducers`. -/
def addDestReg (seq : InstSeqNum) (dest_reg : PhysRegIndex) : Except Fault InstructionQueue :=
  if q.numPhysRegs ≤ dest_reg then .ok q
  else if (q.dependGraph dest_reg).chain ≠ [] then .error .graphNotEmpty
  else .ok { q.setEntry dest_reg { q.dependGraph dest_reg with inst := some seq } with
    regScoreboard := update q.regScoreboard dest_reg false }

def addToProducers (seq : InstSeqNum) : Except Fault InstructionQueue :=
  (q.insts seq).destRegs.foldlM (fun q dest_reg => q.addDestReg seq dest_reg) q

/-- `addIfReady`: the instruction goes on a ready list, or the memory dependence unit is told. -/
def addIfReady (seq : InstSeqNum) : InstructionQueue :=
  if (q.insts seq).canIssue then { q with ready := q.ready ++ [seq] } else q

/-- `MemDepUnit::insert`, which notes whether the registers are ready; an instruction that depends on a store is then not
to issue. -/
def memDepInsert (seq : InstSeqNum) (dependsOnStore : Bool) : InstructionQueue :=
  let q := q.addIfReady seq
  if dependsOnStore then q.setInst seq { q.insts seq with canIssue := false } else q

def enter (seq : InstSeqNum) (inst : DynInst) : InstructionQueue :=
  { q.setInst seq inst with
    instList := update q.instList inst.threadNumber (q.instList inst.threadNumber ++ [seq]) }

def insert (seq : InstSeqNum) (new_inst : DynInst) (dependsOnStore : Bool) : Except Fault InstructionQueue := do
  let q := (q.enter seq new_inst).addToDependents seq
  let q ← q.addToProducers seq
  .ok (if new_inst.isMemRef then q.memDepInsert seq dependsOnStore else q.addIfReady seq)

def insertNonSpec (seq : InstSeqNum) (new_inst : DynInst) : Except Fault InstructionQueue := do
  let q := { q with nonSpecInsts := q.nonSpecInsts ++ [seq] }.enter seq new_inst
  q.addToProducers seq

/-! ## Becoming ready, issuing, completing and leaving -/

def scheduleNonSpec (seq : InstSeqNum) : Except Fault InstructionQueue :=
  if seq ∈ q.nonSpecInsts then
    let q := (q.setInst seq { q.insts seq with canIssue := true }).addIfReady seq
    .ok { q with nonSpecInsts := q.nonSpecInsts.erase seq }
  else .error .notNonSpec

/-- What `scheduleReadyInsts` does to the instruction that it picks. -/
def issue (seq : InstSeqNum) : InstructionQueue := q.setInst seq { q.insts seq with isIssued := true }

/-- An instruction is taken from a chain. -/
def wake (seq : InstSeqNum) : InstructionQueue :=
  (q.setInst seq (q.insts seq).markSrcRegReady).addIfReady seq

/-- A round of `wakeDependents`: the chain of a register is emptied. -/
def wakeReg (dest_reg : PhysRegIndex) : InstructionQueue :=
  if q.numPhysRegs ≤ dest_reg then q
  else
    let q := (q.dependGraph dest_reg).chain.foldl wake q
    { q.setEntry dest_reg { inst := none, chain := [] } with
      regScoreboard := update q.regScoreboard dest_reg true }

def wakeDependents (completed_inst : InstSeqNum) : InstructionQueue :=
  let q := if (q.insts completed_inst).isMemRef then
    q.setInst completed_inst { q.insts completed_inst with memOpDone := true } else q
  (q.insts completed_inst).destRegs.foldl wakeReg q

/-- The instructions of a thread up to a number leave. -/
def commit (seq : InstSeqNum) (tid : ThreadID) : InstructionQueue :=
  { q with instList := update q.instList tid ((q.instList tid).dropWhile (· ≤ seq)) }

/-! ## Squashing -/

/-- The loop of `doSquash` over the sources of an instruction. -/
def unlink (seq : InstSeqNum) : List (PhysRegIndex × Bool) → InstructionQueue → Except Fault InstructionQueue
  | [], q => .ok q
  | (src_reg, isReady) :: srcs, q =>
    if !isReady ∧ src_reg < q.numPhysRegs then do
      let q ← q.graphRemove src_reg seq
      unlink seq srcs q
    else unlink seq srcs q

/-- A non-speculative instruction is squashed. -/
def removeNonSpec (seq : InstSeqNum) : Except Fault InstructionQueue :=
  let inst := q.insts seq
  if inst.isStoreConditional ∧ inst.isCompleted then .ok q
  else if seq ∈ q.nonSpecInsts then .ok { q with nonSpecInsts := q.nonSpecInsts.erase seq }
  else if inst.hasFault ∨ inst.isMemRef then .ok q
  else .error .nonSpecGone

/-- The instruction is removed from what it waits in. -/
def withdraw (seq : InstSeqNum) : Except Fault InstructionQueue :=
  if (q.insts seq).isOnChains then unlink seq (q.insts seq).srcRegs q else q.removeNonSpec seq

/-- What `doSquash` does with one instruction, before it is removed from the list. -/
def squashInst (seq : InstSeqNum) : Except Fault InstructionQueue :=
  if !(q.insts seq).isIssued ∨ ((q.insts seq).isMemRef ∧ !(q.insts seq).memOpDone) then do
    let q ← q.withdraw seq
    .ok (q.setInst seq { q.insts seq with isSquashedInIQ := true, isIssued := true })
  else .ok q

/-- The loop of `doSquash`, from the youngest instruction.  The instructions that stay and those that are removed are
returned with the queue, the youngest first. -/
def squashLoop (tid : ThreadID) (squashedSeqNum : InstSeqNum) : List InstSeqNum → InstructionQueue →
    Except Fault (List InstSeqNum × List InstSeqNum × InstructionQueue)
  | [], q => .ok ([], [], q)
  | seq :: older, q =>
    if seq ≤ squashedSeqNum then .ok (seq :: older, [], q)
    else if (q.insts seq).threadNumber ≠ tid ∨ (q.insts seq).isSquashedInIQ then do
      let (stay, removed, q) ← squashLoop tid squashedSeqNum older q
      .ok (seq :: stay, removed, q)
    else do
      let q ← q.squashInst seq
      let (stay, removed, q) ← squashLoop tid squashedSeqNum older q
      .ok (stay, seq :: removed, q)

/-- `doSquash`, with the instructions that it removes. -/
def doSquash (tid : ThreadID) (squashedSeqNum : InstSeqNum) : Except Fault (InstructionQueue × List InstSeqNum) := do
  let (stay, removed, q) ← squashLoop tid squashedSeqNum (q.instList tid).reverse q
  .ok ({ q with instList := update q.instList tid stay.reverse }, removed)

end InstructionQueue

/-! ## Runs -/

inductive Event
  /-- An instruction that writes these registers has entered, through `insert` or not. -/
  | inserted (seq : InstSeqNum) (throughInsert : Bool) (destRegs : List PhysRegIndex)
  | completed (seq : InstSeqNum)
  | squashed (seq : InstSeqNum)
deriving DecidableEq

inductive Op
  | insert (seq : InstSeqNum) (inst : DynInst) (dependsOnStore : Bool)
  | insertNonSpec (seq : InstSeqNum) (inst : DynInst)
  | scheduleNonSpec (seq : InstSeqNum)
  | issue (seq : InstSeqNum)
  | wakeDependents (seq : InstSeqNum)
  | doSquash (tid : ThreadID) (squashedSeqNum : InstSeqNum)
  | commit (seq : InstSeqNum) (tid : ThreadID)

/-- A queue, and what has happened to instructions so far, the latest first. -/
structure Run where
  queue : InstructionQueue
  log : List Event := []

def Run.step (run : Run) : Op → Except Fault Run
  | .insert seq inst dependsOnStore => do
    let q ← run.queue.insert seq inst dependsOnStore
    .ok ⟨q, .inserted seq true inst.destRegs :: run.log⟩
  | .insertNonSpec seq inst => do
    let q ← run.queue.insertNonSpec seq inst
    .ok ⟨q, .inserted seq false inst.destRegs :: run.log⟩
  | .scheduleNonSpec seq => do
    let q ← run.queue.scheduleNonSpec seq
    .ok { run with queue := q }
  | .issue seq => .ok { run with queue := run.queue.issue seq }
  | .wakeDependents seq => .ok ⟨run.queue.wakeDependents seq, .completed seq :: run.log⟩
  | .doSquash tid squashedSeqNum => do
    let (q, removed) ← run.queue.doSquash tid squashedSeqNum
    .ok ⟨q, removed.map .squashed ++ run.log⟩
  | .commit seq tid => .ok { run with queue := run.queue.commit seq tid }

end GuardianCouncil.IQ
