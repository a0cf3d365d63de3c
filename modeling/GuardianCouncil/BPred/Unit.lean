import Mathlib.Data.Nat.Notation
import Mathlib.Logic.Function.Basic

/-!
# The branch prediction unit

`predict` asks a direction predictor whether a branch is taken and looks the target up: for a return in the return address
stack, otherwise in the branch target buffer or, for indirect branches, in the indirect predictor.  What it has done is
recorded, the youngest branch first (`predHist`).

A squash goes through the records of the branches that are younger than a given instruction and undoes what they did.
When a branch turns out to be mispredicted, the younger ones are squashed, and its own record is repaired.

What the target buffer and the indirect predictor say is given with the branch.  It is the unit of one thread.
-/

namespace GuardianCouncil.BPred

abbrev Addr := ℕ

/-! ## The return address stack -/

/-- The stack is a ring of entries.  The one at `tos` is its top. -/
structure ReturnAddrStack (P : Type) where
  numEntries : ℕ
  usedEntries : ℕ
  tos : ℕ
  addrStack : ℕ → P

namespace ReturnAddrStack

variable {P : Type} (ras : ReturnAddrStack P)

def top : P := ras.addrStack ras.tos

def incrTos : ℕ := if ras.tos + 1 = ras.numEntries then 0 else ras.tos + 1

def decrTos : ℕ := if ras.tos = 0 then ras.numEntries - 1 else ras.tos - 1

def push (return_addr : P) : ReturnAddrStack P :=
  { ras with
    tos := ras.incrTos
    addrStack := Function.update ras.addrStack ras.incrTos return_addr
    usedEntries := if ras.usedEntries ≠ ras.numEntries then ras.usedEntries + 1 else ras.usedEntries }

def pop : ReturnAddrStack P :=
  { ras with
    usedEntries := if 0 < ras.usedEntries then ras.usedEntries - 1 else ras.usedEntries
    tos := ras.decrTos }

def restore (top_entry_idx : ℕ) (restored : P) : ReturnAddrStack P :=
  { ras with
    tos := top_entry_idx
    addrStack := Function.update ras.addrStack top_entry_idx restored }

end ReturnAddrStack

/-! ## The direction predictor -/

/-- A direction predictor with states `σ` and records `H`, which draws random numbers `ρ` when it is updated. -/
structure Direction (σ H ρ : Type) where
  lookup : σ → Addr → Bool × H × σ
  uncondBranch : σ → Addr → H × σ
  btbUpdate : σ → Addr → H → σ
  /-- The branch, whether it was taken, its record, and whether it was mispredicted. -/
  update : ρ → σ → Addr → Bool → H → Bool → σ
  squash : σ → H → σ

/-! ## The unit -/

/-- A branch, with what is found out about its target. -/
structure Branch (P : Type) where
  seqNum : ℕ
  pc : P
  instAddr : Addr
  isUncondCtrl : Bool := false
  isCall : Bool := false
  isReturn : Bool := false
  isDirectCtrl : Bool := true
  /-- The branch target buffer, or the indirect predictor, has a target. -/
  targetKnown : Bool := true

structure PredictorHistory (P H : Type) where
  seqNum : ℕ
  pc : Addr
  bpHistory : H
  RASTarget : P
  RASIndex : ℕ := 0
  predTaken : Bool
  usedRAS : Bool := false
  pushedRAS : Bool := false
  wasCall : Bool := false
  wasReturn : Bool := false
  wasIndirect : Bool := false

def PredictorHistory.init {P H : Type} [Inhabited P] (seq_num : ℕ) (instPC : Addr) (pred_taken : Bool)
    (bp_history : H) : PredictorHistory P H :=
  { seqNum := seq_num, pc := instPC, bpHistory := bp_history, RASTarget := default, predTaken := pred_taken }

inductive Fault
  /-- `assert(pred_hist.front().seqNum == squashed_sn)`. -/
  | assertion
deriving DecidableEq

structure BPredUnit (σ H P : Type) where
  useIndirect : Bool
  dir : σ
  RAS : ReturnAddrStack P
  predHist : List (PredictorHistory P H) := []

namespace BPredUnit

variable {σ H ρ P : Type} [Inhabited P] (D : Direction σ H ρ) (u : BPredUnit σ H P)

/-- What `predict` does with a branch that is predicted taken and is no return.  A call is pushed on the stack.  If there
is no target, a conditional call is popped again, and a branch that is no call is predicted not taken after all. -/
def predictTarget (b : Branch P) (record : PredictorHistory P H) : BPredUnit σ H P × PredictorHistory P H × Bool :=
  let direct := b.isDirectCtrl || !u.useIndirect
  let u := { u with RAS := if b.isCall then u.RAS.push b.pc else u.RAS }
  let record := { record with pushedRAS := b.isCall, wasCall := b.isCall, wasIndirect := !direct }
  if b.targetKnown then (u, record, true)
  else if !b.isCall && !b.isReturn then
    ({ u with dir := if direct then D.btbUpdate u.dir b.instAddr record.bpHistory else u.dir }, record, false)
  else if b.isCall && !b.isUncondCtrl then
    ({ u with RAS := u.RAS.pop }, { record with pushedRAS := false }, false)
  else (u, record, false)

/-- The unit and the record of the branch, and whether it is predicted taken. -/
def predictBranch (b : Branch P) : BPredUnit σ H P × PredictorHistory P H × Bool :=
  let (pred_taken, bp_history, dir) :=
    if b.isUncondCtrl then (true, D.uncondBranch u.dir b.instAddr) else D.lookup u.dir b.instAddr
  let u := { u with dir := dir }
  let record := PredictorHistory.init b.seqNum b.instAddr pred_taken bp_history
  if pred_taken then
    if b.isReturn then
      ({ u with RAS := u.RAS.pop },
        { record with wasReturn := true, usedRAS := true, RASIndex := u.RAS.tos, RASTarget := u.RAS.top }, true)
    else predictTarget D u b record
  else (u, if b.isReturn then { record with wasReturn := true } else record, false)

def predict (b : Branch P) : BPredUnit σ H P :=
  let (u, record, _) := u.predictBranch D b
  { u with predHist := record :: u.predHist }

/-- What a squash does with the stack for one record. -/
def undoRAS (ras : ReturnAddrStack P) (record : PredictorHistory P H) : ReturnAddrStack P :=
  if record.usedRAS then ras.restore record.RASIndex record.RASTarget
  else if record.wasCall && record.pushedRAS then ras.pop
  else ras

def squashLoop (squashed_sn : ℕ) : List (PredictorHistory P H) → BPredUnit σ H P → BPredUnit σ H P
  | [], u => { u with predHist := [] }
  | record :: older, u =>
    if record.seqNum > squashed_sn then
      squashLoop squashed_sn older
        { u with RAS := undoRAS u.RAS record, dir := D.squash u.dir record.bpHistory }
    else { u with predHist := record :: older }

/-- `squash(squashed_sn, tid)`. -/
def squash (squashed_sn : ℕ) : BPredUnit σ H P := squashLoop D squashed_sn u.predHist u

/-- What is done with the stack and the record of a branch that was mispredicted. -/
def repair (actually_taken : Bool) (ras : ReturnAddrStack P) (record : PredictorHistory P H) :
    ReturnAddrStack P × PredictorHistory P H :=
  let record := { record with predTaken := actually_taken }
  if actually_taken then
    if record.wasReturn && !record.usedRAS then (ras.pop, { record with usedRAS := true }) else (ras, record)
  else if record.usedRAS then
    (ras.restore record.RASIndex record.RASTarget, { record with usedRAS := false })
  else if record.wasCall && record.pushedRAS then (ras.pop, { record with pushedRAS := false })
  else (ras, record)

/-- `squash(squashed_sn, corrTarget, actually_taken, tid)`. -/
def mispredict (draw : ρ) (squashed_sn : ℕ) (actually_taken : Bool) : Except Fault (BPredUnit σ H P) :=
  let u := u.squash D squashed_sn
  match u.predHist with
  | [] => .ok u
  | record :: older =>
    if record.seqNum ≠ squashed_sn then .error .assertion
    else
      let dir := D.update draw u.dir record.pc actually_taken record.bpHistory true
      let (ras, record) := repair actually_taken u.RAS record
      .ok { u with dir := dir, RAS := ras, predHist := record :: older }

/-- The loop of `update`, over the records from the oldest one. -/
def updateLoop (draws : ℕ → ρ) (done_sn : ℕ) : List (PredictorHistory P H) → BPredUnit σ H P → BPredUnit σ H P
  | [], u => { u with predHist := [] }
  | record :: younger, u =>
    if record.seqNum ≤ done_sn then
      updateLoop draws done_sn younger
        { u with dir := D.update (draws record.seqNum) u.dir record.pc record.predTaken record.bpHistory false }
    else { u with predHist := (record :: younger).reverse }

/-- `update(done_sn, tid)`: the branches up to an instruction are committed. -/
def update (draws : ℕ → ρ) (done_sn : ℕ) : BPredUnit σ H P := updateLoop D draws done_sn u.predHist.reverse u

end BPredUnit

/-! ## Runs -/

inductive Op (P ρ : Type)
  | predict (b : Branch P)
  | squash (squashed_sn : ℕ)
  | mispredict (draw : ρ) (squashed_sn : ℕ) (actually_taken : Bool)
  | update (draws : ℕ → ρ) (done_sn : ℕ)

def BPredUnit.step {σ H ρ P : Type} [Inhabited P] (D : Direction σ H ρ) (u : BPredUnit σ H P) :
    Op P ρ → Except Fault (BPredUnit σ H P)
  | .predict b => .ok (u.predict D b)
  | .squash squashed_sn => .ok (u.squash D squashed_sn)
  | .mispredict draw squashed_sn actually_taken => u.mispredict D draw squashed_sn actually_taken
  | .update draws done_sn => .ok (u.update D draws done_sn)

end GuardianCouncil.BPred
