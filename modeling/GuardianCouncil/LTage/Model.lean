import Mathlib.Data.List.Basic
import Mathlib.Data.Nat.Bitwise
import GuardianCouncil.BPred.Unit

/-!
# The L-TAGE branch predictor

A conditional branch is looked up in tables that are indexed by its address and ever longer pieces of the history of all
branches.  The entry with the longest piece that has a tag for the branch gives the prediction, a table of counters without
tags gives it if there is none.  A loop predictor, which counts the iterations of a loop, can overrule it.

* The history is a buffer of outcomes that is written downwards from its end.  When the start is reached, the last
  `maxHist` outcomes are copied to the end, and it goes on from there.
* Pieces of the history enter an index or a tag as a *folded* history, a register of few bits that is kept up to date when
  an outcome comes in and another one leaves the piece.
* All of this happens when a branch is predicted.  The record of the branch (`BranchInfo`) has what is needed to go back.

The predictor is one of a single thread.  What is random is an argument.
-/

namespace GuardianCouncil.LTage

open Function

/-! ## Configuration -/

structure Config where
  logSizeBiMP : ℕ := 14
  logSizeTagTables : ℕ := 11
  logSizeLoopPred : ℕ := 8
  nHistoryTables : ℕ := 12
  tagTableCounterBits : ℕ := 3
  histBufferSize : ℕ := 2097152
  minHist : ℕ := 4
  maxHist : ℕ := 640
  minTagWidth : ℕ := 7
  /-- The source computes the lengths with `pow`. -/
  histLengths : ℕ → ℕ

namespace Config

variable (cfg : Config)

def tagWidths : ℕ → ℕ
  | 1 | 2 => cfg.minTagWidth
  | 3 | 4 => cfg.minTagWidth + 1
  | 5 => cfg.minTagWidth + 2
  | 6 => cfg.minTagWidth + 3
  | 7 => cfg.minTagWidth + 4
  | 8 | 9 => cfg.minTagWidth + 5
  | 10 => cfg.minTagWidth + 6
  | 11 => cfg.minTagWidth + 7
  | 12 => cfg.minTagWidth + 8
  | _ => 0

def tagTableSizes : ℕ → ℕ
  | 1 | 2 => cfg.logSizeTagTables - 1
  | 3 | 4 | 5 | 6 => cfg.logSizeTagTables
  | 7 | 8 | 9 | 10 => cfg.logSizeTagTables - 1
  | 11 | 12 => cfg.logSizeTagTables - 2
  | _ => 0

def bindex (pc_in : ℕ) : ℕ := pc_in &&& (2 ^ cfg.logSizeBiMP - 1)

def lindex (pc_in : ℕ) : ℕ := (pc_in &&& (2 ^ (cfg.logSizeLoopPred - 2) - 1)) <<< 2

/-- The shifted address as an `int`. -/
def loopTag (pc : ℕ) : ℤ := (BitVec.ofNat 32 (pc >>> (cfg.logSizeLoopPred - 2))).toInt

end Config

/-! ## Hashing the path -/

inductive Fault
  /-- The amount of a shift is negative, or not less than the width of the operand. -/
  | shift
deriving DecidableEq

/-- What a shift of an operand with a given width does. -/
structure Shifts (m : Type → Type) where
  left : (width : ℕ) → ℕ → ℤ → m ℕ
  right : (width : ℕ) → ℕ → ℤ → m ℕ

/-- The amount is taken modulo the width, as the machine does. -/
def Shifts.wrapping : Shifts Id where
  left width a amount := a <<< (amount % width).toNat
  right width a amount := a >>> (amount % width).toNat

/-- As in the language, where other amounts have no meaning. -/
def Shifts.checked : Shifts (Except Fault) where
  left width a amount := if 0 ≤ amount ∧ amount < width then .ok (a <<< amount.toNat) else .error .shift
  right width a amount := if 0 ≤ amount ∧ amount < width then .ok (a >>> amount.toNat) else .error .shift

section Hash

variable {m : Type → Type} [Monad m] (sh : Shifts m) (cfg : Config)

/-- `(ULL(1) << n) - 1`. -/
def ones (n : ℕ) : m ℕ := do
  let bit ← sh.left 64 1 n
  return bit - 1

def F (A size bank : ℕ) : m ℕ := do
  let table := cfg.tagTableSizes bank
  let A := A &&& (← ones sh size)
  let A1 := A &&& (← ones sh table)
  let A2 ← sh.right 32 A table
  let A2 := ((← sh.left 32 A2 bank) &&& (← ones sh table)) + (← sh.right 32 A2 (table - bank : ℤ))
  let A := A1 ^^^ A2
  return ((← sh.left 32 A bank) &&& (← ones sh table)) + (← sh.right 32 A (table - bank : ℤ))

/-- The index for a bank, from the folded history and the path history. -/
def gindex (comp pathHist pc bank : ℕ) : m ℕ := do
  let table := cfg.tagTableSizes bank
  let hlen := if cfg.histLengths bank > 16 then 16 else cfg.histLengths bank
  let index := pc ^^^ (← sh.right 64 pc ((table - bank : ℤ).natAbs + 1)) ^^^ comp ^^^ (← F sh cfg pathHist hlen bank)
  return index &&& (← ones sh table)

end Hash

/-! ## The state -/

structure LoopEntry where
  numIter : ℕ := 0
  currentIter : ℕ := 0
  currentIterSpec : ℕ := 0
  confidence : ℕ := 0
  tag : ℕ := 0
  age : ℕ := 0
  dir : Bool := false

structure BimodalEntry where
  pred : ℕ := 0
  hyst : ℕ := 1

structure TageEntry where
  ctr : ℤ := 0
  tag : ℕ := 0
  u : ℕ := 0

structure FoldedHistory where
  comp : BitVec 32
  compLength : ℕ
  origLength : ℕ
  outpoint : ℕ

namespace FoldedHistory

def init (original_length compressed_length : ℕ) : FoldedHistory :=
  { comp := 0
    origLength := original_length
    compLength := compressed_length
    outpoint := original_length % compressed_length }

def bit (b : Bool) : BitVec 32 := if b then 1#32 else 0#32

def update (f : FoldedHistory) (h : ℕ → Bool) : FoldedHistory :=
  let comp := f.comp <<< 1 ||| bit (h 0)
  let comp := comp ^^^ bit (h f.origLength) <<< f.outpoint
  let comp := comp ^^^ comp >>> f.compLength
  { f with comp := comp &&& BitVec.ofNat 32 (2 ^ f.compLength - 1) }

end FoldedHistory

/-- The three folded histories of each bank. -/
inductive Fold
  | index
  | tag0
  | tag1
deriving DecidableEq

/-- `gHist` is the address of the entry at `ptGhist`. -/
structure ThreadHistory where
  pathHist : ℕ
  globalHistory : ℕ → Bool
  ptGhist : ℕ
  /-- `computeIndices`, `computeTags[0]` and `computeTags[1]`. -/
  folded : Fold → ℕ → FoldedHistory

/-- The outcomes, the most recent one first. -/
def ThreadHistory.gHist (t : ThreadHistory) (i : ℕ) : Bool := t.globalHistory (t.ptGhist + i)

structure BranchInfo where
  pathHist : ℕ := 0
  ptGhist : ℕ := 0
  hitBank : ℕ := 0
  hitBankIndex : ℕ := 0
  altBank : ℕ := 0
  altBankIndex : ℕ := 0
  bimodalIndex : ℕ := 0
  loopTag : ℤ := 0
  currentIter : ℕ := 0
  tagePred : Bool := false
  altTaken : Bool := false
  loopPred : Bool := false
  loopPredValid : Bool := false
  loopIndex : ℕ := 0
  /-- The way that hit, which is `-1` in the source if none did. -/
  loopHit : Option ℕ := none
  condBranch : Bool := false
  longestMatchPred : Bool := false
  pseudoNewAlloc : Bool := false
  branchPC : ℕ := 0
  tableIndices : ℕ → ℕ := fun _ => 0
  tableTags : ℕ → ℕ := fun _ => 0
  /-- `ci`, `ct0` and `ct1`. -/
  comps : Fold → ℕ → BitVec 32 := fun _ _ => 0

structure LTAGE where
  btable : ℕ → BimodalEntry
  gtable : ℕ → ℕ → TageEntry
  ltable : ℕ → LoopEntry
  threadHistory : ThreadHistory
  loopUseCounter : ℤ
  useAltPredForNewlyAllocated : ℤ
  tCounter : ℕ

def logTick : ℕ := 19

def ThreadHistory.init (cfg : Config) : ThreadHistory where
  pathHist := 0
  globalHistory _ := false
  ptGhist := 0
  folded
    | .index, i => .init (cfg.histLengths i) (cfg.tagTableSizes i)
    | .tag0, i => .init (cfg.histLengths i) (cfg.tagWidths i)
    | .tag1, i => .init (cfg.histLengths i) (cfg.tagWidths i - 1)

def LTAGE.init (cfg : Config) : LTAGE where
  btable _ := {}
  gtable _ _ := {}
  ltable _ := {}
  threadHistory := .init cfg
  loopUseCounter := 0
  useAltPredForNewlyAllocated := 0
  tCounter := 2 ^ (logTick - 1)

/-! ## Predictions -/

def gtag (cfg : Config) (t : ThreadHistory) (pc bank : ℕ) : ℕ :=
  let tag := pc ^^^ (t.folded .tag0 bank).comp.toNat ^^^ ((t.folded .tag1 bank).comp <<< 1).toNat
  (tag &&& (2 ^ cfg.tagWidths bank - 1)) % 2 ^ 16

/-- An up-down saturating counter. -/
def ctrUpdate (ctr : ℤ) (taken : Bool) (nbits : ℕ) : ℤ :=
  if taken then if ctr < 2 ^ (nbits - 1) - 1 then ctr + 1 else ctr
  else if ctr > -2 ^ (nbits - 1) then ctr - 1 else ctr

def BimodalEntry.update (e : BimodalEntry) (taken : Bool) : BimodalEntry :=
  let inter := (e.pred <<< 1) + e.hyst
  let inter := if taken then if inter < 3 then inter + 1 else inter else inter - 1
  { pred := inter >>> 1, hyst := inter &&& 1 }

/-- The first bank with a match, from `i` downwards, or zero. -/
def findBank (isMatch : ℕ → Bool) : ℕ → ℕ
  | 0 => 0
  | i + 1 => if isMatch (i + 1) then i + 1 else findBank isMatch i

namespace LTAGE

variable (cfg : Config) (s : LTAGE)

def getBimodePred (bi : BranchInfo) : Bool := decide ((s.btable bi.bimodalIndex).pred > 0)

def baseUpdate (taken : Bool) (bi : BranchInfo) : LTAGE :=
  { s with btable := update s.btable bi.bimodalIndex ((s.btable bi.bimodalIndex).update taken) }

/-- The way of the set that has the tag of the branch. -/
def loopWay (pc : ℕ) : Option ℕ :=
  [0, 1, 2, 3].find? fun i => decide (((s.ltable (cfg.lindex pc + i)).tag : ℤ) = cfg.loopTag pc)

def getLoop (pc : ℕ) (bi : BranchInfo) : Bool × BranchInfo :=
  let bi := { bi with
    loopHit := s.loopWay cfg pc
    loopPredValid := false
    loopIndex := cfg.lindex pc
    loopTag := cfg.loopTag pc }
  match bi.loopHit with
  | some i =>
    let e := s.ltable (bi.loopIndex + i)
    (if e.currentIterSpec + 1 = e.numIter then !e.dir else e.dir,
      { bi with loopPredValid := decide (e.confidence ≥ 3), currentIter := e.currentIterSpec })
  | none => (false, bi)

/-- The count of the first way of the set, whichever way has hit. -/
def specLoopUpdate (pc : ℕ) (taken : Bool) (bi : BranchInfo) : LTAGE :=
  if bi.loopHit.isSome then
    let index := cfg.lindex pc
    let e := s.ltable index
    { s with
      ltable := update s.ltable index
        { e with currentIterSpec := if taken != e.dir then 0 else (e.currentIterSpec + 1) % 2 ^ 16 } }
  else s

/-- The part of `predict` that fills in the prediction of the tagged tables. -/
def tagePredict (pc : ℕ) : BranchInfo :=
  let t := s.threadHistory
  let tableIndices i := gindex .wrapping cfg (t.folded .index i).comp.toNat t.pathHist pc i
  let tableTags i := gtag cfg t pc i
  let isMatch i := decide ((s.gtable i (tableIndices i)).tag = tableTags i)
  let hitBank := findBank isMatch cfg.nHistoryTables
  let altBank := findBank isMatch (hitBank - 1)
  let bi : BranchInfo :=
    { tableIndices := tableIndices, tableTags := tableTags, bimodalIndex := cfg.bindex pc
      hitBank := hitBank, hitBankIndex := if hitBank > 0 then tableIndices hitBank else 0
      altBank := altBank, altBankIndex := if altBank > 0 then tableIndices altBank else 0 }
  if hitBank > 0 then
    let altTaken := if altBank > 0 then decide ((s.gtable altBank (tableIndices altBank)).ctr ≥ 0) else s.getBimodePred bi
    let ctr := (s.gtable hitBank (tableIndices hitBank)).ctr
    let longestMatchPred := decide (ctr ≥ 0)
    { bi with
      altTaken := altTaken
      longestMatchPred := longestMatchPred
      pseudoNewAlloc := decide ((2 * ctr + 1).natAbs ≤ 1)
      tagePred :=
        if s.useAltPredForNewlyAllocated < 0 ∨ (2 * ctr + 1).natAbs > 1 then longestMatchPred else altTaken }
  else
    let altTaken := s.getBimodePred bi
    { bi with altTaken := altTaken, tagePred := altTaken, longestMatchPred := altTaken }

/-- The record of a branch and the predicted direction. -/
def predictInfo (branch_pc : ℕ) (cond_branch : Bool) : Bool × BranchInfo :=
  if cond_branch then
    let (loopPred, bi) := s.getLoop cfg branch_pc (s.tagePredict cfg branch_pc)
    (if s.loopUseCounter ≥ 0 ∧ bi.loopPredValid then loopPred else bi.tagePred,
      { bi with loopPred := loopPred, branchPC := branch_pc, condBranch := true })
  else (true, { branchPC := branch_pc, condBranch := false })

def predict (branch_pc : ℕ) (cond_branch : Bool) : Bool × BranchInfo × LTAGE :=
  let (pred_taken, bi) := s.predictInfo cfg branch_pc cond_branch
  (pred_taken, bi, s.specLoopUpdate cfg branch_pc pred_taken bi)

end LTAGE

/-! ## The histories -/

namespace ThreadHistory

variable (cfg : Config) (t : ThreadHistory)

/-- One more outcome, before which the buffer is rolled over if need be. -/
def updateGHist (dir : Bool) : ThreadHistory :=
  let start := cfg.histBufferSize - cfg.maxHist
  let tab j := if t.ptGhist = 0 ∧ start ≤ j ∧ j < cfg.histBufferSize then t.globalHistory (j - start)
    else t.globalHistory j
  let pt := (if t.ptGhist = 0 then start else t.ptGhist) - 1
  { t with ptGhist := pt, globalHistory := update tab pt dir }

/-- The folded histories of all banks take in the most recent outcome. -/
def updateFolded (comps : Fold → ℕ → BitVec 32) : ThreadHistory :=
  { t with
    folded := fun k i =>
      if 1 ≤ i ∧ i ≤ cfg.nHistoryTables then ({ t.folded k i with comp := comps k i } : FoldedHistory).update t.gHist
      else t.folded k i }

def comps (k : Fold) (i : ℕ) : BitVec 32 := (t.folded k i).comp

def updateHistories (branch_pc : ℕ) (taken : Bool) (bi : BranchInfo) : BranchInfo × ThreadHistory :=
  let comps := t.comps
  let t := t.updateGHist cfg taken
  let t := { t with pathHist := ((t.pathHist <<< 1) + branch_pc % 2) &&& (2 ^ 16 - 1) }
  ({ bi with ptGhist := t.ptGhist, pathHist := t.pathHist, comps := comps }, t.updateFolded cfg comps)

/-- The most recent outcome is replaced, and the folded histories are computed again from those before it. -/
def replaceLast (taken : Bool) (bi : BranchInfo) : ThreadHistory :=
  let t := { t with globalHistory := update t.globalHistory t.ptGhist taken }
  t.updateFolded cfg bi.comps

end ThreadHistory

namespace LTAGE

variable (cfg : Config) (s : LTAGE)

def lookup (branch_pc : ℕ) : Bool × BranchInfo × LTAGE :=
  let (retval, bi, s) := s.predict cfg branch_pc true
  let (bi, t) := s.threadHistory.updateHistories cfg branch_pc retval bi
  (retval, bi, { s with threadHistory := t })

def uncondBranch (br_pc : ℕ) : BranchInfo × LTAGE :=
  let (_, bi, s) := s.predict cfg br_pc false
  let (bi, t) := s.threadHistory.updateHistories cfg br_pc true bi
  (bi, { s with threadHistory := t })

def btbUpdate (_branch_pc : ℕ) (bi : BranchInfo) : LTAGE :=
  { s with threadHistory := s.threadHistory.replaceLast cfg false bi }

/-- Gives the speculative count of the loop back. -/
def restoreLoop (bi : BranchInfo) : LTAGE :=
  match bi.condBranch, bi.loopHit with
  | true, some i =>
    let idx := bi.loopIndex + i
    { s with ltable := update s.ltable idx { s.ltable idx with currentIterSpec := bi.currentIter } }
  | _, _ => s

/-- `squash(tid, taken, bp_history)`. -/
def squashTaken (taken : Bool) (bi : BranchInfo) : LTAGE :=
  let t := { s.threadHistory with pathHist := bi.pathHist, ptGhist := bi.ptGhist }
  restoreLoop { s with threadHistory := t.replaceLast cfg taken bi } bi

/-- `squash(tid, bp_history)`. -/
def squash (bi : BranchInfo) : LTAGE := s.restoreLoop bi

end LTAGE

/-! ## Updates -/

/-- The loop predictor was right where the tagged tables were not. -/
def LoopEntry.succeed (e : LoopEntry) (bi : BranchInfo) : LoopEntry :=
  if bi.loopPredValid ∧ bi.loopPred ≠ bi.tagePred ∧ e.age < 7 then { e with age := e.age + 1 } else e

/-- One more iteration.  An entry is freed if there are more of them than expected. -/
def LoopEntry.iterate (e : LoopEntry) : LoopEntry :=
  let e := { e with currentIter := (e.currentIter + 1) % 2 ^ 16 }
  if e.currentIter > e.numIter then
    if e.numIter ≠ 0 then { e with confidence := 0, numIter := 0, age := 0 } else { e with confidence := 0 }
  else e

/-- The iteration is the last one of the loop. -/
def LoopEntry.leave (e : LoopEntry) (taken : Bool) : LoopEntry :=
  if e.currentIter = e.numIter then
    -- loops of one or two iterations are not predicted
    if e.numIter < 3 then { e with dir := taken, numIter := 0, age := 0, confidence := 0, currentIter := 0 }
    else { e with confidence := if e.confidence < 7 then e.confidence + 1 else e.confidence, currentIter := 0 }
  else if e.numIter = 0 then { e with confidence := 0, numIter := e.currentIter, currentIter := 0 }
  else { e with numIter := 0, age := 0, confidence := 0, currentIter := 0 }

/-- What a branch does to its loop entry when it is committed. -/
def LoopEntry.train (e : LoopEntry) (taken : Bool) (bi : BranchInfo) : LoopEntry :=
  if bi.loopPredValid ∧ taken ≠ bi.loopPred then { e with numIter := 0, age := 0, confidence := 0, currentIter := 0 }
  else
    let e := (e.succeed bi).iterate
    if taken ≠ e.dir then e.leave taken else e

/-- An entry for a loop that has been seen once. -/
def LoopEntry.allocate (e : LoopEntry) (taken : Bool) (loopTag : ℤ) : LoopEntry :=
  { e with
    dir := !taken, tag := (loopTag % 2 ^ 16).toNat, numIter := 0, age := 7, confidence := 0, currentIter := 1 }

/-- Goes through the entries, ages them, and takes the first one without age.  Its number is returned with the table. -/
def allocateLoop (taken : Bool) (loopTag : ℤ) : List ℕ → (ℕ → LoopEntry) → (ℕ → LoopEntry) × Option ℕ
  | [], ltable => (ltable, none)
  | idx :: rest, ltable =>
    let e := ltable idx
    if e.age = 0 then (update ltable idx (e.allocate taken loopTag), some idx)
    else allocateLoop taken loopTag rest (update ltable idx { e with age := e.age - 1 })

/-- The random numbers of an update. -/
structure Draw where
  nrand : ℕ := 0
  loopRand : ℕ := 0

/-- What is written to an entry of the tagged tables by an allocation. -/
inductive Write
  | tag (bank index : ℕ)
  | clear (bank index : ℕ)
deriving DecidableEq

/-- The allocation of tagged entries from bank `i` on.  What is written is returned with the table. -/
def allocateBanks (bi : BranchInfo) (taken : Bool) : ℕ → ℕ → (ℕ → ℕ → TageEntry) → (ℕ → ℕ → TageEntry) × List Write
  | 0, _, gtable => (gtable, [])
  | count + 1, i, gtable =>
    let j := bi.tableIndices i
    if (gtable i j).u = 0 then
      let e : TageEntry := { tag := bi.tableTags i, ctr := if taken then 0 else -1, u := 0 }
      let (gtable, writes) :=
        allocateBanks bi taken count (i + 1) (update gtable i (update (gtable i) j e))
      (gtable, .tag i j :: writes)
    else allocateBanks bi taken count (i + 1) gtable

/-- The least usefulness of the banks with a longer history, one at most. -/
def minUseful (cfg : Config) (bi : BranchInfo) (gtable : ℕ → ℕ → TageEntry) : ℕ :=
  (List.range' (bi.hitBank + 1) (cfg.nHistoryTables - bi.hitBank)).reverse.foldl
    (fun min i => if (gtable i (bi.tableIndices i)).u < min then (gtable i (bi.tableIndices i)).u else min) 1

/-- The first bank that is considered. -/
def firstBank (cfg : Config) (bi : BranchInfo) (nrand : ℕ) : ℕ :=
  let Y := nrand &&& (2 ^ (cfg.nHistoryTables - bi.hitBank - 1) - 1)
  let X := bi.hitBank + 1
  if Y &&& 1 ≠ 0 then if Y &&& 2 ≠ 0 then X + 2 else X + 1 else X

def allocateTage (cfg : Config) (bi : BranchInfo) (taken : Bool) (nrand : ℕ) (gtable : ℕ → ℕ → TageEntry) :
    (ℕ → ℕ → TageEntry) × List Write :=
  let X := firstBank cfg bi nrand
  let j := bi.tableIndices X
  if minUseful cfg bi gtable > 0 then
    let gtable := update gtable X (update (gtable X) j { gtable X j with u := 0 })
    let (gtable, writes) := allocateBanks bi taken (cfg.nHistoryTables + 1 - X) X gtable
    (gtable, .clear X j :: writes)
  else allocateBanks bi taken (cfg.nHistoryTables + 1 - X) X gtable

/-- An entry is allocated if the prediction was wrong, unless it was the alternate one that was wrong and the longest match
is new. -/
def triesToAllocate (cfg : Config) (taken : Bool) (bi : BranchInfo) : Bool :=
  bi.tagePred != taken && decide (bi.hitBank < cfg.nHistoryTables) &&
    !(decide (bi.hitBank > 0) && (bi.pseudoNewAlloc && bi.longestMatchPred == taken))

namespace LTAGE

variable (cfg : Config) (s : LTAGE)

def loopUpdate (taken : Bool) (bi : BranchInfo) (nrand : ℕ) : LTAGE × Option ℕ :=
  match bi.loopHit with
  | some i =>
    let idx := bi.loopIndex + i
    ({ s with ltable := update s.ltable idx ((s.ltable idx).train taken bi) }, none)
  | none =>
    if taken then
      let (ltable, allocated) :=
        allocateLoop taken bi.loopTag ([0, 1, 2, 3].map fun i => bi.loopIndex + (nrand + i) % 4) s.ltable
      ({ s with ltable := ltable }, allocated)
    else (s, none)

/-- The choice between the two predictions of new entries. -/
def updateUseAlt (taken : Bool) (bi : BranchInfo) : LTAGE :=
  if bi.hitBank > 0 ∧ bi.pseudoNewAlloc ∧ bi.longestMatchPred ≠ bi.altTaken then
    { s with useAltPredForNewlyAllocated := ctrUpdate s.useAltPredForNewlyAllocated (bi.altTaken == taken) 4 }
  else s

/-- Every now and then all entries become less useful. -/
def tick : LTAGE :=
  let s := { s with tCounter := s.tCounter + 1 }
  if s.tCounter &&& (2 ^ logTick - 1) = 0 then
    { s with
      gtable := fun i j =>
        if 1 ≤ i ∧ i ≤ cfg.nHistoryTables ∧ j < 2 ^ cfg.tagTableSizes i then
          { s.gtable i j with u := (s.gtable i j).u >>> 1 }
        else s.gtable i j }
  else s

def modifyEntry (bank index : ℕ) (f : TageEntry → TageEntry) : LTAGE :=
  { s with gtable := update s.gtable bank (update (s.gtable bank) index (f (s.gtable bank index))) }

/-- The counters of the entries that gave the prediction. -/
def trainTage (taken : Bool) (bi : BranchInfo) : LTAGE :=
  let count (e : TageEntry) : TageEntry := { e with ctr := ctrUpdate e.ctr taken cfg.tagTableCounterBits }
  if bi.hitBank > 0 then
    let s := s.modifyEntry bi.hitBank bi.hitBankIndex count
    let s :=
      if (s.gtable bi.hitBank bi.hitBankIndex).u = 0 then
        if bi.altBank > 0 then s.modifyEntry bi.altBank bi.altBankIndex count else s.baseUpdate taken bi
      else s
    if bi.longestMatchPred ≠ bi.altTaken ∧ bi.longestMatchPred = taken then
      s.modifyEntry bi.hitBank bi.hitBankIndex fun e => if e.u < 1 then { e with u := e.u + 1 } else e
    else s
  else s.baseUpdate taken bi

/-- The loop predictor and the counters that choose between predictions. -/
def updateChoice (draw : Draw) (taken : Bool) (bi : BranchInfo) : LTAGE × Option ℕ :=
  let (s, loopEntry) := s.loopUpdate taken bi draw.loopRand
  let s :=
    if bi.loopPredValid ∧ bi.tagePred ≠ bi.loopPred then
      { s with loopUseCounter := ctrUpdate s.loopUseCounter (bi.loopPred == taken) 7 }
    else s
  (s.updateUseAlt taken bi, loopEntry)

/-- The new state, the loop entry that was allocated, and what was written to allocate tagged entries. -/
def updateTables (draw : Draw) (taken : Bool) (bi : BranchInfo) : LTAGE × Option ℕ × List Write :=
  let (s, loopEntry) := s.updateChoice draw taken bi
  let (gtable, writes) :=
    if triesToAllocate cfg taken bi then allocateTage cfg bi taken draw.nrand s.gtable else (s.gtable, [])
  let s := ({ s with gtable := gtable } : LTAGE).tick cfg
  (s.trainTage cfg taken bi, loopEntry, writes)

/-- `update` with `squashed = false`. -/
def commit (draw : Draw) (taken : Bool) (bi : BranchInfo) : LTAGE × Option ℕ × List Write :=
  if bi.condBranch then s.updateTables cfg draw taken bi else (s, none, [])

def update (draw : Draw) (_branch_pc : ℕ) (taken : Bool) (bi : BranchInfo) (squashed : Bool) : LTAGE :=
  if squashed then s.squashTaken cfg taken bi else (s.commit cfg draw taken bi).1

end LTAGE

/-- The predictor as the unit calls it. -/
def direction (cfg : Config) : BPred.Direction LTAGE BranchInfo Draw where
  lookup := LTAGE.lookup cfg
  uncondBranch := LTAGE.uncondBranch cfg
  btbUpdate := LTAGE.btbUpdate cfg
  update draw s := LTAGE.update cfg s draw
  squash := LTAGE.squash

end GuardianCouncil.LTage
