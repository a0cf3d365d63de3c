import Mathlib.Data.Nat.Log
import Mathlib.Algebra.GroupWithZero.Nat
import GuardianCouncil.BPred.Predict

/-!
# The tournament predictor

A conditional branch is predicted from its own last outcomes (a local history, found by its address) or from the last
outcomes of all branches (the global history).  Both histories are shifted when the branch is predicted, and the record of
the branch has what they were.

An unconditional branch shifts the global history only, and its record has no local history.  If the target buffer has no
target for it, `btbUpdate` clears the last outcome in both histories nevertheless, the local one being that of a
conditional branch with the same index.  A squash gives all histories back exactly if no last outcome is lost that way
(`squash_restores_iff`).
-/

namespace GuardianCouncil.BPred
namespace Tournament

/-! ## The predictor -/

structure SatCounter where
  maxVal : ℕ
  counter : ℕ := 0

def SatCounter.increment (c : SatCounter) : SatCounter :=
  if c.counter < c.maxVal then { c with counter := c.counter + 1 } else c

def SatCounter.decrement (c : SatCounter) : SatCounter :=
  if 0 < c.counter then { c with counter := c.counter - 1 } else c

structure Config where
  localPredictorSize : ℕ := 2048
  localCtrBits : ℕ := 2
  localHistoryTableSize : ℕ := 2048
  globalPredictorSize : ℕ := 8192
  globalCtrBits : ℕ := 2
  choicePredictorSize : ℕ := 8192
  choiceCtrBits : ℕ := 2
  instShiftAmt : ℕ := 2

namespace Config

variable (cfg : Config)

def localHistoryBits : ℕ := Nat.clog 2 cfg.localPredictorSize

def globalHistoryBits : ℕ := max (Nat.clog 2 cfg.globalPredictorSize) (Nat.clog 2 cfg.choicePredictorSize)

def localPredictorMask : BitVec 32 := BitVec.ofNat 32 (2 ^ cfg.localHistoryBits - 1)

def globalHistoryMask : BitVec 32 := BitVec.ofNat 32 (cfg.globalPredictorSize - 1)

def choiceHistoryMask : BitVec 32 := BitVec.ofNat 32 (cfg.choicePredictorSize - 1)

def historyRegisterMask : BitVec 32 := BitVec.ofNat 32 (2 ^ cfg.globalHistoryBits - 1)

def localThreshold : ℕ := 2 ^ (cfg.localCtrBits - 1) - 1

def globalThreshold : ℕ := 2 ^ (cfg.globalCtrBits - 1) - 1

def choiceThreshold : ℕ := 2 ^ (cfg.choiceCtrBits - 1) - 1

def calcLocHistIdx (branch_addr : Addr) : ℕ := (branch_addr >>> cfg.instShiftAmt) &&& (cfg.localHistoryTableSize - 1)

end Config

/-- The indices are `none` where the source has `invalidPredictorIndex`. -/
structure BPHistory where
  globalHistory : BitVec 32
  localHistoryIdx : Option ℕ
  localHistory : Option (BitVec 32)
  localPredTaken : Bool
  globalPredTaken : Bool
  globalUsed : Bool

structure TournamentBP where
  localCtrs : ℕ → SatCounter
  localHistoryTable : ℕ → BitVec 32
  globalCtrs : ℕ → SatCounter
  globalHistory : BitVec 32
  choiceCtrs : ℕ → SatCounter

open TournamentBP Function

namespace TournamentBP

variable (cfg : Config) (bp : TournamentBP)

def updateGlobalHist (taken : Bool) : TournamentBP :=
  { bp with globalHistory := (bp.globalHistory <<< 1 ||| (if taken then 1#32 else 0#32)) &&& cfg.historyRegisterMask }

def updateLocalHist (local_history_idx : ℕ) (taken : Bool) : TournamentBP :=
  { bp with
    localHistoryTable := update bp.localHistoryTable local_history_idx
      (bp.localHistoryTable local_history_idx <<< 1 ||| (if taken then 1#32 else 0#32)) }

def btbUpdate (branch_addr : Addr) : TournamentBP :=
  let local_history_idx := cfg.calcLocHistIdx branch_addr
  { bp with
    globalHistory := bp.globalHistory &&& (cfg.historyRegisterMask &&& ~~~1#32)
    localHistoryTable := update bp.localHistoryTable local_history_idx
      (bp.localHistoryTable local_history_idx &&& (cfg.localPredictorMask &&& ~~~1#32)) }

def lookup (branch_addr : Addr) : Bool × BPHistory × TournamentBP :=
  let local_history_idx := cfg.calcLocHistIdx branch_addr
  let local_predictor_idx := bp.localHistoryTable local_history_idx &&& cfg.localPredictorMask
  let local_prediction := decide ((bp.localCtrs local_predictor_idx.toNat).counter > cfg.localThreshold)
  let global_prediction :=
    decide (cfg.globalThreshold < (bp.globalCtrs (bp.globalHistory &&& cfg.globalHistoryMask).toNat).counter)
  let choice_prediction :=
    decide (cfg.choiceThreshold < (bp.choiceCtrs (bp.globalHistory &&& cfg.choiceHistoryMask).toNat).counter)
  let history : BPHistory :=
    { globalHistory := bp.globalHistory
      localHistoryIdx := some local_history_idx
      localHistory := some local_predictor_idx
      localPredTaken := local_prediction
      globalPredTaken := global_prediction
      globalUsed := choice_prediction }
  let taken := if choice_prediction then global_prediction else local_prediction
  (taken, history, (bp.updateGlobalHist cfg taken).updateLocalHist local_history_idx taken)

def uncondBranch (_pc : Addr) : BPHistory × TournamentBP :=
  ({ globalHistory := bp.globalHistory
     localHistoryIdx := none
     localHistory := none
     localPredTaken := true
     globalPredTaken := true
     globalUsed := true }, bp.updateGlobalHist cfg true)

/-- What is learnt when the branch is committed. -/
def train (taken : Bool) (history : BPHistory) : TournamentBP :=
  let choice_predictor_idx := (history.globalHistory &&& cfg.choiceHistoryMask).toNat
  let global_predictor_idx := (history.globalHistory &&& cfg.globalHistoryMask).toNat
  let count (c : SatCounter) : SatCounter := if taken then c.increment else c.decrement
  { bp with
    choiceCtrs :=
      if history.localPredTaken != history.globalPredTaken && history.localHistory.isSome then
        let c := bp.choiceCtrs choice_predictor_idx
        update bp.choiceCtrs choice_predictor_idx
          (if history.localPredTaken = taken then c.decrement
            else if history.globalPredTaken = taken then c.increment else c)
      else bp.choiceCtrs
    globalCtrs := update bp.globalCtrs global_predictor_idx (count (bp.globalCtrs global_predictor_idx))
    localCtrs :=
      match history.localHistory with
      | some localHistory =>
        let old_local_pred_index := (localHistory &&& cfg.localPredictorMask).toNat
        update bp.localCtrs old_local_pred_index (count (bp.localCtrs old_local_pred_index))
      | none => bp.localCtrs }

def update (branch_addr : Addr) (taken : Bool) (history : BPHistory) (squashed : Bool) : TournamentBP :=
  if squashed then
    { bp with
      globalHistory :=
        (history.globalHistory <<< 1 ||| (if taken then 1#32 else 0#32)) &&& cfg.historyRegisterMask
      localHistoryTable :=
        match history.localHistory with
        | some localHistory =>
          Function.update bp.localHistoryTable (cfg.calcLocHistIdx branch_addr)
            (localHistory <<< 1 ||| (if taken then 1#32 else 0#32))
        | none => bp.localHistoryTable }
  else bp.train cfg taken history

def squash (history : BPHistory) : TournamentBP :=
  { bp with
    globalHistory := history.globalHistory
    localHistoryTable :=
      match history.localHistoryIdx, history.localHistory with
      | some local_history_idx, some localHistory =>
        Function.update bp.localHistoryTable local_history_idx localHistory
      | _, _ => bp.localHistoryTable }

end TournamentBP

/-- The predictor as the unit calls it.  It draws no random numbers. -/
def direction (cfg : Config) : Direction TournamentBP BPHistory Unit where
  lookup := lookup cfg
  uncondBranch := uncondBranch cfg
  btbUpdate bp branch_addr _ := bp.btbUpdate cfg branch_addr
  update _ := update cfg
  squash := squash

/-! ## What a squash gives back -/

section

variable {P : Type} (cfg : Config) (useIndirect : Bool)

/-- Before a conditional branch has saved the local history at `i`, an unconditional one clears its last outcome. -/
def clearsLast (i : ℕ) : List (Branch P) → Bool
  | [] => false
  | b :: bs =>
    if cfg.calcLocHistIdx b.instAddr = i then
      b.isUncondCtrl && (b.missesBTB useIndirect || clearsLast i bs)
    else clearsLast i bs

variable {cfg useIndirect}

/-- Two masks at once. -/
theorem and_clear_and (x m : BitVec 32) : x &&& (m &&& ~~~1#32) &&& m = x &&& m &&& ~~~1#32 := by
  ext i
  simp only [BitVec.getElem_and]
  cases x[i] <;> cases m[i] <;> simp

theorem and_clear_eq_self_iff (x : BitVec 32) : x &&& ~~~1#32 = x ↔ x.getLsbD 0 = false := by
  constructor
  · intro h
    rw [← h]
    simp
  · intro h
    ext i hi
    by_cases h0 : i = 0
    · subst h0
      simpa using h
    · simp only [BitVec.getElem_and, BitVec.getElem_not, BitVec.getElem_one, h0, decide_false, Bool.not_false,
        Bool.and_true]

/-- A conditional branch saves the histories, and changes its own local history only. -/
theorem predict_of_conditional (cfg : Config) (useIndirect : Bool) {b : Branch P} (hb : b.isUncondCtrl = false)
    (bp : TournamentBP) :
    ∃ history bp', (direction cfg).predict useIndirect bp b = (history, bp') ∧
      history.globalHistory = bp.globalHistory ∧
      history.localHistoryIdx = some (cfg.calcLocHistIdx b.instAddr) ∧
      history.localHistory = some (bp.localHistoryTable (cfg.calcLocHistIdx b.instAddr) &&& cfg.localPredictorMask) ∧
      ∀ i ≠ cfg.calcLocHistIdx b.instAddr, bp'.localHistoryTable i = bp.localHistoryTable i := by
  refine ⟨_, _, Direction.predict_of_conditional _ hb, rfl, rfl, rfl, fun i hi => ?_⟩
  split <;> simp [direction, lookup, btbUpdate, updateLocalHist, updateGlobalHist, hi]

/-- An unconditional branch saves the global history, and may clear the last outcome in a local history. -/
theorem predict_of_unconditional (cfg : Config) (useIndirect : Bool) {b : Branch P} (hb : b.isUncondCtrl = true)
    (bp : TournamentBP) :
    ∃ history bp', (direction cfg).predict useIndirect bp b = (history, bp') ∧
      history.globalHistory = bp.globalHistory ∧ history.localHistoryIdx = none ∧
      ∀ i, bp'.localHistoryTable i =
        if cfg.calcLocHistIdx b.instAddr = i ∧ b.missesBTB useIndirect then
          bp.localHistoryTable i &&& (cfg.localPredictorMask &&& ~~~1#32)
        else bp.localHistoryTable i := by
  refine ⟨_, _, Direction.predict_of_unconditional _ hb, rfl, rfl, fun i => ?_⟩
  cases b.missesBTB useIndirect with
  | false => simp [direction, uncondBranch, updateGlobalHist]
  | true =>
    by_cases hi : cfg.calcLocHistIdx b.instAddr = i
    · subst hi
      simp [direction, uncondBranch, updateGlobalHist, btbUpdate]
    · simp [direction, uncondBranch, updateGlobalHist, btbUpdate, hi, Ne.symm hi]

theorem global_predictAndSquash (bs : List (Branch P)) (bp : TournamentBP) :
    ((direction cfg).predictAndSquash useIndirect bs bp).globalHistory = bp.globalHistory := by
  cases bs with
  | nil => rfl
  | cons b bs =>
    rw [Direction.predictAndSquash]
    cases hb : b.isUncondCtrl with
    | false =>
      obtain ⟨history, bp', hpr, hg, -⟩ := predict_of_conditional cfg useIndirect hb bp
      rw [hpr]
      exact hg
    | true =>
      obtain ⟨history, bp', hpr, hg, -⟩ := predict_of_unconditional cfg useIndirect hb bp
      rw [hpr]
      exact hg

theorem local_predictAndSquash (bs : List (Branch P)) (bp : TournamentBP) (i : ℕ) :
    ((direction cfg).predictAndSquash useIndirect bs bp).localHistoryTable i &&& cfg.localPredictorMask =
      if clearsLast cfg useIndirect i bs then
        bp.localHistoryTable i &&& cfg.localPredictorMask &&& ~~~1#32
      else bp.localHistoryTable i &&& cfg.localPredictorMask := by
  induction bs generalizing bp with
  | nil => rfl
  | cons b bs ih =>
    rw [Direction.predictAndSquash, clearsLast]
    cases hb : b.isUncondCtrl with
    | false =>
      obtain ⟨history, bp', hpr, -, hidx, hlo, ho⟩ := predict_of_conditional cfg useIndirect hb bp
      rw [hpr]
      by_cases hi : cfg.calcLocHistIdx b.instAddr = i
      · subst hi
        simp [direction, squash, hidx, hlo, BitVec.and_assoc]
      · have := ih bp'
        rw [ho i (Ne.symm hi)] at this
        simpa [direction, squash, hidx, hlo, hi, Function.update_of_ne (Ne.symm hi)] using this
    | true =>
      obtain ⟨history, bp', hpr, -, hidx, hlo⟩ := predict_of_unconditional cfg useIndirect hb bp
      have hsa : ((direction cfg).squash ((direction cfg).predictAndSquash useIndirect bs bp') history).localHistoryTable i =
          ((direction cfg).predictAndSquash useIndirect bs bp').localHistoryTable i := by
        simp [direction, squash, hidx]
      rw [hpr]
      dsimp only
      rw [hsa, ih bp', hlo i]
      by_cases hi : cfg.calcLocHistIdx b.instAddr = i
      · cases b.missesBTB useIndirect with
        | false => simp [hi]
        | true =>
          have htw := BitVec.and_assoc (bp.localHistoryTable i &&& cfg.localPredictorMask) (~~~1#32) (~~~1#32)
          rw [BitVec.and_self] at htw
          simp only [hi, and_self, if_true, and_clear_and, htw, ite_self, Bool.true_or, Bool.and_self]
      · simp [hi]

end

/-- **A squash of a sequence of predictions gives the histories back exactly if no unconditional branch has cleared an
outcome** that was not saved. -/
theorem squash_restores_iff {P : Type} [Inhabited P] (cfg : Config) (u : BPredUnit TournamentBP BPHistory P) (sn : ℕ)
    (hold : ∀ r ∈ u.predHist, r.seqNum ≤ sn) (bs : List (Branch P)) (hbs : ∀ b ∈ bs, sn < b.seqNum) :
    (((u.predictAll (direction cfg) bs).squash (direction cfg) sn).dir.globalHistory = u.dir.globalHistory ∧
      ∀ i, ((u.predictAll (direction cfg) bs).squash (direction cfg) sn).dir.localHistoryTable i &&&
          cfg.localPredictorMask = u.dir.localHistoryTable i &&& cfg.localPredictorMask) ↔
    ∀ i, clearsLast cfg u.useIndirect i bs = true →
      (u.dir.localHistoryTable i &&& cfg.localPredictorMask).getLsbD 0 = false := by
  rw [BPredUnit.squash_predictAll hbs hold]
  simp only [global_predictAndSquash, local_predictAndSquash, true_and]
  refine forall_congr' fun i => ?_
  cases clearsLast cfg u.useIndirect i bs with
  | false => simp
  | true =>
    rw [if_pos rfl, and_clear_eq_self_iff]
    exact ⟨fun h _ => h, fun h => h rfl⟩

def tinyConfig : Config :=
  { localPredictorSize := 4, localHistoryTableSize := 4, globalPredictorSize := 4, choicePredictorSize := 4 }

/-- Every branch was taken the last time. -/
def takenUnit : BPredUnit TournamentBP BPHistory ℕ :=
  { useIndirect := true
    dir := { localCtrs := fun _ => ⟨3, 3⟩, localHistoryTable := fun _ => 1, globalCtrs := fun _ => ⟨3, 3⟩
             globalHistory := 1, choiceCtrs := fun _ => ⟨3, 3⟩ }
    RAS := { numEntries := 4, usedEntries := 0, tos := 0, addrStack := fun _ => 0 } }

def jump (seqNum : ℕ) : Branch ℕ :=
  { seqNum := seqNum, pc := 8, instAddr := 8, isUncondCtrl := true, targetKnown := false }

def conditional (seqNum : ℕ) : Branch ℕ :=
  { seqNum := seqNum, pc := 24, instAddr := 24, targetKnown := false }

/-- A conditional branch has saved the local history that a jump then clears. -/
theorem squash_restores_saved :
    (takenUnit.predictAll (direction tinyConfig) [conditional 1, jump 2]).predHist.length = 2 ∧
    ((takenUnit.predictAll (direction tinyConfig) [conditional 1, jump 2]).squash
      (direction tinyConfig) 0).dir.localHistoryTable 2 &&& tinyConfig.localPredictorMask =
        takenUnit.dir.localHistoryTable 2 &&& tinyConfig.localPredictorMask := by
  refine ⟨by decide +kernel,
    ((squash_restores_iff tinyConfig takenUnit 0 (by decide) [conditional 1, jump 2] (by decide)).2 ?_).2 2⟩
  intro i hi
  have hidx : tinyConfig.calcLocHistIdx (jump 2).instAddr = tinyConfig.calcLocHistIdx (conditional 1).instAddr := rfl
  rw [clearsLast, clearsLast, clearsLast, hidx] at hi
  split at hi <;> cases hi

/-- A jump is predicted and squashed: the last outcome of the local history with its index is gone. -/
theorem squash_loses_outcome : takenUnit.dir.localHistoryTable 2 &&& tinyConfig.localPredictorMask = 1#32 ∧
    ((takenUnit.predictAll (direction tinyConfig) [jump 1]).squash (direction tinyConfig) 0).dir.localHistoryTable 2 &&&
      tinyConfig.localPredictorMask = 0#32 := by
  decide +kernel

end Tournament
end GuardianCouncil.BPred
