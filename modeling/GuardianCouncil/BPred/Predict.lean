import Mathlib.Data.List.Basic
import GuardianCouncil.BPred.Unit

/-!
# What a prediction does

`exists_predict` says what a prediction does to the stack and the direction predictor, and what it records.
`squash_predictAll` is about the direction predictor alone: a sequence of branches that is predicted and squashed by the
unit is one that is predicted and squashed by the direction predictor.
-/

namespace GuardianCouncil.BPred

open List

variable {σ H ρ P : Type}

/-- A squash of the branch pops the stack. -/
def PredictorHistory.holdsPush (r : PredictorHistory P H) : Bool := !r.usedRAS && (r.wasCall && r.pushedRAS)

namespace BPredUnit

variable (D : Direction σ H ρ) (u : BPredUnit σ H P)

def predictsTaken (b : Branch P) : Bool := b.isUncondCtrl || (D.lookup u.dir b.instAddr).1

def popsRAS (b : Branch P) : Bool := u.predictsTaken D b && b.isReturn

def pushesRAS (b : Branch P) : Bool := u.predictsTaken D b && (!b.isReturn && b.isCall)

end BPredUnit

/-- The branch target buffer is asked for the branch and has no target. -/
def Branch.missesBTB (useIndirect : Bool) (b : Branch P) : Bool :=
  !b.isReturn && (!b.targetKnown && (!b.isCall && (b.isDirectCtrl || !useIndirect)))

section

variable (D : Direction σ H ρ)

/-- What a prediction does with the direction predictor. -/
def Direction.predict (useIndirect : Bool) (dir : σ) (b : Branch P) : H × σ :=
  let (pred_taken, bp_history, dir) :=
    if b.isUncondCtrl then (true, D.uncondBranch dir b.instAddr) else D.lookup dir b.instAddr
  (bp_history, if pred_taken && b.missesBTB useIndirect then D.btbUpdate dir b.instAddr bp_history else dir)

variable {b : Branch P} {dir : σ} {useIndirect : Bool}

theorem Direction.predict_of_conditional (hb : b.isUncondCtrl = false) :
    D.predict useIndirect dir b = ((D.lookup dir b.instAddr).2.1,
      if (D.lookup dir b.instAddr).1 && b.missesBTB useIndirect then
        D.btbUpdate (D.lookup dir b.instAddr).2.2 b.instAddr (D.lookup dir b.instAddr).2.1
      else (D.lookup dir b.instAddr).2.2) := by
  rw [Direction.predict, hb]
  rfl

theorem Direction.predict_of_unconditional (hb : b.isUncondCtrl = true) :
    D.predict useIndirect dir b = ((D.uncondBranch dir b.instAddr).1,
      if b.missesBTB useIndirect then
        D.btbUpdate (D.uncondBranch dir b.instAddr).2 b.instAddr (D.uncondBranch dir b.instAddr).1
      else (D.uncondBranch dir b.instAddr).2) := by
  rw [Direction.predict, hb]
  rfl

/-- The branches are predicted one after the other, and squashed youngest first. -/
def Direction.predictAndSquash (useIndirect : Bool) : List (Branch P) → σ → σ
  | [], dir => dir
  | b :: bs, dir =>
    let (bp_history, dir) := D.predict useIndirect dir b
    D.squash (predictAndSquash useIndirect bs dir) bp_history

end

namespace BPredUnit

variable {D : Direction σ H ρ} {u : BPredUnit σ H P} {b : Branch P}

/-- A prediction pops a return, pushes a call, pushes and pops a call without a target, or leaves the stack alone. -/
inductive Predicts (ras : ReturnAddrStack P) (pops pushes : Bool) : ReturnAddrStack P → PredictorHistory P H → Prop
  | pop {r : PredictorHistory P H} (h : pops = true) (hu : r.usedRAS = true) (hi : r.RASIndex = ras.tos)
      (ht : r.RASTarget = ras.top) (hr : r.wasCall = false) : Predicts ras pops pushes ras.pop r
  | push {r : PredictorHistory P H} {a : P} (h : pushes = true) (hp : r.holdsPush = true) (hr : r.wasReturn = false) :
      Predicts ras pops pushes (ras.push a) r
  | pushPop {r : PredictorHistory P H} {a : P} (h : pushes = true) (hu : r.usedRAS = false) (hp : r.holdsPush = false)
      (hr : r.wasReturn = false) : Predicts ras pops pushes (ras.push a).pop r
  | other {r : PredictorHistory P H} (hu : r.usedRAS = false) (hp : r.holdsPush = false) (hr : r.wasCall = false) :
      Predicts ras pops pushes ras r

theorem predictTarget_predHist (record : PredictorHistory P H) :
    (predictTarget D u b record).1.predHist = u.predHist := by
  simp only [predictTarget]
  split_ifs <;> rfl

theorem predictTarget_seqNum (record : PredictorHistory P H) :
    (predictTarget D u b record).2.1.seqNum = record.seqNum := by
  simp only [predictTarget]
  split_ifs <;> rfl

variable {record : PredictorHistory P H} {sn : ℕ}

theorem predictTarget_predicts (hu : record.usedRAS = false) (hr : record.wasReturn = false) (pops : Bool) :
    Predicts u.RAS pops b.isCall (predictTarget D u b record).1.RAS (predictTarget D u b record).2.1 := by
  simp only [predictTarget]
  cases hca : b.isCall with
  | false =>
    have hp (i : Bool) : ({ record with pushedRAS := false, wasCall := false, wasIndirect := i } :
        PredictorHistory P H).holdsPush = false := by simp [PredictorHistory.holdsPush]
    split_ifs <;> first | exact .other hu (hp _) rfl | simp_all
  | true =>
    have hp (i : Bool) : ({ record with pushedRAS := true, wasCall := true, wasIndirect := i } :
        PredictorHistory P H).holdsPush = true := by simp [PredictorHistory.holdsPush, hu]
    simp only [Bool.not_true, Bool.false_and, Bool.false_eq_true, if_false, if_true]
    split_ifs
    · exact .push rfl (hp _) hr
    · exact .pushPop rfl hu (by simp [PredictorHistory.holdsPush]) hr
    · exact .push rfl (hp _) hr

theorem predictTarget_useIndirect (record : PredictorHistory P H) :
    (predictTarget D u b record).1.useIndirect = u.useIndirect := by
  simp only [predictTarget]
  split_ifs <;> rfl

theorem predictTarget_bpHistory (record : PredictorHistory P H) :
    (predictTarget D u b record).2.1.bpHistory = record.bpHistory := by
  simp only [predictTarget]
  split_ifs <;> rfl

theorem predictTarget_dir (hret : b.isReturn = false) : (predictTarget D u b record).1.dir =
      if b.missesBTB u.useIndirect then D.btbUpdate u.dir b.instAddr record.bpHistory else u.dir := by
  simp only [predictTarget, Branch.missesBTB, hret]
  split_ifs <;> simp_all

/-- What a prediction does to the direction predictor and the stack, and what it records. -/
theorem exists_predict [Inhabited P] : ∃ r : PredictorHistory P H, (u.predict D b).predHist = r :: u.predHist ∧
    r.seqNum = b.seqNum ∧
    ((u.predict D b).useIndirect = u.useIndirect ∧
      (r.bpHistory, (u.predict D b).dir) = D.predict u.useIndirect u.dir b) ∧
    Predicts u.RAS (u.popsRAS D b) (u.pushesRAS D b) (u.predict D b).RAS r := by
  have hta : u.predictsTaken D b =
      (if b.isUncondCtrl then (true, D.uncondBranch u.dir b.instAddr) else D.lookup u.dir b.instAddr).1 := by
    rw [predictsTaken]
    cases b.isUncondCtrl <;> simp
  rw [popsRAS, pushesRAS, hta]
  unfold predict predictBranch Direction.predict
  generalize (if b.isUncondCtrl then (true, D.uncondBranch u.dir b.instAddr) else D.lookup u.dir b.instAddr) = x
  obtain ⟨pred_taken, bp_history, dir⟩ := x
  cases pred_taken with
  | false =>
    -- whether it is a return is all that the record says
    cases b.isReturn <;> exact ⟨_, rfl, rfl, ⟨rfl, rfl⟩, .other rfl rfl rfl⟩
  | true =>
    cases hret : b.isReturn with
    | true =>
      refine ⟨_, rfl, rfl, ⟨rfl, ?_⟩, .pop rfl rfl rfl rfl rfl⟩
      simp [Branch.missesBTB, hret, PredictorHistory.init]
    | false =>
      let v := { u with dir := dir }
      let record : PredictorHistory P H := .init b.seqNum b.instAddr true bp_history
      have hpr : Predicts v.RAS false b.isCall (predictTarget D v b record).1.RAS (predictTarget D v b record).2.1 :=
        predictTarget_predicts rfl rfl false
      refine ⟨_, congrArg (cons _) (predictTarget_predHist record), predictTarget_seqNum record,
        ⟨predictTarget_useIndirect record, ?_⟩, hpr⟩
      exact Prod.ext (predictTarget_bpHistory record) (predictTarget_dir hret)

/-- A squash goes through the records of the younger branches only. -/
theorem squashLoop_dir {recent old : List (PredictorHistory P H)} (hre : ∀ r ∈ recent, sn < r.seqNum)
    (hold : ∀ r ∈ old, r.seqNum ≤ sn) :
    (squashLoop D sn (recent ++ old) u).dir = recent.foldl (fun dir r => D.squash dir r.bpHistory) u.dir := by
  induction recent generalizing u with
  | nil =>
    cases old with
    | nil => rfl
    | cons r old =>
      have hr : ¬ r.seqNum > sn := Nat.not_lt.2 (hold r mem_cons_self)
      rw [nil_append, squashLoop, if_neg hr]
      rfl
  | cons r recent ih =>
    obtain ⟨hr, hre⟩ := forall_mem_cons.1 hre
    rw [cons_append, squashLoop, if_pos hr, ih hre]
    rfl

def predictAll [Inhabited P] (D : Direction σ H ρ) (bs : List (Branch P)) (u : BPredUnit σ H P) : BPredUnit σ H P :=
  bs.foldl (fun u b => u.predict D b) u

theorem exists_predictAll [Inhabited P] (bs : List (Branch P)) (hbs : ∀ b ∈ bs, sn < b.seqNum) :
    ∃ recent, (u.predictAll D bs).predHist = recent ++ u.predHist ∧ (∀ r ∈ recent, sn < r.seqNum) ∧
      recent.foldl (fun dir r => D.squash dir r.bpHistory) (u.predictAll D bs).dir =
        D.predictAndSquash u.useIndirect bs u.dir := by
  induction bs generalizing u with
  | nil => exact ⟨[], rfl, by simp, rfl⟩
  | cons b bs ih =>
    obtain ⟨hb, hbs⟩ := forall_mem_cons.1 hbs
    obtain ⟨r, hh, hseq, ⟨huse, hdir⟩, -⟩ := exists_predict (D := D) (u := u) (b := b)
    obtain ⟨recent, hall, hre, hsq⟩ := ih (u := u.predict D b) hbs
    refine ⟨recent ++ [r], ?_, ?_, ?_⟩
    · rw [append_assoc, singleton_append, ← hh]
      exact hall
    · intro r' hr'
      rw [mem_append, mem_singleton] at hr'
      obtain hr' | rfl := hr'
      · exact hre r' hr'
      · exact hseq ▸ hb
    · rw [foldl_append, Direction.predictAndSquash, ← hdir, ← huse]
      exact congrArg (fun dir => D.squash dir r.bpHistory) hsq

/-- The unit predicts a sequence of branches and squashes all of them. -/
theorem squash_predictAll [Inhabited P] {bs : List (Branch P)} (hbs : ∀ b ∈ bs, sn < b.seqNum)
    (hold : ∀ r ∈ u.predHist, r.seqNum ≤ sn) :
    ((u.predictAll D bs).squash D sn).dir = D.predictAndSquash u.useIndirect bs u.dir := by
  obtain ⟨recent, hall, hre, hsq⟩ := exists_predictAll (D := D) (u := u) bs hbs
  rw [squash, hall, squashLoop_dir hre hold, hsq]

end BPredUnit

end GuardianCouncil.BPred
