import GuardianCouncil.BPred.Predict
import GuardianCouncil.Lib.Fallible
import GuardianCouncil.Lib.Ring

/-!
# Repairing the return address stack

A return saves the top of the stack and its index before it pops it.  A call that is squashed is popped.  A squash does not
always give back the top of the stack, its index and the number of used entries.

* The record of a return that is predicted not taken has no index.  When the branch turns out to be taken it pops the
  stack, and is to be undone from then on, with the index that was never saved.
* The number of used entries is not part of what a return saves, so a squash does not give it back.  A call that finds the
  stack full does not count, but it is counted down again.

`ras_repair` says that the stack is repaired if neither happens.
-/

namespace GuardianCouncil.BPred

open Fallible List Function PredictorHistory ReturnAddrStack BPredUnit

variable {σ H ρ P : Type}

def pushesOf (recent : List (PredictorHistory P H)) : ℕ := recent.countP fun r => r.holdsPush

section

variable {r : PredictorHistory P H} {recent : List (PredictorHistory P H)}

@[simp] theorem pushesOf_nil : pushesOf ([] : List (PredictorHistory P H)) = 0 := rfl

@[simp] theorem pushesOf_cons_of_holdsPush (h : r.holdsPush = true) : pushesOf (r :: recent) = pushesOf recent + 1 :=
  countP_cons_of_pos h

@[simp] theorem pushesOf_cons_of_not (h : r.holdsPush = false) : pushesOf (r :: recent) = pushesOf recent :=
  countP_cons_of_neg (by simp [h])

theorem PredictorHistory.holdsPush_of_usedRAS (h : r.usedRAS = true) : r.holdsPush = false := by
  simp [holdsPush, h]

theorem PredictorHistory.usedRAS_of_holdsPush (h : r.holdsPush = true) : r.usedRAS = false := by
  cases hu : r.usedRAS with
  | false => rfl
  | true => simp [holdsPush_of_usedRAS hu] at h

end

/-! ## What may happen since the point -/

namespace BPredUnit

variable (D : Direction σ H ρ) (u : BPredUnit σ H P)

/-- The calls after `sn` that are on the stack. -/
def pushedSince (sn : ℕ) : ℕ := pushesOf (u.predHist.filter fun r => sn < r.seqNum)

/-- Branches after `sn` are predicted, squashed and repaired, and branches up to `sn` are committed.  Fewer than
`numEntries` of those in flight push. -/
def Since (sn : ℕ) : Op P ρ → Prop
  | .predict b => sn < b.seqNum ∧ (u.pushesRAS D b = true → u.pushedSince sn + 1 < u.RAS.numEntries)
  | .squash squashed_sn => sn ≤ squashed_sn
  | .mispredict _ squashed_sn _ => sn < squashed_sn
  | .update _ done_sn => done_sn ≤ sn

/-- A branch pops the stack only if all entries in use were pushed since `sn` (then there were none in use before), and
pushes only if the stack is not full.  If it pops when it is repaired, what its record says about the top of the stack
is so. -/
def Undoable (sn : ℕ) : Op P ρ → Prop
  | .predict b =>
    (u.popsRAS D b = true → u.RAS.usedEntries ≤ u.pushedSince sn) ∧
      (u.pushesRAS D b = true → u.RAS.usedEntries ≠ u.RAS.numEntries)
  | .mispredict _ squashed_sn true =>
    ∀ r ∈ (u.squash D squashed_sn).predHist.head?, r.wasReturn = true → r.usedRAS = false →
      r.RASIndex = (u.squash D squashed_sn).RAS.tos ∧ r.RASTarget = (u.squash D squashed_sn).RAS.top ∧
        (u.squash D squashed_sn).RAS.usedEntries ≤ (u.squash D squashed_sn).pushedSince sn
  | _ => True

instance decidableSince (sn : ℕ) : (op : Op P ρ) → Decidable (u.Since D sn op)
  | .predict _ => inferInstanceAs (Decidable (_ ∧ _))
  | .squash _ => inferInstanceAs (Decidable (_ ≤ _))
  | .mispredict .. => inferInstanceAs (Decidable (_ < _))
  | .update .. => inferInstanceAs (Decidable (_ ≤ _))

instance decidableUndoable [DecidableEq P] (sn : ℕ) : (op : Op P ρ) → Decidable (u.Undoable D sn op)
  | .predict _ => inferInstanceAs (Decidable (_ ∧ _))
  | .squash _ => .isTrue trivial
  | .mispredict _ squashed_sn true =>
    inferInstanceAs (Decidable (∀ r ∈ (u.squash D squashed_sn).predHist.head?, _))
  | .mispredict _ _ false => .isTrue trivial
  | .update .. => .isTrue trivial

end BPredUnit

/-! ## The records and the stack -/

/-- How the index of the top has moved from `t₀`, by the records since then. -/
inductive Chain (n t₀ : ℕ) : List (PredictorHistory P H) → ℕ → Prop
  | nil : Chain n t₀ [] t₀
  | pop {r : PredictorHistory P H} {older : List (PredictorHistory P H)} {t : ℕ} (h : Chain n t₀ older t)
      (hr : r.usedRAS = true) (ht : r.RASIndex = t) : Chain n t₀ (r :: older) (Ring.prev n t)
  | push {r : PredictorHistory P H} {older : List (PredictorHistory P H)} {t : ℕ} (h : Chain n t₀ older t)
      (hr : r.holdsPush = true) : Chain n t₀ (r :: older) (Ring.next n t)
  | other {r : PredictorHistory P H} {older : List (PredictorHistory P H)} {t : ℕ} (h : Chain n t₀ older t)
      (hu : r.usedRAS = false) (hr : r.holdsPush = false) : Chain n t₀ (r :: older) t

/-- The entry at `t₀` as the oldest record that saved it has it. -/
def savedEntry (t₀ : ℕ) : List (PredictorHistory P H) → Option P
  | [] => none
  | r :: older => (savedEntry t₀ older).or (if r.usedRAS ∧ r.RASIndex = t₀ then some r.RASTarget else none)

section

variable {n t₀ t : ℕ} {recent : List (PredictorHistory P H)}

theorem Chain.lt (h : Chain n t₀ recent t) (h0 : t₀ < n) : t < n := by
  induction h with
  | nil => exact h0
  | pop _ _ _ ih =>
    rw [Ring.prev]
    split <;> omega
  | push => exact Ring.next_lt (by omega)
  | other _ _ _ ih => exact ih

/-- As long as `t₀` has not been popped, the top is above it, by at most the number of calls. -/
theorem Chain.exists_above (h : Chain n t₀ recent t) (h0 : t₀ < n) (hlt : pushesOf recent < n)
    (hsa : savedEntry t₀ recent = none) : ∃ d, d ≤ pushesOf recent ∧ t = (t₀ + d) % n := by
  induction h with
  | nil => exact ⟨0, le_rfl, (Nat.mod_eq_of_lt h0).symm⟩
  | @pop r older t _ hr ht ih =>
    rw [savedEntry, Option.or_eq_none_iff] at hsa
    rw [pushesOf_cons_of_not (holdsPush_of_usedRAS hr)] at hlt ⊢
    obtain ⟨d, hd, rfl⟩ := ih hlt hsa.1
    have hne : (t₀ + d) % n ≠ t₀ := by
      intro heq
      simp [hr, ht, heq] at hsa
    obtain ⟨d, rfl⟩ : ∃ e, d = e + 1 := by
      refine Nat.exists_eq_succ_of_ne_zero ?_
      rintro rfl
      exact hne (Nat.mod_eq_of_lt h0)
    exact ⟨d, by omega, Ring.prev_add_mod h0 (by omega)⟩
  | @push r older t _ hr ih =>
    rw [savedEntry, Option.or_eq_none_iff] at hsa
    rw [pushesOf_cons_of_holdsPush hr] at hlt ⊢
    obtain ⟨d, hd, rfl⟩ := ih (by omega) hsa.1
    exact ⟨d + 1, by omega, Ring.next_add_mod h0⟩
  | @other r older t _ hu hr ih =>
    rw [savedEntry, Option.or_eq_none_iff] at hsa
    rw [pushesOf_cons_of_not hr] at hlt ⊢
    exact ih hlt hsa.1

end

/-- The squash of the records `recent` turns the stack `ras` into one with the top of `ras₀`. -/
structure Repairable (ras₀ : ReturnAddrStack P) (recent : List (PredictorHistory P H)) (ras : ReturnAddrStack P) :
    Prop where
  size : ras.numEntries = ras₀.numEntries
  tos_lt : ras₀.tos < ras₀.numEntries
  tos : Chain ras₀.numEntries ras₀.tos recent ras.tos
  entry : (savedEntry ras₀.tos recent).getD (ras.addrStack ras₀.tos) = ras₀.top
  used : ras.usedEntries - pushesOf recent = ras₀.usedEntries
  pushes : pushesOf recent < ras₀.numEntries
  returns : ∀ r ∈ recent, r.wasReturn = true ∨ r.usedRAS = true → r.wasCall = false

namespace Repairable

variable {ras₀ ras : ReturnAddrStack P} {recent : List (PredictorHistory P H)} {r : PredictorHistory P H}

theorem start (h : ras₀.tos < ras₀.numEntries) : Repairable ras₀ ([] : List (PredictorHistory P H)) ras₀ where
  size := rfl
  tos_lt := h
  tos := .nil
  entry := rfl
  used := rfl
  pushes := by
    rw [pushesOf_nil]
    omega
  returns := by simp

section

variable (h : Repairable ras₀ recent ras)
include h

theorem ras_tos_lt : ras.tos < ras.numEntries := h.size ▸ h.tos.lt h.tos_lt

theorem incrTos_eq : ras.incrTos = Ring.next ras₀.numEntries ras.tos := by
  have := h.ras_tos_lt
  have := h.size
  unfold incrTos Ring.next
  split <;> split <;> omega

theorem decrTos_eq : ras.decrTos = Ring.prev ras₀.numEntries ras.tos := by
  rw [decrTos, Ring.prev, h.size]

end

section

variable (h : Repairable ras₀ recent ras)
include h

/-- A branch that leaves the stack alone. -/
theorem other (hu : r.usedRAS = false) (hp : r.holdsPush = false)
    (hr : r.wasReturn = true → r.wasCall = false) : Repairable ras₀ (r :: recent) ras where
  size := h.size
  tos_lt := h.tos_lt
  tos := h.tos.other hu hp
  entry := by simpa [savedEntry, hu] using h.entry
  used := by simpa [hp] using h.used
  pushes := by simpa [hp] using h.pushes
  returns := by
    rw [forall_mem_cons]
    exact ⟨by simpa [hu] using hr, h.returns⟩

/-- A return. -/
theorem pop (hu : r.usedRAS = true) (hi : r.RASIndex = ras.tos) (ht : r.RASTarget = ras.top) (hr : r.wasCall = false)
    (hus : ras.usedEntries ≤ pushesOf recent) : Repairable ras₀ (r :: recent) ras.pop where
  size := h.size
  tos_lt := h.tos_lt
  tos := by
    rw [ReturnAddrStack.pop, h.decrTos_eq]
    exact h.tos.pop hu hi
  entry := by
    have hent := h.entry
    rw [savedEntry]
    cases hs : savedEntry ras₀.tos recent with
    | some a => simpa [hs] using hent
    | none =>
      rw [hs, Option.getD_none] at hent
      by_cases heq : r.RASIndex = ras₀.tos
      · rw [hi] at heq
        simpa [hu, hi, heq, ht, top] using hent
      · simpa [heq, ReturnAddrStack.pop] using hent
  used := by
    have := h.used
    rw [pushesOf_cons_of_not (holdsPush_of_usedRAS hu), ReturnAddrStack.pop]
    dsimp only
    split <;> omega
  pushes := by
    rw [pushesOf_cons_of_not (holdsPush_of_usedRAS hu)]
    exact h.pushes
  returns := by
    rw [forall_mem_cons]
    exact ⟨fun _ => hr, h.returns⟩

/-- A call. -/
theorem push (hp : r.holdsPush = true) (hr : r.wasReturn = false)
    (hro : pushesOf recent + 1 < ras₀.numEntries) (hus : ras.usedEntries ≠ ras.numEntries) (a : P) :
    Repairable ras₀ (r :: recent) (ras.push a) where
  size := h.size
  tos_lt := h.tos_lt
  tos := by
    rw [ReturnAddrStack.push, h.incrTos_eq]
    exact h.tos.push hp
  entry := by
    have hu := usedRAS_of_holdsPush hp
    have hent := h.entry
    have hsa : savedEntry ras₀.tos (r :: recent) = savedEntry ras₀.tos recent := by simp [savedEntry, hu]
    rw [hsa, ReturnAddrStack.push]
    cases hs : savedEntry ras₀.tos recent with
    | some a => simpa [hs] using hent
    | none =>
      -- nothing below the point has been popped, so that the new top is not the old one
      obtain ⟨d, hd, htos⟩ := h.tos.exists_above h.tos_lt h.pushes hs
      have hne : ras₀.tos ≠ ras.incrTos := by
        rw [h.incrTos_eq, htos, Ring.next_add_mod h.tos_lt]
        intro heq
        have := Ring.add_mod_inj (i := 0) (j := d + 1) h.tos_lt (by omega) (by omega)
          ((Nat.mod_eq_of_lt h.tos_lt).trans heq)
        omega
      rw [hs] at hent
      simpa [update_of_ne hne] using hent
  used := by
    have := h.used
    rw [pushesOf_cons_of_holdsPush hp, ReturnAddrStack.push]
    dsimp only
    rw [if_pos hus]
    omega
  pushes := by
    rw [pushesOf_cons_of_holdsPush hp]
    exact hro
  returns := by
    rw [forall_mem_cons]
    exact ⟨by simp [hr, usedRAS_of_holdsPush hp], h.returns⟩

end

section

variable (h : Repairable ras₀ (r :: recent) ras)
include h

/-- What a squash does for the youngest branch. -/
theorem undo : Repairable ras₀ recent (undoRAS ras r) := by
  have hre := (forall_mem_cons.1 h.returns).2
  have hus := h.used
  have hpu := h.pushes
  have hent := h.entry
  obtain ⟨hsi, htos_lt, htos⟩ := id h
  generalize htop : ras.tos = top at htos
  cases htos with
  | @pop _ _ t htos hu ht =>
    rw [pushesOf_cons_of_not (holdsPush_of_usedRAS hu)] at hus hpu
    rw [undoRAS, if_pos hu]
    refine ⟨hsi, htos_lt, ht ▸ htos, ?_, hus, hpu, hre⟩
    rw [savedEntry] at hent
    by_cases hi : r.RASIndex = ras₀.tos
    · cases hs : savedEntry ras₀.tos recent <;> simpa [hs, hu, hi, restore] using hent
    · have hne := update_of_ne (Ne.symm hi) r.RASTarget ras.addrStack
      cases hs : savedEntry ras₀.tos recent <;> simpa [hs, hi, restore, hne] using hent
  | @push _ _ t htos hp =>
    have hu := usedRAS_of_holdsPush hp
    have hca : (r.wasCall && r.pushedRAS) = true := by simpa [holdsPush, hu] using hp
    rw [pushesOf_cons_of_holdsPush hp] at hus hpu
    rw [undoRAS, if_neg (by simp [hu]), if_pos hca]
    have htt : t < ras₀.numEntries := htos.lt htos_lt
    have hba : ras.decrTos = t := by
      rw [h.decrTos_eq, htop]
      unfold Ring.prev Ring.next
      split <;> split <;> omega
    refine ⟨hsi, htos_lt, ?_, ?_, ?_, by omega, hre⟩
    · rw [ReturnAddrStack.pop, hba]
      exact htos
    · simpa [savedEntry, hu, ReturnAddrStack.pop] using hent
    · rw [ReturnAddrStack.pop]
      dsimp only
      split <;> omega
  | other htos hu hp =>
    have hca : (r.wasCall && r.pushedRAS) = false := by simpa [holdsPush, hu] using hp
    rw [pushesOf_cons_of_not hp] at hus hpu
    rw [undoRAS, if_neg (by simp [hu]), if_neg (by simp [hca])]
    exact ⟨hsi, htos_lt, htop ▸ htos, by simpa [savedEntry, hu] using hent, hus, hpu, hre⟩

theorem setTaken (taken : Bool) : Repairable ras₀ ({ r with predTaken := taken } :: recent) ras where
  size := h.size
  tos_lt := h.tos_lt
  tos := by
    have htos := h.tos
    generalize ras.tos = top at htos
    cases htos with
    | pop htos hu ht => exact htos.pop hu ht
    | push htos hp => exact htos.push hp
    | other htos hu hp => exact htos.other hu hp
  entry := h.entry
  used := h.used
  pushes := h.pushes
  returns := by
    rw [forall_mem_cons]
    exact forall_mem_cons.1 h.returns

/-- What the repair of a misprediction does for its branch. -/
theorem repair {taken : Bool} (hund : taken = true → r.wasReturn = true → r.usedRAS = false →
      r.RASIndex = ras.tos ∧ r.RASTarget = ras.top ∧ ras.usedEntries ≤ pushesOf (r :: recent)) :
    Repairable ras₀ ((BPredUnit.repair taken ras r).2 :: recent) (BPredUnit.repair taken ras r).1 := by
  have hre := (forall_mem_cons.1 h.returns).1
  have hun := h.undo
  rw [undoRAS] at hun
  cases taken with
  | true =>
    simp only [BPredUnit.repair, if_true]
    split_ifs with hret
    · rw [Bool.and_eq_true, Bool.not_eq_true'] at hret
      obtain ⟨hi, ht, hus⟩ := hund rfl hret.1 hret.2
      have hca := hre (.inl hret.1)
      have hp : r.holdsPush = false := by simp [holdsPush, hca]
      rw [pushesOf_cons_of_not hp] at hus
      rw [if_neg (by simp [hret.2]), if_neg (by simp [hca])] at hun
      exact hun.pop rfl hi ht hca hus
    · exact h.setTaken true
  | false =>
    simp only [BPredUnit.repair, Bool.false_eq_true, if_false]
    split
    · rename_i hu
      have hca := hre (.inr hu)
      rw [if_pos hu] at hun
      exact hun.other rfl (by simp [holdsPush, hca]) fun _ => hca
    · rename_i hu
      rw [if_neg hu] at hun
      split
      · rename_i hpu
        rw [if_pos hpu] at hun
        exact hun.other (by simpa using hu) (by simp [holdsPush]) fun hret => hre (.inl hret)
      · exact h.setTaken false

end

/-- A conditional call without a target is pushed and popped. -/
theorem push_pop (h : Repairable ras₀ recent ras) (hro : pushesOf recent + 1 < ras₀.numEntries)
    (hus : ras.usedEntries ≠ ras.numEntries) (hu : r.usedRAS = false) (hr : r.wasReturn = false) (a : P) :
    Repairable ras₀ recent (ras.push a).pop := by
  have hp := h.push (r := { r with wasCall := true, pushedRAS := true }) (by simp [holdsPush, hu]) hr hro hus a
  simpa [undoRAS, hu] using hp.undo

end Repairable

/-! ## The operations of the unit -/

namespace BPredUnit

variable {D : Direction σ H ρ} {u : BPredUnit σ H P} {b : Branch P}

theorem repair_seqNum {taken : Bool} {ras : ReturnAddrStack P} {r : PredictorHistory P H} :
    (repair taken ras r).2.seqNum = r.seqNum := by
  simp only [repair]
  split_ifs <;> rfl

/-- A commit of branches that are not among the youngest keeps those. -/
theorem updateLoop_keeps (draws : ℕ → ρ) {sn done_sn : ℕ} (hle : done_sn ≤ sn)
    (old young : List (PredictorHistory P H)) (hy : ∀ r ∈ young, sn < r.seqNum) (hold : ∀ r ∈ old, r.seqNum ≤ sn) :
    (updateLoop D draws done_sn (old ++ young) u).RAS = u.RAS ∧
      ∃ old', (updateLoop D draws done_sn (old ++ young) u).predHist = young.reverse ++ old' ∧
        ∀ r ∈ old', r.seqNum ≤ sn := by
  induction old generalizing u with
  | nil =>
    cases young with
    | nil => exact ⟨rfl, [], rfl, by simp⟩
    | cons r young =>
      have hr : ¬ r.seqNum ≤ done_sn := by
        have := hy r mem_cons_self
        omega
      rw [nil_append, updateLoop, if_neg hr]
      exact ⟨rfl, [], (append_nil _).symm, by simp⟩
  | cons r old ih =>
    rw [cons_append, updateLoop]
    split
    · exact ih fun r hr => hold r (mem_cons_of_mem _ hr)
    · refine ⟨rfl, (r :: old).reverse, ?_, ?_⟩
      · rw [← reverse_append, cons_append]
      · simpa only [mem_reverse] using hold

/-- The branches after `sn` can be undone, and the others are still there. -/
structure Inv (sn : ℕ) (ras₀ : ReturnAddrStack P) (u : BPredUnit σ H P) (recent old : List (PredictorHistory P H)) :
    Prop where
  predHist : u.predHist = recent ++ old
  recent_gt : ∀ r ∈ recent, sn < r.seqNum
  old_le : ∀ r ∈ old, r.seqNum ≤ sn
  repairable : Repairable ras₀ recent u.RAS

namespace Inv

variable {sn : ℕ} {ras₀ : ReturnAddrStack P} {recent old : List (PredictorHistory P H)}

theorem pushedSince_eq (h : Inv sn ras₀ u recent old) : u.pushedSince sn = pushesOf recent := by
  have hre : recent.filter (fun r => decide (sn < r.seqNum)) = recent := by
    simpa using h.recent_gt
  have hold : old.filter (fun r => decide (sn < r.seqNum)) = [] := by
    simpa using h.old_le
  rw [pushedSince, h.predHist, filter_append, hre, hold, append_nil]

theorem predict [Inhabited P] (h : Inv sn ras₀ u recent old) (hsi : Since D u sn (.predict b))
    (hun : Undoable D u sn (.predict b)) : ∃ recent', Inv sn ras₀ (u.predict D b) recent' old := by
  obtain ⟨hseq, hro⟩ := hsi
  obtain ⟨hpop, hpus⟩ := hun
  rw [h.pushedSince_eq] at hro hpop
  rw [h.repairable.size] at hro
  obtain ⟨r, hh, hr, -, hca⟩ := exists_predict (D := D) (u := u) (b := b)
  refine ⟨r :: recent, by rw [hh, h.predHist, cons_append], ?_, h.old_le, ?_⟩
  · rw [forall_mem_cons]
    exact ⟨hr ▸ hseq, h.recent_gt⟩
  generalize (u.predict D b).RAS = ras at hca
  cases hca with
  | pop hpo hu hi ht hc => exact h.repairable.pop hu hi ht hc (hpop hpo)
  | push hpu hp hret => exact h.repairable.push hp hret (hro hpu) (hpus hpu) _
  | pushPop hpu hu hp hret =>
    exact (h.repairable.push_pop (hro hpu) (hpus hpu) hu hret _).other hu hp (by simp [hret])
  | other hu hp hc => exact h.repairable.other hu hp fun _ => hc

variable {squashed_sn : ℕ} {u' : BPredUnit σ H P}

section

variable (h : Inv sn ras₀ u recent old)
include h

/-- A squash keeps what is older, and the rest of the invariant. -/
theorem squash (hle : sn ≤ squashed_sn) :
    ∃ recent', Inv sn ras₀ (u.squash D squashed_sn) recent' old ∧ ∀ r ∈ recent'.head?, r.seqNum ≤ squashed_sn := by
  obtain ⟨hh, hgt, hold, hrep⟩ := h
  rw [BPredUnit.squash, hh]
  clear hh
  induction recent generalizing u with
  | nil =>
    cases old with
    | nil => exact ⟨[], ⟨rfl, by simp, hold, hrep⟩, by simp⟩
    | cons r old =>
      have hr : ¬ r.seqNum > squashed_sn := by
        have := hold r mem_cons_self
        omega
      rw [nil_append, squashLoop, if_neg hr]
      exact ⟨[], ⟨rfl, by simp, hold, hrep⟩, by simp⟩
  | cons r recent ih =>
    rw [cons_append, squashLoop]
    split
    · exact ih (fun r hr => hgt r (mem_cons_of_mem _ hr)) hrep.undo
    · refine ⟨r :: recent, ⟨rfl, hgt, hold, hrep⟩, ?_⟩
      simp
      omega

theorem mispredict {draw : ρ} {actually_taken : Bool} (hsi : Since D u sn (.mispredict draw squashed_sn actually_taken))
    (hun : Undoable D u sn (.mispredict draw squashed_sn actually_taken))
    (hs : u.mispredict D draw squashed_sn actually_taken = .ok u') : ∃ recent', Inv sn ras₀ u' recent' old := by
  have hlt : sn < squashed_sn := hsi
  obtain ⟨recent₁, hinv, -⟩ := h.squash (D := D) hlt.le
  have hh := hinv.predHist
  rw [BPredUnit.mispredict] at hs
  dsimp only at hs
  cases recent₁ with
  | nil =>
    cases old with
    | nil =>
      rw [hh] at hs
      cases hs
      exact ⟨[], hinv⟩
    | cons r old =>
      -- a record from before the point is not the one of the branch
      have hr := hinv.old_le r mem_cons_self
      rw [hh] at hs
      rw [nil_append] at hs
      dsimp only at hs
      rw [if_pos (by omega)] at hs
      cases hs
  | cons r recent₁ =>
    have hre : Repairable ras₀ ((BPredUnit.repair actually_taken (u.squash D squashed_sn).RAS r).2 :: recent₁)
        (BPredUnit.repair actually_taken (u.squash D squashed_sn).RAS r).1 := by
      refine hinv.repairable.repair ?_
      rintro rfl hret hu
      have := hun r (by simp [hh]) hret hu
      rwa [hinv.pushedSince_eq] at this
    rw [hh] at hs
    rw [cons_append] at hs
    dsimp only at hs
    rw [check_eq_ok] at hs
    cases hs.2
    refine ⟨_ :: recent₁, rfl, ?_, hinv.old_le, hre⟩
    rw [forall_mem_cons, repair_seqNum]
    exact forall_mem_cons.1 hinv.recent_gt

theorem update {draws : ℕ → ρ} {done_sn : ℕ} (hle : done_sn ≤ sn) :
    ∃ old', Inv sn ras₀ (u.update D draws done_sn) recent old' := by
  rw [BPredUnit.update, h.predHist, reverse_append]
  obtain ⟨hras, old', hh, hold⟩ := updateLoop_keeps (D := D) (u := u) draws hle
    old.reverse recent.reverse (by simpa using h.recent_gt) (by simpa using h.old_le)
  rw [reverse_reverse] at hh
  exact ⟨old', hh, h.recent_gt, hold, hras ▸ h.repairable⟩

theorem step [Inhabited P] {op : Op P ρ} (hsi : Since D u sn op)
    (hun : Undoable D u sn op) (hs : u.step D op = .ok u') : ∃ recent' old', Inv sn ras₀ u' recent' old' := by
  cases op with
  | predict b =>
    cases hs
    obtain ⟨recent', hinv⟩ := h.predict hsi hun
    exact ⟨recent', old, hinv⟩
  | squash squashed_sn =>
    cases hs
    obtain ⟨recent', hinv, -⟩ := h.squash (D := D) hsi
    exact ⟨recent', old, hinv⟩
  | mispredict draw squashed_sn actually_taken =>
    obtain ⟨recent', hinv⟩ := h.mispredict hsi hun hs
    exact ⟨recent', old, hinv⟩
  | update draws done_sn =>
    cases hs
    obtain ⟨old', hinv⟩ := h.update (D := D) hsi
    exact ⟨recent, old', hinv⟩

end

end Inv

/-- The stack has the top, the index of the top and the number of used entries that another one has. -/
def SameTop (ras₀ ras : ReturnAddrStack P) : Prop :=
  ras.tos = ras₀.tos ∧ ras.usedEntries = ras₀.usedEntries ∧ ras.top = ras₀.top

/-- A squash of all branches since a point gives the stack back, if the calls and returns since then were all undoable. -/
theorem ras_repair [Inhabited P] (D : Direction σ H ρ) (u₀ u : BPredUnit σ H P) (sn : ℕ) (htos : u₀.RAS.tos < u₀.RAS.numEntries)
    (hold : ∀ r ∈ u₀.predHist, r.seqNum ≤ sn)
    (hrun : Reaches (step D) (fun u op => u.Since D sn op ∧ u.Undoable D sn op) u₀ u) :
    SameTop u₀.RAS (u.squash D sn).RAS := by
  have hinv : ∃ recent old, Inv sn u₀.RAS u recent old := by
    refine hrun.invariant (P := fun u => ∃ recent old, Inv sn u₀.RAS u recent old) ?_ ?_
    · exact ⟨[], u₀.predHist, rfl, by simp, hold, .start htos⟩
    · rintro u u' op _ ⟨recent, old, hinv⟩ ⟨hsi, hun⟩ hs
      exact hinv.step hsi hun hs
  obtain ⟨recent, old, hinv⟩ := hinv
  obtain ⟨recent', hinv', hh⟩ := hinv.squash (D := D) (le_refl sn)
  cases recent' with
  | cons r recent' =>
    have := hinv'.recent_gt r mem_cons_self
    have := hh r rfl
    omega
  | nil =>
    have hrep := hinv'.repairable
    have htop : (u.squash D sn).RAS.tos = u₀.RAS.tos := by
      have htop := hrep.tos
      generalize (u.squash D sn).RAS.tos = t at htop ⊢
      cases htop
      rfl
    refine ⟨htop, hrep.used, ?_⟩
    rw [top, htop]
    exact hrep.entry

/-- A predictor that says the same for every conditional branch. -/
def fixedDirection : Direction Bool Unit Unit where
  lookup taken _ := (taken, (), taken)
  uncondBranch taken _ := ((), taken)
  btbUpdate taken _ _ := taken
  update _ taken _ _ _ _ := taken
  squash taken _ := taken

def startUnit : BPredUnit Bool Unit ℕ :=
  { useIndirect := true, dir := false
    RAS := { numEntries := 4, usedEntries := 0, tos := 0, addrStack := fun _ => 0 } }

def callAt (seqNum : ℕ) : Branch ℕ :=
  { seqNum := seqNum, pc := 100 + seqNum, instAddr := 100 + seqNum, isUncondCtrl := true, isCall := true }

def returnAt (seqNum : ℕ) (isUncondCtrl : Bool) : Branch ℕ :=
  { seqNum := seqNum, pc := 200 + seqNum, instAddr := 200 + seqNum, isUncondCtrl := isUncondCtrl, isReturn := true }

/-- A call and a return from the empty stack. -/
theorem ras_repair_callReturn : ∃ u, Reaches (step fixedDirection)
      (fun u op => u.Since fixedDirection 0 op ∧ u.Undoable fixedDirection 0 op) startUnit u ∧
    u.predHist.length = 2 ∧ SameTop startUnit.RAS (u.squash fixedDirection 0).RAS := by
  obtain ⟨u, hrun, hleng⟩ := exists_reaches (step fixedDirection)
    (fun u op => u.Since fixedDirection 0 op ∧ u.Undoable fixedDirection 0 op) startUnit
    [.predict (callAt 1), .predict (returnAt 2 true)] (fun u => u.predHist.length = 2) (by decide +kernel)
  exact ⟨u, hrun, hleng, ras_repair fixedDirection startUnit u 0 (by decide) (by decide) hrun⟩

def afterCall : BPredUnit Bool Unit ℕ := startUnit.predict fixedDirection (callAt 1)

/-- A return is predicted after a call and squashed: the entry of the call is there again, but does not count as used.
A conditional return is predicted not taken, turns out to be taken, and is squashed: the top is at index zero. -/
theorem ras_not_repaired : (∃ u, Reaches (step fixedDirection) (fun u op => u.Since fixedDirection 1 op) afterCall u ∧
      afterCall.RAS.usedEntries = 1 ∧ (u.squash fixedDirection 1).RAS.usedEntries = 0) ∧
    ∃ u, Reaches (step fixedDirection) (fun u op => u.Since fixedDirection 1 op) afterCall u ∧
      afterCall.RAS.tos = 1 ∧ (u.squash fixedDirection 1).RAS.tos = 0 :=
  ⟨exists_reaches (step fixedDirection) (fun u op => u.Since fixedDirection 1 op) afterCall
      [.predict (returnAt 2 true)] _ (by decide +kernel),
    exists_reaches (step fixedDirection) (fun u op => u.Since fixedDirection 1 op) afterCall
      [.predict (returnAt 2 false), .mispredict () 2 true] _ (by decide +kernel)⟩

end BPredUnit

end GuardianCouncil.BPred
