import GuardianCouncil.BPred.Predict
import GuardianCouncil.LTage.Loops

/-!
# What a squash leaves behind

When a branch is squashed, `squash(tid, bp_history)` gives the count of its loop back and nothing else.  The path history,
the outcomes and the folded histories stay as the predictions have made them.  (They are set back if the branch before the
squashed ones was mispredicted, by the other `squash`, but not if the squash has another reason.)

The count that is changed when a branch is predicted is that of the first way of its set, and the count that is given back
is that of the way that hit.  So the first hit of a first way sets its count back to what the predictions before had made
of it, and the counts are as before if all hits were in first ways.
-/

namespace GuardianCouncil.LTage

open BPred LTAGE LoopRun

open List hiding lookup

variable {cfg : Config} {P : Type} {useIndirect : Bool}

/-! ## The loop counts -/

section

variable {s : LTAGE} {b : Branch P} {bi : BranchInfo}

theorem LTAGE.getLoop_currentIter {pc w : ℕ} (h : s.loopWay cfg pc = some w) :
    (s.getLoop cfg pc bi).2.currentIter = (s.ltable (cfg.lindex pc + w)).currentIterSpec := by
  rw [getLoop]
  rw [h]

/-- Only the first way of the set changes, and only if there was a hit. -/
theorem LTAGE.lookup_currentIterSpec {pc i : ℕ} (h : i ≠ cfg.lindex pc ∨ s.loopWay cfg pc = none) :
    ((s.lookup cfg pc).2.2.ltable i).currentIterSpec = (s.ltable i).currentIterSpec := by
  have hsp : (s.lookup cfg pc).2.2.ltable = (s.predict cfg pc true).2.2.ltable := rfl
  have hhit : (s.predictInfo cfg pc true).2.loopHit = s.loopWay cfg pc := getLoop_loopHit pc
  rw [hsp]
  simp only [predict, specLoopUpdate, hhit]
  rcases h with hi | hm
  · split
    · simp [hi]
    · rfl
  · simp [hm]

/-- What the prediction of a conditional branch does to the counts, and what it saves of them. -/
theorem predict_conditional (cfg : Config) (useIndirect : Bool) (s : LTAGE) (hb : b.isUncondCtrl = false) :
    ∃ bi s', (direction cfg).predict useIndirect s b = (bi, s') ∧
      bi.condBranch = true ∧ bi.loopIndex = cfg.lindex b.instAddr ∧ bi.loopHit = s.loopWay cfg b.instAddr ∧
      (∀ w, s.loopWay cfg b.instAddr = some w →
        bi.currentIter = (s.ltable (cfg.lindex b.instAddr + w)).currentIterSpec) ∧
      (∀ i, (s'.ltable i).tag = (s.ltable i).tag) ∧
      (∀ i, i ≠ cfg.lindex b.instAddr ∨ s.loopWay cfg b.instAddr = none →
        (s'.ltable i).currentIterSpec = (s.ltable i).currentIterSpec) := by
  have hlt : ((direction cfg).predict useIndirect s b).2.ltable = (s.lookup cfg b.instAddr).2.2.ltable := by
    rw [Direction.predict_of_conditional _ hb]
    dsimp only
    split <;> rfl
  refine ⟨(s.lookup cfg b.instAddr).2.1, ((direction cfg).predict useIndirect s b).2, ?_, rfl,
    getLoop_loopIndex b.instAddr, getLoop_loopHit b.instAddr, fun w hw => getLoop_currentIter hw, ?_, ?_⟩
  · rw [Direction.predict_of_conditional _ hb]
    rfl
  · rw [hlt]
    exact (s.lookup_spec cfg b.instAddr).2.2.2
  · rw [hlt]
    exact fun i => lookup_currentIterSpec

/-- An unconditional branch has no loop. -/
theorem predict_unconditional (cfg : Config) (useIndirect : Bool) (s : LTAGE) (hb : b.isUncondCtrl = true) :
    ∃ bi s', (direction cfg).predict useIndirect s b = (bi, s') ∧ bi.condBranch = false ∧ s'.ltable = s.ltable := by
  refine ⟨(s.uncondBranch cfg b.instAddr).1, ((direction cfg).predict useIndirect s b).2, ?_, rfl, ?_⟩
  · rw [Direction.predict_of_unconditional _ hb]
    rfl
  · rw [Direction.predict_of_unconditional _ hb]
    dsimp only
    split <;> rfl

theorem LTAGE.restoreLoop_currentIterSpec (i : ℕ) : ((s.restoreLoop bi).ltable i).currentIterSpec =
    if bi.condBranch = true ∧ ∃ w, bi.loopHit = some w ∧ i = bi.loopIndex + w then bi.currentIter
    else (s.ltable i).currentIterSpec := by
  rw [restoreLoop]
  split
  · rename_i w hco hhit
    by_cases hi : i = bi.loopIndex + w
    · subst hi
      simp [hco, hhit]
    · simp [hco, hhit, hi]
  · rename_i h
    rw [if_neg]
    rintro ⟨hco, w, hhit, -⟩
    exact h w hco hhit

theorem loopWay_congr {s s' : LTAGE} (h : ∀ i, (s'.ltable i).tag = (s.ltable i).tag) (pc : ℕ) :
    s'.loopWay cfg pc = s.loopWay cfg pc := by
  simp only [loopWay, h]

/-- The directions of a sequence of branches are predicted. -/
def predictDirections (cfg : Config) (useIndirect : Bool) (bs : List (Branch P)) (s : LTAGE) : LTAGE :=
  bs.foldl (fun s b => ((direction cfg).predict useIndirect s b).2) s

/-- The branch hits the entry at `i`, the first one of its set. -/
def hitsFirstWay (cfg : Config) (s : LTAGE) (i : ℕ) (b : Branch P) : Bool :=
  !b.isUncondCtrl && decide (cfg.lindex b.instAddr = i ∧ s.loopWay cfg b.instAddr = some 0)

/-- A sequence of branches none of which hits the set at `i`. -/
theorem currentIterSpec_predictDirections (bs : List (Branch P)) (s : LTAGE) (i : ℕ)
    (h : ∀ b ∈ bs, b.isUncondCtrl = false → i ≠ cfg.lindex b.instAddr ∨ s.loopWay cfg b.instAddr = none) :
    ((predictDirections cfg useIndirect bs s).ltable i).currentIterSpec = (s.ltable i).currentIterSpec := by
  induction bs generalizing s with
  | nil => rfl
  | cons b bs ih =>
    obtain ⟨hb, hbs⟩ := forall_mem_cons.1 h
    rw [predictDirections, foldl_cons]
    cases hun : b.isUncondCtrl with
    | true =>
      obtain ⟨bi, s', hpr, -, hlt⟩ := predict_unconditional cfg useIndirect s hun
      rw [hpr, ← hlt]
      have hwa : ∀ pc, s'.loopWay cfg pc = s.loopWay cfg pc := loopWay_congr fun i => by rw [hlt]
      exact ih s' fun b hb => hwa b.instAddr ▸ hbs b hb
    | false =>
      obtain ⟨bi, s', hpr, -, -, -, -, hta, hco⟩ := predict_conditional cfg useIndirect s hun
      rw [hpr, ← hco i (hb hun)]
      exact ih s' fun b hb => loopWay_congr hta b.instAddr ▸ hbs b hb

/-- The counts that a sequence of branches leaves are those that the predictions make before the first hit of a first way. -/
theorem currentIterSpec_predictAndSquash (bs : List (Branch P)) (s : LTAGE) (i : ℕ) :
    (((direction cfg).predictAndSquash useIndirect bs s).ltable i).currentIterSpec =
      ((predictDirections cfg useIndirect (bs.takeWhile (!hitsFirstWay cfg s i ·)) s).ltable i).currentIterSpec := by
  induction bs generalizing s with
  | nil => rfl
  | cons b bs ih =>
    have hnext {bi : BranchInfo} {s' : LTAGE} (hpr : (direction cfg).predict useIndirect s b = (bi, s'))
        (hta : ∀ i, (s'.ltable i).tag = (s.ltable i).tag) (hb : hitsFirstWay cfg s i b = false) :
        (((direction cfg).predictAndSquash useIndirect bs s').ltable i).currentIterSpec =
          ((predictDirections cfg useIndirect ((b :: bs).takeWhile (!hitsFirstWay cfg s i ·)) s).ltable
            i).currentIterSpec := by
      rw [ih s', takeWhile_cons_of_pos (by simp [hb]), predictDirections, predictDirections, foldl_cons, hpr]
      simp only [hitsFirstWay, loopWay_congr hta]
    rw [Direction.predictAndSquash]
    cases hun : b.isUncondCtrl with
    | true =>
      obtain ⟨bi, s', hpr, hcon, hlt⟩ := predict_unconditional cfg useIndirect s hun
      rw [← hnext hpr (fun i => by rw [hlt]) (by simp [hitsFirstWay, hun]), hpr]
      exact (restoreLoop_currentIterSpec i).trans (if_neg (by simp [hcon]))
    | false =>
      obtain ⟨bi, s', hpr, hcon, hin, hhit, hite, hta, -⟩ := predict_conditional cfg useIndirect s hun
      rw [hpr]
      refine (restoreLoop_currentIterSpec i).trans ?_
      split_ifs with hway
      · obtain ⟨-, w, hw, rfl⟩ := hway
        rw [hhit] at hw
        rw [hin, hite w hw]
        by_cases h0 : w = 0
        · subst h0
          rw [takeWhile_cons_of_neg (by simp [hitsFirstWay, hun, hw])]
          rfl
        -- the counts of the other ways are not touched by predictions
        refine (currentIterSpec_predictDirections _ s _ fun b' _ _ => .inl fun heq => ?_).symm
        have hlt : w < 4 := by
          have hmem := mem_of_find?_eq_some hw
          simp only [mem_cons, not_mem_nil, or_false] at hmem
          omega
        have h₁ := lindex_mod_four cfg b.instAddr
        have h₂ := lindex_mod_four cfg b'.instAddr
        omega
      · refine hnext hpr hta ?_
        by_contra hfirst
        simp only [hitsFirstWay, hun, Bool.not_false, Bool.true_and, decide_eq_true_eq, Bool.not_eq_false] at hfirst
        exact hway ⟨hcon, 0, hhit.trans hfirst.2, by rw [hin, hfirst.1, Nat.add_zero]⟩

/-- The counts that are as before: those that are not of a first way, or all of them if all hits are in first ways. -/
theorem currentIterSpec_before_firstWay (bs : List (Branch P)) (s : LTAGE) (i : ℕ)
    (h : i % 4 ≠ 0 ∨ ∀ b ∈ bs, b.isUncondCtrl = false → ∀ w, s.loopWay cfg b.instAddr = some w → w = 0) :
    ((predictDirections cfg useIndirect (bs.takeWhile (!hitsFirstWay cfg s i ·)) s).ltable i).currentIterSpec =
      (s.ltable i).currentIterSpec := by
  refine currentIterSpec_predictDirections _ s i fun b hb hun => ?_
  by_contra hhit
  obtain ⟨rfl, hsome⟩ := not_or.1 hhit |>.imp_left not_not.1
  obtain ⟨w, hw⟩ := Option.ne_none_iff_exists'.1 hsome
  rcases h with hi | h
  · exact hi (lindex_mod_four cfg b.instAddr)
  · have hw0 := h b ((List.takeWhile_prefix _).subset hb) hun w hw
    have hkept := all_eq_true.1 all_takeWhile b hb
    simp [hitsFirstWay, hun, hw, hw0] at hkept

end

/-! ## The histories -/

section

variable {s : LTAGE} {b : Branch P}

/-- A squash leaves the histories alone. -/
theorem squash_threadHistory (sn : ℕ) (l : List (PredictorHistory P BranchInfo)) (u : BPredUnit LTAGE BranchInfo P) :
    (BPredUnit.squashLoop (direction cfg) sn l u).dir.threadHistory = u.dir.threadHistory := by
  have hre (s : LTAGE) (bi : BranchInfo) : (s.restoreLoop bi).threadHistory = s.threadHistory := by
    rw [restoreLoop]
    split <;> rfl
  induction l generalizing u with
  | nil => rfl
  | cons r l ih =>
    rw [BPredUnit.squashLoop]
    split
    · rw [ih]
      exact hre _ _
    · rfl

/-- The last bit of the address comes in, and one of sixteen bits leaves. -/
def pathAfter (pathHist pc : ℕ) : ℕ := ((pathHist <<< 1) + pc % 2) &&& (2 ^ 16 - 1)

theorem predict_pathHist : ((direction cfg).predict useIndirect s b).2.threadHistory.pathHist =
    pathAfter s.threadHistory.pathHist b.instAddr := by
  have hsp (pc : ℕ) (taken : Bool) (bi : BranchInfo) :
      (s.specLoopUpdate cfg pc taken bi).threadHistory = s.threadHistory := by
    rw [specLoopUpdate]
    split <;> rfl
  cases hb : b.isUncondCtrl with
  | false =>
    have hlo : (s.lookup cfg b.instAddr).2.2.threadHistory.pathHist =
        pathAfter s.threadHistory.pathHist b.instAddr := by
      simp only [lookup, predict, hsp]
      rfl
    rw [Direction.predict_of_conditional _ hb]
    dsimp only
    split <;> exact hlo
  | true =>
    have hun : (s.uncondBranch cfg b.instAddr).2.threadHistory.pathHist =
        pathAfter s.threadHistory.pathHist b.instAddr := by
      simp only [uncondBranch, predict, hsp]
      rfl
    rw [Direction.predict_of_unconditional _ hb]
    dsimp only
    split <;> exact hun

theorem predictAll_dir [Inhabited P] (bs : List (Branch P)) (u : BPredUnit LTAGE BranchInfo P) :
    (u.predictAll (direction cfg) bs).dir = predictDirections cfg u.useIndirect bs u.dir := by
  induction bs generalizing u with
  | nil => rfl
  | cons b bs ih =>
    obtain ⟨r, -, -, ⟨huse, hdir⟩, -⟩ := BPredUnit.exists_predict (D := direction cfg) (u := u) (b := b)
    have hdir : (u.predict (direction cfg) b).dir = ((direction cfg).predict u.useIndirect u.dir b).2 :=
      congrArg Prod.snd hdir
    refine (ih (u.predict (direction cfg) b)).trans ?_
    rw [huse, hdir]
    rfl

theorem predictAll_pathHist [Inhabited P] (bs : List (Branch P)) (u : BPredUnit LTAGE BranchInfo P) :
    (u.predictAll (direction cfg) bs).dir.threadHistory.pathHist =
      (bs.map (·.instAddr)).foldl pathAfter u.dir.threadHistory.pathHist := by
  rw [predictAll_dir, predictDirections]
  generalize u.dir = s
  induction bs generalizing s with
  | nil => rfl
  | cons b bs ih => rw [foldl_cons, ih, predict_pathHist, map_cons, foldl_cons]

/-- Two paths that are the same after one branch. -/
theorem pathAfter_collide (pc : ℕ) : pathAfter 0 pc = pathAfter (2 ^ 15) pc := by
  rw [pathAfter, pathAfter, Nat.and_two_pow_sub_one_eq_mod, Nat.and_two_pow_sub_one_eq_mod]
  omega

end

/-! ## What is restored -/

/-- The path, the last outcomes, the folded histories and the loop counts are as they were. -/
structure Restored (cfg : Config) (s s' : LTAGE) : Prop where
  pathHist : s'.threadHistory.pathHist = s.threadHistory.pathHist
  gHist : ∀ i < cfg.maxHist, s'.threadHistory.gHist i = s.threadHistory.gHist i
  folded : ∀ k i, 1 ≤ i → i ≤ cfg.nHistoryTables → s'.threadHistory.comps k i = s.threadHistory.comps k i
  currentIterSpec : ∀ i, (s'.ltable i).currentIterSpec = (s.ltable i).currentIterSpec

/-- **A squash restores what the predictions have changed, whatever the state was, only if there were none.**  It leaves the
histories as the predictions have made them, and the loop counts as the predictions before the first hit of a first way
have made them.  So the counts that are not of a first way are restored, and these too if all hits were in first ways; and a
state is restored only if the predictions themselves happen to lead back to it. -/
theorem squash_restores_nothing [Inhabited P] (cfg : Config) (sn : ℕ) (bs : List (Branch P))
    (hbs : ∀ b ∈ bs, sn < b.seqNum) : ((∀ u : BPredUnit LTAGE BranchInfo P, (∀ r ∈ u.predHist, r.seqNum ≤ sn) →
        Restored cfg u.dir ((u.predictAll (direction cfg) bs).squash (direction cfg) sn).dir) ↔ bs = []) ∧
    ∀ u : BPredUnit LTAGE BranchInfo P, (∀ r ∈ u.predHist, r.seqNum ≤ sn) →
      ((u.predictAll (direction cfg) bs).squash (direction cfg) sn).dir.threadHistory =
          (u.predictAll (direction cfg) bs).dir.threadHistory ∧
        (∀ i, (i % 4 ≠ 0 ∨ ∀ b ∈ bs, b.isUncondCtrl = false → ∀ w, u.dir.loopWay cfg b.instAddr = some w → w = 0) →
          (((u.predictAll (direction cfg) bs).squash (direction cfg) sn).dir.ltable i).currentIterSpec =
            (u.dir.ltable i).currentIterSpec) ∧
        (Restored cfg u.dir ((u.predictAll (direction cfg) bs).squash (direction cfg) sn).dir ↔
          (bs.map (·.instAddr)).foldl pathAfter u.dir.threadHistory.pathHist = u.dir.threadHistory.pathHist ∧
          (∀ i < cfg.maxHist, (u.predictAll (direction cfg) bs).dir.threadHistory.gHist i = u.dir.threadHistory.gHist i) ∧
          (∀ k i, 1 ≤ i → i ≤ cfg.nHistoryTables →
            (u.predictAll (direction cfg) bs).dir.threadHistory.comps k i = u.dir.threadHistory.comps k i) ∧
          ∀ i, ((u.predictAll (direction cfg) (bs.takeWhile (!hitsFirstWay cfg u.dir i ·))).dir.ltable i).currentIterSpec =
            (u.dir.ltable i).currentIterSpec) := by
  refine ⟨⟨fun h => ?_, ?_⟩, fun u hold => ⟨squash_threadHistory _ _ _, fun i hi => ?_, ?_⟩⟩
  · by_contra hne
    obtain ⟨b, bs, rfl⟩ := exists_cons_of_ne_nil hne
    -- the same state but for the path, which is forgotten
    let unit (path : ℕ) : BPredUnit LTAGE BranchInfo P :=
      { useIndirect := true
        dir := { init cfg with threadHistory := { ThreadHistory.init cfg with pathHist := path } }
        RAS := { numEntries := 1, usedEntries := 0, tos := 0, addrStack := fun _ => default } }
    have hpa (path : ℕ) : ((b :: bs).map (·.instAddr)).foldl pathAfter path = path := by
      have hre := (h (unit path) (by simp [unit])).pathHist
      rwa [BPredUnit.squash, squash_threadHistory, predictAll_pathHist] at hre
    have h0 := hpa 0
    have h1 := hpa (2 ^ 15)
    rw [map_cons, foldl_cons] at h0 h1
    rw [← pathAfter_collide, h0] at h1
    omega
  · rintro rfl u hold
    have hsa : ((u.predictAll (direction cfg) []).squash (direction cfg) sn).dir = u.dir :=
      BPredUnit.squash_predictAll hbs hold
    rw [hsa]
    exact ⟨rfl, fun _ _ => rfl, fun _ _ _ _ => rfl, fun _ => rfl⟩
  · rw [BPredUnit.squash_predictAll hbs hold, currentIterSpec_predictAndSquash]
    exact currentIterSpec_before_firstWay bs u.dir i hi
  · have hth : ((u.predictAll (direction cfg) bs).squash (direction cfg) sn).dir.threadHistory =
        (u.predictAll (direction cfg) bs).dir.threadHistory := squash_threadHistory _ _ _
    have hiter (i : ℕ) : (((u.predictAll (direction cfg) bs).squash (direction cfg) sn).dir.ltable i).currentIterSpec =
        ((u.predictAll (direction cfg) (bs.takeWhile (!hitsFirstWay cfg u.dir i ·))).dir.ltable i).currentIterSpec := by
      rw [BPredUnit.squash_predictAll hbs hold, currentIterSpec_predictAndSquash, predictAll_dir]
    rw [← predictAll_pathHist, ← hth]
    simp only [← hiter]
    constructor
    · exact fun h => ⟨h.pathHist, h.gHist, h.folded, h.currentIterSpec⟩
    · rintro ⟨hp, hg, hf, hc⟩
      exact ⟨hp, hg, hf, hc⟩

/-- The branch at address 4160 has the second entry of its set. -/
def secondWay : BPredUnit LTAGE BranchInfo ℕ :=
  { useIndirect := true
    dir := { init oneBank with ltable := fun i => { currentIterSpec := 5, tag := if i = 1 then 65 else 1 } }
    RAS := { numEntries := 1, usedEntries := 0, tos := 0, addrStack := fun _ => 0 } }

def branchAt (pc : ℕ) (isUncondCtrl : Bool) : Branch ℕ :=
  { seqNum := 1, pc := pc, instAddr := pc, isUncondCtrl := isUncondCtrl }

/-- After a jump the histories are not what they were. -/
theorem squash_restores_nothing_jump : ((secondWay.predictAll (direction oneBank) [branchAt 4161 true]).squash
        (direction oneBank) 0).dir.threadHistory =
      (secondWay.predictAll (direction oneBank) [branchAt 4161 true]).dir.threadHistory ∧
    ¬ ∀ u : BPredUnit LTAGE BranchInfo ℕ, (∀ r ∈ u.predHist, r.seqNum ≤ 0) →
      Restored oneBank u.dir ((u.predictAll (direction oneBank) [branchAt 4161 true]).squash
        (direction oneBank) 0).dir := by
  obtain ⟨hiff, hlef⟩ := squash_restores_nothing oneBank 0 [branchAt 4161 true] (by decide)
  exact ⟨(hlef secondWay (by decide)).1, fun h => by simpa using hiff.1 h⟩

/-- A jump is predicted and squashed: its address stays in the path, and its outcome in the global history.  A branch that
hits the second way is predicted and squashed: the count of the first way is gone. -/
theorem squash_leaves_histories :
    (secondWay.dir.threadHistory.pathHist = 0 ∧ secondWay.dir.threadHistory.gHist 0 = false) ∧
    (((secondWay.predictAll (direction oneBank) [branchAt 4161 true]).squash
        (direction oneBank) 0).dir.threadHistory.pathHist = 1 ∧
      ((secondWay.predictAll (direction oneBank) [branchAt 4161 true]).squash
        (direction oneBank) 0).dir.threadHistory.gHist 0 = true) ∧
    (secondWay.dir.ltable 0).currentIterSpec = 5 ∧
    (((secondWay.predictAll (direction oneBank) [branchAt 4160 false]).squash
      (direction oneBank) 0).dir.ltable 0).currentIterSpec = 6 := by
  decide +kernel

end GuardianCouncil.LTage
