import Mathlib.Data.List.Nodup
import GuardianCouncil.LTage.Model
import GuardianCouncil.Lib.Fallible

/-!
# The entries of the loop predictor

The loop table has sets of four entries.  A branch that hit none of them when it was predicted, and is taken, gets one when
it is committed.  From then on it should find this entry, and no other, until the entry is given to another branch.

* The tag of an entry has 16 bits, and the tag of the branch it is compared with has 32.  A branch with a larger tag does
  not find its entry.
* A branch that is predicted twice before it is committed misses twice, and gets two entries.
-/

namespace GuardianCouncil.LTage

open Fallible List Function

/-! ## Runs -/

/-- The predictor, the records of all branches that were looked up, and which branch each loop entry was allocated for. -/
structure LoopRun where
  pred : LTAGE
  seen : List BranchInfo
  owner : ℕ → Option ℕ

namespace LoopRun

inductive Op
  | lookup (pc : ℕ)
  /-- An update with the record of some lookup. -/
  | update (record : ℕ) (taken squashed : Bool) (draw : Draw)

inductive RunFault
  | noRecord

variable (cfg : Config)

def start (pred : LTAGE) : LoopRun := ⟨pred, [], fun _ => none⟩

def step (run : LoopRun) : Op → Except RunFault LoopRun
  | .lookup pc =>
    let (_, bi, pred) := run.pred.lookup cfg pc
    .ok { run with pred := pred, seen := bi :: run.seen }
  | .update record taken squashed draw =>
    match run.seen[record]? with
    | none => .error .noRecord
    | some bi =>
      let pred := run.pred.update cfg draw bi.branchPC taken bi squashed
      match squashed, (run.pred.commit cfg draw taken bi).2.1 with
      | false, some idx => .ok { run with pred := pred, owner := update run.owner idx (some bi.branchPC) }
      | _, _ => .ok { run with pred := pred }

/-- An entry is allocated only for a tag of 16 bits that no entry of the set has. -/
def Allowed (run : LoopRun) : Op → Prop
  | .lookup _ => True
  | .update record taken squashed _ =>
    ∀ bi ∈ run.seen[record]?, squashed = false → taken = true → bi.loopHit = none →
      (∃ w < 4, (run.pred.ltable (bi.loopIndex + w)).age = 0) →
      (0 ≤ bi.loopTag ∧ bi.loopTag < 2 ^ 16) ∧ ∀ w < 4, ((run.pred.ltable (bi.loopIndex + w)).tag : ℤ) ≠ bi.loopTag

instance (run : LoopRun) : (op : Op) → Decidable (run.Allowed op)
  | .lookup _ => .isTrue trivial
  | .update record .. => inferInstanceAs (Decidable (∀ bi ∈ run.seen[record]?, _))

/-- A branch with an entry finds this entry, and it has no other. -/
def Found (run : LoopRun) : Prop :=
  (∀ idx pc, run.owner idx = some pc → ∀ bi,
    ∃ w, (run.pred.getLoop cfg pc bi).2.loopHit = some w ∧ (run.pred.getLoop cfg pc bi).2.loopIndex + w = idx) ∧
  ∀ idx idx' pc, run.owner idx = some pc → run.owner idx' = some pc → idx = idx'

end LoopRun

/-! ## What an update does to the tags -/

section

variable {cfg : Config} {s : LTAGE} {taken : Bool} {bi : BranchInfo}

theorem LoopEntry.train_tag (e : LoopEntry) : (e.train taken bi).tag = e.tag := by
  have hsu : (e.succeed bi).tag = e.tag := by
    rw [LoopEntry.succeed]
    split <;> rfl
  have hite (e : LoopEntry) : e.iterate.tag = e.tag := by
    simp only [LoopEntry.iterate]
    split_ifs <;> rfl
  have hlea (e : LoopEntry) : (e.leave taken).tag = e.tag := by
    rw [LoopEntry.leave]
    split_ifs <;> rfl
  simp only [LoopEntry.train]
  split_ifs
  · rfl
  · rw [hlea, hite, hsu]
  · rw [hite, hsu]

/-- The tags after an entry was allocated, or none was. -/
def tagsAfter (ltable : ℕ → LoopEntry) (loopTag : ℤ) (allocated : Option ℕ) (i : ℕ) : ℕ :=
  if allocated = some i then (loopTag % 2 ^ 16).toNat else (ltable i).tag

/-- The entry that is allocated is the only one whose tag changes.  It is one of those that were gone through, one of which
has no age. -/
theorem allocateLoop_spec (taken : Bool) (loopTag : ℤ) {l : List ℕ} (hl : l.Nodup) (ltable : ℕ → LoopEntry) :
    (∀ i, ((allocateLoop taken loopTag l ltable).1 i).tag =
      tagsAfter ltable loopTag (allocateLoop taken loopTag l ltable).2 i) ∧
    ∀ idx, (allocateLoop taken loopTag l ltable).2 = some idx → idx ∈ l ∧ ∃ i ∈ l, (ltable i).age = 0 := by
  induction l generalizing ltable with
  | nil => exact ⟨fun i => by simp [allocateLoop, tagsAfter], by simp [allocateLoop]⟩
  | cons j l ih =>
    obtain ⟨hj, hl⟩ := nodup_cons.1 hl
    rw [allocateLoop]
    split_ifs with hage
    · refine ⟨fun i => ?_, ?_⟩
      · by_cases hi : i = j
        · subst hi
          simp [tagsAfter, LoopEntry.allocate]
        · simp [tagsAfter, hi, Ne.symm hi]
      · rintro idx h
        cases h
        exact ⟨mem_cons_self, j, mem_cons_self, hage⟩
    · obtain ⟨hta, hmem⟩ := ih hl (update ltable j { ltable j with age := (ltable j).age - 1 })
      refine ⟨fun i => (hta i).trans ?_, fun idx h => ?_⟩
      · rw [tagsAfter, tagsAfter]
        by_cases hi : i = j
        · subst hi
          simp
        · simp [hi]
      · obtain ⟨hidx, i, hi, hage⟩ := hmem idx h
        have hne : i ≠ j := by
          rintro rfl
          exact hj hi
        rw [update_of_ne hne] at hage
        exact ⟨mem_cons_of_mem _ hidx, i, mem_cons_of_mem _ hi, hage⟩

/-- The entries of a set, from a random one on. -/
theorem mem_ways {idx base nrand : ℕ} (h : idx ∈ [0, 1, 2, 3].map fun i => base + (nrand + i) % 4) :
    ∃ w < 4, idx = base + w := by
  obtain ⟨i, -, rfl⟩ := mem_map.1 h
  exact ⟨(nrand + i) % 4, Nat.mod_lt _ (by decide), rfl⟩

theorem nodup_ways (base nrand : ℕ) : ([0, 1, 2, 3].map fun i => base + (nrand + i) % 4).Nodup := by
  refine List.Nodup.map_on ?_ (by decide)
  intro i hi j hj h
  simp only [mem_cons, not_mem_nil, or_false] at hi hj
  omega

namespace LTAGE

theorem trainTage_ltable : (s.trainTage cfg taken bi).ltable = s.ltable := by
  simp only [trainTage]
  split_ifs <;> rfl

theorem tick_ltable : (s.tick cfg).ltable = s.ltable := by
  simp only [tick]
  split <;> rfl

theorem updateChoice_ltable (draw : Draw) :
    (s.updateChoice draw taken bi).1.ltable = (s.loopUpdate taken bi draw.loopRand).1.ltable := by
  simp only [updateChoice, updateUseAlt]
  split_ifs <;> rfl

theorem updateTables_ltable (draw : Draw) :
    (s.updateTables cfg draw taken bi).1.ltable = (s.loopUpdate taken bi draw.loopRand).1.ltable := by
  rw [← updateChoice_ltable]
  simp only [updateTables, trainTage_ltable, tick_ltable]

/-- What a commit does to the tags of the loop table. -/
theorem loopUpdate_spec (nrand : ℕ) : (∀ i, ((s.loopUpdate taken bi nrand).1.ltable i).tag =
      tagsAfter s.ltable bi.loopTag (s.loopUpdate taken bi nrand).2 i) ∧
    ∀ idx, (s.loopUpdate taken bi nrand).2 = some idx → taken = true ∧ bi.loopHit = none ∧
      (∃ w < 4, idx = bi.loopIndex + w) ∧ ∃ w < 4, (s.ltable (bi.loopIndex + w)).age = 0 := by
  rw [loopUpdate]
  split
  · rename_i i _
    refine ⟨fun j => ?_, by simp⟩
    by_cases hj : j = bi.loopIndex + i
    · subst hj
      simp [tagsAfter, LoopEntry.train_tag]
    · simp [tagsAfter, hj]
  · rename_i hm
    split_ifs with hta
    · obtain ⟨htag, hmem⟩ := allocateLoop_spec taken bi.loopTag (nodup_ways bi.loopIndex nrand) s.ltable
      refine ⟨htag, fun idx hidx => ?_⟩
      obtain ⟨hway, i, hi, hage⟩ := hmem idx hidx
      obtain ⟨w, hw, rfl⟩ := mem_ways hi
      exact ⟨hta, hm, mem_ways hway, w, hw, hage⟩
    · exact ⟨fun j => by simp [tagsAfter], by simp⟩

theorem commit_ltable (cfg : Config) (s : LTAGE) (draw : Draw) (taken : Bool) (bi : BranchInfo) :
    (∀ i, ((s.commit cfg draw taken bi).1.ltable i).tag =
      tagsAfter s.ltable bi.loopTag (s.commit cfg draw taken bi).2.1 i) ∧
    ∀ idx, (s.commit cfg draw taken bi).2.1 = some idx → taken = true ∧ bi.loopHit = none ∧
      (∃ w < 4, idx = bi.loopIndex + w) ∧ ∃ w < 4, (s.ltable (bi.loopIndex + w)).age = 0 := by
  rw [commit]
  split
  · rw [updateTables_ltable]
    exact loopUpdate_spec draw.loopRand
  · exact ⟨fun j => by simp [tagsAfter], by simp⟩

theorem getLoop_loopHit (pc : ℕ) : (s.getLoop cfg pc bi).2.loopHit = s.loopWay cfg pc := by
  rw [getLoop]
  dsimp only
  split <;> simp_all

theorem getLoop_loopIndex (pc : ℕ) : (s.getLoop cfg pc bi).2.loopIndex = cfg.lindex pc := by
  rw [getLoop]
  dsimp only
  split <;> rfl

theorem getLoop_loopTag (pc : ℕ) : (s.getLoop cfg pc bi).2.loopTag = cfg.loopTag pc := by
  rw [getLoop]
  dsimp only
  split <;> rfl

/-- The record of a lookup, and the tags, which stay as they are. -/
theorem lookup_spec (cfg : Config) (s : LTAGE) (pc : ℕ) : (s.lookup cfg pc).2.1.branchPC = pc ∧
    (s.lookup cfg pc).2.1.loopIndex = cfg.lindex pc ∧ (s.lookup cfg pc).2.1.loopTag = cfg.loopTag pc ∧
    ∀ i, ((s.lookup cfg pc).2.2.ltable i).tag = (s.ltable i).tag := by
  refine ⟨rfl, getLoop_loopIndex pc, getLoop_loopTag pc, fun i => ?_⟩
  have hsp : (s.lookup cfg pc).2.2.ltable = (s.predict cfg pc true).2.2.ltable := rfl
  rw [hsp]
  simp only [predict, specLoopUpdate]
  split
  · by_cases hi : i = cfg.lindex pc
    · subst hi
      simp
    · simp [hi]
  · rfl

theorem restoreLoop_tag (i : ℕ) : ((s.restoreLoop bi).ltable i).tag = (s.ltable i).tag := by
  rw [restoreLoop]
  split
  · rename_i j _ _
    by_cases hi : i = bi.loopIndex + j
    · subst hi
      simp
    · simp [hi]
  · rfl

end LTAGE

end

/-! ## Runs keep the entries apart -/

namespace LoopRun

variable {cfg : Config} {run run' : LoopRun}

theorem lindex_mod_four (cfg : Config) (pc : ℕ) : cfg.lindex pc % 4 = 0 := by
  rw [Config.lindex, Nat.shiftLeft_eq]
  exact Nat.mul_mod_left _ _

/-- The entry of a branch has its tag, and no other entry of the set has. -/
structure Owns (cfg : Config) (ltable : ℕ → LoopEntry) (pc idx : ℕ) : Prop where
  inSet : ∃ w < 4, idx = cfg.lindex pc + w
  tag : ((ltable idx).tag : ℤ) = cfg.loopTag pc
  only : ∀ w < 4, ((ltable (cfg.lindex pc + w)).tag : ℤ) = cfg.loopTag pc → cfg.lindex pc + w = idx

structure Inv (cfg : Config) (run : LoopRun) : Prop where
  seen : ∀ bi ∈ run.seen, bi.loopIndex = cfg.lindex bi.branchPC ∧ bi.loopTag = cfg.loopTag bi.branchPC
  owns : ∀ idx pc, run.owner idx = some pc → Owns cfg run.pred.ltable pc idx

variable {idx pc : ℕ} {ltable ltable' : ℕ → LoopEntry}

theorem Owns.congr (h : Owns cfg ltable pc idx)
    (htag : ∀ i, (ltable' i).tag = (ltable i).tag) : Owns cfg ltable' pc idx := by
  refine ⟨h.inSet, ?_, fun w hw hwt => ?_⟩
  · rw [htag]
    exact h.tag
  · rw [htag] at hwt
    exact h.only w hw hwt

/-- An entry for a tag that fits and that no entry of the set has. -/
theorem Owns.allocate (hset : ∃ w < 4, idx = cfg.lindex pc + w) (hf : 0 ≤ cfg.loopTag pc ∧ cfg.loopTag pc < 2 ^ 16)
    (hnew : ∀ w < 4, ((ltable (cfg.lindex pc + w)).tag : ℤ) ≠ cfg.loopTag pc)
    (htag : ∀ i, (ltable' i).tag = tagsAfter ltable (cfg.loopTag pc) (some idx) i) : Owns cfg ltable' pc idx := by
  refine ⟨hset, ?_, fun w hw hwt => ?_⟩
  · rw [htag, tagsAfter, if_pos rfl]
    omega
  · by_contra hne
    rw [htag, tagsAfter, if_neg (by simpa using Ne.symm hne)] at hwt
    exact hnew w hw hwt

/-- The entries of other branches, which do not have the tag. -/
theorem Owns.of_allocate {pc' idx' : ℕ} (h : Owns cfg ltable pc idx)
    (hne : idx ≠ idx') (hset : ∃ w < 4, idx' = cfg.lindex pc' + w)
    (hnew : ∀ w < 4, ((ltable (cfg.lindex pc' + w)).tag : ℤ) ≠ cfg.loopTag pc')
    (hf : 0 ≤ cfg.loopTag pc' ∧ cfg.loopTag pc' < 2 ^ 16)
    (htag : ∀ i, (ltable' i).tag = tagsAfter ltable (cfg.loopTag pc') (some idx') i) : Owns cfg ltable' pc idx := by
  have ho (i : ℕ) (hi : i ≠ idx') : (ltable' i).tag = (ltable i).tag := by
    rw [htag, tagsAfter, if_neg (by simpa using Ne.symm hi)]
  refine ⟨h.inSet, ?_, fun w hw hwt => ?_⟩
  · rw [ho idx hne]
    exact h.tag
  · by_cases hi : cfg.lindex pc + w = idx'
    · -- the two branches share the set, so that their tags differ
      obtain ⟨w', hw', hidx'⟩ := hset
      obtain ⟨w₀, hw₀, hidx⟩ := h.inSet
      have h4 := lindex_mod_four cfg pc
      have h4' := lindex_mod_four cfg pc'
      have hsa : cfg.lindex pc = cfg.lindex pc' := by omega
      rw [hi, htag, tagsAfter, if_pos rfl] at hwt
      have hta : cfg.loopTag pc = cfg.loopTag pc' := by omega
      have := hnew w₀ hw₀
      rw [← hsa, ← hidx, ← hta] at this
      exact absurd h.tag this
    · rw [ho _ hi] at hwt
      exact h.only w hw hwt

theorem Inv.step {op : Op} (h : Inv cfg run) (hal : run.Allowed op) (hs : run.step cfg op = .ok run') :
    Inv cfg run' := by
  cases op with
  | lookup pc =>
    have hs : Except.ok { run with pred := (run.pred.lookup cfg pc).2.2, seen := (run.pred.lookup cfg pc).2.1 :: run.seen } =
        (Except.ok run' : Except RunFault LoopRun) := hs
    cases hs
    obtain ⟨hpc, hin, htag, htags⟩ := run.pred.lookup_spec cfg pc
    refine ⟨?_, fun idx pc' ho => (h.owns idx pc' ho).congr htags⟩
    rw [forall_mem_cons, hpc]
    exact ⟨⟨hin, htag⟩, h.seen⟩
  | update record taken squashed draw =>
    rw [LoopRun.step] at hs
    cases hse : run.seen[record]? with
    | none =>
      rw [hse] at hs
      cases hs
    | some bi =>
      obtain ⟨hin, htag⟩ := h.seen bi (mem_of_getElem? hse)
      have hco := hal bi hse
      rw [hse] at hs
      dsimp only at hs
      cases squashed with
      | true =>
        cases hs
        exact ⟨h.seen, fun idx pc ho => (h.owns idx pc ho).congr LTAGE.restoreLoop_tag⟩
      | false =>
        have hup : run.pred.update cfg draw bi.branchPC taken bi false = (run.pred.commit cfg draw taken bi).1 := rfl
        obtain ⟨htags, hwh⟩ := run.pred.commit_ltable cfg draw taken bi
        rw [hup] at hs
        cases ha : (run.pred.commit cfg draw taken bi).2.1 with
        | none =>
          rw [ha] at hs htags
          cases hs
          refine ⟨h.seen, fun idx pc ho => (h.owns idx pc ho).congr fun i => ?_⟩
          rw [htags, tagsAfter, if_neg (by simp)]
        | some idx =>
          obtain ⟨hta, hm, hset, hage⟩ := hwh idx ha
          obtain ⟨hf, hnew⟩ := hco rfl hta hm hage
          rw [ha] at hs htags
          rw [hin] at hset hnew
          rw [htag] at hf hnew htags
          cases hs
          refine ⟨h.seen, fun idx' pc ho => ?_⟩
          by_cases hi : idx' = idx
          · subst hi
            have hpc : bi.branchPC = pc := by simpa using ho
            subst hpc
            exact .allocate hset hf hnew htags
          · have ho : run.owner idx' = some pc := by simpa [hi] using ho
            exact (h.owns idx' pc ho).of_allocate hi hset hnew hf htags

/-- The first way with the tag is the only one. -/
theorem Owns.loopWay_eq {s : LTAGE} (h : Owns cfg s.ltable pc idx) :
    ∃ w, s.loopWay cfg pc = some w ∧ cfg.lindex pc + w = idx := by
  cases hway : s.loopWay cfg pc with
  | none =>
    obtain ⟨w, hw, hidx⟩ := h.inSet
    have hn := find?_eq_none.1 hway w (by simp; omega)
    rw [← hidx] at hn
    exact absurd h.tag (by simpa using hn)
  | some w =>
    have htag := find?_some hway
    have hw := mem_of_find?_eq_some hway
    have hw : w < 4 := by
      simp only [mem_cons, not_mem_nil, or_false] at hw
      omega
    exact ⟨w, rfl, h.only w hw (by simpa using htag)⟩

/-- **A branch that has been given an entry finds it until it is given to another branch, and has no other**, if entries are
allocated for tags that fit and that are not in the set already.  The shifts of `lindex` ask for two bits at least. -/
theorem loop_entries_found (cfg : Config) (_hsize : 2 ≤ cfg.logSizeLoopPred) (pred : LTAGE) (run : LoopRun)
    (hrun : Reaches (LoopRun.step cfg) LoopRun.Allowed (start pred) run) : run.Found cfg := by
  have hinv : Inv cfg run := by
    refine hrun.invariant (P := Inv cfg) ⟨by simp [start], by simp [start]⟩ ?_
    exact fun _ h ha hs => h.step ha hs
  refine ⟨fun idx pc ho bi => ?_, fun idx idx' pc ho ho' => ?_⟩
  · rw [LTAGE.getLoop_loopHit, LTAGE.getLoop_loopIndex]
    exact (hinv.owns idx pc ho).loopWay_eq
  · obtain ⟨w, hw, rfl⟩ := (hinv.owns idx pc ho).inSet
    exact (hinv.owns idx' pc ho').only w hw (hinv.owns _ pc ho).tag

def oneBank : Config := { nHistoryTables := 1, histLengths := fun _ => 4 }

/-- A branch is looked up and taken. -/
def takenOnce (pc : ℕ) : List Op := [.lookup pc, .update 0 true false {}]

theorem loop_entries_found_once : ∃ run, Reaches (LoopRun.step oneBank) LoopRun.Allowed (start (.init oneBank)) run ∧
      run.owner 0 = some 4160 ∧ run.Found oneBank := by
  obtain ⟨run, hrun, ho⟩ := exists_reaches (LoopRun.step oneBank) LoopRun.Allowed
    (start (.init oneBank)) (takenOnce 4160) (fun run => run.owner 0 = some 4160) (by decide +kernel)
  exact ⟨run, hrun, ho, loop_entries_found oneBank (by decide) (.init oneBank) run hrun⟩

/-- The tag of the branch at address `2 ^ 22` has 17 bits, and the branch misses its entry.  The branch at address 4160 is
looked up twice before it is committed twice, and gets the entries 0 and 1. -/
theorem loop_entry_lost : (∃ run, Reaches (LoopRun.step oneBank) (fun _ _ => True) (start (.init oneBank)) run ∧
      run.owner 0 = some 4194304 ∧ (run.pred.getLoop oneBank 4194304 {}).2.loopHit = none) ∧
    ∃ run, Reaches (LoopRun.step oneBank) (fun _ _ => True) (start (.init oneBank)) run ∧
      run.owner 0 = some 4160 ∧ run.owner 1 = some 4160 :=
  ⟨exists_reaches (LoopRun.step oneBank) (fun _ _ => True) (start (.init oneBank)) (takenOnce 4194304) _
      (by decide +kernel),
    exists_reaches (LoopRun.step oneBank) (fun _ _ => True) (start (.init oneBank))
      [.lookup 4160, .lookup 4160, .update 0 true false {}, .update 1 true false {}] _ (by decide +kernel)⟩

end LoopRun

end GuardianCouncil.LTage
