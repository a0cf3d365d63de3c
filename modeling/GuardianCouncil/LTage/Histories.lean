import Mathlib.Tactic.IntervalCases
import GuardianCouncil.LTage.Model
import GuardianCouncil.Lib.Fallible
import GuardianCouncil.Lib.Folded
import GuardianCouncil.Lib.Ring

/-!
# The folded histories are exact

The buffer of outcomes is written downwards, and rolled over at its start.  So the place of the most recent outcome goes
round in a ring of `histBufferSize - maxHist` places, and the branches in flight have consecutive places, the youngest one
the current place.

A write goes to the place before the current one, or to the place of a branch in flight when it is repaired.  With few
enough branches in flight, this and the copy of a roll-over do not touch the outcomes that another branch in flight needs
when it is repaired, which are the `maxHist` ones above its own place (`ne_of_ahead`).
-/

namespace GuardianCouncil.LTage

open Fallible Folded List Function ThreadHistory

/-! ## Configurations and runs -/

namespace Config

variable (cfg : Config)

def compLength : Fold → ℕ → ℕ
  | .index, i => cfg.tagTableSizes i
  | .tag0, i => cfg.tagWidths i
  | .tag1, i => cfg.tagWidths i - 1

/-- The buffer is large enough (as is asserted), no bank has a longer history than `maxHist`, and the folded histories fit
into an `unsigned`. -/
structure Valid : Prop where
  buffer : cfg.maxHist * 2 < cfg.histBufferSize
  histLengths : ∀ i, 1 ≤ i → i ≤ cfg.nHistoryTables → cfg.histLengths i ≤ cfg.maxHist
  compLength : ∀ k i, 1 ≤ i → i ≤ cfg.nHistoryTables → 1 ≤ cfg.compLength k i ∧ cfg.compLength k i < 32

/-- The number of places that the most recent outcome can have. -/
def places : ℕ := cfg.histBufferSize - cfg.maxHist

end Config

/-- The predictor, and the branches in flight and all outcomes, the youngest one first. -/
structure Flight where
  pred : LTAGE
  inFlight : List BranchInfo := []
  outcomes : List Bool := []

namespace Flight

inductive Op
  | lookup (pc : ℕ)
  | uncondBranch (pc : ℕ)
  /-- The youngest branch in flight is predicted not taken after all. -/
  | btbUpdate
  /-- A branch in flight was mispredicted, and those that are younger are discarded. -/
  | repair (branch : ℕ) (taken : Bool)
  /-- The oldest branch leaves. -/
  | commit (taken : Bool) (draw : Draw)

inductive RunFault
  | noBranch

variable (cfg : Config)

def step (f : Flight) : Op → Except RunFault Flight
  | .lookup pc =>
    let (retval, bi, pred) := f.pred.lookup cfg pc
    .ok ⟨pred, bi :: f.inFlight, retval :: f.outcomes⟩
  | .uncondBranch pc =>
    let (bi, pred) := f.pred.uncondBranch cfg pc
    .ok ⟨pred, bi :: f.inFlight, true :: f.outcomes⟩
  | .btbUpdate =>
    match f.inFlight with
    | [] => .error .noBranch
    | bi :: _ => .ok { f with pred := f.pred.btbUpdate cfg bi.branchPC bi, outcomes := false :: f.outcomes.drop 1 }
  | .repair branch taken =>
    match f.inFlight.drop branch with
    | [] => .error .noBranch
    | bi :: older =>
      let pred := (f.inFlight.take branch).foldl LTAGE.squash f.pred
      .ok ⟨pred.update cfg {} bi.branchPC taken bi true, bi :: older, taken :: f.outcomes.drop (branch + 1)⟩
  | .commit taken draw =>
    match f.inFlight.getLast? with
    | none => .error .noBranch
    | some bi =>
      .ok { f with pred := f.pred.update cfg draw bi.branchPC taken bi false, inFlight := f.inFlight.dropLast }

/-- There are fewer than `histBufferSize - 2 * maxHist` branches in flight. -/
def Few (f : Flight) : Op → Prop
  | .lookup _ | .uncondBranch _ => f.inFlight.length + 1 < cfg.histBufferSize - 2 * cfg.maxHist
  | _ => True

end Flight

/-! ## The invariant -/

/-- The outcomes are in the buffer, the folded histories are theirs, and the branches in flight can be repaired: what a
branch in flight needs is the outcomes before its own. -/
structure HistInv (cfg : Config) (t : ThreadHistory) (inFlight : List BranchInfo) (outcomes : List Bool) : Prop where
  shape : ∀ k i, 1 ≤ i → i ≤ cfg.nHistoryTables → (t.folded k i).compLength = cfg.compLength k i ∧
    (t.folded k i).origLength = cfg.histLengths i ∧ (t.folded k i).outpoint = cfg.histLengths i % cfg.compLength k i
  place : t.ptGhist < cfg.places
  current : ∀ m ≤ cfg.maxHist, t.gHist m = outcomes.getD m false
  exact : ∀ k i, 1 ≤ i → i ≤ cfg.nHistoryTables →
    (t.folded k i).comp = fold 32 (cfg.compLength k i) (outcomes.getD · false) (cfg.histLengths i)
  places : ∀ j bi, inFlight[j]? = some bi → bi.ptGhist = (t.ptGhist + j) % cfg.places
  window : ∀ j bi, inFlight[j]? = some bi → ∀ m < cfg.maxHist,
    t.globalHistory (bi.ptGhist + 1 + m) = outcomes.getD (j + 1 + m) false
  saved : ∀ j bi, inFlight[j]? = some bi → ∀ k i, 1 ≤ i → i ≤ cfg.nHistoryTables →
    bi.comps k i = fold 32 (cfg.compLength k i) (fun m => outcomes.getD (j + 1 + m) false) (cfg.histLengths i)
  few : inFlight.length < cfg.histBufferSize - 2 * cfg.maxHist

section

variable {cfg : Config} {t : ThreadHistory} {inFlight : List BranchInfo} {outcomes : List Bool}

theorem getD_cons_add (b : Bool) (l : List Bool) (j m : ℕ) : (b :: l).getD (j + 1 + m) false = l.getD (j + m) false := by
  rw [Nat.add_right_comm, getD_cons_succ]

theorem getD_drop (l : List Bool) (n m : ℕ) : (l.drop n).getD m false = l.getD (n + m) false := by
  rw [getD_eq_getElem?_getD, getD_eq_getElem?_getD, getElem?_drop]

/-- What is above the place of an older branch is not the place of a younger one. -/
theorem ne_of_ahead {p d m n W : ℕ} (hp : p < n) (hd : 1 ≤ d) (hdW : d + W < n) (hm : m < W) :
    (p + d) % n + 1 + m ≠ p := by
  rw [Ring.add_mod_eq hp (by omega)]
  split <;> omega

/-- The folded histories take in an outcome. -/
theorem updateFolded_exact (hv : cfg.Valid)
    (hsh : ∀ k i, 1 ≤ i → i ≤ cfg.nHistoryTables → (t.folded k i).compLength = cfg.compLength k i ∧
      (t.folded k i).origLength = cfg.histLengths i ∧ (t.folded k i).outpoint = cfg.histLengths i % cfg.compLength k i)
    (hcu : ∀ m ≤ cfg.maxHist, t.gHist m = outcomes.getD m false) {comps : Fold → ℕ → BitVec 32} {h : ℕ → Bool}
    (hco : ∀ k i, 1 ≤ i → i ≤ cfg.nHistoryTables → comps k i = fold 32 (cfg.compLength k i) h (cfg.histLengths i))
    (hshi : ∀ m, outcomes.getD (m + 1) false = h m) (k : Fold) (i : ℕ) (h1 : 1 ≤ i) (hn : i ≤ cfg.nHistoryTables) :
    ((t.updateFolded cfg comps).folded k i).comp =
      fold 32 (cfg.compLength k i) (outcomes.getD · false) (cfg.histLengths i) := by
  obtain ⟨hcom, ho, hout⟩ := hsh k i h1 hn
  obtain ⟨hpos, hlt⟩ := hv.compLength k i h1 hn
  have hup := @wrap_update 32 (cfg.histLengths i) _ hpos hlt h (outcomes.getD · false) fun j _ => hshi j
  rw [updateFolded]
  dsimp only
  rw [if_pos ⟨h1, hn⟩, FoldedHistory.update]
  dsimp only
  rw [hco k i h1 hn, hcom, ho, hout, hcu 0 (Nat.zero_le _), hcu _ (hv.histLengths i h1 hn)]
  exact hup

theorem updateFolded_shape (cfg : Config) (t : ThreadHistory) (comps : Fold → ℕ → BitVec 32) (k : Fold) (i : ℕ) :
    ((t.updateFolded cfg comps).folded k i).compLength = (t.folded k i).compLength ∧
    ((t.updateFolded cfg comps).folded k i).origLength = (t.folded k i).origLength ∧
    ((t.updateFolded cfg comps).folded k i).outpoint = (t.folded k i).outpoint := by
  rw [updateFolded]
  dsimp only
  split <;> exact ⟨rfl, rfl, rfl⟩

/-- The place before the current one. -/
theorem updateGHist_place (hv : cfg.Valid) (h : t.ptGhist < cfg.places) (dir : Bool) :
    (t.updateGHist cfg dir).ptGhist < cfg.places ∧ ((t.updateGHist cfg dir).ptGhist + 1) % cfg.places = t.ptGhist := by
  have hbu := hv.buffer
  have hpt : (t.updateGHist cfg dir).ptGhist = (if t.ptGhist = 0 then cfg.places else t.ptGhist) - 1 := rfl
  have hpl : 0 < cfg.places := by
    rw [Config.places]
    omega
  rw [hpt]
  split_ifs with h0
  · rw [Nat.sub_add_cancel hpl, Nat.mod_self]
    omega
  · rw [Nat.sub_add_cancel (by omega), Nat.mod_eq_of_lt h]
    omega

/-- The outcomes move on by one. -/
theorem updateGHist_gHist (hv : cfg.Valid) (dir : Bool) {i : ℕ} (hi : i < cfg.maxHist) :
    (t.updateGHist cfg dir).gHist (i + 1) = t.gHist i := by
  have hbu := hv.buffer
  simp only [gHist, updateGHist]
  by_cases h0 : t.ptGhist = 0
  · have hne : cfg.histBufferSize - cfg.maxHist - 1 + (i + 1) ≠ cfg.histBufferSize - cfg.maxHist - 1 := by omega
    simp only [h0, if_true, true_and]
    rw [update_of_ne hne, if_pos (by omega)]
    congr 1
    omega
  · have hne : t.ptGhist - 1 + (i + 1) ≠ t.ptGhist - 1 := by omega
    simp only [h0, if_false, false_and]
    rw [update_of_ne hne]
    congr 1
    omega

theorem exists_updateHistories (cfg : Config) (t : ThreadHistory) (pc : ℕ) (taken : Bool) (bi : BranchInfo) : ∃ path,
    t.updateHistories cfg pc taken bi =
      ({ bi with ptGhist := (t.updateGHist cfg taken).ptGhist, pathHist := path, comps := t.comps },
        ({ t.updateGHist cfg taken with pathHist := path } : ThreadHistory).updateFolded cfg t.comps) :=
  ⟨_, rfl⟩

namespace HistInv

section

variable (h : HistInv cfg t inFlight outcomes)
include h

/-- What a branch in flight needs lies above its place, and is not written when another outcome comes in. -/
theorem updateGHist_window (hv : cfg.Valid)
    (hro : inFlight.length + 1 < cfg.histBufferSize - 2 * cfg.maxHist) (dir : Bool) {j m : ℕ} {bi : BranchInfo}
    (hbi : inFlight[j]? = some bi) (hm : m < cfg.maxHist) :
    (t.updateGHist cfg dir).globalHistory (bi.ptGhist + 1 + m) = t.globalHistory (bi.ptGhist + 1 + m) := by
  obtain ⟨hlt, hnext⟩ := updateGHist_place hv h.place dir
  have hj : j < inFlight.length := (List.getElem?_eq_some_iff.mp hbi).1
  have hpla : cfg.places = cfg.histBufferSize - cfg.maxHist := rfl
  have hpl := h.places j bi hbi
  have ha : bi.ptGhist = ((t.updateGHist cfg dir).ptGhist + (j + 1)) % cfg.places := by
    rw [hpl, ← hnext, Nat.mod_add_mod, Nat.add_assoc, Nat.add_comm 1 j]
  have hne : bi.ptGhist + 1 + m ≠ (t.updateGHist cfg dir).ptGhist := by
    rw [ha]
    exact ne_of_ahead hlt (by omega) (by omega) hm
  have hst : ¬ (t.ptGhist = 0 ∧ cfg.histBufferSize - cfg.maxHist ≤ bi.ptGhist + 1 + m ∧
      bi.ptGhist + 1 + m < cfg.histBufferSize) := by
    rintro ⟨h0, hle, -⟩
    rw [h0, Nat.zero_add, Nat.mod_eq_of_lt (by omega)] at hpl
    omega
  have hwr : (t.updateGHist cfg dir).globalHistory = update
      (fun j => if t.ptGhist = 0 ∧ cfg.histBufferSize - cfg.maxHist ≤ j ∧ j < cfg.histBufferSize then
        t.globalHistory (j - (cfg.histBufferSize - cfg.maxHist)) else t.globalHistory j)
      (t.updateGHist cfg dir).ptGhist dir := rfl
  rw [hwr, update_of_ne hne, if_neg hst]

/-- A branch is predicted. -/
theorem updateHistories (hv : cfg.Valid)
    (hro : inFlight.length + 1 < cfg.histBufferSize - 2 * cfg.maxHist) (pc : ℕ) (taken : Bool) (bi : BranchInfo) :
    HistInv cfg (t.updateHistories cfg pc taken bi).2 ((t.updateHistories cfg pc taken bi).1 :: inFlight)
      (taken :: outcomes) := by
  obtain ⟨hlt, hnext⟩ := updateGHist_place hv h.place taken
  have hcu : ∀ m ≤ cfg.maxHist, (t.updateGHist cfg taken).gHist m = (taken :: outcomes).getD m false
    | 0, _ => by simp only [gHist, updateGHist, Nat.add_zero, update_self, getD_cons_zero]
    | m + 1, hm => (updateGHist_gHist hv taken hm).trans (h.current m (Nat.le_of_lt hm))
  have hwi {j m : ℕ} {bi' : BranchInfo} (hbi : inFlight[j]? = some bi') (hm : m < cfg.maxHist) :=
    (h.updateGHist_window hv hro taken hbi hm).trans (h.window j bi' hbi m hm)
  obtain ⟨path, hpa⟩ := exists_updateHistories cfg t pc taken bi
  rw [hpa]
  have hsha : ∀ k i, ((t.updateGHist cfg taken).folded k i) = t.folded k i := fun _ _ => rfl
  generalize t.updateGHist cfg taken = t₁ at hlt hnext hcu hwi hsha
  refine ⟨fun k i h1 hn => ?_, hlt, hcu, ?_, fun j bi' hbi' => ?_, fun j bi' hbi' m hm => ?_,
    fun j bi' hbi' k i h1 hn => ?_, hro⟩
  · obtain ⟨hco, ho, hout⟩ := updateFolded_shape cfg { t₁ with pathHist := path } t.comps k i
    rw [hco, ho, hout]
    exact hsha k i ▸ h.shape k i h1 hn
  · refine updateFolded_exact hv (fun k i h1 hn => ?_) hcu h.exact fun _ => rfl
    exact hsha k i ▸ h.shape k i h1 hn
  · cases j with
    | zero =>
      cases hbi'
      exact (Nat.mod_eq_of_lt hlt).symm
    | succ j =>
      refine (h.places j bi' hbi').trans ?_
      rw [← hnext, Nat.mod_add_mod, Nat.add_assoc, Nat.add_comm 1 j]
      rfl
  · cases j with
    | zero =>
      cases hbi'
      rw [Nat.zero_add, Nat.add_comm 1 m, ← hcu (m + 1) hm, gHist, Nat.add_comm m 1, ← Nat.add_assoc]
      rfl
    | succ j => exact (hwi hbi' hm).trans (getD_cons_add taken outcomes (j + 1) m).symm
  · simp only [getD_cons_add]
    cases j with
    | zero =>
      cases hbi'
      simp only [Nat.zero_add]
      exact h.exact k i h1 hn
    | succ j => exact h.saved j bi' hbi' k i h1 hn

section

variable {branch j m : ℕ} {bi bi' : BranchInfo} (hbi : inFlight[branch]? = some bi)
include hbi

theorem place_lt : bi.ptGhist < cfg.places := by
  have hfew := h.few
  rw [h.places branch bi hbi, Config.places]
  exact Nat.mod_lt _ (by omega)

variable (hbi' : inFlight[branch + j]? = some bi')
include hbi'

/-- The places of a branch in flight and of the older ones follow one another. -/
theorem place_add : bi'.ptGhist = (bi.ptGhist + j) % cfg.places := by
  rw [h.places (branch + j) bi' hbi', h.places branch bi hbi, Nat.mod_add_mod, Nat.add_assoc]

/-- The place of a branch in flight is not one that the branch itself or an older one needs. -/
theorem window_ne (hm : m < cfg.maxHist) : bi'.ptGhist + 1 + m ≠ bi.ptGhist := by
  have hj : branch + j < inFlight.length := (List.getElem?_eq_some_iff.mp hbi').1
  have hpla : cfg.places = cfg.histBufferSize - cfg.maxHist := rfl
  have hfew := h.few
  cases j with
  | zero =>
    cases hbi.symm.trans hbi'
    omega
  | succ j =>
    rw [h.place_add hbi hbi']
    exact ne_of_ahead (h.place_lt hbi) (by omega) (by omega) hm

end

/-- A branch in flight gets another outcome, and the younger ones are gone. -/
theorem replaceLast (hv : cfg.Valid) (branch : ℕ) {bi : BranchInfo}
    {older : List BranchInfo} (hd : inFlight.drop branch = bi :: older) (path : ℕ) (taken : Bool) :
    HistInv cfg (({ t with pathHist := path, ptGhist := bi.ptGhist } : ThreadHistory).replaceLast cfg taken bi)
      (bi :: older) (taken :: outcomes.drop (branch + 1)) := by
  have hleng : branch + (older.length + 1) = inFlight.length := by
    have := congrArg List.length hd
    rw [length_drop, length_cons] at this
    omega
  have hget (j : ℕ) : (bi :: older)[j]? = inFlight[branch + j]? := by rw [← hd, getElem?_drop]
  have hbi : inFlight[branch]? = some bi := (hget 0).symm
  have hfew := h.few
  -- the outcomes before that of a branch that is left are the same as before
  have hsame (j m : ℕ) :
      (taken :: outcomes.drop (branch + 1)).getD (j + 1 + m) false = outcomes.getD (branch + j + 1 + m) false := by
    rw [getD_cons_add, getD_drop]
    congr 1
    omega
  obtain ⟨t₁, hf, hpt, hg, hre⟩ : ∃ t₁ : ThreadHistory, t₁.folded = t.folded ∧
      t₁.ptGhist = bi.ptGhist ∧ t₁.globalHistory = update t.globalHistory bi.ptGhist taken ∧
      ({ t with pathHist := path, ptGhist := bi.ptGhist } : ThreadHistory).replaceLast cfg taken bi =
        t₁.updateFolded cfg bi.comps :=
    ⟨⟨path, update t.globalHistory bi.ptGhist taken, bi.ptGhist, t.folded⟩, rfl, rfl, rfl, rfl⟩
  have hsh := h.shape
  rw [← hf] at hsh
  rw [hre]
  have hwi (j : ℕ) (bi' : BranchInfo) (hbi' : (bi :: older)[j]? = some bi') (m : ℕ) (hm : m < cfg.maxHist) :
      t₁.globalHistory (bi'.ptGhist + 1 + m) = (taken :: outcomes.drop (branch + 1)).getD (j + 1 + m) false := by
    rw [hg, update_of_ne (h.window_ne hbi ((hget j).symm.trans hbi') hm), hsame]
    exact h.window (branch + j) bi' ((hget j).symm.trans hbi') m hm
  have hcu : ∀ m ≤ cfg.maxHist, t₁.gHist m = (taken :: outcomes.drop (branch + 1)).getD m false
    | 0, _ => by rw [gHist, hg, hpt, Nat.add_zero, update_self, getD_cons_zero]
    | m + 1, hm => by
      rw [gHist, hpt, Nat.add_comm m 1, ← Nat.add_assoc, hwi 0 bi rfl m hm]
  refine ⟨fun k i h1 hn => ?_, hpt ▸ h.place_lt hbi, hcu, ?_, fun j bi' hbi' => ?_, hwi, fun j bi' hbi' => ?_, ?_⟩
  · obtain ⟨hco, hor, hout⟩ := updateFolded_shape cfg t₁ bi.comps k i
    rw [hco, hor, hout]
    exact hsh k i h1 hn
  · exact updateFolded_exact hv hsh hcu (h.saved branch bi hbi) fun m => getD_drop outcomes (branch + 1) m
  · exact hpt ▸ h.place_add hbi ((hget j).symm.trans hbi')
  · simp only [hsame]
    exact h.saved (branch + j) bi' ((hget j).symm.trans hbi')
  · rw [length_cons]
    omega

theorem dropLast : HistInv cfg t inFlight.dropLast outcomes := by
  have hget {j : ℕ} {bi : BranchInfo} (hbi : inFlight.dropLast[j]? = some bi) : inFlight[j]? = some bi := by
    rw [getElem?_dropLast] at hbi
    split at hbi
    · exact hbi
    · cases hbi
  refine ⟨h.shape, h.place, h.current, h.exact, fun j bi hbi => h.places j bi (hget hbi),
    fun j bi hbi => h.window j bi (hget hbi), fun j bi hbi => h.saved j bi (hget hbi), ?_⟩
  have := h.few
  rw [length_dropLast]
  omega

end

theorem start (hv : cfg.Valid) : HistInv cfg (.init cfg) [] [] := by
  have hbu := hv.buffer
  refine ⟨fun k i _ _ => ?_, ?_, fun _ _ => rfl, fun k i _ _ => ?_, by simp, by simp, by simp, ?_⟩
  · cases k <;> exact ⟨rfl, rfl, rfl⟩
  · show 0 < cfg.histBufferSize - cfg.maxHist
    omega
  · have hzero (n : ℕ) : fold 32 (cfg.compLength k i) (fun _ => false) n = 0#32 := by
      induction n with
      | zero => rfl
      | succ n ih =>
        rw [fold, xorSum] at *
        rw [ih]
        simp [bit]
    refine Eq.trans ?_ (hzero (cfg.histLengths i)).symm
    cases k <;> rfl
  · rw [length_nil]
    omega

end HistInv

end

/-! ## Runs -/

namespace LTAGE

variable {cfg : Config} {s : LTAGE}

theorem specLoopUpdate_threadHistory (pc : ℕ) (taken : Bool) (bi : BranchInfo) :
    (s.specLoopUpdate cfg pc taken bi).threadHistory = s.threadHistory := by
  rw [specLoopUpdate]
  split <;> rfl

theorem restoreLoop_threadHistory (bi : BranchInfo) : (s.restoreLoop bi).threadHistory = s.threadHistory := by
  rw [restoreLoop]
  split <;> rfl

/-- A prediction changes the histories as `updateHistories` does. -/
theorem exists_lookup (cfg : Config) (s : LTAGE) (pc : ℕ) : ∃ bi, ((s.lookup cfg pc).2.1,
    (s.lookup cfg pc).2.2.threadHistory) = s.threadHistory.updateHistories cfg pc (s.lookup cfg pc).1 bi := by
  have hh : (s.predict cfg pc true).2.2.threadHistory = s.threadHistory := specLoopUpdate_threadHistory _ _ _
  refine ⟨(s.predict cfg pc true).2.1, ?_⟩
  rw [← hh]
  rfl

theorem exists_uncondBranch (cfg : Config) (s : LTAGE) (pc : ℕ) : ∃ bi,
    ((s.uncondBranch cfg pc).1, (s.uncondBranch cfg pc).2.threadHistory) =
      s.threadHistory.updateHistories cfg pc true bi := by
  have hh : (s.predict cfg pc false).2.2.threadHistory = s.threadHistory := specLoopUpdate_threadHistory _ _ _
  refine ⟨(s.predict cfg pc false).2.1, ?_⟩
  rw [← hh]
  rfl

theorem commit_threadHistory (draw : Draw) (taken : Bool) (bi : BranchInfo) :
    (s.commit cfg draw taken bi).1.threadHistory = s.threadHistory := by
  have htr (s : LTAGE) : (s.trainTage cfg taken bi).threadHistory = s.threadHistory := by
    simp only [trainTage]
    split_ifs <;> rfl
  have hti (s : LTAGE) : (s.tick cfg).threadHistory = s.threadHistory := by
    simp only [tick]
    split <;> rfl
  have hlo : (s.loopUpdate taken bi draw.loopRand).1.threadHistory = s.threadHistory := by
    rw [loopUpdate]
    split
    · rfl
    · split <;> rfl
  have hch : (s.updateChoice draw taken bi).1.threadHistory = s.threadHistory := by
    simp only [updateChoice, updateUseAlt]
    split_ifs <;> exact hlo
  rw [commit]
  split
  · simp only [updateTables, htr, hti]
    exact hch
  · rfl

end LTAGE

namespace Flight

variable {cfg : Config} {f f' : Flight}

theorem threadHistory_foldl_squash (l : List BranchInfo) (s : LTAGE) :
    (l.foldl LTAGE.squash s).threadHistory = s.threadHistory := by
  induction l generalizing s with
  | nil => rfl
  | cons bi l ih => rw [foldl_cons, ih, LTAGE.squash, LTAGE.restoreLoop_threadHistory]

def Inv (cfg : Config) (f : Flight) : Prop := HistInv cfg f.pred.threadHistory f.inFlight f.outcomes

theorem Inv.step {op : Op} (h : Inv cfg f) (hv : cfg.Valid) (hfew : f.Few cfg op) (hs : f.step cfg op = .ok f') :
    Inv cfg f' := by
  cases op with
  | lookup pc =>
    have hs : Except.ok ⟨(f.pred.lookup cfg pc).2.2, (f.pred.lookup cfg pc).2.1 :: f.inFlight,
        (f.pred.lookup cfg pc).1 :: f.outcomes⟩ = (Except.ok f' : Except RunFault Flight) := hs
    cases hs
    obtain ⟨bi, hlo⟩ := f.pred.exists_lookup cfg pc
    have hinv := HistInv.updateHistories h hv hfew pc (f.pred.lookup cfg pc).1 bi
    rwa [← hlo] at hinv
  | uncondBranch pc =>
    have hs : Except.ok ⟨(f.pred.uncondBranch cfg pc).2, (f.pred.uncondBranch cfg pc).1 :: f.inFlight,
        true :: f.outcomes⟩ = (Except.ok f' : Except RunFault Flight) := hs
    cases hs
    obtain ⟨bi, hun⟩ := f.pred.exists_uncondBranch cfg pc
    have hinv := HistInv.updateHistories h hv hfew pc true bi
    rwa [← hun] at hinv
  | btbUpdate =>
    rw [Flight.step] at hs
    cases hf : f.inFlight with
    | nil =>
      rw [hf] at hs
      cases hs
    | cons bi older =>
      rw [hf] at hs
      cases hs
      -- the youngest branch has the current place, so that it is the one that is repaired
      have hpl : bi.ptGhist = f.pred.threadHistory.ptGhist := by
        rw [HistInv.places h 0 bi (by rw [hf]; rfl), Nat.add_zero, Nat.mod_eq_of_lt (HistInv.place h)]
      have hinv := HistInv.replaceLast h hv 0 hf f.pred.threadHistory.pathHist false
      rw [hpl] at hinv
      exact hinv
  | repair branch taken =>
    rw [Flight.step] at hs
    cases hd : f.inFlight.drop branch with
    | nil =>
      rw [hd] at hs
      cases hs
    | cons bi older =>
      rw [hd] at hs
      cases hs
      have hinv := HistInv.replaceLast h hv branch hd bi.pathHist taken
      have hsq := threadHistory_foldl_squash (f.inFlight.take branch) f.pred
      rw [← hsq] at hinv
      rw [Inv]
      refine Eq.mpr (congrArg (fun t => HistInv cfg t (bi :: older) (taken :: f.outcomes.drop (branch + 1))) ?_) hinv
      exact LTAGE.restoreLoop_threadHistory bi
  | commit taken draw =>
    rw [Flight.step] at hs
    cases hla : f.inFlight.getLast? with
    | none =>
      rw [hla] at hs
      cases hs
    | some bi =>
      rw [hla] at hs
      cases hs
      have hsa : (f.pred.update cfg draw bi.branchPC taken bi false).threadHistory = f.pred.threadHistory :=
        LTAGE.commit_threadHistory draw taken bi
      rw [Inv, hsa]
      exact HistInv.dropLast h

/-- **The history is that of the outcomes, the most recent one first, and the folded histories are its folds in every run**,
also when the buffer has been rolled over and branches from before are repaired.  No outcome is read from beyond the
buffer. -/
theorem folded_exact (cfg : Config) (hvalid : cfg.Valid) (tables : LTAGE)
    (hinit : tables.threadHistory = init cfg) (f : Flight)
    (hrun : Reaches (Flight.step cfg) (Flight.Few cfg) { pred := tables } f) :
    (∀ m ≤ cfg.maxHist, f.pred.threadHistory.gHist m = f.outcomes.getD m false) ∧
      (∀ k i, 1 ≤ i → i ≤ cfg.nHistoryTables → (f.pred.threadHistory.folded k i).comp =
        fold 32 (cfg.compLength k i) f.pred.threadHistory.gHist (cfg.histLengths i)) ∧
      f.pred.threadHistory.ptGhist + cfg.maxHist < cfg.histBufferSize := by
  have hinv : Inv cfg f := by
    refine hrun.invariant (P := Inv cfg) ?_ fun _ h hfew hs => h.step hvalid hfew hs
    rw [Inv, hinit]
    exact HistInv.start hvalid
  refine ⟨HistInv.current hinv, fun k i h1 hn => ?_, ?_⟩
  · refine (HistInv.exact hinv k i h1 hn).trans (fold_congr fun m hm => ?_)
    exact (HistInv.current hinv m (hm.le.trans (hvalid.histLengths i h1 hn))).symm
  · have hpl := HistInv.place hinv
    rw [Config.places] at hpl
    omega

instance (f : Flight) : (op : Op) → Decidable (f.Few cfg op)
  | .lookup _ | .uncondBranch _ => inferInstanceAs (Decidable (_ < _))
  | .btbUpdate | .repair .. | .commit .. => .isTrue trivial

/-- Two banks with histories of three and four outcomes, in a buffer for twenty. -/
def shortBuffer : Config :=
  { nHistoryTables := 2, logSizeTagTables := 4, histBufferSize := 20, minHist := 3, maxHist := 4
    histLengths := fun i => i + 2 }

theorem shortBuffer_valid : shortBuffer.Valid := by
  refine ⟨by decide, fun i _ hn => ?_, fun k i h1 hn => ?_⟩
  · have hn : i ≤ 2 := hn
    show i + 2 ≤ 4
    omega
  · have hn : i ≤ 2 := hn
    interval_cases i <;> cases k <;> decide

/-- Sixteen branches come and go, another one rolls the buffer over, and the branch before it is repaired. -/
def rollOver : List Op :=
  (List.replicate 15 [Op.uncondBranch 1, Op.commit true {}]).flatten ++
    [.lookup 4, .btbUpdate, .uncondBranch 6, .repair 1 true]

theorem folded_exact_rollOver :
    ∃ f, Reaches (Flight.step shortBuffer) (Flight.Few shortBuffer) { pred := .init shortBuffer } f ∧
      f.pred.threadHistory.ptGhist = 0 ∧ f.outcomes = .replicate 16 true ∧
      (∀ m ≤ 4, f.pred.threadHistory.gHist m = f.outcomes.getD m false) ∧
      (f.pred.threadHistory.folded .index 2).comp =
        fold 32 (shortBuffer.compLength .index 2) f.pred.threadHistory.gHist 4 := by
  obtain ⟨f, hrun, hpt, ho⟩ := exists_reaches (Flight.step shortBuffer) (Flight.Few shortBuffer)
    { pred := .init shortBuffer } rollOver
    (fun f => f.pred.threadHistory.ptGhist = 0 ∧ f.outcomes = .replicate 16 true) (by decide +kernel)
  obtain ⟨hcu, hex, -⟩ := folded_exact shortBuffer shortBuffer_valid (.init shortBuffer) rfl f hrun
  exact ⟨f, hrun, hpt, ho, hcu, hex .index 2 (by decide) (by decide)⟩

end Flight

end GuardianCouncil.LTage
