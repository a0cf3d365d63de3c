import GuardianCouncil.Lib.Fallible
import GuardianCouncil.Lib.MoveToFront

/-!
# Store sets

Loads and stores that have conflicted before are put into one set (`SSIT`, by address), and each set knows the last store
that was fetched (`LFST`).  A load, or a store, waits for the last store of its set.  The list of the stores with a set
(`storeList`) is there to take squashed stores out of the table again.

A store is put into the table under the set it has when it is inserted, and taken out under the set it has when it is
issued.  If it was moved to another set in between, it stays in the table of the old one, and loads of that set are told to
wait for a store that is gone.  `names_live_stores` says that this is the only way: as long as a store that is issued is
still in the set it was inserted with, the table names stores that are in flight, and a squash comes to its end.
-/

namespace GuardianCouncil.StoreSets

open Fallible MoveToFront List Function

/-! ## The predictor -/

structure Config where
  clearPeriod : ℕ
  SSITSize : ℕ
  LFSTSize : ℕ

inductive Fault
  | assertion
  /-- A loop that does not change anything anymore. -/
  | endless
deriving DecidableEq

/-- `storeList` is ordered by sequence number, the largest one first. -/
structure StoreSet where
  SSIT : ℕ → ℕ := fun _ => 0
  validSSIT : ℕ → Bool := fun _ => false
  LFST : ℕ → ℕ := fun _ => 0
  validLFST : ℕ → Bool := fun _ => false
  storeList : List (ℕ × ℕ) := []
  memOpsPred : ℕ := 0

open StoreSet

/-- `storeList[seq_num] = ssid`. -/
def assign (seq_num ssid : ℕ) : List (ℕ × ℕ) → List (ℕ × ℕ)
  | [] => [(seq_num, ssid)]
  | (s, idx) :: rest =>
    if seq_num > s then (seq_num, ssid) :: (s, idx) :: rest
    else if seq_num = s then (seq_num, ssid) :: rest
    else (s, idx) :: assign seq_num ssid rest

def offsetBits : ℕ := 2

namespace Config

variable (cfg : Config)

def calcIndex (PC : ℕ) : ℕ := (PC >>> offsetBits) &&& (cfg.SSITSize - 1)

def calcSSID (PC : ℕ) : ℕ := (PC ^^^ (PC >>> 10)) % cfg.LFSTSize

end Config

namespace StoreSet

variable (cfg : Config) (ss : StoreSet)

def setSSIT (index ssid : ℕ) : StoreSet :=
  { ss with SSIT := update ss.SSIT index ssid, validSSIT := update ss.validSSIT index true }

def violation (store_PC load_PC : ℕ) : Except Fault StoreSet :=
  let load_index := cfg.calcIndex load_PC
  let store_index := cfg.calcIndex store_PC
  if ¬ (load_index < cfg.SSITSize ∧ store_index < cfg.SSITSize) then .error .assertion
  else
    match ss.validSSIT load_index, ss.validSSIT store_index with
    | false, false =>
      let new_set := cfg.calcSSID load_PC
      if ¬ new_set < cfg.LFSTSize then .error .assertion
      else .ok ((ss.setSSIT load_index new_set).setSSIT store_index new_set)
    | true, false =>
      let load_SSID := ss.SSIT load_index
      if ¬ load_SSID < cfg.LFSTSize then .error .assertion else .ok (ss.setSSIT store_index load_SSID)
    | false, true => .ok (ss.setSSIT load_index (ss.SSIT store_index))
    | true, true =>
      let load_SSID := ss.SSIT load_index
      let store_SSID := ss.SSIT store_index
      if ¬ (load_SSID < cfg.LFSTSize ∧ store_SSID < cfg.LFSTSize) then .error .assertion
      else if store_SSID > load_SSID then .ok (ss.setSSIT store_index load_SSID)
      else .ok (ss.setSSIT load_index store_SSID)

def clear : StoreSet :=
  { ss with validSSIT := fun _ => false, validLFST := fun _ => false, storeList := [] }

def checkClear : StoreSet :=
  let ss := { ss with memOpsPred := ss.memOpsPred + 1 }
  if ss.memOpsPred > cfg.clearPeriod then { ss with memOpsPred := 0 }.clear else ss

def insertLoad (_load_PC _load_seq_num : ℕ) : StoreSet := ss.checkClear cfg

def insertStore (store_PC store_seq_num : ℕ) : Except Fault StoreSet :=
  let index := cfg.calcIndex store_PC
  let ss := ss.checkClear cfg
  if ¬ index < cfg.SSITSize then .error .assertion
  else if !ss.validSSIT index then .ok ss
  else
    let store_SSID := ss.SSIT index
    if ¬ store_SSID < cfg.LFSTSize then .error .assertion
    else .ok { ss with
      LFST := update ss.LFST store_SSID store_seq_num
      validLFST := update ss.validLFST store_SSID true
      storeList := assign store_seq_num store_SSID ss.storeList }

def checkInst (PC : ℕ) : Except Fault ℕ :=
  let index := cfg.calcIndex PC
  if ¬ index < cfg.SSITSize then .error .assertion
  else if !ss.validSSIT index then .ok 0
  else
    let inst_SSID := ss.SSIT index
    if ¬ inst_SSID < cfg.LFSTSize then .error .assertion
    else if !ss.validLFST inst_SSID then .ok 0
    else .ok (ss.LFST inst_SSID)

def issued (issued_PC issued_seq_num : ℕ) (is_store : Bool) : Except Fault StoreSet :=
  if !is_store then .ok ss
  else
    let index := cfg.calcIndex issued_PC
    if ¬ index < cfg.SSITSize then .error .assertion
    else
      let ss := { ss with storeList := ss.storeList.filter (·.1 ≠ issued_seq_num) }
      if !ss.validSSIT index then .ok ss
      else
        let store_SSID := ss.SSIT index
        if ¬ store_SSID < cfg.LFSTSize then .error .assertion
        else if ss.validLFST store_SSID ∧ ss.LFST store_SSID = issued_seq_num then
          .ok { ss with validLFST := update ss.validLFST store_SSID false }
        else .ok ss

/-- The loop of `squash`.  If the store at the front is to go, but the last store of its set is not, nothing is done. -/
def squashLoop (squashed_num : ℕ) : List (ℕ × ℕ) → StoreSet → Except Fault StoreSet
  | [], ss => .ok { ss with storeList := [] }
  | (s, idx) :: rest, ss =>
    if s ≤ squashed_num then .ok { ss with storeList := (s, idx) :: rest }
    else if ss.LFST idx > squashed_num then
      squashLoop squashed_num rest { ss with validLFST := update ss.validLFST idx false }
    else .error .endless

def squash (squashed_num : ℕ) : Except Fault StoreSet := squashLoop squashed_num ss.storeList ss

end StoreSet

/-! ## Runs -/

/-- The predictor, the stores that were inserted and have been neither issued nor squashed, and the last sequence
number. -/
structure Run where
  ss : StoreSet := {}
  live : List ℕ := []
  last : ℕ := 0

inductive Op
  | violation (store_PC load_PC : ℕ)
  | insertLoad (load_PC load_seq_num : ℕ)
  | insertStore (store_PC store_seq_num : ℕ)
  | issued (issued_PC issued_seq_num : ℕ) (is_store : Bool)
  | squash (squashed_num : ℕ)
  | clear

namespace Run

variable (cfg : Config) (run : Run)

def step : Op → Except Fault Run
  | .violation store_PC load_PC => do
    let ss ← run.ss.violation cfg store_PC load_PC
    return { run with ss := ss }
  | .insertLoad load_PC load_seq_num =>
    .ok { run with ss := run.ss.insertLoad cfg load_PC load_seq_num, last := load_seq_num }
  | .insertStore store_PC store_seq_num => do
    let ss ← run.ss.insertStore cfg store_PC store_seq_num
    return { ss := ss, live := store_seq_num :: run.live, last := store_seq_num }
  | .issued issued_PC issued_seq_num is_store => do
    let ss ← run.ss.issued cfg issued_PC issued_seq_num is_store
    return { run with ss := ss, live := if is_store then run.live.filter (· ≠ issued_seq_num) else run.live }
  | .squash squashed_num => do
    let ss ← run.ss.squash squashed_num
    return { run with ss := ss, live := run.live.filter (· ≤ squashed_num) }
  | .clear => .ok { run with ss := run.ss.clear }

/-- Sequence numbers increase. -/
def InOrder : Op → Prop
  | .insertLoad _ seq_num | .insertStore _ seq_num => run.last < seq_num
  | _ => True

/-- A store that is issued is in the set that it is the last store of, if there is one. -/
def InItsSet : Op → Prop
  | .issued issued_PC issued_seq_num true => ∀ idx < cfg.LFSTSize, run.ss.validLFST idx = true →
      run.ss.LFST idx = issued_seq_num →
      run.ss.validSSIT (cfg.calcIndex issued_PC) = true ∧ run.ss.SSIT (cfg.calcIndex issued_PC) = idx
  | _ => True

instance : DecidablePred run.InOrder
  | .insertLoad _ seq_num | .insertStore _ seq_num => inferInstanceAs (Decidable (run.last < seq_num))
  | .violation .. | .issued .. | .squash _ | .clear => isTrue trivial

instance : DecidablePred (run.InItsSet cfg)
  | .issued _ _ true => inferInstanceAs (Decidable (∀ idx < cfg.LFSTSize, _ → _ → _ ∧ _ = idx))
  | .issued _ _ false | .violation .. | .insertLoad .. | .insertStore .. | .squash _ | .clear =>
    isTrue trivial

end Run

/-! ## The tables -/

section

variable {cfg : Config} {ss : StoreSet} {seq_num ssid : ℕ} {l : List (ℕ × ℕ)}

theorem Config.calcIndex_lt (h : 0 < cfg.SSITSize) (PC : ℕ) : cfg.calcIndex PC < cfg.SSITSize := by
  have hand : cfg.calcIndex PC ≤ cfg.SSITSize - 1 := Nat.and_le_right
  omega

theorem Config.calcSSID_lt (h : 0 < cfg.LFSTSize) (PC : ℕ) : cfg.calcSSID PC < cfg.LFSTSize :=
  Nat.mod_lt _ h

/-- The newest store goes to the front of the list. -/
theorem assign_of_lt (h : ∀ e ∈ l, e.1 < seq_num) : assign seq_num ssid l = (seq_num, ssid) :: l := by
  cases l with
  | nil => rfl
  | cons e rest => exact if_pos (h e mem_cons_self)

/-- The entries of `SSIT` are sets that `LFST` has. -/
def StoreSet.InRange (cfg : Config) (ss : StoreSet) : Prop :=
  ∀ index, ss.validSSIT index = true → ss.SSIT index < cfg.LFSTSize

namespace StoreSet

theorem InRange.setSSIT (h : ss.InRange cfg) {index : ℕ} (hss : ssid < cfg.LFSTSize) :
    (ss.setSSIT index ssid).InRange cfg := by
  intro i hi
  by_cases heq : i = index
  · subst heq
    simpa [StoreSet.setSSIT] using hss
  · simp only [StoreSet.setSSIT, update_of_ne heq] at hi ⊢
    exact h i hi

/-- A violation changes nothing but the sets of the load and the store. -/
theorem exists_violation (hS : 0 < cfg.SSITSize) (hL : 0 < cfg.LFSTSize) (h : ss.InRange cfg) (store_PC load_PC : ℕ) :
    ∃ SSIT validSSIT, ss.violation cfg store_PC load_PC = .ok { ss with SSIT := SSIT, validSSIT := validSSIT } ∧
      { ss with SSIT := SSIT, validSSIT := validSSIT }.InRange cfg := by
  have ha := not_not_intro (And.intro (Config.calcIndex_lt hS load_PC) (Config.calcIndex_lt hS store_PC))
  unfold violation
  rw [if_neg ha]
  rcases hloa : ss.validSSIT (cfg.calcIndex load_PC) <;> rcases hst : ss.validSSIT (cfg.calcIndex store_PC)
  · have hnew := Config.calcSSID_lt hL load_PC
    dsimp only
    rw [if_neg (not_not_intro hnew)]
    exact ⟨_, _, rfl, (h.setSSIT hnew).setSSIT hnew⟩
  · exact ⟨_, _, rfl, h.setSSIT (h _ hst)⟩
  · dsimp only
    rw [if_neg (not_not_intro (h _ hloa))]
    exact ⟨_, _, rfl, h.setSSIT (h _ hloa)⟩
  · dsimp only
    rw [if_neg (not_not_intro ⟨h _ hloa, h _ hst⟩)]
    by_cases hlo : ss.SSIT (cfg.calcIndex store_PC) > ss.SSIT (cfg.calcIndex load_PC)
    · rw [if_pos hlo]
      exact ⟨_, _, rfl, h.setSSIT (h _ hloa)⟩
    · rw [if_neg hlo]
      exact ⟨_, _, rfl, h.setSSIT (h _ hst)⟩

/-- A squash takes the younger stores off the list, and makes the sets they are in forget their last store. -/
theorem squashLoop_eq (squashed_num : ℕ) (h : ∀ e ∈ l, e.1 ≤ ss.LFST e.2) : ∃ validLFST, squashLoop squashed_num l ss =
        .ok { ss with validLFST := validLFST, storeList := l.dropWhile (squashed_num < ·.1) } ∧
      ∀ idx, validLFST idx = true ↔ ss.validLFST idx = true ∧ ∀ e ∈ l.takeWhile (squashed_num < ·.1), e.2 ≠ idx := by
  induction l generalizing ss with
  | nil => exact ⟨ss.validLFST, rfl, fun idx => by simp⟩
  | cons e rest ih =>
    obtain ⟨s, idx⟩ := e
    by_cases hold : s ≤ squashed_num
    · refine ⟨ss.validLFST, ?_, fun idx => ?_⟩
      · simp [squashLoop, hold, Nat.not_lt.2 hold]
      · simp [Nat.not_lt.2 hold]
    have hy : ss.LFST idx > squashed_num := Nat.lt_of_lt_of_le (Nat.lt_of_not_le hold) (h _ mem_cons_self)
    obtain ⟨validLFST, hre, hv⟩ :=
      @ih { ss with validLFST := update ss.validLFST idx false } fun e he => h e (mem_cons_of_mem _ he)
    refine ⟨validLFST, ?_, fun i => ?_⟩
    · simpa [squashLoop, hold, hy, Nat.lt_of_not_le hold] using hre
    · rw [hv i]
      by_cases hi : i = idx
      · subst hi
        simp [Nat.lt_of_not_le hold]
      · simp [Nat.lt_of_not_le hold, update_of_ne hi, Ne.symm hi]

theorem checkClear_eq (cfg : Config) (ss : StoreSet) :
    ∃ n, ss.checkClear cfg = { ss with memOpsPred := n } ∨ ss.checkClear cfg = { ss with memOpsPred := n }.clear := by
  by_cases hcl : ss.memOpsPred + 1 > cfg.clearPeriod
  · exact ⟨0, .inr (if_pos hcl)⟩
  · exact ⟨ss.memOpsPred + 1, .inl (if_neg hcl)⟩

theorem InRange.checkClear (h : ss.InRange cfg) : (ss.checkClear cfg).InRange cfg := by
  obtain ⟨n, hcl | hcl⟩ := checkClear_eq cfg ss
  · rw [hcl]
    exact h
  · rw [hcl]
    simp [InRange, clear]

/-- A store without a set is not entered, one with a set is the last store of it from now on. -/
theorem insertStore_cases (hS : 0 < cfg.SSITSize) (h : ss.InRange cfg) (PC seq_num : ℕ) :
    ss.insertStore cfg PC seq_num = .ok (ss.checkClear cfg) ∨
    ∃ ssid < cfg.LFSTSize, ss.insertStore cfg PC seq_num = .ok { ss.checkClear cfg with
      LFST := update (ss.checkClear cfg).LFST ssid seq_num
      validLFST := update (ss.checkClear cfg).validLFST ssid true
      storeList := assign seq_num ssid (ss.checkClear cfg).storeList } := by
  unfold insertStore
  rw [if_neg (not_not_intro (Config.calcIndex_lt hS PC))]
  rcases hv : (ss.checkClear cfg).validSSIT (cfg.calcIndex PC)
  · exact .inl rfl
  · have hss := h.checkClear _ hv
    refine .inr ⟨_, hss, ?_⟩
    rw [if_neg (by decide), if_neg (not_not_intro hss)]

/-- A store that is issued leaves the list, and the set it is in now, if it is the last store of that set. -/
theorem issued_eq (hS : 0 < cfg.SSITSize) (h : ss.InRange cfg) (PC seq_num : ℕ) :
    ∃ validLFST, ss.issued cfg PC seq_num true =
        .ok { ss with validLFST := validLFST, storeList := ss.storeList.filter (·.1 ≠ seq_num) } ∧
      ∀ idx, validLFST idx = true ↔ ss.validLFST idx = true ∧
        (ss.LFST idx = seq_num → ¬ (ss.validSSIT (cfg.calcIndex PC) = true ∧ ss.SSIT (cfg.calcIndex PC) = idx)) := by
  unfold issued
  dsimp only
  rw [if_neg (by decide), if_neg (not_not_intro (Config.calcIndex_lt hS PC))]
  rcases hva : ss.validSSIT (cfg.calcIndex PC)
  · exact ⟨ss.validLFST, rfl, fun idx => by simp⟩
  have hss := h _ hva
  rw [if_neg (by decide), if_neg (not_not_intro hss)]
  by_cases hla : ss.validLFST (ss.SSIT (cfg.calcIndex PC)) ∧ ss.LFST (ss.SSIT (cfg.calcIndex PC)) = seq_num
  · rw [if_pos hla]
    refine ⟨_, rfl, fun idx => ?_⟩
    by_cases hidx : idx = ss.SSIT (cfg.calcIndex PC)
    · simp [hidx, hla.2]
    · simp [update_of_ne hidx, Ne.symm hidx]
  · rw [if_neg hla]
    refine ⟨_, rfl, fun idx => ⟨fun hv => ⟨hv, ?_⟩, And.left⟩⟩
    rintro hseq ⟨-, rfl⟩
    exact hla ⟨hv, hseq⟩

end StoreSet

end

/-! ## What holds in every run -/

namespace Run

variable {cfg : Config} {run run' : Run} {op : Op}

/-- The bookkeeping that does not depend on the sets stores are in when they are issued. -/
structure Inv (cfg : Config) (run : Run) : Prop where
  inRange : run.ss.InRange cfg
  table : ∀ idx, run.ss.validLFST idx = true → idx < cfg.LFSTSize
  sorted : run.ss.storeList.Pairwise (·.1 > ·.1)
  le_last : ∀ e ∈ run.ss.storeList, e.1 ≤ run.last
  le_LFST : ∀ e ∈ run.ss.storeList, e.1 ≤ run.ss.LFST e.2
  listed : ∀ e ∈ run.ss.storeList, e.1 ∈ run.live

/-- The last store of a set is on the list, under that set. -/
def Current (ss : StoreSet) : Prop :=
  ∀ idx, ss.validLFST idx = true → (ss.LFST idx, idx) ∈ ss.storeList

theorem Inv.init : Inv cfg {} where
  inRange := by simp [StoreSet.InRange]
  table := by simp
  sorted := .nil
  le_last := by simp
  le_LFST := by simp
  listed := by simp

theorem Inv.clear (run : Run) : { run with ss := run.ss.clear }.Inv cfg where
  inRange := by simp [StoreSet.InRange, StoreSet.clear]
  table := by simp [StoreSet.clear]
  sorted := .nil
  le_last := by simp [StoreSet.clear]
  le_LFST := by simp [StoreSet.clear]
  listed := by simp [StoreSet.clear]

theorem Inv.checkClear (h : run.Inv cfg) : { run with ss := run.ss.checkClear cfg }.Inv cfg := by
  obtain ⟨n, hcl | hcl⟩ := checkClear_eq cfg run.ss
  · rw [hcl]
    exact { h with }
  · rw [hcl]
    exact Inv.clear { run with ss := { run.ss with memOpsPred := n } }

variable {live : List ℕ} {seq_num ssid PC : ℕ} {ss : StoreSet}

theorem Inv.advance (h : run.Inv cfg) (hnext : run.last < seq_num)
    (hli : run.live ⊆ live) : { run with live := live, last := seq_num }.Inv cfg :=
  { h with
    le_last := fun e he => Nat.le_trans (h.le_last e he) (Nat.le_of_lt hnext)
    listed := fun e he => hli (h.listed e he) }

/-- The last store of a set is the youngest one. -/
theorem Inv.enter (h : run.Inv cfg) (hnext : run.last < seq_num) (hss : ssid < cfg.LFSTSize) : Inv cfg {
      ss := { run.ss with
        LFST := update run.ss.LFST ssid seq_num
        validLFST := update run.ss.validLFST ssid true
        storeList := assign seq_num ssid run.ss.storeList }
      live := seq_num :: run.live
      last := seq_num } := by
  have hbe : ∀ e ∈ run.ss.storeList, e.1 < seq_num := fun e he => Nat.lt_of_le_of_lt (h.le_last e he) hnext
  refine ⟨h.inRange, fun idx hidx => ?_, ?_, ?_, ?_, ?_⟩
  · by_cases heq : idx = ssid
    · exact heq ▸ hss
    · exact h.table idx (by simpa [update_of_ne heq] using hidx)
  all_goals
    dsimp only
    rw [assign_of_lt hbe]
  · exact h.sorted.cons fun e he => hbe e he
  · exact forall_mem_cons.2 ⟨Nat.le_refl _, fun e he => Nat.le_of_lt (hbe e he)⟩
  · refine forall_mem_cons.2 ⟨by simp, fun e he => ?_⟩
    by_cases heq : e.2 = ssid
    · rw [heq, update_self]
      exact Nat.le_of_lt (hbe e he)
    · rw [update_of_ne heq]
      exact h.le_LFST e he
  · exact forall_mem_cons.2 ⟨mem_cons_self, fun e he => mem_cons_of_mem _ (h.listed e he)⟩

/-- Stores leave the list, and last stores are forgotten. -/
theorem Inv.leave (h : run.Inv cfg) {validLFST : ℕ → Bool} {l : List (ℕ × ℕ)}
    (hv : ∀ idx, validLFST idx = true → run.ss.validLFST idx = true) (hl : l.Sublist run.ss.storeList)
    (hli : ∀ e ∈ l, e.1 ∈ live) :
    { run with ss := { run.ss with validLFST := validLFST, storeList := l }, live := live }.Inv cfg where
  inRange := h.inRange
  table idx hidx := h.table idx (hv idx hidx)
  sorted := h.sorted.sublist hl
  le_last e he := h.le_last e (hl.subset he)
  le_LFST e he := h.le_LFST e (hl.subset he)
  listed := hli

section

variable (hS : 0 < cfg.SSITSize) (hL : 0 < cfg.LFSTSize) (h : run.Inv cfg) (hok : run.InOrder op)
include hS hL h hok

/-- Every call comes to its end, and keeps the bookkeeping. -/
theorem Inv.exists_step : ∃ run', step cfg run op = .ok run' ∧ run'.Inv cfg := by
  cases op with
  | violation store_PC load_PC =>
    obtain ⟨SSIT, validSSIT, hvi, hra⟩ := exists_violation hS hL h.inRange store_PC load_PC
    have hinv : Inv cfg { run with ss := { run.ss with SSIT := SSIT, validSSIT := validSSIT } } :=
      { h with inRange := hra }
    exact ⟨_, by rw [step, hvi]; rfl, hinv⟩
  | insertLoad load_PC load_seq_num => exact ⟨_, rfl, h.checkClear.advance hok (.refl _)⟩
  | insertStore store_PC store_seq_num =>
    rcases insertStore_cases hS h.inRange store_PC store_seq_num with hsk | ⟨ssid, hss, hent⟩
    · exact ⟨_, by rw [step, hsk]; rfl, h.checkClear.advance hok (subset_cons_self ..)⟩
    · exact ⟨_, by rw [step, hent]; rfl, h.checkClear.enter hok hss⟩
  | issued issued_PC issued_seq_num is_store =>
    cases is_store with
    | false => exact ⟨_, rfl, h⟩
    | true =>
      obtain ⟨validLFST, his, hv⟩ := issued_eq hS h.inRange issued_PC issued_seq_num
      refine ⟨_, by rw [step, his]; rfl, h.leave (fun idx hidx => ((hv idx).1 hidx).1) filter_sublist ?_⟩
      intro e he
      have hmem := mem_filter.1 he
      exact mem_filter.2 ⟨h.listed e hmem.1, by simpa using hmem.2⟩
  | squash squashed_num =>
    obtain ⟨validLFST, hsq, hv⟩ := squashLoop_eq squashed_num h.le_LFST
    refine ⟨_, by rw [step, StoreSet.squash, hsq]; rfl,
      h.leave (fun idx hidx => ((hv idx).1 hidx).1) (dropWhile_sublist _) ?_⟩
    intro e he
    rw [(while_eq_filter (h.sorted.imp fun hgt hlt => by simp at hlt ⊢; omega)).2] at he
    have hmem := mem_filter.1 he
    exact mem_filter.2 ⟨h.listed e hmem.1, by simpa using hmem.2⟩
  | clear => exact ⟨_, rfl, Inv.clear run⟩

theorem Inv.step (hs : run.step cfg op = .ok run') : run'.Inv cfg := by
  obtain ⟨_, hst, hinv⟩ := h.exists_step hS hL hok
  rw [hs, Except.ok.injEq] at hst
  exact hst ▸ hinv

end

/-! ## The last stores of the sets -/

theorem Current.clear (ss : StoreSet) : Current ss.clear := by
  simp [Current, StoreSet.clear]

theorem Current.checkClear (h : Current ss) : Current (ss.checkClear cfg) := by
  obtain ⟨n, hcl | hcl⟩ := checkClear_eq cfg ss
  · rw [hcl]
    exact h
  · rw [hcl]
    exact Current.clear _

theorem Current.enter (h : Current ss) (hbe : ∀ e ∈ ss.storeList, e.1 < seq_num) : Current { ss with
      LFST := update ss.LFST ssid seq_num
      validLFST := update ss.validLFST ssid true
      storeList := assign seq_num ssid ss.storeList } := by
  intro idx hidx
  dsimp only
  rw [assign_of_lt hbe]
  by_cases heq : idx = ssid
  · subst heq
    simp
  · simp only [update_of_ne heq] at hidx ⊢
    exact mem_cons_of_mem _ (h idx hidx)

/-- The last stores are in flight. -/
def NamesLive (run : Run) : Prop :=
  ∀ idx, run.ss.validLFST idx = true → run.ss.LFST idx ∈ run.live

theorem Current.namesLive (h : run.Inv cfg) (hcu : Current run.ss) : run.NamesLive :=
  fun idx hidx => h.listed _ (hcu idx hidx)

section

variable (hS : 0 < cfg.SSITSize) (h : run.Inv cfg) (hcu : Current run.ss)
  (hs : run.step cfg (.issued PC seq_num true) = .ok run')
include hS h hcu hs

theorem Current.issued (hn : run'.NamesLive) : Current run'.ss := by
  obtain ⟨validLFST, his, hv⟩ := issued_eq hS h.inRange PC seq_num
  rw [Run.step, his] at hs
  cases hs
  intro idx hidx
  have hne := (mem_filter.1 (hn idx hidx)).2
  exact mem_filter.2 ⟨hcu idx ((hv idx).1 hidx).1, hne⟩

/-- If a store is issued in another set than the one it is the last store of, it stays the last store of that one. -/
theorem namesLive_issued_iff : run'.NamesLive ↔ run.InItsSet cfg (.issued PC seq_num true) := by
  obtain ⟨validLFST, his, hv⟩ := issued_eq hS h.inRange PC seq_num
  rw [Run.step, his] at hs
  cases hs
  constructor
  · intro hn idx _ hidx hla
    by_contra ho
    have hst : validLFST idx = true := (hv idx).2 ⟨hidx, fun _ => ho⟩
    have hg := (mem_filter.1 (hn idx hst)).2
    simp [hla] at hg
  · intro hset idx hidx
    obtain ⟨hidx, ho⟩ := (hv idx).1 hidx
    have hne : run.ss.LFST idx ≠ seq_num := fun hla => ho hla (hset idx (h.table idx hidx) hidx hla)
    exact mem_filter.2 ⟨hcu.namesLive h idx hidx, by simpa using hne⟩

end

/-- A set whose last store is squashed forgets it. -/
theorem Current.squash (h : run.Inv cfg) (hcu : Current run.ss) {squashed_num : ℕ}
    (hs : run.step cfg (.squash squashed_num) = .ok run') : Current run'.ss := by
  obtain ⟨validLFST, hsq, hv⟩ := squashLoop_eq squashed_num h.le_LFST
  rw [Run.step, StoreSet.squash, hsq] at hs
  cases hs
  intro idx hidx
  obtain ⟨hidx, hke⟩ := (hv idx).1 hidx
  have hmem := hcu idx hidx
  rw [← takeWhile_append_dropWhile (p := (squashed_num < ·.1)) (l := run.ss.storeList)] at hmem
  rcases mem_append.1 hmem with hg | hst
  · exact absurd rfl (hke _ hg)
  · exact hst

theorem Current.step (hS : 0 < cfg.SSITSize) (hL : 0 < cfg.LFSTSize) (h : run.Inv cfg) (hcu : Current run.ss)
    (hok : run.InOrder op) (hset : run.InItsSet cfg op) (hs : run.step cfg op = .ok run') : Current run'.ss := by
  cases op with
  | violation store_PC load_PC =>
    obtain ⟨SSIT, validSSIT, hv, -⟩ := exists_violation hS hL h.inRange store_PC load_PC
    rw [Run.step, hv] at hs
    cases hs
    exact hcu
  | insertLoad load_PC load_seq_num =>
    cases hs
    exact hcu.checkClear
  | insertStore store_PC store_seq_num =>
    rcases insertStore_cases hS h.inRange store_PC store_seq_num with hsk | ⟨ssid, -, hent⟩
    · rw [Run.step, hsk] at hs
      cases hs
      exact hcu.checkClear
    · rw [Run.step, hent] at hs
      cases hs
      exact hcu.checkClear.enter fun e he => Nat.lt_of_le_of_lt (h.checkClear.le_last e he) hok
  | issued issued_PC issued_seq_num is_store =>
    cases is_store with
    | false =>
      cases hs
      exact hcu
    | true => exact hcu.issued hS h hs ((namesLive_issued_iff hS h hcu hs).2 hset)
  | squash squashed_num => exact hcu.squash h hs
  | clear =>
    cases hs
    exact Current.clear _

theorem NamesLive.checkInst (hS : 0 < cfg.SSITSize) (h : run.Inv cfg) (hn : run.NamesLive) (PC : ℕ) :
    ∃ seq_num, run.ss.checkInst cfg PC = .ok seq_num ∧ (seq_num = 0 ∨ seq_num ∈ run.live) := by
  unfold StoreSet.checkInst
  dsimp only
  rw [if_neg (not_not_intro (Config.calcIndex_lt hS PC))]
  rcases hv : run.ss.validSSIT (cfg.calcIndex PC)
  · exact ⟨0, rfl, .inl rfl⟩
  · rw [if_neg (by decide), if_neg (not_not_intro (h.inRange _ hv))]
    rcases hla : run.ss.validLFST (run.ss.SSIT (cfg.calcIndex PC))
    · exact ⟨0, rfl, .inl rfl⟩
    · exact ⟨_, rfl, .inr (hn _ hla)⟩

/-- Whatever sets stores are moved to, a squash comes to its end. -/
theorem exists_squash (hS : 0 < cfg.SSITSize) (hL : 0 < cfg.LFSTSize)
    (h : Reaches (Run.step cfg) Run.InOrder {} run) (squashed_num : ℕ) : ∃ ss, run.ss.squash squashed_num = .ok ss := by
  have hinv : run.Inv cfg := h.invariant (P := Inv cfg) Inv.init fun _ ih hok hs => ih.step hS hL hok hs
  obtain ⟨validLFST, hsq, -⟩ := squashLoop_eq squashed_num hinv.le_LFST
  exact ⟨_, hsq⟩

/-- If every store that is issued is still in the set that it is the last store of, a squash comes to its end and
instructions are told to wait for stores in flight only. -/
theorem names_live_stores (hS : 0 < cfg.SSITSize) (hL : 0 < cfg.LFSTSize)
    (h : Reaches (Run.step cfg) (fun run op => run.InOrder op ∧ run.InItsSet cfg op) {} run) :
    (∀ squashed_num, ∃ ss, run.ss.squash squashed_num = .ok ss) ∧
    ∀ PC, ∃ seq_num, run.ss.checkInst cfg PC = .ok seq_num ∧ (seq_num = 0 ∨ seq_num ∈ run.live) := by
  have hinv : run.Inv cfg ∧ Current run.ss := by
    refine h.invariant (P := fun run => run.Inv cfg ∧ Current run.ss) ⟨Inv.init, by simp [Current]⟩ ?_
    intro run run' op _ ih hok hs
    exact ⟨ih.1.step hS hL hok.1 hs, ih.2.step hS hL ih.1 hok.1 hok.2 hs⟩
  refine ⟨exists_squash hS hL (h.mono fun _ _ hok => hok.1), ?_⟩
  exact (hinv.2.namesLive hinv.1).checkInst hS hinv.1

/-- Four addresses and sixteen sets. -/
def sixteenSets : Config := { clearPeriod := 100, SSITSize := 4, LFSTSize := 16 }

/-- A store is issued, another one of the same set is in flight and the load waits for it. -/
theorem names_live_stores_second : ∃ run : Run,
    Reaches (Run.step sixteenSets) (fun run op => run.InOrder op ∧ run.InItsSet sixteenSets op) {} run ∧
    (run.live = [2] ∧ run.ss.checkInst sixteenSets 12 = .ok 2) ∧
    (∀ squashed_num, ∃ ss, run.ss.squash squashed_num = .ok ss) ∧
    ∀ PC, ∃ seq_num, run.ss.checkInst sixteenSets PC = .ok seq_num ∧ (seq_num = 0 ∨ seq_num ∈ run.live) := by
  obtain ⟨run, h, hrun⟩ := exists_reaches (Run.step sixteenSets)
    (fun run op => run.InOrder op ∧ run.InItsSet sixteenSets op) {}
    [.violation 0 12, .insertStore 0 1, .issued 0 1 true, .insertStore 0 2]
    (fun run => run.live = [2] ∧ run.ss.checkInst sixteenSets 12 = .ok 2) (by decide +kernel)
  exact ⟨run, h, hrun, names_live_stores (by decide) (by decide) h⟩

/-- The store is moved to the smaller set of another load before it is issued: the load it was in one set with is told to
wait for it afterwards. -/
theorem names_issued_store : ∃ run : Run, Reaches (Run.step sixteenSets) Run.InOrder {} run ∧
    run.ss.checkInst sixteenSets 12 = .ok 1 ∧ 1 ∉ run.live :=
  exists_reaches (Run.step sixteenSets) Run.InOrder {}
    [.violation 0 12, .violation 8 4, .insertStore 0 1, .violation 0 4, .issued 0 1 true] _ (by decide +kernel)

end Run

end GuardianCouncil.StoreSets
