import Mathlib.Data.Nat.Log
import Mathlib.Data.Nat.Bitwise
import GuardianCouncil.Lib.Fallible

/-!
# The path history of the indirect predictor

The targets of indirect branches are predicted from the targets of the last ones.  Each thread keeps the indirect branches
that were predicted, oldest first (`pathHist`), and how many of them have been committed (`headHistEntry`).  A commit is
to drop the oldest of them, so that no more than `pathLength` committed ones are kept, and a squash drops the ones that are
younger than a given instruction.

A call of `commit` stands for all instructions up to a number, but it moves the head by one entry only.  It does what it
should exactly if it is called for one indirect branch at most (`history_exact`).
-/

namespace GuardianCouncil.BPred
namespace Indirect

open Fallible List

abbrev ThreadID := ℕ
abbrev Addr := ℕ

inductive Fault
  | assertion
  /-- The last entry of an empty history is read. -/
  | emptyHistory
  | division
deriving DecidableEq

/-- The parameters, for program counters of type `P`. -/
structure Config (P : Type) where
  hashGHR : Bool
  hashTargets : Bool
  numSets : ℕ
  numWays : ℕ
  tagBits : ℕ
  pathLength : ℕ
  instShift : ℕ
  instAddr : P → Addr
  isPowerOf2 : ∃ k, numSets = 2 ^ k

structure HistoryEntry where
  pcAddr : Addr
  targetAddr : Addr
  seqNum : ℕ
deriving DecidableEq

structure ThreadInfo where
  pathHist : List HistoryEntry := []
  headHistEntry : ℕ := 0
deriving DecidableEq

structure IPredEntry (P : Type) where
  tag : Addr
  target : P

structure IndirectPredictor (P : Type) where
  targetCache : ℕ → List (IPredEntry P)
  threadInfo : ThreadID → ThreadInfo

variable {P : Type} {cfg : Config P}

namespace ThreadInfo

variable (info : ThreadInfo)

/-! ## The history -/

def recordIndirect (br_addr tgt_addr : Addr) (seq_num : ℕ) : ThreadInfo :=
  { info with pathHist := info.pathHist ++ [⟨br_addr, tgt_addr, seq_num⟩] }

def commit (pathLength : ℕ) (seq_num : ℕ) : ThreadInfo :=
  if info.pathHist.isEmpty then info
  else match info.pathHist[info.headHistEntry]? with
    | none => info
    | some entry =>
      if entry.seqNum ≤ seq_num then
        if pathLength ≤ info.headHistEntry then { info with pathHist := info.pathHist.tail }
        else { info with headHistEntry := info.headHistEntry + 1 }
      else info

/-- The entries from the first younger one on are erased. -/
def squash (seq_num : ℕ) : ThreadInfo :=
  { info with pathHist := info.pathHist.takeWhile (·.seqNum ≤ seq_num) }

end ThreadInfo

/-! ## The cache of targets -/

def getTag (cfg : Config P) (br_addr : Addr) : Addr := (br_addr >>> cfg.instShift) % 2 ^ cfg.tagBits

/-- The loop over the history, from the last entry. -/
def hashPath (cfg : Config P) (hash_shift : ℕ) : ℕ → List HistoryEntry → Addr → Addr
  | _, [], hash => hash
  | p, entry :: older, hash =>
    if p < cfg.pathLength then
      hashPath cfg hash_shift (p + 1) older (hash ^^^ (entry.targetAddr >>> (cfg.instShift + p * hash_shift)))
    else hash

def getSetIndex (cfg : Config P) (info : ThreadInfo) (br_addr : Addr) (ghr : ℕ) : Except Fault Addr :=
  let hash := br_addr >>> cfg.instShift
  let hash := if cfg.hashGHR then hash ^^^ ghr else hash
  if cfg.hashTargets then
    if cfg.pathLength = 0 then .error .division
    else
      let hash_shift := Nat.log 2 cfg.numSets / cfg.pathLength
      .ok (hashPath cfg hash_shift 0 info.pathHist.reverse hash &&& (cfg.numSets - 1))
  else .ok (hash &&& (cfg.numSets - 1))

namespace IndirectPredictor

variable (pred : IndirectPredictor P)

def setInfo (tid : ThreadID) (info : ThreadInfo) : IndirectPredictor P :=
  { pred with threadInfo := fun t => if t = tid then info else pred.threadInfo t }

/-- The first way with the tag gets the target, or the one that is drawn. -/
def setTarget (tag : Addr) (target : P) (draw : ℕ) (iset : List (IPredEntry P)) : List (IPredEntry P) :=
  match iset.findIdx? fun way => way.tag = tag with
  | some i => iset.set i ⟨tag, target⟩
  | none => iset.set (draw % iset.length) ⟨tag, target⟩

/-- The set is computed without the last entry of the history, which is then put back with its right target. -/
def recordTarget (cfg : Config P) (ghr : ℕ) (target : P) (tid : ThreadID) (draw : ℕ) :
    Except Fault (IndirectPredictor P) :=
  let info := pred.threadInfo tid
  match info.pathHist.getLast? with
  | none => .error .emptyHistory
  | some hist_entry => do
    let popped := { info with pathHist := info.pathHist.dropLast }
    let set_index ← getSetIndex cfg popped hist_entry.pcAddr ghr
    if set_index < cfg.numSets then
      let pred := pred.setInfo tid
        { popped with pathHist := popped.pathHist ++ [{ hist_entry with targetAddr := cfg.instAddr target }] }
      .ok { pred with targetCache := fun i =>
        if i = set_index then setTarget (getTag cfg hist_entry.pcAddr) target draw (pred.targetCache i)
        else pred.targetCache i }
    else .error .assertion

end IndirectPredictor

/-! ## Runs -/

inductive Op (P : Type)
  | recordIndirect (br_addr tgt_addr : Addr) (seq_num : ℕ) (tid : ThreadID)
  | commit (seq_num : ℕ) (tid : ThreadID)
  | squash (seq_num : ℕ) (tid : ThreadID)
  | recordTarget (ghr : ℕ) (target : P) (tid : ThreadID) (draw : ℕ)

/-- A predictor, with the instructions that were recorded and the last one that was committed. -/
structure Run (P : Type) where
  pred : IndirectPredictor P
  recorded : ThreadID → List ℕ
  committed : ThreadID → ℕ

def Run.step (cfg : Config P) (run : Run P) : Op P → Except Fault (Run P)
  | .recordIndirect br_addr tgt_addr seq_num tid =>
    .ok { run with
      pred := run.pred.setInfo tid ((run.pred.threadInfo tid).recordIndirect br_addr tgt_addr seq_num)
      recorded := fun t => if t = tid then seq_num :: run.recorded t else run.recorded t }
  | .commit seq_num tid =>
    .ok { run with
      pred := run.pred.setInfo tid ((run.pred.threadInfo tid).commit cfg.pathLength seq_num)
      committed := fun t => if t = tid then seq_num else run.committed t }
  | .squash seq_num tid =>
    .ok { run with pred := run.pred.setInfo tid ((run.pred.threadInfo tid).squash seq_num) }
  | .recordTarget ghr target tid draw => do
    let pred ← run.pred.recordTarget cfg ghr target tid draw
    .ok { run with pred := pred }

def Run.start (targetCache : ℕ → List (IPredEntry P)) : Run P where
  pred := ⟨targetCache, fun _ => {}⟩
  recorded := fun _ => []
  committed := fun _ => 0

/-- Instructions are recorded in order, and nothing that was committed is committed again or squashed. -/
def Run.InOrder (run : Run P) : Op P → Prop
  | .recordIndirect _ _ seq_num tid => ∀ s ∈ run.recorded tid, s < seq_num
  | .commit seq_num tid => run.committed tid ≤ seq_num
  | .squash seq_num tid => run.committed tid ≤ seq_num
  | .recordTarget _ _ _ _ => True

instance (run : Run P) : DecidablePred run.InOrder
  | .recordIndirect _ _ _ tid => inferInstanceAs (Decidable (∀ s ∈ run.recorded tid, s < _))
  | .commit _ _ | .squash _ _ => inferInstanceAs (Decidable (_ ≤ _))
  | .recordTarget _ _ _ _ => isTrue trivial

/-! ## Entries up to a number -/

/-- How many entries are not younger than an instruction. -/
def upTo (hist : List HistoryEntry) (seq_num : ℕ) : ℕ := hist.countP (·.seqNum ≤ seq_num)

def Sorted (hist : List HistoryEntry) : Prop := hist.Pairwise (·.seqNum < ·.seqNum)

section

variable {hist : List HistoryEntry} {seq_num : ℕ} {i : ℕ}

/-- In a sorted history, the entries up to a number come first. -/
theorem Sorted.getElem_le_iff (h : Sorted hist) {entry : HistoryEntry} (hi : hist[i]? = some entry) (seq_num : ℕ) :
    entry.seqNum ≤ seq_num ↔ i < upTo hist seq_num := by
  induction hist generalizing i with
  | nil => cases hi
  | cons first rest ih =>
    obtain ⟨hf, hre⟩ := pairwise_cons.1 h
    rw [upTo, countP_cons]
    by_cases hle : first.seqNum ≤ seq_num
    · rw [if_pos (decide_eq_true hle)]
      cases i with
      | zero =>
        cases hi
        exact iff_of_true hle (Nat.succ_pos _)
      | succ i => rw [ih hre hi, Nat.succ_lt_succ_iff]; rfl
    · -- all others are younger still
      have hn : rest.countP (·.seqNum ≤ seq_num) = 0 := by
        rw [countP_eq_zero]
        intro e he
        have := hf e he
        simp only [decide_eq_true_eq]
        omega
      rw [if_neg (by simpa using hle), hn]
      refine iff_of_false ?_ (Nat.not_lt_zero _)
      cases i with
      | zero =>
        cases hi
        exact hle
      | succ i =>
        have := hf entry (mem_of_getElem? hi)
        omega

theorem Sorted.takeWhile_eq (h : Sorted hist) :
    hist.takeWhile (·.seqNum ≤ seq_num) = hist.filter (·.seqNum ≤ seq_num) := by
  induction hist with
  | nil => rfl
  | cons first rest ih =>
    obtain ⟨hf, hre⟩ := pairwise_cons.1 h
    by_cases hle : first.seqNum ≤ seq_num
    · rw [takeWhile_cons_of_pos (by simpa using hle), filter_cons_of_pos (by simpa using hle), ih hre]
    rw [takeWhile_cons_of_neg (by simpa using hle), filter_cons_of_neg (by simpa using hle), eq_comm, filter_eq_nil_iff]
    intro e he
    have := hf e he
    simp only [decide_eq_true_eq]
    omega

theorem upTo_le_length (hist : List HistoryEntry) (seq_num : ℕ) : upTo hist seq_num ≤ hist.length := countP_le_length

theorem upTo_mono {seq_num' : ℕ} (h : seq_num ≤ seq_num') : upTo hist seq_num ≤ upTo hist seq_num' :=
  countP_mono_left fun e _ he => by
    rw [decide_eq_true_eq] at he ⊢
    omega

/-- The entries up to a number behind the first ones. -/
theorem Sorted.upTo_drop (h : Sorted hist) (hi : i ≤ upTo hist seq_num) :
    upTo (hist.drop i) seq_num = upTo hist seq_num - i := by
  have hsp : upTo hist seq_num = upTo (hist.take i) seq_num + upTo (hist.drop i) seq_num := by
    rw [upTo, upTo, upTo, ← countP_append, take_append_drop]
  have hall : upTo (hist.take i) seq_num = i := by
    have hlen : (hist.take i).length = i := by
      rw [length_take]
      have := upTo_le_length hist seq_num
      omega
    rw [upTo, countP_eq_length.2, hlen]
    intro e he
    obtain ⟨j, hj⟩ := getElem?_of_mem he
    have hlt : j < i := by
      have := (List.getElem?_eq_some_iff.1 hj).1
      omega
    rw [getElem?_take_of_lt hlt] at hj
    rw [decide_eq_true_eq, h.getElem_le_iff hj]
    omega
  omega

end

/-! ## What the calls do -/

/-- What holds of a thread's history, when instructions up to a number were committed. -/
structure Inv (cfg : Config P) (info : ThreadInfo) (recorded : List ℕ) (committed : ℕ) : Prop where
  sorted : Sorted info.pathHist
  recorded : ∀ entry ∈ info.pathHist, entry.seqNum ∈ recorded
  head_le : info.headHistEntry ≤ cfg.pathLength
  committed : info.headHistEntry ≤ upTo info.pathHist committed

namespace Inv

variable {info : ThreadInfo} {recorded : List ℕ} {committed seq_num : ℕ}

section

variable (h : Inv cfg info recorded committed)
include h

theorem recordIndirect (hla : ∀ s ∈ recorded, s < seq_num) (br_addr tgt_addr : Addr) :
    Inv cfg (info.recordIndirect br_addr tgt_addr seq_num) (seq_num :: recorded) committed where
  sorted := by
    refine pairwise_append.2 ⟨h.sorted, pairwise_singleton _ _, fun a ha b hb => ?_⟩
    rw [mem_singleton.1 hb]
    exact hla _ (h.recorded a ha)
  recorded entry hent := by
    rcases mem_append.1 hent with hent | hent
    · exact mem_cons_of_mem _ (h.recorded entry hent)
    · rw [mem_singleton.1 hent]
      exact mem_cons_self
  head_le := h.head_le
  committed := by
    refine le_trans h.committed ?_
    rw [ThreadInfo.recordIndirect, upTo, upTo, countP_append]
    exact Nat.le_add_right _ _

/-- What a commit does: the head is at the first entry that was not committed, and takes it in if it is one of those that
the call is for. -/
theorem commit_cases (hle : committed ≤ seq_num) : let info' := info.commit cfg.pathLength seq_num
    (upTo info.pathHist seq_num = info.headHistEntry ∧ info' = info) ∨
      (info.headHistEntry < upTo info.pathHist seq_num ∧ info.headHistEntry < cfg.pathLength ∧
        info' = { info with headHistEntry := info.headHistEntry + 1 }) ∨
      (info.headHistEntry < upTo info.pathHist seq_num ∧ info.headHistEntry = cfg.pathLength ∧
        info' = { info with pathHist := info.pathHist.tail } ∧
        upTo info'.pathHist seq_num + 1 = upTo info.pathHist seq_num) := by
  have hh : info.headHistEntry ≤ upTo info.pathHist seq_num := le_trans h.committed (upTo_mono hle)
  rw [ThreadInfo.commit]
  by_cases hem : info.pathHist.isEmpty = true
  · rw [if_pos hem]
    refine .inl ⟨?_, rfl⟩
    rw [List.isEmpty_iff] at hem
    rw [hem] at hh ⊢
    exact (Nat.le_zero.1 hh).symm
  · rw [if_neg hem]
    cases hget : info.pathHist[info.headHistEntry]? with
    | none =>
      have hlen := getElem?_eq_none_iff.1 hget
      have := upTo_le_length info.pathHist seq_num
      exact .inl ⟨by omega, rfl⟩
    | some entry =>
      dsimp only
      have hiff := h.sorted.getElem_le_iff hget seq_num
      by_cases hent : entry.seqNum ≤ seq_num
      · rw [if_pos hent]
        have hlt := hiff.1 hent
        by_cases hfull : cfg.pathLength ≤ info.headHistEntry
        · rw [if_pos hfull]
          refine .inr (.inr ⟨hlt, le_antisymm h.head_le hfull, rfl, ?_⟩)
          -- the first entry is one of those that are committed
          cases hhi : info.pathHist with
          | nil => simp [hhi] at hem
          | cons first rest =>
            have hf : first.seqNum ≤ seq_num := by
              rw [h.sorted.getElem_le_iff (i := 0) (by rw [hhi]; rfl)]
              omega
            rw [upTo, upTo, countP_cons_of_pos (by simpa using hf)]
            rfl
        · rw [if_neg hfull]
          exact .inr (.inl ⟨hlt, Nat.lt_of_not_le hfull, rfl⟩)
      · rw [if_neg hent]
        exact .inl ⟨by omega, rfl⟩

theorem commit (hle : committed ≤ seq_num) : Inv cfg (info.commit cfg.pathLength seq_num) recorded seq_num := by
  obtain ⟨heq, hin⟩ | ⟨hlt, hro, hin⟩ | ⟨hlt, hfull, hin, hco⟩ := h.commit_cases hle
  · rw [hin]
    exact ⟨h.sorted, h.recorded, h.head_le, le_of_eq heq.symm⟩
  · rw [hin]
    exact ⟨h.sorted, h.recorded, hro, hlt⟩
  · rw [hin] at hco ⊢
    refine ⟨h.sorted.sublist (tail_sublist _), fun entry hent => h.recorded entry (mem_of_mem_tail hent), h.head_le, ?_⟩
    show info.headHistEntry ≤ _
    dsimp only at hco ⊢
    omega

/-- A squash drops the younger entries, and all that were committed stay. -/
theorem squash (hle : committed ≤ seq_num) :
    (info.squash seq_num).pathHist = info.pathHist.filter (·.seqNum ≤ seq_num) ∧
      Inv cfg (info.squash seq_num) recorded committed := by
  have hh : (info.squash seq_num).pathHist = info.pathHist.filter (·.seqNum ≤ seq_num) := h.sorted.takeWhile_eq
  refine ⟨hh, ?_, fun entry hent => ?_, h.head_le, ?_⟩
  · rw [hh]
    exact h.sorted.sublist filter_sublist
  · rw [hh] at hent
    exact h.recorded entry (mem_filter.1 hent).1
  · rw [hh, upTo, countP_filter]
    refine le_trans h.committed (le_of_eq (countP_congr fun entry _ => ?_))
    simp only [decide_eq_true_eq, Bool.and_eq_true]
    omega

/-- The history depends on the numbers of its entries only. -/
theorem congr {info' : ThreadInfo}
    (hseq : info'.pathHist.map HistoryEntry.seqNum = info.pathHist.map HistoryEntry.seqNum)
    (hh : info'.headHistEntry = info.headHistEntry) : Inv cfg info' recorded committed := by
  have hco : upTo info'.pathHist committed = upTo info.pathHist committed := by
    have hmap := congrArg (List.countP (· ≤ committed)) hseq
    rw [countP_map, countP_map] at hmap
    exact hmap
  refine ⟨?_, fun entry hent => ?_, by rw [hh]; exact h.head_le, by rw [hh, hco]; exact h.committed⟩
  · have hso := h.sorted
    rw [Sorted, ← pairwise_map (f := HistoryEntry.seqNum) (R := (· < ·))] at hso ⊢
    rwa [hseq]
  · have hmem : entry.seqNum ∈ info.pathHist.map HistoryEntry.seqNum := by
      rw [← hseq]
      exact mem_map_of_mem hent
    obtain ⟨entry', he', heq⟩ := mem_map.1 hmem
    exact heq ▸ h.recorded entry' he'

end

end Inv

/-- Recording the target of the last branch changes no number in the history. -/
theorem recordTarget_seqNums {pred pred' : IndirectPredictor P} {ghr draw : ℕ} {target : P} {tid : ThreadID}
    (hok : pred.recordTarget cfg ghr target tid draw = .ok pred') (t : ThreadID) :
    (pred'.threadInfo t).pathHist.map HistoryEntry.seqNum = (pred.threadInfo t).pathHist.map HistoryEntry.seqNum ∧
      (pred'.threadInfo t).headHistEntry = (pred.threadInfo t).headHistEntry := by
  rw [IndirectPredictor.recordTarget] at hok
  split at hok
  · cases hok
  rename_i hist_entry hla
  obtain ⟨set_index, -, hok⟩ := bind_eq_ok.1 hok
  split at hok
  · cases hok
    show ((if t = tid then _ else _ : ThreadInfo).pathHist).map _ = _ ∧
      (if t = tid then _ else _ : ThreadInfo).headHistEntry = _
    by_cases ht : t = tid
    · subst ht
      rw [if_pos rfl]
      refine ⟨?_, rfl⟩
      obtain ⟨front, hf⟩ := getLast?_eq_some_iff.1 hla
      rw [hf, dropLast_concat, map_append, map_append]
      rfl
    · rw [if_neg ht]
      exact ⟨rfl, rfl⟩
  · cases hok

theorem Reaches.inv {targetCache : ℕ → List (IPredEntry P)} {run : Run P}
    (h : Reaches (Run.step cfg) Run.InOrder (Run.start targetCache) run) (tid : ThreadID) :
    Inv cfg (run.pred.threadInfo tid) (run.recorded tid) (run.committed tid) := by
  have hst : Inv cfg ({} : ThreadInfo) [] 0 := ⟨.nil, nofun, Nat.zero_le _, Nat.zero_le _⟩
  refine h.invariant (P := fun run => Inv cfg (run.pred.threadInfo tid) (run.recorded tid) (run.committed tid))
    hst fun {run run' op} _ hinv hok hste => ?_
  cases op with
  | recordIndirect br_addr tgt_addr seq_num t =>
    cases hste
    show Inv cfg (if tid = t then _ else _) (if tid = t then _ else _) _
    by_cases ht : tid = t
    · subst ht
      rw [if_pos rfl, if_pos rfl]
      exact hinv.recordIndirect hok br_addr tgt_addr
    · rw [if_neg ht, if_neg ht]
      exact hinv
  | commit seq_num t =>
    cases hste
    show Inv cfg (if tid = t then _ else _) _ (if tid = t then _ else _)
    by_cases ht : tid = t
    · subst ht
      rw [if_pos rfl, if_pos rfl]
      exact hinv.commit hok
    · rw [if_neg ht, if_neg ht]
      exact hinv
  | squash seq_num t =>
    cases hste
    show Inv cfg (if tid = t then _ else _) _ _
    by_cases ht : tid = t
    · subst ht
      rw [if_pos rfl]
      exact (hinv.squash hok).2
    · rw [if_neg ht]
      exact hinv
  | recordTarget ghr target t draw =>
    obtain ⟨pred', hpr, hrun⟩ := bind_eq_ok.1 hste
    cases hrun
    obtain ⟨hseq, hh⟩ := recordTarget_seqNums hpr tid
    exact hinv.congr hseq hh

/-- The head and the history are as they should be after a commit of the instructions up to a number. -/
def ThreadInfo.Committed (pathLength : ℕ) (info : ThreadInfo) (seq_num : ℕ) : Prop :=
  info.headHistEntry = min pathLength (upTo info.pathHist seq_num) ∧ upTo info.pathHist seq_num ≤ pathLength

/-- **A commit leaves the history as it should be exactly if it is for one more entry at most.**  A squash always drops the
younger entries and no others, and the head stays within the history. -/
theorem history_exact {targetCache : ℕ → List (IPredEntry P)} {run : Run P}
    (h : Reaches (Run.step cfg) Run.InOrder (Run.start targetCache) run) (tid : ThreadID) {seq_num : ℕ}
    (hle : run.committed tid ≤ seq_num) : let info := run.pred.threadInfo tid
    ((info.commit cfg.pathLength seq_num).Committed cfg.pathLength seq_num ↔
        upTo (info.pathHist.drop info.headHistEntry) seq_num ≤ 1) ∧
      (info.squash seq_num).pathHist = info.pathHist.filter (·.seqNum ≤ seq_num) ∧
      (info.squash seq_num).headHistEntry ≤ (info.squash seq_num).pathHist.length := by
  have hinv := Reaches.inv h tid
  obtain ⟨hh, hinv'⟩ := hinv.squash hle
  refine ⟨?_, hh, le_trans hinv'.committed (upTo_le_length _ _)⟩
  have hhe := le_trans hinv.committed (upTo_mono hle)
  rw [hinv.sorted.upTo_drop hhe, ThreadInfo.Committed]
  have hbo := hinv.head_le
  obtain ⟨heq, hin⟩ | ⟨hlt, hro, hin⟩ | ⟨hlt, hfull, hin, hco⟩ := hinv.commit_cases hle
  · rw [hin]
    omega
  · rw [hin]
    dsimp only
    omega
  · rw [hin] at hco ⊢
    dsimp only at hco ⊢
    omega

/-- Two entries are kept.  The first commit is for one indirect branch, and the second for the other two. -/
private def threeBranches : List (Op ℕ) :=
  [.recordIndirect 8 16 1 0, .recordIndirect 24 32 2 0, .recordIndirect 40 48 3 0, .commit 1 0]

private def exampleConfig : Config ℕ where
  hashGHR := true
  hashTargets := true
  numSets := 4
  numWays := 2
  tagBits := 4
  pathLength := 2
  instShift := 2
  instAddr := id
  isPowerOf2 := ⟨2, rfl⟩

theorem history_exact_oneBranch :
    ∃ run, Reaches (Run.step exampleConfig) Run.InOrder (Run.start fun _ => []) run ∧ run.committed 0 = 1 ∧
      (run.pred.threadInfo 0).pathHist.length = 3 ∧
      ((run.pred.threadInfo 0).commit 2 2).Committed 2 2 := by
  obtain ⟨run, hrun, hco, hh, hhe⟩ := exists_reaches (Run.step exampleConfig) Run.InOrder (Run.start fun _ => [])
    threeBranches (fun run => run.committed 0 = 1 ∧
      (run.pred.threadInfo 0).pathHist = [⟨8, 16, 1⟩, ⟨24, 32, 2⟩, ⟨40, 48, 3⟩] ∧ (run.pred.threadInfo 0).headHistEntry = 1)
    (by decide +kernel)
  refine ⟨run, hrun, hco, by rw [hh]; rfl, ?_⟩
  refine (history_exact hrun 0 (by rw [hco]; decide)).1.2 ?_
  rw [hh, hhe]
  decide

/-- Two branches are committed at once, and the head moves by one entry: three entries up to the number remain. -/
theorem history_lags :
    ∃ run, Reaches (Run.step exampleConfig) Run.InOrder (Run.start fun _ => []) run ∧ run.committed 0 = 3 ∧
      run.pred.threadInfo 0 = ⟨[⟨8, 16, 1⟩, ⟨24, 32, 2⟩, ⟨40, 48, 3⟩], 2⟩ ∧
      upTo (run.pred.threadInfo 0).pathHist 3 = 3 ∧ ¬ (run.pred.threadInfo 0).Committed 2 3 := by
  obtain ⟨run, hrun, hco, hin⟩ := exists_reaches (Run.step exampleConfig) Run.InOrder (Run.start fun _ => [])
    (threeBranches ++ [.commit 3 0]) (fun run => run.committed 0 = 3 ∧
      run.pred.threadInfo 0 = ⟨[⟨8, 16, 1⟩, ⟨24, 32, 2⟩, ⟨40, 48, 3⟩], 2⟩) (by decide +kernel)
  refine ⟨run, hrun, hco, hin, by rw [hin]; rfl, ?_⟩
  rw [hin, ThreadInfo.Committed]
  decide

end Indirect
end GuardianCouncil.BPred
