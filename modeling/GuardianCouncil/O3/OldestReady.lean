import GuardianCouncil.O3.GetInsts

/-!
# The thread that commits

`oldestReady` goes through the active threads and is to return the one whose first instruction, ready to commit, has the
least sequence number.  It keeps the *number of the thread* that it has found so far, and it is with this number that it
compares the sequence numbers of the threads that follow.  Sequence numbers are soon greater than the numbers of
threads, and then the first ready thread is never given up, whether it is the oldest or not (`oldestReady_iff`).
-/

namespace GuardianCouncil.Rob

open Fallible List

namespace ROB

def isHeadReady (rob : ROB) (tid : ThreadID) : Except Fault Bool :=
  if rob.threadEntries tid ≠ 0 then
    match rob.insts tid with
    | [] => .error .iterator
    | inst :: _ => .ok inst.canCommit
  else .ok false

/-- The first instruction of a thread, or `dummyInst`, which is no instruction. -/
def readHeadInst (rob : ROB) (tid : ThreadID) : Except Fault (Option DynInst) :=
  if rob.threadEntries tid ≠ 0 then
    match rob.insts tid with
    | [] => .error .iterator
    | inst :: _ => if inst.inROB then .ok (some inst) else .error .assertion
  else .ok none

end ROB

namespace Commit

def committing (c : Commit) (tid : ThreadID) : Bool :=
  c.commitStatus tid == .running || c.commitStatus tid == .idle || c.commitStatus tid == .fetchTrapPending

/-- What the loop of `oldestReady` does with a thread that is ready. -/
def compareHead (head_inst : Option DynInst) (tid : ThreadID) (oldest : ℕ) (first : Bool) : Except Fault (ℕ × Bool) :=
  if first then .ok (tid, false)
  else match head_inst with
    | none => .error .iterator
    | some inst => .ok (if inst.seqNum < oldest then tid else oldest, first)

def oldestReadyLoop (c : Commit) : List ThreadID → ℕ → Bool → Except Fault (ℕ × Bool)
  | [], oldest, first => .ok (oldest, first)
  | tid :: threads, oldest, first =>
    if !c.rob.isEmpty tid && c.committing tid then do
      let ready ← c.rob.isHeadReady tid
      if ready then do
        let head_inst ← c.rob.readHeadInst tid
        let s ← compareHead head_inst tid oldest first
        oldestReadyLoop c threads s.1 s.2
      else oldestReadyLoop c threads oldest first
    else oldestReadyLoop c threads oldest first

/-- The thread to commit from, if it is not `InvalidThreadID`. -/
def oldestReady (c : Commit) : Except Fault (Option ThreadID) := do
  let s ← c.oldestReadyLoop c.rob.activeThreads 0 true
  .ok (if !s.2 then some s.1 else none)

/-! ## The ready threads -/

/-- The thread may commit, and its first instruction is ready. -/
def ready (c : Commit) (tid : ThreadID) : Bool :=
  c.committing tid && (c.rob.insts tid).head?.any DynInst.canCommit

def readyThreads (c : Commit) : List ThreadID := c.rob.activeThreads.filter c.ready

/-- The sequence number of the first instruction of a thread. -/
def headSeq (c : Commit) (tid : ThreadID) : ℕ := ((c.rob.insts tid).head?.map DynInst.seqNum).getD 0

/-- What `oldestReady` is to return: the oldest of the ready threads, if there is one. -/
def IsOldestReady (c : Commit) : Option ThreadID → Prop
  | none => c.readyThreads = []
  | some tid => tid ∈ c.readyThreads ∧ ∀ t ∈ c.readyThreads, c.headSeq tid ≤ c.headSeq t

instance (c : Commit) : DecidablePred c.IsOldestReady
  | none => inferInstanceAs (Decidable (_ = []))
  | some _ => inferInstanceAs (Decidable (_ ∧ ∀ t ∈ c.readyThreads, _ ≤ _))

end Commit

/-! ## What is returned -/

namespace Commit

variable {c : Commit} {threads : List ThreadID} {tid : ThreadID}

/-- The counters of the buffer count, and the instructions know that they are in it. -/
structure HeadsSound (c : Commit) : Prop where
  entries : ∀ tid, c.rob.threadEntries tid = (c.rob.insts tid).length
  inROB : ∀ tid, ∀ inst ∈ c.rob.insts tid, inst.inROB = true

/-- What the loop of `oldestReady` keeps of a thread. -/
def keep (c : Commit) (s : ℕ × Bool) (tid : ThreadID) : ℕ × Bool :=
  if s.2 then (tid, false) else (if c.headSeq tid < s.1 then tid else s.1, s.2)

/-- The loop passes over the threads that are not ready. -/
theorem oldestReadyLoop_cons (h : c.HeadsSound) (oldest : ℕ) (first : Bool) :
    c.oldestReadyLoop (tid :: threads) oldest first =
      if c.ready tid then c.oldestReadyLoop threads (c.keep (oldest, first) tid).1 (c.keep (oldest, first) tid).2
      else c.oldestReadyLoop threads oldest first := by
  have hent := h.entries tid
  rw [oldestReadyLoop]
  cases hin : c.rob.insts tid with
  | nil =>
    rw [hin] at hent
    have hem : c.rob.isEmpty tid = true := decide_eq_true hent
    rw [ready, hin, hem]
    simp
  | cons inst insts =>
    have hpos : c.rob.threadEntries tid ≠ 0 := by
      rw [hent, hin]
      exact Nat.succ_ne_zero _
    have hem : c.rob.isEmpty tid = false := decide_eq_false hpos
    have hre : c.ready tid = (c.committing tid && inst.canCommit) := by rw [ready, hin]; rfl
    have hh : c.rob.isHeadReady tid = .ok inst.canCommit := by rw [ROB.isHeadReady, if_pos hpos, hin]
    have hread : c.rob.readHeadInst tid = .ok (some inst) := by
      rw [ROB.readHeadInst, if_pos hpos, hin]
      exact if_pos (h.inROB tid inst (by rw [hin]; exact mem_cons_self))
    have hseq : c.headSeq tid = inst.seqNum := by rw [headSeq, hin]; rfl
    have hke : compareHead (some inst) tid oldest first = .ok (c.keep (oldest, first) tid) := by
      rw [compareHead, keep, hseq]
      cases first <;> rfl
    rw [hem, hre, hh, hread]
    cases c.committing tid with
    | false => rfl
    | true =>
      cases inst.canCommit with
      | false => rfl
      | true =>
        simp only [Bool.not_false, Bool.and_self, if_true, ok_bind, hke]

theorem oldestReadyLoop_eq (h : c.HeadsSound) (oldest : ℕ) (first : Bool) :
    c.oldestReadyLoop threads oldest first = .ok ((threads.filter c.ready).foldl c.keep (oldest, first)) := by
  induction threads generalizing oldest first with
  | nil => rfl
  | cons tid threads ih =>
    rw [oldestReadyLoop_cons h, filter_cons]
    split
    · rw [ih, foldl_cons]
    · exact ih oldest first

/-- A thread is kept while the sequence numbers are not less than its number. -/
theorem foldl_keep (oldest : ℕ) : (threads.foldl c.keep (oldest, false)).2 = false ∧
    ((∀ t ∈ threads, oldest ≤ c.headSeq t) → threads.foldl c.keep (oldest, false) = (oldest, false)) := by
  induction threads generalizing oldest with
  | nil => exact ⟨rfl, fun _ => rfl⟩
  | cons tid threads ih =>
    refine ⟨(ih _).1, fun hle => ?_⟩
    rw [forall_mem_cons] at hle
    have hke : c.keep (oldest, false) tid = (oldest, false) := by
      rw [keep, if_neg Bool.false_ne_true, if_neg (Nat.not_lt.2 hle.1)]
    rw [foldl_cons, hke]
    exact (ih oldest).2 hle.2

theorem oldestReady_eq (h : c.HeadsSound) {first : ThreadID} {rest : List ThreadID} (hre : c.readyThreads = first :: rest) :
    c.oldestReady = .ok (some (rest.foldl c.keep (first, false)).1) := by
  have hf : c.keep (0, true) first = (first, false) := rfl
  rw [oldestReady, oldestReadyLoop_eq h, ok_bind, ← readyThreads, hre, foldl_cons, hf, (foldl_keep first).1]
  rfl

/-- **`oldestReady` returns no thread exactly if none is ready.  If the number of the first ready thread is not greater
than the sequence numbers, `oldestReady` is right exactly if that thread is the oldest.** -/
theorem oldestReady_iff (h : c.HeadsSound) : (c.oldestReady = .ok none ↔ c.readyThreads = []) ∧
    ((∀ first ∈ c.readyThreads.head?, ∀ t ∈ c.readyThreads, first ≤ c.headSeq t) →
      ((∃ tid, c.oldestReady = .ok tid ∧ c.IsOldestReady tid) ↔
        ∀ first ∈ c.readyThreads.head?, ∀ t ∈ c.readyThreads, c.headSeq first ≤ c.headSeq t)) := by
  cases hre : c.readyThreads with
  | nil =>
    have hnone : c.oldestReady = .ok none := by
      rw [oldestReady, oldestReadyLoop_eq h, ok_bind, ← readyThreads, hre]
      rfl
    exact ⟨iff_of_true hnone rfl, fun _ => iff_of_true ⟨none, hnone, hre⟩ nofun⟩
  | cons first rest =>
    have heq := oldestReady_eq h hre
    refine ⟨iff_of_false (by rw [heq]; nofun) nofun, fun hseq => ?_⟩
    have hle : ∀ t ∈ rest, first ≤ c.headSeq t := fun t ht => hseq first rfl t (mem_cons_of_mem _ ht)
    rw [(foldl_keep first).2 hle] at heq
    constructor
    · rintro ⟨tid, htid, hold⟩ first' ⟨⟩
      cases heq.symm.trans htid
      exact hre ▸ hold.2
    · intro hold
      refine ⟨some first, heq, ?_, ?_⟩
      · rw [hre]
        exact mem_cons_self
      · rw [hre]
        exact hold first rfl

/-- Threads 0, 1 and so on have these first instructions, all ready to commit. -/
private def withHeads (activeThreads : List ThreadID) (seqNums : ThreadID → ℕ) : Commit where
  rob := {
    numEntries := 8
    squashWidth := 1
    numThreads := 4
    maxEntries := fun _ => 2
    activeThreads := activeThreads
    instList := fun tid => ⟨0, [{ seqNum := seqNums tid, threadNumber := tid, canCommit := true, inROB := true }]⟩
    threadEntries := fun _ => 1
    numInstsInROB := 4
    squashIt := fun _ => none
    squashedSeqNum := fun _ => 0
    doneSquashing := fun _ => true
    robStatus := fun _ => .running
    head := none
    tail := none }
  commitStatus := fun _ => .running
  changedROBNumEntries := fun _ => false
  youngestSeqNum := fun _ => 0

/-- The oldest of three ready threads is the first one. -/
theorem oldestReady_iff_firstOldest :
    ∃ c : Commit, c.readyThreads = [2, 0, 1] ∧ c.headSeq 2 = 5 ∧ c.headSeq 0 = 7 ∧ c.headSeq 1 = 6 ∧
      ∃ tid, c.oldestReady = .ok tid ∧ c.IsOldestReady tid := by
  refine ⟨withHeads [2, 0, 1] fun tid => if tid = 2 then 5 else if tid = 0 then 7 else 6, rfl, rfl, rfl, rfl, ?_⟩
  refine ((oldestReady_iff ⟨fun _ => rfl, fun tid inst hin => ?_⟩).2 ?_).2 ?_
  · rw [mem_singleton.1 hin]
  · rintro first ⟨⟩
    decide
  · rintro first ⟨⟩
    decide

/-- Thread 0 has instruction 7 and thread 1 the older instruction 5, and yet thread 0 is returned. -/
theorem oldestReady_younger :
    ∃ c : Commit, c.readyThreads = [0, 1] ∧ c.headSeq 0 = 7 ∧ c.headSeq 1 = 5 ∧ c.oldestReady = .ok (some 0) ∧
      ¬ c.IsOldestReady (some 0) :=
  ⟨withHeads [0, 1] fun tid => if tid = 0 then 7 else 5, rfl, rfl, rfl, rfl, by decide⟩

end Commit

end GuardianCouncil.Rob
