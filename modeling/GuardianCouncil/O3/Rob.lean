import Mathlib.Algebra.BigOperators.Group.Finset.Basic
import GuardianCouncil.Lib.Fallible
import GuardianCouncil.Lib.IterQueue

/-!
# The reorder buffer

The instructions of each thread are in a list of their own, oldest first.  An instruction comes in at the end of its
thread's list (`insertInst`) and leaves at the head (`retireHead`).

A squash marks the instructions of a thread that are younger than a given one, from the end of the list towards its
head.  It does at most `squashWidth` of them at a time: `squash` starts it and does the first ones, and
`doSquash` continues from the iterator that was left behind.  The marked instructions remain in the list until
they are retired.
-/

namespace GuardianCouncil.Rob

open Function

abbrev ThreadID := ℕ

inductive Fault
  | assertion
  /-- An iterator is used that is at the end, or dangles. -/
  | iterator
deriving DecidableEq

/-- Of an instruction, what the buffer reads and changes. -/
structure DynInst where
  seqNum : ℕ
  threadNumber : ThreadID
  squashed : Bool := false
  canCommit : Bool := false
  inROB : Bool := false
deriving DecidableEq

/-- `setSquashed` and `setCanCommit`. -/
def DynInst.squash (inst : DynInst) : DynInst := { inst with squashed := true, canCommit := true }

inductive Status
  | running
  | robSquashing
deriving DecidableEq

structure ROB where
  numEntries : ℕ
  squashWidth : ℕ
  numThreads : ℕ
  maxEntries : ThreadID → ℕ
  activeThreads : List ThreadID
  instList : ThreadID → IterQueue DynInst
  threadEntries : ThreadID → ℕ
  numInstsInROB : ℕ
  squashIt : ThreadID → Option ℕ
  squashedSeqNum : ThreadID → ℕ
  doneSquashing : ThreadID → Bool
  robStatus : ThreadID → Status
  head : Option (ThreadID × ℕ)
  tail : Option (ThreadID × ℕ)

namespace ROB

variable (rob : ROB)

abbrev insts (tid : ThreadID) : List DynInst := (rob.instList tid).elems

/-! ## Insertion and retirement -/

/-- An instruction with its iterator. -/
structure Place where
  tid : ThreadID
  it : ℕ
  inst : DynInst

def firstPlace (tid : ThreadID) : Option Place :=
  (rob.insts tid).head?.map fun inst => ⟨tid, (rob.instList tid).popped, inst⟩

def lastPlace (tid : ThreadID) : Option Place :=
  (rob.insts tid).getLast?.map fun inst =>
    ⟨tid, (rob.instList tid).popped + ((rob.insts tid).length - 1), inst⟩

/-- What the loops of `updateHead` and `updateTail` do with the first or last instruction of a thread. -/
def choose (better : ℕ → ℕ → Bool) : Option Place → Option Place → Option Place
  | none, place => place
  | best, none => best
  | some best, some place => if better place.inst.seqNum best.inst.seqNum then some place else some best

/-- The oldest of the active threads' first instructions. -/
def updateHead : ROB :=
  { rob with
    head := (rob.activeThreads.foldl (fun best tid => choose (· < ·) best (rob.firstPlace tid)) none).map
      fun place => (place.tid, place.it) }

/-- The youngest of the active threads' last instructions. -/
def updateTail : ROB :=
  { rob with
    tail := (rob.activeThreads.foldl (fun best tid => choose (· > ·) best (rob.lastPlace tid)) none).map
      fun place => (place.tid, place.it) }

def insertInst (inst : DynInst) : Except Fault ROB :=
  let tid := inst.threadNumber
  if rob.numInstsInROB = rob.numEntries then .error .assertion
  -- `assert((*head) == inst)`: the instruction is the first of its list
  else if rob.numInstsInROB = 0 ∧ rob.insts tid ≠ [] then .error .assertion
  else
    let q := (rob.instList tid).push { inst with inROB := true }
    .ok { rob with
      instList := update rob.instList tid q
      head := if rob.numInstsInROB = 0 then q.first?.map (tid, ·) else rob.head
      tail := q.last?.map (tid, ·)
      numInstsInROB := rob.numInstsInROB + 1
      threadEntries := update rob.threadEntries tid (rob.threadEntries tid + 1) }

def retireHead (tid : ThreadID) : Except Fault ROB :=
  if rob.numInstsInROB = 0 then .error .assertion
  else match rob.insts tid with
    | [] => .error .iterator
    | inst :: _ =>
      if inst.canCommit = false then .error .assertion
      else .ok (updateHead { rob with
        numInstsInROB := rob.numInstsInROB - 1
        threadEntries := update rob.threadEntries tid (rob.threadEntries tid - 1)
        instList := update rob.instList tid (rob.instList tid).pop })

def isEmpty (tid : ThreadID) : Bool := rob.threadEntries tid = 0

def numFreeEntries (tid : ThreadID) : ℕ := rob.maxEntries tid - rob.threadEntries tid

end ROB

/-! ## Squashing -/

/-- What the loop of `doSquash` leaves behind. -/
structure Squashed where
  insts : IterQueue DynInst
  squashIt : Option ℕ
  /-- The loop has returned at the head of the list. -/
  atHead : Bool
  robTailUpdate : Bool

/-- The loop of `doSquash`, with at most `n` more turns. -/
def squashLoop (squashedSeqNum : ℕ) : ℕ → IterQueue DynInst → Option ℕ → Bool → Except Fault Squashed
  | 0, q, it, robTailUpdate => .ok ⟨q, it, false, robTailUpdate⟩
  | _ + 1, q, none, robTailUpdate => .ok ⟨q, none, false, robTailUpdate⟩
  | n + 1, q, some it, robTailUpdate =>
    match q.get? it with
    | none => .error .iterator
    | some inst =>
      if inst.seqNum > squashedSeqNum then
        let q := q.modify it DynInst.squash
        if q.first? = some it then .ok ⟨q, none, true, robTailUpdate⟩
        else squashLoop squashedSeqNum n q (some (it - 1)) (robTailUpdate || q.last? == some it)
      else .ok ⟨q, some it, false, robTailUpdate⟩

namespace ROB

variable (rob : ROB)

/-- `squashIt[tid] = instList[tid].end(); doneSquashing[tid] = true`. -/
def endSquash (tid : ThreadID) : ROB :=
  { rob with
    squashIt := update rob.squashIt tid none
    doneSquashing := update rob.doneSquashing tid true }

/-- The instruction that a thread's iterator points at. -/
def squashInst (tid : ThreadID) : Except Fault DynInst :=
  match (rob.squashIt tid).bind (rob.instList tid).get? with
  | none => .error .iterator
  | some inst => .ok inst

/-- The check after the loop. -/
def checkDone (tid : ThreadID) : Except Fault ROB := do
  let inst ← rob.squashInst tid
  .ok (if inst.seqNum ≤ rob.squashedSeqNum tid then rob.endSquash tid else rob)

def doSquash (tid : ThreadID) : Except Fault ROB :=
  if rob.squashIt tid = none then .error .assertion
  else do
    let inst ← rob.squashInst tid
    if inst.seqNum < rob.squashedSeqNum tid then .ok (rob.endSquash tid)
    else
      let r ← squashLoop (rob.squashedSeqNum tid) rob.squashWidth (rob.instList tid) (rob.squashIt tid) false
      let rob := { rob with
        instList := update rob.instList tid r.insts
        squashIt := update rob.squashIt tid r.squashIt }
      if r.atHead then .ok (rob.endSquash tid)
      else
        let rob ← rob.checkDone tid
        .ok (if r.robTailUpdate then rob.updateTail else rob)

def squash (squash_num : ℕ) (tid : ThreadID) : Except Fault ROB :=
  if rob.isEmpty tid then .ok rob
  else
    let rob := { rob with
      robStatus := update rob.robStatus tid .robSquashing
      doneSquashing := update rob.doneSquashing tid false
      squashedSeqNum := update rob.squashedSeqNum tid squash_num }
    if rob.insts tid = [] then .ok rob
    else doSquash { rob with squashIt := update rob.squashIt tid (rob.instList tid).last? } tid

/-! ## Well-formed buffers -/

/-- The counters count the instructions in the lists. -/
structure Counted : Prop where
  entries : ∀ tid, rob.threadEntries tid = (rob.insts tid).length
  total : rob.numInstsInROB = ∑ tid ∈ Finset.range rob.numThreads, (rob.insts tid).length

/-- Nothing of a thread has changed. -/
structure SameThread (rob rob' : ROB) (tid : ThreadID) : Prop where
  instList : rob'.instList tid = rob.instList tid
  threadEntries : rob'.threadEntries tid = rob.threadEntries tid
  squashIt : rob'.squashIt tid = rob.squashIt tid
  squashedSeqNum : rob'.squashedSeqNum tid = rob.squashedSeqNum tid
  doneSquashing : rob'.doneSquashing tid = rob.doneSquashing tid
  robStatus : rob'.robStatus tid = rob.robStatus tid

end ROB

/-- A sum of which one term changes. -/
theorem sum_change {ι : Type*} [DecidableEq ι] {s : Finset ι} {f g : ι → ℕ} {k : ι} (hk : k ∈ s)
    (h : ∀ i, i ≠ k → g i = f i) : ∑ i ∈ s, g i + f k = ∑ i ∈ s, f i + g k := by
  have hre : ∑ i ∈ s.erase k, g i = ∑ i ∈ s.erase k, f i :=
    Finset.sum_congr rfl fun i hi => h i (Finset.ne_of_mem_erase hi)
  rw [← Finset.add_sum_erase s g hk, ← Finset.add_sum_erase s f hk, hre]
  omega

namespace ROB

variable {rob rob' : ROB} {tid : ThreadID}

/-- A list is replaced by one of the same length. -/
theorem length_update {q : IterQueue DynInst} (h : q.elems.length = (rob.insts tid).length) (t : ThreadID) :
    (update rob.instList tid q t).elems.length = (rob.insts t).length := by
  by_cases ht : t = tid
  · rw [ht, update_self, h]
  · rw [update_of_ne ht]

/-! ## Retirement -/

/-- The buffer without the first instruction of a thread. -/
def retired (rob : ROB) (tid : ThreadID) : ROB :=
  updateHead { rob with
    numInstsInROB := rob.numInstsInROB - 1
    threadEntries := update rob.threadEntries tid (rob.threadEntries tid - 1)
    instList := update rob.instList tid (rob.instList tid).pop }

theorem retireHead_eq_ok_iff : rob.retireHead tid = .ok rob' ↔
    0 < rob.numInstsInROB ∧ (∃ inst l, rob.insts tid = inst :: l ∧ inst.canCommit = true) ∧ rob' = rob.retired tid := by
  rw [retireHead]
  by_cases hzero : rob.numInstsInROB = 0
  · rw [if_pos hzero]
    exact ⟨fun h => (nomatch h), fun h => absurd hzero h.1.ne'⟩
  rw [if_neg hzero]
  cases hl : rob.insts tid with
  | nil => exact ⟨fun h => (nomatch h), by rintro ⟨-, ⟨inst, l, h, -⟩, -⟩; exact nomatch h⟩
  | cons inst l =>
    dsimp only
    cases hre : inst.canCommit with
    | false =>
      rw [if_pos rfl]
      refine ⟨fun h => (nomatch h), ?_⟩
      rintro ⟨-, ⟨inst', l', h, hr'⟩, -⟩
      rw [List.cons.injEq] at h
      rw [h.1, hr'] at hre
      exact nomatch hre
    | true =>
      rw [if_neg Bool.noConfusion, Except.ok.injEq]
      exact ⟨fun h => ⟨Nat.pos_of_ne_zero hzero, ⟨inst, l, rfl, hre⟩, h.symm⟩, fun h => h.2.2.symm⟩

theorem insts_retired (t : ThreadID) :
    (rob.retired tid).insts t = if t = tid then (rob.insts tid).tail else rob.insts t := by
  dsimp only [insts, retired, updateHead]
  rw [update_apply]
  split
  · exact IterQueue.elems_pop ..
  · rfl

theorem threadEntries_retired (t : ThreadID) : (rob.retired tid).threadEntries t =
      if t = tid then rob.threadEntries tid - 1 else rob.threadEntries t := by
  dsimp only [retired, updateHead]
  exact update_apply ..

theorem Counted.retired (h : rob.Counted) (hne : rob.insts tid ≠ []) (htid : tid < rob.numThreads) :
    (rob.retired tid).Counted := by
  have hpos : 0 < (rob.insts tid).length := List.length_pos_iff.2 hne
  refine ⟨fun t => ?_, ?_⟩
  · rw [threadEntries_retired, insts_retired]
    by_cases ht : t = tid
    · rw [if_pos ht, if_pos ht, List.length_tail, h.entries]
    · rw [if_neg ht, if_neg ht, h.entries]
  · have hsum := sum_change (f := fun t : ℕ => (rob.insts t).length)
      (g := fun t : ℕ => ((rob.retired tid).insts t).length) (Finset.mem_range.2 htid)
      (fun t ht => by rw [insts_retired, if_neg ht])
    have hto := h.total
    rw [insts_retired, if_pos rfl, List.length_tail] at hsum
    change rob.numInstsInROB - 1 = ∑ t ∈ Finset.range rob.numThreads, ((rob.retired tid).insts t).length
    omega

end ROB
end GuardianCouncil.Rob
