import GuardianCouncil.Lib.Stepwise
import GuardianCouncil.O3.Rob

/-!
# What the reorder buffer takes from rename

`getInsts` puts the instructions that rename has sent into the reorder buffer, except those that have been squashed on
the way and those of threads that are being squashed.  The loop has a second condition: it ends once the
partition of *thread 0* is full.  So instructions of other threads are left out without a trace while thread 0 has no
room, as `complete_iff` says exactly.
-/

namespace GuardianCouncil.Rob

open Function Fallible List

inductive CommitStatus
  | running
  | idle
  | robSquashing
  | trapPending
  | fetchTrapPending
  | squashAfterPending
deriving DecidableEq

/-- The commit stage, as far as it hands out the reorder buffer. -/
structure Commit where
  rob : ROB
  commitStatus : ThreadID → CommitStatus
  changedROBNumEntries : ThreadID → Bool
  youngestSeqNum : ThreadID → ℕ

namespace Commit

/-- The instruction is to go into the buffer. -/
def accepts (c : Commit) (inst : DynInst) : Bool :=
  !inst.squashed && c.commitStatus inst.threadNumber != .robSquashing &&
    c.commitStatus inst.threadNumber != .trapPending

def insert (c : Commit) (inst : DynInst) : Except Fault Commit := do
  let tid := inst.threadNumber
  let rob ← c.rob.insertInst inst
  if rob.threadEntries tid ≤ rob.maxEntries tid then
    .ok { c with
      rob := rob
      changedROBNumEntries := update c.changedROBNumEntries tid true
      youngestSeqNum := update c.youngestSeqNum tid inst.seqNum }
  else .error .assertion

def getInstsLoop : List DynInst → Commit → Except Fault Commit
  | [], c => .ok c
  | inst :: insts, c =>
    if c.rob.threadEntries 0 < c.rob.maxEntries 0 then
      if c.accepts inst then do
        let c ← c.insert inst
        getInstsLoop insts c
      else getInstsLoop insts c
    else .ok c

def getInsts (renameWidth : ℕ) (fromRename : List DynInst) (c : Commit) : Except Fault Commit :=
  getInstsLoop (fromRename.take (min renameWidth fromRename.length)) c

end Commit

/-! ## Insertion -/

namespace ROB

/-- The buffer with an instruction more. -/
def inserted (rob : ROB) (inst : DynInst) : ROB :=
  let q := (rob.instList inst.threadNumber).push { inst with inROB := true }
  { rob with
    instList := update rob.instList inst.threadNumber q
    head := if rob.numInstsInROB = 0 then q.first?.map (inst.threadNumber, ·) else rob.head
    tail := q.last?.map (inst.threadNumber, ·)
    numInstsInROB := rob.numInstsInROB + 1
    threadEntries := update rob.threadEntries inst.threadNumber (rob.threadEntries inst.threadNumber + 1) }

/-- The buffer's counters count, it has instructions of its own threads only, and it is not overfull. -/
structure Sound (rob : ROB) : Prop extends rob.Counted where
  outside : ∀ tid, rob.numThreads ≤ tid → rob.insts tid = []
  le : rob.numInstsInROB ≤ rob.numEntries

variable {rob rob' : ROB} {inst : DynInst}

/-- An instruction goes in unless the buffer is full. -/
theorem insertInst_eq (h : rob.Sound) : rob.insertInst inst =
      if rob.numInstsInROB < rob.numEntries then .ok (rob.inserted inst) else .error .assertion := by
  have hf : ¬ (rob.numInstsInROB = 0 ∧ rob.insts inst.threadNumber ≠ []) := by
    rintro ⟨hzero, hne⟩
    refine hne ?_
    by_cases hlt : inst.threadNumber < rob.numThreads
    · rw [h.total, Finset.sum_eq_zero_iff] at hzero
      exact length_eq_zero_iff.1 (hzero _ (Finset.mem_range.2 hlt))
    · exact h.outside _ (Nat.not_lt.1 hlt)
  rw [insertInst]
  by_cases hfull : rob.numInstsInROB = rob.numEntries
  · rw [if_pos hfull, if_neg (by rw [hfull]; exact lt_irrefl _)]
  · rw [if_neg hfull, if_neg hf, if_pos (lt_of_le_of_ne h.le hfull)]
    rfl

theorem insts_inserted (tid : ThreadID) : (rob.inserted inst).insts tid =
      rob.insts tid ++ if inst.threadNumber = tid then [{ inst with inROB := true }] else [] := by
  by_cases ht : inst.threadNumber = tid
  · subst ht
    dsimp only [insts, inserted]
    rw [if_pos rfl, update_self, IterQueue.elems_push]
  · dsimp only [insts, inserted]
    rw [if_neg ht, append_nil, update_of_ne (Ne.symm ht)]

theorem threadEntries_inserted (tid : ThreadID) :
    (rob.inserted inst).threadEntries tid = rob.threadEntries tid + if inst.threadNumber = tid then 1 else 0 := by
  by_cases ht : inst.threadNumber = tid
  · subst ht
    dsimp only [inserted]
    rw [if_pos rfl, update_self]
  · dsimp only [inserted]
    rw [if_neg ht, update_of_ne (Ne.symm ht), add_zero]

theorem Sound.inserted (h : rob.Sound) (hro : rob.numInstsInROB < rob.numEntries)
    (htid : inst.threadNumber < rob.numThreads) : (rob.inserted inst).Sound := by
  refine ⟨⟨fun tid => ?_, ?_⟩, fun tid hle => ?_, hro⟩
  · rw [threadEntries_inserted, insts_inserted, length_append, h.entries]
    split <;> rfl
  · have hsum := sum_change (f := fun t : ℕ => (rob.insts t).length)
      (g := fun t : ℕ => ((rob.inserted inst).insts t).length) (Finset.mem_range.2 htid)
      (fun t ht => by rw [insts_inserted, if_neg (Ne.symm ht), append_nil])
    have hto := h.total
    rw [insts_inserted, if_pos rfl, length_append, length_singleton] at hsum
    change rob.numInstsInROB + 1 = ∑ t ∈ Finset.range rob.numThreads, ((rob.inserted inst).insts t).length
    omega
  · have hle' : rob.numThreads ≤ tid := hle
    have hne : inst.threadNumber ≠ tid := (htid.trans_le hle').ne
    rw [insts_inserted, h.outside tid hle', if_neg hne, append_nil]

end ROB

/-! ## The loop -/

namespace Commit

variable {c c' : Commit} {inst : DynInst} {l : List DynInst}

/-- The stage with an instruction more in the buffer. -/
def inserted (c : Commit) (inst : DynInst) : Commit where
  rob := c.rob.inserted inst
  commitStatus := c.commitStatus
  changedROBNumEntries := update c.changedROBNumEntries inst.threadNumber true
  youngestSeqNum := update c.youngestSeqNum inst.threadNumber inst.seqNum

/-- The buffer has an entry for the instruction. -/
def HasRoom (c : Commit) (inst : DynInst) : Prop :=
  c.rob.numInstsInROB < c.rob.numEntries ∧ c.rob.threadEntries inst.threadNumber < c.rob.maxEntries inst.threadNumber
deriving Decidable

theorem insert_eq (h : c.rob.Sound) :
    c.insert inst = if c.HasRoom inst then .ok (c.inserted inst) else .error .assertion := by
  rw [insert, ROB.insertInst_eq h]
  by_cases hrob : c.rob.numInstsInROB < c.rob.numEntries
  · rw [if_pos hrob, ok_bind]
    simp only [ROB.threadEntries_inserted, if_pos, HasRoom, hrob, true_and]
    rfl
  · rw [if_neg hrob, error_bind, if_neg (fun hro => hrob hro.1)]

/-- What a thread gets of some instructions. -/
def shareOf (c : Commit) (tid : ThreadID) (l : List DynInst) : List DynInst :=
  (l.filter fun inst => c.accepts inst ∧ inst.threadNumber = tid).map fun inst => { inst with inROB := true }

/-- All instructions that are to go into the buffer have gone into it. -/
def Complete (c : Commit) (l : List DynInst) : Prop :=
  ∃ c', getInstsLoop l c = .ok c' ∧ ∀ tid, c'.rob.insts tid = c.rob.insts tid ++ c.shareOf tid l

/-- There is an entry for an instruction after some others, and one in the partition of thread 0. -/
structure Fits (c : Commit) (before : List DynInst) (inst : DynInst) : Prop where
  rob : c.rob.numInstsInROB + before.countP c.accepts < c.rob.numEntries
  thread : c.rob.threadEntries inst.threadNumber + (c.shareOf inst.threadNumber before).length <
    c.rob.maxEntries inst.threadNumber
  zero : c.rob.threadEntries 0 + (c.shareOf 0 before).length < c.rob.maxEntries 0

theorem shareOf_cons_of_accepts (tid : ThreadID) (h : c.accepts inst = true) : c.shareOf tid (inst :: l) =
      (if inst.threadNumber = tid then [{ inst with inROB := true }] else []) ++ c.shareOf tid l := by
  by_cases ht : inst.threadNumber = tid
  · simp [shareOf, h, ht]
  · simp [shareOf, ht]

theorem shareOf_cons_of_not_accepts (tid : ThreadID) (h : ¬ c.accepts inst = true) :
    c.shareOf tid (inst :: l) = c.shareOf tid l := by
  simp [shareOf, h]

theorem shareOf_inserted (tid : ThreadID) : (c.inserted inst).shareOf tid l = c.shareOf tid l := rfl

variable {before : List DynInst} {x : DynInst}

/-- What the first instruction takes up is not there for those after it. -/
theorem fits_inserted_iff (h : c.accepts inst = true) :
    (c.inserted inst).Fits before x ↔ c.Fits (inst :: before) x := by
  have hsh : ∀ tid, (c.inserted inst).rob.threadEntries tid + ((c.inserted inst).shareOf tid before).length =
      c.rob.threadEntries tid + (c.shareOf tid (inst :: before)).length := by
    intro tid
    rw [shareOf_inserted, shareOf_cons_of_accepts tid h, inserted, ROB.threadEntries_inserted, length_append, add_assoc]
    split <;> rfl
  have hco : (c.inserted inst).rob.numInstsInROB + before.countP (c.inserted inst).accepts =
      c.rob.numInstsInROB + (inst :: before).countP c.accepts := by
    rw [countP_cons_of_pos h, add_comm _ 1, ← add_assoc]
    rfl
  constructor
  · rintro ⟨hrob, hth, hzero⟩
    rw [hco] at hrob
    rw [hsh] at hth hzero
    exact ⟨hrob, hth, hzero⟩
  · rintro ⟨hrob, hth, hzero⟩
    rw [← hco] at hrob
    rw [← hsh] at hth hzero
    exact ⟨hrob, hth, hzero⟩

theorem fits_cons_iff_of_not_accepts (h : ¬ c.accepts inst = true) : c.Fits (inst :: before) x ↔ c.Fits before x := by
  constructor
  · rintro ⟨hrob, hth, hzero⟩
    rw [countP_cons_of_neg h] at hrob
    rw [shareOf_cons_of_not_accepts _ h] at hth hzero
    exact ⟨hrob, hth, hzero⟩
  · rintro ⟨hrob, hth, hzero⟩
    rw [← countP_cons_of_neg h] at hrob
    rw [← shareOf_cons_of_not_accepts _ h] at hth hzero
    exact ⟨hrob, hth, hzero⟩

/-- The loop goes on after an instruction that it does not take. -/
theorem complete_cons_of_not_accepts (hzero : c.rob.threadEntries 0 < c.rob.maxEntries 0)
    (h : ¬ c.accepts inst = true) : c.Complete (inst :: l) ↔ c.Complete l := by
  simp only [Complete, getInstsLoop, if_pos hzero, if_neg h, shareOf_cons_of_not_accepts _ h]

/-- The loop goes on after an instruction that it takes. -/
theorem complete_cons_of_accepts (hzero : c.rob.threadEntries 0 < c.rob.maxEntries 0) (hso : c.rob.Sound)
    (hro : c.HasRoom inst) (h : c.accepts inst = true) : c.Complete (inst :: l) ↔ (c.inserted inst).Complete l := by
  simp only [Complete, getInstsLoop, if_pos hzero, if_pos h, insert_eq hso, if_pos hro, ok_bind,
    shareOf_cons_of_accepts _ h, shareOf_inserted, ← append_assoc]
  have hin : ∀ tid, (c.inserted inst).rob.insts tid = c.rob.insts tid ++
      (if inst.threadNumber = tid then [{ inst with inROB := true }] else []) := ROB.insts_inserted
  simp only [hin]

/-- The loop ends if thread 0 has no room. -/
theorem complete_of_full (hzero : ¬ c.rob.threadEntries 0 < c.rob.maxEntries 0) :
    c.Complete l ↔ ∀ inst ∈ l, ¬ c.accepts inst = true := by
  have hlo : getInstsLoop l c = .ok c := by
    cases l with
    | nil => rfl
    | cons inst l => exact if_neg hzero
  constructor
  · rintro ⟨c', hok, hin⟩ inst hmem hacc
    rw [hlo, Except.ok.injEq] at hok
    subst hok
    have hnil : c.shareOf inst.threadNumber l = [] := self_eq_append_right.1 (hin inst.threadNumber)
    rw [shareOf, map_eq_nil_iff, filter_eq_nil_iff] at hnil
    exact hnil inst hmem (by simp [hacc])
  · intro hn
    refine ⟨c, hlo, fun tid => ?_⟩
    have hnil : c.shareOf tid l = [] := by
      rw [shareOf, map_eq_nil_iff, filter_eq_nil_iff]
      intro inst hmem hacc
      simp only [Bool.decide_and, Bool.and_eq_true] at hacc
      exact hn inst hmem (by simpa using hacc.1)
    rw [hnil, append_nil]

/-- **The loop takes all instructions exactly if there is room for each of them when its turn comes, and room in the
partition of thread 0 as well.** -/
theorem complete_iff (h : c.rob.Sound) (hl : ∀ inst ∈ l, inst.threadNumber < c.rob.numThreads) :
    c.Complete l ↔ Stepwise.Each (fun before inst => c.accepts inst = true → c.Fits before inst) l := by
  induction l generalizing c with
  | nil => exact ⟨fun _ => Stepwise.each_nil, fun _ => ⟨c, rfl, fun tid => (append_nil _).symm⟩⟩
  | cons inst l ih =>
    by_cases hzero : c.rob.threadEntries 0 < c.rob.maxEntries 0
    · rw [Stepwise.each_cons]
      by_cases hacc : c.accepts inst = true
      · by_cases hro : c.HasRoom inst
        · have hso : (c.inserted inst).rob.Sound := h.inserted hro.1 (hl inst mem_cons_self)
          rw [complete_cons_of_accepts hzero h hro hacc, ih hso fun x hx => hl x (mem_cons_of_mem _ hx)]
          have hf : c.accepts inst = true → c.Fits [] inst := fun _ => ⟨hro.1, hro.2, hzero⟩
          simp only [fits_inserted_iff hacc]
          exact ⟨fun hre => ⟨hf, hre⟩, fun hre => hre.2⟩
        · -- the insertion fails
          constructor
          · rintro ⟨c', hok, -⟩
            rw [getInstsLoop, if_pos hzero, if_pos hacc, insert_eq h, if_neg hro, error_bind] at hok
            exact nomatch hok
          · rintro ⟨hf, -⟩
            exact absurd ⟨(hf hacc).rob, (hf hacc).thread⟩ hro
      · rw [complete_cons_of_not_accepts hzero hacc, ih h fun x hx => hl x (mem_cons_of_mem _ hx)]
        simp only [fits_cons_iff_of_not_accepts hacc]
        exact ⟨fun hre => ⟨fun hacc' => absurd hacc' hacc, hre⟩, fun hre => hre.2⟩
    · rw [complete_of_full hzero]
      constructor
      · intro hn before x after hsp hacc
        exact absurd hacc (hn x (by rw [hsp]; exact mem_append_right _ mem_cons_self))
      · intro hea x hx hacc
        obtain ⟨before, after, hsp⟩ := append_of_mem hx
        have hfi := hea before x after hsp hacc
        exact hzero (Nat.lt_of_le_of_lt (Nat.le_add_right _ _) hfi.zero)

end Commit
end GuardianCouncil.Rob
