import GuardianCouncil.Lib.Credit
import GuardianCouncil.O3.GetInsts

/-!
# Rename's credit for the reorder buffer

Rename sends instructions to commit and to issue at the same time.  Commit reports the free entries of a thread
whenever they have changed, and issue reports how many instructions it has dispatched; both reports reach rename
some cycles later.  Rename takes the instructions it has sent and not heard of from issue to be on their way
to the buffer, and sends at most as many as there are then free entries (`calcFreeROBEntries`).

If reports from issue are not faster than those from commit, what arrives at commit has room in its own thread's
partition in every run (`Inv`).  So what can go wrong in `getInsts` is that the buffer as a whole is full, and that
thread 0 is (`getInsts_complete_iff`).
-/

namespace GuardianCouncil.Rob

open Function Fallible List Credit

/-! ## A cycle -/

structure Config where
  renameWidth : ℕ
  renameToROBDelay : ℕ
  renameToIEWDelay : ℕ
  iewToRenameDelay : ℕ
  commitToRenameDelay : ℕ

/-- What the stages have written into the time buffers in a cycle. -/
structure Past where
  /-- `renameQueue`. -/
  batch : List DynInst
  /-- `iewInfo[tid].dispatched`. -/
  dispatched : ThreadID → ℕ
  /-- `commitInfo[tid].freeROBEntries`, if `usedROB` is set. -/
  freeROBEntries : ThreadID → Option ℕ

/-- The cycles before the present one have the latest first. -/
structure Sys where
  commit : Commit
  /-- `freeEntries[tid].robEntries`. -/
  robEntries : ThreadID → ℕ
  instsInProgress : ThreadID → ℤ
  past : List Past

/-- What else happens to the buffer in the commit stage. -/
inductive RobOp
  | squash (squash_num : ℕ) (tid : ThreadID)
  | doSquash (tid : ThreadID)
  | setCanCommit (tid : ThreadID) (it : ℕ)
  | retireHead (tid : ThreadID)

def RobOp.run (c : Commit) : RobOp → Except Fault Commit
  | .squash squash_num tid => do
    let rob ← c.rob.squash squash_num tid
    .ok { c with rob := rob, changedROBNumEntries := update c.changedROBNumEntries tid true }
  | .doSquash tid => do
    let rob ← c.rob.doSquash tid
    .ok { c with rob := rob }
  | .setCanCommit tid it =>
    let q := (c.rob.instList tid).modify it fun inst => { inst with canCommit := true }
    .ok { c with rob := { c.rob with instList := update c.rob.instList tid q } }
  | .retireHead tid => do
    let rob ← c.rob.retireHead tid
    .ok { c with rob := rob, changedROBNumEntries := update c.changedROBNumEntries tid true }

/-- What the rest of the core does in a cycle. -/
structure Input where
  /-- What rename sends. -/
  batch : List DynInst
  dispatched : ThreadID → ℕ
  /-- Instructions that have been squashed by the time they reach commit. -/
  squashed : ℕ → Bool
  commitStatus : ThreadID → CommitStatus
  /-- Squashes before `getInsts`. -/
  before : List RobOp
  /-- `commitInsts` and `markCompletedInsts`. -/
  after : List RobOp
  /-- Threads for which the buffer is reported to be empty. -/
  emptyROB : ThreadID → Bool

variable (cfg : Config)

/-- What rename reads over a wire from a later stage.  With a delay of 0, the stage has not written it yet. -/
def news (past : List Past) : ℕ → Option Past
  | 0 => none
  | n + 1 => past[n]?

namespace Sys

def readFreeEntries (sys : Sys) (tid : ThreadID) : ℕ :=
  ((news sys.past cfg.commitToRenameDelay).bind fun p => p.freeROBEntries tid).getD (sys.robEntries tid)

/-- `fromIEW->iewInfo[tid].dispatched`. -/
def dispatched (sys : Sys) (tid : ThreadID) : ℕ :=
  ((news sys.past cfg.iewToRenameDelay).map fun p => p.dispatched tid).getD 0

def calcFreeROBEntries (sys : Sys) (tid : ThreadID) : ℤ :=
  sys.readFreeEntries cfg tid - (sys.instsInProgress tid - sys.dispatched cfg tid)

/-- `fromRename`. -/
def arrivals (sys : Sys) (inp : Input) : List DynInst :=
  ((inp.batch :: sys.past.map Past.batch)[cfg.renameToROBDelay]?.getD []).map fun inst =>
    { inst with squashed := inst.squashed || inp.squashed inst.seqNum }

/-- The commit stage when it is about to call `getInsts`. -/
def atGetInsts (sys : Sys) (inp : Input) : Except Fault Commit := do
  let c ← inp.before.foldlM RobOp.run sys.commit
  .ok { c with commitStatus := inp.commitStatus }

/-- The rest of the commit stage's cycle, which is left out if all threads are being squashed. -/
def getAndCommit (sys : Sys) (inp : Input) (c : Commit) : Except Fault Commit :=
  if c.rob.activeThreads.countP (c.commitStatus · = .robSquashing) = c.rob.numThreads then .ok c
  else do
    let c ← c.getInsts cfg.renameWidth (sys.arrivals cfg inp)
    inp.after.foldlM RobOp.run c

end Sys

/-- The free entries that the commit stage reports at the end of its cycle. -/
def Commit.report (c : Commit) (inp : Input) (tid : ThreadID) : Option ℕ :=
  if tid ∈ c.rob.activeThreads ∧ (c.changedROBNumEntries tid = true ∨ inp.emptyROB tid = true)
    then some (c.rob.numFreeEntries tid) else none

def Commit.reported (c : Commit) : Commit :=
  { c with changedROBNumEntries := fun tid =>
    if tid ∈ c.rob.activeThreads then false else c.changedROBNumEntries tid }

/-- The instructions of a thread that rename has sent in a cycle. -/
def Past.sent (tid : ThreadID) (p : Past) : ℕ := p.batch.countP (·.threadNumber = tid)

def Input.sent (tid : ThreadID) (inp : Input) : ℕ := inp.batch.countP (·.threadNumber = tid)

def Sys.cycle (sys : Sys) (inp : Input) : Except Fault Sys := do
  let c ← sys.atGetInsts inp
  let c ← sys.getAndCommit cfg inp c
  .ok {
    commit := c.reported
    robEntries := sys.readFreeEntries cfg
    instsInProgress := fun tid => sys.instsInProgress tid + inp.sent tid - sys.dispatched cfg tid
    past := ⟨inp.batch, inp.dispatched, c.report inp⟩ :: sys.past }

/-- Rename sends at most `calcFreeROBEntries` instructions for each active thread and none for others, and issue
dispatches only what has reached it. -/
structure Rule (sys : Sys) (inp : Input) : Prop where
  send : ∀ tid, inp.sent tid = 0 ∨ (inp.sent tid : ℤ) ≤ sys.calcFreeROBEntries cfg tid
  active : ∀ inst ∈ inp.batch, inst.threadNumber ∈ sys.commit.rob.activeThreads
  dispatch : ∀ tid, total (Past.dispatched · tid) (⟨inp.batch, inp.dispatched, fun _ => none⟩ :: sys.past) ≤
    total (Past.sent tid)
      ((⟨inp.batch, inp.dispatched, fun _ => none⟩ :: sys.past).drop cfg.renameToIEWDelay)

/-- A core that has just been started. -/
def Sys.start (numEntries squashWidth numThreads : ℕ) (maxEntries : ThreadID → ℕ) (activeThreads : List ThreadID) :
    Sys where
  commit := {
    rob := {
      numEntries := numEntries
      squashWidth := squashWidth
      numThreads := numThreads
      maxEntries := maxEntries
      activeThreads := activeThreads
      instList := fun _ => ⟨0, []⟩
      threadEntries := fun _ => 0
      numInstsInROB := 0
      squashIt := fun _ => none
      squashedSeqNum := fun _ => 0
      doneSquashing := fun _ => true
      robStatus := fun _ => .running
      head := none
      tail := none }
    commitStatus := fun _ => .idle
    changedROBNumEntries := fun _ => false
    youngestSeqNum := fun _ => 0 }
  robEntries := maxEntries
  instsInProgress := fun _ => 0
  past := []

/-! ## What happens to the counters -/

/-- The lists are as long as before, and the counters are what they were. -/
structure ROB.SameCounts (rob rob' : ROB) : Prop where
  numEntries : rob'.numEntries = rob.numEntries
  numThreads : rob'.numThreads = rob.numThreads
  maxEntries : rob'.maxEntries = rob.maxEntries
  activeThreads : rob'.activeThreads = rob.activeThreads
  threadEntries : rob'.threadEntries = rob.threadEntries
  numInstsInROB : rob'.numInstsInROB = rob.numInstsInROB
  length : ∀ tid, (rob'.insts tid).length = (rob.insts tid).length

namespace ROB

variable {rob rob' : ROB} {tid : ThreadID}

theorem SameCounts.sound (h : rob.SameCounts rob') (hs : rob.Sound) : rob'.Sound := by
  refine ⟨⟨fun t => ?_, ?_⟩, fun t ht => ?_, ?_⟩
  · rw [h.threadEntries, h.length, hs.entries]
  · rw [h.numInstsInROB, h.numThreads, hs.total]
    exact Finset.sum_congr rfl fun t _ => (h.length t).symm
  · rw [h.numThreads] at ht
    rw [← length_eq_zero_iff, h.length, hs.outside t ht, length_nil]
  · rw [h.numInstsInROB, h.numEntries]
    exact hs.le

end ROB

theorem squashLoop_length {s n : ℕ} {q : IterQueue DynInst} {it : Option ℕ} {upd : Bool} {r : Squashed}
    (h : squashLoop s n q it upd = .ok r) : r.insts.elems.length = q.elems.length := by
  induction n generalizing q it upd with
  | zero =>
    cases h
    rfl
  | succ n ih =>
    cases it with
    | none =>
      cases h
      rfl
    | some it =>
      rw [squashLoop] at h
      split at h
      · cases h
      split at h
      · dsimp only at h
        split at h
        · cases h
          exact IterQueue.length_modify _ _
        · exact (ih h).trans (IterQueue.length_modify _ _)
      · cases h
        rfl

namespace ROB

variable {rob rob' : ROB} {tid : ThreadID} {s : ℕ}

theorem sameCounts_doSquash (h : rob.doSquash tid = .ok rob') : rob.SameCounts rob' := by
  rw [doSquash] at h
  split at h
  · exact nomatch h
  obtain ⟨inst, -, h⟩ := bind_eq_ok.1 h
  split at h
  · cases h
    exact ⟨rfl, rfl, rfl, rfl, rfl, rfl, fun _ => rfl⟩
  obtain ⟨r, hlo, h⟩ := bind_eq_ok.1 h
  have hlen := length_update (squashLoop_length hlo)
  split at h
  · cases h
    exact ⟨rfl, rfl, rfl, rfl, rfl, rfl, hlen⟩
  obtain ⟨rob₁, hch, h⟩ := bind_eq_ok.1 h
  obtain ⟨x, -, hch⟩ := bind_eq_ok.1 hch
  cases hch
  cases h
  split <;> split <;> exact ⟨rfl, rfl, rfl, rfl, rfl, rfl, hlen⟩

theorem sameCounts_squash (h : rob.squash s tid = .ok rob') : rob.SameCounts rob' := by
  rw [squash] at h
  split at h
  · cases h
    exact ⟨rfl, rfl, rfl, rfl, rfl, rfl, fun _ => rfl⟩
  dsimp only at h
  split at h
  · cases h
    exact ⟨rfl, rfl, rfl, rfl, rfl, rfl, fun _ => rfl⟩
  · obtain ⟨h1, h2, h3, h4, h5, h6, h7⟩ := sameCounts_doSquash h
    exact ⟨h1, h2, h3, h4, h5, h6, h7⟩

end ROB

/-- From one state of the commit stage to another, a thread has got at most `k` entries more, and where its entries
have changed, that has been noted. -/
structure Moved (c c' : Commit) (k : ThreadID → ℕ) : Prop where
  numThreads : c'.rob.numThreads = c.rob.numThreads
  maxEntries : c'.rob.maxEntries = c.rob.maxEntries
  activeThreads : c'.rob.activeThreads = c.rob.activeThreads
  sound : c'.rob.Sound
  entries : ∀ tid, c'.rob.threadEntries tid ≤ c.rob.threadEntries tid + k tid
  changed : ∀ tid, c'.changedROBNumEntries tid = true ∨ c'.changedROBNumEntries tid = c.changedROBNumEntries tid ∧
      c'.rob.threadEntries tid = c.rob.threadEntries tid

namespace Moved

variable {c c' c'' : Commit} {k k' : ThreadID → ℕ}

theorem refl (h : c.rob.Sound) : Moved c c fun _ => 0 :=
  ⟨rfl, rfl, rfl, h, fun _ => le_refl _, fun _ => .inr ⟨rfl, rfl⟩⟩

theorem trans (h : Moved c c' k) (h' : Moved c' c'' k') : Moved c c'' fun tid => k tid + k' tid := by
  refine ⟨h'.numThreads.trans h.numThreads, h'.maxEntries.trans h.maxEntries,
    h'.activeThreads.trans h.activeThreads, h'.sound, fun tid => ?_, fun tid => ?_⟩
  · have h1 := h.entries tid
    have h2 := h'.entries tid
    omega
  · rcases h'.changed tid with hc' | ⟨hc', he'⟩
    · exact .inl hc'
    · rcases h.changed tid with hc | ⟨hc, he⟩
      · exact .inl (hc'.trans hc)
      · exact .inr ⟨hc'.trans hc, he'.trans he⟩

theorem mono (h : Moved c c' k) (hk : ∀ tid, k tid ≤ k' tid) : Moved c c' k' :=
  ⟨h.numThreads, h.maxEntries, h.activeThreads, h.sound,
    fun tid => (h.entries tid).trans (Nat.add_le_add_left (hk tid) _), h.changed⟩

end Moved

section

variable {c c' : Commit} {inst : DynInst} {l : List DynInst}

theorem moved_of_sameCounts {rob : ROB} {changed : ThreadID → Bool} (h : c.rob.Sound) (hs : c.rob.SameCounts rob)
    (hch : ∀ tid, changed tid = true ∨ changed tid = c.changedROBNumEntries tid) :
    Moved c { c with rob := rob, changedROBNumEntries := changed } fun _ => 0 :=
  ⟨hs.numThreads, hs.maxEntries, hs.activeThreads, hs.sound h, fun tid => (congrFun hs.threadEntries tid).le,
    fun tid => (hch tid).imp_right fun heq => ⟨heq, congrFun hs.threadEntries tid⟩⟩

/-- A flag that is set is set, and the others are as before. -/
theorem update_true_or (f : ThreadID → Bool) (tid t : ThreadID) :
    update f tid true t = true ∨ update f tid true t = f t := by
  by_cases ht : t = tid
  · exact .inl (by rw [ht, update_self])
  · exact .inr (update_of_ne ht _ _)

theorem moved_retireHead {rob : ROB} {tid : ThreadID} (h : c.rob.Sound) (hok : c.rob.retireHead tid = .ok rob) :
    Moved c { c with rob := rob, changedROBNumEntries := update c.changedROBNumEntries tid true }
      fun _ => 0 := by
  obtain ⟨-, ⟨inst, l, hl, -⟩, rfl⟩ := ROB.retireHead_eq_ok_iff.1 hok
  have hne : c.rob.insts tid ≠ [] := by
    rw [hl]
    exact cons_ne_nil _ _
  have hlt : tid < c.rob.numThreads := by
    by_contra hle
    exact hne (h.outside tid (Nat.not_lt.1 hle))
  refine ⟨rfl, rfl, rfl, ⟨h.toCounted.retired hne hlt, fun t ht => ?_, (Nat.sub_le _ _).trans h.le⟩,
    fun t => ?_, fun t => ?_⟩
  · rw [ROB.insts_retired, if_neg (hlt.trans_le ht).ne']
    exact h.outside t ht
  · dsimp only
    rw [ROB.threadEntries_retired]
    split_ifs with ht
    · rw [ht]
      omega
    · exact le_refl _
  · by_cases ht : t = tid
    · exact .inl (by rw [ht]; exact update_self _ _ _)
    · refine .inr ⟨update_of_ne ht _ _, ?_⟩
      dsimp only
      rw [ROB.threadEntries_retired, if_neg ht]

theorem moved_run (op : RobOp) (h : c.rob.Sound) (hok : op.run c = .ok c') : Moved c c' fun _ => 0 := by
  cases op with
  | squash s tid =>
    obtain ⟨rob, hrob, heq⟩ := bind_eq_ok.1 hok
    cases heq
    exact moved_of_sameCounts h (ROB.sameCounts_squash hrob) (update_true_or _ tid)
  | doSquash tid =>
    obtain ⟨rob, hrob, heq⟩ := bind_eq_ok.1 hok
    cases heq
    exact moved_of_sameCounts h (ROB.sameCounts_doSquash hrob) fun _ => .inr rfl
  | setCanCommit tid it =>
    cases hok
    exact moved_of_sameCounts h
      ⟨rfl, rfl, rfl, rfl, rfl, rfl, ROB.length_update (IterQueue.length_modify _ _)⟩ fun _ => .inr rfl
  | retireHead tid =>
    obtain ⟨rob, hrob, heq⟩ := bind_eq_ok.1 hok
    cases heq
    exact moved_retireHead h hrob

theorem moved_runs (ops : List RobOp) (h : c.rob.Sound) (hok : ops.foldlM RobOp.run c = .ok c') :
    Moved c c' fun _ => 0 := by
  induction ops generalizing c with
  | nil =>
    cases hok
    exact Moved.refl h
  | cons op ops ih =>
    rw [foldlM_cons] at hok
    obtain ⟨c₁, hop, hops⟩ := bind_eq_ok.1 hok
    have hm := moved_run op h hop
    exact hm.trans (ih hm.sound hops)

theorem moved_inserted (h : c.rob.Sound) (hro : c.HasRoom inst) (htid : inst.threadNumber < c.rob.numThreads) :
    Moved c (c.inserted inst) fun tid => if inst.threadNumber = tid then 1 else 0 := by
  refine ⟨rfl, rfl, rfl, h.inserted hro.1 htid, fun tid => ?_, fun tid => ?_⟩
  · exact (ROB.threadEntries_inserted tid).le
  · by_cases ht : tid = inst.threadNumber
    · exact .inl (by rw [ht]; exact update_self _ _ _)
    · refine .inr ⟨update_of_ne ht _ _, ?_⟩
      exact (ROB.threadEntries_inserted tid).trans (by rw [if_neg (Ne.symm ht), add_zero])

theorem moved_getInstsLoop (l : List DynInst) (h : c.rob.Sound) (hl : ∀ inst ∈ l, inst.threadNumber < c.rob.numThreads)
    (hok : Commit.getInstsLoop l c = .ok c') : Moved c c' fun tid => l.countP (·.threadNumber = tid) := by
  induction l generalizing c with
  | nil =>
    cases hok
    exact Moved.refl h
  | cons inst l ih =>
    obtain ⟨hinst, hr⟩ := forall_mem_cons.1 hl
    rw [Commit.getInstsLoop] at hok
    split at hok
    · split at hok
      · obtain ⟨c₁, hi, hok⟩ := bind_eq_ok.1 hok
        rw [Commit.insert_eq h] at hi
        split at hi
        · rename_i hro
          cases hi
          have hm := moved_inserted h hro hinst
          refine (hm.trans (ih hm.sound hr hok)).mono fun tid => ?_
          rw [countP_cons, add_comm]
          simp only [decide_eq_true_eq, le_refl]
        · cases hi
      · exact (ih h hr hok).mono fun tid => (sublist_cons_self inst l).countP_le
    · cases hok
      exact (Moved.refl h).mono fun _ => Nat.zero_le _

end

/-! ## The history as one of credits -/

/-- The free entries that were reported last. -/
def reported (size : ℕ) (tid : ThreadID) : List Past → ℕ
  | [] => size
  | p :: past => (p.freeROBEntries tid).getD (reported size tid past)

/-- What the history is for one thread, with a partition of `size` entries. -/
def credits (size : ℕ) (tid : ThreadID) : List Past → List Credit.Cycle
  | [] => []
  | p :: past => ⟨p.sent tid, p.dispatched tid, size - reported size tid (p :: past)⟩ :: credits size tid past

def Config.delays : Credit.Delays where
  toBuffer := cfg.renameToROBDelay
  toSink := cfg.renameToIEWDelay
  bufferNews := cfg.commitToRenameDelay - 1
  sinkNews := cfg.iewToRenameDelay - 1

section

variable {size : ℕ} {tid : ThreadID} {past : List Past}

theorem drop_credits (n : ℕ) : (credits size tid past).drop n = credits size tid (past.drop n) := by
  induction n generalizing past with
  | zero => rfl
  | succ n ih =>
    cases past with
    | nil => rfl
    | cons p past => exact ih

/-- What is not read of the latest cycle does not matter. -/
theorem total_drop_congr (past : List Past) (f : Past → ℕ) (p p' : Past) (hf : f p = f p') (n : ℕ) :
    total f ((p :: past).drop n) = total f ((p' :: past).drop n) := by
  cases n with
  | zero => rw [drop_zero, drop_zero, total, total, hf]
  | succ n => rfl

theorem total_sent_credits : total Credit.Cycle.sent (credits size tid past) = total (Past.sent tid) past := by
  induction past with
  | nil => rfl
  | cons p past ih => rw [credits, total, total, ih]

theorem total_taken_credits :
    total Credit.Cycle.taken (credits size tid past) = total (Past.dispatched · tid) past := by
  induction past with
  | nil => rfl
  | cons p past ih => rw [credits, total, total, ih]

theorem held_credits : held (credits size tid past) = size - reported size tid past := by
  cases past with
  | nil => exact (Nat.sub_self size).symm
  | cons p past => rfl

/-- A report is passed on to the sender when its time has come. -/
theorem reported_drop (n : ℕ) :
    ((past[n]?).bind fun p => p.freeROBEntries tid).getD (reported size tid (past.drop (n + 1))) =
      reported size tid (past.drop n) := by
  induction n generalizing past with
  | zero => cases past <;> rfl
  | succ n ih =>
    cases past with
    | nil => rfl
    | cons p past => exact ih

theorem dispatched_drop (n : ℕ) : ((past[n]?).map fun p => p.dispatched tid).getD 0 +
        total (Past.dispatched · tid) (past.drop (n + 1)) =
      total (Past.dispatched · tid) (past.drop n) := by
  induction n generalizing past with
  | zero => cases past <;> rfl
  | succ n ih =>
    cases past with
    | nil => rfl
    | cons p past => exact ih

end

/-! ## The invariant -/

/-- What holds for each active thread, after every cycle. -/
structure ThreadInv (sys : Sys) (tid : ThreadID) : Prop where
  obeys : Credit.Obeys cfg.delays (sys.commit.rob.maxEntries tid)
    (credits (sys.commit.rob.maxEntries tid) tid sys.past)
  /-- The last report is right. -/
  entries : reported (sys.commit.rob.maxEntries tid) tid sys.past + sys.commit.rob.threadEntries tid =
    sys.commit.rob.maxEntries tid
  le : ∀ n, reported (sys.commit.rob.maxEntries tid) tid (sys.past.drop n) ≤ sys.commit.rob.maxEntries tid
  unchanged : sys.commit.changedROBNumEntries tid = false
  free : sys.robEntries tid = reported (sys.commit.rob.maxEntries tid) tid (sys.past.drop cfg.commitToRenameDelay)
  progress : sys.instsInProgress tid + total (Past.dispatched · tid) (sys.past.drop cfg.iewToRenameDelay) =
      (total (Past.sent tid) sys.past : ℤ)

structure Inv (sys : Sys) : Prop where
  sound : sys.commit.rob.Sound
  active : ∀ tid ∈ sys.commit.rob.activeThreads, tid < sys.commit.rob.numThreads
  batches : ∀ p ∈ sys.past, ∀ inst ∈ p.batch, inst.threadNumber ∈ sys.commit.rob.activeThreads
  thread : ∀ tid ∈ sys.commit.rob.activeThreads, ThreadInv cfg sys tid

theorem inv_start (numEntries squashWidth numThreads : ℕ) (maxEntries : ThreadID → ℕ)
    (activeThreads : List ThreadID) (ha : ∀ tid ∈ activeThreads, tid < numThreads) :
    Inv cfg (Sys.start numEntries squashWidth numThreads maxEntries activeThreads) := by
  refine ⟨⟨⟨fun _ => rfl, ?_⟩, fun _ _ => rfl, Nat.zero_le _⟩, ha, fun p hp => ?_, fun tid _ => ?_⟩
  · exact (Finset.sum_eq_zero fun _ _ => rfl).symm
  · exact absurd hp not_mem_nil
  · have hd : ∀ n, (Sys.start numEntries squashWidth numThreads maxEntries activeThreads).past.drop n = [] :=
      fun _ => drop_nil
    refine ⟨trivial, rfl, fun n => ?_, rfl, ?_, ?_⟩ <;> rw [hd]
    · exact le_refl _
    · rfl
    · rfl

section

variable {cfg} {sys sys' : Sys} {inp : Input} {c c' : Commit} {tid : ThreadID}

/-- What arrives of a thread is what was sent. -/
theorem countP_arrivals (size : ℕ) (p : Past) (hp : p.batch = inp.batch) :
    (sys.arrivals cfg inp).countP (·.threadNumber = tid) =
      sentIn ((credits size tid (p :: sys.past)).drop cfg.renameToROBDelay) := by
  have hget : ∀ (n : ℕ) (past : List Past), (((past.map Past.batch)[n]?.getD []).map fun inst : DynInst =>
        { inst with squashed := inst.squashed || inp.squashed inst.seqNum }).countP (·.threadNumber = tid) =
          sentIn ((credits size tid past).drop n) := by
    intro n
    induction n with
    | zero =>
      intro past
      cases past with
      | nil => rfl
      | cons p past =>
        rw [map_cons, getElem?_cons_zero, Option.getD_some, countP_map]
        rfl
    | succ n ih =>
      intro past
      cases past with
      | nil => rfl
      | cons p past => exact ih past
  have h := hget cfg.renameToROBDelay (p :: sys.past)
  rw [map_cons, hp] at h
  exact h

/-- The commit stage has only lost entries when it calls `getInsts`. -/
theorem moved_atGetInsts (h : sys.commit.rob.Sound) (hok : sys.atGetInsts inp = .ok c) :
    Moved sys.commit c fun _ => 0 := by
  obtain ⟨c₁, hops, heq⟩ := bind_eq_ok.1 hok
  cases heq
  obtain ⟨h1, h2, h3, h4, h5, h6⟩ := moved_runs inp.before h hops
  exact ⟨h1, h2, h3, h4, h5, h6⟩

theorem readFreeEntries_eq (hinv : ThreadInv cfg sys tid) (hco : 1 ≤ cfg.commitToRenameDelay) :
    sys.readFreeEntries cfg tid =
      reported (sys.commit.rob.maxEntries tid) tid (sys.past.drop (cfg.commitToRenameDelay - 1)) := by
  obtain ⟨n, hn⟩ := Nat.exists_eq_add_of_le' hco
  rw [Sys.readFreeEntries, hinv.free, hn]
  exact reported_drop n

theorem dispatched_add (sys : Sys) (tid : ThreadID) (hiew : 1 ≤ cfg.iewToRenameDelay) :
    sys.dispatched cfg tid + total (Past.dispatched · tid) (sys.past.drop cfg.iewToRenameDelay) =
      total (Past.dispatched · tid) (sys.past.drop (cfg.iewToRenameDelay - 1)) := by
  obtain ⟨n, hn⟩ := Nat.exists_eq_add_of_le' hiew
  rw [Sys.dispatched, hn]
  exact dispatched_drop n

/-- The rule that the sender of the credits keeps. -/
theorem send_of_rule (hinv : ThreadInv cfg sys tid) (hru : Rule cfg sys inp)
    (hco : 1 ≤ cfg.commitToRenameDelay) (hiew : 1 ≤ cfg.iewToRenameDelay) (taken held : ℕ) :
    Credit.Send cfg.delays (sys.commit.rob.maxEntries tid) ⟨inp.sent tid, taken, held⟩
      (credits (sys.commit.rob.maxEntries tid) tid sys.past) := by
  refine (hru.send tid).imp id fun hse => ?_
  have hta := dispatched_add sys tid hiew
  have hle := hinv.le (cfg.commitToRenameDelay - 1)
  have hpr := hinv.progress
  rw [total_sent_credits, drop_credits, drop_credits, held_credits, total_taken_credits]
  rw [Sys.calcFreeROBEntries, readFreeEntries_eq hinv hco] at hse
  dsimp only [Config.delays]
  omega

theorem held_eq (hinv : ThreadInv cfg sys tid) :
    held (credits (sys.commit.rob.maxEntries tid) tid sys.past) = sys.commit.rob.threadEntries tid := by
  have h := hinv.entries
  rw [held_credits]
  omega

/-- What arrives for a thread finds room in its partition. -/
theorem room_of_rule (hinv : ThreadInv cfg sys tid) (hru : Rule cfg sys inp)
    (hco : 1 ≤ cfg.commitToRenameDelay) (hiew : 1 ≤ cfg.iewToRenameDelay)
    (hd : cfg.commitToRenameDelay + cfg.renameToROBDelay ≤ cfg.iewToRenameDelay + cfg.renameToIEWDelay) :
    sys.commit.rob.threadEntries tid + (sys.arrivals cfg inp).countP (·.threadNumber = tid) ≤
      sys.commit.rob.maxEntries tid := by
  rw [countP_arrivals (sys.commit.rob.maxEntries tid) ⟨inp.batch, inp.dispatched, fun _ => none⟩ rfl, ← held_eq hinv]
  refine hinv.obeys.room ?_ (send_of_rule hinv hru hco hiew _ _)
  dsimp only [Config.delays]
  omega

theorem mem_arrivals (hinv : Inv cfg sys) (hru : Rule cfg sys inp) {inst : DynInst}
    (hmem : inst ∈ sys.arrivals cfg inp) : inst.threadNumber ∈ sys.commit.rob.activeThreads := by
  obtain ⟨x, hx, rfl⟩ := mem_map.1 hmem
  cases hba : (inp.batch :: sys.past.map Past.batch)[cfg.renameToROBDelay]? with
  | none =>
    rw [hba] at hx
    exact absurd hx not_mem_nil
  | some batch =>
    rw [hba, Option.getD_some] at hx
    rcases mem_cons.1 (mem_of_getElem? hba) with rfl | hpa
    · exact hru.active x hx
    · obtain ⟨p, hp, rfl⟩ := mem_map.1 hpa
      exact hinv.batches p hp x hx

/-- In a cycle, a thread's entries grow by no more than what arrives. -/
theorem moved_cycle (hinv : Inv cfg sys) (hru : Rule cfg sys inp) (hc : sys.atGetInsts inp = .ok c)
    (hc' : sys.getAndCommit cfg inp c = .ok c') :
    Moved sys.commit c' fun tid => (sys.arrivals cfg inp).countP (·.threadNumber = tid) := by
  have hm := moved_atGetInsts hinv.sound hc
  rw [Sys.getAndCommit] at hc'
  split at hc'
  · cases hc'
    exact hm.mono fun _ => Nat.zero_le _
  obtain ⟨c₁, hget, ha⟩ := bind_eq_ok.1 hc'
  have hth : ∀ inst ∈ (sys.arrivals cfg inp).take (min cfg.renameWidth (sys.arrivals cfg inp).length),
      inst.threadNumber < c.rob.numThreads := by
    intro inst hin
    rw [hm.numThreads]
    exact hinv.active _ (mem_arrivals hinv hru (mem_of_mem_take hin))
  have hlo := moved_getInstsLoop _ hm.sound hth hget
  refine ((hm.trans hlo).trans (moved_runs inp.after hlo.sound ha)).mono fun tid => ?_
  rw [zero_add, add_zero]
  exact (take_sublist _ _).countP_le

/-- At the end of a cycle, what was reported last is right. -/
theorem reported_report {size : ℕ} {past : List Past} (p : Past) (hp : p.freeROBEntries = c'.report inp)
    (ha : tid ∈ c'.rob.activeThreads) (hsi : c'.rob.maxEntries tid = size) (hle : c'.rob.threadEntries tid ≤ size)
    (hold : c'.changedROBNumEntries tid = true ∨ reported size tid past + c'.rob.threadEntries tid = size) :
    reported size tid (p :: past) + c'.rob.threadEntries tid = size := by
  rw [reported, hp, Commit.report]
  by_cases hre : c'.changedROBNumEntries tid = true ∨ inp.emptyROB tid = true
  · rw [if_pos ⟨ha, hre⟩, Option.getD_some, ROB.numFreeEntries, hsi]
    omega
  · rw [if_neg (fun h => hre h.2), Option.getD_none]
    exact hold.resolve_left fun hch => hre (.inl hch)

theorem Inv.cycle (hinv : Inv cfg sys) (hru : Rule cfg sys inp) (hco : 1 ≤ cfg.commitToRenameDelay)
    (hiew : 1 ≤ cfg.iewToRenameDelay)
    (hd : cfg.commitToRenameDelay + cfg.renameToROBDelay ≤ cfg.iewToRenameDelay + cfg.renameToIEWDelay)
    (hok : sys.cycle cfg inp = .ok sys') : Inv cfg sys' := by
  obtain ⟨c, hc, hok⟩ := bind_eq_ok.1 hok
  obtain ⟨c', hc', hok⟩ := bind_eq_ok.1 hok
  cases hok
  have hm := moved_cycle hinv hru hc hc'
  have ha : c'.reported.rob.activeThreads = sys.commit.rob.activeThreads := hm.activeThreads
  refine ⟨hm.sound, fun tid htid => ?_, fun p hp inst hin => ?_, fun tid htid => ?_⟩
  · rw [ha] at htid
    exact (hinv.active tid htid).trans_eq hm.numThreads.symm
  · rw [ha]
    rcases mem_cons.1 hp with rfl | hp
    · exact hru.active inst hin
    · exact hinv.batches p hp inst hin
  · have hmem := htid
    rw [ha] at htid
    have hth := hinv.thread tid htid
    have hsi : c'.reported.rob.maxEntries tid = sys.commit.rob.maxEntries tid := congrFun hm.maxEntries tid
    have hro := room_of_rule hth hru hco hiew hd
    have hent := hm.entries tid
    set now : Past := ⟨inp.batch, inp.dispatched, c'.report inp⟩
    have hnow : reported (sys.commit.rob.maxEntries tid) tid (now :: sys.past) +
        c'.rob.threadEntries tid = sys.commit.rob.maxEntries tid := by
      refine reported_report _ rfl hmem hsi (hent.trans hro) ((hm.changed tid).imp_right ?_)
      rintro ⟨-, heq⟩
      rw [heq]
      exact hth.entries
    refine ⟨?_, ?_, fun n => ?_, if_pos hmem, ?_, ?_⟩
    · rw [hsi]
      refine ⟨hth.obeys, send_of_rule hth hru hco hiew _ _, ?_, ?_⟩
      · -- the report is not part of what issue has to do with
        have hcon := total_drop_congr sys.past (Past.sent tid) ⟨inp.batch, inp.dispatched, fun _ => none⟩
          now rfl cfg.renameToIEWDelay
        change total _ (credits _ tid (now :: sys.past)) ≤
          total _ ((credits _ tid (now :: sys.past)).drop _)
        rw [total_taken_credits, drop_credits, total_sent_credits]
        exact (hru.dispatch tid).trans_eq hcon
      · rw [countP_arrivals (sys.commit.rob.maxEntries tid) now rfl] at hent
        rw [Credit.Hold, held_eq hth]
        refine le_trans ?_ hent
        dsimp only
        omega
    · rw [hsi]
      exact hnow
    · rw [hsi]
      cases n with
      | zero => exact (Nat.le_add_right _ _).trans_eq hnow
      | succ n => exact hth.le n
    · rw [hsi]
      obtain ⟨n, hn⟩ := Nat.exists_eq_add_of_le' hco
      refine (readFreeEntries_eq hth hco).trans ?_
      rw [hn]
      rfl
    · have hpr := hth.progress
      have hta := dispatched_add sys tid hiew
      have hdr : (now :: sys.past).drop cfg.iewToRenameDelay =
          sys.past.drop (cfg.iewToRenameDelay - 1) := by
        obtain ⟨n, hn⟩ := Nat.exists_eq_add_of_le' hiew
        rw [hn]
        rfl
      have hse : total (Past.sent tid) (now :: sys.past) =
          inp.sent tid + total (Past.sent tid) sys.past := rfl
      rw [hdr, hse]
      push_cast
      omega

end

/-! ## Nothing is lost, except by thread 0's doing -/

/-- When the turn of an instruction comes that is to go into the buffer, the buffer is not full, and neither is the
partition of thread 0 if the instruction is one of another thread. -/
def Unblocked (c : Commit) (l : List DynInst) : Prop :=
  Stepwise.Each (fun before inst => c.accepts inst = true →
    c.rob.numInstsInROB + before.countP c.accepts < c.rob.numEntries ∧
      (inst.threadNumber ≠ 0 → c.rob.threadEntries 0 + (c.shareOf 0 before).length < c.rob.maxEntries 0)) l
deriving Decidable

theorem Commit.length_shareOf_le (c : Commit) (tid : ThreadID) (l : List DynInst) :
    (c.shareOf tid l).length ≤ l.countP (·.threadNumber = tid) := by
  rw [Commit.shareOf, length_map, ← countP_eq_length_filter]
  exact countP_mono_left fun inst _ hin => by
    simp only [decide_eq_true_eq] at hin ⊢
    exact hin.2

/-- In every state of every run in which rename keeps to its credit, `getInsts` takes all the instructions it should,
exactly if neither the buffer nor thread 0 is full when their turn comes. -/
theorem getInsts_complete_iff (cfg : Config) (numEntries squashWidth numThreads : ℕ) (maxEntries : ThreadID → ℕ)
    (activeThreads : List ThreadID) (sys : Sys) (inp : Input) (c : Commit)
    (hactive : ∀ tid ∈ activeThreads, tid < numThreads)
    (hcommit : 1 ≤ cfg.commitToRenameDelay) (hiew : 1 ≤ cfg.iewToRenameDelay)
    (hdelay : cfg.commitToRenameDelay + cfg.renameToROBDelay ≤ cfg.iewToRenameDelay + cfg.renameToIEWDelay)
    (hreach : Reaches (Sys.cycle cfg) (Rule cfg)
      (Sys.start numEntries squashWidth numThreads maxEntries activeThreads) sys)
    (hrule : Rule cfg sys inp) (hc : sys.atGetInsts inp = .ok c) :
    (∃ c', c.getInsts cfg.renameWidth (sys.arrivals cfg inp) = .ok c' ∧ ∀ tid, c'.rob.insts tid = c.rob.insts tid ++
        c.shareOf tid ((sys.arrivals cfg inp).take (min cfg.renameWidth (sys.arrivals cfg inp).length))) ↔
    Unblocked c ((sys.arrivals cfg inp).take (min cfg.renameWidth (sys.arrivals cfg inp).length)) := by
  have hinv : Inv cfg sys := hreach.invariant (inv_start cfg _ _ _ _ _ hactive)
    fun _ hinv hrule hok => hinv.cycle hrule hcommit hiew hdelay hok
  have hm := moved_atGetInsts hinv.sound hc
  have hmem : ∀ inst ∈ (sys.arrivals cfg inp).take (min cfg.renameWidth (sys.arrivals cfg inp).length),
      inst.threadNumber ∈ sys.commit.rob.activeThreads :=
    fun inst hin => mem_arrivals hinv hrule (mem_of_mem_take hin)
  have hco := Commit.complete_iff hm.sound fun inst hin =>
    (hinv.active _ (hmem inst hin)).trans_eq hm.numThreads.symm
  refine hco.trans ?_
  -- a thread's own partition has room for what arrives
  have hth : ∀ before inst after,
      (sys.arrivals cfg inp).take (min cfg.renameWidth (sys.arrivals cfg inp).length) = before ++ inst :: after →
        c.rob.threadEntries inst.threadNumber + (c.shareOf inst.threadNumber before).length <
          c.rob.maxEntries inst.threadNumber := by
    intro before inst after hsp
    have ha' : inst.threadNumber ∈ sys.commit.rob.activeThreads :=
      hmem inst (by rw [hsp]; exact mem_append_right _ mem_cons_self)
    have hro := room_of_rule (hinv.thread _ ha') hrule hcommit hiew hdelay
    have hcou := (take_sublist (min cfg.renameWidth (sys.arrivals cfg inp).length)
      (sys.arrivals cfg inp)).countP_le (p := fun x => decide (x.threadNumber = inst.threadNumber))
    have hent := hm.entries inst.threadNumber
    have hsh := c.length_shareOf_le inst.threadNumber before
    rw [hsp, countP_append, countP_cons_of_pos (by simp)] at hcou
    rw [congrFun hm.maxEntries]
    omega
  constructor
  · intro hea before inst after hsp hacc
    have hf := hea before inst after hsp hacc
    exact ⟨hf.rob, fun _ => hf.zero⟩
  · intro hea before inst after hsp hacc
    obtain ⟨hrob, hzero⟩ := hea before inst after hsp hacc
    refine ⟨hrob, hth before inst after hsp, ?_⟩
    by_cases ht : inst.threadNumber = 0
    · have h := hth before inst after hsp
      rwa [ht] at h
    · exact hzero ht

/-- The delays that are set by default. -/
def defaultConfig : Config where
  renameWidth := 8
  renameToROBDelay := 1
  renameToIEWDelay := 2
  iewToRenameDelay := 1
  commitToRenameDelay := 1

/-- Two threads with `n` entries each. -/
def twoThreads (n : ℕ) : Sys := Sys.start (2 * n) 8 2 (fun _ => n) [0, 1]

/-- A cycle in which rename sends instructions, and nothing else happens. -/
def sending (batch : List DynInst) : Input where
  batch := batch
  dispatched _ := 0
  squashed _ := false
  commitStatus _ := .running
  before := []
  after := []
  emptyROB _ := false

/-- An instruction of each thread. -/
def oneOfEach : List DynInst := [⟨1, 0, false, false, false⟩, ⟨2, 1, false, false, false⟩]

theorem rule_oneOfEach (n : ℕ) : Rule defaultConfig (twoThreads (n + 1)) (sending oneOfEach) := by
  have hfree : ∀ tid, (twoThreads (n + 1)).calcFreeROBEntries defaultConfig tid = n + 1 := fun _ => by
    simp [Sys.calcFreeROBEntries, Sys.readFreeEntries, Sys.dispatched, news, twoThreads, Sys.start, defaultConfig]
  refine ⟨fun tid => ?_, by simp [sending, oneOfEach, twoThreads, Sys.start], fun tid => Nat.zero_le _⟩
  rw [hfree]
  match tid with
  | 0 => exact .inr (by simp [Input.sent, sending, oneOfEach])
  | 1 => exact .inr (by simp [Input.sent, sending, oneOfEach])
  | tid + 2 => exact .inl rfl

/-- With two entries for each thread, an instruction of each goes in. -/
theorem getInsts_complete_iff_oneOfEach :
    ∃ sys c, Reaches (Sys.cycle defaultConfig) (Rule defaultConfig) (twoThreads 2) sys ∧
      sys.atGetInsts (sending []) = .ok c ∧
      ∃ c', c.getInsts 8 (sys.arrivals defaultConfig (sending [])) = .ok c' ∧
        ∀ tid, c'.rob.insts tid = c.rob.insts tid ++ c.shareOf tid
          ((sys.arrivals defaultConfig (sending [])).take
            (min 8 (sys.arrivals defaultConfig (sending [])).length)) := by
  have hre : Reaches (Sys.cycle defaultConfig) (Rule defaultConfig) (twoThreads 2) _ :=
    .step .refl (rule_oneOfEach 1) rfl
  exact ⟨_, _, hre, rfl, (getInsts_complete_iff defaultConfig 4 8 2 (fun _ => 2) [0, 1] _ (sending []) _
    (by decide) (by decide) (by decide) (by decide) hre
    ⟨fun tid => .inl rfl, by decide, fun tid => Nat.zero_le _⟩ rfl).2 (by decide)⟩

/-- Rename sends an instruction for each of the two threads, as it may.  Once that of thread 0 is in the buffer,
that of thread 1 is lost. -/
theorem secondThread_lost : ∃ sys c c', Reaches (Sys.cycle defaultConfig) (Rule defaultConfig) (twoThreads 1) sys ∧
      Rule defaultConfig sys (sending []) ∧ sys.atGetInsts (sending []) = .ok c ∧
      sys.arrivals defaultConfig (sending []) = oneOfEach ∧
      c.accepts ⟨2, 1, false, false, false⟩ = true ∧
      c.rob.threadEntries 1 = 0 ∧ c.rob.maxEntries 1 = 1 ∧
      c.getInsts 8 (sys.arrivals defaultConfig (sending [])) = .ok c' ∧ c'.rob.insts 1 = [] :=
  ⟨_, _, _, .step .refl (rule_oneOfEach 0) rfl, ⟨fun tid => .inl rfl, by decide, fun tid => Nat.zero_le _⟩, rfl,
    rfl, rfl, rfl, rfl, rfl, rfl⟩

end GuardianCouncil.Rob
