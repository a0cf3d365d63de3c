import GuardianCouncil.IQ.Calls

/-!
# Wake-up is exact

The log of a run says which instruction is the producer of a register for another one: the last that had entered as a
writer of the register (`producer`).  In every run that renaming allows, an instruction that entered through `insert` and
was not squashed has been found ready, once, exactly when the producers of all its sources that the queue tracks have
completed (`wakeup_exact`).

Renaming gives a register a new producer only when no instruction in the queue reads it any more.  This alone is not
enough: the old producer must have completed too, or have been squashed.  If it is still to complete, it wakes the
instructions that wait for the new one.  And an instruction has to enter where `doSquash` will look for it: through
`insert` if it will be looked for on the chains, and not otherwise (`wakeup_not_exact`).
-/

namespace GuardianCouncil.IQ

open Fallible List

/-! ## Producers -/

def entered (log : List Event) : List InstSeqNum :=
  log.filterMap fun
    | .inserted seq _ _ => some seq
    | _ => none

/-- The instructions that have entered through `insert`. -/
def throughInsert (log : List Event) : List InstSeqNum :=
  log.filterMap fun
    | .inserted seq true _ => some seq
    | _ => none

/-- The last instruction to enter as a producer of a register. -/
def lastWriter (reg : PhysRegIndex) : List Event → Option InstSeqNum
  | [] => none
  | .inserted seq _ destRegs :: log => if reg ∈ destRegs then some seq else lastWriter reg log
  | .completed _ :: log => lastWriter reg log
  | .squashed _ :: log => lastWriter reg log

/-- The producer of a register for an instruction: the last one when the instruction entered. -/
def producer (seq : InstSeqNum) (reg : PhysRegIndex) : List Event → Option InstSeqNum
  | [] => none
  | .inserted seq' _ _ :: log => if seq' = seq then lastWriter reg log else producer seq reg log
  | .completed _ :: log => producer seq reg log
  | .squashed _ :: log => producer seq reg log

/-- The producers of all tracked sources of an instruction have completed. -/
def ProducersCompleted (numPhysRegs : ℕ) (log : List Event) (seq : InstSeqNum) (srcs : List (PhysRegIndex × Bool)) :
    Prop :=
  ∀ src ∈ srcs, src.1 < numPhysRegs → ∀ p ∈ producer seq src.1 log, Event.completed p ∈ log

section Log

variable {log : List Event} {seq p : InstSeqNum} {reg : PhysRegIndex} {b : Bool} {d : List PhysRegIndex}

theorem mem_entered : seq ∈ entered log ↔ ∃ b d, Event.inserted seq b d ∈ log := by
  rw [entered, mem_filterMap]
  constructor
  · rintro ⟨⟨_, b, d⟩ | _ | _, he, ⟨⟩⟩
    exact ⟨b, d, he⟩
  · rintro ⟨b, d, hmem⟩
    exact ⟨_, hmem, rfl⟩

theorem mem_throughInsert : seq ∈ throughInsert log ↔ ∃ d, Event.inserted seq true d ∈ log := by
  rw [throughInsert, mem_filterMap]
  constructor
  · rintro ⟨⟨_, _ | _, d⟩ | _ | _, he, ⟨⟩⟩
    exact ⟨d, he⟩
  · rintro ⟨d, hmem⟩
    exact ⟨_, hmem, rfl⟩

theorem mem_throughInsert_cons {s : InstSeqNum} :
    s ∈ throughInsert (.inserted seq b d :: log) ↔ s = seq ∧ b = true ∨ s ∈ throughInsert log := by
  cases b with
  | _ => simp [throughInsert]

theorem throughInsert_subset (h : seq ∈ throughInsert log) : seq ∈ entered log := by
  obtain ⟨d, hd⟩ := mem_throughInsert.1 h
  exact mem_entered.2 ⟨true, d, hd⟩

theorem exists_of_lastWriter (h : lastWriter reg log = some p) : ∃ b d, Event.inserted p b d ∈ log ∧ reg ∈ d := by
  induction log with
  | nil => cases h
  | cons e log ih =>
    by_cases hre : lastWriter reg log = some p
    · obtain ⟨b, d, hmem, hreg⟩ := ih hre
      exact ⟨b, d, mem_cons_of_mem _ hmem, hreg⟩
    cases e with
    | inserted s b d =>
      rw [lastWriter] at h
      split_ifs at h with hreg
      · cases h
        exact ⟨b, d, mem_cons_self, hreg⟩
      · exact absurd h hre
    | _ => exact absurd h hre

/-- With this event no instruction enters. -/
def Event.Quiet (e : Event) : Prop := ∀ seq b d, e ≠ .inserted seq b d

theorem quiet_append (log : List Event) {events : List Event} (h : ∀ e ∈ events, e.Quiet) :
    (∀ {seq b d}, Event.inserted seq b d ∈ events ++ log ↔ Event.inserted seq b d ∈ log) ∧
      (∀ reg, lastWriter reg (events ++ log) = lastWriter reg log) ∧
      ∀ seq reg, producer seq reg (events ++ log) = producer seq reg log := by
  refine ⟨mem_append.trans (or_iff_right fun hmem => h _ hmem _ _ _ rfl), ?_⟩
  induction events with
  | nil => exact ⟨fun _ => rfl, fun _ _ => rfl⟩
  | cons e events ih =>
    have hre := ih fun e he => h e (mem_cons_of_mem _ he)
    cases e with
    | inserted s b d => exact absurd rfl (h _ mem_cons_self s b d)
    | _ => exact hre

theorem quiet_squashes (removed : List InstSeqNum) : ∀ e ∈ removed.map Event.squashed, e.Quiet := by
  intro e he
  obtain ⟨s, -, rfl⟩ := mem_map.1 he
  exact nofun

end Log

/-! ## The rules of renaming -/

def InstructionQueue.Live (q : InstructionQueue) (seq : InstSeqNum) : Prop :=
  seq ∈ q.instList (q.insts seq).threadNumber
deriving Decidable

open InstructionQueue

instance (inst : DynInst) : Decidable inst.Marked :=
  decidable_of_iff (inst.readyRegs = inst.srcRegs.countP Prod.snd ∧
    (inst.canIssue = true ↔ inst.readyRegs = inst.numSrcRegs)) ⟨fun h => ⟨h.1, h.2⟩, fun h => ⟨h.1, h.2⟩⟩

namespace Run

/-- Instructions that entered through `insert` and have not left. -/
def On (run : Run) (seq : InstSeqNum) : Prop := seq ∈ throughInsert run.log ∧ run.queue.Live seq

/-- No instruction reads the old value of a register that the instruction writes. -/
def Unread (run : Run) (inst : DynInst) : Prop :=
  ∀ reg ∈ inst.destRegs, reg < run.queue.numPhysRegs → (∀ src ∈ inst.srcRegs, src.1 ≠ reg) ∧
    ∀ seq ∈ entered run.log, run.queue.Live seq → ∀ src ∈ (run.queue.insts seq).srcRegs, src.1 ≠ reg
deriving Decidable

/-- The old producers of the registers that the instruction writes have completed, or were squashed. -/
def OldProducersDone (run : Run) (inst : DynInst) : Prop :=
  ∀ reg ∈ inst.destRegs, reg < run.queue.numPhysRegs → ∀ p ∈ lastWriter reg run.log,
    Event.completed p ∈ run.log ∨ Event.squashed p ∈ run.log
deriving Decidable

/-- An instruction as `rename` and `decode` leave it: a source is marked as ready if its producer has completed when the
instruction is renamed, or if the queue does not track it. -/
def Renamed (run : Run) (inst : DynInst) : Prop :=
  inst.Marked ∧ ∀ src ∈ inst.srcRegs,
    (src.2 = true → src.1 < run.queue.numPhysRegs → ∀ p ∈ lastWriter src.1 run.log, Event.completed p ∈ run.log) ∧
    (src.2 = false → src.1 < run.queue.numPhysRegs ∧ (lastWriter src.1 run.log).isSome)
deriving Decidable

def New (run : Run) (seq : InstSeqNum) (inst : DynInst) : Prop :=
  seq ∉ entered run.log ∧ inst.isIssued = false ∧ inst.isSquashedInIQ = false
deriving Decidable

/-- What may happen to the queue, if an instruction may always enter when no instruction reads the registers that it
writes. -/
def Unordered (run : Run) : Op → Prop
  | .insert seq inst _ => run.New seq inst ∧ run.Renamed inst ∧ run.Unread inst
  | .insertNonSpec seq inst => run.New seq inst ∧ run.Unread inst
  | .scheduleNonSpec _ => True
  | .issue seq => seq ∈ run.queue.ready
  | .wakeDependents seq => seq ∈ entered run.log ∧ Event.completed seq ∉ run.log ∧ Event.squashed seq ∉ run.log
  | .doSquash _ _ => True
  | .commit seq tid => ∀ s ∈ (run.queue.instList tid).takeWhile (· ≤ seq), (run.queue.insts s).isIssued = true

/-- Old producers are done when an instruction enters. -/
def Ordered (run : Run) : Op → Prop
  | .insert _ inst _ => run.OldProducersDone inst
  | .insertNonSpec _ inst => run.OldProducersDone inst
  | _ => True

/-- An instruction enters where `doSquash` will look for it. -/
def Sorted : Op → Prop
  | .insert _ inst _ => inst.isOnChains = true
  | .insertNonSpec _ inst => inst.isOnChains = false
  | _ => True

instance (run : Run) : DecidablePred run.Unordered := fun op => by
  unfold Unordered
  cases op <;> infer_instance

instance (run : Run) : DecidablePred run.Ordered := fun op => by
  unfold Ordered
  cases op <;> infer_instance

instance : DecidablePred Sorted := fun op => by
  unfold Sorted
  cases op <;> infer_instance

/-- What may happen to the queue. -/
def Allowed (run : Run) (op : Op) : Prop := run.Unordered op ∧ run.Ordered op ∧ Sorted op
deriving Decidable

end Run

/-! ## The scoreboard -/

/-- The registers that have been produced are those whose last producer has completed. -/
structure Board (numPhysRegs : ℕ) (scoreboard : PhysRegIndex → Bool) (log : List Event) : Prop where
  entered : ∀ {p}, Event.completed p ∈ log → p ∈ entered log
  produced : ∀ {reg}, reg < numPhysRegs →
    (scoreboard reg = true ↔ ∃ p, lastWriter reg log = some p ∧ Event.completed p ∈ log)
  /-- An instruction that may still complete is the last producer of what it writes. -/
  owner : ∀ {p b d reg}, Event.inserted p b d ∈ log → Event.completed p ∉ log → Event.squashed p ∉ log → reg ∈ d →
    reg < numPhysRegs → lastWriter reg log = some p

namespace Board

variable {numPhysRegs : ℕ} {scoreboard scoreboard' : PhysRegIndex → Bool} {log : List Event} {seq : InstSeqNum}
  {d : List PhysRegIndex}

section

variable (h : Board numPhysRegs scoreboard log)
include h

theorem inserted (hfresh : seq ∉ IQ.entered log)
    (hdo : ∀ reg ∈ d, reg < numPhysRegs → ∀ p ∈ lastWriter reg log, Event.completed p ∈ log ∨ Event.squashed p ∈ log)
    (hsc : ∀ r, scoreboard' r = (scoreboard r && !(decide (r < numPhysRegs) && decide (r ∈ d)))) (b : Bool) :
    Board numPhysRegs scoreboard' (.inserted seq b d :: log) where
  entered hp := mem_cons_of_mem _ (h.entered ((mem_cons.1 hp).resolve_left nofun))
  produced {reg} hlt := by
    rw [hsc, lastWriter]
    by_cases hreg : reg ∈ d
    · -- the new producer has not completed
      have hnot : Event.completed seq ∉ log := fun hmem => hfresh (h.entered hmem)
      simp [hlt, hreg, hnot]
    · simp [hreg, h.produced hlt]
  owner {p b' d' reg} hp hnot hsq hreg hlt := by
    simp only [mem_cons, reduceCtorEq, false_or] at hnot hsq
    rw [lastWriter]
    rcases mem_cons.1 hp with hp | hp
    · cases hp
      rw [if_pos hreg]
    · have ho := h.owner hp hnot hsq hreg hlt
      rw [if_neg fun hd => (hdo reg hd hlt p ho).elim hnot hsq, ho]

theorem completed {b : Bool} (hseq : Event.inserted seq b d ∈ log)
    (hun : ∀ b' d', Event.inserted seq b' d' ∈ log → d' = d)
    (hnot : Event.completed seq ∉ log) (hsq : Event.squashed seq ∉ log)
    (hsc : ∀ r, scoreboard' r = (scoreboard r || (decide (r < numPhysRegs) && decide (r ∈ d)))) :
    Board numPhysRegs scoreboard' (.completed seq :: log) where
  entered {p} hp := by
    rcases mem_cons.1 hp with hp | hp
    · cases hp
      exact mem_entered.2 ⟨b, d, mem_cons_of_mem _ hseq⟩
    · exact h.entered hp
  produced {reg} hlt := by
    rw [hsc, lastWriter, Bool.or_eq_true, h.produced hlt]
    simp only [hlt, decide_true, Bool.true_and, decide_eq_true_eq]
    constructor
    · rintro (⟨p, hp, hmem⟩ | hreg)
      · exact ⟨p, hp, mem_cons_of_mem _ hmem⟩
      · exact ⟨seq, h.owner hseq hnot hsq hreg hlt, mem_cons_self⟩
    · rintro ⟨p, hp, hmem⟩
      rcases mem_cons.1 hmem with heq | hmem
      · cases heq
        obtain ⟨b', d', hmem', hreg⟩ := exists_of_lastWriter hp
        exact .inr (hun b' d' hmem' ▸ hreg)
      · exact .inl ⟨p, hp, hmem⟩
  owner hp hnot' hs' := by
    simp only [mem_cons, reduceCtorEq, false_or, not_or] at hp hnot' hs'
    exact h.owner hp hnot'.2 hs'

theorem squashed (removed : List InstSeqNum) : Board numPhysRegs scoreboard (removed.map .squashed ++ log) := by
  obtain ⟨hin, hla, -⟩ := quiet_append log (quiet_squashes removed)
  have hco : ∀ {p}, Event.completed p ∈ removed.map Event.squashed ++ log ↔ Event.completed p ∈ log := by simp
  refine ⟨fun hp => ?_, fun hlt => ?_, fun hp hnot hsq hreg hlt => ?_⟩
  · obtain ⟨b, d, hmem⟩ := mem_entered.1 (h.entered (hco.1 hp))
    exact mem_entered.2 ⟨b, d, hin.2 hmem⟩
  · rw [h.produced hlt]
    simp only [hla, hco]
  · rw [hla]
    exact h.owner (hin.1 hp) (fun hmem => hnot (hco.2 hmem)) (fun hmem => hsq (mem_append_right _ hmem)) hreg hlt

end

end Board

/-! ## The instructions in the queue -/

/-- The lists hold instructions that have entered and were not squashed. -/
structure Kept (q : InstructionQueue) (log : List Event) : Prop where
  nodup : ∀ tid, (q.instList tid).Nodup
  thread : ∀ {tid seq}, seq ∈ q.instList tid → (q.insts seq).threadNumber = tid
  live : ∀ {seq}, q.Live seq → seq ∈ entered log ∧ Event.squashed seq ∉ log ∧ (q.insts seq).isSquashedInIQ = false
  inserted : ∀ {seq b d}, Event.inserted seq b d ∈ log → (q.insts seq).isOnChains = b ∧ (q.insts seq).destRegs = d
  squashed : ∀ {seq}, Event.squashed seq ∈ log → seq ∈ entered log
  nonSpec : ∀ {seq}, seq ∈ q.nonSpecInsts → ∃ d, Event.inserted seq false d ∈ log
  ready : ∀ {seq}, seq ∈ q.ready → seq ∈ entered log

namespace Kept

variable {q q' : InstructionQueue} {log : List Event} {seq : InstSeqNum}

theorem mem_list (h : Kept q log) {tid : ThreadID} : seq ∈ q.instList tid ↔ q.Live seq ∧ (q.insts seq).threadNumber = tid := by
  constructor
  · intro hmem
    have hth := h.thread hmem
    exact ⟨by rw [InstructionQueue.Live, hth]; exact hmem, hth⟩
  · rintro ⟨hli, rfl⟩
    exact hli

theorem isOnChains_iff (h : Kept q log) (hseq : seq ∈ entered log) :
    (q.insts seq).isOnChains = true ↔ seq ∈ throughInsert log := by
  obtain ⟨b, d, hmem⟩ := mem_entered.1 hseq
  rw [mem_throughInsert]
  constructor
  · intro hon
    rw [(h.inserted hmem).1] at hon
    exact ⟨d, hon ▸ hmem⟩
  · rintro ⟨d', hmem'⟩
    exact (h.inserted hmem').1

end Kept

/-- The producers of the sources of an instruction that waits are still the last ones. -/
structure Sources (numPhysRegs : ℕ) (log : List Event) (seq : InstSeqNum) (srcs : List (PhysRegIndex × Bool)) : Prop where
  latest : ∀ src ∈ srcs, src.1 < numPhysRegs → producer seq src.1 log = lastWriter src.1 log
  marked : ∀ src ∈ srcs, src.1 < numPhysRegs → src.2 = true → ∀ p ∈ lastWriter src.1 log, Event.completed p ∈ log
  unmarked : ∀ src ∈ srcs, src.2 = false → (lastWriter src.1 log).isSome

/-- What holds of a run after any sequence of calls. -/
structure Inv (run : Run) : Prop where
  waits : Waits run.queue run.On
  board : Board run.queue.numPhysRegs run.queue.regScoreboard run.log
  kept : Kept run.queue run.log
  sources : ∀ {seq}, run.On seq → Sources run.queue.numPhysRegs run.log seq (run.queue.insts seq).srcRegs
  issued : ∀ {seq}, run.On seq → (run.queue.insts seq).isIssued → seq ∈ run.queue.ready
  left : ∀ {seq}, seq ∈ throughInsert run.log → ¬ run.queue.Live seq → Event.squashed seq ∉ run.log →
    run.queue.ready.count seq = 1 ∧ ProducersCompleted run.queue.numPhysRegs run.log seq (run.queue.insts seq).srcRegs

namespace Inv

variable {run : Run} {seq : InstSeqNum}

/-- An instruction in the queue needs no more exactly when its producers have completed. -/
theorem need_eq_zero (h : Inv run) (hseq : run.On seq) : run.queue.need seq = 0 ↔
    ProducersCompleted run.queue.numPhysRegs run.log seq (run.queue.insts seq).srcRegs := by
  have hsr := h.sources hseq
  rw [need, waiting_eq_zero]
  refine forall₂_congr fun src hsrc => ?_
  constructor
  · rintro hre hlt p hp
    rw [hsr.latest src hsrc hlt] at hp
    rcases hre with hmark | hsc
    · exact hsr.marked src hsrc hlt hmark p hp
    · obtain ⟨p', hp', hmem⟩ := (h.board.produced hlt).1 hsc
      rw [hp', Option.mem_some_iff] at hp
      exact hp ▸ hmem
  · intro hall
    by_cases hmark : src.2 = true
    · exact .inl hmark
    -- a source that is not marked is tracked, and has a producer
    have hlt := ((h.waits.waitsAt hseq).tracked src hsrc).resolve_right hmark
    obtain ⟨p, hp⟩ := Option.isSome_iff_exists.1 (hsr.unmarked src hsrc (by simpa using hmark))
    refine .inr ((h.board.produced hlt).2 ⟨p, hp, hall hlt p ?_⟩)
    rw [hsr.latest src hsrc hlt]
    exact hp

theorem mem_ready (h : Inv run) (hseq : run.On seq) : seq ∈ run.queue.ready ↔ run.queue.need seq = 0 := by
  rw [← count_pos_iff, (h.waits.waitsAt hseq).told.ready]
  split <;> simp [*]

end Inv

/-! ## The calls -/

section

variable {q q' : InstructionQueue} {log : List Event} {run : Run} {seq s : InstSeqNum} {inst : DynInst}
  {srcs : List (PhysRegIndex × Bool)}

section

variable (h : Joined q q' seq inst srcs)
include h

theorem Joined.mem_list (hs : s ≠ seq) (tid : ThreadID) : s ∈ q'.instList tid ↔ s ∈ q.instList tid := by
  rw [h.instList, Function.update_apply]
  split_ifs with htid
  · rw [htid, mem_append, mem_singleton]
    exact or_iff_left hs
  · rfl

theorem Joined.live (hs : s ≠ seq) : q'.Live s ↔ q.Live s := by
  rw [InstructionQueue.Live, InstructionQueue.Live, h.others hs]
  exact h.mem_list hs _

theorem Joined.live_self : q'.Live seq := by
  rw [InstructionQueue.Live, h.self, h.instList]
  simp

end

theorem Kept.joined (h : Kept q log) (hfresh : seq ∉ entered log) (hsq : inst.isSquashedInIQ = false)
    (hj : Joined q q' seq inst srcs) : Kept q' (.inserted seq inst.isOnChains inst.destRegs :: log) := by
  have hnot : ∀ tid, seq ∉ q.instList tid := fun tid hmem => hfresh (h.live (h.mem_list.1 hmem).1).1
  refine ⟨fun tid => ?_, fun {tid s} hs => ?_, fun {s} hs => ?_, fun {s b d} hs => ?_, fun {s} hs => ?_, fun {s} hs => ?_,
    fun {s} hs => ?_⟩
  · rw [hj.instList, Function.update_apply]
    split
    · exact nodup_append.2 ⟨h.nodup _, nodup_singleton _, fun a ha b hb heq =>
        hnot _ (mem_singleton.1 hb ▸ heq ▸ ha)⟩
    · exact h.nodup tid
  · by_cases heq : s = seq
    · subst heq
      rw [hj.instList, Function.update_apply] at hs
      split_ifs at hs with htid
      · rw [hj.self, htid]
      · exact absurd hs (hnot tid)
    · rw [hj.others heq]
      exact h.thread ((hj.mem_list heq tid).1 hs)
  · simp only [mem_cons, reduceCtorEq, false_or]
    by_cases heq : s = seq
    · subst heq
      exact ⟨mem_cons_self, fun hmem => hfresh (h.squashed hmem), by rw [hj.self]; exact hsq⟩
    · rw [hj.others heq]
      exact (h.live ((hj.live heq).1 hs)).imp_left (mem_cons_of_mem _)
  · rcases mem_cons.1 hs with hs | hs
    · cases hs
      rw [hj.self]
      exact ⟨rfl, rfl⟩
    · rw [hj.others fun heq => hfresh (mem_entered.2 ⟨b, d, heq ▸ hs⟩)]
      exact h.inserted hs
  · exact mem_cons_of_mem _ (h.squashed ((mem_cons.1 hs).resolve_left nofun))
  · rcases hj.nonSpecInsts hs with hs | ⟨rfl, hki⟩
    · exact (h.nonSpec hs).imp fun d => mem_cons_of_mem _
    · rw [hki]
      exact ⟨inst.destRegs, mem_cons_self⟩
  · by_cases heq : s = seq
    · subst heq
      exact mem_cons_self
    · rw [← count_pos_iff, hj.ready heq, count_pos_iff] at hs
      exact mem_cons_of_mem _ (h.ready hs)

theorem Sources.inserted {numPhysRegs : ℕ} {d : List PhysRegIndex} (h : Sources numPhysRegs log s srcs) (hs : s ≠ seq)
    (hun : ∀ reg ∈ d, reg < numPhysRegs → ∀ src ∈ srcs, src.1 ≠ reg)
    (htr : ∀ src ∈ srcs, src.1 < numPhysRegs ∨ src.2 = true) (b : Bool) :
    Sources numPhysRegs (.inserted seq b d :: log) s srcs := by
  have hla : ∀ src ∈ srcs, src.1 < numPhysRegs → lastWriter src.1 (.inserted seq b d :: log) = lastWriter src.1 log :=
    fun src hsrc hlt => if_neg fun hd => hun _ hd hlt src hsrc rfl
  refine ⟨fun src hsrc hlt => ?_, fun src hsrc hlt hmark p hp => ?_, fun src hsrc hmark => ?_⟩
  · rw [hla src hsrc hlt, producer, if_neg (Ne.symm hs)]
    exact h.latest src hsrc hlt
  · rw [hla src hsrc hlt] at hp
    exact mem_cons_of_mem _ (h.marked src hsrc hlt hmark p hp)
  · rw [hla src hsrc ((htr src hsrc).resolve_right (by simp [hmark]))]
    exact h.unmarked src hsrc hmark

/-- The sources of a new instruction, as `addToDependents` leaves them. -/
theorem sources_new (hbo : Board run.queue.numPhysRegs run.queue.regScoreboard run.log) (hin : run.Renamed inst)
    (hun : run.Unread inst) (b : Bool) : Sources run.queue.numPhysRegs (.inserted seq b inst.destRegs :: run.log) seq
      (inst.srcRegs.map (markSrc run.queue)) := by
  have hla : ∀ src ∈ inst.srcRegs, src.1 < run.queue.numPhysRegs →
      lastWriter src.1 (.inserted seq b inst.destRegs :: run.log) = lastWriter src.1 run.log :=
    fun src hsrc hlt => if_neg fun hd => (hun _ hd hlt).1 src hsrc rfl
  refine ⟨fun src' hsrc' hlt => ?_, fun src' hsrc' hlt hmark p hp => ?_, fun src' hsrc' hmark => ?_⟩ <;>
    obtain ⟨src, hsrc, rfl⟩ := mem_map.1 hsrc'
  · rw [markSrc, hla src hsrc hlt, producer, if_pos rfl]
  · rw [markSrc, hla src hsrc hlt] at hp
    refine mem_cons_of_mem _ ?_
    rcases Bool.or_eq_true _ _ ▸ hmark with hsrc2 | hsc
    · exact (hin.2 src hsrc).1 hsrc2 hlt p hp
    · -- the register has been produced
      obtain ⟨p', hp', hmem⟩ := (hbo.produced (show src.1 < run.queue.numPhysRegs from hlt)).1 hsc
      rw [hp', Option.mem_some_iff] at hp
      exact hp ▸ hmem
  · obtain ⟨hlt, hso⟩ := (hin.2 src hsrc).2 (Bool.or_eq_false_iff.1 hmark).1
    rw [markSrc, hla src hsrc hlt]
    exact hso

/-- An instruction has entered. -/
theorem Inv.joined (h : Inv run) (hnew : run.New seq inst) (hun : run.Unread inst)
    (hd : run.OldProducersDone inst) (hj : Joined run.queue q' seq inst srcs)
    (hwa : Waits q' fun s => s = seq ∧ inst.isOnChains = true ∨ run.On s)
    (hso : inst.isOnChains = true → Sources run.queue.numPhysRegs
      (.inserted seq inst.isOnChains inst.destRegs :: run.log) seq srcs) :
    Inv ⟨q', .inserted seq inst.isOnChains inst.destRegs :: run.log⟩ := by
  obtain ⟨hfresh, his, hsqu⟩ := hnew
  have hnot : seq ∉ throughInsert run.log := fun hmem => hfresh (throughInsert_subset hmem)
  have hon : Run.On ⟨q', .inserted seq inst.isOnChains inst.destRegs :: run.log⟩ =
      fun s => s = seq ∧ inst.isOnChains = true ∨ run.On s := by
    funext s
    rw [Run.On, Run.On, mem_throughInsert_cons]
    by_cases hs : s = seq
    · subst hs
      simp only [hnot, or_false, false_and, hj.live_self, and_true]
    · simp only [hs, false_and, false_or, hj.live hs]
  have hold : ∀ {s}, run.On s → s ≠ seq := fun hs heq => hnot (heq ▸ hs.1)
  refine ⟨by rw [hon]; exact hwa, ?_, h.kept.joined hfresh hsqu hj, fun {s} hs => ?_, fun {s} hs hf => ?_,
    fun {s} hs hli hsq => ?_⟩
  · rw [hj.numPhysRegs]
    exact h.board.inserted hfresh hd hj.regScoreboard _
  · rw [hon] at hs
    rw [hj.numPhysRegs]
    rcases hs with ⟨rfl, hki⟩ | hs
    · rw [hj.self]
      exact hso hki
    · rw [hj.others (hold hs)]
      exact (h.sources hs).inserted (hold hs) (fun reg hreg hlt =>
        (hun reg hreg hlt).2 s (throughInsert_subset hs.1) hs.2) (h.waits.waitsAt hs).tracked _
  · rw [hon] at hs
    rcases hs with ⟨rfl, -⟩ | hs
    · rw [hj.self] at hf
      exact absurd (his.symm.trans hf) nofun
    · rw [hj.others (hold hs)] at hf
      rw [← count_pos_iff, hj.ready (hold hs), count_pos_iff]
      exact h.issued hs hf
  · have hne : s ≠ seq := fun heq => hli (heq ▸ hj.live_self)
    obtain ⟨hco, hall⟩ := h.left ((mem_throughInsert_cons.1 hs).resolve_left fun h => hne h.1)
      (fun hl => hli ((hj.live hne).2 hl)) fun hmem => hsq (mem_cons_of_mem _ hmem)
    refine ⟨(hj.ready hne).trans hco, fun src hsrc hlt p hp => ?_⟩
    rw [hj.others hne] at hsrc
    rw [hj.numPhysRegs] at hlt
    rw [producer, if_neg (Ne.symm hne)] at hp
    exact mem_cons_of_mem _ (hall src hsrc hlt p hp)

end

/-- What all calls have in common with which no instruction enters. -/
structure Follows (run run' : Run) : Prop where
  numPhysRegs : run'.queue.numPhysRegs = run.queue.numPhysRegs
  instList : ∀ tid, (run'.queue.instList tid).Sublist (run.queue.instList tid)
  inst : ∀ s, run'.queue.insts s = { run.queue.insts s with
    readyRegs := (run'.queue.insts s).readyRegs, canIssue := (run'.queue.insts s).canIssue,
    memOpDone := (run'.queue.insts s).memOpDone, isIssued := (run'.queue.insts s).isIssued,
    isSquashedInIQ := (run'.queue.insts s).isSquashedInIQ }
  isSquashedInIQ : ∀ {s}, run'.queue.Live s → (run'.queue.insts s).isSquashedInIQ = (run.queue.insts s).isSquashedInIQ
  nonSpecInsts : ∀ {s}, s ∈ run'.queue.nonSpecInsts → s ∈ run.queue.nonSpecInsts
  ready : ∀ {s}, s ∈ run'.queue.ready → s ∈ run.queue.ready ∨ s ∈ entered run.log
  count : ∀ {s}, s ∈ throughInsert run.log → ¬ run'.queue.Live s → run'.queue.ready.count s = run.queue.ready.count s
  log : ∃ events, run'.log = events ++ run.log ∧ ∀ e ∈ events, e.Quiet
  squashed : ∀ {s}, Event.squashed s ∈ run'.log → Event.squashed s ∈ run.log ∨ run.queue.Live s ∧ ¬ run'.queue.Live s

namespace Follows

variable {run run' : Run} {s : InstSeqNum}

section

variable (h : Follows run run')
include h

theorem live (hs : run'.queue.Live s) : run.queue.Live s := by
  rw [InstructionQueue.Live, h.inst] at hs
  exact (h.instList _).subset hs

theorem mem_log {e : Event} (he : e ∈ run.log) : e ∈ run'.log := by
  obtain ⟨events, hlog, -⟩ := h.log
  rw [hlog]
  exact mem_append_right _ he

theorem writers : (∀ {seq b d}, Event.inserted seq b d ∈ run'.log ↔ Event.inserted seq b d ∈ run.log) ∧
      (∀ reg, lastWriter reg run'.log = lastWriter reg run.log) ∧
      ∀ seq reg, producer seq reg run'.log = producer seq reg run.log := by
  obtain ⟨events, hlog, hqu⟩ := h.log
  rw [hlog]
  exact quiet_append _ hqu

theorem mem_entered : s ∈ entered run'.log ↔ s ∈ entered run.log := by
  rw [IQ.mem_entered, IQ.mem_entered]
  exact exists_congr fun _ => exists_congr fun _ => h.writers.1

theorem mem_throughInsert : s ∈ throughInsert run'.log ↔ s ∈ throughInsert run.log := by
  rw [IQ.mem_throughInsert, IQ.mem_throughInsert]
  exact exists_congr fun _ => h.writers.1

theorem on (hs : run'.On s) : run.On s := ⟨h.mem_throughInsert.1 hs.1, h.live hs.2⟩

theorem kept (hk : Kept run.queue run.log) : Kept run'.queue run'.log where
  nodup tid := (hk.nodup tid).sublist (h.instList tid)
  thread {tid s} hs := by
    rw [h.inst]
    exact hk.thread ((h.instList tid).subset hs)
  live {s} hs := by
    obtain ⟨hmem, hnot, hf⟩ := hk.live (h.live hs)
    refine ⟨h.mem_entered.2 hmem, fun hsq => ?_, (h.isSquashedInIQ hs).trans hf⟩
    rcases h.squashed hsq with hsq | hsq
    · exact hnot hsq
    · exact hsq.2 hs
  inserted {s b d} hs := by
    rw [h.inst]
    exact hk.inserted (h.writers.1.1 hs)
  squashed {s} hs := by
    rw [h.mem_entered]
    exact (h.squashed hs).elim hk.squashed fun hs => (hk.live hs.1).1
  nonSpec {s} hs := (hk.nonSpec (h.nonSpecInsts hs)).imp fun d => h.writers.1.2
  ready {s} hs := by
    rw [h.mem_entered]
    exact (h.ready hs).elim hk.ready id

end

variable {srcs : List (PhysRegIndex × Bool)}

section

variable (h : Follows run run')
include h

theorem sources
    (hs : Sources run.queue.numPhysRegs run.log s srcs) : Sources run'.queue.numPhysRegs run'.log s srcs := by
  obtain ⟨-, hla, hpr⟩ := h.writers
  rw [h.numPhysRegs]
  refine ⟨fun src hsrc hlt => ?_, fun src hsrc hlt hmark p hp => ?_, fun src hsrc hmark => ?_⟩
  · rw [hpr, hla]
    exact hs.latest src hsrc hlt
  · rw [hla] at hp
    exact h.mem_log (hs.marked src hsrc hlt hmark p hp)
  · rw [hla]
    exact hs.unmarked src hsrc hmark

theorem producersCompleted (hs : ProducersCompleted run.queue.numPhysRegs run.log s srcs) :
    ProducersCompleted run'.queue.numPhysRegs run'.log s srcs := by
  intro src hsrc hlt p hp
  rw [h.numPhysRegs] at hlt
  rw [h.writers.2.2] at hp
  exact h.mem_log (hs src hsrc hlt p hp)

/-- The instructions that leave without being squashed must need no more. -/
theorem inv (hinv : Inv run) (hwa : Waits run'.queue run'.On)
    (hbo : Board run'.queue.numPhysRegs run'.queue.regScoreboard run'.log)
    (his : ∀ {s}, run'.On s → (run'.queue.insts s).isIssued → s ∈ run'.queue.ready)
    (hlef : ∀ {s}, run.On s → ¬ run'.queue.Live s → Event.squashed s ∉ run'.log → run.queue.need s = 0) : Inv run' := by
  refine ⟨hwa, hbo, h.kept hinv.kept, fun hs => ?_, his, fun {s} hs hli hsq => ?_⟩
  · rw [h.inst]
    exact h.sources (hinv.sources (h.on hs))
  · have hs' := h.mem_throughInsert.1 hs
    rw [h.count hs' hli, h.inst]
    by_cases hold : run.queue.Live s
    · have hn := hlef ⟨hs', hold⟩ hli hsq
      rw [(hinv.waits.waitsAt ⟨hs', hold⟩).told.ready, if_pos hn]
      exact ⟨rfl, h.producersCompleted ((hinv.need_eq_zero ⟨hs', hold⟩).1 hn)⟩
    · exact (hinv.left hs' hold fun hmem => hsq (h.mem_log hmem)).imp_right h.producersCompleted

/-- A call with which nobody leaves. -/
theorem inv_of_live (hinv : Inv run) (hli : ∀ s, run'.queue.Live s ↔ run.queue.Live s)
    (hwa : Waits run'.queue run.On) (hbo : Board run'.queue.numPhysRegs run'.queue.regScoreboard run'.log)
    (his : ∀ {s}, run.On s → (run'.queue.insts s).isIssued → s ∈ run'.queue.ready) : Inv run' := by
  have hon : run'.On = run.On := by
    funext s
    rw [Run.On, Run.On, hli, h.mem_throughInsert]
  refine h.inv hinv (by rw [hon]; exact hwa) hbo (by rw [hon]; exact his) fun {s} hs hl _ =>
    absurd ((hli s).2 hs.2) hl

end

end Follows

namespace Inv

variable {run : Run} {seq : InstSeqNum}

theorem wakeDependents (h : Inv run) (hseq : seq ∈ entered run.log) (hnot : Event.completed seq ∉ run.log)
    (hsq : Event.squashed seq ∉ run.log) : Inv ⟨run.queue.wakeDependents seq, .completed seq :: run.log⟩ := by
  obtain ⟨hwa, hke, hre, hsc⟩ := h.waits.wakeDependents seq
  obtain ⟨b, d, hmem⟩ := mem_entered.1 hseq
  have hd : (run.queue.insts seq).destRegs = d := (h.kept.inserted hmem).2
  rw [hd] at hsc
  have hnum : (run.queue.wakeDependents seq).numPhysRegs = run.queue.numPhysRegs := by rw [hke.rest]
  have hli : (run.queue.wakeDependents seq).instList = run.queue.instList := by rw [hke.rest]
  have hliv : ∀ s, (run.queue.wakeDependents seq).Live s ↔ run.queue.Live s := fun s => by
    rw [InstructionQueue.Live, InstructionQueue.Live, hli, hke.inst]
  have hf : Follows run ⟨run.queue.wakeDependents seq, .completed seq :: run.log⟩ :=
    { numPhysRegs := hnum
      instList := fun tid => by rw [hli]
      inst := fun s => by rw [hke.inst]
      isSquashedInIQ := fun {s} _ => by rw [hke.inst]
      nonSpecInsts := fun hs => by rw [hke.rest] at hs; exact hs
      ready := fun {s} hs => by
        by_cases hon : run.On s
        · exact .inr (throughInsert_subset hon.1)
        · rw [← count_pos_iff, hre s hon, count_pos_iff] at hs
          exact .inl hs
      count := fun {s} _ hs => hre s fun hon => hs ((hliv s).2 hon.2)
      log := ⟨[.completed seq], rfl, fun e he => by rw [mem_singleton.1 he]; exact nofun⟩
      squashed := fun hs => .inl ((mem_cons.1 hs).resolve_left nofun) }
  refine hf.inv_of_live h hliv hwa ?_ fun {s} hs hfl => ?_
  · rw [hnum]
    exact h.board.completed hmem (fun b' d' hmem' => (h.kept.inserted hmem').2.symm.trans hd) hnot hsq hsc
  · -- an instruction that needed nothing still needs nothing
    rw [hke.inst] at hfl
    have hn := (h.mem_ready hs).1 (h.issued hs hfl)
    have hn' : (run.queue.wakeDependents seq).need s = 0 := by
      rw [need, waiting_eq_zero] at hn ⊢
      intro src hsrc
      rw [hke.inst] at hsrc
      exact (hn src hsrc).imp id fun hs => by rw [hsc, hs, Bool.true_or]
    rw [← count_pos_iff, (hwa.waitsAt hs).told.ready, if_pos hn']
    exact Nat.one_pos

variable {q' : InstructionQueue} {tid : ThreadID}

section

variable (h : Inv run)
include h

/-- A call that changes flags of one instruction and at most notes it as ready. -/
theorem set_flags (inst : DynInst) (hq : q' = { run.queue with
      insts := Function.update run.queue.insts seq inst, ready := q'.ready, nonSpecInsts := q'.nonSpecInsts })
    (hins : inst = { run.queue.insts seq with canIssue := inst.canIssue, isIssued := inst.isIssued })
    (hcan : run.On seq → inst.canIssue → (run.queue.insts seq).canIssue)
    (his : inst.isIssued → (run.queue.insts seq).isIssued ∨ seq ∈ run.queue.ready) (hre : q'.ready = run.queue.ready ∨
      q'.ready = run.queue.ready ++ [seq] ∧ seq ∈ entered run.log ∧ seq ∉ throughInsert run.log)
    (hsp : ∀ {s}, s ∈ q'.nonSpecInsts → s ∈ run.queue.nonSpecInsts) : Inv { run with queue := q' } := by
  have hin : ∀ s, q'.insts s = if s = seq then inst else run.queue.insts s := fun s => by
    rw [hq]
    exact Function.update_apply ..
  have hsa : ∀ s, q'.insts s = { run.queue.insts s with
      canIssue := (q'.insts s).canIssue, isIssued := (q'.insts s).isIssued } := fun s => by
    rw [hin]
    split_ifs with hs
    · rw [hs]
      exact hins
    · rfl
  have hli : ∀ s, q'.Live s ↔ run.queue.Live s := fun s => by
    rw [InstructionQueue.Live, InstructionQueue.Live, hsa, show q'.instList = run.queue.instList by rw [hq]]
  have hco : ∀ s ∈ throughInsert run.log, q'.ready.count s = run.queue.ready.count s := by
    intro s hs
    rcases hre with hre | ⟨hre, -, hnot⟩
    · rw [hre]
    · have hne : (seq == s) = false := beq_false_of_ne fun heq => hnot (heq ▸ hs)
      rw [hre, count_append, count_singleton, hne]
      rfl
  have hf : Follows run { run with queue := q' } :=
    { numPhysRegs := by rw [hq]
      instList := fun tid => by rw [hq]
      inst := fun s => by rw [hsa]
      isSquashedInIQ := fun {s} _ => by rw [hsa]
      nonSpecInsts := hsp
      ready := fun {s} hs => by
        rcases hre with hre | ⟨hre, hseq, -⟩
        · exact .inl (hre ▸ hs)
        · rw [hre, mem_append, mem_singleton] at hs
          rcases hs with hs | rfl
          · exact .inl hs
          · exact .inr hseq
      count := fun {s} hs _ => hco s hs
      log := ⟨[], rfl, nofun⟩
      squashed := .inl }
  refine hf.inv_of_live h hli ?_ (by rw [hq]; exact h.board) fun {s} hs hfl => ?_
  · refine h.waits.congr (fun s hs => ?_) (by rw [hq]; rfl) (by rw [hq]) (by rw [hq]) fun s hs => hco s hs.1
    refine ⟨by rw [hsa], by rw [hsa], ?_⟩
    rw [hin]
    split_ifs with heq
    · rw [heq] at hs ⊢
      exact hcan hs
    · exact id
  · rw [← count_pos_iff, hco s hs.1, count_pos_iff]
    rw [hin] at hfl
    split_ifs at hfl with heq
    · rw [heq] at hs ⊢
      exact (his hfl).elim (h.issued hs) id
    · exact h.issued hs hfl

theorem issue (hseq : seq ∈ run.queue.ready) : Inv { run with queue := run.queue.issue seq } :=
  h.set_flags { run.queue.insts seq with isIssued := true } rfl rfl (fun _ => id) (fun _ => .inr hseq) (.inl rfl) id

theorem scheduleNonSpec (hq : run.queue.scheduleNonSpec seq = .ok q') : Inv { run with queue := q' } := by
  rw [InstructionQueue.scheduleNonSpec] at hq
  split at hq
  · rename_i hseq
    obtain ⟨d, hd⟩ := h.kept.nonSpec hseq
    have hnot : seq ∉ throughInsert run.log := fun hmem => by
      rw [← h.kept.isOnChains_iff (throughInsert_subset hmem), (h.kept.inserted hd).1] at hmem
      cases hmem
    rw [addIfReady, if_pos (by rw [insts_setInst, if_pos rfl])] at hq
    cases hq
    exact h.set_flags { run.queue.insts seq with canIssue := true } rfl rfl (fun hon => absurd hon.1 hnot) .inl
      (.inr ⟨rfl, mem_entered.2 ⟨false, d, hd⟩, hnot⟩) mem_of_mem_erase
  · cases hq

theorem commit (his : ∀ s ∈ (run.queue.instList tid).takeWhile (· ≤ seq), (run.queue.insts s).isIssued = true) :
    Inv { run with queue := run.queue.commit seq tid } := by
  have hlis : ∀ tid', (run.queue.commit seq tid).instList tid' =
      if tid' = tid then (run.queue.instList tid).dropWhile (· ≤ seq) else run.queue.instList tid' :=
    fun _ => Function.update_apply ..
  have hf : Follows run { run with queue := run.queue.commit seq tid } := by
    refine ⟨rfl, fun tid' => ?_, fun _ => rfl, fun _ => rfl, id, .inl, fun _ _ => rfl, ⟨[], rfl, nofun⟩, .inl⟩
    rw [hlis]
    split_ifs with htid
    · rw [htid]
      exact dropWhile_sublist _
    · exact .refl _
  -- what leaves was issued
  have hn : ∀ {s}, run.On s → ¬ (run.queue.commit seq tid).Live s → run.queue.need s = 0 := by
    intro s hs hli
    refine (h.mem_ready hs).1 (h.issued hs (his s ?_))
    rw [InstructionQueue.Live, hlis] at hli
    split_ifs at hli with htid
    · have hmem : s ∈ run.queue.instList tid := htid ▸ hs.2
      rw [← takeWhile_append_dropWhile (p := (· ≤ seq)) (l := run.queue.instList tid), mem_append] at hmem
      exact hmem.resolve_right hli
    · exact absurd hs.2 hli
  refine hf.inv h ?_ h.board (fun hs => h.issued (hf.on hs)) fun hs hli _ => hn hs hli
  exact Waits.congr (q := run.queue) (h.waits.restrict (fun s hs => hf.on hs) fun s hs hnot => hn hs fun hl =>
    hnot ⟨hs.1, hl⟩) (fun _ _ => ⟨rfl, rfl, id⟩) rfl rfl rfl fun _ _ => rfl

/-- The youngest instructions of a thread have been squashed. -/
theorem squashed {q₁ : InstructionQueue} {stay removed : List InstSeqNum}
    (hsp : run.queue.instList tid = stay ++ removed.reverse)
    (hwa : Waits { q₁ with instList := Function.update run.queue.instList tid stay } fun s => run.On s ∧ s ∉ removed)
    (hsq : Squashes run.queue q₁ removed) :
    Inv ⟨{ q₁ with instList := Function.update run.queue.instList tid stay }, removed.map .squashed ++ run.log⟩ := by
  set q' : InstructionQueue := { q₁ with instList := Function.update run.queue.instList tid stay } with hq'
  have hlis : ∀ tid', q'.instList tid' = if tid' = tid then stay else run.queue.instList tid' :=
    fun _ => Function.update_apply ..
  have hmem : ∀ s, s ∈ run.queue.instList tid ↔ s ∈ stay ∨ s ∈ removed := fun s => by simp [hsp]
  have hd : ∀ s ∈ stay, s ∉ removed := fun s hs hs' => by
    have hn := h.kept.nodup tid
    rw [hsp, nodup_append] at hn
    exact hn.2.2 s hs s (mem_reverse.2 hs') rfl
  have hli : ∀ {s}, q'.Live s ↔ run.queue.Live s ∧ s ∉ removed := by
    intro s
    rw [InstructionQueue.Live, hlis, InstructionQueue.Live, show (q'.insts s).threadNumber = _ from
      congrArg DynInst.threadNumber (hsq.inst s)]
    split_ifs with htid
    · rw [htid, hmem]
      exact ⟨fun hs => ⟨.inl hs, hd s hs⟩, fun hs => hs.1.resolve_right hs.2⟩
    · exact (and_iff_left fun hs => htid (h.kept.thread ((hmem s).2 (.inr hs)))).symm
  have hf : Follows run ⟨q', removed.map .squashed ++ run.log⟩ :=
    { numPhysRegs := show q₁.numPhysRegs = _ by rw [hsq.rest]
      instList := fun tid' => by
        rw [hlis]
        split_ifs with htid
        · rw [htid, hsp]
          exact sublist_append_left _ _
        · exact .refl _
      inst := fun s => show q₁.insts s = { run.queue.insts s with
          readyRegs := (q₁.insts s).readyRegs, canIssue := (q₁.insts s).canIssue, memOpDone := (q₁.insts s).memOpDone,
          isIssued := (q₁.insts s).isIssued, isSquashedInIQ := (q₁.insts s).isSquashedInIQ } by rw [hsq.inst]
      isSquashedInIQ := fun hs => congrArg DynInst.isSquashedInIQ (hsq.others (hli.1 hs).2)
      nonSpecInsts := hsq.nonSpecInsts
      ready := fun {s} (hs : s ∈ q₁.ready) => .inl (by rw [hsq.rest] at hs; exact hs)
      count := fun {s} _ _ => show q₁.ready.count s = _ by rw [hsq.rest]
      log := ⟨_, rfl, quiet_squashes removed⟩
      squashed := fun {s} hs => by
        rcases mem_append.1 hs with hs | hs
        · have hs' : s ∈ removed := by simpa using hs
          exact .inr ⟨(h.kept.mem_list.1 ((hmem s).2 (.inr hs'))).1, fun hl => (hli.1 hl).2 hs'⟩
        · exact .inl hs }
  refine hf.inv h (hwa.restrict (fun s hs => ⟨hf.on hs, (hli.1 hs.2).2⟩) fun s hs hnot => ?_) ?_
    (fun {s} hs hfl => ?_) fun {s} hs hl hnot => ?_
  · exact absurd ⟨hf.mem_throughInsert.2 hs.1.1, hli.2 ⟨hs.1.2, hs.2⟩⟩ hnot
  · show Board q₁.numPhysRegs q₁.regScoreboard _
    rw [hsq.rest]
    exact h.board.squashed removed
  · show s ∈ q₁.ready
    rw [hsq.rest]
    refine h.issued (hf.on hs) ?_
    rwa [← hsq.others (hli.1 hs.2).2]
  · refine absurd (mem_append_left _ (mem_map_of_mem ?_)) hnot
    by_contra hs'
    exact hl (hli.2 ⟨hs.2, hs'⟩)

theorem ends_doSquash (tid : ThreadID) (squashedSeqNum : InstSeqNum) :
    Ends (fun r => Inv ⟨r.1, r.2.map .squashed ++ run.log⟩) (· = .nonSpecGone)
      (run.queue.doSquash tid squashedSeqNum) := by
  have hl : ∀ s ∈ run.queue.instList tid, (run.queue.insts s).threadNumber = tid ∧
      (run.queue.insts s).isSquashedInIQ = false ∧ ((run.queue.insts s).isOnChains = true ↔ run.On s) ∧
      (run.On s → (run.queue.insts s).isIssued → run.queue.need s = 0) := by
    intro s hs
    obtain ⟨hli, hth⟩ := h.kept.mem_list.1 hs
    obtain ⟨hent, -, hf⟩ := h.kept.live hli
    exact ⟨hth, hf, (h.kept.isOnChains_iff hent).trans ⟨fun hmem => ⟨hmem, hli⟩, And.left⟩,
      fun hon his => (h.mem_ready hon).1 (h.issued hon his)⟩
  have hend := IQ.ends_doSquash squashedSeqNum (h.kept.nodup tid) h.waits hl
  cases hr : run.queue.doSquash tid squashedSeqNum with
  | error e => exact hend.of_error hr
  | ok r =>
    obtain ⟨q', removed⟩ := r
    obtain ⟨q₁, stay, rfl, hsp, hwa, hsq⟩ := hend.of_ok hr
    exact h.squashed hsp hwa hsq

end

end Inv

/-! ## Runs -/

variable {run : Run}

/-- Whatever may happen to the queue keeps the invariant, or ends in a fault about a non-speculative instruction. -/
theorem ends_step {op : Op} (h : Inv run) (ha : run.Allowed op) :
    Ends Inv (fun e => e = .notNonSpec ∨ e = .nonSpecGone) (run.step op) := by
  obtain ⟨hop, hd, hki⟩ := ha
  cases op with
  | insert seq inst dependsOnStore =>
    obtain ⟨hnew, hre, hun⟩ := hop
    have hfresh : ¬ run.On seq := fun hon => hnew.1 (throughInsert_subset hon.1)
    obtain ⟨q', hq', hwa, hj⟩ := exists_insert h.waits hfresh (fun hmem => hnew.1 (h.kept.ready hmem)) hki
      hre.1 (fun src hsrc => by
        cases hmark : src.2 with
        | true => exact .inr rfl
        | false => exact .inl ((hre.2 src hsrc).2 hmark).1)
      (fun reg hreg hlt => ⟨(hun reg hreg hlt).1, fun s hs =>
        (hun reg hreg hlt).2 s (throughInsert_subset hs.1) hs.2⟩) dependsOnStore
    have hinv := h.joined hnew hun hd hj hwa fun _ => sources_new h.board hre hun _
    rw [hki] at hinv
    rw [Run.step, hq', ok_bind]
    exact hinv
  | insertNonSpec seq inst =>
    obtain ⟨hnew, hun⟩ := hop
    have hfresh : ¬ run.On seq := fun hon => hnew.1 (throughInsert_subset hon.1)
    obtain ⟨q', hq', hwa, hj⟩ := exists_insertNonSpec h.waits hfresh hki fun reg hreg hlt s hs =>
      (hun reg hreg hlt).2 s (throughInsert_subset hs.1) hs.2
    have hinv := h.joined hnew hun hd hj hwa fun hon => absurd hon (by rw [hki]; exact nofun)
    rw [hki] at hinv
    rw [Run.step, hq', ok_bind]
    exact hinv
  | scheduleNonSpec seq =>
    rw [Run.step]
    cases hq : run.queue.scheduleNonSpec seq with
    | ok q' => exact h.scheduleNonSpec hq
    | error e =>
      rw [InstructionQueue.scheduleNonSpec] at hq
      split at hq
      · cases hq
      · cases hq
        exact .inl rfl
  | issue seq => exact h.issue hop
  | wakeDependents seq => exact h.wakeDependents hop.1 hop.2.1 hop.2.2
  | doSquash tid squashedSeqNum =>
    rw [Run.step]
    have hend := h.ends_doSquash tid squashedSeqNum
    cases hr : run.queue.doSquash tid squashedSeqNum with
    | ok r => exact hend.of_ok hr
    | error e => exact .inr (hend.of_error hr)
  | commit seq tid => exact h.commit hop

theorem inv_start (numPhysRegs : ℕ) : Inv ⟨{ numPhysRegs := numPhysRegs }, []⟩ where
  waits := ⟨fun hs => absurd hs.1 not_mem_nil, nofun⟩
  board := ⟨nofun, fun _ => ⟨nofun, nofun⟩, nofun⟩
  kept := ⟨fun _ => nodup_nil, nofun, nofun, nofun, nofun, nofun, nofun⟩
  sources hs := absurd hs.1 not_mem_nil
  issued hs := absurd hs.1 not_mem_nil
  left := nofun

theorem Reaches.inv {numPhysRegs : ℕ}
    (h : Reaches Run.step Run.Allowed ⟨{ numPhysRegs := numPhysRegs }, []⟩ run) : Inv run :=
  h.invariant (P := Inv) (inv_start numPhysRegs) fun _ hinv ha hst => (ends_step hinv ha).of_ok hst

/-- **Wake-up is exact.**  In every run, neither the panic about a chain that is not empty nor the assertion in `remove` is
reached by anything that may happen, and an instruction that entered through `insert` and was not squashed has been found
ready, and only once, exactly when the producers of all its tracked sources have completed. -/
theorem wakeup_exact {numPhysRegs : ℕ} {run : Run}
    (h : Reaches Run.step Run.Allowed ⟨{ numPhysRegs := numPhysRegs }, []⟩ run) :
    (∀ op, run.Allowed op → run.step op ≠ .error .graphNotEmpty ∧ run.step op ≠ .error .notOnChain) ∧
      ∀ seq ∈ throughInsert run.log, Event.squashed seq ∉ run.log → run.queue.ready.count seq ≤ 1 ∧
        (seq ∈ run.queue.ready ↔
          ProducersCompleted run.queue.numPhysRegs run.log seq (run.queue.insts seq).srcRegs) := by
  have hinv := Reaches.inv h
  refine ⟨fun op ha => ?_, fun seq hseq hsq => ?_⟩
  · have hend := ends_step hinv ha
    constructor <;> intro herr
    · rcases hend.of_error herr with he | he <;> cases he
    · rcases hend.of_error herr with he | he <;> cases he
  · by_cases hli : run.queue.Live seq
    · refine ⟨?_, (hinv.mem_ready ⟨hseq, hli⟩).trans (hinv.need_eq_zero ⟨hseq, hli⟩)⟩
      rw [(hinv.waits.waitsAt ⟨hseq, hli⟩).told.ready]
      split <;> omega
    · obtain ⟨hco, hall⟩ := hinv.left hseq hli hsq
      exact ⟨Nat.le_of_eq hco, iff_of_true (count_pos_iff.1 (by rw [hco]; exact Nat.one_pos)) hall⟩

/-- An instruction that writes a register. -/
private def writes (reg : PhysRegIndex) : DynInst := { destRegs := [reg], canIssue := true }

/-- An instruction that reads a register twice and has no mark. -/
private def readsTwice (reg : PhysRegIndex) : DynInst := { srcRegs := [(reg, false), (reg, false)] }

/-- An instruction that reads a register twice waits while another reader is squashed, and is ready once the producer has
completed. -/
theorem wakeup_exact_readsTwice : ∃ run, Reaches Run.step Run.Allowed ⟨{ numPhysRegs := 4 }, []⟩ run ∧
      run.log = [.completed 1, .squashed 3, .inserted 3 true [], .inserted 2 true [], .inserted 1 true [0]] ∧
      2 ∈ run.queue.ready ∧ run.queue.ready.count 2 ≤ 1 := by
  obtain ⟨run, hrun, hlog, hsr, hnum⟩ := exists_reaches Run.step Run.Allowed ⟨{ numPhysRegs := 4 }, []⟩
    [.insert 1 (writes 0) false, .insert 2 (readsTwice 0) false, .insert 3 (readsTwice 0) false, .doSquash 0 2, .issue 1,
      .wakeDependents 1]
    (fun run => run.log = [.completed 1, .squashed 3, .inserted 3 true [], .inserted 2 true [], .inserted 1 true [0]] ∧
      (run.queue.insts 2).srcRegs = [(0, false), (0, false)] ∧ run.queue.numPhysRegs = 4) (by decide +kernel)
  obtain ⟨hco, hre⟩ := (wakeup_exact hrun).2 2 (by rw [hlog]; decide) (by rw [hlog]; decide)
  refine ⟨run, hrun, hlog, hre.2 ?_, hco⟩
  rw [hlog, hsr, hnum]
  unfold ProducersCompleted
  decide

/-- A load that is a write barrier too, which `doSquash` will not look for on the chains. -/
private def writeBarrierLoad (reg : PhysRegIndex) : DynInst :=
  { srcRegs := [(reg, false)], isLoad := true, isMemRef := true, isWriteBarrier := true }

/-- A non-speculative load that is a memory barrier too, which `doSquash` will look for on the chains. -/
private def nonSpecAcquire (reg : PhysRegIndex) : DynInst :=
  { srcRegs := [(reg, false)], isLoad := true, isMemRef := true, isMemBarrier := true, isNonSpeculative := true }

/-- A register may be given a second producer while the first is still to complete, since no instruction reads it.  The
first then wakes the reader of the second.  A load that entered through `insert` and is not looked for on the chains stays
there when it is squashed, and the next producer of the register finds it.  One that did not enter through `insert` and is
looked for is not found. -/
theorem wakeup_not_exact : (∃ run, Reaches Run.step (fun run op => run.Unordered op ∧ Run.Sorted op)
        ⟨{ numPhysRegs := 4 }, []⟩ run ∧
      run.log = [.completed 1, .inserted 3 true [], .inserted 2 true [0], .inserted 1 true [0]] ∧
      3 ∈ run.queue.ready ∧ producer 3 0 run.log = some 2 ∧ (run.queue.insts 3).srcRegs = [(0, false), (0, false)] ∧
      ¬ ProducersCompleted run.queue.numPhysRegs run.log 3 (run.queue.insts 3).srcRegs) ∧
    (∃ run op, Reaches Run.step (fun run op => run.Unordered op ∧ run.Ordered op) ⟨{ numPhysRegs := 4 }, []⟩ run ∧
      run.Unordered op ∧ run.Ordered op ∧ run.step op = .error .graphNotEmpty) ∧
    ∃ run op, Reaches Run.step (fun run op => run.Unordered op ∧ run.Ordered op) ⟨{ numPhysRegs := 4 }, []⟩ run ∧
      run.Unordered op ∧ run.Ordered op ∧ run.step op = .error .notOnChain := by
  refine ⟨?_, ?_, ?_⟩
  · obtain ⟨run, hrun, hlog, hre, hsr, hnum⟩ := exists_reaches Run.step (fun run op => run.Unordered op ∧ Run.Sorted op)
      ⟨{ numPhysRegs := 4 }, []⟩
      [.insert 1 (writes 0) false, .insert 2 (writes 0) false, .insert 3 (readsTwice 0) false, .wakeDependents 1]
      (fun run => run.log = [.completed 1, .inserted 3 true [], .inserted 2 true [0], .inserted 1 true [0]] ∧
        3 ∈ run.queue.ready ∧ (run.queue.insts 3).srcRegs = [(0, false), (0, false)] ∧ run.queue.numPhysRegs = 4)
      (by decide +kernel)
    refine ⟨run, hrun, hlog, hre, by rw [hlog]; rfl, hsr, ?_⟩
    rw [hlog, hsr, hnum]
    unfold ProducersCompleted
    decide
  · obtain ⟨run, hrun, hop⟩ := exists_reaches Run.step (fun run op => run.Unordered op ∧ run.Ordered op)
      ⟨{ numPhysRegs := 4 }, []⟩
      [.insert 1 (writes 0) false, .insert 2 (writeBarrierLoad 0) false, .doSquash 0 0]
      (fun run => run.Unordered (.insert 3 (writes 0) false) ∧ run.Ordered (.insert 3 (writes 0) false) ∧
        run.step (.insert 3 (writes 0) false) = .error .graphNotEmpty) (by decide +kernel)
    exact ⟨run, _, hrun, hop⟩
  · obtain ⟨run, hrun, hop⟩ := exists_reaches Run.step (fun run op => run.Unordered op ∧ run.Ordered op)
      ⟨{ numPhysRegs := 4 }, []⟩
      [.insert 1 (writes 0) false, .insert 2 (readsTwice 0) false, .insertNonSpec 3 (nonSpecAcquire 0)]
      (fun run => run.Unordered (.doSquash 0 2) ∧ run.Ordered (.doSquash 0 2) ∧
        run.step (.doSquash 0 2) = .error .notOnChain) (by decide +kernel)
    exact ⟨run, _, hrun, hop⟩

end GuardianCouncil.IQ
