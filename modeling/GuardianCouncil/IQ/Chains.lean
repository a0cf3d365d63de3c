import Mathlib.Data.List.Count
import GuardianCouncil.IQ.DepGraph

/-!
# The chains and the counts

While an instruction waits, it stands on the chain of a register as often as the register is among its sources without
a mark, if the register has not been produced, and otherwise not at all.  So the number of times that it will be woken is
the number of sources it still waits for (`waiting`), and it has been told of all others (`Told`).  `Waits` says so of a
set `on` of instructions: those that entered through `insert` and have not left.

What a call leaves alone is said by an equation: the new queue is the old one but for the fields that may change.
-/

namespace GuardianCouncil.IQ

open Fallible List

variable {q q' : InstructionQueue} {on : InstSeqNum → Prop} {seq s : InstSeqNum} {reg : PhysRegIndex}
  {srcs : List (PhysRegIndex × Bool)}

/-- How many sources of an instruction are not ready. -/
def waiting (scoreboard : PhysRegIndex → Bool) (srcs : List (PhysRegIndex × Bool)) : ℕ :=
  srcs.countP fun src => !src.2 && !scoreboard src.1

theorem waiting_eq_zero {scoreboard : PhysRegIndex → Bool} :
    waiting scoreboard srcs = 0 ↔ ∀ src ∈ srcs, src.2 = true ∨ scoreboard src.1 = true := by
  rw [waiting, countP_eq_zero]
  refine forall₂_congr fun src _ => ?_
  cases src.2 <;> cases scoreboard src.1 <;> simp

/-- The sources that wait for a register no longer do once it has been produced. -/
theorem waiting_eq_add (scoreboard : PhysRegIndex → Bool) (srcs : List (PhysRegIndex × Bool)) (reg : PhysRegIndex) :
    waiting scoreboard srcs = waiting (Function.update scoreboard reg true) srcs +
      if scoreboard reg then 0 else srcs.count (reg, false) := by
  induction srcs with
  | nil => simp [waiting]
  | cons src srcs ih =>
    rw [waiting] at ih ⊢
    rw [waiting] at ih ⊢
    obtain ⟨r, b⟩ := src
    rw [countP_cons, countP_cons, ih, count_cons]
    by_cases hr : r = reg
    · subst hr
      cases b <;> cases scoreboard r <;> simp
      omega
    · simp [hr]
      split <;> omega

namespace InstructionQueue

def chain (q : InstructionQueue) (reg : PhysRegIndex) : List InstSeqNum := (q.dependGraph reg).chain

/-- How often an instruction is still to be woken. -/
def need (q : InstructionQueue) (seq : InstSeqNum) : ℕ := waiting q.regScoreboard (q.insts seq).srcRegs

theorem chain_setEntry (q : InstructionQueue) (reg r : PhysRegIndex) (entry : DepEntry) :
    (q.setEntry reg entry).chain r = if r = reg then entry.chain else q.chain r := by
  show (Function.update q.dependGraph reg entry r).chain = _
  rw [Function.update_apply]
  split <;> rfl

theorem insts_setInst (q : InstructionQueue) (seq s : InstSeqNum) (inst : DynInst) :
    (q.setInst seq inst).insts s = if s = seq then inst else q.insts s := Function.update_apply ..

theorem addIfReady_eq (q : InstructionQueue) (seq : InstSeqNum) :
    q.addIfReady seq = { q with ready := (q.addIfReady seq).ready } := by
  rw [addIfReady]
  split <;> rfl

theorem count_addIfReady (q : InstructionQueue) (seq s : InstSeqNum) : (q.addIfReady seq).ready.count s =
    q.ready.count s + if s = seq ∧ (q.insts seq).canIssue then 1 else 0 := by
  rw [addIfReady]
  by_cases hcan : (q.insts seq).canIssue <;> simp [hcan, count_singleton, @eq_comm _ seq s]

end InstructionQueue

open InstructionQueue

/-- What an instruction has been told that needs to be woken so many times more, and how often it was found ready. -/
structure Told (inst : DynInst) (need readied : ℕ) : Prop where
  readyRegs : inst.readyRegs + need = inst.numSrcRegs
  canIssue : inst.canIssue → need = 0
  ready : readied = if need = 0 then 1 else 0

/-- An instruction waits for its sources. -/
structure WaitsAt (q : InstructionQueue) (seq : InstSeqNum) : Prop where
  count : ∀ reg, (q.chain reg).count seq = if q.regScoreboard reg then 0 else (q.insts seq).srcRegs.count (reg, false)
  tracked : ∀ src ∈ (q.insts seq).srcRegs, src.1 < q.numPhysRegs ∨ src.2 = true
  told : Told (q.insts seq) (q.need seq) (q.ready.count seq)

/-- These instructions wait, and no others stand on a chain. -/
structure Waits (q : InstructionQueue) (on : InstSeqNum → Prop) : Prop where
  waitsAt : ∀ {seq}, on seq → WaitsAt q seq
  onChain : ∀ {reg seq}, seq ∈ q.chain reg → on seq

/-- An instruction does not notice a change of registers that it does not read. -/
theorem WaitsAt.congr (h : WaitsAt q seq) (hin : (q'.insts seq).srcRegs = (q.insts seq).srcRegs ∧
      (q'.insts seq).readyRegs = (q.insts seq).readyRegs ∧ ((q'.insts seq).canIssue → (q.insts seq).canIssue))
    (hch : ∀ reg, (q'.chain reg).count seq = (q.chain reg).count seq) (hre : q'.ready.count seq = q.ready.count seq)
    (hsc : ∀ src ∈ (q.insts seq).srcRegs, q'.regScoreboard src.1 = q.regScoreboard src.1)
    (hnum : q'.numPhysRegs = q.numPhysRegs) : WaitsAt q' seq := by
  obtain ⟨hsr, hregs, hcan⟩ := hin
  have hn : q'.need seq = q.need seq := by
    rw [need, need, hsr]
    exact countP_congr fun src hsrc => by rw [hsc src hsrc]
  refine ⟨fun reg => ?_, by rw [hsr, hnum]; exact h.tracked, ?_⟩
  · rw [hch, h.count, hsr]
    by_cases hmem : (reg, false) ∈ (q.insts seq).srcRegs
    · rw [hsc _ hmem]
    · rw [count_eq_zero.2 hmem, ite_self, ite_self]
  · rw [hn, hre]
    refine ⟨?_, fun hc => h.told.canIssue (hcan hc), h.told.ready⟩
    rw [hregs, DynInst.numSrcRegs, hsr]
    exact h.told.readyRegs

/-- An instruction that needs no more is on no chain. -/
theorem WaitsAt.not_mem_chain (h : WaitsAt q seq) (hn : q.need seq = 0) (reg : PhysRegIndex) : seq ∉ q.chain reg := by
  rw [← count_eq_zero, h.count]
  split_ifs with hsc
  · rfl
  · exact count_eq_zero.2 fun hmem => hsc ((waiting_eq_zero.1 hn _ hmem).resolve_left nofun)

namespace Waits

/-- A register has no chain if it has been produced, or if nobody reads it. -/
theorem chain_eq_nil (h : Waits q on)
    (hreg : q.regScoreboard reg = true ∨ ∀ s, on s → ∀ src ∈ (q.insts s).srcRegs, src.1 ≠ reg) : q.chain reg = [] := by
  rw [eq_nil_iff_forall_not_mem]
  intro s hs
  have hon := h.onChain hs
  refine count_eq_zero.1 ?_ hs
  rw [(h.waitsAt hon).count]
  rcases hreg with hsc | hfree
  · rw [if_pos hsc]
  · rw [count_eq_zero.2 fun hmem => hfree s hon _ hmem rfl, ite_self]

/-- Instructions may leave if they need no more. -/
theorem restrict {on' : InstSeqNum → Prop} (h : Waits q on) (hsub : ∀ s, on' s → on s)
    (hlef : ∀ s, on s → ¬ on' s → q.need s = 0) : Waits q on' := by
  refine ⟨fun hs => h.waitsAt (hsub _ hs), fun {reg s} hs => ?_⟩
  by_contra hnot
  have hon := h.onChain hs
  exact (h.waitsAt hon).not_mem_chain (hlef s hon hnot) reg hs

theorem congr (h : Waits q on) (hin : ∀ s, on s → (q'.insts s).srcRegs = (q.insts s).srcRegs ∧
      (q'.insts s).readyRegs = (q.insts s).readyRegs ∧ ((q'.insts s).canIssue → (q.insts s).canIssue))
    (hch : q'.chain = q.chain) (hsc : q'.regScoreboard = q.regScoreboard)
    (hnum : q'.numPhysRegs = q.numPhysRegs) (hre : ∀ s, on s → q'.ready.count s = q.ready.count s) : Waits q' on :=
  ⟨fun hs => (h.waitsAt hs).congr (hin _ hs) (fun _ => by rw [hch]) (hre _ hs) (fun _ _ => by rw [hsc]) hnum,
    fun hs => h.onChain (by rwa [hch] at hs)⟩

end Waits

/-! ## Waking -/

/-- What completing leaves alone. -/
structure Keeps (q q' : InstructionQueue) : Prop where
  rest : q' = { q with
    insts := q'.insts, dependGraph := q'.dependGraph, regScoreboard := q'.regScoreboard, ready := q'.ready }
  inst : ∀ s, q'.insts s = { q.insts s with
    readyRegs := (q'.insts s).readyRegs, canIssue := (q'.insts s).canIssue, memOpDone := (q'.insts s).memOpDone }

namespace Keeps

theorem refl : Keeps q q := ⟨rfl, fun _ => rfl⟩

theorem trans {q'' : InstructionQueue} (h : Keeps q q') (h' : Keeps q' q'') : Keeps q q'' :=
  ⟨h'.rest.trans (congrArg (fun q₀ : InstructionQueue => { q₀ with
      insts := q''.insts, dependGraph := q''.dependGraph, regScoreboard := q''.regScoreboard, ready := q''.ready }) h.rest),
    fun s => (h'.inst s).trans (congrArg (fun inst : DynInst => { inst with
      readyRegs := (q''.insts s).readyRegs, canIssue := (q''.insts s).canIssue,
      memOpDone := (q''.insts s).memOpDone }) (h.inst s))⟩

theorem setInst {inst : DynInst} (h : inst = { q.insts seq with
    readyRegs := inst.readyRegs, canIssue := inst.canIssue, memOpDone := inst.memOpDone }) :
    Keeps q (q.setInst seq inst) := by
  refine ⟨rfl, fun s => ?_⟩
  rw [insts_setInst]
  split_ifs with heq
  · rw [heq]
    exact h
  · rfl

theorem wake (q : InstructionQueue) (seq : InstSeqNum) : Keeps q (q.wake seq) := by
  refine .trans (show Keeps q (q.setInst seq (q.insts seq).markSrcRegReady) from setInst rfl) ?_
  rw [InstructionQueue.wake, addIfReady_eq]
  exact ⟨rfl, fun _ => rfl⟩

end Keeps

theorem insts_wake (q : InstructionQueue) (seq s : InstSeqNum) :
    (q.wake seq).insts s = if s = seq then (q.insts seq).markSrcRegReady else q.insts s := by
  rw [wake, addIfReady_eq]
  exact insts_setInst ..

theorem count_wake (q : InstructionQueue) (seq s : InstSeqNum) : (q.wake seq).ready.count s =
    q.ready.count s + if s = seq ∧ (q.insts seq).markSrcRegReady.canIssue then 1 else 0 := by
  rw [wake, count_addIfReady, insts_setInst, if_pos rfl]
  rfl

/-- An instruction that is woken needs one time less. -/
theorem Told.wake {n : ℕ} (h : Told (q.insts s) (n + 1) (q.ready.count s)) :
    Told ((q.wake s).insts s) n ((q.wake s).ready.count s) := by
  have hnot : (q.insts s).canIssue = false := by simpa using h.canIssue
  have hre := h.readyRegs
  -- the instruction can issue from now on if this was the last time
  have hcan : (q.insts s).markSrcRegReady.canIssue = true ↔ n = 0 := by
    rw [DynInst.markSrcRegReady, hnot, Bool.false_or, beq_iff_eq]
    omega
  rw [insts_wake, if_pos rfl, count_wake, h.ready]
  refine ⟨?_, hcan.1, by simp [hcan]⟩
  show (q.insts s).readyRegs + 1 + n = (q.insts s).numSrcRegs
  omega

section

variable {l : List InstSeqNum}

theorem Keeps.foldl_wake : Keeps q (l.foldl InstructionQueue.wake q) := by
  induction l generalizing q with
  | nil => exact .refl
  | cons seq l ih => exact (Keeps.wake q seq).trans ih

theorem foldl_wake_graph : (l.foldl InstructionQueue.wake q).dependGraph = q.dependGraph ∧
    (l.foldl InstructionQueue.wake q).regScoreboard = q.regScoreboard := by
  induction l generalizing q with
  | nil => exact ⟨rfl, rfl⟩
  | cons seq l ih =>
    obtain ⟨hg, hsc⟩ := ih (q := q.wake seq)
    rw [foldl_cons, hg, hsc, wake, addIfReady]
    split <;> exact ⟨rfl, rfl⟩

/-- Waking the instructions on a list. -/
theorem Told.foldl_wake {n : ℕ} (h : Told (q.insts s) (n + l.count s) (q.ready.count s)) :
    Told ((l.foldl InstructionQueue.wake q).insts s) n ((l.foldl InstructionQueue.wake q).ready.count s) := by
  induction l generalizing q with
  | nil => exact h
  | cons a l ih =>
    refine ih ?_
    by_cases heq : s = a
    · subst heq
      rw [count_cons_self, ← Nat.add_assoc] at h
      exact h.wake
    · rw [count_cons_of_ne (Ne.symm heq)] at h
      rwa [insts_wake, if_neg heq, count_wake, if_neg fun h => heq h.1]

/-- The other instructions are as ready as before. -/
theorem count_foldl_wake (hs : s ∉ l) : (l.foldl InstructionQueue.wake q).ready.count s = q.ready.count s := by
  induction l generalizing q with
  | nil => rfl
  | cons a l ih =>
    rw [mem_cons, not_or] at hs
    rw [foldl_cons, ih hs.2, count_wake, if_neg fun h => hs.1 h.1]
    rfl

end

/-- The producer of a register completes. -/
theorem Waits.wakeReg (h : Waits q on) (reg : PhysRegIndex) : Waits (q.wakeReg reg) on ∧ Keeps q (q.wakeReg reg) ∧
      (∀ s, ¬ on s → (q.wakeReg reg).ready.count s = q.ready.count s) ∧
      ∀ r, (q.wakeReg reg).regScoreboard r = (q.regScoreboard r || (decide (r < q.numPhysRegs) && decide (r = reg))) := by
  rw [InstructionQueue.wakeReg]
  by_cases hreg : q.numPhysRegs ≤ reg
  · rw [if_pos hreg]
    refine ⟨h, .refl, fun _ _ => rfl, fun r => ?_⟩
    by_cases hr : r = reg <;> simp [hr, Nat.not_lt.2 hreg]
  rw [if_neg hreg]
  obtain ⟨hg, hsc⟩ := foldl_wake_graph (q := q) (l := q.chain reg)
  have hke : Keeps q ((q.chain reg).foldl InstructionQueue.wake q) := .foldl_wake
  dsimp only
  set q₁ := (q.chain reg).foldl InstructionQueue.wake q with hq₁
  rw [show (q.dependGraph reg).chain.foldl InstructionQueue.wake q = q₁ from rfl, hsc]
  set q₂ : InstructionQueue := { q₁.setEntry reg { inst := none, chain := [] } with
    regScoreboard := Function.update q.regScoreboard reg true } with hq₂
  have hk₂ : Keeps q q₂ := hke.trans ⟨rfl, fun _ => rfl⟩
  have hch : ∀ r, q₂.chain r = if r = reg then [] else q.chain r := fun r => by
    refine (chain_setEntry q₁ reg r _).trans ?_
    rw [chain, hg]
    rfl
  have hsr : ∀ s, (q₂.insts s).srcRegs = (q.insts s).srcRegs := fun s => (congrArg DynInst.srcRegs (hk₂.inst s) :)
  refine ⟨⟨fun {s} hs => ⟨fun r => ?_, ?_, ?_⟩, fun {r s} hs => ?_⟩, hk₂,
    fun s hs => count_foldl_wake fun hmem => hs (h.onChain hmem), fun r => ?_⟩
  · rw [hch, hsr]
    show _ = if Function.update q.regScoreboard reg true r then _ else _
    by_cases hr : r = reg
    · simp [hr]
    · rw [if_neg hr, Function.update_of_ne hr, (h.waitsAt hs).count]
  · rw [hsr, show q₂.numPhysRegs = q.numPhysRegs by rw [hk₂.rest]]
    exact (h.waitsAt hs).tracked
  · -- the instruction is told as often as it stands on the chain
    have hto := (h.waitsAt hs).told
    rw [need, waiting_eq_add _ _ reg, ← (h.waitsAt hs).count] at hto
    rw [need, hsr]
    exact hto.foldl_wake
  · rw [hch] at hs
    split at hs
    · cases hs
    · exact h.onChain hs
  · by_cases hr : r = reg
    · simp [hr, Nat.lt_of_not_le hreg]
    · simp [hr]

/-! ## Entering -/

/-- An instruction that has been told of its marked sources. -/
structure DynInst.Marked (inst : DynInst) : Prop where
  readyRegs : inst.readyRegs = inst.srcRegs.countP Prod.snd
  canIssue : inst.canIssue = true ↔ inst.readyRegs = inst.numSrcRegs

/-- A source as `addToDependents` leaves it: a register that has been produced is marked. -/
def markSrc (q : InstructionQueue) (src : PhysRegIndex × Bool) : PhysRegIndex × Bool :=
  (src.1, src.2 || q.regScoreboard src.1)

variable {back front : List (PhysRegIndex × Bool)} {inst : DynInst} {chain : List InstSeqNum}

theorem DynInst.Marked.markAt (h : inst.Marked) (hsr : inst.srcRegs = front ++ (reg, false) :: back) :
    (inst.markSrcRegReadyAt front.length).Marked ∧
      (inst.markSrcRegReadyAt front.length).srcRegs = front ++ (reg, true) :: back := by
  have hm : inst.srcRegs.modify front.length (fun src => (src.1, true)) = front ++ (reg, true) :: back := by
    rw [hsr, modify_eq_take_drop, take_left, drop_left]
    rfl
  have hre := h.readyRegs
  have hcan := h.canIssue
  have hf := countP_le_length (p := Prod.snd) (l := front)
  have hba := countP_le_length (p := Prod.snd) (l := back)
  rw [DynInst.markSrcRegReadyAt, hm, DynInst.markSrcRegReady]
  simp only [DynInst.numSrcRegs, hsr, countP_append, countP_cons, length_append, length_cons] at hre hcan ⊢
  refine ⟨⟨?_, ?_⟩, trivial⟩
  · simp only [hre, countP_append, countP_cons]
    simp
    omega
  · have hnot : inst.canIssue = false := by
      rw [← Bool.not_eq_true, hcan]
      simp at hre
      omega
    rw [hnot, Bool.false_or, beq_iff_eq, DynInst.numSrcRegs, length_append, length_cons]

/-- What `addToDependents` has done with an instruction: the sources are as given, and the instruction has been put on the
chains of those that were looked at and are not marked. -/
structure Entered (q q' : InstructionQueue) (seq : InstSeqNum) (srcs seen : List (PhysRegIndex × Bool)) : Prop where
  rest : q' = { q with insts := q'.insts, dependGraph := q'.dependGraph }
  others : ∀ {s}, s ≠ seq → q'.insts s = q.insts s
  inst : q'.insts seq = { q.insts seq with
    srcRegs := srcs, readyRegs := (q'.insts seq).readyRegs, canIssue := (q'.insts seq).canIssue }
  marked : (q'.insts seq).Marked
  chain : ∀ reg, q'.chain reg = List.replicate (seen.count (reg, false)) seq ++ q.chain reg

theorem Entered.trans {q'' : InstructionQueue} {srcs' seen seen' : List (PhysRegIndex × Bool)}
    (h : Entered q q' seq srcs seen) (h' : Entered q' q'' seq srcs' seen') :
    Entered q q'' seq srcs' (seen ++ seen') where
  rest := h'.rest.trans
    (congrArg (fun q₀ : InstructionQueue => { q₀ with insts := q''.insts, dependGraph := q''.dependGraph }) h.rest)
  others hne := (h'.others hne).trans (h.others hne)
  inst := h'.inst.trans (congrArg (fun inst : DynInst => { inst with
    srcRegs := srcs', readyRegs := (q''.insts seq).readyRegs, canIssue := (q''.insts seq).canIssue }) h.inst)
  marked := h'.marked
  chain reg := by
    rw [h'.chain, h.chain, ← append_assoc, replicate_append_replicate, count_append, Nat.add_comm]

/-- A round of `addToDependents`. -/
theorem entered_addSrcReg (hm : (q.insts seq).Marked)
    {src : PhysRegIndex × Bool} (htr : src.1 < q.numPhysRegs ∨ src.2 = true)
    (hsr : (q.insts seq).srcRegs = front ++ src :: back) :
    Entered q (q.addSrcReg seq front.length) seq (front ++ markSrc q src :: back) [markSrc q src] := by
  obtain ⟨r, b⟩ := src
  rw [addSrcReg, show (q.insts seq).srcRegs[front.length]? = some (r, b) by simp [hsr]]
  dsimp only
  cases b with
  | true =>
    rw [if_pos rfl]
    exact ⟨rfl, fun _ => rfl, by rw [markSrc, Bool.true_or, ← hsr], hm, fun reg => by simp [markSrc]⟩
  | false =>
    rw [if_neg nofun, if_neg (Nat.not_le.2 (htr.resolve_right nofun))]
    cases hsc : q.regScoreboard r with
    | true =>
      -- the register has been produced
      obtain ⟨hm', hs'⟩ := hm.markAt hsr
      have hse : (q.setInst seq ((q.insts seq).markSrcRegReadyAt front.length)).insts seq =
          (q.insts seq).markSrcRegReadyAt front.length := Function.update_self ..
      rw [Bool.not_true, if_neg nofun]
      refine ⟨rfl, fun hne => Function.update_of_ne hne .., ?_, by rwa [hse], fun reg => by simp [markSrc, hsc]; rfl⟩
      rw [hse, markSrc, hsc, Bool.or_true, ← hs']
      rfl
    | false =>
      -- the instruction is put on the chain
      rw [Bool.not_false, if_pos rfl]
      refine ⟨rfl, fun _ => rfl, by rw [markSrc, hsc, Bool.or_false, ← hsr]; rfl, hm, fun reg => ?_⟩
      rw [graphInsert, chain_setEntry, markSrc, hsc, Bool.or_false, count_singleton]
      by_cases hreg : reg = r
      · simp [hreg]
        rfl
      · simp [hreg, Ne.symm hreg]

/-- The rounds over the sources that are still to be looked at. -/
theorem entered_foldl (seq : InstSeqNum) (back : List (PhysRegIndex × Bool)) :
    ∀ (front : List (PhysRegIndex × Bool)) {q : InstructionQueue}, (q.insts seq).Marked →
    (∀ src ∈ back, src.1 < q.numPhysRegs ∨ src.2 = true) → (q.insts seq).srcRegs = front ++ back →
    Entered q ((List.range' front.length back.length).foldl (fun q src_reg_idx => q.addSrcReg seq src_reg_idx) q) seq
      (front ++ back.map (markSrc q)) (back.map (markSrc q)) := by
  induction back with
  | nil =>
    intro front q hm _ hsr
    exact ⟨rfl, fun _ => rfl, by rw [map_nil, ← hsr]; rfl, hm, fun _ => rfl⟩
  | cons src back ih =>
    intro front q hm htr hsr
    have hro := entered_addSrcReg hm (htr src mem_cons_self) hsr
    have hre := ih (front ++ [markSrc q src]) hro.marked
      (by rw [hro.rest]; exact fun src hsrc => htr src (mem_cons_of_mem _ hsrc))
      (by rw [hro.inst, append_assoc]; rfl)
    have hmark : markSrc (q.addSrcReg seq front.length) = markSrc q := by
      rw [hro.rest]
      rfl
    have hall := hro.trans hre
    rw [hmark, append_assoc] at hall
    rwa [length_cons, range'_succ, foldl_cons, map_cons, ← singleton_append,
      show front.length + 1 = (front ++ [markSrc q src]).length by simp]

/-- A new instruction has been told of the sources that are marked, and stands on the chains of the others. -/
theorem entered_addToDependents (hm : inst.Marked) (htr : ∀ src ∈ inst.srcRegs, src.1 < q.numPhysRegs ∨ src.2 = true) :
    Entered (q.enter seq inst) ((q.enter seq inst).addToDependents seq) seq (inst.srcRegs.map (markSrc q))
      (inst.srcRegs.map (markSrc q)) := by
  have hse : (q.enter seq inst).insts seq = inst := Function.update_self ..
  have h := entered_foldl seq inst.srcRegs [] (q := q.enter seq inst) (by rwa [hse]) htr (by rw [hse]; rfl)
  rwa [nil_append, length_nil, ← range_eq_range', ← DynInst.numSrcRegs,
    show inst.numSrcRegs = ((q.enter seq inst).insts seq).numSrcRegs by rw [hse]] at h

/-- A round of `addToProducers`, for a register without a chain. -/
theorem exists_addDestReg (seq : InstSeqNum) (hch : reg < q.numPhysRegs → q.chain reg = []) :
    ∃ q', q.addDestReg seq reg = .ok q' ∧
      q' = { q with dependGraph := q'.dependGraph, regScoreboard := q'.regScoreboard } ∧ q'.chain = q.chain ∧
      ∀ r, q'.regScoreboard r = (q.regScoreboard r && !(decide (r < q.numPhysRegs) && decide (r = reg))) := by
  rw [addDestReg]
  by_cases hreg : q.numPhysRegs ≤ reg
  · rw [if_pos hreg]
    refine ⟨q, rfl, rfl, rfl, fun r => ?_⟩
    by_cases hr : r = reg <;> simp [hr, Nat.not_lt.2 hreg]
  have hlt := Nat.lt_of_not_le hreg
  rw [if_neg hreg, if_neg (not_not_intro (show (q.dependGraph reg).chain = [] from hch hlt))]
  refine ⟨_, rfl, rfl, ?_, fun r => ?_⟩
  · funext r
    refine (chain_setEntry q reg r _).trans ?_
    split_ifs with hr
    · rw [hr]
      rfl
    · rfl
  · show Function.update q.regScoreboard reg false r = _
    by_cases hr : r = reg <;> simp [hr, hlt]

theorem exists_addToProducers (seq : InstSeqNum) {dests : List PhysRegIndex}
    (hch : ∀ reg ∈ dests, reg < q.numPhysRegs → q.chain reg = []) :
    ∃ q', dests.foldlM (fun q dest_reg => q.addDestReg seq dest_reg) q = .ok q' ∧
      q' = { q with dependGraph := q'.dependGraph, regScoreboard := q'.regScoreboard } ∧ q'.chain = q.chain ∧
      ∀ r, q'.regScoreboard r = (q.regScoreboard r && !(decide (r < q.numPhysRegs) && decide (r ∈ dests))) := by
  induction dests generalizing q with
  | nil => exact ⟨q, rfl, rfl, rfl, fun r => by simp⟩
  | cons reg dests ih =>
    obtain ⟨q₁, hq₁, hr₁, hc₁, hs₁⟩ := exists_addDestReg seq (hch reg mem_cons_self)
    have hnum₁ : q₁.numPhysRegs = q.numPhysRegs := by rw [hr₁]
    obtain ⟨q₂, hq₂, hr₂, hc₂, hs₂⟩ := ih (q := q₁) fun r hr => by
      rw [hnum₁, hc₁]
      exact hch r (mem_cons_of_mem _ hr)
    refine ⟨q₂, by rw [foldlM_cons, hq₁, ok_bind, hq₂], ?_, hc₂.trans hc₁, fun r => ?_⟩
    · rw [hr₁] at hr₂
      exact hr₂
    · rw [hs₂, hs₁, hnum₁]
      simp only [mem_cons, Bool.decide_or]
      cases q.regScoreboard r <;> cases decide (r < q.numPhysRegs) <;> simp

/-! ## Leaving the chains -/

theorem removeLoop_eq_ok (h : seq ∈ chain) : removeLoop seq chain = .ok (chain.erase seq) := by
  induction chain with
  | nil => cases h
  | cons curr next ih =>
    rw [removeLoop]
    by_cases heq : curr = seq
    · rw [if_pos heq, heq, erase_cons_head]
    · rw [if_neg heq, ih ((mem_cons.1 h).resolve_left (Ne.symm heq)), ok_bind, erase_cons_tail (by simpa using heq)]

theorem graphRemove_eq_ok (reg : PhysRegIndex) (seq : InstSeqNum) (h : q.chain reg = [] ∨ seq ∈ q.chain reg) :
    ∃ q', q.graphRemove reg seq = .ok q' ∧ q' = { q with dependGraph := q'.dependGraph } ∧
    ∀ r, q'.chain r = if r = reg then (q.chain reg).erase seq else q.chain r := by
  rw [graphRemove, ← chain]
  split
  · rename_i hnil
    refine ⟨q, rfl, rfl, fun r => ?_⟩
    split_ifs with hr
    · rw [hr, hnil, erase_nil]
    · rfl
  · rename_i hne
    rw [removeLoop_eq_ok (h.resolve_left hne), ok_bind]
    exact ⟨_, rfl, rfl, fun r => chain_setEntry ..⟩

theorem filter_ne_erase :
    (chain.erase seq).filter (fun s => decide (s ≠ seq)) = chain.filter fun s => decide (s ≠ seq) := by
  induction chain with
  | nil => rfl
  | cons curr next ih =>
    by_cases heq : curr = seq
    · rw [heq, erase_cons_head, filter_cons_of_neg (by simp)]
    · rw [erase_cons_tail (by simpa using heq), filter_cons, filter_cons, ih]

/-- The loop of `doSquash` over the sources removes an instruction from all chains. -/
theorem exists_unlink (seq : InstSeqNum) :
    ∀ {q : InstructionQueue}, (∀ src ∈ srcs, src.1 < q.numPhysRegs ∨ src.2 = true) →
    (∀ reg, (q.chain reg).count seq = if q.regScoreboard reg then 0 else srcs.count (reg, false)) →
    (∀ reg, q.regScoreboard reg = true → q.chain reg = []) →
    ∃ q', unlink seq srcs q = .ok q' ∧ q' = { q with dependGraph := q'.dependGraph } ∧
      ∀ reg, q'.chain reg = (q.chain reg).filter (· ≠ seq) := by
  induction srcs with
  | nil =>
    intro q _ hco _
    refine ⟨q, rfl, rfl, fun reg => ?_⟩
    have hn := hco reg
    rw [count_nil, ite_self, count_eq_zero] at hn
    rw [eq_comm, filter_eq_self]
    exact fun s hs => decide_eq_true fun heq => hn (heq ▸ hs)
  | cons src srcs ih =>
    obtain ⟨r, b⟩ := src
    intro q htr hco hem
    have ht' : ∀ src ∈ srcs, src.1 < q.numPhysRegs ∨ src.2 = true := fun src hsrc => htr src (mem_cons_of_mem _ hsrc)
    rw [unlink]
    cases b with
    | true =>
      rw [if_neg (by simp)]
      exact ih ht' (fun reg => by rw [hco, count_cons_of_ne (by simp)]) hem
    | false =>
      rw [if_pos ⟨rfl, (htr _ mem_cons_self).resolve_right nofun⟩]
      have hr := hco r
      rw [count_cons_self] at hr
      -- the chain is empty if the register has been produced
      obtain ⟨q₁, hq₁, hr₁, hc₁⟩ := graphRemove_eq_ok (q := q) r seq <| by
        cases hsc : q.regScoreboard r with
        | true => exact .inl (hem r hsc)
        | false =>
          rw [hsc, if_neg nofun] at hr
          exact .inr (count_pos_iff.1 (by omega))
      have hs₁ : q₁.regScoreboard = q.regScoreboard := by rw [hr₁]
      obtain ⟨q', hq', hre, hch⟩ := ih (q := q₁) (by rw [hr₁]; exact ht')
        (fun reg => by
          rw [hc₁, hs₁]
          by_cases hreg : reg = r
          · subst hreg
            rw [if_pos rfl, count_erase_self, hr]
            split <;> rfl
          · rw [if_neg hreg, hco, count_cons_of_ne (by simp [Ne.symm hreg])])
        fun reg hreg => by
          rw [hs₁] at hreg
          rw [hc₁]
          split_ifs with heq
          · rw [← heq, hem reg hreg, erase_nil]
          · exact hem reg hreg
      rw [hq₁, ok_bind]
      refine ⟨q', hq', by rw [hr₁] at hre; exact hre, fun reg => ?_⟩
      rw [hch, hc₁]
      split_ifs with heq
      · rw [heq]
        exact filter_ne_erase
      · rfl

end GuardianCouncil.IQ
