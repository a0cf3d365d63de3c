import Mathlib.Data.List.Nodup
import GuardianCouncil.IQ.Chains

/-!
# What the calls do to the instructions that wait

One lemma for each call that changes a chain, a mark or a count: the instructions that wait still do (`Waits`), and so
does the new one or all but the squashed ones.
-/

namespace GuardianCouncil.IQ

open Fallible InstructionQueue List

variable {q q' : InstructionQueue} {on : InstSeqNum → Prop} {seq : InstSeqNum} {inst : DynInst}
  {srcs : List (PhysRegIndex × Bool)}

/-! ## An instruction enters -/

/-- What has changed when an instruction has entered, which now has these sources. -/
structure Joined (q q' : InstructionQueue) (seq : InstSeqNum) (inst : DynInst) (srcs : List (PhysRegIndex × Bool)) :
    Prop where
  others : ∀ {s}, s ≠ seq → q'.insts s = q.insts s
  self : q'.insts seq = { inst with
    srcRegs := srcs, readyRegs := (q'.insts seq).readyRegs, canIssue := (q'.insts seq).canIssue }
  instList : q'.instList = Function.update q.instList inst.threadNumber (q.instList inst.threadNumber ++ [seq])
  nonSpecInsts : ∀ {s}, s ∈ q'.nonSpecInsts → s ∈ q.nonSpecInsts ∨ s = seq ∧ inst.isOnChains = false
  numPhysRegs : q'.numPhysRegs = q.numPhysRegs
  chain : ∀ {s}, s ≠ seq → ∀ reg, (q'.chain reg).count s = (q.chain reg).count s
  onChain : ∀ {reg}, seq ∈ q'.chain reg → seq ∈ q.chain reg ∨ inst.isOnChains = true
  regScoreboard : ∀ r, q'.regScoreboard r =
    (q.regScoreboard r && !(decide (r < q.numPhysRegs) && decide (r ∈ inst.destRegs)))
  ready : ∀ {s}, s ≠ seq → q'.ready.count s = q.ready.count s

namespace Joined

theorem addIfReady (h : Joined q q' seq inst srcs) : Joined q (q'.addIfReady seq) seq inst srcs := by
  have hre : ∀ {s}, s ≠ seq → (q'.addIfReady seq).ready.count s = q.ready.count s := fun hs => by
    rw [count_addIfReady, if_neg fun hc => hs hc.1, Nat.add_zero, h.ready hs]
  rw [addIfReady_eq] at hre ⊢
  exact { h with ready := hre }

theorem notToIssue (h : Joined q q' seq inst srcs) :
    Joined q (q'.setInst seq { q'.insts seq with canIssue := false }) seq inst srcs := by
  refine { h with others := fun hs => ?_, self := ?_ }
  · rw [insts_setInst, if_neg hs, h.others hs]
  · rw [insts_setInst, if_pos rfl, h.self]

/-- The other instructions wait as before, since they do not read what the new one writes. -/
theorem waits (hj : Joined q q' seq inst srcs) (h : Waits q on) (hfresh : ¬ on seq)
    (hfree : ∀ reg ∈ inst.destRegs, reg < q.numPhysRegs → ∀ s, on s → ∀ src ∈ (q.insts s).srcRegs, src.1 ≠ reg)
    (hseq : inst.isOnChains = true → WaitsAt q' seq) : Waits q' fun s => s = seq ∧ inst.isOnChains = true ∨ on s := by
  refine ⟨fun {s} hs => ?_, fun {reg s} hs => ?_⟩
  · rcases hs with ⟨rfl, hki⟩ | hs
    · exact hseq hki
    have hne : s ≠ seq := fun heq => hfresh (heq ▸ hs)
    refine (h.waitsAt hs).congr (by rw [hj.others hne]; exact ⟨rfl, rfl, id⟩) (hj.chain hne) (hj.ready hne)
      (fun src hsrc => ?_) hj.numPhysRegs
    rw [hj.regScoreboard]
    by_cases hd : src.1 ∈ inst.destRegs
    · have hge : ¬ src.1 < q.numPhysRegs := fun hlt => hfree _ hd hlt s hs src hsrc rfl
      simp [hge]
    · simp [hd]
  · by_cases heq : s = seq
    · subst heq
      exact .inl ⟨rfl, (hj.onChain hs).resolve_left fun hmem => hfresh (h.onChain hmem)⟩
    · rw [← count_pos_iff, hj.chain heq, count_pos_iff] at hs
      exact .inr (h.onChain hs)

end Joined

/-- A new instruction that is on the chains of the sources without a mark waits, once it was noted if it is ready. -/
theorem WaitsAt.addIfReady (hm : (q.insts seq).Marked)
    (htr : ∀ src ∈ (q.insts seq).srcRegs, src.1 < q.numPhysRegs ∨ src.2 = true)
    (hun : ∀ src ∈ (q.insts seq).srcRegs, src.2 = false → q.regScoreboard src.1 = false)
    (hch : ∀ reg, (q.chain reg).count seq = (q.insts seq).srcRegs.count (reg, false)) (hn : seq ∉ q.ready) :
    WaitsAt (q.addIfReady seq) seq := by
  have hnee : q.need seq = (q.insts seq).srcRegs.countP fun src => !src.2 :=
    countP_congr fun src hsrc => by
      cases hmark : src.2 with
      | true => simp
      | false => simp [hun src hsrc hmark]
  have hleng : (q.insts seq).srcRegs.countP Prod.snd + q.need seq = (q.insts seq).numSrcRegs := by
    rw [hnee, DynInst.numSrcRegs, length_eq_countP_add_countP Prod.snd]
    congr 1
    exact countP_congr fun src _ => by simp
  have hcan : (q.insts seq).canIssue = true ↔ q.need seq = 0 := by
    rw [hm.canIssue, hm.readyRegs]
    omega
  have hre : (q.addIfReady seq).ready.count seq = if q.need seq = 0 then 1 else 0 := by
    rw [count_addIfReady, count_eq_zero.2 hn, Nat.zero_add]
    simp only [hcan, true_and]
  rw [addIfReady_eq] at hre ⊢
  refine ⟨fun reg => (hch reg).trans ?_, htr, by rw [hm.readyRegs]; exact hleng, hcan.1, hre⟩
  split_ifs with hsc
  · refine count_eq_zero.2 fun hmem => ?_
    rw [hun _ hmem rfl] at hsc
    cases hsc
  · rfl

theorem exists_insert (h : Waits q on) (hfresh : ¬ on seq) (hn : seq ∉ q.ready) (hki : inst.isOnChains = true)
    (hm : inst.Marked) (htr : ∀ src ∈ inst.srcRegs, src.1 < q.numPhysRegs ∨ src.2 = true)
    (hfree : ∀ reg ∈ inst.destRegs, reg < q.numPhysRegs → (∀ src ∈ inst.srcRegs, src.1 ≠ reg) ∧
      ∀ s, on s → ∀ src ∈ (q.insts s).srcRegs, src.1 ≠ reg) (dependsOnStore : Bool) :
    ∃ q', q.insert seq inst dependsOnStore = .ok q' ∧ Waits q' (fun s => s = seq ∧ inst.isOnChains = true ∨ on s) ∧
      Joined q q' seq inst (inst.srcRegs.map (markSrc q)) := by
  have hent : Entered (q.enter seq inst) ((q.enter seq inst).addToDependents seq) seq _ _ :=
    entered_addToDependents hm htr
  set q₁ := (q.enter seq inst).addToDependents seq with hq₁
  set srcs' := inst.srcRegs.map (markSrc q) with hs'
  have hse : (q.enter seq inst).insts seq = inst := Function.update_self ..
  have hi₁ := hent.inst
  rw [hse] at hi₁
  have hc₁ : ∀ reg, q₁.chain reg = List.replicate (srcs'.count (reg, false)) seq ++ q.chain reg := hent.chain
  obtain ⟨q₂, hq₂, hre₂, hc₂, hs₂⟩ :=
    exists_addToProducers (q := q₁) seq fun (reg : PhysRegIndex) (hreg : reg ∈ inst.destRegs) hlt => by
      rw [hent.rest] at hlt
      obtain ⟨hown, ho⟩ := hfree reg hreg hlt
      rw [hc₁, h.chain_eq_nil (.inr ho), append_nil, replicate_eq_nil_iff, count_eq_zero, hs', mem_map]
      rintro ⟨src, hsrc, heq⟩
      exact hown src hsrc (congrArg Prod.fst heq)
  have hi₂ : q₂.insts = q₁.insts := by rw [hre₂]
  have hr₂ : q₂.ready = q.ready := by
    rw [hre₂, hent.rest]
    rfl
  -- the queue before the new instruction is noted as ready
  have hjo : Joined q q₂ seq inst srcs' :=
    { others := fun hs => by rw [hi₂, hent.others hs]; exact Function.update_of_ne hs ..
      self := by rw [hi₂]; exact hi₁
      instList := by rw [hre₂, hent.rest]; rfl
      nonSpecInsts := fun hs => by
        rw [hre₂, hent.rest] at hs
        exact .inl hs
      numPhysRegs := by rw [hre₂, hent.rest]; rfl
      chain := fun hs reg => by
        rw [hc₂, hc₁, count_append, count_replicate, if_neg (by simpa using Ne.symm hs), Nat.zero_add]
      onChain := fun _ => .inr hki
      regScoreboard := fun r => by rw [hs₂, hent.rest]; rfl
      ready := fun _ => by rw [hr₂] }
  have hseq : WaitsAt (q₂.addIfReady seq) seq := by
    have hsr₂ : (q₂.insts seq).srcRegs = srcs' := by rw [hjo.self]
    refine .addIfReady (by rw [hi₂]; exact hent.marked) ?_ ?_ (fun reg => ?_) (by rwa [hr₂])
    · rw [hsr₂, hjo.numPhysRegs]
      intro src hsrc
      obtain ⟨src, hmem, rfl⟩ := mem_map.1 hsrc
      exact (htr src hmem).imp id fun htru => by rw [markSrc, htru, Bool.true_or]
    · rw [hsr₂]
      intro src hsrc hmark
      obtain ⟨src, hmem, rfl⟩ := mem_map.1 hsrc
      rw [hjo.regScoreboard, show q.regScoreboard (markSrc q src).1 = false from (Bool.or_eq_false_iff.1 hmark).2,
        Bool.false_and]
    · rw [hc₂, hc₁, hsr₂, count_append, count_replicate_self,
        count_eq_zero.2 fun hmem => hfresh (h.onChain hmem), Nat.add_zero]
  have hwa := hjo.addIfReady.waits h hfresh (fun reg hreg hlt => (hfree reg hreg hlt).2) fun _ => hseq
  rw [InstructionQueue.insert, ← hq₁, addToProducers, show (q₁.insts seq).destRegs = inst.destRegs by rw [hi₁], hq₂,
    ok_bind]
  split
  · rw [memDepInsert]
    split
    · -- an instruction that depends on a store is not to issue
      refine ⟨_, rfl, hwa.congr (fun s _ => ?_) rfl rfl rfl fun _ _ => rfl, hjo.addIfReady.notToIssue⟩
      rw [insts_setInst]
      split
      · rename_i hs
        rw [hs]
        exact ⟨rfl, rfl, fun his => absurd his Bool.false_ne_true⟩
      · exact ⟨rfl, rfl, id⟩
    · exact ⟨_, rfl, hwa, hjo.addIfReady⟩
  · exact ⟨_, rfl, hwa, hjo.addIfReady⟩

theorem exists_insertNonSpec (h : Waits q on) (hfresh : ¬ on seq) (hki : inst.isOnChains = false)
    (hfree : ∀ reg ∈ inst.destRegs, reg < q.numPhysRegs → ∀ s, on s → ∀ src ∈ (q.insts s).srcRegs, src.1 ≠ reg) :
    ∃ q', q.insertNonSpec seq inst = .ok q' ∧ Waits q' (fun s => s = seq ∧ inst.isOnChains = true ∨ on s) ∧
      Joined q q' seq inst inst.srcRegs := by
  rw [insertNonSpec]
  set q₁ := ({ q with nonSpecInsts := q.nonSpecInsts ++ [seq] } : InstructionQueue).enter seq inst with hq₁
  have hse : q₁.insts seq = inst := Function.update_self ..
  obtain ⟨q₂, hq₂, hr₂, hc₂, hs₂⟩ :=
    exists_addToProducers (q := q₁) seq fun (reg : PhysRegIndex) (hreg : reg ∈ inst.destRegs) hlt =>
      h.chain_eq_nil (.inr (hfree reg hreg hlt))
  have hi₂ : q₂.insts = q₁.insts := by rw [hr₂]
  have hjo : Joined q q₂ seq inst inst.srcRegs :=
    { others := fun hs => by rw [hi₂]; exact Function.update_of_ne hs ..
      self := by rw [hi₂, hse]
      instList := by rw [hr₂]; rfl
      nonSpecInsts := fun hs => by
        rw [hr₂] at hs
        exact (mem_append.1 hs).imp id fun hs => ⟨mem_singleton.1 hs, hki⟩
      numPhysRegs := by rw [hr₂]; rfl
      chain := fun _ reg => by rw [hc₂]; rfl
      onChain := fun hs => .inl (by rw [hc₂] at hs; exact hs)
      regScoreboard := hs₂
      ready := fun _ => by rw [hr₂]; rfl }
  exact ⟨q₂, by rw [addToProducers, hse, hq₂],
    hjo.waits h hfresh hfree fun hon => absurd hon (by rw [hki]; exact nofun), hjo⟩

/-! ## An instruction completes -/

theorem Waits.foldl_wakeReg (h : Waits q on) (dests : List PhysRegIndex) :
    let q' := dests.foldl InstructionQueue.wakeReg q
    Waits q' on ∧ Keeps q q' ∧ (∀ s, ¬ on s → q'.ready.count s = q.ready.count s) ∧
      ∀ r, q'.regScoreboard r = (q.regScoreboard r || (decide (r < q.numPhysRegs) && decide (r ∈ dests))) := by
  induction dests generalizing q with
  | nil => exact ⟨h, .refl, fun _ _ => rfl, fun r => by simp⟩
  | cons dest dests ih =>
    obtain ⟨hwa, hke, hre, hsc⟩ := h.wakeReg dest
    obtain ⟨hw', hk', hr', hs'⟩ := ih hwa
    refine ⟨hw', hke.trans hk', fun s hs => (hr' s hs).trans (hre s hs), fun r => ?_⟩
    rw [foldl_cons, hs', hsc, show (q.wakeReg dest).numPhysRegs = q.numPhysRegs by rw [hke.rest]]
    simp only [mem_cons, Bool.decide_or]
    cases q.regScoreboard r <;> cases decide (r < q.numPhysRegs) <;> simp

theorem Waits.wakeDependents (h : Waits q on) (completed_inst : InstSeqNum) : let q' := q.wakeDependents completed_inst
    Waits q' on ∧ Keeps q q' ∧ (∀ s, ¬ on s → q'.ready.count s = q.ready.count s) ∧
      ∀ r, q'.regScoreboard r = (q.regScoreboard r ||
        (decide (r < q.numPhysRegs) && decide (r ∈ (q.insts completed_inst).destRegs))) := by
  rw [InstructionQueue.wakeDependents]
  dsimp only
  split
  · set q₁ := q.setInst completed_inst { q.insts completed_inst with memOpDone := true } with hq₁
    have hke : Keeps q q₁ := .setInst rfl
    have hwa : Waits q₁ on := by
      refine h.congr (fun s _ => ?_) rfl rfl rfl fun _ _ => rfl
      rw [hq₁, insts_setInst]
      split_ifs with hs
      · rw [hs]
        exact ⟨rfl, rfl, id⟩
      · exact ⟨rfl, rfl, id⟩
    obtain ⟨hw', hk', hre, hsc⟩ := hwa.foldl_wakeReg (q₁.insts completed_inst).destRegs
    refine ⟨hw', hke.trans hk', hre, fun r => (hsc r).trans ?_⟩
    rw [hke.inst]
    rfl
  · exact h.foldl_wakeReg _

/-! ## Instructions are squashed -/

/-- What else has changed when instructions have been squashed. -/
structure Squashes (q q' : InstructionQueue) (removed : List InstSeqNum) : Prop where
  rest : q' = { q with insts := q'.insts, dependGraph := q'.dependGraph, nonSpecInsts := q'.nonSpecInsts }
  inst : ∀ s, q'.insts s = { q.insts s with
    isIssued := (q'.insts s).isIssued, isSquashedInIQ := (q'.insts s).isSquashedInIQ }
  others : ∀ {s}, s ∉ removed → q'.insts s = q.insts s
  nonSpecInsts : ∀ {s}, s ∈ q'.nonSpecInsts → s ∈ q.nonSpecInsts

namespace Squashes

theorem refl (removed : List InstSeqNum) : Squashes q q removed := ⟨rfl, fun _ => rfl, fun _ => rfl, id⟩

theorem trans {q'' : InstructionQueue} {removed : List InstSeqNum} (h : Squashes q q' [seq])
    (h' : Squashes q' q'' removed) : Squashes q q'' (seq :: removed) where
  rest := h'.rest.trans (congrArg (fun q₀ : InstructionQueue => { q₀ with
    insts := q''.insts, dependGraph := q''.dependGraph, nonSpecInsts := q''.nonSpecInsts }) h.rest)
  inst s := (h'.inst s).trans (congrArg (fun inst : DynInst => { inst with
    isIssued := (q''.insts s).isIssued, isSquashedInIQ := (q''.insts s).isSquashedInIQ }) (h.inst s))
  others hs := by
    rw [mem_cons, not_or] at hs
    rw [h'.others hs.2, h.others (by rw [mem_singleton]; exact hs.1)]
  nonSpecInsts hs := h.nonSpecInsts (h'.nonSpecInsts hs)

end Squashes

section

variable (h : Waits q on) (hki : (q.insts seq).isOnChains = true ↔ on seq)
include h hki

/-- An instruction is removed from what it waits in. -/
theorem ends_withdraw :
    Ends (fun q' => Waits q' (fun s => on s ∧ s ≠ seq) ∧ q'.insts = q.insts ∧ Squashes q q' [seq])
      (· = .nonSpecGone) (q.withdraw seq) := by
  rw [withdraw]
  by_cases hon : (q.insts seq).isOnChains = true
  · rw [if_pos hon]
    have hseq := h.waitsAt (hki.1 hon)
    obtain ⟨q', hq', hre, hch⟩ := exists_unlink seq hseq.tracked hseq.count fun reg hreg => h.chain_eq_nil (.inl hreg)
    have hin : q'.insts = q.insts := by rw [hre]
    rw [hq']
    refine ⟨⟨fun {s} hs => (h.waitsAt hs.1).congr (by rw [hin]; exact ⟨rfl, rfl, id⟩) (fun reg => ?_) (by rw [hre])
      (fun _ _ => by rw [hre]) (by rw [hre]), fun {reg s} hs => ?_⟩, hin, by rw [hre], fun s => by rw [hin],
      fun _ => by rw [hin], fun hs => by rw [hre] at hs; exact hs⟩
    · rw [hch, count_filter (p := fun x => decide (x ≠ seq)) (decide_eq_true hs.2)]
    · rw [hch, mem_filter, decide_eq_true_eq] at hs
      exact ⟨h.onChain hs.1, hs.2⟩
  · have hseq : ¬ on seq := fun h => hon (hki.2 h)
    have hsa : Waits q fun s => on s ∧ s ≠ seq :=
      h.restrict (fun s hs => hs.1) fun s hs hnot => absurd ⟨hs, fun heq => hseq (heq ▸ hs)⟩ hnot
    rw [if_neg hon, removeNonSpec]
    split
    · exact ⟨hsa, rfl, .refl _⟩
    split
    · exact ⟨hsa.congr (fun _ _ => ⟨rfl, rfl, id⟩) rfl rfl rfl fun _ _ => rfl, rfl, rfl, fun _ => rfl, fun _ => rfl,
        mem_of_mem_erase⟩
    · split
      · exact ⟨hsa, rfl, .refl _⟩
      · rfl

theorem ends_squashInst
    (his : on seq → (q.insts seq).isIssued → q.need seq = 0) :
    Ends (fun q' => Waits q' (fun s => on s ∧ s ≠ seq) ∧ Squashes q q' [seq]) (· = .nonSpecGone) (q.squashInst seq) := by
  rw [squashInst]
  by_cases hg : !(q.insts seq).isIssued ∨ ((q.insts seq).isMemRef ∧ !(q.insts seq).memOpDone)
  · rw [if_pos hg]
    refine (ends_withdraw h hki).bind fun q₁ hq₁ => ?_
    obtain ⟨hwa, hin, hsq⟩ := hq₁
    have ho : ∀ {s}, s ≠ seq → (q₁.setInst seq { q₁.insts seq with isSquashedInIQ := true, isIssued := true }).insts s =
        q₁.insts s := fun hs => Function.update_of_ne hs ..
    refine ⟨hwa.congr (fun s hs => by rw [ho hs.2]; exact ⟨rfl, rfl, id⟩) rfl rfl rfl fun _ _ => rfl,
      by rw [hsq.rest]; rfl, fun s => ?_,
      fun hs => by rw [ho fun heq => hs (mem_singleton.2 heq), hin], hsq.nonSpecInsts⟩
    rw [insts_setInst, hin]
    split_ifs with hs
    · rw [hs]
    · rfl
  · -- an instruction that was issued waits for nothing
    rw [if_neg hg]
    have hd : (q.insts seq).isIssued = true := by simpa using fun h => hg (.inl h)
    exact ⟨h.restrict (fun s hs => hs.1) fun s hs hnot =>
      have heq : s = seq := by_contra fun hne => hnot ⟨hs, hne⟩
      heq ▸ his (heq ▸ hs) hd, .refl _⟩

end

theorem ends_squashLoop {tid : ThreadID} {squashedSeqNum : InstSeqNum} {l : List InstSeqNum} (hn : l.Nodup)
    (h : Waits q on) (hl : ∀ s ∈ l, (q.insts s).threadNumber = tid ∧ (q.insts s).isSquashedInIQ = false ∧
      ((q.insts s).isOnChains = true ↔ on s) ∧ (on s → (q.insts s).isIssued → q.need s = 0)) :
    Ends (fun r => l = r.2.1 ++ r.1 ∧ Waits r.2.2 (fun s => on s ∧ s ∉ r.2.1) ∧ Squashes q r.2.2 r.2.1)
      (· = .nonSpecGone) (squashLoop tid squashedSeqNum l q) := by
  have hno : Waits q fun s => on s ∧ s ∉ [] :=
    h.restrict (fun s hs => hs.1) fun s hs hnot => absurd ⟨hs, not_mem_nil⟩ hnot
  induction l generalizing q on with
  | nil => exact ⟨rfl, hno, .refl _⟩
  | cons seq older ih =>
    rw [squashLoop]
    by_cases hle : seq ≤ squashedSeqNum
    · rw [if_pos hle]
      exact ⟨rfl, hno, .refl _⟩
    obtain ⟨hth, hsqu, hki, his⟩ := hl seq mem_cons_self
    rw [nodup_cons] at hn
    rw [if_neg hle, if_neg (by simp [hth, hsqu])]
    refine (ends_squashInst h hki his).bind fun q₁ hq₁ => ?_
    obtain ⟨hw₁, hsq₁⟩ := hq₁
    refine (ih hn.2 hw₁ (fun s hs => ?_)
      (hw₁.restrict (fun s hs => hs.1) fun s hs hnot => absurd ⟨hs, not_mem_nil⟩ hnot)).bind fun r hr => ?_
    · have hne : s ≠ seq := fun heq => hn.1 (heq ▸ hs)
      have hsa : q₁.insts s = q.insts s := hsq₁.others fun hmem => hne (mem_singleton.1 hmem)
      obtain ⟨ht', hs', hk', hi'⟩ := hl s (mem_cons_of_mem _ hs)
      rw [hsa, need, show q₁.regScoreboard = q.regScoreboard by rw [hsq₁.rest], hsa]
      exact ⟨ht', hs', hk'.trans ⟨fun hon => ⟨hon, hne⟩, And.left⟩, fun hon => hi' hon.1⟩
    · obtain ⟨hli, hwa, hsq⟩ := hr
      refine ⟨by rw [hli]; rfl, hwa.restrict (fun s hs => ?_) fun s hs hnot => ?_, hsq₁.trans hsq⟩
      · rw [mem_cons, not_or] at hs
        exact ⟨⟨hs.1, hs.2.1⟩, hs.2.2⟩
      · rw [mem_cons, not_or] at hnot
        exact absurd ⟨hs.1.1, hs.1.2, hs.2⟩ hnot

theorem ends_doSquash {tid : ThreadID} (squashedSeqNum : InstSeqNum) (hn : (q.instList tid).Nodup) (h : Waits q on)
    (hl : ∀ s ∈ q.instList tid, (q.insts s).threadNumber = tid ∧ (q.insts s).isSquashedInIQ = false ∧
      ((q.insts s).isOnChains = true ↔ on s) ∧ (on s → (q.insts s).isIssued → q.need s = 0)) :
    Ends (fun r => ∃ q₁ stay, r.1 = { q₁ with instList := Function.update q.instList tid stay } ∧
        q.instList tid = stay ++ r.2.reverse ∧ Waits r.1 (fun s => on s ∧ s ∉ r.2) ∧ Squashes q q₁ r.2)
      (· = .nonSpecGone) (q.doSquash tid squashedSeqNum) := by
  rw [doSquash]
  refine (ends_squashLoop (nodup_reverse.2 hn) h fun s hs => hl s (mem_reverse.1 hs)).bind fun r hr => ?_
  obtain ⟨stay, removed, q₁⟩ := r
  obtain ⟨hli, hwa, hsq⟩ := hr
  dsimp only at hli hwa hsq
  refine ⟨q₁, stay.reverse, by rw [show q₁.instList = q.instList by rw [hsq.rest]], ?_,
    hwa.congr (fun _ _ => ⟨rfl, rfl, id⟩) rfl rfl rfl fun _ _ => rfl, hsq⟩
  rw [← reverse_append, ← hli, reverse_reverse]

end GuardianCouncil.IQ
