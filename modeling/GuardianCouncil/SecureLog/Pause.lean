import Mathlib.Algebra.BigOperators.Fin
import Mathlib.Algebra.Order.BigOperators.Group.Finset
import GuardianCouncil.SecureLog.Plan

/-!
# Pausing and waking up

One flag per core means two things: "my own queue is empty" and "a queue I wrote to is full".  It
is raised and lowered from four places, mostly on behalf of another core.  The invariant
`Consistent` says that nevertheless the flag is always explained by exactly one of the two reasons:

* a paused core is on exactly one waiting list, or its own queue is empty;
* a core on a waiting list has something left to read, so the wake-up for "no longer empty" never
  fires for it by mistake;
* a queue somebody waits for is full, so there is something to pop and the pops will wake the
  waiting core.

A step of the main core can add to several queues, and is paused half-way through.  So the step lemma
asks of the writer only that it is not paused for lack of input (`HasInput`).
-/

namespace GuardianCouncil.SecureLog

open Fallible List Function

/-- The flags, the waiting lists and the sizes agree. -/
structure Consistent (st : State) : Prop where
  /-- A core is paused exactly when it waits for room or has nothing to read. -/
  asleep : ∀ w, st.pause w = true ↔ (∃ q, w ∈ st.pausedOn q) ∨ ∃ c : Queue, w = c.succ ∧ st.queueSize c = 0
  /-- No waiting list names a core twice. -/
  nodup : ∀ q, (st.pausedOn q).Nodup
  /-- No core is on two waiting lists. -/
  once : ∀ w q q', w ∈ st.pausedOn q → w ∈ st.pausedOn q' → q = q'
  /-- A queue somebody waits for is full. -/
  full : ∀ w q, w ∈ st.pausedOn q → QUEUESIZE ≤ st.queueSize q
  /-- A waiting checker core has something to read. -/
  fed : ∀ (c q : Queue), c.succ ∈ st.pausedOn q → 0 < st.queueSize c

/-- The core does not lack input: it is the main core, or its queue is not empty. -/
def HasInput (st : State) (w : Core) : Prop := ∀ c : Queue, w = c.succ → 0 < st.queueSize c

theorem consistent_init (programs : List SProgram) (filterb : InstType → Bool) (ready : Int) :
    Consistent (init programs filterb ready) := by
  refine ⟨fun w => ?_, fun _ => nodup_nil, fun w q q' h => ?_, fun w q h => ?_, fun c q h => ?_⟩
  · -- initially every checker core is paused, and every queue is empty
    cases w using Fin.cases with
    | zero => simp [init, Fin.succ_ne_zero, eq_comm]
    | succ c => simp [init]
  · simp [init] at h
  · simp [init] at h
  · simp [init] at h

variable {st st' : State} {w writer : Core} {q queue : Queue} {s : Entry}

/-- A core that is not paused has input. -/
theorem Consistent.hasInput (h : Consistent st) (hw : st.pause w = false) : HasInput st w := by
  intro c hc
  by_contra h0
  have hp : st.pause w = true := (h.asleep w).2 (.inr ⟨c, hc, by omega⟩)
  rw [hw] at hp
  cases hp

/-- Nor is it waiting for room. -/
theorem Consistent.not_mem_pausedOn (h : Consistent st) (hw : st.pause w = false) (q : Queue) : w ∉ st.pausedOn q := by
  intro hq
  have hp := (h.asleep w).2 (.inl ⟨q, hq⟩)
  rw [hw] at hp
  exact absurd hp (by simp)

/-! ## One add -/

theorem mem_added_pausedOn : w ∈ (added s queue writer st).pausedOn q ↔ w ∈ st.pausedOn q ∨
        (q = queue ∧ w = writer ∧ QUEUESIZE ≤ st.queueSize queue + 1 ∧ st.pause writer = false) := by
  rw [added_pausedOn]
  split_ifs with h
  · by_cases hq : q = queue
    · subst hq
      simp [h.1, h.2]
    · simp [hq]
  · simp only [iff_self_or]
    rintro ⟨-, -, h'⟩
    exact absurd h' h

theorem added_queueSize_eq_zero {c : Queue} :
    (added s queue writer st).queueSize c = 0 ↔ c ≠ queue ∧ st.queueSize c = 0 := by
  by_cases h : c = queue
  · subst h
    simp
  · simp [h]

theorem HasInput.added (h : HasInput st w) (s : Entry) (queue : Queue)
    (writer : Core) : HasInput (added s queue writer st) w := by
  intro c hc
  by_contra h0
  have h1 := (added_queueSize_eq_zero.1 (Nat.eq_zero_of_not_pos h0)).2
  exact absurd (h c hc) (by omega)

theorem le_added_queueSize (c : Queue) : st.queueSize c ≤ (added s queue writer st).queueSize c := by
  by_cases h : c = queue
  · subst h
    simp
  · simp [h]

/-- After an add, the paused cores are again those that wait for room or have nothing to read. -/
theorem Consistent.asleep_added (h : Consistent st) (s : Entry) (queue : Queue) (w : Core) :
    (added s queue writer st).pause w = true ↔ (∃ q, w ∈ (added s queue writer st).pausedOn q) ∨
        ∃ c : Queue, w = c.succ ∧ (added s queue writer st).queueSize c = 0 := by
  have ha := h.asleep w
  simp only [mem_added_pausedOn, added_queueSize_eq_zero, added_pause]
  by_cases h0 : st.queueSize queue = 0
  · have hsm : ¬ QUEUESIZE ≤ st.queueSize queue + 1 := by rw [h0]; decide
    simp only [hsm, false_and, and_false, or_false, if_false]
    simp only [h0, true_and]
    by_cases hr : w = queue.succ
    · -- the reader wakes up: it was on no waiting list, because it had nothing to read
      subst hr
      simp only [if_true, Bool.false_eq_true, false_iff, not_or, not_exists]
      refine ⟨fun q hq => ?_, fun c hc => ?_⟩
      · have := h.fed queue q hq
        omega
      · exact hc.2.1 (Fin.succ_injective _ hc.1).symm
    · rw [if_neg hr, ha]
      refine or_congr_right (exists_congr fun c => and_congr_right fun hc => ?_)
      have hne : c ≠ queue := fun e => hr (e ▸ hc)
      simp [hne]
  · have hsa : ∀ c : Queue, (c ≠ queue ∧ st.queueSize c = 0) ↔ st.queueSize c = 0 :=
      fun c => ⟨fun hc => hc.2, fun hc => ⟨fun e => h0 (e ▸ hc), hc⟩⟩
    simp only [h0, false_and, if_false, hsa]
    by_cases hfull : QUEUESIZE ≤ st.queueSize queue + 1 ∧ w = writer
    · -- the writer ends up paused: it is on this list now, or was paused before
      obtain ⟨hfull, rfl⟩ := hfull
      simp only [hfull, and_self, if_true, true_iff, true_and]
      rcases hp : st.pause w with - | -
      · exact .inl ⟨queue, .inr ⟨rfl, rfl⟩⟩
      · exact (ha.1 hp).imp (fun ⟨q, hq⟩ => ⟨q, .inl hq⟩) id
    · rw [if_neg hfull, ha]
      refine or_congr_left (exists_congr fun q => ?_)
      simp only [iff_self_or]
      rintro ⟨-, hww, hf, -⟩
      exact absurd ⟨hf, hww⟩ hfull

theorem Consistent.nodup_added (h : Consistent st) (s : Entry)
    (queue q : Queue) : ((added s queue writer st).pausedOn q).Nodup := by
  rw [added_pausedOn]
  split_ifs with hc
  · by_cases hq : q = queue
    · subst hq
      rw [update_self, ← concat_eq_append]
      exact (h.nodup q).concat (h.not_mem_pausedOn hc.2 q)
    · simpa [hq] using h.nodup q
  · exact h.nodup q

/-- **An add keeps the flags consistent**, whether or not it pauses the writer and whether or not
the writer is already waiting. -/
theorem Consistent.added (h : Consistent st) (hw : HasInput st writer) (s : Entry) (queue : Queue) :
    Consistent (added s queue writer st) := by
  refine ⟨h.asleep_added s queue, h.nodup_added s queue, fun w q q' => ?_, fun w q => ?_, fun c q => ?_⟩
  · rw [mem_added_pausedOn, mem_added_pausedOn]
    rintro (hq | ⟨rfl, rfl, -, hp⟩) (hq' | ⟨rfl, hww, -, hp'⟩)
    · exact h.once w q q' hq hq'
    · exact absurd (hww ▸ hq) (h.not_mem_pausedOn hp' q)
    · exact absurd hq' (h.not_mem_pausedOn hp q')
    · rfl
  · rw [mem_added_pausedOn]
    rintro (hq | ⟨rfl, -, hfull, -⟩)
    · exact (h.full w q hq).trans (le_added_queueSize q)
    · simpa using hfull
  · rw [mem_added_pausedOn]
    rintro (hq | ⟨rfl, hcw, -, -⟩)
    · exact (h.fed c q hq).trans_le (le_added_queueSize c)
    · exact (hw c hcw.symm).trans_le (le_added_queueSize c)

/-! ## One pop -/

theorem mem_afterPop_pausedOn : w ∈ (afterPop queue st).pausedOn q ↔
      w ∈ st.pausedOn q ∧ ¬ (q = queue ∧ st.queueSize queue - 1 ≤ QUEUESIZE) := by
  rw [afterPop_pausedOn]
  split_ifs with h
  · by_cases hq : q = queue
    · subst hq
      simp [h]
    · simp [hq]
  · simp [h]

/-- After a pop, the paused cores are again those that wait for room or have nothing to read. -/
theorem Consistent.asleep_afterPop (h : Consistent st) (hp : st.pause queue.succ = false) (w : Core) :
    (afterPop queue st).pause w = true ↔ (∃ q, w ∈ (afterPop queue st).pausedOn q) ∨
        ∃ c : Queue, w = c.succ ∧ (afterPop queue st).queueSize c = 0 := by
  simp only [mem_afterPop_pausedOn, afterPop_pause, afterPop_queueSize]
  by_cases hr : w = queue.succ
  · -- the reader itself: on no list, so it is paused exactly if the queue ran empty
    subst hr
    simp only [h.not_mem_pausedOn hp, and_false, if_false, hp, false_and, exists_false, false_or, and_true]
    constructor
    · intro hz
      refine ⟨queue, rfl, ?_⟩
      by_contra hne
      rw [update_self] at hne
      rw [if_neg hne] at hz
      exact absurd hz (by simp)
    · rintro ⟨c, hc, hz⟩
      cases Fin.succ_injective _ hc
      rw [update_self] at hz
      rw [if_pos hz]
  · have hown : ∀ c : Queue, (w = c.succ ∧ update st.queueSize queue (st.queueSize queue - 1) c = 0) ↔
        (w = c.succ ∧ st.queueSize c = 0) := by
      refine fun c => and_congr_right fun hc => ?_
      have hne : c ≠ queue := fun e => hr (e ▸ hc)
      rw [update_of_ne hne]
    simp only [hr, and_false, if_false, hown]
    by_cases hrel : st.queueSize queue - 1 ≤ QUEUESIZE ∧ w ∈ st.pausedOn queue
    · -- a released core was on this list only, and has something to read
      rw [if_pos hrel]
      simp only [Bool.false_eq_true, false_iff, not_or, not_exists, not_and]
      refine ⟨fun q hq hn => hn (h.once w q queue hq hrel.2) hrel.1, fun c hc h0 => ?_⟩
      have := h.fed c queue (hc ▸ hrel.2)
      omega
    · rw [if_neg hrel, h.asleep w]
      refine or_congr_left (exists_congr fun q => ?_)
      constructor
      · exact fun hq => ⟨hq, fun hc => hrel ⟨hc.2, hc.1 ▸ hq⟩⟩
      · exact fun hq => hq.1

theorem Consistent.nodup_afterPop (h : Consistent st) (queue q : Queue) : ((afterPop queue st).pausedOn q).Nodup := by
  rw [afterPop_pausedOn]
  split
  · by_cases hq : q = queue
    · subst hq
      simp
    · simpa [hq] using h.nodup q
  · exact h.nodup q

/-- **A pop keeps the flags consistent.** -/
theorem Consistent.afterPop (h : Consistent st)
    (hp : st.pause queue.succ = false) : Consistent (afterPop queue st) := by
  refine ⟨h.asleep_afterPop hp, h.nodup_afterPop queue, fun w q q' hq hq' => ?_, fun w q hq => ?_, fun c q hq => ?_⟩
  · exact h.once w q q' (mem_afterPop_pausedOn.1 hq).1 (mem_afterPop_pausedOn.1 hq').1
  · obtain ⟨hq, hn⟩ := mem_afterPop_pausedOn.1 hq
    have hfull := h.full w q hq
    rw [afterPop_queueSize]
    by_cases he : q = queue
    · subst he
      have hke : ¬ st.queueSize q - 1 ≤ QUEUESIZE := fun hc => hn ⟨rfl, hc⟩
      rw [update_self]
      omega
    · rwa [update_of_ne he]
  · obtain ⟨hq, -⟩ := mem_afterPop_pausedOn.1 hq
    have hne : c ≠ queue := fun e => h.not_mem_pausedOn hp q (e ▸ hq)
    rw [afterPop_queueSize, update_of_ne hne]
    exact h.fed c q hq

/-! ## Whole runs -/

/-- The calls of a step keep the flags consistent. -/
theorem Consistent.addAll {calls : List Call}
    (h : Consistent st) (hw : HasInput st writer) (hadd : addAll writer calls st = .ok st') : Consistent st' :=
  (addAll_invariant (P := fun st => Consistent st ∧ HasInput st writer)
    (fun s queue hi => ⟨hi.1.added hi.2 s queue, hi.2.added s queue writer⟩) hadd ⟨h, hw⟩).1

/-- **Every enabled step keeps the flags consistent.** -/
theorem Consistent.exec {op : Op} (h : Consistent st) (hen : Enabled st op)
    (hs : exec st op = .ok st') : Consistent st' := by
  rcases exec_cases hen hs with
    ⟨ps, st₁, hact, -, hadd, rfl⟩ | ⟨q, item, rfl, hp, -, rfl⟩ | ⟨-, hid⟩
  · have h1 := h.addAll (h.hasInput (hen _ hact)) hadd
    exact ⟨h1.asleep, h1.nodup, h1.once, h1.full, h1.fed⟩
  · exact h.afterPop hp
  · cases hid <;> exact ⟨h.asleep, h.nodup, h.once, h.full, h.fed⟩

theorem consistent_of_reachable {programs : List SProgram} {filterb : InstType → Bool}
    {ready : Int} (h : Reachable programs filterb ready st) : Consistent st :=
  h.invariant (consistent_init programs filterb ready) fun _ hc hen hs => hc.exec hen hs

/-- Pops wake a waiting core before the queue is empty. -/
theorem exists_pops_wake : ∀ (n : Nat) {st : State}, st.queueSize q = n → QUEUESIZE ≤ n → w ∈ st.pausedOn q →
      ∃ k, 0 < k ∧ k ≤ n ∧ ((afterPop q)^[k] st).pause w = false
  | 0, st, _, hfull, _ => absurd hfull (by decide)
  | n + 1, st, hn, hfull, hw => by
    by_cases hro : st.queueSize q - 1 ≤ QUEUESIZE
    · refine ⟨1, one_pos, by omega, ?_⟩
      have hpos : st.queueSize q - 1 ≠ 0 := fun h0 => by
        rw [show n = 0 by omega] at hfull
        exact absurd hfull (by decide)
      rw [Function.iterate_one, afterPop_pause, if_neg (by tauto), if_pos ⟨hro, hw⟩]
    · have hsz : (afterPop q st).queueSize q = n := by
        rw [afterPop_queueSize, update_self, hn, Nat.add_sub_cancel]
      have hmem : w ∈ (afterPop q st).pausedOn q := mem_afterPop_pausedOn.2 ⟨hw, fun h => hro h.2⟩
      obtain ⟨k, hk, hkn, hwa⟩ := exists_pops_wake n hsz (by omega) hmem
      exact ⟨k + 1, by omega, by omega, by rwa [Function.iterate_succ_apply]⟩

/-- No core occurs twice over all waiting lists. -/
theorem Consistent.sum_count_le_one (h : Consistent st) (w : Core) : ∑ q, (st.pausedOn q).count w ≤ 1 := by
  by_cases hw : ∃ q, w ∈ st.pausedOn q
  · obtain ⟨q, hq⟩ := hw
    have ho : ∀ q' ∈ Finset.univ, q' ≠ q → (st.pausedOn q').count w = 0 := by
      intro q' _ hne
      exact count_eq_zero.2 fun hq' => hne (h.once w q' q hq' hq)
    rw [Finset.sum_eq_single q ho (fun hn => absurd (Finset.mem_univ q) hn)]
    exact nodup_iff_count_le_one.1 (h.nodup q) w
  · rw [Finset.sum_eq_zero fun q _ => count_eq_zero.2 fun hq => hw ⟨q, hq⟩]
    exact Nat.zero_le 1

/-- **Pausing and waking up are consistent** in every state that cores reach by acting only while
they are not paused.

A checker core that is not paused has something to read, so its pop trips no assertion; a core is
paused exactly when it is on a waiting list or has nothing to read; it is on at most one list, once;
and a queue somebody waits for is not empty, and popping it wakes them. -/
theorem pause_consistent {programs : List SProgram} {filterb : InstType → Bool} {ready : Int}
    {st : State} (h : Reachable programs filterb ready st) : (∀ c : Queue, st.pause c.succ = false →
      0 < st.queueSize c ∧ ∀ item, ∃ r, popFromQueue c item st = .ok (r, afterPop c st)) ∧
    (∀ w, st.pause w = true ↔ (∃ q, w ∈ st.pausedOn q) ∨ ∃ c : Queue, w = c.succ ∧ st.queueSize c = 0) ∧
    (∀ w, ∑ q, (st.pausedOn q).count w ≤ 1) ∧
    (∀ q, st.pausedOn q ≠ [] → 0 < st.queueSize q) ∧
    (∀ w q, w ∈ st.pausedOn q → ∃ k, 0 < k ∧ k ≤ st.queueSize q ∧ ((afterPop q)^[k] st).pause w = false) := by
  have hc := consistent_of_reachable h
  refine ⟨fun c hp => ?_, hc.asleep, hc.sum_count_le_one, fun q hq => ?_, fun w q hw => ?_⟩
  · have hpos : 0 < st.queueSize c := hc.hasInput hp c rfl
    exact ⟨hpos, fun item => ⟨_, popFromQueue_eq_ok.2 ⟨hp, by omega, rfl, rfl⟩⟩⟩
  · obtain ⟨w, hw⟩ := exists_mem_of_ne_nil _ hq
    exact lt_of_lt_of_le (by decide) (hc.full w q hw)
  · exact exists_pops_wake (st.queueSize q) rfl (hc.full w q hw) hw

/-- The main core has filled queue `0` and waits for it; popping queue `0` wakes it. -/
theorem pause_consistent_filled : ∃ st, Reachable fixedPrograms fixedFilter 2 st ∧ 0 ∈ st.pausedOn 0 ∧
    ∃ k, 0 < k ∧ k ≤ st.queueSize 0 ∧ ((afterPop 0)^[k] st).pause 0 = false := by
  obtain ⟨st, hr, hm⟩ := exists_reaches exec Enabled (init fixedPrograms fixedFilter 2) fillFirst
    (fun st => 0 ∈ st.pausedOn 0) (by decide +kernel)
  exact ⟨st, hr, hm, (pause_consistent hr).2.2.2.2 0 0 hm⟩

/-! ## Flushes and deadlocks -/

/-- The cores in `D` wait for room in queues that cores in `D` read. -/
def Stuck (D : Set Core) (st : State) : Prop := ∀ w ∈ D, ∃ q, w ∈ st.pausedOn q ∧ q.succ ∈ D

/-- While `flush` is set, the main core commits nothing. -/
def InFlush (st : State) (op : Op) : Prop := Enabled st op ∧ op.actor ≠ some 0

/-- It can come about that `flush` is cleared: no queue has entries. -/
def Drains (st : State) : Prop := ∃ st', Reaches exec InFlush st st' ∧ ∀ q, st'.queueSize q = 0

/-- Nothing wakes a core in `D`. -/
theorem Stuck.exec {D : Set Core} {op : Op} (h : Stuck D st) (hc : Consistent st) (hen : Enabled st op)
    (hs : exec st op = .ok st') : Stuck D st' := by
  rcases exec_cases hen hs with ⟨ps, st₁, -, -, hadd, rfl⟩ | ⟨queue, item, rfl, hp, -, rfl⟩ | ⟨-, hid⟩
  · show Stuck D st₁
    refine addAll_invariant (fun s queue h w hw => ?_) hadd h
    obtain ⟨q, hq, hr⟩ := h w hw
    exact ⟨q, mem_added_pausedOn.2 (.inl hq), hr⟩
  · intro w hw
    obtain ⟨q, hq, hr⟩ := h w hw
    refine ⟨q, mem_afterPop_pausedOn.2 ⟨hq, ?_⟩, hr⟩
    -- the core that pops is awake, so it is not in `D`
    rintro ⟨rfl, -⟩
    obtain ⟨q', hq', -⟩ := h _ hr
    exact hc.not_mem_pausedOn hp q' hq'
  · cases hid <;> exact h

/-- If nobody is stuck and there are entries, there is a core that can pop. -/
theorem Consistent.exists_awake (h : Consistent st) (hn : ∀ D, Stuck D st → D = ∅) (hq : st.queueSize q ≠ 0) :
    ∃ q', 0 < st.queueSize q' ∧ st.pause q'.succ = false := by
  by_contra! hno
  have hr : ∀ q, 0 < st.queueSize q → ∃ q', q.succ ∈ st.pausedOn q' := by
    refine fun q hpos => ((h.asleep _).1 (by simpa using hno q hpos)).resolve_right ?_
    rintro ⟨c, hc, h0⟩
    cases Fin.succ_injective _ hc
    omega
  have hall : Stuck {w | ∃ q, w ∈ st.pausedOn q} st := fun w ⟨q, hq⟩ =>
    ⟨q, hq, hr q (lt_of_lt_of_le (by decide) (h.full w q hq))⟩
  exact (hn _ hall).subset (hr q (by omega))

/-- Pops go on until no entry is left. -/
theorem drains_of_consistent (h : Consistent st) (hn : ∀ D, Stuck D st → D = ∅) : Drains st := by
  induction hsum : ∑ q, st.queueSize q using Nat.strong_induction_on generalizing st with
  | h n ih =>
    by_cases hall : ∀ q, st.queueSize q = 0
    · exact ⟨st, .refl, hall⟩
    obtain ⟨q, hq⟩ := not_forall.1 hall
    obtain ⟨q', hpos, hp⟩ := h.exists_awake hn hq
    have hlt : ∑ q, (afterPop q' st).queueSize q < n := by
      rw [← hsum, afterPop_queueSize]
      refine Finset.sum_lt_sum (fun c _ => ?_) ⟨q', Finset.mem_univ _, by rw [update_self]; omega⟩
      rw [update_apply]
      split_ifs with hc
      · exact hc ▸ Nat.sub_le _ 1
      · rfl
    have hn' : ∀ D, Stuck D (afterPop q' st) → D = ∅ := fun D hD => hn D fun w hw => by
      obtain ⟨q, hq, hr⟩ := hD w hw
      exact ⟨q, (mem_afterPop_pausedOn.1 hq).1, hr⟩
    obtain ⟨st', hrun, hdr⟩ := ih _ hlt (h.afterPop hp) hn' rfl
    have hpop : exec st (.popFromQueue q' 0) = .ok (afterPop q' st) := by
      rw [exec, popFromQueue_eq_ok.2 ⟨hp, by omega, rfl, rfl⟩, ok_bind]
    have hin : InFlush st (.popFromQueue q' 0) := by simp [InFlush, Enabled, Op.actor, hp]
    exact ⟨st', (Reaches.step .refl hin hpop).trans hrun, hdr⟩

theorem stuck_of_reaches {D : Set Core} (h : Stuck D st) (hc : Consistent st) (hrun : Reaches exec Enabled st st') :
    Consistent st' ∧ Stuck D st' :=
  hrun.invariant (P := fun st => Consistent st ∧ Stuck D st) ⟨hc, h⟩
    fun _ hi hen hs => ⟨hi.1.exec hen hs, hi.2.exec hi.1 hen hs⟩

/-- **Flushes end** unless there are cores that wait for each other, and these stay paused whatever happens. -/
theorem drains_iff {programs : List SProgram} {filterb : InstType → Bool} {ready : Int}
    (h : Reachable programs filterb ready st) : (Drains st ↔ ∀ D, Stuck D st → D = ∅) ∧
      ∀ D, Stuck D st → ∀ st', Reaches exec Enabled st st' → ∀ w ∈ D, st'.pause w = true := by
  have hc := consistent_of_reachable h
  refine ⟨⟨?_, drains_of_consistent hc⟩, fun D hD st' hrun w hw => ?_⟩
  · rintro ⟨st', hrun, hdr⟩ D hD
    obtain ⟨hc', hD'⟩ := stuck_of_reaches hD hc (hrun.mono fun _ _ hen => hen.1)
    refine Set.eq_empty_iff_forall_notMem.2 fun w hw => ?_
    obtain ⟨q, hq, -⟩ := hD' w hw
    exact absurd (hc'.full w q hq) (by rw [hdr]; decide)
  · obtain ⟨hc', hD'⟩ := stuck_of_reaches hD hc hrun
    obtain ⟨q, hq, -⟩ := hD' w hw
    exact (hc'.asleep w).2 (.inl ⟨q, hq⟩)

/-- Cores `1` and `2` fill each other's queue. -/
theorem drains_iff_eachOther : ∃ st, Reachable fixedPrograms fixedFilter 2 st ∧ Stuck {1, 2} st ∧ ¬ Drains st ∧
    ∀ st', Reaches exec Enabled st st' → st'.pause 1 = true ∧ st'.pause 2 = true := by
  obtain ⟨st, hr, h1, h2⟩ := exists_reaches exec Enabled (init fixedPrograms fixedFilter 2)
    ([.mappersReady, commitLoad 1, commitStore 1] ++ replicate 63 (.coreQueuewrite 0 1 1) ++
      replicate 63 (.coreQueuewrite 0 0 2))
    (fun st => 1 ∈ st.pausedOn 1 ∧ 2 ∈ st.pausedOn 0) (by decide +kernel)
  have hD : Stuck {1, 2} st := by
    rintro w (rfl | rfl)
    · exact ⟨1, h1, .inr rfl⟩
    · exact ⟨0, h2, .inl rfl⟩
  obtain ⟨hdr, hpause⟩ := drains_iff hr
  refine ⟨st, hr, hD, fun hd => ?_, fun st' hrun => ⟨hpause _ hD st' hrun 1 (.inl rfl), hpause _ hD st' hrun 2 (.inr rfl)⟩⟩
  exact absurd (hdr.1 hd _ hD) (Set.insert_nonempty 1 {2}).ne_empty

end GuardianCouncil.SecureLog
