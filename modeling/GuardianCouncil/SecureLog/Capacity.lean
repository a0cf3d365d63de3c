import GuardianCouncil.SecureLog.Pause

/-!
# Capacity

The arrays of a queue have `QUEUESIZE + NUMBEROFCHECKERCORES + 1` elements, and the assertion of
`add_to_queue` guards that number.  The design behind it: a writer that brings a queue to
`QUEUESIZE` or beyond is paused until the queue has drained, so each of the other twelve cores can
overshoot a full queue once, and no more.

In an overfull queue every entry beyond `QUEUESIZE` then has a writer of its own on the waiting list
(`Sleepers`).  This needs what the code does not enforce: that a step which adds several entries leaves
at most one of them in a full queue, because a writer is recorded only once, and that a core does not
put into its own full queue, because the list is also emptied when exactly `QUEUESIZE` entries are left.
-/

namespace GuardianCouncil.SecureLog

open Fallible List Function

/-! ## Calls that fill a queue -/

theorem Room.mono {limit limit' : Nat} (hle : limit ≤ limit') :
    ∀ {calls : List Call} {size : Queue → Nat}, Room limit size calls → Room limit' size calls
  | [], _, _ => trivial
  | _ :: _, _, h => ⟨h.1.trans_le hle, h.2.mono hle⟩

/-- Nothing is filled exactly when every call finds fewer than `QUEUESIZE - 1` entries. -/
theorem fills_eq_nil_iff : ∀ {calls : List Call} {size : Queue → Nat},
    fills size calls = [] ↔ Room (QUEUESIZE - 1) size calls
  | [], size => by simp [fills, Room]
  | c :: cs, size => by
    have hQ : QUEUESIZE = 64 := rfl
    rw [fills, Room, append_eq_nil_iff, fills_eq_nil_iff]
    refine and_congr_left fun _ => ?_
    split <;> simp <;> omega

/-- If at most one call fills a queue, and no queue is beyond its arrays, then no call trips the
assertion. -/
theorem room_of_fills_le_one : ∀ {calls : List Call} {size : Queue → Nat},
    (∀ q, size q ≤ QUEUESIZE + NUMBEROFCHECKERCORES) → (fills size calls).length ≤ 1 →
      Room (QUEUESIZE + NUMBEROFCHECKERCORES + 1) size calls
  | [], _, _, _ => trivial
  | c :: cs, size, hsi, hf => by
    refine ⟨Nat.lt_succ_of_le (hsi c.queue), ?_⟩
    rw [fills] at hf
    split at hf
    · -- this call fills its queue, so no later one does
      have hnil : fills (update size c.queue (size c.queue + 1)) cs = [] := by
        rw [length_append, length_singleton] at hf
        exact length_eq_zero_iff.1 (by omega)
      exact (fills_eq_nil_iff.1 hnil).mono (by decide)
    · refine room_of_fills_le_one (fun q => ?_) (by simpa using hf)
      rw [update_apply]
      split
      · omega
      · exact hsi q

theorem addAll_of_room (writer : Core) : ∀ {calls : List Call} {st : State},
    Room (QUEUESIZE + NUMBEROFCHECKERCORES + 1) st.queueSize calls → ∃ st', addAll writer calls st = .ok st'
  | [], st, _ => ⟨st, rfl⟩
  | c :: cs, st, h => by
    obtain ⟨st', hadd⟩ := @addAll_of_room writer cs (added c.entry c.queue writer st) h.2
    exact ⟨st', addAll_cons_eq_ok.2 ⟨h.1.ne, hadd⟩⟩

variable {writer : Core} {st : State} {q queue : Queue} {c : Call} {size : Queue → Nat} {α : Type} {op : Op}

/-- Calls that succeed find room and leave no queue beyond its arrays. -/
theorem room_of_addAll : ∀ {calls : List Call} {st st' : State}, addAll writer calls st = .ok st' →
      (∀ q, st.queueSize q ≤ QUEUESIZE + NUMBEROFCHECKERCORES + 1) →
      Room (QUEUESIZE + NUMBEROFCHECKERCORES + 1) st.queueSize calls ∧
        ∀ q, st'.queueSize q ≤ QUEUESIZE + NUMBEROFCHECKERCORES + 1
  | [], st, st', h, hle => by
    cases h
    exact ⟨trivial, hle⟩
  | c :: cs, st, st', h, hle => by
    obtain ⟨hne, h2⟩ := addAll_cons_eq_ok.1 h
    have hlt := lt_of_le_of_ne (hle c.queue) hne
    have hle' : ∀ q, (added c.entry c.queue writer st).queueSize q ≤ QUEUESIZE + NUMBEROFCHECKERCORES + 1 :=
      (forall_update_iff _ fun _ n => n ≤ _).2 ⟨hlt, fun q _ => hle q⟩
    obtain ⟨hro, hle''⟩ := room_of_addAll h2 hle'
    exact ⟨⟨hlt, hro⟩, hle''⟩

/-- No queue is ever beyond its arrays: the assertion stops the run before. -/
theorem queueSize_le_of_reachable {programs : List SProgram} {filterb : InstType → Bool}
    {ready : Int} (h : Reachable programs filterb ready st) (q : Queue) :
    st.queueSize q ≤ QUEUESIZE + NUMBEROFCHECKERCORES + 1 := by
  refine h.invariant (P := fun st => ∀ q, st.queueSize q ≤ QUEUESIZE + NUMBEROFCHECKERCORES + 1)
    (fun _ => Nat.zero_le _) ?_ q
  intro st st' op _ hle hen hs q
  rcases exec_cases hen hs with ⟨ps, st₁, -, -, hadd, rfl⟩ | ⟨queue, item, -, -, -, rfl⟩ | ⟨-, hid⟩
  · exact (room_of_addAll hadd hle).2 q
  · rw [afterPop_queueSize, update_apply]
    split
    · exact (Nat.sub_le _ _).trans (hle _)
    · exact hle q
  · cases hid <;> exact hle q

/-! ## Counting the sleepers -/

/-- Every entry of a queue beyond `QUEUESIZE` has a writer on the waiting list, not counting the
reader of the queue itself. -/
def Sleepers (st : State) (q : Queue) : Prop :=
  st.queueSize q + (if q.succ ∈ st.pausedOn q then 1 else 0) ≤ QUEUESIZE + (st.pausedOn q).length

/-- **One add**: an entry that goes beyond `QUEUESIZE` brings its writer onto the list. -/
theorem Sleepers.added (h : Sleepers st q)
    (s : Entry) (hfresh : QUEUESIZE ≤ st.queueSize queue + 1 → st.pause writer = false)
    (hse : writer = queue.succ → st.queueSize queue < QUEUESIZE) : Sleepers (added s queue writer st) q := by
  unfold Sleepers at h ⊢
  simp only [added_queueSize, added_pausedOn]
  by_cases hq : q = queue
  · subst hq
    by_cases hfull : QUEUESIZE ≤ st.queueSize q + 1
    · simp only [hfull, hfresh hfull, and_self, if_true, update_self, mem_append,
        mem_singleton, length_append, length_singleton]
      by_cases hw : q.succ = writer
      · have := hse hw.symm
        simp only [hw, or_true, if_true]
        omega
      · simp only [hw, or_false]
        omega
    · simp only [hfull, false_and, if_false, update_self]
      split <;> omega
  · have ho : (if QUEUESIZE ≤ st.queueSize queue + 1 ∧ st.pause writer = false then
        update st.pausedOn queue (st.pausedOn queue ++ [writer])
        else st.pausedOn) q = st.pausedOn q := by
      split
      · rw [update_of_ne hq]
      · rfl
    rwa [ho, update_of_ne hq]

/-- **One pop**: the list is emptied only when at most `QUEUESIZE` entries are left. -/
theorem Sleepers.afterPop (h : Sleepers st q) : Sleepers (afterPop queue st) q := by
  unfold Sleepers at h ⊢
  rw [afterPop_queueSize, afterPop_pausedOn]
  by_cases hq : q = queue
  · subst hq
    rw [update_self]
    split
    · rename_i hro
      rwa [update_self, if_neg not_mem_nil, length_nil]
    · exact (Nat.add_le_add_right (Nat.sub_le _ _) _).trans h
  · rw [update_of_ne hq]
    split
    · rwa [update_of_ne hq]
    · exact h

/-- The calls of a step of which at most one fills a queue. -/
theorem Sleepers.addAll : ∀ {calls : List Call} {st st' : State},
    addAll writer calls st = .ok st' → (fills st.queueSize calls).length ≤ 1 →
    (fills st.queueSize calls ≠ [] → st.pause writer = false) →
    (∀ c ∈ calls, writer = c.queue.succ → calls = [c] ∧ st.queueSize c.queue < QUEUESIZE) →
    Sleepers st q → Sleepers st' q
  | [], st, st', h, _, _, _, hs => by
    cases h
    exact hs
  | c :: cs, st, st', h, hf, ha, hse, hs => by
    obtain ⟨-, h2⟩ := addAll_cons_eq_ok.1 h
    rw [fills] at hf ha
    have hs1 : Sleepers (SecureLog.added c.entry c.queue writer st) q := by
      refine hs.added c.entry (fun hc => ha ?_) fun hw =>
        (hse c mem_cons_self hw).2
      rw [if_pos hc]
      simp
    refine Sleepers.addAll h2 ?_ (fun hne => ?_) (fun c' hc' hw => ?_) hs1
    · rw [length_append] at hf
      rw [added_queueSize]
      omega
    · -- a later call fills a queue, so this one did not, and the writer is still awake
      rw [added_queueSize] at hne
      have hc : ¬ QUEUESIZE ≤ st.queueSize c.queue + 1 := by
        intro hc
        rw [if_pos hc, length_append, length_singleton] at hf
        exact hne (length_eq_zero_iff.1 (by omega))
      rw [if_neg hc, nil_append] at ha
      simp [added_pause, hc, ha hne]
    · -- a core that puts into its own queue makes no other call
      have hone := (hse c' (mem_cons_of_mem c hc') hw).1
      rw [List.cons.injEq] at hone
      exact absurd hc' (hone.2 ▸ not_mem_nil)

/-! ## Runs -/

/-- The step adds at most one entry that leaves its queue with `QUEUESIZE` entries or more, and
does not put into the writer's own queue when that is full. -/
def OvershootsOnce (st : State) (op : Op) : Prop :=
  (fills st.queueSize (op.calls st)).length ≤ 1 ∧
    ∀ c ∈ op.calls st, op.writer = c.queue.succ → st.queueSize c.queue < QUEUESIZE
deriving Decidable

theorem Plan.calls_lift_add {x : Except Fault Queue} {s : Entry} {a : α}
    (hc : c ∈ (((Plan.lift x).bind fun q => (Plan.add s q).bind fun _ => .pure a) size).1) :
    (((Plan.lift x).bind fun q => (Plan.add s q).bind fun _ => .pure a) size).1 = [c] := by
  cases x with
  | error e => exact absurd hc not_mem_nil
  | ok q =>
    cases mem_singleton.1 hc
    rfl

/-- Only `put_queue` writes in the name of a checker core, and it makes one call. -/
theorem Op.calls_of_writer (hc : c ∈ op.calls st) (hw : op.writer ≠ 0) : op.calls st = [c] := by
  cases op with
  | coreQueuewrite data target writer =>
    rw [Op.calls, Op.plan] at hc ⊢
    exact Plan.calls_lift_add hc
  | popFromQueue queue item => simp [Op.calls, Op.plan, Plan.pure] at hc
  | _ => exact absurd rfl hw

/-- Every step that overshoots at most once keeps the count. -/
theorem Sleepers.exec {st' : State} (hen : Enabled st op)
    (ho : OvershootsOnce st op) (hs : exec st op = .ok st') (h : Sleepers st q) : Sleepers st' q := by
  rcases exec_cases hen hs with ⟨ps, st₁, hact, -, hadd, rfl⟩ | ⟨queue, item, -, -, -, rfl⟩ | ⟨-, hid⟩
  · have h1 : Sleepers st₁ q := by
      refine Sleepers.addAll hadd ho.1 (fun _ => hen _ hact) (fun c hc hw => ?_) h
      exact ⟨Op.calls_of_writer hc (hw ▸ Fin.succ_ne_zero _), ho.2 c hc hw⟩
    exact h1
  · exact h.afterPop
  · cases hid <;> exact h

/-- **Thirteen cores**: a consistent queue whose overshoot is accounted for is within its
arrays. -/
theorem Sleepers.queueSize_le (h : Sleepers st q) (hc : Consistent st) :
    st.queueSize q ≤ QUEUESIZE + NUMBEROFCHECKERCORES := by
  unfold Sleepers at h
  by_cases hq : q.succ ∈ st.pausedOn q
  · have hca := (hc.nodup q).length_le_card
    rw [if_pos hq] at h
    rw [Fintype.card_fin] at hca
    omega
  · have hca := (nodup_cons.2 ⟨hq, hc.nodup q⟩).length_le_card
    rw [length_cons, Fintype.card_fin] at hca
    omega

/-! ## Which faults a plan can run into -/

/-- The only fault of the plan itself is an index out of range. -/
def Plan.OnlyRange {α : Type} (m : Plan α) : Prop :=
  ∀ size e, (m size).2 = .error e → e = .outOfRange

theorem Plan.OnlyRange.bind {β : Type} {m : Plan α} {f : α → Plan β} (hm : m.OnlyRange)
    (hf : ∀ a, (f a).OnlyRange) : (m.bind f).OnlyRange := by
  intro size e h
  rw [Plan.bind] at h
  cases hr : (m size).2 with
  | error e' =>
    rw [hr] at h
    cases h
    exact hm size e hr
  | ok a =>
    rw [hr] at h
    exact hf a _ e h

theorem onlyRange_pure (a : α) : (Plan.pure a).OnlyRange := by
  intro size e h
  cases h

theorem onlyRange_add (s : Entry) (queue : Queue) : (Plan.add s queue).OnlyRange := by
  intro size e h
  cases h

theorem onlyRange_asQueue (i : Int) : (Plan.lift (asQueue i)).OnlyRange := by
  intro size e h
  rw [Plan.lift, asQueue] at h
  split at h
  · cases h
  · cases h
    rfl

theorem nextCoreFrom_error {e : Fault} : ∀ {n : Nat} {x : Int} {limit : Nat} {nextCore : Option Queue},
      nextCoreFrom size n x limit nextCore = .error e → e = .outOfRange
  | 0, _, _, _, h => by cases h
  | n + 1, x, limit, nextCore, h => by
    rw [nextCoreFrom] at h
    cases hq : asQueue x with
    | error e' =>
      rw [hq, error_bind] at h
      cases h
      exact onlyRange_asQueue x size e hq
    | ok q =>
      rw [hq, ok_bind] at h
      split at h
      · exact nextCoreFrom_error h
      · exact nextCoreFrom_error h

theorem onlyRange_planProgram (advance : SProgram → SProgram) (now : UInt64) (s : Entry)
    (p : SProgram) : (planProgram advance now s p).OnlyRange := by
  unfold planProgram
  dsimp only
  split
  · exact onlyRange_pure p
  split
  · exact (onlyRange_asQueue _).bind fun q => (onlyRange_add s q).bind fun _ => onlyRange_pure _
  split
  · exact (onlyRange_asQueue _).bind fun q => (onlyRange_add s q).bind fun _ => onlyRange_pure _
  refine (onlyRange_asQueue _).bind fun q => (onlyRange_add s q).bind fun _ =>
    Plan.OnlyRange.bind (m := Plan.sizes) (fun _ _ h => by cases h) fun size => ?_
  split
  · refine Plan.OnlyRange.bind (fun _ _ h => nextCoreFrom_error h) fun r => ?_
    cases r with
    | none => exact onlyRange_pure p
    | some nc => exact (onlyRange_add _ q).bind fun _ => onlyRange_pure _
  · exact onlyRange_pure p

theorem onlyRange_planPrograms (advance : SProgram → SProgram) (now : UInt64) (s : Entry) :
    ∀ ps : List SProgram, (planPrograms advance now s ps).OnlyRange
  | [] => onlyRange_pure []
  | p :: ps => (onlyRange_planProgram advance now s p).bind fun _ =>
      (onlyRange_planPrograms advance now s ps).bind fun _ => onlyRange_pure _

theorem Op.onlyRange_plan (st : State) (op : Op) : (op.plan st).OnlyRange := by
  cases op with
  | filter s =>
    rw [Op.plan]
    split
    · exact onlyRange_pure _
    · exact onlyRange_planPrograms _ _ _ _
  | sendMessages data1 data2 data3 =>
    exact (onlyRange_planPrograms _ _ _ _).bind fun ps =>
      (onlyRange_planPrograms _ _ _ ps).bind fun ps => onlyRange_planPrograms _ _ _ ps
  | coreQueuewrite data target writer =>
    rw [Op.plan]
    exact (onlyRange_asQueue _).bind fun q => (onlyRange_add _ q).bind fun _ => onlyRange_pure _
  | _ => exact onlyRange_pure _

/-- A step that finds room in the arrays for all its entries does not trip the assertion of
`add_to_queue`. -/
theorem exec_ne_queueFull (hen : Enabled st op)
    (hro : Room (QUEUESIZE + NUMBEROFCHECKERCORES + 1) st.queueSize (op.calls st)) :
    exec st op ≠ .error .queueFull := by
  intro h
  cases ha : op.adds with
  | true =>
    obtain ⟨st₁, hadd⟩ := addAll_of_room op.writer hro
    rw [exec_eq ha hen, performMap, perform, show addAll _ (op.plan st st.queueSize).1 st = _
      from hadd, ok_bind, Fallible.bind_assoc] at h
    cases hr : (op.plan st st.queueSize).2 with
    | error e =>
      rw [hr, error_bind] at h
      cases h
      exact absurd (Op.onlyRange_plan st op _ _ hr) (by decide)
    | ok ps =>
      rw [hr] at h
      cases h
  | false =>
    cases op with
    | popFromQueue queue item =>
      rw [exec, popFromQueue] at h
      split at h
      · cases h
      · split at h <;> cases h
    | mappersReady => cases h
    | sampleOccupancy =>
      rw [exec, sampleOccupancy] at h
      split at h <;> cases h
    | tick now => cases h
    | _ => cases ha

/-- **The queues stay within their arrays, if no step overshoots twice.**  In every run in which
each step leaves at most one of its entries in a full queue, and no core puts into its own full
queue, a queue never holds more than `QUEUESIZE + NUMBEROFCHECKERCORES` entries; the assertion of
`add_to_queue` does not fire; and the occupancy counter of a commit cycle is inside its array. -/
theorem queue_capacity {programs : List SProgram} {filterb : InstType → Bool} {ready : Int} {st : State}
    (h : Reaches exec (fun st op => Enabled st op ∧ OvershootsOnce st op) (init programs filterb ready) st) :
    (∀ q, 0 ≤ st.queueSize q ∧ st.queueSize q ≤ QUEUESIZE + NUMBEROFCHECKERCORES) ∧
    (∀ op, Enabled st op → OvershootsOnce st op → exec st op ≠ .error .queueFull) ∧
    ∃ st', sampleOccupancy st = .ok st' := by
  have hc : Consistent st := consistent_of_reachable (h.mono fun _ _ hok => hok.1)
  have hs : ∀ q, Sleepers st q := by
    refine h.invariant (P := fun st => ∀ q, Sleepers st q) (fun q => ?_) ?_
    · simp [Sleepers, init]
    · intro st st' op _ hi hok hs q
      exact Sleepers.exec hok.1 hok.2 hs (hi q)
  have hle : ∀ q, st.queueSize q ≤ QUEUESIZE + NUMBEROFCHECKERCORES := fun q => (hs q).queueSize_le hc
  refine ⟨fun q => ⟨Nat.zero_le _, hle q⟩, fun op hen ho => ?_, ?_⟩
  · exact exec_ne_queueFull hen (room_of_fills_le_one hle ho.1)
  · rw [sampleOccupancy, if_pos fun x => Nat.lt_succ_of_le (hle x)]
    exact ⟨_, rfl⟩

/-- A core that was awake while another filled a queue takes it one entry beyond. -/
theorem queue_capacity_overshoot : ∃ st, Reaches exec (fun st op => Enabled st op ∧ OvershootsOnce st op)
      (init fixedPrograms fixedFilter 2) st ∧
    st.queueSize 0 = QUEUESIZE + 1 ∧
    (∀ q, 0 ≤ st.queueSize q ∧ st.queueSize q ≤ QUEUESIZE + NUMBEROFCHECKERCORES) ∧
    (∀ op, Enabled st op → OvershootsOnce st op → exec st op ≠ .error .queueFull) ∧
    ∃ st', sampleOccupancy st = .ok st' := by
  obtain ⟨st, hr, hsi⟩ := exists_reaches exec (fun st op => Enabled st op ∧ OvershootsOnce st op)
    (init fixedPrograms fixedFilter 2) (fillFirst ++ [.coreQueuewrite 5 0 2])
    (fun st => st.queueSize 0 = QUEUESIZE + 1) (by decide +kernel)
  exact ⟨st, hr, hsi, queue_capacity hr⟩

/-- **A writer that fills two queues waits for the first only.**  Every load goes to queues `0` and
`1`.  Core `1` keeps popping queue `0`, which wakes the main core, whose next load makes queue `1`
one longer; core `2` never pops.  After thirteen rounds queue `1` is beyond the last counter of its
occupancy row, and the main core's next load trips the assertion of `add_to_queue`. -/
theorem queue_capacity_exceeded : ∃ st, Reachable twinPrograms twinFilter 2 st ∧
    ¬ st.queueSize 1 ≤ QUEUESIZE + NUMBEROFCHECKERCORES ∧
    Enabled st (commitLoad 1) ∧ exec st (commitLoad 1) = .error .queueFull ∧
    sampleOccupancy st = .error .outOfRange :=
  exists_reaches exec Enabled (init twinPrograms twinFilter 2)
    ([.mappersReady] ++ List.replicate QUEUESIZE (commitLoad 1) ++
      (List.replicate 13 [.popFromQueue 0 1, commitLoad 1]).flatten ++ [.popFromQueue 0 1])
    (fun st => ¬ st.queueSize 1 ≤ QUEUESIZE + NUMBEROFCHECKERCORES ∧
      Enabled st (commitLoad 1) ∧ exec st (commitLoad 1) = .error .queueFull ∧
      sampleOccupancy st = .error .outOfRange) (by decide +kernel)

end GuardianCouncil.SecureLog
