import GuardianCouncil.SecureLog.Pause

/-!
# When back-pressure is released

A writer is paused because it has filled a queue, and it should stay paused until there is room
again in every queue it has filled.  What was filled by the step that paused a core is not part of
the source's state, so runs are *watched* here: `watch` performs an operation and notes, for a core
that the operation pauses, the queues which that operation left with `QUEUESIZE` entries or more.

Two things make the release too early (`released_early`).  A step of the main core can fill several
queues, but the core is put on the waiting list of the first only; and a pop releases everybody as soon
as at most `QUEUESIZE` entries are left, which still is a full queue.  `Orderly` excludes the two.
-/

namespace GuardianCouncil.SecureLog

open Fallible List Function

/-! ## Watched runs -/

/-- A state of the log, with the queues each core had filled when it was last paused. -/
structure Watched where
  st : State
  /-- The queues that the step which last paused the core had filled. -/
  filled : Core → Finset Queue

/-- The queues that a step from `st` to `st'` added to and left with `QUEUESIZE` entries or
more. -/
def filledBy (st st' : State) : Finset Queue :=
  Finset.univ.filter fun q =>
    (st.handed q).length < (st'.handed q).length ∧ QUEUESIZE ≤ st'.queueSize q

/-- Performs an operation and notes what it filled. -/
def watch (ws : Watched) (op : Op) : Except Fault Watched := do
  let st' ← exec ws.st op
  .ok { st := st'
        filled := fun w =>
          if ws.st.pause w = false ∧ st'.pause w = true then filledBy ws.st st' else ws.filled w }

/-- Before the first step no core has filled anything. -/
def Watched.init (programs : List SProgram) (filterb : InstType → Bool) (ready : Int) : Watched :=
  ⟨SecureLog.init programs filterb ready, fun _ => ∅⟩

variable {op : Op} {ws ws' : Watched} {q : Queue} {writer : Core}

theorem watch_eq_ok : watch ws op = .ok ws' ↔ ∃ st', exec ws.st op = .ok st' ∧ ws' = ⟨st', fun w =>
        if ws.st.pause w = false ∧ st'.pause w = true then filledBy ws.st st'
        else ws.filled w⟩ := by
  rw [watch, bind_eq_ok]
  refine exists_congr fun st' => and_congr_right fun _ => ?_
  rw [Except.ok.injEq, eq_comm]

/-! ## What a list of calls fills -/

/-- A core that the calls put on a waiting list is their writer, and waits for a queue that they
have filled. -/
theorem mem_pausedOn_of_addAll {w : Core} : ∀ {calls : List Call} {st st' : State}, addAll writer calls st = .ok st' →
      w ∈ st'.pausedOn q → w ∈ st.pausedOn q ∨ (w = writer ∧ q ∈ fills st.queueSize calls)
  | [], st, st', h, hw => by
    cases h
    exact .inl hw
  | c :: cs, st, st', h, hw => by
    obtain ⟨-, h2⟩ := addAll_cons_eq_ok.1 h
    rw [fills, mem_append]
    rcases mem_pausedOn_of_addAll h2 hw with hw | ⟨rfl, hq⟩
    · rcases mem_added_pausedOn.1 hw with hw | ⟨rfl, rfl, hfull, -⟩
      · exact .inl hw
      · exact .inr ⟨rfl, .inl (by rw [if_pos hfull]; exact mem_singleton_self _)⟩
    · exact .inr ⟨rfl, .inr hq⟩

/-- A queue that the calls add to and leave full is one of those they fill. -/
theorem mem_fills_of_full : ∀ {calls : List Call} {size : Queue → Nat},
    (∃ c ∈ calls, c.queue = q) → QUEUESIZE ≤ sizeAfter size calls q → q ∈ fills size calls
  | [], _, hc, _ => by
    obtain ⟨c, hc, -⟩ := hc
    exact absurd hc not_mem_nil
  | c :: cs, size, hc, hfull => by
    rw [fills, mem_append]
    rw [sizeAfter_cons] at hfull
    by_cases hla : ∃ c' ∈ cs, c'.queue = q
    · exact .inr (mem_fills_of_full hla hfull)
    -- this is the last call for the queue, so it leaves the final size
    left
    obtain ⟨c', hc', rfl⟩ := hc
    rcases mem_cons.1 hc' with rfl | hc'
    · have hn : cs.countP (fun c => c.queue = c'.queue) = 0 := by
        rw [countP_eq_zero]
        exact fun c hc => by simpa using fun he => hla ⟨c, hc, he⟩
      rw [sizeAfter, hn, update_self, add_zero] at hfull
      rw [if_pos hfull]
      exact mem_singleton_self _
    · exact absurd ⟨c', hc', rfl⟩ hla

theorem mem_fills_of_mem_filledBy {calls : List Call} {st st' : State}
    (hadd : addAll writer calls st = .ok st') (hq : q ∈ filledBy st st') : q ∈ fills st.queueSize calls := by
  obtain ⟨hsi, hh, -⟩ := addAll_fields hadd
  obtain ⟨hg, hfull⟩ := (Finset.mem_filter.1 hq).2
  refine mem_fills_of_full ?_ (hsi ▸ hfull)
  rw [hh q, length_append, handedBy, length_map] at hg
  obtain ⟨c, hc⟩ := exists_mem_of_length_pos (Nat.pos_of_lt_add_right hg)
  obtain ⟨hc, he⟩ := mem_filter.1 hc
  exact ⟨c, hc, by simpa using he⟩

/-! ## Orderly runs -/

/-- The operation fills at most one queue, and does not pop a queue with `QUEUESIZE + 1` entries
that somebody waits for. -/
def Orderly (st : State) (op : Op) : Prop :=
  (∀ q ∈ fills st.queueSize (op.calls st), ∀ q' ∈ fills st.queueSize (op.calls st), q = q') ∧
    ∀ queue ∈ op.pops, st.queueSize queue = QUEUESIZE + 1 → st.pausedOn queue = []
deriving Decidable

/-- A waiting core has filled at most the queue it waits for. -/
def WaitsForFilled (ws : Watched) : Prop :=
  ∀ w q, w ∈ ws.st.pausedOn q → ∀ q' ∈ ws.filled w, q' = q

theorem WaitsForFilled.watch (h : WaitsForFilled ws)
    (hc : Consistent ws.st) (hen : Enabled ws.st op) (hord : Orderly ws.st op)
    (hs : watch ws op = .ok ws') : WaitsForFilled ws' := by
  obtain ⟨st', hex, rfl⟩ := watch_eq_ok.1 hs
  have hc' := hc.exec hen hex
  -- a core that was waiting before the step keeps its note
  have hold : ∀ w q, w ∈ ws.st.pausedOn q → ∀ q' ∈
      (if ws.st.pause w = false ∧ st'.pause w = true then filledBy ws.st st' else ws.filled w),
      q' = q := by
    intro w q hw q' hq'
    rw [if_neg (by simp [(hc.asleep w).2 (.inl ⟨q, hw⟩)])] at hq'
    exact h w q hw q' hq'
  intro w q hw
  rcases exec_cases hen hex with ⟨ps, st₁, hact, -, hadd, rfl⟩ | ⟨queue, item, -, -, -, rfl⟩ | ⟨-, hid⟩
  · rcases mem_pausedOn_of_addAll hadd hw with hw' | ⟨rfl, hf⟩
    · exact hold w q hw'
    -- the writer was awake and is now on the list of `q`: this step paused it
    intro q' hq'
    dsimp only at hq'
    rw [if_pos ⟨hen _ hact, (hc'.asleep _).2 (.inl ⟨q, hw⟩)⟩] at hq'
    exact hord.1 q' (mem_fills_of_mem_filledBy hadd hq') q hf
  · exact hold w q (mem_afterPop_pausedOn.1 hw).1
  · exact hold w q (by cases hid <;> exact hw)

/-- **Back-pressure is not released early in orderly runs.**  When a pop lowers the flag of a
writer, each queue that the writer had filled in the step that paused it holds fewer than
`QUEUESIZE` entries, so its next entry for any of them does not take that queue beyond
`QUEUESIZE`. -/
theorem release_not_early {programs : List SProgram} {filterb : InstType → Bool} {ready : Int} {ws : Watched}
    (h : Reaches watch (fun ws op => Enabled ws.st op ∧ Orderly ws.st op) (Watched.init programs filterb ready) ws)
    {queue : Queue} {item : Int} (hord : Orderly ws.st (.popFromQueue queue item)) {r : UInt64}
    {st' : State} (hpop : popFromQueue queue item ws.st = .ok (r, st')) {w : Core}
    (hw : ws.st.pause w = true) (hw' : st'.pause w = false) {q : Queue} (hq : q ∈ ws.filled w) :
    st'.queueSize q < QUEUESIZE ∧ ∀ s, (added s q w st').queueSize q ≤ QUEUESIZE := by
  have hc : ∀ {ws}, Reaches watch (fun ws op => Enabled ws.st op ∧ Orderly ws.st op)
      (Watched.init programs filterb ready) ws → Consistent ws.st := fun h =>
    consistent_of_reachable (Reaches.map Watched.st
      (fun _ _ _ hs => by obtain ⟨st', hex, rfl⟩ := watch_eq_ok.1 hs; exact hex)
      (h.mono fun _ _ hok => hok.1))
  have hinv : WaitsForFilled ws := by
    refine h.invariant (P := WaitsForFilled) ?_ fun hr hi hok hs =>
      hi.watch (hc hr) hok.1 hok.2 hs
    intro w q hw
    exact absurd hw not_mem_nil
  obtain ⟨-, hne, -, rfl⟩ := popFromQueue_eq_ok.1 hpop
  -- the only way to lower the flag of a paused core is to release it from this queue's list
  rw [afterPop_pause] at hw'
  have hrel : ws.st.queueSize queue - 1 ≤ QUEUESIZE ∧ w ∈ ws.st.pausedOn queue := by
    by_contra hn
    rw [if_neg hn, hw] at hw'
    split at hw' <;> cases hw'
  obtain rfl := hinv w queue hrel.2 q hq
  have hsi : ws.st.queueSize q ≠ QUEUESIZE + 1 := fun he =>
    ne_nil_of_mem hrel.2 (hord.2 q rfl he)
  rw [afterPop_queueSize, update_self]
  refine ⟨by omega, fun s => ?_⟩
  rw [added_queueSize, update_self, afterPop_queueSize, update_self]
  omega

/-- The main core fills a queue and waits; the pop that wakes it makes room in the queue. -/
theorem release_not_early_filled : ∃ ws st' r, Reaches watch (fun ws op => Enabled ws.st op ∧ Orderly ws.st op)
      (Watched.init fixedPrograms fixedFilter 2) ws ∧
    popFromQueue 0 1 ws.st = .ok (r, st') ∧ ws.st.pause 0 = true ∧ st'.pause 0 = false ∧
    0 ∈ ws.filled 0 ∧
    st'.queueSize 0 < QUEUESIZE ∧ ∀ s, (added s 0 0 st').queueSize 0 ≤ QUEUESIZE := by
  obtain ⟨ws, hr, hord, hp1, hne, hp, hp', hq⟩ := exists_reaches watch
    (fun ws op => Enabled ws.st op ∧ Orderly ws.st op) (Watched.init fixedPrograms fixedFilter 2)
    fillFirst
    (fun ws => Orderly ws.st (.popFromQueue 0 1) ∧ ws.st.pause 1 = false ∧
      ws.st.queueSize 0 ≠ 0 ∧ ws.st.pause 0 = true ∧ (afterPop 0 ws.st).pause 0 = false ∧
      0 ∈ ws.filled 0) (by decide +kernel)
  have hpop : popFromQueue 0 1 ws.st = .ok (_, afterPop 0 ws.st) := popFromQueue_eq_ok.2 ⟨hp1, hne, rfl, rfl⟩
  exact ⟨ws, _, _, hr, hpop, hp, hp', hq, release_not_early hr hord hpop hp hp' hq⟩

/-- What the step fills is read by cores of lower rank than its writer. -/
abbrev Descends (rank : Core → ℕ) (st : State) (op : Op) : Prop :=
  Enabled st op ∧ ∀ q ∈ fills st.queueSize (op.calls st), rank q.succ < rank op.writer

/-- **Flushes end** if the cores have ranks such that they only wait for cores of lower rank. -/
theorem drains_of_descends {programs : List SProgram} {filterb : InstType → Bool} {ready : Int} {rank : Core → ℕ}
    {st : State} (h : Reaches exec (Descends rank) (init programs filterb ready) st) : Drains st := by
  have hlt := h.invariant (P := fun st => ∀ w q, w ∈ st.pausedOn q → rank q.succ < rank w) (by simp [init])
    fun _ hi hen hs w q hw => by
      rcases exec_cases hen.1 hs with ⟨ps, st₁, -, -, hadd, rfl⟩ | ⟨queue, item, -, -, -, rfl⟩ | ⟨-, hid⟩
      · rcases mem_pausedOn_of_addAll hadd hw with hw' | ⟨rfl, hf⟩
        · exact hi w q hw'
        · exact hen.2 q hf
      · exact hi w q (mem_afterPop_pausedOn.1 hw).1
      · exact hi w q (by cases hid <;> exact hw)
  refine drains_of_consistent (consistent_of_reachable (h.mono fun _ _ hen => hen.1)) fun D hD => ?_
  refine Set.eq_empty_iff_forall_notMem.2 fun w => ?_
  induction w using (measure rank).wf.induction with
  | h w ih =>
    intro hw
    obtain ⟨q, hq, hr⟩ := hD w hw
    exact ih _ (hlt w q hq) hr

/-- Core `2` has filled the queue of core `1`. -/
theorem drains_of_descends_filled : ∃ st, 2 ∈ st.pausedOn 0 ∧ Drains st := by
  obtain ⟨st, hr, hm⟩ := exists_reaches exec (Descends Fin.val) (init fixedPrograms fixedFilter 2)
    ([.mappersReady, commitStore 7] ++ replicate 64 (.coreQueuewrite 5 0 2)) (fun st => 2 ∈ st.pausedOn 0)
    (by decide +kernel)
  exact ⟨st, hm, drains_of_descends hr⟩

/-! ## Early releases -/

/-- Some run ends with a pop of `queue` that wakes the main core although queue `q`, which the
main core had filled in the step that paused it, is still full. -/
def ReleasesEarly (programs : List SProgram) (filterb : InstType → Bool) (ready : Int) (queue q : Queue) : Prop :=
  ∃ ws r st', Reaches watch (fun ws op => Enabled ws.st op)
      (Watched.init programs filterb ready) ws ∧
    popFromQueue queue 1 ws.st = .ok (r, st') ∧ ws.st.pause 0 = true ∧ st'.pause 0 = false ∧
    q ∈ ws.filled 0 ∧ ¬ st'.queueSize q < QUEUESIZE

theorem releasesEarly_of_run {programs : List SProgram} {filterb : InstType → Bool} {ready : Int}
    {queue : Queue} (ops : List Op)
    (h : (runChecked watch (fun ws op => Enabled ws.st op) (Watched.init programs filterb ready)
      ops).any (fun ws => decide (ws.st.pause queue.succ = false ∧ ws.st.queueSize queue ≠ 0 ∧
        ws.st.pause 0 = true ∧ (afterPop queue ws.st).pause 0 = false ∧ q ∈ ws.filled 0 ∧
        ¬ (afterPop queue ws.st).queueSize q < QUEUESIZE)) = true) : ReleasesEarly programs filterb ready queue q := by
  obtain ⟨ws, hr, hp, hne, hre⟩ := exists_reaches watch (fun ws op => Enabled ws.st op) _ ops _ h
  exact ⟨ws, _, _, hr, popFromQueue_eq_ok.2 ⟨hp, hne, rfl, rfl⟩, hre⟩

/-- **Back-pressure can be released early**, in two ways.  A load that fills queues `0` and `1`
pauses the main core on queue `0` only, and a pop of queue `0` wakes it while queue `1` is full.
And when core `2` has put one more word into the full queue `0`, a pop leaves `QUEUESIZE` entries
there and wakes both. -/
theorem released_early : ReleasesEarly twinPrograms twinFilter 2 0 1 ∧
    ReleasesEarly fixedPrograms fixedFilter 2 0 0 := by
  constructor
  · exact releasesEarly_of_run (.mappersReady :: List.replicate QUEUESIZE (commitLoad 1)) (by decide +kernel)
  · exact releasesEarly_of_run (fillFirst ++ [.coreQueuewrite 5 0 2]) (by decide +kernel)

end GuardianCouncil.SecureLog
