import GuardianCouncil.Lib.Fallible
import GuardianCouncil.SecureLog.Entry

/-!
# The hardware queues

`add_to_queue` and `pop_from_queue`, with the back-pressure they implement between them: a writer
that fills a queue is paused and remembered in that queue's `pausedOn` list, a pop that makes room
wakes everybody on the list, and a core whose own queue runs empty is paused until something is
added to it.  One flag per core, `pause`, serves both purposes.

The static members of the source's class are the fields of one record, `State`.  Two of them are
history variables that no operation reads: `handed q` lists everything `add_to_queue` was handed
for queue `q` (the source keeps its length, `mapped_to_core[q]`), and `popped q` everything
`pop_from_queue` read out of it.

`addToQueue` and `popFromQueue` are each an assertion or two followed by a total update, `added` or
`afterPop`.  The simp lemmas say what these do to each field.
-/

namespace GuardianCouncil.SecureLog

open List Function

/-- The static state of the security log. -/
structure State where
  /-- The ring of each queue. -/
  queues : Queue → Nat → Entry
  /-- The slot the next entry is written to. -/
  queueEnd : Queue → Nat
  /-- The slot the next entry is read from. -/
  queueStart : Queue → Nat
  /-- The number of entries added and not yet popped. -/
  queueSize : Queue → Nat
  /-- The cores waiting for room in each queue. -/
  pausedOn : Queue → List Core
  /-- The cores that may not execute. -/
  pause : Core → Bool
  /-- The kinds of entry that some program maps. -/
  filterb : InstType → Bool
  /-- The filter and map programs. -/
  programs : List SProgram
  /-- Positive while some checker core has not started its kernel. -/
  ready : Int
  /-- The tick of the first pop, or zero. -/
  started : UInt64
  /-- The present tick. -/
  curTick : UInt64
  /-- The times passed to `addToHisto`, in order. -/
  delays : List UInt64
  /-- How often each queue was seen at each size, sampled once in a commit cycle. -/
  fifoOccupancy : Queue → Nat → UInt64
  /-- History: the entries `add_to_queue` was handed for each queue. -/
  handed : Queue → List Entry
  /-- History: the entries `pop_from_queue` read out of each queue. -/
  popped : Queue → List Entry

/-- The state `init` leaves behind, once the configuration file has been read into `programs`,
`filterb` and `ready`. -/
def init (programs : List SProgram) (filterb : InstType → Bool) (ready : Int) : State where
  queues := fun _ _ => Entry.new 0 .load 0 0 0
  queueEnd := fun _ => 0
  queueStart := fun _ => 0
  queueSize := fun _ => 0
  pausedOn := fun _ => []
  pause := fun c => decide (c ≠ 0)
  filterb := filterb
  programs := programs
  ready := ready
  started := 0
  curTick := 0
  delays := []
  fifoOccupancy := fun _ _ => 0
  handed := fun _ => []
  popped := fun _ => []

/-! ## Adding an entry -/

/-- Writes the entry into the ring. -/
def enqueue (s : Entry) (queue : Queue) (st : State) : State :=
  { st with
    queues := update st.queues queue
      (update (st.queues queue) (st.queueEnd queue) s)
    queueEnd := update st.queueEnd queue ((st.queueEnd queue + 1) % QUEUESIZE)
    queueSize := update st.queueSize queue (st.queueSize queue + 1)
    handed := update st.handed queue (st.handed queue ++ [s]) }

/-- Pauses the writer on a queue that has filled up, unless it is paused already. -/
def pauseWriter (queue : Queue) (writer : Core) (st : State) : State :=
  let full := QUEUESIZE ≤ st.queueSize queue ∧ st.pause writer = false
  { st with
    pause := if full then update st.pause writer true else st.pause
    pausedOn :=
      if full then update st.pausedOn queue (st.pausedOn queue ++ [writer])
      else st.pausedOn }

/-- Wakes the reader of a queue that has just stopped being empty. -/
def wakeReader (queue : Queue) (st : State) : State :=
  { st with
    pause :=
      if st.queueSize queue = 1 ∧ st.pause queue.succ = true then
        update st.pause queue.succ false
      else st.pause }

/-- What `add_to_queue` does once its assertion has passed. -/
def added (s : Entry) (queue : Queue) (writer : Core) (st : State) : State :=
  wakeReader queue (pauseWriter queue writer (enqueue { s with sender := writer } queue st))

/-- `add_to_queue`. -/
def addToQueue (s : Entry) (queue : Queue) (writer : Core) (st : State) : Except Fault State :=
  if st.queueSize queue = QUEUESIZE + NUMBEROFCHECKERCORES + 1 then .error .queueFull
  else .ok (added s queue writer st)

/-! ## Popping an entry -/

/-- Records the delay of an entry made after the first pop. -/
def recordDelay (s : Entry) (st : State) : State :=
  { st with
    delays :=
      if st.started < s.curtick then st.delays ++ [st.curTick - s.curtick] else st.delays }

/-- Reads the entry out of the ring. -/
def dequeue (queue : Queue) (st : State) : State :=
  { st with
    queueStart := update st.queueStart queue ((st.queueStart queue + 1) % QUEUESIZE)
    queueSize := update st.queueSize queue (st.queueSize queue - 1)
    popped := update st.popped queue
      (st.popped queue ++ [st.queues queue (st.queueStart queue)]) }

/-- Wakes everybody who is waiting for room in the queue, one after the other. -/
def releaseWriters (queue : Queue) (st : State) : State :=
  let room := st.queueSize queue ≤ QUEUESIZE
  { st with
    pause :=
      if room then
        (st.pausedOn queue).foldl (fun pause w => update pause w false) st.pause
      else st.pause
    pausedOn := if room then update st.pausedOn queue [] else st.pausedOn }

/-- Pauses the reader of a queue that has run empty. -/
def sleepReader (queue : Queue) (st : State) : State :=
  { st with
    pause :=
      if st.queueSize queue = 0 then update st.pause queue.succ true else st.pause }

/-- `started` is set by the first pop. -/
def markStarted (st : State) : State :=
  { st with started := if st.started = 0 then st.curTick else st.started }

/-- What `pop_from_queue` does once its assertions have passed. -/
def afterPop (queue : Queue) (st : State) : State :=
  let st := markStarted st
  sleepReader queue (releaseWriters queue (dequeue queue
    (recordDelay (st.queues queue (st.queueStart queue)) st)))

/-- `pop_from_queue`, called by core `queue.succ`. -/
def popFromQueue (queue : Queue) (item : Int) (st : State) : Except Fault (UInt64 × State) :=
  if st.pause queue.succ then .error .corePaused
  else if st.queueSize queue = 0 then .error .queueEmpty
  else .ok ((st.queues queue (st.queueStart queue)).item item, afterPop queue st)

/-! ## What an add does to each field -/

section

variable (s : Entry) (queue : Queue) (writer : Core) (st : State)

@[simp] theorem added_queues : (added s queue writer st).queues = update st.queues queue
      (update (st.queues queue) (st.queueEnd queue) { s with sender := writer }) := rfl

@[simp] theorem added_queueEnd : (added s queue writer st).queueEnd =
    update st.queueEnd queue ((st.queueEnd queue + 1) % QUEUESIZE) := rfl

@[simp] theorem added_queueStart : (added s queue writer st).queueStart = st.queueStart := rfl

@[simp] theorem added_queueSize : (added s queue writer st).queueSize =
    update st.queueSize queue (st.queueSize queue + 1) := rfl

@[simp] theorem added_handed : (added s queue writer st).handed =
    update st.handed queue (st.handed queue ++ [{ s with sender := writer }]) := rfl

@[simp] theorem added_popped : (added s queue writer st).popped = st.popped := rfl

/-- The writer is put on the waiting list exactly when the add leaves the queue full and the
writer was not waiting already. -/
theorem added_pausedOn : (added s queue writer st).pausedOn =
    if QUEUESIZE ≤ st.queueSize queue + 1 ∧ st.pause writer = false then
      update st.pausedOn queue (st.pausedOn queue ++ [writer]) else st.pausedOn := by
  simp [added, wakeReader, pauseWriter, enqueue]

/-- A flag after an add.  The two cases of the update exclude each other: an add that leaves the
queue full does not leave it with one entry. -/
theorem added_pause (w : Core) : (added s queue writer st).pause w =
    if st.queueSize queue = 0 ∧ w = queue.succ then false
    else if QUEUESIZE ≤ st.queueSize queue + 1 ∧ w = writer then true else st.pause w := by
  simp only [added, wakeReader, pauseWriter, enqueue, update_self, Nat.add_eq_right]
  by_cases hfull : QUEUESIZE ≤ st.queueSize queue + 1
  · have hne : st.queueSize queue ≠ 0 := fun h => absurd (h ▸ hfull) (by decide)
    cases hw : st.pause writer <;> by_cases h : w = writer <;> simp [hfull, hne, h, hw]
  · simp only [hfull, false_and, if_false]
    by_cases h0 : st.queueSize queue = 0
    · cases hr : st.pause queue.succ <;> by_cases h : w = queue.succ <;> simp [h0, h, hr]
    · simp [h0]

end

theorem addToQueue_eq_ok {s : Entry} {queue : Queue} {writer : Core} {st st' : State} :
    addToQueue s queue writer st = .ok st' ↔ st.queueSize queue ≠ QUEUESIZE + NUMBEROFCHECKERCORES + 1 ∧
        added s queue writer st = st' := by
  rw [addToQueue]
  split <;> simp [*]

/-! ## What a pop does to each field -/

section

variable (queue : Queue) (st : State)

@[simp] theorem afterPop_queues : (afterPop queue st).queues = st.queues := rfl

@[simp] theorem afterPop_queueEnd : (afterPop queue st).queueEnd = st.queueEnd := rfl

@[simp] theorem afterPop_queueStart : (afterPop queue st).queueStart =
    update st.queueStart queue ((st.queueStart queue + 1) % QUEUESIZE) := rfl

@[simp] theorem afterPop_queueSize : (afterPop queue st).queueSize =
    update st.queueSize queue (st.queueSize queue - 1) := rfl

@[simp] theorem afterPop_handed : (afterPop queue st).handed = st.handed := rfl

@[simp] theorem afterPop_popped : (afterPop queue st).popped = update st.popped queue
      (st.popped queue ++ [st.queues queue (st.queueStart queue)]) := rfl

/-- A pop empties the waiting list as soon as the queue holds at most `QUEUESIZE` entries. -/
theorem afterPop_pausedOn : (afterPop queue st).pausedOn =
    if st.queueSize queue - 1 ≤ QUEUESIZE then update st.pausedOn queue [] else st.pausedOn := by
  simp [afterPop, sleepReader, releaseWriters, dequeue, recordDelay, markStarted]

theorem foldl_update_false (ws : List Core) (pause : Core → Bool) (w : Core) :
    ws.foldl (fun pause w => update pause w false) pause w
      = if w ∈ ws then false else pause w := by
  induction ws generalizing pause with
  | nil => simp
  | cons v ws ih =>
    rw [foldl_cons, ih]
    by_cases h : w ∈ ws
    · simp [h]
    · by_cases hv : w = v <;> simp [h, hv]

/-- A flag after a pop: the reader is paused if nothing is left, and everybody the pop released is
awake. -/
theorem afterPop_pause (w : Core) : (afterPop queue st).pause w =
    if st.queueSize queue - 1 = 0 ∧ w = queue.succ then true
    else if st.queueSize queue - 1 ≤ QUEUESIZE ∧ w ∈ st.pausedOn queue then false else st.pause w := by
  simp only [afterPop, sleepReader, releaseWriters, dequeue, recordDelay, markStarted, update_self]
  by_cases h0 : st.queueSize queue - 1 = 0
  · by_cases h : w = queue.succ
    · simp [h0, h]
    · simp [h0, h, foldl_update_false]
  · by_cases hr : st.queueSize queue - 1 ≤ QUEUESIZE
    · rw [if_neg h0, if_pos hr, foldl_update_false]
      simp [h0, hr]
    · simp [h0, hr]

end

theorem popFromQueue_eq_ok {queue : Queue} {item : Int} {st st' : State} {r : UInt64} :
    popFromQueue queue item st = .ok (r, st') ↔ st.pause queue.succ = false ∧ st.queueSize queue ≠ 0 ∧
        (st.queues queue (st.queueStart queue)).item item = r ∧ afterPop queue st = st' := by
  rw [popFromQueue]
  cases hp : st.pause queue.succ with
  | true => simp
  | false =>
    by_cases h0 : st.queueSize queue = 0
    · simp [h0]
    · simp [h0]

end GuardianCouncil.SecureLog
