import GuardianCouncil.SecureLog.Queue

/-!
# Filtering and mapping

`filter` drops the kinds of entry that no program wants and hands the others to `map`, which
offers the entry to every program in turn.  A program sends it to a fixed queue, to the queues of
its range in rotation (counter mode), or to one queue of its range until that queue is nearly full
(blocker mode).  In blocker mode the change of queue is announced by a `Block` entry at the end of
the old queue, whose payload is the number of the new one.

`map_before` is `map` without the rotation of counter mode, for the first two of the three messages
that `send_messages` sends.  Both write as core `0`, the main core.
-/

namespace GuardianCouncil.SecureLog

/-! ## Choosing the next core of a program in blocker mode -/

/-- The loop of `getNextCore`, with `n` cores from `x` on still to be looked at. -/
def nextCoreFrom (size : Queue → Nat) : Nat → Int → Nat → Option Queue → Except Fault (Option Queue)
  | 0, _, _, nextCore => .ok nextCore
  | n + 1, x, limit, nextCore => do
    let q ← asQueue x
    if size q < limit then nextCoreFrom size n (x + 1) (size q) (some q)
    else nextCoreFrom size n (x + 1) limit nextCore

/-- `getNextCore`: the emptiest queue of the program's range, if any holds fewer than `limit`
entries.  The source's `-1` is `none`. -/
def getNextCore (limit : Nat) (s : SProgram) (size : Queue → Nat) : Except Fault (Option Queue) :=
  nextCoreFrom size (s.coreend - s.corestart + 1).toNat s.corestart limit none

/-! ## One program -/

/-- The rotation of counter mode. -/
def advanceCounter (p : SProgram) : SProgram :=
  { p with counter := if p.counter + 1 > p.coreend then p.corestart else p.counter + 1 }

/-- The body of the loop of `map` and `map_before`: what one program does with an entry.  The
parameter `advance` is what counter mode does to the program after adding. -/
def mapProgram (advance : SProgram → SProgram) (s : Entry) (p : SProgram) (st : State) :
    Except Fault (SProgram × State) :=
  let val := p.map s.insttype
  if val = 0 then .ok (p, st)
  else if 0 < val then do
    let q ← asQueue (val - 1)
    let st ← addToQueue s q 0 st
    .ok (p, st)
  else if val = -1 then do
    let q ← asQueue p.counter
    let st ← addToQueue s q 0 st
    .ok (advance p, st)
  else do
    let q ← asQueue p.counter
    let st ← addToQueue s q 0 st
    if QUEUESIZE - 2 ≤ st.queueSize q then
      match ← getNextCore (QUEUESIZE / 2) p st.queueSize with
      | none => .ok (p, st)
      | some newcore =>
        let st ← addToQueue (Entry.new st.curTick .block (UInt64.ofNat newcore.val) 0 0) q 0 st
        .ok ({ p with counter := newcore.val }, st)
    else .ok (p, st)

/-- The loop over the programs, which updates each program in place. -/
def mapPrograms (advance : SProgram → SProgram) (s : Entry) :
    List SProgram → State → Except Fault (List SProgram × State)
  | [], st => .ok ([], st)
  | p :: ps, st => do
    let (p, st) ← mapProgram advance s p st
    let (ps, st) ← mapPrograms advance s ps st
    .ok (p :: ps, st)

/-- The state with the programs moved on. -/
def withPrograms (ps : List SProgram) (st : State) : State := { st with programs := ps }

/-- The common form of `map` and `map_before`. -/
def mapWith (advance : SProgram → SProgram) (s : Entry) (st : State) : Except Fault State := do
  let (ps, st) ← mapPrograms advance s st.programs st
  .ok (withPrograms ps st)

def map (s : Entry) (st : State) : Except Fault State := mapWith advanceCounter s st

/-- `map_before`. -/
def mapBefore (s : Entry) (st : State) : Except Fault State := mapWith id s st

/-! ## The entry points -/

def filter (s : Entry) (st : State) : Except Fault State :=
  if st.filterb s.insttype = false then .ok st
  else if 0 < st.ready then .ok st
  else if st.pause 0 then .error .mainPaused
  else map s st

/-- `send_messages`, whose thread argument is not used. -/
def sendMessages (data1 data2 data3 : UInt64) (st : State) : Except Fault State := do
  let q1 := Entry.new st.curTick .comms data1 0 0
  let q2 := Entry.new st.curTick .comms data2 0 0
  let q3 := Entry.new st.curTick .comms data3 0 0
  let st ← mapBefore q1 st
  let st ← mapBefore q2 st
  map q3 st

/-- The conversion of a `uint64_t` argument to an `int` parameter. -/
def toInt32 (x : UInt64) : Int := (x.toNat : Int).bmod (2 ^ 32)

/-- `core_queuewrite`: core `writer` puts a word into the queue of another core. -/
def coreQueuewrite (data target : UInt64) (writer : Core) (st : State) : Except Fault State := do
  let q ← asQueue (toInt32 target)
  addToQueue (Entry.new st.curTick .comms data 0 0) q writer st

/-- `message_rcv_3`: three pops in one instruction, of the payload word. -/
def messageRcv3 (queue : Queue) (st : State) : Except Fault ((UInt64 × UInt64 × UInt64) × State) := do
  let (x0, st) ← popFromQueue queue 1 st
  let (x1, st) ← popFromQueue queue 1 st
  let (x2, st) ← popFromQueue queue 1 st
  .ok ((x0, x1, x2), st)

/-- The sampling at the head of each commit cycle: `fifo_occupancy[x][queue_size[x]]++` for every
queue, in an array of `QUEUESIZE + NUMBEROFCHECKERCORES + 1` counters each. -/
def sampleOccupancy (st : State) : Except Fault State :=
  if ∀ x : Queue, st.queueSize x < QUEUESIZE + NUMBEROFCHECKERCORES + 1 then
    .ok { st with
      fifoOccupancy := fun x =>
        Function.update (st.fifoOccupancy x) (st.queueSize x)
          (st.fifoOccupancy x (st.queueSize x) + 1) }
  else .error .outOfRange

/-! ## What `getNextCore` finds -/

/-- The loop returns what it was given, or a queue it has looked at and found below the limit. -/
theorem nextCoreFrom_spec {size : Queue → Nat} : ∀ {n : Nat} {x : Int} {limit : Nat} {nextCore r : Option Queue},
      nextCoreFrom size n x limit nextCore = .ok r →
      r = nextCore ∨ ∃ q : Queue, r = some q ∧ x ≤ q.val ∧ (q.val : Int) < x + n ∧ size q < limit
  | 0, x, limit, nextCore, r, h => by
    cases h
    exact .inl rfl
  | n + 1, x, limit, nextCore, r, h => by
    rw [nextCoreFrom] at h
    obtain ⟨q, hq, h⟩ := Fallible.bind_eq_ok.1 h
    rw [asQueue_eq_ok] at hq
    split_ifs at h with hlt
    · rcases nextCoreFrom_spec h with rfl | ⟨q', rfl, hx, hn, hs⟩
      · exact .inr ⟨q, rfl, by omega, by omega, hlt⟩
      · exact .inr ⟨q', rfl, by omega, by push_cast; omega, by omega⟩
    · rcases nextCoreFrom_spec h with rfl | ⟨q', rfl, hx, hn, hs⟩
      · exact .inl rfl
      · exact .inr ⟨q', rfl, by omega, by push_cast; omega, hs⟩

/-- What `getNextCore` finds is a queue of the program's range that is below the limit. -/
theorem getNextCore_some {limit : Nat} {s : SProgram} {size : Queue → Nat} {q : Queue}
    (h : getNextCore limit s size = .ok (some q)) :
    s.corestart ≤ q.val ∧ (q.val : Int) ≤ s.coreend ∧ size q < limit := by
  rcases nextCoreFrom_spec h with h | ⟨q', hq', hx, hn, hs⟩
  · cases h
  · cases hq'
    omega

end GuardianCouncil.SecureLog
