import GuardianCouncil.SecureLog.Map

/-!
# Runs of the log

The thirteen cores interleave freely, and what they do to the log is a sequence of operations: the
main core commits an instruction (`filter`) or executes `message_send_3` (`sendMessages`), some
core executes `put_queue` (`coreQueuewrite`), a checker core executes `pop_queue`
(`popFromQueue`).  Three more operations belong to no core: the last kernel starts and the mappers
become ready, a commit cycle samples the queue sizes, and time passes.

`Enabled` is the discipline the processor models enforce: a core acts only while its own `pause` flag
is down.
-/

namespace GuardianCouncil.SecureLog

/-- An operation on the log. -/
inductive Op
  /-- The main core logs a committed event. -/
  | filter (s : Entry)
  /-- The main core sends three words. -/
  | sendMessages (data1 data2 data3 : UInt64)
  /-- Core `writer` puts a word into queue `target`. -/
  | coreQueuewrite (data target : UInt64) (writer : Core)
  /-- Core `queue.succ` pops its queue, asking for word `item`. -/
  | popFromQueue (queue : Queue) (item : Int)
  /-- Every checker core has started its kernel. -/
  | mappersReady
  /-- A commit cycle samples the sizes of the queues. -/
  | sampleOccupancy
  /-- Time passes. -/
  | tick (now : UInt64)
  deriving DecidableEq

/-- Performs one operation. -/
def exec (st : State) : Op → Except Fault State
  | .filter s => filter s st
  | .sendMessages data1 data2 data3 => sendMessages data1 data2 data3 st
  | .coreQueuewrite data target writer => coreQueuewrite data target writer st
  | .popFromQueue queue item => do
    let (_, st) ← popFromQueue queue item st
    .ok st
  | .mappersReady => .ok { st with ready := 0 }
  | .sampleOccupancy => sampleOccupancy st
  | .tick now => .ok { st with curTick := now }

/-- The core that performs the operation, if any does. -/
def Op.actor : Op → Option Core
  | .filter _ => some 0
  | .sendMessages _ _ _ => some 0
  | .coreQueuewrite _ _ writer => some writer
  | .popFromQueue queue _ => some queue.succ
  | .mappersReady => none
  | .sampleOccupancy => none
  | .tick _ => none

/-- The queue that the operation pops, if any. -/
def Op.pops : Op → Option Queue
  | .popFromQueue queue _ => some queue
  | _ => none

/-- A core acts only while it is not paused. -/
def Enabled (st : State) (op : Op) : Prop := ∀ c ∈ op.actor, st.pause c = false
deriving Decidable

/-- The states of a log that was configured with the given programs. -/
abbrev Reachable (programs : List SProgram) (filterb : InstType → Bool) (ready : Int) : State → Prop :=
  Fallible.Reaches exec Enabled (init programs filterb ready)

/-! ## Concrete runs -/

/-- A configuration with one program on two cores: loads go to the first, stores to the second.
The configuration file is `2` and `120000000`. -/
def fixedPrograms : List SProgram :=
  [{ map := fun it => match it with | .load => 1 | .store => 2 | _ => 0
     counter := 0, corestart := 0, coreend := 1 }]

def fixedFilter : InstType → Bool
  | .load => true
  | .store => true
  | _ => false

/-- The main core commits a load, or a store, of address `d`. -/
def commitLoad (d : UInt64) : Op := .filter (Entry.new 0 .load d 0 0)

@[inherit_doc commitLoad]
def commitStore (d : UInt64) : Op := .filter (Entry.new 0 .store d 0 0)

/-- The kernels start, core `2` is given something to read, and the main core fills queue `0`. -/
def fillFirst : List Op :=
  [.mappersReady, commitStore 7] ++ List.replicate QUEUESIZE (commitLoad 1)

/-- Two programs of one core each that both take every load: the configuration file is `1`,
`-00000000`, `1`, `-00000000`. -/
def twinPrograms : List SProgram :=
  [{ map := fun it => if it = .load then -1 else 0, counter := 0, corestart := 0, coreend := 0 },
   { map := fun it => if it = .load then -1 else 0, counter := 1, corestart := 1, coreend := 1 }]

def twinFilter (it : InstType) : Bool := it = .load

end GuardianCouncil.SecureLog
