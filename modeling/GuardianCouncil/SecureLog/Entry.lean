import Mathlib.Algebra.Ring.Nat
import Mathlib.Order.Fin.Basic

/-!
# Entries of the security log, and the programs that receive them

The data model of `mem/cache/securelogentry.hh`.  The main core, number `0`, commits instructions
and logs an entry for each event of interest; twelve checker cores, numbers `1` to `12`, each read
their own hardware queue.  Queues are numbered from `0`, so that the core that reads queue `q` is
core `q + 1`, `q.succ` below.

Machine integers that are only compared, incremented and used as indices (`queue_size`, the ring
positions) are natural numbers; the ones a configuration file or a kernel chooses (`map`,
`counter`, the core range) are integers, because the code relies on their signs; payloads are
`UInt64`.
-/

namespace GuardianCouncil.SecureLog

/-- The number of checker cores, and of queues. -/
abbrev NUMBEROFCHECKERCORES : Nat := 12

/-- The nominal capacity of a queue, and the modulus of its ring positions. -/
abbrev QUEUESIZE : Nat := 64

instance (priority := high) neZeroQueues : @NeZero Nat Zero.ofOfNat0 NUMBEROFCHECKERCORES :=
  ⟨Nat.succ_ne_zero _⟩

instance (priority := high) neZeroCores : @NeZero Nat Zero.ofOfNat0 (NUMBEROFCHECKERCORES + 1) :=
  ⟨Nat.succ_ne_zero _⟩

/-- A queue, numbered from zero. -/
abbrev Queue := Fin NUMBEROFCHECKERCORES

/-- A core: `0` is the main core, and `q.succ` is the checker core that reads queue `q`. -/
abbrev Core := Fin (NUMBEROFCHECKERCORES + 1)

/-- The kinds of entry, in the order of the source's `instType`. -/
inductive InstType
  | load
  | store
  | indirectBranch
  | call
  | ret
  | memflush
  | barrier
  | comms
  | block
  deriving DecidableEq

/-- The enumeration value, which is what a kernel sees when it asks for the type of an entry. -/
def InstType.toUInt64 : InstType → UInt64
  | .load => 0
  | .store => 1
  | .indirectBranch => 2
  | .call => 3
  | .ret => 4
  | .memflush => 5
  | .barrier => 6
  | .comms => 7
  | .block => 8

/-- One entry of the log.  `sender` is the source's `from`: the core that wrote the entry. -/
structure Entry where
  /-- The kind of event. -/
  insttype : InstType
  /-- The payload. -/
  data : UInt64
  /-- The second payload, the address of the instruction for a committed event. -/
  data2 : UInt64
  /-- Ticks since the previously committed instruction. -/
  time : UInt64
  /-- The core that wrote the entry. -/
  sender : Core
  /-- The tick at which the entry was made. -/
  curtick : UInt64
  deriving DecidableEq

/-- The constructor of the source, with `curTick()` passed in. -/
def Entry.new (now : UInt64) (it : InstType) (d d2 t : UInt64) : Entry :=
  { insttype := it, data := d, data2 := d2, time := t, sender := 0, curtick := now }

/-- The word of an entry that a kernel reads with item number `item`. -/
def Entry.item (s : Entry) (item : Int) : UInt64 :=
  if item = 0 then s.insttype.toUInt64
  else if item = 1 then s.data
  else if item = 2 then s.data2
  else if item = 4 then UInt64.ofNat s.sender.val
  else s.time

/-- A filter and map program: where each kind of entry goes.

`map` is `0` for "not mapped", positive for the fixed queue `map - 1`, `-1` for counter mode and
any other negative value for blocker mode. -/
structure SProgram where
  /-- What to do with each kind of entry. -/
  map : InstType → Int
  /-- The queue currently fed, in counter and blocker mode. -/
  counter : Int
  /-- The first queue of the program's range. -/
  corestart : Int
  /-- The last queue of the program's range. -/
  coreend : Int

/-- How an operation of the log can stop the simulation: the four assertions of the source, and an
array index outside its array, after which the source's behaviour is undefined. -/
inductive Fault
  /-- `add_to_queue`: the queue already holds `QUEUESIZE + NUMBEROFCHECKERCORES + 1` entries. -/
  | queueFull
  /-- `pop_from_queue`: the popping core is paused. -/
  | corePaused
  /-- `pop_from_queue`: the queue is empty. -/
  | queueEmpty
  /-- `filter`: the main core is paused. -/
  | mainPaused
  /-- An index outside its array. -/
  | outOfRange
  deriving DecidableEq

/-- An `int` used as a queue index. -/
def asQueue (i : Int) : Except Fault Queue :=
  if h : 0 ≤ i ∧ i < NUMBEROFCHECKERCORES then .ok ⟨i.toNat, by omega⟩ else .error .outOfRange

theorem asQueue_eq_ok {i : Int} {q : Queue} : asQueue i = .ok q ↔ i = (q.val : Int) := by
  rw [asQueue]
  split
  · rw [Except.ok.injEq, Fin.ext_iff]
    dsimp only
    omega
  · simp only [reduceCtorEq, false_iff]
    omega

@[simp] theorem asQueue_val (q : Queue) : asQueue (q.val : Int) = .ok q :=
  asQueue_eq_ok.2 rfl

end GuardianCouncil.SecureLog
