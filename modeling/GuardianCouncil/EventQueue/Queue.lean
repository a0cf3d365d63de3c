import Mathlib.Data.Prod.Lex
import GuardianCouncil.Lib.Fallible

/-!
# The simulator's event queue

`Event` and `EventQueue` of `sim/eventq.hh` and `sim/eventq.cc`.  The queue is a linked list of
linked lists: `nextBin` leads from the first event of a bin to the first event of the next one,
and `nextInBin` from an event to the one below it in the same bin.  A bin collects the events with
one time and priority.  Only the `nextBin` of the event on top of a bin is kept up to date; the
others keep whatever was written there last.

Events are the cells of a memory.  An event is known by its address, of type `ι`, and the fields
of all events are the components of `State`, next to those of the queue.  The
loops take a bound on the number of iterations.

What an event does when it is processed is not part of the queue: whatever it schedules or
deschedules is a further operation, after the `serviceOne` that unlinked it.  `serviced` is a
history field.
-/

namespace GuardianCouncil.EventQueue

open Function

/-! ## Times and priorities -/

/-- What events are ordered by: a `Tick` and a `Priority`. -/
structure Key where
  /-- The time stamp. -/
  when : UInt64
  /-- The priority, the smaller the earlier. -/
  priority : Int8

/-- `operator<`. -/
def Key.before (l r : Key) : Bool :=
  l.when < r.when || (l.when == r.when && l.priority < r.priority)

/-- `operator<=`. -/
def Key.notAfter (l r : Key) : Bool :=
  l.when < r.when || (l.when == r.when && l.priority ≤ r.priority)

/-- `operator==`. -/
def Key.same (l r : Key) : Bool := l.when == r.when && l.priority == r.priority

/-- `operator!=`. -/
def Key.differs (l r : Key) : Bool := l.when != r.when || l.priority != r.priority

/-- The four operators compare lexicographically. -/
def Key.rank (k : Key) : Nat ×ₗ Int := toLex (k.when.toNat, k.priority.toInt)

theorem Key.rank_injective : Function.Injective Key.rank := by
  intro l r h
  obtain ⟨hwh, hpr⟩ := Prod.mk.inj (toLex.injective h)
  rw [UInt64.toNat_inj] at hwh
  rw [Int8.toInt_inj] at hpr
  exact congrArg₂ Key.mk hwh hpr

instance Key.linearOrder : LinearOrder Key := LinearOrder.lift' Key.rank Key.rank_injective

variable {l r : Key}

theorem Key.lt_iff : l < r ↔ l.when.toNat < r.when.toNat ∨
      (l.when.toNat = r.when.toNat ∧ l.priority.toInt < r.priority.toInt) :=
  Prod.Lex.lt_iff

theorem Key.le_iff : l ≤ r ↔ l.when.toNat < r.when.toNat ∨
      (l.when.toNat = r.when.toNat ∧ l.priority.toInt ≤ r.priority.toInt) :=
  Prod.Lex.le_iff

@[simp] theorem Key.before_iff : l.before r = true ↔ l < r := by
  simp [Key.before, Key.lt_iff, UInt64.lt_iff_toNat_lt, Int8.lt_iff_toInt_lt, UInt64.toNat_inj]

@[simp] theorem Key.notAfter_iff : l.notAfter r = true ↔ l ≤ r := by
  simp [Key.notAfter, Key.le_iff, UInt64.lt_iff_toNat_lt, Int8.le_iff_toInt_le, UInt64.toNat_inj]

@[simp] theorem Key.same_iff : l.same r = true ↔ l = r := by
  rcases l with ⟨lw, lp⟩
  rcases r with ⟨rw', rp⟩
  simp [Key.same]

@[simp] theorem Key.differs_iff : l.differs r = true ↔ l ≠ r := by
  rcases l with ⟨lw, lp⟩
  rcases r with ⟨rw', rp⟩
  simp [Key.differs]
  tauto

/-! ## The queue -/

universe u

variable {ι : Type u}

/-- The fields of the queue and of the events. -/
structure State (ι : Type u) where
  /-- The first event of the first bin. -/
  head : Option ι
  /-- The first event of the next bin; stale in an event that is not on top of its bin. -/
  nextBin : ι → Option ι
  /-- The event below in the same bin. -/
  nextInBin : ι → Option ι
  /-- The time and priority of an event. -/
  key : ι → Key
  /-- Whether the event was last given its time by this queue. -/
  queue : ι → Bool
  /-- The flag `Scheduled`. -/
  scheduled : ι → Bool
  /-- The flag `Squashed`. -/
  squashed : ι → Bool
  /-- The flag `IsExitEvent`. -/
  isExitEvent : ι → Bool
  /-- The present time. -/
  curTick : UInt64
  /-- History: the events that `serviceOne` unlinked. -/
  serviced : List ι

/-- How an operation can stop the simulator. -/
inductive Stop
  /-- `panic("event not found!")`. -/
  | panicked
  /-- `assert(event->queue == this)`. -/
  | asserted
  | nullPointer
  /-- The bound on the iterations of a loop is used up. -/
  | outOfFuel
  deriving DecidableEq

/-- The loop with which `insert` and `remove` look for the bin of `event`; it returns `prev` and
`curr`. -/
def State.findBin (st : State ι) (event : ι) : Nat → ι → Option ι → Except Stop (ι × Option ι)
  | 0, _, _ => .error .outOfFuel
  | _ + 1, prev, none => .ok (prev, none)
  | n + 1, prev, some c =>
    if (st.key c).before (st.key event) then st.findBin event n c (st.nextBin c)
    else .ok (prev, some c)

variable [DecidableEq ι]

/-- The event's time and priority, and the queue that gives them. -/
def State.setWhen (st : State ι) (event : ι) (k : Key) : State ι :=
  { st with key := update st.key event k, queue := update st.queue event true }

/-- The assignments of `insertBefore`, which returns `event`. -/
def State.insertBefore (st : State ι) (event : ι) (curr : Option ι) : State ι :=
  match curr with
  | none =>
    { st with
      nextBin := update st.nextBin event none
      nextInBin := update st.nextInBin event none }
  | some c =>
    if (st.key event).before (st.key c) then
      { st with
        nextBin := update st.nextBin event (some c)
        nextInBin := update st.nextInBin event none }
    else
      { st with
        nextBin := update st.nextBin event (st.nextBin c)
        nextInBin := update st.nextInBin event (some c) }

def State.insert (st : State ι) (n : Nat) (event : ι) : Except Stop (State ι) :=
  match st.head with
  | none => .ok { st.insertBefore event none with head := some event }
  | some h =>
    if (st.key event).notAfter (st.key h) then
      .ok { st.insertBefore event (some h) with head := some event }
    else do
      let (prev, curr) ← st.findBin event n h (st.nextBin h)
      let st := st.insertBefore event curr
      .ok { st with nextBin := update st.nextBin prev (some event) }

/-- The loop of `removeItem`; it returns `curr` when `event` is the one below it. -/
def State.findInBin (st : State ι) (event : ι) : Nat → ι → Option ι → Except Stop ι
  | 0, _, _ => .error .outOfFuel
  | n + 1, curr, next =>
    if next = some event then .ok curr
    else
      match next with
      | none => .error .panicked
      | some e => st.findInBin event n e (st.nextInBin e)

/-- `removeItem`: the new top of the bin, or of the next one if the bin is empty now. -/
def State.removeItem (st : State ι) (n : Nat) (event top : ι) : Except Stop (Option ι × State ι) :=
  if event = top then
    match st.nextInBin top with
    | none => .ok (st.nextBin top, st)
    | some next =>
      .ok (some next, { st with nextBin := update st.nextBin next (st.nextBin top) })
  else do
    let curr ← st.findInBin event n top (st.nextInBin top)
    .ok (some top, { st with nextInBin := update st.nextInBin curr (st.nextInBin event) })

def State.remove (st : State ι) (n : Nat) (event : ι) : Except Stop (State ι) :=
  match st.head with
  | none => .error .panicked
  | some h =>
    if st.queue event = false then .error .asserted
    else if (st.key h).same (st.key event) then do
      let (top, st) ← st.removeItem n event h
      .ok { st with head := top }
    else do
      let (prev, curr) ← st.findBin event n h (st.nextBin h)
      match curr with
      | none => .error .panicked
      | some c =>
        if (st.key c).differs (st.key event) then .error .panicked
        else do
          let (top, st) ← st.removeItem n event c
          .ok { st with nextBin := update st.nextBin prev top }

/-- The unlinking at the beginning of `serviceOne`. -/
def State.unlinkHead (st : State ι) (event : ι) : State ι :=
  match st.nextInBin event with
  | some next =>
    { st with nextBin := update st.nextBin next (st.nextBin event), head := some next }
  | none => { st with head := st.nextBin event }

/-- `EventQueue::serviceOne`, up to what the event itself does: the exit event, if it is one, and
the state. -/
def State.serviceOne (st : State ι) : Except Stop (Option ι × State ι) :=
  match st.head with
  | none => .error .nullPointer
  | some event =>
    let st := { st.unlinkHead event with
      scheduled := update st.scheduled event false
      serviced := st.serviced ++ [event] }
    if st.squashed event then
      .ok (none, { st with squashed := update st.squashed event false })
    else
      .ok (if st.isExitEvent event then some event else none, { st with curTick := (st.key event).when })

/-! ## Operations -/

/-- What is done to a queue. -/
inductive Op (ι : Type u)
  /-- An event is given its time and priority and inserted. -/
  | insert (event : ι) (k : Key)
  | remove (event : ι)
  /-- The first event is taken. -/
  | serviceOne

/-- One operation; `n` bounds the iterations of its loops. -/
def State.step (n : Nat) (st : State ι) : Op ι → Except Stop (State ι)
  | .insert event k => (st.setWhen event k).insert n event
  | .remove event => st.remove n event
  | .serviceOne => do
    let (_, st) ← st.serviceOne
    .ok st

/-- A sequence of operations. -/
def State.run (n : Nat) (st : State ι) : List (Op ι) → Except Stop (State ι)
  | [] => .ok st
  | op :: ops => do
    let st ← st.step n op
    st.run n ops

end GuardianCouncil.EventQueue
