import GuardianCouncil.SecureLog.Run

/-!
# What one step adds, and where

`map` decides where an entry goes while it is adding: in blocker mode the decision depends on the
size of the queue it has just written to.  But it depends on nothing else that adding changes, so
the list of `add_to_queue` calls a step makes is a function of the queue sizes and the programs
*before* the step.  This file computes that list, the *plan* of the step, and shows that performing
the step is performing the plan (`exec_cases`).

So an invariant of the queues only has to survive one call of `add_to_queue`, and conditions can be
stated on the state the step starts from:

* `Room limit size calls`: every call finds its queue with fewer than `limit` entries;
* `fills size calls`: the queues that the calls leave with `QUEUESIZE` entries or more, in order
  and with repetitions.
-/

namespace GuardianCouncil.SecureLog

open Fallible List Function

/-- One call of `add_to_queue`. -/
structure Call where
  entry : Entry
  queue : Queue

/-! ## Performing a list of calls -/

/-- Performs the calls in order. -/
def addAll (writer : Core) (calls : List Call) (st : State) : Except Fault State :=
  calls.foldlM (fun st c => addToQueue c.entry c.queue writer st) st

@[simp] theorem addAll_nil (writer : Core) (st : State) : addAll writer [] st = .ok st := rfl

theorem addAll_cons (writer : Core) (c : Call) (cs : List Call) (st : State) :
    addAll writer (c :: cs) st = addToQueue c.entry c.queue writer st >>= addAll writer cs := rfl

theorem addAll_append (writer : Core) (cs cs' : List Call) (st : State) :
    addAll writer (cs ++ cs') st = addAll writer cs st >>= addAll writer cs' := by
  rw [addAll, foldlM_append]
  rfl

variable {st st' : State} {advance : SProgram → SProgram} {s : Entry} {op : Op}

theorem addAll_cons_eq_ok {writer : Core} {c : Call} {cs : List Call} :
    addAll writer (c :: cs) st = .ok st' ↔ st.queueSize c.queue ≠ QUEUESIZE + NUMBEROFCHECKERCORES + 1 ∧
      addAll writer cs (added c.entry c.queue writer st) = .ok st' := by
  rw [addAll_cons, addToQueue]
  split <;> simp [*]

/-- **The induction over the calls of a step**: a property that each add preserves is preserved by
all of them. -/
theorem addAll_invariant {P : State → Prop} {writer : Core} {calls : List Call}
    (hst : ∀ {st : State} (s : Entry) (queue : Queue), P st → P (added s queue writer st))
    (h : addAll writer calls st = .ok st') (hi : P st) : P st' := by
  induction calls generalizing st with
  | nil => exact Except.ok.inj h ▸ hi
  | cons c cs ih => exact ih (addAll_cons_eq_ok.1 h).2 (hst _ _ hi)

def sizeAfter (size : Queue → Nat) (calls : List Call) : Queue → Nat :=
  fun q => size q + calls.countP fun c => c.queue = q

@[simp] theorem sizeAfter_nil (size : Queue → Nat) : sizeAfter size [] = size := by
  funext q
  simp [sizeAfter]

theorem sizeAfter_cons (size : Queue → Nat) (c : Call) (cs : List Call) : sizeAfter size (c :: cs)
      = sizeAfter (update size c.queue (size c.queue + 1)) cs := by
  funext q
  simp only [sizeAfter, countP_cons, update_apply, decide_eq_true_eq, eq_comm (a := q)]
  split_ifs with h
  · rw [h, Nat.add_right_comm]
    rfl
  · rfl

/-- The entries that the calls hand over for a queue. -/
def handedBy (writer : Core) (calls : List Call) (q : Queue) : List Entry :=
  (calls.filter fun c => c.queue = q).map fun c => { c.entry with sender := writer }

theorem handedBy_cons (writer : Core) (c : Call) (cs : List Call) (q : Queue) : handedBy writer (c :: cs) q =
      (if c.queue = q then [{ c.entry with sender := writer }] else []) ++ handedBy writer cs q := by
  by_cases h : c.queue = q <;> simp [handedBy, h]

theorem handedBy_append (writer : Core) (cs cs' : List Call) (q : Queue) :
    handedBy writer (cs ++ cs') q = handedBy writer cs q ++ handedBy writer cs' q := by
  simp [handedBy]

section

variable {writer : Core} {calls : List Call} {st st' : State}

section

variable (h : addAll writer calls st = .ok st')
include h

/-- What the calls leave unchanged, and what they do to the sizes and the histories. -/
theorem addAll_fields : st'.queueSize = sizeAfter st.queueSize calls ∧
      (∀ q, st'.handed q = st.handed q ++ handedBy writer calls q) ∧
      st'.popped = st.popped ∧ st'.queueStart = st.queueStart ∧ st'.curTick = st.curTick ∧
      st'.filterb = st.filterb ∧ st'.ready = st.ready ∧ st'.programs = st.programs := by
  induction calls generalizing st with
  | nil =>
    cases h
    simp [handedBy]
  | cons c cs ih =>
    obtain ⟨hsi, hh, hre⟩ := ih (addAll_cons_eq_ok.1 h).2
    refine ⟨by rw [hsi, sizeAfter_cons, added_queueSize], fun q => ?_, hre⟩
    rw [hh q, handedBy_cons, added_handed, update_apply]
    by_cases hq : q = c.queue
    · simp [hq]
    · simp [hq, Ne.symm hq]

theorem addAll_queueSize : st'.queueSize = sizeAfter st.queueSize calls :=
  (addAll_fields h).1

theorem addAll_curTick : st'.curTick = st.curTick :=
  (addAll_fields h).2.2.2.2.1

end

end

/-! ## Conditions on a list of calls -/

/-- Every call finds its queue with fewer than `limit` entries. -/
def Room (limit : Nat) : (Queue → Nat) → List Call → Prop
  | _, [] => True
  | size, c :: cs =>
    size c.queue < limit ∧ Room limit (update size c.queue (size c.queue + 1)) cs

instance (limit : Nat) : ∀ (size : Queue → Nat) (calls : List Call), Decidable (Room limit size calls)
  | _, [] => isTrue trivial
  | size, c :: cs =>
    have := instDecidableRoom limit (update size c.queue (size c.queue + 1)) cs
    inferInstanceAs (Decidable (_ ∧ _))

theorem room_append {limit : Nat} {cs' : List Call} : ∀ {cs : List Call} {size : Queue → Nat},
    Room limit size (cs ++ cs') ↔ Room limit size cs ∧ Room limit (sizeAfter size cs) cs'
  | [], size => by simp [Room]
  | c :: cs, size => by
    rw [cons_append, Room, Room, room_append, sizeAfter_cons, and_assoc]

/-- The queues that the calls leave with `QUEUESIZE` entries or more, one for each such call. -/
def fills : (Queue → Nat) → List Call → List Queue
  | _, [] => []
  | size, c :: cs =>
    (if QUEUESIZE ≤ size c.queue + 1 then [c.queue] else []) ++ fills (update size c.queue (size c.queue + 1)) cs

/-! ## Plans -/

/-- A computation that looks at the queue sizes, makes calls of `add_to_queue` and returns a value
or runs into a fault.  The calls made before a fault are part of the plan. -/
def Plan (α : Type) := (Queue → Nat) → List Call × Except Fault α

namespace Plan

variable {α β : Type}

/-- The plan that makes no calls. -/
def pure (a : α) : Plan α := fun _ => ([], .ok a)

/-- A value or fault that does not depend on the sizes. -/
def lift (x : Except Fault α) : Plan α := fun _ => ([], x)

def add (s : Entry) (queue : Queue) : Plan Unit := fun _ => ([⟨s, queue⟩], .ok ())

/-- The sizes as the calls so far have left them. -/
def sizes : Plan (Queue → Nat) := fun size => ([], .ok size)

/-- One plan after the other: the second sees the sizes the first leaves. -/
def bind (m : Plan α) (f : α → Plan β) : Plan β := fun size =>
  match (m size).2 with
  | .error e => ((m size).1, .error e)
  | .ok a =>
    let r := f a (sizeAfter size (m size).1)
    ((m size).1 ++ r.1, r.2)

theorem bind_eq_ok {m : Plan α} {f : α → Plan β} {size : Queue → Nat} {calls : List Call} {b : β} :
    m.bind f size = (calls, .ok b) ↔ ∃ calls₁ a calls₂, m size = (calls₁, .ok a) ∧
      f a (sizeAfter size calls₁) = (calls₂, .ok b) ∧ calls = calls₁ ++ calls₂ := by
  constructor
  · intro h
    rw [bind] at h
    cases hm : (m size).2 <;> rw [hm] at h
    · cases h
    · rename_i a
      obtain ⟨hca, hb⟩ := Prod.mk.inj h
      exact ⟨_, a, _, Prod.ext rfl hm, Prod.ext rfl hb, hca.symm⟩
  · rintro ⟨calls₁, a, calls₂, hm, hf, rfl⟩
    simp only [bind, hm, hf]

end Plan

/-- Performs a plan in the name of a core. -/
def perform {α : Type} (writer : Core) (m : Plan α) (st : State) : Except Fault (α × State) := do
  let st' ← addAll writer (m st.queueSize).1 st
  let a ← (m st.queueSize).2
  .ok (a, st')

section

variable {α β : Type} (writer : Core)

@[simp] theorem perform_pure (a : α) (st : State) : perform writer (.pure a) st = .ok (a, st) :=
  rfl

@[simp] theorem perform_lift (x : Except Fault α) (st : State) :
    perform writer (.lift x) st = x >>= fun a => .ok (a, st) := rfl

@[simp] theorem perform_add (s : Entry) (queue : Queue) (st : State) : perform writer (.add s queue) st
      = addToQueue s queue writer st >>= fun st => .ok ((), st) := by
  simp only [perform, Plan.add, addAll_cons, bind_assoc, addAll_nil, ok_bind]

@[simp] theorem perform_sizes (st : State) : perform writer .sizes st = .ok (st.queueSize, st) := rfl

theorem perform_eq_ok {m : Plan α} {st st' : State} {a : α} : perform writer m st = .ok (a, st') ↔
      addAll writer (m st.queueSize).1 st = .ok st' ∧ (m st.queueSize).2 = .ok a := by
  simp only [perform, bind_eq_ok, Except.ok.injEq, Prod.mk.injEq]
  constructor
  · rintro ⟨st₁, h1, b, h2, rfl, rfl⟩
    exact ⟨h1, h2⟩
  · rintro ⟨h1, h2⟩
    exact ⟨st', h1, a, h2, rfl, rfl⟩

/-- **Performing is sequential**: performing two plans in a row is performing their composite. -/
theorem perform_bind (m : Plan α) (f : α → Plan β) (st : State) :
    perform writer (m.bind f) st = perform writer m st >>= fun r => perform writer (f r.1) r.2 := by
  rw [perform, perform, bind_assoc]
  cases hr : (m st.queueSize).2 with
  | error e => simp only [Plan.bind, hr, error_bind]
  | ok a =>
    simp only [Plan.bind, hr, addAll_append, bind_assoc, ok_bind]
    refine bind_congr_ok fun st₁ hadd => ?_
    rw [perform, ← addAll_queueSize hadd]

end

/-! ## The plan of a step -/

/-- The calls one program makes for an entry, and the program afterwards. -/
def planProgram (advance : SProgram → SProgram) (now : UInt64) (s : Entry) (p : SProgram) : Plan SProgram :=
  let val := p.map s.insttype
  if val = 0 then .pure p
  else if 0 < val then
    (Plan.lift (asQueue (val - 1))).bind fun q =>
    (Plan.add s q).bind fun _ => .pure p
  else if val = -1 then
    (Plan.lift (asQueue p.counter)).bind fun q =>
    (Plan.add s q).bind fun _ => .pure (advance p)
  else
    (Plan.lift (asQueue p.counter)).bind fun q =>
    (Plan.add s q).bind fun _ =>
    Plan.sizes.bind fun size =>
    if QUEUESIZE - 2 ≤ size q then
      (Plan.lift (getNextCore (QUEUESIZE / 2) p size)).bind fun
      | none => .pure p
      | some newcore =>
        (Plan.add (Entry.new now .block (UInt64.ofNat newcore.val) 0 0) q).bind fun _ =>
        .pure { p with counter := newcore.val }
    else .pure p

/-- What a program can do with an entry: the calls it makes, and the program afterwards. -/
inductive ProgramStep (advance : SProgram → SProgram) (now : UInt64) (s : Entry)
    (size : Queue → Nat) (p : SProgram) : List Call → SProgram → Prop
  /-- The program does not want the entry. -/
  | unmapped (h : p.map s.insttype = 0) : ProgramStep advance now s size p [] p
  | fixed {q : Queue} (h : p.map s.insttype = q.val + 1) : ProgramStep advance now s size p [⟨s, q⟩] p
  | counter {q : Queue} (h : p.map s.insttype = -1) (hq : p.counter = q.val) :
      ProgramStep advance now s size p [⟨s, q⟩] (advance p)
  /-- Blocker mode, while the queue has room or no other queue is free. -/
  | stay {q : Queue} (h : p.map s.insttype < -1) (hq : p.counter = q.val)
      (hstay : size q + 1 < QUEUESIZE - 2 ∨ getNextCore (QUEUESIZE / 2) p (sizeAfter size [⟨s, q⟩]) = .ok none) :
      ProgramStep advance now s size p [⟨s, q⟩] p
  /-- Blocker mode, with a change of queue. -/
  | switch {q newcore : Queue} (h : p.map s.insttype < -1) (hq : p.counter = q.val)
      (hfull : QUEUESIZE - 2 ≤ size q + 1)
      (hnext : getNextCore (QUEUESIZE / 2) p (sizeAfter size [⟨s, q⟩]) = .ok (some newcore)) :
      ProgramStep advance now s size p
        [⟨s, q⟩, ⟨Entry.new now .block (UInt64.ofNat newcore.val) 0 0, q⟩]
        { p with counter := newcore.val }

section

variable {advance : SProgram → SProgram} {now : UInt64} {s : Entry} {size : Queue → Nat}
  {p p' : SProgram} {calls : List Call}

theorem sizeAfter_singleton (size : Queue → Nat) (s : Entry) (q : Queue) : sizeAfter size [⟨s, q⟩] q = size q + 1 := by
  simp [sizeAfter]

/-- Each of the five steps is what the plan says. -/
theorem ProgramStep.planProgram_eq (h : ProgramStep advance now s size p calls p') :
    planProgram advance now s p size = (calls, .ok p') := by
  cases h with
  | unmapped h =>
    rw [planProgram, if_pos h]
    rfl
  | @fixed q h =>
    have hq : asQueue (p.map s.insttype - 1) = .ok q := asQueue_eq_ok.2 (by omega)
    rw [planProgram, if_neg (by omega), if_pos (by omega), hq]
    rfl
  | counter h hq =>
    rw [planProgram, if_neg (by omega), if_neg (by omega), if_pos h, hq, asQueue_val]
    rfl
  | @stay q h hq hstay =>
    rw [planProgram, if_neg (by omega), if_neg (by omega), if_neg (by omega), hq, asQueue_val]
    simp only [Plan.bind, Plan.lift, Plan.add, Plan.sizes, sizeAfter_nil, nil_append, sizeAfter_singleton]
    by_cases hfull : QUEUESIZE - 2 ≤ size q + 1
    · rw [if_pos hfull, hstay.resolve_left (by omega)]
      rfl
    · rw [if_neg hfull]
      rfl
  | switch h hq hfull hnext =>
    rw [planProgram, if_neg (by omega), if_neg (by omega), if_neg (by omega), hq, asQueue_val]
    simp only [Plan.bind, Plan.lift, Plan.add, Plan.sizes, sizeAfter_nil, nil_append, sizeAfter_singleton]
    rw [if_pos hfull, hnext]
    rfl

/-- **What a program can do with an entry**, if it does not run into a fault: one of the five
steps. -/
theorem programStep_of_ok (h : (planProgram advance now s p size).2 = .ok p') :
    ProgramStep advance now s size p (planProgram advance now s p size).1 p' := by
  -- it is enough to find some step: the plan then is that step
  suffices hex : ∃ calls r, ProgramStep advance now s size p calls r by
    obtain ⟨calls, r, hr⟩ := hex
    rw [hr.planProgram_eq] at h ⊢
    cases h
    exact hr
  rw [planProgram] at h
  by_cases h0 : p.map s.insttype = 0
  · exact ⟨_, _, .unmapped h0⟩
  rw [if_neg h0] at h
  by_cases hpos : 0 < p.map s.insttype
  · rw [if_pos hpos] at h
    cases hq : asQueue (p.map s.insttype - 1) with
    | error e =>
      rw [hq] at h
      cases h
    | ok q =>
      have := asQueue_eq_ok.1 hq
      exact ⟨_, _, .fixed (q := q) (by omega)⟩
  rw [if_neg hpos] at h
  cases hq : asQueue p.counter with
  | error e =>
    rw [hq] at h
    split at h <;> cases h
  | ok q =>
    have hqc := asQueue_eq_ok.1 hq
    by_cases hm : p.map s.insttype = -1
    · exact ⟨_, _, .counter hm hqc⟩
    have hneg : p.map s.insttype < -1 := by omega
    by_cases hfull : QUEUESIZE - 2 ≤ size q + 1
    · rw [if_neg hm, hq] at h
      simp only [Plan.bind, Plan.lift, Plan.add, Plan.sizes, sizeAfter_nil, nil_append, sizeAfter_singleton] at h
      rw [if_pos hfull] at h
      cases hn : getNextCore (QUEUESIZE / 2) p (sizeAfter size [⟨s, q⟩]) with
      | error e =>
        rw [hn] at h
        cases h
      | ok r =>
        cases r with
        | none => exact ⟨_, _, .stay hneg hqc (.inr hn)⟩
        | some newcore => exact ⟨_, _, .switch hneg hqc hfull hn⟩
    · exact ⟨_, _, .stay hneg hqc (.inl (by omega))⟩

end

/-- The calls all programs make for an entry. -/
def planPrograms (advance : SProgram → SProgram) (now : UInt64) (s : Entry) : List SProgram → Plan (List SProgram)
  | [] => .pure []
  | p :: ps =>
    (planProgram advance now s p).bind fun p =>
    (planPrograms advance now s ps).bind fun ps => .pure (p :: ps)

/-- What all programs can do with an entry, one after the other. -/
inductive ProgramSteps (advance : SProgram → SProgram) (now : UInt64) (s : Entry) :
    (Queue → Nat) → List SProgram → List Call → List SProgram → Prop
  | nil {size : Queue → Nat} : ProgramSteps advance now s size [] [] []
  | cons {size : Queue → Nat} {p p' : SProgram} {calls calls' : List Call}
      {ps ps' : List SProgram} (h : ProgramStep advance now s size p calls p')
      (hs : ProgramSteps advance now s (sizeAfter size calls) ps calls' ps') :
      ProgramSteps advance now s size (p :: ps) (calls ++ calls') (p' :: ps')

/-- A plan without a fault consists of one step of each program. -/
theorem planPrograms_eq_ok {now : UInt64} :
    ∀ {ps : List SProgram} {size : Queue → Nat} {calls : List Call} {ps' : List SProgram},
      planPrograms advance now s ps size = (calls, .ok ps') ↔ ProgramSteps advance now s size ps calls ps'
  | [], size, calls, ps' => by
    constructor
    · intro h
      cases h
      exact .nil
    · intro h
      cases h
      rfl
  | p :: ps, size, calls, ps' => by
    rw [planPrograms]
    constructor
    · intro h
      obtain ⟨calls₁, p', calls₂, hp, hre, rfl⟩ := Plan.bind_eq_ok.1 h
      obtain ⟨calls₂, ps', calls₃, hps, hla, rfl⟩ := Plan.bind_eq_ok.1 hre
      cases hla
      have hst := programStep_of_ok (congrArg Prod.snd hp)
      rw [hp] at hst
      rw [append_nil]
      exact .cons hst (planPrograms_eq_ok.1 hps)
    · intro h
      cases h with
      | cons h hs =>
        simp only [Plan.bind, h.planProgram_eq, planPrograms_eq_ok.2 hs, Plan.pure, append_nil]

/-- **One program performs its plan.** -/
theorem mapProgram_eq (advance : SProgram → SProgram) (s : Entry) (p : SProgram) (st : State) :
    mapProgram advance s p st = perform 0 (planProgram advance st.curTick s p) st := by
  unfold mapProgram planProgram
  dsimp only
  split
  · rfl
  split
  · simp only [perform_bind, perform_lift, perform_add, perform_pure, bind_assoc, ok_bind]
  split
  · simp only [perform_bind, perform_lift, perform_add, perform_pure, bind_assoc, ok_bind]
  simp only [perform_bind, perform_lift, perform_add, perform_sizes, bind_assoc, ok_bind]
  refine bind_congr_ok fun q _ => bind_congr_ok fun st₁ hadd => ?_
  obtain ⟨-, rfl⟩ := addToQueue_eq_ok.1 hadd
  split
  · simp only [perform_bind, perform_lift, bind_assoc, ok_bind]
    refine bind_congr_ok fun r _ => ?_
    cases r with
    | none => rfl
    | some nc =>
      simp only [perform_bind, perform_add, perform_pure, bind_assoc, ok_bind]
      rfl
  · rfl

theorem perform_curTick {α : Type} {writer : Core} {m : Plan α} {a : α}
    (h : perform writer m st = .ok (a, st')) : st'.curTick = st.curTick :=
  addAll_curTick ((perform_eq_ok writer).1 h).1

/-- One program takes one of its steps. -/
theorem mapProgram_cases {p p' : SProgram} (h : mapProgram advance s p st = .ok (p', st')) :
    ∃ calls, ProgramStep advance st.curTick s st.queueSize p calls p' ∧ addAll 0 calls st = .ok st' := by
  rw [mapProgram_eq, perform_eq_ok] at h
  exact ⟨_, programStep_of_ok h.2, h.1⟩

/-- All programs perform their plans, one after the other. -/
theorem mapPrograms_eq (advance : SProgram → SProgram) (s : Entry) : ∀ (ps : List SProgram) (st : State),
      mapPrograms advance s ps st = perform 0 (planPrograms advance st.curTick s ps) st
  | [], st => rfl
  | p :: ps, st => by
    simp only [mapPrograms, planPrograms, perform_bind, perform_pure, mapProgram_eq]
    refine bind_congr_ok fun r hr => ?_
    rw [mapPrograms_eq advance s ps r.2, perform_curTick hr]

/-- Performing calls does not look at the programs. -/
theorem addAll_withPrograms (writer : Core) (ps : List SProgram) : ∀ (calls : List Call) (st : State),
      addAll writer calls (withPrograms ps st)
        = addAll writer calls st >>= fun st => .ok (withPrograms ps st)
  | [], st => rfl
  | c :: cs, st => by
    rw [addAll_cons, addAll_cons, addToQueue, addToQueue]
    by_cases h : st.queueSize c.queue = QUEUESIZE + NUMBEROFCHECKERCORES + 1
    · rw [if_pos h, if_pos (show (withPrograms ps st).queueSize c.queue = _ from h)]
      rfl
    · rw [if_neg h, if_neg (show ¬ (withPrograms ps st).queueSize c.queue = _ from h)]
      exact addAll_withPrograms writer ps cs (added c.entry c.queue writer st)

/-- Performs a plan that moves the programs on. -/
def performMap (writer : Core) (m : Plan (List SProgram)) (st : State) : Except Fault State :=
  perform writer m st >>= fun r => .ok (withPrograms r.1 r.2)

variable {m : Plan (List SProgram)}

theorem performMap_eq_ok {writer : Core} : performMap writer m st = .ok st' ↔
      ∃ ps st₁, (m st.queueSize).2 = .ok ps ∧ addAll writer (m st.queueSize).1 st = .ok st₁ ∧
        st' = withPrograms ps st₁ := by
  rw [performMap, bind_eq_ok]
  constructor
  · rintro ⟨⟨ps, st₁⟩, h, h'⟩
    obtain ⟨hadd, hps⟩ := (perform_eq_ok writer).1 h
    cases h'
    exact ⟨ps, st₁, hps, hadd, rfl⟩
  · rintro ⟨ps, st₁, hps, hadd, rfl⟩
    exact ⟨(ps, st₁), (perform_eq_ok writer).2 ⟨hadd, hps⟩, rfl⟩

theorem performMap_curTick {writer : Core} (h : performMap writer m st = .ok st') : st'.curTick = st.curTick := by
  obtain ⟨ps, st₁, -, hadd, rfl⟩ := performMap_eq_ok.1 h
  exact show st₁.curTick = st.curTick from addAll_curTick hadd

theorem performMap_withPrograms (writer : Core) (m : Plan (List SProgram)) (ps : List SProgram)
    (st : State) : performMap writer m (withPrograms ps st) = performMap writer m st := by
  simp only [performMap, perform, addAll_withPrograms, bind_assoc, ok_bind]
  rfl

/-- Two maps in a row: the second starts from the programs the first leaves. -/
theorem performMap_bind (writer : Core) (m : Plan (List SProgram))
    (f : List SProgram → Plan (List SProgram)) (st : State) : performMap writer (m.bind f) st
      = performMap writer m st >>= fun st' => performMap writer (f st'.programs) st' := by
  simp only [performMap, perform_bind, bind_assoc, ok_bind]
  refine bind_congr_ok fun r _ => ?_
  exact (performMap_withPrograms writer (f r.1) r.1 r.2).symm

theorem mapWith_eq (advance : SProgram → SProgram) (s : Entry) (st : State) : mapWith advance s st
      = performMap 0 (planPrograms advance st.curTick s st.programs) st := by
  rw [mapWith, mapPrograms_eq, performMap]

/-! ## The plan of an operation -/

/-- The entry of a message sent by `send_messages` or `core_queuewrite`. -/
abbrev commsEntry (now data : UInt64) : Entry := Entry.new now .comms data 0 0

/-- The three rounds of `send_messages`. -/
def planSend (now data1 data2 data3 : UInt64) (ps : List SProgram) : Plan (List SProgram) :=
  (planPrograms id now (commsEntry now data1) ps).bind fun ps =>
  (planPrograms id now (commsEntry now data2) ps).bind fun ps =>
  planPrograms advanceCounter now (commsEntry now data3) ps

/-- The calls of `add_to_queue` that an operation makes, and the programs afterwards. -/
def Op.plan (st : State) : Op → Plan (List SProgram)
  | .filter s =>
    if st.filterb s.insttype = false ∨ 0 < st.ready then .pure st.programs
    else planPrograms advanceCounter st.curTick s st.programs
  | .sendMessages data1 data2 data3 => planSend st.curTick data1 data2 data3 st.programs
  | .coreQueuewrite data target _ =>
    (Plan.lift (asQueue (toInt32 target))).bind fun q =>
    (Plan.add (commsEntry st.curTick data) q).bind fun _ => .pure st.programs
  | .popFromQueue _ _ => .pure st.programs
  | .mappersReady => .pure st.programs
  | .sampleOccupancy => .pure st.programs
  | .tick _ => .pure st.programs

/-- The calls the operation makes in the given state. -/
def Op.calls (st : State) (op : Op) : List Call := (op.plan st st.queueSize).1

/-- The core in whose name the operation adds entries. -/
def Op.writer (op : Op) : Core := op.actor.getD 0

theorem filter_eq (hp : st.pause 0 = false) : filter s st = performMap 0 ((Op.filter s).plan st) st := by
  rw [filter, Op.plan, hp]
  by_cases hf : st.filterb s.insttype = false
  · rw [if_pos hf, if_pos (.inl hf)]
    rfl
  by_cases hr : 0 < st.ready
  · rw [if_neg hf, if_pos hr, if_pos (.inr hr)]
    rfl
  · rw [if_neg hf, if_neg hr, if_neg (by simp), if_neg (by tauto)]
    exact mapWith_eq advanceCounter s st

theorem sendMessages_eq (data1 data2 data3 : UInt64) (st : State) : sendMessages data1 data2 data3 st
      = performMap 0 ((Op.sendMessages data1 data2 data3).plan st) st := by
  simp only [Op.plan, planSend, sendMessages, performMap_bind, map, mapBefore, mapWith_eq]
  refine bind_congr_ok fun st₁ h1 => ?_
  rw [performMap_curTick h1]
  refine bind_congr_ok fun st₂ h2 => ?_
  rw [performMap_curTick h2, performMap_curTick h1]

theorem coreQueuewrite_eq (data target : UInt64) (writer : Core) (st : State) : coreQueuewrite data target writer st
      = performMap writer ((Op.coreQueuewrite data target writer).plan st) st := by
  rw [coreQueuewrite, Op.plan, performMap, perform_bind, perform_lift, bind_assoc, bind_assoc]
  refine bind_congr_ok fun q _ => ?_
  rw [ok_bind, perform_bind, perform_add, bind_assoc, bind_assoc]
  refine (bind_ok _).symm.trans (bind_congr_ok fun st' hadd => ?_)
  -- the programs are those of the state before, which an add leaves alone
  obtain ⟨-, rfl⟩ := addToQueue_eq_ok.1 hadd
  rfl

/-- An operation that touches neither the queues nor the flags. -/
inductive Idle (st : State) : State → Prop
  | ready : Idle st { st with ready := 0 }
  | tick (now : UInt64) : Idle st { st with curTick := now }
  | sample (occ : Queue → Nat → UInt64) : Idle st { st with fifoOccupancy := occ }

/-- Does the operation add entries? -/
def Op.adds : Op → Bool
  | .filter _ => true
  | .sendMessages _ _ _ => true
  | .coreQueuewrite _ _ _ => true
  | _ => false

/-- **A step that adds performs its plan.** -/
theorem exec_eq (ha : op.adds = true) (hen : Enabled st op) : exec st op = performMap op.writer (op.plan st) st := by
  cases op with
  | filter s => exact filter_eq (hen 0 rfl)
  | sendMessages data1 data2 data3 => exact sendMessages_eq data1 data2 data3 st
  | coreQueuewrite data target writer => exact coreQueuewrite_eq data target writer st
  | _ => cases ha

/-- **What a step can do**: perform its plan in the name of one core, pop one queue, or leave the
queues alone. -/
theorem exec_cases (hen : Enabled st op) (h : exec st op = .ok st') :
    (∃ ps st₁, op.actor = some op.writer ∧ (op.plan st st.queueSize).2 = .ok ps ∧
        addAll op.writer (op.calls st) st = .ok st₁ ∧ st' = withPrograms ps st₁) ∨
      (∃ queue item, op = .popFromQueue queue item ∧ st.pause queue.succ = false ∧
        st.queueSize queue ≠ 0 ∧ st' = afterPop queue st) ∨
      (op.actor = none ∧ Idle st st') := by
  cases ha : op.adds with
  | true =>
    rw [exec_eq ha hen] at h
    obtain ⟨ps, st₁, hps, hadd, rfl⟩ := performMap_eq_ok.1 h
    refine .inl ⟨ps, st₁, ?_, hps, hadd, rfl⟩
    cases op <;> first | rfl | cases ha
  | false =>
    cases op with
    | popFromQueue queue item =>
      obtain ⟨⟨r, st₁⟩, hpop, h⟩ := bind_eq_ok.1 h
      cases h
      obtain ⟨hp, hs, -, rfl⟩ := popFromQueue_eq_ok.1 hpop
      exact .inr (.inl ⟨queue, item, rfl, hp, hs, rfl⟩)
    | mappersReady =>
      cases h
      exact .inr (.inr ⟨rfl, .ready⟩)
    | sampleOccupancy =>
      rw [exec, sampleOccupancy] at h
      split at h
      · cases h
        exact .inr (.inr ⟨rfl, .sample _⟩)
      · cases h
    | tick now =>
      cases h
      exact .inr (.inr ⟨rfl, .tick now⟩)
    | _ => cases ha

end GuardianCouncil.SecureLog
