import GuardianCouncil.Lib.Ring
import GuardianCouncil.SecureLog.Plan

/-!
# Delivery

Is what a core pops out of its queue what was added to it, in order?  The ring positions wrap
modulo `QUEUESIZE`, on an array that is declared with `NUMBEROFCHECKERCORES + 1` slots more, and
`queue_size` may legitimately go above `QUEUESIZE`: a writer is only paused *after* it has filled a
queue.  So the answer is no, the entry beyond the sixty-fourth lands on the oldest one that has
not been read (`fifo_overwritten`), and it is yes for every run in which no entry is added to a
queue that already holds `QUEUESIZE` of them (`fifo_delivery`).
-/

namespace GuardianCouncil.SecureLog

open Fallible List Function

/-! ## Where the ring positions point -/

/-- The ring positions are the lengths of the histories, up to laps, and the size is the
difference. -/
structure Positions (st : State) (q : Queue) : Prop where
  /-- The next slot to read. -/
  start : st.queueStart q = (st.popped q).length % QUEUESIZE
  /-- The next slot to write. -/
  stop : st.queueEnd q = (st.handed q).length % QUEUESIZE
  /-- What was handed over and not yet popped. -/
  size : (st.popped q).length + st.queueSize q = (st.handed q).length

theorem positions_init (programs : List SProgram) (filterb : InstType → Bool) (ready : Int)
    (q : Queue) : Positions (init programs filterb ready) q :=
  ⟨rfl, rfl, rfl⟩

variable {q queue : Queue} {st : State}

theorem Positions.added (h : Positions st q) (s : Entry)
    (queue : Queue) (writer : Core) : Positions (added s queue writer st) q := by
  by_cases hq : q = queue
  · subst hq
    refine ⟨by simpa using h.start, ?_, ?_⟩
    · simp [h.stop]
    · have := h.size
      simp only [added_popped, added_queueSize, added_handed, update_self, length_append, length_singleton]
      omega
  · refine ⟨by simpa using h.start, by simpa [hq] using h.stop, by simpa [hq] using h.size⟩

theorem Positions.afterPop (h : Positions st q) (hne : st.queueSize queue ≠ 0) : Positions (afterPop queue st) q := by
  by_cases hq : q = queue
  · subst hq
    refine ⟨by simp [h.start], by simpa using h.stop, ?_⟩
    have := h.size
    simp only [afterPop_popped, afterPop_queueSize, afterPop_handed, update_self, length_append, length_singleton]
    omega
  · refine ⟨by simpa [hq] using h.start, by simpa using h.stop, by simpa [hq] using h.size⟩

theorem Positions.exec {st' : State} {op : Op} (h : ∀ q, Positions st q) (hen : Enabled st op)
    (hs : exec st op = .ok st') (q : Queue) : Positions st' q := by
  rcases exec_cases hen hs with ⟨ps, st₁, -, -, hadd, rfl⟩ | ⟨queue, item, -, -, hne, rfl⟩ | ⟨-, hid⟩
  · have h1 := addAll_invariant (P := fun st => Positions st q)
      (fun s queue hp => hp.added s queue op.writer) hadd (h q)
    exact ⟨h1.start, h1.stop, h1.size⟩
  · exact (h q).afterPop hne
  · cases hid <;> exact ⟨(h q).start, (h q).stop, (h q).size⟩

theorem positions_of_reachable {programs : List SProgram} {filterb : InstType → Bool} {ready : Int}
    (h : Reachable programs filterb ready st) : ∀ q, Positions st q :=
  h.invariant (P := fun st => ∀ q, Positions st q) (positions_init programs filterb ready)
    fun _ hp hen hs => Positions.exec hp hen hs

/-! ## Delivery -/

/-- The entries in the ring that have not been read, oldest first. -/
def unread (st : State) (q : Queue) : List Entry :=
  (List.range (st.queueSize q)).map fun i => st.queues q ((st.queueStart q + i) % QUEUESIZE)

/-- The ring holds what was handed over from position `lo` on. -/
def Kept (lo : Nat) (st : State) (q : Queue) : Prop :=
  Ring.Holds QUEUESIZE (st.queues q) lo (st.handed q)

/-- An add within a lap of position `lo` overwrites nothing from there on. -/
theorem Kept.added {lo : Nat} (h : Kept lo st q)
    (hp : Positions st q) (hlap : q = queue → (st.handed q).length < lo + QUEUESIZE) (s : Entry) (writer : Core) :
    Kept lo (added s queue writer st) q := by
  unfold Kept at h ⊢
  by_cases hq : q = queue
  · subst hq
    simpa [hp.stop] using h.push (hlap rfl) { s with sender := writer }
  · simpa [hq] using h

/-- The pops so far have read what was handed over, and the ring holds the rest. -/
structure Delivered (st : State) (q : Queue) : Prop where
  /-- The pops have read an initial part of what was handed over. -/
  read : st.popped q <+: st.handed q
  /-- The ring is not overfull. -/
  room : st.queueSize q ≤ QUEUESIZE
  /-- The ring holds what has not been read. -/
  ring : Ring.Holds QUEUESIZE (st.queues q) (st.popped q).length (st.handed q)

theorem delivered_init (programs : List SProgram) (filterb : InstType → Bool) (ready : Int)
    (q : Queue) : Delivered (init programs filterb ready) q :=
  ⟨prefix_rfl, Nat.zero_le _, Ring.holds_of_length_le (Nat.le_refl _)⟩

/-- **An add delivers, if the queue has room.** -/
theorem Delivered.added (h : Delivered st q)
    (hp : Positions st q) (hro : st.queueSize queue < QUEUESIZE) (s : Entry) (writer : Core) :
    Delivered (added s queue writer st) q := by
  have hri : Kept ((SecureLog.added s queue writer st).popped q).length
      (SecureLog.added s queue writer st) q := by
    refine Kept.added h.ring hp (fun hq => ?_) s writer
    subst hq
    have := hp.size
    omega
  by_cases hq : q = queue
  · subst hq
    exact ⟨by simpa using h.read.trans (prefix_append _ _), by simpa [Nat.succ_le_iff] using hro, hri⟩
  · exact ⟨by simpa [hq] using h.read, by simpa [hq] using h.room, hri⟩

/-- **A pop delivers**: it reads the next entry that was handed over. -/
theorem Delivered.afterPop (h : Delivered st q)
    (hp : Positions st q) (hne : st.queueSize queue ≠ 0) : Delivered (afterPop queue st) q := by
  by_cases hq : q = queue
  · subst hq
    have hsi := hp.size
    have hlt : (st.popped q).length < (st.handed q).length := by omega
    have hread : st.queues q (st.queueStart q) = (st.handed q)[(st.popped q).length] := by
      rw [hp.start]
      exact h.ring.read hlt
    refine ⟨?_, ?_, ?_⟩
    · rw [afterPop_popped, afterPop_handed, update_self, hread]
      obtain ⟨rest, hre⟩ := h.read
      rw [prefix_iff_eq_take, length_append, length_singleton,
        take_add_one, ← prefix_iff_eq_take.1 h.read, getElem?_eq_getElem hlt]
      rfl
    · have := h.room
      simp only [afterPop_queueSize, update_self]
      omega
    · simpa using h.ring.mono (Nat.le_add_right _ 1)
  · exact ⟨by simpa [hq] using h.read, by simpa [hq] using h.room, by simpa [hq] using h.ring⟩

theorem unread_eq (hp : Positions st q) (h : Delivered st q) : st.handed q = st.popped q ++ unread st q := by
  have hsi : st.queueSize q = (st.handed q).length - (st.popped q).length := by
    have := hp.size
    omega
  have hmod : ∀ i, (st.queueStart q + i) % QUEUESIZE = ((st.popped q).length + i) % QUEUESIZE := by
    intro i
    rw [hp.start, Nat.mod_add_mod]
  rw [unread, hsi]
  simp only [hmod]
  rw [h.ring.map_range]
  obtain ⟨rest, hre⟩ := h.read
  rw [← hre, drop_left]

/-- Calls that all find room deliver. -/
theorem Delivered.addAll {writer : Core} : ∀ {calls : List Call} {st st' : State},
    addAll writer calls st = .ok st' → Room QUEUESIZE st.queueSize calls →
    (∀ q, Positions st q) → (∀ q, Delivered st q) → ∀ q, Delivered st' q
  | [], st, st', h, _, _, hd => by
    cases h
    exact hd
  | c :: cs, st, st', h, hro, hp, hd => by
    obtain ⟨-, h2⟩ := addAll_cons_eq_ok.1 h
    exact Delivered.addAll h2 hro.2 (fun q => (hp q).added _ _ _) fun q => (hd q).added (hp q) hro.1 _ _

/-! ## Runs -/

/-- Every entry the operation adds finds its queue with fewer than `QUEUESIZE` entries. -/
def HasRoom (st : State) (op : Op) : Prop := Room QUEUESIZE st.queueSize (op.calls st)
deriving Decidable

/-- **FIFO delivery, while there is room.**  In every run in which no entry is added to a queue
that already holds `QUEUESIZE` of them, what was handed over for a queue is what was popped
followed by what is still in the ring: nothing is lost, overwritten, reordered or read twice. -/
theorem fifo_delivery {programs : List SProgram} {filterb : InstType → Bool} {ready : Int} {st : State}
    (h : Reaches exec (fun st op => Enabled st op ∧ HasRoom st op) (init programs filterb ready) st) (q : Queue) :
    st.popped q <+: st.handed q ∧ st.handed q = st.popped q ++ unread st q := by
  have hinv : ∀ q, Positions st q ∧ Delivered st q := by
    refine h.invariant (P := fun st => ∀ q, Positions st q ∧ Delivered st q)
      (fun q => ⟨positions_init _ _ _ q, delivered_init _ _ _ q⟩) ?_
    intro st st' op _ hi hok hs q
    refine ⟨Positions.exec (fun q => (hi q).1) hok.1 hs q, ?_⟩
    rcases exec_cases hok.1 hs with ⟨ps, st₁, -, -, hadd, rfl⟩ | ⟨queue, item, -, -, hne, rfl⟩ | ⟨-, hid⟩
    · have hd := Delivered.addAll hadd hok.2 (fun q => (hi q).1) (fun q => (hi q).2) q
      exact ⟨hd.read, hd.room, hd.ring⟩
    · exact (hi q).2.afterPop (hi q).1 hne
    · have hd := (hi q).2
      cases hid <;> exact ⟨hd.read, hd.room, hd.ring⟩
  exact ⟨(hinv q).2.read, unread_eq (hinv q).1 (hinv q).2⟩

/-- Filling a queue to the brim and emptying it again is a run with room throughout. -/
theorem fifo_delivery_full_queue : ∃ st, Reaches exec (fun st op => Enabled st op ∧ HasRoom st op)
      (init fixedPrograms fixedFilter 2) st ∧
      (st.handed 0).length = QUEUESIZE ∧ st.popped 0 <+: st.handed 0 ∧ st.handed 0 = st.popped 0 ++ unread st 0 := by
  obtain ⟨st, hr, hlen⟩ := exists_reaches exec (fun st op => Enabled st op ∧ HasRoom st op)
    (init fixedPrograms fixedFilter 2)
    (fillFirst ++ List.replicate QUEUESIZE (.popFromQueue 0 1))
    (fun st => (st.handed 0).length = QUEUESIZE) (by decide +kernel)
  exact ⟨st, hr, hlen, fifo_delivery hr 0⟩

/-- **Without room an unread entry is overwritten.**  The main core fills queue `0` with loads of
address `1`, core `2`, which is not paused, puts the word `5` into it, and the first pop reads the
`5`. -/
theorem fifo_overwritten : ∃ st, Reachable fixedPrograms fixedFilter 2 st ∧ ¬ st.popped 0 <+: st.handed 0 :=
  exists_reaches exec Enabled (init fixedPrograms fixedFilter 2)
    (fillFirst ++ [.coreQueuewrite 5 0 2, .popFromQueue 0 1])
    (fun st => ¬ st.popped 0 <+: st.handed 0) (by decide +kernel)

end GuardianCouncil.SecureLog
