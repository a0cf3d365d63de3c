import GuardianCouncil.SecureLog.Capacity
import GuardianCouncil.SecureLog.Fifo

/-!
# Three-word messages

`message_send_3` sends three words to every program that maps `Comms`, in three rounds: the first
word to all programs, then the second, then the third.  `message_rcv_3` pops three words.  For the
receiver to get the three words of one message (`SentWhole`), each program has to keep to one queue for
the three rounds, and nothing may get in between there.

* In blocker mode a program may move on after any of the rounds, and leaves a `Block` behind.
* Two programs with the same destination interleave their words.

Whether either happens is decided by the queue sizes and the programs before the send (`Sendable`).
-/

namespace GuardianCouncil.SecureLog

open Fallible List Function

/-! ## A round -/

/-- The number of entries at which `add_to_queue` gives up. -/
abbrev CAPACITY : Nat := QUEUESIZE + NUMBEROFCHECKERCORES + 1

/-- The queue to which the program sends an entry of a kind that it maps. -/
def dest (it : InstType) (p : SProgram) : Except Fault Queue :=
  if 0 < p.map it then asQueue (p.map it - 1) else asQueue p.counter

/-- The destinations of an entry, one for each program that maps it. -/
def sends (it : InstType) (ps : List SProgram) : List Queue :=
  ps.filterMap fun p => if p.map it = 0 then none else (dest it p).toOption

/-- Does a round of the programs go through, from the given queue sizes?  Every entry needs a queue
within range and below its capacity.  A program in blocker mode whose queue is nearly full looks for
another one: if it finds one it needs room for the `Block` as well, and in a `steady` round it must
not find one. -/
def goesThrough (steady : Bool) (it : InstType) : (Queue → Nat) → List SProgram → Bool
  | _, [] => true
  | size, p :: ps =>
    if p.map it = 0 then goesThrough steady it size ps
    else
      match dest it p with
      | .error _ => false
      | .ok q =>
        let size' := update size q (size q + 1)
        decide (size q < CAPACITY) &&
        if p.map it < -1 ∧ QUEUESIZE - 2 ≤ size' q then
          match getNextCore (QUEUESIZE / 2) p size' with
          | .error _ => false
          | .ok none => goesThrough steady it size' ps
          | .ok (some _) =>
            !steady && decide (size' q < CAPACITY) &&
              goesThrough steady it (update size' q (size' q + 1)) ps
        else goesThrough steady it size' ps

/-- The calls leave no `Block` behind. -/
def NoBlock (calls : List Call) : Prop := ∀ c ∈ calls, c.entry.insttype ≠ .block

section

variable {steady : Bool} {advance : SProgram → SProgram} {now : UInt64} {s : Entry}
  {size : Queue → Nat} {p p' : SProgram} {ps ps' : List SProgram} {calls : List Call}

theorem sizeAfter_one (size : Queue → Nat) (s : Entry) (q : Queue) :
    sizeAfter size [⟨s, q⟩] = update size q (size q + 1) := by
  rw [sizeAfter_cons, sizeAfter_nil]

variable {it : InstType} {q : Queue}

theorem dest_of_pos (h : p.map it = q.val + 1) : dest it p = .ok q := by
  rw [dest, if_pos (by omega), h, add_sub_cancel_right, asQueue_val]

theorem dest_of_neg (h : p.map it < 0) (hq : p.counter = q.val) : dest it p = .ok q := by
  rw [dest, if_neg (by omega), hq, asQueue_val]

/-- The destination of a step is where its calls go. -/
theorem ProgramStep.dest_eq (h : ProgramStep advance now s size p calls p')
    (hm : p.map s.insttype ≠ 0) : ∃ q, dest s.insttype p = .ok q ∧ ∀ c ∈ calls, c.queue = q := by
  cases h with
  | unmapped h => exact absurd h hm
  | fixed h => exact ⟨_, dest_of_pos h, by simp⟩
  | counter h hq => exact ⟨_, dest_of_neg (by omega) hq, by simp⟩
  | stay h hq => exact ⟨_, dest_of_neg (by omega) hq, by simp⟩
  | switch h hq => exact ⟨_, dest_of_neg (by omega) hq, by simp⟩

theorem planProgram_eq_ok : planProgram advance now s p size = (calls, .ok p') ↔
    ProgramStep advance now s size p calls p' := by
  refine ⟨fun h => ?_, ProgramStep.planProgram_eq⟩
  have hst := programStep_of_ok (congrArg Prod.snd h)
  rwa [h] at hst

/-- The first program of a round that goes through has a step. -/
theorem goesThrough_cons_iff (advance : SProgram → SProgram) (now : UInt64) (hs : s.insttype ≠ .block) :
    goesThrough steady s.insttype size (p :: ps) = true ↔
      ∃ calls p', ProgramStep advance now s size p calls p' ∧ Room CAPACITY size calls ∧
        (steady = true → NoBlock calls) ∧
        goesThrough steady s.insttype (sizeAfter size calls) ps = true := by
  have hone : ∀ q, NoBlock [⟨s, q⟩] := fun q c hc => mem_singleton.1 hc ▸ hs
  simp only [← planProgram_eq_ok, goesThrough, planProgram, dest]
  by_cases h0 : p.map s.insttype = 0
  · simp [h0, Plan.pure, Room, NoBlock]
  by_cases hpos : 0 < p.map s.insttype
  · rcases asQueue (p.map s.insttype - 1) with e | q
    · simp [h0, hpos, Plan.bind, Plan.lift]
    · simp [h0, hpos, Plan.bind, Plan.lift, Plan.add, Plan.pure, Room, hone, sizeAfter_one,
        show ¬ p.map s.insttype < -1 by omega]
  rcases asQueue p.counter with e | q
  · by_cases hm : p.map s.insttype = -1 <;> simp [h0, hpos, hm, Plan.bind, Plan.lift]
  by_cases hm : p.map s.insttype = -1
  · simp [hm, Plan.bind, Plan.lift, Plan.add, Plan.pure, Room, hone, sizeAfter_one]
  have hneg : p.map s.insttype < -1 := by omega
  simp only [h0, hpos, hm, hneg, if_false, true_and, Plan.bind, Plan.lift, Plan.add, Plan.sizes, sizeAfter_nil,
    nil_append, sizeAfter_one, update_self]
  by_cases hfull : QUEUESIZE - 2 ≤ size q + 1
  · have hbl : ∀ data, ¬ NoBlock [⟨s, q⟩, ⟨Entry.new now .block data 0 0, q⟩] := fun data hno =>
      hno _ (mem_cons_of_mem _ (mem_singleton_self _)) rfl
    simp only [hfull, if_true]
    rcases getNextCore (QUEUESIZE / 2) p (update size q (size q + 1)) with e | _ | newcore
    · simp [Plan.bind, Plan.lift]
    · simp [Plan.bind, Plan.lift, Plan.pure, Room, hone, sizeAfter_one]
    · simp [Plan.bind, Plan.lift, Plan.add, Plan.pure, Room, hbl, sizeAfter_cons, and_assoc, and_left_comm]
  · simp [hfull, Plan.pure, Room, hone, sizeAfter_one]

/-- **When a round goes through**: exactly when its plan has no fault, finds room, and, if it is to
be steady, leaves no `Block` behind. -/
theorem goesThrough_iff (advance : SProgram → SProgram) (now : UInt64) (hs : s.insttype ≠ .block) :
    ∀ {ps : List SProgram} {size : Queue → Nat}, goesThrough steady s.insttype size ps = true ↔
      ∃ calls ps', ProgramSteps advance now s size ps calls ps' ∧ Room CAPACITY size calls ∧
        (steady = true → NoBlock calls)
  | [], size => ⟨fun _ => ⟨[], [], .nil, trivial, fun _ c hc => absurd hc not_mem_nil⟩, fun _ => rfl⟩
  | p :: ps, size => by
    rw [goesThrough_cons_iff advance now hs]
    constructor
    · rintro ⟨calls, p', hstep, hro, hbl, h⟩
      obtain ⟨calls', ps', hste, hr', hb'⟩ := (goesThrough_iff advance now hs).1 h
      exact ⟨_, _, .cons hstep hste, room_append.2 ⟨hro, hr'⟩, fun hst => forall_mem_append.2 ⟨hbl hst, hb' hst⟩⟩
    · rintro ⟨_, _, hste, hro, hbl⟩
      cases hste with
      | cons hstep hste =>
        have hb' := fun hst => forall_mem_append.1 (hbl hst)
        exact ⟨_, _, hstep, (room_append.1 hro).1, fun hst => (hb' hst).1,
          (goesThrough_iff advance now hs).2 ⟨_, _, hste, (room_append.1 hro).2, fun hst => (hb' hst).2⟩⟩

theorem sends_cons_unmapped (h : p.map it = 0) : sends it (p :: ps) = sends it ps :=
  filterMap_cons_none (if_pos h)

theorem sends_cons_of_dest (h : p.map it ≠ 0) (hd : dest it p = .ok q) : sends it (p :: ps) = q :: sends it ps :=
  filterMap_cons_some (by rw [if_neg h, hd]; rfl)

/-- A steady round without rotation adds the entry once for each destination, and leaves the
programs as they are. -/
theorem ProgramSteps.eq_of_noBlock (h : ProgramSteps id now s size ps calls ps') (hb : NoBlock calls) :
    calls = (sends s.insttype ps).map (⟨s, ·⟩) ∧ ps' = ps := by
  induction h with
  | nil => exact ⟨rfl, rfl⟩
  | @cons size p p' calls calls' ps ps' hst _ ih =>
    obtain ⟨hf, hre⟩ := forall_mem_append.1 hb
    obtain ⟨rfl, rfl⟩ := ih hre
    cases hst with
    | unmapped h0 =>
      rw [sends_cons_unmapped h0]
      exact ⟨rfl, rfl⟩
    | fixed h =>
      rw [sends_cons_of_dest (by omega) (dest_of_pos h)]
      exact ⟨rfl, rfl⟩
    | counter h hq =>
      rw [sends_cons_of_dest (by omega) (dest_of_neg (by omega) hq)]
      exact ⟨rfl, rfl⟩
    | stay h hq =>
      rw [sends_cons_of_dest (by omega) (dest_of_neg (by omega) hq)]
      exact ⟨rfl, rfl⟩
    | switch =>
      have hbl := hf _ (mem_cons_of_mem _ (mem_singleton_self _))
      exact (hbl rfl).elim

/-! ## What a round leaves in a queue -/

/-- The list consists of `k` copies of the entry, each followed by at most one `Block`. -/
inductive Segments (e : Entry) : Nat → List Entry → Prop
  | nil : Segments e 0 []
  | plain {k : Nat} {l : List Entry} (h : Segments e k l) : Segments e (k + 1) (e :: l)
  | block {k : Nat} {l : List Entry} {b : Entry} (hb : b.insttype = .block) (h : Segments e k l) :
      Segments e (k + 1) (e :: b :: l)

/-- **A round leaves one copy of the entry for each program with that destination.** -/
theorem ProgramSteps.segments (h : ProgramSteps advance now s size ps calls ps') (q : Queue) :
    Segments { s with sender := 0 } ((sends s.insttype ps).count q) (handedBy 0 calls q) := by
  induction h with
  | nil => exact .nil
  | @cons size p p' calls calls' ps ps' hst _ ih =>
    rw [handedBy_append]
    by_cases h0 : p.map s.insttype = 0
    · cases hst with
      | unmapped =>
        rw [sends_cons_unmapped h0]
        exact ih
      | fixed | counter | stay | switch => omega
    · obtain ⟨r, hr, hca⟩ := hst.dest_eq h0
      rw [sends_cons_of_dest h0 hr]
      by_cases hq : r = q
      · subst hq
        cases hst with
        | unmapped h => exact absurd h h0
        | fixed | counter | stay =>
          cases hca _ (mem_singleton_self _)
          simpa [handedBy] using Segments.plain ih
        | switch =>
          cases hca _ mem_cons_self
          simpa [handedBy] using Segments.block rfl ih
      · have hnil : handedBy 0 calls q = [] := by
          rw [handedBy, filter_eq_nil_iff.2 fun c hc => ?_, map_nil]
          simpa [hca c hc] using hq
        rw [count_cons_of_ne hq, hnil]
        exact ih

end

variable {e : Entry} {l : List Entry} {calls : List Call} {data1 data2 data3 : UInt64} {st st' : State}

theorem Segments.eq_nil (h : Segments e 0 l) : l = [] := by
  cases h
  rfl

theorem Segments.eq_one (h : Segments e 1 l) : l = [e] ∨ ∃ b, b.insttype = .block ∧ l = [e, b] := by
  cases h with
  | plain h =>
    rw [h.eq_nil]
    exact .inl rfl
  | block hb h =>
    rw [h.eq_nil]
    exact .inr ⟨_, hb, rfl⟩

/-- Segments are empty or begin with the entry. -/
theorem Segments.head {x : Entry} {k : Nat} {l' rest : List Entry} (h : Segments e k l)
    (hx : l ++ rest = x :: l') (hne : x ≠ e) : l = [] := by
  cases h with
  | nil => rfl
  | _ => exact absurd (List.cons.inj hx).1.symm hne

/-- The list consists of `k` times the three words in a row, with `Block` entries in between. -/
inductive Triples (e1 e2 e3 : Entry) : Nat → List Entry → Prop
  | nil : Triples e1 e2 e3 0 []
  | words {k : Nat} {l : List Entry} (h : Triples e1 e2 e3 k l) : Triples e1 e2 e3 (k + 1) (e1 :: e2 :: e3 :: l)
  | block {k : Nat} {l : List Entry} {b : Entry} (hb : b.insttype = .block)
      (h : Triples e1 e2 e3 k l) : Triples e1 e2 e3 k (b :: l)

section

variable {e1 e2 e3 : Entry} {k k1 : Nat} {l0 l1 l2 : List Entry}

theorem Triples.tail_of_cons {l : List Entry} (h : Triples e1 e2 e3 k (e1 :: l))
    (hb : e1.insttype ≠ .block) : ∃ l', l = e2 :: e3 :: l' := by
  cases h with
  | words h => exact ⟨_, rfl⟩
  | block hb' h => exact absurd hb' hb

/-- **Three rounds that leave the words together**: at most one program, and no `Block` after the
first or the second word. -/
theorem Triples.rounds (h12 : e2 ≠ e1) (h23 : e3 ≠ e2) (hb1 : e1.insttype ≠ .block)
    (hb2 : e2.insttype ≠ .block) (hb3 : e3.insttype ≠ .block) (h : Triples e1 e2 e3 k (l0 ++ (l1 ++ l2)))
    (h0 : Segments e1 k l0) (h1 : Segments e2 k1 l1) :
    k ≤ 1 ∧ (∀ b ∈ l0, b.insttype ≠ .block) ∧ ∀ b ∈ l1, b.insttype ≠ .block := by
  cases h0 with
  | nil =>
    -- no first word, so no second one either
    have hl1 : l1 = [] := by
      cases h1 with
      | nil => rfl
      | plain | block =>
        cases h with
        | block hb => exact absurd hb hb2
    subst hl1
    exact ⟨Nat.zero_le 1, by simp, by simp⟩
  | @plain k l h0 =>
    obtain ⟨l', hl'⟩ := Triples.tail_of_cons h hb1
    cases h0.head hl' h12
    cases h0
    refine ⟨le_rfl, by simpa using hb1, ?_⟩
    cases h1 with
    | nil => simp
    | @plain _ l h1 =>
      have hl : l ++ l2 = e3 :: l' := (List.cons.inj hl').2
      cases h1.head hl h23
      simpa using hb2
    | @block _ l b hb h1 =>
      have hl : b :: (l ++ l2) = e3 :: l' := (List.cons.inj hl').2
      exact absurd ((List.cons.inj hl).1 ▸ hb) hb3
  | @block k l b hb h0 =>
    obtain ⟨l', hl'⟩ := Triples.tail_of_cons h hb1
    have hl : b :: (l ++ (l1 ++ l2)) = e2 :: e3 :: l' := hl'
    exact absurd ((List.cons.inj hl).1 ▸ hb) hb2

/-- The converse: one program, and no `Block` after the first two words. -/
theorem triples_of_rounds (hk : k ≤ 1) (h0 : Segments e1 k l0) (hn0 : ∀ b ∈ l0, b.insttype ≠ .block)
    (h1 : Segments e2 k l1) (hn1 : ∀ b ∈ l1, b.insttype ≠ .block) (h2 : Segments e3 k l2) :
    Triples e1 e2 e3 k (l0 ++ (l1 ++ l2)) ∧ (l0 ++ (l1 ++ l2)).length ≤ 4 := by
  rcases Nat.le_one_iff_eq_zero_or_eq_one.1 hk with rfl | rfl
  · rw [h0.eq_nil, h1.eq_nil, h2.eq_nil]
    exact ⟨.nil, by decide⟩
  have ho : ∀ {e : Entry} {l : List Entry}, Segments e 1 l → (∀ b ∈ l, b.insttype ≠ .block) → l = [e] := by
    intro e l h hn
    rcases h.eq_one with rfl | ⟨b, hb, rfl⟩
    · rfl
    · exact absurd hb (hn b (mem_cons_of_mem _ (mem_singleton_self b)))
  rw [ho h0 hn0, ho h1 hn1]
  rcases h2.eq_one with rfl | ⟨b, hb, rfl⟩
  · exact ⟨.words .nil, by simp⟩
  · exact ⟨.words (.block hb .nil), by simp⟩

end

/-! ## Receiving -/

section

variable {lo : Nat} {st st' : State} {q : Queue}

variable {writer : Core}

/-- A few entries more do not overwrite what was written just before. -/
theorem Kept.addAll : ∀ {calls : List Call} {st st' : State},
    addAll writer calls st = .ok st' → (st'.handed q).length ≤ lo + QUEUESIZE →
    Positions st q → Kept lo st q → Kept lo st' q
  | [], st, st', h, _, _, hk => by
    cases h
    exact hk
  | c :: cs, st, st', h, hlap, hp, hk => by
    obtain ⟨-, h2⟩ := addAll_cons_eq_ok.1 h
    refine Kept.addAll h2 hlap (hp.added _ _ _) (hk.added hp (fun hq => ?_) _ _)
    subst hq
    have hlen := congrArg List.length ((addAll_fields h2).2.1 c.queue)
    rw [added_handed, update_self, length_append, length_append, length_singleton] at hlen
    omega

/-- Entries that find room do not overwrite what the reader has not reached. -/
theorem Kept.addAll_of_room : ∀ {calls : List Call} {st st' : State},
    SecureLog.addAll writer calls st = .ok st' → Room QUEUESIZE st.queueSize calls →
    Positions st q → (st.popped q).length ≤ lo → Kept lo st q → Kept lo st' q
  | [], st, st', h, _, _, _, hk => by
    cases h
    exact hk
  | c :: cs, st, st', h, hro, hp, hle, hk => by
    obtain ⟨-, h2⟩ := addAll_cons_eq_ok.1 h
    refine Kept.addAll_of_room h2 hro.2 (hp.added _ _ _) hle (hk.added hp (fun hq => ?_) _ _)
    subst hq
    have := hp.size
    have := hro.1
    omega

/-- The core of the queue has the entries `l` before it, and is awake if there are any. -/
structure Reads (st : State) (q : Queue) (l : List Entry) : Prop where
  positions : Positions st q
  kept : Kept (st.popped q).length st q
  rest : (st.handed q).drop (st.popped q).length = l
  awake : l ≠ [] → st.pause q.succ = false

/-- A pop returns the first of them. -/
theorem Reads.pop {e : Entry} {l : List Entry} (h : Reads st q (e :: l)) :
    popFromQueue q 1 st = .ok (e.data, afterPop q st) ∧ Reads (afterPop q st) q l := by
  have hsi := h.positions.size
  have ha := h.awake (cons_ne_nil e l)
  have hlen := congrArg List.length h.rest
  rw [length_drop, length_cons] at hlen
  have hlt : (st.popped q).length < (st.handed q).length := by omega
  obtain ⟨rfl, rfl⟩ := List.cons.inj ((drop_eq_getElem_cons hlt).symm.trans h.rest)
  have hread : st.queues q (st.queueStart q) = (st.handed q)[(st.popped q).length] := by
    rw [h.positions.start]
    exact h.kept.read hlt
  have hpo : ((afterPop q st).popped q).length = (st.popped q).length + 1 := by simp
  refine ⟨popFromQueue_eq_ok.2 ⟨ha, by omega, by rw [hread]; rfl, rfl⟩, h.positions.afterPop (by omega), ?_, ?_,
    fun hne => ?_⟩
  · rw [hpo]
    exact Ring.Holds.mono h.kept (Nat.le_succ _)
  · rw [hpo, afterPop_handed]
  · have hm := length_pos_iff.2 hne
    rw [afterPop_pause, if_neg (by omega), ha]
    split <;> rfl

/-- **Three pops return the three words that are there.** -/
theorem Reads.messageRcv3 {e1 e2 e3 : Entry} {post : List Entry} (h : Reads st q (e1 :: e2 :: e3 :: post)) :
    ∃ st₃, messageRcv3 q st = .ok ((e1.data, e2.data, e3.data), st₃) := by
  obtain ⟨hpop1, h⟩ := h.pop
  obtain ⟨hpop2, h⟩ := h.pop
  obtain ⟨hpop3, -⟩ := h.pop
  rw [SecureLog.messageRcv3, hpop1, ok_bind]
  dsimp only
  rw [hpop2, ok_bind]
  dsimp only
  rw [hpop3, ok_bind]
  exact ⟨_, rfl⟩

/-- While entries find room, what was kept stays so until the reader gets there. -/
theorem Kept.run (h : Reaches exec (fun st op => Enabled st op ∧ HasRoom st op) st st')
    (hp : ∀ q, Positions st q) (hk : Kept lo st q) :
    (∀ q, Positions st' q) ∧ ((st'.popped q).length ≤ lo → Kept lo st' q) ∧ st.handed q <+: st'.handed q := by
  refine h.invariant (P := fun st' => (∀ q, Positions st' q) ∧
    ((st'.popped q).length ≤ lo → Kept lo st' q) ∧ st.handed q <+: st'.handed q)
    ⟨hp, fun _ => hk, prefix_rfl⟩ ?_
  intro s s' op _ ⟨hp, hk, hpre⟩ hok hs
  refine ⟨Positions.exec hp hok.1 hs, ?_⟩
  rcases exec_cases hok.1 hs with ⟨ps, st₁, -, -, hadd, rfl⟩ | ⟨queue, item, -, -, hne, rfl⟩ | ⟨-, hid⟩
  · obtain ⟨-, hh, hpo, -⟩ := addAll_fields hadd
    refine ⟨fun hle => ?_, hpre.trans ?_⟩
    · have hle' : (s.popped q).length ≤ lo := hpo ▸ hle
      have hk' : Kept lo st₁ q := Kept.addAll_of_room hadd hok.2 (hp q) hle' (hk hle')
      exact hk'
    · exact ⟨_, (hh q).symm⟩
  · refine ⟨fun hle => hk ?_, hpre⟩
    by_cases hq : q = queue
    · subst hq
      rw [afterPop_popped, update_self, length_append] at hle
      omega
    · rwa [afterPop_popped, update_of_ne hq] at hle
  · cases hid <;> exact ⟨hk, hpre⟩

end

/-! ## Sending -/

/-- The queue sizes after a round in which every program sent one entry to its destination. -/
def afterRound (ps : List SProgram) (size : Queue → Nat) : Queue → Nat :=
  fun q => size q + (sends .comms ps).count q

/-- A message of three words can be sent: no two programs have the same destination, the first two
rounds go through without a switch, and the third goes through. -/
def Sendable (st : State) : Prop :=
  (sends .comms st.programs).Nodup ∧
  goesThrough true .comms st.queueSize st.programs = true ∧
  goesThrough true .comms (afterRound st.programs st.queueSize) st.programs = true ∧
  goesThrough false .comms (afterRound st.programs (afterRound st.programs st.queueSize))
    st.programs = true
deriving Decidable

/-- The three words of a message, sent in state `st`, have arrived whole in state `st'`. -/
structure SentWhole (data1 data2 data3 : UInt64) (st st' : State) : Prop where
  /-- In each queue the new words are in threes, one three for each program that sends there. -/
  whole : ∀ q, ∃ new, st'.handed q = st.handed q ++ new ∧
    Triples (commsEntry st.curTick data1) (commsEntry st.curTick data2)
      (commsEntry st.curTick data3) ((sends .comms st.programs).count q) new
  /-- A core that has read everything before such a three receives the three words, as long as
  nobody writes into a full queue in the meantime. -/
  received : ∀ q before after, st'.handed q = before ++ commsEntry st.curTick data1 ::
      commsEntry st.curTick data2 :: commsEntry st.curTick data3 :: after →
    (st.handed q).length ≤ before.length →
    ∀ st'', Reaches exec (fun st op => Enabled st op ∧ HasRoom st op) st' st'' →
      (st''.popped q).length = before.length → st''.pause q.succ = false →
      ∃ st₃, messageRcv3 q st'' = .ok ((data1, data2, data3), st₃)

theorem commsEntry_ne_block (now data : UInt64) : (commsEntry now data).insttype ≠ .block := by
  intro h
  cases h

theorem sizeAfter_sends (s : Entry) (ps : List SProgram) (size : Queue → Nat) :
    sizeAfter size ((sends .comms ps).map (⟨s, ·⟩)) = afterRound ps size := by
  funext q
  rw [sizeAfter, afterRound, countP_map, count_eq_countP]
  congr 1

/-- The three rounds of a send that does not run into a fault. -/
theorem planSend_eq_ok {now : UInt64} {ps ps₃ : List SProgram} {size : Queue → Nat} :
    planSend now data1 data2 data3 ps size = (calls, .ok ps₃) ↔ ∃ c0 ps₁ c1 ps₂ c2,
      ProgramSteps id now (commsEntry now data1) size ps c0 ps₁ ∧
      ProgramSteps id now (commsEntry now data2) (sizeAfter size c0) ps₁ c1 ps₂ ∧
      ProgramSteps advanceCounter now (commsEntry now data3) (sizeAfter (sizeAfter size c0) c1) ps₂
        c2 ps₃ ∧ calls = c0 ++ (c1 ++ c2) := by
  rw [planSend, Plan.bind_eq_ok]
  simp only [Plan.bind_eq_ok, planPrograms_eq_ok]
  constructor
  · rintro ⟨c0, ps₁, c12, h0, ⟨c1, ps₂, c2, h1, h2, rfl⟩, rfl⟩
    exact ⟨c0, ps₁, c1, ps₂, c2, h0, h1, h2, rfl⟩
  · rintro ⟨c0, ps₁, c1, ps₂, c2, h0, h1, h2, rfl⟩
    exact ⟨c0, ps₁, c1 ++ c2, h0, ⟨c1, ps₂, c2, h1, h2, rfl⟩, rfl⟩

/-- What a successful send does. -/
theorem sendMessages_eq_ok : sendMessages data1 data2 data3 st = .ok st' ↔ ∃ calls ps₃ st₁,
      planSend st.curTick data1 data2 data3 st.programs st.queueSize = (calls, .ok ps₃) ∧
      addAll 0 calls st = .ok st₁ ∧ st' = withPrograms ps₃ st₁ := by
  rw [sendMessages_eq, performMap_eq_ok]
  constructor
  · rintro ⟨ps₃, st₁, hps, hadd, rfl⟩
    exact ⟨_, ps₃, st₁, Prod.ext rfl hps, hadd, rfl⟩
  · rintro ⟨calls, ps₃, st₁, hpl, hadd, rfl⟩
    refine ⟨ps₃, st₁, congrArg Prod.snd hpl, ?_, rfl⟩
    rw [show ((Op.sendMessages data1 data2 data3).plan st st.queueSize).1 = calls from
      congrArg Prod.fst hpl]
    exact hadd

theorem noBlock_of_handedBy (h : ∀ q, ∀ b ∈ handedBy 0 calls q, b.insttype ≠ .block) : NoBlock calls := by
  intro c hc
  refine h c.queue { c.entry with sender := 0 } ?_
  exact mem_map.2 ⟨c, mem_filter.2 ⟨hc, by simp⟩, rfl⟩

theorem NoBlock.handedBy (h : NoBlock calls) (q : Queue) : ∀ b ∈ handedBy 0 calls q, b.insttype ≠ .block := by
  intro b hb
  obtain ⟨c, hc, rfl⟩ := mem_map.1 hb
  exact h c (mem_filter.1 hc).1

/-- **A message that arrives whole could be sent**, whatever the words were, as long as they were
different. -/
theorem sendable_of_whole (hsi : ∀ q, st.queueSize q ≤ CAPACITY) (h12 : data2 ≠ data1) (h23 : data3 ≠ data2)
    (hse : sendMessages data1 data2 data3 st = .ok st') (h : SentWhole data1 data2 data3 st st') : Sendable st := by
  obtain ⟨calls, ps₃, st₁, hpl, hadd, rfl⟩ := sendMessages_eq_ok.1 hse
  obtain ⟨c0, ps₁, c1, ps₂, c2, h0, h1, h2, rfl⟩ := planSend_eq_ok.1 hpl
  have hro : ∀ q, (sends .comms st.programs).count q ≤ 1 ∧ (∀ b ∈ handedBy 0 c0 q, b.insttype ≠ .block) ∧
      ∀ b ∈ handedBy 0 c1 q, b.insttype ≠ .block := by
    intro q
    obtain ⟨new, hnew, htr⟩ := h.whole q
    have hh : st₁.handed q = _ := (addAll_fields hadd).2.1 q
    rw [show (withPrograms ps₃ st₁).handed q = st₁.handed q from rfl, hh,
      append_cancel_left_eq, handedBy_append, handedBy_append] at hnew
    rw [← hnew] at htr
    refine htr.rounds ?_ ?_ (commsEntry_ne_block _ _) (commsEntry_ne_block _ _)
      (commsEntry_ne_block _ _) (h0.segments q) (h1.segments q)
    · exact fun he => h12 (congrArg Entry.data he)
    · exact fun he => h23 (congrArg Entry.data he)
  have hn0 : NoBlock c0 := noBlock_of_handedBy fun q => (hro q).2.1
  have hn1 : NoBlock c1 := noBlock_of_handedBy fun q => (hro q).2.2
  obtain ⟨hc0, rfl⟩ := h0.eq_of_noBlock hn0
  obtain ⟨hc1, rfl⟩ := h1.eq_of_noBlock hn1
  obtain ⟨hr0, hroo⟩ := room_append.1 (room_of_addAll hadd hsi).1
  obtain ⟨hr1, hr2⟩ := room_append.1 hroo
  have hs0 : sizeAfter st.queueSize c0 = afterRound st.programs st.queueSize := by
    rw [hc0]
    exact sizeAfter_sends _ _ _
  have hs1 : sizeAfter (sizeAfter st.queueSize c0) c1
      = afterRound st.programs (afterRound st.programs st.queueSize) := by
    rw [hs0, hc1]
    exact sizeAfter_sends _ _ _
  rw [hs0] at h1 hr1
  rw [hs1] at h2 hr2
  refine ⟨nodup_iff_count_le_one.2 fun q => (hro q).1, ?_, ?_, ?_⟩
  · exact (goesThrough_iff _ _ (commsEntry_ne_block _ _)).2 ⟨c0, _, h0, hr0, fun _ => hn0⟩
  · exact (goesThrough_iff _ _ (commsEntry_ne_block _ _)).2 ⟨c1, _, h1, hr1, fun _ => hn1⟩
  · exact (goesThrough_iff _ _ (commsEntry_ne_block _ _)).2 ⟨c2, _, h2, hr2, fun hst => absurd hst Bool.false_ne_true⟩

/-- **A message that can be sent arrives whole**, whatever the words are. -/
theorem sentWhole_of_sendable (hp : ∀ q, Positions st q) (h : Sendable st) (data1 data2 data3 : UInt64) :
    ∃ st', sendMessages data1 data2 data3 st = .ok st' ∧ SentWhole data1 data2 data3 st st' := by
  obtain ⟨hn, hr0, hr1, hr2⟩ := h
  -- the calls of the three rounds
  obtain ⟨c0, ps₁, h0, hro0, hn0⟩ := (goesThrough_iff id st.curTick (commsEntry_ne_block st.curTick data1)).1 hr0
  obtain ⟨hc0, rfl⟩ := h0.eq_of_noBlock (hn0 rfl)
  have hs0 : sizeAfter st.queueSize c0 = afterRound st.programs st.queueSize := by
    rw [hc0]
    exact sizeAfter_sends _ _ _
  rw [← hs0] at hr1 hr2
  obtain ⟨c1, ps₂, h1, hro1, hn1⟩ := (goesThrough_iff id st.curTick (commsEntry_ne_block st.curTick data2)).1 hr1
  obtain ⟨hc1, rfl⟩ := h1.eq_of_noBlock (hn1 rfl)
  have hs1 : sizeAfter (sizeAfter st.queueSize c0) c1
      = afterRound st.programs (sizeAfter st.queueSize c0) := by
    rw [hc1]
    exact sizeAfter_sends _ _ _
  rw [← hs1] at hr2
  obtain ⟨c2, ps₃, h2, hro2, -⟩ := (goesThrough_iff advanceCounter
    st.curTick (commsEntry_ne_block st.curTick data3)).1 hr2
  obtain ⟨st₁, hadd⟩ := addAll_of_room 0 (room_append.2 ⟨hro0, room_append.2 ⟨hro1, hro2⟩⟩)
  -- what they leave in each queue
  have hnew : ∀ q, ∃ new, st₁.handed q = st.handed q ++ new ∧ new.length ≤ 4 ∧
      Triples (commsEntry st.curTick data1) (commsEntry st.curTick data2)
        (commsEntry st.curTick data3) ((sends .comms st.programs).count q) new := by
    intro q
    have hco := nodup_iff_count_le_one.1 hn q
    obtain ⟨htr, hlen⟩ := triples_of_rounds hco (h0.segments q) ((hn0 rfl).handedBy q)
      (h1.segments q) ((hn1 rfl).handedBy q) (h2.segments q)
    refine ⟨_, ?_, hlen, htr⟩
    rw [(addAll_fields hadd).2.1 q, handedBy_append, handedBy_append]
  refine ⟨withPrograms ps₃ st₁, sendMessages_eq_ok.2
    ⟨_, ps₃, st₁, planSend_eq_ok.2 ⟨c0, _, c1, _, c2, h0, h1, h2, rfl⟩, hadd, rfl⟩, ?_, ?_⟩
  · intro q
    obtain ⟨new, hnew, -, htr⟩ := hnew q
    exact ⟨new, hnew, htr⟩
  · intro q before after hsp hbe st'' hrun hpo ha
    obtain ⟨new, hnewq, hlen, -⟩ := hnew q
    have hpos : ∀ q, Positions st₁ q := fun q => addAll_invariant
      (P := fun st => Positions st q) (fun s queue hp => hp.added s queue 0) hadd (hp q)
    have hke : Kept (st.handed q).length st₁ q := by
      refine Kept.addAll hadd ?_ (hp q) (Ring.holds_of_length_le le_rfl)
      have hQ : QUEUESIZE = 64 := rfl
      rw [hnewq, length_append]
      omega
    have hk' : Kept before.length (withPrograms ps₃ st₁) q := Ring.Holds.mono hke hbe
    obtain ⟨hpos'', hk'', more, hm⟩ := hk'.run hrun fun q => ⟨(hpos q).start, (hpos q).stop, (hpos q).size⟩
    have hreads : Reads st'' q (commsEntry st.curTick data1 :: commsEntry st.curTick data2 ::
        commsEntry st.curTick data3 :: (after ++ more)) := by
      refine ⟨hpos'' q, hpo ▸ hk'' hpo.le, ?_, fun _ => ha⟩
      rw [hpo, ← hm, hsp, append_assoc, drop_left]
      rfl
    exact hreads.messageRcv3

/-- **Three-word messages are received whole exactly when they can be sent** (`Sendable`): no two
programs have the same destination, no program in blocker mode changes its queue after the first or
the second word, and there is room. -/
theorem sentWhole_iff {programs : List SProgram} {filterb : InstType → Bool} {ready : Int}
    {st : State} (h : Reachable programs filterb ready st) :
    (∀ data1 data2 data3, ∃ st', sendMessages data1 data2 data3 st = .ok st' ∧
      SentWhole data1 data2 data3 st st') ↔ Sendable st := by
  constructor
  · intro hall
    obtain ⟨st', hse, hwh⟩ := hall 1 2 3
    exact sendable_of_whole (queueSize_le_of_reachable h) (by decide) (by decide) hse hwh
  · exact sentWhole_of_sendable (positions_of_reachable h)

/-- A program on two cores that takes loads and messages in blocker mode: the configuration file is
`2` and `|000000|0`. -/
def messagePrograms : List SProgram :=
  [{ map := fun it => match it with | .load => -2 | .comms => -2 | _ => 0
     counter := 0, corestart := 0, coreend := 1 }]

def messageFilter : InstType → Bool
  | .load => true
  | .comms => true
  | _ => false

/-- The main core commits `n` loads. -/
def commitLoads (n : Nat) : List Op := .mappersReady :: List.replicate n (commitLoad 1)

/-- With room for the first two words the message arrives whole, although the program moves on
after the third. -/
theorem sentWhole_before_switch : ∃ st, Reachable messagePrograms messageFilter 2 st ∧ st.queueSize 0 = QUEUESIZE - 5 ∧
    ∀ data1 data2 data3, ∃ st', sendMessages data1 data2 data3 st = .ok st' ∧ SentWhole data1 data2 data3 st st' := by
  obtain ⟨st, hr, hsi, hse⟩ := exists_reaches exec Enabled (init messagePrograms messageFilter 2)
    (commitLoads (QUEUESIZE - 5)) (fun st => st.queueSize 0 = QUEUESIZE - 5 ∧ Sendable st)
    (by decide +kernel)
  exact ⟨st, hr, hsi, (sentWhole_iff hr).2 hse⟩

/-- **A message can be torn apart.**  Queue `0` holds `QUEUESIZE - 3` loads.  The first word makes
it nearly full, the program leaves a `Block` behind it and moves to queue `1`, and the other two
words go there. -/
theorem message_torn : ∃ st st', Reachable messagePrograms messageFilter 2 st ∧
    st.pause 0 = false ∧ sendMessages 1 2 3 st = .ok st' ∧
    (st'.handed 0).drop (QUEUESIZE - 3)
      = [commsEntry 0 1, Entry.new 0 .block 1 0 0] ∧
    st'.handed 1 = [commsEntry 0 2, commsEntry 0 3] ∧ ¬ SentWhole 1 2 3 st st' := by
  obtain ⟨st, hr, hp, hsen, hse⟩ := exists_reaches exec Enabled
    (init messagePrograms messageFilter 2) (commitLoads (QUEUESIZE - 3))
    (fun st => st.pause 0 = false ∧ (sendMessages 1 2 3 st).toOption.any (fun st' =>
        (st'.handed 0).drop (QUEUESIZE - 3) = [commsEntry 0 1, Entry.new 0 .block 1 0 0] ∧
        st'.handed 1 = [commsEntry 0 2, commsEntry 0 3]) = true ∧ ¬ Sendable st)
    (by decide +kernel)
  cases hst' : sendMessages 1 2 3 st with
  | error e =>
    rw [hst'] at hsen
    cases hsen
  | ok st' =>
    rw [hst'] at hsen
    obtain ⟨h0, h1⟩ := of_decide_eq_true hsen
    refine ⟨st, st', hr, hp, hst', h0, h1, fun hwh => hse ?_⟩
    exact sendable_of_whole (queueSize_le_of_reachable hr) (by decide) (by decide) hst' hwh

end GuardianCouncil.SecureLog
