import GuardianCouncil.Lib.Relay
import GuardianCouncil.Lib.Stepwise
import GuardianCouncil.SecureLog.Map

/-!
# The collecting kernel of the parallel shadow stack

`guardian_kernels/shadowstackpar.cpp`.  Filter kernels send words to one collecting kernel, which
keeps the shadow stack.  A word carries a two bit tag under an address: push the address, compare
it with the top of the stack and pop, or switch to another filter.  The collector listens to one
filter at a time, `currentTarget`.  Words of that filter take effect at once; words of the others
are put aside in one queue per filter, and when a switch arrives `clearQueue` replays what has been
put aside for the filter switched to, switching again if it meets another switch there.

What the collector is meant to compute does not mention arrival order: `reference` follows the
switches through the filters' streams, starting at filter `0`, and applies the words it passes to
an empty stack.  But a failed comparison is printed by `clearQueue`, which goes on, while the direct
path runs into `assert(0)`.

`origin` is a history field: the number of the committed event that made a filter send the word.
-/

namespace GuardianCouncil.ShadowStack

open List Function Fallible

open SecureLog (Queue asQueue toInt32)

/-- A word sent to the collector. -/
structure Message where
  /-- The address, shifted left over a two bit tag. -/
  word : UInt64
  /-- History: the event the word was sent for. -/
  origin : Option Nat
  deriving DecidableEq

def Message.type (m : Message) : UInt64 := m.word &&& 3

def Message.addr (m : Message) : UInt64 := m.word >>> 2

/-- A line printed about a failed comparison. -/
structure Report where
  comp : UInt64
  /-- The address it was compared with. -/
  addr : UInt64
  /-- History: the event the comparison was made for. -/
  origin : Option Nat
  deriving DecidableEq

/-! ## The stack -/

/-- A shadow stack, its top first, and what has been printed about it. -/
structure Shadow where
  stack : List UInt64
  /-- The failed comparisons, in order. -/
  reported : List Report
  deriving DecidableEq

def Shadow.init : Shadow := { stack := [], reported := [] }

/-- What a return is compared with: the top of the stack, or `0` if there is none. -/
def Shadow.comp (s : Shadow) : UInt64 := s.stack.headD 0

def Shadow.push (s : Shadow) (addr : UInt64) : Shadow := { s with stack := addr :: s.stack }

/-- A return: take the top off, and print a line if it is not the address returned to. -/
def Shadow.pop (s : Shadow) (addr : UInt64) (origin : Option Nat) : Shadow where
  stack := s.stack.tail
  reported := if s.comp = addr then s.reported else s.reported ++ [⟨s.comp, addr, origin⟩]

/-- A word that is not a switch. -/
def Shadow.apply (s : Shadow) (m : Message) : Shadow :=
  if m.type = 1 then s.push m.addr else s.pop m.addr m.origin

/-! ## The collector -/

/-- How the collector can stop. -/
inductive Stop
  /-- The assertion behind a failed comparison on the direct path. -/
  | aborted
  /-- An index outside `queues`. -/
  | outOfRange
  /-- The bound on the iterations of `clearQueue` is used up. -/
  | outOfFuel
  deriving DecidableEq

/-- The global state of the kernel. -/
structure Collector where
  shadow : Shadow
  /-- The filter listened to. -/
  currentTarget : Int
  /-- The words put aside, by filter. -/
  queues : Queue → List Message

def Collector.init : Collector :=
  { shadow := .init, currentTarget := 0, queues := fun _ => [] }

def Collector.pending (st : Collector) : Nat := ∑ q, (st.queues q).length

/-- An `int` used as an index of `queues`. -/
def index (i : Int) : Except Stop Queue :=
  match asQueue i with
  | .ok q => .ok q
  | .error _ => .error .outOfRange

/-- The loop of `clearQueue`; a switch is a call of `clearQueue` followed by a return. -/
def drain : Nat → Queue → Collector → Except Stop Collector
  | 0, _, _ => .error .outOfFuel
  | n + 1, queue, st =>
    match st.queues queue with
    | [] => .ok st
    | m :: rest =>
      let queues := update st.queues queue rest
      if m.type = 2 then do
        let q ← index (toInt32 m.addr)
        drain n q { st with currentTarget := q.val, queues }
      else
        drain n queue { st with shadow := st.shadow.apply m, queues }

/-- `clearQueue`, with a bound on the number of iterations. -/
def clearQueue (n : Nat) (queue : Queue) (st : Collector) : Except Stop Collector :=
  drain n queue { st with currentTarget := queue.val }

/-- One turn of the main loop, with a word from core `sender`. -/
def consume (st : Collector) (sender : Int) (m : Message) : Except Stop Collector :=
  if sender = st.currentTarget then
    if m.type = 2 then do
      let q ← index (toInt32 m.addr)
      clearQueue (st.pending + 1) q st
    else if m.type = 1 then
      .ok { st with shadow := st.shadow.push m.addr }
    else if st.shadow.comp = m.addr then
      .ok { st with shadow := st.shadow.pop m.addr m.origin }
    else
      .error .aborted
  else do
    let q ← index sender
    .ok { st with queues := update st.queues q (st.queues q ++ [m]) }

/-- The main loop on the words that arrive, in order. -/
def consumeAll (st : Collector) : List (Int × Message) → Except Stop Collector
  | [] => .ok st
  | (sender, m) :: rest => do
    let st ← consume st sender m
    consumeAll st rest

theorem consumeAll_append (st : Collector) (l l' : List (Int × Message)) :
    consumeAll st (l ++ l') = consumeAll st l >>= fun st => consumeAll st l' := by
  induction l generalizing st with
  | nil => rfl
  | cons a l ih =>
    rw [cons_append, consumeAll, consumeAll, bind_assoc]
    exact bind_congr_ok fun st' _ => ih st'

@[simp] theorem index_val (q : Queue) : index (q.val : Int) = .ok q := by
  rw [index, SecureLog.asQueue_val]

theorem index_eq_error {i : Int} {e : Stop} (h : index i = .error e) : e = .outOfRange := by
  rw [index] at h
  split at h
  · exact absurd h (by simp)
  · exact (Except.error.inj h).symm

variable {m : Message} {n : Nat} {queue : Queue} {st : Collector}

/-- Taking a word from a queue leaves one word fewer put aside. -/
theorem Collector.pending_take {rest : List Message} (hn : st.pending < n + 1) (hq : st.queues queue = m :: rest)
    (shadow : Shadow) (target : Int) : Collector.pending
      { shadow, currentTarget := target, queues := update st.queues queue rest } < n := by
  have hta := Relay.sum_length_update hq
  simp only [Collector.pending] at hn ⊢
  omega

/-- **`clearQueue` terminates.**  Every iteration takes a word out of some queue, so a bound above
the number of words put aside is never used up. -/
theorem drain_ne_outOfFuel (hn : st.pending < n) : drain n queue st ≠ .error .outOfFuel := by
  induction n generalizing queue st with
  | zero => omega
  | succ n ih =>
    rw [drain]
    split
    · simp
    rename_i m rest hq
    dsimp only
    split
    · rcases hi : index (toInt32 m.addr) with e | q
      · rw [error_bind, index_eq_error hi]
        simp
      · rw [ok_bind]
        exact ih (Collector.pending_take hn hq _ _)
    · exact ih (Collector.pending_take hn hq _ _)

/-! ## Following the switches -/

/-- The filter a word switches to. -/
def Message.next (m : Message) : Option Queue :=
  if m.type = 2 then (index m.addr.toNat).toOption else none

/-- A switch names one of the filters. -/
def Message.InRange (m : Message) : Prop := m.type = 2 → m.addr.toNat < 12

/-- What is to be computed from the streams of the filters: start at filter `0`, follow each
switch, and apply the words in between. -/
def reference (streams : Queue → List Message) : Shadow × Queue :=
  let read := Relay.follow Message.next (∑ q, (streams q).length) streams 0
  (read.1.foldl Shadow.apply .init, read.2.2)

/-- The words that arrived from each filter, in order. -/
def streams (arrived : List (Queue × Message)) (q : Queue) : List Message :=
  (arrived.filter fun a => a.1 = q).map Prod.snd

theorem bmod_of_lt {k m : Nat} (h : 2 * k < m) : (k : Int).bmod m = k :=
  Int.bmod_eq_of_le (by omega) (by omega)

theorem toInt32_of_lt {a : UInt64} (h : a.toNat < 12) : toInt32 a = a.toNat :=
  bmod_of_lt (m := 2 ^ 32) (by omega)

/-- A switch in range has a target, the one that `clearQueue` is called with. -/
theorem Message.InRange.next_eq (h : m.InRange) (ht : m.type = 2) :
    ∃ q : Queue, m.next = some q ∧ index (toInt32 m.addr) = .ok q := by
  refine ⟨⟨m.addr.toNat, h ht⟩, ?_, ?_⟩
  · rw [Message.next, if_pos ht, index_val ⟨m.addr.toNat, h ht⟩]
    rfl
  · rw [toInt32_of_lt (h ht)]
    exact index_val ⟨m.addr.toNat, h ht⟩

theorem Message.next_eq_none (ht : m.type ≠ 2) : m.next = none := by
  rw [Message.next, if_neg ht]

theorem streams_concat (arrived : List (Queue × Message)) (q : Queue) (m : Message) : streams (arrived ++ [(q, m)])
      = update (streams arrived) q (streams arrived q ++ [m]) := by
  funext r
  by_cases hr : r = q
  · subst hr
    simp [streams]
  · simp [streams, hr, Ne.symm hr]

/-- A collector that has read on from the words `s`, put aside at first, and from the stack
`shadow`, beginning at filter `k`: it has applied `read` and waits at filter `cur`. -/
structure Replayed (s : Queue → List Message) (k : Queue) (shadow : Shadow) (st : Collector)
    (cur : Queue) (read : List Message) : Prop where
  /-- What has been applied, and what is put aside now. -/
  follows : Relay.Follows Message.next s k read st.queues cur
  /-- Nothing is put aside for the filter listened to. -/
  caughtUp : st.queues cur = []
  /-- The filter listened to. -/
  target : st.currentTarget = cur.val
  shadow : st.shadow = read.foldl Shadow.apply shadow

/-- `clearQueue` reads on until it has caught up. -/
theorem drain_replayed (hn : st.pending < n)
    (ht : st.currentTarget = queue.val) (hr : ∀ q, ∀ m ∈ st.queues q, m.InRange) :
    ∃ st' cur read, drain n queue st = .ok st' ∧ Replayed st.queues queue st.shadow st' cur read := by
  induction n generalizing queue st with
  | zero => omega
  | succ n ih =>
    rw [drain]
    split
    · rename_i hq
      exact ⟨st, queue, [], rfl, .stop _ _, hq, ht, rfl⟩
    rename_i m rest hq
    have hre : ∀ q, ∀ x ∈ update st.queues queue rest q, x.InRange := by
      intro q x hx
      by_cases hqq : q = queue
      · subst hqq
        rw [update_self] at hx
        exact hr q x (hq ▸ mem_cons_of_mem m hx)
      · rw [update_of_ne hqq] at hx
        exact hr q x hx
    dsimp only
    split
    · -- a switch: read on in the queue switched to
      rename_i hty
      obtain ⟨q, hnext, hin⟩ := (hr queue m (by simp [hq])).next_eq hty
      rw [hin, ok_bind]
      obtain ⟨st', cur, read, hd, h⟩ := ih (Collector.pending_take hn hq st.shadow q.val) rfl hre
      exact ⟨st', cur, read, hd, .mark hq hnext h.follows, h.caughtUp, h.target, h.shadow⟩
    · -- any other word: apply it, and stay
      rename_i hty
      obtain ⟨st', cur, read, hd, h⟩ := ih (Collector.pending_take hn hq (st.shadow.apply m) st.currentTarget) ht hre
      exact ⟨st', cur, m :: read, hd, .item hq (m.next_eq_none hty) h.follows, h.caughtUp, h.target, h.shadow⟩

/-! ## One message -/

section

variable {arrived : List (Queue × Message)} {st : Collector} {cur q : Queue} {read : List Message}
  {m : Message}

/-- A word that is compared with the top of the stack. -/
def Message.IsPop (m : Message) : Prop := m.type ≠ 2 ∧ m.type ≠ 1

section

variable (h : Replayed (streams arrived) 0 .init st cur read)
include h

/-- What is put aside has arrived. -/
theorem Replayed.inRange
    (hr : ∀ a ∈ arrived, a.2.InRange) (q : Queue) (m : Message) (hm : m ∈ st.queues q) : m.InRange := by
  obtain ⟨a, ha, rfl⟩ := mem_map.1 ((h.follows.left_suffix q).subset hm)
  exact hr a (mem_filter.1 ha).1

/-- A failed comparison on the direct path stops the kernel. -/
theorem consume_aborted (hpop : m.IsPop) (hne : st.shadow.comp ≠ m.addr) : consume st cur.val m = .error .aborted := by
  rw [consume, if_pos h.target.symm, if_neg hpop.1, if_neg hpop.2, if_neg hne]

/-- **Any other message keeps the collector caught up.** -/
theorem consume_replayed
    (hr : ∀ a ∈ arrived, a.2.InRange) (hm : m.InRange) (hdi : q = cur → m.IsPop → st.shadow.comp = m.addr) :
    ∃ st' cur' read', consume st q.val m = .ok st' ∧
      Replayed (streams (arrived ++ [(q, m)])) 0 .init st' cur' read' := by
  rw [streams_concat, consume]
  by_cases hq : q = cur
  · subst hq
    rw [if_pos h.target.symm]
    by_cases h2 : m.type = 2
    · -- a switch: what `clearQueue` reads continues what has been read so far
      obtain ⟨t, hnext, hin⟩ := hm.next_eq h2
      rw [if_pos h2, hin, ok_bind]
      obtain ⟨st', cur', read', hd, h'⟩ : ∃ st' cur' read',
          clearQueue (st.pending + 1) t st = .ok st' ∧ Replayed st.queues t st.shadow st' cur' read' :=
        drain_replayed (Nat.lt_succ_self st.pending) rfl (h.inRange hr)
      refine ⟨st', cur', read ++ read', hd,
        (h.follows.push_mark h.caughtUp hnext).trans h'.follows, h'.caughtUp, h'.target, ?_⟩
      rw [foldl_append, ← h.shadow]
      exact h'.shadow
    · rw [if_neg h2]
      have hf := h.follows.push_item h.caughtUp (m.next_eq_none h2)
      by_cases h1 : m.type = 1
      · rw [if_pos h1]
        refine ⟨_, q, read ++ [m], rfl, hf, h.caughtUp, h.target, ?_⟩
        rw [foldl_concat, ← h.shadow, Shadow.apply, if_pos h1]
      · rw [if_neg h1, if_pos (hdi rfl ⟨h2, h1⟩)]
        refine ⟨_, q, read ++ [m], rfl, hf, h.caughtUp, h.target, ?_⟩
        rw [foldl_concat, ← h.shadow, Shadow.apply, if_neg h1]
  · -- a filter that is not listened to: its word waits
    have hne : ¬ (q.val : Int) = st.currentTarget := by
      rw [h.target]
      intro he
      exact hq (Fin.ext (by exact_mod_cast he))
    rw [if_neg hne, index_val, ok_bind]
    refine ⟨_, cur, read, rfl, h.follows.push q m, ?_, h.target, h.shadow⟩
    exact (update_of_ne (Ne.symm hq) _ _).trans h.caughtUp

end

end

/-! ## Whole interleavings -/

/-- The collector on the words of the filters, from the start. -/
def deliver (arrived : List (Queue × Message)) : Except Stop Collector :=
  consumeAll .init (arrived.map fun a => (a.1.val, a.2))

/-- The streams `s` interleaved as `arrived` lead the collector to what `s` alone determines, with
nothing put aside, at any time, for the filter it listens to. -/
def FollowsSwitches (s : Queue → List Message) (arrived : List (Queue × Message)) : Prop :=
  (∃ st, deliver arrived = .ok st ∧ st.shadow = (reference s).1 ∧ st.currentTarget = (reference s).2.val) ∧
  ∀ before, before <+: arrived →
    ∃ st, deliver before = .ok st ∧ ∃ q : Queue, st.currentTarget = q.val ∧ st.queues q = []

/-- No return that arrives from the filter listened to fails its comparison.  Which filter that is,
and what the stack holds, is determined by the streams so far. -/
def DirectPopsMatch : List (Queue × Message) → Prop :=
  Stepwise.Each fun before a => a.1 = (reference (streams before)).2 → a.2.IsPop →
    (reference (streams before)).1.comp = a.2.addr

section

variable {arrived : List (Queue × Message)} {st : Collector} {cur q : Queue} {read : List Message}
  {m : Message}

theorem deliver_concat : deliver (arrived ++ [(q, m)]) = deliver arrived >>= fun st => consume st q.val m := by
  rw [deliver, deliver, map_append, consumeAll_append]
  refine bind_congr_ok fun st _ => ?_
  rw [map_singleton, consumeAll]
  exact bind_ok _

/-- A collector that has caught up holds the reference result. -/
theorem Replayed.reference_eq (h : Replayed (streams arrived) 0 .init st cur read) :
    reference (streams arrived) = (st.shadow, cur) := by
  rw [reference, h.follows.follow_eq h.caughtUp le_rfl, h.shadow]

/-- The collector keeps up with an interleaving without a failed direct comparison, -/
theorem deliver_replayed (hr : ∀ a ∈ arrived, a.2.InRange) (hd : DirectPopsMatch arrived) :
    ∃ st cur read, deliver arrived = .ok st ∧ Replayed (streams arrived) 0 .init st cur read := by
  induction arrived using List.reverseRecOn with
  | nil => exact ⟨.init, 0, [], rfl, .stop _ _, rfl, rfl, rfl⟩
  | append_singleton arrived a ih =>
    obtain ⟨q, m⟩ := a
    obtain ⟨hbe, hla⟩ := Stepwise.each_concat.1 hd
    have hr' : ∀ a ∈ arrived, a.2.InRange := fun a ha => hr a (by simp [ha])
    obtain ⟨st, cur, read, hst, h⟩ := ih hr' hbe
    rw [h.reference_eq] at hla
    obtain ⟨st', cur', read', hst', h'⟩ := consume_replayed h hr' (hr (q, m) (by simp)) hla
    exact ⟨st', cur', read', by rw [deliver_concat, hst, ok_bind, hst'], h'⟩

/-- and gets through no other. -/
theorem directPopsMatch_of_deliver (hr : ∀ a ∈ arrived, a.2.InRange)
    (hst : deliver arrived = .ok st) : DirectPopsMatch arrived := by
  induction arrived using List.reverseRecOn generalizing st with
  | nil => exact Stepwise.each_nil
  | append_singleton arrived a ih =>
    obtain ⟨q, m⟩ := a
    have hr' : ∀ a ∈ arrived, a.2.InRange := fun a ha => hr a (by simp [ha])
    rw [deliver_concat] at hst
    obtain ⟨st₁, hst₁, hc⟩ := bind_eq_ok.1 hst
    have hbe := ih hr' hst₁
    refine Stepwise.each_concat.2 ⟨hbe, fun hq hpop => ?_⟩
    obtain ⟨st₂, cur, read, hst₂, h⟩ := deliver_replayed hr' hbe
    obtain rfl : st₁ = st₂ := Except.ok.inj (hst₁.symm.trans hst₂)
    rw [h.reference_eq] at hq ⊢
    subst hq
    by_contra hne
    rw [consume_aborted h hpop hne] at hc
    exact absurd hc (by simp)

/-- **What the collector computes does not depend on how its messages are interleaved, as long as
no comparison fails on the direct path.**  The result is the reference result exactly for those
interleavings; at the first failed direct comparison the kernel stops.  The replay of a queue
always comes to an end. -/
theorem collector_follows_iff {s : Queue → List Message} (hs : streams arrived = s) (hr : ∀ a ∈ arrived, a.2.InRange) :
    (∀ (st : Collector) (n : Nat) (queue : Queue), st.pending < n →
      clearQueue n queue st ≠ .error .outOfFuel) ∧
    (FollowsSwitches s arrived ↔ DirectPopsMatch arrived) := by
  subst hs
  refine ⟨fun st n queue hn => drain_ne_outOfFuel hn, ?_, fun hd => ⟨?_, ?_⟩⟩
  · rintro ⟨⟨st, hst, -⟩, -⟩
    exact directPopsMatch_of_deliver hr hst
  · obtain ⟨st, cur, read, hst, h⟩ := deliver_replayed hr hd
    rw [h.reference_eq]
    exact ⟨st, hst, rfl, h.target⟩
  · intro before hbe
    obtain ⟨st, cur, read, hst, h⟩ := deliver_replayed (fun a ha => hr a (hbe.subset ha)) (hd.beginning hbe)
    exact ⟨st, hst, cur, h.target, h.caughtUp⟩

end

/-- Filter `1` calls `8`, filter `0` switches to it, and filter `1` returns to `8` and then, wrongly
but after having switched away from itself, to `4`. -/
def overtaking : List (Queue × Message) :=
  [(1, ⟨33, some 0⟩), (0, ⟨6, none⟩), (1, ⟨32, some 1⟩), (1, ⟨14, none⟩), (1, ⟨16, some 2⟩)]

theorem collector_follows_overtaking : FollowsSwitches (streams overtaking) overtaking := by
  refine (collector_follows_iff rfl ?_).2.2 ?_
  · unfold Message.InRange
    decide +kernel
  · unfold DirectPopsMatch Message.IsPop
    decide +kernel

/-- Filter `0` switches to filter `1`, which then sends a return that no call matches. -/
def switchFirst : List (Queue × Message) := [(0, ⟨6, none⟩), (1, ⟨16, some 0⟩)]

/-- The same two words, the other way round. -/
def returnFirst : List (Queue × Message) := [(1, ⟨16, some 0⟩), (0, ⟨6, none⟩)]

/-- Two interleavings of the same two streams: if the switch comes first the failed comparison
stops the kernel, and if the return comes first it is printed and the kernel goes on. -/
theorem collector_depends_on_order : (∀ q, streams switchFirst q = streams returnFirst q) ∧
    (∀ a ∈ switchFirst, a.2.InRange) ∧
    deliver switchFirst = .error .aborted ∧
    ¬ FollowsSwitches (streams switchFirst) switchFirst ∧
    (deliver returnFirst).map Collector.shadow = .ok ⟨[], [⟨0, 4, some 0⟩]⟩ := by
  have ha : deliver switchFirst = .error .aborted := by decide +kernel
  refine ⟨by decide +kernel, by unfold Message.InRange; decide +kernel, ha, ?_, by decide +kernel⟩
  rintro ⟨⟨st, hst, -⟩, -⟩
  rw [ha] at hst
  exact absurd hst (by simp)

end GuardianCouncil.ShadowStack
