import GuardianCouncil.Lib.Relay
import GuardianCouncil.SecureLog.Plan

/-!
# Blocker mode keeps program order

In blocker mode a program feeds one queue of its range until that is nearly full, then puts a
`Block` entry with the number of another queue at the end of it and goes on there.  So a
`Block` at the end of a segment of the events says where the next one is: a relay in the sense of
`Relay.Follows`, with `nextBlock` reading the marks.

`blocker_follow` is about a program that uses blocker mode only, among others that keep out of its
range.  Pops may happen at any time: they change which queue a switch goes to, and not what was handed
over.
-/

namespace GuardianCouncil.SecureLog

open Fallible Relay List Function

/-! ## The range of a program -/

/-- The queue belongs to the program's range. -/
def Owns (p : SProgram) (q : Queue) : Prop := p.corestart ≤ q.val ∧ (q.val : Int) ≤ p.coreend

/-- The queue is one to which the program may add. -/
def Targets (p : SProgram) (q : Queue) : Prop :=
  (∃ it, p.map it = q.val + 1) ∨ ((∃ it, p.map it < 0) ∧ Owns p q)

/-- The counter points into the range. -/
def Bounded (p : SProgram) : Prop := p.corestart ≤ p.counter ∧ p.counter ≤ p.coreend

/-- The two programs differ in their counters at most. -/
structure SameShape (p p' : SProgram) : Prop where
  map : p'.map = p.map
  corestart : p'.corestart = p.corestart
  coreend : p'.coreend = p.coreend

theorem SameShape.refl (p : SProgram) : SameShape p p := ⟨rfl, rfl, rfl⟩

variable {p p' : SProgram} {q start : Queue} {n : Nat}

theorem SameShape.trans {p'' : SProgram} (h : SameShape p p') (h' : SameShape p' p'') : SameShape p p'' :=
  ⟨h'.map.trans h.map, h'.corestart.trans h.corestart, h'.coreend.trans h.coreend⟩

theorem SameShape.owns (h : SameShape p p') : Owns p' q ↔ Owns p q := by
  rw [Owns, Owns, h.corestart, h.coreend]

theorem SameShape.targets (h : SameShape p p') : Targets p' q ↔ Targets p q := by
  rw [Targets, Targets, h.map, h.owns]

/-- A movement of the counter that stays within the range. -/
def Rotates (advance : SProgram → SProgram) : Prop :=
  ∀ p, SameShape p (advance p) ∧ (Bounded p → Bounded (advance p))

theorem rotates_id : Rotates id := fun p => ⟨.refl p, id⟩

theorem rotates_advanceCounter : Rotates advanceCounter := by
  refine fun p => ⟨⟨rfl, rfl, rfl⟩, fun h => ?_⟩
  have := h.1
  have := h.2
  rw [Bounded, advanceCounter]
  dsimp only
  split <;> omega

/-- The program does not write into the range of `p`. -/
structure StaysOut (p other : SProgram) : Prop where
  /-- Its counter is in its own range. -/
  bounded : Bounded other
  /-- No queue it may add to belongs to `p`. -/
  out : ∀ q, Targets other q → ¬ Owns p q

/-! ## Programs that stay out -/

section

variable {advance : SProgram → SProgram} {s : Entry} {p other other' : SProgram} {st st' : State}

variable {calls : List Call} {now : UInt64} {size : Queue → Nat}

section

variable (h : ProgramStep advance now s size other calls other')
include h

theorem ProgramStep.targets (hb : Bounded other) : ∀ c ∈ calls, Targets other c.queue := by
  have hco : ∀ q : Queue, other.counter = q.val → Owns other q := by
    intro q hq
    rw [Owns, ← hq]
    exact hb
  intro c hc
  cases h with
  | unmapped h => exact absurd hc not_mem_nil
  | fixed h =>
    cases mem_singleton.1 hc
    exact .inl ⟨_, h⟩
  | counter h hq =>
    cases mem_singleton.1 hc
    exact .inr ⟨⟨_, by rw [h]; decide⟩, hco _ hq⟩
  | stay h hq =>
    cases mem_singleton.1 hc
    exact .inr ⟨⟨s.insttype, by omega⟩, hco _ hq⟩
  | switch h hq =>
    have hta := show Targets other _ from .inr ⟨⟨s.insttype, by omega⟩, hco _ hq⟩
    rcases mem_cons.1 hc with rfl | hc
    · exact hta
    · cases mem_singleton.1 hc
      exact hta

theorem ProgramStep.sameShape (ha : Rotates advance) : SameShape other other' := by
  cases h with
  | counter => exact (ha other).1
  | _ => exact ⟨rfl, rfl, rfl⟩

theorem ProgramStep.bounded (ha : Rotates advance) (hb : Bounded other) : Bounded other' := by
  cases h with
  | unmapped | fixed | stay => exact hb
  | counter => exact (ha other).2 hb
  | switch h hq hfull hnext =>
    obtain ⟨hlo, hhi, -⟩ := getNextCore_some hnext
    exact ⟨hlo, hhi⟩

end

/-- Between the two states nothing was handed over for the queues of `p`. -/
def HandedOutside (p : SProgram) (st st' : State) : Prop :=
  ∃ t : Queue → List Entry, (∀ q, Owns p q → t q = []) ∧ st'.handed = fun q => st.handed q ++ t q

theorem HandedOutside.refl (p : SProgram) (st : State) : HandedOutside p st st :=
  ⟨fun _ => [], fun _ _ => rfl, by simp⟩

theorem HandedOutside.trans {st'' : State} (h : HandedOutside p st st')
    (h' : HandedOutside p st' st'') : HandedOutside p st st'' := by
  obtain ⟨t, ht, hst⟩ := h
  obtain ⟨t', ht', hst'⟩ := h'
  refine ⟨fun q => t q ++ t' q, fun q hq => by simp [ht q hq, ht' q hq], ?_⟩
  rw [hst', hst]
  funext q
  rw [append_assoc]

/-- A program that stays out hands nothing to the queues of `p`, and goes on staying out. -/
theorem StaysOut.mapProgram (h : StaysOut p other) (ha : Rotates advance)
    (hm : mapProgram advance s other st = .ok (other', st')) : StaysOut p other' ∧ HandedOutside p st st' := by
  obtain ⟨calls, hst, hadd⟩ := mapProgram_cases hm
  obtain ⟨-, hh, -⟩ := addAll_fields hadd
  refine ⟨⟨hst.bounded ha h.bounded, fun q hq => ?_⟩, _, fun q hq => ?_, funext hh⟩
  · exact h.out q ((hst.sameShape ha).targets.1 hq)
  · rw [handedBy, filter_eq_nil_iff.2 fun c hc he => ?_, map_nil]
    refine h.out q ?_ hq
    have := hst.targets h.bounded c hc
    rwa [of_decide_eq_true he] at this

theorem StaysOut.mapPrograms (ha : Rotates advance) :
    ∀ {others others' : List SProgram} {st st' : State}, (∀ r ∈ others, StaysOut p r) →
      mapPrograms advance s others st = .ok (others', st') →
      (∀ r ∈ others', StaysOut p r) ∧ others'.length = others.length ∧ HandedOutside p st st'
  | [], others', st, st', _, hm => by
    cases hm
    exact ⟨fun r hr => absurd hr not_mem_nil, rfl, .refl p st⟩
  | r :: rs, others', st, st', h, hm => by
    obtain ⟨⟨r', st₁⟩, h1, hm⟩ := bind_eq_ok.1 hm
    obtain ⟨⟨rs', st₂⟩, h2, hm⟩ := bind_eq_ok.1 hm
    cases hm
    obtain ⟨hr', hout⟩ := (h r mem_cons_self).mapProgram ha h1
    obtain ⟨hrs', hlen, hout'⟩ := StaysOut.mapPrograms ha (fun r hr => h r (mem_cons_of_mem _ hr)) h2
    exact ⟨forall_mem_cons.2 ⟨hr', hrs'⟩, by rw [length_cons, length_cons, hlen], hout.trans hout'⟩

end

/-! ## The program itself -/

/-- The program uses blocker mode only: its configuration line has only `0` and `|`. -/
def BlockerOnly (p : SProgram) : Prop := ∀ it, p.map it = 0 ∨ p.map it < -1

/-- The queue that a `Block` entry names. -/
def nextBlock (e : Entry) : Option Queue :=
  if e.insttype = .block then (asQueue e.data.toNat).toOption else none

theorem nextBlock_new (now : UInt64) (q : Queue) :
    nextBlock (Entry.new now .block (UInt64.ofNat q.val) 0 0) = some q := by
  have hq : (UInt64.ofNat q.val).toNat = q.val := UInt64.toNat_ofNat_of_lt' (q.isLt.trans (by decide))
  rw [nextBlock, Entry.new, if_pos rfl, hq, asQueue_val]
  rfl

/-- Following the streams of the program from `start` on gives `mapped`, leaves nothing in its
queues, and ends at `cur`; and the marks are as they should be. -/
structure Relayed (p : SProgram) (start : Queue) (handed : Queue → List Entry)
    (mapped : List Entry) (cur : Queue) : Prop where
  /-- What a reader of the marks finds. -/
  follows : ∃ left, Follows nextBlock handed start mapped left cur ∧ ∀ q, Owns p q → left q = []
  /-- The reader ends in the range. -/
  owned : Owns p cur
  /-- Every `Block` names another queue of the range. -/
  marks : ∀ q, Owns p q → ∀ e ∈ handed q, e.insttype = .block →
    ∃ t : Queue, e.data = UInt64.ofNat t.val ∧ Owns p t ∧ t ≠ q

section

variable {p : SProgram} {start cur : Queue} {mapped : List Entry} {st st' : State}

theorem Relayed.outside (h : Relayed p start st.handed mapped cur)
    (hout : HandedOutside p st st') : Relayed p start st'.handed mapped cur := by
  obtain ⟨t, ht, hst⟩ := hout
  obtain ⟨left, hf, hlef⟩ := h.follows
  refine ⟨⟨_, hst ▸ hf.append t, fun q hq => ?_⟩, h.owned, fun q hq e he => ?_⟩
  · rw [hlef q hq, ht q hq, nil_append]
  · rw [congrFun hst q, ht q hq, append_nil] at he
    exact h.marks q hq e he

variable {s : Entry}

section

variable (h : Relayed p start st.handed mapped cur)
include h

/-- The marks, with one more entry at the end of the current queue. -/
theorem Relayed.marks_push {x : Entry}
    (hx : x.insttype = .block → ∃ t : Queue, x.data = UInt64.ofNat t.val ∧ Owns p t ∧ t ≠ cur) (q : Queue)
    (hq : Owns p q) : ∀ e ∈ update st.handed cur (st.handed cur ++ [x]) q, e.insttype = .block →
      ∃ t : Queue, e.data = UInt64.ofNat t.val ∧ Owns p t ∧ t ≠ q := by
  intro e he
  by_cases hqc : q = cur
  · subst hqc
    rw [update_self, mem_append, mem_singleton] at he
    rcases he with he | rfl
    · exact h.marks q hq e he
    · exact hx
  · rw [update_of_ne hqc] at he
    exact h.marks q hq e he

/-- One more event at the end of the current queue. -/
theorem Relayed.event (hs : s.insttype ≠ .block) :
    Relayed p start (added s cur 0 st).handed (mapped ++ [{ s with sender := 0 }]) cur := by
  obtain ⟨left, hf, hlef⟩ := h.follows
  have hnext : nextBlock { s with sender := 0 } = none := if_neg hs
  rw [added_handed]
  exact ⟨⟨left, hf.push_item (hlef cur h.owned) hnext, hlef⟩, h.owned, h.marks_push fun hb => absurd hb hs⟩

/-- A `Block` at the end of the current queue. -/
theorem Relayed.block (now : UInt64) {newcore : Queue}
    (hown : Owns p newcore) (hne : newcore ≠ cur) : Relayed p start
      (added (Entry.new now .block (UInt64.ofNat newcore.val) 0 0) cur 0 st).handed mapped
      newcore := by
  obtain ⟨left, hf, hlef⟩ := h.follows
  rw [added_handed]
  exact ⟨⟨left, hf.push_mark (hlef cur h.owned) (nextBlock_new now newcore), hlef⟩, hown,
    h.marks_push fun _ => ⟨newcore, rfl, hown, hne⟩⟩

end

/-- The event, if the program maps it, as it is handed over. -/
def mappedBy (p : SProgram) (s : Entry) : List Entry :=
  if p.map s.insttype = 0 then [] else [{ s with sender := 0 }]

/-- **One entry for the program itself**: nothing, one event, or one event and a switch. -/
theorem Relayed.mapProgram {advance : SProgram → SProgram} {r r' : SProgram}
    (h : Relayed p start st.handed mapped cur) (hp : BlockerOnly p) (hr : SameShape p r)
    (hcur : r.counter = cur.val) (hs : s.insttype ≠ .block) (hm : mapProgram advance s r st = .ok (r', st')) :
    SameShape p r' ∧ ∃ cur' : Queue, r'.counter = cur'.val ∧
      Relayed p start st'.handed (mapped ++ mappedBy p s) cur' := by
  have hmo := hp s.insttype
  obtain ⟨calls, hst, hadd⟩ := mapProgram_cases hm
  rw [← hr.map] at hmo
  have hev : ∀ {st₁ : State}, r.map s.insttype < -1 → addToQueue s cur 0 st = .ok st₁ →
      Relayed p start st₁.handed (mapped ++ mappedBy p s) cur := by
    intro st₁ hneg hadd
    obtain ⟨-, rfl⟩ := addToQueue_eq_ok.1 hadd
    rw [mappedBy, if_neg (by rw [← hr.map]; omega)]
    exact h.event hs
  cases hst with
  | unmapped h0 =>
    cases hadd
    rw [mappedBy, if_pos (hr.map ▸ h0), append_nil]
    exact ⟨hr, cur, hcur, h⟩
  | @stay q hneg hq =>
    obtain rfl : q = cur := Fin.ext (by omega)
    rw [addAll_cons] at hadd
    obtain ⟨st₁, h1, h2⟩ := bind_eq_ok.1 hadd
    cases h2
    exact ⟨hr, q, hq, hev hneg h1⟩
  | @switch q newcore hneg hq hfull hnext =>
    obtain rfl : q = cur := Fin.ext (by omega)
    obtain ⟨hlo, hhi, hfew⟩ := getNextCore_some hnext
    -- the current queue is nearly full, the next one at most half full
    have hne : newcore ≠ q := by
      rintro rfl
      rw [sizeAfter_singleton] at hfew
      have hQ : QUEUESIZE = 64 := rfl
      omega
    rw [addAll_cons] at hadd
    obtain ⟨st₁, h1, h2⟩ := bind_eq_ok.1 hadd
    rw [addAll_cons] at h2
    obtain ⟨st₂, h2, h3⟩ := bind_eq_ok.1 h2
    cases h3
    obtain ⟨-, rfl⟩ := addToQueue_eq_ok.1 h2
    exact ⟨⟨hr.map, hr.corestart, hr.coreend⟩, newcore, rfl, (hev hneg h1).block _ (hr.owns.1 ⟨hlo, hhi⟩) hne⟩
  | _ => omega

end

/-! ## Runs -/

/-- A step of a run: an entry for `map` or `map_before`, a pop, or the passing of time. -/
inductive MapOp
  | map (s : Entry)
  | mapBefore (s : Entry)
  | popFromQueue (queue : Queue) (item : Int)
  | tick (now : UInt64)

/-- `Block` entries are made by `map` itself and are never handed to it. -/
def MapOp.Plain : MapOp → Prop
  | .map s => s.insttype ≠ .block
  | .mapBefore s => s.insttype ≠ .block
  | _ => True

instance : (op : MapOp) → Decidable op.Plain
  | .map _ | .mapBefore _ => inferInstanceAs (Decidable (_ ≠ _))
  | .popFromQueue _ _ | .tick _ => isTrue trivial

/-- A state of the log, with the events that were mapped for one of its programs. -/
structure Fed where
  st : State
  /-- The events the program mapped, in the order it received them. -/
  mapped : List Entry

/-- Performs a step, and notes the event it maps for program `p`. -/
def feed (p : SProgram) (fd : Fed) : MapOp → Except Fault Fed
  | .map s => do
    let st ← map s fd.st
    .ok ⟨st, fd.mapped ++ mappedBy p s⟩
  | .mapBefore s => do
    let st ← mapBefore s fd.st
    .ok ⟨st, fd.mapped ++ mappedBy p s⟩
  | .popFromQueue queue item => do
    let (_, st) ← popFromQueue queue item fd.st
    .ok ⟨st, fd.mapped⟩
  | .tick now => .ok ⟨{ fd.st with curTick := now }, fd.mapped⟩

theorem mapPrograms_append (advance : SProgram → SProgram) (s : Entry) (ps' : List SProgram) :
    ∀ (ps : List SProgram) (st : State), mapPrograms advance s (ps ++ ps') st
        = mapPrograms advance s ps st >>= fun r =>
            mapPrograms advance s ps' r.2 >>= fun r' => .ok (r.1 ++ r'.1, r'.2)
  | [], st => (bind_ok _).symm
  | p :: ps, st => by
    simp only [cons_append, mapPrograms, mapPrograms_append, Fallible.bind_assoc, ok_bind]

/-- Where the program stands among the others, and what its queues have been handed. -/
def InPlace (n : Nat) (p : SProgram) (start : Queue) (fd : Fed) : Prop :=
  ∃ before r after, ∃ cur : Queue, fd.st.programs = before ++ r :: after ∧ before.length = n ∧
    (∀ other ∈ before ++ after, StaysOut p other) ∧ SameShape p r ∧ r.counter = cur.val ∧
    Relayed p start fd.st.handed fd.mapped cur

variable {fd : Fed}

/-- **One entry for all programs.** -/
theorem InPlace.mapWith {advance : SProgram → SProgram} {s : Entry} {st' : State} (h : InPlace n p start fd)
    (hp : BlockerOnly p) (ha : Rotates advance) (hs : s.insttype ≠ .block) (hm : mapWith advance s fd.st = .ok st') :
    InPlace n p start ⟨st', fd.mapped ++ mappedBy p s⟩ := by
  obtain ⟨before, r, after, cur, hps, hn, ho, hr, hcur, hrel⟩ := h
  rw [forall_mem_append] at ho
  obtain ⟨⟨ps', st₁⟩, hall, hst'⟩ := bind_eq_ok.1 hm
  cases hst'
  rw [hps, mapPrograms_append] at hall
  obtain ⟨⟨before', stb⟩, hb, hre⟩ := bind_eq_ok.1 hall
  obtain ⟨⟨ps'', sta⟩, hta, hcat⟩ := bind_eq_ok.1 hre
  cases hcat
  obtain ⟨⟨r', str⟩, hpr, hre'⟩ := bind_eq_ok.1 hta
  obtain ⟨⟨after', sta'⟩, haft, hco⟩ := bind_eq_ok.1 hre'
  cases hco
  obtain ⟨hb', hlen, hou⟩ := StaysOut.mapPrograms ha ho.1 hb
  obtain ⟨hr', cur', hcur', hrel'⟩ := (hrel.outside hou).mapProgram hp hr hcur hs hpr
  obtain ⟨ha', -, hout⟩ := StaysOut.mapPrograms ha ho.2 haft
  exact ⟨before', r', after', cur', rfl, hlen.trans hn, forall_mem_append.2 ⟨hb', ha'⟩, hr', hcur', hrel'.outside hout⟩

/-- Every step of a run. -/
theorem InPlace.feed {fd' : Fed} {op : MapOp} (h : InPlace n p start fd) (hp : BlockerOnly p) (hop : op.Plain)
    (hs : feed p fd op = .ok fd') : InPlace n p start fd' := by
  cases op with
  | map s =>
    obtain ⟨st', hm, hfd⟩ := bind_eq_ok.1 hs
    cases hfd
    exact h.mapWith hp rotates_advanceCounter hop hm
  | mapBefore s =>
    obtain ⟨st', hm, hfd⟩ := bind_eq_ok.1 hs
    cases hfd
    exact h.mapWith hp rotates_id hop hm
  | popFromQueue queue item =>
    obtain ⟨⟨r, st'⟩, hpop, hfd⟩ := bind_eq_ok.1 hs
    cases hfd
    obtain ⟨-, -, -, rfl⟩ := popFromQueue_eq_ok.1 hpop
    exact h
  | tick now =>
    cases hs
    exact h

/-- **Blocker mode keeps program order.**  Let a program use blocker mode only, starting at the
first queue of its range, and let the other programs stay out of the range.  In every run of `map`,
`map_before` and pops, following the streams handed to `add_to_queue` from the first queue on, from
`Block` to `Block`, gives exactly the events that were mapped, in order; it reads the queues of the
range to the end, and stops at the program's counter.  And every `Block` in the range names another
queue of the range. -/
theorem blocker_follow {before after : List SProgram} {p : SProgram} {filterb : InstType → Bool}
    {ready : Int} {start : Queue} (hp : BlockerOnly p) (hstart : p.corestart = start.val)
    (hcounter : p.counter = p.corestart) (hrange : p.corestart ≤ p.coreend)
    (hothers : ∀ other ∈ before ++ after, StaysOut p other) {fd : Fed} (h : Reaches (feed p) (fun _ op => op.Plain)
      ⟨init (before ++ p :: after) filterb ready, []⟩ fd) : (∃ left, ∃ cur : Queue,
      follow nextBlock (∑ q, (fd.st.handed q).length) fd.st.handed start = (fd.mapped, left, cur) ∧
      (∀ q, Owns p q → left q = []) ∧
      (fd.st.programs[before.length]?).map SProgram.counter = some (cur.val : Int)) ∧
    ∀ q, Owns p q → ∀ e ∈ fd.st.handed q, e.insttype = .block →
      ∃ t : Queue, e.data = UInt64.ofNat t.val ∧ Owns p t ∧ t ≠ q := by
  have hin : InPlace before.length p start ⟨init (before ++ p :: after) filterb ready, []⟩ := by
    refine ⟨before, p, after, start, rfl, rfl, hothers, .refl p, hcounter.trans hstart,
      ⟨⟨_, .stop _ _, fun _ _ => rfl⟩, ⟨by omega, by omega⟩, fun q _ e he => ?_⟩⟩
    exact absurd he not_mem_nil
  obtain ⟨before', r, after', cur, hps, hn, -, -, hcur, hrel⟩ :=
    h.invariant (P := InPlace before.length p start) hin fun _ hi hop hs => hi.feed hp hop hs
  obtain ⟨left, hf, hlef⟩ := hrel.follows
  refine ⟨⟨left, cur, hf.follow_eq (hlef cur hrel.owned) le_rfl, hlef, ?_⟩, hrel.marks⟩
  rw [hps, ← hn, getElem?_append_right le_rfl, Nat.sub_self, getElem?_cons_zero, Option.map_some, hcur]

/-- A program on two cores that takes every load in blocker mode: the configuration file is `2` and
`|00000000`. -/
def blockProgram : SProgram where
  map := fun it => if it = .load then -2 else 0
  counter := 0
  corestart := 0
  coreend := 1

/-- After `QUEUESIZE - 2` loads the program has moved on to queue `1`, and there are three loads
and a pop more. -/
theorem blocker_follow_switched : ∃ fd : Fed, fd.mapped.length = QUEUESIZE + 1 ∧ (fd.st.handed 1).length = 3 ∧
    (∃ left, ∃ cur : Queue, follow nextBlock (∑ q, (fd.st.handed q).length) fd.st.handed 0 = (fd.mapped, left, cur) ∧
      (∀ q, Owns blockProgram q → left q = []) ∧
      (fd.st.programs[([] : List SProgram).length]?).map SProgram.counter = some (cur.val : Int)) ∧
    ∀ q, Owns blockProgram q → ∀ e ∈ fd.st.handed q, e.insttype = .block →
      ∃ t : Queue, e.data = UInt64.ofNat t.val ∧ Owns blockProgram t ∧ t ≠ q := by
  obtain ⟨fd, hr, hlen, hone⟩ := exists_reaches (feed blockProgram) (fun _ op => op.Plain)
    ⟨init ([] ++ blockProgram :: []) (fun it => it = .load) 0, []⟩
    (List.replicate (QUEUESIZE - 1) (.map (Entry.new 0 .load 8 0 0)) ++
      [.popFromQueue 0 1, .map (Entry.new 0 .load 9 0 0), .mapBefore (Entry.new 0 .load 10 0 0)])
    (fun fd => fd.mapped.length = QUEUESIZE + 1 ∧ (fd.st.handed 1).length = 3) (by decide +kernel)
  refine ⟨fd, hlen, hone, blocker_follow ?_ rfl rfl (by decide) ?_ hr⟩
  · intro it
    cases it <;> decide
  · exact fun other ho => absurd ho not_mem_nil

end GuardianCouncil.SecureLog
