import Mathlib.Data.List.Nodup
import GuardianCouncil.Lib.Since
import GuardianCouncil.Lib.Stepwise
import GuardianCouncil.XBar.Layer

/-!
# No retry is lost

The log of a run says which ports are blocked: those that were refused or failed and have not been sent a retry since.
It also says in which order they are to be sent one (`Pending`).  `Linked` says that the two places in which a
layer keeps ports are those ports in that order, and each kind of event keeps it so.  `Inv` adds what a layer is
between operations.
-/

namespace GuardianCouncil.XBar

open Fallible History Stepwise List

variable {P : Type*}

/-! ## What the log says -/

/-- The port was refused, or failed, and has not been sent a retry since. -/
def Blocked (log : List (Event P)) (p : P) : Prop :=
  Since (fun e => e = .refused p ∨ e = .failed p) (fun e => e ≠ .retried p) log

/-- A packet has failed at the peer, and the peer has not sent a retry since. -/
def Owed (log : List (Event P)) : Prop := Since (fun e => ∃ p, e = Event.failed p) (fun e => e ≠ .peerRetry) log

/-- The ports that are to be sent a retry. -/
structure Pending (P : Type*) where
  /-- Those that were refused, in this order. -/
  refused : List P := []
  /-- The one that failed, while the peer has not sent a retry. -/
  peer : Option P := none
  /-- The one that failed, once the peer has. -/
  first : Option P := none

def Pending.next [DecidableEq P] (s : Pending P) : Event P → Pending P
  | .refused p => { s with refused := s.refused ++ [p] }
  | .failed p => { s with peer := some p }
  | .peerRetry => { s with peer := none, first := s.peer }
  | .retried p => if s.first = some p then { s with first := none } else { s with refused := s.refused.erase p }

def pending [DecidableEq P] (log : List (Event P)) : Pending P := log.foldl Pending.next {}

/-- It is the port's turn. -/
def Pending.Turn (s : Pending P) (p : P) : Prop :=
  s.first = some p ∨ s.first = none ∧ s.refused.head? = some p

/-- Ports are sent a retry in the order in which they were refused, but a port whose packet failed at the peer is
sent one first. -/
def InOrder [DecidableEq P] (log : List (Event P)) : Prop :=
  Each (fun before e => ∀ p, e = .retried p → (pending before).Turn p) log

variable [DecidableEq P] {peer : Option P} {queue : List P} {log : List (Event P)} {p q : P}

theorem pending_concat (e : Event P) : pending (log ++ [e]) = (pending log).next e := by
  rw [pending, foldl_append]
  rfl

variable {e : Event P} {clockEdge : Tick → Tick} {r : Run P}

omit [DecidableEq P] in
theorem blocked_concat :
    Blocked (log ++ [e]) p ↔ (e = .refused p ∨ e = .failed p) ∨ Blocked log p ∧ e ≠ .retried p := since_concat

omit [DecidableEq P] in
theorem owed_concat : Owed (log ++ [e]) ↔ (∃ p, e = .failed p) ∨ Owed log ∧ e ≠ .peerRetry :=
  since_concat

theorem inOrder_concat : InOrder (log ++ [e]) ↔ InOrder log ∧ ∀ p, e = .retried p → (pending log).Turn p := each_concat

/-! ## The two places of a layer -/

/-- The ports that a layer keeps are the blocked ones, in the right order. -/
structure Linked (peer : Option P) (queue : List P) (log : List (Event P)) : Prop where
  nodup : (peer.toList ++ queue).Nodup
  blocked : ∀ p, Blocked log p ↔ p ∈ peer.toList ++ queue
  owed : Owed log ↔ peer.isSome
  peer_eq : (pending log).peer = peer
  queue_eq : (pending log).first.toList ++ (pending log).refused = queue
  first : peer.isSome → (pending log).first = none
  inOrder : InOrder log

theorem linked_nil : Linked (P := P) none [] [] :=
  ⟨nodup_nil, fun p => ⟨fun h => absurd h not_since_nil, fun h => absurd h not_mem_nil⟩,
    ⟨fun h => absurd h not_since_nil, fun h => by cases h⟩, rfl, rfl, fun _ => rfl, each_nil⟩

namespace Linked

theorem refused (h : Linked peer queue log) (hp : ¬ Blocked log p) :
    Linked peer (queue ++ [p]) (log ++ [.refused p]) := by
  have hmem : p ∉ peer.toList ++ queue := fun hmem => hp ((h.blocked p).2 hmem)
  refine ⟨?_, fun q => ?_, ?_, ?_, ?_, ?_, ?_⟩
  · rw [← append_assoc]
    exact nodup_append.2 ⟨h.nodup, nodup_singleton p, fun a ha b hb => by
      rw [mem_singleton.1 hb]
      exact fun heq => hmem (heq ▸ ha)⟩
  · rw [blocked_concat, h.blocked, ← append_assoc, mem_append (s := peer.toList ++ queue)]
    simp [eq_comm, or_comm]
  · rw [owed_concat, ← h.owed]
    simp
  · rw [pending_concat]
    exact h.peer_eq
  · rw [pending_concat, ← h.queue_eq, append_assoc]
    rfl
  · rw [pending_concat]
    exact h.first
  · rw [inOrder_concat]
    exact ⟨h.inOrder, fun q hq => nomatch hq⟩

theorem failed (h : Linked none queue log) (hp : ¬ Blocked log p) (hf : (pending log).first = none) :
    Linked (some p) queue (log ++ [.failed p]) := by
  have hmem : p ∉ queue := fun hmem => hp ((h.blocked p).2 hmem)
  refine ⟨nodup_cons.2 ⟨hmem, h.nodup⟩, fun q => ?_, ?_, ?_, ?_, ?_, ?_⟩
  · rw [blocked_concat, h.blocked]
    simp [eq_comm]
  · rw [owed_concat]
    simp
  · rw [pending_concat]
    rfl
  · rw [pending_concat, ← h.queue_eq]
    rfl
  · rw [pending_concat]
    exact fun _ => hf
  · rw [inOrder_concat]
    exact ⟨h.inOrder, fun q hq => nomatch hq⟩

theorem peerRetry (h : Linked (some p) queue log) : Linked none (p :: queue) (log ++ [.peerRetry]) := by
  refine ⟨h.nodup, fun q => ?_, ?_, ?_, ?_, ?_, ?_⟩
  · rw [blocked_concat, h.blocked]
    simp
  · rw [owed_concat]
    simp
  · rw [pending_concat]
    rfl
  · have hqu := h.queue_eq
    rw [h.first rfl, Option.toList_none, nil_append] at hqu
    rw [pending_concat, Pending.next]
    rw [h.peer_eq, hqu]
    rfl
  · exact fun hso => by cases hso
  · rw [inOrder_concat]
    exact ⟨h.inOrder, fun q hq => nomatch hq⟩

/-- The port at the head is sent a retry.  After that, no port has a right to be first. -/
theorem retried (h : Linked none (p :: queue) log) :
    Linked none queue (log ++ [.retried p]) ∧ (pending (log ++ [.retried p])).first = none := by
  have hn := nodup_cons.1 h.nodup
  have hqu := h.queue_eq
  -- the head is the port that may be first, if there is one, and the first refused one otherwise
  have hca : ((pending log).first = some p ∧ (pending log).refused = queue) ∨
      ((pending log).first = none ∧ (pending log).refused = p :: queue) := by
    cases hf : (pending log).first with
    | none =>
      rw [hf, Option.toList_none, nil_append] at hqu
      exact .inr ⟨rfl, hqu⟩
    | some q =>
      rw [hf, Option.toList_some, singleton_append, List.cons.injEq] at hqu
      exact .inl ⟨by rw [hqu.1], hqu.2⟩
  have hnext : (pending log).next (.retried p) = ⟨queue, none, none⟩ := by
    rw [Pending.next]
    rcases hca with ⟨hf, hre⟩ | ⟨hf, hre⟩
    · rw [if_pos hf, hre, h.peer_eq]
    · rw [if_neg (by rw [hf]; exact fun h => nomatch h), hre, h.peer_eq, hf, erase_cons_head]
  refine ⟨⟨hn.2, fun q => ?_, ?_, ?_, ?_, ?_, ?_⟩, ?_⟩
  · rw [blocked_concat, h.blocked]
    simp only [Option.toList_none, nil_append, mem_cons, reduceCtorEq, false_or, ne_eq, Event.retried.injEq]
    constructor
    · rintro ⟨heq | hmem, hne⟩
      · exact absurd heq.symm hne
      · exact hmem
    · exact fun hmem => ⟨.inr hmem, fun heq => hn.1 (heq ▸ hmem)⟩
  · rw [owed_concat, h.owed]
    simp
  · rw [pending_concat, hnext]
  · rw [pending_concat, hnext]
    rfl
  · exact fun hso => by cases hso
  · rw [inOrder_concat]
    refine ⟨h.inOrder, fun q hq => ?_⟩
    rw [Event.retried.injEq] at hq
    subst hq
    rcases hca with ⟨hf, -⟩ | ⟨hf, hre⟩
    · exact .inl hf
    · exact .inr ⟨hf, by rw [hre]; rfl⟩
  · rw [pending_concat, hnext]

end Linked

/-! ## Runs -/

/-- The time until which the layer is to be busy has not passed. -/
def Outcome.Valid (now : Tick) : Outcome → Prop
  | .succeeded busy_time => busy_time ≠ 0 ∧ now ≤ busy_time
  | .failed busy_time => busy_time ≠ 0 ∧ now ≤ busy_time

/-- What may happen next, and when.  Time does not go back, and the release event is not passed over.  A blocked port does
not try again, the release event comes up when it is due, and the peer sends a retry only if it owes one. -/
def Allowed (r : Run P) (op : Tick × Op P) : Prop :=
  r.layer.curTick ≤ op.1 ∧ (∀ due, r.layer.releaseEvent = some due → op.1 ≤ due) ∧
    match op.2 with
    | .send p outcome => ¬ Blocked r.log p ∧ outcome.Valid op.1
    | .release callback => r.layer.releaseEvent = some op.1 ∧ ∀ outcome ∈ callback, outcome.Valid op.1
    | .peerRetry callback => Owed r.log ∧ ∀ outcome ∈ callback, outcome.Valid op.1
    | .drain => True

instance (log : List (Event P)) (p : P) : Decidable (Blocked log p) :=
  inferInstanceAs (Decidable (Since _ _ log))

instance (log : List (Event P)) : Decidable (Owed log) :=
  have : DecidablePred fun e : Event P => ∃ p, e = .failed p
    | .failed p => isTrue ⟨p, rfl⟩
    | .refused _ => isFalse nofun
    | .retried _ => isFalse nofun
    | .peerRetry => isFalse nofun
  inferInstanceAs (Decidable (Since _ _ log))

instance (now : Tick) : DecidablePred (Outcome.Valid now)
  | .succeeded _ | .failed _ => inferInstanceAs (Decidable (_ ∧ _))

instance (r : Run P) (op : Tick × Op P) : Decidable (Allowed r op) :=
  match op with
  | (_, .send _ _) | (_, .release _) | (_, .peerRetry _) | (_, .drain) =>
    inferInstanceAs (Decidable (_ ∧ (∀ due ∈ r.layer.releaseEvent, _) ∧ _))

/-- What a layer is between operations. -/
structure Inv (l : Layer P) (log : List (Event P)) : Prop where
  state_ne : l.state ≠ .retry
  scheduled : l.releaseEvent.isSome ↔ l.state = .busy
  due : ∀ due, l.releaseEvent = some due → due ≠ 0 ∧ l.curTick ≤ due
  outstanding : l.state = .idle → l.waitingForLayer ≠ [] → l.waitingForPeer.isSome
  begun : l.state = .idle → l.waitingForPeer.isSome → l.curTick ≠ 0
  linked : Linked l.waitingForPeer l.waitingForLayer log

theorem inv_start : Inv (P := P) {} [] :=
  ⟨nofun, ⟨nofun, nofun⟩, nofun, fun _ h => absurd rfl h, nofun, linked_nil⟩

variable {l : Layer P} {now : Tick}

/-- Time passes. -/
theorem Inv.later (h : Inv l log) (hnow : l.curTick ≤ now) (hdue : ∀ due, l.releaseEvent = some due → now ≤ due) :
    Inv { l with curTick := now } log :=
  ⟨h.state_ne, h.scheduled, fun due hs => ⟨(h.due due hs).1, hdue due hs⟩, h.outstanding,
    fun hid hpe hzero => h.begun hid hpe (Nat.le_zero.1 (hzero ▸ hnow)), h.linked⟩

namespace Layer

variable {until_ : Tick} {outcome : Outcome}

omit [DecidableEq P] in
theorem occupyLayer_eq (hst : l.state = .busy) (hn : l.releaseEvent = none)
    (hzero : until_ ≠ 0) (hnow : l.curTick ≤ until_) :
    l.occupyLayer until_ = .ok { l with releaseEvent := some until_ } := by
  rw [occupyLayer, if_neg (fun h => h hst), if_neg hzero, if_neg (by
    rintro (h | h)
    · exact h hn
    · exact Nat.not_lt.2 hnow h)]

/-- A layer that is occupied is again one between operations. -/
theorem inv_occupied (hst : l.state = .busy) (hzero : until_ ≠ 0) (hnow : l.curTick ≤ until_)
    (hli : Linked l.waitingForPeer l.waitingForLayer log) : Inv { l with releaseEvent := some until_ } log := by
  have hid : l.state ≠ .idle := by rw [hst]; exact nofun
  refine ⟨by rw [hst]; exact nofun, ⟨fun _ => hst, fun _ => rfl⟩, fun due hdue => ?_, fun h => absurd h hid,
    fun h => absurd h hid, hli⟩
  rw [← Option.some.inj hdue]
  exact ⟨hzero, hnow⟩

/-- The report on a granted try. -/
theorem exists_report (hst : l.state = .busy) (hn : l.releaseEvent = none) (hpe : l.waitingForPeer = none)
    (hli : Linked none l.waitingForLayer log) (hf : (pending log).first = none) (hp : ¬ Blocked log p)
    (hv : outcome.Valid l.curTick) :
    ∃ l' events, l.report p outcome = .ok (l', events) ∧ l'.state = .busy ∧ Inv l' (log ++ events) := by
  have hbu : ¬ l.state ≠ .busy := fun h => h hst
  cases outcome with
  | succeeded busy_time =>
    obtain ⟨hzero, hnow⟩ := hv
    refine ⟨{ l with releaseEvent := some busy_time }, [], ?_, hst, ?_⟩
    · rw [report, succeededTiming, if_neg hbu, occupyLayer_eq hst hn hzero hnow]
      rfl
    · rw [append_nil]
      exact inv_occupied hst hzero hnow (hpe ▸ hli)
  | failed busy_time =>
    obtain ⟨hzero, hnow⟩ := hv
    refine ⟨{ l with waitingForPeer := some p, releaseEvent := some busy_time }, [.failed p], ?_, hst, ?_⟩
    · rw [report, failedTiming, if_neg (by rw [hpe]; exact nofun)]
      dsimp only
      rw [if_neg hbu, occupyLayer_eq (l := { l with waitingForPeer := some p }) hst hn hzero hnow]
      rfl
    · exact inv_occupied (l := { l with waitingForPeer := some p }) hst hzero hnow (hli.failed hp hf)

/-- A try is granted if the layer is not busy and no port waits for the peer. -/
theorem send_granted (hst : l.state ≠ .busy) (hpe : l.waitingForPeer = none) (outcome : Outcome) :
    l.send p outcome = report { l with state := .busy } p outcome := by
  rw [send, tryTiming, if_neg (by
    rintro (h | h)
    · exact hst h
    · rw [hpe] at h
      cases h), ok_bind]
  rfl

theorem send_refused (h : l.state = .busy ∨ l.waitingForPeer.isSome) (hp : p ∉ l.waitingForLayer) (outcome : Outcome) :
    l.send p outcome = .ok ({ l with waitingForLayer := l.waitingForLayer ++ [p] }, [.refused p]) := by
  rw [send, tryTiming, if_pos h, if_neg hp, ok_bind]
  rfl

theorem exists_send (h : Inv l log) (hp : ¬ Blocked log p) (hv : outcome.Valid l.curTick) :
    ∃ l' events, l.send p outcome = .ok (l', events) ∧ Inv l' (log ++ events) := by
  by_cases hbu : l.state = .busy ∨ l.waitingForPeer.isSome
  · have hmem : p ∉ l.waitingForLayer := fun hmem =>
      hp ((h.linked.blocked p).2 (mem_append_right _ hmem))
    refine ⟨_, _, send_refused hbu hmem outcome, h.state_ne, h.scheduled, h.due, fun hid _ => ?_, h.begun,
      h.linked.refused hp⟩
    exact hbu.resolve_left (by rw [hid]; exact nofun)
  · obtain ⟨hst, hpe⟩ := not_or.1 hbu
    rw [Option.not_isSome_iff_eq_none] at hpe
    have hid : l.state = .idle := by
      cases hl : l.state with
      | idle => rfl
      | busy => exact absurd hl hst
      | retry => exact absurd hl h.state_ne
    have hn : l.releaseEvent = none := by
      rw [← Option.not_isSome_iff_eq_none, h.scheduled]
      exact hst
    -- the layer is idle and nothing is outstanding, so no port waits
    have hwa : l.waitingForLayer = [] := by
      by_contra hne
      have hso := h.outstanding hid hne
      rw [hpe] at hso
      cases hso
    have hli := h.linked
    rw [hpe] at hli
    have hf : (pending log).first = none := by
      have hqu := hli.queue_eq
      rw [hwa, append_eq_nil_iff, Option.toList_eq_nil_iff] at hqu
      exact hqu.1
    obtain ⟨l', events, hre, -, hinv⟩ := exists_report (l := { l with state := .busy }) rfl hn hpe hli hf hp hv
    exact ⟨l', events, by rw [send_granted hst hpe, hre], hinv⟩

variable {clockEdge : Tick → Tick} {callback : Option Outcome}

section

variable (hedg : ∀ t, t ≤ clockEdge t)
include hedg

/-- The first of the waiting ports is sent a retry. -/
theorem exists_retryWaiting (hst : l.state = .idle) (hn : l.releaseEvent = none)
    (hpe : l.waitingForPeer = none) (hnow : l.curTick ≠ 0) (hne : l.waitingForLayer ≠ [])
    (hli : Linked none l.waitingForLayer log) (hv : ∀ outcome ∈ callback, outcome.Valid l.curTick) :
    ∃ l' events, l.retryWaiting clockEdge callback = .ok (l', events) ∧ Inv l' (log ++ events) := by
  obtain ⟨p, waiting, hwa⟩ := exists_cons_of_ne_nil hne
  rw [hwa] at hli
  obtain ⟨hl', hf⟩ := hli.retried
  have hp : ¬ Blocked (log ++ [.retried p]) p := fun h =>
    (nodup_cons.1 hli.nodup).1 ((hl'.blocked p).1 h)
  rw [retryWaiting, hwa]
  dsimp only
  rw [if_neg (fun h => h hst)]
  cases callback with
  | none =>
    have he0 : clockEdge l.curTick ≠ 0 := fun h => hnow (Nat.le_zero.1 (h ▸ hedg l.curTick))
    refine ⟨_, [.retried p], ?_, inv_occupied (l := { l with state := .busy, waitingForLayer := waiting }) rfl he0
      (hedg _) (hpe ▸ hl')⟩
    rw [sendRetry, ok_bind]
    rw [leaveRetry, if_pos rfl]
    rw [occupyLayer_eq (l := { l with state := .busy, waitingForLayer := waiting }) rfl hn he0 (hedg _), ok_bind]
  | some outcome =>
    obtain ⟨l', events, hre, hbu, hinv⟩ :=
      exists_report (l := { l with state := .busy, waitingForLayer := waiting }) rfl hn hpe hl' hf hp
        (hv outcome rfl)
    refine ⟨l', .retried p :: events, ?_, by rwa [← singleton_append, ← append_assoc]⟩
    rw [sendRetry, send_granted (l := { l with state := .retry, waitingForLayer := waiting }) nofun hpe, hre, ok_bind]
    rw [leaveRetry, if_neg (by rw [hbu]; exact nofun), ok_bind]

theorem exists_releaseLayer (h : Inv l log)
    (hdue : l.releaseEvent = some l.curTick) (hv : ∀ outcome ∈ callback, outcome.Valid l.curTick) :
    ∃ l' events, releaseLayer { l with releaseEvent := none } clockEdge callback = .ok (l', events) ∧
      Inv l' (log ++ events) := by
  have hbu : l.state = .busy := h.scheduled.1 (by rw [hdue]; rfl)
  have hnow : l.curTick ≠ 0 := (h.due _ hdue).1
  -- what the layer is if no port is sent a retry
  have hinv (drainState : DrainState) (hout : l.waitingForLayer ≠ [] → l.waitingForPeer.isSome) :
      Inv { l with state := .idle, releaseEvent := none, drainState := drainState } log :=
    ⟨nofun, ⟨nofun, nofun⟩, nofun, fun _ => hout, fun _ _ => hnow, h.linked⟩
  rw [releaseLayer, if_neg (fun h => h hbu), if_neg (fun h => h rfl)]
  dsimp only
  by_cases hwa : l.waitingForLayer ≠ []
  · rw [if_pos hwa]
    by_cases hpe : l.waitingForPeer = none
    · rw [if_pos hpe]
      have hli := h.linked
      rw [hpe] at hli
      exact exists_retryWaiting (l := { l with state := .idle, releaseEvent := none }) hedg rfl rfl hpe hnow hwa hli hv
    · rw [if_neg hpe]
      refine ⟨_, [], rfl, ?_⟩
      rw [append_nil]
      exact hinv l.drainState fun _ => Option.isSome_iff_ne_none.2 hpe
  · rw [if_neg hwa]
    have hout : l.waitingForLayer ≠ [] → l.waitingForPeer.isSome := fun h => absurd h hwa
    by_cases hd : l.waitingForPeer = none ∧ l.drainState = .draining
    · rw [if_pos hd]
      refine ⟨_, [], rfl, ?_⟩
      rw [append_nil]
      exact hinv .drained hout
    · rw [if_neg hd]
      refine ⟨_, [], rfl, ?_⟩
      rw [append_nil]
      exact hinv l.drainState hout

theorem exists_recvRetry (h : Inv l log) (ho : Owed log)
    (hv : ∀ outcome ∈ callback, outcome.Valid l.curTick) :
    ∃ l' events, l.recvRetry clockEdge callback = .ok (l', events) ∧ Inv l' (log ++ events) := by
  obtain ⟨p, hpe⟩ := Option.isSome_iff_exists.1 (h.linked.owed.1 ho)
  have hli := h.linked
  rw [hpe] at hli
  rw [recvRetry, hpe]
  dsimp only
  by_cases hid : l.state = .idle
  · have hn : l.releaseEvent = none := by
      rw [← Option.not_isSome_iff_eq_none, h.scheduled, hid]
      exact nofun
    obtain ⟨l', events, hre, hinv⟩ :=
      exists_retryWaiting (l := { l with waitingForLayer := p :: l.waitingForLayer, waitingForPeer := none }) hedg hid
        hn rfl (h.begun hid (by rw [hpe]; rfl)) (cons_ne_nil _ _) hli.peerRetry hv
    refine ⟨l', .peerRetry :: events, ?_, by rwa [← singleton_append, ← append_assoc]⟩
    rw [if_pos hid, hre, ok_bind]
  · have hbu : l.state = .busy := by
      cases hl : l.state with
      | idle => exact absurd hl hid
      | busy => rfl
      | retry => exact absurd hl h.state_ne
    rw [if_neg hid, if_neg (fun h => h hbu)]
    exact ⟨_, _, rfl, h.state_ne, h.scheduled, h.due, fun hl => absurd hl hid, fun hl => absurd hl hid, hli.peerRetry⟩

end

end Layer

/-- Whatever may happen to a layer succeeds, and leaves a layer between operations. -/
theorem exists_step (hedg : ∀ t, t ≤ clockEdge t) {op : Tick × Op P} (h : Inv r.layer r.log) (ha : Allowed r op) :
    ∃ r', r.step clockEdge op = .ok r' ∧ Inv r'.layer r'.log := by
  obtain ⟨now, op⟩ := op
  obtain ⟨hnow, hdue, hop⟩ := ha
  have hla : Inv { r.layer with curTick := now } r.log := h.later hnow hdue
  have hex : ∃ l' events, op.exec clockEdge { r.layer with curTick := now } = .ok (l', events) ∧
      Inv l' (r.log ++ events) := by
    cases op with
    | send p outcome => exact Layer.exists_send hla hop.1 hop.2
    | release callback => exact Layer.exists_releaseLayer hedg hla hop.1 hop.2
    | peerRetry callback => exact Layer.exists_recvRetry hedg hla hop.1 hop.2
    | drain =>
      refine ⟨_, [], rfl, ?_⟩
      rw [append_nil]
      exact ⟨hla.state_ne, hla.scheduled, hla.due, hla.outstanding, hla.begun, hla.linked⟩
  obtain ⟨l', events, hex, hinv⟩ := hex
  exact ⟨⟨l', r.log ++ events⟩, by rw [Run.step, hex, ok_bind], hinv⟩

theorem Reaches.inv (hedg : ∀ t, t ≤ clockEdge t) (h : Reaches (Run.step clockEdge) Allowed {} r) : Inv r.layer r.log :=
  h.invariant (P := fun r => Inv r.layer r.log) inv_start fun _ hinv ha hst => by
    obtain ⟨r', hr', hinv'⟩ := exists_step hedg hinv ha
    rw [hr', Except.ok.injEq] at hst
    exact hst ▸ hinv'

/-- **No retry is lost.**  After any run, nothing that may happen to the layer makes an assertion fail.  The release event
is scheduled exactly when the layer is busy, and if ports wait at an idle layer, the peer owes a retry.  The ports that are
to be sent a retry are kept, each once, and they are sent one in the order in which they were refused, but the one whose
packet failed at the peer is first. -/
theorem retries_not_lost {clockEdge : Tick → Tick} (hedge : ∀ t, t ≤ clockEdge t) {r : Run P}
    (h : Reaches (Run.step clockEdge) Allowed {} r) : (∀ op, Allowed r op → ∃ r', r.step clockEdge op = .ok r') ∧
      (r.layer.waitingForPeer.toList ++ r.layer.waitingForLayer).Nodup ∧
      (∀ p, Blocked r.log p ↔ p ∈ r.layer.waitingForPeer.toList ++ r.layer.waitingForLayer) ∧
      r.layer.state ≠ .retry ∧
      (r.layer.releaseEvent.isSome ↔ r.layer.state = .busy) ∧
      (r.layer.state = .idle → r.layer.waitingForLayer ≠ [] → Owed r.log) ∧
      InOrder r.log := by
  have hinv := Reaches.inv hedge h
  refine ⟨fun op ha => ?_, hinv.linked.nodup, hinv.linked.blocked, hinv.state_ne, hinv.scheduled,
    fun hid hne => hinv.linked.owed.2 (hinv.outstanding hid hne), hinv.linked.inOrder⟩
  obtain ⟨r', hr', -⟩ := exists_step hedge hinv ha
  exact ⟨r', hr'⟩

/-- Port 1 is refused while the layer is busy.  Sent a retry, it fails at the peer.  Port 2 is refused before the peer sends
its retry, and yet port 1 is sent one again before it. -/
theorem retries_not_lost_failedFirst : ∃ r, Reaches (Run.step fun t => t) (Allowed (P := ℕ)) {} r ∧
      r.log = [.refused 1, .retried 1, .failed 1, .refused 2, .peerRetry, .retried 1] ∧
      r.layer.waitingForLayer = [2] ∧ r.layer.releaseEvent.isSome ∧ InOrder r.log := by
  obtain ⟨r, hr, hlog, hwa, hbu⟩ := exists_reaches (Run.step fun t => t) (Allowed (P := ℕ)) {}
    [(1, .send 0 (.succeeded 5)), (2, .send 1 (.succeeded 6)), (5, .release (some (.failed 8))),
      (6, .send 2 (.succeeded 9)), (7, .peerRetry none), (8, .release none)]
    (fun r => r.log = [.refused 1, .retried 1, .failed 1, .refused 2, .peerRetry, .retried 1] ∧
      r.layer.waitingForLayer = [2] ∧ r.layer.state = .busy) (by decide +kernel)
  obtain ⟨-, -, -, -, hsc, -, ho⟩ := retries_not_lost (fun _ => Nat.le_refl _) hr
  exact ⟨r, hr, hlog, hwa, hsc.2 hbu, ho⟩

end GuardianCouncil.XBar
