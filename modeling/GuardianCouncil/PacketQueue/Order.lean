import GuardianCouncil.PacketQueue.Queue
import Mathlib.Data.List.Nodup
import Mathlib.Data.List.Range
import Mathlib.Data.List.Perm.Basic

/-!
# The order of the packets

The packets that have been accepted, the one being sent and those on the list make up one line.  Only
a new packet changes the line: it is put in somewhere behind the front of the list (`schedSendTiming`).

A packet with `force_order` is behind all earlier ones with its address (`Inv.forced`).  The line is
sorted by ready tick as long as no packet is queued that is ready before the front of the list
(`sorted_of_reaches`): such a packet is put behind the front all the same (`not_sorted`).
-/

namespace GuardianCouncil.PacketQueue

open Fallible List DeferredPacket

/-- Of two packets in the line, the first is not there because it was forced to keep the order and did
not. -/
def Forced (dp dp' : DeferredPacket) : Prop :=
  dp.forceOrder = true → dp.pkt.addr = dp'.pkt.addr → dp.number < dp'.number

/-- The order by ready tick, with ties in the order of arrival. -/
def Before (dp dp' : DeferredPacket) : Prop :=
  dp.tick < dp'.tick ∨ dp.tick = dp'.tick ∧ dp.number < dp'.number
deriving Decidable

theorem before_of_le {dp dp' : DeferredPacket} (hti : dp.tick ≤ dp'.tick)
    (hn : dp.number < dp'.number) : Before dp dp' := by
  rcases lt_or_eq_of_le hti with hlt | heq
  · exact .inl hlt
  · exact .inr ⟨heq, hn⟩

theorem Before.tick_le {dp dp' : DeferredPacket} (h : Before dp dp') : dp.tick ≤ dp'.tick := by
  rcases h with hlt | ⟨heq, -⟩
  · exact le_of_lt hlt
  · exact le_of_eq heq

namespace Queue

/-- The packets that have been handed over. -/
def gone (s : Queue) : List DeferredPacket := s.accepted ++ s.sending.toList

/-- All packets, in the order in which they are sent. -/
def line (s : Queue) : List DeferredPacket := s.gone ++ s.transmitList

/-- The packets behind the one that waits for a retry. -/
def behind (s : Queue) : List DeferredPacket :=
  if s.waitingOnRetry then s.transmitList.tail else s.transmitList

/-! ## What the operations do -/

section

variable {s s' : Queue} {pkt : Packet} {when : Nat} {forceOrder : Bool}

theorem schedSendEvent_of_not_waiting (h : s.waitingOnRetry = false) :
    s.schedSendEvent when = .ok { s with sendEvent := s.eventFor when } := by
  rw [schedSendEvent, if_neg (by simp [h])]

/-- `schedSendEvent` changes nothing but the event. -/
theorem schedSendEvent_eq_ok (h : s.schedSendEvent when = .ok s') : s' = { s with sendEvent := s'.sendEvent } := by
  by_cases hwa : s.waitingOnRetry
  · rw [schedSendEvent, if_pos hwa] at h
    obtain ⟨-, h⟩ := check_eq_ok.1 h
    cases h
    rfl
  · rw [schedSendEvent_of_not_waiting (Bool.eq_false_iff.2 hwa)] at h
    cases h
    rfl

/-- The packet that a call queues. -/
def packet (s : Queue) (pkt : Packet) (when : Nat) (forceOrder : Bool) : DeferredPacket :=
  ⟨when, pkt, s.queued.length, forceOrder⟩

theorem schedSendTiming_eq_ok (h : s.schedSendTiming pkt when forceOrder = .ok s') :
    s.curTick ≤ when ∧ let dp := s.packet pkt when forceOrder
    (s.transmitList = [] ∧ schedSendEvent
        { s with transmitList := [dp], queued := s.queued ++ [dp] } when = .ok s') ∨
    ∃ front rest, s.transmitList = front :: rest ∧
      s' = { s with
        transmitList := front :: BackInsert.insert (passes dp) dp rest
        queued := s.queued ++ [dp] } := by
  rw [schedSendTiming] at h
  obtain ⟨hpa, h⟩ := check_eq_ok.1 h
  obtain ⟨-, h⟩ := check_eq_ok.1 h
  obtain ⟨-, h⟩ := check_eq_ok.1 h
  refine ⟨Nat.not_lt.1 hpa, ?_⟩
  rcases hli : s.transmitList with _ | ⟨front, rest⟩
  · simp only [hli] at h
    exact .inl ⟨rfl, h⟩
  · simp only [hli] at h
    cases h
    exact .inr ⟨front, rest, rfl, rfl⟩

theorem beginSend_eq_ok (h : s.beginSend = .ok s') : ∃ dp rest, s.transmitList = dp :: rest ∧ dp.tick ≤ s.curTick ∧
      s' = { s with
        transmitList := rest
        sending := some dp
        handed := s.handed ++ [(dp, s.curTick)] } := by
  obtain ⟨-, h⟩ := check_eq_ok.1 h
  rcases hli : s.transmitList with _ | ⟨dp, rest⟩
  · rw [hli] at h
    cases h
  · rw [hli] at h
    obtain ⟨hre, h⟩ := check_eq_ok.1 h
    cases h
    exact ⟨dp, rest, rfl, Nat.not_lt.1 hre, rfl⟩

theorem sent_eq_ok {success : Bool} (h : s.sent success = .ok s') : ∃ dp, s.sending = some dp ∧
      (success = true ∧ s' = { s with
          waitingOnRetry := false
          sending := none
          accepted := s.accepted ++ [dp]
          sendEvent := s.eventFor s.deferredPacketReadyTime } ∨
        success = false ∧ s' = { s with
          waitingOnRetry := true
          sending := none
          transmitList := dp :: s.transmitList }) := by
  rw [sent] at h
  rcases hse : s.sending with _ | dp
  · rw [hse] at h
    cases h
  rw [hse] at h
  refine ⟨dp, rfl, ?_⟩
  rcases success with _ | _
  · cases h
    exact .inr ⟨rfl, rfl⟩
  · exact .inl ⟨rfl, (Except.ok.inj h).symm⟩

/-- Where the send event is after `schedSendEvent`. -/
theorem eventFor_cases {scheduled : Nat} (h : scheduled ∈ s.eventFor when) :
    (when ≠ maxTick ∧ when ≤ scheduled ∧ s.curTick < scheduled) ∨ scheduled ∈ s.sendEvent := by
  rw [eventFor] at h
  split_ifs at h with hmax
  · rcases hev : s.sendEvent with _ | e
    · simp only [hev, Option.mem_def, Option.some.injEq] at h
      exact .inl ⟨hmax, by omega, by omega⟩
    simp only [hev] at h
    split at h
    · rw [Option.mem_def, Option.some.injEq] at h
      exact .inl ⟨hmax, by omega, by omega⟩
    · exact .inr h
  · exact .inr h

theorem eventFor_isSome (h : when ≠ maxTick) : (s.eventFor when).isSome = true := by
  rw [eventFor, if_pos h]
  rcases s.sendEvent with _ | e
  · rfl
  · simp only
    split <;> rfl

end

/-! ## The line -/

section

variable {s s' : Queue} {op : Op}

/-- A new packet is put into the line: it has passed all packets behind it, and in front of it there is
the front of the list or a packet that it does not pass. -/
def PutsIn (s : Queue) (op : Op) (s' : Queue) : Prop :=
  ∃ pkt when forceOrder pre post, op = .schedSendTiming pkt when forceOrder ∧ s.curTick ≤ when ∧
    let dp := s.packet pkt when forceOrder
    s.transmitList = pre ++ post ∧ s'.line = (s.gone ++ pre) ++ dp :: post ∧
    s'.queued = s.queued ++ [dp] ∧ (∀ y ∈ post, passes dp y = true) ∧
    ∀ y ∈ pre.getLast?, s.transmitList.head? = some y ∨ passes dp y = false

theorem putsIn_of_schedSendTiming {pkt : Packet} {when : Nat} {forceOrder : Bool}
    (h : s.schedSendTiming pkt when forceOrder = .ok s') : s.PutsIn (.schedSendTiming pkt when forceOrder) s' := by
  obtain ⟨hwh, ⟨hli, h⟩ | ⟨front, rest, hli, rfl⟩⟩ := schedSendTiming_eq_ok h
  · rw [schedSendEvent_eq_ok h]
    refine ⟨pkt, when, forceOrder, [], [], rfl, hwh, hli, ?_, rfl, ?_, ?_⟩
    · rw [append_nil]
      rfl
    · exact fun _ hy => absurd hy not_mem_nil
    · exact fun _ hy => by cases hy
  · obtain ⟨pre, post, hsp, hin, hpo, hpre⟩ := BackInsert.exists_eq_insert
      (passes (s.packet pkt when forceOrder)) (s.packet pkt when forceOrder) rest
    refine ⟨pkt, when, forceOrder, front :: pre, post, rfl, hwh, ?_, ?_, rfl, hpo, ?_⟩
    · rw [hli, hsp, cons_append]
    · rw [line, hin, append_assoc, cons_append]
      rfl
    · intro y hy
      rcases eq_nil_or_concat' pre with rfl | ⟨pre, z, rfl⟩
      · rw [hli]
        exact .inl hy
      · rw [← cons_append, getLast?_concat] at hy
        refine .inr (hpre y ?_)
        rw [getLast?_concat]
        exact hy

/-- The front of the list is handed over. -/
theorem line_beginSend (hse : s.sending = none) (h : s.beginSend = .ok s') :
    s'.line = s.line ∧ s'.queued = s.queued := by
  obtain ⟨dp, rest, hli, -, rfl⟩ := beginSend_eq_ok h
  refine ⟨?_, rfl⟩
  rw [line, line, gone, gone, hse, hli]
  simp

/-- **The line**: an operation leaves it as it is, or puts a new packet into it. -/
theorem line_exec (ha : s.Allows op) (h : s.exec op = .ok s') :
    (s'.line = s.line ∧ s'.queued = s.queued) ∨ s.PutsIn op s' := by
  rcases op with tick | ⟨pkt, when, forceOrder⟩ | _ | _ | success
  · cases h
    exact .inl ⟨rfl, rfl⟩
  · exact .inr (putsIn_of_schedSendTiming h)
  · obtain ⟨-, h⟩ := check_eq_ok.1 h
    exact .inl (line_beginSend (s := { s with sendEvent := none }) ha.1 h)
  · obtain ⟨-, h⟩ := check_eq_ok.1 h
    exact .inl (line_beginSend (s := { s with waitingOnRetry := false }) ha h)
  · obtain ⟨dp, hse, ⟨-, rfl⟩ | ⟨-, rfl⟩⟩ := sent_eq_ok h
    · refine .inl ⟨?_, rfl⟩
      rw [line, line, gone, gone, hse]
      simp
    · refine .inl ⟨?_, rfl⟩
      rw [line, line, gone, gone, hse]
      simp

/-- What holds of the line at all times. -/
structure Lined (s : Queue) : Prop where
  perm : s.line.Perm s.queued
  numbered : s.queued.map number = List.range s.queued.length
  forced : s.line.Pairwise Forced

theorem lined_new (disableSanityCheck : Bool) : Lined (new disableSanityCheck) :=
  ⟨.refl _, rfl, .nil⟩

namespace Lined

theorem number_lt (h : Lined s) {dp : DeferredPacket} (hdp : dp ∈ s.line) : dp.number < s.queued.length := by
  have hmem := mem_map_of_mem (f := number) (h.perm.subset hdp)
  rwa [h.numbered, mem_range] at hmem

theorem nodup_queued (h : Lined s) : s.queued.Nodup := by
  refine List.Nodup.of_map number ?_
  rw [h.numbered]
  exact nodup_range

theorem exec (h : Lined s) (ha : s.Allows op) (hex : s.exec op = .ok s') : Lined s' := by
  rcases line_exec ha hex with ⟨hli, hqu⟩ | ⟨pkt, when, forceOrder, pre, post, -, -, hlis, hli, hqu, hpo, -⟩
  · exact ⟨by rw [hli, hqu]; exact h.perm, by rw [hqu]; exact h.numbered, by rw [hli]; exact h.forced⟩
  have hsp : s.line = (s.gone ++ pre) ++ post := by rw [line, hlis, append_assoc]
  constructor
  · rw [hli, hqu]
    exact perm_middle.trans ((perm_append_singleton _ _).symm.trans (List.Perm.append_right _ (hsp ▸ h.perm)))
  · rw [hqu, map_append, h.numbered, length_append, length_singleton, range_succ]
    rfl
  · rw [hli]
    refine BackInsert.pairwise_insert (hsp ▸ h.forced) (fun y hy _ _ => ?_) fun y hy hf had => ?_
    · refine h.number_lt ?_
      rw [hsp]
      exact mem_append_left _ hy
    · -- a packet that must keep the order does not pass one with its address
      have hpa := hpo y hy
      rw [passes, hf, had] at hpa
      simp at hpa

end Lined

end

/-! ## Times -/

/-- What holds of the times of packets and of the send event. -/
structure Timed (s : Queue) : Prop where
  gone : ∀ dp ∈ s.gone, dp.tick ≤ s.curTick ∧ ∃ tick, (dp, tick) ∈ s.handed
  handed : ∀ x ∈ s.handed, x.1 ∈ s.queued ∧ x.1.tick ≤ x.2
  waiting : s.waitingOnRetry = true → s.sending = none ∧ ∃ dp rest, s.transmitList = dp :: rest ∧ dp.tick ≤ s.curTick
  /-- The event is not before the first packet it may have to send. -/
  event : ∀ scheduled ∈ s.sendEvent, s.curTick ≤ scheduled ∧ ∃ dp rest, s.behind = dp :: rest ∧ dp.tick ≤ scheduled
  /-- The front of the list has not been forgotten. -/
  pending : ∀ dp ∈ s.transmitList.head?, s.sending.isSome = true ∨ s.waitingOnRetry = true ∨
    s.sendEvent.isSome = true ∨ dp.tick = maxTick

theorem timed_new (disableSanityCheck : Bool) : Timed (new disableSanityCheck) where
  gone _ h := absurd h not_mem_nil
  handed _ h := absurd h not_mem_nil
  waiting h := by cases h
  event _ h := by cases h
  pending _ h := by cases h

namespace Timed

variable {s s' : Queue} {dp : DeferredPacket} {rest : List DeferredPacket}
  {pkt : Packet} {when tick : Nat} {forceOrder success : Bool} {op : Op}

section

variable (h : Timed s)
include h

theorem advance (ha : s.Allows (.advance tick)) : Timed { s with curTick := tick } :=
  { h with
    gone := fun dp hdp => (h.gone dp hdp).imp_left (le_trans · ha.2.1)
    waiting := fun hwa => by
      obtain ⟨hse, dp, rest, hli, hre⟩ := h.waiting hwa
      exact ⟨hse, dp, rest, hli, le_trans hre ha.2.1⟩
    event := fun scheduled hev => ⟨ha.2.2 scheduled hev, (h.event scheduled hev).2⟩ }

/-- The front of the list is handed over. -/
theorem handOver (rest : List DeferredPacket) (event : Option Nat) (hmem : dp ∈ s.queued) (hre : dp.tick ≤ s.curTick)
    (hev : ∀ scheduled ∈ event, s.curTick ≤ scheduled ∧ ∃ dp' rest', rest = dp' :: rest' ∧ dp'.tick ≤ scheduled) :
    Timed { s with
      transmitList := rest
      waitingOnRetry := false
      sendEvent := event
      sending := some dp
      handed := s.handed ++ [(dp, s.curTick)] } where
  gone dp' hdp' := by
    rcases mem_append.1 hdp' with hdp' | hdp'
    · obtain ⟨hti, tick, hh⟩ := h.gone dp' (mem_append_left _ hdp')
      exact ⟨hti, tick, mem_append_left _ hh⟩
    · cases mem_singleton.1 hdp'
      exact ⟨hre, s.curTick, mem_append_right _ (mem_singleton_self _)⟩
  handed x hx := by
    rcases mem_append.1 hx with hx | hx
    · exact h.handed x hx
    · rw [mem_singleton.1 hx]
      exact ⟨hmem, hre⟩
  waiting hwa := by cases hwa
  event := hev
  pending _ _ := .inl rfl

/-- While a packet is being sent, the queue does not wait for a retry. -/
theorem not_waiting (hse : s.sending = some dp) : s.waitingOnRetry = false := by
  rcases hwa : s.waitingOnRetry with _ | _
  · rfl
  · rw [(h.waiting hwa).1] at hse
    cases hse

/-- The other side has accepted the packet. -/
theorem accept (hse : s.sending = some dp) : Timed { s with
      waitingOnRetry := false
      sending := none
      accepted := s.accepted ++ [dp]
      sendEvent := s.eventFor s.deferredPacketReadyTime } where
  gone dp' hdp' := by
    refine h.gone dp' ?_
    rw [Queue.gone, hse]
    simpa [Queue.gone] using hdp'
  handed := h.handed
  waiting hwa := by cases hwa
  event scheduled hev := by
    rcases eventFor_cases hev with ⟨hmax, hre, hcur⟩ | hev
    · rcases hli : s.transmitList with _ | ⟨dp', rest⟩
      · rw [deferredPacketReadyTime, hli] at hmax
        exact absurd rfl hmax
      · rw [deferredPacketReadyTime, hli] at hre
        exact ⟨le_of_lt hcur, dp', rest, rfl, hre⟩
    · obtain ⟨hcur, hbe⟩ := h.event scheduled hev
      rw [behind, h.not_waiting hse] at hbe
      exact ⟨hcur, hbe⟩
  pending dp' hdp' := by
    by_cases hmax : dp'.tick = maxTick
    · exact .inr (.inr (.inr hmax))
    · refine .inr (.inr (.inl (eventFor_isSome ?_)))
      obtain ⟨rest, hli⟩ := head?_eq_some_iff.1 hdp'
      rw [deferredPacketReadyTime, hli]
      exact hmax

/-- The other side has rejected the packet. -/
theorem reject (hse : s.sending = some dp) : Timed { s with
      waitingOnRetry := true
      sending := none
      transmitList := dp :: s.transmitList } where
  gone dp' hdp' := by
    refine h.gone dp' (mem_append_left _ ?_)
    simpa [Queue.gone] using hdp'
  handed := h.handed
  waiting _ := by
    have hg : dp ∈ s.gone := by
      rw [Queue.gone, hse]
      exact mem_append_right _ (mem_singleton_self _)
    exact ⟨rfl, dp, s.transmitList, rfl, (h.gone dp hg).1⟩
  event scheduled hev := by
    obtain ⟨hcur, hbe⟩ := h.event scheduled hev
    rw [behind, h.not_waiting hse] at hbe
    exact ⟨hcur, hbe⟩
  pending _ _ := .inr (.inl rfl)

theorem not_waiting_of_nil (hli : s.transmitList = []) : s.waitingOnRetry = false := by
  rcases hwa : s.waitingOnRetry with _ | _
  · rfl
  · obtain ⟨-, dp, rest, hco, -⟩ := h.waiting hwa
    rw [hli] at hco
    cases hco

/-- A packet is put on the empty list. -/
theorem putFirst (hli : s.transmitList = []) : Timed { s with
      transmitList := [dp]
      queued := s.queued ++ [dp]
      sendEvent := s.eventFor dp.tick } := by
  have hwa := h.not_waiting_of_nil hli
  exact
    { h with
      handed := fun x hx => (h.handed x hx).imp_left (mem_append_left _)
      waiting := fun hw' => by
        rw [hwa] at hw'
        cases hw'
      event := fun scheduled hev => by
        rcases eventFor_cases hev with ⟨-, hre, hcur⟩ | hev
        · refine ⟨le_of_lt hcur, dp, [], ?_, hre⟩
          rw [behind, if_neg (by simp [hwa])]
        · obtain ⟨-, dp', rest, hbe, -⟩ := h.event scheduled hev
          rw [behind, hli, tail_nil, ite_self] at hbe
          cases hbe
      pending := fun dp' hdp' => by
        cases hdp'
        by_cases hmax : dp.tick = maxTick
        · exact .inr (.inr (.inr hmax))
        · exact .inr (.inr (.inl (eventFor_isSome hmax))) }

end

/-- The first packet behind the one that waits is the same as before, or is ready earlier. -/
theorem exists_insert_eq_cons {dp' : DeferredPacket} (hre : dp'.tick ≤ tick) :
    ∃ first rest', BackInsert.insert (passes dp) dp (dp' :: rest) = first :: rest' ∧
      first.tick ≤ tick := by
  obtain ⟨pre, post, hsp, hin, hpo, -⟩ := BackInsert.exists_eq_insert (passes dp) dp (dp' :: rest)
  rw [hin]
  rcases pre with _ | ⟨first, pre⟩
  · have hpa := hpo dp' (by rw [← nil_append post, ← hsp]; exact mem_cons_self)
    simp only [passes, Bool.and_eq_true, decide_eq_true_eq] at hpa
    exact ⟨dp, post, rfl, le_trans (le_of_lt hpa.1) hre⟩
  · obtain ⟨rfl, -⟩ := List.cons.inj hsp
    exact ⟨dp', _, rfl, hre⟩

/-- A packet is put behind the front of the list. -/
theorem putBehind (h : Timed s) {front : DeferredPacket} (hli : s.transmitList = front :: rest) : Timed { s with
      transmitList := front :: BackInsert.insert (passes dp) dp rest
      queued := s.queued ++ [dp] } := by
  exact
    { h with
      handed := fun x hx => (h.handed x hx).imp_left (mem_append_left _)
      waiting := fun hwa => by
        obtain ⟨hse, dp', rest', hco, hre⟩ := h.waiting hwa
        rw [hli] at hco
        cases hco
        exact ⟨hse, front, _, rfl, hre⟩
      event := fun scheduled hev => by
        obtain ⟨hcur, dp', rest', hbe, hre⟩ := h.event scheduled hev
        refine ⟨hcur, ?_⟩
        rw [behind, hli, tail_cons] at hbe
        rw [behind, tail_cons]
        by_cases hwa : s.waitingOnRetry
        · rw [if_pos hwa] at hbe ⊢
          rw [hbe]
          exact exists_insert_eq_cons hre
        · rw [if_neg hwa] at hbe ⊢
          cases hbe
          exact ⟨front, _, rfl, hre⟩
      pending := fun dp' hdp' => h.pending dp' (by rw [hli]; exact hdp') }

theorem schedSendTiming (h : Timed s) (hex : s.schedSendTiming pkt when forceOrder = .ok s') : Timed s' := by
  obtain ⟨-, ⟨hli, hex⟩ | ⟨front, rest, hli, rfl⟩⟩ := schedSendTiming_eq_ok hex
  · rw [schedSendEvent_of_not_waiting] at hex
    · cases hex
      exact h.putFirst hli
    · exact h.not_waiting_of_nil hli
  · exact h.putBehind hli

/-- The front of the list is ready when the send event is processed. -/
theorem ready_of_event (h : Timed s) (hwa : s.waitingOnRetry = false) (hev : s.sendEvent = some s.curTick) :
    ∃ dp rest, s.transmitList = dp :: rest ∧ dp.tick ≤ s.curTick := by
  obtain ⟨-, hbe⟩ := h.event s.curTick hev
  rw [behind, if_neg (by simp [hwa])] at hbe
  exact hbe

theorem exec (h : Timed s) (hli : Lined s) (ha : s.Allows op) (hex : s.exec op = .ok s') : Timed s' := by
  -- the front of the list is one of the packets that were queued
  have hmem : ∀ {dp rest}, s.transmitList = dp :: rest → dp ∈ s.queued := by
    intro dp rest hlis
    refine hli.perm.subset ?_
    rw [line, hlis]
    exact mem_append_right _ mem_cons_self
  rcases op with tick | ⟨pkt, when, forceOrder⟩ | _ | _ | success
  · cases hex
    exact h.advance ha
  · exact h.schedSendTiming hex
  · obtain ⟨hwa, hex⟩ := check_eq_ok.1 hex
    obtain ⟨dp, rest, hlis, hre, rfl⟩ := beginSend_eq_ok hex
    rw [Bool.eq_false_iff.2 hwa]
    exact h.handOver rest none (hmem hlis) hre fun _ hn => by cases hn
  · obtain ⟨hwa, hex⟩ := check_eq_ok.1 hex
    obtain ⟨dp, rest, hlis, hre, rfl⟩ := beginSend_eq_ok hex
    refine h.handOver rest s.sendEvent (hmem hlis) hre fun scheduled hev => ?_
    obtain ⟨hcur, hbe⟩ := h.event scheduled hev
    rw [behind, if_pos (by simpa using hwa)] at hbe
    refine ⟨hcur, ?_⟩
    have hta : s.transmitList.tail = rest := congrArg List.tail hlis
    rwa [hta] at hbe
  · obtain ⟨dp, hse, ⟨-, rfl⟩ | ⟨-, rfl⟩⟩ := sent_eq_ok hex
    · exact h.accept hse
    · exact h.reject hse

/-- A packet is never handed over before it is ready: the assertion of `sendDeferredPacket` holds. -/
theorem ends_exec (h : Timed s) (ha : s.Allows op) : Ends (fun _ => True) (· ≠ .notReady) (s.exec op) := by
  have hev : ∀ (s : Queue) when, Ends (fun _ => True) (· ≠ .notReady) (s.schedSendEvent when) := by
    intro s when
    rw [schedSendEvent]
    split
    · exact Ends.check (fun _ => by decide) fun _ => trivial
    · trivial
  have hbe : ∀ s : Queue, (∃ dp rest, s.transmitList = dp :: rest ∧ dp.tick ≤ s.curTick) →
      Ends (fun _ => True) (· ≠ .notReady) s.beginSend := by
    rintro s ⟨dp, rest, hli, hre⟩
    rw [beginSend, hli]
    exact Ends.check (fun _ => by decide) fun _ =>
      Ends.check (fun hlt => absurd hre (Nat.not_le.2 hlt)) fun _ => trivial
  rcases op with tick | ⟨pkt, when, forceOrder⟩ | _ | _ | success
  · trivial
  · refine Ends.check (fun _ => by decide) fun _ => Ends.check (fun _ => by decide) fun _ =>
      Ends.check (fun _ => by decide) fun _ => ?_
    rcases s.transmitList with _ | ⟨front, rest⟩
    · exact hev _ when
    · trivial
  · refine Ends.check (fun _ => by decide) fun hwa => hbe _ ?_
    exact h.ready_of_event (Bool.eq_false_iff.2 hwa) ha.2
  · refine Ends.check (fun _ => by decide) fun hwa => hbe _ ?_
    exact (h.waiting (by simpa using hwa)).2
  · show Ends _ _ (s.sent success)
    rw [sent]
    rcases s.sending with _ | dp
    · exact fun h => by cases h
    rcases success with _ | _
    · trivial
    · exact hev { s with
        waitingOnRetry := false
        sending := none
        accepted := s.accepted ++ [dp] } s.deferredPacketReadyTime

end Timed

/-! ## Runs -/

section

variable {s s' : Queue} {op : Op} {disableSanityCheck : Bool}

theorem inv_of_reaches (h : Reaches exec Allows (new disableSanityCheck) s) : Lined s ∧ Timed s :=
  h.invariant (P := fun s => Lined s ∧ Timed s) ⟨lined_new _, timed_new _⟩
    fun _ hinv ha hex => ⟨hinv.1.exec ha hex, hinv.2.exec hinv.1 ha hex⟩

/-- No packet is queued that is ready before the front of the list. -/
def InOrder (s : Queue) : Op → Prop
  | .schedSendTiming _ when _ => ∀ front ∈ s.transmitList.head?, front.tick ≤ when
  | _ => True

instance (s : Queue) : ∀ op, Decidable (s.InOrder op)
  | .advance _ => isTrue trivial
  | .schedSendTiming .. => inferInstanceAs (Decidable (∀ _ ∈ s.transmitList.head?, _))
  | .processSendEvent | .retry | .sent _ => isTrue trivial

/-- A packet that is ready no earlier than the front of the list comes to stand in order. -/
theorem sorted_exec (hli : Lined s) (hti : Timed s) (ha : s.Allows op) (hin : s.InOrder op) (hex : s.exec op = .ok s')
    (hf : ∀ dp ∈ s'.queued, dp.forceOrder = false) (hso : s.line.Pairwise Before) : s'.line.Pairwise Before := by
  rcases line_exec ha hex with ⟨hlin, -⟩ | ⟨pkt, when, forceOrder, pre, post, rfl, hwh, hlis, hlin, hqu, hpo, hla⟩
  · rw [hlin]
    exact hso
  have hsp : s.line = (s.gone ++ pre) ++ post := by rw [line, hlis, append_assoc]
  rw [hsp] at hso
  -- all packets in front of the new one are ready no later
  have htic : ∀ y ∈ s.gone ++ pre, y.tick ≤ when := by
    intro y hy
    rcases mem_append.1 hy with hy | hy
    · exact le_trans (hti.gone y hy).1 hwh
    obtain ⟨pre', z, rfl⟩ := (eq_nil_or_concat' pre).resolve_left (ne_nil_of_mem hy)
    have hz : z.tick ≤ when := by
      rcases hla z (getLast?_concat ..) with hfr | hpa
      · exact hin z hfr
      · have hnot := hf _ (hqu ▸ mem_append_right _ (mem_singleton_self _))
        simp only [passes, hnot, Bool.false_and, Bool.not_false, Bool.and_true, decide_eq_false_iff_not, not_lt] at hpa
        exact hpa
    rcases mem_append.1 hy with hy | hy
    · have hpre := (pairwise_append.1 (pairwise_append.1 hso).1).2.1
      have hbe : Before y z := (pairwise_append.1 hpre).2.2 y hy z (mem_singleton_self z)
      exact le_trans hbe.tick_le hz
    · rw [mem_singleton.1 hy]
      exact hz
  rw [hlin]
  refine BackInsert.pairwise_insert hso (fun y hy => before_of_le (htic y hy) ?_) fun y hy => .inl ?_
  · refine hli.number_lt ?_
    rw [hsp]
    exact mem_append_left _ hy
  · have hpa := hpo y hy
    simp only [passes, Bool.and_eq_true, decide_eq_true_eq] at hpa
    exact hpa.1

theorem sorted_of_reaches (h : Reaches exec (fun s op => s.Allows op ∧ s.InOrder op) (new disableSanityCheck) s)
    (hf : ∀ dp ∈ s.queued, dp.forceOrder = false) : s.line.Pairwise Before := by
  revert hf
  refine h.invariant (P := fun s => (∀ dp ∈ s.queued, dp.forceOrder = false) →
    s.line.Pairwise Before) (fun _ => .nil) fun {s s' op} hre hso hok hex hf => ?_
  obtain ⟨hli, hti⟩ := inv_of_reaches (hre.mono fun _ _ hok => hok.1)
  refine sorted_exec hli hti hok.1 hok.2 hex hf (hso fun dp hdp => hf dp ?_)
  rcases line_exec hok.1 hex with ⟨-, hqu⟩ | ⟨_, _, _, _, _, -, -, -, -, hqu, -⟩
  · rw [hqu]
    exact hdp
  · rw [hqu]
    exact mem_append_left _ hdp

/-- **Packets are sent in order.**  The packets accepted, the one being sent and those on the list are
the packets queued, each once; only queued packets are handed over, and none before its tick.  A packet
with `force_order` is behind all earlier ones with its address.  If no packet has `force_order`, and
none is queued that is ready before the front of the list, then all packets are in the order of their
ticks, with ties in the order of arrival. -/
theorem packets_in_order (h : Reaches exec Allows (new disableSanityCheck) s) :
    (s.accepted ++ s.sending.toList ++ s.transmitList).Perm s.queued ∧ s.queued.Nodup ∧
    (∀ x ∈ s.handed, x.1 ∈ s.queued ∧ x.1.tick ≤ x.2) ∧
    (∀ dp ∈ s.accepted, ∃ tick, (dp, tick) ∈ s.handed) ∧
    (∀ dp ∈ s.transmitList.head?, s.sending.isSome = true ∨ s.waitingOnRetry = true ∨
      s.sendEvent.isSome = true ∨ dp.tick = maxTick) ∧
    (∀ op, s.Allows op → s.exec op ≠ .error .notReady) ∧
    (s.accepted ++ s.sending.toList ++ s.transmitList).Pairwise Forced ∧
    (Reaches exec (fun s op => s.Allows op ∧ s.InOrder op) (new disableSanityCheck) s →
      (∀ dp ∈ s.queued, dp.forceOrder = false) →
      (s.accepted ++ s.sending.toList ++ s.transmitList).Pairwise Before) := by
  obtain ⟨hli, hti⟩ := inv_of_reaches h
  refine ⟨hli.perm, hli.nodup_queued, hti.handed, fun dp hdp => ?_, hti.pending,
    fun op ha herr => ?_, hli.forced, sorted_of_reaches⟩
  · exact (hti.gone dp (mem_append_left _ hdp)).2
  · exact (hti.ends_exec ha).of_error herr rfl

/-- Two packets in order, the first of which is rejected once. -/
theorem packets_in_order_rejected : ∃ s : Queue, s.accepted.map tick = [5, 10] ∧
    s.line.Pairwise Before := by
  obtain ⟨s, hs, ha, hf⟩ := exists_reaches exec (fun s op => s.Allows op ∧ s.InOrder op) (new false)
    [.schedSendTiming ⟨0x40, false⟩ 5 false, .schedSendTiming ⟨0x80, false⟩ 10 false, .advance 5,
      .processSendEvent, .sent false, .advance 7, .retry, .sent true, .advance 10,
      .processSendEvent, .sent true]
    (fun s => s.accepted.map tick = [5, 10] ∧ ∀ dp ∈ s.queued, dp.forceOrder = false) (by decide +kernel)
  obtain ⟨-, -, -, -, -, -, -, hso⟩ := packets_in_order (hs.mono fun _ _ hok => hok.1)
  exact ⟨s, ha, hso hs hf⟩

/-- A packet that is ready before the front of the list is put behind it, and is sent after it. -/
theorem not_sorted : (∃ s, Reaches exec Allows (new false) s ∧ (∀ dp ∈ s.queued, dp.forceOrder = false) ∧
      ¬ s.transmitList.Pairwise Before) ∧
    ∃ s, Reaches exec Allows (new false) s ∧ (∀ dp ∈ s.queued, dp.forceOrder = false) ∧
      s.accepted.map tick = [10, 5] := by
  constructor
  · exact exists_reaches exec Allows (new false)
      [.schedSendTiming ⟨0x40, false⟩ 10 false, .schedSendTiming ⟨0x80, false⟩ 5 false]
      (fun s => (∀ dp ∈ s.queued, dp.forceOrder = false) ∧ ¬ s.transmitList.Pairwise Before)
      (by decide +kernel)
  · exact exists_reaches exec Allows (new false)
      [.schedSendTiming ⟨0x40, false⟩ 10 false, .schedSendTiming ⟨0x80, false⟩ 5 false,
        .advance 10, .processSendEvent, .sent true, .advance 11, .processSendEvent, .sent true]
      (fun s => (∀ dp ∈ s.queued, dp.forceOrder = false) ∧
        s.accepted.map tick = [10, 5]) (by decide +kernel)

end

end Queue

end GuardianCouncil.PacketQueue
