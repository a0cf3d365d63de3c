import GuardianCouncil.LSQUnit.Queue

/-!
# What writing back does to a unit

`writebackStores` and `recvRetry` send the packets of one store after the other.  All they do to a unit is a sequence of
a few kinds of steps (`WBStep`), each about the store at `storeWBIdx`.  What such a step needs is what the source has
checked before.
-/

namespace GuardianCouncil.LSQUnit

open Ring Relation Fallible

variable {cfg : Config}

namespace State

variable {s s' : State cfg} {idx : Nat}

/-- What completing a store leaves as it is. -/
theorem completeStore_frame (hs : s.completeStore idx = .ok s') :
    s'.storeWBIdx = s.storeWBIdx ∧ s'.storeTail = s.storeTail ∧ s'.pendingPkt = s.pendingPkt ∧
      s'.retryPkt = s.retryPkt := by
  rw [completeStore] at hs
  split at hs
  · cases hs
  · cases hs
    rw [removeCompleted]
    split <;> exact ⟨rfl, rfl, rfl, rfl⟩

theorem removeCompleted_incrWBIdx : s.incrWBIdx.removeCompleted idx = (s.removeCompleted idx).incrWBIdx := by
  rw [removeCompleted, removeCompleted]
  by_cases hidx : idx = s.storeHead
  · rw [if_pos hidx, if_pos (show idx = s.incrWBIdx.storeHead from hidx)]
    rfl
  · rw [if_neg hidx, if_neg (show ¬ idx = s.incrWBIdx.storeHead from hidx)]

theorem removeCompleted_storesToWB {n : Nat} :
    ({ s with storesToWB := n } : State cfg).removeCompleted idx = { s.removeCompleted idx with storesToWB := n } := by
  rw [removeCompleted, removeCompleted]
  by_cases hidx : idx = s.storeHead
  · rw [if_pos hidx, if_pos hidx]
  · rw [if_neg hidx, if_neg hidx]

/-- Completing a store and passing it are independent. -/
theorem completeStore_incrWBIdx (hs : s.completeStore idx = .ok s') :
    s.incrWBIdx.completeStore idx = .ok s'.incrWBIdx := by
  rw [completeStore] at hs ⊢
  split at hs
  · cases hs
  rename_i inst hin
  cases hs
  rw [show (s.incrWBIdx.storeQueue idx).inst = some inst from hin]
  dsimp only
  rw [show s.incrWBIdx.setStore idx { s.incrWBIdx.storeQueue idx with completed := true } =
    (s.setStore idx { s.storeQueue idx with completed := true }).incrWBIdx from rfl,
    removeCompleted_incrWBIdx]
  rfl

/-- What sending the last packet of a store leaves as it is. -/
theorem storePostSend_frame (hs : s.storePostSend = .ok s') :
    s'.storeWBIdx = next cfg.sqEntries s.storeWBIdx ∧ s'.storeTail = s.storeTail ∧ s'.pendingPkt = s.pendingPkt ∧
      ({ s with pendingPkt := none } : State cfg).storePostSend = .ok { s' with pendingPkt := none } := by
  rw [storePostSend] at hs
  split at hs
  · cases hs
  rename_i inst hin
  cases hs
  refine ⟨rfl, rfl, rfl, ?_⟩
  rw [storePostSend]
  dsimp only
  rw [hin]
  rfl

theorem sendStore_eq_ok {packet : StorePacket} {accepts sent : Bool}
    (hs : s.sendStore packet accepts = .ok (sent, s')) : sent = true ∧ s' = s ∨ sent = false ∧ s.retryPkt = none ∧
      s' = { s with isStoreBlocked := true, retryPkt := some packet } := by
  rw [sendStore] at hs
  split at hs
  · cases hs
    exact .inl ⟨rfl, rfl⟩
  split at hs
  · cases hs
  · rename_i hre
    cases hs
    exact .inr ⟨rfl, by simpa using hre, rfl⟩

/-- The loop of `writebackStores` goes on with the store at `storeWBIdx`. -/
structure Ready (s : State cfg) : Prop where
  ne_tail : s.storeWBIdx ≠ s.storeTail
  canWB : (s.storeQueue s.storeWBIdx).canWB
  unblocked : s.isStoreBlocked = false
  pendingPkt_eq : s.pendingPkt = none

end State

/-- What may happen to the store at `storeWBIdx`. -/
inductive WBStep : State cfg → State cfg → Prop
  /-- It is marked as committed. -/
  | commit {s : State cfg} (h : s.Ready) :
    WBStep s (s.setStore s.storeWBIdx { s.storeQueue s.storeWBIdx with committed := true })
  /-- It is a prefetch, which is not sent. -/
  | pass {s : State cfg} (h : s.Ready) : WBStep s s.incrWBIdx
  /-- It completes at once. -/
  | complete {s s' : State cfg} (h : s.Ready) (hs : s.completeStore s.storeWBIdx = .ok s') : WBStep s s'.incrWBIdx
  /-- Its last packet is sent. -/
  | send {s s' : State cfg} (h : s.Ready) (hs : s.storePostSend = .ok s') : WBStep s s'
  /-- A packet is refused by the cache. -/
  | refuse {s : State cfg} (h : s.Ready) (packet : StorePacket) :
    WBStep s { s with isStoreBlocked := true, retryPkt := some packet }
  /-- The second packet waits for a port. -/
  | hold {s : State cfg} (h : s.Ready) : WBStep s { s with pendingPkt := some .high }
  /-- The packet that waited for a port is sent. -/
  | sendPending {s s' : State cfg} (h : s.pendingPkt.isSome)
      (hs : ({ s with pendingPkt := none } : State cfg).storePostSend = .ok s') : WBStep s s'
  | refusePending {s : State cfg} (h : s.pendingPkt.isSome) (packet : StorePacket) :
    WBStep s { s with isStoreBlocked := true, retryPkt := some packet, pendingPkt := none }
  /-- The packet that was refused is sent. -/
  | sendRetry {s s' : State cfg} (h : s.retryPkt.isSome)
      (hs : ({ s with retryPkt := none, isStoreBlocked := false } : State cfg).storePostSend = .ok s') : WBStep s s'
  | refuseRetry {s : State cfg} (h : s.retryPkt.isSome) (packet : StorePacket) :
    WBStep s { s with isStoreBlocked := true, retryPkt := some packet }

namespace State

variable {s s' : State cfg} {env : Env} {usedPorts sends : Nat} {more : Option (Nat × Nat)}

/-- When the loop of `writebackStores` goes on, the next entry is behind `storeWBIdx`. -/
def Advances (s s' : State cfg) (more : Option (Nat × Nat)) : Prop :=
  more.isSome → s'.pendingPkt = none ∧ s'.storeWBIdx = next cfg.sqEntries s.storeWBIdx ∧ s'.storeTail = s.storeTail

theorem advances_storePostSend (h : s.Ready) (hs : s.storePostSend = .ok s') : Advances s s' more := by
  obtain ⟨hidx, hta, hpe, -⟩ := storePostSend_frame hs
  exact fun _ => ⟨hpe.trans h.pendingPkt_eq, hidx, hta⟩

theorem completeNext_step (h : s.Ready) (hs : s.completeNext s.storeWBIdx = .ok s') :
    WBStep s s' ∧ Advances s s' more := by
  obtain ⟨s₁, hco, hs⟩ := bind_eq_ok.1 hs
  cases hs
  obtain ⟨hidx, hta, hpe, -⟩ := completeStore_frame hco
  refine ⟨.complete h hco, fun _ => ⟨hpe.trans h.pendingPkt_eq, ?_, hta⟩⟩
  rw [← hidx]
  rfl

theorem sendPackets_step (h : s.Ready) {entry : SQEntry}
    (hs : s.sendPackets env entry usedPorts sends = .ok (more, s')) : WBStep s s' ∧ Advances s s' more := by
  obtain ⟨⟨sent, s₁⟩, hse, hgo⟩ := bind_eq_ok.1 hs
  dsimp only at hgo
  rcases sendStore_eq_ok hse with ⟨rfl, rfl⟩ | ⟨rfl, -, rfl⟩
  · rw [if_neg (by simp)] at hgo
    split at hgo
    · split at hgo
      · obtain ⟨⟨sent, s₂⟩, hs', hgo'⟩ := bind_eq_ok.1 hgo
        dsimp only at hgo'
        rcases sendStore_eq_ok hs' with ⟨rfl, rfl⟩ | ⟨rfl, -, rfl⟩
        · rw [if_neg (by simp)] at hgo'
          obtain ⟨s₃, hpo, hend⟩ := bind_eq_ok.1 hgo'
          cases hend
          exact ⟨.send h hpo, advances_storePostSend h hpo⟩
        · cases hgo'
          exact ⟨.refuse h _, nofun⟩
      · cases hgo
        exact ⟨.hold h, nofun⟩
    · obtain ⟨s₂, hpo, hend⟩ := bind_eq_ok.1 hgo
      cases hend
      exact ⟨.send h hpo, advances_storePostSend h hpo⟩
  · cases hgo
    exact ⟨.refuse h _, nofun⟩

theorem writebackEntry_steps (h : s.Ready) {inst : StoreInst}
    (hs : s.writebackEntry env s.storeWBIdx (s.storeQueue s.storeWBIdx) inst usedPorts sends = .ok (more, s')) :
    ReflTransGen WBStep s s' ∧ Advances s s' more := by
  rw [writebackEntry] at hs
  split at hs
  · obtain ⟨s₁, hco, hs⟩ := bind_eq_ok.1 hs
    cases hs
    obtain ⟨hst, ha⟩ := completeNext_step h hco
    exact ⟨.single hst, ha⟩
  · split at hs
    · cases hs
      exact ⟨.single (.pass h), fun _ => ⟨h.pendingPkt_eq, rfl, rfl⟩⟩
    split at hs
    · cases hs
    split at hs
    · cases hs
    -- the entry is marked, and is then as ready as before
    set s₁ := s.setStore s.storeWBIdx { s.storeQueue s.storeWBIdx with committed := true } with hs₁
    have hre : s₁.Ready := ⟨h.ne_tail, by
      rw [hs₁, setStore]
      dsimp only
      rw [Function.update_self]
      exact h.canWB, h.unblocked, h.pendingPkt_eq⟩
    split at hs
    · obtain ⟨s₂, hco, hs⟩ := bind_eq_ok.1 hs
      cases hs
      obtain ⟨hst, ha⟩ := completeNext_step (s := s₁) hre hco
      exact ⟨.head (.commit h) (.single hst), ha⟩
    · obtain ⟨hst, ha⟩ := sendPackets_step hre hs
      exact ⟨.head (.commit h) (.single hst), ha⟩

theorem writebackLoop_steps {l : List Nat} : ∀ {usedPorts sends : Nat} {s : State cfg},
    s.storeWBIdx < cfg.sqEntries → s.storeTail < cfg.sqEntries → s.pendingPkt = none →
    between cfg.sqEntries s.storeWBIdx s.storeTail = l → writebackLoop env l usedPorts sends s = .ok s' →
    ReflTransGen WBStep s s' := by
  induction l with
  | nil =>
    intro usedPorts sends s _ _ _ _ hs
    cases hs
    exact .refl
  | cons idx rest ih =>
    intro usedPorts sends s hidx hta hpe hl hs
    obtain ⟨rfl, hne, hres⟩ := between_eq_cons hidx hta hl
    rw [writebackLoop] at hs
    split at hs
    · cases hs
      exact .refl
    split_ifs at hs with hgo
    · cases hs
      exact .refl
    push Not at hgo
    obtain ⟨-, hwb, -, -, hbl⟩ := hgo
    have hre : s.Ready := ⟨hne, by simpa using hwb, by simpa using hbl, hpe⟩
    obtain ⟨⟨more, s₁⟩, hent, hs⟩ := bind_eq_ok.1 hs
    obtain ⟨hst, ha⟩ := writebackEntry_steps hre hent
    dsimp only at hs
    rcases more with - | ⟨usedPorts', sends'⟩
    · cases hs
      exact hst
    · obtain ⟨hp₁, hidx₁, ht₁⟩ := ha rfl
      refine hst.trans (ih ?_ (by rwa [ht₁]) hp₁ (by rw [hidx₁, ht₁, hres]) hs)
      rw [hidx₁]
      exact next_lt (Nat.lt_of_le_of_lt (Nat.zero_le _) hidx)

theorem writebackStores_steps (hidx : s.storeWBIdx < cfg.sqEntries) (hta : s.storeTail < cfg.sqEntries)
    (hs : s.writebackStores env = .ok s') : ReflTransGen WBStep s s' := by
  obtain ⟨s₁, hpe, hs⟩ := bind_eq_ok.1 hs
  rw [writebackPendingStore] at hpe
  split at hpe
  · rename_i hn
    cases hpe
    exact writebackLoop_steps hidx hta hn rfl hs
  rename_i packet hpa
  have hso : s.pendingPkt.isSome := by rw [hpa]; rfl
  obtain ⟨⟨sent, s₂⟩, hse, hre⟩ := bind_eq_ok.1 hpe
  dsimp only at hre
  rcases sendStore_eq_ok hse with ⟨rfl, rfl⟩ | ⟨rfl, -, rfl⟩
  · rw [if_pos rfl] at hre
    obtain ⟨s₃, hpo, hre⟩ := bind_eq_ok.1 hre
    cases hre
    -- the packet could as well have been cleared first
    obtain ⟨hidx₃, ht₃, -, hp'⟩ := storePostSend_frame hpo
    refine .head (.sendPending hso hp') (writebackLoop_steps ?_ ?_ rfl rfl hs)
    · show s₃.storeWBIdx < _
      rw [hidx₃]
      exact next_lt (Nat.lt_of_le_of_lt (Nat.zero_le _) hidx)
    · show s₃.storeTail < _
      rwa [ht₃]
  · rw [if_neg (by simp)] at hre
    cases hre
    exact .head (.refusePending hso packet) (writebackLoop_steps hidx hta rfl rfl hs)

theorem recvRetry_steps {accepts : Nat → Bool} (hs : s.recvRetry accepts = .ok s') : ReflTransGen WBStep s s' := by
  rw [recvRetry] at hs
  split at hs
  · cases hs
    exact .refl
  split at hs
  · cases hs
  rename_i packet hpa
  have hso : s.retryPkt.isSome := by rw [hpa]; rfl
  split at hs
  · cases hs
    exact .refl
  dsimp only at hs
  split at hs
  · obtain ⟨⟨sent, s₁⟩, hse, hs⟩ := bind_eq_ok.1 hs
    dsimp only at hs
    rcases sendStore_eq_ok hse with ⟨rfl, rfl⟩ | ⟨rfl, -, rfl⟩
    · rw [if_pos rfl] at hs
      exact .single (.sendRetry hso hs)
    · rw [if_neg (by simp)] at hs
      cases hs
      exact .single (.refuseRetry hso .high)
  · exact .single (.sendRetry hso hs)

end State

end GuardianCouncil.LSQUnit
