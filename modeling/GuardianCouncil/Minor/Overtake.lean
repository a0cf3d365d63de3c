import GuardianCouncil.Minor.InFlight

/-!
# Stores that overtake older ones

A store leaves the buffer when it has been answered, and an older one that writes the same byte can
stay behind: because another fragment of it has not been answered, because it is a barrier too, or
because the younger one was given up after an error.  These are the only ways: as long as the answers
for packets of one cache line come in the order the packets were sent (`InTurn`) and no store
overtakes an older one in one of these ways (`NotOvertaken`), what has left the buffer writes nothing
that an older store of its thread in the buffer writes (`consistent_of_reaches`).
-/

namespace GuardianCouncil.Minor

open List

variable {cfg : Config}

/-! ## Runs -/

/-- The answers for packets of one cache line come in the order the packets were sent. -/
def InTurn (s : LSQ cfg) : Op cfg → Prop
  | .recvTimingResp i _ => ∀ p ∈ s.inFlight[i]?, ∀ q ∈ s.inFlight.take i, cfg.line q.paddr ≠ cfg.line p.paddr
  | _ => True

/-- The next answer completes the request: it is the last one, or the request is given up and nothing
else of it is in flight. -/
def Slot.CompletedBy (slot : Slot cfg) (isError : Bool) : Prop :=
  slot.numRetiredFragments + 1 = slot.store.fragments.length ∨
    (slot.skipped || isError) ∧ slot.numIssuedFragments = slot.numRetiredFragments + 1
deriving Decidable

/-- No store is completed while an older one of its thread that writes a byte of it stays behind
because it is split or a barrier, or because the younger one is given up. -/
def NotOvertaken (s : LSQ cfg) : Op cfg → Prop
  | .recvTimingResp i isError => ∀ p ∈ s.inFlight[i]?, ∀ y ∈ s.slots, p.isOf y.num →
      y.CompletedBy isError → ∀ x ∈ s.slots, x.num < y.num →
      x.store.threadId = y.store.threadId →
      (x.store.isSplit ∨ x.store.isBarrier ∨ y.numRetiredFragments + 1 ≠ y.store.fragments.length) →
      ∀ a ∈ x.store.addrs, a ∉ y.store.addrs
  | _ => True

instance (s : LSQ cfg) : DecidablePred (InTurn s)
  | .recvTimingResp i _ => inferInstanceAs (Decidable (∀ p ∈ _, ∀ q ∈ s.inFlight.take i, _ ≠ _))
  | .insert _ | .step _ | .send _ _ | .recvReqRetry _ => isTrue trivial

instance (s : LSQ cfg) : DecidablePred (NotOvertaken s)
  | .recvTimingResp _ _ => inferInstanceAs (Decidable (∀ p ∈ _, ∀ y ∈ s.slots, _ → _ → ∀ x ∈ s.slots, _ → _ →
      (_ ∨ _ ∨ _) → ∀ a ∈ x.store.addrs, a ∉ _))
  | .insert _ | .step _ | .send _ _ | .recvReqRetry _ => isTrue trivial

/-- What an answer does to its request. -/
theorem Slot.retireResponse_eq_ok {slot slot' : Slot cfg} {isError : Bool}
    (h : slot.retireResponse isError = .ok slot') (hst : slot.state ≠ .complete) :
    slot'.num = slot.num ∧ slot'.store = slot.store ∧ slot'.numIssuedFragments = slot.numIssuedFragments ∧
      slot'.numRetiredFragments = slot.numRetiredFragments + 1 ∧
      (slot.numRetiredFragments + 1 = slot.store.fragments.length → slot'.state = .complete) ∧
      (slot'.state = .complete → slot.CompletedBy isError ∨ slot.store.isSplit = false) := by
  rw [Slot.retireResponse] at h
  split at h
  · split at h
    · cases h
      rw [Slot.retireSplit]
      split
      · rename_i hsk
        refine ⟨rfl, rfl, rfl, rfl, fun _ => rfl, fun _ => .inl (.inr ?_)⟩
        simpa [Slot.hasPacketsInMemSystem] using hsk
      split
      · rename_i hall
        exact ⟨rfl, rfl, rfl, rfl, fun _ => rfl, fun _ => .inl (.inl hall)⟩
      · rename_i hnot
        exact ⟨rfl, rfl, rfl, rfl, fun hall => absurd hall hnot, fun hc => absurd hc hst⟩
    · cases h
  · rename_i hsp
    cases h
    exact ⟨rfl, rfl, rfl, rfl, fun _ => rfl, fun _ => .inr (by simpa using hsp)⟩

/-- What holds between the calls. -/
structure LSQ.Consistent (s : LSQ cfg) : Prop where
  sound : Sound s.slots s.inFlight s.entered
  pending : Pending s.slots
  /-- When a store is to be sent again, everything of the older ones has been sent. -/
  retry : s.state = .memoryNeedsRetry → ∀ n, s.retryRequest = some (.storeBuffer n) → n < s.entered.length ∧
      ∀ x ∈ s.slots, x.num < n → x.numIssuedFragments = x.store.fragments.length

namespace LSQ

variable {s s' : LSQ cfg} {slot : Slot cfg}

theorem slot?_eq_some {n : Nat} (h : s.slot? n = some slot) : slot ∈ s.slots ∧ slot.num = n :=
  ⟨mem_of_find?_eq_some h, by simpa using find?_some h⟩

namespace Consistent

theorem init : (Minor.init cfg).Consistent where
  sound := Sound.nil
  pending := by simp [Pending, Minor.init]
  retry := by simp [Minor.init]

theorem insert (h : s.Consistent) (store : Store cfg) : (s.insert store).Consistent where
  sound := h.sound.insert rfl rfl rfl
  pending := by
    intro x hx hba
    rcases mem_append.1 hx with hx | hx
    · exact h.pending x hx hba
    · cases mem_singleton.1 hx
      refine length_pos_of_ne_nil fun hnil => ?_
      rw [store.barrier_of_nil hnil] at hba
      cases hba
  retry := by
    intro hst n hn
    obtain ⟨hlt, hse⟩ := h.retry hst n hn
    refine ⟨?_, fun x hx hxn => ?_⟩
    · show n < (s.entered ++ [store]).length
      rw [length_append]
      exact Nat.lt_add_right _ hlt
    rcases mem_append.1 hx with hx | hx
    · exact hse x hx hxn
    · cases mem_singleton.1 hx
      exact absurd hxn (Nat.lt_asymm hlt)

/-- The counters and the state of the memory system do not matter while it is running. -/
theorem of_running (hso : Sound s.slots s.inFlight s.entered) (hpe : Pending s.slots)
    (hst : s.state = .memoryRunning) : s.Consistent :=
  ⟨hso, hpe, fun hre => by simp [hst] at hre⟩

/-- Writing back a request that has as many answers leaves the pending ones pending. -/
theorem pending_setSlot {slots : List (Slot cfg)} {slot' : Slot cfg} (h : Pending slots)
    (hsl : slot ∈ slots) (hst : slot'.store = slot.store)
    (hre : slot'.numRetiredFragments = slot.numRetiredFragments) : Pending (Minor.setSlot slots slot') := by
  intro x hx hba
  rcases mem_setSlot hx with rfl | ⟨hx, -⟩
  · rw [hst] at hba ⊢
    exact hre ▸ h slot hsl hba
  · exact h x hx hba

/-- Sending of a request in the store buffer, whose older ones have been sent.  When all of its
packets are sent, so are those of everything up to it. -/
theorem tryToSend (h : s.Consistent) (hsl : slot ∈ s.slots) {accepts sent : Bool}
    (holder : ∀ x ∈ s.slots, x.num < slot.num → x.numIssuedFragments = x.store.fragments.length)
    (hs : s.tryToSend slot accepts = .ok (sent, s')) :
    s'.Consistent ∧ s'.slots.map Slot.num = s.slots.map Slot.num ∧ (sent → ∀ x ∈ s'.slots, x.num ≤ slot.num →
        x.numIssuedFragments = x.store.fragments.length) := by
  rw [LSQ.tryToSend] at hs
  split at hs
  · cases hs
    exact ⟨h, rfl, fun hfa => by cases hfa⟩
  split at hs
  · cases hs
  rename_i f hf
  split at hs
  · split at hs
    · -- the packet is taken
      cases hs
      refine ⟨of_running (h.sound.send hsl hf holder) (pending_setSlot h.pending hsl rfl rfl)
        rfl, map_num_setSlot, fun hall x hx hle => ?_⟩
      rcases mem_setSlot hx with rfl | ⟨hx, hne⟩
      · simpa [Slot.sentAllPackets] using hall
      · exact holder x hx (Nat.lt_of_le_of_ne hle hne)
    · -- the packet is refused
      cases hs
      refine ⟨⟨h.sound.setState hsl (by simp), pending_setSlot h.pending hsl rfl rfl, ?_⟩,
        map_num_setSlot, fun hfa => by cases hfa⟩
      intro _ n hn
      cases Retry.storeBuffer.inj (Option.some.inj hn)
      refine ⟨h.sound.num_lt hsl, fun x hx hlt => ?_⟩
      rcases mem_setSlot hx with rfl | ⟨hx, -⟩
      · exact absurd hlt (Nat.lt_irrefl _)
      · exact holder x hx hlt
  · cases hs

theorem tryToSendTransfer (h : s.Consistent) (paddr : Nat) (accepts : Bool) :
    (s.tryToSendTransfer paddr accepts).Consistent := by
  rw [LSQ.tryToSendTransfer]
  split
  · exact h
  · split
    · exact of_running (h.sound.send_transfer paddr) h.pending rfl
    · exact ⟨h.sound, h.pending, fun _ n hn => by cases hn⟩

theorem countIssuedStore (h : s.Consistent) (slot : Slot cfg) : (s.countIssuedStore slot).Consistent := by
  rw [LSQ.countIssuedStore]
  split
  · exact h
  · exact ⟨h.sound, h.pending, h.retry⟩

theorem slots_countIssuedStore : (s.countIssuedStore slot).slots = s.slots := by
  rw [LSQ.countIssuedStore]
  split <;> rfl

/-- The issue loop goes through the entries in order, and everything of the entries it has gone
through has been sent. -/
theorem issueStores {accepts : Nat → Bool} {nums : List Nat} :
    ∀ {issueCount : Nat} (done : List Nat) {s : LSQ cfg}, s.Consistent → s.slots.map Slot.num = done ++ nums →
      (∀ x ∈ s.slots, x.num ∈ done → x.numIssuedFragments = x.store.fragments.length) →
      LSQ.issueStores accepts nums issueCount s = .ok s' → s'.Consistent := by
  induction nums with
  | nil =>
    intro issueCount _ s h _ _ hs
    cases hs
    exact h
  | cons num nums ih =>
    intro issueCount done s h hn hd hs
    rw [LSQ.issueStores] at hs
    split at hs
    · split at hs
      · cases hs
      rename_i slot hf
      obtain ⟨hsl, rfl⟩ := slot?_eq_some hf
      have hn' : s.slots.map Slot.num = (done ++ [slot.num]) ++ nums := by
        rw [hn, append_assoc, singleton_append]
      -- the older entries are those the loop has gone through
      have holder : ∀ x ∈ s.slots, x.num < slot.num → x.numIssuedFragments = x.store.fragments.length := by
        intro x hx hlt
        refine hd x hx ?_
        have hmem : x.num ∈ done ++ slot.num :: nums := hn ▸ mem_map_of_mem hx
        have hso := h.sound.sorted
        rw [hn, pairwise_append, pairwise_cons] at hso
        rcases mem_append.1 hmem with hmem | hmem
        · exact hmem
        · rcases mem_cons.1 hmem with heq | hmem
          · omega
          · have := hso.2.1.1 _ hmem
            omega
      split at hs
      · cases hs
        exact h
      split_ifs at hs with his
      · refine ih _ h hn' (fun x hx hmem => ?_) hs
        rcases mem_append.1 hmem with hmem | hmem
        · exact hd x hx hmem
        · cases h.sound.eq_of_num hx hsl (mem_singleton.1 hmem)
          simpa [Slot.sentAllPackets] using his.2
      · obtain ⟨⟨sent, s₁⟩, hse, hs⟩ := Fallible.bind_eq_ok.1 hs
        obtain ⟨h₁, hmap, hall⟩ := h.tryToSend hsl holder hse
        dsimp only at hs
        split_ifs at hs with hsen
        · refine ih (done ++ [slot.num]) (h₁.countIssuedStore slot) ?_ ?_ hs
          · rw [slots_countIssuedStore, hmap, hn']
          · rw [slots_countIssuedStore]
            intro x hx hmem
            refine hall hsen x hx ?_
            have hso := h.sound.sorted
            rw [hn, pairwise_append] at hso
            rcases mem_append.1 hmem with hmem | hmem
            · exact Nat.le_of_lt (hso.2.2 _ hmem _ mem_cons_self)
            · exact Nat.le_of_eq (mem_singleton.1 hmem)
        · cases hs
          exact h₁
    · cases hs
      exact h

theorem clearBarriers (h : s.Consistent) : s.clearBarriers.Consistent := by
  set p : Slot cfg → Bool := fun slot => slot.isComplete && slot.store.isBarrier with hp
  have hsub : (s.slots.dropWhile p).Sublist s.slots := dropWhile_sublist p
  have hcl : ∀ y ∈ s.slots, y ∉ s.slots.dropWhile p → y ∈ s.slots.takeWhile p := by
    intro y hy hnot
    rw [← takeWhile_append_dropWhile (p := p) (l := s.slots)] at hy
    exact (mem_append.1 hy).resolve_right hnot
  refine ⟨h.sound.leave hsub ?_ ?_, fun x hx => h.pending x (hsub.mem hx), fun hst n hn => ?_⟩
  · intro y hy hnot
    have hpy := all_eq_true.1 all_takeWhile y (hcl y hy hnot)
    refine h.sound.complete y hy ?_
    simp only [hp, Slot.isComplete, Bool.and_eq_true, decide_eq_true_eq] at hpy
    exact hpy.1
  · -- what is cleared is older than what stays
    intro y hy hnot x hx hlt
    have hso := h.sound.sorted
    rw [← takeWhile_append_dropWhile (p := p) (l := s.slots), map_append, pairwise_append] at hso
    have := hso.2.2 _ (mem_map_of_mem (hcl y hy hnot)) _ (mem_map_of_mem hx)
    omega
  · obtain ⟨hlt, hse⟩ := h.retry hst n hn
    exact ⟨hlt, fun x hx => hse x (hsub.mem hx)⟩

theorem step (h : s.Consistent) {accepts : Nat → Bool} (hs : s.step accepts = .ok s') : s'.Consistent := by
  rw [LSQ.step] at hs
  split at hs
  · exact issueStores [] h.clearBarriers rfl (by simp) hs
  · cases hs
    exact h

section

variable {l₁ l₂ : List Packet} {p : Packet} {k : Nat} {slot' : Slot cfg} {isError : Bool} (h : s.Consistent)
include h

/-- A request with a packet in flight has been sent more packets than were answered. -/
theorem retired_lt (hf : s.inFlight = l₁ ++ p :: l₂) (hsl : slot ∈ s.slots)
    (hse : p.sender = .storeBuffer slot.num k) : slot.numRetiredFragments < slot.numIssuedFragments := by
  have hco := h.sound.counted slot hsl
  rw [hf, countP_append, countP_cons_of_pos (by simp [Packet.isOf, hse])] at hco
  omega

variable (hsl : slot ∈ s.slots) (hst : slot.state ≠ .complete) (hre : slot.retireResponse isError = .ok slot')
include hsl hst hre

theorem completedBy (hco : slot'.state = .complete) (hba : slot.store.isBarrier = false) : slot.CompletedBy isError := by
  obtain ⟨-, -, -, -, -, hby⟩ := Slot.retireResponse_eq_ok hre hst
  rcases hby hco with hby | hsi
  · exact hby
  · have hpe := h.pending slot hsl hba
    have hlen : ¬ 1 < slot.store.fragments.length := by simpa [Request.isSplit] using hsi
    exact .inl (by omega)

/-- A request that stays has an answer to come, unless it is a barrier. -/
theorem pending_retire (hsta : ¬ (slot'.isComplete && !slot.store.isBarrier)) :
    Pending (Minor.setSlot s.slots slot') := by
  obtain ⟨-, hsto, -, hret, hall, -⟩ := Slot.retireResponse_eq_ok hre hst
  intro x hx hba
  rcases mem_setSlot hx with rfl | ⟨hx, -⟩
  · rw [hsto] at hba ⊢
    have hpe := h.pending slot hsl hba
    have hnot : slot.numRetiredFragments + 1 ≠ slot.store.fragments.length :=
      fun hla => hsta (by simp [Slot.isComplete, hall hla, hba])
    omega
  · exact h.pending x hx hba

variable (hfl : s.inFlight = l₁ ++ p :: l₂) (htu : ∀ q ∈ l₁, cfg.line q.paddr ≠ cfg.line p.paddr)
  (hse : p.sender = .storeBuffer slot.num k)
include hfl htu hse

/-- The entries and packets after an answer, before a completed request is removed. -/
theorem retire : Sound (Minor.setSlot s.slots slot') (l₁ ++ l₂) s.entered := by
  obtain ⟨hnum, hsto, his, hret, -, hby⟩ := Slot.retireResponse_eq_ok hre hst
  refine h.sound.answer h.pending hfl htu hsl hse hnum hsto his hret ?_
  intro hco
  have hlt := h.retired_lt hfl hsl hse
  have hle := h.sound.issued_le slot hsl
  rcases hby hco with (hla | ⟨-, hea⟩) | hsi
  · omega
  · omega
  · have hlen : ¬ 1 < slot.store.fragments.length := by simpa [Request.isSplit] using hsi
    omega

/-- A store that is completed without overtaking one shares no byte with an older one of its thread
in the buffer. -/
theorem disjoint_of_completed {x : Slot cfg} (hx : x ∈ s.slots) (hlt : x.num < slot.num)
    (ho : (x.store.isSplit ∨ x.store.isBarrier ∨ slot.numRetiredFragments + 1 ≠ slot.store.fragments.length) →
      ∀ a ∈ x.store.addrs, a ∉ slot.store.addrs) : List.Disjoint x.store.addrs slot.store.addrs := by
  intro a hax hay
  by_cases hhow : x.store.isSplit ∨ x.store.isBarrier ∨ slot.numRetiredFragments + 1 ≠ slot.store.fragments.length
  · exact ho hhow a hax hay
  push Not at hhow
  obtain ⟨hsp, hba, hla⟩ := hhow
  obtain ⟨hnum, hsto, his, hret, -, -⟩ := Slot.retireResponse_eq_ok hre hst
  have hso := h.retire hsl hst hre hfl htu hse
  have hsel : slot' ∈ Minor.setSlot s.slots slot' := mem_setSlot_self hsl hnum.symm
  have hiss := h.retired_lt hfl hsl hse
  have hissu := h.sound.issued_le slot hsl
  -- nothing of the store is in flight any more
  have hn : (l₁ ++ l₂).countP (Packet.isOf slot'.num) = 0 := by
    have := hso.counted slot' hsel
    omega
  obtain ⟨f, hf, haf⟩ := mem_flatMap.1 hay
  obtain ⟨g, hg, hag⟩ := mem_flatMap.1 hax
  obtain ⟨j, hj, hfj⟩ := getElem_of_mem hf
  have hjf : slot'.store.fragments[j]? = some f := by
    rw [hsto, getElem?_eq_getElem hj, hfj]
  refine hso.answered slot' hsel j f (by omega) hjf (fun q hq hqs => ?_) x
    (mem_setSlot_of_ne hx (by omega)) (by omega) (by simpa using hsp) (by simpa using hba)
    g hg ?_
  · exact countP_eq_zero.1 hn q hq (by simp [Packet.isOf, hqs])
  · rw [← line_of_mem_addrs hg hag, line_of_mem_addrs hf haf]

/-- The store is completed and leaves, and it is the only one that does. -/
theorem leaves (hco : slot'.state = .complete)
    (ho : ∀ x ∈ s.slots, x.num < slot.num → x.store.threadId = slot.store.threadId →
      (x.store.isSplit ∨ x.store.isBarrier ∨ slot.numRetiredFragments + 1 ≠ slot.store.fragments.length) →
      ∀ a ∈ x.store.addrs, a ∉ slot.store.addrs) :
    Sound (s.slots.filter fun x => x.num ≠ slot.num) (l₁ ++ l₂) s.entered := by
  obtain ⟨hnum, hsto, -⟩ := Slot.retireResponse_eq_ok hre hst
  have hso := h.retire hsl hst hre hfl htu hse
  rw [← hnum, ← filter_setSlot]
  have hlea : ∀ y ∈ Minor.setSlot s.slots slot',
      y ∉ (Minor.setSlot s.slots slot').filter (fun x => x.num ≠ slot'.num) → y = slot' := by
    intro y hy hnot
    refine hso.eq_of_num hy (mem_setSlot_self hsl hnum.symm) ?_
    by_contra hne
    exact hnot (mem_filter.2 ⟨hy, decide_eq_true hne⟩)
  refine hso.leave filter_sublist (fun y hy hnot => ?_) fun y hy hnot x hx hlt => ?_
  · cases hlea y hy hnot
    exact hso.complete _ hy hco
  · cases hlea y hy hnot
    have hx' : x ∈ s.slots := by
      rcases mem_setSlot (mem_of_mem_filter hx) with rfl | ⟨hx', -⟩
      · exact absurd hlt (Nat.lt_irrefl _)
      · exact hx'
    rw [hnum] at hlt
    rw [hsto]
    exact fun hth => h.disjoint_of_completed hsl hst hre hfl htu hse hx' hlt (ho x hx' hlt hth)

end

/-- An answer, for which no store is overtaken. -/
theorem recvTimingResp (h : s.Consistent) {i : Nat} {isError : Bool} (htu : InTurn s (.recvTimingResp i isError))
    (ho : NotOvertaken s (.recvTimingResp i isError)) (hs : s.recvTimingResp i isError = .ok s') : s'.Consistent := by
  rw [LSQ.recvTimingResp] at hs
  split at hs
  · cases hs
  rename_i p hp
  obtain ⟨hi, hget⟩ := List.getElem?_eq_some_iff.1 hp
  have hf : s.inFlight = s.inFlight.take i ++ p :: s.inFlight.drop (i + 1) := by
    rw [← hget, getElem_cons_drop, take_append_drop]
  have ht' := htu p hp
  rw [eraseIdx_eq_take_drop_succ] at hs
  split at hs
  · rename_i hse
    cases hs
    exact ⟨h.sound.answer_transfer hf hse, h.pending, h.retry⟩
  rename_i num k hse
  split at hs
  · cases hs
  rename_i slot hfi
  obtain ⟨hsl, rfl⟩ := slot?_eq_some hfi
  split at hs
  · rename_i hst
    obtain ⟨slot', hre, hs⟩ := Fallible.bind_eq_ok.1 hs
    have hin : slot.state ≠ .complete := by
      rcases hst with hst | hst <;> simp [hst]
    split at hs
    · rename_i hd
      obtain ⟨hco, hba⟩ : slot'.state = .complete ∧ slot.store.isBarrier = false := by
        simpa [Slot.isComplete] using hd
      cases hs
      have hcom := h.completedBy hsl hin hre hco hba
      refine ⟨h.leaves hsl hin hre hf ht' hse hco (ho p hp slot hsl (by simp [Packet.isOf, hse]) hcom),
        fun x hx => h.pending x (mem_of_mem_filter hx), fun hret n hn => ?_⟩
      obtain ⟨hlt, hsen⟩ := h.retry hret n hn
      exact ⟨hlt, fun x hx => hsen x (mem_of_mem_filter hx)⟩
    · rename_i hsta
      cases hs
      refine ⟨h.retire hsl hin hre hf ht' hse, h.pending_retire hsl hin hre hsta, fun hret n hn => ?_⟩
      obtain ⟨hlt, hsen⟩ := h.retry hret n hn
      refine ⟨hlt, fun x hx hxn => ?_⟩
      obtain ⟨hnum, hsto, his, -⟩ := Slot.retireResponse_eq_ok hre hin
      rcases mem_setSlot hx with rfl | ⟨hx, -⟩
      · rw [his, hsto]
        exact hsen slot hsl (hnum ▸ hxn)
      · exact hsen x hx hxn
  · cases hs

theorem recvReqRetry (h : s.Consistent) {accepts : Bool} (hs : s.recvReqRetry accepts = .ok s') : s'.Consistent := by
  rw [LSQ.recvReqRetry] at hs
  split at hs
  · rename_i hst
    have hru : ({ s with state := .memoryRunning } : LSQ cfg).Consistent := of_running h.sound h.pending rfl
    dsimp only at hs
    split at hs
    · cases hs
    · cases hs
      exact hru.tryToSendTransfer _ _
    · rename_i num hre
      split at hs
      · cases hs
      rename_i slot hf
      obtain ⟨hsl, rfl⟩ := slot?_eq_some hf
      split at hs
      · obtain ⟨⟨sent, s₁⟩, hse, hs⟩ := Fallible.bind_eq_ok.1 hs
        have hrea : (({ s with state := .memoryRunning } : LSQ cfg).setSlot
            { slot with state := .storeInStoreBuffer }).Consistent :=
          of_running (h.sound.setState hsl (by simp)) (pending_setSlot h.pending hsl rfl rfl) rfl
        obtain ⟨h₁, -, -⟩ := hrea.tryToSend (mem_setSlot_self hsl rfl) (fun x hx hlt => by
          rcases mem_setSlot hx with rfl | ⟨hx, -⟩
          · exact absurd hlt (Nat.lt_irrefl _)
          · exact (h.retry hst slot.num hre).2 x hx hlt) hse
        dsimp only at hs
        split at hs
        · cases hs
          have hco := h₁.countIssuedStore { slot with state := .storeInStoreBuffer }
          exact ⟨hco.sound, hco.pending, fun _ n hn => by cases hn⟩
        · cases hs
          exact h₁
      · cases hs
  · cases hs

/-- Every operation for which no store is overtaken. -/
theorem exec (h : s.Consistent) {op : Op cfg} (htu : InTurn s op) (ho : NotOvertaken s op)
    (hs : Minor.exec s op = .ok s') : s'.Consistent := by
  cases op with
  | insert store =>
    cases hs
    exact h.insert store
  | step accepts => exact h.step hs
  | send paddr accepts =>
    cases hs
    exact h.tryToSendTransfer paddr accepts
  | recvTimingResp i isError => exact h.recvTimingResp htu ho hs
  | recvReqRetry accepts => exact h.recvReqRetry hs

end Consistent
end LSQ

/-- The load/store queue is consistent in every run in which no store is overtaken. -/
theorem consistent_of_reaches {s : LSQ cfg}
    (h : Fallible.Reaches exec (fun s op => InTurn s op ∧ NotOvertaken s op) (init cfg) s) : s.Consistent :=
  h.invariant .init fun _ hs hok => hs.exec hok.1 hok.2

end GuardianCouncil.Minor
