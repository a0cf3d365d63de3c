import GuardianCouncil.Minor.Overtake

/-!
# Loads and the stores of the store buffer

A load is to see the stores before it (`load_sees_newest`).  Besides a store that has been overtaken, two
things can go wrong.

* An access is taken to be a range of its size at the address of its first fragment.  The fragments
  of an access that crosses a page can be anywhere.
* The ranges are compared by ends that are excluded, and only count as apart when one begins after
  the end of the other.  So a store next to the load stops it like one that overlaps it.

All three occur (`newest_missed`).
-/

namespace GuardianCouncil.Minor

open List Fallible

variable {cfg : Config}

/-! ## Bytes and ranges -/

namespace Request

variable (request load : Request cfg)

/-- The bytes of the access are where the range of its size at its address has them. -/
def Contiguous : Prop := request.addrs = List.range' request.paddr request.size
deriving Decidable

/-- The accesses have a byte in common. -/
def Overlaps : Prop := ∃ a ∈ request.addrs, a ∈ load.addrs
deriving Decidable

/-- The access has all bytes of the other. -/
def Covers : Prop := ∀ a ∈ load.addrs, a ∈ request.addrs
deriving Decidable

/-- One access ends where the other begins. -/
def Adjacent : Prop :=
  request.paddr = load.paddr + load.size ∨ request.paddr + request.size = load.paddr
deriving Decidable

variable {request load}

theorem Contiguous.mem_addrs (h : request.Contiguous) {a : Nat} :
    a ∈ request.addrs ↔ request.paddr ≤ a ∧ a < request.paddr + request.size := by
  rw [h, mem_range'_1]

theorem Overlaps.fragments_ne_nil (h : request.Overlaps load) : request.fragments ≠ [] := by
  obtain ⟨a, ha, -⟩ := h
  intro hnil
  simp [addrs, hnil] at ha

theorem pos_size (h : request.fragments ≠ []) : 0 < request.size := by
  obtain ⟨f, fs, hfs⟩ := exists_cons_of_ne_nil h
  have hf := request.size_pos f (by simp [hfs])
  rw [size, hfs, map_cons, sum_cons]
  omega

section

variable (hr : request.Contiguous) (hl : load.Contiguous)
include hr hl

/-- Ranges that the comparison takes to be apart have no byte in common. -/
theorem not_overlaps_of_noCoverage (h : request.containsAddrRangeOf load = .noCoverage) : ¬ request.Overlaps load := by
  rintro ⟨a, har, hal⟩
  rw [hr.mem_addrs] at har
  rw [hl.mem_addrs] at hal
  rw [containsAddrRangeOf, containsAddrRange] at h
  split at h
  · omega
  · split at h <;> cases h

/-- Ranges that it does not take to be apart overlap or are adjacent. -/
theorem overlaps_or_adjacent
    (hrp : 0 < request.size) (hlp : 0 < load.size) (h : request.containsAddrRangeOf load ≠ .noCoverage) :
    request.Overlaps load ∨ request.Adjacent load := by
  by_cases hadj : request.Adjacent load
  · exact .inr hadj
  rw [Adjacent] at hadj
  rw [containsAddrRangeOf, containsAddrRange] at h
  split at h
  · exact absurd rfl h
  · refine .inl ⟨max request.paddr load.paddr, hr.mem_addrs.2 ?_, hl.mem_addrs.2 ?_⟩ <;> omega

theorem fullCoverage_iff (hlp : 0 < load.size) :
    request.containsAddrRangeOf load = .fullCoverage ↔ request.Covers load := by
  rw [containsAddrRangeOf, containsAddrRange]
  refine ⟨fun h a ha => ?_, fun h => ?_⟩
  · rw [hl.mem_addrs] at ha
    rw [hr.mem_addrs]
    split at h
    · cases h
    · split at h
      · omega
      · cases h
  · have hf := hr.mem_addrs.1 (h load.paddr (hl.mem_addrs.2 (by omega)))
    have hla := hr.mem_addrs.1 (h (load.paddr + load.size - 1) (hl.mem_addrs.2 (by omega)))
    rw [if_neg (by omega), if_pos (by omega)]

end

end Request

/-! ## The search through the entries -/

section

variable {load : Load cfg} {slots : List (Slot cfg)} {slot : Slot cfg} {coverage : AddrRangeCoverage}

/-- The search passes over an entry: it writes nothing, is of another thread, or is taken to be apart
from the load. -/
def Slot.PassedOver (load : Load cfg) (slot : Slot cfg) : Prop :=
  slot.store.fragments ≠ [] → slot.store.threadId = load.threadId →
    slot.store.containsAddrRangeOf load.toRequest = .noCoverage

theorem passedOver_of_forwardingSlot_eq_none (h : forwardingSlot load slots = none) :
    ∀ x ∈ slots, x.PassedOver load := by
  induction slots with
  | nil => simp
  | cons y slots ih =>
    rw [forwardingSlot] at h
    split_ifs at h with hnot
    · split at h
      · rename_i hno
        exact forall_mem_cons.2 ⟨fun _ _ => hno, ih h⟩
      · cases h
    · exact forall_mem_cons.2 ⟨fun hne hth => absurd ⟨hne, hth⟩ hnot, ih h⟩

/-- The search ends at the first entry it does not pass over. -/
theorem forwardingSlot_eq_some (h : forwardingSlot load slots = some (slot, coverage)) :
    ∃ l₁ l₂, slots = l₁ ++ slot :: l₂ ∧ (∀ x ∈ l₁, x.PassedOver load) ∧
      slot.store.fragments ≠ [] ∧ slot.store.threadId = load.threadId ∧
      slot.store.containsAddrRangeOf load.toRequest = coverage ∧ coverage ≠ .noCoverage := by
  induction slots with
  | nil => cases h
  | cons y slots ih =>
    rw [forwardingSlot] at h
    split at h
    · rename_i hre
      split at h
      · rename_i hno
        obtain ⟨l₁, l₂, rfl, hpa, hres⟩ := ih h
        exact ⟨y :: l₁, l₂, rfl, forall_mem_cons.2 ⟨fun _ _ => hno, hpa⟩, hres⟩
      · rename_i hne
        obtain ⟨rfl, rfl⟩ := Prod.mk.inj (Option.some.inj h)
        exact ⟨[], slots, rfl, by simp, hre.1, hre.2, rfl, hne⟩
    · rename_i hnot
      obtain ⟨l₁, l₂, rfl, hpa, hres⟩ := ih h
      exact ⟨y :: l₁, l₂, rfl, forall_mem_cons.2 ⟨fun hne hth => absurd ⟨hne, hth⟩ hnot, hpa⟩, hres⟩

end

/-! ## The newest data -/

/-- The byte that the youngest store of a thread wrote to an address, of those that have entered the
store buffer. -/
def LSQ.newest (s : LSQ cfg) (threadId a : Nat) : Option UInt8 :=
  (s.entered.filter fun store => store.threadId = threadId).reverse.findSome? fun store =>
    store.written a

/-- The youngest store in the buffer that overlaps a load. -/
def LSQ.IsYoungest (s : LSQ cfg) (load : Load cfg) (x : Slot cfg) : Prop :=
  x ∈ s.slots ∧ x.store.threadId = load.threadId ∧ x.store.Overlaps load.toRequest ∧
    ∀ y ∈ s.slots, y.store.threadId = load.threadId → y.store.Overlaps load.toRequest → y.num ≤ x.num

/-- The ranges tell which stores in the buffer overlap a load: the load and the stores of its thread
are contiguous, and a store next to the load has a younger one that overlaps it. -/
structure LSQ.Discernible (s : LSQ cfg) (load : Load cfg) : Prop where
  contiguous : load.Contiguous
  stores : ∀ x ∈ s.slots, x.store.threadId = load.threadId → x.store.Contiguous
  adjacent : ∀ x ∈ s.slots, x.store.threadId = load.threadId → x.store.fragments ≠ [] →
    x.store.Adjacent load.toRequest → ∃ y ∈ s.slots, y.store.threadId = load.threadId ∧
      x.num < y.num ∧ y.store.Overlaps load.toRequest

section

variable {store : Store cfg} {a : Nat}

theorem lookup_zip_range' {β : Type*} {data : List β} : ∀ {p : Nat}, p ≤ a →
    ((List.range' p data.length).zip data).lookup a = data[a - p]? := by
  induction data with
  | nil => simp
  | cons b data ih =>
    intro p hp
    rw [length_cons, range'_succ, zip_cons_cons, lookup_cons]
    rcases Nat.eq_or_lt_of_le hp with rfl | hlt
    · simp
    · have hne : (a == p) = false := by simpa using Nat.ne_of_gt hlt
      rw [hne, show a - p = a - (p + 1) + 1 by omega, getElem?_cons_succ]
      exact ih hlt

theorem written_of_contiguous (h : store.Contiguous) (ha : store.paddr ≤ a) :
    store.written a = store.data[a - store.paddr]? := by
  rw [Store.written, show store.addrs = _ from h, ← store.data_length]
  exact lookup_zip_range' ha

theorem written_of_not_mem (h : a ∉ store.addrs) : store.written a = none := by
  rw [Store.written, lookup_eq_none_iff]
  rintro ⟨a', b⟩ hmem
  have ha' := (of_mem_zip hmem).1
  rw [bne_iff_ne]
  rintro rfl
  exact h ha'

/-- What a store wrote to an address is the newest data there when nothing younger of its thread
writes it. -/
theorem newest_eq_written {s : LSQ cfg} {n : Nat} {b : UInt8} (hn : s.entered[n]? = some store)
    (hb : store.written a = some b)
    (hy : ∀ m store', s.entered[m]? = some store' → n < m → store'.threadId = store.threadId → a ∉ store'.addrs) :
    s.newest store.threadId a = some b := by
  obtain ⟨hlt, hget⟩ := List.getElem?_eq_some_iff.1 hn
  have hsp : s.entered = s.entered.take n ++ store :: s.entered.drop (n + 1) := by
    rw [← hget, getElem_cons_drop, take_append_drop]
  have hno : ((s.entered.drop (n + 1)).filter fun store' =>
      store'.threadId = store.threadId).reverse.findSome? (fun store' => store'.written a) = none := by
    rw [findSome?_eq_none_iff]
    intro store' hmem
    obtain ⟨hmem, hth⟩ := mem_filter.1 (mem_reverse.1 hmem)
    obtain ⟨k, hk⟩ := mem_iff_getElem?.1 hmem
    rw [getElem?_drop] at hk
    exact written_of_not_mem (hy _ store' hk (by omega) (by simpa using hth))
  rw [LSQ.newest, hsp, filter_append, filter_cons_of_pos (by simp), reverse_append,
    reverse_cons, append_assoc, findSome?_append, hno, Option.none_or,
    singleton_append, findSome?_cons, hb]

end

namespace LSQ

variable {s : LSQ cfg} {load : Load cfg} {slot x : Slot cfg} {coverage : AddrRangeCoverage}

section

variable (h : s.Discernible load)
include h

/-- An entry that the search passes over does not overlap the load. -/
theorem Discernible.not_overlaps (hx : x ∈ s.slots)
    (hth : x.store.threadId = load.threadId) (hpa : x.PassedOver load) : ¬ x.store.Overlaps load.toRequest := fun ho =>
  Request.not_overlaps_of_noCoverage (h.stores x hx hth) h.contiguous
    (hpa ho.fragments_ne_nil hth) ho

/-- The search finds the youngest store that overlaps the load. -/
theorem Discernible.isYoungest (hso : (s.slots.map Slot.num).Pairwise (· < ·))
    (hf : s.canForwardDataToLoad load = some (slot, coverage)) :
    s.IsYoungest load slot ∧ (coverage = .fullCoverage ↔ slot.store.Covers load.toRequest) := by
  obtain ⟨l₁, l₂, hsl, hpa, hne, hth, rfl, hcov⟩ := forwardingSlot_eq_some hf
  have hslo : slot ∈ s.slots := by
    rw [← mem_reverse, hsl]
    exact mem_append_right _ mem_cons_self
  -- the search has passed over the younger entries
  have hyou : ∀ y ∈ s.slots, slot.num < y.num → y.PassedOver load := by
    intro y hy hlt
    have hs' : (s.slots.reverse.map Slot.num).Pairwise (· > ·) := by
      rw [map_reverse, pairwise_reverse]
      exact hso
    rw [hsl, map_append, map_cons, pairwise_append, pairwise_cons] at hs'
    rw [← mem_reverse, hsl] at hy
    rcases mem_append.1 hy with hy | hy
    · exact hpa y hy
    · rcases mem_cons.1 hy with rfl | hy
      · exact absurd hlt (Nat.lt_irrefl _)
      · have := hs'.2.1.1 _ (mem_map_of_mem hy)
        omega
  have hlp := Request.pos_size load.nonempty
  have hco := h.stores slot hslo hth
  have ho : slot.store.Overlaps load.toRequest := by
    rcases Request.overlaps_or_adjacent hco h.contiguous (Request.pos_size hne) hlp hcov with
      ho | ha
    · exact ho
    · obtain ⟨y, hy, hyt, hlt, hyo⟩ := h.adjacent slot hslo hth hne ha
      exact absurd hyo (h.not_overlaps hy hyt (hyou y hy hlt))
  refine ⟨⟨hslo, hth, ho, fun y hy hyt hyo => ?_⟩, Request.fullCoverage_iff hco h.contiguous hlp⟩
  by_contra hlt
  exact h.not_overlaps hy hyt (hyou y hy (by omega)) hyo

/-- When the search finds nothing, nothing in the buffer overlaps the load. -/
theorem Discernible.not_overlaps_of_eq_none (hn : s.canForwardDataToLoad load = none) (hx : x ∈ s.slots)
    (hth : x.store.threadId = load.threadId) : ¬ x.store.Overlaps load.toRequest :=
  h.not_overlaps hx hth
    (passedOver_of_forwardingSlot_eq_none hn x (mem_reverse.2 hx))

/-- Forwarded data are the newest. -/
theorem Discernible.newest_of_isYoungest (hs : s.Consistent)
    (hyo : s.IsYoungest load slot) (hco : slot.store.Covers load.toRequest) :
    (forwardStoreData slot.store load).length = load.size ∧
      ∀ (i a : Nat), load.addrs[i]? = some a → ∃ b, (forwardStoreData slot.store load)[i]? = some b ∧
        s.newest load.threadId a = some b := by
  obtain ⟨hsl, hth, -, hmax⟩ := hyo
  have hcon := h.stores slot hsl hth
  have hlp := Request.pos_size load.nonempty
  have hf := hcon.mem_addrs.1 (hco load.paddr (h.contiguous.mem_addrs.2 (by omega)))
  have hla := hcon.mem_addrs.1 (hco (load.paddr + load.size - 1) (h.contiguous.mem_addrs.2 (by omega)))
  have hleng := slot.store.data_length
  refine ⟨?_, fun i a ha => ?_⟩
  · rw [forwardStoreData, length_take, length_drop, hleng]
    omega
  · have ha' : a ∈ slot.store.addrs := hco a (mem_of_getElem? ha)
    rw [show load.addrs = _ from h.contiguous] at ha
    obtain ⟨hi, rfl⟩ := List.getElem?_eq_some_iff.1 ha
    rw [List.length_range'] at hi
    rw [getElem_range', one_mul] at ha' ⊢
    have hlt : load.paddr + i - slot.store.paddr < slot.store.data.length := by omega
    refine ⟨slot.store.data[load.paddr + i - slot.store.paddr], ?_, ?_⟩
    · rw [forwardStoreData, getElem?_take_of_lt hi, getElem?_drop,
        show load.paddr - slot.store.paddr + i = load.paddr + i - slot.store.paddr by omega,
        getElem?_eq_getElem hlt]
    · rw [← hth]
      refine newest_eq_written (hs.sound.recorded slot hsl) ?_ fun m store hm hnum hmt => ?_
      · rw [written_of_contiguous hcon (by omega), getElem?_eq_getElem hlt]
      · -- a younger store is in the buffer and does not overlap, or has left without overtaking
        by_cases hthe : m ∈ s.slots.map Slot.num
        · obtain ⟨y, hy, rfl⟩ := mem_map.1 hthe
          cases Option.some.inj ((hs.sound.recorded y hy).symm.trans hm)
          intro hmem
          have hle := hmax y hy (hmt.trans hth) ⟨_, hmem, h.contiguous.mem_addrs.2 (by omega)⟩
          omega
        · exact hs.sound.left m store hm hthe slot hsl hnum hmt.symm ha'

end

/-! ## The verdict on a load -/

/-- Nothing but the store buffer can stop the load. -/
def Tries (s : LSQ cfg) (attempt : Attempt) : Prop :=
  s.state = .memoryRunning ∧ attempt.isFront ∧ attempt.transfersFull = false ∧ attempt.isOver = false ∧
    attempt.isRightStream ∧ attempt.fault = false ∧ attempt.numStoresInTransfers = 0
deriving Decidable

section

variable {attempt : Attempt} {data : List UInt8}

theorem tryToSendToTransfers_of_tries (h : s.Tries attempt) : s.tryToSendToTransfers attempt load =
    if load.bufferable then s.accessLoad load else if !attempt.isHeadInst then .waits
    else if (s.canForwardDataToLoad load).isSome then .drains else s.accessLoad load := by
  obtain ⟨hst, hf, hfull, hov, hstr, hfa, hsto⟩ := h
  simp [tryToSendToTransfers, hst, hf, hfull, hov, hstr, hfa, hsto]

/-- A load that gets past the first checks is tried. -/
theorem tries_of_ne (load : Load cfg) (hwa : s.tryToSendToTransfers attempt load ≠ .waits)
    (hsk : s.tryToSendToTransfers attempt load ≠ .skips) : s.Tries attempt := by
  rw [tryToSendToTransfers] at hwa hsk
  by_cases hst : s.state = .memoryNeedsRetry
  · exact absurd (if_pos hst) hwa
  by_cases hf : attempt.isFront
  swap
  · exact absurd (by simp [hf]) hwa
  by_cases hfull : attempt.transfersFull
  · exact absurd (by simp [hfull]) hwa
  by_cases hov : attempt.isOver
  · exact absurd (by simp [hst, hf, hfull, hov]) hsk
  by_cases hstr : attempt.isRightStream
  swap
  · by_cases hpa : attempt.hasPacketsInMemSystem
    · exact absurd (by simp [hov, hstr, hpa]) hwa
    · exact absurd (by simp [hst, hf, hfull, hov, hstr, hpa]) hsk
  by_cases hfa : attempt.fault
  · exact absurd (by simp [hst, hf, hfull, hov, hstr, hfa]) hsk
  by_cases hsto : attempt.numStoresInTransfers = 0
  swap
  · exact absurd (by simp [hst, hf, hfull, hov, hstr, hfa, hsto]) hwa
  refine ⟨?_, hf, by simpa using hfull, by simpa using hov, hstr, by simpa using hfa, hsto⟩
  cases hs : s.state with
  | memoryRunning => rfl
  | memoryNeedsRetry => exact absurd hs hst

theorem accessLoad_eq_forwards (h : s.accessLoad load = .forwards data) :
    ∃ slot, s.canForwardDataToLoad load = some (slot, .fullCoverage) ∧ data = forwardStoreData slot.store load := by
  rw [accessLoad] at h
  split at h
  · split at h <;> cases h
  split at h
  · split at h <;> cases h
  · rename_i slot hf
    cases Verdict.forwards.inj h
    exact ⟨slot, hf, rfl⟩
  · cases h

theorem canForward_of_accessLoad (hll : load.isLLSC = false)
    (h : s.accessLoad load = .goesToMemory) : s.canForwardDataToLoad load = none := by
  rw [accessLoad, if_neg (by simp [hll])] at h
  split at h
  · assumption
  · cases h
  · cases h

theorem accessLoad_eq_stalls (hll : load.isLLSC = false) : s.accessLoad load = .stalls ↔
    ∃ slot coverage, s.canForwardDataToLoad load = some (slot, coverage) ∧ coverage ≠ .fullCoverage := by
  rw [accessLoad, if_neg (by simp [hll])]
  split
  · rename_i hn
    refine ⟨fun h => ?_, fun h => ?_⟩
    · split at h <;> cases h
    · obtain ⟨slot, coverage, hso, -⟩ := h
      rw [hn] at hso
      cases hso
  · rename_i slot hso
    refine ⟨fun h => (by cases h), fun h => ?_⟩
    obtain ⟨slot', coverage, hs', hne⟩ := h
    obtain ⟨-, rfl⟩ := Prod.mk.inj (Option.some.inj (hso.symm.trans hs'))
    exact absurd rfl hne
  · rename_i found hnot hso
    exact ⟨fun _ => ⟨found.1, found.2, hso, fun hfull => hnot found.1 (by rw [← hfull])⟩, fun _ => rfl⟩

/-- A load only goes to memory when the search has found nothing. -/
theorem canForward_of_goesToMemory (h : s.tryToSendToTransfers attempt load = .goesToMemory) :
    s.canForwardDataToLoad load = none := by
  have htr : s.Tries attempt := tries_of_ne load (by simp [h]) (by simp [h])
  rw [tryToSendToTransfers_of_tries htr] at h
  split at h
  · rename_i hbu
    exact canForward_of_accessLoad (by simp_all [Load.bufferable]) h
  split at h
  · cases h
  · split at h
    · cases h
    · rename_i hn
      simpa using hn

/-- Forwarded data are those of the store that the search has found. -/
theorem exists_of_forwards (h : s.tryToSendToTransfers attempt load = .forwards data) :
    ∃ slot, s.canForwardDataToLoad load = some (slot, .fullCoverage) ∧ data = forwardStoreData slot.store load := by
  have htr : s.Tries attempt := tries_of_ne load (by simp [h]) (by simp [h])
  rw [tryToSendToTransfers_of_tries htr] at h
  split at h
  · exact accessLoad_eq_forwards h
  split at h
  · cases h
  · split at h
    · cases h
    · exact accessLoad_eq_forwards h

end

end LSQ

/-- A load that may not be given forwarded data waits for every store that overlaps it. -/
theorem load_drains {s : LSQ cfg} {load : Load cfg} {attempt : Attempt} (hs : s.Consistent)
    (hlo : s.Discernible load) (htr : s.Tries attempt) (hh : attempt.isHeadInst)
    (hbu : load.bufferable = false) : s.tryToSendToTransfers attempt load = .drains ↔ ∃ x ∈ s.slots,
      x.store.threadId = load.threadId ∧ x.store.Overlaps load.toRequest := by
  rw [LSQ.tryToSendToTransfers_of_tries htr, if_neg (by simp [hbu]), if_neg (by simp [hh])]
  cases hf : s.canForwardDataToLoad load with
  | none =>
    refine ⟨fun h => ?_, ?_⟩
    · rw [if_neg (by simp), LSQ.accessLoad, hf] at h
      dsimp only at h
      split at h <;> split at h <;> cases h
    · rintro ⟨x, hx, hth, ho⟩
      exact absurd ho (hlo.not_overlaps_of_eq_none hf hx hth)
  | some found =>
    obtain ⟨⟨hsl, hth, ho, -⟩, -⟩ := hlo.isYoungest hs.sound.sorted hf
    exact ⟨fun _ => ⟨_, hsl, hth, ho⟩, fun _ => if_pos rfl⟩

/-- **Loads see the newest stores.**  In a run in which no store is overtaken, and for a load whose
range tells which stores in the buffer overlap it: data that are forwarded are the newest, the load
stalls exactly when the youngest store that overlaps it does not cover it, and it only goes to memory
when no store in the buffer overlaps it. -/
theorem load_sees_newest {s : LSQ cfg} (hrun : Reaches exec (fun s op => InTurn s op ∧ NotOvertaken s op) (init cfg) s)
    (load : Load cfg) (hload : s.Discernible load) (attempt : Attempt) :
    (∀ data, s.tryToSendToTransfers attempt load = .forwards data →
      data.length = load.size ∧ ∀ (i a : Nat), load.addrs[i]? = some a →
        ∃ b, data[i]? = some b ∧ s.newest load.threadId a = some b) ∧
    (s.Tries attempt → load.bufferable → (s.tryToSendToTransfers attempt load = .stalls ↔
        ∃ x, s.IsYoungest load x ∧ ¬ x.store.Covers load.toRequest)) ∧
    (s.tryToSendToTransfers attempt load = .goesToMemory → ∀ x ∈ s.slots,
      x.store.threadId = load.threadId → ¬ x.store.Overlaps load.toRequest) := by
  have hs := consistent_of_reaches hrun
  refine ⟨fun data hd => ?_, fun htr hbu => ?_, fun hm x hx hth => ?_⟩
  · obtain ⟨slot, hf, rfl⟩ := LSQ.exists_of_forwards hd
    obtain ⟨hy, hco⟩ := hload.isYoungest hs.sound.sorted hf
    exact hload.newest_of_isYoungest hs hy (hco.1 rfl)
  · rw [LSQ.tryToSendToTransfers_of_tries htr, if_pos hbu, LSQ.accessLoad_eq_stalls (by simp_all [Load.bufferable])]
    constructor
    · rintro ⟨slot, coverage, hf, hne⟩
      obtain ⟨hy, hco⟩ := hload.isYoungest hs.sound.sorted hf
      exact ⟨slot, hy, fun h => hne (hco.2 h)⟩
    · rintro ⟨x, hx, hnot⟩
      cases hf : s.canForwardDataToLoad load with
      | none => exact absurd hx.2.2.1 (hload.not_overlaps_of_eq_none hf hx.1 hx.2.1)
      | some found =>
        obtain ⟨slot, coverage⟩ := found
        obtain ⟨hy, hco⟩ := hload.isYoungest hs.sound.sorted hf
        -- the youngest one is the one found
        have hnum : slot.num = x.num := Nat.le_antisymm (hx.2.2.2 slot hy.1 hy.2.1 hy.2.2.1)
          (hy.2.2.2 x hx.1 hx.2.1 hx.2.2.1)
        obtain rfl := hs.sound.eq_of_num hy.1 hx.1 hnum
        exact ⟨slot, coverage, rfl, fun hfull => hnot (hco.1 hfull)⟩
  · exact hload.not_overlaps_of_eq_none (LSQ.canForward_of_goesToMemory hm) hx hth

/-- The parameters of `MinorCPU`, with lines of 64 bytes. -/
def minorCPU : Config where
  lineWidth := 64
  inMemorySystemLimit := 1
  numSlots := 1
  storeLimitPerCycle := 1

/-- A larger store buffer. -/
def twoSlots : Config where
  lineWidth := 64
  inMemorySystemLimit := 2
  numSlots := 2
  storeLimitPerCycle := 1

/-- A load that only the store buffer can stop. -/
def tried : Attempt where
  isFront := true
  transfersFull := false
  isOver := false
  isRightStream := true
  hasPacketsInMemSystem := false
  fault := false
  isHeadInst := false
  numStoresInTransfers := 0

/-- A strictly ordered load behind a store. -/
theorem load_drains_behind : ∃ store load,
    ((init twoSlots).insert store).tryToSendToTransfers { tried with isHeadInst := true } load = .drains :=
  ⟨{ threadId := 0, fragments := [⟨128, 4⟩], data := [1, 2, 3, 4], isBarrier := false },
    { threadId := 0, fragments := [⟨129, 2⟩], isStrictlyOrdered := true, isLLSC := false, isSwap := false },
    (load_drains (LSQ.Consistent.init.insert _) ⟨by decide, by decide, by decide⟩ (by decide) rfl rfl).2 (by decide)⟩

/-- Two stores to one line.  When the first has been answered, a load of a part of the second is
given the newest data. -/
theorem load_sees_newest_twoStores : ∃ (s : LSQ twoSlots) (load : Load twoSlots),
    s.tryToSendToTransfers tried load = .forwards [8, 9] ∧ ∀ (i a : Nat), load.addrs[i]? = some a →
        ∃ b, [8, 9][i]? = some b ∧ s.newest load.threadId a = some b := by
  let load : Load twoSlots :=
    { threadId := 0, fragments := [⟨129, 2⟩], isStrictlyOrdered := false, isLLSC := false, isSwap := false }
  let first : Store twoSlots :=
    { threadId := 0, fragments := [⟨128, 4⟩], data := [1, 2, 3, 4], isBarrier := false }
  let second : Store twoSlots :=
    { threadId := 0, fragments := [⟨128, 4⟩], data := [7, 8, 9, 10], isBarrier := false }
  obtain ⟨s, hrun, hv, hco, hst, ha⟩ := exists_reaches exec
    (fun s op => InTurn s op ∧ NotOvertaken s op) (init twoSlots)
    [.insert first, .insert second, .step fun _ => true, .step fun _ => true, .recvTimingResp 0 false]
    (fun s => s.tryToSendToTransfers tried load = .forwards [8, 9] ∧ load.Contiguous ∧
      (∀ x ∈ s.slots, x.store.Contiguous) ∧
      ∀ x ∈ s.slots, ¬ x.store.Adjacent load.toRequest) (by decide +kernel)
  have hlo : s.Discernible load := ⟨hco, fun x hx _ => hst x hx, fun x hx _ _ hadj => absurd hadj (ha x hx)⟩
  exact ⟨s, load, hv, ((load_sees_newest hrun load hlo tried).1 _ hv).2⟩

/-- **Where the newest stores are missed.**  A load behind a store that crosses a page is given bytes
of the next page; a load next to a store stalls; and a load is given the bytes of an older store,
since the younger one has left the buffer first. -/
theorem newest_missed : (∃ s, Reaches exec InTurn (init minorCPU) s ∧ ∃ load : Load minorCPU,
      s.tryToSendToTransfers tried load = .forwards [5, 6, 7, 8] ∧
        load.addrs[0]? = some 0x6000 ∧ s.newest load.threadId 0x6000 = none) ∧
    (∃ s, Reaches exec InTurn (init minorCPU) s ∧ ∃ load : Load minorCPU,
      s.tryToSendToTransfers tried load = .stalls ∧ ∀ x ∈ s.slots, ¬ x.store.Overlaps load.toRequest) ∧
    (∃ s, Reaches exec InTurn (init twoSlots) s ∧ ∃ load : Load twoSlots,
      s.tryToSendToTransfers tried load = .forwards [1, 1, 1, 1] ∧
        load.addrs[0]? = some 60 ∧ s.newest load.threadId 60 = some 2) := by
  refine ⟨?_, ?_, ?_⟩
  · let store : Store minorCPU :=
      { threadId := 0, fragments := [⟨0x5ffc, 4⟩, ⟨0x9000, 4⟩], data := [1, 2, 3, 4, 5, 6, 7, 8], isBarrier := false }
    let load : Load minorCPU :=
      { threadId := 0, fragments := [⟨0x6000, 4⟩], isStrictlyOrdered := false, isLLSC := false, isSwap := false }
    obtain ⟨s, hrun, h⟩ := exists_reaches exec InTurn (init minorCPU) [.insert store]
      (fun s => s.tryToSendToTransfers tried load = .forwards [5, 6, 7, 8] ∧
        load.addrs[0]? = some 0x6000 ∧ s.newest load.threadId 0x6000 = none) (by decide +kernel)
    exact ⟨s, hrun, load, h⟩
  · let store : Store minorCPU :=
      { threadId := 0, fragments := [⟨256, 4⟩], data := [1, 2, 3, 4], isBarrier := false }
    let load : Load minorCPU :=
      { threadId := 0, fragments := [⟨260, 4⟩], isStrictlyOrdered := false, isLLSC := false, isSwap := false }
    obtain ⟨s, hrun, h⟩ := exists_reaches exec InTurn (init minorCPU) [.insert store]
      (fun s => s.tryToSendToTransfers tried load = .stalls ∧
        ∀ x ∈ s.slots, ¬ x.store.Overlaps load.toRequest) (by decide +kernel)
    exact ⟨s, hrun, load, h⟩
  · -- the first packet of the older store is answered, then the younger store's only one
    let older : Store twoSlots :=
      { threadId := 0, fragments := [⟨60, 4⟩, ⟨64, 4⟩], data := [1, 1, 1, 1, 1, 1, 1, 1], isBarrier := false }
    let younger : Store twoSlots :=
      { threadId := 0, fragments := [⟨60, 4⟩], data := [2, 2, 2, 2], isBarrier := false }
    let load : Load twoSlots :=
      { threadId := 0, fragments := [⟨60, 4⟩], isStrictlyOrdered := false, isLLSC := false, isSwap := false }
    obtain ⟨s, hrun, h⟩ := exists_reaches exec InTurn (init twoSlots)
      [.insert older, .insert younger, .step fun _ => true, .step fun _ => true,
        .recvTimingResp 0 false, .step fun _ => true, .recvTimingResp 1 false]
      (fun s => s.tryToSendToTransfers tried load = .forwards [1, 1, 1, 1] ∧
        load.addrs[0]? = some 60 ∧ s.newest load.threadId 60 = some 2) (by decide +kernel)
    exact ⟨s, hrun, load, h⟩

end GuardianCouncil.Minor
