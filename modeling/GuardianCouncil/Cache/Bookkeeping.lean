import GuardianCouncil.Cache.MSHRQueue

/-!
# The bookkeeping of the queue

Every entry is free or allocated, and an allocated entry is ready to be sent unless it is in service.
The queue counts what it has allocated and what is in service, and the iterators kept in the entries
point at the entries themselves (`MSHRQueue.Inv`).  Each function keeps this, whatever the ready times
are.
-/

namespace GuardianCouncil.Cache

open Fallible List Function

variable {cfg : QueueConfig}

/-! ## Entries -/

theorem MSHR.inService_promoteDeferredTargets (m : MSHR) (curTick : Nat) :
    (m.promoteDeferredTargets curTick).2.inService = m.inService := by
  rw [promoteDeferredTargets]
  split <;> rfl

/-- Only the queue takes an entry into service, or out of it. -/
theorem MSHR.inService_access {m m' : MSHR} {access : Access} (h : m.access access = .ok m') :
    m'.inService = m.inService := by
  rcases access with ⟨pkt, whenReady, order, allocOnFill⟩ | ⟨pkt, order, curTick⟩ | isForward | - | - |
    - | cmd | curTick
  · obtain ⟨-, h⟩ := check_eq_ok.1 h
    obtain ⟨-, h⟩ := check_eq_ok.1 h
    split at h <;> exact Except.ok.inj h ▸ rfl
  · obtain ⟨⟨snooped, m₁⟩, hsn, h⟩ := bind_eq_ok.1 h
    cases h
    obtain ⟨-, hsn⟩ := check_eq_ok.1 hsn
    dsimp only at hsn
    split at hsn
    · exact (Prod.mk.inj (Except.ok.inj hsn)).2 ▸ rfl
    · split at hsn
      · exact (Prod.mk.inj (Except.ok.inj hsn)).2 ▸ rfl
      · obtain ⟨-, hsn⟩ := check_eq_ok.1 hsn
        exact (Prod.mk.inj (Except.ok.inj hsn)).2 ▸ rfl
  · exact Except.ok.inj h ▸ rfl
  · obtain ⟨-, h⟩ := check_eq_ok.1 h
    exact Except.ok.inj h ▸ rfl
  · obtain ⟨-, h⟩ := check_eq_ok.1 h
    exact Except.ok.inj h ▸ rfl
  · rw [MSHR.access, promoteWritable] at h
    split at h
    · obtain ⟨-, h⟩ := check_eq_ok.1 h
      split at h
      · exact Except.ok.inj h ▸ rfl
      · obtain ⟨-, h⟩ := check_eq_ok.1 h
        obtain ⟨-, h⟩ := check_eq_ok.1 h
        exact Except.ok.inj h ▸ rfl
    · exact Except.ok.inj h ▸ rfl
  · obtain ⟨⟨extracted, m₁⟩, hex, h⟩ := bind_eq_ok.1 h
    cases h
    rw [extractServiceableTargets] at hex
    split at hex
    · split at hex
      · cases hex
      · obtain ⟨-, hex⟩ := check_eq_ok.1 hex
        obtain ⟨-, hex⟩ := check_eq_ok.1 hex
        exact (Prod.mk.inj (Except.ok.inj hex)).2 ▸ rfl
    · exact (Prod.mk.inj (Except.ok.inj hex)).2 ▸ rfl
  · exact Except.ok.inj h ▸ m.inService_promoteDeferredTargets curTick

namespace MSHRQueue

/-- How the lists, the counters and the iterators of a queue belong together. -/
structure Inv (q : MSHRQueue cfg) : Prop where
  partition : (q.freeList ++ q.allocatedList.toList).Perm (List.range cfg.numEntries)
  ready_nodup : q.readyList.toList.Nodup
  mem_ready : ∀ i, i ∈ q.readyList.toList ↔ i ∈ q.allocatedList.toList ∧ (q.mshr i).inService = false
  allocated_eq : q.allocated = q.allocatedList.toList.length
  numInService_eq : q.numInService = q.allocatedList.toList.countP fun i => (q.mshr i).inService
  allocIter : q.allocatedList.Threads q.allocIter
  readyIter : q.readyList.Threads q.readyIter

/-- The errors that assertions of the functions may end in. -/
def Asserted (failure : QueueFailure) : Prop :=
  failure ≠ .endOfReadyList ∧ failure ≠ .danglingIterator
deriving Decidable

/-- One entry comes into service, or leaves it. -/
theorem countP_update {l : List Nat} (hl : l.Nodup) {i : Nat} (hi : i ∈ l) (f : Nat → MSHR) (m : MSHR) :
    (l.countP fun j => (update f i m j).inService) + (if (f i).inService then 1 else 0) =
      (l.countP fun j => (f j).inService) + if m.inService then 1 else 0 := by
  have hperm := perm_cons_erase hi
  have hre : ((l.erase i).countP fun j => (update f i m j).inService) =
      (l.erase i).countP fun j => (f j).inService := by
    refine countP_congr fun j hj => ?_
    rw [update_of_ne (hl.mem_erase_iff.1 hj).1]
  rw [hperm.countP_eq, hperm.countP_eq (p := fun j => (f j).inService), countP_cons, countP_cons, hre, update_self]
  omega

variable {q q' : MSHRQueue cfg} {i : Nat}

/-- There is always a place in the list of ready entries. -/
theorem readyPlace_eq_ok (q : MSHRQueue cfg) (i : Nat) : ∃ place, q.readyPlace i = .ok place := by
  rw [readyPlace]
  split_ifs with hlas
  · exact ⟨_, rfl⟩
  -- the last entry is ready later, so the search ends there at the latest
  rcases hba : q.readyList.toList.getLast? with - | last
  · rw [hba] at hlas
    exact absurd rfl hlas
  rw [hba] at hlas
  have hla : (q.mshr last).readyTime > (q.mshr i).readyTime := by simpa using hlas
  rcases hf : q.readyList.toList.findIdx?
      (fun j => (q.mshr j).readyTime > (q.mshr i).readyTime) with - | place
  · have := findIdx?_eq_none_iff.1 hf last (mem_of_getLast? hba)
    simp only [decide_eq_false_iff_not] at this
    exact absurd hla this
  · exact ⟨place, rfl⟩

namespace Inv

theorem nodup (h : Inv q) : (q.freeList ++ q.allocatedList.toList).Nodup :=
  h.partition.nodup_iff.2 nodup_range

theorem allocated_nodup (h : Inv q) : q.allocatedList.toList.Nodup :=
  (nodup_append.1 h.nodup).2.1

theorem init : Inv (init cfg) where
  partition := by
    rw [MSHRQueue.init]
    simp [NodeList.toList]
  ready_nodup := nodup_nil
  mem_ready i := by simp [MSHRQueue.init, NodeList.toList]
  allocated_eq := rfl
  numInService_eq := rfl
  allocIter := fun _ hnode => absurd hnode not_mem_nil
  readyIter := fun _ hnode => absurd hnode not_mem_nil

/-- The entry is changed, but not whether it is in service. -/
theorem setMSHR (h : Inv q) {m : MSHR} (hm : m.inService = (q.mshr i).inService) : Inv (q.setMSHR i m) := by
  have hse : ∀ j, ((q.setMSHR i m).mshr j).inService = (q.mshr j).inService := by
    intro j
    show (update q.mshr i m j).inService = _
    by_cases hj : j = i
    · rw [hj, update_self, hm]
    · rw [update_of_ne hj]
  refine { h with mem_ready := fun j => ?_, numInService_eq := ?_ }
  · rw [hse]
    exact h.mem_ready j
  · rw [countP_congr fun j _ => by rw [hse]]
    exact h.numInService_eq

/-- **An entry comes into service.** -/
theorem enterService (h : Inv q) (hi : i ∈ q.readyList.toList) {m : MSHR} (hm : m.inService = true) :
    Inv ({ q.setMSHR i m with
      readyList := q.readyList.erase (q.readyIter i)
      numInService := q.numInService + 1 } : MSHRQueue cfg) := by
  obtain ⟨ha, hout⟩ := (h.mem_ready i).1 hi
  have hli := h.readyIter.toList_erase hi
  refine { h with
    ready_nodup := ?_
    mem_ready := fun j => ?_
    numInService_eq := ?_
    readyIter := h.readyIter.erase }
  · rw [hli]
    exact h.ready_nodup.filter _
  · rw [hli, mem_filter, h.mem_ready, decide_eq_true_eq]
    show _ ↔ j ∈ q.allocatedList.toList ∧ (update q.mshr i m j).inService = false
    by_cases hj : j = i
    · simp [hj, hm]
    · simp [hj]
  · have := countP_update h.allocated_nodup ha q.mshr m
    rw [hout, hm] at this
    show q.numInService + 1 = ((q.allocatedList.toList.countP fun j => (update q.mshr i m j).inService : Nat) : Int)
    rw [h.numInService_eq]
    simp only [Bool.false_eq_true, if_false, if_true] at this
    omega

/-- **An entry becomes ready**, at any place of the list. -/
theorem becomeReady (h : Inv q) (hi : i ∈ q.allocatedList.toList)
    (hin : (q.mshr i).inService = true) {m : MSHR} (hm : m.inService = false) (place : Nat) : Inv ({ q.setMSHR i m with
      readyList := q.readyList.insertAt place i
      readyIter := update q.readyIter i q.readyList.fresh
      numInService := q.numInService - 1 } : MSHRQueue cfg) := by
  have hnot : i ∉ q.readyList.toList := fun hmem => by
    have := ((h.mem_ready i).1 hmem).2
    rw [hin] at this
    cases this
  have hperm := NodeList.perm_insertAt (l := q.readyList) (i := place) (a := i)
  refine { h with
    ready_nodup := ?_
    mem_ready := fun j => ?_
    numInService_eq := ?_
    readyIter := h.readyIter.insertAt hnot }
  · rw [hperm.nodup_iff, nodup_cons]
    exact ⟨hnot, h.ready_nodup⟩
  · rw [hperm.mem_iff, mem_cons, h.mem_ready]
    show _ ↔ j ∈ q.allocatedList.toList ∧ (update q.mshr i m j).inService = false
    by_cases hj : j = i
    · simp [hj, hm, hi]
    · simp [hj]
  · have := countP_update h.allocated_nodup hi q.mshr m
    rw [hin, hm] at this
    show q.numInService - 1 = ((q.allocatedList.toList.countP fun j => (update q.mshr i m j).inService : Nat) : Int)
    rw [h.numInService_eq]
    simp only [Bool.false_eq_true, if_false, if_true] at this
    omega

/-- **A ready entry moves** to another place. -/
theorem moveReady (h : Inv q) (hi : i ∈ q.readyList.toList) (place : Nat) : Inv ({ q with
      readyList := (q.readyList.erase (q.readyIter i)).insertAt place i
      readyIter := update q.readyIter i (q.readyList.erase (q.readyIter i)).fresh } : MSHRQueue cfg) := by
  have hli := h.readyIter.toList_erase hi
  have hnot : i ∉ (q.readyList.erase (q.readyIter i)).toList := by
    rw [hli]
    simp
  have hperm := NodeList.perm_insertAt (l := q.readyList.erase (q.readyIter i)) (i := place) (a := i)
  refine { h with
    ready_nodup := ?_
    mem_ready := fun j => ?_
    readyIter := h.readyIter.erase.insertAt hnot }
  · rw [hperm.nodup_iff, nodup_cons, hli]
    exact ⟨by simp, h.ready_nodup.filter _⟩
  · rw [hperm.mem_iff, mem_cons, hli, mem_filter, decide_eq_true_eq, ← h.mem_ready]
    by_cases hj : j = i
    · simp [hj, hi]
    · simp [hj]

/-- **A free entry is allocated**, in service. -/
theorem enter (h : Inv q) {rest : List Nat} (hfree : q.freeList = i :: rest) {m : MSHR}
    (hm : m.inService = true) (place : Nat) : Inv ({ q.setMSHR i m with
      freeList := rest
      allocatedList := q.allocatedList.insertAt place i
      allocIter := update q.allocIter i q.allocatedList.fresh
      numInService := q.numInService + 1
      allocated := q.allocated + 1 } : MSHRQueue cfg) := by
  have hn := h.nodup
  rw [hfree, cons_append, nodup_cons, mem_append, not_or] at hn
  have hnot := hn.1.2
  have hperm := NodeList.perm_insertAt (l := q.allocatedList) (i := place) (a := i)
  refine { h with
    partition := ?_
    mem_ready := fun j => ?_
    allocated_eq := ?_
    numInService_eq := ?_
    allocIter := h.allocIter.insertAt hnot }
  · refine (List.Perm.append_left rest hperm).trans (perm_middle.trans ?_)
    have := h.partition
    rwa [hfree, cons_append] at this
  · rw [hperm.mem_iff, mem_cons]
    show j ∈ q.readyList.toList ↔ _ ∧ (update q.mshr i m j).inService = false
    rw [h.mem_ready]
    by_cases hj : j = i
    · simp [hj, hnot, hm]
    · simp [hj]
  · rw [hperm.length_eq, length_cons]
    rw [h.allocated_eq]
    rfl
  · have hre : (q.allocatedList.toList.countP fun j => (update q.mshr i m j).inService) =
        q.allocatedList.toList.countP fun j => (q.mshr j).inService := by
      refine countP_congr fun j hj => ?_
      have hne : j ≠ i := fun heq => hnot (heq ▸ hj)
      rw [update_of_ne hne]
    rw [hperm.countP_eq]
    show q.numInService + 1 = (((i :: q.allocatedList.toList).countP
      fun j => (update q.mshr i m j).inService : Nat) : Int)
    rw [countP_cons, hre, update_self, hm, h.numInService_eq]
    rfl

/-- **An entry in service is freed.** -/
theorem leave (h : Inv q) (hi : i ∈ q.allocatedList.toList) (hin : (q.mshr i).inService = true) (m : MSHR) :
    Inv ({ q.setMSHR i m with
      freeList := i :: q.freeList
      allocatedList := q.allocatedList.erase (q.allocIter i)
      numInService := q.numInService - 1
      allocated := q.allocated - 1 } : MSHRQueue cfg) := by
  have hli : (q.allocatedList.erase (q.allocIter i)).toList = q.allocatedList.toList.erase i := by
    rw [h.allocIter.toList_erase hi, h.allocated_nodup.erase_eq_filter]
    refine filter_congr fun j _ => ?_
    by_cases hj : j = i <;> simp [hj]
  have hperm := perm_cons_erase hi
  refine { h with
    partition := ?_
    mem_ready := fun j => ?_
    allocated_eq := ?_
    numInService_eq := ?_
    allocIter := h.allocIter.erase }
  · rw [hli]
    refine List.Perm.trans ?_ h.partition
    exact perm_middle.symm.trans (List.Perm.append_left _ hperm.symm)
  · rw [hli, h.allocated_nodup.mem_erase_iff]
    show j ∈ q.readyList.toList ↔ _ ∧ (update q.mshr i m j).inService = false
    rw [h.mem_ready]
    by_cases hj : j = i
    · simp [hj, hin]
    · simp [hj]
  · rw [hli]
    show q.allocated - 1 = _
    rw [h.allocated_eq, hperm.length_eq, length_cons]
    omega
  · have hre : ((q.allocatedList.toList.erase i).countP
          fun j => (update q.mshr i m j).inService) =
        (q.allocatedList.toList.erase i).countP fun j => (q.mshr j).inService := by
      refine countP_congr fun j hj => ?_
      rw [update_of_ne (h.allocated_nodup.mem_erase_iff.1 hj).1]
    rw [hli]
    show q.numInService - 1 = (((q.allocatedList.toList.erase i).countP
      fun j => (update q.mshr i m j).inService : Nat) : Int)
    rw [hre, h.numInService_eq, hperm.countP_eq, countP_cons, hin, if_pos rfl]
    omega

/-! ## The functions -/

theorem eraseReady_eq (h : q.readyList.Threads q.readyIter) (hi : i ∈ q.readyList.toList) :
    q.eraseReady i = .ok { q with readyList := q.readyList.erase (q.readyIter i) } := by
  rw [eraseReady, h.get?_eq hi]
  rfl

theorem addToReadyList_eq (q : MSHRQueue cfg) (i : Nat) : ∃ place, q.addToReadyList i = .ok { q with
    readyList := q.readyList.insertAt place i, readyIter := update q.readyIter i q.readyList.fresh } := by
  obtain ⟨place, hpl⟩ := q.readyPlace_eq_ok i
  refine ⟨place, ?_⟩
  rw [addToReadyList, hpl]
  rfl

theorem allocate (h : Inv q) (miss : Miss) : Ends Inv Asserted (q.allocate miss) := by
  rw [MSHRQueue.allocate]
  split
  · exact ⟨by decide, by decide⟩
  rename_i i rest hfree
  refine .check (fun _ => ⟨by decide, by decide⟩) fun _ => ?_
  refine Ends.bind (P := fun m => m.inService = false) (.mapError (fun _ => ⟨by simp, by simp⟩)
    fun m hm => ?_) fun m hm => ?_
  · obtain ⟨-, hm⟩ := check_eq_ok.1 hm
    obtain ⟨-, hm⟩ := check_eq_ok.1 hm
    cases hm
    rfl
  · have h₁ := h.enter hfree (m := { m with inService := true }) rfl q.allocatedList.toList.length
    obtain ⟨place, hpl⟩ := addToReadyList_eq ({ q.setMSHR i m with
      freeList := rest
      allocatedList := q.allocatedList.insertAt q.allocatedList.toList.length i
      allocIter := update q.allocIter i q.allocatedList.fresh } : MSHRQueue cfg) i
    dsimp only
    rw [hpl]
    have hi : i ∈ (q.allocatedList.insertAt q.allocatedList.toList.length i).toList :=
      NodeList.perm_insertAt.mem_iff.2 mem_cons_self
    have h₂ := h₁.becomeReady hi (by simp [MSHRQueue.setMSHR]) hm place
    simpa [MSHRQueue.setMSHR, Ends] using h₂

theorem markInService (h : Inv q) (hi : i ∈ q.allocatedList.toList) (pendingModifiedResp : Bool) :
    Ends Inv Asserted (q.markInService i pendingModifiedResp) := by
  refine Ends.bind (P := fun m => m.inService = true ∧ i ∈ q.readyList.toList)
    (.mapError (fun _ => ⟨by simp, by simp⟩) fun m hm => ?_) fun m hm => ?_
  · obtain ⟨hout, hm⟩ := check_eq_ok.1 hm
    cases hm
    exact ⟨rfl, (h.mem_ready i).2 ⟨hi, by simpa using hout⟩⟩
  · rw [eraseReady_eq (q := q.setMSHR i m) h.readyIter hm.2]
    exact h.enterService hm.2 hm.1

theorem markPending (h : Inv q) (hi : i ∈ q.allocatedList.toList) : Ends Inv Asserted (q.markPending i) := by
  refine .check (fun _ => ⟨by decide, by decide⟩) fun hin => ?_
  obtain ⟨place, hpl⟩ := addToReadyList_eq
    ({ q.setMSHR i { q.mshr i with inService := false } with
      numInService := q.numInService - 1 } : MSHRQueue cfg) i
  dsimp only
  rw [show (q.setMSHR i { q.mshr i with inService := false }).numInService = q.numInService from rfl, hpl]
  exact h.becomeReady hi (by simpa using hin) rfl place

theorem moveToFront (h : Inv q) (hi : i ∈ q.allocatedList.toList) : Ends Inv Asserted (q.moveToFront i) := by
  rw [MSHRQueue.moveToFront]
  split_ifs with hout
  · exact h
  · have hre := (h.mem_ready i).2 ⟨hi, by simpa using hout⟩
    rw [h.readyIter.get?_eq hre, eraseReady_eq h.readyIter hre]
    refine .check (fun _ => ⟨by decide, by decide⟩) fun _ => ?_
    exact h.moveReady hre 0

theorem deallocate (h : Inv q) (hi : i ∈ q.allocatedList.toList) : Ends Inv Asserted (q.deallocate i) := by
  have hera : q.eraseAllocated i = .ok { q with allocatedList := q.allocatedList.erase (q.allocIter i) } := by
    rw [eraseAllocated, h.allocIter.get?_eq hi]
    rfl
  rw [MSHRQueue.deallocate, hera, ok_bind]
  dsimp only
  rw [retire]
  dsimp only
  split
  · rename_i hin
    rw [ok_bind]
    refine Ends.bind (.mapError (fun _ => ⟨by simp, by simp⟩) fun _ _ => trivial) fun m _ => ?_
    exact h.leave hi hin m
  · rename_i hout
    have hre := (h.mem_ready i).2 ⟨hi, by simpa using hout⟩
    rw [eraseReady_eq (q := ({ q with
      allocatedList := q.allocatedList.erase (q.allocIter i)
      freeList := i :: q.freeList
      allocated := q.allocated - 1 } : MSHRQueue cfg)) h.readyIter hre, ok_bind]
    refine Ends.bind (.mapError (fun _ => ⟨by simp, by simp⟩) fun _ _ => trivial) fun m _ => ?_
    have h₁ := h.enterService hre (m := { q.mshr i with inService := true }) rfl
    have h₂ := h₁.leave hi (by simp [MSHRQueue.setMSHR]) m
    simpa [MSHRQueue.setMSHR, Ends] using h₂

theorem forceDeallocateTarget (h : Inv q) (hi : i ∈ q.allocatedList.toList) (curTick : Nat) :
    Ends (fun r => Inv r.2) Asserted (q.forceDeallocateTarget i curTick) := by
  refine .check (fun _ => ⟨by decide, by decide⟩) fun _ => ?_
  have hpop : (q.mshr i).popTarget.inService = (q.mshr i).inService := rfl
  split
  · exact h.setMSHR hpop
  have hpr := (q.mshr i).popTarget.inService_promoteDeferredTargets curTick
  rcases heq : (q.mshr i).popTarget.promoteDeferredTargets curTick with ⟨_ | _, m⟩ <;> rw [heq] at hpr
  · exact Ends.bind ((h.setMSHR (hpr.trans hpop)).deallocate hi) fun _ hinv => hinv
  · exact h.setMSHR (hpr.trans hpop)

end Inv

/-! ## Runs -/

theorem Inv.exec (h : Inv q) {op : QueueOp} (ha : q.Allows op) : Ends Inv Asserted (q.exec op) := by
  rcases op with miss | ⟨i, pendingModifiedResp⟩ | i | i | ⟨i, curTick⟩ | i | ⟨i, access⟩
  · exact h.allocate miss
  · exact h.markInService ha pendingModifiedResp
  · exact h.markPending ha
  · exact h.moveToFront ha
  · exact (h.forceDeallocateTarget ha curTick).bind fun _ hinv => hinv
  · exact h.deallocate ha
  · refine Ends.bind (P := fun m => m.inService = (q.mshr i).inService)
      (.mapError (fun _ => ⟨by simp, by simp⟩) fun m hm => MSHR.inService_access hm) fun m hm => ?_
    exact h.setMSHR hm

end MSHRQueue

/-- **The bookkeeping of the queue.**  In every run, the entries are divided into the free ones and
the allocated ones; the ready ones are the allocated ones that are not in service, once each; the
counters count; and the iterators point at the entries.  No function that is called for an allocated
entry comes to the end of `addToReadyList` or uses an iterator that dangles. -/
theorem queue_bookkeeping {q : MSHRQueue cfg} (h : Reaches MSHRQueue.exec MSHRQueue.Allows (MSHRQueue.init cfg) q) :
    (q.freeList ++ q.allocatedList.toList).Perm (List.range cfg.numEntries) ∧
    q.readyList.toList.Nodup ∧
    (∀ i, i ∈ q.readyList.toList ↔ i ∈ q.allocatedList.toList ∧ (q.mshr i).inService = false) ∧
    q.allocated = q.allocatedList.toList.length ∧
    q.numInService = q.allocatedList.toList.countP (fun i => (q.mshr i).inService) ∧
    (∀ i ∈ q.allocatedList.toList, q.allocatedList.get? (q.allocIter i) = some i) ∧
    (∀ i ∈ q.readyList.toList, q.readyList.get? (q.readyIter i) = some i) ∧
    ∀ op, q.Allows op → q.exec op ≠ .error .endOfReadyList ∧ q.exec op ≠ .error .danglingIterator := by
  have hinv : q.Inv := h.invariant .init fun _ hinv ha hs => (hinv.exec ha).of_ok hs
  refine ⟨hinv.partition, hinv.ready_nodup, hinv.mem_ready, hinv.allocated_eq, hinv.numInService_eq,
    fun i hi => hinv.allocIter.get?_eq hi, fun i hi => hinv.readyIter.get?_eq hi,
    fun op ha => ⟨fun herr => ?_, fun herr => ?_⟩⟩
  · exact ((hinv.exec ha).of_error herr).1 rfl
  · exact ((hinv.exec ha).of_error herr).2 rfl

/-- Four entries, one of them in reserve. -/
def fourEntries : QueueConfig where
  numEntries := 4
  numReserve := 1

def missAt (time : Nat) : Miss := ⟨0, 64, { cmd := .readReq }, time, time, true⟩

theorem queue_bookkeeping_fourEntries : ∃ q, Reaches MSHRQueue.exec MSHRQueue.Allows
    (MSHRQueue.init fourEntries) q ∧ q.readyList.toList = [2, 1, 0] ∧
    ∀ i ∈ q.readyList.toList, q.readyList.get? (q.readyIter i) = some i := by
  obtain ⟨q, hrun, hre⟩ := exists_reaches MSHRQueue.exec MSHRQueue.Allows (MSHRQueue.init fourEntries)
    [.allocate (missAt 3), .allocate (missAt 2), .markInService 0 false, .allocate (missAt 5),
      .moveToFront 2, .markPending 0]
    (fun q => q.readyList.toList = [2, 1, 0]) (by decide +kernel)
  exact ⟨q, hrun, hre, (queue_bookkeeping hrun).2.2.2.2.2.2.1⟩

end GuardianCouncil.Cache
