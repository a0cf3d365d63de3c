import GuardianCouncil.LSQUnit.Order
import Mathlib.Order.Interval.Finset.Nat

/-!
# Forwarding data from stores to loads

`State.pending` lists the stores that are older than a load and have not been written back, the
youngest first, by their sequence numbers.  The loop of `read` visits just these (`map_between`).  So
the first of them that shares a byte with the load decides (`read_decided`).  Strictly ordered stores
are passed over, as are stores whose data are not there yet, which have no bytes.
-/

namespace GuardianCouncil.LSQUnit

open Ring List

variable {cfg : Config}

/-! ## What a load looks for -/

/-- The addresses a load reads. -/
def ReadReq.addrs (req : ReadReq) : Finset Nat := Finset.Ico req.vaddr (req.vaddr + req.size)

/-- The address of the store in an entry. -/
def SQEntry.effAddr (e : SQEntry) : Nat := (e.inst.map StoreInst.effAddr).getD 0

/-- The addresses a store writes. -/
def SQEntry.addrs (e : SQEntry) : Finset Nat := Finset.Ico e.effAddr (e.effAddr + e.size)

/-- The byte a store writes to an address. -/
def SQEntry.byteAt (e : SQEntry) (a : Nat) : UInt8 :=
  if e.isAllZeros then 0 else e.data.getD (a - e.effAddr) 0

/-- Is the store not strictly ordered, and does it write to an address of the load? -/
def SQEntry.meets (e : SQEntry) (req : ReadReq) : Bool :=
  (e.inst.all fun inst => !inst.strictlyOrdered) && !decide (Disjoint req.addrs e.addrs)

/-- The bytes of a load, all from one store. -/
def SQEntry.bytesFor (e : SQEntry) (req : ReadReq) : List UInt8 :=
  (List.range req.size).map fun k => e.byteAt (req.vaddr + k)

namespace State

variable (s : State cfg)

/-- The stores older than a load that have not been written back, the youngest first. -/
def pending (load : LoadInst) : List SQEntry :=
  (((between cfg.sqEntries s.storeWBIdx s.storeTail).map s.storeQueue).filter
    fun e => e.seqNum < load.seqNum).reverse

/-- Is the unit stalled already, for this load or an older one? -/
def stalledBefore (load : LoadInst) : Bool :=
  s.stalled && (s.loadQueue s.stallingLoadIdx).any fun other => other.seqNum ≤ load.seqNum

/-- The state in which the unit is stalled for a load, on a store. -/
def stalledOn (loadIdx : Nat) (load : LoadInst) (e : SQEntry) : State cfg :=
  if s.stalledBefore load then s
  else { s with stalled := true, stallingStoreIsn := e.seqNum, stallingLoadIdx := loadIdx }

end State

/-! ## Comparing a load with one store -/

section

variable {e : SQEntry} {inst : StoreInst} {req : ReadReq}

theorem SQEntry.effAddr_eq (hin : e.inst = some inst) : e.effAddr = inst.effAddr := by
  rw [effAddr, hin]
  rfl

theorem disjoint_addrs_iff : Disjoint req.addrs e.addrs ↔
    req.size = 0 ∨ e.size = 0 ∨ req.vaddr + req.size ≤ e.effAddr ∨ e.effAddr + e.size ≤ req.vaddr := by
  rw [ReadReq.addrs, SQEntry.addrs, Finset.disjoint_left]
  simp only [Finset.mem_Ico]
  constructor
  · intro h
    have := h (a := max req.vaddr e.effAddr)
    omega
  · omega

theorem SQEntry.meets_iff (hin : e.inst = some inst) (req : ReadReq) :
    e.meets req = true ↔ inst.strictlyOrdered = false ∧ ¬ Disjoint req.addrs e.addrs := by
  rw [meets, hin]
  simp

theorem covers_iff (hm : ¬ Disjoint req.addrs e.addrs) : req.addrs ⊆ e.addrs ↔
    e.effAddr ≤ req.vaddr ∧ req.vaddr + req.size ≤ e.effAddr + e.size := by
  rw [disjoint_addrs_iff] at hm
  rw [ReadReq.addrs, SQEntry.addrs, Finset.Ico_subset_Ico_iff (by omega)]

section

variable (hreq : req.vaddr + req.size < 2 ^ 64) (hst : e.effAddr + e.size < 2 ^ 64)
include hreq hst

/-- Without overflow, the comparisons of `read` say how the addresses of the load and of the store
are related. -/
theorem compareRanges_of_meets (hm : ¬ Disjoint req.addrs e.addrs) : compareRanges req.vaddr req.size e.effAddr e.size =
      if req.addrs ⊆ e.addrs then .covers else .overlaps := by
  have hco := covers_iff hm
  rw [disjoint_addrs_iff] at hm
  rw [compareRanges, Nat.mod_eq_of_lt hreq, Nat.mod_eq_of_lt hst]
  by_cases hc : req.addrs ⊆ e.addrs
  · rw [if_pos hc]
    exact if_pos (hco.1 hc)
  · rw [if_neg hc]
    refine (if_neg fun h => hc (hco.2 h)).trans (if_pos ?_)
    omega

/-- A store next to a load is passed over, unless the load reads nothing. -/
theorem compareRanges_of_disjoint (hsi : e.size ≠ 0) (hd : Disjoint req.addrs e.addrs) :
    compareRanges req.vaddr req.size e.effAddr e.size = .apart ∨
      req.size = 0 ∧ compareRanges req.vaddr req.size e.effAddr e.size = .covers := by
  rw [disjoint_addrs_iff] at hd
  rw [compareRanges, Nat.mod_eq_of_lt hreq, Nat.mod_eq_of_lt hst]
  by_cases hc : e.effAddr ≤ req.vaddr ∧ req.vaddr + req.size ≤ e.effAddr + e.size
  · exact .inr ⟨by omega, if_pos hc⟩
  · refine .inl ((if_neg hc).trans (if_neg ?_))
    omega

end

/-- What is forwarded are the bytes of the store. -/
theorem SQEntry.forward_eq (hv : e.Valid) (hm : ¬ Disjoint req.addrs e.addrs)
    (hco : req.addrs ⊆ e.addrs) : e.forward e.effAddr req = e.bytesFor req := by
  rw [covers_iff hm] at hco
  rw [forward, bytesFor]
  by_cases hz : e.isAllZeros
  · rw [if_pos hz]
    simp [byteAt, hz]
  rw [if_neg hz]
  have hsi := hv.size_le (by simpa using hz)
  have hleng := hv.data_length
  refine ext_getElem ?_ fun k hk _ => ?_
  · rw [length_take, length_drop, length_map, length_range]
    omega
  · rw [length_take, length_drop] at hk
    rw [getElem_take, getElem_drop, getElem_map, getElem_range, byteAt,
      if_neg hz, getD_eq_getElem?_getD, getElem?_eq_getElem (by omega), Option.getD_some]
    congr 1
    omega

end

/-! ## The stores a load visits -/

section

variable {s : State cfg} {stores : List SQEntry} {w i j : Nat} {loads : List LoadInst}
  {load : LoadInst}

/-- The entries between two indices. -/
theorem StoreRing.map_between (h : StoreRing s stores w) (hij : i ≤ j) (hj : j ≤ stores.length) :
    (between cfg.sqEntries ((s.storeHead + i) % cfg.sqEntries) ((s.storeHead + j) % cfg.sqEntries)).map
      s.storeQueue = (stores.take j).drop i := by
  have hlen := h.queue.window.length_lt
  rw [between_add_mod h.queue.window.head_lt hij (by omega), map_map]
  refine ext_getElem (by simp; omega) fun k hk _ => ?_
  rw [length_map, length_range] at hk
  rw [getElem_map, getElem_range, getElem_drop, getElem_take]
  exact h.queue.window.get (i + k) (by omega)

/-- Those older than a load come first. -/
theorem StoreRing.pending_eq (h : StoreRing s stores w) (hw : w ≤ olderStores stores load) :
    s.pending load = ((stores.take (olderStores stores load)).drop w).reverse := by
  have hle : olderStores stores load ≤ stores.length := olderStores_le_length
  rw [State.pending, h.storeWBIdx_eq, h.queue.tail_eq, h.map_between h.w_le le_rfl, take_length]
  congr 1
  have hsp : stores.drop w = (stores.take (olderStores stores load)).drop w ++
      stores.drop (olderStores stores load) := by
    conv_lhs => rw [← take_append_drop (olderStores stores load) stores]
    rw [drop_append_of_le_length (by rw [length_take]; omega)]
  have hold : ∀ e ∈ (stores.take (olderStores stores load)).drop w, e.seqNum < load.seqNum := by
    intro e he
    obtain ⟨k, hk⟩ := mem_iff_getElem?.1 (mem_of_mem_drop he)
    rw [getElem?_take] at hk
    split at hk
    · rename_i hlt
      exact (seqNum_lt_iff h.sorted hk).2 hlt
    · cases hk
  have hy : ∀ e ∈ stores.drop (olderStores stores load), ¬ e.seqNum < load.seqNum := by
    intro e he hlt
    obtain ⟨k, hk⟩ := mem_iff_getElem?.1 he
    rw [getElem?_drop] at hk
    have := (seqNum_lt_iff h.sorted hk).1 hlt
    omega
  rw [hsp, filter_append, filter_eq_self.2 fun e he => decide_eq_true (hold e he),
    filter_eq_nil_iff.2 fun e he => by simpa using hy e he, append_nil]

/-- The unit can always be stalled for a load. -/
theorem State.Stalls.stallFor_eq (h : s.Stalls) {loadIdx : Nat} {e : SQEntry} {inst : StoreInst}
    (hin : e.inst = some inst) : s.stallFor loadIdx load inst.seqNum = .ok (s.stalledOn loadIdx load e) := by
  have hseq : e.seqNum = inst.seqNum := by
    rw [SQEntry.seqNum, hin]
    rfl
  rw [State.stallFor, State.stalledOn, State.stalledBefore, hseq]
  by_cases hst : s.stalled
  · obtain ⟨other, ho⟩ := Option.isSome_iff_exists.1 (h hst)
    rw [ho, hst]
    by_cases hlt : load.seqNum < other.seqNum
    · simp [hlt]
    · simp [hlt, Nat.le_of_not_lt hlt]
  · simp [hst]

/-- What becomes of a load, by the stores it is compared with. -/
structure Decided (s : State cfg) (loadIdx : Nat) (load : LoadInst) (req : ReadReq)
    (stores : List SQEntry) (read : Except Failure (ReadResult × State cfg)) : Prop where
  /-- It is covered by the first store it meets. -/
  covered : ∀ e, stores.find? (·.meets req) = some e → req.addrs ⊆ e.addrs → read = .ok (.forwarded (e.bytesFor req), s)
  /-- It is not. -/
  partly : ∀ e, stores.find? (·.meets req) = some e → ¬ req.addrs ⊆ e.addrs →
    read = .ok (.mustWait, s.stalledOn loadIdx load e)
  /-- It meets none. -/
  free : stores.find? (·.meets req) = none →
    ∃ result, read = .ok (result, s) ∧ (0 < req.size → result = .accessesMemory)

variable {e : SQEntry} {loadIdx : Nat} {req : ReadReq}

namespace Decided

variable {es : List SQEntry} {read : Except Failure (ReadResult × State cfg)}

/-- The first store is not met. -/
theorem cons_of_not_meets (hm : ¬ e.meets req) (h : Decided s loadIdx load req es read) :
    Decided s loadIdx load req (e :: es) read := by
  have hf : (e :: es).find? (·.meets req) = es.find? (·.meets req) := find?_cons_of_neg hm
  exact ⟨fun e' he' => h.covered e' (hf ▸ he'), fun e' he' => h.partly e' (hf ▸ he'), fun hn => h.free (hf ▸ hn)⟩

/-- The first store is met. -/
theorem cons_of_meets (hm : e.meets req)
    (hread : read = if req.addrs ⊆ e.addrs then .ok (.forwarded (e.bytesFor req), s)
      else .ok (.mustWait, s.stalledOn loadIdx load e)) : Decided s loadIdx load req (e :: es) read := by
  have hf : (e :: es).find? (·.meets req) = some e := find?_cons_of_pos hm
  refine ⟨fun e' he' hco => ?_, fun e' he' hco => ?_, fun hn => ?_⟩
  · cases hf.symm.trans he'
    rw [hread, if_pos hco]
  · cases hf.symm.trans he'
    rw [hread, if_neg hco]
  · rw [hf] at hn
    cases hn

end Decided

/-- **The loop of `read`.**  The stores it visits are compared with the load one after the other. -/
theorem State.Stalls.decided_readLoop (h : s.Stalls) (loadIdx : Nat) (load : LoadInst)
    {idxs : List Nat} (hreq : req.vaddr + req.size < 2 ^ 64)
    (hvi : ∀ idx ∈ idxs, (s.storeQueue idx).Valid ∧ (s.storeQueue idx).completed = false ∧
      (s.storeQueue idx).effAddr + (s.storeQueue idx).size < 2 ^ 64) :
    Decided s loadIdx load req (idxs.map s.storeQueue) (s.readLoop loadIdx load req idxs) := by
  induction idxs with
  | nil =>
    exact ⟨fun _ he => (by cases he), fun _ he => (by cases he), fun _ => ⟨_, rfl, fun _ => rfl⟩⟩
  | cons idx idxs ih =>
    have ih := ih fun i hi => hvi i (mem_cons_of_mem _ hi)
    obtain ⟨hv, hop, hend⟩ := hvi idx mem_cons_self
    obtain ⟨inst, hin⟩ := Option.isSome_iff_exists.1 hv.inst
    have hmeets_iff := SQEntry.meets_iff hin req
    rw [State.readLoop, hin, map_cons]
    dsimp only
    by_cases hsi : (s.storeQueue idx).size = 0
    · rw [if_pos hsi]
      exact ih.cons_of_not_meets fun hm => (hmeets_iff.1 hm).2 (disjoint_addrs_iff.2 (.inr (.inl hsi)))
    rw [if_neg hsi]
    by_cases ho : inst.strictlyOrdered
    · rw [if_pos ho]
      exact ih.cons_of_not_meets fun hm => by
        rw [(hmeets_iff.1 hm).1] at ho
        cases ho
    rw [if_neg ho, if_neg (by simp [hv.effAddrValid hsi inst hin]), ← SQEntry.effAddr_eq hin]
    by_cases hd : Disjoint req.addrs (s.storeQueue idx).addrs
    · have hnot : ¬ (s.storeQueue idx).meets req := fun hm => (hmeets_iff.1 hm).2 hd
      rcases compareRanges_of_disjoint hreq hend hsi hd with ha | ⟨hzero, hco⟩
      · rw [ha]
        exact ih.cons_of_not_meets hnot
      -- a load of no bytes is given none
      rw [hco]
      have hn : ∀ e : SQEntry, ¬ e.meets req := fun e hm => by
        rw [SQEntry.meets, Bool.and_eq_true] at hm
        simp [disjoint_addrs_iff, hzero] at hm
      have hf : ∀ es : List SQEntry, es.find? (·.meets req) = none := fun es => find?_eq_none.2 fun e _ => hn e
      refine ⟨fun e he => ?_, fun e he => ?_, fun _ => ⟨_, rfl, fun hpos => by omega⟩⟩
      · rw [hf] at he
        cases he
      · rw [hf] at he
        cases he
    · refine Decided.cons_of_meets (hmeets_iff.2 ⟨by simpa using ho, hd⟩) ?_
      rw [compareRanges_of_meets hreq hend hd]
      by_cases hco : req.addrs ⊆ (s.storeQueue idx).addrs
      · rw [if_pos hco, if_pos hco]
        dsimp only
        rw [SQEntry.forward_eq hv hd hco]
      · rw [if_neg hco, if_neg hco]
        rw [hop, h.stallFor_eq hin]
        rfl

end

/-! ## Loads -/

/-- **Stores are forwarded to loads.**  In every run, a load that executes and is not rescheduled for
being strictly ordered, and reads memory, is decided by the youngest of the older stores that have not
been written back, are not strictly ordered and write to an address of the load. -/
theorem read_decided {s : State cfg} (h : Fallible.Reaches exec Allows (init cfg) s) {loadIdx : Nat}
    {load : LoadInst} (hload : s.loadQueue loadIdx = some load) (hexecutes : load.isExecuted = false)
    {req : ReadReq} (hready : req.isStrictlyOrdered → loadIdx = s.loadHead ∧ req.isAtCommit)
    (hmemory : req.isMmappedIpr = false) (hreq : req.vaddr + req.size < 2 ^ 64)
    (hstores : ∀ e ∈ s.pending load, e.effAddr + e.size < 2 ^ 64) :
    Decided s loadIdx load req (s.pending load) (s.read loadIdx req) := by
  obtain ⟨stores, w, loads, hri, hlo, hpo, hcom, hst⟩ := inOrder_of_reaches h
  have hmem := hlo.mem_of_loadQueue hload
  have hw : w ≤ olderStores stores load := by
    -- the stores that have been written back are older
    by_contra hlt
    have he := getElem?_eq_getElem (Nat.lt_of_lt_of_le (Nat.lt_of_not_le hlt) hri.w_le)
    have hold := hcom _ (mem_of_getElem? he) (hri.written (Nat.lt_of_not_le hlt) he) load hmem
    exact absurd ((seqNum_lt_iff hri.sorted he).1 hold) (lt_irrefl _)
  have hpe := hri.pending_eq hw
  rw [State.read, hload]
  dsimp only
  rw [hexecutes, if_neg Bool.false_ne_true, if_neg (by
    rintro ⟨ho, hne | hco⟩
    · exact hne (hready ho).1
    · rw [(hready ho).2] at hco
      cases hco), hmemory, if_neg Bool.false_ne_true]
  obtain ⟨hn, hidx⟩ := hpo.points load hmem
  rcases hsq : load.sqIdx with - | sqIdx
  · -- there were no stores when the load entered
    have hnil : s.pending load = [] := by
      rw [hpe, hn hsq]
      simp
    rw [hnil]
    exact ⟨fun _ he => (by cases he), fun _ he => (by cases he), fun _ => ⟨_, rfl, fun _ => rfl⟩⟩
  · have hmap := hri.map_between hw olderStores_le_length
    rw [← hri.storeWBIdx_eq, ← hidx sqIdx hsq] at hmap
    have hv : (between cfg.sqEntries s.storeWBIdx sqIdx).reverse.map s.storeQueue = s.pending load := by
      rw [hpe, map_reverse, hmap]
    rw [← hv]
    refine hst.decided_readLoop loadIdx load hreq fun idx hm => ?_
    have he : s.storeQueue idx ∈ s.pending load := hv ▸ mem_map_of_mem hm
    refine ⟨?_, ?_, hstores _ he⟩
    · rw [hpe, mem_reverse] at he
      exact hpo.valid _ (mem_of_mem_take (mem_of_mem_drop he))
    · rw [hpe, mem_reverse, drop_take] at he
      obtain ⟨i, hi⟩ := mem_iff_getElem?.1 (mem_of_mem_take he)
      rw [getElem?_drop] at hi
      exact hri.notCompleted (Nat.le_add_right w i) hi

/-- A unit for the cases below. -/
def small : Config where
  lqEntries := 4
  sqEntries := 4
  needsTSO := false
  cacheStorePorts := 1

/-- A store of four bytes. -/
def fourBytes (vaddr : Nat) (strictlyOrdered : Bool) : WriteReq where
  vaddr := vaddr
  size := 4
  strictlyOrdered := strictlyOrdered
  data := [1, 2, 3, 4]

/-- Three stores and two loads.  The first load waits for the first store. -/
def waiting : List Op :=
  [.insertStore { seqNum := 1 }, .insertStore { seqNum := 2 }, .insertStore { seqNum := 3 },
    .insertLoad 4, .insertLoad 5,
    .executeStore 0 (some (fourBytes 0x100 false)), .executeStore 1 (some (fourBytes 0x200 true)),
    .executeStore 2 (some (fourBytes 0x300 false)), .read 0 { vaddr := 0x100, size := 8 }]

theorem read_decided_inside : ∃ s, Fallible.Reaches exec Allows (init small) s ∧
    ∃ s', s.read 1 { vaddr := 0x301, size := 2 } = .ok (.forwarded [2, 3], s') := by
  obtain ⟨s, hrun, load, hlo, hex, hend, e, hf, hco, hby⟩ := Fallible.exists_reaches exec Allows (init small) waiting
      (fun s => ∃ load ∈ s.loadQueue 1, load.isExecuted = false ∧ (∀ e ∈ s.pending load, e.effAddr + e.size < 2 ^ 64) ∧
        ∃ e ∈ (s.pending load).find? (·.meets { vaddr := 0x301, size := 2 }),
          ReadReq.addrs { vaddr := 0x301, size := 2 } ⊆ e.addrs ∧
          e.bytesFor { vaddr := 0x301, size := 2 } = [2, 3]) (by decide +kernel)
  refine ⟨s, hrun, s, ?_⟩
  rw [(read_decided hrun hlo hex (fun h => (by cases h)) rfl (by decide) hend).covered e hf hco, hby]

/-- **What else may happen.**  A load is sent to memory although an older store covers it, which is
strictly ordered.  A load that overlaps a store partly waits while the unit is stalled on another
store, for an older load.  A strictly ordered load is rescheduled, and a register of the processor is
read, although a store covers them.  A load is sent to memory past a store that covers it and ends with
the address space. -/
theorem not_decided : (∃ s, Fallible.Reaches exec Allows (init small) s ∧
    ∃ load ∈ s.loadQueue 1, load.isExecuted = false ∧
    (∀ e ∈ s.pending load, ∀ inst ∈ e.inst, inst.effAddrValid ∧ e.size = 4) ∧
    (∃ e ∈ s.pending load, ReadReq.addrs { vaddr := 0x200, size := 4 } ⊆ e.addrs ∧
      (s.read 1 { vaddr := 0x200, size := 4 }).map Prod.fst = .ok .accessesMemory) ∧
    (∃ e ∈ s.pending load, ¬ Disjoint (ReadReq.addrs { vaddr := 0x300, size := 8 }) e.addrs ∧
      (s.read 1 { vaddr := 0x300, size := 8 }).map (fun r => r.2.stallingStoreIsn) = .ok 1 ∧
      e.seqNum = 3) ∧
    (∃ e ∈ s.pending load, ReadReq.addrs { vaddr := 0x300, size := 4 } ⊆ e.addrs ∧
      (s.read 1 { vaddr := 0x300, size := 4, isStrictlyOrdered := true }).map Prod.fst = .ok .rescheduled ∧
      (s.read 1 { vaddr := 0x300, size := 4, isMmappedIpr := true }).map Prod.fst = .ok .readIpr)) ∧
    ∃ s, Fallible.Reaches exec Allows (init small) s ∧ ∃ load ∈ s.loadQueue 0, load.isExecuted = false ∧
      (∃ e ∈ s.pending load, ReadReq.addrs { vaddr := 2 ^ 64 - 4, size := 2 } ⊆ e.addrs) ∧
      (s.read 0 { vaddr := 2 ^ 64 - 4, size := 2 }).map Prod.fst = .ok .accessesMemory :=
  ⟨Fallible.exists_reaches exec Allows (init small) waiting _ (by decide +kernel),
    Fallible.exists_reaches exec Allows (init small)
      [.insertStore { seqNum := 1 }, .insertLoad 2, .executeStore 0 (some (fourBytes (2 ^ 64 - 4) false))] _
      (by decide +kernel)⟩

end GuardianCouncil.LSQUnit
