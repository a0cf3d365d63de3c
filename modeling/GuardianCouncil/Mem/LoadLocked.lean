import GuardianCouncil.Lib.Since
import GuardianCouncil.Mem.AbstractMemory

/-!
# Load-linked and store-conditional at the memory

When a store-conditional is carried out, has its context load-linked the same granule, and has nobody
written to the granule since?  Two kinds of writes leave the records of a granule alone although they
write to it: a swap or an atomic operation, which does not look at the records at all, and a write of
more than one granule, which erases the records of the granule of its address only (`storeCond_unsafe`).
In a run where no access does this to a granule that has a record (`Guarded`), the answer is yes, since a
record then stands for the last load-linked of its context (`Tracked`).
-/

namespace GuardianCouncil.AbstractMemory

open Fallible History LockedAddr List

/-! ## Runs -/

/-- The packet has a byte in the granule `g`. -/
def Packet.touches (pkt : Packet) (g : Addr) : Bool := pkt.addrs.any fun a => mask a == g

/-- An access that was served, and whether it has written. -/
structure Event where
  pkt : Packet
  stored : Bool

namespace Event

/-- A load-linked of context `c`, in the granule `g`. -/
def LoadLinks (c : Int) (g : Addr) (e : Event) : Prop :=
  Memory.ignores e.pkt = false ∧ e.pkt.cmd.isRead = true ∧ e.pkt.isLLSC = true ∧
    e.pkt.req.contextId = c ∧ mask e.pkt.req.paddr = g

/-- The access has written a byte of the granule `g`. -/
def Modifies (g : Addr) (e : Event) : Prop := e.stored = true ∧ e.pkt.touches g = true

/-- The access is no load-linked of context `c`, and has not written to the granule `g`. -/
def Spares (c : Int) (g : Addr) (e : Event) : Prop := (∀ g', ¬ e.LoadLinks c g') ∧ ¬ e.Modifies g

end Event

structure State where
  mem : Memory
  log : List Event

/-- A memory as it is built: no records. -/
def State.init (start stop : Addr) (pmemAddr : Option Host) : State where
  mem := { start, stop, pmemAddr }
  log := []

/-- One access, by any context. -/
def State.next (s : State) (pkt : Packet) : Except Fault State :=
  s.mem.access pkt >>= fun r => .ok ⟨r.1, s.log ++ [⟨pkt, s.mem.stores pkt⟩]⟩

/-- The context `c` has load-linked in `g`, that was its last load-linked, and nobody has written to
`g` since. -/
def Reserved (c : Int) (g : Addr) (log : List Event) : Prop :=
  Since (Event.LoadLinks c g) (Event.Spares c g) log

/-- If the access writes to a granule with a record, then it is no swap and has its address there. -/
def Guarded (s : State) (pkt : Packet) : Prop :=
  s.mem.stores pkt = true → ∀ l ∈ s.mem.lockedAddrList, pkt.touches l.addr = true →
    pkt.cmd ≠ .swapReq ∧ mask pkt.req.paddr = l.addr
deriving Decidable

/-! ## What the records stand for -/

/-- Every context has at most one record, and it stands for a reservation. -/
structure Tracked (locks : List LockedAddr) (log : List Event) : Prop where
  nodup : (locks.map LockedAddr.contextId).Nodup
  reserved : ∀ l ∈ locks, Reserved l.contextId l.addr log

section

variable {locks locks' : List LockedAddr} {log : List Event} {e : Event} {req : Request}
  {l : LockedAddr}

/-- Records that are left in place, by an event that spares them. -/
theorem Tracked.keep (h : Tracked locks log) (hsub : locks'.Sublist locks)
    (hsp : ∀ l ∈ locks', e.Spares l.contextId l.addr) : Tracked locks' (log ++ [e]) where
  nodup := h.nodup.sublist (hsub.map _)
  reserved l hl := since_concat.2 (.inr ⟨h.reserved l (hsub.mem hl), hsp l hl⟩)

theorem modifyLock_contextIds : (modifyLock req locks).map LockedAddr.contextId = locks.map LockedAddr.contextId := by
  induction locks with
  | nil => rfl
  | cons l locks ih =>
    rw [modifyLock]
    split
    · rfl
    · rw [map_cons, ih, map_cons]

section

variable (hn : (locks.map LockedAddr.contextId).Nodup)
include hn

/-- With one record for each context, all records of the others are left as they are. -/
theorem mem_modifyLock (hl : l ∈ modifyLock req locks) :
    l = .ofRequest req ∨ l ∈ locks ∧ l.contextId ≠ req.contextId := by
  induction locks with
  | nil => cases hl
  | cons l₀ locks ih =>
    rw [map_cons, nodup_cons] at hn
    rw [modifyLock] at hl
    by_cases hm : l₀.matchesContext req = true
    · have hctx : l₀.contextId = req.contextId := by simpa [matchesContext] using hm
      rw [if_pos hm] at hl
      rcases mem_cons.1 hl with rfl | hl
      · exact .inl (by rw [hctx]; rfl)
      · refine .inr ⟨mem_cons_of_mem _ hl, fun heq => hn.1 ?_⟩
        rw [hctx, ← heq]
        exact mem_map_of_mem hl
    · have hctx : l₀.contextId ≠ req.contextId := by simpa [matchesContext] using hm
      rw [if_neg hm] at hl
      rcases mem_cons.1 hl with rfl | hl
      · exact .inr ⟨mem_cons_self, hctx⟩
      · exact (ih hn.2 hl).imp_right fun ⟨hmem, hne⟩ => ⟨mem_cons_of_mem _ hmem, hne⟩

theorem mem_trackLoadLocked (hl : l ∈ trackLoadLocked locks req) :
    l = .ofRequest req ∨ l ∈ locks ∧ l.contextId ≠ req.contextId := by
  rw [trackLoadLocked] at hl
  split at hl
  · exact mem_modifyLock hn hl
  rename_i hno
  rcases mem_cons.1 hl with rfl | hl
  · exact .inl rfl
  · refine .inr ⟨hl, fun heq => hno (any_eq_true.2 ⟨l, hl, ?_⟩)⟩
    simpa [matchesContext] using heq

theorem nodup_trackLoadLocked : ((trackLoadLocked locks req).map LockedAddr.contextId).Nodup := by
  rw [trackLoadLocked]
  split
  · rwa [modifyLock_contextIds]
  rename_i hno
  rw [map_cons, nodup_cons]
  refine ⟨fun hmem => hno ?_, hn⟩
  obtain ⟨l, hl, heq⟩ := mem_map.1 hmem
  exact any_eq_true.2 ⟨l, hl, by simpa [matchesContext, ofRequest] using heq⟩

end

/-- A load-linked takes the record of its context over. -/
theorem Tracked.loadLinked (h : Tracked locks log)
    (hli : e.LoadLinks req.contextId (mask req.paddr)) (hst : e.stored = false)
    (hreq : e.pkt.req = req) : Tracked (trackLoadLocked locks req) (log ++ [e]) where
  nodup := nodup_trackLoadLocked h.nodup
  reserved l hl := by
    rcases mem_trackLoadLocked h.nodup hl with rfl | ⟨hmem, hne⟩
    · exact since_concat.2 (.inl hli)
    · refine since_concat.2 (.inr ⟨h.reserved l hmem, fun g' hl' => hne ?_, fun hmod => ?_⟩)
      · rw [← hl'.2.2.2.1, hreq]
      · exact Bool.false_ne_true (hst.symm.trans hmod.1)

/-- A write that is carried out erases the records of its granule, and one that is not does nothing. -/
theorem writeOK_lockedAddrList (locks : List LockedAddr) (pkt : Packet) : (writeOK locks pkt).lockedAddrList =
      if (writeOK locks pkt).allowStore then locks.filter (·.addr ≠ mask pkt.req.paddr)
      else locks := by
  rw [writeOK]
  split
  · rename_i hem
    rw [isEmpty_iff.1 hem]
    simp
  · rfl

end

/-! ## Every step keeps it -/

section

variable {s s' : State} {pkt : Packet}

theorem not_loadLinks_of_swap {c : Int} {g : Addr} {stored : Bool} (hswap : pkt.cmd = .swapReq) :
    ¬ Event.LoadLinks c g ⟨pkt, stored⟩ := by
  rintro ⟨-, -, hll, -⟩
  simp only [Packet.isLLSC, hswap] at hll
  cases hll

/-- Nothing is written to the granule of a record that the access does not erase. -/
theorem Guarded.not_modifies {l : LockedAddr} (hg : Guarded s pkt)
    (hl : l ∈ s.mem.lockedAddrList) (hlo : pkt.cmd = .swapReq ∨ l.addr ≠ mask pkt.req.paddr) :
    ¬ Event.Modifies l.addr ⟨pkt, s.mem.stores pkt⟩ := by
  rintro ⟨hst, hto⟩
  obtain ⟨hswap, ha⟩ := hg hst l hl hto
  rcases hlo with hs' | ha'
  · exact hswap hs'
  · exact ha' ha.symm

theorem not_modifies_of_not_stores {g : Addr} (hst : s.mem.stores pkt = false) :
    ¬ Event.Modifies g ⟨pkt, s.mem.stores pkt⟩ := by
  rintro ⟨hsto, -⟩
  exact Bool.false_ne_true (hst.symm.trans hsto)

theorem Tracked.next (h : Tracked s.mem.lockedAddrList s.log) (hg : Guarded s pkt)
    (hnext : s.next pkt = .ok s') : Tracked s'.mem.lockedAddrList s'.log := by
  obtain ⟨⟨mem', pkt'⟩, hac, hs'⟩ := bind_eq_ok.1 hnext
  cases hs'
  cases Memory.does_of_access hac with
  | ignored hignores =>
    refine h.keep (.refl _) fun l _ => ⟨fun g' hli => ?_, ?_⟩
    · exact Bool.false_ne_true (hli.1.symm.trans hignores)
    · exact not_modifies_of_not_stores (by simp [Memory.stores, hignores])
  | nullAtomic hswap hhost =>
    refine h.keep (.refl _) fun l _ => ⟨fun g' => not_loadLinks_of_swap hswap, ?_⟩
    exact not_modifies_of_not_stores (by simp [Memory.stores, hhost])
  | atomic _ _ hswap | swap _ _ hswap =>
    exact h.keep (.refl _) fun l hl =>
      ⟨fun g' => not_loadLinks_of_swap hswap, hg.not_modifies hl (.inl hswap)⟩
  | read hignores hswap hread =>
    have hst : s.mem.stores pkt = false := by
      rw [Memory.stores]
      cases s.mem.pmemAddr <;> simp [hswap, hread]
    by_cases hll : pkt.isLLSC = true
    · simp only [if_pos hll]
      exact h.loadLinked ⟨hignores, hread, hll, rfl, rfl⟩ hst rfl
    · simp only [if_neg hll]
      exact h.keep (.refl _) fun l _ =>
        ⟨fun g' hli => hll hli.2.2.1, not_modifies_of_not_stores hst⟩
  | invalidate hswap hread hinvalidate =>
    have hst : s.mem.stores pkt = false := by
      rw [Memory.stores]
      cases s.mem.pmemAddr <;> simp [hswap, hinvalidate]
    exact h.keep (.refl _) fun l _ =>
      ⟨fun g' hli => Bool.false_ne_true (hread.symm.trans hli.2.1), not_modifies_of_not_stores hst⟩
  | write hignores hswap hread hinvalidate hwrite =>
    have hli : ∀ c g, ¬ Event.LoadLinks c g ⟨pkt, s.mem.stores pkt⟩ :=
      fun c g hli => Bool.false_ne_true (hread.symm.trans hli.2.1)
    simp only [writeOK_lockedAddrList]
    by_cases ha : (writeOK s.mem.lockedAddrList pkt).allowStore = true
    · rw [if_pos ha]
      refine h.keep filter_sublist fun l hl => ⟨hli _, ?_⟩
      obtain ⟨hmem, had⟩ := mem_filter.1 hl
      exact hg.not_modifies hmem (.inr (of_decide_eq_true had))
    · have hst : s.mem.stores pkt = false := by
        rw [Memory.stores]
        cases s.mem.pmemAddr <;> simp [hswap, ha]
      rw [if_neg ha]
      exact h.keep (.refl _) fun l _ => ⟨hli _, not_modifies_of_not_stores hst⟩

end

theorem tracked_of_reaches {start stop : Addr} {pmemAddr : Option Host} {s : State}
    (h : Reaches State.next Guarded (.init start stop pmemAddr) s) : Tracked s.mem.lockedAddrList s.log :=
  h.invariant (P := fun s => Tracked s.mem.lockedAddrList s.log)
    (show Tracked [] [] from ⟨nodup_nil, fun _ hl => absurd hl not_mem_nil⟩)
    fun _ hinv hg hnext => hinv.next hg hnext

/-- A store-conditional: a write with the `LLSC` attribute. -/
def IsStoreCond (pkt : Packet) : Prop :=
  pkt.cmd ≠ .swapReq ∧ pkt.cmd.isWrite = true ∧ pkt.isLLSC = true

/-- **Store-conditionals are safe** in a run where no swap writes to a granule with a record, and no
write does so from another granule's address. -/
theorem storeCond_reserved {start stop : Addr} {pmemAddr : Option Host} {s : State}
    (h : Reaches State.next Guarded (.init start stop pmemAddr) s) (pkt : Packet)
    (hsc : IsStoreCond pkt) (hstores : s.mem.stores pkt = true) :
    Reserved pkt.req.contextId (mask pkt.req.paddr) s.log := by
  have ha : (writeOK s.mem.lockedAddrList pkt).allowStore = true := by
    rw [Memory.stores] at hstores
    generalize s.mem.pmemAddr = pmem at hstores
    rcases pmem with - | host
    · simp at hstores
    · simp only [if_neg hsc.1, Bool.and_eq_true] at hstores
      exact hstores.2.2
  rw [writeOK] at ha
  split at ha
  · simp [hsc.2.2] at ha
  simp only [checkLockedAddrList, hsc.2.2, Bool.not_true, Bool.false_or] at ha
  obtain ⟨l, hl, hm⟩ := any_eq_true.1 ha
  obtain ⟨had, hctx⟩ := Bool.and_eq_true_iff.1 hm
  have hre := (tracked_of_reaches h).reserved l hl
  rwa [eq_of_beq had, eq_of_beq hctx] at hre

/-- Context 0 load-links at 16, context 1 writes at 0, and context 0 stores at 16. -/
theorem storeCond_reserved_neighbour : ∃ s : State, Reaches State.next Guarded (.init 0 0xff (some fun _ => 0)) s ∧
      s.log.length = 2 ∧ Reserved 0 16 s.log := by
  obtain ⟨s, hre, hleng, hst⟩ := exists_reaches State.next Guarded (.init 0 0xff (some fun _ => 0))
      [.ofRequest .loadLockedReq { paddr := 16, contextId := 0 } [0, 0, 0, 0],
        .ofRequest .writeReq { paddr := 0, contextId := 1 } [1, 1, 1, 1]]
      (fun s => s.log.length = 2 ∧ s.mem.stores
        (.ofRequest .storeCondReq { paddr := 16, contextId := 0 } [2, 2, 2, 2]) = true)
      (by decide +kernel)
  exact ⟨s, hre, hleng, storeCond_reserved hre _ ⟨by decide, rfl, rfl⟩ hst⟩

/-- The last access has written to the granule. -/
theorem not_reserved_of_getLast? {c : Int} {g : Addr} {log : List Event}
    (h : (log.getLast?.any fun e => e.stored && e.pkt.touches g && !e.pkt.isLLSC) = true) : ¬ Reserved c g log := by
  obtain ⟨e, hla, he⟩ := (Option.any_eq_true ..).1 h
  obtain ⟨log', rfl⟩ := getLast?_eq_some_iff.1 hla
  simp only [Bool.and_eq_true, Bool.not_eq_true'] at he
  rw [Reserved, since_concat]
  rintro (hli | ⟨-, hsp⟩)
  · exact Bool.false_ne_true (he.2.symm.trans hli.2.2.1)
  · exact hsp.2 he.1

/-- Context 0 load-links at 16, `pkt` is the next access, and context 0 stores at 16. -/
theorem exists_unsound (pkt : Packet) (hrun : (runChecked State.next (fun _ _ => True) (.init 0 0xff (some fun _ => 0))
      [.ofRequest .loadLockedReq { paddr := 16, contextId := 0 } [0, 0, 0, 0], pkt]).any
        (fun s => decide (s.log.map (·.pkt.cmd) = [.loadLockedReq, pkt.cmd] ∧ s.mem.stores
          (.ofRequest .storeCondReq { paddr := 16, contextId := 0 } [2, 2, 2, 2]) = true ∧
        (s.log.getLast?.any fun e => e.stored && e.pkt.touches 16 && !e.pkt.isLLSC) = true)) =
        true) : ∃ s, Reaches State.next (fun _ _ => True) (.init 0 0xff (some fun _ => 0)) s ∧
      s.log.map (·.pkt.cmd) = [.loadLockedReq, pkt.cmd] ∧
      s.mem.stores
        (.ofRequest .storeCondReq { paddr := 16, contextId := 0 } [2, 2, 2, 2]) = true ∧
      ¬ Reserved 0 16 s.log := by
  obtain ⟨s, hre, hcm, hst, hla⟩ := exists_reaches State.next (fun _ _ => True) _ _ _ hrun
  exact ⟨s, hre, hcm, hst, not_reserved_of_getLast? hla⟩

/-- Context 0 load-links at 16, and context 1 writes there: with a swap, or with a write of 32 bytes
at 0.  The store-conditional of context 0 is carried out in both cases. -/
theorem storeCond_unsafe : (∃ s, Reaches State.next (fun _ _ => True) (.init 0 0xff (some fun _ => 0)) s ∧
      s.log.map (·.pkt.cmd) = [.loadLockedReq, .swapReq] ∧
      s.mem.stores
        (.ofRequest .storeCondReq { paddr := 16, contextId := 0 } [2, 2, 2, 2]) = true ∧
      ¬ Reserved 0 16 s.log) ∧
    (∃ s, Reaches State.next (fun _ _ => True) (.init 0 0xff (some fun _ => 0)) s ∧
      s.log.map (·.pkt.cmd) = [.loadLockedReq, .writeReq] ∧
      s.mem.stores
        (.ofRequest .storeCondReq { paddr := 16, contextId := 0 } [2, 2, 2, 2]) = true ∧
      ¬ Reserved 0 16 s.log) :=
  ⟨exists_unsound (.ofRequest .swapReq { paddr := 16, contextId := 1 } [1, 1, 1, 1])
      (by decide +kernel),
    exists_unsound (.ofRequest .writeReq { paddr := 0, contextId := 1 } (List.replicate 32 1))
      (by decide +kernel)⟩

end GuardianCouncil.AbstractMemory
