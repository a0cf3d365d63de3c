import GuardianCouncil.Cache.MSHR

/-!
# The flags of a list of targets

A list of targets has a flag for each of three questions: does a target need a writable block, is one an upgrade, and is
the block to be allocated?  `populateFlags` computes them from the targets.  Most functions of an MSHR keep them up to
date, or compute them again when targets are moved.  `promoteWritable` moves the deferred targets and sets one of the
three.
-/

namespace GuardianCouncil.Cache

open Fallible Mem Function

namespace TargetList

variable {l l' : TargetList}

/-- A target other than a snoop answers a question with yes. -/
def asks (f : Target → Bool) (ts : List Target) : Bool := ts.any fun t => t.source ≠ .fromSnoop && f t

def writes (ts : List Target) : Bool := asks (·.pkt.cmd.needsWritable) ts

def upgrades (ts : List Target) : Bool := asks (fun t => t.pkt.cmd.isUpgrade || t.pkt.cmd = .storeCondReq) ts

def allocates (ts : List Target) : Bool := asks (·.allocOnFill) ts

/-- The flags are those that `populateFlags` computes. -/
def Exact (l : TargetList) : Prop := l.populateFlags = l

theorem foldl_updateFlags (ts : List Target) (l : TargetList) :
    ts.foldl (fun l t => l.updateFlags t.pkt t.source t.allocOnFill) l =
      { list := l.list
        needsWritable := l.needsWritable || writes ts
        hasUpgrade := l.hasUpgrade || upgrades ts
        allocOnFill := l.allocOnFill || allocates ts } := by
  induction ts generalizing l with
  | nil => simp [writes, upgrades, allocates, asks]
  | cons t ts ih =>
    rw [List.foldl_cons, ih, updateFlags]
    by_cases hsn : t.source = .fromSnoop <;> simp [writes, upgrades, allocates, asks, hsn, Bool.or_assoc]

theorem exact_iff : l.Exact ↔
    l.needsWritable = writes l.list ∧ l.hasUpgrade = upgrades l.list ∧ l.allocOnFill = allocates l.list := by
  rw [Exact, populateFlags, foldl_updateFlags]
  rcases l with ⟨list, needsWritable, hasUpgrade, allocOnFill⟩
  simp only [resetFlags, Bool.false_or, mk.injEq, true_and]
  exact ⟨fun h => ⟨h.1.symm, h.2.1.symm, h.2.2.symm⟩, fun h => ⟨h.1.symm, h.2.1.symm, h.2.2.symm⟩⟩

theorem exact_nil : ({} : TargetList).Exact := rfl

theorem exact_populateFlags : l.populateFlags.Exact := by
  rw [exact_iff, populateFlags, foldl_updateFlags]
  simp [resetFlags]

theorem asks_append (f : Target → Bool) (ts ts' : List Target) : asks f (ts ++ ts') = (asks f ts || asks f ts') :=
  List.any_append

theorem Exact.add (h : l.Exact) (pkt : Packet) (readyTime order : ℕ) (source : Source) (markPending allocOnFill : Bool) :
    (l.add pkt readyTime order source markPending allocOnFill).Exact := by
  rw [exact_iff] at h ⊢
  simp only [TargetList.add, updateFlags, writes, upgrades, allocates, asks_append] at h ⊢
  by_cases hsn : source = .fromSnoop <;> simp [hsn, h, asks]

theorem Exact.clearDownstreamPending (h : l.Exact) : l.clearDownstreamPending.Exact := by
  rw [exact_iff] at h ⊢
  simpa [TargetList.clearDownstreamPending, writes, upgrades, allocates, asks, comp_def] using h

/-- What takes the place of an upgrade needs a writable block as well. -/
theorem replaceUpgradeCmd_flags (cmd : MemCmd) : (replaceUpgradeCmd cmd).needsWritable = cmd.needsWritable ∧
    ((cmd.isRequest = true) → ((replaceUpgradeCmd cmd).isUpgrade || replaceUpgradeCmd cmd = .storeCondReq) = false) := by
  cases cmd <;> decide

theorem Exact.replaceUpgrades (h : l.Exact) : l.replaceUpgrades.Exact := by
  rw [TargetList.replaceUpgrades]
  split
  · obtain ⟨hwr, -, hallocates⟩ := exact_iff.1 h
    have hn : ∀ t : Target, _ := fun t => (replaceUpgradeCmd_flags t.pkt.cmd).2 t.pkt.isRequest
    refine exact_iff.2 ⟨hwr.trans ?_, ?_, hallocates.trans ?_⟩
    · simp [writes, asks, comp_def, replaceUpgrade, (replaceUpgradeCmd_flags _).1]
    · simp [upgrades, asks, comp_def, replaceUpgrade, hn]
    · simp [allocates, asks, comp_def]
  · exact h

theorem Exact.snoopUpgrades (h : l.Exact) (pkt : Packet) : (l.snoopUpgrades pkt).Exact := by
  rw [TargetList.snoopUpgrades]
  split
  · exact h.replaceUpgrades
  · exact h

end TargetList

namespace MSHR

/-- The functions of an MSHR, and what the MSHR below and the cache set. -/
inductive Call
  | allocate (miss : Miss)
  | allocateTarget (pkt : Packet) (whenReady order : ℕ) (allocOnFill : Bool)
  | handleSnoop (pkt : Packet) (order curTick : ℕ)
  | markInService (pendingModifiedResp : Bool)
  | extractServiceableTargets (cmd : MemCmd)
  | promoteDeferredTargets (curTick : ℕ)
  | promoteWritable
  | deallocate
  | clearDownstreamPending
  | setFlags (downstreamPending isForward : Bool)

def call (m : MSHR) : Call → Except Failure MSHR
  | .allocate miss => m.allocate miss
  | .allocateTarget pkt whenReady order allocOnFill => m.allocateTarget pkt whenReady order allocOnFill
  | .handleSnoop pkt order curTick => (m.handleSnoop pkt order curTick).map Prod.snd
  | .markInService pendingModifiedResp => m.markInService pendingModifiedResp
  | .extractServiceableTargets cmd => (m.extractServiceableTargets cmd).map Prod.snd
  | .promoteDeferredTargets curTick => .ok (m.promoteDeferredTargets curTick).2
  | .promoteWritable => m.promoteWritable
  | .deallocate => m.deallocate
  | .clearDownstreamPending => m.clearDownstreamPending
  | .setFlags downstreamPending isForward => .ok { m with downstreamPending, isForward }

/-- The flags of both lists are exact. -/
structure Exact (m : MSHR) : Prop where
  targets : m.targets.Exact
  deferredTargets : m.deferredTargets.Exact

/-- When the deferred targets are moved by `promoteWritable`, they ask for nothing more than the targets do, but for a
writable block. -/
def Covers (m : MSHR) : Call → Prop
  | .promoteWritable => m.deferredTargets.needsWritable = true → m.postInvalidate = false → m.postDowngrade = false →
    (m.deferredTargets.hasUpgrade = true → m.targets.hasUpgrade = true) ∧
      (m.deferredTargets.allocOnFill = true → m.targets.allocOnFill = true)
  | _ => True

instance (m : MSHR) : DecidablePred m.Covers
  | .promoteWritable => inferInstanceAs (Decidable (_ → _ → _ → _ ∧ _))
  | .allocate _ | .allocateTarget .. | .handleSnoop .. | .markInService _ | .extractServiceableTargets _
  | .promoteDeferredTargets _ | .deallocate | .clearDownstreamPending | .setFlags .. => isTrue trivial

variable {m m' : MSHR}

theorem Exact.handleSnoop (h : m.Exact) {pkt : Packet} {order curTick : ℕ} {snooped : Snooped}
    (hs : m.handleSnoop pkt order curTick = .ok (snooped, m')) : m'.Exact := by
  have hdeferred := h.deferredTargets.snoopUpgrades pkt
  rw [MSHR.handleSnoop] at hs
  dsimp only at hs
  split_ifs at hs with _ hbe hpo
  · cases hs
    exact ⟨h.targets.snoopUpgrades pkt, hdeferred⟩
  · cases hs
    exact ⟨h.targets, hdeferred⟩
  · rw [recordSnoop] at hs
    rw [check_eq_ok] at hs
    cases hs.2
    refine ⟨?_, hdeferred⟩
    split
    · exact h.targets.add ..
    · exact h.targets

theorem Exact.extractServiceableTargets (h : m.Exact) {cmd : MemCmd} {ready : TargetList}
    (hs : m.extractServiceableTargets cmd = .ok (ready, m')) : m'.Exact := by
  rw [MSHR.extractServiceableTargets] at hs
  split_ifs at hs
  · split at hs
    · cases hs
    · split_ifs at hs
      cases hs
      exact ⟨TargetList.exact_populateFlags, h.deferredTargets⟩
  · cases hs
    exact ⟨TargetList.exact_populateFlags, h.deferredTargets⟩

theorem Exact.promoteDeferredTargets (h : m.Exact) (curTick : ℕ) : (m.promoteDeferredTargets curTick).2.Exact := by
  rw [MSHR.promoteDeferredTargets]
  split
  · exact h
  refine ⟨?_, TargetList.exact_nil⟩
  dsimp only [promotedTargets]
  split
  · exact h.deferredTargets
  · exact TargetList.exact_populateFlags

theorem Exact.promoteWritable_iff (h : m.Exact) (hs : m.promoteWritable = .ok m') :
    m'.Exact ↔ m.Covers .promoteWritable := by
  rw [MSHR.promoteWritable] at hs
  split_ifs at hs with hnee hse hpo hwri hpe
  · cases hs
    exact iff_of_true h fun _ hinv hd => by simp [hinv, hd] at hpo
  · -- the deferred targets are moved
    cases hs
    have hbo := TargetList.exact_iff.1 h.targets
    have hm := TargetList.exact_iff.1 h.deferredTargets.clearDownstreamPending
    have htargets : ∀ m' : MSHR, m'.deferredTargets = {} → (m'.Exact ↔ m'.targets.Exact) := fun m' hnil =>
      ⟨fun h' => h'.targets, fun h' => ⟨h', hnil ▸ TargetList.exact_nil⟩⟩
    have hwr : TargetList.writes m.deferredTargets.clearDownstreamPending.list = true := hm.1.symm.trans hnee
    rw [htargets _ rfl, TargetList.exact_iff, Covers]
    dsimp only [TargetList.writes, TargetList.upgrades, TargetList.allocates] at hbo hm hwr ⊢
    simp only [TargetList.asks_append, ← hbo.2.1, ← hbo.2.2, ← hm.2.1, ← hm.2.2, hwr, Bool.or_true]
    have hnot : m.postInvalidate = false ∧ m.postDowngrade = false := by simpa using hpo
    simp only [hnee, hnot, TargetList.clearDownstreamPending, true_and, forall_const]
    cases m.targets.hasUpgrade <;> cases m.targets.allocOnFill <;> simp
  · cases hs
    exact iff_of_true h fun hn => absurd hn hnee

theorem Exact.call_iff (h : m.Exact) {c : Call} (hs : m.call c = .ok m') : m'.Exact ↔ m.Covers c := by
  cases c with
  | promoteWritable => exact h.promoteWritable_iff hs
  | allocate miss =>
    rw [call, MSHR.allocate, check_eq_ok] at hs
    dsimp only at hs
    rw [check_eq_ok] at hs
    cases hs.2.2
    exact iff_of_true ⟨h.targets.add .., h.deferredTargets⟩ trivial
  | allocateTarget pkt whenReady order allocOnFill =>
    rw [call, MSHR.allocateTarget, check_eq_ok, check_eq_ok] at hs
    obtain ⟨-, -, hs⟩ := hs
    split at hs
    · cases hs
      exact iff_of_true ⟨h.targets, h.deferredTargets.add ..⟩ trivial
    · cases hs
      exact iff_of_true ⟨h.targets.add .., h.deferredTargets⟩ trivial
  | handleSnoop pkt order curTick =>
    rcases hsn : m.handleSnoop pkt order curTick with e | ⟨snooped, m₁⟩
    · simp [call, hsn, Except.map] at hs
    · rw [call, hsn] at hs
      cases hs
      exact iff_of_true (h.handleSnoop hsn) trivial
  | markInService pendingModifiedResp =>
    rw [call, MSHR.markInService, check_eq_ok] at hs
    cases hs.2
    refine iff_of_true ⟨?_, h.deferredTargets⟩ trivial
    dsimp only
    split
    · exact h.targets
    · exact h.targets.clearDownstreamPending
  | extractServiceableTargets cmd =>
    rcases hex : m.extractServiceableTargets cmd with e | ⟨ready, m₁⟩
    · simp [call, hex, Except.map] at hs
    · rw [call, hex] at hs
      cases hs
      exact iff_of_true (h.extractServiceableTargets hex) trivial
  | promoteDeferredTargets curTick =>
    cases hs
    exact iff_of_true (h.promoteDeferredTargets curTick) trivial
  | deallocate =>
    rw [call, MSHR.deallocate, check_eq_ok, check_eq_ok] at hs
    obtain ⟨hem, -, hs⟩ := hs
    have hnil : m.targets.list = [] := by simpa [hasTargets] using hem
    cases hs
    refine iff_of_true ⟨?_, h.deferredTargets⟩ trivial
    simp [TargetList.exact_iff, TargetList.resetFlags, hnil, TargetList.writes, TargetList.upgrades,
      TargetList.allocates, TargetList.asks]
  | clearDownstreamPending =>
    rw [call, MSHR.clearDownstreamPending, check_eq_ok] at hs
    cases hs.2
    exact iff_of_true ⟨h.targets.clearDownstreamPending, h.deferredTargets⟩ trivial
  | setFlags downstreamPending isForward =>
    cases hs
    exact iff_of_true ⟨h.targets, h.deferredTargets⟩ trivial

/-- While `promoteWritable` only moves targets that ask for nothing new, the flags are exact; a call keeps them exact if
and only if this is so. -/
theorem flags_exact (h : Reaches call Covers {} m) :
    (m.targets.populateFlags = m.targets ∧ m.deferredTargets.populateFlags = m.deferredTargets) ∧
    ∀ c m', m.call c = .ok m' →
      ((m'.targets.populateFlags = m'.targets ∧ m'.deferredTargets.populateFlags = m'.deferredTargets) ↔ m.Covers c) := by
  have hex : m.Exact := h.invariant (P := Exact) ⟨TargetList.exact_nil, TargetList.exact_nil⟩
    fun _ ih hok hs => (ih.call_iff hs).2 hok
  refine ⟨⟨hex.targets, hex.deferredTargets⟩, fun c m' hs => ?_⟩
  rw [← hex.call_iff hs]
  exact ⟨fun h => ⟨h.1, h.2⟩, fun h => ⟨h.targets, h.deferredTargets⟩⟩

def readMiss : Miss :=
  { blkAddr := 64, blkSize := 64, target := { cmd := .readReq, isRequest := Eq.refl true }, whenReady := 0, order := 1,
    allocOnFill := true }

/-- A write waits behind the read, and is moved when the block is writable. -/
theorem flags_exact_write : ∃ m, Reaches call Covers {} m ∧ m.targets.list.length = 2 ∧
    m.targets.populateFlags = m.targets := by
  obtain ⟨m, h, hm⟩ := exists_reaches call Covers {}
    [.allocate readMiss, .markInService false, .allocateTarget { cmd := .writeReq } 0 2 true, .promoteWritable]
    (fun m => m.targets.list.length = 2) (by decide +kernel)
  exact ⟨m, h, hm, (flags_exact h).1.1⟩

/-- An upgrade waits behind the read, and is moved without its flag. -/
theorem flags_stale : ∃ m, Reaches call (fun _ _ => True) {} m ∧
    m.targets.hasUpgrade = false ∧ m.targets.populateFlags.hasUpgrade = true :=
  exists_reaches call (fun _ _ => True) {}
    [.allocate readMiss, .markInService false, .allocateTarget { cmd := .upgradeReq } 0 2 true, .promoteWritable]
    _ (by decide +kernel)

end MSHR
end GuardianCouncil.Cache
