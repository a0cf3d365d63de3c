import GuardianCouncil.Cache.MSHR
import GuardianCouncil.Lib.Staged

/-!
# The targets of an MSHR

The targets of an MSHR and its deferred targets are the two stages of a queue: a target is added to
one of the two lists, deferred targets are moved behind the others, and targets are extracted from the
first list, all together or, by an invalidating response, the first one with the snoops.  Each function
of an MSHR makes such moves, in the order in which the cache calls them (`moves_exec`).
-/

namespace GuardianCouncil.Cache

open Fallible Mem Staged List

/-! ## Runs -/

/-- What a target is known by. -/
abbrev Key := Nat × Source

def Target.key (t : Target) : Key := (t.order, t.source)

def TargetList.keys (l : TargetList) : List Key := l.list.map Target.key

open TargetList

/-- An MSHR, with the targets added and the lists extracted so far. -/
structure Record where
  mshr : MSHR := {}
  isAllocated : Bool := false
  /-- The cache's counter, at least. -/
  nextOrder : Nat := 0
  added : List Key := []
  extracted : List (List Key) := []

/-- What the cache does with an MSHR. -/
inductive Op
  | allocate (miss : Miss)
  | allocateTarget (pkt : Packet) (whenReady order : Nat) (allocOnFill : Bool)
  | handleSnoop (pkt : Packet) (order curTick : Nat)
  | setForward (isForward : Bool)
  | markInService (pendingModifiedResp : Bool)
  /-- `TargetList::add` of the MSHR below. -/
  | setDownstreamPending
  | clearDownstreamPending
  | recvTimingResp (cmd : MemCmd) (hasSharers : Bool) (curTick : Nat)

namespace Record

variable (r : Record)

/-- The target that a call adds.  A request always becomes one.  A snoop does if it comes after the
request of the MSHR and no invalidation before it, and the MSHR has to answer it or pass it on. -/
def newTarget : Op → Option Key
  | .allocate miss => some (miss.order, if miss.target.cmd = .hardPFReq then .fromPrefetcher else .fromCPU)
  | .allocateTarget _ _ order _ => some (order, .fromCPU)
  | .handleSnoop pkt order _ =>
    if r.mshr.inService ∧ ¬ (pkt.isExpressSnoop ∧ r.mshr.downstreamPending) ∧ ¬ r.mshr.postInvalidate ∧
      (r.mshr.pendingModified ∨ pkt.cmd.isInvalidate) then some (order, .fromSnoop) else none
  | _ => none

/-- The MSHR after a call with an order number. -/
def append (op : Op) (order : Nat) (m : MSHR) : Record :=
  { r with
    mshr := m
    nextOrder := order + 1
    added := r.added ++ (r.newTarget op).toList }

def exec (r : Record) (op : Op) : Except Failure Record :=
  match op with
  | .allocate miss =>
    if r.mshr.getNumTargets ≠ 0 then .error .hasTargets
    else do
      let m ← r.mshr.allocate miss
      .ok { r.append op miss.order m with isAllocated := true }
  | .allocateTarget pkt whenReady order allocOnFill => do
    let m ← r.mshr.allocateTarget pkt whenReady order allocOnFill
    .ok (r.append op order m)
  | .handleSnoop pkt order curTick => do
    let (_, m) ← r.mshr.handleSnoop pkt order curTick
    .ok (r.append op order m)
  | .setForward isForward => .ok { r with mshr := { r.mshr with isForward := isForward } }
  | .markInService pendingModifiedResp => do
    let m ← r.mshr.markInService pendingModifiedResp
    .ok { r with mshr := m }
  | .setDownstreamPending =>
    if r.mshr.downstreamPending then .error .downstreamPending
    else .ok { r with mshr := { r.mshr with downstreamPending := true } }
  | .clearDownstreamPending => do
    let m ← r.mshr.clearDownstreamPending
    .ok { r with mshr := m }
  | .recvTimingResp cmd hasSharers curTick => do
    let (extracted, remains, m) ← r.mshr.recvTimingResp cmd hasSharers curTick
    .ok { r with
      mshr := m
      isAllocated := remains = .pending
      extracted := r.extracted ++ [extracted.map Target.key] }

/-- The order in which the cache calls the functions.  The order numbers grow, an MSHR is allocated
while it is free and used while it is not, and a response arrives while the request is in service. -/
def Allows (r : Record) : Op → Prop
  | .allocate miss => r.isAllocated = false ∧ r.nextOrder ≤ miss.order
  | .allocateTarget _ _ order _ => r.isAllocated = true ∧ r.nextOrder ≤ order
  | .handleSnoop _ order _ => r.isAllocated = true ∧ r.nextOrder ≤ order
  | .recvTimingResp _ _ _ => r.isAllocated = true ∧ r.mshr.inService = true
  | _ => r.isAllocated = true

instance : DecidablePred (Allows r)
  | .allocate _ | .allocateTarget .. | .handleSnoop .. | .recvTimingResp .. => inferInstanceAs (Decidable (_ ∧ _))
  | .setForward _ | .markInService _ | .setDownstreamPending | .clearDownstreamPending =>
    inferInstanceAs (Decidable (_ = true))

end Record

/-! ## Keys -/

namespace TargetList

variable (l : TargetList)

@[simp] theorem list_updateFlags (pkt : Packet) (source : Source) (allocOnFill : Bool) :
    (l.updateFlags pkt source allocOnFill).list = l.list := by
  rw [updateFlags]
  split <;> rfl

@[simp] theorem list_populateFlags : l.populateFlags.list = l.list := by
  -- setting flags does not change the list, whatever targets they are of
  have h : ∀ (ts : List Target) (l : TargetList),
      (ts.foldl (fun l t => l.updateFlags t.pkt t.source t.allocOnFill) l).list = l.list := by
    intro ts
    induction ts with
    | nil => exact fun _ => rfl
    | cons t ts ih => exact fun l => (ih _).trans (list_updateFlags l _ _ _)
  exact h l.list l.resetFlags

@[simp] theorem keys_populateFlags : l.populateFlags.keys = l.keys := by
  rw [keys, keys, list_populateFlags]

@[simp] theorem keys_add (pkt : Packet) (readyTime order : Nat) (source : Source) (markPending allocOnFill : Bool) :
    (l.add pkt readyTime order source markPending allocOnFill).keys = l.keys ++ [(order, source)] := by
  simp [add, keys, Target.key]

@[simp] theorem keys_replaceUpgrades : l.replaceUpgrades.keys = l.keys := by
  rw [replaceUpgrades]
  split
  · simp only [keys, map_map]
    rfl
  · rfl

@[simp] theorem keys_snoopUpgrades (pkt : Packet) : (l.snoopUpgrades pkt).keys = l.keys := by
  rw [snoopUpgrades]
  split
  · exact keys_replaceUpgrades l
  · rfl

@[simp] theorem keys_clearDownstreamPending : l.clearDownstreamPending.keys = l.keys := by
  simp only [keys, clearDownstreamPending, map_map]
  rfl

end TargetList

/-! ## Moves -/

def IsSnoop (k : Key) : Prop := k.2 = .fromSnoop
deriving Decidable

namespace MSHR

/-- The targets as a queue in two stages. -/
def stages (m : MSHR) (added : List Key) (taken : List (List Key)) : Stages Key :=
  ⟨added, taken, m.targets.keys, m.deferredTargets.keys⟩

variable {m m' : MSHR} {added : List Key} {taken : List (List Key)}

/-- Before it is in service, an MSHR defers nothing. -/
def Idle (m : MSHR) : Prop := m.inService = false → m.deferredTargets.list = []

/-- Deferred targets with the same keys. -/
theorem Idle.congr (h : m.Idle) (hse : m'.inService = m.inService)
    (hdeferred : m'.deferredTargets.keys = m.deferredTargets.keys) : m'.Idle := by
  intro hout
  rw [TargetList.keys, TargetList.keys, h (hse ▸ hout)] at hdeferred
  exact map_eq_nil_iff.1 hdeferred

/-- What a function may add: nothing, a target, or a deferred target.  While others are deferred, only
snoops become targets at once. -/
inductive Adds (m m' : MSHR) : Option Key → Prop
  | none (htargets : m'.targets.keys = m.targets.keys)
    (hdeferred : m'.deferredTargets.keys = m.deferredTargets.keys) : Adds m m' none
  | target (k : Key) (hk : IsSnoop k ∨ m.deferredTargets.list = [])
    (htargets : m'.targets.keys = m.targets.keys ++ [k])
    (hdeferred : m'.deferredTargets.keys = m.deferredTargets.keys) : Adds m m' (some k)
  | deferred (k : Key) (htargets : m'.targets.keys = m.targets.keys)
    (hdeferred : m'.deferredTargets.keys = m.deferredTargets.keys ++ [k]) : Adds m m' (some k)

variable {r : Record}

theorem adds_allocate {miss : Miss} (hnum : m.getNumTargets = 0) (h : m.allocate miss = .ok m') :
    Adds m m' (r.newTarget (.allocate miss)) ∧ m'.Idle := by
  have hnil : m.deferredTargets.list = [] := by
    rw [getNumTargets] at hnum
    exact length_eq_zero_iff.1 (by omega)
  obtain ⟨-, h⟩ := check_eq_ok.1 h
  obtain ⟨-, h⟩ := check_eq_ok.1 h
  cases h
  exact ⟨.target _ (.inr hnil) (keys_add ..) rfl, fun _ => hnil⟩

variable {order curTick : Nat} {pkt : Packet} {cmd : MemCmd}

theorem adds_allocateTarget {whenReady : Nat} {allocOnFill : Bool} (hid : m.Idle)
    (h : m.allocateTarget pkt whenReady order allocOnFill = .ok m') :
    Adds m m' (r.newTarget (.allocateTarget pkt whenReady order allocOnFill)) ∧ m'.Idle := by
  obtain ⟨-, h⟩ := check_eq_ok.1 h
  obtain ⟨-, h⟩ := check_eq_ok.1 h
  split at h
  · rename_i hd
    cases h
    rw [defersTarget, Bool.and_eq_true] at hd
    refine ⟨.deferred _ rfl (keys_add ..), fun hout => ?_⟩
    rw [hout] at hd
    cases hd.1
  · rename_i hd
    cases h
    have hnil : m.deferredTargets.list = [] := by
      rcases hs : m.inService with - | -
      · exact hid hs
      · simp only [defersTarget, hs, Bool.true_and, Bool.or_eq_true, not_or] at hd
        simpa using hd.1.1
    exact ⟨.target _ (.inr hnil) (keys_add ..) rfl, fun _ => hnil⟩

theorem adds_handleSnoop {snooped : Snooped} (hid : r.mshr.Idle)
    (h : r.mshr.handleSnoop pkt order curTick = .ok (snooped, m')) :
    Adds r.mshr m' (r.newTarget (.handleSnoop pkt order curTick)) ∧ m'.Idle := by
  have hdeferred := r.mshr.deferredTargets.keys_snoopUpgrades pkt
  obtain ⟨-, h⟩ := check_eq_ok.1 h
  dsimp only at h
  split at h
  · rename_i hbefore
    simp only [Bool.or_eq_true, Bool.not_eq_true', Bool.and_eq_true] at hbefore
    cases h
    have hnew : r.newTarget (.handleSnoop pkt order curTick) = none := by
      refine if_neg fun hnew => ?_
      rcases hbefore with hout | hexpress
      · exact absurd (hout.symm.trans hnew.1) (by decide)
      · exact hnew.2.1 hexpress
    rw [hnew]
    exact ⟨.none (r.mshr.targets.keys_snoopUpgrades pkt) hdeferred, hid.congr rfl hdeferred⟩
  · rename_i hafter
    simp only [Bool.or_eq_true, Bool.not_eq_true', Bool.and_eq_true, not_or, Bool.not_eq_false] at hafter
    split at h
    · rename_i hpost
      cases h
      rw [Record.newTarget, if_neg fun hnew => hnew.2.2.1 hpost]
      exact ⟨.none rfl hdeferred, hid.congr rfl hdeferred⟩
    · rename_i hpost
      obtain ⟨-, h⟩ := check_eq_ok.1 h
      cases h
      refine ⟨?_, hid.congr rfl hdeferred⟩
      by_cases hta : r.mshr.pendingModified || pkt.cmd.isInvalidate
      · have hnew : r.newTarget (.handleSnoop pkt order curTick) = some (order, .fromSnoop) :=
          if_pos ⟨hafter.1, hafter.2, hpost, Bool.or_eq_true _ _ ▸ hta⟩
        rw [hnew]
        exact .target _ (.inl rfl) (by simp [hta]) hdeferred
      · have hnew : r.newTarget (.handleSnoop pkt order curTick) = none :=
          if_neg fun hnew => hta (Bool.or_eq_true _ _ ▸ hnew.2.2.2)
        rw [hnew]
        exact .none (by simp [hta]) hdeferred

/-- The deferred targets move up behind the others. -/
theorem moves_of_advance (htargets : m'.targets.keys = m.targets.keys ++ m.deferredTargets.keys)
    (hdeferred : m'.deferredTargets.keys = []) : Moves IsSnoop (m.stages added taken) (m'.stages added taken) := by
  have hst : m'.stages added taken = { m.stages added taken with
      front := m.targets.keys ++ m.deferredTargets.keys, back := [] } := by
    rw [stages, htargets, hdeferred]
    rfl
  rw [hst]
  exact .single .advance

theorem moves_promoteWritable (h : m.promoteWritable = .ok m') :
    Moves IsSnoop (m.stages added taken) (m'.stages added taken) := by
  rw [promoteWritable] at h
  split at h
  · obtain ⟨-, h⟩ := check_eq_ok.1 h
    split at h
    · cases h
      exact .refl
    obtain ⟨-, h⟩ := check_eq_ok.1 h
    obtain ⟨-, h⟩ := check_eq_ok.1 h
    cases h
    refine moves_of_advance ?_ rfl
    rw [← keys_clearDownstreamPending m.deferredTargets]
    exact map_append
  · cases h
    exact .refl

/-- All targets are extracted, or the first one with the snoops. -/
theorem moves_extractServiceableTargets {extracted : TargetList}
    (h : m.extractServiceableTargets cmd = .ok (extracted, m')) :
    Moves IsSnoop (m.stages added taken) (m'.stages added (taken ++ [extracted.keys])) := by
  rw [extractServiceableTargets] at h
  split at h
  · split at h
    · cases h
    rename_i t rest hli
    obtain ⟨hcpu, h⟩ := check_eq_ok.1 h
    obtain ⟨hpr, h⟩ := check_eq_ok.1 h
    cases h
    refine .single ?_
    rw [not_not] at hcpu
    -- what is not from the CPU is a snoop
    have hsource : ∀ t ∈ rest, t.source ≠ .fromCPU ↔ IsSnoop t.key := by
      intro t ht
      rcases hs : t.source <;> simp_all [IsSnoop, Target.key]
    have hta : (t :: rest.filter fun t => t.source ≠ .fromCPU).map Target.key =
        t.key :: (rest.map Target.key).filter (IsSnoop ·) := by
      rw [map_cons, filter_map]
      refine congrArg _ (congrArg _ (filter_congr fun t ht => ?_))
      exact decide_eq_decide.2 (hsource t ht)
    have hlef : (rest.filter fun t => t.source = .fromCPU).map Target.key =
        (rest.map Target.key).filter (¬ IsSnoop ·) := by
      rw [filter_map]
      refine congrArg _ (filter_congr fun t ht => ?_)
      exact decide_eq_decide.2 (not_not.symm.trans (not_congr (hsource t ht)))
    have hm : Move IsSnoop (m.stages added taken) _ :=
      .takeFirst t.key (rest.map Target.key) (congrArg (List.map Target.key) hli)
        (by simp [IsSnoop, Target.key, hcpu])
    rw [← hta, ← hlef] at hm
    simpa [stages, TargetList.keys] using hm
  · cases h
    exact .single .takeAll

theorem keys_promotedTargets : m.promotedTargets.keys = m.targets.keys ++ m.deferredTargets.keys := by
  rw [promotedTargets]
  split_ifs with hem
  · rw [TargetList.keys, TargetList.keys, isEmpty_iff.1 hem]
    rfl
  · rw [keys_populateFlags]
    exact map_append

/-- What is left takes the place of what has been extracted. -/
theorem promoteDeferredTargets_eq_true (h : m.promoteDeferredTargets curTick = (true, m')) :
    m'.deferredTargets.list = [] ∧ Moves IsSnoop (m.stages added taken) (m'.stages added taken) := by
  rw [promoteDeferredTargets] at h
  split at h
  · cases h
  · obtain ⟨-, rfl⟩ := Prod.mk.inj h
    exact ⟨rfl, moves_of_advance keys_promotedTargets rfl⟩

theorem promoteDeferredTargets_eq_false (h : m.promoteDeferredTargets curTick = (false, m')) :
    m' = m ∧ m.deferredTargets.list = [] := by
  rw [promoteDeferredTargets] at h
  split at h
  · rename_i hnil
    have hke := keys_promotedTargets (m := m)
    rw [TargetList.keys, hnil, map_nil] at hke
    exact ⟨(Prod.mk.inj h).2.symm, map_eq_nil_iff.1 (append_eq_nil_iff.1 hke.symm).2⟩
  · cases h

theorem moves_serveTargets : ∀ {ts : List Target} {m : MSHR}, serveTargets ts m = .ok m' →
    Moves IsSnoop (m.stages added taken) (m'.stages added taken)
  | [], m, h => by
    cases h
    exact .refl
  | t :: ts, m, h => by
    rw [serveTargets] at h
    split at h
    · obtain ⟨m₁, hpr, h⟩ := bind_eq_ok.1 h
      exact (moves_promoteWritable hpr).trans (moves_serveTargets h)
    · exact moves_serveTargets h

/-- **A response.**  Nothing is deferred afterwards. -/
theorem moves_recvTimingResp {hasSharers : Bool} {extracted : List Target} {remains : Remains}
    (h : m.recvTimingResp cmd hasSharers curTick = .ok (extracted, remains, m')) :
    m'.deferredTargets.list = [] ∧ Moves IsSnoop (m.stages added taken)
      (m'.stages added (taken ++ [extracted.map Target.key])) := by
  obtain ⟨m₁, hwr, h⟩ := bind_eq_ok.1 h
  obtain ⟨⟨list, m₂⟩, hex, h⟩ := bind_eq_ok.1 h
  obtain ⟨m₃, hse, h⟩ := bind_eq_ok.1 h
  have hm₁ : Moves IsSnoop (m.stages added taken) (m₁.stages added taken) := by
    obtain ⟨-, hwr⟩ := check_eq_ok.1 hwr
    split at hwr
    · cases hwr
      exact .refl
    · exact moves_promoteWritable hwr
  have hm₃ := (hm₁.trans (moves_extractServiceableTargets hex)).trans (moves_serveTargets hse)
  rcases hpr : m₃.promoteDeferredTargets curTick with ⟨_ | _, m₄⟩ <;> rw [hpr] at h
  · obtain ⟨rfl, hn⟩ := promoteDeferredTargets_eq_false hpr
    obtain ⟨m₅, hd, h⟩ := bind_eq_ok.1 h
    obtain ⟨-, hd⟩ := check_eq_ok.1 hd
    obtain ⟨-, hd⟩ := check_eq_ok.1 hd
    cases hd
    obtain ⟨rfl, -, rfl⟩ : list.list = extracted ∧ _ ∧ _ := by simpa using h
    exact ⟨hn, hm₃⟩
  · obtain ⟨-, h⟩ := check_eq_ok.1 h
    obtain ⟨rfl, -, rfl⟩ : list.list = extracted ∧ _ ∧ _ := by simpa using h
    obtain ⟨hn, hm₄⟩ := promoteDeferredTargets_eq_true hpr
    exact ⟨hn, hm₃.trans hm₄⟩

end MSHR

/-! ## Runs -/

namespace Record

variable {r r' : Record}

def stages (r : Record) : Stages Key := r.mshr.stages r.added r.extracted

/-- The order numbers are all different. -/
structure Numbered (r : Record) : Prop where
  nodup : (r.added.map Prod.fst).Nodup
  lt : ∀ k ∈ r.added, k.1 < r.nextOrder

variable {order : Nat} {m : MSHR}

/-- A target that is added has a new number. -/
theorem Numbered.append {op : Op} (h : Numbered r) (hle : r.nextOrder ≤ order)
    (hop : ∀ k ∈ r.newTarget op, k.1 = order) : Numbered (r.append op order m) := by
  refine ⟨?_, fun k hk => ?_⟩
  · rw [Record.append, map_append, nodup_append]
    refine ⟨h.nodup, ?_, fun n hn n' hn' => ?_⟩
    · rcases r.newTarget op with - | k
      · exact nodup_nil
      · exact nodup_singleton _
    · obtain ⟨k, hk, rfl⟩ := mem_map.1 hn
      obtain ⟨k', hk', rfl⟩ := mem_map.1 hn'
      have := h.lt k hk
      have := hop k' (Option.mem_toList.1 hk')
      omega
  · have hlt : k.1 < order + 1 := by
      rcases mem_append.1 hk with hk | hk
      · have := h.lt k hk
        omega
      · have := hop k (Option.mem_toList.1 hk)
        omega
    exact hlt

structure Step (r r' : Record) : Prop where
  moves : Moves IsSnoop r.stages r'.stages
  idle : r'.mshr.Idle
  numbered : Numbered r → Numbered r'

/-- What is added enters the queue. -/
theorem step_append {op : Op} (ha : r.mshr.Adds m (r.newTarget op)) (hid : m.Idle)
    (hle : r.nextOrder ≤ order) (hop : ∀ k ∈ r.newTarget op, k.1 = order) : Step r (r.append op order m) := by
  refine ⟨?_, hid, fun hn => hn.append hle hop⟩
  rw [stages, stages, MSHR.stages, MSHR.stages, append]
  generalize r.newTarget op = new at ha
  rcases ha with ⟨htargets, hdeferred⟩ | ⟨k, hk, htargets, hdeferred⟩ | ⟨k, htargets, hdeferred⟩ <;>
    rw [htargets, hdeferred]
  · rw [Option.toList_none, append_nil]
  · refine .single (Move.enterFront k (hk.imp_right fun hnil => ?_))
    show r.mshr.deferredTargets.list.map Target.key = []
    rw [hnil, map_nil]
  · exact .single (Move.enterBack k)

/-- The targets stay where they are. -/
theorem step_same (htargets : m.targets.keys = r.mshr.targets.keys)
    (hdeferred : m.deferredTargets.keys = r.mshr.deferredTargets.keys) (hid : m.Idle) :
    Step r { r with mshr := m } := by
  refine ⟨?_, hid, fun hn => ⟨hn.nodup, hn.lt⟩⟩
  rw [stages, stages, MSHR.stages, MSHR.stages, htargets, hdeferred]

/-- **Each function moves the targets along.** -/
theorem step_exec {op : Op} (hid : r.mshr.Idle) (ha : Allows r op) (h : exec r op = .ok r') : Step r r' := by
  rcases op with miss | ⟨pkt, whenReady, order, allocOnFill⟩ | ⟨pkt, order, curTick⟩ | isForward |
    pendingModifiedResp | - | - | ⟨cmd, hasSharers, curTick⟩
  · obtain ⟨hnum, h⟩ := check_eq_ok.1 h
    obtain ⟨m, hm, h⟩ := bind_eq_ok.1 h
    cases h
    obtain ⟨had, hi'⟩ := MSHR.adds_allocate (r := r) (not_not.1 hnum) hm
    have hst := step_append had hi' ha.2 (by simp [newTarget])
    exact ⟨hst.moves, hst.idle, fun hn => ⟨(hst.numbered hn).nodup, (hst.numbered hn).lt⟩⟩
  · obtain ⟨m, hm, h⟩ := bind_eq_ok.1 h
    cases h
    obtain ⟨had, hi'⟩ := MSHR.adds_allocateTarget (r := r) hid hm
    exact step_append had hi' ha.2 (by simp [newTarget])
  · obtain ⟨⟨snooped, m⟩, hm, h⟩ := bind_eq_ok.1 h
    cases h
    obtain ⟨had, hi'⟩ := MSHR.adds_handleSnoop hid hm
    exact step_append had hi' ha.2 (by simp +contextual [newTarget])
  · cases h
    exact step_same rfl rfl hid
  · obtain ⟨m, hm, h⟩ := bind_eq_ok.1 h
    cases h
    obtain ⟨-, hm⟩ := check_eq_ok.1 hm
    cases hm
    refine step_same ?_ rfl fun hout => (by cases hout)
    dsimp only
    split
    · rfl
    · exact keys_clearDownstreamPending _
  · obtain ⟨-, h⟩ := check_eq_ok.1 h
    cases h
    exact step_same rfl rfl hid
  · obtain ⟨m, hm, h⟩ := bind_eq_ok.1 h
    cases h
    obtain ⟨-, hm⟩ := check_eq_ok.1 hm
    cases hm
    exact step_same (keys_clearDownstreamPending _) rfl hid
  · obtain ⟨⟨extracted, remains, m⟩, hm, h⟩ := bind_eq_ok.1 h
    cases h
    obtain ⟨hnil, hmo⟩ := MSHR.moves_recvTimingResp hm
    exact ⟨hmo, fun _ => hnil, fun hn => ⟨hn.nodup, hn.lt⟩⟩

/-- What holds after any number of steps. -/
theorem step_of_reaches (hid : r.mshr.Idle) (h : Reaches exec Allows r r') : Step r r' :=
  h.invariant ⟨.refl, hid, id⟩ fun _ hr ha hs =>
    have hst := step_exec hr.idle ha hs
    ⟨hr.moves.trans hst.moves, hst.idle, fun hn => hst.numbered (hr.numbered hn)⟩

end Record

/-- **Targets are conserved and served in order.**  In every run, each target that was added is a
target, a deferred target or in an extracted list, and only once.  Those that are not snoops are
extracted in the order in which they were added.  And a target that is behind a snoop in the list of
targets is not extracted before it. -/
theorem targets_conserved {r : Record} (h : Reaches Record.exec Record.Allows {} r) :
    (r.added.Perm (r.extracted.flatten ++ r.mshr.targets.keys ++ r.mshr.deferredTargets.keys) ∧
      ((r.extracted.flatten ++ r.mshr.targets.keys ++ r.mshr.deferredTargets.keys).map
        Prod.fst).Nodup) ∧
    (r.extracted.flatten ++ r.mshr.targets.keys ++ r.mshr.deferredTargets.keys).filter
        (¬ IsSnoop ·) = r.added.filter (¬ IsSnoop ·) ∧
    ∀ r', Reaches Record.exec Record.Allows r r' → ∀ snoop target : Key, IsSnoop snoop →
      ¬ IsSnoop target → [snoop, target].Sublist r.mshr.targets.keys →
      target ∈ r'.extracted.flatten → [snoop, target].Sublist r'.extracted.flatten := by
  have hrun := Record.step_of_reaches (r := {}) (fun _ => rfl) h
  have hn : ∀ {r : Record}, Record.Step {} r → (r.stages.all.map Prod.fst).Nodup := by
    intro r hr
    have hperm := hr.moves.conserved (List.Perm.refl [])
    exact (hperm.map Prod.fst).nodup_iff.1 (hr.numbered ⟨nodup_nil, by simp⟩).nodup
  refine ⟨⟨hrun.moves.conserved (List.Perm.refl []), hn hrun⟩, hrun.moves.inTurn rfl,
    fun r' h' snoop target hsn hta hli hex => ?_⟩
  have hla := Record.step_of_reaches hrun.idle h'
  refine hla.moves.taken_precedes (List.Nodup.of_map _ (hn ?_)) hsn hta hli hex
  exact Record.step_of_reaches (fun _ => rfl) (h.trans h')

/-- A read is in service when another cache asks for the block.  The next read of the CPU is deferred,
and is served after the snoop. -/
theorem targets_conserved_snoopedRun : ∃ r, Reaches Record.exec Record.Allows {} r ∧
    r.added = [(1, .fromCPU), (2, .fromCPU), (3, .fromSnoop), (4, .fromCPU)] ∧
    r.extracted = [[(1, .fromCPU), (3, .fromSnoop)]] ∧ r.mshr.targets.keys = [(2, .fromCPU), (4, .fromCPU)] ∧
    (r.extracted.flatten ++ r.mshr.targets.keys ++ r.mshr.deferredTargets.keys).filter
        (¬ IsSnoop ·) = r.added.filter (¬ IsSnoop ·) := by
  obtain ⟨r, hrun, ha, hex, htargets⟩ := exists_reaches Record.exec Record.Allows {}
    [.allocate ⟨0, 64, { cmd := .readReq }, 0, 1, true⟩, .allocateTarget { cmd := .readReq } 0 2 true,
      .markInService false, .handleSnoop { cmd := .readExReq } 3 0,
      .allocateTarget { cmd := .readReq } 0 4 true,
      .recvTimingResp .readRespWithInvalidate true 0]
    (fun r => r.added = [(1, .fromCPU), (2, .fromCPU), (3, .fromSnoop), (4, .fromCPU)] ∧
      r.extracted = [[(1, .fromCPU), (3, .fromSnoop)]] ∧
      r.mshr.targets.keys = [(2, .fromCPU), (4, .fromCPU)]) (by decide +kernel)
  exact ⟨r, hrun, ha, hex, htargets, (targets_conserved hrun).2.1⟩

end GuardianCouncil.Cache
