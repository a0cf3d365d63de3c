import GuardianCouncil.SecureLog.Capacity

/-!
# Logging a committed instruction

The block in `commitInsts` that feeds the security log.  It looks at the main core's `pause` flag
once, and then hands the events of the instruction to `filter` one after the other: a memory
reference, a barrier, a call, an indirect branch, a return, in that order and as the flags of the
instruction say.  An indirect call has two events, a return two, and `filter` asserts for each of
them that the main core is not paused.

Whether the assertion holds depends on what the earlier events of the same instruction do to the
queues.  The plan of `mapAll` (`planEvents`) tells from the state before the instruction which queues
the events go to and how full they find them.
-/

namespace GuardianCouncil.SecureLog

open Fallible List

/-! ## The block -/

/-- What the block reads of a committed instruction. -/
structure DynInst where
  isMemRef : Bool
  isLoad : Bool
  isStore : Bool
  isMemBarrier : Bool
  isCall : Bool
  isIndirectCtrl : Bool
  isReturn : Bool
  /-- The address of the memory reference. -/
  effAddr : UInt64
  instAddr : UInt64
  /-- The program counter that `hasBranchTarget` leaves in its argument. -/
  branchTarget : UInt64

/-- What the block reads and writes. -/
structure Commit where
  log : State
  /-- The smallest address of an indirect branch or of its target. -/
  minaddr : UInt64
  /-- The largest such address. -/
  maxaddr : UInt64
  /-- The tick of the last commit. -/
  lastCurtick : UInt64

/-- Widens the range of branch addresses to an address. -/
def noteAddr (addr : UInt64) (cs : Commit) : Commit :=
  { cs with
    maxaddr := if cs.maxaddr < addr then addr else cs.maxaddr
    minaddr := if addr < cs.minaddr then addr else cs.minaddr }

/-- Builds an entry and hands it to `filter`. -/
def emit (it : InstType) (data : UInt64) (inst : DynInst) (timed : UInt64) (cs : Commit) : Except Fault Commit := do
  let log ← filter (Entry.new cs.log.curTick it data inst.instAddr timed) cs.log
  .ok { cs with log := log }

/-- An event that the instruction has or has not. -/
def emitIf (has : Bool) (it : InstType) (data : UInt64) (inst : DynInst) (timed : UInt64)
    (cs : Commit) : Except Fault Commit :=
  if has then emit it data inst timed cs else .ok cs

/-- The access of a memory reference. -/
def logAccess (inst : DynInst) (timed : UInt64) (cs : Commit) : Except Fault Commit :=
  if inst.isLoad then emit .load inst.effAddr inst timed cs
  else if inst.isStore then emit .store inst.effAddr inst timed cs
  else .ok cs

/-- The events of a memory reference. -/
def logMemRef (inst : DynInst) (timed : UInt64) (cs : Commit) : Except Fault Commit :=
  if inst.isMemRef then do
    let cs ← logAccess inst timed cs
    emitIf inst.isMemBarrier .barrier 0 inst timed cs
  else .ok cs

/-- The event of an indirect branch. -/
def logIndirectCtrl (inst : DynInst) (timed : UInt64) (cs : Commit) : Except Fault Commit :=
  if inst.isIndirectCtrl then
    emit .indirectBranch inst.branchTarget inst timed
      (noteAddr inst.instAddr (noteAddr inst.branchTarget cs))
  else .ok cs

/-- The security log block of `commitInsts`. -/
def securityLog (inst : DynInst) (cs : Commit) : Except Fault Commit :=
  let timed := cs.log.curTick - cs.lastCurtick
  let cs := { cs with lastCurtick := cs.log.curTick }
  if cs.log.pause 0 then .ok cs
  else do
    let cs ← logMemRef inst timed cs
    let cs ← emitIf inst.isCall .call (inst.instAddr + 16) inst timed cs
    let cs ← logIndirectCtrl inst timed cs
    emitIf inst.isReturn .ret inst.branchTarget inst timed cs

/-! ## The events of an instruction -/

/-- One event, if the instruction has it. -/
def event (has : Bool) (it : InstType) (data : UInt64) (inst : DynInst) (now timed : UInt64) : List Entry :=
  if has then [Entry.new now it data inst.instAddr timed] else []

/-- The events of an instruction, in the order the block hands them on. -/
def events (inst : DynInst) (now timed : UInt64) : List Entry :=
  event (inst.isMemRef && inst.isLoad) .load inst.effAddr inst now timed ++
  event (inst.isMemRef && !inst.isLoad && inst.isStore) .store inst.effAddr inst now timed ++
  event (inst.isMemRef && inst.isMemBarrier) .barrier 0 inst now timed ++
  event inst.isCall .call (inst.instAddr + 16) inst now timed ++
  event inst.isIndirectCtrl .indirectBranch inst.branchTarget inst now timed ++
  event inst.isReturn .ret inst.branchTarget inst now timed

/-- Hands the events to `filter`, one after the other. -/
def filterAll (evs : List Entry) (st : State) : Except Fault State :=
  evs.foldlM (fun st e => filter e st) st

/-- Hands the events to `map`, one after the other. -/
def mapAll (evs : List Entry) (st : State) : Except Fault State :=
  evs.foldlM (fun st e => map e st) st

@[simp] theorem filterAll_nil (st : State) : filterAll [] st = .ok st := rfl

theorem filterAll_cons (e : Entry) (es : List Entry) (st : State) :
    filterAll (e :: es) st = filter e st >>= filterAll es := rfl

theorem filterAll_append (es es' : List Entry) (st : State) :
    filterAll (es ++ es') st = filterAll es st >>= filterAll es' := by
  rw [filterAll, foldlM_append]
  rfl

theorem mapAll_cons (e : Entry) (es : List Entry) (st : State) : mapAll (e :: es) st = map e st >>= mapAll es := rfl

theorem mapAll_append (es es' : List Entry) (st : State) : mapAll (es ++ es') st = mapAll es st >>= mapAll es' := by
  rw [mapAll, foldlM_append]
  rfl

variable {st st' : State} {evs : List Entry}

/-- What `map` leaves alone. -/
theorem map_fields {e : Entry} (h : map e st = .ok st') :
    st'.curTick = st.curTick ∧ st'.filterb = st.filterb ∧ st'.ready = st.ready := by
  rw [map, mapWith_eq] at h
  obtain ⟨ps, st₁, -, hadd, rfl⟩ := performMap_eq_ok.1 h
  obtain ⟨-, -, -, -, hti, hf, hre, -⟩ := addAll_fields hadd
  exact ⟨hti, hf, hre⟩

theorem filterAll_curTick : ∀ {evs : List Entry} {st st' : State}, filterAll evs st = .ok st' → st'.curTick = st.curTick
  | [], st, st', h => by
    cases h
    rfl
  | e :: es, st, st', h => by
    rw [filterAll_cons] at h
    obtain ⟨st₁, h1, h2⟩ := bind_eq_ok.1 h
    rw [filterAll_curTick h2]
    rw [filter] at h1
    split at h1
    · cases h1
      rfl
    split at h1
    · cases h1
      rfl
    · split at h1
      · cases h1
      · exact (map_fields h1).1

/-! ## The block hands its events to `filter` -/

theorem emitIf_eq (has : Bool) (it : InstType) (data : UInt64) (inst : DynInst) (timed : UInt64) (cs : Commit) :
    emitIf has it data inst timed cs
      = filterAll (event has it data inst cs.log.curTick timed) cs.log >>= fun log =>
          .ok { cs with log := log } := by
  cases has with
  | false => rfl
  | true => simp [emitIf, emit, event, filterAll_cons]

theorem logAccess_eq (inst : DynInst) (timed : UInt64) (cs : Commit) : logAccess inst timed cs
      = filterAll (event inst.isLoad .load inst.effAddr inst cs.log.curTick timed ++
          event (!inst.isLoad && inst.isStore) .store inst.effAddr inst cs.log.curTick timed) cs.log
        >>= fun log => .ok { cs with log := log } := by
  cases hl : inst.isLoad with
  | true =>
    rw [logAccess, if_pos hl]
    simpa [event, emitIf] using emitIf_eq true .load inst.effAddr inst timed cs
  | false =>
    rw [logAccess, hl, if_neg Bool.false_ne_true]
    simpa [event, emitIf] using emitIf_eq inst.isStore .store inst.effAddr inst timed cs

theorem logMemRef_eq (inst : DynInst) (timed : UInt64) (cs : Commit) : logMemRef inst timed cs
      = filterAll
          (event (inst.isMemRef && inst.isLoad) .load inst.effAddr inst cs.log.curTick timed ++
          event (inst.isMemRef && !inst.isLoad && inst.isStore) .store inst.effAddr inst
            cs.log.curTick timed ++
          event (inst.isMemRef && inst.isMemBarrier) .barrier 0 inst cs.log.curTick timed) cs.log
        >>= fun log => .ok { cs with log := log } := by
  cases hm : inst.isMemRef with
  | false =>
    rw [logMemRef, hm, if_neg Bool.false_ne_true]
    rfl
  | true =>
    rw [logMemRef, if_pos hm, logAccess_eq, filterAll_append _ (event _ .barrier _ _ _ _)]
    simp only [Bool.true_and, Fallible.bind_assoc, ok_bind]
    refine bind_congr_ok fun log hlog => ?_
    rw [emitIf_eq, filterAll_curTick hlog]

/-- The addresses an indirect branch widens the range by. -/
def noteBranch (inst : DynInst) (cs : Commit) : Commit :=
  if inst.isIndirectCtrl then noteAddr inst.instAddr (noteAddr inst.branchTarget cs) else cs

theorem logIndirectCtrl_eq (inst : DynInst) (timed : UInt64) (cs : Commit) : logIndirectCtrl inst timed cs
      = filterAll (event inst.isIndirectCtrl .indirectBranch inst.branchTarget inst cs.log.curTick
          timed) cs.log >>= fun log => .ok { noteBranch inst cs with log := log } := by
  cases hi : inst.isIndirectCtrl with
  | false => simp [logIndirectCtrl, event, noteBranch, hi]
  | true => simp [logIndirectCtrl, emit, event, noteBranch, hi, filterAll_cons, noteAddr]

/-- **The block hands the events of the instruction to `filter`, in order.** -/
theorem securityLog_eq (inst : DynInst) {cs : Commit} (hp : cs.log.pause 0 = false) : securityLog inst cs
      = filterAll (events inst cs.log.curTick (cs.log.curTick - cs.lastCurtick)) cs.log >>=
          fun log => .ok { noteBranch inst cs with
            log := log, lastCurtick := cs.log.curTick } := by
  rw [securityLog]
  dsimp only
  rw [hp, if_neg Bool.false_ne_true, logMemRef_eq, events,
    filterAll_append _ (event _ .ret _ _ _ _), filterAll_append _ (event _ .indirectBranch _ _ _ _),
    filterAll_append _ (event _ .call _ _ _ _)]
  simp only [Fallible.bind_assoc, ok_bind]
  refine bind_congr_ok fun log₁ h1 => ?_
  rw [emitIf_eq, filterAll_curTick h1, Fallible.bind_assoc]
  refine bind_congr_ok fun log₂ h2 => ?_
  rw [ok_bind, logIndirectCtrl_eq, filterAll_curTick h2, filterAll_curTick h1, Fallible.bind_assoc]
  refine bind_congr_ok fun log₃ h3 => ?_
  rw [ok_bind, emitIf_eq, filterAll_curTick h3, filterAll_curTick h2, filterAll_curTick h1]
  refine bind_congr_ok fun log₄ _ => ?_
  rw [noteBranch, noteBranch]
  split <;> rfl

/-! ## What a list of events does to the flag of the main core -/

/-- The main core is still awake after a list of calls exactly when none of them has filled a
queue. -/
theorem addAll_pause_main : ∀ {calls : List Call} {st st' : State}, addAll 0 calls st = .ok st' →
    (st'.pause 0 = false ↔ st.pause 0 = false ∧ fills st.queueSize calls = [])
  | [], st, st', h => by
    cases h
    simp [fills]
  | c :: cs, st, st', h => by
    obtain ⟨st₁, h1, h2⟩ := bind_eq_ok.1 h
    obtain ⟨-, rfl⟩ := addToQueue_eq_ok.1 h1
    rw [addAll_pause_main h2, added_pause, fills, append_eq_nil_iff, added_queueSize,
      if_neg fun hc => Fin.succ_ne_zero _ hc.2.symm]
    by_cases hfull : QUEUESIZE ≤ st.queueSize c.queue + 1 <;> simp [hfull]

/-- The plan of handing a list of events to `map`. -/
def planEvents (now : UInt64) : List Entry → List SProgram → Plan (List SProgram)
  | [], ps => .pure ps
  | e :: es, ps => (planPrograms advanceCounter now e ps).bind (planEvents now es)

/-- `mapAll` performs its plan. -/
theorem mapAll_eq : ∀ (evs : List Entry) (st : State),
    mapAll evs st = performMap 0 (planEvents st.curTick evs st.programs) st
  | [], st => rfl
  | e :: es, st => by
    rw [mapAll_cons, map, mapWith_eq, planEvents, performMap_bind]
    refine bind_congr_ok fun st₁ h1 => ?_
    rw [mapAll_eq es st₁, performMap_curTick h1]

/-- The events find their queues in range and with fewer than `QUEUESIZE - 1` entries. -/
def Fits (evs : List Entry) (st : State) : Prop :=
  let plan := planEvents st.curTick evs st.programs st.queueSize
  plan.2.isOk = true ∧ Room (QUEUESIZE - 1) st.queueSize plan.1
deriving Decidable

/-- Handing over the events leaves the main core awake exactly when they fit. -/
theorem mapAll_awake_iff (hp : st.pause 0 = false) :
    (∃ st', mapAll evs st = .ok st' ∧ st'.pause 0 = false) ↔ Fits evs st := by
  simp only [mapAll_eq, performMap_eq_ok]
  constructor
  · rintro ⟨st', ⟨ps, st₁, hps, hadd, rfl⟩, hp'⟩
    have hnil := ((addAll_pause_main hadd).1 hp').2
    exact ⟨by rw [hps]; rfl, fills_eq_nil_iff.1 hnil⟩
  · rintro ⟨hok, hro⟩
    obtain ⟨st₁, hadd⟩ := addAll_of_room 0 (hro.mono (by decide))
    cases hps : (planEvents st.curTick evs st.programs st.queueSize).2 with
    | error e =>
      rw [hps] at hok
      cases hok
    | ok ps =>
      exact ⟨_, ⟨ps, st₁, rfl, hadd, rfl⟩, (addAll_pause_main hadd).2 ⟨hp, fills_eq_nil_iff.2 hro⟩⟩

/-- The main core was awake before if it is awake after. -/
theorem pause_of_mapAll (h : mapAll evs st = .ok st') (hp : st'.pause 0 = false) : st.pause 0 = false := by
  rw [mapAll_eq] at h
  obtain ⟨ps, st₁, -, hadd, rfl⟩ := performMap_eq_ok.1 h
  exact ((addAll_pause_main hadd).1 hp).1

/-! ## Every event is logged -/

/-- The events that `filter` passes on to `map`. -/
def wanted (st : State) (evs : List Entry) : List Entry :=
  evs.filter fun e => st.filterb e.insttype && decide (st.ready ≤ 0)

/-- Each event is handed to `map` with the main core awake: the events before it have been
mapped and have not paused it. -/
def HandsOver (evs : List Entry) (st : State) : Prop :=
  ∀ before e after, evs = before ++ e :: after → ∃ st', mapAll before st = .ok st' ∧ st'.pause 0 = false

/-- It is the last event that finds the fullest queues. -/
theorem handsOver_iff (hp : st.pause 0 = false) :
    HandsOver evs st ↔ ∃ st', mapAll evs.dropLast st = .ok st' ∧ st'.pause 0 = false := by
  constructor
  · intro h
    rcases eq_nil_or_concat evs with rfl | ⟨before, e, rfl⟩
    · exact ⟨st, rfl, hp⟩
    · rw [concat_eq_append, dropLast_concat]
      exact h before e [] (concat_eq_append)
  · rintro ⟨st', hmap, hp'⟩ before e after rfl
    -- everything before `e` is the beginning of everything before the last event
    have hsp : ∃ rest, (before ++ e :: after).dropLast = before ++ rest :=
      ⟨_, dropLast_append_of_ne_nil (cons_ne_nil e after)⟩
    obtain ⟨rest, hre⟩ := hsp
    rw [hre, mapAll_append] at hmap
    obtain ⟨st₁, h1, h2⟩ := bind_eq_ok.1 hmap
    exact ⟨st₁, h1, pause_of_mapAll h2 hp'⟩

/-- While the main core stays awake, `filter` hands the wanted events to `map`. -/
theorem filterAll_eq_mapAll : ∀ {evs : List Entry} {st : State}, HandsOver (wanted st evs) st →
    filterAll evs st = mapAll (wanted st evs) st
  | [], st, _ => rfl
  | e :: es, st, h => by
    rw [filterAll_cons, filter]
    by_cases hw : st.filterb e.insttype = true ∧ st.ready ≤ 0
    · have hco : wanted st (e :: es) = e :: wanted st es := by simp [wanted, hw.1, hw.2]
      rw [hco] at h ⊢
      obtain ⟨st', hst', hp⟩ := h [] e _ rfl
      cases hst'
      rw [if_neg (by simp [hw.1]), if_neg (by omega), if_neg (by simp [hp]), mapAll_cons]
      refine bind_congr_ok fun st₁ h1 => ?_
      obtain ⟨-, hfi, hre⟩ := map_fields h1
      have hsa : wanted st₁ es = wanted st es := by rw [wanted, wanted, hfi, hre]
      rw [← hsa]
      refine filterAll_eq_mapAll fun before e' after hs => ?_
      have := h (e :: before) e' after (by rw [← hsa, hs, cons_append])
      rwa [mapAll_cons, h1, ok_bind] at this
    · have hsk : wanted st (e :: es) = wanted st es := by
        rw [wanted, filter_cons_of_neg (by simpa using hw)]
        rfl
      rw [hsk] at h ⊢
      have hfi : (if st.filterb e.insttype = false then .ok st
          else if 0 < st.ready then .ok st
          else if st.pause 0 then .error .mainPaused else map e st) = Except.ok st := by
        by_cases hf : st.filterb e.insttype = true
        · rw [if_neg (by simp [hf]), if_pos (lt_of_not_ge fun hr => hw ⟨hf, hr⟩)]
        · rw [if_pos (by simpa using hf)]
      rw [hfi, ok_bind]
      exact filterAll_eq_mapAll h

/-- The block hands every wanted event of the instruction to `map`, in order, and finds the main
core awake each time. -/
def LogsEveryEvent (inst : DynInst) (cs : Commit) : Prop :=
  let evs := wanted cs.log (events inst cs.log.curTick (cs.log.curTick - cs.lastCurtick))
  HandsOver evs cs.log ∧ securityLog inst cs = mapAll evs cs.log >>= fun log =>
      .ok { noteBranch inst cs with log := log, lastCurtick := cs.log.curTick }

/-- **When the block logs every event.**  It does exactly when all wanted events of the instruction
but the last go to queues that are in range and that they find with fewer than `QUEUESIZE - 1`
entries. -/
theorem logsEveryEvent_iff (inst : DynInst) {cs : Commit} (hp : cs.log.pause 0 = false) : LogsEveryEvent inst cs ↔
      Fits (wanted cs.log
        (events inst cs.log.curTick (cs.log.curTick - cs.lastCurtick))).dropLast cs.log := by
  rw [← mapAll_awake_iff hp, ← handsOver_iff hp]
  refine ⟨fun h => h.1, fun h => ⟨h, ?_⟩⟩
  rw [securityLog_eq inst hp, filterAll_eq_mapAll h]

/-- One program on one core that takes indirect branches and calls: the configuration file is `1`
and `001100000`. -/
def callPrograms : List SProgram :=
  [{ map := fun it => match it with | .indirectBranch => 1 | .call => 1 | _ => 0
     counter := 0, corestart := 0, coreend := 0 }]

def callFilter : InstType → Bool
  | .indirectBranch => true
  | .call => true
  | _ => false

def indirectCall : DynInst where
  isMemRef := false
  isLoad := false
  isStore := false
  isMemBarrier := false
  isCall := true
  isIndirectCtrl := true
  isReturn := false
  effAddr := 0
  instAddr := 4096
  branchTarget := 8192

/-- The main core commits `n` calls. -/
def commitCalls (n : Nat) : List Op :=
  .mappersReady :: List.replicate n (.filter (Entry.new 0 .call 16 0 0))

/-- With two entries of room, both events of an indirect call are logged. -/
theorem logsEveryEvent_indirectCall : ∃ log, Reachable callPrograms callFilter 1 log ∧
    log.queueSize 0 = QUEUESIZE - 2 ∧ LogsEveryEvent indirectCall ⟨log, 0, 0, 0⟩ := by
  obtain ⟨log, hr, hsi, hp, hf⟩ := exists_reaches exec Enabled (init callPrograms callFilter 1)
    (commitCalls (QUEUESIZE - 2))
    (fun log => log.queueSize 0 = QUEUESIZE - 2 ∧ log.pause 0 = false ∧
      Fits (wanted log (events indirectCall log.curTick (log.curTick - 0))).dropLast log)
    (by decide +kernel)
  exact ⟨log, hr, hsi, (logsEveryEvent_iff indirectCall hp).2 hf⟩

/-- **An indirect call can trip the assertion of `filter`.**  Queue `0` has one entry of room and
the main core is awake when it commits an indirect call.  The call event fills the queue and pauses
the main core, and the branch event of the same instruction finds it paused. -/
theorem indirectCall_trips_filter : ∃ log, Reachable callPrograms callFilter 1 log ∧
    log.pause 0 = false ∧ securityLog indirectCall ⟨log, 0, 0, 0⟩ = .error .mainPaused ∧
    ¬ LogsEveryEvent indirectCall ⟨log, 0, 0, 0⟩ := by
  obtain ⟨log, hr, hp, htr, hf⟩ := exists_reaches exec Enabled (init callPrograms callFilter 1)
    (commitCalls (QUEUESIZE - 1))
    (fun log => log.pause 0 = false ∧ securityLog indirectCall ⟨log, 0, 0, 0⟩ = .error .mainPaused ∧
      ¬ Fits (wanted log (events indirectCall log.curTick (log.curTick - 0))).dropLast log)
    (by decide +kernel)
  refine ⟨log, hr, hp, htr, fun h => hf ?_⟩
  exact (mapAll_awake_iff hp).1 ((handsOver_iff hp).1 h.1)

end GuardianCouncil.SecureLog
