import GuardianCouncil.LSQUnit.Rings

/-!
# Any sequence of calls

In a run the functions of an `LSQUnit` are called in any order, and `commitLoads` and `commitStores` independently of each
other.  The two rings stay what they are (`Rings`).

A squash removes the youngest entries, one after the other.  It stops at a store that is marked as able to write back, for
such a store has committed.
-/

namespace GuardianCouncil.LSQUnit

open Ring Relation Fallible List Function

variable {cfg : Config}

inductive Call
  | of (op : Op)
  | commitStores (youngest : Nat)
  | commitLoads (youngest : Nat)

def Call.exec (s : State cfg) : Call → Except Failure (State cfg)
  | .of op => LSQUnit.exec s op
  | .commitStores youngest => s.commitStores youngest
  | .commitLoads youngest => s.commitLoads youngest

/-- Instructions enter in the order of their numbers, a store executes while it is in the queue and not marked, and
answers are for stores in the memory system. -/
def Respects (s : State cfg) : Call → Prop
  | .of (.insertLoad seqNum) => s.lastSeqNum < seqNum
  | .of (.insertStore inst) => s.lastSeqNum < inst.seqNum
  | .of (.executeStore idx _) =>
    idx ∈ between cfg.sqEntries s.storeHead s.storeTail ∧ (s.storeQueue idx).canWB = false
  | .of (.completeDataAccess idx) => idx ∈ s.inFlight
  | _ => True

instance (s : State cfg) : DecidablePred (Respects s)
  | .of (.insertLoad _) | .of (.insertStore _) => inferInstanceAs (Decidable (_ < _))
  | .of (.executeStore _ _) => inferInstanceAs (Decidable (_ ∧ _))
  | .of (.completeDataAccess idx) => inferInstanceAs (Decidable (idx ∈ s.inFlight))
  | .of (.read _ _) | .of (.writebackLoad _) | .of (.commit _) | .of (.writebackStores _) | .of (.recvRetry _)
  | .of (.squash _) | .commitStores _ | .commitLoads _ => isTrue trivial

/-- Both rings are in order. -/
def Rings (s : State cfg) : Prop := (∃ stores w, StoreRing s stores w) ∧ ∃ loads, LoadRing s loads

/-- In a sorted list, the last elements that are greater than a number and not kept are those that are greater and behind
all that are kept. -/
theorem rdropWhile_eq_filter {α : Type*} (key : α → Nat) (keep : α → Bool) (num : Nat) {l : List α}
    (hso : (l.map key).Pairwise (· < ·)) : l.rdropWhile (fun x => num < key x && !keep x) =
      l.filter fun x => key x ≤ num ∨ ∃ y ∈ l, keep y ∧ key x ≤ key y := by
  induction l using List.reverseRecOn with
  | nil => rfl
  | append_singleton l x ih =>
    rw [map_append, pairwise_append] at hso
    have hlt : ∀ y ∈ l, key y < key x := fun y hy =>
      hso.2.2 (key y) (mem_map_of_mem hy) (key x) (mem_singleton_self _)
    rw [rdropWhile_concat, filter_append]
    by_cases hd : num < key x ∧ keep x = false
    · -- the last element goes, and is no reason to keep another one
      rw [if_pos (by simpa using hd), ih hso.1, filter_cons_of_neg (by grind), filter_nil, append_nil]
      exact filter_congr fun z hz => by grind
    · -- the last element stays, and all before it do
      have hstay : ∀ z, key z ≤ key x → key z ≤ num ∨ ∃ y ∈ l ++ [x], keep y ∧ key z ≤ key y := by grind
      rw [if_neg (by simpa using hd), filter_eq_self.2 fun z hz => decide_eq_true (hstay z (hlt z hz).le),
        filter_eq_self.2 fun z hz => decide_eq_true (hstay z (by rw [mem_singleton.1 hz]))]

/-! ## One call -/

/-- The unit is stalled for a load in the queue. -/
def State.Stalls (s : State cfg) : Prop := s.stalled → (s.loadQueue s.stallingLoadIdx).isSome

theorem SameLoads.stalls {s s' : State cfg} (h : SameLoads s s') (hsta : s.Stalls) : s'.Stalls := by
  intro hst
  have hqu : s'.loadQueue = s.loadQueue := congrArg Prod.fst h.fields
  rw [hqu, h.stallingLoadIdx]
  exact hsta (h.stalled hst)

/-- The states that differ only in the loads and in what the unit is stalled for. -/
def State.LoadsOnly (s s' : State cfg) : Prop :=
  ∃ loadQueue loadHead loadTail loads stalled isn idx, s' = { s with
    loadQueue := loadQueue, loadHead := loadHead, loadTail := loadTail, loads := loads
    stalled := stalled, stallingStoreIsn := isn, stallingLoadIdx := idx }

namespace State

variable {s s' : State cfg} {stores : List SQEntry} {loads : List LoadInst} {load : LoadInst}
  {loadIdx w num youngest : Nat} {req : ReadReq} {result : ReadResult}

theorem LoadsOnly.refl (s : State cfg) : s.LoadsOnly s := ⟨_, _, _, _, _, _, _, rfl⟩

theorem LoadsOnly.trans {s₁ : State cfg} (h : s.LoadsOnly s₁) (h' : s₁.LoadsOnly s') : s.LoadsOnly s' := by
  obtain ⟨_, _, _, _, _, _, _, rfl⟩ := h
  obtain ⟨_, _, _, _, _, _, _, rfl⟩ := h'
  exact ⟨_, _, _, _, _, _, _, rfl⟩

theorem LoadsOnly.storeRing (h : s.LoadsOnly s') (hst : StoreRing s stores w) :
    StoreRing s' stores w ∧ s'.storeHead = s.storeHead := by
  obtain ⟨_, _, _, _, _, _, _, rfl⟩ := h
  exact ⟨{ hst with }, rfl⟩

/-- The load that the unit is stalled for is in the queue, and nothing else changes. -/
def StallOf (s s' : State cfg) : Prop :=
  ∃ stalled isn idx, s' = { s with stalled := stalled, stallingStoreIsn := isn, stallingLoadIdx := idx } ∧
    (s.Stalls → s'.Stalls)

theorem stallOf_stallFor (hlo : s.loadQueue loadIdx = some load) (hs : s.stallFor loadIdx load num = .ok s') :
    s.StallOf s' := by
  have hnow : s.StallOf { s with stalled := true, stallingStoreIsn := num, stallingLoadIdx := loadIdx } :=
    ⟨_, _, _, rfl, fun _ _ => Option.isSome_iff_exists.2 ⟨load, hlo⟩⟩
  rw [stallFor] at hs
  split at hs
  · cases hs
    exact hnow
  split at hs
  · cases hs
  · cases hs
    split
    · exact hnow
    · exact ⟨_, _, _, rfl, id⟩

theorem stallOf_readLoop (hlo : s.loadQueue loadIdx = some load) {l : List Nat}
    (hs : s.readLoop loadIdx load req l = .ok (result, s')) : s.StallOf s' := by
  induction l with
  | nil =>
    cases hs
    exact ⟨_, _, _, rfl, id⟩
  | cons idx l ih =>
    rw [readLoop] at hs
    split at hs
    · cases hs
    split at hs
    · exact ih hs
    split at hs
    · exact ih hs
    obtain ⟨-, hs⟩ := check_eq_ok.1 hs
    split at hs
    · cases hs
      exact ⟨_, _, _, rfl, id⟩
    · obtain ⟨-, hs⟩ := check_eq_ok.1 hs
      obtain ⟨s₁, hst, hs⟩ := bind_eq_ok.1 hs
      cases hs
      exact stallOf_stallFor hlo hst
    · exact ih hs

theorem stallOf_read (hs : s.read loadIdx req = .ok (result, s')) : s.StallOf s' := by
  rw [read] at hs
  split at hs
  · cases hs
  rename_i load hlo
  obtain ⟨-, hs⟩ := check_eq_ok.1 hs
  split at hs
  · cases hs
    exact ⟨_, _, _, rfl, id⟩
  split at hs
  · cases hs
    exact ⟨_, _, _, rfl, id⟩
  · split at hs
    · cases hs
      exact ⟨_, _, _, rfl, id⟩
    · exact stallOf_readLoop hlo hs

theorem commitLoadsLoop_spec : ∀ {k : Nat} {s : State cfg}, commitLoadsLoop youngest k s = .ok s' → s.LoadsOnly s' ∧
      (s.Stalls → (s.stalled → ∀ load ∈ s.loadQueue s.stallingLoadIdx, youngest < load.seqNum) → s'.Stalls)
  | 0, s, hs => by
    obtain rfl := Except.ok.inj hs
    exact ⟨.refl s, fun h _ => h⟩
  | k + 1, s, hs => by
    rw [commitLoadsLoop] at hs
    split at hs
    · cases hs
    rename_i load hlo
    split_ifs at hs with hold
    · obtain ⟨ho, hsta⟩ := commitLoadsLoop_spec hs
      refine ⟨.trans ⟨_, _, _, _, _, _, _, rfl⟩ ho, fun h hy => ?_⟩
      -- the load that leaves is not the one the unit is stalled for
      have hce : s.stalled → (s.setLoad s.loadHead none).loadQueue s.stallingLoadIdx = s.loadQueue s.stallingLoadIdx := by
        intro hst
        refine update_of_ne (fun heq => ?_) _ _
        have := hy hst load (heq ▸ hlo)
        omega
      exact hsta (fun hst => (hce hst).symm ▸ h hst) fun hst load' hl' => hy hst load' (hce hst ▸ hl')
    · obtain rfl := Except.ok.inj hs
      exact ⟨.refl s, fun h _ => h⟩

theorem squashLoads_spec : ∀ {k : Nat} {s : State cfg}, squashLoads num k s = .ok s' →
    s.LoadsOnly s' ∧ (s.Stalls → s'.Stalls)
  | 0, s, hs => by
    obtain rfl := Except.ok.inj hs
    exact ⟨.refl s, id⟩
  | k + 1, s, hs => by
    rw [squashLoads] at hs
    dsimp only at hs
    split at hs
    · cases hs
    split at hs
    · obtain ⟨ho, hsta⟩ := squashLoads_spec hs
      refine ⟨.trans ⟨_, _, _, _, _, _, _, rfl⟩ ho, fun h => hsta fun hst => ?_⟩
      dsimp only [setLoad, unstallLoad] at hst ⊢
      simp only [Bool.and_eq_true, Bool.not_eq_true', decide_eq_false_iff_not, not_and] at hst
      have hne := hst.2 hst.1
      rw [if_neg (by simpa using fun _ => hne), update_of_ne (Ne.symm hne)]
      exact h hst.1
    · obtain rfl := Except.ok.inj hs
      exact ⟨.refl s, id⟩

/-- What a squash leaves, if it does not stop at the panic. -/
theorem exists_squash (hst : StoreRing s stores w) (hlo : LoadRing s loads) (num : Nat) : (∃ s', s.squash num = .ok s' ∧
      StoreRing s' (stores.filter fun e => e.seqNum ≤ num ∨ ∃ e' ∈ stores, e'.canWB ∧ e.seqNum ≤ e'.seqNum) w ∧
      LoadRing s' (loads.filter fun load => load.seqNum ≤ num) ∧ s'.storeHead = s.storeHead ∧ (s.Stalls → s'.Stalls)) ∨
    s.squash num = .error .stillStalled := by
  have hf := rdropWhile_eq_filter LoadInst.seqNum (fun _ => false) num hlo.sorted
  simp only [Bool.not_false, Bool.and_true, Bool.false_eq_true, false_and, and_false, exists_false, or_false] at hf
  obtain ⟨s₁, hs₁, hl₁⟩ := LoadRing.squashLoads num hlo hlo.loads_eq.symm
  obtain ⟨ho, hsta⟩ := squashLoads_spec hs₁
  obtain ⟨hst₁, hh₁⟩ := ho.storeRing hst
  rw [squash, hs₁, ok_bind, ← hf, ← rdropWhile_eq_filter SQEntry.seqNum SQEntry.canWB num hst.sorted]
  refine (StoreRing.squashStores num hst₁ hst₁.queue.count_eq.symm).imp (fun h => ?_) id
  obtain ⟨s', hs', hst', hsa, hh⟩ := h
  exact ⟨s', hs', hst', hl₁.congr hsa, hh.trans hh₁, fun h => hsa.stalls (hsta h)⟩

end State

namespace Rings

variable {s s' : State cfg} {youngest : Nat}

theorem commitStores (h : Rings s) (hs : s.commitStores youngest = .ok s') : Rings s' := by
  obtain ⟨⟨stores, w, hst⟩, loads, hlo⟩ := h
  obtain ⟨stores', hs', hsa, -⟩ := hst.commitStores hs
  exact ⟨⟨stores', w, hs'⟩, loads, hlo.congr hsa⟩

theorem commitLoads (h : Rings s) (hs : s.commitLoads youngest = .ok s') : Rings s' := by
  obtain ⟨⟨stores, w, hst⟩, loads, hlo⟩ := h
  refine ⟨⟨stores, w, ((State.commitLoadsLoop_spec hs).1.storeRing hst).1⟩, ?_⟩
  obtain ⟨loads', hl', -⟩ := hlo.commitLoads hs
  exact ⟨loads', hl'⟩

theorem wbSteps (h : Rings s) (hst : ReflTransGen WBStep s s') : Rings s' := by
  obtain ⟨⟨stores, w, hsto⟩, loads, hlo⟩ := h
  obtain ⟨stores', w', -, hs', hsa, -⟩ := hsto.wbSteps hst
  exact ⟨⟨stores', w', hs'⟩, loads, hlo.congr hsa⟩

/-- Every call keeps the rings in order. -/
theorem exec {call : Call} (h : Rings s) (hre : Respects s call) (hs : call.exec s = .ok s') : Rings s' := by
  obtain ⟨stores, w, hst⟩ := h.1
  obtain ⟨loads, hlo⟩ := h.2
  rcases call with (seqNum | inst | ⟨idx, req⟩ | ⟨loadIdx, req⟩ | idx | youngest | env | accepts | idx | num) |
    youngest | youngest
  · exact ⟨⟨stores, w, hst.insertLoad hre hs⟩, _, hlo.insertLoad hre hs⟩
  · obtain ⟨hs', -, hsa⟩ := hst.insertStore hre hs
    exact ⟨⟨_, w, hs'⟩, loads, (hlo.later hre).congr hsa⟩
  · obtain ⟨stores', hs', hsa, -⟩ := hst.executeStore hre.1 hre.2 hs
    exact ⟨⟨stores', w, hs'⟩, loads, hlo.congr hsa⟩
  · obtain ⟨⟨result, s₁⟩, hread, hs⟩ := bind_eq_ok.1 hs
    cases hs
    obtain ⟨_, _, _, rfl, -⟩ := State.stallOf_read hread
    exact ⟨⟨stores, w, { hst with }⟩, loads, { hlo with }⟩
  · obtain ⟨i, load, -, hl'⟩ := hlo.writebackLoad hs
    exact ⟨⟨stores, w, hst.writebackLoad hs⟩, _, hl'⟩
  · obtain ⟨s₁, hs₁, hs⟩ := bind_eq_ok.1 hs
    exact (h.commitStores hs₁).commitLoads hs
  · exact h.wbSteps (State.writebackStores_steps hst.storeWBIdx_lt hst.storeTail_lt hs)
  · exact h.wbSteps (State.recvRetry_steps hs)
  · obtain ⟨stores', w', -, hs', hsa, -⟩ := hst.completeDataAccess hre hs
    exact ⟨⟨stores', w', hs'⟩, loads, hlo.congr hsa⟩
  · rcases State.exists_squash hst hlo num with ⟨s₁, hs₁, hst₁, hl₁, -⟩ | herr
    · cases hs₁.symm.trans hs
      exact ⟨⟨_, _, hst₁⟩, _, hl₁⟩
    · cases herr.symm.trans hs
  · exact h.commitStores hs
  · exact h.commitLoads hs

theorem of_reaches (h : Reaches Call.exec Respects (init cfg) s) : Rings s :=
  h.invariant (P := Rings) ⟨⟨[], 0, .init⟩, [], .init⟩ fun _ hri hre hs => hri.exec hre hs

end Rings

/-! ## What the indices and counters say -/

def State.liveLoads (s : State cfg) : List LoadInst :=
  (between cfg.lqEntries s.loadHead s.loadTail).filterMap s.loadQueue

def State.liveStores (s : State cfg) : List SQEntry :=
  (between cfg.sqEntries s.storeHead s.storeTail).map s.storeQueue

theorem LoadRing.liveLoads_eq {s : State cfg} {loads : List LoadInst} (h : LoadRing s loads) : s.liveLoads = loads := by
  have hmap := congrArg (List.filterMap id) h.queue.map_between
  rw [filterMap_map, filterMap_map] at hmap
  rw [State.liveLoads]
  exact hmap.trans (filterMap_some)

theorem StoreRing.liveStores_eq {s : State cfg} {stores : List SQEntry} {w : Nat} (h : StoreRing s stores w) :
    s.liveStores = stores := h.queue.map_between

/-- **The rings agree with their indices and counters.**  After any calls, `loads` and `stores` are the distances from the
heads to the tails, the entries in between hold instructions in program order, `storeWBIdx` is not behind `storeTail`, and
`storesToWB` counts the stores that may be written back and have not completed.  A squash removes exactly the loads that
are younger, and the stores that are younger and behind all marked ones. -/
theorem rings_agree {s : State cfg} (h : Reaches Call.exec Respects (init cfg) s) :
    s.loads = distance cfg.lqEntries s.loadHead s.loadTail ∧ s.stores = distance cfg.sqEntries s.storeHead s.storeTail ∧
      s.liveLoads.length = s.loads ∧ (s.liveLoads.map LoadInst.seqNum).Pairwise (· < ·) ∧
      (∀ e ∈ s.liveStores, e.inst.isSome) ∧ (s.liveStores.map SQEntry.seqNum).Pairwise (· < ·) ∧
      s.storeWBIdx < cfg.sqEntries ∧ distance cfg.sqEntries s.storeHead s.storeWBIdx ≤ s.stores ∧
      s.storesToWB = s.liveStores.countP (fun e => e.canWB && !e.completed) ∧
      ∀ num, s.squash num = .error .stillStalled ∨ ∃ s', s.squash num = .ok s' ∧
        s'.liveLoads = s.liveLoads.filter (fun load => load.seqNum ≤ num) ∧
        s'.liveStores = s.liveStores.filter
          fun e => e.seqNum ≤ num ∨ ∃ e' ∈ s.liveStores, e'.canWB ∧ e.seqNum ≤ e'.seqNum := by
  obtain ⟨⟨stores, w, hst⟩, loads, hlo⟩ := Rings.of_reaches h
  have hw := hst.w_le
  rw [hlo.liveLoads_eq, hst.liveStores_eq]
  refine ⟨hlo.queue.count_eq_distance, hst.queue.count_eq_distance, hlo.loads_eq.symm, hlo.sorted,
    hst.inst, hst.sorted, hst.storeWBIdx_lt, ?_, hst.storesToWB_eq, fun num => ?_⟩
  · have hlen := hst.queue.window.length_lt
    rw [hst.storeWBIdx_eq, distance_head hst.queue.window.head_lt (by omega), hst.queue.count_eq]
    exact hw
  · refine (State.exists_squash hst hlo num).symm.imp id fun hsq => ?_
    obtain ⟨s', hs', hst', hl', -⟩ := hsq
    exact ⟨s', hs', hl'.liveLoads_eq, hst'.liveStores_eq⟩

/-- A unit with room for two loads and two stores. -/
def twoEach : Config := { lqEntries := 3, sqEntries := 3, needsTSO := false, cacheStorePorts := 1 }

/-- The first store has been written back and has left, so that the next two go round the ring, and one of them has
committed.  A squash removes the other one, and the load. -/
theorem rings_agree_wrapped :
    ∃ s : State twoEach, Reaches Call.exec Respects (init twoEach) s ∧ s.storeHead = 1 ∧ s.storeTail = 0 ∧
      s.stores = distance 3 1 0 ∧ s.storesToWB = 1 ∧
      ∃ s', s.squash 2 = .ok s' ∧ s'.liveLoads = [] ∧ s'.liveStores.map SQEntry.seqNum = [2] := by
  obtain ⟨s, hs, hh, hta, hwb, hlo, hst, hok⟩ := exists_reaches Call.exec Respects (init twoEach)
    [.of (.insertStore { seqNum := 1 }), .commitStores 1,
      .of (.writebackStores { accepts := fun _ => true, locked := fun _ => true }),
      .of (.insertStore { seqNum := 2 }), .of (.insertStore { seqNum := 3 }), .of (.insertLoad 4), .commitStores 2]
    (fun s => s.storeHead = 1 ∧ s.storeTail = 0 ∧ s.storesToWB = 1 ∧ s.liveLoads = [⟨4, some 0, false⟩] ∧
      s.liveStores = [{ inst := some { seqNum := 2 }, canWB := true }, { inst := some { seqNum := 3 } }] ∧
      (s.squash 2).toOption.isSome)
    (by decide +kernel)
  obtain ⟨-, hd, -, -, -, -, -, -, -, hsq⟩ := rings_agree hs
  refine ⟨s, hs, hh, hta, by rw [hd, hh, hta]; rfl, hwb, ?_⟩
  rcases hsq 2 with herr | ⟨s', hs', hl', hst'⟩
  · rw [herr] at hok
    cases hok
  · rw [hlo] at hl'
    rw [hst] at hst'
    exact ⟨s', hs', hl', by rw [hst']; decide⟩

/-- A store that has been marked as committed stays, although it is younger.  If a store that has not been written back is
completed, which no assertion forbids, `storeWBIdx` is left behind `storeHead`. -/
theorem committedStore_kept :
    (∃ s s' : State twoEach, Reaches Call.exec Respects (init twoEach) s ∧ s.squash 3 = .ok s' ∧
      ∃ e ∈ s'.liveStores, 3 < e.seqNum) ∧
    ∃ s s' : State twoEach, Reaches Call.exec Respects (init twoEach) s ∧ s.completeStore 0 = .ok s' ∧
      s'.stores < distance 3 s'.storeHead s'.storeWBIdx := by
  obtain ⟨s, hs, s₁, hs₁, hke⟩ := exists_reaches Call.exec Respects (init twoEach)
    [.of (.insertStore { seqNum := 5 }), .commitStores 5]
    (fun s => ∃ s' ∈ (s.squash 3).toOption, ∃ e ∈ s'.liveStores, 3 < e.seqNum) (by decide +kernel)
  obtain ⟨t, ht, t₁, ht₁, hwb⟩ := exists_reaches Call.exec Respects (init twoEach) [.of (.insertStore { seqNum := 5 })]
    (fun s => ∃ s' ∈ (s.completeStore 0).toOption, s'.stores < distance 3 s'.storeHead s'.storeWBIdx) (by decide +kernel)
  exact ⟨⟨s, s₁, hs, eq_ok_of_toOption hs₁, hke⟩, t, t₁, ht, eq_ok_of_toOption ht₁, hwb⟩

end GuardianCouncil.LSQUnit
