import Mathlib.Data.List.DropRight
import Mathlib.Data.List.Nodup
import GuardianCouncil.LSQUnit.Invariant
import GuardianCouncil.LSQUnit.Steps

/-!
# The indices and counters of the two rings

`LSQUnit` moves two ring buffers with five indices and three counters.  Here nothing is asked of the pipeline but that
instructions enter in the order of their numbers, that a store executes while it is in the queue, and that answers are for
stores in the memory system.  The stores (`StoreRing`) and the loads (`LoadRing`) do not depend on one another.
-/

namespace GuardianCouncil.LSQUnit

open Ring Relation List

variable {cfg : Config}

/-- The store may be written back and has not completed. -/
def SQEntry.toWB (e : SQEntry) : Bool := e.canWB && !e.completed

open SQEntry

/-- The ring of the stores, of which the first `w` have been written back. -/
structure StoreRing (s : State cfg) (stores : List SQEntry) (w : Nat) : Prop where
  queue : Queue cfg.sqEntries s.storeQueue s.storeHead s.storeTail s.stores stores
  storeWBIdx_eq : s.storeWBIdx = (s.storeHead + w) % cfg.sqEntries
  inst : ∀ e ∈ stores, e.inst.isSome
  sorted : (stores.map seqNum).Pairwise (· < ·)
  le_last : ∀ e ∈ stores, e.seqNum ≤ s.lastSeqNum
  w_le : w ≤ stores.length
  written : ∀ {i e}, i < w → stores[i]? = some e → e.canWB
  notCompleted : ∀ {i e}, w ≤ i → stores[i]? = some e → e.completed = false
  storesToWB_eq : s.storesToWB = stores.countP toWB
  blocked : s.retryPkt.isSome → s.isStoreBlocked
  waiting : s.retryPkt.isSome ∨ s.pendingPkt.isSome → ∃ e, stores[w]? = some e ∧ e.canWB
  onePacket : s.retryPkt.isSome → s.pendingPkt = none
  inFlight : ∀ idx ∈ s.inFlight, ∃ i e, i < w ∧ stores[i]? = some e ∧ e.completed = false ∧
    idx = (s.storeHead + i) % cfg.sqEntries
  inFlight_nodup : s.inFlight.Nodup

structure LoadRing (s : State cfg) (loads : List LoadInst) : Prop where
  queue : Queue cfg.lqEntries s.loadQueue s.loadHead s.loadTail s.loads (loads.map some)
  only : Only cfg.lqEntries s.loadQueue s.loadHead loads
  sorted : (loads.map LoadInst.seqNum).Pairwise (· < ·)
  le_last : ∀ load ∈ loads, load.seqNum ≤ s.lastSeqNum

/-- What the ring of the loads is made of. -/
def State.loadFields (s : State cfg) : (Nat → Option LoadInst) × Nat × Nat × Nat × Nat :=
  (s.loadQueue, s.loadHead, s.loadTail, s.loads, s.lastSeqNum)

open State

/-- The loads are the same.  The unit may be stalled no longer. -/
structure SameLoads (s s' : State cfg) : Prop where
  fields : s'.loadFields = s.loadFields := by rfl
  stalled : s'.stalled → s.stalled := by exact id
  stallingLoadIdx : s'.stallingLoadIdx = s.stallingLoadIdx := by rfl

namespace SameLoads

variable {s s' s₁ : State cfg} {idx : Nat}

theorem trans (h : SameLoads s s₁) (h' : SameLoads s₁ s') : SameLoads s s' :=
  ⟨h'.fields.trans h.fields, fun hst => h.stalled (h'.stalled hst), h'.stallingLoadIdx.trans h.stallingLoadIdx⟩

theorem completeStore (hs : s.completeStore idx = .ok s') : SameLoads s s' := by
  rw [State.completeStore] at hs
  split at hs
  · cases hs
  · cases hs
    rw [State.removeCompleted]
    split <;> exact ⟨rfl, fun hst => (Bool.and_eq_true_iff.1 hst).1, rfl⟩

theorem storePostSend (hs : s.storePostSend = .ok s') : SameLoads s s' := by
  rw [State.storePostSend] at hs
  split at hs
  · cases hs
  · cases hs
    exact ⟨rfl, fun hst => (Bool.and_eq_true_iff.1 hst).1, rfl⟩

/-- Writing back does not touch the loads. -/
theorem wbStep (h : WBStep s s') : SameLoads s s' := by
  cases h with
  | complete _ hs => exact (completeStore hs).trans {}
  | send _ hs => exact storePostSend hs
  | sendPending _ hs => exact .trans {} (storePostSend hs)
  | sendRetry _ hs => exact .trans {} (storePostSend hs)
  | _ => exact {}

end SameLoads

theorem LoadRing.congr {s s' : State cfg} {loads : List LoadInst} (h : LoadRing s loads) (hsa : SameLoads s s') :
    LoadRing s' loads := by
  have heq := hsa.fields
  simp only [loadFields, Prod.mk.injEq] at heq
  obtain ⟨hqu, hh, hta, hlo, hla⟩ := heq
  exact ⟨by rw [hqu, hh, hta, hlo]; exact h.queue, by rw [hqu, hh]; exact h.only, h.sorted,
    by rw [hla]; exact h.le_last⟩

/-! ## How the stores change -/

/-- Stores that could be written back before, or are newly allowed to be. -/
def Allowed (new : Nat → Prop) (stores : List SQEntry) (n : Nat) : Prop :=
  new n ∨ ∃ e ∈ stores, e.canWB ∧ e.seqNum = n

/-- The first `k` stores, which may be written back, have left.  The others are the same, and some of them may be written
back from now on. -/
structure Follows (cap : Nat) (new : Nat → Prop) (k head head' : Nat) (stores stores' : List SQEntry) : Prop where
  le : k ≤ stores.length
  head_eq : head' = (head + k) % cap
  nums : stores'.map seqNum = (stores.map seqNum).drop k
  valid : (∀ e ∈ stores, e.Valid) → ∀ e ∈ stores', e.Valid
  left : ∀ n ∈ (stores.map seqNum).take k, Allowed new stores n
  canWB : ∀ e ∈ stores', e.canWB → Allowed new stores e.seqNum

namespace Follows

variable {cap k k' head head' head'' i : Nat} {new : Nat → Prop} {stores stores' stores'' : List SQEntry} {e u : SQEntry}

theorem refl (hh : head < cap) (heq : head' = head) : Follows cap new 0 head head' stores stores where
  le := Nat.zero_le _
  head_eq := heq.trans (Nat.mod_eq_of_lt hh).symm
  nums := rfl
  valid := id
  left := nofun
  canWB e he hwb := .inr ⟨e, he, hwb, rfl⟩

theorem trans (h : Follows cap new k head head' stores stores') (h' : Follows cap new k' head' head'' stores' stores'') :
    Follows cap new (k + k') head head'' stores stores'' := by
  have ha : ∀ n, Allowed new stores' n → Allowed new stores n := by
    rintro n (hnew | ⟨e, he, hwb, rfl⟩)
    · exact .inl hnew
    · exact h.canWB e he hwb
  have hle := h'.le
  have hlen := congrArg List.length h.nums
  rw [length_drop, length_map, length_map] at hlen
  refine ⟨by have := h.le; omega, ?_, by rw [h'.nums, h.nums, drop_drop], fun hv => h'.valid (h.valid hv),
    fun n hn => ?_, fun e he hwb => ha _ (h'.canWB e he hwb)⟩
  · rw [h'.head_eq, h.head_eq, Nat.mod_add_mod, Nat.add_assoc]
  · rw [take_add, ← h.nums, mem_append] at hn
    exact hn.elim (h.left n) fun hn => ha n (h'.left n hn)

/-- One store is given other fields. -/
theorem set (hh : head < cap) (heq : head' = head) (he : stores[i]? = some e) (hseq : u.seqNum = e.seqNum)
    (hva : e.Valid → u.Valid) (hwb : u.canWB → e.canWB ∨ new e.seqNum) :
    Follows cap new 0 head head' stores (stores.set i u) where
  le := Nat.zero_le _
  head_eq := heq.trans (Nat.mod_eq_of_lt hh).symm
  nums := map_seqNum_set he hseq
  valid hv x hx := by
    rcases mem_or_eq_of_mem_set hx with hx | rfl
    · exact hv x hx
    · exact hva (hv e (mem_of_getElem? he))
  left := nofun
  canWB x hx hxwb := by
    rcases mem_or_eq_of_mem_set hx with hx | rfl
    · exact .inr ⟨x, hx, hxwb, rfl⟩
    · rw [hseq]
      exact (hwb hxwb).symm.imp id fun hwb => ⟨e, mem_of_getElem? he, hwb, rfl⟩

/-- The first stores leave. -/
theorem drop (hk : k ≤ stores.length) (heq : head' = (head + k) % cap)
    (hwb : ∀ {i e}, i < k → stores[i]? = some e → e.canWB) : Follows cap new k head head' stores (stores.drop k) where
  le := hk
  head_eq := heq
  nums := map_drop
  valid hv e he := hv e (mem_of_mem_drop he)
  left n hn := by
    rw [← map_take] at hn
    obtain ⟨e, he, rfl⟩ := mem_map.1 hn
    obtain ⟨i, hi⟩ := mem_iff_getElem?.1 he
    rw [getElem?_take] at hi
    split at hi
    · exact .inr ⟨e, mem_of_mem_take he, hwb ‹_› hi, rfl⟩
    · cases hi
  canWB e he hwb := .inr ⟨e, mem_of_mem_drop he, hwb, rfl⟩

end Follows

/-! ## Stores -/

namespace StoreRing

variable {s s' : State cfg} {stores : List SQEntry} {w i k n idx : Nat} {e u : SQEntry}

theorem init : StoreRing (init cfg) [] 0 where
  queue := .nil cfg.sqEntries_pos
  storeWBIdx_eq := (Nat.zero_mod _).symm
  inst := nofun
  sorted := .nil
  le_last := nofun
  w_le := le_rfl
  written := nofun
  notCompleted := nofun
  storesToWB_eq := rfl
  blocked := nofun
  waiting := by rintro (h | h) <;> cases h
  onePacket := nofun
  inFlight := nofun
  inFlight_nodup := .nil

section

variable (h : StoreRing s stores w)
include h

theorem storeQueue_eq (he : stores[i]? = some e) :
    s.storeQueue ((s.storeHead + i) % cfg.sqEntries) = e := h.queue.get?_eq he

theorem storeWBIdx_lt : s.storeWBIdx < cfg.sqEntries := by
  rw [h.storeWBIdx_eq]
  exact Nat.mod_lt _ cfg.sqEntries_pos

theorem storeTail_lt : s.storeTail < cfg.sqEntries := by
  rw [h.queue.tail_eq]
  exact Nat.mod_lt _ cfg.sqEntries_pos

/-- The store at `storeWBIdx`, if the loop of `writebackStores` goes on with it. -/
theorem ready (hre : s.Ready) :
    ∃ e, stores[w]? = some e ∧ s.storeQueue s.storeWBIdx = e ∧ e.canWB ∧ s.retryPkt = none ∧ s.pendingPkt = none := by
  have hlt : w < stores.length := by
    refine lt_of_le_of_ne h.w_le fun heq => hre.ne_tail ?_
    rw [h.storeWBIdx_eq, h.queue.tail_eq, heq]
  have he := getElem?_eq_getElem hlt
  have hce : s.storeQueue s.storeWBIdx = stores[w] := by rw [h.storeWBIdx_eq, h.storeQueue_eq he]
  refine ⟨stores[w], he, hce, hce ▸ hre.canWB, ?_, hre.pendingPkt_eq⟩
  by_contra hso
  have hbl := h.blocked (Option.isSome_iff_ne_none.2 hso)
  rw [hre.unblocked] at hbl
  cases hbl

end

theorem mem_set_cases {j : Nat} {x : SQEntry} (hx : (stores.set i u)[j]? = some x) :
    j = i ∧ x = u ∨ j ≠ i ∧ stores[j]? = some x := by
  rw [getElem?_set] at hx
  split at hx
  · rename_i heq
    split at hx
    · exact .inl ⟨heq.symm, (Option.some.inj hx).symm⟩
    · cases hx
  · rename_i hne
    exact .inr ⟨Ne.symm hne, hx⟩

section

variable (h : StoreRing s stores w)
include h

/-- A store in the queue is replaced by the same store with other fields. -/
theorem setStore (he : stores[i]? = some e) (hseq : u.seqNum = e.seqNum) (hin : u.inst.isSome) (hca : e.canWB → u.canWB)
    (hco : u.completed → i < w ∧ (s.storeHead + i) % cfg.sqEntries ∉ s.inFlight)
    (hn : n + e.toWB.toNat = s.storesToWB + u.toWB.toNat) :
    StoreRing ({ s.setStore ((s.storeHead + i) % cfg.sqEntries) u with storesToWB := n } : State cfg)
      (stores.set i u) w := by
  obtain ⟨hi, hget⟩ := List.getElem?_eq_some_iff.1 he
  have hse : (stores.set i u)[i]? = some u := List.getElem?_set_self hi
  refine { h with
    queue := h.queue.set hi u
    inst := fun x hx => ?_
    sorted := by rw [map_seqNum_set he hseq]; exact h.sorted
    le_last := fun x hx => ?_
    w_le := by rw [length_set]; exact h.w_le
    written := fun hj hx => ?_
    notCompleted := fun hj hx => ?_
    storesToWB_eq := ?_
    waiting := fun hwa => ?_
    inFlight := fun idx hidx => ?_ }
  · rcases mem_or_eq_of_mem_set hx with hx | rfl
    · exact h.inst x hx
    · exact hin
  · rcases mem_or_eq_of_mem_set hx with hx | rfl
    · exact h.le_last x hx
    · rw [hseq]
      exact h.le_last e (mem_of_getElem? he)
  · rcases mem_set_cases hx with ⟨rfl, rfl⟩ | ⟨-, hx⟩
    · exact hca (h.written hj he)
    · exact h.written hj hx
  · rcases mem_set_cases hx with ⟨rfl, rfl⟩ | ⟨-, hx⟩
    · rw [← Bool.not_eq_true]
      exact fun htr => absurd (hco htr).1 (Nat.not_lt.2 hj)
    · exact h.notCompleted hj hx
  · show n = _
    have hpos : e.toWB.toNat ≤ stores.countP toWB := by
      cases hwb : e.toWB with
      | false => exact Nat.zero_le _
      | true => exact countP_pos_iff.2 ⟨e, mem_of_getElem? he, hwb⟩
    rw [countP_set hi, hget, ← h.storesToWB_eq]
    rw [← h.storesToWB_eq] at hpos
    cases hwb : e.toWB <;> cases hwb' : u.toWB <;> simp_all <;> omega
  · obtain ⟨x, hx, hxwb⟩ := h.waiting hwa
    by_cases hw : w = i
    · subst hw
      cases hx.symm.trans he
      exact ⟨u, hse, hca hxwb⟩
    · exact ⟨x, by rw [getElem?_set_ne (Ne.symm hw), hx], hxwb⟩
  · obtain ⟨j, x, hjw, hx, hxc, rfl⟩ := h.inFlight idx hidx
    by_cases hj : j = i
    · subst hj
      refine ⟨j, u, hjw, hse, ?_, rfl⟩
      rw [← Bool.not_eq_true]
      exact fun htr => (hco htr).2 hidx
    · exact ⟨j, x, hjw, by rw [getElem?_set_ne (Ne.symm hj), hx], hxc, rfl⟩

theorem insertStore {inst : StoreInst} (hseq : s.lastSeqNum < inst.seqNum) (hs : s.insertStore inst = .ok s') :
    StoreRing s' (stores ++ [{ inst := some inst }]) w ∧ s'.storeHead = s.storeHead ∧
      SameLoads { s with lastSeqNum := inst.seqNum } s' := by
  rw [State.insertStore] at hs
  split at hs
  · cases hs
  rename_i hro
  cases hs
  have hw := h.w_le
  refine ⟨{ h with
    queue := h.queue.push (fun heq => hro (.inl heq)) _
    inst := fun e he => ?_
    sorted := ?_
    le_last := fun e he => ?_
    w_le := by rw [length_append]; omega
    written := fun hi he => ?_
    notCompleted := fun hi he => ?_
    storesToWB_eq := ?_
    waiting := fun hwa => ?_
    inFlight := fun idx hidx => ?_ }, rfl, {}⟩
  · rcases mem_append.1 he with he | he
    · exact h.inst e he
    · cases mem_singleton.1 he
      rfl
  · rw [map_append, pairwise_append]
    refine ⟨h.sorted, pairwise_singleton _ _, fun n hn m hm => ?_⟩
    cases mem_singleton.1 hm
    obtain ⟨e, he, rfl⟩ := mem_map.1 hn
    exact Nat.lt_of_le_of_lt (h.le_last e he) hseq
  · rcases mem_append.1 he with he | he
    · exact (h.le_last e he).trans hseq.le
    · cases mem_singleton.1 he
      exact le_rfl
  · rw [List.getElem?_append_left (by omega)] at he
    exact h.written hi he
  · rw [getElem?_append] at he
    split at he
    · exact h.notCompleted hi he
    · cases mem_singleton.1 (mem_of_getElem? he)
      rfl
  · rw [countP_append, ← h.storesToWB_eq]
    rfl
  · obtain ⟨e, he, hwb⟩ := h.waiting hwa
    obtain ⟨hlt, -⟩ := List.getElem?_eq_some_iff.1 he
    exact ⟨e, by rw [List.getElem?_append_left hlt, he], hwb⟩
  · obtain ⟨i, e, hi, he, hre⟩ := h.inFlight idx hidx
    exact ⟨i, e, hi, by rw [List.getElem?_append_left (by omega), he], hre⟩

theorem insertLoad {num : Nat} (hseq : s.lastSeqNum < num)
    (hs : s.insertLoad num = .ok s') : StoreRing s' stores w := by
  rw [State.insertLoad] at hs
  split at hs
  · cases hs
  · cases hs
    exact { h with le_last := fun e he => (h.le_last e he).trans hseq.le }

theorem writebackLoad (hs : s.writebackLoad idx = .ok s') : StoreRing s' stores w := by
  rw [State.writebackLoad] at hs
  split at hs
  · cases hs
  · cases hs
    exact { h with }

end

/-! ### Executing and committing -/

section

variable (h : StoreRing s stores w)
include h

section

variable (he : stores[i]? = some e) (hwb : e.canWB = false)
include he hwb

/-- A store that may not be written back yet has not been passed and has not completed. -/
theorem open_of_canWB_false : w ≤ i ∧ e.completed = false := by
  have hwi : w ≤ i := by
    by_contra hlt
    rw [h.written (Nat.lt_of_not_le hlt) he] at hwb
    cases hwb
  exact ⟨hwi, h.notCompleted hwi he⟩

/-- A store that may not be written back yet is given other fields, and perhaps may be from now on. -/
theorem setOpen (hseq : u.seqNum = e.seqNum) (hin : u.inst.isSome) (hco : u.completed = e.completed) :
    StoreRing ({ s.setStore ((s.storeHead + i) % cfg.sqEntries) u with
      storesToWB := s.storesToWB + u.canWB.toNat } : State cfg) (stores.set i u) w := by
  obtain ⟨-, ho⟩ := h.open_of_canWB_false he hwb
  refine h.setStore he hseq hin (fun htr => ?_) (fun htr => ?_) ?_
  · rw [hwb] at htr
    cases htr
  · rw [hco, ho] at htr
    cases htr
  · simp [toWB, hwb, hco, ho]

/-- The store is given its address and data. -/
theorem write {req : WriteReq} (hs : s.write ((s.storeHead + i) % cfg.sqEntries) req = .ok s') :
    ∃ u, s' = s.setStore ((s.storeHead + i) % cfg.sqEntries) u ∧ StoreRing s' (stores.set i u) w ∧
      u.seqNum = e.seqNum ∧ u.canWB = false ∧ (e.Valid → u.Valid) ∧ u.inst.isSome ∧
      ∀ inst' ∈ u.inst, ∃ inst ∈ e.inst, inst'.isStoreConditional = inst.isStoreConditional := by
  rw [State.write, h.storeQueue_eq he] at hs
  split at hs
  · cases hs
  rename_i inst hin
  split at hs
  · rename_i hsi
    cases hs
    obtain ⟨-, ho⟩ := h.open_of_canWB_false he hwb
    refine ⟨_, rfl, h.setStore he (by simp [seqNum, hin]) rfl (fun htr => htr) (fun htr => ?_) rfl,
      by simp [seqNum, hin], hwb, fun hv => ⟨rfl, ?_, ?_, ?_⟩, rfl, ?_⟩
    · rw [show e.completed = true from htr] at ho
      cases ho
    · intro _ inst' hi'
      cases hi'
      rfl
    · intro hz
      rcases hsi with hsi | hzero
      · exact (Nat.mod_le _ _).trans hsi
      · rw [show req.cacheBlockZero = false from hz] at hzero
        cases hzero
    · dsimp only
      split
      · exact hv.data_length
      rename_i hzero
      have hleng := req.data_length (by simpa using hzero)
      have hs' : req.size ≤ 16 := hsi.resolve_right hzero
      rw [length_append, length_take, length_drop, hv.data_length, hleng]
      omega
    · intro inst' hi'
      cases hi'
      exact ⟨inst, hin, rfl⟩
  · cases hs

end

/-- Only a store conditional may be written back when it has executed. -/
theorem executeStore {req : Option WriteReq}
    (hidx : idx ∈ between cfg.sqEntries s.storeHead s.storeTail) (hwb : (s.storeQueue idx).canWB = false)
    (hs : s.executeStore idx req = .ok s') : ∃ stores', StoreRing s' stores' w ∧ SameLoads s s' ∧ Follows cfg.sqEntries
      (fun n => ∃ inst ∈ (s.storeQueue idx).inst, inst.isStoreConditional ∧ n = inst.seqNum) 0
      s.storeHead s'.storeHead stores stores' := by
  obtain ⟨i, e, he, rfl⟩ := h.queue.exists_of_mem_between hidx
  have hh := h.queue.window.head_lt
  rw [h.storeQueue_eq he] at hwb ⊢
  obtain ⟨hlt, hget⟩ := List.getElem?_eq_some_iff.1 he
  obtain ⟨s₁, hwrite, hs⟩ := Fallible.bind_eq_ok.1 hs
  -- the store as it is after the write
  obtain ⟨e₁, h₁, hh₁, hsa, hwb₁, hi₁, hseq₁, hv₁, hsc₁⟩ : ∃ e₁, StoreRing s₁ (stores.set i e₁) w ∧
      s₁.storeHead = s.storeHead ∧ SameLoads s s₁ ∧ e₁.canWB = false ∧ e₁.inst.isSome ∧ e₁.seqNum = e.seqNum ∧
      (e.Valid → e₁.Valid) ∧ ∀ inst' ∈ e₁.inst, ∃ inst ∈ e.inst, inst'.isStoreConditional = inst.isStoreConditional := by
    rcases req with - | req
    · cases hwrite
      refine ⟨e, ?_, rfl, {}, hwb, h.inst e (mem_of_getElem? he), rfl, id, fun inst hin => ⟨inst, hin, rfl⟩⟩
      rw [← hget, set_getElem_self]
      exact h
    · obtain ⟨e₁, rfl, h₁, hseq₁, hwb₁, hv₁, hi₁, hsc₁⟩ := h.write he hwb hwrite
      exact ⟨e₁, h₁, rfl, {}, hwb₁, hi₁, hseq₁, hv₁, hsc₁⟩
  have he₁ : (stores.set i e₁)[i]? = some e₁ := List.getElem?_set_self hlt
  rw [← hh₁, h₁.storeQueue_eq he₁] at hs
  dsimp only at hs
  split at hs
  · cases hs
  rename_i inst hin
  split_ifs at hs with hsc
  · cases hs
    obtain ⟨inst₀, hi₀, hsc₀⟩ := hsc₁ inst hin
    have hri := h₁.setOpen (u := { e₁ with canWB := true }) he₁ hwb₁ rfl hi₁ rfl
    rw [set_set] at hri
    refine ⟨_, hri, hsa.trans {}, .set hh hh₁ he hseq₁ (fun hv => ?_) fun _ => .inr ?_⟩
    · exact ⟨(hv₁ hv).1, (hv₁ hv).2, (hv₁ hv).3, (hv₁ hv).4⟩
    · refine ⟨inst₀, hi₀, hsc₀ ▸ hsc.2, ?_⟩
      rw [seqNum, Option.mem_def.1 hi₀]
      rfl
  · cases hs
    refine ⟨_, h₁, hsa, .set hh hh₁ he hseq₁ hv₁ fun htr => ?_⟩
    rw [hwb₁] at htr
    cases htr

end

/-- Every round of `commitStores` may mark one more store. -/
theorem commitStoresLoop {youngest : Nat} : ∀ {l : List Nat} {i : Nat} {s : State cfg} {stores : List SQEntry},
    StoreRing s stores w → i ≤ stores.length →
    between cfg.sqEntries ((s.storeHead + i) % cfg.sqEntries) s.storeTail = l →
    State.commitStoresLoop youngest l s = .ok s' → ∃ stores', StoreRing s' stores' w ∧ SameLoads s s' ∧
      Follows cfg.sqEntries (· ≤ youngest) 0 s.storeHead s'.storeHead stores stores'
  | [], i, s, stores, h, _, _, hs => by
    cases hs
    exact ⟨stores, h, {}, .refl h.queue.window.head_lt rfl⟩
  | idx :: rest, i, s, stores, h, hi, hl, hs => by
    have hlen := h.queue.window.length_lt
    have hh := h.queue.window.head_lt
    have hlt : i < stores.length := by
      refine lt_of_le_of_ne hi fun heq => ?_
      rw [h.queue.tail_eq, heq, between_self (Nat.mod_lt _ (by omega))] at hl
      cases hl
    rw [h.queue.tail_eq, between_succ hh hlt hlen] at hl
    obtain ⟨rfl, hre⟩ := List.cons.inj hl
    rw [← h.queue.tail_eq] at hre
    have he := getElem?_eq_getElem hlt
    rw [State.commitStoresLoop, h.storeQueue_eq he] at hs
    split at hs
    · cases hs
    rename_i inst hin
    split at hs
    · exact commitStoresLoop h hlt hre hs
    rename_i hwb
    split at hs
    · cases hs
      exact ⟨stores, h, {}, .refl hh rfl⟩
    rename_i hold
    have hset := h.setOpen (u := { stores[i] with canWB := true }) he (by simpa using hwb) rfl (by rw [hin]; rfl) rfl
    obtain ⟨stores', hri, hsa, hf⟩ := commitStoresLoop hset (by rw [length_set]; exact hlt) hre hs
    have hfi : Follows cfg.sqEntries (· ≤ youngest) 0 s.storeHead s.storeHead stores
        (stores.set i { stores[i] with canWB := true }) := by
      refine .set hh rfl he rfl (fun hv => ⟨hv.1, hv.2, hv.3, hv.4⟩) fun _ => .inr ?_
      rw [seqNum, hin]
      exact Nat.le_of_not_lt hold
    exact ⟨stores', hri, .trans {} hsa, hfi.trans hf⟩

theorem commitStores (h : StoreRing s stores w) {youngest : Nat} (hs : s.commitStores youngest = .ok s') :
    ∃ stores', StoreRing s' stores' w ∧ SameLoads s s' ∧
      Follows cfg.sqEntries (· ≤ youngest) 0 s.storeHead s'.storeHead stores stores' :=
  h.commitStoresLoop (Nat.zero_le _) (by rw [Nat.add_zero, Nat.mod_eq_of_lt h.queue.window.head_lt]) hs

/-! ### Completing and writing back -/

section

variable (h : StoreRing s stores w)
include h

/-- The stores at the beginning that have completed leave. -/
theorem dropStores (hk : k ≤ w) (hco : ∀ {i e}, i < k → stores[i]? = some e → e.completed) :
    StoreRing ({ s with storeHead := (s.storeHead + k) % cfg.sqEntries, stores := s.stores - k } : State cfg)
      (stores.drop k) (w - k) := by
  have hw := h.w_le
  have hsh : ∀ n, k ≤ n → (s.storeHead + n) % cfg.sqEntries =
      ((s.storeHead + k) % cfg.sqEntries + (n - k)) % cfg.sqEntries := by
    intro n hn
    rw [Nat.mod_add_mod, show s.storeHead + k + (n - k) = s.storeHead + n by omega]
  refine { h with
    queue := h.queue.drop (by omega)
    storeWBIdx_eq := by rw [← hsh w hk]; exact h.storeWBIdx_eq
    inst := fun e he => h.inst e (mem_of_mem_drop he)
    sorted := by rw [map_drop]; exact h.sorted.drop
    le_last := fun e he => h.le_last e (mem_of_mem_drop he)
    w_le := by rw [length_drop]; omega
    written := fun {i e} hi he => h.written (i := k + i) (by omega) (by rwa [getElem?_drop] at he)
    notCompleted := fun {i e} hi he => h.notCompleted (i := k + i) (by omega) (by rwa [getElem?_drop] at he)
    storesToWB_eq := ?_
    waiting := fun hwa => ?_
    inFlight := fun idx hidx => ?_ }
  · have hta : (stores.take k).countP toWB = 0 := by
      refine countP_eq_zero.2 fun e he => ?_
      obtain ⟨i, hi⟩ := mem_iff_getElem?.1 he
      rw [getElem?_take] at hi
      split at hi
      · rename_i hik
        rw [toWB, hco hik hi, Bool.not_true, Bool.and_false]
        exact Bool.false_ne_true
      · cases hi
    have hsp : stores.countP toWB = (stores.take k ++ stores.drop k).countP toWB := by
      rw [take_append_drop]
    rw [countP_append, hta, zero_add] at hsp
    exact h.storesToWB_eq.trans hsp
  · obtain ⟨e, he, hwb⟩ := h.waiting hwa
    exact ⟨e, by rw [getElem?_drop, show k + (w - k) = w by omega, he], hwb⟩
  · obtain ⟨i, e, hi, he, ho, rfl⟩ := h.inFlight idx hidx
    have hki : k ≤ i := by
      by_contra hlt
      rw [hco (Nat.lt_of_not_le hlt) he] at ho
      cases ho
    exact ⟨i - k, e, by omega, by rw [getElem?_drop, show k + (i - k) = i by omega, he], ho, hsh i hki⟩

/-- The completed stores behind position `i`. -/
theorem completedBehind_eq (hi : i ≤ stores.length) : completedBehind s.storeQueue
        (between cfg.sqEntries ((s.storeHead + i) % cfg.sqEntries) s.storeTail) =
      ((stores.drop i).takeWhile completed).length := by
  have hlen := h.queue.window.length_lt
  rw [h.queue.tail_eq]
  induction hn : stores.length - i generalizing i with
  | zero =>
    obtain rfl : i = stores.length := by omega
    rw [between_self (Nat.mod_lt _ (Nat.lt_of_le_of_lt (Nat.zero_le _) hlen)), drop_length]
    rfl
  | succ n ih =>
    have hlt : i < stores.length := by omega
    rw [between_succ h.queue.window.head_lt hlt hlen, completedBehind, h.queue.window.get i hlt,
      ← getElem_cons_drop hlt, takeWhile_cons, ih hlt (by omega)]
    split <;> rfl

/-- A completed store leaves, when it is the first, with the completed ones behind it. -/
theorem removeCompleted (he : stores[i]? = some e) (hi : i < w) (hco : e.completed) :
    ∃ k ≤ w, StoreRing (s.removeCompleted ((s.storeHead + i) % cfg.sqEntries)) (stores.drop k) (w - k) ∧
      (s.removeCompleted ((s.storeHead + i) % cfg.sqEntries)).storeHead = (s.storeHead + k) % cfg.sqEntries := by
  have hw := h.w_le
  have hlen := h.queue.window.length_lt
  have hh := h.queue.window.head_lt
  rw [State.removeCompleted]
  split_ifs with hf
  · have hi0 : i = 0 := add_mod_inj hh (by omega) (by omega) (hf.trans (by rw [Nat.add_zero, Nat.mod_eq_of_lt hh]))
    subst hi0
    obtain ⟨hpos, rfl⟩ := List.getElem?_eq_some_iff.1 he
    set k := ((stores.drop 1).takeWhile completed).length with hk
    -- the stores that leave
    have hall : ∀ {j x}, j < k + 1 → stores[j]? = some x → x.completed := by
      intro j x hj hx
      rcases j with - | j
      · rw [getElem?_eq_getElem hpos] at hx
        exact Option.some.inj hx ▸ hco
      · have hpr := takeWhile_prefix (p := completed) (l := stores.drop 1)
        have hx' : ((stores.drop 1).takeWhile completed)[j]? = some x := by
          rw [prefix_iff_eq_take.1 hpr, getElem?_take_of_lt (by omega), getElem?_drop, add_comm, hx]
        exact all_eq_true.1 all_takeWhile x (mem_of_getElem? hx')
    have hkw : k + 1 ≤ w := by
      -- a store that has not been written back has not completed
      by_contra hlt
      have hle := (takeWhile_sublist completed (l := stores.drop 1)).length_le
      rw [length_drop, ← hk] at hle
      have hx := getElem?_eq_getElem (show w < stores.length by omega)
      have ho := h.notCompleted le_rfl hx
      rw [hall (by omega) hx] at ho
      cases ho
    rw [h.queue.next_head, h.completedBehind_eq (by omega)]
    exact ⟨k + 1, hkw, h.dropStores hkw hall, rfl⟩
  · exact ⟨0, Nat.zero_le _, h, (Nat.mod_eq_of_lt hh).symm⟩

/-- A store that has been written back completes. -/
theorem completeStore (he : stores[i]? = some e) (hi : i < w) (ho : e.completed = false)
    (hf : (s.storeHead + i) % cfg.sqEntries ∉ s.inFlight)
    (hs : s.completeStore ((s.storeHead + i) % cfg.sqEntries) = .ok s') :
    ∃ stores' w' k, StoreRing s' stores' w' ∧
      Follows cfg.sqEntries (fun _ => False) k s.storeHead s'.storeHead stores stores' := by
  rw [State.completeStore, h.storeQueue_eq he] at hs
  split at hs
  · cases hs
  rename_i inst hin
  cases hs
  obtain ⟨hlt, -⟩ := List.getElem?_eq_some_iff.1 he
  have hwb := h.written hi he
  have hpos : 0 < s.storesToWB := by
    rw [h.storesToWB_eq]
    exact countP_pos_iff.2 ⟨e, mem_of_getElem? he, by simp [toWB, hwb, ho]⟩
  have hset := h.setStore (u := { e with completed := true }) (n := s.storesToWB - 1) he rfl
    (by rw [hin]; rfl) (fun htr => htr) (fun _ => ⟨hi, hf⟩) (by
      simp [toWB, hwb, ho]
      omega)
  obtain ⟨k, hk, hre, hh⟩ := hset.removeCompleted (List.getElem?_set_self hlt) hi rfl
  have hfi : Follows cfg.sqEntries (fun _ => False) 0 s.storeHead s.storeHead stores
      (stores.set i { e with completed := true }) :=
    .set h.queue.window.head_lt rfl he rfl (fun hv => ⟨hv.1, hv.2, hv.3, hv.4⟩) .inl
  -- the counter could as well have been decremented first
  rw [removeCompleted_storesToWB] at hre hh
  refine ⟨_, _, 0 + k, { hre with }, hfi.trans (.drop (hk.trans hset.w_le) hh fun hj hx => ?_)⟩
  exact hset.written (lt_of_lt_of_le hj hk) hx

/-- The next store has been written back. -/
theorem incrWBIdx (he : stores[w]? = some e) (hwb : e.canWB)
    (hre : s.retryPkt = none) (hpe : s.pendingPkt = none) : StoreRing s.incrWBIdx stores (w + 1) := by
  obtain ⟨hlt, hget⟩ := List.getElem?_eq_some_iff.1 he
  refine { h with
    storeWBIdx_eq := ?_
    w_le := hlt
    written := fun {i x} hi hx => ?_
    notCompleted := fun hi hx => h.notCompleted (by omega) hx
    waiting := fun hwa => ?_
    inFlight := fun idx hidx => ?_ }
  · show Ring.next _ s.storeWBIdx = _
    rw [h.storeWBIdx_eq, next_add_mod h.queue.window.head_lt]
    rfl
  · rcases Nat.lt_succ_iff_lt_or_eq.1 hi with hi | rfl
    · exact h.written hi hx
    · exact Option.some.inj (he.symm.trans hx) ▸ hwb
  · rw [State.incrWBIdx] at hwa
    simp [hre, hpe] at hwa
  · obtain ⟨i, x, hi, hres⟩ := h.inFlight idx hidx
    exact ⟨i, x, Nat.lt_succ_of_lt hi, hres⟩

/-- The next store is not in the memory system. -/
theorem storeWBIdx_not_mem (he : stores[w]? = some e) : s.storeWBIdx ∉ s.inFlight := by
  intro hmem
  obtain ⟨hlt, -⟩ := List.getElem?_eq_some_iff.1 he
  have hlen := h.queue.window.length_lt
  obtain ⟨i, x, hi, -, -, heq⟩ := h.inFlight _ hmem
  have := add_mod_inj h.queue.window.head_lt (by omega) (by omega) (h.storeWBIdx_eq.symm.trans heq)
  omega

/-- All packets of the next store have been sent. -/
theorem storePostSend (he : stores[w]? = some e) (hwb : e.canWB)
    (hre : s.retryPkt = none) (hpe : s.pendingPkt = none) (hs : s.storePostSend = .ok s') :
    StoreRing s' stores (w + 1) := by
  rw [State.storePostSend] at hs
  split at hs
  · cases hs
  cases hs
  have hnext := h.incrWBIdx he hwb hre hpe
  refine { hnext with inFlight := fun idx hmem => ?_, inFlight_nodup := ?_ }
  · rcases mem_append.1 hmem with hmem | hmem
    · exact hnext.inFlight idx hmem
    · cases mem_singleton.1 hmem
      exact ⟨w, e, Nat.lt_succ_self w, he, h.notCompleted le_rfl he, h.storeWBIdx_eq⟩
  · refine nodup_append.2 ⟨h.inFlight_nodup, nodup_singleton _, fun x hx y hy hxy => ?_⟩
    cases mem_singleton.1 hy
    exact h.storeWBIdx_not_mem he (hxy ▸ hx)

end

theorem storePostSend_storeHead (hs : s.storePostSend = .ok s') : s'.storeHead = s.storeHead := by
  rw [State.storePostSend] at hs
  split at hs
  · cases hs
  · cases hs
    rfl

section

variable (h : StoreRing s stores w)
include h

/-- A packet of the next store has been refused. -/
theorem refused (he : stores[w]? = some e) (hwb : e.canWB) (hpe : s.pendingPkt = none) (packet : StorePacket) :
    StoreRing ({ s with isStoreBlocked := true, retryPkt := some packet } : State cfg) stores w :=
  { h with
    blocked := fun _ => rfl
    waiting := fun _ => ⟨e, he, hwb⟩
    onePacket := fun _ => hpe }

theorem retryPkt_of_pendingPkt (hso : s.pendingPkt.isSome) : s.retryPkt = none := by
  by_contra hre
  rw [h.onePacket (Option.isSome_iff_ne_none.2 hre)] at hso
  cases hso

/-- Every step of writing back keeps the ring. -/
theorem wbStep (hst : WBStep s s') : ∃ stores' w' k, StoreRing s' stores' w' ∧
    Follows cfg.sqEntries (fun _ => False) k s.storeHead s'.storeHead stores stores' := by
  have hh := h.queue.window.head_lt
  cases hst with
  | commit hre =>
    obtain ⟨e, he, hce, hwb, -, -⟩ := h.ready hre
    have ho := h.notCompleted le_rfl he
    have hset := h.setStore (u := { e with committed := true }) (n := s.storesToWB) he rfl
      (h.inst e (mem_of_getElem? he)) (fun htr => htr) (fun htr => ?_) rfl
    · rw [hce, h.storeWBIdx_eq]
      exact ⟨_, _, _, hset, .set hh rfl he rfl (fun hv => ⟨hv.1, hv.2, hv.3, hv.4⟩) .inl⟩
    · rw [show ({ e with committed := true } : SQEntry).completed = e.completed from rfl, ho] at htr
      cases htr
  | pass hre =>
    obtain ⟨e, he, -, hwb, hret, hpe⟩ := h.ready hre
    exact ⟨_, _, _, h.incrWBIdx he hwb hret hpe, .refl hh rfl⟩
  | complete hre hs =>
    obtain ⟨e, he, -, hwb, hret, hpe⟩ := h.ready hre
    have hs' := completeStore_incrWBIdx hs
    have hf := h.storeWBIdx_not_mem he
    rw [h.storeWBIdx_eq] at hs' hf
    exact (h.incrWBIdx he hwb hret hpe).completeStore he (Nat.lt_succ_self w) (h.notCompleted le_rfl he) hf hs'
  | send hre hs =>
    obtain ⟨e, he, -, hwb, hret, hpe⟩ := h.ready hre
    exact ⟨_, _, _, h.storePostSend he hwb hret hpe hs, .refl hh (storePostSend_storeHead hs :)⟩
  | refuse hre packet =>
    obtain ⟨e, he, -, hwb, -, hpe⟩ := h.ready hre
    exact ⟨_, _, _, h.refused he hwb hpe packet, .refl hh rfl⟩
  | hold hre =>
    obtain ⟨e, he, -, hwb, hret, -⟩ := h.ready hre
    refine ⟨_, _, _, { h with waiting := fun _ => ⟨e, he, hwb⟩, onePacket := fun hso => ?_ }, .refl hh rfl⟩
    rw [hret] at hso
    cases hso
  | sendPending hso hs =>
    obtain ⟨e, he, hwb⟩ := h.waiting (.inr hso)
    have hcl : StoreRing ({ s with pendingPkt := none } : State cfg) stores w :=
      { h with waiting := fun _ => ⟨e, he, hwb⟩, onePacket := fun _ => rfl }
    exact ⟨_, _, _, hcl.storePostSend he hwb (h.retryPkt_of_pendingPkt hso) rfl hs,
      .refl hh (storePostSend_storeHead hs :)⟩
  | refusePending hso packet =>
    obtain ⟨e, he, hwb⟩ := h.waiting (.inr hso)
    exact ⟨_, _, _, { h with
      blocked := fun _ => rfl, waiting := fun _ => ⟨e, he, hwb⟩, onePacket := fun _ => rfl }, .refl hh rfl⟩
  | sendRetry hso hs =>
    obtain ⟨e, he, hwb⟩ := h.waiting (.inl hso)
    have hcl : StoreRing ({ s with retryPkt := none, isStoreBlocked := false } : State cfg) stores w :=
      { h with blocked := nofun, waiting := fun _ => ⟨e, he, hwb⟩, onePacket := nofun }
    exact ⟨_, _, _, hcl.storePostSend he hwb rfl (h.onePacket hso) hs, .refl hh (storePostSend_storeHead hs :)⟩
  | refuseRetry hso packet =>
    obtain ⟨e, he, hwb⟩ := h.waiting (.inl hso)
    exact ⟨_, _, _, h.refused he hwb (h.onePacket hso) packet, .refl hh rfl⟩

theorem wbSteps (hst : ReflTransGen WBStep s s') : ∃ stores' w' k, StoreRing s' stores' w' ∧
    SameLoads s s' ∧ Follows cfg.sqEntries (fun _ => False) k s.storeHead s'.storeHead stores stores' := by
  induction hst with
  | refl => exact ⟨stores, w, 0, h, {}, .refl h.queue.window.head_lt rfl⟩
  | tail _ hste ih =>
    obtain ⟨stores₁, w₁, k₁, h₁, hsa, hf₁⟩ := ih
    obtain ⟨stores', w', k', h', hf'⟩ := h₁.wbStep hste
    exact ⟨stores', w', k₁ + k', h', hsa.trans (.wbStep hste), hf₁.trans hf'⟩

/-- A store in the memory system completes. -/
theorem completeDataAccess (hidx : idx ∈ s.inFlight)
    (hs : s.completeDataAccess idx = .ok s') : ∃ stores' w' k, StoreRing s' stores' w' ∧ SameLoads s s' ∧
      Follows cfg.sqEntries (fun _ => False) k s.storeHead s'.storeHead stores stores' := by
  obtain ⟨i, e, hi, he, ho, rfl⟩ := h.inFlight idx hidx
  have hera : StoreRing ({ s with
      inFlight := s.inFlight.erase ((s.storeHead + i) % cfg.sqEntries) } : State cfg) stores w :=
    { h with
      inFlight := fun idx hmem => h.inFlight idx (mem_of_mem_erase hmem)
      inFlight_nodup := h.inFlight_nodup.erase _ }
  obtain ⟨stores', w', k, h', hf⟩ := hera.completeStore he hi ho (fun hmem => h.inFlight_nodup.not_mem_erase hmem) hs
  exact ⟨stores', w', k, h', .trans {} (.completeStore hs), hf⟩

end

/-! ### Squashing -/

/-- The youngest store leaves, which may not be written back yet. -/
theorem popBack (h : StoreRing s (stores ++ [e]) w) (hwb : e.canWB = false) (entry : SQEntry) :
    StoreRing ({ s.setStore (prev cfg.sqEntries s.storeTail) entry with
      storeTail := prev cfg.sqEntries s.storeTail
      stores := s.stores - 1 } : State cfg) stores w := by
  have hla : (stores ++ [e])[stores.length]? = some e := getElem?_concat_length
  obtain ⟨hw, ho⟩ := h.open_of_canWB_false hla hwb
  have hget : ∀ {j x}, stores[j]? = some x → (stores ++ [e])[j]? = some x := fun {j x} hx => by
    obtain ⟨hlt, -⟩ := List.getElem?_eq_some_iff.1 hx
    rw [List.getElem?_append_left hlt, hx]
  refine { h with
    queue := h.queue.popBack entry
    inst := fun x hx => h.inst x (mem_append_left _ hx)
    sorted := ?_
    le_last := fun x hx => h.le_last x (mem_append_left _ hx)
    w_le := hw
    written := fun hi hx => h.written hi (hget hx)
    notCompleted := fun hi hx => h.notCompleted hi (hget hx)
    storesToWB_eq := ?_
    waiting := fun hwa => ?_
    inFlight := fun idx hidx => ?_ }
  · have hso := h.sorted
    rw [map_append, pairwise_append] at hso
    exact hso.1
  · have hco := h.storesToWB_eq
    rw [countP_append, countP_singleton, toWB, hwb, Bool.false_and] at hco
    exact hco
  · obtain ⟨x, hx, hxwb⟩ := h.waiting hwa
    rw [getElem?_append] at hx
    split at hx
    · exact ⟨x, hx, hxwb⟩
    · -- the last store is not the one to be sent
      rw [mem_singleton.1 (mem_of_getElem? hx), hwb] at hxwb
      cases hxwb
  · obtain ⟨j, x, hj, hx, hre⟩ := h.inFlight idx hidx
    rw [List.getElem?_append_left (by omega)] at hx
    exact ⟨j, x, hj, hx, hre⟩

/-- The loop removes the youngest stores up to one that is old enough or marked, if it does not stop at the panic. -/
theorem squashStores (num : Nat) : ∀ {k : Nat} {stores : List SQEntry} {s : State cfg}, StoreRing s stores w →
    stores.length = k → (∃ s', State.squashStores num k s = .ok s' ∧
      StoreRing s' (stores.rdropWhile fun e => num < e.seqNum && !e.canWB) w ∧ SameLoads s s' ∧
      s'.storeHead = s.storeHead) ∨
    State.squashStores num k s = .error .stillStalled
  | 0, stores, s, h, hk => by
    cases length_eq_zero_iff.1 hk
    exact .inl ⟨s, rfl, h, {}, rfl⟩
  | k + 1, stores, s, h, hk => by
    obtain ⟨stores₀, e, rfl⟩ := (eq_nil_or_concat stores).resolve_left fun hnil => by
      rw [hnil] at hk
      cases hk
    rw [concat_eq_append] at h hk ⊢
    rw [length_append, length_singleton] at hk
    obtain ⟨inst, hin⟩ := Option.isSome_iff_exists.1 (h.inst e (mem_append_right _ (mem_singleton_self e)))
    have hseq : e.seqNum = inst.seqNum := by
      rw [seqNum, hin]
      rfl
    rw [State.squashStores]
    rw [h.queue.last_eq, hin, rdropWhile_concat]
    dsimp only
    rw [hseq]
    by_cases hsq : inst.seqNum > num ∧ !e.canWB
    · rw [if_pos hsq, if_pos (show (decide (num < inst.seqNum) && !e.canWB) = true by simpa using hsq)]
      split
      · exact .inr rfl
      · refine (squashStores num (h.popBack (by simpa using hsq.2) _) (by omega)).imp (fun hre => ?_) id
        obtain ⟨s', hs', hri, hsa, hh⟩ := hre
        exact ⟨s', hs', hri, .trans {} hsa, hh⟩
    · rw [if_neg hsq, if_neg (show ¬ (decide (num < inst.seqNum) && !e.canWB) = true by simpa using hsq)]
      exact .inl ⟨s, rfl, h, {}, rfl⟩

end StoreRing

/-! ## Loads -/

namespace LoadRing

variable {s s' : State cfg} {loads : List LoadInst} {load : LoadInst} {num idx : Nat}

theorem init : LoadRing (init cfg) [] := ⟨.nil cfg.lqEntries_pos, nofun, .nil, nofun⟩

section

variable (h : LoadRing s loads)
include h

theorem loads_eq : s.loads = loads.length := h.queue.count_eq.trans (length_map _)

theorem loadTail_eq : s.loadTail = (s.loadHead + loads.length) % cfg.lqEntries := by
  rw [h.queue.tail_eq, length_map]

theorem mem_of_loadQueue (hidx : s.loadQueue idx = some load) : load ∈ loads := by
  obtain ⟨i, hi, -⟩ := h.only idx load hidx
  exact mem_of_getElem? hi

theorem exists_of_mem (hlo : load ∈ loads) : ∃ idx < cfg.lqEntries, s.loadQueue idx = some load := by
  obtain ⟨i, hi⟩ := mem_iff_getElem?.1 hlo
  exact ⟨_, Nat.mod_lt _ cfg.lqEntries_pos, h.queue.get?_eq (by rw [getElem?_map, hi]; rfl)⟩

theorem later (hnum : s.lastSeqNum < num) : LoadRing ({ s with lastSeqNum := num } : State cfg) loads :=
  { h with le_last := fun load hlo => (h.le_last load hlo).trans hnum.le }

theorem insertLoad (hseq : s.lastSeqNum < num) (hs : s.insertLoad num = .ok s') :
    LoadRing s' (loads ++ [⟨num, if s.stores = 0 then none else some s.storeTail, false⟩]) := by
  rw [State.insertLoad] at hs
  split at hs
  · cases hs
  rename_i hro
  cases hs
  refine ⟨?_, ?_, ?_, fun load hlo => ?_⟩
  · rw [map_append]
    exact h.queue.push (fun heq => hro (.inl heq)) _
  · dsimp only
    rw [h.loadTail_eq]
    exact h.only.push _
  · rw [map_append, pairwise_append]
    refine ⟨h.sorted, pairwise_singleton _ _, fun n hn m hm => ?_⟩
    cases mem_singleton.1 hm
    obtain ⟨load, hlo, rfl⟩ := mem_map.1 hn
    exact Nat.lt_of_le_of_lt (h.le_last load hlo) hseq
  · rcases mem_append.1 hlo with hlo | hlo
    · exact (h.le_last load hlo).trans hseq.le
    · cases mem_singleton.1 hlo
      exact le_rfl

end

/-- A load that has executed is still the same load. -/
theorem writebackLoad (h : LoadRing s loads) (hs : s.writebackLoad idx = .ok s') :
    ∃ i load, loads[i]? = some load ∧ LoadRing s' (loads.set i { load with isExecuted := true }) := by
  rw [State.writebackLoad] at hs
  split at hs
  · cases hs
  rename_i load hlo
  cases hs
  obtain ⟨i, hi, rfl⟩ := h.only idx load hlo
  obtain ⟨hlt, hget⟩ := List.getElem?_eq_some_iff.1 hi
  refine ⟨i, load, hi, ?_, h.only.set hlt _, ?_, fun x hx => ?_⟩
  · rw [map_set]
    exact h.queue.set (by simpa using hlt) _
  · have hlt' : i < (loads.map LoadInst.seqNum).length := by simpa using hlt
    have hseq : load.seqNum = (loads.map LoadInst.seqNum)[i] := by rw [getElem_map, hget]
    rw [map_set, hseq, set_getElem_self]
    exact h.sorted
  · rcases mem_or_eq_of_mem_set hx with hx | rfl
    · exact h.le_last x hx
    · exact h.le_last load (mem_of_getElem? hi)

/-- The loop of `commitLoads` removes the oldest loads. -/
theorem commitLoadsLoop {youngest : Nat} : ∀ {loads : List LoadInst} {s : State cfg}, LoadRing s loads →
    State.commitLoadsLoop youngest loads.length s = .ok s' → ∃ loads', LoadRing s' loads' ∧ loads' ⊆ loads ∧
      ∀ load ∈ loads', youngest < load.seqNum
  | [], s, h, hs => by
    cases hs
    exact ⟨[], h, List.Subset.refl _, nofun⟩
  | load :: loads, s, h, hs => by
    have hf : s.loadQueue s.loadHead = some load := h.queue.first_eq
    obtain ⟨hles, hso⟩ := pairwise_cons.1 h.sorted
    rw [length_cons, State.commitLoadsLoop, hf] at hs
    dsimp only at hs
    split_ifs at hs with hy
    · have hpop : LoadRing ({ s.setLoad s.loadHead none with
          loadHead := next cfg.lqEntries s.loadHead
          loads := s.loads - 1 } : State cfg) loads :=
        ⟨h.queue.popFront none, by rw [h.queue.next_head]; exact h.only.popFront h.queue.window.head_lt, hso,
          fun x hx => h.le_last x (mem_cons_of_mem _ hx)⟩
      obtain ⟨loads', hri, hsub, hy⟩ := commitLoadsLoop hpop hs
      exact ⟨loads', hri, subset_cons_of_subset _ hsub, hy⟩
    · cases hs
      refine ⟨_, h, List.Subset.refl _, forall_mem_cons.2 ⟨Nat.lt_of_not_le hy, fun x hx => ?_⟩⟩
      exact (Nat.lt_of_not_le hy).trans (hles _ (mem_map_of_mem hx))

theorem commitLoads (h : LoadRing s loads) {youngest : Nat} (hs : s.commitLoads youngest = .ok s') :
    ∃ loads', LoadRing s' loads' ∧ loads' ⊆ loads ∧ ∀ load ∈ loads', youngest < load.seqNum := by
  rw [State.commitLoads, h.loads_eq] at hs
  exact h.commitLoadsLoop hs

/-- The loop of `squash` removes the youngest loads. -/
theorem squashLoads (num : Nat) : ∀ {k : Nat} {loads : List LoadInst} {s : State cfg}, LoadRing s loads → loads.length = k →
    ∃ s', State.squashLoads num k s = .ok s' ∧ LoadRing s' (loads.rdropWhile fun load => num < load.seqNum)
  | 0, loads, s, h, hk => by
    cases length_eq_zero_iff.1 hk
    exact ⟨s, rfl, h⟩
  | k + 1, loads, s, h, hk => by
    obtain ⟨loads₀, load, rfl⟩ := (eq_nil_or_concat loads).resolve_left fun hnil => by
      rw [hnil] at hk
      cases hk
    rw [concat_eq_append] at h hk ⊢
    rw [length_append, length_singleton] at hk
    have hqu := h.queue
    rw [map_append] at hqu
    have hla : s.loadQueue (prev cfg.lqEntries s.loadTail) = some load := hqu.last_eq
    have hprev := hqu.prev_tail
    rw [length_map] at hprev
    rw [State.squashLoads]
    dsimp only
    rw [hla, rdropWhile_concat]
    dsimp only
    by_cases hy : load.seqNum > num
    · rw [if_pos hy, if_pos (by simpa using hy)]
      have hso := h.sorted
      rw [map_append, pairwise_append] at hso
      refine squashLoads num ⟨hqu.popBack none, ?_, hso.1, fun x hx => h.le_last x (mem_append_left _ hx)⟩ (by omega)
      dsimp only [setLoad]
      rw [hprev]
      exact h.only.popBack
    · rw [if_neg hy, if_neg (by simpa using hy)]
      exact ⟨s, rfl, h⟩

end LoadRing

end GuardianCouncil.LSQUnit
