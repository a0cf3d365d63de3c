import GuardianCouncil.LSQUnit.Calls

/-!
# The order of the queues

The pipeline calls an `LSQUnit` in a certain order (`Allows`): a load that is stalled has not committed, and a store
conditional executes when all older loads have committed.  Then no store may be written back before the older loads are
gone (`Committed`), and loads point behind the older stores (`Points`).  So the indices from `storeWBIdx` up to `sqIdx` are
the older stores that have not been written back.
-/

namespace GuardianCouncil.LSQUnit

open Fallible List Function

variable {cfg : Config}

/-- The queues are in program order, and no store is written back before older loads are gone. -/
def State.InOrder (s : State cfg) : Prop :=
  ∃ stores w loads, StoreRing s stores w ∧ LoadRing s loads ∧ Points s stores loads ∧ Committed stores loads ∧ s.Stalls

section

variable {s s' : State cfg} {stores stores' : List SQEntry} {loads loads' : List LoadInst} {load : LoadInst}
  {k w youngest : Nat} {new : Nat → Prop}

/-- The stores that leave must be older than the loads. -/
theorem Points.follows (h : Points s stores loads)
    (hf : Follows cfg.sqEntries new k s.storeHead s'.storeHead stores stores')
    (hold : ∀ n ∈ (stores.map SQEntry.seqNum).take k, ∀ load ∈ loads, n < load.seqNum) : Points s' stores' loads := by
  refine ⟨hf.valid h.valid, fun load hlo => ?_⟩
  have hco : olderStores stores load = k + olderStores stores' load := by
    rw [olderStores, olderStores, hf.nums]
    exact countP_drop (by simpa using hf.le) fun n hn => hold n hn load hlo
  obtain ⟨hno, hidx⟩ := h.points load hlo
  rw [hco] at hno hidx
  refine ⟨fun hn => (Nat.add_eq_zero_iff.1 (hno hn)).2, fun idx hmem => ?_⟩
  rw [hidx idx hmem, hf.head_eq, Nat.mod_add_mod, Nat.add_assoc]

theorem Points.of_subset (h : Points s stores loads) (hh : s'.storeHead = s.storeHead) (hsub : loads' ⊆ loads) :
    Points s' stores loads' :=
  ⟨h.valid, fun load hlo => hh.symm ▸ h.points load (hsub hlo)⟩

theorem Committed.allowed (h : Committed stores loads) (hnew : ∀ n, new n → ∀ load ∈ loads, n < load.seqNum) {n : Nat}
    (hn : Allowed new stores n) : ∀ load ∈ loads, n < load.seqNum := by
  rcases hn with hn | ⟨e, he, hwb, rfl⟩
  · exact hnew n hn
  · exact h e he hwb

/-- Stores are executed, sent, or complete. -/
theorem State.InOrder.follows (hst : StoreRing s' stores' w) (hlo : LoadRing s loads) (hsa : SameLoads s s')
    (hpo : Points s stores loads) (hco : Committed stores loads) (hsta : s.Stalls)
    (hf : Follows cfg.sqEntries new k s.storeHead s'.storeHead stores stores')
    (hnew : ∀ n, new n → ∀ load ∈ loads, n < load.seqNum) : s'.InOrder :=
  ⟨stores', w, loads, hst, hlo.congr hsa, hpo.follows hf fun n hn => hco.allowed hnew (hf.left n hn),
    fun e he hwb => hco.allowed hnew (hf.canWB e he hwb), hsa.stalls hsta⟩

/-- A load that enters points behind all stores. -/
theorem Points.insertLoad (h : Points s stores loads) (hst : StoreRing s stores w) {num : Nat}
    (hnum : s.lastSeqNum < num) (hs : s.insertLoad num = .ok s') :
    Points s' stores (loads ++ [⟨num, if s.stores = 0 then none else some s.storeTail, false⟩]) := by
  rw [State.insertLoad] at hs
  obtain ⟨-, hs⟩ := check_eq_ok.1 hs
  cases hs
  refine ⟨h.valid, fun load hlo => ?_⟩
  rcases mem_append.1 hlo with hlo | hlo
  · exact h.points load hlo
  cases mem_singleton.1 hlo
  have hall : olderStores stores ⟨num, if s.stores = 0 then none else some s.storeTail, false⟩ = stores.length := by
    rw [olderStores, countP_eq_length.2, length_map]
    intro n hn
    obtain ⟨e, he, rfl⟩ := mem_map.1 hn
    exact decide_eq_true (lt_of_le_of_lt (hst.le_last e he) hnum)
  rw [hall]
  dsimp only
  split_ifs with hzero
  · exact ⟨fun _ => hst.queue.count_eq ▸ hzero, fun _ hidx => (by cases hidx)⟩
  · refine ⟨fun hno => (by cases hno), fun idx hidx => ?_⟩
    cases hidx
    exact hst.queue.tail_eq

/-- A store that enters is younger than the loads. -/
theorem Points.insertStore (h : Points s stores loads) (hlo : LoadRing s loads) (hh : s'.storeHead = s.storeHead)
    {inst : StoreInst} (hnum : s.lastSeqNum < inst.seqNum) : Points s' (stores ++ [{ inst := some inst }]) loads := by
  refine ⟨fun e he => ?_, fun load hloa => ?_⟩
  · rcases mem_append.1 he with he | he
    · exact h.valid e he
    · cases mem_singleton.1 he
      exact ⟨rfl, fun hsi => absurd rfl hsi, fun _ => Nat.zero_le _, length_replicate ..⟩
  · have hy : ¬ SQEntry.seqNum { inst := some inst } < load.seqNum := by
      have := hlo.le_last load hloa
      show ¬ inst.seqNum < load.seqNum
      omega
    rw [olderStores_concat, if_neg hy, add_zero, hh]
    exact h.points load hloa

/-- The stores that a squash removes are not older than the loads that it leaves. -/
theorem Points.squash (h : Points s stores loads) (hh : s'.storeHead = s.storeHead) {num : Nat} {p : SQEntry → Bool}
    (hp : ∀ e ∈ stores, e.seqNum ≤ num → p e) :
    Points s' (stores.filter p) (loads.filter fun load => load.seqNum ≤ num) := by
  refine ⟨fun e he => h.valid e (mem_of_mem_filter he), fun load hlo => ?_⟩
  obtain ⟨hlo, hle⟩ := mem_filter.1 hlo
  have hco : olderStores (stores.filter p) load = olderStores stores load := by
    rw [olderStores, olderStores, countP_map, countP_map, countP_filter]
    refine countP_congr fun e he => ?_
    simp only [Function.comp, Bool.and_eq_true, decide_eq_true_eq, and_iff_left_iff_imp]
    exact fun hlt => hp e he (by have := of_decide_eq_true hle; omega)
  rw [hco, hh]
  exact h.points load hlo

end

/-! ## Runs -/

section

variable {s s' : State cfg} {stores : List SQEntry} {loads : List LoadInst} {idx w : Nat} {load : LoadInst}

theorem State.Stalls.setLoad (h : s.Stalls) :
    ({ s with loadQueue := update s.loadQueue idx (some load) } : State cfg).Stalls := by
  intro hst
  dsimp only
  rw [update_apply]
  split
  · rfl
  · exact h hst

section

variable (hsto : StoreRing s stores w) (hlo : LoadRing s loads) (hpo : Points s stores loads)
  (hco : Committed stores loads) (hsta : s.Stalls)
include hsto hlo hpo hco hsta

theorem State.InOrder.insertLoad {num : Nat} (hnum : s.lastSeqNum < num)
    (hs : s.insertLoad num = .ok s') : s'.InOrder := by
  refine ⟨stores, w, _, hsto.insertLoad hnum hs, hlo.insertLoad hnum hs, hpo.insertLoad hsto hnum hs,
    fun e he hwb load hloa => ?_, ?_⟩
  · rcases mem_append.1 hloa with hloa | hloa
    · exact hco e he hwb load hloa
    · cases mem_singleton.1 hloa
      exact lt_of_le_of_lt (hsto.le_last e he) hnum
  · rw [State.insertLoad] at hs
    obtain ⟨-, hs⟩ := check_eq_ok.1 hs
    cases hs
    exact hsta.setLoad

theorem State.InOrder.writebackLoad (hs : s.writebackLoad idx = .ok s') : s'.InOrder := by
  obtain ⟨i, load, hi, hl'⟩ := hlo.writebackLoad hs
  -- what holds of all loads holds of the new one
  have hall : ∀ {P : LoadInst → Prop}, (∀ x ∈ loads, P x) → (P load → P { load with isExecuted := true }) →
      ∀ x ∈ loads.set i { load with isExecuted := true }, P x := by
    intro P hP hnew x hx
    rcases mem_or_eq_of_mem_set hx with hx | rfl
    · exact hP x hx
    · exact hnew (hP load (mem_of_getElem? hi))
  have hs' := hsto.writebackLoad hs
  rw [State.writebackLoad] at hs
  split at hs
  · cases hs
  · cases hs
    exact ⟨stores, w, _, hs', hl', ⟨hpo.valid, hall hpo.points id⟩, fun e he hwb => hall (hco e he hwb) id, hsta.setLoad⟩

/-- The stores that are marked are older than the loads that are left. -/
theorem State.InOrder.commit {youngest : Nat} (ha : Allows s (.commit youngest))
    (hs : LSQUnit.exec s (.commit youngest) = .ok s') : s'.InOrder := by
  obtain ⟨s₁, hs₁, hs⟩ := bind_eq_ok.1 hs
  obtain ⟨stores₁, hst₁, hsa, hf⟩ := hsto.commitStores hs₁
  obtain ⟨ho, hst'⟩ := State.commitLoadsLoop_spec hs
  obtain ⟨hs', hh'⟩ := ho.storeRing hst₁
  obtain ⟨loads', hl', hsub, hy⟩ := (hlo.congr hsa).commitLoads hs
  refine ⟨stores₁, w, loads', hs', hl', (hpo.follows hf fun n hn => absurd hn not_mem_nil).of_subset hh' hsub,
    fun e he hwb load hloa => ?_, hst' (hsa.stalls hsta) fun hst load hloa => ?_⟩
  · rcases hf.canWB e he hwb with hle | ⟨e', he', hwb', heq⟩
    · exact lt_of_le_of_lt hle (hy load hloa)
    · exact heq ▸ hco e' he' hwb' load (hsub hloa)
  · have hqu : s₁.loadQueue = s.loadQueue := congrArg Prod.fst hsa.fields
    rw [hqu, hsa.stallingLoadIdx] at hloa
    exact ha (hsa.stalled hst) load hloa

end

end

theorem State.InOrder.exec {s s' : State cfg} {op : Op} (h : s.InOrder) (ha : Allows s op)
    (hs : exec s op = .ok s') : s'.InOrder := by
  obtain ⟨stores, w, loads, hsto, hlo, hpo, hco, hsta⟩ := h
  cases op with
  | insertLoad seqNum => exact .insertLoad hsto hlo hpo hco hsta ha hs
  | insertStore inst =>
    obtain ⟨hs', hh, hsa⟩ := hsto.insertStore ha hs
    refine ⟨_, w, loads, hs', (hlo.later ha).congr hsa, hpo.insertStore hlo hh ha, fun e he hwb => ?_, hsa.stalls hsta⟩
    rcases mem_append.1 he with he | he
    · exact hco e he hwb
    · cases mem_singleton.1 he
      cases hwb
  | executeStore idx req =>
    obtain ⟨stores', hs', hsa, hf⟩ := hsto.executeStore ha.1 ha.2.1 hs
    refine .follows hs' hlo hsa hpo hco hsta hf ?_
    -- a store conditional is older than all loads
    rintro n ⟨inst, hin, hsc, rfl⟩ load hloa
    obtain ⟨i, hi, hce⟩ := hlo.exists_of_mem hloa
    exact ha.2.2 inst hin hsc i hi load hce
  | read loadIdx req =>
    obtain ⟨⟨result, s₁⟩, hread, hs⟩ := bind_eq_ok.1 hs
    cases hs
    obtain ⟨_, _, _, rfl, hst'⟩ := State.stallOf_read hread
    exact ⟨stores, w, loads, { hsto with }, { hlo with }, { hpo with }, hco, hst' hsta⟩
  | writebackLoad idx => exact .writebackLoad hsto hlo hpo hco hsta hs
  | commit youngest => exact .commit hsto hlo hpo hco hsta ha hs
  | writebackStores env =>
    obtain ⟨stores', w', k, hs', hsa, hf⟩ := hsto.wbSteps
      (State.writebackStores_steps hsto.storeWBIdx_lt hsto.storeTail_lt hs)
    exact .follows hs' hlo hsa hpo hco hsta hf fun _ => False.elim
  | recvRetry accepts =>
    obtain ⟨stores', w', k, hs', hsa, hf⟩ := hsto.wbSteps (State.recvRetry_steps hs)
    exact .follows hs' hlo hsa hpo hco hsta hf fun _ => False.elim
  | completeDataAccess idx =>
    obtain ⟨stores', w', k, hs', hsa, hf⟩ := hsto.completeDataAccess ha hs
    exact .follows hs' hlo hsa hpo hco hsta hf fun _ => False.elim
  | squash num =>
    rcases State.exists_squash hsto hlo num with ⟨s₁, hs₁, hst₁, hl₁, hh, hst'⟩ | herr
    · cases hs₁.symm.trans hs
      refine ⟨_, w, _, hst₁, hl₁, hpo.squash hh fun e _ hle => decide_eq_true (.inl hle), ?_, hst' hsta⟩
      exact fun e he hwb load hloa => hco e (mem_of_mem_filter he) hwb load (mem_of_mem_filter hloa)
    · cases herr.symm.trans hs

/-- In every run the queues are in program order. -/
theorem inOrder_of_reaches {s : State cfg} (h : Reaches exec Allows (init cfg) s) : s.InOrder :=
  h.invariant ⟨[], 0, [], .init, .init, ⟨nofun, nofun⟩, nofun, nofun⟩ fun _ hinv ha hs => hinv.exec ha hs

end GuardianCouncil.LSQUnit
