import GuardianCouncil.LSQUnit.Queue

/-!
# Older stores

A load's `sqIdx` is the index behind the stores that are older than the load, however many stores have entered or left
since (`Points`).  In program order, these are the first ones (`seqNum_lt_iff`).
-/

namespace GuardianCouncil.LSQUnit

open List

variable {cfg : Config}

/-- The number of the store in an entry. -/
def SQEntry.seqNum (entry : SQEntry) : Nat := (entry.inst.map StoreInst.seqNum).getD 0

/-- An entry that holds a store: when it has a size it has an address, and its data have been
written. -/
structure SQEntry.Valid (entry : SQEntry) : Prop where
  inst : entry.inst.isSome
  effAddrValid : entry.size ≠ 0 → ∀ inst ∈ entry.inst, inst.effAddrValid
  size_le : entry.isAllZeros = false → entry.size ≤ 16
  data_length : entry.data.length = 16

/-- How many stores are older than a load. -/
def olderStores (stores : List SQEntry) (load : LoadInst) : Nat :=
  (stores.map SQEntry.seqNum).countP fun n => n < load.seqNum

/-- A store that may be written back is older than all loads. -/
def Committed (stores : List SQEntry) (loads : List LoadInst) : Prop :=
  ∀ e ∈ stores, e.canWB → ∀ load ∈ loads, e.seqNum < load.seqNum

/-- The entries are valid, and loads point behind the older stores. -/
structure Points (s : State cfg) (stores : List SQEntry) (loads : List LoadInst) : Prop where
  valid : ∀ e ∈ stores, e.Valid
  points : ∀ load ∈ loads, (load.sqIdx = none → olderStores stores load = 0) ∧
    ∀ idx ∈ load.sqIdx, idx = (s.storeHead + olderStores stores load) % cfg.sqEntries

section

variable {stores : List SQEntry} {load : LoadInst} {e e' : SQEntry} {i k : Nat}

theorem olderStores_concat : olderStores (stores ++ [e]) load =
    olderStores stores load + if e.seqNum < load.seqNum then 1 else 0 := by
  rw [olderStores, map_append, countP_append, map_singleton, countP_singleton]
  simp only [decide_eq_true_eq]
  rfl

theorem map_seqNum_set (he : stores[i]? = some e) (hseq : e'.seqNum = e.seqNum) :
    (stores.set i e').map SQEntry.seqNum = stores.map SQEntry.seqNum := by
  obtain ⟨hi, rfl⟩ := List.getElem?_eq_some_iff.1 he
  have hi' : i < (stores.map SQEntry.seqNum).length := by simpa using hi
  have hget : e'.seqNum = (stores.map SQEntry.seqNum)[i] := by simp [hseq]
  rw [map_set, hget, set_getElem_self]

/-- When the first stores leave that are older than the load, the others are still counted. -/
theorem countP_drop {nums : List Nat} {m : Nat} (hk : k ≤ nums.length) (h : ∀ n ∈ nums.take k, n < m) :
    nums.countP (fun n => n < m) = k + (nums.drop k).countP fun n => n < m := by
  have hall : (nums.take k).countP (fun n => n < m) = k := by
    rw [countP_eq_length.2 fun n hn => decide_eq_true (h n hn), length_take_of_le hk]
  conv_lhs => rw [← take_append_drop k nums]
  rw [countP_append, hall]

/-- In program order, the stores older than a load are the first ones. -/
theorem seqNum_lt_iff (hso : (stores.map SQEntry.seqNum).Pairwise (· < ·))
    (he : stores[i]? = some e) : e.seqNum < load.seqNum ↔ i < olderStores stores load := by
  induction stores generalizing i with
  | nil => cases he
  | cons e₀ stores ih =>
    obtain ⟨hf, hre⟩ := pairwise_cons.1 hso
    by_cases h₀ : e₀.seqNum < load.seqNum
    · have hco : olderStores (e₀ :: stores) load = olderStores stores load + 1 := countP_cons_of_pos (by simpa using h₀)
      rcases i with - | i
      · cases he
        rw [hco]
        exact ⟨fun _ => Nat.succ_pos _, fun _ => h₀⟩
      · rw [hco, Nat.add_lt_add_iff_right]
        exact ih hre he
    · -- nothing is older once the first one is not
      have hco : olderStores (e₀ :: stores) load = 0 := by
        rw [olderStores, countP_eq_zero]
        intro n hn
        rw [map_cons, mem_cons] at hn
        rw [decide_eq_true_eq]
        rcases hn with rfl | hn
        · exact h₀
        · have := hf n hn
          omega
      have hge : ¬ e.seqNum < load.seqNum := by
        rcases i with - | i
        · cases he
          exact h₀
        · have := hf _ (mem_map_of_mem (mem_of_getElem? he))
          omega
      rw [hco]
      exact ⟨fun h => absurd h hge, fun h => absurd h (Nat.not_lt_zero i)⟩

theorem olderStores_le_length : olderStores stores load ≤ stores.length :=
  countP_le_length.trans_eq (length_map _)

end

end GuardianCouncil.LSQUnit
