import Mathlib.Data.Fintype.Basic
import Mathlib.Algebra.Order.Group.Multiset

/-!
# Assignments that can be taken back

A map from keys to resources is changed one key at a time, and each change is logged with the
resource the key had before it, the newest change first.

* `undo map log` takes the changes back, `redo map log` makes them again.
* `LeadsTo map log` says that the log is a history of this map: its first change is what the map
  holds, the second what the map held before the first, and so on.
* `account S map log` is what the map and the log hold on to among the keys in `S`: the resources
  in use and the previous resources of the changes in the log.  A change that gives a key the
  resource it has already holds on to nothing.
-/

namespace Undo

open List Function

variable {κ ρ : Type*}

/-- A key was given a new resource, and had another one before. -/
structure Change (κ ρ : Type*) where
  key : κ
  new : ρ
  prev : ρ

section Maps

variable [DecidableEq κ] {map map' : κ → ρ} {log log' : List (Change κ ρ)}

/-- The map before the changes of the log. -/
def undo (map : κ → ρ) (log : List (Change κ ρ)) : κ → ρ :=
  log.foldl (fun m ch => update m ch.key ch.prev) map

/-- The map after the changes of the log, the last of which is the oldest. -/
def redo (map : κ → ρ) (log : List (Change κ ρ)) : κ → ρ :=
  log.foldr (fun ch m => update m ch.key ch.new) map

/-- The log is a history of the map. -/
def LeadsTo : (κ → ρ) → List (Change κ ρ) → Prop
  | _, [] => True
  | map, ch :: log => map ch.key = ch.new ∧ LeadsTo (update map ch.key ch.prev) log

@[simp] theorem undo_nil : undo map [] = map := rfl

@[simp] theorem undo_cons (ch : Change κ ρ) : undo map (ch :: log) = undo (update map ch.key ch.prev) log := rfl

theorem undo_append : undo map (log ++ log') = undo (undo map log) log' :=
  foldl_append

@[simp] theorem redo_cons (ch : Change κ ρ) : redo map (ch :: log) = update (redo map log) ch.key ch.new := rfl

theorem leadsTo_append : LeadsTo map (log ++ log') ↔ LeadsTo map log ∧ LeadsTo (undo map log) log' := by
  induction log generalizing map with
  | nil => simp only [LeadsTo, nil_append, undo_nil, true_and]
  | cons ch log ih =>
    rw [cons_append, LeadsTo, LeadsTo, ih, undo_cons, and_assoc]

/-- Giving a key a new resource and logging it. -/
theorem LeadsTo.push (h : LeadsTo map log) (k : κ) (r : ρ) : LeadsTo (update map k r) (⟨k, r, map k⟩ :: log) := by
  refine ⟨update_self .., ?_⟩
  rwa [update_idem, update_eq_self]

/-- Logging a change that is none. -/
theorem LeadsTo.stay (h : LeadsTo map log) (k : κ) : LeadsTo map (⟨k, map k, map k⟩ :: log) := by
  refine ⟨rfl, ?_⟩
  rwa [update_eq_self]

theorem LeadsTo.undo (h : LeadsTo map (log ++ log')) : LeadsTo (undo map log) log' :=
  (leadsTo_append.1 h).2

/-- **Taking changes back and making them again changes nothing.** -/
theorem LeadsTo.redo_undo (h : LeadsTo map log) : redo (Undo.undo map log) log = map := by
  induction log generalizing map with
  | nil => rfl
  | cons ch log ih =>
    rw [undo_cons, redo_cons, ih h.2, update_idem, ← h.1, update_eq_self]

variable {S : Finset κ} {k : κ}

/-- Giving a key of `S` a new resource puts it in the place of the one it had. -/
theorem map_update_of_mem (hk : k ∈ S) (r : ρ) : {map k} + S.val.map (update map k r) = {r} + S.val.map map := by
  obtain ⟨rest, hre⟩ := Multiset.exists_cons_of_mem hk
  have hnot : k ∉ rest := (Multiset.nodup_cons.1 (hre ▸ S.nodup)).1
  have hsa : rest.map (update map k r) = rest.map map :=
    Multiset.map_congr rfl fun x hx =>
      update_of_ne (ne_of_mem_of_not_mem hx hnot) _ _
  rw [hre, Multiset.map_cons, Multiset.map_cons, hsa, update_self,
    Multiset.singleton_add, Multiset.singleton_add, Multiset.cons_swap]

theorem map_update_of_not_mem (hk : k ∉ S) (r : ρ) : S.val.map (update map k r) = S.val.map map :=
  Multiset.map_congr rfl fun _ hx => update_of_ne (ne_of_mem_of_not_mem hx hk) _ _

end Maps

/-! ## What a map and its log hold on to -/

section

variable [DecidableEq κ] [DecidableEq ρ] {map : κ → ρ} {log log' : List (Change κ ρ)}
  {S : Finset κ} {ch : Change κ ρ} {k : κ}

/-- The previous resources of the changes on the keys in `S`. -/
def held (S : Finset κ) (log : List (Change κ ρ)) : Multiset ρ :=
  ((log.filter fun ch => ch.key ∈ S ∧ ch.new ≠ ch.prev).map Change.prev : List ρ)

/-- The resources that the keys in `S` have, and had before the changes of the log. -/
def account (S : Finset κ) (map : κ → ρ) (log : List (Change κ ρ)) : Multiset ρ :=
  S.val.map map + held S log

@[simp] theorem held_nil : held S ([] : List (Change κ ρ)) = 0 := rfl

theorem held_append : held S (log ++ log') = held S log + held S log' := by
  rw [held, filter_append, map_append, ← Multiset.coe_add]
  rfl

theorem held_cons_of_real (hk : ch.key ∈ S) (hre : ch.new ≠ ch.prev) : held S (ch :: log) = {ch.prev} + held S log := by
  rw [held, filter_cons_of_pos (by simp [hk, hre])]
  rfl

theorem held_cons_of_not_mem (hk : ch.key ∉ S) : held S (ch :: log) = held S log := by
  rw [held, filter_cons_of_neg (by simp [hk])]
  rfl

theorem held_cons_of_eq (heq : ch.new = ch.prev) : held S (ch :: log) = held S log := by
  rw [held, filter_cons_of_neg (by simp [heq])]
  rfl

theorem mem_account (hk : k ∈ S) : map k ∈ account S map log :=
  Multiset.mem_add.2 (.inl (Multiset.mem_map_of_mem map hk))

/-- Giving a key of `S` another resource takes that one into the account. -/
theorem account_push (hk : k ∈ S) {r : ρ} (hr : r ≠ map k) :
    account S (update map k r) (⟨k, r, map k⟩ :: log) = {r} + account S map log := by
  have hh : held S (⟨k, r, map k⟩ :: log) = {map k} + held S log := held_cons_of_real hk hr
  rw [account, account, hh, ← add_assoc, ← add_assoc, ← map_update_of_mem hk r, add_comm {map k}]

theorem account_push_of_not_mem (hk : k ∉ S) (r : ρ) :
    account S (update map k r) (⟨k, r, map k⟩ :: log) = account S map log := by
  have hh : held S (⟨k, r, map k⟩ :: log) = held S log := held_cons_of_not_mem hk
  rw [account, account, hh, map_update_of_not_mem hk]

/-- Taking the newest change back gives up the resource it brought. -/
theorem account_undo (h : LeadsTo map (ch :: log)) (hk : ch.key ∈ S) (hre : ch.new ≠ ch.prev) :
    account S map (ch :: log) = {ch.new} + account S (update map ch.key ch.prev) log := by
  rw [account, account, held_cons_of_real hk hre, ← add_assoc, ← add_assoc, ← h.1,
    map_update_of_mem hk, add_comm (S.val.map map)]

theorem account_undo_of_not_mem (hk : ch.key ∉ S) :
    account S (update map ch.key ch.prev) log = account S map (ch :: log) := by
  rw [account, account, held_cons_of_not_mem hk, map_update_of_not_mem hk]

theorem account_cons_of_eq (heq : ch.new = ch.prev) : account S map (ch :: log) = account S map log := by
  rw [account, account, held_cons_of_eq heq]

end

end Undo
