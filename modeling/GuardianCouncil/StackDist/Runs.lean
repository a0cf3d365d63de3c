import GuardianCouncil.Lib.Ranked
import GuardianCouncil.StackDist.Access

/-!
# Stack distances along a run

What a stack distance is can be said without a tree: `last` holds the time of the last access to every
address in the stack, and the distance of an address in it is the number of addresses with a later
last access.

The tree gives this distance at every access.  The list does not always: it is written only when
`verifyStackDist` is called with `update_stack`, and `calcStackDistAndUpdate` does not call it at all for an
access that adds no node.  So an address that has been taken off the stack stays in the list, and counts, until it
is accessed again.
-/

namespace GuardianCouncil.StackDist

open Fallible MoveToFront List Function

structure Sys where
  sd : Calc
  /-- When the addresses in the stack were last accessed. -/
  last : Addr → Option ℕ
  time : ℕ
  /-- The list that `verifyStackDist` keeps. -/
  plain : List Addr

namespace Sys

def init : Sys := ⟨.init, fun _ => none, 0, []⟩

def step (verify : Bool) (s : Sys) (op : Access) : Except Fault Sys := do
  let (_, _, sd) ← s.sd.access verify op
  .ok ⟨sd, op.stamp s.time s.last, s.time + 1, op.push s.plain⟩

/-- The stack distance of an address. -/
noncomputable def naive (s : Sys) (a : Addr) : ℕ :=
  match s.last a with
  | none => Infinity
  | some t => {b | ∃ t', s.last b = some t' ∧ t < t'}.ncard

/-- The access returns the stack distance of its address, and the list agrees. -/
def Exact (verify : Bool) (s : Sys) (op : Access) : Prop :=
  (∃ mark sd, s.sd.access verify op = .ok (s.naive op.address, mark, sd)) ∧
    Calc.plainDist s.plain op.address = s.naive op.address

/-- If the address is in the list, then it and all that come before it are in the stack. -/
def Unstale (s : Sys) (a : Addr) : Prop :=
  a ∈ s.plain → ∀ b ∈ a :: before s.plain a, s.last b ≠ none
deriving Decidable

end Sys

/-! ## The invariant -/

variable {f g : Addr → Option ℕ} {m m' : ℕ} {op : Access}

theorem ranked_stamp {l : List Addr} (h : Ranked f l)
    (hm : ∀ b i, f b = some i → i < m) (op : Access) : Ranked (op.stamp m f) (op.push l) := by
  rcases op with ⟨a, _ | _⟩ | ⟨a, mark⟩
  · exact h.drop a
  · exact h.toFront hm a
  · exact h

theorem stamp_lt (hm : ∀ b i, f b = some i → i < m) (hlt : m < m')
    (op : Access) (b : Addr) (i : ℕ) (hi : op.stamp m f b = some i) : i < m' := by
  have hold : ∀ b i, f b = some i → i < m' := fun b i hb => (hm b i hb).trans hlt
  rcases op with ⟨a, _ | _⟩ | ⟨a, mark⟩
  · rw [Access.stamp, update_apply] at hi
    split at hi
    · cases hi
    · exact hold b i hi
  · rw [Access.stamp, update_apply] at hi
    split at hi
    · cases hi
      exact hlt
    · exact hold b i hi
  · exact hold b i hi

theorem stamp_eq_none (h : ∀ b, f b = none ↔ g b = none) (op : Access)
    (b : Addr) : op.stamp m f b = none ↔ op.stamp m' g b = none := by
  rcases op with ⟨a, _ | _⟩ | ⟨a, mark⟩
  · simp only [Access.stamp, update_apply]
    split
    · exact Iff.rfl
    · exact h b
  · simp only [Access.stamp, update_apply]
    split
    · simp
    · exact h b
  · exact h b

structure Sys.Inv (verify : Bool) (s : Sys) (S : Finset ℕ) : Prop where
  mapped : Mapped s.sd S
  index_le : s.sd.index ≤ s.time
  last_lt : ∀ b t, s.last b = some t → t < s.time
  last_eq_none : ∀ b, s.last b = none ↔ s.sd.aiMap b = none
  ranked : Ranked s.last s.plain
  ranked_map : Ranked s.sd.aiMap s.plain
  length_le : s.plain.length ≤ s.time
  stack : verify = true → s.sd.stack = s.plain

theorem Sys.Inv.init (verify : Bool) : Sys.Inv verify Sys.init ∅ where
  mapped := ⟨StackDist.Inv.init, by simp [Sys.init, Calc.init], by simp [Sys.init, Calc.init]⟩
  index_le := le_rfl
  last_lt := by simp [Sys.init]
  last_eq_none b := by simp [Sys.init, Calc.init]
  ranked := .nil
  ranked_map := .nil
  length_le := le_rfl
  stack _ := rfl

variable {verify : Bool} {s s' : Sys} {S : Finset ℕ}

theorem Sys.Inv.map_lt (h : s.Inv verify S) (b : Addr) (i : ℕ) (hi : s.sd.aiMap b = some i) : i < s.sd.index :=
  h.mapped.grown.lt i ((h.mapped.mem i).2 ⟨b, hi⟩)

theorem length_push_le (op : Access) (l : List Addr) : (op.push l).length ≤ l.length + 1 := by
  rcases op with ⟨a, _ | _⟩ | ⟨a, mark⟩
  · exact Nat.le_succ _
  · exact Nat.succ_le_succ length_erase_le
  · exact Nat.le_succ _

/-- **One access.** -/
theorem Sys.Inv.step (h : s.Inv verify S) (hti : s.time < 2147483648)
    (hste : s.step verify op = .ok s') : ∃ S', s'.Inv verify S' := by
  obtain ⟨mark, sd, S', hrun, hm, hle, hle', hmap, hst⟩ := access_spec verify h.mapped (h.index_le.trans_lt hti) op
  obtain ⟨⟨d, m, c⟩, ha, hs'⟩ := bind_eq_ok.1 hste
  rw [hrun, check_eq_ok] at ha
  obtain ⟨-, hok⟩ := ha
  cases hok
  cases hs'
  refine ⟨S', hm, ?_, ?_, ?_, ?_, ?_, ?_, ?_⟩
  · exact hle'.trans (Nat.succ_le_succ h.index_le)
  · exact stamp_lt h.last_lt (Nat.lt_succ_self _) op
  · intro b
    rw [hmap]
    exact stamp_eq_none h.last_eq_none op b
  · exact ranked_stamp h.ranked h.last_lt op
  · rw [hmap]
    exact ranked_stamp h.ranked_map h.map_lt op
  · exact (length_push_le op _).trans (Nat.succ_le_succ h.length_le)
  · intro hv
    rw [hst, if_pos hv, h.stack hv]

theorem Sys.exists_inv (h : Reaches (Sys.step verify) (fun _ _ => True) Sys.init s)
    (hti : s.time < 2147483648) : ∃ S, s.Inv verify S := by
  refine h.invariant (P := fun s => s.time < 2147483648 → ∃ S, s.Inv verify S) (fun _ => ⟨∅, .init verify⟩)
    (fun {s s' op} _ hinv _ hst hti => ?_) hti
  have ht' : s'.time = s.time + 1 := by
    obtain ⟨⟨d, m, c⟩, -, hs'⟩ := bind_eq_ok.1 hst
    cases hs'
    rfl
  obtain ⟨S, hS⟩ := hinv (by omega)
  exact hS.step (by omega) hst

/-! ## Distances -/

theorem countP_isSome_congr (h : ∀ b, f b = none ↔ g b = none) (l : List Addr) :
    (l.countP fun b => (f b).isSome) = l.countP fun b => (g b).isSome := by
  refine countP_congr fun b _ => ?_
  rw [Option.isSome_iff_ne_none, Option.isSome_iff_ne_none, Ne, h b]

/-- **The tree gives the stack distance.** -/
theorem Sys.Inv.dist_eq (h : s.Inv verify S) (a : Addr) : dist s.sd.aiMap S a = s.naive a := by
  rw [dist, Sys.naive]
  rcases ht : s.last a with _ | t
  · rw [(h.last_eq_none a).1 ht]
  obtain ⟨j, hj⟩ := Option.ne_none_iff_exists'.1 ((not_congr (h.last_eq_none a)).1 (by simp [ht]))
  rw [hj]
  simp only
  rw [h.ranked_map.card_lt h.mapped.mem hj, h.ranked.ncard_lt ht, countP_isSome_congr fun b => (h.last_eq_none b).symm]

/-- **When the list gives it.** -/
theorem Sys.Inv.plainDist_eq_iff (h : s.Inv verify S) (hti : s.time < 2147483648) (a : Addr) :
    Calc.plainDist s.plain a = s.naive a ↔ s.Unstale a := by
  rw [Calc.plainDist, Sys.naive, Sys.Unstale]
  by_cases hmem : a ∈ s.plain
  · have hidx : s.plain.idxOf a < Infinity := by
      have hlt := idxOf_lt_length_iff.2 hmem
      have hle := h.length_le
      rw [Infinity]
      omega
    rw [if_pos hmem, ← length_before]
    rw [← length_before] at hidx
    simp only [hmem, true_imp_iff, forall_mem_cons]
    rcases ht : s.last a with _ | t
    · simp [hidx.ne]
    · simp only [h.ranked.ncard_lt ht, ne_eq, reduceCtorEq, not_false_eq_true, true_and]
      rw [eq_comm, countP_eq_length]
      simp only [Option.isSome_iff_ne_none, ne_eq]
  · have hn : s.last a = none := by
      by_contra hne
      exact hmem (h.ranked.mem a hne)
    simp [hmem, hn]

/-- An access that does what it should goes through. -/
theorem Sys.Exact.step (h : s.Exact verify op) :
    ∃ sd, s.step verify op = .ok ⟨sd, op.stamp s.time s.last, s.time + 1, op.push s.plain⟩ := by
  obtain ⟨⟨mark, sd, hrun⟩, -⟩ := h
  exact ⟨sd, by rw [Sys.step, hrun, ok_bind]⟩

/-- In every run of fewer than `2 ^ 31` accesses, an access returns the stack distance, and the list agrees,
exactly if no address that has been taken off the stack comes before its own in the list. -/
theorem exact_iff_unstale (verify : Bool) (s : Sys)
    (h : Reaches (Sys.step verify) (fun _ _ => True) Sys.init s) (htime : s.time + 1 < 2147483648)
    (op : Access) : s.Exact verify op ↔ s.Unstale op.address := by
  obtain ⟨S, hS⟩ := Sys.exists_inv h (by omega)
  rw [← hS.plainDist_eq_iff (by omega) op.address, Sys.Exact]
  refine ⟨And.right, fun hpl => ⟨?_, hpl⟩⟩
  obtain ⟨mark, sd, -, hrun, -⟩ := access_spec verify hS.mapped (hS.index_le.trans_lt (by omega)) op
  refine ⟨mark, sd, ?_⟩
  rw [hrun, hS.dist_eq, if_neg]
  rintro ⟨hv, hne⟩
  rw [hS.stack (Bool.and_eq_true_iff.1 hv).1] at hne
  exact hne hpl

/-- After an address has been taken off the stack, another one can be accessed, but not that one. -/
theorem exact_iff_unstale_removed : ∃ s, Reaches (Sys.step true) (fun _ _ => True) Sys.init s ∧
    s.Exact true (.calcStackDistAndUpdate 2 true) ∧ ¬ s.Exact true (.calcStackDistAndUpdate 1 true) := by
  have hin : Reaches (Sys.step true) (fun _ _ => True) Sys.init Sys.init := .refl
  obtain ⟨sd, hst⟩ := ((exact_iff_unstale true _ hin (by decide) (.calcStackDistAndUpdate 1 true)).2 (by decide)).step
  have hone := hin.step trivial hst
  obtain ⟨sd, hst⟩ := ((exact_iff_unstale true _ hone (show 2 < 2147483648 by decide)
    (.calcStackDistAndUpdate 1 false)).2 (by
      simp [Sys.Unstale, Access.push, Access.stamp, Access.address, Calc.plainPush, before, Sys.init])).step
  have hg := hone.step trivial hst
  refine ⟨_, hg, ?_, ?_⟩ <;> rw [exact_iff_unstale true _ hg (show 3 < 2147483648 by decide)] <;>
    simp [Sys.Unstale, Access.push, Access.stamp, Access.address, Calc.plainPush, before, Sys.init]

/-- An address that comes back after it has been taken off the stack: the tree says that it is not in the stack, the
list has it on top, and the run ends with `Expected stack-distance for address`. -/
theorem step_mismatch : [Access.calcStackDistAndUpdate 1 true, .calcStackDistAndUpdate 1 false,
      .calcStackDistAndUpdate 1 true].foldlM (Sys.step true) Sys.init = .error .mismatch := by
  decide +kernel

end GuardianCouncil.StackDist
