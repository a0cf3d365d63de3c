import Mathlib.Data.List.Perm.Basic
import Mathlib.Data.List.Nodup

/-!
# Moving an element to the front or to the back

A list is kept in some order by moving one element to the front, or to the back, whenever its rank
changes.  `pairwise_toFront` and `pairwise_toBack` say what has to be checked: that the moved element
belongs there.  The others stay in order.
-/

namespace MoveToFront

open List

variable {α : Type*} [DecidableEq α] {l : List α} {a : α} {R R' : α → α → Prop}

def toFront (l : List α) (a : α) : List α := a :: l.erase a

def toBack (l : List α) (a : α) : List α := l.erase a ++ [a]

theorem perm_toFront (ha : a ∈ l) : (toFront l a).Perm l := (perm_cons_erase ha).symm

theorem perm_toBack (ha : a ∈ l) : (toBack l a).Perm l :=
  (perm_append_singleton a _).trans (perm_toFront ha)

section

variable (hl : l.Pairwise R) (hn : l.Nodup) (hke : ∀ b ∈ l, ∀ c ∈ l, b ≠ a → c ≠ a → R b c → R' b c)
include hl hn hke

/-- The elements that are not moved. -/
theorem pairwise_erase : (l.erase a).Pairwise R' := by
  refine List.Pairwise.imp_of_mem (fun {b c} hb hc hbc => ?_) (hl.sublist erase_sublist)
  obtain ⟨hba, hb⟩ := hn.mem_erase_iff.1 hb
  obtain ⟨hca, hc⟩ := hn.mem_erase_iff.1 hc
  exact hke b hb c hc hba hca hbc

theorem pairwise_toFront (hf : ∀ b ∈ l, b ≠ a → R' a b) : (toFront l a).Pairwise R' := by
  refine pairwise_cons.2 ⟨fun b hb => ?_, pairwise_erase hl hn hke⟩
  obtain ⟨hba, hb⟩ := hn.mem_erase_iff.1 hb
  exact hf b hb hba

theorem pairwise_toBack (hla : ∀ b ∈ l, b ≠ a → R' b a) : (toBack l a).Pairwise R' := by
  refine pairwise_append.2 ⟨pairwise_erase hl hn hke, pairwise_singleton _ _, ?_⟩
  intro b hb c hc
  cases mem_singleton.1 hc
  obtain ⟨hba, hb⟩ := hn.mem_erase_iff.1 hb
  exact hla b hb hba

end

/-- A list where nothing with `p` comes after something without it: first all elements with `p`, then
all others. -/
theorem while_eq_filter {α : Type*} {l : List α} {p : α → Bool} (h : l.Pairwise fun a b => p b → p a) :
    l.takeWhile p = l.filter p ∧ l.dropWhile p = l.filter fun a => !p a := by
  induction l with
  | nil => exact ⟨rfl, rfl⟩
  | cons a l ih =>
    obtain ⟨ha, hl⟩ := pairwise_cons.1 h
    by_cases hp : p a
    · simpa [hp] using ih hl
    · have hn : ∀ b ∈ l, p b = false := fun b hb => Bool.eq_false_iff.2 fun hpb => hp (ha b hb hpb)
      refine ⟨by simpa [hp] using hn, ?_⟩
      rw [dropWhile_cons_of_neg hp, filter_eq_self.2 (by simpa [hp] using hn)]

end MoveToFront
