import Mathlib.Data.List.TakeWhile

/-!
# Insertion from the back

An element is inserted into a list by walking from the end past the elements that it may pass.
`exists_eq_insert` says where it comes to stand, and `pairwise_insert` what has to be checked for the
list to stay in order.
-/

namespace BackInsert

open List

variable {α : Type*} {pass : α → Bool} {x : α} {l pre post : List α} {R : α → α → Prop}

/-- The walk, over the list from its end. -/
def walk (pass : α → Bool) (x : α) : List α → List α
  | [] => [x]
  | y :: ys => if pass y then y :: walk pass x ys else x :: y :: ys

def insert (pass : α → Bool) (x : α) (l : List α) : List α := (walk pass x l.reverse).reverse

theorem walk_eq : walk pass x l = l.takeWhile pass ++ x :: l.dropWhile pass := by
  induction l with
  | nil => rfl
  | cons y ys ih =>
    rw [walk]
    by_cases hy : pass y
    · rw [if_pos hy, ih, takeWhile_cons_of_pos hy, dropWhile_cons_of_pos hy, cons_append]
    · rw [if_neg hy, takeWhile_cons_of_neg hy, dropWhile_cons_of_neg hy, nil_append]

/-- **Where the element comes to stand**: it has passed all that come after it, and does not pass the
one before it. -/
theorem exists_eq_insert (pass : α → Bool) (x : α) (l : List α) :
    ∃ pre post, l = pre ++ post ∧ insert pass x l = pre ++ x :: post ∧
      (∀ y ∈ post, pass y = true) ∧ ∀ y ∈ pre.getLast?, pass y = false := by
  refine ⟨(l.reverse.dropWhile pass).reverse, (l.reverse.takeWhile pass).reverse, ?_, ?_,
    fun y hy => ?_, fun y hy => ?_⟩
  · rw [← reverse_append, takeWhile_append_dropWhile, reverse_reverse]
  · rw [insert, walk_eq, reverse_append, reverse_cons, append_assoc, singleton_append]
  · exact mem_takeWhile_imp (mem_reverse.1 hy)
  · rw [getLast?_reverse] at hy
    have := head?_dropWhile_not pass l.reverse
    rw [Option.mem_def.1 hy] at this
    simpa using this

theorem pairwise_insert (h : (pre ++ post).Pairwise R) (hpre : ∀ y ∈ pre, R y x)
    (hpo : ∀ y ∈ post, R x y) : (pre ++ x :: post).Pairwise R := by
  obtain ⟨h₁, h₂, h₃⟩ := pairwise_append.1 h
  refine pairwise_append.2 ⟨h₁, pairwise_cons.2 ⟨hpo, h₂⟩, fun y hy z hz => ?_⟩
  rcases mem_cons.1 hz with rfl | hz
  · exact hpre y hy
  · exact h₃ y hy z hz

end BackInsert
