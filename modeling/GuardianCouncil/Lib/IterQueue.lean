import Mathlib.Data.List.Basic

/-!
# Queues with iterators

A list that grows at the back and shrinks at the front.  The elements are numbered in the order in which they come
in, and an iterator is the number of an element: it remains valid while others come in and leave, and
dangles once its own element has left.  The end of the list is no number.
-/

structure IterQueue (α : Type*) where
  /-- How many elements have left, and so the number of the first one. -/
  popped : ℕ := 0
  elems : List α := []
deriving DecidableEq

namespace IterQueue

open List

variable {α : Type*} {q : IterQueue α} {a : α}

/-- The element an iterator points at. -/
def get? (q : IterQueue α) (it : ℕ) : Option α :=
  if it < q.popped then none else q.elems[it - q.popped]?

def push (q : IterQueue α) (a : α) : IterQueue α := { q with elems := q.elems ++ [a] }

def pop (q : IterQueue α) : IterQueue α := ⟨q.popped + 1, q.elems.tail⟩

/-- Changes the element an iterator points at. -/
def modify (q : IterQueue α) (it : ℕ) (f : α → α) : IterQueue α :=
  { q with elems := q.elems.modify (it - q.popped) f }

def first? (q : IterQueue α) : Option ℕ := if q.elems.isEmpty then none else some q.popped

def last? (q : IterQueue α) : Option ℕ :=
  if q.elems.isEmpty then none else some (q.popped + (q.elems.length - 1))

@[simp] theorem elems_push : (q.push a).elems = q.elems ++ [a] := rfl

@[simp] theorem elems_pop : q.pop.elems = q.elems.tail := rfl

theorem length_modify (it : ℕ) (f : α → α) : (q.modify it f).elems.length = q.elems.length :=
  List.length_modify ..

/-- The element after some others. -/
theorem get?_append (p : ℕ) (front : List α) (a : α) (back : List α) :
    (⟨p, front ++ a :: back⟩ : IterQueue α).get? (p + front.length) = some a := by
  rw [get?, if_neg (Nat.not_lt.2 (Nat.le_add_right _ _)), Nat.add_sub_cancel_left,
    getElem?_append_right (Nat.le_refl _), Nat.sub_self, getElem?_cons_zero]

theorem modify_append (p : ℕ) (front : List α) (a : α) (back : List α) (f : α → α) :
    (⟨p, front ++ a :: back⟩ : IterQueue α).modify (p + front.length) f = ⟨p, front ++ f a :: back⟩ := by
  have hm : (front ++ a :: back).modify front.length f = front ++ f a :: back := by
    induction front with
    | nil => rfl
    | cons b front ih => rw [cons_append, length_cons, modify_succ_cons, ih, cons_append]
  rw [modify, Nat.add_sub_cancel_left, hm]

/-- The element after some others is the first one if there are none before it. -/
theorem first?_append_iff (p : ℕ) (front : List α) (a : α) (back : List α) :
    (⟨p, front ++ a :: back⟩ : IterQueue α).first? = some (p + front.length) ↔ front = [] := by
  rw [first?, if_neg (by simp), Option.some.injEq, ← length_eq_zero_iff]
  dsimp only
  omega

end IterQueue
