import Mathlib.Data.List.Nodup

/-!
# Lists linked by pointers

A memory of cells with one pointer field is a function `next : ι → Option ι`.  `Points next p l`
says that the pointer `p` is the start of a list that visits the cells `l` and ends in a null
pointer.  Cells that are not on the list may point anywhere.

The fields of cells that are not on the list do not matter (`Points.congr`), and a new value in a cell
on the list leaves the part before it and replaces the part after (`Points.splice`).  Taking a cell out
is a case of the second (`Points.bypass`).
-/

namespace Linked

open List Function

variable {ι : Type*} {next next' : ι → Option ι} {p q : Option ι} {x : ι} {l l₁ l₂ l₃ : List ι}

/-- The pointer `p` starts a list of the cells `l`. -/
def Points (next : ι → Option ι) : Option ι → List ι → Prop
  | p, [] => p = none
  | p, x :: l => p = some x ∧ Points next (next x) l

@[simp] theorem points_nil : Points next p [] ↔ p = none := Iff.rfl

@[simp] theorem points_cons : Points next p (x :: l) ↔ p = some x ∧ Points next (next x) l := Iff.rfl

/-- Where the list starts. -/
theorem Points.head?_eq (h : Points next p l) : l.head? = p := by
  rcases l with - | ⟨x, l⟩
  · exact h.symm
  · exact h.1.symm

/-- Only the fields of the cells on the list matter. -/
theorem Points.congr (h : Points next p l) (hnext : ∀ x ∈ l, next' x = next x) : Points next' p l := by
  induction l generalizing p with
  | nil => exact h
  | cons x l ih =>
    refine ⟨h.1, ?_⟩
    rw [hnext x mem_cons_self]
    exact ih h.2 fun y hy => hnext y (mem_cons_of_mem x hy)

/-- The rest of a list is a list. -/
theorem Points.drop (h : Points next p (l₁ ++ x :: l₂)) : Points next (next x) l₂ := by
  induction l₁ generalizing p with
  | nil => exact h.2
  | cons y l₁ ih => exact ih h.2

/-- **Redirecting a cell on the list** replaces what comes after it. -/
theorem Points.splice (h : Points next p (l₁ ++ x :: l₂)) (hbe : ∀ y ∈ l₁, next' y = next y)
    (hx : next' x = q) (hq : Points next' q l₃) : Points next' p (l₁ ++ x :: l₃) := by
  induction l₁ generalizing p with
  | nil =>
    subst hx
    exact ⟨h.1, hq⟩
  | cons y l₁ ih =>
    refine ⟨h.1, ?_⟩
    rw [hbe y mem_cons_self]
    exact ih h.2 fun z hz => hbe z (mem_cons_of_mem y hz)

/-- Taking a cell out of the list: the one before it is linked to the one after. -/
theorem Points.bypass [DecidableEq ι] {y : ι} (h : Points next p (l₁ ++ x :: y :: l₂))
    (hn : (l₁ ++ x :: y :: l₂).Nodup) : Points (update next x (next y)) p (l₁ ++ x :: l₂) := by
  obtain ⟨-, hxl, hd⟩ := nodup_append.1 hn
  have ha : Points next (next y) l₂ := by
    rw [append_cons] at h
    exact h.drop
  refine h.splice (fun z hz => ?_) (update_self ..) (ha.congr fun z hz => ?_)
  · exact update_of_ne (hd z hz x mem_cons_self) _ _
  · have hx : x ∉ l₂ := fun hx => (nodup_cons.1 hxl).1 (mem_cons_of_mem y hx)
    exact update_of_ne (ne_of_mem_of_not_mem hz hx) _ _

end Linked
