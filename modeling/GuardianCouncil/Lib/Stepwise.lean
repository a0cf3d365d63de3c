import Mathlib.Data.List.Basic

/-!
# Conditions on every step of a sequence

`Each P l` says that `P before a` holds wherever `l` continues a beginning `before` with `a`.
`each_concat` adds a step at the end, which is how a run grows, and `each_cons` takes one off at the
front, which makes it decidable.
-/

namespace Stepwise

open List

variable {α : Type*} {P : List α → α → Prop} {l : List α} {a : α}

/-- Each element of `l` satisfies `P`, given the elements before it. -/
def Each (P : List α → α → Prop) (l : List α) : Prop :=
  ∀ before a after, l = before ++ a :: after → P before a

theorem each_nil : Each P [] := by
  intro before a after h
  simp at h

theorem each_concat : Each P (l ++ [a]) ↔ Each P l ∧ P l a := by
  constructor
  · intro h
    refine ⟨fun before b after hsp => h before b (after ++ [a]) ?_, h l a [] rfl⟩
    rw [hsp, append_assoc, cons_append]
  · rintro ⟨h, hla⟩ before b after hsp
    rcases eq_nil_or_concat after with rfl | ⟨after, c, rfl⟩
    · obtain ⟨rfl, hb⟩ := append_inj' hsp rfl
      rwa [← singleton_inj.1 hb]
    · rw [concat_eq_append, ← cons_append, ← append_assoc] at hsp
      exact h before b after (append_inj' hsp rfl).1

theorem each_cons : Each P (a :: l) ↔ P [] a ∧ Each (fun before => P (a :: before)) l := by
  constructor
  · intro h
    refine ⟨h [] a l rfl, fun before b after hsp => h (a :: before) b after ?_⟩
    rw [hsp, cons_append]
  · rintro ⟨hf, h⟩ before b after hsp
    rcases before with - | ⟨c, before⟩
    · obtain ⟨rfl, -⟩ := List.cons.inj hsp
      exact hf
    · obtain ⟨rfl, hre⟩ := List.cons.inj hsp
      exact h before b after hre

/-- A condition on every step holds for a beginning of the sequence. -/
theorem Each.beginning {l' : List α} (h : Each P l) (hl : l' <+: l) : Each P l' := by
  obtain ⟨rest, rfl⟩ := hl
  intro before b after hsp
  exact h before b (after ++ rest) (by rw [hsp, append_assoc, cons_append])

instance decidableEach : (l : List α) → (P : List α → α → Prop) →
    [∀ before a, Decidable (P before a)] → Decidable (Each P l)
  | [], _, _ => isTrue each_nil
  | a :: l, P, _ =>
    haveI := decidableEach l fun before => P (a :: before)
    decidable_of_iff _ each_cons.symm

end Stepwise
