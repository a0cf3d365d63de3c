import Mathlib.Data.List.Basic

/-!
# Since

A history is the list of the events so far, the latest at the end.  `Since P Q h` says that an event
with `P` happened and that all later events have `Q`, the operator "Q since P" of temporal logic.
`since_concat` is how it changes with one more event.
-/

namespace History

open List

variable {α : Type*} {P Q : α → Prop} {h : List α} {a : α}

/-- There was an event with `P`, and all later ones have `Q`. -/
def Since (P Q : α → Prop) (h : List α) : Prop :=
  ∃ earlier a later, h = earlier ++ a :: later ∧ P a ∧ ∀ b ∈ later, Q b

theorem not_since_nil : ¬ Since P Q [] := by
  rintro ⟨earlier, a, later, h, -⟩
  exact cons_ne_nil a later (append_eq_nil_iff.1 h.symm).2

/-- **The next event.** -/
theorem since_concat : Since P Q (h ++ [a]) ↔ P a ∨ Since P Q h ∧ Q a := by
  constructor
  · rintro ⟨earlier, b, later, heq, hb, hla⟩
    rcases eq_nil_or_concat later with rfl | ⟨later, c, rfl⟩
    · obtain ⟨-, hlas⟩ := append_inj' heq rfl
      cases head_eq_of_cons_eq hlas
      exact .inl hb
    rw [concat_eq_append, ← cons_append, ← append_assoc] at heq
    obtain ⟨hin, hlas⟩ := append_inj' heq rfl
    cases head_eq_of_cons_eq hlas
    refine .inr ⟨⟨earlier, b, later, hin, hb, fun x hx => hla x ?_⟩, hla a ?_⟩
    · rw [concat_eq_append]
      exact mem_append_left _ hx
    · rw [concat_eq_append]
      exact mem_append_right _ (mem_singleton_self a)
  · rintro (ha | ⟨⟨earlier, b, later, rfl, hb, hla⟩, ha⟩)
    · exact ⟨h, a, [], rfl, ha, fun _ hx => absurd hx not_mem_nil⟩
    · refine ⟨earlier, b, later ++ [a], by simp, hb, fun x hx => ?_⟩
      rcases mem_append.1 hx with hx | hx
      · exact hla x hx
      · cases mem_singleton.1 hx
        exact ha

theorem since_cons : Since P Q (a :: h) ↔ (P a ∧ ∀ b ∈ h, Q b) ∨ Since P Q h := by
  constructor
  · rintro ⟨_ | ⟨c, earlier⟩, b, later, heq, hb, hla⟩
    · obtain ⟨rfl, rfl⟩ := List.cons.inj heq
      exact .inl ⟨hb, hla⟩
    · obtain ⟨-, rfl⟩ := List.cons.inj heq
      exact .inr ⟨earlier, b, later, rfl, hb, hla⟩
  · rintro (⟨ha, hh⟩ | ⟨earlier, b, later, rfl, hb, hla⟩)
    · exact ⟨[], a, h, rfl, ha, hh⟩
    · exact ⟨a :: earlier, b, later, rfl, hb, hla⟩

instance decidableSince [DecidablePred P] [DecidablePred Q] : (h : List α) → Decidable (Since P Q h)
  | [] => isFalse not_since_nil
  | _ :: h =>
    have := decidableSince h
    decidable_of_iff _ since_cons.symm

end History
