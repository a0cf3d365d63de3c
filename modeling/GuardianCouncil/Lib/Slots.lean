import GuardianCouncil.Lib.Since

/-!
# Slots with distinct contents

A family of slots, each empty or with a content, where no two slots have the same content.
`Tracks.update` ties the slots to the history of their changes: what some slot holds is what was put in
and has not been taken out since.
-/

namespace Slots

open History Function

variable {ι β : Type*} {slot : ι → Option β} {i j : ι} {x : β} {v : Option β}

def Holds (slot : ι → Option β) (x : β) : Prop := ∃ i, slot i = some x

/-- No two slots have the same content. -/
def Distinct (slot : ι → Option β) : Prop :=
  ∀ ⦃i j x⦄, slot i = some x → slot j = some x → i = j

section

variable [DecidableEq ι]

/-- A slot gets a content that no slot has. -/
theorem Distinct.update (h : Distinct slot) (hnew : ∀ x, v = some x → ¬ Holds slot x) :
    Distinct (Function.update slot i v) := by
  intro j k x hj hk
  by_cases hji : j = i
  · subst hji
    rw [update_self] at hj
    by_contra hjk
    rw [update_of_ne (Ne.symm hjk)] at hk
    exact hnew x hj ⟨k, hk⟩
  · rw [update_of_ne hji] at hj
    by_cases hki : k = i
    · subst hki
      rw [update_self] at hk
      exact absurd ⟨j, hj⟩ (hnew x hk)
    · rw [update_of_ne hki] at hk
      exact h hj hk

/-- What is held after one slot has changed. -/
theorem Distinct.holds_update_iff (h : Distinct slot) :
    Holds (Function.update slot i v) x ↔ v = some x ∨ Holds slot x ∧ slot i ≠ some x := by
  constructor
  · rintro ⟨j, hj⟩
    by_cases hji : j = i
    · subst hji
      rw [update_self] at hj
      exact .inl hj
    · rw [update_of_ne hji] at hj
      exact .inr ⟨⟨j, hj⟩, fun hi => hji (h hj hi)⟩
  · rintro (hv | ⟨⟨j, hj⟩, hi⟩)
    · exact ⟨i, by rw [update_self, hv]⟩
    · have hji : j ≠ i := by
        rintro rfl
        exact hi hj
      exact ⟨j, by rw [update_of_ne hji, hj]⟩

end

/-! ## Histories -/

variable {ε : Type*} {inserted removed : ε → Option β} {h : List ε} {e : ε}

/-- The slots are distinct, and hold what the history has put in and not taken out. -/
structure Tracks (inserted removed : ε → Option β) (slot : ι → Option β) (h : List ε) : Prop where
  distinct : Distinct slot
  holds_iff : ∀ x, Holds slot x ↔ Since (fun e => inserted e = some x) (fun e => removed e ≠ some x) h

theorem Tracks.empty (hem : ∀ i, slot i = none) : Tracks inserted removed slot [] where
  distinct i j x hi := by
    rw [hem] at hi
    cases hi
  holds_iff x := by
    refine iff_of_false ?_ not_since_nil
    rintro ⟨i, hi⟩
    rw [hem] at hi
    cases hi

/-- **One slot changes**, and the event says how. -/
theorem Tracks.update [DecidableEq ι] (ht : Tracks inserted removed slot h) (hre : removed e = slot i)
    (hnew : ∀ x, inserted e = some x → ¬ Holds slot x) :
    Tracks inserted removed (Function.update slot i (inserted e)) (h ++ [e]) where
  distinct := ht.distinct.update hnew
  holds_iff x := by
    rw [ht.distinct.holds_update_iff, since_concat, ht.holds_iff, hre]

/-- No slot changes. -/
theorem Tracks.idle (ht : Tracks inserted removed slot h) (hin : inserted e = none)
    (hre : removed e = none) : Tracks inserted removed slot (h ++ [e]) where
  distinct := ht.distinct
  holds_iff x := by
    rw [since_concat, ht.holds_iff, hin, hre]
    simp

end Slots
