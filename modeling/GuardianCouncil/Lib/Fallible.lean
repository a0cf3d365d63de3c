import Mathlib.Data.List.Basic

/-!
# Runs of a step function that may fail

A step function `step : σ → α → Except ε σ` moves the state on an operation of type `α`, or fails with
an error of type `ε`.

* `bind_eq_ok` takes a successful computation apart, one bind at a time.
* `Reaches step ok s₀ s` says that `s` is reached from `s₀` by operations that all succeed and were
  allowed (`ok s a`) in the state they were issued in.  This is how a caller's discipline enters, and how
  "every run whose steps meet this condition" is said.
* `Reaches.invariant` is the induction over such a run.
* `runChecked` replays a list of operations and stops at the first one that is not allowed, so that a
  concrete run can be evaluated.
-/

namespace Fallible

universe u

variable {σ α ε : Type*}

/-- A bind succeeds exactly when both of its halves do. -/
theorem bind_eq_ok {β γ : Type u} {x : Except ε β} {f : β → Except ε γ} {c : γ} :
    (x >>= f) = .ok c ↔ ∃ b, x = .ok b ∧ f b = .ok c := by
  cases x <;> simp [bind, Except.bind]

@[simp] theorem ok_bind {β γ : Type u} (b : β) (f : β → Except ε γ) : ((Except.ok b : Except ε β) >>= f) = f b := rfl

@[simp] theorem error_bind {β γ : Type u} (e : ε) (f : β → Except ε γ) :
    ((Except.error e : Except ε β) >>= f) = .error e := rfl

@[simp] theorem bind_ok {β : Type u} (x : Except ε β) : (x >>= fun b => .ok b) = x := by
  cases x <;> rfl

/-- A computation behind a check succeeds exactly when the check is passed and it does. -/
theorem check_eq_ok {β : Type u} {p : Prop} [Decidable p] {e : ε} {x : Except ε β} {b : β} :
    (if p then .error e else x) = .ok b ↔ ¬ p ∧ x = .ok b := by
  by_cases hp : p <;> simp [hp]

theorem eq_ok_of_toOption {β : Type u} {x : Except ε β} {b : β} (h : x.toOption = some b) : x = .ok b := by
  rcases x with e | b'
  · cases h
  · exact congrArg Except.ok (Option.some.inj h)

/-- Two continuations that agree on what the computation produces. -/
theorem bind_congr_ok {β γ : Type u} {x : Except ε β} {f g : β → Except ε γ}
    (h : ∀ b, x = .ok b → f b = g b) : (x >>= f) = (x >>= g) := by
  cases x with
  | error e => rfl
  | ok b => exact h b rfl

theorem bind_assoc {β γ δ : Type u} (x : Except ε β) (f : β → Except ε γ) (g : γ → Except ε δ) :
    ((x >>= f) >>= g) = (x >>= fun b => f b >>= g) := by
  cases x <;> rfl

/-- What holds of the state in every round of a loop. -/
theorem foldlM_range_invariant {σ : Type u} {f : σ → Nat → Except ε σ} {P : Nat → σ → Prop}
    {s s' : σ} {n : Nat} (h : (List.range n).foldlM f s = .ok s') (h0 : P 0 s)
    (hst : ∀ i < n, ∀ s s', P i s → f s i = .ok s' → P (i + 1) s') : P n s' := by
  induction n generalizing s' with
  | zero =>
    cases h
    exact h0
  | succ n ih =>
    rw [List.range_succ, List.foldlM_append] at h
    obtain ⟨s₁, hre, hla⟩ := bind_eq_ok.1 h
    have hla : f s₁ n = .ok s' := by simpa using hla
    have hn := ih hre fun i hi => hst i (Nat.lt_succ_of_lt hi)
    exact hst n (Nat.lt_succ_self n) s₁ s' hn hla

/-- Failing with a given error can be decided whatever the values are. -/
instance decidableEqError {β : Type u} [DecidableEq ε] : (x : Except ε β) → (e : ε) → Decidable (x = .error e)
  | .ok _, _ => isFalse (by simp)
  | .error e', e => decidable_of_iff (e' = e) (by simp)

/-! ## Postconditions -/

section

variable {β γ : Type u} {P Q : β → Prop} {R : γ → Prop} {E : ε → Prop} {x : Except ε β} {e : ε}

/-- Where a computation may end: in a result with `P`, or in an error with `E`. -/
def Ends (P : β → Prop) (E : ε → Prop) : Except ε β → Prop
  | .ok b => P b
  | .error e => E e

theorem Ends.of_ok {b : β} (h : Ends P E x) (hx : x = .ok b) : P b := by
  rw [hx] at h
  exact h

theorem Ends.of_error (h : Ends P E x) (hx : x = .error e) : E e := by
  rw [hx] at h
  exact h

theorem Ends.bind {f : β → Except ε γ} (h : Ends P E x) (hf : ∀ b, P b → Ends R E (f b)) : Ends R E (x >>= f) := by
  rcases x with e | b
  · exact h
  · exact hf b h

/-- A check that fails only where it may. -/
theorem Ends.check {p : Prop} [Decidable p] (he : p → E e) (h : ¬ p → Ends P E x) :
    Ends P E (if p then .error e else x) := by
  by_cases hp : p
  · rw [if_pos hp]
    exact he hp
  · rw [if_neg hp]
    exact h hp

/-- An error that is passed on under another name. -/
theorem Ends.mapError {ε' : Type*} {f : ε' → ε} {y : Except ε' β} (he : ∀ e, E (f e))
    (h : ∀ b, y = .ok b → P b) : Ends P E (y.mapError f) := by
  rcases y with e | b
  · exact he e
  · exact h b rfl

end

/-! ## Reachable states -/

/-- `s` is reached from `s₀` by successful operations, each of them allowed by `ok` in the state
it was issued in. -/
inductive Reaches (step : σ → α → Except ε σ) (ok : σ → α → Prop) (s₀ : σ) : σ → Prop
  | refl : Reaches step ok s₀ s₀
  | step {s s' : σ} {a : α} (h : Reaches step ok s₀ s) (hok : ok s a) (hs : step s a = .ok s') : Reaches step ok s₀ s'

namespace Reaches

variable {step : σ → α → Except ε σ} {ok : σ → α → Prop} {s₀ s s' : σ}

/-- **The invariant rule.**  A property of the initial state that every allowed operation
preserves holds in every reachable state.  The step case may use that the state is reachable. -/
theorem invariant {P : σ → Prop} (h : Reaches step ok s₀ s) (h0 : P s₀)
    (hst : ∀ {s s' : σ} {a : α}, Reaches step ok s₀ s → P s → ok s a → step s a = .ok s' → P s') : P s := by
  induction h with
  | refl => exact h0
  | step hr hok hs ih => exact hst hr ih hok hs

/-- A run under a stricter discipline is a run under a weaker one. -/
theorem mono {ok' : σ → α → Prop} (h : Reaches step ok s₀ s) (hok : ∀ s a, ok s a → ok' s a) :
    Reaches step ok' s₀ s := by
  induction h with
  | refl => exact .refl
  | step _ ha hs ih => exact .step ih (hok _ _ ha) hs

theorem trans (h : Reaches step ok s₀ s) (h' : Reaches step ok s s') : Reaches step ok s₀ s' := by
  induction h' with
  | refl => exact h
  | step _ ha hs ih => exact .step ih ha hs

/-- A run of a step function that carries extra data along is a run of the step function without
it. -/
theorem map {τ : Type*} {step' : τ → α → Except ε τ} {t₀ t : τ} (f : τ → σ)
    (hst : ∀ t t' a, step' t a = .ok t' → step (f t) a = .ok (f t'))
    (h : Reaches step' (fun t a => ok (f t) a) t₀ t) : Reaches step ok (f t₀) (f t) := by
  induction h with
  | refl => exact .refl
  | step _ hok hs ih => exact .step ih hok (hst _ _ _ hs)

end Reaches

/-! ## Replaying a concrete run -/

section

variable (step : σ → α → Except ε σ) (ok : σ → α → Prop) [∀ s a, Decidable (ok s a)]

/-- Replays the operations in order, and gives up at the first one that fails or is not
allowed. -/
def runChecked : σ → List α → Option σ
  | s, [] => some s
  | s, a :: as =>
    if ok s a then
      match step s a with
      | .ok s' => runChecked s' as
      | .error _ => none
    else none

/-- What a replay ends in is reachable. -/
theorem reaches_of_runChecked : ∀ (as : List α) {s₀ s : σ}, runChecked step ok s₀ as = some s → Reaches step ok s₀ s
  | [], s₀, s, h => by
    cases h
    exact .refl
  | a :: as, s₀, s, h => by
    rw [runChecked] at h
    split at h
    · rename_i ha
      split at h
      · rename_i s' hs'
        exact (Reaches.step .refl ha hs').trans (reaches_of_runChecked as h)
      · cases h
    · cases h

/-- A replay that ends in a state with a decidable property shows that such a state is
reachable. -/
theorem exists_reaches (s₀ : σ) (as : List α) (P : σ → Prop) [DecidablePred P]
    (h : (runChecked step ok s₀ as).any (fun s => decide (P s)) = true) : ∃ s, Reaches step ok s₀ s ∧ P s := by
  cases hr : runChecked step ok s₀ as with
  | none =>
    rw [hr] at h
    cases h
  | some s =>
    rw [hr] at h
    exact ⟨s, reaches_of_runChecked step ok as hr, of_decide_eq_true h⟩

end

end Fallible
