import Mathlib.Algebra.BigOperators.Group.Finset.Basic
import Mathlib.Data.Fintype.Basic

/-!
# Streams that hand over to one another

A sequence of items is spread over several streams, and is put together again by following marks.
A reader takes items from the front of one stream; an item `e` with `next e = some t` is a mark, and
sends the reader on to stream `t`, where it continues at the place it had reached there before.

* `Follows next s k l s' k'` says that a reader at stream `k` of the streams `s` can read `l`, leaving
  the streams `s'` and standing at stream `k'`.
* `follow` is the reader as a program, with a bound on the number of items it takes.  A reader that
  has come to the end of its stream has read what `follow` reads (`Follows.follow_eq`).

Streams may grow at the end while they are being read (`Follows.append`).
-/

namespace Relay

open List Function

variable {κ α : Type*} [DecidableEq κ] {next : α → Option κ} {s s' s'' : κ → List α}
  {k k' k'' t : κ} {l l' rest : List α} {e : α}

/-- A reader at stream `k` of `s` reads `l`, leaves the streams `s'` and stands at stream `k'`. -/
inductive Follows (next : α → Option κ) : (κ → List α) → κ → List α → (κ → List α) → κ → Prop
  /-- The reader rests. -/
  | stop (s : κ → List α) (k : κ) : Follows next s k [] s k
  /-- The reader takes an item. -/
  | item {s s' : κ → List α} {k k' : κ} {e : α} {rest l : List α} (hs : s k = e :: rest)
      (he : next e = none) (h : Follows next (update s k rest) k l s' k') :
      Follows next s k (e :: l) s' k'
  /-- The reader takes a mark and moves on. -/
  | mark {s s' : κ → List α} {k k' t : κ} {e : α} {rest l : List α} (hs : s k = e :: rest)
      (he : next e = some t) (h : Follows next (update s k rest) t l s' k') :
      Follows next s k l s' k'

/-- The reader as a program: it takes at most `n` items and marks, and stops at the end of a
stream. -/
def follow (next : α → Option κ) : Nat → (κ → List α) → κ → List α × (κ → List α) × κ
  | 0, s, k => ([], s, k)
  | n + 1, s, k =>
    match s k with
    | [] => ([], s, k)
    | e :: rest =>
      match next e with
      | none =>
        let (l, r) := follow next n (update s k rest) k
        (e :: l, r)
      | some t => follow next n (update s k rest) t

section

variable (h : Follows next s k l s' k')
include h

/-- Reading on from where another reader stopped. -/
theorem Follows.trans (h' : Follows next s' k' l' s'' k'') :
    Follows next s k (l ++ l') s'' k'' := by
  induction h with
  | stop s k => exact h'
  | item hs he _ ih => exact .item hs he (ih h')
  | mark hs he _ ih => exact .mark hs he (ih h')

/-- A reader takes from the front: what it leaves is the end of what was there. -/
theorem Follows.left_suffix (q : κ) : s' q <:+ s q := by
  have hta : ∀ {s : κ → List α} {k : κ} {e : α} {rest : List α}, s k = e :: rest → update s k rest q <:+ s q := by
    intro s k e rest hs
    by_cases hq : q = k
    · subst hq
      rw [update_self, hs]
      exact suffix_cons e rest
    · rw [update_of_ne hq]
  induction h with
  | stop s k => exact suffix_rfl
  | item hs _ _ ih => exact ih.trans (hta hs)
  | mark hs _ _ ih => exact ih.trans (hta hs)

/-- **Writing at the end does not disturb a reader at the front.** -/
theorem Follows.append (t : κ → List α) :
    Follows next (fun q => s q ++ t q) k l (fun q => s' q ++ t q) k' := by
  have hst : ∀ (s : κ → List α) (k : κ) (rest : List α), update (fun q => s q ++ t q) k (rest ++ t k)
        = fun q => update s k rest q ++ t q := by
    intro s k rest
    funext q
    by_cases hq : q = k
    · subst hq
      simp
    · simp [hq]
  induction h with
  | stop s k => exact .stop _ _
  | @item s s' k k' e rest l hs he _ ih =>
    refine .item (show s k ++ t k = e :: (rest ++ t k) by rw [hs, cons_append]) he ?_
    rwa [hst]
  | @mark s s' k k' u e rest l hs he _ ih =>
    refine .mark (show s k ++ t k = e :: (rest ++ t k) by rw [hs, cons_append]) he ?_
    rwa [hst]

end

theorem append_update_nil (s : κ → List α) (q : κ) (x : α) :
    (fun r => s r ++ update (fun _ => []) q [x] r) = update s q (s q ++ [x]) := by
  funext r
  by_cases hr : r = q
  · subst hr
    simp
  · simp [hr]

section

variable (h : Follows next s k l s' k')
include h

/-- One more item at the end of some stream. -/
theorem Follows.push (q : κ) (x : α) : Follows next (update s q (s q ++ [x])) k l
      (update s' q (s' q ++ [x])) k' := by
  have := h.append (update (fun _ => []) q [x])
  rwa [append_update_nil, append_update_nil] at this

/-- One more item where the reader is waiting: it reads it. -/
theorem Follows.push_item (hend : s' k' = []) (he : next e = none) :
    Follows next (update s k' (s k' ++ [e])) k (l ++ [e]) s' k' := by
  have hnew : update s' k' (s' k' ++ [e]) k' = [e] := by simp [hend]
  refine (h.push k' e).trans (.item hnew he ?_)
  rw [update_idem, update_eq_self_iff.2 hend.symm]
  exact .stop s' k'

/-- A mark where the reader is waiting: it moves on. -/
theorem Follows.push_mark (hend : s' k' = [])
    (he : next e = some t) : Follows next (update s k' (s k' ++ [e])) k l s' t := by
  rw [← append_nil l]
  have hnew : update s' k' (s' k' ++ [e]) k' = [e] := by simp [hend]
  refine (h.push k' e).trans (.mark hnew he ?_)
  rw [update_idem, update_eq_self_iff.2 hend.symm]
  exact .stop s' t

end

/-! ## The reader ends up in one place only -/

section

variable [Fintype κ]

/-- Taking one item makes the streams one shorter. -/
theorem sum_length_update (hs : s k = e :: rest) : ∑ q, (s q).length = ∑ q, (update s k rest q).length + 1 := by
  rw [← Finset.add_sum_erase _ _ (Finset.mem_univ k),
    ← Finset.add_sum_erase _ (fun q => (update s k rest q).length) (Finset.mem_univ k)]
  have ho : ∑ q ∈ Finset.univ.erase k, (update s k rest q).length
      = ∑ q ∈ Finset.univ.erase k, (s q).length :=
    Finset.sum_congr rfl fun q hq => by rw [update_of_ne (Finset.ne_of_mem_erase hq)]
  rw [ho, update_self, hs, length_cons]
  omega

/-- **A reader at the end of its stream has read what `follow` reads**, given as many steps as
there are items. -/
theorem Follows.follow_eq (h : Follows next s k l s' k') (hend : s' k' = []) :
    ∀ {n : Nat}, ∑ q, (s q).length ≤ n → follow next n s k = (l, s', k') := by
  induction h with
  | stop s k =>
    intro n _
    cases n with
    | zero => rfl
    | succ n => rw [follow, hend]
  | item hs he _ ih =>
    intro n hn
    rw [sum_length_update hs] at hn
    obtain ⟨m, rfl⟩ : ∃ m, n = m + 1 := ⟨n - 1, by omega⟩
    rw [follow, hs]
    dsimp only
    rw [he]
    dsimp only
    rw [ih hend (by omega)]
  | mark hs he _ ih =>
    intro n hn
    rw [sum_length_update hs] at hn
    obtain ⟨m, rfl⟩ : ∃ m, n = m + 1 := ⟨n - 1, by omega⟩
    rw [follow, hs]
    dsimp only
    rw [he]
    exact ih hend (by omega)

end

end Relay
