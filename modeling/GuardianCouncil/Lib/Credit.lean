import Mathlib.Data.List.Basic

/-!
# Credits over delayed wires

A sender hands items to a buffer of limited size and to a sink.  It knows the buffer's occupancy and the items that
the sink has taken with a delay, and counts what it has sent and not yet heard of from the sink as if it were
still on its way to the buffer.  It sends no more than there is then room for.

This is safe if news from the sink is not faster than news from the buffer: an item that the sink has taken must have
been in the buffer when the buffer's occupancy was reported (`room`).

A history has the latest cycle first.
-/

namespace Credit

structure Cycle where
  /-- What is sent in the cycle. -/
  sent : ℕ
  /-- What the sink takes. -/
  taken : ℕ
  /-- What is in the buffer at the end. -/
  held : ℕ

open Cycle List

structure Delays where
  toBuffer : ℕ
  toSink : ℕ
  /-- How many cycles there are between the last one that the sender knows the occupancy of and the present one. -/
  bufferNews : ℕ
  /-- The same for what the sink has taken. -/
  sinkNews : ℕ

def total {α : Type*} (f : α → ℕ) : List α → ℕ
  | [] => 0
  | c :: h => f c + total f h

def held : List Cycle → ℕ
  | [] => 0
  | c :: _ => c.held

def sentIn : List Cycle → ℕ
  | [] => 0
  | c :: _ => c.sent

variable (d : Delays) (size : ℕ)

/-- The sender's rule for a cycle, from what it knows of those before. -/
def Send (c : Cycle) (h : List Cycle) : Prop :=
  c.sent = 0 ∨ c.sent + total sent h + held (h.drop d.bufferNews) ≤ size + total taken (h.drop d.sinkNews)

/-- The sink takes only what has reached it. -/
def Take (h : List Cycle) : Prop := total taken h ≤ total sent (h.drop d.toSink)

/-- The buffer grows by no more than what reaches it. -/
def Hold (c : Cycle) (h : List Cycle) : Prop := c.held ≤ held h + sentIn ((c :: h).drop d.toBuffer)

/-- The rules have been kept in every cycle. -/
def Obeys : List Cycle → Prop
  | [] => True
  | c :: h => Obeys h ∧ Send d size c h ∧ Take d (c :: h) ∧ Hold d c h

variable {d size} {c : Cycle} {h : List Cycle}

theorem total_drop_le {α : Type*} (f : α → ℕ) (h : List α) (n : ℕ) : total f (h.drop n) ≤ total f h := by
  induction n generalizing h with
  | zero => exact Nat.le_refl _
  | succ n ih =>
    cases h with
    | nil => exact Nat.le_refl _
    | cons c h => exact Nat.le_trans (ih h) (Nat.le_add_left _ _)

theorem Obeys.drop (hh : Obeys d size h) (n : ℕ) : Obeys d size (h.drop n) := by
  induction n generalizing h with
  | zero => exact hh
  | succ n ih =>
    cases h with
    | nil => exact trivial
    | cons c h => exact ih hh.1

theorem Obeys.take (hh : Obeys d size h) : Take d h := by
  cases h with
  | nil => simp [Take, total]
  | cons c h => exact hh.2.2.1

/-- The occupancy has grown since an earlier cycle by no more than what has reached the buffer. -/
theorem Obeys.held_le (hh : Obeys d size h) (n : ℕ) : held h + total sent (h.drop (d.toBuffer + n)) ≤
      held (h.drop n) + total sent (h.drop d.toBuffer) := by
  induction n generalizing h with
  | zero => exact Nat.le_refl _
  | succ n ih =>
    cases h with
    | nil => simp [held, total]
    | cons c h =>
      have hprev := ih hh.1
      have hho : Hold d c h := hh.2.2.2
      -- what reaches the buffer in the cycle is what the two totals differ by
      have hse : total sent ((c :: h).drop d.toBuffer) =
          sentIn ((c :: h).drop d.toBuffer) + total sent (h.drop d.toBuffer) := by
        have hta : h.drop d.toBuffer = ((c :: h).drop d.toBuffer).tail := by
          rw [tail_drop]
          rfl
        rw [hta]
        cases (c :: h).drop d.toBuffer with
        | _ => rfl
      rw [← Nat.add_assoc, drop_succ_cons, drop_succ_cons, hse]
      rw [Hold] at hho
      have hc : held (c :: h) = c.held := rfl
      omega

section

variable (hd : d.toBuffer + d.bufferNews ≤ d.toSink + d.sinkNews) (hh : Obeys d size h)
include hd hh

/-- What reaches the buffer finds room. -/
theorem room_of_held_le
    (hhe : held h ≤ size) (hse : Send d size c h) : held h + sentIn ((c :: h).drop d.toBuffer) ≤ size := by
  have hall : ∀ y h', (c :: h).drop d.toBuffer = y :: h' → Send d size y h' := by
    intro y h' heq
    cases hR : d.toBuffer with
    | zero =>
      rw [hR, drop_zero, cons.injEq] at heq
      rw [← heq.1, ← heq.2]
      exact hse
    | succ n =>
      rw [hR, drop_succ_cons] at heq
      have hdr := hh.drop n
      rw [heq] at hdr
      exact hdr.2.1
  cases heq : (c :: h).drop d.toBuffer with
  | nil => exact hhe
  | cons y h' =>
    rcases hall y h' heq with hzero | hy
    · rw [sentIn, hzero]
      exact hhe
    have hta : h.drop d.toBuffer = h' := by
      have := congrArg tail heq
      rwa [tail_drop] at this
    have hg : held h + total sent (h'.drop (d.toBuffer + d.bufferNews)) ≤
        held (h'.drop d.bufferNews) + total sent h' := by
      rw [← hta, drop_drop, drop_drop]
      exact hh.held_le (d.toBuffer + d.bufferNews)
    have htak : total taken (h'.drop d.sinkNews) ≤ total sent (h'.drop (d.toSink + d.sinkNews)) := by
      have h1 := ((hh.drop d.toBuffer).drop d.sinkNews).take
      rwa [hta, Take, drop_drop, Nat.add_comm] at h1
    have hm : total sent (h'.drop (d.toSink + d.sinkNews)) ≤
        total sent (h'.drop (d.toBuffer + d.bufferNews)) := by
      obtain ⟨k, hk⟩ := Nat.exists_eq_add_of_le hd
      rw [hk, ← drop_drop]
      exact total_drop_le _ _ _
    rw [sentIn]
    omega

theorem Obeys.held_le_size : held h ≤ size := by
  induction h with
  | nil => exact Nat.zero_le _
  | cons c h ih => exact Nat.le_trans hh.2.2.2 (room_of_held_le hd hh.1 (ih hh.1) hh.2.1)

end

/-- **What reaches the buffer finds room**, after every history in which the rules have been kept. -/
theorem Obeys.room (hh : Obeys d size h) (hd : d.toBuffer + d.bufferNews ≤ d.toSink + d.sinkNews)
    (hse : Send d size c h) : held h + sentIn ((c :: h).drop d.toBuffer) ≤ size :=
  room_of_held_le hd hh (hh.held_le_size hd) hse

end Credit
