import Mathlib.Data.List.Induction
import GuardianCouncil.Lib.Fallible

/-!
# The control-flow integrity kernels

`controlflow.c` looks up the target of every indirect branch in a table of one bit for each instruction between
`min` and `max`, and `controlflow_fine.c` looks up target and branch in two tables of one byte each.  The
bounds are the smallest and largest address that the main core has seen at an indirect branch.

The tables are one entry short: their sizes leave out the block that `max` is in (`max_outside`), although
`max` is accepted, and is an address that comes up.  And `controlflow.c` shifts its bit by `* 7` where
`& 7` was meant, so the bit is one of a byte for the first two instructions only, and for one more where
the product wraps around (`sound_iff`).

The kernels run on a 64-bit target with an unsigned `char`.
-/

namespace GuardianCouncil.Cfi

open Fallible List BitVec

abbrev Word := BitVec 64

inductive Fault
  /-- `assert(address >= min && address <= max)`, and the same for `pc`. -/
  | range
  /-- A read outside the table. -/
  | outOfBounds
  /-- A shift of an `int` by 32 or more. -/
  | shift
  /-- The assertion about the entry. -/
  | violation
deriving DecidableEq

/-! ## The bounds -/

structure Bounds where
  minaddr : Word
  maxaddr : Word
deriving DecidableEq

/-- `minaddr` and `maxaddr` as they are initialized. -/
def Bounds.none : Bounds := ⟨-1, 0⟩

/-- An address that is compared with the bounds. -/
def Bounds.see (b : Bounds) (a : Word) : Bounds where
  maxaddr := if b.maxaddr < a then a else b.maxaddr
  minaddr := if a < b.minaddr then a else b.minaddr

/-- The commit of an indirect branch at `pc` to `target`. -/
def Bounds.observe (b : Bounds) (branch : Word × Word) : Bounds := (b.see branch.1).see branch.2

def Bounds.of (branches : List (Word × Word)) : Bounds := branches.foldl Bounds.observe .none

/-! ## The kernels -/

variable (min max : Word)

def accept (a : Word) : Except Fault Unit := if min ≤ a ∧ a ≤ max then .ok () else .error .range

/-- A read of a table that was allocated with `size` bytes. -/
def readTable (table : Word → BitVec 8) (size i : Word) : Except Fault (BitVec 8) :=
  if i < size then .ok (table i) else .error .outOfBounds

/-- The size of the table of `controlflow.c`. -/
def coarseSize : Word := (max - min) >>> 5

def byteIndex (address : Word) : Word := (address - min) >>> 5

/-- What 1 is shifted by. -/
def bitIndex (address : Word) : Word := ((address - min) >>> 2) * 7

/-- One round of `controlflow.c`. -/
def controlflow (cfi : Word → BitVec 8) (address : Word) : Except Fault Unit := do
  accept min max address
  let lookup ← readTable cfi (coarseSize min max) (byteIndex min address)
  if 32 ≤ bitIndex min address then .error .shift
  else if (1#32 <<< (bitIndex min address).toNat) &&& lookup.setWidth 32 ≠ 0 then .error .violation
  else .ok ()

/-- The size of the tables of `controlflow_fine.c`. -/
def fineSize : Word := (max - min) >>> 2

def wordIndex (a : Word) : Word := (a - min) >>> 2

/-- One round of `controlflow_fine.c`. -/
def controlflowFine (cfi type : Word → BitVec 8) (pc address : Word) : Except Fault Unit := do
  accept min max address
  accept min max pc
  let lookup ← readTable cfi (fineSize min max) (wordIndex min address)
  let typed ← readTable type (fineSize min max) (wordIndex min pc)
  if typed ≠ lookup then .error .violation else .ok ()

/-! ## Offsets -/

variable {min max : Word}

/-- How far an address is from the lower bound. -/
def offset (min a : Word) : ℕ := a.toNat - min.toNat

/-- The block of `n` bytes that the address is in, counted from the lower bound, ends at the upper bound or
before it. -/
def Fits (min max : Word) (n : ℕ) (a : Word) : Prop :=
  n * (offset min a / n) + n ≤ offset min max
deriving Decidable

variable {a : Word} {branches : List (Word × Word)}

theorem toNat_sub_eq (h : min ≤ a) : (a - min).toNat = offset min a := by
  rw [toNat_sub_of_le h, offset]

theorem offset_lt (min a : Word) : offset min a < 18446744073709551616 := by
  have h := a.isLt
  rw [offset]
  omega

theorem toNat_byteIndex (h : min ≤ a) : (byteIndex min a).toNat = offset min a / 32 := by
  rw [byteIndex, toNat_ushiftRight, toNat_sub_eq h, Nat.shiftRight_eq_div_pow]

theorem toNat_wordIndex (h : min ≤ a) : (wordIndex min a).toNat = offset min a / 4 := by
  rw [wordIndex, toNat_ushiftRight, toNat_sub_eq h, Nat.shiftRight_eq_div_pow]

theorem toNat_bitIndex (h : min ≤ a) : (bitIndex min a).toNat = offset min a / 4 * 7 % 18446744073709551616 := by
  rw [bitIndex, toNat_mul, toNat_ushiftRight, toNat_sub_eq h, Nat.shiftRight_eq_div_pow]
  rfl

theorem byteIndex_lt_iff (hmax : min ≤ max) (h : min ≤ a) :
    byteIndex min a < coarseSize min max ↔ Fits min max 32 a := by
  rw [lt_def, toNat_byteIndex h, show coarseSize min max = byteIndex min max from rfl, toNat_byteIndex hmax, Fits]
  omega

theorem wordIndex_lt_iff (hmax : min ≤ max) (h : min ≤ a) : wordIndex min a < fineSize min max ↔ Fits min max 4 a := by
  rw [lt_def, toNat_wordIndex h, show fineSize min max = wordIndex min max from rfl, toNat_wordIndex hmax, Fits]
  omega

/-- An instruction whose bit is one of a byte: the first two, and one where `* 7` wraps around. -/
def HasBit (min a : Word) : Prop :=
  offset min a = 0 ∨ offset min a = 4 ∨ offset min a = 10540996613548315212

theorem bitIndex_le_iff (h : min ≤ a) (ha : offset min a % 4 = 0) : bitIndex min a ≤ 7 ↔ HasBit min a := by
  have hlt := offset_lt min a
  -- the product wraps around at most once
  have hwr : offset min a / 4 * 7 / 18446744073709551616 = 0 ∨
      offset min a / 4 * 7 / 18446744073709551616 = 1 := by omega
  rw [le_def, toNat_bitIndex h, HasBit, show (7 : Word).toNat = 7 from rfl]
  omega

/-! ## Where the kernels look -/

/-- What the two kernels should do with two targets and a branch that they accept. -/
structure Sound (min max address address' pc : Word) : Prop where
  inside : byteIndex min address < coarseSize min max
  inside' : byteIndex min address' < coarseSize min max
  bit : bitIndex min address ≤ 7
  bit' : bitIndex min address' ≤ 7
  distinct : address ≠ address' →
    (byteIndex min address, bitIndex min address) ≠ (byteIndex min address', bitIndex min address')
  fine : wordIndex min address < fineSize min max
  finePc : wordIndex min pc < fineSize min max

theorem bitIndex_of_hasBit (h : min ≤ a) (hbit : HasBit min a) :
    (offset min a = 0 ∧ (bitIndex min a).toNat = 0) ∨ (offset min a = 4 ∧ (bitIndex min a).toNat = 7) ∨
      (offset min a = 10540996613548315212 ∧ (bitIndex min a).toNat = 5) := by
  rw [toNat_bitIndex h]
  rcases hbit with hbit | hbit | hbit
  · exact .inl ⟨hbit, by rw [hbit]⟩
  · exact .inr (.inl ⟨hbit, by rw [hbit]⟩)
  · exact .inr (.inr ⟨hbit, by rw [hbit]⟩)

/-- Instructions with a bit have different ones. -/
theorem eq_of_bitIndex_eq {a' : Word} (h : min ≤ a) (h' : min ≤ a') (hbit : HasBit min a)
    (hbit' : HasBit min a') (heq : bitIndex min a = bitIndex min a') : a = a' := by
  have hval := bitIndex_of_hasBit h hbit
  have hval' := bitIndex_of_hasBit h' hbit'
  rw [heq] at hval
  have ho : offset min a = offset min a' := by omega
  rw [le_def] at h h'
  rw [offset, offset] at ho
  exact eq_of_toNat_eq (by omega)

/-- The lookups for two accepted targets and an accepted branch are right exactly if the targets are instructions with
a bit, and the blocks that the addresses are in end before the upper bound. -/
theorem sound_iff (min max address address' pc : Word) (hmax : min ≤ max) (hmin : min.toNat % 4 = 0)
    (hacc : min ≤ address ∧ address ≤ max) (halign : address.toNat % 4 = 0)
    (hacc' : min ≤ address' ∧ address' ≤ max) (halign' : address'.toNat % 4 = 0) (hpc : min ≤ pc ∧ pc ≤ max) :
    Sound min max address address' pc ↔
      HasBit min address ∧ HasBit min address' ∧ Fits min max 32 address ∧ Fits min max 32 address' ∧
        Fits min max 4 pc := by
  have hoff : ∀ a : Word, min ≤ a → a.toNat % 4 = 0 → offset min a % 4 = 0 := by
    intro a ha ha4
    rw [le_def] at ha
    rw [offset]
    omega
  constructor
  · intro h
    exact ⟨(bitIndex_le_iff hacc.1 (hoff _ hacc.1 halign)).1 h.bit,
      (bitIndex_le_iff hacc'.1 (hoff _ hacc'.1 halign')).1 h.bit',
      (byteIndex_lt_iff hmax hacc.1).1 h.inside, (byteIndex_lt_iff hmax hacc'.1).1 h.inside',
      (wordIndex_lt_iff hmax hpc.1).1 h.finePc⟩
  · rintro ⟨hbit, hbit', hfi, hf', hf⟩
    refine ⟨(byteIndex_lt_iff hmax hacc.1).2 hfi, (byteIndex_lt_iff hmax hacc'.1).2 hf',
      (bitIndex_le_iff hacc.1 (hoff _ hacc.1 halign)).2 hbit,
      (bitIndex_le_iff hacc'.1 (hoff _ hacc'.1 halign')).2 hbit', fun hne heq => ?_,
      (wordIndex_lt_iff hmax hacc.1).2 ?_, (wordIndex_lt_iff hmax hpc.1).2 hf⟩
    · exact hne (eq_of_bitIndex_eq hacc.1 hacc'.1 hbit hbit' (Prod.mk.inj heq).2)
    · rw [Fits] at hfi ⊢
      omega

/-- The first two of a program of sixteen instructions. -/
theorem sound_iff_firstTwo : Sound 4096 4160 4096 4100 4156 :=
  (sound_iff 4096 4160 4096 4100 4156 (by decide) (by decide) (by decide) (by decide) (by decide)
    (by decide) (by decide)).2
    ⟨.inl rfl, .inr (.inl rfl), by decide, by decide, by decide⟩

/-- The address that is the upper bound is accepted and is in none of the tables. -/
theorem max_outside (min max : Word) :
    ¬ byteIndex min max < coarseSize min max ∧ ¬ wordIndex min max < fineSize min max :=
  ⟨BitVec.lt_irrefl _, BitVec.lt_irrefl _⟩

/-- In a program of sixteen instructions, the last two share a byte that the table does not have, and the
amounts that they shift by are none of a byte. -/
theorem lastTwo_unsound :
    ((4096 : Word) ≤ 4156 ∧ (4156 : Word) ≤ 4156) ∧ ((4096 : Word) ≤ 4152 ∧ (4152 : Word) ≤ 4156) ∧
      ¬ Sound 4096 4156 4152 4156 4156 ∧
      (∀ cfi, controlflow 4096 4156 cfi 4156 = .error .outOfBounds) ∧
      (∀ cfi, controlflow 4096 4160 cfi 4124 = .error .shift) ∧
      ∀ cfi type, controlflowFine 4096 4156 cfi type 4156 4096 = .error .outOfBounds :=
  ⟨by decide, by decide, fun h => absurd h.inside (by decide), fun _ => rfl, fun _ => rfl, fun _ _ => rfl⟩

/-! ## The bounds that the main core leaves -/

/-- The bounds fit the addresses: all are between them, and the upper one is one of them. -/
structure Bounds.Tight (b : Bounds) (addresses : List Word) : Prop where
  between : ∀ a ∈ addresses, b.minaddr ≤ a ∧ a ≤ b.maxaddr
  attained : b.maxaddr = 0 ∨ b.maxaddr ∈ addresses

theorem Bounds.Tight.see {b : Bounds} {addresses : List Word} (h : b.Tight addresses) (a : Word) :
    (b.see a).Tight (addresses ++ [a]) := by
  have hmin : (b.see a).minaddr ≤ b.minaddr ∧ (b.see a).minaddr ≤ a := by
    simp only [Bounds.see]
    split <;> simp only [lt_def, le_def] at * <;> omega
  have hmax : b.maxaddr ≤ (b.see a).maxaddr ∧ a ≤ (b.see a).maxaddr := by
    simp only [Bounds.see]
    split <;> simp only [lt_def, le_def] at * <;> omega
  refine ⟨fun x hx => ?_, ?_⟩
  · rcases mem_append.1 hx with hx | hx
    · exact ⟨BitVec.le_trans hmin.1 (h.between x hx).1, BitVec.le_trans (h.between x hx).2 hmax.1⟩
    · rw [mem_singleton.1 hx]
      exact ⟨hmin.2, hmax.2⟩
  · rw [mem_append, mem_singleton]
    simp only [Bounds.see]
    split
    · exact .inr (.inr rfl)
    · exact h.attained.imp_right .inl

theorem Bounds.of_tight (branches : List (Word × Word)) :
    (Bounds.of branches).Tight (branches.flatMap fun x => [x.1, x.2]) := by
  induction branches using List.reverseRecOn with
  | nil => exact ⟨by simp, .inl rfl⟩
  | append_singleton branches x ih =>
    have h := (ih.see x.1).see x.2
    rw [List.append_assoc] at h
    rw [Bounds.of, foldl_append, flatMap_append, flatMap_singleton]
    exact h

/-- With the bounds of the branches that a program has taken, there is one among them for which
`controlflow_fine.c` reads outside a table, whatever the tables hold. -/
theorem controlflowFine_of_observed (hne : branches ≠ []) (cfi type : Word → BitVec 8) :
    ∃ x ∈ branches, controlflowFine (Bounds.of branches).minaddr (Bounds.of branches).maxaddr cfi type x.2 x.1 =
      .error .outOfBounds := by
  have hti := Bounds.of_tight branches
  generalize Bounds.of branches = b at hti ⊢
  have hin : ∀ x ∈ branches, (b.minaddr ≤ x.1 ∧ x.1 ≤ b.maxaddr) ∧ b.minaddr ≤ x.2 ∧ x.2 ≤ b.maxaddr := fun x hx =>
    ⟨hti.between _ (mem_flatMap.2 ⟨x, hx, by simp⟩), hti.between _ (mem_flatMap.2 ⟨x, hx, by simp⟩)⟩
  obtain ⟨x, hx, hval⟩ : ∃ x ∈ branches, x.1 = b.maxaddr ∨ x.2 = b.maxaddr := by
    rcases hti.attained with hzero | h
    · obtain ⟨x, hx⟩ := exists_mem_of_ne_nil branches hne
      have hle := (hin x hx).1.2
      rw [hzero] at hle ⊢
      exact ⟨x, hx, .inl (le_zero_iff.1 hle)⟩
    · simpa [eq_comm] using h
  refine ⟨x, hx, ?_⟩
  have hout := (max_outside b.minaddr b.maxaddr).2
  rw [controlflowFine, accept, if_pos (hin x hx).1, accept, if_pos (hin x hx).2, ok_bind, ok_bind]
  rcases hval with hval | hval
  · rw [hval, readTable, if_neg hout, error_bind]
  · rw [hval, readTable]
    split
    · rw [ok_bind, readTable, if_neg hout, error_bind]
    · rw [error_bind]

/-- Two branches. -/
theorem controlflowFine_of_observed_two : ∃ x ∈ [((4096 : Word), (4120 : Word)), (4200, 4104)],
    controlflowFine 4096 4200 (fun _ => 1) (fun _ => 0) x.2 x.1 = .error .outOfBounds :=
  controlflowFine_of_observed (by simp) _ _

end GuardianCouncil.Cfi
