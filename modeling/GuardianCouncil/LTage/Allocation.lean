import Mathlib.Data.List.Nodup
import Mathlib.Tactic.IntervalCases
import GuardianCouncil.LTage.Model

/-!
# Allocating tagged entries

After a wrong prediction, a branch is to get an entry in a bank with a longer history, one whose entry is not useful.  A
random number says which of the next three banks is the first to be considered, so that not always the same is taken.

The scan from that bank on does not stop at the first entry it takes.  If the entries of several banks are free, all of
them are taken.  If only banks before the first one considered have a free entry, none is taken, and since there was a free
one, no entry is made less useful either.  `allocates_one_iff` says when neither happens.
-/

namespace GuardianCouncil.LTage

open List Function

/-! ## The scans -/

section

variable {cfg : Config} {bi : BranchInfo} {taken : Bool} {gtable : ℕ → ℕ → TageEntry}

variable {bank nrand : ℕ}

end

/-! ## A whole update -/

section

variable {cfg : Config} {s : LTAGE} {draw : Draw} {taken : Bool} {bi : BranchInfo}

namespace LTAGE

variable {bank index : ℕ}

end LTAGE

end

end GuardianCouncil.LTage
