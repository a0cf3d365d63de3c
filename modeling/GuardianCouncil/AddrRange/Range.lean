import Mathlib.Data.Nat.Dist

/-!
# Address ranges

An `AddrRange` is an interval of addresses, or the part of one in which some bits of the address, perhaps
hashed with some other bits, have a given value.  Several ranges that differ in that value only make up
a chunk (`mergesWith`), and `operator<` tells them apart by the value.

Whether two ranges intersect can be told for intervals, for the members of a chunk, and for a single
address; `intersects` panics on everything else.
-/

namespace GuardianCouncil.AddrRanges

abbrev Addr := BitVec 64

/-- `AddrRange`, with what its constructor checks. -/
structure AddrRange where
  start : Addr
  stop : Addr
  intlvHighBit : Nat := 0
  xorHighBit : Nat := 0
  intlvBits : Nat := 0
  intlvMatch : Nat := 0
  /-- The match value fits in the interleaving bits. -/
  match_lt : intlvBits ≠ 0 → intlvMatch < 2 ^ intlvBits := by decide
  /-- The two slices are apart. -/
  bits_le_dist : intlvBits ≠ 0 → xorHighBit ≠ 0 → intlvBits ≤ Nat.dist intlvHighBit xorHighBit := by
    decide
deriving DecidableEq

/-- `mask(nbits)`. -/
def mask (nbits : Nat) : BitVec 64 := if nbits = 64 then BitVec.allOnes 64 else (1 <<< nbits) - 1

/-- `bits(val, first, last)`. -/
def bits (val : Addr) (first last : Nat) : BitVec 64 := (val >>> last) &&& mask (first + 1 - last)

namespace AddrRange

variable (r r' : AddrRange)

/-- `RangeSize(a, 1)`. -/
def ofAddr (a : Addr) : AddrRange where
  start := a
  stop := a + 1 - 1
  match_lt h := absurd rfl h
  bits_le_dist h := absurd rfl h

def interleaved : Bool := r.intlvBits != 0

def hashed : Bool := r.interleaved && r.xorHighBit != 0

def size : BitVec 64 := (r.stop - r.start + 1) >>> r.intlvBits

/-- The value that the interleaving bits of an address select. -/
def selected (a : Addr) : BitVec 64 :=
  let slice := bits a r.intlvHighBit (r.intlvHighBit + 1 - r.intlvBits)
  if r.hashed then slice ^^^ bits a r.xorHighBit (r.xorHighBit + 1 - r.intlvBits) else slice

def contains (a : Addr) : Bool :=
  let inRange := r.start ≤ a && a ≤ r.stop
  if !r.interleaved then inRange
  else inRange && r.selected a == BitVec.ofNat 64 r.intlvMatch

/-- The two are part of the same chunk. -/
def mergesWith : Bool :=
  r'.start == r.start && r'.stop == r.stop && r'.intlvHighBit == r.intlvHighBit &&
    r'.xorHighBit == r.xorHighBit && r'.intlvBits == r.intlvBits

/-- `operator<`. -/
def lt : Bool := if r.start ≠ r'.start then r.start < r'.start else r.intlvMatch < r'.intlvMatch

end AddrRange

inductive Fault where
  /-- `Cannot test intersection`. -/
  | cannotTest (r r' : AddrRange)
  /-- An insert that returns `end()`. -/
  | notInserted
deriving DecidableEq

namespace AddrRange

variable (r r' : AddrRange)

def intersects : Except Fault Bool :=
  if r.start > r'.stop || r.stop < r'.start then .ok false
  else if !r.interleaved && !r'.interleaved then .ok true
  else if r'.size = 1 then .ok (r.contains r'.start)
  else if r.mergesWith r' then .ok (r.intlvMatch == r'.intlvMatch)
  else .error (.cannotTest r r')

/-- The interval of the range. -/
def Spans (a : Addr) : Prop := r.start ≤ a ∧ a ≤ r.stop

variable {r r'} {r'' : AddrRange} {a : Addr}

theorem spans_of_contains (h : r.contains a = true) : r.Spans a := by
  rw [contains] at h
  by_cases hin : r.interleaved = true
  · simp only [hin, Bool.not_true, Bool.false_eq_true, if_false, Bool.and_eq_true, decide_eq_true_eq] at h
    exact h.1
  · simp only [hin, Bool.not_false, if_true, Bool.and_eq_true, decide_eq_true_eq] at h
    exact h

theorem stop_ofAddr (a : Addr) : (ofAddr a).stop = a := BitVec.add_sub_cancel a 1

/-- A single address can be tested for whatever the range is. -/
theorem intersects_ofAddr (r : AddrRange) (a : Addr) : r.intersects (ofAddr a) = .ok (r.contains a) := by
  have hsi : (ofAddr a).size = 1 := by
    rw [size, stop_ofAddr]
    show (a - a + 1) >>> 0 = 1
    rw [BitVec.sub_self, BitVec.zero_add, BitVec.ushiftRight_zero]
  have hpl : (ofAddr a).interleaved = false := rfl
  rw [intersects, stop_ofAddr, hsi, hpl]
  show (if r.start > a || r.stop < a then _ else _) = _
  by_cases hsp : r.Spans a
  · have hout : (decide (r.start > a) || decide (r.stop < a)) = false := by
      simpa [Spans, BitVec.not_lt] using hsp
    rw [hout]
    by_cases hin : r.interleaved = true
    · simp [hin]
      rfl
    · simp [hin, contains, hsp.1, hsp.2]
  · have hout : (decide (r.start > a) || decide (r.stop < a)) = true := by
      by_contra hnot
      exact hsp (by simpa [Spans, BitVec.not_lt] using hnot)
    have hnot : r.contains a = false := Bool.eq_false_iff.2 (mt spans_of_contains hsp)
    rw [hout, hnot]
    rfl

theorem lt_iff : r.lt r' = true ↔ r.start < r'.start ∨ r.start = r'.start ∧ r.intlvMatch < r'.intlvMatch := by
  rw [lt]
  by_cases hst : r.start = r'.start
  · simp [hst, BitVec.lt_irrefl]
  · simp [hst]

theorem lt_irrefl (r : AddrRange) : r.lt r = false := by
  simp [lt]

theorem lt_trans (r r' r'' : AddrRange) (h : r.lt r' = true) (h' : r'.lt r'' = true) : r.lt r'' = true := by
  rw [lt_iff] at h h' ⊢
  rcases h with h | ⟨heq, h⟩ <;> rcases h' with h' | ⟨heq', h'⟩
  · exact .inl (BitVec.lt_trans h h')
  · exact .inl (heq' ▸ h)
  · exact .inl (heq ▸ h')
  · exact .inr ⟨heq.trans heq', h.trans h'⟩

theorem mergesWith_iff : r.mergesWith r' = true ↔
    r'.start = r.start ∧ r'.stop = r.stop ∧ r'.intlvHighBit = r.intlvHighBit ∧
      r'.xorHighBit = r.xorHighBit ∧ r'.intlvBits = r.intlvBits := by
  simp [mergesWith, and_assoc]

theorem mergesWith_symm (h : r.mergesWith r' = true) : r'.mergesWith r = true := by
  rw [mergesWith_iff] at h ⊢
  exact ⟨h.1.symm, h.2.1.symm, h.2.2.1.symm, h.2.2.2.1.symm, h.2.2.2.2.symm⟩

theorem mergesWith_trans (h : r.mergesWith r' = true) (h' : r'.mergesWith r'' = true) : r.mergesWith r'' = true := by
  rw [mergesWith_iff] at h h' ⊢
  exact ⟨h'.1.trans h.1, h'.2.1.trans h.2.1, h'.2.2.1.trans h.2.2.1, h'.2.2.2.1.trans h.2.2.2.1,
    h'.2.2.2.2.trans h.2.2.2.2⟩

end AddrRange

end GuardianCouncil.AddrRanges
