import GuardianCouncil.Lib.Buckets
import GuardianCouncil.Lib.Fallible
import GuardianCouncil.Lib.Stepwise
import Mathlib.Data.UInt

/-!
# The delay histogram

`addToHisto` counts the delay of a checked commit in one of `NUMBEROFHISTOENTRIES` buckets of equal
width, which together reach up to `maxHistoSize`.  A time beyond that doubles `maxHistoSize`, and the
buckets are merged in pairs, in place, to make room; times above `BIGBUCKETLIMIT` are kept apart in
`bigBucket`.

The loop doubles while `maxHistoSize < time`, so it may stop with `maxHistoSize = time`, and then the
index of the time is `NUMBEROFHISTOENTRIES` itself: one past the end of the array.  `OnEdge` says for
which times this happens, and `accounted_iff` that nothing else goes wrong.
-/

namespace GuardianCouncil.Histogram

open Fallible Buckets Stepwise

abbrev NUMBEROFHISTOENTRIES : Nat := 500

abbrev BIGBUCKETLIMIT : UInt64 := 20480000

/-- The minimum of an entry that counts nothing, `(uint64_t) -1`. -/
abbrev UNSET : UInt64 := 0xffffffffffffffff

/-- What is known of the times in one bucket.  `mean` is their sum: it is divided only for output. -/
structure HistoEntry where
  number : UInt64 := 0
  mean : UInt64 := 0
  minimum : UInt64 := UNSET
  maximum : UInt64 := 0
deriving DecidableEq

namespace HistoEntry

def addEntry (h : HistoEntry) (time : UInt64) : HistoEntry where
  mean := h.mean + time
  number := h.number + 1
  minimum := if time < h.minimum then time else h.minimum
  maximum := if time > h.maximum then time else h.maximum

def merge (entry1 entry2 : HistoEntry) : HistoEntry where
  number := entry1.number + entry2.number
  maximum := if entry2.maximum > entry1.maximum then entry2.maximum else entry1.maximum
  minimum := if entry2.minimum > entry1.minimum then entry1.minimum else entry2.minimum
  mean := entry1.mean + entry2.mean

end HistoEntry

/-- The static histogram fields of `securelogentry`. -/
structure Histo where
  histoEntries : Vector HistoEntry NUMBEROFHISTOENTRIES
  bigBucket : HistoEntry
  maxHistoSize : UInt64
  minTime : UInt64
  maxTime : UInt64
  meanTime : UInt64
  times : UInt64

open Histo

def Histo.init : Histo where
  histoEntries := Vector.replicate NUMBEROFHISTOENTRIES {}
  bigBucket := {}
  maxHistoSize := 100000
  minTime := UNSET
  maxTime := 0
  meanTime := 0
  times := 0

inductive Fault where
  /-- `histoEntries` is written at an index it does not have. -/
  | outOfBounds (index : UInt64)
  | divisionByZero
  /-- The loop was cut off. -/
  | noFuel
deriving DecidableEq

namespace Histo

/-- One round of the loop: twice the width, and the pairs of buckets merged. -/
def rescale (s : Histo) : Histo :=
  { s with
    maxHistoSize := s.maxHistoSize * 2
    histoEntries := halve (n := 250) HistoEntry.merge {} s.histoEntries }

/-- The loop `while (maxHistoSize < time)`. -/
def grow (time : UInt64) : Nat → Histo → Except Fault Histo
  | 0, _ => .error .noFuel
  | fuel + 1, s => if s.maxHistoSize < time then grow time fuel s.rescale else .ok s

/-- `histoEntries[index].add_entry(time)`. -/
def record (time : UInt64) (s : Histo) : Except Fault Histo :=
  if s.maxHistoSize = 0 then .error .divisionByZero else
  let index := 500 * time / s.maxHistoSize
  if h : index.toNat < NUMBEROFHISTOENTRIES then
    .ok { s with
      histoEntries := s.histoEntries.set index.toNat (s.histoEntries[index.toNat].addEntry time) }
  else .error (.outOfBounds index)

/-- The totals, which every time goes into. -/
def count (time : UInt64) (s : Histo) : Histo :=
  { s with
    times := s.times + 1
    meanTime := s.meanTime + time
    maxTime := if s.maxTime < time then time else s.maxTime
    minTime := if s.minTime > time then time else s.minTime }

-- A size other than zero is above every 64-bit time, or wraps to zero, after 64 doublings.
def addToHisto (s : Histo) (time : UInt64) : Except Fault Histo :=
  let s := s.count time
  if time > BIGBUCKETLIMIT then .ok { s with bigBucket := s.bigBucket.addEntry time }
  else grow time 65 s >>= record time

/-- The calls of `addToHisto` for the times `ts`, from the initial state. -/
def run (ts : List UInt64) : Except Fault Histo := ts.foldlM addToHisto init

end Histo

/-! ## What an entry says of a list of times -/

/-- The entry counts exactly the times in `l`.  Number and sum are 64-bit words, as in the code. -/
structure Summarises (h : HistoEntry) (l : List UInt64) : Prop where
  number : h.number = UInt64.ofNat l.length
  mean : h.mean = l.sum
  minimum_le : ∀ t ∈ l, h.minimum ≤ t
  minimum_mem : h.minimum ∈ l ∨ l = [] ∧ h.minimum = UNSET
  le_maximum : ∀ t ∈ l, t ≤ h.maximum
  maximum_mem : h.maximum ∈ l ∨ l = [] ∧ h.maximum = 0

namespace Summarises

variable {h h' : HistoEntry} {l l' : List UInt64} {t : UInt64}

theorem nil : Summarises {} [] where
  number := rfl
  mean := rfl
  minimum_le := by simp
  minimum_mem := .inr ⟨rfl, rfl⟩
  le_maximum := by simp
  maximum_mem := .inr ⟨rfl, rfl⟩

theorem perm (hs : Summarises h l) (hp : l.Perm l') : Summarises h l' where
  number := hp.length_eq ▸ hs.number
  mean := hs.mean.trans hp.sum_eq
  minimum_le t ht := hs.minimum_le t (hp.mem_iff.2 ht)
  minimum_mem := hs.minimum_mem.imp hp.mem_iff.1 fun ⟨hl, hm⟩ => ⟨(hl ▸ hp).nil_eq.symm, hm⟩
  le_maximum t ht := hs.le_maximum t (hp.mem_iff.2 ht)
  maximum_mem := hs.maximum_mem.imp hp.mem_iff.1 fun ⟨hl, hm⟩ => ⟨(hl ▸ hp).nil_eq.symm, hm⟩

theorem le_unset (t : UInt64) : t ≤ UNSET := by
  have := t.toNat_lt
  show t.toNat ≤ 2 ^ 64 - 1
  omega

theorem addEntry (hs : Summarises h l) : Summarises (h.addEntry t) (l ++ [t]) where
  number := by simp [HistoEntry.addEntry, hs.number]
  mean := by simp [HistoEntry.addEntry, hs.mean]
  minimum_le := by
    have := hs.minimum_le
    simp only [HistoEntry.addEntry]
    grind
  minimum_mem := by
    have := hs.minimum_mem
    have := le_unset t
    simp only [HistoEntry.addEntry]
    grind
  le_maximum := by
    have := hs.le_maximum
    simp only [HistoEntry.addEntry]
    grind
  maximum_mem := by
    have := hs.maximum_mem
    simp only [HistoEntry.addEntry]
    grind

theorem merge (hs : Summarises h l) (hs' : Summarises h' l') : Summarises (h.merge h') (l ++ l') where
  number := by simp [HistoEntry.merge, hs.number, hs'.number]
  mean := by simp [HistoEntry.merge, hs.mean, hs'.mean]
  minimum_le := by
    have := hs.minimum_le
    have := hs'.minimum_le
    simp only [HistoEntry.merge]
    grind
  minimum_mem := by
    have := hs.minimum_mem
    have := hs'.minimum_mem
    simp only [HistoEntry.merge]
    grind
  le_maximum := by
    have := hs.le_maximum
    have := hs'.le_maximum
    simp only [HistoEntry.merge]
    grind
  maximum_mem := by
    have := hs.maximum_mem
    have := hs'.maximum_mem
    simp only [HistoEntry.merge]
    grind

end Summarises

/-! ## The times in the buckets -/

/-- The bucket a time belongs to, without overflow. -/
def index (size t : UInt64) : Nat := 500 * t.toNat / size.toNat

/-- The times that the buckets are for. -/
def inRange (ts : List UInt64) : List UInt64 := ts.filter fun t => t ≤ BIGBUCKETLIMIT

variable {t size : UInt64} {ts : List UInt64} {s : Histo}

theorem mem_inRange : t ∈ inRange ts ↔ t ∈ ts ∧ t ≤ BIGBUCKETLIMIT := by
  simp [inRange]

/-- The number of a 64-bit time below the limit. -/
theorem toNat_le_limit : t ≤ BIGBUCKETLIMIT ↔ t.toNat ≤ 20480000 :=
  UInt64.le_iff_toNat_le

/-- Every time of `ts` is where it belongs. -/
structure Placed (s : Histo) (ts : List UInt64) : Prop where
  /-- The size has been doubled some number of times. -/
  size : ∃ k, s.maxHistoSize.toNat = 100000 * 2 ^ k
  lt_size : ∀ t ∈ inRange ts, t < s.maxHistoSize
  bucket : ∀ x (h : x < NUMBEROFHISTOENTRIES),
    Summarises s.histoEntries[x] (bucket (index s.maxHistoSize) x (inRange ts))
  big : Summarises s.bigBucket (ts.filter fun t => BIGBUCKETLIMIT < t)

/-- The state after the times `ts`. -/
structure Inv (s : Histo) (ts : List UInt64) : Prop extends Placed s ts where
  /-- The size has not been doubled without need. -/
  least : s.maxHistoSize = 100000 ∨ ∃ t ∈ inRange ts, s.maxHistoSize.toNat < 2 * t.toNat
  times : s.times = UInt64.ofNat ts.length
  meanTime : s.meanTime = ts.sum

/-- Twice the size, and every index is halved. -/
theorem index_double (h : size.toNat < 2 ^ 63) : index (size * 2) t = index size t / 2 := by
  have hsi : (size * 2).toNat = size.toNat * 2 := by
    exact Nat.mod_eq_of_lt (by show size.toNat * 2 < _; omega)
  rw [index, index, hsi, Nat.div_div_eq_div_mul]

theorem index_lt_iff (h : 0 < size.toNat) : index size t < 500 ↔ t < size := by
  rw [index, Nat.div_lt_iff_lt_mul h, UInt64.lt_iff_toNat_lt]
  omega

theorem inv_init : Inv init [] where
  size := ⟨0, rfl⟩
  least := .inl rfl
  lt_size := by simp [inRange]
  bucket x h := by
    rw [show init.histoEntries[x] = {} from Vector.getElem_replicate h]
    exact .nil
  big := .nil
  times := rfl
  meanTime := rfl

section

variable {s s' : Histo} {ts : List UInt64} {t : UInt64}

theorem Placed.size_pos (h : Placed s ts) : 0 < s.maxHistoSize.toNat := by
  obtain ⟨k, hk⟩ := h.size
  have := Nat.two_pow_pos k
  omega

theorem toNat_rescale (h : s.maxHistoSize.toNat < 2 ^ 63) :
    s.rescale.maxHistoSize.toNat = s.maxHistoSize.toNat * 2 := by
  show (s.maxHistoSize * 2).toNat = _
  rw [UInt64.toNat_mul]
  exact Nat.mod_eq_of_lt (by show s.maxHistoSize.toNat * 2 < _; omega)

@[simp] theorem rescale_bigBucket : s.rescale.bigBucket = s.bigBucket := by rw [rescale]

@[simp] theorem rescale_times : s.rescale.times = s.times := by rw [rescale]

@[simp] theorem rescale_meanTime : s.rescale.meanTime = s.meanTime := by rw [rescale]

/-- Two neighbouring buckets become one, and none is left for the upper half. -/
theorem Placed.bucket_rescale (h : Placed s ts) (hsi : s.maxHistoSize.toNat < 2 ^ 63) (x : Nat)
    (hx : x < NUMBEROFHISTOENTRIES) : Summarises s.rescale.histoEntries[x]
      (Buckets.bucket (index s.rescale.maxHistoSize) x (inRange ts)) := by
  have hbu : Buckets.bucket (index (s.maxHistoSize * 2)) x (inRange ts) =
      Buckets.bucket (index s.maxHistoSize · / 2) x (inRange ts) :=
    bucket_congr fun u _ => index_double hsi
  show Summarises (halve (n := 250) HistoEntry.merge {} s.histoEntries)[x]
    (Buckets.bucket (index (s.maxHistoSize * 2)) x (inRange ts))
  rw [hbu, getElem_halve]
  by_cases hlow : x < 250
  · rw [dif_pos hlow]
    exact ((h.bucket (2 * x) (by show _ < 500; omega)).merge
        (h.bucket (2 * x + 1) (by show _ < 500; omega))).perm
      bucket_half_perm.symm
  · -- no time has an index from 250 on, once the indices are halved
    have hn : Buckets.bucket (index s.maxHistoSize · / 2) x (inRange ts) = [] := by
      refine List.eq_nil_iff_forall_not_mem.2 fun u hu => ?_
      obtain ⟨hu, hkey⟩ := mem_bucket.1 hu
      have := (index_lt_iff h.size_pos).2 (h.lt_size u hu)
      omega
    rw [dif_neg hlow, hn]
    exact .nil

/-- One doubling moves every time to where it belongs under the new size. -/
theorem Placed.rescale (h : Placed s ts) (hsi : s.maxHistoSize.toNat < 2 ^ 63) : Placed s.rescale ts where
  size := by
    obtain ⟨k, hk⟩ := h.size
    exact ⟨k + 1, by rw [toNat_rescale hsi, hk, pow_succ, mul_assoc]⟩
  lt_size u hu := by
    have := UInt64.lt_iff_toNat_lt.1 (h.lt_size u hu)
    rw [UInt64.lt_iff_toNat_lt, toNat_rescale hsi]
    omega
  bucket := h.bucket_rescale hsi
  big := by
    rw [rescale_bigBucket]
    exact h.big

/-- The loop ends, with a size that the time does not exceed and that is not larger than needed. -/
theorem Placed.grow (h : Placed s ts) (ht : t ≤ BIGBUCKETLIMIT) (fuel : Nat)
    (hf : t.toNat ≤ s.maxHistoSize.toNat * 2 ^ fuel) :
    ∃ s', s.grow t (fuel + 1) = .ok s' ∧ Placed s' ts ∧ t ≤ s'.maxHistoSize ∧
      (s'.maxHistoSize = s.maxHistoSize ∨ s'.maxHistoSize.toNat < 2 * t.toNat) ∧
      s'.times = s.times ∧ s'.meanTime = s.meanTime := by
  induction fuel generalizing s with
  | zero =>
    have hle : t ≤ s.maxHistoSize := UInt64.le_iff_toNat_le.2 (by simpa using hf)
    refine ⟨s, ?_, h, hle, .inl rfl, rfl, rfl⟩
    rw [grow, if_neg (by simpa using hle)]
  | succ fuel ih =>
    rw [grow]
    by_cases hlt : s.maxHistoSize < t
    · have htN := toNat_le_limit.1 ht
      have hltN := UInt64.lt_iff_toNat_lt.1 hlt
      have hsi : s.maxHistoSize.toNat < 2 ^ 63 := by omega
      have hd := toNat_rescale hsi
      obtain ⟨s', hg, hpl, hle, hlea, hti, hm⟩ := ih (h.rescale hsi) (by rw [hd, mul_assoc, ← pow_succ']; exact hf)
      rw [rescale_times] at hti
      rw [rescale_meanTime] at hm
      rw [if_pos hlt]
      refine ⟨s', hg, hpl, hle, .inr ?_, hti, hm⟩
      rcases hlea with hlea | hlea
      · rw [hlea, hd]
        omega
      · exact hlea
    · rw [if_neg hlt]
      exact ⟨s, rfl, h, UInt64.not_lt.1 hlt, .inl rfl, rfl, rfl⟩

/-- The index computation does not overflow. -/
theorem toNat_index {size : UInt64} (ht : t ≤ BIGBUCKETLIMIT) : (500 * t / size).toNat = index size t := by
  have htN := toNat_le_limit.1 ht
  have h500 : (500 : UInt64).toNat = 500 := by decide
  rw [UInt64.toNat_div, UInt64.toNat_mul, index, h500, Nat.mod_eq_of_lt (by omega)]

/-- A time below the size goes into its bucket. -/
theorem Placed.record (h : Placed s ts) (ht : t ≤ BIGBUCKETLIMIT) (hlt : t < s.maxHistoSize) :
    ∃ s', s.record t = .ok s' ∧ Placed s' (ts ++ [t]) ∧ s'.maxHistoSize = s.maxHistoSize ∧
      s'.times = s.times ∧ s'.meanTime = s.meanTime := by
  have hin : (500 * t / s.maxHistoSize).toNat < NUMBEROFHISTOENTRIES := by
    rw [toNat_index ht]
    exact (index_lt_iff h.size_pos).2 hlt
  have hzero : s.maxHistoSize ≠ 0 := fun h0 => by simpa [h0] using h.size_pos
  have hra : inRange (ts ++ [t]) = inRange ts ++ [t] := by simp [inRange, ht]
  rw [Histo.record, if_neg hzero, dif_pos hin]
  refine ⟨_, rfl, ⟨h.size, ?_, ?_, ?_⟩, rfl, rfl, rfl⟩
  · intro u hu
    rw [hra, List.mem_append, List.mem_singleton] at hu
    rcases hu with hu | rfl
    · exact h.lt_size u hu
    · exact hlt
  · intro x hx
    rw [Vector.getElem_set, hra, bucket_append]
    by_cases heq : (500 * t / s.maxHistoSize).toNat = x
    · subst heq
      rw [if_pos rfl]
      have hone : Buckets.bucket (index s.maxHistoSize) (500 * t / s.maxHistoSize).toNat [t] = [t] := by
        simp [Buckets.bucket, toNat_index ht]
      rw [hone]
      exact (h.bucket _ hx).addEntry
    · have hone : Buckets.bucket (index s.maxHistoSize) x [t] = [] := by
        rw [toNat_index ht] at heq
        simp [Buckets.bucket, heq]
      rw [if_neg heq, hone, List.append_nil]
      exact h.bucket x hx
  · have hbig : ¬ BIGBUCKETLIMIT < t := UInt64.not_lt.2 ht
    simpa [List.filter_append, hbig] using h.big

/-- A time that is the size itself is written past the end. -/
theorem Placed.record_edge (h : Placed s ts) (ht : t ≤ BIGBUCKETLIMIT) (heq : t = s.maxHistoSize) :
    s.record t = .error (.outOfBounds (500 * t / s.maxHistoSize)) := by
  have hin : ¬ (500 * t / s.maxHistoSize).toNat < NUMBEROFHISTOENTRIES := by
    rw [toNat_index ht, index_lt_iff h.size_pos, heq]
    exact UInt64.lt_irrefl _
  have hzero : s.maxHistoSize ≠ 0 := fun h0 => by simpa [h0] using h.size_pos
  rw [Histo.record, if_neg hzero, dif_neg hin]

end

/-! ## Which times are written past the end -/

/-- The time `t`, after the times `before`, is where the doubled size comes to stand: it is one of
100000, 200000, 400000, ..., and no time in range before it is larger. -/
def OnEdge (before : List UInt64) (t : UInt64) : Prop :=
  t ≤ BIGBUCKETLIMIT ∧ (∃ k, t.toNat = 100000 * 2 ^ k) ∧ ∀ u ∈ before, u ≤ BIGBUCKETLIMIT → u ≤ t

section

variable {s s' : Histo} {ts : List UInt64} {t : UInt64}

/-- Two sizes are equal when neither is twice the other or more. -/
theorem size_eq_of_lt {j k : Nat} (hle : 100000 * 2 ^ j ≤ 100000 * 2 ^ k)
    (hlt : 100000 * 2 ^ k < 2 * (100000 * 2 ^ j)) : 100000 * 2 ^ j = 100000 * 2 ^ k := by
  have hjk : j ≤ k := (Nat.pow_le_pow_iff_right (by decide : 1 < 2)).1 (by omega)
  have hkj : k < j + 1 := (Nat.pow_lt_pow_iff_right (by decide : 1 < 2)).1 (by rw [pow_succ]; omega)
  rw [show j = k by omega]

/-- The size that the loop stops at is the time itself exactly for a time on the edge. -/
theorem Inv.edge_iff (h : Inv s ts) (ht : t ≤ BIGBUCKETLIMIT) (hpl : Placed s' ts) (hle : t ≤ s'.maxHistoSize)
    (hlea : s'.maxHistoSize = s.maxHistoSize ∨ s'.maxHistoSize.toNat < 2 * t.toNat) :
    t = s'.maxHistoSize ↔ OnEdge ts t := by
  obtain ⟨k, hk⟩ := hpl.size
  constructor
  · intro heq
    refine ⟨ht, ⟨k, heq ▸ hk⟩, fun u hu hli => ?_⟩
    rw [heq]
    exact UInt64.le_of_lt (hpl.lt_size u (mem_inRange.2 ⟨hu, hli⟩))
  · rintro ⟨-, ⟨j, hj⟩, hall⟩
    -- the size is less than twice the time, whether the loop has run or not
    have hlt : s'.maxHistoSize.toNat < 2 * t.toNat := by
      rcases hlea with hsa | hlt
      · rcases h.least with hf | ⟨u, hu, hlt⟩
        · have hpos := Nat.two_pow_pos j
          rw [hsa, hf, hj]
          show 100000 < _
          omega
        · obtain ⟨hu, hli⟩ := mem_inRange.1 hu
          have := UInt64.le_iff_toNat_le.1 (hall u hu hli)
          rw [hsa]
          omega
      · exact hlt
    have hleN := UInt64.le_iff_toNat_le.1 hle
    rw [hj, hk] at hleN
    rw [hj, hk] at hlt
    exact UInt64.toNat_inj.1 (by rw [hj, hk, size_eq_of_lt hleN hlt])

theorem Placed.count (h : Placed s ts) : Placed (s.count t) ts :=
  ⟨h.size, h.lt_size, h.bucket, h.big⟩

/-- The loop of one call, with its fuel. -/
theorem Inv.grow (h : Inv s ts) (ht : t ≤ BIGBUCKETLIMIT) :
    ∃ s', (s.count t).grow t 65 = .ok s' ∧ Placed s' ts ∧ t ≤ s'.maxHistoSize ∧
      (s'.maxHistoSize = s.maxHistoSize ∨ s'.maxHistoSize.toNat < 2 * t.toNat) ∧
      s'.times = s.times + 1 ∧ s'.meanTime = s.meanTime + t := by
  refine h.toPlaced.count.grow ht 64 ?_
  calc t.toNat ≤ 1 * 2 ^ 64 := by have := t.toNat_lt; omega
    _ ≤ s.maxHistoSize.toNat * 2 ^ 64 := Nat.mul_le_mul_right _ h.size_pos

/-- A call with a time on the edge. -/
theorem Inv.addToHisto_edge (h : Inv s ts) (hedg : OnEdge ts t) :
    ∃ index, s.addToHisto t = .error (.outOfBounds index) := by
  have ht := hedg.1
  obtain ⟨s', hg, hpl, hle, hlea, -⟩ := h.grow ht
  have heq := (h.edge_iff ht hpl hle hlea).2 hedg
  refine ⟨500 * t / s'.maxHistoSize, ?_⟩
  rw [Histo.addToHisto, if_neg (UInt64.not_lt.2 ht), hg]
  exact hpl.record_edge ht heq

/-- A call with any other time. -/
theorem Inv.addToHisto (h : Inv s ts) (hedg : ¬ OnEdge ts t) : ∃ s', s.addToHisto t = .ok s' ∧ Inv s' (ts ++ [t]) := by
  by_cases ht : t ≤ BIGBUCKETLIMIT
  · obtain ⟨s', hg, hpl, hle, hlea, hti, hm⟩ := h.grow ht
    have hne := mt (h.edge_iff ht hpl hle hlea).1 hedg
    obtain ⟨s'', hre, hp', hsi, ht', hm'⟩ := hpl.record ht (UInt64.lt_of_le_of_ne hle hne)
    refine ⟨s'', ?_, { hp' with least := ?_, times := ?_, meanTime := ?_ }⟩
    · rw [Histo.addToHisto, if_neg (UInt64.not_lt.2 ht), hg]
      exact hre
    · rw [hsi]
      rcases hlea with hsa | hlt
      · rw [hsa]
        refine h.least.imp_right ?_
        rintro ⟨u, hu, hlt⟩
        refine ⟨u, ?_, hlt⟩
        rw [mem_inRange] at hu ⊢
        exact ⟨List.mem_append_left _ hu.1, hu.2⟩
      · exact .inr ⟨t, mem_inRange.2 ⟨by simp, ht⟩, hlt⟩
    · simp [ht', hti, h.times]
    · simp [hm', hm, h.meanTime]
  · have hgt : t > BIGBUCKETLIMIT := UInt64.not_le.1 ht
    have hra : inRange (ts ++ [t]) = inRange ts := by simp [inRange, ht]
    refine ⟨_, by rw [Histo.addToHisto, if_pos hgt], ?_⟩
    refine ⟨⟨h.size, hra ▸ h.lt_size, hra ▸ h.bucket, ?_⟩, hra ▸ h.least, ?_, ?_⟩
    · simpa [count, List.filter_append, hgt] using h.big.addEntry (t := t)
    · simp [count, h.times]
    · simp [count, h.meanTime]

end

/-! ## Runs -/

theorem run_concat (ts : List UInt64) (t : UInt64) : run (ts ++ [t]) = run ts >>= fun s => s.addToHisto t := by
  simp [run, List.foldlM_append]

theorem inv_of_run (h : run ts = .ok s) : Inv s ts := by
  induction ts using List.reverseRecOn generalizing s with
  | nil =>
    cases h
    exact inv_init
  | append_singleton ts t ih =>
    rw [run_concat] at h
    obtain ⟨s₁, hrun, hca⟩ := bind_eq_ok.1 h
    have hinv := ih hrun
    by_cases hedg : OnEdge ts t
    · obtain ⟨index, herr⟩ := hinv.addToHisto_edge hedg
      cases hca.symm.trans herr
    · obtain ⟨s', hok, hinv'⟩ := hinv.addToHisto hedg
      cases hca.symm.trans hok
      exact hinv'

/-- A run goes through when no time is on the edge that the times before it make. -/
theorem exists_run_iff : (∃ s, run ts = .ok s) ↔ Each (fun before t => ¬ OnEdge before t) ts := by
  induction ts using List.reverseRecOn with
  | nil => exact ⟨fun _ => each_nil, fun _ => ⟨_, rfl⟩⟩
  | append_singleton ts t ih =>
    rw [each_concat, ← ih, run_concat]
    constructor
    · rintro ⟨s', h⟩
      obtain ⟨s, hrun, hca⟩ := bind_eq_ok.1 h
      refine ⟨⟨s, hrun⟩, fun hedg => ?_⟩
      obtain ⟨index, herr⟩ := (inv_of_run hrun).addToHisto_edge hedg
      cases hca.symm.trans herr
    · rintro ⟨⟨s, hrun⟩, hedg⟩
      obtain ⟨s', hca, -⟩ := (inv_of_run hrun).addToHisto hedg
      exact ⟨s', bind_eq_ok.2 ⟨s, hrun, hca⟩⟩

/-- What the histogram is for: the totals are those of the buckets, and every bucket counts exactly
the times that belong to it under the present size. -/
structure Accounted (s : Histo) (ts : List UInt64) : Prop where
  numbers : ∑ x : Fin NUMBEROFHISTOENTRIES, s.histoEntries[x].number + s.bigBucket.number = s.times
  means : ∑ x : Fin NUMBEROFHISTOENTRIES, s.histoEntries[x].mean + s.bigBucket.mean = s.meanTime
  /-- The index, as the code computes it, is the quotient and is one of the array's. -/
  index_lt : ∀ t ∈ ts, t ≤ BIGBUCKETLIMIT → (500 * t / s.maxHistoSize).toNat = 500 * t.toNat / s.maxHistoSize.toNat ∧
      500 * t.toNat / s.maxHistoSize.toNat < NUMBEROFHISTOENTRIES
  bucket : ∀ x (h : x < NUMBEROFHISTOENTRIES), Summarises s.histoEntries[x]
    (ts.filter fun t => t ≤ BIGBUCKETLIMIT ∧ 500 * t.toNat / s.maxHistoSize.toNat = x)
  big : Summarises s.bigBucket (ts.filter fun t => BIGBUCKETLIMIT < t)

theorem sum_ones (l : List UInt64) : (l.map fun _ => (1 : UInt64)).sum = UInt64.ofNat l.length := by
  induction l with
  | nil => rfl
  | cons t l ih =>
    rw [List.map_cons, List.sum_cons, ih, List.length_cons, UInt64.ofNat_add, add_comm]
    rfl

/-- A sum over the times in range and one over the others is a sum over all. -/
theorem sum_split (f : UInt64 → UInt64) (ts : List UInt64) :
    ((inRange ts).map f).sum + ((ts.filter fun t => BIGBUCKETLIMIT < t).map f).sum = (ts.map f).sum := by
  have hco : (ts.filter fun t => BIGBUCKETLIMIT < t) = ts.filter fun t => ! decide (t ≤ BIGBUCKETLIMIT) :=
    List.filter_congr fun t _ => by simp [← UInt64.not_lt]
  rw [hco, ← List.sum_append, ← List.map_append]
  exact ((List.filter_append_perm _ ts).map f).sum_eq

theorem Inv.accounted (h : Inv s ts) : Accounted s ts where
  numbers := by
    have hbu : ∀ x : Fin NUMBEROFHISTOENTRIES, s.histoEntries[x].number =
        ((Buckets.bucket (index s.maxHistoSize) x (inRange ts)).map fun _ => (1 : UInt64)).sum :=
      fun x => ((h.bucket x x.isLt).number).trans (sum_ones _).symm
    rw [Finset.sum_congr rfl fun x _ => hbu x, h.big.number, h.times, ← sum_ones, ← sum_ones, sum_bucket, sum_split]
    exact fun t ht => (index_lt_iff h.size_pos).2 (h.lt_size t ht)
  means := by
    have hbu : ∀ x : Fin NUMBEROFHISTOENTRIES, s.histoEntries[x].mean =
        ((Buckets.bucket (index s.maxHistoSize) x (inRange ts)).map id).sum :=
      fun x => by rw [List.map_id]; exact (h.bucket x x.isLt).mean
    rw [Finset.sum_congr rfl fun x _ => hbu x, h.big.mean, h.meanTime, sum_bucket]
    · simpa using sum_split id ts
    · exact fun t ht => (index_lt_iff h.size_pos).2 (h.lt_size t ht)
  index_lt t ht hli :=
    ⟨toNat_index hli, (index_lt_iff h.size_pos).2 (h.lt_size t (mem_inRange.2 ⟨ht, hli⟩))⟩
  bucket x hx := by
    have hf : (ts.filter fun t =>
        t ≤ BIGBUCKETLIMIT ∧ 500 * t.toNat / s.maxHistoSize.toNat = x) =
        Buckets.bucket (index s.maxHistoSize) x (inRange ts) := by
      rw [Buckets.bucket, inRange, List.filter_filter]
      exact List.filter_congr fun t _ => (Bool.decide_and ..).trans (Bool.and_comm ..)
    rw [hf]
    exact h.bucket x hx
  big := h.big

/-- **When the delays are accounted for.**  All the calls for `ts` stay inside the array, and leave
every time accounted for, exactly when none of the times is on the edge that those before it make. -/
theorem accounted_iff (ts : List UInt64) :
    (∃ s, run ts = .ok s ∧ Accounted s ts) ↔ Each (fun before t => ¬ OnEdge before t) ts := by
  rw [← exists_run_iff]
  constructor
  · rintro ⟨s, hrun, -⟩
    exact ⟨s, hrun⟩
  · rintro ⟨s, hrun⟩
    exact ⟨s, hrun, (inv_of_run hrun).accounted⟩

/-- The first delay is 100000: the index is 500. -/
theorem not_accounted_first : run [100000] = .error (.outOfBounds 500) ∧
      ¬ ∀ ts, ∃ s, run ts = .ok s ∧ Accounted s ts := by
  have hrun : run [100000] = .error (.outOfBounds 500) := rfl
  refine ⟨hrun, fun h => ?_⟩
  obtain ⟨s, hok, -⟩ := h [100000]
  cases hok.symm.trans hrun

end GuardianCouncil.Histogram
