import Mathlib.Data.Nat.Bitwise
import GuardianCouncil.AddrRange.Range

/-!
# Interleaved ranges

The match value is a byte, so the ranges of a chunk are told apart up to eight interleaving bits only.
`intersects` and `isSubset` look at an interleaved argument through its bounds.
-/

namespace GuardianCouncil.AddrRanges.AddrRange

open List

/-- `AddrRange(_start, _end)`. -/
def ofBounds (start stop : Addr) : AddrRange := { ofAddr start with stop := stop }

/-- What `fatal` and `fatal_if` of the constructor let through. -/
def Accepted (high xorHigh nbits m : ℕ) : Prop :=
  (nbits ≠ 0 → m < 2 ^ nbits) ∧ (nbits ≠ 0 → xorHigh ≠ 0 → nbits ≤ Nat.dist high xorHigh)
deriving Decidable

/-- `AddrRange(_start, _end, _intlv_high_bit, _xor_high_bit, _intlv_bits, _intlv_match)` of bytes; `none` is
a fatal error. -/
def ofBytes (start stop : Addr) (high xorHigh nbits m : ℕ) : Option AddrRange :=
  if h : Accepted high xorHigh nbits m then some ⟨start, stop, high, xorHigh, nbits, m, h.1, h.2⟩ else none

/-- The constructor; its parameters are `uint8_t`. -/
def make (start stop : Addr) (high xorHigh nbits m : ℕ) : Option AddrRange :=
  ofBytes start stop (high % 256) (xorHigh % 256) (nbits % 256) (m % 256)

/-- The loop over the ranges to be merged, with its `uint8_t match`. -/
def mergeLoop (first : AddrRange) : List AddrRange → ℕ → Bool
  | [], _ => true
  | r :: ranges, m => first.mergesWith r && r.intlvMatch == m && mergeLoop first ranges ((m + 1) % 256)

/-- `AddrRange(ranges)`. -/
def merge : List AddrRange → Option AddrRange
  | [] => some (ofBounds 1 0)
  | first :: ranges =>
    if (first :: ranges).length = 2 ^ first.intlvBits ∧ mergeLoop first (first :: ranges) 0 = true then
      some (ofBounds first.start first.stop)
    else none

/-- `isSubset`; `none` is a panic. -/
def isSubset (r r' : AddrRange) : Option Bool :=
  if r.interleaved then none else some (r'.start ≤ r.start && r.stop ≤ r'.stop)

/-! ## Chunks -/

variable {start stop : Addr} {high xorHigh nbits m : ℕ} {r r' : AddrRange} {a : Addr}

theorem contains_iff : r.contains a = true ↔
    r.Spans a ∧ (r.interleaved = true → r.selected a = BitVec.ofNat 64 r.intlvMatch) := by
  rw [contains, Spans]
  cases r.interleaved <;> simp

theorem contains_ofBounds : (ofBounds start stop).contains a = true ↔ start ≤ a ∧ a ≤ stop := by
  rw [contains_iff]
  exact and_iff_left fun h => absurd h Bool.false_ne_true

/-- The slices that are compared lie inside the address, and the constructor accepts where they are. -/
structure Slices (high xorHigh nbits : ℕ) : Prop where
  pos : 1 ≤ nbits
  high_lt : high < 64
  bits_le : nbits ≤ high + 1
  xor_lt : xorHigh < 64
  bits_le_xor : xorHigh ≠ 0 → nbits ≤ xorHigh + 1
  apart : xorHigh ≠ 0 → nbits ≤ Nat.dist high xorHigh

theorem make_eq_some (start stop : Addr) (hs : Slices high xorHigh nbits) (hm : m < 2 ^ nbits) :
    ∃ hlt hle, make start stop high xorHigh nbits m = some ⟨start, stop, high, xorHigh, nbits, m % 256, hlt, hle⟩ := by
  have := hs.high_lt
  have := hs.bits_le
  have := hs.xor_lt
  have hacc : Accepted high xorHigh nbits (m % 256) := ⟨fun _ => (Nat.mod_le _ _).trans_lt hm, fun _ => hs.apart⟩
  rw [make, Nat.mod_eq_of_lt (by omega : high < 256), Nat.mod_eq_of_lt (by omega : xorHigh < 256),
    Nat.mod_eq_of_lt (by omega : nbits < 256), ofBytes, dif_pos hacc]
  exact ⟨_, _, rfl⟩

theorem toNat_bits_lt (hbi : nbits ≤ high + 1) (hle : nbits ≤ 8) :
    (bits a high (high + 1 - nbits)).toNat < 2 ^ nbits := by
  have hm : ∀ n ≤ 8, (mask n).toNat < 2 ^ n := by decide
  rw [bits, Nat.sub_sub_self hbi, BitVec.toNat_and]
  exact Nat.and_le_right.trans_lt (hm _ hle)

/-- The members of a chunk compare one value, which fits in the bits, with the low byte of their index. -/
theorem exists_selected (start stop : Addr) (hs : Slices high xorHigh nbits) (a : Addr) :
    ∃ v, (nbits ≤ 8 → v < 2 ^ nbits) ∧ ∀ m < 2 ^ nbits, ∀ r, make start stop high xorHigh nbits m = some r →
      (r.contains a = true ↔ (start ≤ a ∧ a ≤ stop) ∧ v = m % 256) := by
  have hin : (nbits != 0) = true := bne_iff_ne.2 (Nat.one_le_iff_ne_zero.1 hs.pos)
  let slice := bits a high (high + 1 - nbits)
  refine ⟨(if (nbits != 0) && xorHigh != 0 then slice ^^^ bits a xorHigh (xorHigh + 1 - nbits) else slice).toNat,
    fun hle => ?_, fun m hm r hr => ?_⟩
  · split_ifs with hx
    · rw [BitVec.toNat_xor]
      exact Nat.xor_lt_two_pow (toNat_bits_lt hs.bits_le hle)
        (toNat_bits_lt (hs.bits_le_xor (bne_iff_ne.1 (Bool.and_eq_true_iff.1 hx).2)) hle)
    · exact toNat_bits_lt hs.bits_le hle
  · obtain ⟨_, _, heq⟩ := make_eq_some start stop hs hm
    cases heq.symm.trans hr
    have hlt : m % 256 < 2 ^ 64 := (Nat.mod_lt m (by decide)).trans (by decide)
    rw [contains_iff]
    refine and_congr_right fun _ => (forall_prop_of_true hin).trans ?_
    rw [BitVec.toNat_eq, BitVec.toNat_ofNat, Nat.mod_eq_of_lt hlt]
    rfl

theorem mergeLoop_map {first : AddrRange} {f : ℕ → AddrRange} (n s : ℕ)
    (h : ∀ m, m < s + n → first.mergesWith (f m) = true ∧ (f m).intlvMatch = m % 256) :
    mergeLoop first ((range' s n).map f) (s % 256) = true := by
  induction n generalizing s with
  | zero => rfl
  | succ n ih =>
    obtain ⟨hme, hma⟩ := h s (by omega)
    rw [range'_succ, map_cons, mergeLoop, hme, hma, beq_self_eq_true, Bool.true_and, Bool.true_and,
      Nat.mod_add_mod]
    exact ih _ fun m hm => h m (by omega)

/-- The ranges with the match values `0` to `2 ^ nbits - 1` divide the addresses of the interval among
themselves, and the range merged from them contains these. -/
def Partitions (start stop : Addr) (high xorHigh nbits : ℕ) : Prop :=
  ∃ chunk : ℕ → AddrRange, (∀ m < 2 ^ nbits, make start stop high xorHigh nbits m = some (chunk m)) ∧
    (∀ a, start ≤ a ∧ a ≤ stop → ∃! m, m < 2 ^ nbits ∧ (chunk m).contains a = true) ∧
    (∀ a, ¬(start ≤ a ∧ a ≤ stop) → ∀ m < 2 ^ nbits, (chunk m).contains a = false) ∧
    ∃ whole, merge ((range (2 ^ nbits)).map chunk) = some whole ∧
      ∀ a, whole.contains a = true ↔ start ≤ a ∧ a ≤ stop

theorem partitions_of_le (hs : Slices high xorHigh nbits) (hle : nbits ≤ 8) :
    Partitions start stop high xorHigh nbits := by
  have hby : ∀ m < 2 ^ nbits, m % 256 = m := fun m hm =>
    Nat.mod_eq_of_lt (hm.trans_le (Nat.pow_le_pow_right (by decide) hle))
  choose hlt hd hma using fun m (hm : m < 2 ^ nbits) => make_eq_some start stop hs hm
  let chunk := fun m => (make start stop high xorHigh nbits m).getD (ofBounds 1 0)
  have hch : ∀ m (hm : m < 2 ^ nbits),
      chunk m = ⟨start, stop, high, xorHigh, nbits, m % 256, hlt m hm, hd m hm⟩ := fun m hm => by
    show (make start stop high xorHigh nbits m).getD _ = _
    rw [hma m hm, Option.getD_some]
  have hso : ∀ m < 2 ^ nbits, make start stop high xorHigh nbits m = some (chunk m) := fun m hm => by
    rw [hch m hm, hma m hm]
  refine ⟨chunk, hso, fun a ha => ?_, fun a ha m hm => ?_, ofBounds start stop, ?_, fun a => contains_ofBounds⟩
  · obtain ⟨v, hv, hco⟩ := exists_selected start stop hs a
    refine ⟨v, ⟨hv hle, (hco v (hv hle) _ (hso v (hv hle))).2 ⟨ha, (hby v (hv hle)).symm⟩⟩, ?_⟩
    rintro m ⟨hm, hin⟩
    rw [((hco m hm _ (hso m hm)).1 hin).2, hby m hm]
  · obtain ⟨v, -, hco⟩ := exists_selected start stop hs a
    exact Bool.eq_false_iff.2 fun hin => ha ((hco m hm _ (hso m hm)).1 hin).1
  · have hpos : 0 < 2 ^ nbits := Nat.two_pow_pos nbits
    have hlo := @mergeLoop_map (chunk 0) chunk (2 ^ nbits) 0 fun m hm => by
      rw [zero_add] at hm
      rw [hch m hm, hch 0 hpos, mergesWith_iff]
      exact ⟨⟨rfl, rfl, rfl, rfl, rfl⟩, rfl⟩
    obtain ⟨n, hn⟩ := Nat.exists_eq_succ_of_ne_zero hpos.ne'
    have hli : (range (2 ^ nbits)).map chunk = chunk 0 :: (range' 1 n).map chunk := by
      rw [range_eq_range', hn, range'_succ, map_cons]
    rw [← range_eq_range', hli] at hlo
    have hlen : (chunk 0 :: (range' 1 n).map chunk).length = 2 ^ (chunk 0).intlvBits := by
      rw [length_cons, length_map, length_range', hch 0 hpos, hn]
    rw [hli, merge, if_pos ⟨hlen, hlo⟩, hch 0 hpos]

/-- The chunk is divided up exactly if the match values fit in a byte. -/
theorem partitions_iff (hstart : start ≤ stop) (hs : Slices high xorHigh nbits) :
    Partitions start stop high xorHigh nbits ↔ nbits ≤ 8 := by
  refine ⟨?_, partitions_of_le hs⟩
  rintro ⟨chunk, hso, hun, -, -⟩
  by_contra hlo
  have hpow : 512 ≤ 2 ^ nbits := Nat.pow_le_pow_right (n := 2) (by decide) (by omega : 9 ≤ nbits)
  obtain ⟨v, -, hco⟩ := exists_selected start stop hs start
  have hin : start ≤ start ∧ start ≤ stop := ⟨BitVec.le_refl start, hstart⟩
  obtain ⟨m, ⟨hm, hmem⟩, huni⟩ := hun start hin
  have hv := ((hco m hm _ (hso m hm)).1 hmem).2
  -- The low byte of `m` and the value 256 above it are different indices of the same range.
  have ho : ∀ i < 512, i % 256 = v → i = m := fun i hi h =>
    huni i ⟨by omega, (hco i (by omega) _ (hso i (by omega))).2 ⟨hin, h.symm⟩⟩
  have h1 := ho v (by omega) (by omega)
  have h2 := ho (v + 256) (by omega) (by omega)
  omega

theorem partitions_hashed : (0x1000#64 ≤ 0x1fff#64 ∧ Slices 7 20 2) ∧ Partitions 0x1000 0x1fff 7 20 2 := by
  have hs : Slices 7 20 2 := ⟨by decide, by decide, by decide, by decide, by decide, by decide⟩
  exact ⟨⟨by decide, hs⟩, (partitions_iff (by decide) hs).2 (by decide)⟩

/-- With nine bits no range contains the addresses that select 256. -/
theorem not_partitions_nine : ¬Partitions 0 0x1ff 8 0 9 := by
  rintro ⟨chunk, hso, hun, -, -⟩
  have hn : ∀ m < 512, (make 0 0x1ff 8 0 9 m).map (·.contains 256) = some false := by decide +kernel
  obtain ⟨m, ⟨hm, hin⟩, -⟩ := hun 256 (by decide)
  have hout := hn m hm
  rw [hso m hm, Option.map_some, hin] at hout
  exact absurd (Option.some.inj hout) (by decide)

/-! ## The range predicates -/

/-- `valid()`, for a range whose match value is a byte. -/
def Valid (r : AddrRange) : Prop := r.start ≤ r.stop ∧ r.intlvMatch < 256

end GuardianCouncil.AddrRanges.AddrRange
