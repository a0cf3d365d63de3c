import Mathlib.Data.List.Induction
import GuardianCouncil.Lib.Stepwise

/-!
# The sanitizer's shadow memory

The sanitizer keeps one byte of `shadow` for every 128 bytes of the program's memory, meant to hold one
bit for each 16-byte granule.  `unpoison` clears the bits of a block that the allocator hands out,
`poison` sets those of the 16 bytes behind it and those of a chunk that is freed, and the checker
reports an access whose bit is set.

The target is a 32-bit one: `long` and pointers have 32 bits, and `char` is unsigned.  Memory is flat, so
that a write through a shadow pointer outside `shadow` is a write like any other.

Both functions take a misalignment from the shadow *pointer* and mask it with 8, which leaves 0 or 8.
With 8 their masks are full bytes, and with 0 they are not used: `sweep_apply` says that they write
whole bytes only.  The checker shifts its bit by 0 or 8 as well, and a byte has no bit 8: it tests one
bit for a whole line of 128 bytes, and only in every other run of eight lines (`reported_iff`).  As
long as freed chunks and later blocks have whole lines, a run of calls is sound exactly if no red zone
gets anything reported (`sound_iff_quiet`).
-/

namespace GuardianCouncil.Sanitizer

open List Function

abbrev Addr := BitVec 32

abbrev Memory := Addr → BitVec 8

/-! ## The source -/

/-- `&shadow[((long)p) >> 7]`, where `shadow` starts at `base`.  A `long` is signed. -/
def shadowPtr (base p : Addr) : Addr := base + p.sshiftRight 7

/-- `for (; p < end; p++) *p = v`, which makes `end - p` rounds. -/
def fill (v : BitVec 8) : Nat → Addr → Memory → Memory
  | 0, _, mem => mem
  | n + 1, p, mem => fill v n (p + 1) (update mem p v)

/-- `if (misalign) *p |= mask`, or `*p &= ~mask`, where the misalignment is `p & 8`. -/
def patch (mix : BitVec 8 → BitVec 8 → BitVec 8) (p : Addr) (mask : BitVec 32) (mem : Memory) : Memory :=
  if p &&& 8 ≠ 0 then update mem p (mix (mem p) (mask.setWidth 8)) else mem

/-- The text that `poison` and `unpoison` share: they differ in how a mask is applied to a byte, and in the
value of a whole byte.  What they subtract from `bytes` on the way is not used. -/
def sweep (mix : BitVec 8 → BitVec 8 → BitVec 8) (v : BitVec 8) (base start bytes : Addr) (mem : Memory) : Memory :=
  let startS := shadowPtr base start
  let endS := shadowPtr base (start + bytes)
  let misalignEnd := endS &&& 8
  let misalign := startS &&& 8
  let first := if misalign ≠ 0 then startS + 1 else startS
  fill v (endS.toNat - first.toNat) first
    (patch mix startS (((255 : BitVec 32) <<< 8).sshiftRight misalign.toNat)
      (patch mix endS (((255 : BitVec 32) <<< misalignEnd).sshiftRight 8) mem))

def poison : Addr → Addr → Addr → Memory → Memory := sweep (fun byte mask => byte ||| mask) (-1)

def unpoison : Addr → Addr → Addr → Memory → Memory := sweep (fun byte mask => byte &&& ~~~mask) 0

/-- What `checker_main` decides about an address. -/
def reported (base : Addr) (mem : Memory) (address : Addr) : Bool :=
  let bits := mem (base + address >>> 7)
  if bits = 0 then false
  else bits.setWidth 32 &&& ((1 : BitVec 32) <<< ((address >>> 7) &&& 8)) ≠ 0

/-- A block that the program holds, with or without a red zone behind it. -/
structure Block where
  start : Addr
  size : Addr
  redZone : Bool
deriving DecidableEq

/-- A call, with what the underlying allocator returned for it, and the chunks that it freed before
that: `rEALLOc` frees the old block or what is left of it, and `sYSMALLOc` an old top. -/
inductive Call where
  | malloc (freed : List (Addr × Addr)) (m bytes : Addr)
  | realloc (freed : List (Addr × Addr)) (old m bytes : Addr)
  | calloc (freed : List (Addr × Addr)) (m n elemSize : Addr)
deriving DecidableEq

def Call.freed : Call → List (Addr × Addr)
  | .malloc freed .. | .realloc freed .. | .calloc freed .. => freed

structure State where
  mem : Memory
  live : List Block

/-- The block that a call hands to the program. -/
def Call.block : Call → Block
  | .malloc _ m bytes => ⟨m, bytes, true⟩
  | .realloc _ _ m bytes => ⟨m, bytes, true⟩
  | .calloc _ m n elemSize => ⟨m, n * elemSize, false⟩

/-- What `fREe` does to the shadow memory, for some chunks in turn. -/
def free (base : Addr) (chunks : List (Addr × Addr)) (mem : Memory) : Memory :=
  chunks.foldl (fun mem chunk => poison base chunk.1 chunk.2 mem) mem

/-- `public_mALLOc`, `public_rEALLOc` and `public_cALLOc`. -/
def step (base : Addr) (s : State) : Call → State
  | .malloc freed m bytes =>
    { mem := poison base (m + bytes) 16 (unpoison base m bytes (free base freed s.mem))
      live := ⟨m, bytes, true⟩ :: s.live }
  | .realloc freed old m bytes =>
    { mem := poison base (m + bytes) 16 (unpoison base m bytes (free base freed s.mem))
      live := ⟨m, bytes, true⟩ :: s.live.filter fun b => b.start != old }
  | .calloc freed m n elemSize =>
    { mem := unpoison base m (n * elemSize) (free base freed s.mem)
      live := ⟨m, n * elemSize, false⟩ :: s.live }

def run (base : Addr) (s : State) (calls : List Call) : State := calls.foldl (step base) s

@[simp] theorem run_concat (base : Addr) (s : State) (calls : List Call) (c : Call) :
    run base s (calls ++ [c]) = step base (run base s calls) c := by
  rw [run, foldl_append, foldl_cons, foldl_nil, run]

/-! ## What is asked of it -/

namespace Block

variable (b : Block)

/-- The first address behind the block and its red zone. -/
def limit : Nat := b.start.toNat + b.size.toNat + if b.redZone then 16 else 0

/-- The address is inside the block. -/
def Holds (a : Addr) : Prop :=
  b.start.toNat ≤ a.toNat ∧ a.toNat < b.start.toNat + b.size.toNat
deriving Decidable

/-- The granule of the address has a byte of the block or of its red zone. -/
def Granules (a : Addr) : Prop :=
  16 * (a.toNat / 16) < b.limit ∧ b.start.toNat < 16 * (a.toNat / 16) + 16
deriving Decidable

/-- The granule of the address is wholly inside the red zone. -/
def InRedZone (a : Addr) : Prop :=
  b.redZone ∧ b.start.toNat + b.size.toNat ≤ 16 * (a.toNat / 16) ∧ 16 * (a.toNat / 16) + 16 ≤ b.limit
deriving Decidable

/-- What the allocator is trusted with: blocks are aligned, and end below 4 GiB. -/
def Fits : Prop := b.start.toNat % 16 = 0 ∧ b.limit ≤ 4294967296
deriving Decidable

end Block

/-- A change of the memory leaves the verdict on all addresses outside the granules of a block alone. -/
def Framed (base : Addr) (b : Block) (mem mem' : Memory) : Prop :=
  ∀ a, ¬ b.Granules a → reported base mem' a = reported base mem a

/-- What is asked of one call. -/
structure Sound (base : Addr) (s : State) (c : Call) : Prop where
  /-- No address inside a live block is reported. -/
  clean : ∀ b ∈ (step base s c).live, ∀ a, b.Holds a → reported base (step base s c).mem a = false
  /-- The granules inside a red zone are reported. -/
  guarded : ∀ b ∈ (step base s c).live, ∀ a, b.InRedZone a → reported base (step base s c).mem a = true
  free_framed : Stepwise.Each (fun before chunk => Framed base ⟨chunk.1, chunk.2, false⟩
    (free base before s.mem) (free base (before ++ [chunk]) s.mem)) c.freed
  unpoison_framed : Framed base c.block (free base c.freed s.mem)
    (unpoison base c.block.start c.block.size (free base c.freed s.mem))
  poison_framed : c.block.redZone → Framed base c.block
    (unpoison base c.block.start c.block.size (free base c.freed s.mem)) (step base s c).mem

/-! ## What the functions write -/

/-- The shadow bytes that `poison` and `unpoison` write. -/
def Written (base start bytes p : Addr) : Prop :=
  let startS := shadowPtr base start
  let endS := shadowPtr base (start + bytes)
  (p = endS ∧ endS &&& 8 ≠ 0) ∨ (p = startS ∧ startS &&& 8 ≠ 0) ∨
    (if startS &&& 8 ≠ 0 then startS + 1 else startS) ≤ p ∧ p < endS
deriving Decidable

theorem fill_apply (v : BitVec 8) (n : Nat) (p : Addr) (mem : Memory) (q : Addr) (hn : p.toNat + n ≤ 4294967296) :
    fill v n p mem q = if p.toNat ≤ q.toNat ∧ q.toNat < p.toNat + n then v else mem q := by
  induction n generalizing p mem with
  | zero =>
    rw [fill, if_neg (by omega)]
  | succ n ih =>
    rw [fill]
    rcases Nat.eq_zero_or_pos n with rfl | hpos
    · -- the last round may be at the last address, so there is no next pointer to speak of
      rw [fill, update_apply]
      exact if_congr (by bv_omega) rfl rfl
    · have hnext : (p + 1).toNat = p.toNat + 1 := by bv_omega
      rw [ih (p + 1) _ (by omega), hnext, update_apply]
      split_ifs <;> first | rfl | bv_omega

/-- A misalignment is 0 or 8. -/
theorem eq_eight_of_and_ne_zero {p : Addr} (h : p &&& 8 ≠ 0) : p &&& 8 = 8 := by
  have hand : p &&& 8 = if p.getLsbD 3 then 8 else 0 := BitVec.and_twoPow p 3
  grind

section

variable {mix : BitVec 8 → BitVec 8 → BitVec 8} {v : BitVec 8}

theorem patch_apply (hmix : ∀ byte, mix byte 255 = v) {p : Addr} {mask : BitVec 32}
    (hm : p &&& 8 = 8 → mask = 255) (mem : Memory) (q : Addr) :
    patch mix p mask mem q = if q = p ∧ p &&& 8 ≠ 0 then v else mem q := by
  unfold patch
  by_cases h : p &&& 8 = 0
  · rw [if_neg (not_not.2 h), if_neg (fun hq => hq.2 h)]
  · rw [hm (eq_eight_of_and_ne_zero h), if_pos h, update_apply]
    exact if_congr (and_iff_left h).symm (hmix _) rfl

/-- **Whole bytes are written.**  The masks at the two ends are full ones wherever they are used. -/
theorem sweep_apply (hmix : ∀ byte, mix byte 255 = v) (base start bytes : Addr) (mem : Memory) (q : Addr) :
    sweep mix v base start bytes mem q = if Written base start bytes q then v else mem q := by
  have hre : ∀ first endS : Addr, (first.toNat ≤ q.toNat ∧ q.toNat < first.toNat + (endS.toNat - first.toNat)) ↔
        first ≤ q ∧ q < endS := by
    intro first endS
    rw [BitVec.le_def, BitVec.lt_def]
    omega
  simp only [sweep, Written]
  rw [fill_apply v _ _ _ _ (by omega), patch_apply hmix (fun h => by rw [h]; rfl),
    patch_apply hmix (fun h => by rw [h]; rfl), if_congr (hre _ _) rfl rfl]
  grind

end

theorem poison_apply (base start bytes : Addr) (mem : Memory) (q : Addr) :
    poison base start bytes mem q = if Written base start bytes q then 255 else mem q :=
  sweep_apply (fun byte => by
    show byte ||| BitVec.allOnes 8 = BitVec.allOnes 8
    exact BitVec.or_allOnes) base start bytes mem q

theorem unpoison_apply (base start bytes : Addr) (mem : Memory) (q : Addr) :
    unpoison base start bytes mem q = if Written base start bytes q then 0 else mem q :=
  sweep_apply (fun byte => by
    show byte &&& 0 = 0
    exact BitVec.and_zero) base start bytes mem q

/-! ## What the checker tests -/

/-- The checker tests bit 0 of the byte, for the whole line, and in every other run of eight lines only. -/
theorem reported_iff (base : Addr) (mem : Memory) (a : Addr) :
    reported base mem a = true ↔ a >>> 7 &&& 8 = 0 ∧ mem (base + a >>> 7) &&& 1 ≠ 0 := by
  unfold reported
  generalize mem (base + a >>> 7) = byte
  by_cases h : a >>> 7 &&& 8 = 0
  · rw [h, eq_self, true_and]
    revert byte
    decide
  · rw [eq_eight_of_and_ne_zero h]
    revert byte
    decide

/-- The byte that the checker looks at for the address is written. -/
def Sweeps (base start bytes a : Addr) : Prop := a >>> 7 &&& 8 = 0 ∧ Written base start bytes (base + a >>> 7)

variable {mem : Memory} {b : Block} {base start bytes a : Addr} {chunks : List (Addr × Addr)}

theorem reported_poison : reported base (poison base start bytes mem) a = true ↔
    reported base mem a = true ∨ Sweeps base start bytes a := by
  rw [reported_iff, reported_iff, poison_apply, Sweeps, ← and_or_left]
  refine and_congr_right fun _ => ?_
  split
  · exact iff_of_true (by decide) (.inr ‹_›)
  · exact (or_iff_left ‹_›).symm

theorem reported_unpoison : reported base (unpoison base start bytes mem) a = true ↔
    reported base mem a = true ∧ ¬ Sweeps base start bytes a := by
  rw [reported_iff, reported_iff, unpoison_apply, Sweeps, and_assoc]
  refine and_congr_right fun hli => ?_
  split
  · exact iff_of_false (fun h => h rfl) fun h => h.2 ⟨hli, ‹_›⟩
  · exact (and_iff_left fun h => absurd h.2 ‹_›).symm

theorem reported_free : reported base (free base chunks mem) a = true ↔
    reported base mem a = true ∨ ∃ chunk ∈ chunks, Sweeps base chunk.1 chunk.2 a := by
  induction chunks generalizing mem with
  | nil => simp [free]
  | cons chunk chunks ih =>
    rw [free, foldl_cons, ← free, ih, reported_poison, or_assoc]
    simp only [mem_cons, exists_eq_or_imp]

/-- The addresses of a line have one byte. -/
theorem line (a : Addr) {k : Nat} (hk : k < 128) :
    let a' := BitVec.ofNat 32 (128 * (a.toNat / 128) + k)
    a' >>> 7 = a >>> 7 ∧ a'.toNat = 128 * (a.toNat / 128) + k := by
  have hlt := a.isLt
  have hval : (BitVec.ofNat 32 (128 * (a.toNat / 128) + k)).toNat = 128 * (a.toNat / 128) + k :=
    Nat.mod_eq_of_lt (by omega)
  refine ⟨?_, hval⟩
  rw [← BitVec.toNat_inj, BitVec.toNat_ushiftRight, BitVec.toNat_ushiftRight, hval, Nat.shiftRight_eq_div_pow,
    Nat.shiftRight_eq_div_pow]
  omega

/-! ## Quiet calls -/

/-- A call sets no bit behind its block that the checker tests, and leaves no whole granule in its red
zone. -/
def Quiet (base : Addr) (c : Call) : Prop :=
  c.block.redZone → c.block.size.toNat % 16 ≠ 0 ∧ ∀ a, ¬ Sweeps base (c.block.start + c.block.size) 16 a

/-- The bit for the address has been set when a chunk was freed. -/
def Freed (base : Addr) (calls : List Call) (a : Addr) : Prop :=
  ∃ c ∈ calls, ∃ chunk ∈ c.freed, Sweeps base chunk.1 chunk.2 a

/-- Chunks that are freed set the bits of whole lines of theirs, and blocks take such a line as a whole
or not at all. -/
structure Tidy (base : Addr) (s : State) (before : List Call) (c : Call) : Prop where
  frees : ∀ chunk ∈ c.freed, ∀ a, Sweeps base chunk.1 chunk.2 a → (Block.mk chunk.1 chunk.2 false).Granules a ∧
    ∀ b ∈ (step base s c).live, b.Holds a → b = c.block
  takes : ∀ a, Freed base (before ++ [c]) a → (c.block.Granules a ↔ Sweeps base c.block.start c.block.size a) ∧
    (c.block.redZone → ¬ Sweeps base (c.block.start + c.block.size) 16 a)

/-- What a run of quiet calls keeps. -/
structure Inv (base : Addr) (before : List Call) (s : State) : Prop where
  freed : ∀ a, reported base s.mem a = true → Freed base before a
  clean : ∀ b ∈ s.live, ∀ a, b.Holds a → ¬ reported base s.mem a = true
  /-- No red zone holds a whole granule. -/
  ragged : ∀ b ∈ s.live, ∀ a, ¬ b.InRedZone a

variable {s : State} {c : Call} {before : List Call}

theorem mem_step_live (h : b ∈ (step base s c).live) : b = c.block ∨ b ∈ s.live := by
  cases c <;> grind [step, Call.block]

theorem block_mem_live : c.block ∈ (step base s c).live := by
  cases c <;> simp [Call.block, step]

theorem step_mem (base : Addr) (s : State) (c : Call) :
    let mem := unpoison base c.block.start c.block.size (free base c.freed s.mem)
    (step base s c).mem =
      if c.block.redZone then poison base (c.block.start + c.block.size) 16 mem else mem := by
  cases c <;> rfl

theorem Block.granules_of_holds (h : b.Holds a) : b.Granules a := by
  rw [Holds] at h
  rw [Granules, limit]
  omega

/-- A red zone that starts inside a granule holds no whole one. -/
theorem Block.not_inRedZone (hf : b.Fits) (hsi : b.size.toNat % 16 ≠ 0) (a : Addr) : ¬ b.InRedZone a := by
  rintro ⟨hred, hlow, hhigh⟩
  obtain ⟨ha, -⟩ := hf
  rw [Block.limit, if_pos hred] at hhigh
  omega

section

variable (h : Inv base before s) (hf : c.block.Fits) (ht : Tidy base s before c)
include h

theorem Inv.freed_concat (hr : reported base (free base c.freed s.mem) a = true) : Freed base (before ++ [c]) a := by
  rcases reported_free.1 hr with hr | hr
  · obtain ⟨c', hc', hr⟩ := h.freed a hr
    exact ⟨c', mem_append_left _ hc', hr⟩
  · exact ⟨c, mem_append_right _ (mem_singleton_self c), hr⟩

include hf ht

theorem Inv.step (hq : Quiet base c) : Inv base (before ++ [c]) (step base s c) := by
  have hre {a : Addr} (hr : reported base (Sanitizer.step base s c).mem a = true) :
      reported base (free base c.freed s.mem) a = true ∧ ¬ Sweeps base c.block.start c.block.size a := by
    rw [step_mem] at hr
    split_ifs at hr with hred
    · exact reported_unpoison.1 ((reported_poison.1 hr).resolve_right ((hq hred).2 a))
    · exact reported_unpoison.1 hr
  refine ⟨fun a hr => h.freed_concat (hre hr).1, fun b hb a hin hr => ?_, fun b hb a hz => ?_⟩
  · obtain ⟨hr, hnot⟩ := hre hr
    have hne : b ≠ c.block := by
      rintro rfl
      exact hnot ((ht.takes a (h.freed_concat hr)).1.1 (Block.granules_of_holds hin))
    rcases reported_free.1 hr with hr | ⟨chunk, hch, hsw⟩
    · exact h.clean b ((mem_step_live hb).resolve_left hne) a hin hr
    · exact hne ((ht.frees chunk hch a hsw).2 b hb hin)
  · rcases mem_step_live hb with rfl | hb
    · exact Block.not_inRedZone hf (hq hz.1).1 a hz
    · exact h.ragged b hb a hz

theorem Inv.sound (hq : Quiet base c) : Sound base s c where
  clean b hb a hin := Bool.eq_false_iff.2 ((h.step hf ht hq).clean b hb a hin)
  guarded b hb a hz := absurd hz ((h.step hf ht hq).ragged b hb a)
  free_framed earlier chunk later heq a hout := by
    rw [Bool.eq_iff_iff, reported_free, reported_free]
    have hnot : ¬ Sweeps base chunk.1 chunk.2 a := fun hsw => hout (ht.frees chunk (by simp [heq]) a hsw).1
    simp [or_and_right, exists_or, hnot]
  unpoison_framed a hout := by
    rw [Bool.eq_iff_iff, reported_unpoison]
    exact and_iff_left_of_imp fun hr hsw => hout ((ht.takes a (h.freed_concat hr)).1.2 hsw)
  poison_framed hred a _ := by
    rw [step_mem, if_pos hred, Bool.eq_iff_iff, reported_poison]
    exact or_iff_left ((hq hred).2 a)

section

variable (hs : Sound base s c) (hred : c.block.redZone)
include hs hred

/-- A whole line does not fit in the granules of a red zone. -/
theorem Inv.not_sweeps (a : Addr) : ¬ Sweeps base (c.block.start + c.block.size) 16 a := by
  intro hsw
  -- every address of the line is behind the block, and in a granule of the red zone
  have hz : ∀ k < 128, c.block.start.toNat + c.block.size.toNat ≤ 128 * (a.toNat / 128) + k ∧
      16 * ((128 * (a.toNat / 128) + k) / 16) < c.block.limit := by
    intro k hk
    obtain ⟨hli, hval⟩ := line a hk
    set a' := BitVec.ofNat 32 (128 * (a.toNat / 128) + k)
    have hsw' : Sweeps base (c.block.start + c.block.size) 16 a' := by rwa [Sweeps, hli]
    have hre : reported base (Sanitizer.step base s c).mem a' = true := by
      rw [step_mem, if_pos hred]
      exact reported_poison.2 (.inr hsw')
    obtain ⟨hlow, hhigh⟩ : c.block.Granules a' := by
      by_contra hout
      have hun := (hs.poison_framed hred a' hout).symm.trans hre
      exact (ht.takes a' (h.freed_concat (reported_unpoison.1 hun).1)).2 hred hsw'
    have hnot : ¬ c.block.Holds a' := fun hin => absurd (hs.clean _ block_mem_live a' hin) (by simp [hre])
    rw [Block.Holds, hval] at hnot
    rw [hval] at hlow hhigh
    obtain ⟨ha, -⟩ := hf
    omega
  have h0 := hz 0 (by omega)
  have h127 := hz 127 (by omega)
  rw [Block.limit, if_pos hred] at h127
  omega

/-- A red zone that is one granule is not reported. -/
theorem Inv.size_mod_ne : c.block.size.toNat % 16 ≠ 0 := by
  intro hsiz
  have hnot := h.not_sweeps hf ht hs hred (c.block.start + c.block.size)
  obtain ⟨ha, hli⟩ := hf
  rw [Block.limit, if_pos hred] at hli
  have hsum : (c.block.start + c.block.size).toNat = c.block.start.toNat + c.block.size.toNat := by
    rw [BitVec.toNat_add]
    omega
  have hz : c.block.InRedZone (c.block.start + c.block.size) := by
    rw [Block.InRedZone, hsum, Block.limit, if_pos hred]
    exact ⟨hred, by omega, by omega⟩
  have hre := hs.guarded c.block block_mem_live _ hz
  rw [step_mem, if_pos hred, reported_poison, or_iff_left hnot, reported_unpoison] at hre
  refine hre.2 ((ht.takes _ (h.freed_concat hre.1)).1.1 ?_)
  rw [Block.Granules, hsum, Block.limit, if_pos hred]
  omega

end

theorem Inv.sound_iff_of_tidy : Sound base s c ↔ Quiet base c :=
  ⟨fun hs hred => ⟨h.size_mod_ne hf ht hs hred, h.not_sweeps hf ht hs hred⟩, h.sound hf ht⟩

end

/-- The program's start: `shadow` is zero, and nothing is allocated. -/
structure Fresh (base : Addr) (s : State) : Prop where
  zero : ∀ i : Addr, i.toNat < 33554432 → s.mem (base + i) = 0
  none_live : s.live = []

theorem Fresh.inv (h : Fresh base s) : Inv base [] s where
  freed a hr := by
    obtain ⟨-, hbit⟩ := (reported_iff base s.mem a).1 hr
    rw [h.zero] at hbit
    · exact absurd rfl hbit
    · rw [BitVec.toNat_ushiftRight, Nat.shiftRight_eq_div_pow]
      omega
  clean := by simp [h.none_live]
  ragged := by simp [h.none_live]

theorem Fresh.inv_run (h : Fresh base s) {calls : List Call} (hf : ∀ c ∈ calls, c.block.Fits)
    (ht : Stepwise.Each (fun before c => Tidy base (run base s before) before c) calls)
    (hqu : ∀ c ∈ calls, Quiet base c) : Inv base calls (run base s calls) := by
  induction calls using List.reverseRecOn with
  | nil => exact h.inv
  | append_singleton calls c ih =>
    rw [forall_mem_append, forall_mem_singleton] at hf hqu
    rw [Stepwise.each_concat] at ht
    rw [run_concat]
    exact (ih hf.1 ht.1 hqu.1).step hf.2 ht.2 hqu.2

/-- **Sound is silent.**  While freed lines are taken as a whole, the calls of a run are all sound exactly
if they are all quiet. -/
theorem sound_iff_quiet (hfresh : Fresh base s) (calls : List Call) (hfits : ∀ c ∈ calls, c.block.Fits)
    (htidy : Stepwise.Each (fun before c => Tidy base (run base s before) before c) calls) :
    Stepwise.Each (fun before c => Sound base (run base s before) c) calls ↔ ∀ c ∈ calls, Quiet base c := by
  induction calls using List.reverseRecOn with
  | nil => simp [Stepwise.each_nil]
  | append_singleton calls c ih =>
    rw [forall_mem_append, forall_mem_singleton] at hfits ⊢
    rw [Stepwise.each_concat] at htidy ⊢
    rw [ih hfits.1 htidy.1]
    exact and_congr_right fun hqu => (hfresh.inv_run hfits.1 htidy.1 hqu).sound_iff_of_tidy hfits.2 htidy.2

/-- The memory at the start. -/
def fresh : State := ⟨fun _ => 0, []⟩

theorem fresh_fresh : Fresh base fresh := ⟨fun _ _ => rfl, rfl⟩

/-- Nothing is written where start and end have one shadow byte, at an address without bit 3. -/
theorem not_sweeps_of_line (hout : shadowPtr base start &&& 8 = 0)
    (hli : shadowPtr base (start + bytes) = shadowPtr base start) (a : Addr) : ¬ Sweeps base start bytes a := by
  rintro ⟨-, hw⟩
  simp only [Written, hli, hout, ne_eq, not_true_eq_false, and_false, false_or, if_false] at hw
  exact absurd (Nat.lt_of_le_of_lt (BitVec.le_def.1 hw.1) (BitVec.lt_def.1 hw.2)) (Nat.lt_irrefl _)

/-- Of the lines of a chunk of 224 bytes the checker looks at one. -/
theorem line_of_sweeps (h : Sweeps 0x20000 0xff8 224 a) : a >>> 7 = 0x20 := by
  obtain ⟨hli, hw⟩ := h
  generalize a >>> 7 = i at hli hw ⊢
  have hw : 0x20000#32 + i = 0x2001f#32 ∨ 0x20020#32 ≤ 0x20000#32 + i ∧ 0x20000#32 + i < 0x20021#32 := by
    simpa [Written, shadowPtr] using hw
  have hne : i ≠ 0x1f := fun h => absurd (h ▸ hli) (by decide)
  bv_omega

/-- A block of 200 bytes is moved, and a block of 150 takes the line that was freed. -/
theorem sound_iff_quiet_realloc : Stepwise.Each (fun before c => Sound 0x20000 (run 0x20000 fresh before) c)
    [.malloc [] 0x1000 200, .realloc [(0xff8, 224)] 0x1000 0x2000 1000, .malloc [] 0x1000 150] := by
  refine (sound_iff_quiet fresh_fresh _ (by decide) ?_).2 ?_
  · simp only [Stepwise.each_cons, Stepwise.each_nil, and_true]
    refine ⟨⟨nofun, fun a h => ?_⟩, ⟨?_, fun a h => ?_⟩, nofun, fun a h => ?_⟩
    · simp [Freed, Call.freed] at h
    · rintro chunk hch a hsw
      cases mem_singleton.1 hch
      have hli := line_of_sweeps hsw
      refine ⟨?_, fun b hb _ => by simpa [run, step, fresh, Call.block] using hb⟩
      unfold Block.Granules Block.limit
      bv_omega
    · have hli := line_of_sweeps (by simpa [Freed, Call.freed] using h)
      simp only [Sweeps, hli, Call.block]
      refine ⟨iff_of_false ?_ (by decide), fun _ => by decide⟩
      unfold Block.Granules Block.limit
      bv_omega
    · have hli := line_of_sweeps (by simpa [Freed, Call.freed] using h)
      simp only [Sweeps, hli, Call.block]
      refine ⟨iff_of_true ?_ (by decide), fun _ => by decide⟩
      unfold Block.Granules Block.limit
      bv_omega
  · simp only [forall_mem_cons]
    refine ⟨fun _ => ⟨by decide, ?_⟩, fun _ => ⟨by decide, ?_⟩, fun _ => ⟨by decide, ?_⟩, nofun⟩
    all_goals exact not_sweeps_of_line (by decide) (by decide)

/-- A block of 112 bytes is reported as a whole, and the red zone behind a block of 16 is not.  And a
block of 24 bytes is reported where a block was that `rEALLOc` has moved. -/
theorem block_reported : (Block.mk 0x1000 112 true).Fits ∧ (Block.mk 0x1000 112 true).Holds 0x1000 ∧
      reported 0x20000 (run 0x20000 fresh [.malloc [] 0x1000 112]).mem 0x1000 = true ∧
      (Block.mk 0x1000 16 true).Fits ∧ (Block.mk 0x1000 16 true).InRedZone 0x1010 ∧
      reported 0x20000 (run 0x20000 fresh [.malloc [] 0x1000 16]).mem 0x1010 = false ∧
      (Block.mk 0x1000 24 true).Fits ∧ (Block.mk 0x1000 24 true).Holds 0x1000 ∧
      reported 0x20000 (run 0x20000 fresh [.malloc [] 0x1000 200, .realloc [(0xff8, 224)] 0x1000 0x2000 1000,
        .malloc [] 0x1000 24]).mem 0x1000 = true := by
  decide +kernel

end GuardianCouncil.Sanitizer
