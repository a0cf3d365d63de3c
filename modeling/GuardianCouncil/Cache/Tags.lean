import GuardianCouncil.Lib.Fallible
import GuardianCouncil.Lib.MoveToFront
import Mathlib.Data.BitVec

/-!
# The tag store of a cache

The blocks of a set-associative cache, with the least recently used one replaced first.  Each set
keeps its blocks in an array, the most recently used first; a block is moved to one end of the array
by shifting the others (`moveToHead`, `moveToTail`).  A block is known by its set and way, and the
array of a set is the list of the ways.

An address is divided into the tag, the set and the offset within the block, by shifts and masks of
64-bit numbers; `blkAlign_eq_iff` says that the tag and the set make up the block's address.
-/

namespace GuardianCouncil.LRU

open Fallible MoveToFront List Function BitVec

/-- The parameters of a tag store, as the constructor checks them. -/
structure TagsConfig where
  blkSize : Nat
  numSets : Nat
  assoc : Nat
  four_le_blkSize : 4 ≤ blkSize := by decide
  blkSize_eq : blkSize = 2 ^ blkSize.log2 := by decide
  numSets_eq : numSets = 2 ^ numSets.log2 := by decide
  assoc_pos : 0 < assoc := by decide
  blkSize_lt : blkSize < 2 ^ 32 := by decide
  numSets_lt : numSets < 2 ^ 32 := by decide

abbrev Addr := BitVec 64

/-! ## Addresses -/

namespace TagsConfig

variable (cfg : TagsConfig)

def blkMask : Nat := cfg.blkSize - 1

def setShift : Nat := cfg.blkSize.log2

def setMask : Nat := cfg.numSets - 1

def tagShift : Nat := cfg.setShift + cfg.numSets.log2

def extractTag (addr : Addr) : Addr := addr >>> cfg.tagShift

def extractSet (addr : Addr) : Nat :=
  ((addr >>> cfg.setShift) &&& BitVec.ofNat 64 cfg.setMask).toNat

def blkAlign (addr : Addr) : Addr := addr &&& ~~~BitVec.ofNat 64 cfg.blkMask

def regenerateBlkAddr (tag : Addr) (set : Nat) : Addr :=
  (tag <<< cfg.tagShift) ||| (BitVec.ofNat 64 set <<< cfg.setShift)

section Bits

variable (a : Addr) (i : Nat)

theorem log2_numSets_lt : cfg.numSets.log2 < 32 :=
  (Nat.pow_lt_pow_iff_right (by decide)).1 (cfg.numSets_eq ▸ cfg.numSets_lt)

theorem getLsbD_extractTag : (cfg.extractTag a).getLsbD i = a.getLsbD (cfg.tagShift + i) :=
  getLsbD_ushiftRight ..

theorem testBit_extractSet : (cfg.extractSet a).testBit i =
    (a.getLsbD (cfg.setShift + i) && decide (i < cfg.numSets.log2)) := by
  have hlt := cfg.log2_numSets_lt
  have hm : cfg.setMask.testBit i = decide (i < cfg.numSets.log2) := by
    rw [setMask, cfg.numSets_eq, Nat.testBit_two_pow_sub_one, ← cfg.numSets_eq]
  rw [extractSet, testBit_toNat, getLsbD_and, getLsbD_ushiftRight, getLsbD_ofNat, hm]
  by_cases hi : i < cfg.numSets.log2
  · simp [hi, show i < 64 by omega]
  · simp [hi]

theorem getLsbD_blkAlign : (cfg.blkAlign a).getLsbD i = (a.getLsbD i && !decide (i < cfg.setShift)) := by
  have hm : cfg.blkMask.testBit i = decide (i < cfg.setShift) := by
    rw [blkMask, cfg.blkSize_eq, Nat.testBit_two_pow_sub_one, setShift]
  rw [blkAlign, getLsbD_and, getLsbD_not, getLsbD_ofNat, hm]
  by_cases hi : i < 64
  · simp [hi]
  · rw [getLsbD_of_ge a i (by omega), Bool.false_and, Bool.false_and]

/-- **The block address can be regenerated** from its tag and its set. -/
theorem regenerateBlkAddr_extract : cfg.regenerateBlkAddr (cfg.extractTag a) (cfg.extractSet a) = cfg.blkAlign a := by
  refine eq_of_getLsbD_eq fun i hi => ?_
  rw [regenerateBlkAddr, getLsbD_or, getLsbD_shiftLeft, getLsbD_shiftLeft,
    getLsbD_ofNat, getLsbD_extractTag, testBit_extractSet, getLsbD_blkAlign]
  -- the bit belongs to the offset, to the set or to the tag
  have htag : cfg.tagShift = cfg.setShift + cfg.numSets.log2 := rfl
  rcases lt_or_ge i cfg.setShift with ho | hset
  · simp [ho, show i < cfg.tagShift by omega]
  rcases lt_or_ge i cfg.tagShift with hset' | htag'
  · simp [hset', hi, show ¬ i < cfg.setShift by omega, show i - cfg.setShift < 64 by omega,
      show i - cfg.setShift < cfg.numSets.log2 by omega,
      show cfg.setShift + (i - cfg.setShift) = i by omega]
  · simp [hi, show ¬ i < cfg.tagShift by omega, show ¬ i < cfg.setShift by omega,
      show ¬ i - cfg.setShift < cfg.numSets.log2 by omega,
      show cfg.tagShift + (i - cfg.tagShift) = i by omega]

/-- Two addresses are in the same block exactly when they have the same tag and the same set. -/
theorem blkAlign_eq_iff {a b : Addr} : cfg.blkAlign a = cfg.blkAlign b ↔
    cfg.extractTag a = cfg.extractTag b ∧ cfg.extractSet a = cfg.extractSet b := by
  constructor
  · intro h
    have hbit : ∀ i, cfg.setShift ≤ i → a.getLsbD i = b.getLsbD i := by
      intro i hi
      have := congrArg (·.getLsbD i) h
      simpa [getLsbD_blkAlign, Nat.not_lt.2 hi] using this
    constructor
    · refine eq_of_getLsbD_eq fun i _ => ?_
      rw [getLsbD_extractTag, getLsbD_extractTag, hbit _ (by rw [tagShift]; omega)]
    · refine Nat.eq_of_testBit_eq fun i => ?_
      rw [testBit_extractSet, testBit_extractSet, hbit _ (by omega)]
  · rintro ⟨htag, hset⟩
    rw [← regenerateBlkAddr_extract, htag, hset, regenerateBlkAddr_extract]

end Bits

end TagsConfig

/-! ## The order of a set -/

/-- An assertion of the source that does not hold. -/
inductive Failure
  | assertion
deriving DecidableEq

namespace CacheSet

variable {blk next : Nat} {blks : List Nat}

/-- The loop of `moveToHead`: `next` is written over the first entry, and the entry over the one after
it, until the entry is the block itself. -/
def shift (blk : Nat) : Nat → List Nat → Except Failure (List Nat)
  | _, [] => .error .assertion
  | next, b :: bs =>
    if b = blk then .ok (next :: bs)
    else do
      let bs ← shift blk b bs
      .ok (next :: bs)

def moveToHead (blks : List Nat) (blk : Nat) : Except Failure (List Nat) :=
  if blks.head? = some blk then .ok blks else shift blk blk blks

/-- The same from the other end. -/
def moveToTail (blks : List Nat) (blk : Nat) : Except Failure (List Nat) :=
  if blks.getLast? = some blk then .ok blks
  else do
    let bs ← shift blk blk blks.reverse
    .ok bs.reverse

theorem shift_eq (h : blk ∈ blks) : shift blk next blks = .ok (next :: blks.erase blk) := by
  induction blks generalizing next with
  | nil => exact absurd h not_mem_nil
  | cons b bs ih =>
    rw [shift]
    by_cases hb : b = blk
    · rw [if_pos hb, hb, erase_cons_head]
    · rw [if_neg hb, ih ((mem_cons.1 h).resolve_left (Ne.symm hb)), ok_bind, erase_cons_tail (by simpa using hb)]

theorem moveToHead_eq (h : blk ∈ blks) : moveToHead blks blk = .ok (toFront blks blk) := by
  rw [moveToHead]
  by_cases hh : blks.head? = some blk
  · obtain ⟨bs, rfl⟩ := head?_eq_some_iff.1 hh
    rw [if_pos hh, toFront, erase_cons_head]
  · rw [if_neg hh, shift_eq h, toFront]

theorem moveToTail_eq (h : blk ∈ blks) (hn : blks.Nodup) : moveToTail blks blk = .ok (toBack blks blk) := by
  rw [moveToTail]
  by_cases hla : blks.getLast? = some blk
  · obtain ⟨bs, rfl⟩ := getLast?_eq_some_iff.1 hla
    have hnot : blk ∉ bs := fun hmem =>
      (nodup_append.1 hn).2.2 blk hmem blk (mem_singleton_self blk) rfl
    rw [if_pos hla, toBack, erase_append_right _ hnot, erase_cons_head, append_nil]
  · rw [if_neg hla, shift_eq (mem_reverse.2 h), ok_bind, reverse_cons, toBack,
      hn.erase_eq_filter, (nodup_reverse.2 hn).erase_eq_filter, filter_reverse,
      reverse_reverse]

end CacheSet

/-! ## The store -/

structure CacheBlk where
  tag : Addr
  valid : Bool
  secure : Bool
deriving DecidableEq

def CacheBlk.invalidate (blk : CacheBlk) : CacheBlk := { blk with valid := false, secure := false }

/-- The blocks by set and way, and the ways of each set in the order of the array. -/
structure Tags (cfg : TagsConfig) where
  blks : Nat × Nat → CacheBlk
  sets : Nat → List Nat
  allocAssoc : Nat

namespace Tags

variable {cfg : TagsConfig} (t : Tags cfg)

/-- The constructed store. -/
def new : Tags cfg where
  blks p := ⟨BitVec.ofNat 64 p.2, false, false⟩
  sets _ := List.range cfg.assoc
  allocAssoc := cfg.assoc

/-- `CacheSet::findBlk`. -/
def findBlk (set : Nat) (tag : Addr) (isSecure : Bool) : Option Nat :=
  (t.sets set).find? fun way =>
    let blk := t.blks (set, way)
    blk.tag == tag && blk.valid && blk.secure == isSecure

def findBlock (addr : Addr) (isSecure : Bool) : Option Nat :=
  t.findBlk (cfg.extractSet addr) (cfg.extractTag addr) isSecure

/-- `sets[set].moveToHead(blk)`. -/
def moveToHead (set way : Nat) : Except Failure (Tags cfg) := do
  let order ← CacheSet.moveToHead (t.sets set) way
  .ok { t with sets := update t.sets set order }

/-- `sets[set].moveToTail(blk)`. -/
def moveToTail (set way : Nat) : Except Failure (Tags cfg) := do
  let order ← CacheSet.moveToTail (t.sets set) way
  .ok { t with sets := update t.sets set order }

def setBlk (p : Nat × Nat) (blk : CacheBlk) : Tags cfg :=
  { t with blks := update t.blks p blk }

/-- `LRU::accessBlock`. -/
def accessBlock (addr : Addr) (isSecure : Bool) : Except Failure (Option Nat × Tags cfg) :=
  match t.findBlock addr isSecure with
  | none => .ok (none, t)
  | some way => do
    let t ← t.moveToHead (cfg.extractSet addr) way
    .ok (some way, t)

/-- `LRU::findVictim`: the last block of the array among the ways that may be allocated. -/
def findVictim (addr : Addr) : Option Nat :=
  (t.sets (cfg.extractSet addr)).reverse.find? (· < t.allocAssoc)

/-- `LRU::insertBlock`.  The status of the block is left to the caller. -/
def insertBlock (addr : Addr) (way : Nat) : Except Failure (Tags cfg) :=
  let set := cfg.extractSet addr
  let blk := t.blks (set, way)
  let blk := if blk.valid then blk.invalidate else blk
  (t.setBlk (set, way) { blk with tag := cfg.extractTag addr }).moveToHead set way

/-- The status that a filled block gets. -/
def setValid (set way : Nat) (isSecure : Bool) : Tags cfg :=
  let blk := t.blks (set, way)
  t.setBlk (set, way) { blk with valid := true, secure := blk.secure || isSecure }

/-- `LRU::invalidate`.  The status of the block is left to the caller. -/
def invalidate (set way : Nat) : Except Failure (Tags cfg) :=
  if !(t.blks (set, way)).valid then .error .assertion else t.moveToTail set way

/-- `Cache::invalidateBlock`. -/
def invalidateBlock (set way : Nat) : Except Failure (Tags cfg) := do
  let t ← t.invalidate set way
  .ok (t.setBlk (set, way) (t.blks (set, way)).invalidate)

end Tags

end GuardianCouncil.LRU
