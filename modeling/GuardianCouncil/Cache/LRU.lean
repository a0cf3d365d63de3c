import GuardianCouncil.Cache.Tags
import GuardianCouncil.Lib.Slots

/-!
# Replacement of the least recently used block

A tag store in use: blocks are accessed, filled after a miss, and invalidated.  The history records for
each of these which block was used, what was put into the store and what went out of it.
-/

namespace GuardianCouncil.LRU

open Fallible History MoveToFront Slots Function

open List hiding set

variable {cfg : TagsConfig}

/-! ## Uses of a store -/

/-- The block address and the security that a block stands for. -/
def Tags.resident (t : Tags cfg) (p : Nat × Nat) : Option (Addr × Bool) :=
  let blk := t.blks p
  if blk.valid then some (cfg.regenerateBlkAddr blk.tag p.1, blk.secure) else none

/-- The block of its set that stands for an address. -/
def Tags.holder (t : Tags cfg) (addr : Addr) (isSecure : Bool) : Option Nat :=
  (List.range cfg.assoc).find? fun way =>
    t.resident (cfg.extractSet addr, way) = some (cfg.blkAlign addr, isSecure)

structure Event where
  /-- The block that was accessed or inserted. -/
  used : Option (Nat × Nat)
  inserted : Option (Addr × Bool)
  removed : Option (Addr × Bool)

/-- A store, and what has happened to it. -/
structure Store (cfg : TagsConfig) where
  tags : Tags cfg
  history : List Event

inductive Op
  | access (addr : Addr) (isSecure : Bool)
  /-- A block is filled: `findVictim`, `insertBlock` and the status. -/
  | fill (addr : Addr) (isSecure : Bool)
  | invalidate (set way : Nat)

namespace Store

def new : Store cfg := ⟨.new, []⟩

def exec (s : Store cfg) : Op → Except Failure (Store cfg)
  | .access addr isSecure => do
    let (_, tags) ← s.tags.accessBlock addr isSecure
    let used := (s.tags.holder addr isSecure).map (cfg.extractSet addr, ·)
    .ok ⟨tags, s.history ++ [⟨used, none, none⟩]⟩
  | .fill addr isSecure =>
    match s.tags.findVictim addr with
    | none => .ok s
    | some way => do
      let set := cfg.extractSet addr
      let tags ← s.tags.insertBlock addr way
      .ok ⟨tags.setValid set way isSecure, s.history ++
        [⟨some (set, way), some (cfg.blkAlign addr, isSecure), s.tags.resident (set, way)⟩]⟩
  | .invalidate set way => do
    let tags ← s.tags.invalidateBlock set way
    .ok ⟨tags, s.history ++ [⟨none, none, s.tags.resident (set, way)⟩]⟩

/-- A block is filled only after a miss, and only a valid block is invalidated. -/
def Allows (s : Store cfg) : Op → Prop
  | .access _ _ => True
  | .fill addr isSecure => s.tags.findBlock addr isSecure = none
  | .invalidate set way => (s.tags.blks (set, way)).valid

instance (s : Store cfg) : ∀ op, Decidable (s.Allows op)
  | .access _ _ => isTrue trivial
  | .fill _ _ => inferInstanceAs (Decidable (_ = none))
  | .invalidate _ _ => inferInstanceAs (Decidable (_ = true))

/-- The first block was used after the last use of the second. -/
def MoreRecent (h : List Event) (p q : Nat × Nat) : Prop :=
  Since (fun e => e.used = some p) (fun e => e.used ≠ some q) h

/-- The block was put into the store, and has not gone out since. -/
def Present (h : List Event) (x : Addr × Bool) : Prop :=
  Since (fun e => e.inserted = some x) (fun e => e.removed ≠ some x) h

/-! ## The invariant -/

/-- Nothing valid comes after something invalid, or after something less recent. -/
def Ordered (blks : Nat × Nat → CacheBlk) (h : List Event) (set : Nat) (ways : List Nat) : Prop :=
  ways.Pairwise fun way way' => (blks (set, way')).valid → (blks (set, way)).valid ∧ MoreRecent h (set, way) (set, way')

/-- What holds of a store at all times. -/
structure Inv (s : Store cfg) : Prop where
  allocAssoc_eq : s.tags.allocAssoc = cfg.assoc
  perm : ∀ set, (s.tags.sets set).Perm (List.range cfg.assoc)
  recent : ∀ set, Ordered s.tags.blks s.history set (s.tags.sets set)
  /-- A valid block is one of its set, and has the tag of an address there. -/
  placed : ∀ p, (s.tags.blks p).valid →
    p.2 < cfg.assoc ∧ ∃ addr, cfg.extractTag addr = (s.tags.blks p).tag ∧ cfg.extractSet addr = p.1
  cleared : ∀ p, (s.tags.blks p).valid = false → (s.tags.blks p).secure = false
  tracks : Tracks Event.inserted Event.removed s.tags.resident s.history

theorem inv_new : Inv (new : Store cfg) where
  allocAssoc_eq := rfl
  perm _ := .refl _
  recent _ := List.Pairwise.imp (fun _ h => by cases h) pairwise_lt_range
  placed _ h := by cases h
  cleared _ _ := rfl
  tracks := .empty fun _ => rfl

namespace Ordered

variable {blks : Nat × Nat → CacheBlk} {blk : CacheBlk} {h : List Event} {e : Event}
  {p : Nat × Nat} {set : Nat} {ways : List Nat}

/-- A block of another set is used or changed. -/
theorem elsewhere (ho : Ordered blks h set ways) (hset : p.1 ≠ set) (hus : ∀ q, e.used = some q → q.1 = p.1) :
    Ordered (update blks p blk) (h ++ [e]) set ways := by
  have hne : ∀ way, (set, way) ≠ p := by
    rintro way rfl
    exact hset rfl
  refine ho.imp fun {way way'} hway hv => ?_
  rw [update_of_ne (hne way')] at hv
  rw [update_of_ne (hne way)]
  obtain ⟨hv', hre⟩ := hway hv
  exact ⟨hv', since_concat.2 (.inr ⟨hre, fun he => hset (hus _ he).symm⟩)⟩

/-- The blocks that are not moved stay in order. -/
theorem others (hus : ∀ q, e.used = some q → q = p) {way way' : Nat}
    (hne : way ≠ p.2) (hne' : way' ≠ p.2)
    (hway : (blks (set, way')).valid → (blks (set, way)).valid ∧ MoreRecent h (set, way) (set, way'))
    (hv : (update blks p blk (set, way')).valid) :
    (update blks p blk (set, way)).valid ∧ MoreRecent (h ++ [e]) (set, way) (set, way') := by
  have hp : (set, way) ≠ p := fun hp => hne (congrArg Prod.snd hp)
  have hp' : (set, way') ≠ p := fun hp => hne' (congrArg Prod.snd hp)
  rw [update_of_ne hp'] at hv
  rw [update_of_ne hp]
  obtain ⟨hv', hre⟩ := hway hv
  exact ⟨hv', since_concat.2 (.inr ⟨hre, fun he => hp' (hus _ he)⟩)⟩

/-- A valid block is used and moved to the front. -/
theorem toFront (ho : Ordered blks h p.1 ways) (hn : ways.Nodup) (hv : blk.valid) (hus : e.used = some p) :
    Ordered (update blks p blk) (h ++ [e]) p.1 (toFront ways p.2) := by
  refine pairwise_toFront ho hn (fun way _ way' _ hne hne' hway => ?_) fun way _ hne _ => ?_
  · exact others (fun q hq => Option.some.inj (hq.symm.trans hus)) hne hne' hway
  · rw [update_self]
    exact ⟨hv, since_concat.2 (.inl hus)⟩

/-- A block becomes invalid and is moved to the back. -/
theorem toBack (ho : Ordered blks h p.1 ways) (hn : ways.Nodup) (hin : blk.valid = false)
    (hus : e.used = none) : Ordered (update blks p blk) (h ++ [e]) p.1 (toBack ways p.2) := by
  refine pairwise_toBack ho hn (fun way _ way' _ hne hne' hway => ?_) fun way _ hne hv => ?_
  · exact others (fun q hq => by rw [hus] at hq; cases hq) hne hne' hway
  · rw [update_self, hin] at hv
    cases hv

end Ordered

section

variable {s : Store cfg} {p : Nat × Nat} {set way : Nat} {addr : Addr} {isSecure : Bool}

namespace Inv

section

variable (h : Inv s)
include h

theorem mem_sets : way ∈ s.tags.sets set ↔ way < cfg.assoc := by
  rw [(h.perm set).mem_iff, mem_range]

theorem nodup (set : Nat) : (s.tags.sets set).Nodup :=
  (h.perm set).nodup_iff.2 nodup_range

/-- Which blocks stand for an address. -/
theorem resident_eq_iff : s.tags.resident p = some (cfg.blkAlign addr, isSecure) ↔
    (s.tags.blks p).tag = cfg.extractTag addr ∧ (s.tags.blks p).valid ∧
      (s.tags.blks p).secure = isSecure ∧ p.1 = cfg.extractSet addr := by
  by_cases hv : (s.tags.blks p).valid
  · obtain ⟨-, a, htag, hset⟩ := h.placed p hv
    simp only [Tags.resident, hv, if_true, ← htag, ← hset, cfg.regenerateBlkAddr_extract,
      Option.some.injEq, Prod.mk.injEq, cfg.blkAlign_eq_iff]
    tauto
  · simp [Tags.resident, hv]

/-- A block that a lookup finds stands for the address. -/
theorem resident_of_findBlock (hf : s.tags.findBlock addr isSecure = some way) :
    s.tags.resident (cfg.extractSet addr, way) = some (cfg.blkAlign addr, isSecure) := by
  have hm := find?_some hf
  simp only [Bool.and_eq_true, beq_iff_eq] at hm
  exact h.resident_eq_iff.2 ⟨hm.1.1, hm.1.2, hm.2, rfl⟩

/-- **A lookup hits exactly what the store holds.** -/
theorem findBlock_isSome_iff : (s.tags.findBlock addr isSecure).isSome ↔
    Holds s.tags.resident (cfg.blkAlign addr, isSecure) := by
  constructor
  · intro hso
    obtain ⟨way, hway⟩ := Option.isSome_iff_exists.1 hso
    exact ⟨_, h.resident_of_findBlock hway⟩
  · rintro ⟨⟨set, way⟩, hres⟩
    obtain ⟨htag, hv, hse, rfl⟩ := h.resident_eq_iff.1 hres
    refine find?_isSome.2 ⟨way, h.mem_sets.2 (h.placed _ hv).1, ?_⟩
    simp [htag, hv, hse]

/-- A lookup finds the block that stands for the address. -/
theorem findBlock_eq_holder : s.tags.findBlock addr isSecure = s.tags.holder addr isSecure := by
  rcases hf : s.tags.findBlock addr isSecure with _ | way
  · refine (find?_eq_none.2 fun way _ hres => ?_).symm
    have hso := h.findBlock_isSome_iff.2 ⟨_, of_decide_eq_true hres⟩
    rw [hf] at hso
    cases hso
  · have hres := h.resident_of_findBlock hf
    have hway : way ∈ List.range cfg.assoc := (h.perm _).mem_iff.1 (mem_of_find?_eq_some hf)
    have hso : (s.tags.holder addr isSecure).isSome := find?_isSome.2 ⟨way, hway, decide_eq_true hres⟩
    obtain ⟨way', hway'⟩ := Option.isSome_iff_exists.1 hso
    have hres' := find?_some hway'
    rw [hway']
    exact congrArg (some ·.2) (h.tracks.distinct hres (of_decide_eq_true hres'))

/-- The victim is the last block of its set. -/
theorem findVictim_eq (addr : Addr) : ∃ ways way, s.tags.sets (cfg.extractSet addr) = ways ++ [way] ∧
      s.tags.findVictim addr = some way := by
  have hne : s.tags.sets (cfg.extractSet addr) ≠ [] := ne_nil_of_mem (h.mem_sets.2 cfg.assoc_pos)
  obtain ⟨ways, way, hse⟩ := (eq_nil_or_concat' _).resolve_left hne
  refine ⟨ways, way, hse, ?_⟩
  have hlt : way < cfg.assoc := h.mem_sets.1 (hse ▸ mem_append_right _ mem_cons_self)
  rw [Tags.findVictim, hse, h.allocAssoc_eq, reverse_append, reverse_singleton,
    singleton_append, find?_cons_of_pos (by simpa using hlt)]

end

end Inv

end

/-! ## The operations -/

section

variable {s s' : Store cfg} {p : Nat × Nat} {set way : Nat} {addr : Addr} {isSecure : Bool}
  {blk : CacheBlk} {order : List Nat} {e : Event} {op : Op}

/-- One block is changed, and its set reordered. -/
def place (s : Store cfg) (p : Nat × Nat) (blk : CacheBlk) (order : List Nat) (e : Event) : Store cfg :=
  ⟨{ s.tags with
      blks := update s.tags.blks p blk
      sets := update s.tags.sets p.1 order }, s.history ++ [e]⟩

theorem resident_place : (s.place p blk order e).tags.resident = update s.tags.resident p
      (if blk.valid then some (cfg.regenerateBlkAddr blk.tag p.1, blk.secure) else none) := by
  funext q
  by_cases hq : q = p
  · subst hq
    simp [Tags.resident, place]
  · simp [Tags.resident, place, hq]

namespace Inv

theorem place (h : Inv s) (hperm : order.Perm (s.tags.sets p.1)) (hus : ∀ q, e.used = some q → q.1 = p.1)
    (hre : Ordered (update s.tags.blks p blk) (s.history ++ [e]) p.1 order)
    (hpl : blk.valid → p.2 < cfg.assoc ∧ ∃ addr, cfg.extractTag addr = blk.tag ∧ cfg.extractSet addr = p.1)
    (hcl : blk.valid = false → blk.secure = false)
    (htr : Tracks Event.inserted Event.removed (s.place p blk order e).tags.resident
      (s.history ++ [e])) : Inv (s.place p blk order e) where
  allocAssoc_eq := h.allocAssoc_eq
  perm set := by
    show (update s.tags.sets p.1 order set).Perm _
    rw [update_apply]
    split
    · exact hperm.trans (h.perm _)
    · exact h.perm set
  recent set := by
    show Ordered _ _ set (update s.tags.sets p.1 order set)
    by_cases hset : set = p.1
    · subst hset
      rw [update_self]
      exact hre
    · rw [update_of_ne hset]
      exact (h.recent set).elsewhere (Ne.symm hset) hus
  placed q := by
    show (update s.tags.blks p blk q).valid = true → _ ∧ ∃ addr, cfg.extractTag addr =
      (update s.tags.blks p blk q).tag ∧ _
    rw [update_apply]
    split_ifs with hq
    · exact hq ▸ hpl
    · exact h.placed q
  cleared q := by
    show (update s.tags.blks p blk q).valid = false → (update s.tags.blks p blk q).secure = false
    rw [update_apply]
    split
    · exact hcl
    · exact h.cleared q
  tracks := htr

theorem accessBlock_eq (hf : s.tags.findBlock addr isSecure = some way) : let set := cfg.extractSet addr
    s.tags.accessBlock addr isSecure = .ok (some way, { s.tags with
      sets := update s.tags.sets set (MoveToFront.toFront (s.tags.sets set) way) }) := by
  intro set
  have hmem : way ∈ s.tags.sets set := mem_of_find?_eq_some hf
  simp only [Tags.accessBlock, hf, Tags.moveToHead]
  rw [CacheSet.moveToHead_eq hmem]
  rfl

section

variable (h : Inv s)
include h

/-- A block that is accessed. -/
theorem exec_hit (hf : s.tags.findBlock addr isSecure = some way) : let p := (cfg.extractSet addr, way)
    s.exec (.access addr isSecure) = .ok (s.place p (s.tags.blks p) (MoveToFront.toFront (s.tags.sets p.1) way)
        ⟨some p, none, none⟩) := by
  intro p
  rw [Store.exec, accessBlock_eq hf, ← h.findBlock_eq_holder, hf, Store.place, update_eq_self]
  rfl

/-- A block that is filled. -/
theorem exec_fill (hvi : s.tags.findVictim addr = some way) : let p := (cfg.extractSet addr, way)
    s.exec (.fill addr isSecure) = .ok (s.place p ⟨cfg.extractTag addr, true, isSecure⟩
        (MoveToFront.toFront (s.tags.sets p.1) way)
        ⟨some p, some (cfg.blkAlign addr, isSecure), s.tags.resident p⟩) := by
  intro p
  have hmem : way ∈ s.tags.sets p.1 := mem_reverse.1 (mem_of_find?_eq_some hvi)
  -- the block is not secure any more when its status is set
  have hse : (if (s.tags.blks p).valid then (s.tags.blks p).invalidate
      else s.tags.blks p).secure = false := by
    by_cases hv : (s.tags.blks p).valid
    · rw [if_pos hv, CacheBlk.invalidate]
    · rw [if_neg hv, h.cleared p (Bool.eq_false_iff.2 hv)]
  simp only [exec, hvi, Tags.insertBlock, Tags.moveToHead, Tags.setBlk, Tags.setValid]
  rw [CacheSet.moveToHead_eq hmem]
  simp only [ok_bind, Store.place, update_self, update_idem, hse, Bool.false_or, p]

/-- A block that is invalidated. -/
theorem exec_invalidate (hv : (s.tags.blks p).valid) : s.exec (.invalidate p.1 p.2) =
      .ok (s.place p (s.tags.blks p).invalidate (MoveToFront.toBack (s.tags.sets p.1) p.2)
        ⟨none, none, s.tags.resident p⟩) := by
  have hmem : p.2 ∈ s.tags.sets p.1 := h.mem_sets.2 (h.placed p hv).1
  simp only [exec, Tags.invalidateBlock, Tags.invalidate, hv, Tags.moveToTail, Bool.not_true,
    Bool.false_eq_true, if_false, CacheSet.moveToTail_eq hmem (h.nodup _), ok_bind, Tags.setBlk,
    Store.place]

/-- An access that misses. -/
theorem miss : Inv ⟨s.tags, s.history ++ [⟨none, none, none⟩]⟩ :=
  { h with
    recent := fun set => (h.recent set).imp fun hway hv =>
      ⟨(hway hv).1, since_concat.2 (.inr ⟨(hway hv).2, fun he => by cases he⟩)⟩
    tracks := h.tracks.idle rfl rfl }

theorem hit (hv : (s.tags.blks p).valid) : Inv (s.place p (s.tags.blks p) (MoveToFront.toFront (s.tags.sets p.1) p.2)
      ⟨some p, none, none⟩) := by
  have hmem : p.2 ∈ s.tags.sets p.1 := h.mem_sets.2 (h.placed p hv).1
  refine h.place (perm_toFront hmem) (fun q hq => ?_)
    ((h.recent p.1).toFront (h.nodup _) hv rfl) (h.placed p) (h.cleared p) ?_
  · rw [Option.some.inj hq]
  · have hre : (if (s.tags.blks p).valid then
        some (cfg.regenerateBlkAddr (s.tags.blks p).tag p.1, (s.tags.blks p).secure) else none) =
        s.tags.resident p := rfl
    rw [resident_place, hre, update_eq_self]
    exact h.tracks.idle rfl rfl

theorem fill (hway : way ∈ s.tags.sets (cfg.extractSet addr))
    (hm : s.tags.findBlock addr isSecure = none) : let p := (cfg.extractSet addr, way)
    Inv (s.place p ⟨cfg.extractTag addr, true, isSecure⟩
      (MoveToFront.toFront (s.tags.sets p.1) way)
      ⟨some p, some (cfg.blkAlign addr, isSecure), s.tags.resident p⟩) := by
  intro p
  refine h.place (perm_toFront hway) (fun q hq => ?_) ((h.recent p.1).toFront (h.nodup _) rfl rfl)
    (fun _ => ⟨h.mem_sets.1 hway, addr, rfl, rfl⟩) (fun hv => by cases hv) ?_
  · rw [← Option.some.inj hq]
  · rw [resident_place, if_pos rfl, cfg.regenerateBlkAddr_extract]
    refine h.tracks.update (i := p) (e := ⟨some p, some (cfg.blkAlign addr, isSecure), _⟩) rfl fun x hx => ?_
    rw [← Option.some.inj hx, ← h.findBlock_isSome_iff, hm]
    decide

theorem invalidate (hv : (s.tags.blks p).valid) :
    Inv (s.place p (s.tags.blks p).invalidate (MoveToFront.toBack (s.tags.sets p.1) p.2)
      ⟨none, none, s.tags.resident p⟩) := by
  have hmem : p.2 ∈ s.tags.sets p.1 := h.mem_sets.2 (h.placed p hv).1
  refine h.place (perm_toBack hmem) (fun q hq => by cases hq)
    ((h.recent p.1).toBack (h.nodup _) rfl rfl) (fun hv => by cases hv) (fun _ => rfl) ?_
  rw [resident_place]
  exact h.tracks.update (i := p) (e := ⟨none, none, _⟩) rfl fun x hx => by cases hx

/-- **One operation** succeeds, and keeps the invariant. -/
theorem exec (ha : s.Allows op) : ∃ s', s.exec op = .ok s' ∧ Inv s' := by
  rcases op with ⟨addr, isSecure⟩ | ⟨addr, isSecure⟩ | ⟨set, way⟩
  · rcases hf : s.tags.findBlock addr isSecure with _ | way
    · refine ⟨_, ?_, h.miss⟩
      simp only [Store.exec, ← h.findBlock_eq_holder, Tags.accessBlock, hf, ok_bind, Option.map_none]
    · exact ⟨_, h.exec_hit hf, h.hit (h.resident_eq_iff.1 (h.resident_of_findBlock hf)).2.1⟩
  · obtain ⟨ways, way, hse, hv⟩ := h.findVictim_eq addr
    have hway : way ∈ s.tags.sets (cfg.extractSet addr) := hse ▸ mem_append_right _ mem_cons_self
    exact ⟨_, h.exec_fill hv, h.fill hway ha⟩
  · exact ⟨_, h.exec_invalidate (p := (set, way)) ha, h.invalidate ha⟩

end

end Inv

/-- Every store in use keeps the invariant. -/
theorem inv_of_reaches (h : Reaches exec Allows new s) : Inv s := by
  refine h.invariant inv_new fun _ hinv ha hs => ?_
  obtain ⟨s', hs', hinv'⟩ := hinv.exec ha
  rw [hs] at hs'
  cases hs'
  exact hinv'

end

/-! ## What the store guarantees -/

namespace Inv

variable {s : Store cfg} {set way way' : Nat}

/-- The valid blocks of a set come first, in order. -/
theorem exists_valid_append (h : Inv s) (set : Nat) : ∃ valid invalid, s.tags.sets set = valid ++ invalid ∧
      (∀ way ∈ valid, (s.tags.blks (set, way)).valid) ∧
      (∀ way ∈ invalid, ¬ (s.tags.blks (set, way)).valid) ∧
      valid.Pairwise fun way way' => MoreRecent s.history (set, way) (set, way') := by
  obtain ⟨hta, hd⟩ := while_eq_filter (p := fun way => (s.tags.blks (set, way)).valid)
    ((h.recent set).imp fun hway hv => (hway hv).1)
  have hsp := takeWhile_append_dropWhile.symm.trans (congrArg₂ (· ++ ·) hta hd)
  refine ⟨_, _, hsp, fun way hway => (mem_filter.1 hway).2, fun way hway => ?_, ?_⟩
  · simpa using (mem_filter.1 hway).2
  · refine List.Pairwise.imp_of_mem (fun {way way'} _ hway' hre => ?_) ((h.recent set).sublist filter_sublist)
    exact (hre (mem_filter.1 hway').2).2

/-- The last block of a set is valid only if all are, and is the least recent. -/
theorem valid_and_moreRecent (h : Inv s) {ways : List Nat} {victim : Nat}
    (hse : s.tags.sets set = ways ++ [victim]) (hv : (s.tags.blks (set, victim)).valid)
    (hway : way < cfg.assoc) (hne : way ≠ victim) :
    (s.tags.blks (set, way)).valid ∧ MoreRecent s.history (set, way) (set, victim) := by
  have hmem : way ∈ s.tags.sets set := h.mem_sets.2 hway
  have hre := h.recent set
  rw [hse] at hmem hre
  refine (pairwise_append.1 hre).2.2 way ?_ victim (mem_singleton_self _) hv
  exact (mem_append.1 hmem).resolve_right fun hla => hne (mem_singleton.1 hla)

/-- No two valid blocks of a set have the same tag and security. -/
theorem eq_of_tag_eq (h : Inv s) (hv : (s.tags.blks (set, way)).valid) (hv' : (s.tags.blks (set, way')).valid)
    (htag : (s.tags.blks (set, way)).tag = (s.tags.blks (set, way')).tag)
    (hse : (s.tags.blks (set, way)).secure = (s.tags.blks (set, way')).secure) : way = way' := by
  have hres : ∀ {p}, (s.tags.blks p).valid → s.tags.resident p =
      some (cfg.regenerateBlkAddr (s.tags.blks p).tag p.1, (s.tags.blks p).secure) :=
    fun hp => if_pos hp
  have hsa := hres hv
  rw [htag, hse] at hsa
  exact congrArg Prod.snd (h.tracks.distinct hsa (hres hv'))

end Inv

/-- **The least recently used block is replaced.**  In every store in use, the array of a set has each
way once, first the valid blocks, the most recently used first, then the invalid ones.  The victim is
an invalid block if there is one, and otherwise the least recently used block.  No two valid blocks of
a set have the same tag and security, and a lookup hits exactly the blocks that were put into the
store and did not go out since.  An access returns the block that stands for the address, and no
operation fails. -/
theorem lru_replacement {s : Store cfg} (h : Reaches exec Allows new s) :
    (∀ set, (s.tags.sets set).Perm (List.range cfg.assoc) ∧ ∃ valid invalid, s.tags.sets set = valid ++ invalid ∧
        (∀ way ∈ valid, (s.tags.blks (set, way)).valid) ∧
        (∀ way ∈ invalid, ¬ (s.tags.blks (set, way)).valid) ∧
        valid.Pairwise fun way way' => MoreRecent s.history (set, way) (set, way')) ∧
    (∀ addr, ∃ victim < cfg.assoc, s.tags.findVictim addr = some victim ∧
      let set := cfg.extractSet addr
      ((∃ way < cfg.assoc, ¬ (s.tags.blks (set, way)).valid) → ¬ (s.tags.blks (set, victim)).valid) ∧
      ((∀ way < cfg.assoc, (s.tags.blks (set, way)).valid) →
        ∀ way < cfg.assoc, way ≠ victim → MoreRecent s.history (set, way) (set, victim))) ∧
    (∀ set, ∀ way < cfg.assoc, ∀ way' < cfg.assoc,
      let blk := s.tags.blks (set, way)
      let blk' := s.tags.blks (set, way')
      blk.valid → blk'.valid → blk.tag = blk'.tag → blk.secure = blk'.secure → way = way') ∧
    (∀ addr isSecure, (s.tags.findBlock addr isSecure).isSome ↔ Present s.history (cfg.blkAlign addr, isSecure)) ∧
    (∀ addr isSecure, (s.tags.accessBlock addr isSecure).map Prod.fst = .ok (s.tags.holder addr isSecure)) ∧
    (∀ op, s.Allows op → ∃ s', s.exec op = .ok s') := by
  have hinv := inv_of_reaches h
  refine ⟨fun set => ⟨hinv.perm set, hinv.exists_valid_append set⟩, fun addr => ?_,
    fun set way _ way' _ => hinv.eq_of_tag_eq, fun addr isSecure => ?_, fun addr isSecure => ?_,
    fun op ha => ?_⟩
  · obtain ⟨ways, victim, hse, hvi⟩ := hinv.findVictim_eq addr
    have hmem : victim ∈ s.tags.sets (cfg.extractSet addr) := hse ▸ mem_append_right _ mem_cons_self
    have hlt := hinv.mem_sets.1 hmem
    refine ⟨victim, hlt, hvi, ?_, fun hall way hway hne =>
      (hinv.valid_and_moreRecent hse (hall victim hlt) hway hne).2⟩
    rintro ⟨way, hway, hin⟩ hv
    by_cases hne : way = victim
    · exact hin (hne ▸ hv)
    · exact hin (hinv.valid_and_moreRecent hse hv hway hne).1
  · rw [hinv.findBlock_isSome_iff, hinv.tracks.holds_iff]
    rfl
  · rw [← hinv.findBlock_eq_holder]
    rcases hf : s.tags.findBlock addr isSecure with _ | way
    · rw [Tags.accessBlock, hf]
      rfl
    · rw [Inv.accessBlock_eq hf]
      rfl
  · obtain ⟨s', hs', -⟩ := hinv.exec ha
    exact ⟨s', hs'⟩

def twoWays : TagsConfig where
  blkSize := 64
  numSets := 2
  assoc := 2

/-- Two blocks fill a set, and the older one is accessed: a third block replaces the other. -/
theorem lru_replacement_twoWays : ∃ s : Store twoWays, Reaches exec Allows new s ∧
    Present s.history (0, false) ∧ ¬ Present s.history (0x80, false) ∧
    ∃ victim, s.tags.findVictim 0x180 = some victim ∧ ∀ way < 2, way ≠ victim →
      MoreRecent s.history (0, way) (0, victim) := by
  obtain ⟨s, hs, ⟨hold, hg⟩, hfull⟩ := exists_reaches exec Allows (new : Store twoWays)
    [.fill 0x8 false, .fill 0x80 false, .access 0x10 false, .fill 0x100 false]
    (fun s => ((s.tags.findBlock 0 false).isSome ∧ ¬ (s.tags.findBlock 0x80 false).isSome) ∧
      ∀ way : Nat, way < 2 → (s.tags.blks (0, way)).valid) (by decide +kernel)
  obtain ⟨-, hvi, -, hpr, -⟩ := lru_replacement hs
  obtain ⟨victim, -, hv, -, hlea⟩ := hvi 0x180
  exact ⟨s, hs, (hpr 0 false).1 hold, fun h => hg ((hpr 0x80 false).2 h), victim, hv, hlea hfull⟩

end Store
end GuardianCouncil.LRU
