import GuardianCouncil.Lib.Fallible

/-!
# The tag index of a Ruby cache

The ways of a set are searched through a map from line addresses to ways that the whole cache shares.
`allocate` takes the first way that is free or whose entry has become `NotPresent`, and adds to the map;
only `deallocate` takes an address out of it.  So the address of an entry that is written over stays in the map, and
finds the entry of another line.
-/

namespace GuardianCouncil.Ruby

open Fallible Function

abbrev Addr := BitVec 64

inductive AccessPermission
  | readOnly
  | readWrite
  | maybeStale
  | backingStore
  | invalid
  | notPresent
  | busy
deriving DecidableEq

structure AbstractCacheEntry where
  address : Addr
  permission : AccessPermission
deriving DecidableEq

structure Config where
  assoc : ℕ
  startIndexBit : ℕ
  /-- `floorLog2` of the number of sets. -/
  numSetBits : ℕ
  blockSizeBits : ℕ

/-- A set and a way of it. -/
abbrev Place := ℕ × ℕ

structure CacheMemory where
  tagIndex : Addr → Option ℕ
  cache : Place → Option AbstractCacheEntry

inductive Fault
  | assertion
  | nullPointer
  | panic
deriving DecidableEq

def bitSelect (addr : Addr) (small big : ℕ) : Addr :=
  if 63 ≤ big then addr >>> small else (addr &&& ~~~(~~~(0 : Addr) <<< (big + 1))) >>> small

def maskLowOrderBits (addr : Addr) (number : ℕ) : Addr :=
  addr &&& if 63 ≤ number then ~~~(0 : Addr) else ~~~(0 : Addr) <<< number

variable (cfg : Config)

def makeLineAddress (addr : Addr) : Addr := maskLowOrderBits addr cfg.blockSizeBits

def addressToCacheSet (address : Addr) : ℕ :=
  (bitSelect address cfg.startIndexBit (cfg.startIndexBit + cfg.numSetBits - 1)).toNat

/-- The check that each operation starts with. -/
def assertLine (address : Addr) : Except Fault Unit :=
  if address = makeLineAddress cfg address then .ok () else .error .assertion

namespace CacheMemory

def findTagInSet (c : CacheMemory) (cacheSet : ℕ) (tag : Addr) : Except Fault (Option ℕ) :=
  match c.tagIndex tag with
  | none => .ok none
  | some way =>
    match c.cache (cacheSet, way) with
    | none => .error .nullPointer
    | some entry => .ok (if entry.permission ≠ .notPresent then some way else none)

def isTagPresent (c : CacheMemory) (address : Addr) : Except Fault Bool := do
  assertLine cfg address
  return (← c.findTagInSet (addressToCacheSet cfg address) address).isSome

def lookup (c : CacheMemory) (address : Addr) : Except Fault (Option AbstractCacheEntry) := do
  assertLine cfg address
  return (← c.findTagInSet (addressToCacheSet cfg address) address).bind fun way =>
    c.cache (addressToCacheSet cfg address, way)

/-- There is no entry, or one that may be replaced. -/
def isOpen (c : CacheMemory) (place : Place) : Bool := (c.cache place).all (·.permission = .notPresent)

def cacheAvail (c : CacheMemory) (address : Addr) : Bool :=
  (List.range cfg.assoc).any fun i =>
    (c.cache (addressToCacheSet cfg address, i)).all fun entry =>
      entry.address = address ∨ entry.permission = .notPresent

/-- The first open slot. -/
def slotFor (c : CacheMemory) (address : Addr) : Option Place :=
  ((List.range cfg.assoc).map (addressToCacheSet cfg address, ·)).find? c.isOpen

def allocate (c : CacheMemory) (address : Addr) : Except Fault CacheMemory := do
  if ← c.isTagPresent cfg address then .error .assertion
  else if c.cacheAvail cfg address then
    match c.slotFor cfg address with
    | none => .error .panic
    | some place =>
      .ok { tagIndex := update c.tagIndex address (some place.2)
            cache := update c.cache place (some ⟨address, .invalid⟩) }
  else .error .assertion

def deallocate (c : CacheMemory) (address : Addr) : Except Fault CacheMemory := do
  assertLine cfg address
  match ← c.findTagInSet (addressToCacheSet cfg address) address with
  | none => .error .assertion
  | some loc =>
    .ok { tagIndex := update c.tagIndex address none
          cache := update c.cache (addressToCacheSet cfg address, loc) none }

/-- `changePermission` of the entry that is stored at a place. -/
def changePermission (c : CacheMemory) (place : Place) (permission : AccessPermission) : Except Fault CacheMemory :=
  match c.cache place with
  | none => .error .nullPointer
  | some entry => .ok { c with cache := update c.cache place (some { entry with permission }) }

end CacheMemory

/-! ## Runs -/

inductive Op
  | allocate (address : Addr)
  | deallocate (address : Addr)
  | changePermission (place : Place) (permission : AccessPermission)

/-- Beside the cache stands the place into which each address was allocated, unless it has been deallocated
or displaced since, and the permission that was last given to what is at a place. -/
structure Run where
  cache : CacheMemory
  held : Addr → Option Place
  given : Place → AccessPermission

def Run.start : Run := ⟨⟨fun _ => none, fun _ => none⟩, fun _ => none, fun _ => .notPresent⟩

def Run.step (s : Run) : Op → Except Fault Run
  | .allocate a => do
    let c ← s.cache.allocate cfg a
    let place := s.cache.slotFor cfg a
    return ⟨c, fun b => if b = a then place else if s.held b = place then none else s.held b,
      fun l => if some l = place then .invalid else s.given l⟩
  | .deallocate a => return ⟨← s.cache.deallocate cfg a, update s.held a none, s.given⟩
  | .changePermission place permission =>
    return ⟨← s.cache.changePermission place permission, s.held, update s.given place permission⟩

/-- An allocation takes a way that is free or holds an old entry of the same line, and no other way does. -/
def Run.Spares (s : Run) : Op → Prop
  | .allocate a => ∀ way < cfg.assoc, ∀ entry ∈ s.cache.cache (addressToCacheSet cfg a, way),
      (s.cache.slotFor cfg a = some (addressToCacheSet cfg a, way) ↔ entry.address = a)
  | _ => True

instance (s : Run) : (op : Op) → Decidable (s.Spares cfg op)
  | .allocate _ => inferInstanceAs (Decidable (∀ way < cfg.assoc, ∀ entry ∈ _, _))
  | .deallocate _ | .changePermission _ _ => isTrue trivial

/-- What holds between the map, the ways and the history. -/
structure Run.Inv (s : Run) : Prop where
  tagIndex : ∀ a, s.cache.tagIndex a = (s.held a).map (·.2)
  inSet : ∀ a place, s.held a = some place → place.1 = addressToCacheSet cfg a ∧ place.2 < cfg.assoc
  stored : ∀ a place, s.held a = some place ↔ (s.cache.cache place).map (·.address) = some a
  permission : ∀ place e, s.cache.cache place = some e → e.permission = s.given place

namespace Run

variable {cfg} {s s' : Run}

theorem Inv.findTagInSet (h : s.Inv cfg) {a : Addr} : s.cache.findTagInSet (addressToCacheSet cfg a) a =
    .ok ((s.held a).bind fun place => if s.cache.isOpen place then none else some place.2) := by
  rw [CacheMemory.findTagInSet, h.tagIndex]
  cases hheld : s.held a with
  | none => rfl
  | some place =>
    obtain ⟨e, he, -⟩ := Option.map_eq_some_iff.1 ((h.stored a place).1 hheld)
    simp [← (h.inSet a place hheld).1, he, CacheMemory.isOpen]

theorem Inv.step {op : Op} (h : s.Inv cfg) (hop : s.Spares cfg op) (hs : s.step cfg op = .ok s') : s'.Inv cfg := by
  have hfind := @Inv.findTagInSet _ _ h
  obtain ⟨htag, hset, hstored, hperm⟩ := h
  cases op with
  | allocate a =>
    obtain ⟨c, hc, ⟨⟩⟩ := bind_eq_ok.1 hs
    obtain ⟨_, -, hc⟩ := bind_eq_ok.1 hc
    split at hc
    · cases hc
    split at hc
    · split at hc
      · cases hc
      rename_i place hplace
      cases hc
      have hin : place.1 = addressToCacheSet cfg a ∧ place.2 < cfg.assoc := by
        obtain ⟨way, hway, rfl⟩ := List.mem_map.1 (List.mem_of_find?_eq_some hplace)
        exact ⟨rfl, List.mem_range.1 hway⟩
      -- nothing but the line itself is displaced
      have hspare : ∀ b l, s.held b = some l → (l = place ↔ b = a) := by
        rintro b ⟨set, way⟩ hl
        obtain ⟨e, he, rfl⟩ := Option.map_eq_some_iff.1 ((hstored b _).1 hl)
        have := hop way (hset _ _ hl).2 e
        grind
      rw [hplace]
      constructor <;> simp only [update_apply] <;> grind
    · cases hc
  | deallocate a =>
    obtain ⟨c, hc, ⟨⟩⟩ := bind_eq_ok.1 hs
    obtain ⟨_, -, hc⟩ := bind_eq_ok.1 hc
    rw [hfind, ok_bind] at hc
    split at hc
    · cases hc
    rename_i way hway
    cases hc
    have hheld : s.held a = some (addressToCacheSet cfg a, way) := by
      obtain ⟨place, hplace, hway⟩ := Option.bind_eq_some_iff.1 hway
      grind
    constructor <;> simp only [update_apply] <;> grind
  | changePermission place p =>
    obtain ⟨c, hc, ⟨⟩⟩ := bind_eq_ok.1 hs
    rw [CacheMemory.changePermission] at hc
    split at hc
    · cases hc
    rename_i e he
    cases hc
    refine ⟨htag, hset, fun b l => ?_, fun l e' => ?_⟩
    · simp only [hstored, update_apply]
      split <;> simp_all
    · simp only [update_apply]
      grind

/-- What is at the place where an address is held. -/
theorem Inv.cache_eq (h : s.Inv cfg) {a : Addr} {place : Place} (hheld : s.held a = some place) :
    s.cache.cache place = some ⟨a, s.given place⟩ := by
  obtain ⟨e, he, rfl⟩ := Option.map_eq_some_iff.1 ((h.stored a place).1 hheld)
  rw [he, ← h.permission place e he]

/-- **Lookups in a run that spares the entries of other lines.**  They find the entry of the line asked for,
exactly if it is held and was not made `NotPresent`.  A line that is held is stored in its way, and no line is in
two ways. -/
theorem lookup_correct (h : Reaches (Run.step cfg) (Run.Spares cfg) Run.start s) :
    (∀ a, a = makeLineAddress cfg a → ∃ r, s.cache.lookup cfg a = .ok r ∧ (∀ e, r = some e → e.address = a) ∧
      (r ≠ none ↔ ∃ place, s.held a = some place ∧ s.given place ≠ .notPresent)) ∧
    (∀ a place, s.held a = some place → s.cache.cache place = some ⟨a, s.given place⟩) ∧
    ∀ place place' e e', s.cache.cache place = some e → s.cache.cache place' = some e' → e.address = e'.address →
      place = place' := by
  have hinv : s.Inv cfg := h.invariant ⟨fun _ => rfl, by simp [start], by simp [start], by simp [start]⟩
    fun _ h hop hs => h.step hop hs
  refine ⟨fun a ha => ?_, fun a place => hinv.cache_eq, fun place place' e e' he he' heq => ?_⟩
  · refine ⟨_, by rw [CacheMemory.lookup, assertLine, if_pos ha, hinv.findTagInSet]; rfl, ?_⟩
    cases hheld : s.held a with
    | none => simp
    | some place =>
      by_cases hp : s.given place = .notPresent <;>
        simp [← (hinv.inSet a place hheld).1, CacheMemory.isOpen, hinv.cache_eq hheld, hp]
  · have h1 := (hinv.stored e.address place).2 (by rw [he]; rfl)
    have h2 := (hinv.stored e.address place').2 (by rw [he', heq]; rfl)
    exact Option.some.inj (h1.symm.trans h2)

/-- Two ways in each of two sets of lines of 64 bytes. -/
def twoWays : Config := ⟨2, 6, 1, 6⟩

/-- Two lines of one set; the second is deallocated, and the first becomes `NotPresent` and is allocated again. -/
theorem lookup_correct_twoWays : ∃ s, Reaches (step twoWays) (Spares twoWays) start s ∧
    ∃ e, s.cache.lookup twoWays 128 = .ok (some e) ∧ e.address = 128 := by
  obtain ⟨s, hr, hheld, hgiven⟩ := exists_reaches (step twoWays) (Spares twoWays) start [.allocate 128, .allocate 256,
    .deallocate 256, .changePermission (0, 0) .notPresent, .allocate 128]
    (fun s => s.held 128 = some (0, 0) ∧ s.given (0, 0) = .invalid) (by decide +kernel)
  obtain ⟨r, hl, ha, hsome⟩ := (lookup_correct hr).1 128 (by decide)
  obtain ⟨e, rfl⟩ := Option.ne_none_iff_exists'.1 (hsome.2 ⟨_, hheld, by rw [hgiven]; decide⟩)
  exact ⟨s, hr, e, hl, ha e rfl⟩

/-- A line becomes `NotPresent`, another takes its way, and is found in its place. -/
theorem lookup_other : ∃ s, Reaches (step twoWays) (fun _ _ => True) start s ∧
    s.cache.lookup twoWays 128 = .ok (some ⟨256, .invalid⟩) := by
  obtain ⟨s, hr, hl⟩ := exists_reaches (step twoWays) (fun _ _ => True) start
    [.allocate 128, .changePermission (0, 0) .notPresent, .allocate 256]
    (fun s => (s.cache.lookup twoWays 128).toOption = some (some ⟨256, .invalid⟩)) (by decide +kernel)
  exact ⟨s, hr, eq_ok_of_toOption hl⟩

end Run

end GuardianCouncil.Ruby
