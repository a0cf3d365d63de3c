import Mathlib.Algebra.GroupWithZero.Nat
import GuardianCouncil.Lib.PrefixTree

/-!
# Prefix trees of linked nodes

The nodes of a tree of prefixes as a program keeps them: each points to its parent and has two slots for
kids.  `Good` is the consistency of the pointers together with the conditions on the prefixes, all of
them on a node and its neighbours.  It makes the nodes a `PrefixTree` (`Good.tree`), and it is kept by
four edits: a leaf is hung up (`Good.addLeaf`), a node is put between a node and its kid (`Good.split`),
a node with one kid is taken out (`Good.splice`), and a leaf is (`Good.dropLeaf`, `Good.dropFirst`).
-/

@[ext] structure Links (ι : Type*) where
  alloc : ι → Prop
  parent : ι → Option ι
  kid : ι → Fin 2 → Option ι
  len : ι → ℕ
  bit : ι → ℕ → Bool

namespace Links

open Function

/-- The numbers of the two slots are written as numerals. -/
scoped instance neZeroTwo : NeZero 2 := ⟨by decide⟩

variable {ι : Type*} (L : Links ι)

section

variable [DecidableEq ι]

def setKid (p : ι) (i : Fin 2) (c : Option ι) : Links ι :=
  { L with kid := update L.kid p (update (L.kid p) i c) }

def setParent (c : ι) (p : Option ι) : Links ι := { L with parent := update L.parent c p }

/-- A new node without kids. -/
def add (x : ι) (p : Option ι) (len : ℕ) (bit : ℕ → Bool) : Links ι where
  alloc := update L.alloc x True
  parent := update L.parent x p
  kid := update L.kid x fun _ => none
  len := update L.len x len
  bit := update L.bit x bit

def drop (x : ι) : Links ι where
  alloc := update L.alloc x False
  parent := update L.parent x none
  kid := update L.kid x fun _ => none
  len := update L.len x 0
  bit := update L.bit x fun _ => false

variable (p x q : ι) (i j : Fin 2) (c : Option ι) (len k : ℕ) (bit : ℕ → Bool)

@[grind =] theorem setKid_alloc : (L.setKid p i c).alloc q = L.alloc q := rfl

@[grind =] theorem setKid_parent : (L.setKid p i c).parent q = L.parent q := rfl

@[grind =] theorem setKid_len : (L.setKid p i c).len q = L.len q := rfl

@[grind =] theorem setKid_bit : (L.setKid p i c).bit q k = L.bit q k := rfl

@[grind =] theorem setKid_kid : (L.setKid p i c).kid q j = if q = p ∧ j = i then c else L.kid q j := by
  by_cases hq : q = p
  · subst hq
    simp [setKid, update_apply]
  · simp [setKid, hq]

theorem setKid_setKid (a b : Option ι) : (L.setKid p i a).setKid p i b = L.setKid p i b := by
  simp [setKid]

@[grind =] theorem setParent_alloc : (L.setParent p c).alloc q = L.alloc q := rfl

@[grind =] theorem setParent_kid : (L.setParent p c).kid q j = L.kid q j := rfl

@[grind =] theorem setParent_len : (L.setParent p c).len q = L.len q := rfl

@[grind =] theorem setParent_bit : (L.setParent p c).bit q k = L.bit q k := rfl

@[grind =] theorem setParent_parent : (L.setParent p c).parent q = if q = p then c else L.parent q :=
  update_apply ..

@[grind =] theorem add_alloc : (L.add x c len bit).alloc q ↔ q = x ∨ L.alloc q := by
  by_cases hq : q = x <;> simp [add, hq]

@[grind =] theorem add_parent : (L.add x c len bit).parent q = if q = x then c else L.parent q :=
  update_apply ..

@[grind =] theorem add_kid : (L.add x c len bit).kid q j = if q = x then none else L.kid q j := by
  simp only [add, update_apply]
  split <;> rfl

@[grind =] theorem add_len : (L.add x c len bit).len q = if q = x then len else L.len q :=
  update_apply ..

@[grind =] theorem add_bit : (L.add x c len bit).bit q k = if q = x then bit k else L.bit q k := by
  simp only [add, update_apply]
  split <;> rfl

@[grind =] theorem drop_alloc : (L.drop x).alloc q ↔ q ≠ x ∧ L.alloc q := by
  by_cases hq : q = x <;> simp [drop, hq]

@[grind =] theorem drop_parent : (L.drop x).parent q = if q = x then none else L.parent q :=
  update_apply ..

@[grind =] theorem drop_kid : (L.drop x).kid q j = if q = x then none else L.kid q j := by
  simp only [drop, update_apply]
  split <;> rfl

@[grind =] theorem drop_len : (L.drop x).len q = if q = x then 0 else L.len q :=
  update_apply ..

@[grind =] theorem drop_bit : (L.drop x).bit q k = if q = x then false else L.bit q k := by
  simp only [drop, update_apply]
  split <;> rfl

end

structure Good (root : ι) : Prop where
  alloc_root : L.alloc root
  len_root : L.len root = 0
  parent_root : L.parent root = none
  orphan : ∀ {c}, L.alloc c → L.parent c = none → c = root
  up : ∀ {c p}, L.alloc c → L.parent c = some p → L.kid p 0 = some c ∨ L.kid p 1 = some c
  alloc_parent : ∀ {p i c}, L.kid p i = some c → L.alloc p
  alloc_kid : ∀ {p i c}, L.kid p i = some c → L.alloc c
  down : ∀ {p i c}, L.kid p i = some c → L.parent c = some p
  len_lt : ∀ {p i c}, L.kid p i = some c → L.len p < L.len c
  bit_eq : ∀ {p i c}, L.kid p i = some c → ∀ k < L.len p, L.bit p k = L.bit c k
  /-- Two kids differ in the first bit after the prefix. -/
  fork : ∀ {p a b}, L.kid p 0 = some a → L.kid p 1 = some b → L.bit a (L.len p) ≠ L.bit b (L.len p)
  /-- A lone kid is in the first slot. -/
  lone : ∀ {p}, L.kid p 0 = none → L.kid p 1 = none

namespace Good

variable {L} {root p q x c : ι} {i j : Fin 2} {len : ℕ} {bit : ℕ → Bool}

/-- A root and nothing else. -/
theorem single (ha : ∀ c, L.alloc c ↔ c = root) (hlen : L.len root = 0)
    (hparent : L.parent root = none) (hkid : ∀ p i, L.kid p i = none) : L.Good root := by
  constructor <;> grind

/-- A node is in one slot only. -/
theorem slot_unique (h : L.Good root) (hc : L.kid p i = some c) (hc' : L.kid q j = some c) : p = q ∧ i = j := by
  have hpq : p = q := Option.some.inj ((h.down hc).symm.trans (h.down hc'))
  subst hpq
  refine ⟨rfl, ?_⟩
  have hi : i = 0 ∨ i = 1 := by omega
  have hj : j = 0 ∨ j = 1 := by omega
  rcases hi with rfl | rfl <;> rcases hj with rfl | rfl
  · rfl
  · exact absurd rfl (h.fork hc hc')
  · exact absurd rfl (h.fork hc' hc)
  · rfl

theorem kid_ne (h : L.Good root) (hc : L.kid p i = some c) : c ≠ p := by
  rintro rfl
  exact lt_irrefl _ (h.len_lt hc)

/-- The nodes as a tree of prefixes. -/
def tree (h : L.Good root) : PrefixTree ι where
  mem := L.alloc
  root := root
  up c p := ∃ i, L.kid p i = some c
  len := L.len
  bit := L.bit
  len_root := h.len_root
  exists_up := by
    intro c hc hne
    rcases hp : L.parent c with - | p
    · exact absurd (h.orphan hc hp) hne
    · rcases h.up hc hp with hkid | hkid
      · exact ⟨p, ⟨0, hkid⟩, h.alloc_parent hkid⟩
      · exact ⟨p, ⟨1, hkid⟩, h.alloc_parent hkid⟩
  len_lt := fun ⟨_, hc⟩ => h.len_lt hc
  bit_eq := fun ⟨_, hc⟩ => h.bit_eq hc
  fork := by
    rintro c c' p ⟨i, hc⟩ ⟨j, hc'⟩ hbit
    have hi : i = 0 ∨ i = 1 := by omega
    have hj : j = 0 ∨ j = 1 := by omega
    grind [h.fork]

/-! ### The edits

Each proof first says which links there are afterwards. -/

section

variable [DecidableEq ι] (h : L.Good root)
include h

theorem addLeaf (hp : L.alloc p) (hx : ¬ L.alloc x) (hi : L.kid p i = none)
    (hsl : i = 1 → L.kid p 0 ≠ none) (hlen : L.len p < len) (hbit : ∀ k < L.len p, L.bit p k = bit k)
    (hf : ∀ j c, L.kid p j = some c → L.bit c (L.len p) ≠ bit (L.len p)) :
    ((L.add x (some p) len bit).setKid p i (some x)).Good root := by
  have hca : i = 0 ∨ i = 1 := by omega
  have hxp : p ≠ x := fun hpx => hx (hpx ▸ hp)
  have hkid : ∀ {q j d}, ((L.add x (some p) len bit).setKid p i (some x)).kid q j = some d →
      q = p ∧ j = i ∧ d = x ∨ L.kid q j = some d ∧ q ≠ x ∧ d ≠ x := by
    intro q j d hd
    have hd' := @h.alloc_kid q j d
    grind
  constructor
  case alloc_root => grind [h.alloc_root]
  case len_root => grind [h.alloc_root, h.len_root]
  case parent_root => grind [h.alloc_root, h.parent_root]
  case orphan => grind [h.orphan]
  case up =>
    intro d q hd hq
    have hup := @h.up d q
    have hqx := @h.alloc_parent q
    grind
  case alloc_parent => grind [h.alloc_parent]
  case alloc_kid => grind [h.alloc_kid]
  case down => grind [h.down]
  case len_lt =>
    intro q j d hd
    rcases hkid hd with ⟨rfl, rfl, rfl⟩ | ⟨hd, hq, hd'⟩
    · grind
    · have hlt := h.len_lt hd
      grind
  case bit_eq =>
    intro q j d hd
    rcases hkid hd with ⟨rfl, rfl, rfl⟩ | ⟨hd, hq, hd'⟩
    · grind
    · have heq := h.bit_eq hd
      grind
  case fork => grind [h.fork]
  case lone => grind [h.lone]

/-- A new node between a node and its kid. -/
theorem split (hc : L.kid p i = some c) (hx : ¬ L.alloc x) (hlen : L.len p < len)
    (hlen' : len < L.len c) (hbit : ∀ k < len, bit k = L.bit c k) :
    ((((L.add x (some p) len bit).setParent c (some x)).setKid x 0 (some c)).setKid p i (some x)).Good
      root := by
  have hp := h.alloc_parent hc
  have hc' := h.alloc_kid hc
  have hca : i = 0 ∨ i = 1 := by omega
  have hxp : p ≠ x := fun hpx => hx (hpx ▸ hp)
  have hkid : ∀ {q j d},
      ((((L.add x (some p) len bit).setParent c (some x)).setKid x 0 (some c)).setKid p i (some x)).kid
        q j = some d →
      q = p ∧ j = i ∧ d = x ∨ q = x ∧ j = 0 ∧ d = c ∨ L.kid q j = some d ∧ q ≠ x ∧ d ≠ x ∧ d ≠ c := by
    intro q j d hd
    have hd' := @h.alloc_kid q j d
    have hsl := @slot_unique _ _ _ _ q c i j h hc
    grind
  constructor
  case alloc_root => grind [h.alloc_root]
  case len_root => grind [h.alloc_root, h.len_root]
  case parent_root => grind [h.alloc_root, h.parent_root, h.down hc]
  case orphan => grind [h.orphan]
  case up =>
    intro d q hd hq
    have hup := @h.up d q
    have hqx := @h.alloc_parent q
    have hdo := h.down hc
    grind
  case alloc_parent => grind [h.alloc_parent]
  case alloc_kid => grind [h.alloc_kid]
  case down =>
    intro q j d hd
    have hdo := @h.down q j d
    grind
  case len_lt =>
    intro q j d hd
    have hlt := @h.len_lt q j d
    grind
  case bit_eq =>
    intro q j d hd
    have heq := @h.bit_eq q j d
    have heq' := h.bit_eq hc
    grind
  case fork =>
    intro q a b ha hb
    have hf := @h.fork q
    have hpc := h.len_lt hc
    grind
  case lone => grind [h.lone]

/-- The kid of a node with one kid takes its place. -/
theorem splice (hx : L.kid p i = some x) (hc : L.kid x 0 = some c) (hone : L.kid x 1 = none) :
    (((L.setParent c (some p)).setKid p i (some c)).drop x).Good root := by
  have hca : i = 0 ∨ i = 1 := by omega
  have hpx := h.kid_ne hx
  have hcx := h.kid_ne hc
  have hkid : ∀ {q j d}, (((L.setParent c (some p)).setKid p i (some c)).drop x).kid q j = some d →
      q = p ∧ j = i ∧ d = c ∨ L.kid q j = some d ∧ q ≠ x ∧ d ≠ x ∧ d ≠ c := by
    intro q j d hd
    have hsl := @slot_unique _ _ _ _ q x i j h hx
    have hs' := @slot_unique _ _ _ _ q c 0 j h hc
    grind
  have hlt := h.len_lt hx
  have hlt' := h.len_lt hc
  constructor
  case alloc_root => grind [h.alloc_root, h.parent_root, h.down hx]
  case len_root => grind [h.len_root]
  case parent_root => grind [h.parent_root, h.down hc]
  case orphan => grind [h.orphan]
  case up =>
    intro d q hd hq
    have hup := @h.up d q
    grind
  case alloc_parent => grind [h.alloc_parent]
  case alloc_kid => grind [h.alloc_kid]
  case down =>
    intro q j d hd
    have hdo := @h.down q j d
    grind
  case len_lt =>
    intro q j d hd
    have hlt'' := @h.len_lt q j d
    grind
  case bit_eq =>
    intro q j d hd
    have heq := @h.bit_eq q j d
    have hxb := h.bit_eq hx
    have hcb := h.bit_eq hc
    grind
  case fork =>
    intro q a b ha hb
    have hf := @h.fork q
    have hcb := h.bit_eq hc
    grind
  case lone => grind [h.lone]

/-- A leaf goes that is no first kid with a second one beside it. -/
theorem dropLeaf (hx : L.kid p i = some x) (hlea : L.kid x 0 = none)
    (hla : i = 0 → L.kid p 1 = none) : ((L.setKid p i none).drop x).Good root := by
  have hca : i = 0 ∨ i = 1 := by omega
  have hpx := h.kid_ne hx
  have hkid : ∀ {q j d}, ((L.setKid p i none).drop x).kid q j = some d → L.kid q j = some d ∧ q ≠ x ∧ d ≠ x := by
    intro q j d hd
    have hsl := @slot_unique _ _ _ _ q x i j h hx
    grind
  have hn := h.lone hlea
  constructor
  case alloc_root => grind [h.alloc_root, h.parent_root, h.down hx]
  case len_root => grind [h.len_root]
  case parent_root => grind [h.parent_root]
  case orphan => grind [h.orphan]
  case up =>
    intro d q hd hq
    have hup := @h.up d q
    grind
  case alloc_parent => grind [h.alloc_parent]
  case alloc_kid => grind [h.alloc_kid]
  case down => grind [h.down]
  case len_lt =>
    intro q j d hd
    have hlt := @h.len_lt q j d
    grind
  case bit_eq =>
    intro q j d hd
    have heq := @h.bit_eq q j d
    grind
  case fork =>
    intro q a b ha hb
    have hf := @h.fork q
    grind
  case lone => grind [h.lone]

/-- Two kids change places. -/
theorem swap {b : ι} (hx : L.kid p 0 = some x) (hb : L.kid p 1 = some b) :
    ((L.setKid p 0 (some b)).setKid p 1 (some x)).Good root := by
  have hkid {q j d} (hd : ((L.setKid p 0 (some b)).setKid p 1 (some x)).kid q j = some d) : ∃ j, L.kid q j = some d := by
    grind
  refine ⟨h.alloc_root, h.len_root, h.parent_root, h.orphan, fun hc hq => ?_, fun hd => h.alloc_parent (hkid hd).choose_spec,
    fun hd => h.alloc_kid (hkid hd).choose_spec, fun hd => h.down (hkid hd).choose_spec,
    fun hd => h.len_lt (hkid hd).choose_spec, fun hd => h.bit_eq (hkid hd).choose_spec, ?_, ?_⟩
  · have hup := h.up hc hq
    grind
  all_goals grind [h.fork, h.lone]

/-- A leaf goes that is the first kid, and the second one moves up. -/
theorem dropFirst {b : ι} (hx : L.kid p 0 = some x) (hlea : L.kid x 0 = none)
    (hb : L.kid p 1 = some b) : (((L.setKid p 0 (some b)).setKid p 1 none).drop x).Good root := by
  have hpx := h.kid_ne hx
  rw [← setKid_setKid _ p 1 (some x)]
  exact (h.swap hx hb).dropLeaf (by grind) (by grind) nofun

end

end Good
end Links
