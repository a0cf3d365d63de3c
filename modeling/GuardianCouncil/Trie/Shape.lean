import GuardianCouncil.Trie.Trie

/-!
# The shape of the trie

What the heap holds is seen in two ways.  `links` are the pointers and the prefixes, and `stored` the values
with the prefixes they are stored under.  Every write of `insert` and `remove` changes one of the two in
one place.  A node that `remove` has unlinked stays in the heap until the removal of its parent is over;
both views leave such nodes out.

`Inv` is what holds between operations.
-/

namespace GuardianCouncil.Trie

open Function

open scoped Links

variable {w : Nat} {Value : Type}

namespace Node

variable (n : Node w Value)

abbrev len : Nat := n.mask.len

abbrev bit (i : Nat) : Bool := n.key.getMsbD i

theorem accepts_iff (test : BitVec w) : n.accepts test = true ↔ ∀ i < n.len, n.bit i = test.getMsbD i := by
  rw [accepts, beq_iff_eq, ← n.key_and_mask, n.mask.and_bits_eq_iff]
  exact forall₂_congr fun _ _ => eq_comm

end Node

/-- A value with the prefix it is stored under. -/
structure Entry (w : Nat) (Value : Type) where
  key : BitVec w
  width : Nat
  value : Value
deriving DecidableEq

/-- The entry is stored under a prefix of the key. -/
def Entry.IsPrefixOf (e : Entry w Value) (key : BitVec w) : Prop :=
  ∀ i < e.width, e.key.getMsbD i = key.getMsbD i

def Node.entry (n : Node w Value) : Option (Entry w Value) := n.value.map fun v => ⟨n.key, n.len, v⟩

namespace Heap

variable (s : Heap w Value) (unlinked : List Handle)

/-- The nodes that are part of the trie. -/
def linked (c : Handle) : Option (Node w Value) := if c ∈ unlinked then none else s.nodes c

def links : Links Handle where
  alloc c := (s.linked unlinked c).isSome
  parent c := (s.linked unlinked c).bind (·.parent)
  kid c i := (s.linked unlinked c).bind (·.kids i)
  len c := (s.linked unlinked c).elim 0 (·.len)
  bit c := (s.linked unlinked c).elim (fun _ => false) (·.bit)

def stored (c : Handle) : Option (Entry w Value) := (s.linked unlinked c).bind (·.entry)

variable {s unlinked} {p c x : Handle} {n : Node w Value} {i : Fin 2}

theorem linked_nil : s.linked [] = s.nodes := by
  funext c
  simp [linked]

theorem deref_of_linked (h : s.linked unlinked p = some n) : s.deref p = .ok n := by
  have hn : s.nodes p = some n := by
    unfold linked at h
    grind
  rw [deref, hn]

theorem linked_of_alloc (h : (s.links unlinked).alloc p) : ∃ n, s.linked unlinked p = some n :=
  Option.isSome_iff_exists.1 h

section

variable (h : s.linked unlinked p = some n)

include h

theorem alloc_of_linked : (s.links unlinked).alloc p := by
  simp [links, h]

theorem parent_of_linked : (s.links unlinked).parent p = n.parent := by
  simp [links, h]

theorem kid_of_linked : (s.links unlinked).kid p i = n.kids i := by
  simp [links, h]

theorem len_of_linked : (s.links unlinked).len p = n.len := by
  simp [links, h]

theorem bit_of_linked : (s.links unlinked).bit p = n.bit := by
  simp [links, h]

theorem stored_of_linked : s.stored unlinked p = n.entry := by
  simp [stored, h]

end

/-- A kid is there and passes a test, or it is not. -/
theorem kidIf_spec {root : Handle} (hgood : (s.links unlinked).Good root)
    (hp : s.linked unlinked p = some n) (i : Fin 2) (test : Node w Value → Bool) :
    ∃ r, s.kidIf (n.kids i) test = .ok r ∧ (∀ c, r = some c → ∃ nc, (s.links unlinked).kid p i = some c ∧
        s.linked unlinked c = some nc ∧ test nc = true) ∧
      (r = none → ∀ c nc, (s.links unlinked).kid p i = some c → s.linked unlinked c = some nc → test nc = false) := by
  have hkid := kid_of_linked (i := i) hp
  cases hk : n.kids i with
  | none => exact ⟨none, rfl, by simp, by simp [hkid, hk]⟩
  | some c =>
    rw [hk] at hkid
    obtain ⟨nc, hc⟩ := linked_of_alloc (hgood.alloc_kid hkid)
    refine ⟨if test nc then some c else none, ?_, ?_, ?_⟩
    · simp [kidIf, deref_of_linked hc]
    · grind
    · grind

/-! ## The writes -/

theorem linked_modify (f : Node w Value → Node w Value) (h : s.linked unlinked p = some n) :
    (s.modify p f).linked unlinked = update (s.linked unlinked) p (some (f n)) := by
  funext c
  by_cases hc : c = p
  · subst hc
    have hin : c ∉ unlinked := by
      unfold linked at h
      grind
    rw [linked, if_neg hin] at h
    simp [linked, modify, hin, h]
  · simp [linked, modify, hc]

theorem linked_delete (s : Heap w Value) (unlinked : List Handle) (p : Handle) :
    (s.delete p).linked unlinked = s.linked (p :: unlinked) := by
  funext c
  by_cases hc : c = p
  · simp [linked, delete, hc]
  · simp [linked, delete, hc]

theorem linked_cons (s : Heap w Value) (unlinked : List Handle) (p : Handle) :
    s.linked (p :: unlinked) = update (s.linked unlinked) p none := by
  funext c
  by_cases hc : c = p
  · simp [linked, hc]
  · simp [linked, hc]

theorem linked_new (n : Node w Value) (h : s.next ∉ unlinked) :
    (s.new n).linked unlinked = update (s.linked unlinked) s.next (some n) := by
  funext c
  by_cases hc : c = s.next
  · simp [linked, new, hc, h]
  · simp [linked, new, hc]

section

variable (h : s.linked unlinked p = some n)
include h

theorem links_setKid (i : Fin 2) (c : Option Handle) :
    (s.modify p (·.setKid i c)).links unlinked = (s.links unlinked).setKid p i c := by
  rw [links, linked_modify _ h]
  ext q <;> by_cases hq : q = p
  all_goals simp [links, Links.setKid, Node.setKid, hq, h]

theorem links_setParent (c : Option Handle) :
    (s.modify p (·.setParent c)).links unlinked = (s.links unlinked).setParent p c := by
  rw [links, linked_modify _ h]
  ext q <;> by_cases hq : q = p
  all_goals simp [links, Links.setParent, Node.setParent, hq, h]

theorem links_setValue (v : Option Value) : (s.modify p (·.setValue v)).links unlinked = s.links unlinked := by
  rw [links, linked_modify _ h]
  ext q <;> by_cases hq : q = p
  all_goals simp [links, Node.setValue, hq, h]

end

theorem links_new (h : s.next ∉ unlinked) (hki : ∀ i, n.kids i = none) :
    (s.new n).links unlinked = (s.links unlinked).add s.next n.parent n.len n.bit := by
  rw [links, linked_new _ h]
  ext q <;> by_cases hq : q = s.next
  all_goals simp [links, Links.add, hq, hki]

theorem links_cons (s : Heap w Value) (unlinked : List Handle) (p : Handle) :
    s.links (p :: unlinked) = (s.links unlinked).drop p := by
  rw [links, linked_cons]
  ext q <;> by_cases hq : q = p
  all_goals simp [links, Links.drop, hq]

theorem links_delete (s : Heap w Value) (unlinked : List Handle) (p : Handle) :
    (s.delete p).links unlinked = s.links (p :: unlinked) := by
  rw [links, linked_delete, links]

/-- A write that leaves prefix and value alone changes nothing that is stored. -/
theorem stored_modify {f : Node w Value → Node w Value} (h : s.linked unlinked p = some n)
    (hf : (f n).entry = n.entry) : (s.modify p f).stored unlinked = s.stored unlinked := by
  funext q
  rw [stored, linked_modify _ h]
  by_cases hq : q = p
  all_goals simp [stored, hq, h, hf]

theorem stored_setValue (h : s.linked unlinked p = some n) (v : Option Value) :
    (s.modify p (·.setValue v)).stored unlinked = update (s.stored unlinked) p (v.map fun v => ⟨n.key, n.len, v⟩) := by
  funext q
  rw [stored, linked_modify _ h]
  by_cases hq : q = p
  all_goals simp [stored, Node.setValue, Node.entry, hq]

theorem stored_new (h : s.next ∉ unlinked) : (s.new n).stored unlinked = update (s.stored unlinked) s.next n.entry := by
  funext q
  rw [stored, linked_new _ h]
  by_cases hq : q = s.next
  all_goals simp [stored, hq]

theorem stored_cons (s : Heap w Value) (unlinked : List Handle) (p : Handle) :
    s.stored (p :: unlinked) = update (s.stored unlinked) p none := by
  funext q
  rw [stored, linked_cons]
  by_cases hq : q = p
  all_goals simp [stored, hq]

theorem stored_delete (s : Heap w Value) (unlinked : List Handle) (p : Handle) :
    (s.delete p).stored unlinked = s.stored (p :: unlinked) := by
  funext q
  rw [stored, linked_delete, stored]

end Heap

/-! ## The invariant -/

/-- Every node without a value, the root and perhaps one other apart, has two kids. -/
def Full (L : Links Handle) (stored : Handle → Option (Entry w Value)) (but : Handle → Prop) : Prop :=
  ∀ c, c ≠ 0 → ¬ but c → L.alloc c → stored c = none → L.kid c 1 ≠ none

/-- Pointers that `new` has not returned yet point to no node. -/
def Fresh (s : Heap w Value) : Prop := ∀ c, s.next ≤ c → s.nodes c = none

variable {s : Heap w Value}

theorem Fresh.new (h : Fresh s) (n : Node w Value) : Fresh (s.new n) := by
  intro c hc
  change s.next < c at hc
  change update s.nodes s.next (some n) c = none
  rw [update_of_ne (ne_of_gt hc)]
  exact h c (le_of_lt hc)

theorem Fresh.modify (h : Fresh s) (p : Handle) (f : Node w Value → Node w Value) : Fresh (s.modify p f) := by
  intro c hc
  change update s.nodes p _ c = none
  rw [update_apply]
  split_ifs with hcp
  · rw [← hcp, h c hc]
    rfl
  · exact h c hc

theorem Fresh.next_not_alloc (h : Fresh s) : ¬ (s.links []).alloc s.next := by
  intro ha
  obtain ⟨n, hn⟩ := Heap.linked_of_alloc ha
  rw [Heap.linked_nil, h _ le_rfl] at hn
  cases hn

theorem Fresh.ne_next (h : Fresh s) {p : Handle} {n : Node w Value} (hp : s.linked [] p = some n) : p ≠ s.next :=
  fun heq => h.next_not_alloc (heq ▸ Heap.alloc_of_linked hp)

structure Inv (s : Heap w Value) : Prop where
  good : (s.links []).Good 0
  full : Full (s.links []) (s.stored []) fun _ => False
  fresh : Fresh s

theorem inv_init : Inv (Heap.init w Value) := by
  have hli : ∀ c, (Heap.init w Value).linked [] c =
      if c = 0 then some (Node.make 0 (.zero w) none) else none := by
    simp [Heap.linked, Heap.init, update_apply]
  refine ⟨Links.Good.single ?_ ?_ ?_ ?_, ?_, ?_⟩
  · intro c
    by_cases hc : c = 0 <;> simp [Heap.links, hli, hc]
  · simp [Heap.links, hli, Node.make, PrefixMask.zero]
  · simp [Heap.links, hli, Node.make]
  · intro c i
    by_cases hc : c = 0 <;> simp [Heap.links, hli, hc, Node.make]
  · intro c hc _ ha
    simp [Heap.links, hli, hc] at ha
  · intro c hc
    have hc' : c ≠ 0 := by
      rintro rfl
      exact Nat.not_succ_le_zero 0 hc
    simp [Heap.init, hc']

end GuardianCouncil.Trie
