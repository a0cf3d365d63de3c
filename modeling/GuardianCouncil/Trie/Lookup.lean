import GuardianCouncil.Trie.Shape

/-!
# Lookup

`lookup` goes down from the root to the kid that matches the key, and stops at the first node with a value.
Every node with a value under a prefix of the key stays below the node it is at, so the first one it meets
has the shortest prefix.
-/

namespace GuardianCouncil.Trie

open Fallible
open scoped Links

variable {w : Nat} {Value : Type} {s : Heap w Value}

/-- What a lookup is to return: the value of the shortest prefix of the key that is stored. -/
def IsShortest (Stored : Handle → Entry w Value → Prop) (key : BitVec w) : Option Value → Prop
  | none => ∀ h e, Stored h e → ¬ e.IsPrefixOf key
  | some v => ∃ h e, Stored h e ∧ e.IsPrefixOf key ∧ e.value = v ∧
      ∀ h' e', Stored h' e' → e'.IsPrefixOf key → e.width ≤ e'.width

namespace Heap

section Good

variable (hgood : (s.links []).Good 0) {p c : Handle} {n : Node w Value} {key : BitVec w}

theorem matches_iff {f : Nat → Bool} (hc : s.linked [] c = some n) :
    hgood.tree.Matches c f ↔ ∀ i < n.len, n.bit i = f i := by
  change (∀ i < (s.links []).len c, (s.links []).bit c i = f i) ↔ _
  rw [len_of_linked hc, bit_of_linked hc]

variable {e : Entry w Value}

theorem linked_of_stored (h : s.stored [] c = some e) :
    ∃ n, s.linked [] c = some n ∧ n.value = some e.value ∧ n.key = e.key ∧ n.len = e.width := by
  obtain ⟨n, hn, he⟩ := Option.bind_eq_some_iff.1 h
  obtain ⟨v, hv, rfl⟩ := Option.map_eq_some_iff.1 he
  exact ⟨n, hn, hv, rfl, rfl⟩

/-- An entry's prefix is that of its node. -/
theorem matches_of_stored (h : s.stored [] c = some e) : hgood.tree.Matches c (key.getMsbD ·) ↔ e.IsPrefixOf key := by
  obtain ⟨n, hn, -, hkey, hwi⟩ := linked_of_stored h
  rw [matches_iff hgood hn, Entry.IsPrefixOf, ← hkey, ← hwi]

theorem len_of_stored (h : s.stored [] c = some e) : hgood.tree.len c = e.width := by
  obtain ⟨n, hn, -, -, hwi⟩ := linked_of_stored h
  rw [← hwi]
  exact len_of_linked hn

/-- What a search is to find. -/
def IsFirst (s : Heap w Value) (key : BitVec w) : Option Handle → Prop
  | none => ∀ c e, s.stored [] c = some e → ¬ e.IsPrefixOf key
  | some c => ∃ e, s.stored [] c = some e ∧ e.IsPrefixOf key ∧
      ∀ c' e', s.stored [] c' = some e' → e'.IsPrefixOf key → e.width ≤ e'.width

theorem lookupHandle_spec (fuel : Nat) (hp : s.linked [] p = some n) (hf : w < fuel + n.len)
    (hm : hgood.tree.Matches p (key.getMsbD ·))
    (hbe : ∀ c e, s.stored [] c = some e → e.IsPrefixOf key → hgood.tree.Prefix p c) :
    ∃ r, s.lookupHandle key fuel p = .ok r ∧ s.IsFirst key r := by
  -- the prefix of the node gets longer in every round, and all that matches stays below the node
  induction fuel generalizing p n with
  | zero =>
    have hle : n.len ≤ w := n.mask.len_le
    omega
  | succ fuel ih =>
    rw [lookupHandle, deref_of_linked hp, ok_bind]
    rcases hv : n.value with - | v
    · have hst : s.stored [] p = none := by
        rw [stored_of_linked hp, Node.entry, hv]
        rfl
      have hne : ∀ c e, s.stored [] c = some e → p ≠ c := by
        rintro c e hc rfl
        rw [hst] at hc
        cases hc
      -- the step to a kid that matches
      have hd : ∀ i c, (s.links []).kid p i = some c → hgood.tree.Matches c (key.getMsbD ·) →
          ∃ r, s.lookupHandle key fuel c = .ok r ∧ s.IsFirst key r := by
        intro i c hc hcm
        obtain ⟨nc, hnc⟩ := linked_of_alloc (hgood.alloc_kid hc)
        have hlt := hgood.len_lt hc
        rw [len_of_linked hp, len_of_linked hnc] at hlt
        refine ih hnc (by omega) hcm fun c' e hc' he => ?_
        obtain ⟨n', hn', -⟩ := linked_of_stored hc'
        exact PrefixTree.prefix_of_child (alloc_of_linked hp) ⟨i, hc⟩ hcm (alloc_of_linked hn')
          ((matches_of_stored hgood hc').2 he) (hbe c' e hc' he) (hne c' e hc')
      have ha : ∀ {c nc}, s.linked [] c = some nc →
          (nc.accepts key = true ↔ hgood.tree.Matches c (key.getMsbD ·)) := fun hc => by
        rw [Node.accepts_iff, matches_iff hgood hc]
      obtain ⟨r₀, hr₀, hs₀, hn₀⟩ := kidIf_spec hgood hp 0 (·.accepts key)
      obtain ⟨r₁, hr₁, hs₁, hn₁⟩ := kidIf_spec hgood hp 1 (·.accepts key)
      rw [if_neg (by simp), hr₀, ok_bind]
      rcases r₀ with - | c
      · rw [hr₁, ok_bind]
        rcases r₁ with - | c
        · refine ⟨none, rfl, fun c e hc he => ?_⟩
          obtain ⟨n', hn', -⟩ := linked_of_stored hc
          refine hne c e hc (PrefixTree.eq_of_no_child (alloc_of_linked hp) ?_ (alloc_of_linked hn')
            ((matches_of_stored hgood hc).2 he) (hbe c e hc he))
          rintro c' ⟨i, hc'⟩
          obtain ⟨nc, hnc⟩ := linked_of_alloc (hgood.alloc_kid hc')
          rw [← ha hnc, Bool.not_eq_true]
          have hi : i = 0 ∨ i = 1 := by omega
          rcases hi with rfl | rfl
          · exact hn₀ rfl c' nc hc' hnc
          · exact hn₁ rfl c' nc hc' hnc
        · obtain ⟨nc, hc, hnc, hacc⟩ := hs₁ c rfl
          exact hd 1 c hc ((ha hnc).1 hacc)
      · obtain ⟨nc, hc, hnc, hacc⟩ := hs₀ c rfl
        exact hd 0 c hc ((ha hnc).1 hacc)
    · have hst : s.stored [] p = some ⟨n.key, n.len, v⟩ := by
        rw [stored_of_linked hp, Node.entry, hv]
        rfl
      refine ⟨some p, rfl, _, hst, (matches_of_stored hgood hst).1 hm, ?_⟩
      intro c' e' hc' he'
      rw [← len_of_stored hgood hc', ← len_of_stored hgood hst]
      exact (hbe c' e' hc' he').1

include hgood in
theorem lookup_spec (key : BitVec w) :
    ∃ r, s.lookup key = .ok r ∧ IsShortest (fun h e => s.stored [] h = some e) key r := by
  obtain ⟨root, hro⟩ := linked_of_alloc hgood.alloc_root
  obtain ⟨r, hr, hf⟩ := lookupHandle_spec hgood (w + 1) hro (by omega)
    (PrefixTree.matches_root (T := hgood.tree) _) (fun c _ _ _ => PrefixTree.prefix_root c)
  rcases r with - | c
  · refine ⟨none, ?_, hf⟩
    rw [lookup, hr]
    rfl
  obtain ⟨e, he, hpre, hmin⟩ := hf
  obtain ⟨n, hn, hv, -⟩ := linked_of_stored he
  refine ⟨some e.value, ?_, c, e, he, hpre, rfl, hmin⟩
  rw [lookup, hr, ok_bind]
  simp only
  rw [deref_of_linked hn, ok_bind, hv]

end Good

end Heap

end GuardianCouncil.Trie
