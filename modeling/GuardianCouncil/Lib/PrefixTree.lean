import Mathlib.Order.Lattice.Nat

/-!
# Trees of prefixes

In a path-compressed trie every node stands for a prefix, a node's prefix extends that of its parent, and
two children of one node differ in the first bit after the prefix of that node.  These
conditions are all on a node and its parent, and yet a node whose prefix is a prefix of another node's
is an ancestor of it (`ancestor_of_matches`).  So a search for a sequence of bits that goes to
the child that matches it loses no node that does (`prefix_of_child`, `eq_of_no_child`).
-/

/-- Nodes with their parents and their prefixes: the first `len n` bits of `bit n`. -/
structure PrefixTree (ι : Type*) where
  mem : ι → Prop
  root : ι
  /-- `up c p`: the parent of `c` is `p`. -/
  up : ι → ι → Prop
  len : ι → ℕ
  bit : ι → ℕ → Bool
  len_root : len root = 0
  exists_up : ∀ {c}, mem c → c ≠ root → ∃ p, up c p ∧ mem p
  len_lt : ∀ {c p}, up c p → len p < len c
  bit_eq : ∀ {c p}, up c p → ∀ i < len p, bit p i = bit c i
  /-- Two children differ in the first bit after the prefix. -/
  fork : ∀ {c c' p}, up c p → up c' p → bit c (len p) = bit c' (len p) → c = c'

namespace PrefixTree

open Relation (ReflTransGen)

variable {ι : Type*} (T : PrefixTree ι) {a b c : ι} {f : ℕ → Bool}

/-- The prefix of `a` is one of the bits `f`. -/
def Matches (a : ι) (f : ℕ → Bool) : Prop := ∀ i < T.len a, T.bit a i = f i

/-- The prefix of `a` is a prefix of that of `b`. -/
def Prefix (a b : ι) : Prop := T.len a ≤ T.len b ∧ T.Matches a (T.bit b)

variable {T}

theorem Prefix.trans (hab : T.Prefix a b) (hbc : T.Prefix b c) : T.Prefix a c := by
  refine ⟨hab.1.trans hbc.1, fun i hi => ?_⟩
  rw [hab.2 i hi, hbc.2 i (hi.trans_le hab.1)]

theorem Prefix.matches (hab : T.Prefix a b) (hb : T.Matches b f) : T.Matches a f := by
  intro i hi
  rw [hab.2 i hi, hb i (hi.trans_le hab.1)]

theorem prefix_refl (a : ι) : T.Prefix a a := ⟨le_rfl, fun _ _ => rfl⟩

theorem prefix_of_up (h : T.up c a) : T.Prefix a c := ⟨(T.len_lt h).le, T.bit_eq h⟩

theorem matches_root (f : ℕ → Bool) : T.Matches T.root f := by
  intro i hi
  rw [T.len_root] at hi
  exact absurd hi (Nat.not_lt_zero i)

theorem prefix_root (b : ι) : T.Prefix T.root b := by
  refine ⟨?_, matches_root _⟩
  rw [T.len_root]
  exact Nat.zero_le _

theorem prefix_of_anc (h : ReflTransGen T.up b a) : T.Prefix a b := by
  induction h with
  | refl => exact prefix_refl b
  | tail _ hup ih => exact (prefix_of_up hup).trans ih

theorem anc_root (hb : T.mem b) : ReflTransGen T.up b T.root := by
  induction hn : T.len b using Nat.strong_induction_on generalizing b with
  | _ n ih =>
    by_cases hro : b = T.root
    · rw [hro]
    · obtain ⟨p, hup, hp⟩ := T.exists_up hb hro
      exact .head hup (ih _ (hn ▸ T.len_lt hup) hp rfl)

/-- The children of one node that match the same bits are one. -/
theorem child_unique {c' : ι} (hc : T.up c a) (hc' : T.up c' a) (hf : T.Matches c f) (hf' : T.Matches c' f) : c = c' :=
  T.fork hc hc' (by rw [hf _ (T.len_lt hc), hf' _ (T.len_lt hc')])

/-- **A prefix is an ancestor.** -/
theorem ancestor_of_matches (ha : T.mem a) (hb : T.mem b) (h : T.Prefix a b) : ReflTransGen T.up b a := by
  -- by induction on the length of the shorter prefix, down from the root
  induction hn : T.len a using Nat.strong_induction_on generalizing a with
  | _ n ih =>
    by_cases hro : a = T.root
    · rw [hro]
      exact anc_root hb
    obtain ⟨p, hup, hp⟩ := T.exists_up ha hro
    have hpb := ih _ (hn ▸ T.len_lt hup) hp ((prefix_of_up hup).trans h) rfl
    rcases ReflTransGen.cases_tail hpb with hpb | ⟨c, hcb, hc⟩
    · have hlt := T.len_lt hup
      have hle := h.1
      rw [← hpb] at hle
      omega
    · rwa [child_unique hup hc h.2 (prefix_of_anc hcb).2]

/-- Below a node there is a child on the way to every other node whose prefix extends its own. -/
theorem exists_child (ha : T.mem a) (hb : T.mem b) (h : T.Prefix a b) (hne : a ≠ b) : ∃ c, T.up c a ∧ T.Prefix c b := by
  rcases ReflTransGen.cases_tail (ancestor_of_matches ha hb h) with hab | ⟨c, hcb, hc⟩
  · exact absurd hab hne
  · exact ⟨c, hc, prefix_of_anc hcb⟩

/-- A search that goes to the child that matches keeps all nodes that match below it. -/
theorem prefix_of_child (ha : T.mem a) (hc : T.up c a) (hf : T.Matches c f) (hb : T.mem b)
    (hbf : T.Matches b f) (hab : T.Prefix a b) (hne : a ≠ b) : T.Prefix c b := by
  obtain ⟨c', hc', hpre⟩ := exists_child ha hb hab hne
  rwa [child_unique hc hc' hf (hpre.matches hbf)]

/-- A search that finds no child that matches is at the last node that does. -/
theorem eq_of_no_child (ha : T.mem a) (hn : ∀ c, T.up c a → ¬ T.Matches c f) (hb : T.mem b)
    (hbf : T.Matches b f) (hab : T.Prefix a b) : a = b := by
  by_contra hne
  obtain ⟨c, hc, hpre⟩ := exists_child ha hb hab hne
  exact hn c hc (hpre.matches hbf)

end PrefixTree
