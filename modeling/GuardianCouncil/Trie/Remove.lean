import GuardianCouncil.Trie.Shape

/-!
# Removal

`remove` clears the value of a node with two kids, and takes any other node out: its kid, if it has one,
takes its place.  The parent may be left with one kid and without a value, and is then removed in turn,
while the node itself is still in the heap.  So what one call does is said of the nodes that are linked,
for any list of nodes that are not.
-/

namespace GuardianCouncil.Trie

open Fallible Function
open scoped Links

variable {w : Nat} {Value : Type} {s s₁ : Heap w Value} {G : List Handle} {x p c : Handle}
  {n np : Node w Value} {i : Fin 2}

/-- The node `x` below `p` has been taken out of the trie. -/
structure Unlinked (s s₁ : Heap w Value) (G : List Handle) (x p : Handle) : Prop where
  good : (s₁.links (x :: G)).Good 0
  stored : s₁.stored (x :: G) = update (s.stored G) x none
  kid : ∀ d, d ≠ x → d ≠ p → (s₁.links (x :: G)).kid d 1 = (s.links G).kid d 1
  alloc : ∀ d, (s₁.links (x :: G)).alloc d ↔ d ≠ x ∧ (s.links G).alloc d
  len : (s₁.links (x :: G)).len p = (s.links G).len p
  fresh : Fresh s → Fresh s₁

theorem Fresh.delete (h : Fresh s) (x : Handle) : Fresh (s.delete x) := by
  intro c hc
  change update s.nodes x none c = none
  rw [update_apply]
  split
  · rfl
  · exact h c hc

namespace Heap

theorem relink_spec (hp : s.linked G p = some np) (hx : np.kids i = some x)
    (hf : i = 1 → np.kids 0 ≠ some x) (kid : Option Handle) : s.relink p x kid = .ok (s.modify p (·.setKid i kid)) := by
  rw [relink, deref_of_linked hp, ok_bind]
  have hi : i = 0 ∨ i = 1 := by omega
  rcases hi with rfl | rfl
  · rw [if_pos hx]
  · rw [if_neg (hf rfl), if_pos hx]

theorem shift_stay (hp : s.linked G p = some np) (h : np.kids 0 = none → np.kids 1 = none) : s.shift p = .ok s := by
  rw [shift, deref_of_linked hp, ok_bind, if_neg]
  rintro ⟨hone, hn⟩
  rw [h (Option.isNone_iff_eq_none.1 hn)] at hone
  cases hone

theorem shift_move {b : Handle} (hp : s.linked G p = some np) (h0 : np.kids 0 = none) (h1 : np.kids 1 = some b) :
    s.shift p = .ok ((s.modify p (·.setKid 0 (some b))).modify p (·.setKid 1 none)) := by
  rw [shift, deref_of_linked hp, ok_bind, if_pos (by simp [h0, h1]), h1]

section

variable (hgood : (s.links G).Good 0) (hx : s.linked G x = some n) (hparent : n.parent = some p)

include hgood hx hparent

/-- The slot that a node is in. -/
theorem exists_slot : ∃ i np, s.linked G p = some np ∧ (s.links G).kid p i = some x ∧ (i = 1 → np.kids 0 ≠ some x) := by
  have hsl : ∃ i, (s.links G).kid p i = some x := by
    rcases hgood.up (alloc_of_linked hx) (by rw [parent_of_linked hx, hparent]) with h | h
    · exact ⟨0, h⟩
    · exact ⟨1, h⟩
  obtain ⟨i, hi⟩ := hsl
  obtain ⟨np, hp⟩ := linked_of_alloc (hgood.alloc_parent hi)
  refine ⟨i, np, hp, hi, ?_⟩
  rintro rfl hf
  rw [← kid_of_linked hp] at hf
  exact absurd (hgood.slot_unique hi hf).2 (by decide)

/-- The kid of a node with one kid takes its place. -/
theorem unlink_splice (hc : n.kids 0 = some c) (hone : n.kids 1 = none) :
    ∃ s₁, (s.adopt (n.kids 0) p >>= fun s => s.relink p x (n.kids 0) >>= fun s => s.shift p) = .ok s₁ ∧
      Unlinked s s₁ G x p := by
  obtain ⟨i, np, hp, hi, hf⟩ := exists_slot hgood hx hparent
  have hc' : (s.links G).kid x 0 = some c := by rw [kid_of_linked hx, hc]
  have hone' : (s.links G).kid x 1 = none := by rw [kid_of_linked hx, hone]
  obtain ⟨nc, hnc⟩ := linked_of_alloc (hgood.alloc_kid hc')
  have hpx := hgood.kid_ne hi
  have hpc : p ≠ c := by
    have hlt := hgood.len_lt hi
    have hlt' := hgood.len_lt hc'
    rintro rfl
    omega
  have hp₁ : (s.modify c (·.setParent p)).linked G p = some np := by
    rw [linked_modify _ hnc, update_of_ne hpc]
    exact hp
  have hlo : np.kids 0 = none → np.kids 1 = none := by
    rw [← kid_of_linked hp, ← kid_of_linked hp]
    exact hgood.lone
  have hli : ((s.modify c (·.setParent p)).modify p (·.setKid i (some c))).links (x :: G) =
      (((s.links G).setParent c (some p)).setKid p i (some c)).drop x := by
    rw [links_cons, links_setKid hp₁, links_setParent hnc]
  refine ⟨(s.modify c (·.setParent p)).modify p (·.setKid i (some c)), ?_, ?_, ?_, ?_, ?_, ?_, ?_⟩
  · rw [hc, adopt, deref_of_linked hnc, ok_bind, ok_bind, relink_spec hp₁ (by rw [← kid_of_linked hp, hi]) hf, ok_bind]
    have hp₂ : ((s.modify c (·.setParent p)).modify p (·.setKid i (some c))).linked G p =
        some (np.setKid i (some c)) := by rw [linked_modify _ hp₁, update_self]
    refine shift_stay hp₂ fun h0 => ?_
    have hi' : i = 0 ∨ i = 1 := by omega
    rcases hi' with rfl | rfl
    · simp [Node.setKid] at h0
    · have hn := hlo (by simpa [Node.setKid] using h0)
      rw [← kid_of_linked hp, hi] at hn
      cases hn
  · rw [hli]
    exact hgood.splice hi hc' hone'
  · rw [stored_cons, stored_modify hp₁ rfl, stored_modify hnc rfl]
  · intro d hdx hdp
    rw [hli]
    grind
  · intro d
    rw [hli]
    grind
  · rw [hli]
    grind
  · exact fun h => (h.modify _ _).modify _ _

/-- A leaf goes, and a kid that is left alone becomes kid 0. -/
theorem unlink_leaf (hlea : n.kids 0 = none) :
    ∃ s₁, (s.adopt (n.kids 0) p >>= fun s => s.relink p x (n.kids 0) >>= fun s => s.shift p) = .ok s₁ ∧
      Unlinked s s₁ G x p := by
  obtain ⟨i, np, hp, hi, hf⟩ := exists_slot hgood hx hparent
  have hl' : (s.links G).kid x 0 = none := by rw [kid_of_linked hx, hlea]
  have hki : ∀ j, (s.links G).kid p j = np.kids j := fun j => kid_of_linked hp
  have hpx := hgood.kid_ne hi
  have hp₁ : (s.modify p (·.setKid i none)).linked G p = some (np.setKid i none) := by
    rw [linked_modify _ hp, update_self]
  have hrun : (s.adopt (n.kids 0) p >>= fun s => s.relink p x (n.kids 0) >>= fun s => s.shift p) =
      (s.modify p (·.setKid i none)).shift p := by
    rw [hlea, adopt, ok_bind, relink_spec hp (by rw [← hki, hi]) hf, ok_bind]
  rw [hrun]
  by_cases hm : ∃ b, i = 0 ∧ np.kids 1 = some b
  · obtain ⟨b, rfl, hb⟩ := hm
    have hp₂ : ((s.modify p (·.setKid 0 none)).modify p (·.setKid 0 (some b))).linked G p =
        some ((np.setKid 0 none).setKid 0 (some b)) := by
      rw [linked_modify _ hp₁, update_self]
    have hli : (((s.modify p (·.setKid 0 none)).modify p (·.setKid 0 (some b))).modify p
        (·.setKid 1 none)).links (x :: G) = (((s.links G).setKid p 0 (some b)).setKid p 1 none).drop x := by
      rw [links_cons, links_setKid hp₂, links_setKid hp₁, links_setKid hp, Links.setKid_setKid]
    refine ⟨_, shift_move hp₁ (by simp [Node.setKid]) (by simpa [Node.setKid] using hb), ?_, ?_, ?_, ?_, ?_, ?_⟩
    · rw [hli]
      exact hgood.dropFirst hi hl' (by rw [hki, hb])
    · rw [stored_cons, stored_modify hp₂ rfl, stored_modify hp₁ rfl, stored_modify hp rfl]
    · grind
    · grind
    · grind
    · exact fun h => ((h.modify _ _).modify _ _).modify _ _
  · have hla : i = 0 → np.kids 1 = none := by
      intro h0
      rcases hb : np.kids 1 with - | b
      · rfl
      · exact absurd ⟨b, h0, hb⟩ hm
    have hli : (s.modify p (·.setKid i none)).links (x :: G) = ((s.links G).setKid p i none).drop x := by
      rw [links_cons, links_setKid hp]
    refine ⟨s.modify p (·.setKid i none), shift_stay hp₁ ?_, ?_, ?_, ?_, ?_, ?_, ?_⟩
    · have hi' : i = 0 ∨ i = 1 := by omega
      rcases hi' with rfl | rfl
      · simpa [Node.setKid] using hla rfl
      · simp [Node.setKid]
    · rw [hli]
      exact hgood.dropLeaf hi hl' (by rwa [hki])
    · rw [stored_cons, stored_modify hp rfl]
    · grind
    · grind
    · grind
    · exact fun h => h.modify _ _

end

/-- What a removal does to the nodes that are linked. -/
structure Removed (s s' : Heap w Value) (G : List Handle) (x : Handle) : Prop where
  good : (s'.links G).Good 0
  full : Full (s'.links G) (s'.stored G) fun _ => False
  fresh : Fresh s'
  stored : s'.stored G = update (s.stored G) x none

/-- A node that is out of the trie is deleted. -/
theorem removed_delete {s' : Heap w Value} (hgood : (s'.links (x :: G)).Good 0)
    (hfull : Full (s'.links (x :: G)) (s'.stored (x :: G)) fun _ => False) (hfresh : Fresh s')
    (hst : s'.stored (x :: G) = update (s.stored G) x none) : Removed s (s'.delete x) G x where
  good := by rwa [links_delete]
  full := by rwa [links_delete, stored_delete]
  fresh := hfresh.delete x
  stored := by rwa [stored_delete]

/-- A node with two kids loses its value. -/
theorem removed_value (hgood : (s.links G).Good 0) (hfull : Full (s.links G) (s.stored G) (· = x))
    (hfresh : Fresh s) (hx : s.linked G x = some n) (htwo : n.kids 1 ≠ none) :
    Removed s (s.modify x (·.setValue none)) G x := by
  have hst := stored_setValue hx none
  refine ⟨?_, ?_, hfresh.modify _ _, hst⟩
  · rw [links_setValue hx]
    exact hgood
  · rw [links_setValue hx, hst]
    intro d hd _ ha hn
    by_cases hdx : d = x
    · rw [hdx, kid_of_linked hx]
      exact htwo
    · rw [update_of_ne hdx] at hn
      exact hfull d hd hdx ha hn

/-- When a node has been taken out, only its parent may be in want of a kid. -/
theorem full_of_unlinked (h : Unlinked s s₁ G x p) (hfull : Full (s.links G) (s.stored G) (· = x)) :
    Full (s₁.links (x :: G)) (s₁.stored (x :: G)) (· = p) := by
  intro d hd hdp ha hn
  obtain ⟨hdx, ha⟩ := (h.alloc d).1 ha
  rw [h.stored, update_of_ne hdx] at hn
  rw [h.kid d hdx hdp]
  exact hfull d hd hdx ha hn

theorem unlink_spec (hgood : (s.links G).Good 0) (hx : s.linked G x = some n)
    (hparent : n.parent = some p) (hone : n.kids 1 = none) :
    ∃ s₁ s₂ s₃, s.adopt (n.kids 0) p = .ok s₁ ∧ s₁.relink p x (n.kids 0) = .ok s₂ ∧
      s₂.shift p = .ok s₃ ∧ Unlinked s s₃ G x p := by
  have hunl : ∃ s₃, (s.adopt (n.kids 0) p >>= fun s => s.relink p x (n.kids 0) >>= fun s =>
      s.shift p) = .ok s₃ ∧ Unlinked s s₃ G x p := by
    rcases hc : n.kids 0 with - | c
    · have hun := unlink_leaf hgood hx hparent hc
      rwa [hc] at hun
    · have hun := unlink_splice hgood hx hparent hc hone
      rwa [hc] at hun
  obtain ⟨s₃, hrun, hun⟩ := hunl
  obtain ⟨s₁, ha, hrun⟩ := bind_eq_ok.1 hrun
  obtain ⟨s₂, hre, hsh⟩ := bind_eq_ok.1 hrun
  exact ⟨s₁, s₂, s₃, ha, hre, hsh, hun⟩

theorem exists_parent (hgood : (s.links G).Good 0) (hx : s.linked G x = some n) (hne : x ≠ 0) :
    ∃ p, n.parent = some p ∧ (s.links G).len p < n.len := by
  rcases hparent : n.parent with - | p
  · exact absurd (hgood.orphan (alloc_of_linked hx) (by rw [parent_of_linked hx, hparent])) hne
  · obtain ⟨i, np, -, hi, -⟩ := exists_slot hgood hx hparent
    refine ⟨p, rfl, ?_⟩
    rw [← len_of_linked hx]
    exact hgood.len_lt hi

/-- **Removal** succeeds, and takes away what is stored at the handle. -/
theorem remove_spec (fuel : Nat) (hgood : (s.links G).Good 0)
    (hfull : Full (s.links G) (s.stored G) (· = x)) (hfresh : Fresh s) (hx : s.linked G x = some n)
    (hne : x ≠ 0) (hva : n.kids 1 ≠ none → n.value ≠ none) (hf : n.len ≤ fuel) :
    ∃ s', Heap.remove fuel s x = .ok (n.value, s') ∧ Removed s s' G x := by
  -- the parent that is removed in turn has a shorter prefix
  induction fuel generalizing s G x n with
  | zero =>
    obtain ⟨p, -, hlt⟩ := exists_parent hgood hx hne
    omega
  | succ fuel ih =>
    rw [Heap.remove, deref_of_linked hx, ok_bind]
    by_cases htwo : n.kids 1 = none
    · rw [if_neg (by simp [htwo])]
      obtain ⟨p, hparent, hlt⟩ := exists_parent hgood hx hne
      obtain ⟨s₂, s₃, s₁, had, hrel, hsh, hun⟩ := unlink_spec hgood hx hparent htwo
      rw [hparent]
      simp only
      rw [had, ok_bind, hrel, ok_bind, hsh, ok_bind]
      have hfu₁ := full_of_unlinked hun hfull
      have hf₁ := hun.fresh hfresh
      obtain ⟨np, hnp⟩ : ∃ np, s₁.linked (x :: G) p = some np := by
        obtain ⟨i, np, hp, hi, -⟩ := exists_slot hgood hx hparent
        exact linked_of_alloc ((hun.alloc p).2 ⟨(hgood.kid_ne hi).symm, alloc_of_linked hp⟩)
      rw [deref_of_linked hnp, ok_bind]
      have hn : np.value = none → s₁.stored (x :: G) p = none := by
        intro hv
        rw [stored_of_linked hnp, Node.entry, hv]
        rfl
      by_cases hco : np.kids 1 = none ∧ np.value = none ∧ np.parent ≠ none
      · obtain ⟨hone, hv, hpar⟩ := hco
        have hp0 : p ≠ 0 := by
          rintro rfl
          rw [← parent_of_linked hnp] at hpar
          exact hpar hun.good.parent_root
        have hlen : np.len ≤ fuel := by
          rw [← len_of_linked hnp, hun.len]
          omega
        obtain ⟨s', hrem, hre⟩ := ih hun.good hfu₁ hf₁ hnp hp0 (fun h => absurd hone h) hlen
        rw [if_pos (by simpa [Option.isSome_iff_ne_none] using ⟨hone, hv, hpar⟩), hrem, ok_bind]
        refine ⟨_, rfl, removed_delete hre.good hre.full hre.fresh ?_⟩
        have hsa := update_eq_self p (s₁.stored (x :: G))
        rw [hn hv] at hsa
        rw [hre.stored, hsa, hun.stored]
      · rw [if_neg (by simpa [Option.isSome_iff_ne_none] using hco)]
        refine ⟨_, rfl, removed_delete hun.good ?_ hf₁ hun.stored⟩
        intro d hd _ ha hst
        by_cases hdp : d = p
        · subst hdp
          rw [kid_of_linked hnp]
          intro hone
          refine hco ⟨hone, ?_, fun hpar => hd (hun.good.orphan ha ?_)⟩
          · rw [stored_of_linked hnp] at hst
            exact Option.map_eq_none_iff.1 hst
          · rw [parent_of_linked hnp, hpar]
        · exact hfu₁ d hd hdp ha hst
    · rw [if_pos (Option.isSome_iff_ne_none.2 htwo), if_neg (by simp [hva htwo])]
      exact ⟨_, rfl, removed_value hgood hfull hfresh hx htwo⟩

end Heap

end GuardianCouncil.Trie
