import GuardianCouncil.StackDist.Growth

/-!
# Accesses

Between accesses the leaves of the tree are the numbers of the accesses that are still somebody's last
one.  The removal of a leaf gives the number of leaves after it, and the new leaf of an access is the
last one.
-/

namespace GuardianCouncil.StackDist

open Fallible Dyadic Function Finset Calc

variable {s s' : Calc} {n : ℕ} {S S' : Finset ℕ} {j : ℕ} {nd : Node}

/-! ## Leaves -/

theorem Calc.set_depth (s : Calc) (p : Ptr) (nd : Node) : (s.set p nd).depth = s.depth := rfl

/-- Writes to the leaves leave the tree above them as it is. -/
theorem TreeInv.of_leaves {S S' : ℕ → Finset ℕ} (h : TreeInv s n S) (hpos : 1 ≤ s.depth)
    (hde : s'.depth = s.depth) (hnext : ∀ l, s'.nextIndex (l + 1) = s.nextIndex (l + 1))
    (htr : ∀ l k, s'.tree (l + 1, k) = s.tree (l + 1, k)) (hS : ∀ l, S' (l + 1) = S (l + 1))
    (hlea : ∀ j nd, s'.tree (0, j) = some nd → LeafOk j nd) : TreeInv s' n S' := by
  refine .of_nodeAt hlea (fun l k => ?_) ?_
  · rw [hde, hnext, hS, htr]
    exact h.nodeAt l k
  · obtain ⟨d, hd⟩ := Nat.exists_eq_add_of_le' hpos
    rw [hde, hd, htr, ← hd]
    exact h.root

/-- A leaf that is written, before the layers above have been told. -/
theorem TreeInv.setLeaf (h : TreeInv s n fun _ => S) (hpos : 1 ≤ s.depth) (S' : Finset ℕ)
    (hlea : LeafOk j nd) : TreeInv (s.set (0, j) nd) n (seen S S' 0) := by
  refine h.of_leaves hpos rfl (fun _ => rfl) (fun l k => by simp [Calc.set]) (fun l => rfl) ?_
  intro i u hu
  by_cases hij : i = j
  · subst hij
    obtain rfl : nd = u := by simpa [Calc.set] using hu
    exact hlea
  · exact h.leaf i u (by simpa [Calc.set, hij] using hu)

theorem TreeInv.eraseLeaf (h : TreeInv s n fun _ => S) (hpos : 1 ≤ s.depth) (j : ℕ) :
    TreeInv (s.erase (0, j)) n fun _ => S := by
  refine h.of_leaves hpos rfl (fun _ => rfl) (fun l k => by simp [Calc.erase]) (fun l => rfl) ?_
  intro i u hu
  by_cases hij : i = j
  · simp [Calc.erase, hij] at hu
  · exact h.leaf i u (by simpa [Calc.erase, hij] using hu)

/-- When all layers have seen the change, it is done.  Time may have passed. -/
theorem TreeInv.done (h : TreeInv s n (seen S S' s.depth)) {m : ℕ} (hm : n ≤ m) : TreeInv s m fun _ => S' := by
  have hse : ∀ l, l + 1 ≤ s.depth → seen S S' s.depth (l + 1) = S' := fun l hl => if_pos hl
  refine ⟨h.leaf, h.layer, fun l k u hu => ?_, fun l k hl hk hsp => ?_, h.root⟩
  · have hok := h.node l k u hu
    rw [hse l (h.layer l k u hu).1] at hok
    exact ⟨hok.nodeIndex, hok.isLeftNode, hok.parent, hok.sumLeft, hok.sumRight,
      fun hd => (hok.discardLeft hd).mono hm, fun hd => (hok.discardRight hd).mono hm⟩
  · refine h.present l k hl hk fun hold => hsp ?_
    rw [hse l hl] at hold
    exact hold.mono hm

/-! ## The invariant -/

/-- The calculator between accesses, with the leaves `S`. -/
structure Inv (s : Calc) (S : Finset ℕ) : Prop where
  grown : Grown s S s.depth
  sized : Sized s
  leaf : ∀ j ∈ S, ∃ nd, s.tree (0, j) = some nd

theorem Inv.init : Inv Calc.init ∅ where
  grown := by
    have hco : ∀ l k, count ∅ l k = 0 := fun l k => rfl
    refine ⟨.of_nodeAt ?_ (fun l k => ?_) ⟨{}, by simp [Calc.init]⟩, by simp, fun l hl hd => by omega, ?_⟩
    · intro j nd hnd
      simp [Calc.init] at hnd
    · by_cases hro : l = 0 ∧ k = 0
      · obtain ⟨rfl, rfl⟩ := hro
        refine ⟨by decide, rfl, rfl, rfl, (hco _ _).symm, (hco _ _).symm, ?_, ?_⟩ <;> intro h <;> cases h
      · rw [show Calc.init.tree (l + 1, k) = none by simp [Calc.init, hro]]
        intro hl hk
        obtain rfl : l = 0 := by simpa [Calc.init] using hl
        exact absurd ⟨rfl, by simpa [Calc.init] using hk⟩ hro
    · intro l hl hd
      obtain rfl : l = 1 := by simp [Calc.init] at hd; omega
      rfl
  sized := ⟨le_rfl, Nat.zero_le _, fun h => by simp [Calc.init] at h⟩
  leaf := by simp

/-- The tree knows nothing of the map and of the stack. -/
theorem Inv.setRest (h : Inv s S) (aiMap : Addr → Option ℕ) (stack : List Addr) : Inv { s with aiMap, stack } S where
  grown :=
    ⟨h.grown.tree.of_leaves h.sized.depth_pos rfl (fun _ => rfl) (fun _ _ => rfl) (fun _ => rfl)
      h.grown.tree.leaf, h.grown.lt, h.grown.high, h.grown.low⟩
  sized := ⟨h.sized.depth_pos, h.sized.index_le, h.sized.lt_index⟩
  leaf := h.leaf

/-- The layers have the nodes of all accesses so far. -/
theorem Inv.next (h : Inv s S) (hj : j ∈ S) (i : ℕ) (hi : i + 1 ≤ s.depth) : j / 2 ^ (i + 1) < s.nextIndex (i + 1) := by
  have hlt := h.grown.lt j hj
  rw [h.grown.low (i + 1) (by omega) hi, Nat.lt_succ_iff]
  exact Nat.div_le_div_right (by omega)

theorem Inv.above_eq (h : Inv s S) (hj : j ∈ S) : above S j s.depth = (S.filter (j < ·)).card := by
  have hlt : ∀ x ∈ S, x < 2 ^ s.depth := fun x hx => (h.grown.lt x hx).trans_le h.sized.index_le
  exact above_top hlt (hlt j hj)

/-! ## Comings and goings of leaves -/

/-- From a leaf that has been written all the way to the root. -/
theorem updateSum_leaf (verify : Bool) (hch : Change n S S' j) {c : ℕ} (hc : count S' 0 j = c)
    (discard : Bool) (hpos : 1 ≤ s.depth) (hd : s.depth ≤ 31)
    (hnext : ∀ i, i + 1 ≤ s.depth → j / 2 ^ (i + 1) < s.nextIndex (i + 1))
    (h : TreeInv s n (seen S S' 0)) (hdi : discard = true → Spent n S' 0 j) :
    ∃ s', updateSum verify (s.depth + 1) s (1, j / 2) (j % 2 == 0) c 0 0 discard =
        .ok (above S j s.depth, s') ∧ SameLeaves s s' ∧ TreeInv s' n (seen S S' s'.depth) := by
  have hj : j / 2 ^ 0 = j := by rw [pow_zero, Nat.div_one]
  obtain ⟨r, s', hrun, hr, hsa, htr⟩ := updateSum_spec verify hch (s.depth + 1) 0 discard hpos
    (by omega) hd hnext h (by rwa [hj])
  rw [hj, hc, Nat.zero_add, pow_one] at hrun
  rw [above_zero, add_zero, Nat.zero_add] at hr
  rw [hr] at hrun
  exact ⟨s', hrun, hsa, hsa.depth.symm ▸ htr⟩

theorem updateSumsLeavesToRoot_eq (verify : Bool) (hnd : s.tree (0, j) = some nd) (hok : LeafOk j nd)
    (isNewLeaf : Bool) : s.updateSumsLeavesToRoot verify (0, j) isNewLeaf =
      if isNewLeaf then
        (updateSum verify (s.depth + 1) (s.set (0, j) { nd with sumLeft := 1 }) (1, j / 2)
          (j % 2 == 0) 1 0 0 false).map fun r => (Infinity, r.2)
      else updateSum verify (s.depth + 1) (s.set (0, j) { nd with sumLeft := 0 }) (1, j / 2)
        (j % 2 == 0) 0 0 0 true := by
  rw [updateSumsLeavesToRoot, deref_of_tree hnd, ok_bind, ← hok.isLeftNode]
  split
  · rename_i hn
    rw [hok.parent] at hn
    cases hn
  · rename_i parent hparent
    rw [hok.parent] at hparent
    cases hparent
    rfl

/-- Nothing but the tree is different. -/
structure SameMap (s s' : Calc) : Prop where
  index : s'.index = s.index
  aiMap : s'.aiMap = s.aiMap
  stack : s'.stack = s.stack

/-- **The removal of a leaf** gives the number of leaves after it. -/
theorem removeLeaf_spec (verify : Bool) (h : Inv s S) (hj : j ∈ S) (hro : s.index < 2147483648) :
    ∃ mark s', s.removeLeaf verify j = .ok ((S.filter (j < ·)).card, mark, s') ∧ Inv s' (S.erase j) ∧ SameMap s s' := by
  obtain ⟨nd, hnd⟩ := h.leaf j hj
  have hok := h.grown.tree.leaf j nd hnd
  have hpos := h.sized.depth_pos
  have hlea : LeafOk j { nd with sumLeft := 0 } := ⟨hok.isLeftNode, hok.parent⟩
  have hg : count (S.erase j) 0 j = 0 := by rw [count_zero, if_neg (notMem_erase j S)]
  have hsp : Spent s.index (S.erase j) 0 j := by
    have hlt := h.grown.lt j hj
    exact ⟨by omega, hg⟩
  obtain ⟨s₁, hrun, hsa, htr⟩ := updateSum_leaf verify (Change.erase hj) hg true
    (s := s.set (0, j) { nd with sumLeft := 0 }) hpos (depth_le_of_le (fun h2 => (h.sized.lt_index h2).le) hro) (h.next hj)
    (h.grown.tree.setLeaf hpos _ hlea) (fun _ => hsp)
  have hnd₁ : s₁.tree (0, j) = some { nd with sumLeft := 0 } := by
    rw [hsa.tree]
    simp [Calc.set]
  have hsu : s.updateSumsLeavesToRoot verify (0, j) false = .ok ((S.filter (j < ·)).card, s₁) := by
    rw [updateSumsLeavesToRoot_eq verify hnd hok, ← h.above_eq hj]
    exact hrun
  have hin : s₁.index = s.index := hsa.index
  have hd : s₁.depth = s.depth := hsa.depth
  refine ⟨nd.isMarked, s₁.erase (0, j), ?_, ?_, ⟨hin, hsa.aiMap, hsa.stack⟩⟩
  · rw [removeLeaf, hsu, ok_bind]
    simp only [deref_of_tree hnd₁, ok_bind]
  · have hpos₁ : 1 ≤ s₁.depth := hd ▸ hpos
    refine ⟨⟨?_, ?_, ?_, ?_⟩, ⟨hpos₁, ?_, ?_⟩, ?_⟩
    · exact (htr.done hin.ge).eraseLeaf hpos₁ j
    · intro x hx
      exact hin ▸ h.grown.lt x (mem_of_mem_erase hx)
    · intro l hl hle
      exact absurd hle (Nat.not_le.2 hl)
    · intro l hl hle
      have hlow := h.grown.low l hl (hd ▸ hle)
      rw [← hin] at hlow
      exact (congrFun hsa.nextIndex l).trans hlow
    · exact hin ▸ hd ▸ h.sized.index_le
    · exact hin ▸ hd ▸ h.sized.lt_index
    · intro i hi
      obtain ⟨hne, hi⟩ := mem_erase.1 hi
      obtain ⟨u, hu⟩ := h.leaf i hi
      refine ⟨u, ?_⟩
      have hs' := hsa.tree i
      simp only [Calc.set, Calc.erase] at hs' ⊢
      rw [update_of_ne (by simpa using hne)] at hs' ⊢
      rw [hs', hu]

/-! ## The new leaf -/

/-- An odd access goes to nodes that are there. -/
theorem Grown.of_odd (hodd : s.index % 2 ≠ 0) (m : ℕ) (h : Grown s S m) : Grown s S 0 := by
  induction m with
  | zero => exact h
  | succ i ih =>
    refine ih (h.skip fun hmod => hodd ?_)
    have hdvd : 2 ∣ 2 ^ (i + 1) := Dvd.intro_left (2 ^ i) (pow_succ 2 i).symm
    exact Nat.mod_eq_zero_of_dvd (hdvd.trans (Nat.dvd_of_mod_eq_zero hmod))

theorem makeRoom_spec (h : Inv s S) (hro : s.index < 2147483648) :
    ∃ s', s.makeRoom = .ok s' ∧ Grown s' S 0 ∧ SameStack s s' ∧ Roomy s' := by
  rw [makeRoom]
  by_cases hev : s.index % 2 = 0
  · rw [if_pos hev]
    exact updateTree_spec h.grown h.sized hev hro
  rw [if_neg hev]
  refine ⟨s, rfl, h.grown.of_odd hev _, .refl s, h.sized.depth_pos, ?_, fun htwo =>
    (h.sized.lt_index htwo).le⟩
  refine lt_of_le_of_ne h.sized.index_le fun hfull => hev ?_
  obtain ⟨d, hd⟩ := Nat.exists_eq_add_of_le' h.sized.depth_pos
  rw [hfull, hd, pow_succ, Nat.mul_mod_left]

/-- The layers have the nodes of the access that comes. -/
theorem Grown.next (h : Grown s S 0) (i : ℕ) (hi : i + 1 ≤ s.depth) : s.index / 2 ^ (i + 1) < s.nextIndex (i + 1) := by
  rw [h.high (i + 1) (by omega) hi]
  exact Nat.lt_succ_self _

theorem Grown.find_parent (h : Grown s S 0) (hpos : 1 ≤ s.depth) :
    s.find (1, s.nextIndex 1 - 1) = some (1, s.index / 2) := by
  have hnext := h.high 1 (by omega) hpos
  obtain ⟨u, hu⟩ := h.tree.present 0 (s.index / 2 ^ 1) hpos (h.next 0 hpos) (not_spent_of_le le_rfl 1)
  rw [hnext, Nat.add_sub_cancel, find, if_pos, pow_one]
  rw [hu]
  rfl

/-- The leaf that is put in, when it counts. -/
theorem TreeInv.newLeaf (h : Grown s S 0) (hpos : 1 ≤ s.depth) :
    ∃ nd, s.newLeaf.tree (0, s.index) = some nd ∧ LeafOk s.index nd ∧
      TreeInv (s.newLeaf.set (0, s.index) { nd with sumLeft := 1 }) s.index
        (seen S (insert s.index S) 0) := by
  refine ⟨_, update_self .., ⟨rfl, h.find_parent hpos⟩, ?_⟩
  refine h.tree.of_leaves hpos rfl (fun l => ?_) (fun l k => ?_) (fun l => ?_) fun i u hu => ?_
  · simp [Calc.newLeaf, Calc.set]
  · simp [Calc.newLeaf, Calc.set]
  · exact if_neg (by omega)
  · by_cases hi : i = s.index
    · subst hi
      cases by simpa [Calc.set] using hu
      exact ⟨rfl, h.find_parent hpos⟩
    · exact h.tree.leaf i u (by simpa [Calc.newLeaf, Calc.set, hi] using hu)

theorem sanityCheckTree_eq_ok (h : TreeInv s n fun _ => S) (hj : j ∈ S) (hpos : 1 ≤ s.depth)
    (hlt : j < 2 ^ s.depth) (hnext : ∀ i, i + 1 ≤ s.depth → j / 2 ^ (i + 1) < s.nextIndex (i + 1))
    (hnd : s.tree (0, j) = some nd) : s.sanityCheckTree (0, j) = .ok () := by
  have hcl := climb_spec (l := 0) hj h (s.depth - 1) (by omega) hnext
  rw [Nat.zero_add, Nat.add_sub_cancel' hpos, Nat.div_eq_of_lt hlt, pow_one] at hcl
  obtain ⟨root, hro⟩ := h.root
  obtain ⟨d, hd⟩ := Nat.exists_eq_add_of_le' hpos
  have hn : root.parent = none := by
    rw [(h.node d 0 root (hd ▸ hro)).parent, if_neg (by omega)]
  rw [sanityCheckTree, deref_of_tree hnd, ok_bind, (h.leaf j nd hnd).parent]
  simp only [hcl, ok_bind, deref_of_tree hro, hn]
  rfl

/-- **The new leaf** of an access. -/
theorem addLeaf_spec (verify : Bool) (h : Inv s S) (hroo : s.index < 2147483648) :
    ∃ s', s.addLeaf verify = .ok s' ∧ SameMap s s' ∧ s'.sanityCheckTree (0, s'.index) = .ok () ∧
      Inv { s' with index := s'.index + 1 } (insert s.index S) := by
  obtain ⟨s₁, hgr, hg, hs₁, hro⟩ := makeRoom_spec h hroo
  rw [← hs₁.index] at hroo ⊢
  have hpos := hro.depth_pos
  have hmem : s₁.index ∈ insert s₁.index S := mem_insert_self ..
  obtain ⟨nd, hnd, hok, htr⟩ := TreeInv.newLeaf hg hpos
  obtain ⟨s₂, hrun, hsa, htr⟩ := updateSum_leaf verify (Change.insert S le_rfl)
    (s := s₁.newLeaf.set (0, s₁.index) { nd with sumLeft := 1 }) (by rw [count_zero, if_pos hmem])
    false hpos (depth_le_of_le hro.le_index hroo)
    (fun i hi => by simpa [Calc.newLeaf, Calc.set] using hg.next i hi) htr
    (fun hf => by cases hf)
  have hin : s₂.index = s₁.index := hsa.index
  have hd : s₂.depth = s₁.depth := hsa.depth
  have hnext : ∀ l, s₂.nextIndex (l + 1) = s₁.nextIndex (l + 1) := fun l => by
    rw [hsa.nextIndex]
    simp [Calc.newLeaf, Calc.set]
  have hlea : s₂.tree (0, s₁.index) = some { nd with sumLeft := 1 } := by
    rw [hsa.tree]
    simp [Calc.set]
  have hadd : s.addLeaf verify = .ok s₂ := by
    rw [addLeaf, hgr, ok_bind, updateSumsLeavesToRoot_eq verify hnd hok, if_pos rfl]
    rw [set_depth] at hrun
    rw [hrun]
    rfl
  refine ⟨s₂, hadd, ⟨hin.trans hs₁.index, hsa.aiMap.trans hs₁.aiMap,
    hsa.stack.trans hs₁.stack⟩, ?_, ⟨⟨?_, ?_, ?_, ?_⟩, ⟨?_, ?_, ?_⟩, ?_⟩⟩
  · rw [hin]
    refine sanityCheckTree_eq_ok (htr.done le_rfl) hmem (by omega) ?_ (fun i hi => ?_) hlea
    · rw [hd]
      exact hro.index_lt
    · rw [hnext]
      exact hg.next i (hd ▸ hi)
  · rw [hin]
    exact (htr.done (Nat.le_succ _)).of_leaves (by omega) rfl (fun _ => rfl) (fun _ _ => rfl) (fun _ => rfl) htr.leaf
  · intro x hx
    rw [hin]
    rcases mem_insert.1 hx with rfl | hx
    · exact Nat.lt_succ_self _
    · exact (hg.lt x hx).trans (Nat.lt_succ_self _)
  · intro l hl hle
    exact absurd hle (Nat.not_le.2 hl)
  · intro l hl hle
    obtain ⟨m, rfl⟩ := Nat.exists_eq_add_of_le' hl
    rw [hin, Nat.add_sub_cancel]
    exact (hnext m).trans (hg.high (m + 1) hl (hd ▸ hle))
  · exact hd ▸ hpos
  · rw [hin, hd]
    exact hro.index_lt
  · intro htwo
    rw [hin, hd, Nat.lt_succ_iff]
    exact hro.le_index (hd ▸ htwo)
  · intro i hi
    by_cases hne : i = s₁.index
    · exact ⟨_, hne ▸ hlea⟩
    obtain ⟨u, hu⟩ := h.leaf i ((mem_insert.1 hi).resolve_left hne)
    refine ⟨u, ?_⟩
    have ht' : s₂.tree (0, i) = s₁.tree (0, i) := by
      rw [hsa.tree]
      simp [Calc.set, Calc.newLeaf, hne]
    exact ht'.trans ((hs₁.tree i).trans hu)

/-! ## Whole accesses -/

/-- The leaves are the last accesses to the addresses in the stack. -/
structure Mapped (s : Calc) (S : Finset ℕ) : Prop extends Inv s S where
  mem : ∀ j, j ∈ S ↔ ∃ a, s.aiMap a = some j
  inj : ∀ a b j, s.aiMap a = some j → s.aiMap b = some j → a = b

/-- The distance of an address: the number of leaves after its own. -/
def dist (aiMap : Addr → Option ℕ) (S : Finset ℕ) (a : Addr) : ℕ :=
  match aiMap a with
  | none => Infinity
  | some j => (S.filter (j < ·)).card

/-- What an access makes of a map that holds the last access to every address in the stack. -/
def Access.stamp (m : ℕ) (f : Addr → Option ℕ) : Access → Addr → Option ℕ
  | .calcStackDistAndUpdate a true => update f a (some m)
  | .calcStackDistAndUpdate a false => update f a none
  | .calcStackDist _ _ => f

/-- What `verifyStackDist` makes of its list at an access. -/
def Access.push (stack : List Addr) : Access → List Addr
  | .calcStackDistAndUpdate a true => plainPush stack a
  | _ => stack

/-- The accesses at which `verifyStackDist` is called. -/
def Access.verified : Access → Bool
  | .calcStackDistAndUpdate _ false => false
  | _ => true

variable {f : Addr → Option ℕ} {a : Addr}

theorem Mapped.forget (h : Inv s S) (hmap : s.aiMap = update f a none) (hmem : ∀ j, j ∈ S ↔ ∃ b, b ≠ a ∧ f b = some j)
    (hinj : ∀ b c j, f b = some j → f c = some j → b = c) : Mapped s S := by
  have hold : ∀ b j, s.aiMap b = some j ↔ b ≠ a ∧ f b = some j := by
    intro b j
    rw [hmap, update_apply]
    split <;> simp_all
  refine ⟨h, fun j => ?_, fun b c j hb hc => ?_⟩
  · simp only [hmem, hold]
  · exact hinj b c j ((hold b j).1 hb).2 ((hold c j).1 hc).2

theorem Mapped.add {m : ℕ} (h : Inv s (insert m S)) (hlt : ∀ x ∈ S, x < m)
    (hmap : s.aiMap = update f a (some m)) (hmem : ∀ j, j ∈ S ↔ ∃ b, b ≠ a ∧ f b = some j)
    (hinj : ∀ b c j, f b = some j → f c = some j → b = c) : Mapped s (insert m S) := by
  have hnew : ∀ b j, s.aiMap b = some j ↔ b = a ∧ j = m ∨ b ≠ a ∧ f b = some j := by
    intro b j
    rw [hmap, update_apply]
    split <;> simp_all [eq_comm]
  have hlt' : ∀ b, b ≠ a → f b ≠ some m := fun b hne hb =>
    lt_irrefl m (hlt m ((hmem m).2 ⟨b, hne, hb⟩))
  refine ⟨h, fun j => ?_, fun b c j hb hc => ?_⟩
  · rw [mem_insert, hmem]
    simp only [hnew, exists_or]
    exact or_congr ⟨fun hj => ⟨a, rfl, hj⟩, fun ⟨b, _, hj⟩ => hj⟩ Iff.rfl
  · rcases (hnew b j).1 hb with ⟨rfl, rfl⟩ | ⟨hba, hb⟩ <;> rcases (hnew c j).1 hc with ⟨rfl, hj⟩ | ⟨hca, hc⟩
    · rfl
    · exact absurd hc (hlt' c hca)
    · exact absurd (hj ▸ hb) (hlt' b hba)
    · exact hinj b c j hb hc

theorem takeOld_spec (verify : Bool) (h : Mapped s S) (hro : s.index < 2147483648) (a : Addr) (addNewNode : Bool) :
    ∃ mark s' S', s.takeOld verify a addNewNode = .ok (dist s.aiMap S a, mark, s') ∧ Inv s' S' ∧
      s'.index = s.index ∧ s'.stack = s.stack ∧
      s'.aiMap = update s.aiMap a (if addNewNode then some s.index else none) ∧
      ∀ j, j ∈ S' ↔ ∃ b, b ≠ a ∧ s.aiMap b = some j := by
  rw [takeOld, dist]
  rcases hj : s.aiMap a with _ | j
  · refine ⟨false, _, S, rfl, ?_, ?_, ?_, ?_, fun j => ?_⟩
    · cases addNewNode
      · exact h.toInv
      · exact h.toInv.setRest _ _
    · cases addNewNode <;> rfl
    · cases addNewNode <;> rfl
    · cases addNewNode
      · exact (hj ▸ update_eq_self a s.aiMap).symm
      · rfl
    · rw [h.mem]
      refine exists_congr fun b => ⟨fun hb => ⟨?_, hb⟩, And.right⟩
      rintro rfl
      rw [hj] at hb
      cases hb
  · have hmem : j ∈ S := (h.mem j).2 ⟨a, hj⟩
    obtain ⟨mark, s', hrun, hinv, hsa⟩ := removeLeaf_spec verify
      (h.toInv.setRest (update s.aiMap a (if addNewNode then some s.index else none)) s.stack)
      hmem hro
    refine ⟨mark, s', S.erase j, hrun, hinv, hsa.index, hsa.stack, hsa.aiMap, fun i => ?_⟩
    rw [mem_erase, h.mem]
    constructor
    · rintro ⟨hne, b, hb⟩
      refine ⟨b, ?_, hb⟩
      rintro rfl
      rw [hj] at hb
      exact hne (Option.some.inj hb).symm
    · rintro ⟨b, hne, hb⟩
      refine ⟨?_, b, hb⟩
      rintro rfl
      exact hne (h.inj b a i hb hj)

theorem getSumsLeavesToRoot_spec (h : Inv s S) (hj : j ∈ S) :
    s.getSumsLeavesToRoot (0, j) = .ok (S.filter (j < ·)).card := by
  obtain ⟨nd, hnd⟩ := h.leaf j hj
  have hok := h.grown.tree.leaf j nd hnd
  obtain ⟨r, hrun, hr⟩ := getSum_spec (l := 0) hj h.grown.tree (s.depth + 1) 0 h.sized.depth_pos (by omega) (h.next hj)
  rw [above_zero, add_zero, Nat.zero_add, h.above_eq hj] at hr
  rw [getSumsLeavesToRoot, deref_of_tree hnd, ok_bind, hok.parent, hok.isLeftNode, ← hr]
  rwa [pow_zero, Nat.div_one, Nat.zero_add, pow_one] at hrun

theorem lookAt_spec (h : Mapped s S) (a : Addr) (mark : Bool) :
    ∃ oldMark s', s.lookAt a mark = .ok (dist s.aiMap S a, oldMark, s') ∧ Mapped s' S ∧ SameMap s s' := by
  rw [lookAt, dist]
  rcases hj : s.aiMap a with _ | j
  · exact ⟨false, s, rfl, h, rfl, rfl, rfl⟩
  have hmem : j ∈ S := (h.mem j).2 ⟨a, hj⟩
  obtain ⟨nd, hnd⟩ := h.leaf j hmem
  have hok := h.grown.tree.leaf j nd hnd
  have hpos := h.sized.depth_pos
  have hlea : LeafOk j { nd with isMarked := mark } := ⟨hok.isLeftNode, hok.parent⟩
  have htr := h.grown.tree.setLeaf hpos S hlea
  rw [seen_self] at htr
  have hinv : Inv (s.set (0, j) { nd with isMarked := mark }) S := by
    refine ⟨⟨htr, h.grown.lt, h.grown.high, h.grown.low⟩,
      ⟨h.sized.depth_pos, h.sized.index_le, h.sized.lt_index⟩, fun i hi => ?_⟩
    by_cases hij : i = j
    · exact ⟨_, by rw [hij]; exact update_self ..⟩
    · simpa [Calc.set, hij] using h.leaf i hi
  refine ⟨nd.isMarked, s.set (0, j) { nd with isMarked := mark }, ?_, ⟨hinv, h.mem, h.inj⟩, ⟨rfl, rfl, rfl⟩⟩
  simp only [deref_of_tree hnd, ok_bind, getSumsLeavesToRoot_spec hinv hmem]

/-- What an access finds, and the list of `verifyStackDist` with it; then the new state. -/
theorem access_spec (verify : Bool) (h : Mapped s S) (hro : s.index < 2147483648) (op : Access) :
    ∃ mark s' S', s.access verify op =
        (if (verify && op.verified) = true ∧ plainDist s.stack op.address ≠ dist s.aiMap S op.address
          then .error .mismatch else .ok (dist s.aiMap S op.address, mark, s')) ∧
      Mapped s' S' ∧ s.index ≤ s'.index ∧ s'.index ≤ s.index + 1 ∧
      s'.aiMap = op.stamp s.index s.aiMap ∧ s'.stack = if verify then op.push s.stack else s.stack := by
  cases op with
  | calcStackDist a mark =>
    obtain ⟨oldMark, s', hrun, hm, hsa⟩ := lookAt_spec h a mark
    refine ⟨oldMark, s', S, ?_, hm, hsa.index.ge, hsa.index.trans_le (Nat.le_succ _), hsa.aiMap, ?_⟩
    · rw [access, calcStackDist, hrun, ok_bind]
      simp only [hsa.stack]
      simp [Access.verified, Access.address]
    · rw [hsa.stack]
      exact (ite_self _).symm
  | calcStackDistAndUpdate a addNewNode =>
    obtain ⟨mark, s₁, S₁, hrun, hinv, hin, hst, hmap, hmem⟩ := takeOld_spec verify h hro a addNewNode
    cases addNewNode with
    | false =>
      refine ⟨mark, s₁, S₁, ?_, .forget hinv hmap hmem h.inj, hin.ge,
        hin.trans_le (Nat.le_succ _), hmap, hst.trans (ite_self _).symm⟩
      rw [access, calcStackDistAndUpdate, hrun, ok_bind]
      simp [Access.verified, Access.address]
    | true =>
      obtain ⟨s₂, hadd, hsa, hsan, hinv₂⟩ := addLeaf_spec verify hinv (hin ▸ hro)
      have hmap₂ : s₂.aiMap = update s.aiMap a (some s₁.index) := by
        rw [hsa.aiMap, hmap, hin]
        rfl
      have hla := hsa.index.trans hin
      refine ⟨mark, { s₂ with
        stack := if verify then plainPush s₂.stack a else s₂.stack, index := s₂.index + 1 },
        insert s₁.index S₁, ?_, .add (hinv₂.setRest _ _) hinv.grown.lt hmap₂ hmem h.inj, ?_, ?_, ?_, ?_⟩
      · rw [access, calcStackDistAndUpdate, hrun, ok_bind]
        simp only [if_true, hadd, ok_bind, hsan, hsa.stack, hst]
        cases verify
        · rfl
        · simp [Access.verified, Access.address]
      · exact hla.ge.trans (Nat.le_succ _)
      · exact Nat.succ_le_succ hla.le
      · rw [Access.stamp, ← hin]
        exact hmap₂
      · rw [Access.push, ← hst, ← hsa.stack]

end GuardianCouncil.StackDist
