import GuardianCouncil.StackDist.Tree

/-!
# The growth of the tree

Before access `n` becomes a leaf, every layer needs the node of the block that `n` is in.  The number of nodes
that a layer has been given tells whether it has that node: `nextIndex l` is `n / 2 ^ l + 1` if it does, and
`(n - 1) / 2 ^ l + 1` if it only has those of the accesses before.  `Grown s S i` says that the layers above `i`
are ready, and `updateTree` goes down from the top to layer 1.
-/

namespace GuardianCouncil.StackDist

open Fallible Dyadic Function BitVec

variable {s s' : Calc} {S : Finset ℕ}

/-- The tree before access `n`, up to the layers in which the node for it may be missing. -/
structure Grown (s : Calc) (S : Finset ℕ) (i : ℕ) : Prop where
  tree : TreeInv s s.index fun _ => S
  lt : ∀ x ∈ S, x < s.index
  /-- Layers above `i` have the node that access `n` goes to. -/
  high : ∀ l, i < l → l ≤ s.depth → s.nextIndex l = s.index / 2 ^ l + 1
  low : ∀ l, 1 ≤ l → l ≤ i → s.nextIndex l = (s.index - 1) / 2 ^ l + 1

theorem Grown.skip {i : ℕ} (h : Grown s S (i + 1)) (hmod : s.index % 2 ^ (i + 1) ≠ 0) : Grown s S i := by
  refine ⟨h.tree, h.lt, fun l hl hd => ?_, fun l hl hi => h.low l hl (by omega)⟩
  by_cases hli : l = i + 1
  · subst hli
    obtain ⟨m, hm⟩ : ∃ m, s.index = m + 1 := ⟨s.index - 1, by
      have hne : s.index ≠ 0 := fun h0 => hmod (by rw [h0, Nat.zero_mod])
      omega⟩
    rw [h.low (i + 1) (by omega) le_rfl]
    rw [hm] at hmod ⊢
    rw [Nat.succ_div_of_mod_ne_zero hmod, Nat.add_sub_cancel]
  · exact h.high l (by omega) hd

/-- The new node of a layer stands for a block that begins with the access. -/
theorem Grown.addINode {i : ℕ} (h : Grown s S (i + 1)) (hi : i + 1 < s.depth) (hpos : 0 < s.index)
    (hmod : s.index % 2 ^ (i + 1) = 0) : Grown (s.addINode (i + 1)) S i := by
  obtain ⟨new, hnew⟩ : ∃ new, s.index / 2 ^ (i + 1) = new := ⟨_, rfl⟩
  have hnext : s.nextIndex (i + 1) = new := by
    obtain ⟨m, hm⟩ : ∃ m, s.index = m + 1 := ⟨s.index - 1, by omega⟩
    rw [h.low (i + 1) (by omega) le_rfl]
    rw [hm] at hmod ⊢
    rw [← hnew, hm, Nat.succ_div_of_mod_eq_zero hmod, Nat.add_sub_cancel]
  have hst : new * 2 ^ (i + 1) = s.index := hnew ▸ Nat.div_mul_cancel (Nat.dvd_of_mod_eq_zero hmod)
  have hup : s.nextIndex (i + 1 + 1) - 1 = new / 2 := by
    rw [h.high (i + 2) (by omega) (by omega), Nat.add_sub_cancel, div_two_pow_succ, hnew]
  have hparent : ∃ nd, s.tree (i + 1 + 1, new / 2) = some nd := by
    refine h.tree.present (i + 1) _ (by omega) ?_ ?_
    · rw [h.high (i + 1 + 1) (by omega) (by omega), div_two_pow_succ s.index (i + 1)]
      omega
    · rw [← hnew, ← div_two_pow_succ]
      exact not_spent_of_le le_rfl (i + 2)
  have hf : s.find (i + 1 + 1, s.nextIndex (i + 1 + 1) - 1) = some (i + 1 + 1, new / 2) := by
    obtain ⟨nd, hnd⟩ := hparent
    rw [hup, Calc.find, hnd]
    rfl
  have htr : ∀ q, (s.addINode (i + 1)).tree q =
      if q = (i + 1, new) then
        some { isLeftNode := new % 2 == 0, parent := some (i + 1 + 1, new / 2), nodeIndex := new }
      else s.tree q := by
    intro q
    simp only [Calc.addINode, hf]
    rw [hnext, update_apply]
  have hco : ∀ m, 2 * new ≤ m → count S i m = 0 := by
    intro m hm
    refine count_eq_zero h.lt ?_
    calc s.index = new * 2 ^ (i + 1) := hst.symm
      _ = 2 * new * 2 ^ i := by rw [pow_succ]; ring
      _ ≤ m * 2 ^ i := Nat.mul_le_mul_right _ hm
  refine ⟨.of_nodeAt (fun j nd hnd => ?_) (fun l k => ?_) ?_, h.lt, ?_, ?_⟩
  · rw [htr, if_neg (by simp)] at hnd
    exact h.tree.leaf j nd hnd
  · have hat := h.tree.nodeAt l k
    change NodeAt _ s.depth (update s.nextIndex (i + 1) (s.nextIndex (i + 1) + 1) (l + 1)) ..
    rw [htr]
    split
    · rename_i heq
      cases heq
      rw [update_self, hnext]
      refine ⟨⟨hi.le, Nat.lt_succ_self _⟩, rfl, rfl, (if_pos hi).symm, (hco _ le_rfl).symm,
        (hco _ (by omega)).symm, ?_, ?_⟩
      all_goals exact fun hd => absurd hd Bool.false_ne_true
    · rename_i hne
      by_cases hli : l = i
      · -- the layer has one more place, which is not this one
        subst hli
        have hk : k ≠ new := fun heq => hne (by rw [heq])
        rw [update_self]
        exact hat.congr (by omega) fun _ _ _ => id
      · rwa [update_of_ne (by omega)]
  · obtain ⟨nd, hnd⟩ := h.tree.root
    refine ⟨nd, ?_⟩
    rw [htr, if_neg]
    · exact hnd
    · intro heq
      have hde : s.depth = i + 1 := congrArg Prod.fst heq
      omega
  · intro l hl hd
    change update s.nextIndex (i + 1) (s.nextIndex (i + 1) + 1) l = _
    by_cases hli : l = i + 1
    · rw [hli, update_self, hnext, ← hnew]
      rfl
    · rw [update_of_ne hli]
      exact h.high l (by omega) hd
  · intro l hl hli
    change update s.nextIndex (i + 1) (s.nextIndex (i + 1) + 1) l = _
    rw [update_of_ne (by omega)]
    exact h.low l hl (by omega)

theorem Grown.addINodes (wants : ℕ → Bool) (hpos : 0 < s.index)
    (hw : ∀ i, 1 ≤ i → i < s.depth → (wants i = true ↔ s.index % 2 ^ i = 0)) (m : ℕ) (hm : m < s.depth)
    (h : Grown s S m) : Grown (Calc.addINodes wants m s) S 0 ∧ SameStack s (Calc.addINodes wants m s) ∧
      (Calc.addINodes wants m s).depth = s.depth := by
  induction m generalizing s with
  | zero => exact ⟨h, .refl s, rfl⟩
  | succ i ih =>
    rw [Calc.addINodes]
    by_cases hwa : wants (i + 1) = true
    · rw [if_pos hwa]
      have hsa : SameStack s (s.addINode (i + 1)) := ⟨rfl, rfl, rfl, fun j => by simp [Calc.addINode]⟩
      have hg := h.addINode hm hpos ((hw (i + 1) (by omega) hm).1 hwa)
      obtain ⟨hg', hs', hd⟩ := ih (s := s.addINode (i + 1)) hpos hw (Nat.lt_of_succ_lt hm) hg
      exact ⟨hg', hsa.trans hs', hd⟩
    · rw [if_neg hwa]
      exact ih hpos hw (by omega) (h.skip fun hmod => hwa ((hw (i + 1) (by omega) hm).2 hmod))

/-- At a power of two the tree is full, and a new root is put above the old one. -/
theorem Grown.addRoot (h : Grown s S s.depth) (hd : 1 ≤ s.depth) (hin : s.index = 2 ^ s.depth) :
    ∃ s', s.addRoot = .ok s' ∧ Grown s' S s.depth ∧ SameStack s s' ∧ s'.depth = s.depth + 1 := by
  obtain ⟨root, hro⟩ := h.tree.root
  obtain ⟨d, hde⟩ : ∃ d, s.depth = d + 1 := ⟨s.depth - 1, by omega⟩
  have hok := h.tree.node d 0 root (hde ▸ hro)
  have htop : s.nextIndex s.depth = 1 := by
    rw [h.low s.depth hd le_rfl, hin, Nat.div_eq_of_lt]
    have hpos := Nat.two_pow_pos s.depth
    omega
  have hsum : root.sumRight + root.sumLeft = count S s.depth 0 := by
    rw [hde, count_succ, hok.sumLeft, hok.sumRight]
    exact add_comm _ _
  have hnew : NodeOk s.index (s.depth + 1) S s.depth 0 (Calc.newRoot root) := by
    refine ⟨rfl, rfl, (if_neg (lt_irrefl _)).symm, hsum, ?_, ?_, fun hf => absurd hf Bool.false_ne_true⟩
    · exact (count_eq_zero h.lt (by rw [hin]; omega)).symm
    · intro hbo
      obtain ⟨hlef, hri⟩ := Bool.and_eq_true_iff.1 hbo
      rw [hde]
      exact (hok.discardLeft hlef).join (hok.discardRight hri)
  rw [Calc.addRoot, deref_of_tree hro, ok_bind]
  refine ⟨_, rfl, ?_⟩
  simp only [Nat.add_sub_cancel]
  generalize hs' : Calc.set _ _ _ = s'
  have htr : ∀ q, s'.tree q = if q = (s.depth, 0) then some { root with parent := some (s.depth + 1, 0) }
      else if q = (s.depth + 1, 0) then some (Calc.newRoot root) else s.tree q := by
    intro q
    rw [← hs']
    simp only [Calc.set, update_apply]
  have hd' : s'.depth = s.depth + 1 := by rw [← hs']; rfl
  have hi' : s'.index = s.index := by rw [← hs']; rfl
  have hnext : ∀ l, s'.nextIndex l = if l = s.depth + 1 then 1 else s.nextIndex l := by
    intro l
    rw [← hs']
    simp only [Calc.set, update_apply]
  refine ⟨⟨.of_nodeAt (fun j nd hnd => ?_) (fun l k => ?_) ?_, ?_, ?_, ?_⟩,
    ⟨hi', by rw [← hs']; rfl, by rw [← hs']; rfl, fun j => ?_⟩, hd'⟩
  · rw [htr, if_neg (by simp; omega), if_neg (by simp)] at hnd
    exact h.tree.leaf j nd hnd
  · have hat := h.tree.nodeAt l k
    rw [hi', hd', htr]
    split
    · rename_i heq
      obtain ⟨hl, rfl⟩ := Prod.mk.inj heq
      obtain rfl : l = d := by omega
      rw [hnext, if_neg (by omega), hl, htop]
      refine ⟨⟨by omega, one_pos⟩, { hok with parent := ?_ }⟩
      rw [if_pos (by omega), hde]
    · rename_i hne
      split
      · rename_i heq
        obtain ⟨hl, rfl⟩ := Prod.mk.inj heq
        obtain rfl : l = s.depth := by omega
        rw [hnext, if_pos rfl]
        exact ⟨⟨le_rfl, one_pos⟩, hnew⟩
      · rename_i hne'
        have hk : l + 1 = s.depth + 1 → k ≠ 0 := fun hl hk => hne' (by rw [hl, hk])
        rw [hnext]
        refine hat.congr (by split <;> omega) fun hl hlt nd hnode => ?_
        -- the only node of the old top layer is the old root
        have hbe : l + 1 < s.depth := by
          refine lt_of_le_of_ne hl fun heq => hne ?_
          rw [heq, htop] at hlt
          rw [heq, Nat.lt_one_iff.1 hlt]
        refine { hnode with parent := ?_ }
        rw [hnode.parent, if_pos hbe, if_pos (by omega)]
  · rw [hd', htr, if_neg (by simp), if_pos rfl]
    exact ⟨_, rfl⟩
  · rw [hi']
    exact h.lt
  · intro l hl hl'
    rw [hd'] at hl'
    obtain rfl : l = s.depth + 1 := by omega
    rw [hnext, if_pos rfl, hi', hin, Nat.div_eq_of_lt (Nat.pow_lt_pow_right (by omega) (by omega))]
  · intro l hl hl'
    rw [hnext, if_neg (by omega), hi']
    exact h.low l hl hl'
  · rw [htr, if_neg (by simp; omega), if_neg (by simp)]

theorem and_not_eq_self_iff {w : ℕ} (x y : BitVec w) : x &&& ~~~y = x ↔ x &&& y = 0 := by
  constructor
  all_goals
    intro h
    ext i hi
    have hbit := congrArg (fun z => z[i]) h
    simp only [getElem_and, getElem_not, ofNat_eq_ofNat, getElem_zero] at hbit ⊢
    cases hx : x[i] <;> cases hy : y[i] <;> simp_all

/-- The test for a power of two is one. -/
theorem isPowerOf2_iff {m : ℕ} (hm : m < 2 ^ 64) : isPowerOf2 m = true ↔ m.isPowerOfTwo := by
  have hval : (BitVec.ofNat 64 m).toNat = m := Nat.mod_eq_of_lt hm
  have hzero : BitVec.ofNat 64 m = 0 ↔ m = 0 := by
    rw [← toNat_inj, hval]
    rfl
  rw [isPowerOf2, Bool.and_eq_true, bne_iff_ne, beq_iff_eq, Ne, hzero]
  have hpr : m ≠ 0 → (BitVec.ofNat 64 m - 1).toNat = m - 1 := by
    intro hne
    rw [toNat_sub_of_le]
    · rw [hval]
      rfl
    · rw [le_def, hval]
      exact Nat.one_le_iff_ne_zero.2 hne
  have hand : m ≠ 0 → (leastSigBit (BitVec.ofNat 64 m) = BitVec.ofNat 64 m ↔ m &&& (m - 1) = 0) := by
    intro hne
    rw [leastSigBit, and_not_eq_self_iff, ← toNat_inj, toNat_and, hval, hpr hne]
    rfl
  constructor
  · rintro ⟨hne, hbit⟩
    exact (Nat.and_sub_one_eq_zero_iff_isPowerOfTwo hne).1 ((hand hne).1 hbit)
  · intro hpow
    have hne : m ≠ 0 := by
      obtain ⟨d, rfl⟩ := hpow
      exact (Nat.two_pow_pos d).ne'
    exact ⟨hne, (hand hne).2 ((Nat.and_sub_one_eq_zero_iff_isPowerOfTwo hne).2 hpow)⟩

/-- The size of the tree between accesses. -/
structure Sized (s : Calc) : Prop where
  depth_pos : 1 ≤ s.depth
  index_le : s.index ≤ 2 ^ s.depth
  lt_index : 2 ≤ s.depth → 2 ^ (s.depth - 1) < s.index

/-- The size of the tree that has room for an access. -/
structure Roomy (s : Calc) : Prop where
  depth_pos : 1 ≤ s.depth
  index_lt : s.index < 2 ^ s.depth
  le_index : 2 ≤ s.depth → 2 ^ (s.depth - 1) ≤ s.index

theorem depth_le_of_le (hle : 2 ≤ s.depth → 2 ^ (s.depth - 1) ≤ s.index) (hro : s.index < 2147483648) : s.depth ≤ 31 := by
  by_contra hd
  have hle := hle (by omega)
  have hpow : 2 ^ 31 ≤ 2 ^ (s.depth - 1) := Nat.pow_le_pow_right (by omega) (by omega)
  omega

/-- An even access is a power of two exactly if the tree is full. -/
theorem Sized.isPowerOf2_iff (h : Sized s) (hev : s.index % 2 = 0) (hro : s.index < 2147483648) :
    isPowerOf2 s.index = true ↔ s.index = 2 ^ s.depth := by
  rw [StackDist.isPowerOf2_iff (hro.trans (by decide))]
  refine ⟨?_, fun hin => ⟨s.depth, hin⟩⟩
  rintro ⟨m, hm⟩
  have hle : m ≤ s.depth := (Nat.pow_le_pow_iff_right (by omega)).1 (hm ▸ h.index_le)
  rcases Nat.lt_or_ge s.depth 2 with hone | htwo
  · have hpos := h.depth_pos
    rcases eq_zero_or_pos m with rfl | hm0
    · rw [hm] at hev
      cases hev
    · rw [hm, show m = s.depth by omega]
  · have hlt := h.lt_index htwo
    rw [hm, Nat.pow_lt_pow_iff_right (by omega)] at hlt
    rw [hm, show m = s.depth by omega]

theorem updateTree_spec (h : Grown s S s.depth) (hsi : Sized s) (hev : s.index % 2 = 0) (hroo : s.index < 2147483648) :
    ∃ s', s.updateTree = .ok s' ∧ Grown s' S 0 ∧ SameStack s s' ∧ Roomy s' := by
  have hd := hsi.depth_pos
  rw [Calc.updateTree]
  by_cases hfull : s.index = 2 ^ s.depth
  · rw [if_pos ((hsi.isPowerOf2_iff hev hroo).2 hfull)]
    obtain ⟨s₁, hrun, hg, hsa, hde⟩ := h.addRoot hd hfull
    rw [hrun, ok_bind, hde, Nat.add_sub_cancel]
    have hin : s₁.index = 2 ^ s.depth := by rw [hsa.index, hfull]
    have hdvd : ∀ i, 1 ≤ i → i < s₁.depth → (true = true ↔ s₁.index % 2 ^ i = 0) := by
      intro i _ hlt
      rw [hin]
      exact ⟨fun _ => Nat.mod_eq_zero_of_dvd (Nat.pow_dvd_pow 2 (by omega)), fun _ => rfl⟩
    obtain ⟨hg', hs', hd'⟩ := hg.addINodes (fun _ => true)
      (by rw [hin]; exact Nat.two_pow_pos _) hdvd s.depth (by omega)
    refine ⟨_, rfl, hg', hsa.trans hs', ?_, ?_, fun _ => ?_⟩
    · omega
    · rw [hs'.index, hd', hin, hde]
      exact Nat.pow_lt_pow_right (by omega) (by omega)
    · rw [hs'.index, hd', hin, hde, Nat.add_sub_cancel]
  · rw [if_neg (fun hpow => hfull ((hsi.isPowerOf2_iff hev hroo).1 hpow))]
    have hlt : s.index < 2 ^ s.depth := lt_of_le_of_ne hsi.index_le hfull
    have hg : Grown s S (s.depth - 1) := by
      refine ⟨h.tree, h.lt, fun l hl hl' => ?_, fun l hl hl' => h.low l hl (by omega)⟩
      obtain rfl : l = s.depth := by omega
      rw [h.low s.depth hd le_rfl, Nat.div_eq_of_lt hlt, Nat.div_eq_of_lt (by omega)]
    have hro : Roomy s := ⟨hd, hlt, fun htwo => (hsi.lt_index htwo).le⟩
    rcases eq_zero_or_pos s.index with hzero | hpos
    · have hone : s.depth - 1 = 0 := by
        by_contra hne
        have hlt := hsi.lt_index (by omega)
        exact Nat.not_lt_zero _ (hzero ▸ hlt)
      rw [hone] at hg ⊢
      exact ⟨s, rfl, hg, .refl s, hro⟩
    · have hdee := depth_le_of_le (fun h2 => (hsi.lt_index h2).le) hroo
      obtain ⟨hg', hs', hd'⟩ := hg.addINodes (fun i => s.index % oneShl i == 0) hpos
        (fun i hi hlt => by rw [oneShl_eq (by omega), beq_iff_eq]) (s.depth - 1) (by omega)
      refine ⟨_, rfl, hg', hs', ?_, ?_, ?_⟩
      · omega
      · rw [hs'.index, hd']
        exact hlt
      · rw [hs'.index, hd']
        exact hro.le_index

end GuardianCouncil.StackDist
