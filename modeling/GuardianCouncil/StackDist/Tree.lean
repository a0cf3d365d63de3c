import GuardianCouncil.Lib.Dyadic
import GuardianCouncil.StackDist.Calc

/-!
# The tree of partial sums

Node `k` of layer `l` stands for block `k` of length `2 ^ l` of access numbers, and its two sums count the
leaves in use in the two halves of the block.  Going up from a leaf visits the blocks that the leaf is in,
so what is added up on the way is the number of leaves above it.

While the sums are being brought up to date, the layers below have counted a leaf that the layers above have
not, or the other way round: `TreeInv` takes the set of leaves that each layer has seen.  A node that is
missing, or half of which is marked as discarded, stands for a block, or half a block, that is spent.
-/

namespace GuardianCouncil.StackDist

open Fallible Dyadic

variable {s s' : Calc} {n : ℕ} {S S' : Finset ℕ} {j l k : ℕ} {nd : Node}

/-- What a node of layer `l + 1` holds. -/
structure NodeOk (n depth : ℕ) (S : Finset ℕ) (l k : ℕ) (nd : Node) : Prop where
  nodeIndex : nd.nodeIndex = k
  isLeftNode : nd.isLeftNode = (k % 2 == 0)
  parent : nd.parent = if l + 1 < depth then some (l + 2, k / 2) else none
  sumLeft : nd.sumLeft = count S l (2 * k)
  sumRight : nd.sumRight = count S l (2 * k + 1)
  discardLeft : nd.discardLeft = true → Spent n S l (2 * k)
  discardRight : nd.discardRight = true → Spent n S l (2 * k + 1)

structure LeafOk (j : ℕ) (nd : Node) : Prop where
  isLeftNode : nd.isLeftNode = (j % 2 == 0)
  parent : nd.parent = some (1, j / 2)

/-- The tree after `n` accesses, where layer `l` has seen the leaves `S l`. -/
structure TreeInv (s : Calc) (n : ℕ) (S : ℕ → Finset ℕ) : Prop where
  leaf : ∀ j nd, s.tree (0, j) = some nd → LeafOk j nd
  layer : ∀ l k nd, s.tree (l + 1, k) = some nd → l + 1 ≤ s.depth ∧ k < s.nextIndex (l + 1)
  node : ∀ l k nd, s.tree (l + 1, k) = some nd → NodeOk n s.depth (S (l + 1)) l k nd
  present : ∀ l k, l + 1 ≤ s.depth → k < s.nextIndex (l + 1) → ¬ Spent n (S (l + 1)) (l + 1) k →
    ∃ nd, s.tree (l + 1, k) = some nd
  root : ∃ nd, s.tree (s.depth, 0) = some nd

/-- What is at place `k` of layer `l + 1`: a node, or nothing if the block is spent. -/
def NodeAt (n depth next : ℕ) (S : Finset ℕ) (l k : ℕ) : Option Node → Prop
  | some nd => (l + 1 ≤ depth ∧ k < next) ∧ NodeOk n depth S l k nd
  | none => l + 1 ≤ depth → k < next → Spent n S (l + 1) k

variable {depth next : ℕ} {s'' : Calc}

theorem NodeAt.congr {depth' next' : ℕ} (hpl : l + 1 ≤ depth ∧ k < next ↔ l + 1 ≤ depth' ∧ k < next')
    (hok : l + 1 ≤ depth → k < next → ∀ nd, NodeOk n depth S l k nd → NodeOk n depth' S l k nd) :
    ∀ {o : Option Node}, NodeAt n depth next S l k o → NodeAt n depth' next' S l k o
  | none, h => fun hl hk => (hpl.2 ⟨hl, hk⟩).elim h
  | some nd, h => ⟨hpl.1 h.1, hok h.1.1 h.1.2 nd h.2⟩

theorem TreeInv.nodeAt {S : ℕ → Finset ℕ} (h : TreeInv s n S) (l k : ℕ) :
    NodeAt n s.depth (s.nextIndex (l + 1)) (S (l + 1)) l k (s.tree (l + 1, k)) := by
  rcases htr : s.tree (l + 1, k) with _ | nd
  · intro hl hk
    by_contra hsp
    obtain ⟨nd, hnd⟩ := h.present l k hl hk hsp
    cases htr.symm.trans hnd
  · exact ⟨h.layer l k nd htr, h.node l k nd htr⟩

theorem TreeInv.of_nodeAt {S : ℕ → Finset ℕ} (hlea : ∀ j nd, s.tree (0, j) = some nd → LeafOk j nd)
    (h : ∀ l k, NodeAt n s.depth (s.nextIndex (l + 1)) (S (l + 1)) l k (s.tree (l + 1, k)))
    (hro : ∃ nd, s.tree (s.depth, 0) = some nd) : TreeInv s n S := by
  have hat : ∀ l k nd, s.tree (l + 1, k) = some nd → NodeAt n s.depth _ (S (l + 1)) l k (some nd) :=
    fun l k nd hnd => hnd ▸ h l k
  refine ⟨hlea, fun l k nd hnd => (hat l k nd hnd).1, fun l k nd hnd => (hat l k nd hnd).2, ?_, hro⟩
  intro l k hl hk hsp
  refine Option.ne_none_iff_exists'.1 fun hn => hsp ?_
  have hk' := h l k
  rw [hn] at hk'
  exact hk' hl hk

theorem deref_of_tree {p : Ptr} (h : s.tree p = some nd) : s.deref p = .ok nd := by
  rw [Calc.deref, h]

/-- Nothing but the inner nodes is different. -/
structure SameStack (s s' : Calc) : Prop where
  index : s'.index = s.index
  aiMap : s'.aiMap = s.aiMap
  stack : s'.stack = s.stack
  tree : ∀ j, s'.tree (0, j) = s.tree (0, j)

/-- Nothing but the values of inner nodes is different. -/
structure SameLeaves (s s' : Calc) : Prop extends SameStack s s' where
  depth : s'.depth = s.depth
  nextIndex : s'.nextIndex = s.nextIndex

theorem SameStack.refl (s : Calc) : SameStack s s := ⟨rfl, rfl, rfl, fun _ => rfl⟩

theorem SameStack.trans (h : SameStack s s') (h' : SameStack s' s'') : SameStack s s'' :=
  ⟨h'.index.trans h.index, h'.aiMap.trans h.aiMap, h'.stack.trans h.stack, fun j => (h'.tree j).trans (h.tree j)⟩

theorem SameLeaves.trans (h : SameLeaves s s') (h' : SameLeaves s' s'') : SameLeaves s s'' :=
  ⟨h.toSameStack.trans h'.toSameStack, h'.depth.trans h.depth, h'.nextIndex.trans h.nextIndex⟩

/-! ## One node on the way up -/

/-- A leaf `j` that comes or goes, as the sums see it. -/
structure Change (n : ℕ) (S S' : Finset ℕ) (j : ℕ) : Prop where
  other : ∀ x, x ≠ j → (x ∈ S ↔ x ∈ S')
  spent : ∀ l k, Spent n S l k → Spent n S' l k
  alive : ∀ l, ¬ Spent n S l (j / 2 ^ l)

theorem Change.erase (hj : j ∈ S) : Change n S (S.erase j) j where
  other x hx := by
    rw [Finset.mem_erase]
    exact ⟨fun h => ⟨hx, h⟩, And.right⟩
  spent _ _ h := h.subset (Finset.erase_subset j S)
  alive l := not_spent_of_mem hj l

theorem Change.insert (S : Finset ℕ) (hj : n ≤ j) : Change n S (Insert.insert j S) j where
  other x hx := by
    rw [Finset.mem_insert]
    exact ⟨Or.inr, fun h => h.resolve_left hx⟩
  spent _ _ h := h.insert hj
  alive l := not_spent_of_le hj l

/-- The sets that the layers have seen when the change has come up to layer `l`. -/
def seen (S S' : Finset ℕ) (l : ℕ) (i : ℕ) : Finset ℕ := if i ≤ l then S' else S

theorem seen_succ_of_ne (h : k ≠ l + 1) : seen S S' (l + 1) k = seen S S' l k := by
  unfold seen
  by_cases hk : k ≤ l
  · rw [if_pos hk, if_pos (by omega)]
  · rw [if_neg hk, if_neg (by omega)]

/-- A node that the change passes. -/
theorem NodeOk.updated (hch : Change n S S' j) (h : NodeOk n depth S l (j / 2 ^ (l + 1)) nd)
    {discard : Bool} (hdi : discard = true → Spent n S' l (j / 2 ^ l)) : NodeOk n depth S' l (j / 2 ^ (l + 1))
      (nd.updated (j / 2 ^ l % 2 == 0) (count S' l (j / 2 ^ l)) discard) := by
  have hco : ∀ k, k ≠ j / 2 ^ l → count S l k = count S' l k := fun k hk =>
    count_congr hch.other hk
  rw [div_two_pow_succ] at h ⊢
  generalize j / 2 ^ l = m at h hdi hco ⊢
  have hlef := h.discardLeft
  have hri := h.discardRight
  -- the change comes from one of the two halves, and leaves the other one alone
  rcases Nat.mod_two_eq_zero_or_one m with hev | hodd
  · have hm : 2 * (m / 2) = m := by omega
    have hr := h.sumRight
    have hs := hch.spent l m
    have hs' := hch.spent l (m + 1)
    rw [hm] at hlef hri hr
    rw [hco (m + 1) (by omega)] at hr
    refine ⟨h.nodeIndex, h.isLeftNode, h.parent, ?_, ?_, ?_, ?_⟩
    all_goals
      rw [hm]
      simp [Node.updated, hev, hr]
    · grind
    · exact fun hd => hs' (hri hd)
  · have hm : 2 * (m / 2) + 1 = m := by omega
    have hl := h.sumLeft
    have hs := hch.spent l (2 * (m / 2))
    have hs' := hch.spent l m
    rw [hco (2 * (m / 2)) (by omega)] at hl
    refine ⟨h.nodeIndex, h.isLeftNode, h.parent, ?_, ?_, ?_, ?_⟩
    · simp [Node.updated, hodd, hl]
    · simp [Node.updated, hodd, hm]
    · simp [Node.updated, hodd]
      exact fun hd => hs (hlef hd)
    · simp [Node.updated, hodd]
      grind

/-- A node beside the way. -/
theorem NodeOk.beside (hch : Change n S S' j) (h : NodeOk n depth S l k nd)
    (hk : k ≠ j / 2 ^ (l + 1)) : NodeOk n depth S' l k nd where
  nodeIndex := h.nodeIndex
  isLeftNode := h.isLeftNode
  parent := h.parent
  sumLeft := by
    rw [h.sumLeft]
    refine count_congr hch.other ?_
    rw [div_two_pow_succ] at hk
    omega
  sumRight := by
    rw [h.sumRight]
    refine count_congr hch.other ?_
    rw [div_two_pow_succ] at hk
    omega
  discardLeft hd := hch.spent _ _ (h.discardLeft hd)
  discardRight hd := hch.spent _ _ (h.discardRight hd)

theorem NodeAt.beside (hch : Change n S S' j) (hk : k ≠ j / 2 ^ (l + 1)) :
    ∀ {o : Option Node}, NodeAt n depth next S l k o → NodeAt n depth next S' l k o
  | none, h => fun hl hnext => hch.spent _ _ (h hl hnext)
  | some _, h => ⟨h.1, h.2.beside hch hk⟩

/-- The node of a layer with its new values, or without it. -/
def Calc.pass (s : Calc) (p : Ptr) (u : Node) (drop : Bool) : Calc :=
  if drop then ((s.set p u).erase p).erase p else s.set p u

theorem Calc.pass_tree (s : Calc) (p : Ptr) (u : Node) (drop : Bool) (q : Ptr) :
    (s.pass p u drop).tree q = if q = p then (if drop then none else some u) else s.tree q := by
  cases drop <;> by_cases hq : q = p <;> simp [Calc.pass, Calc.set, Calc.erase, hq]

theorem sameLeaves_pass (s : Calc) (l k : ℕ) (u : Node) (drop : Bool) : SameLeaves s (s.pass (l + 1, k) u drop) := by
  refine ⟨⟨?_, ?_, ?_, fun j => ?_⟩, ?_, ?_⟩
  case refine_4 => rw [Calc.pass_tree, if_neg (by simp)]
  all_goals
    unfold Calc.pass
    split <;> rfl

/-- **One node on the way up.**  The layer of the node has then seen the change. -/
theorem TreeInv.pass (h : TreeInv s n (seen S S' l)) (hch : Change n S S' j) (hl : l + 1 ≤ s.depth)
    (hnext : j / 2 ^ (l + 1) < s.nextIndex (l + 1)) {u : Node} (hu : NodeOk n s.depth S' l (j / 2 ^ (l + 1)) u)
    {drop : Bool} (hdr : drop = true → l + 1 < s.depth ∧ Spent n S' (l + 1) (j / 2 ^ (l + 1))) :
    TreeInv (s.pass (l + 1, j / 2 ^ (l + 1)) u drop) n (seen S S' (l + 1)) := by
  have hsa := sameLeaves_pass s l (j / 2 ^ (l + 1)) u drop
  have hse : seen S S' (l + 1) (l + 1) = S' := if_pos le_rfl
  have hs' : seen S S' l (l + 1) = S := if_neg (by omega)
  refine .of_nodeAt (fun j nd hnd => h.leaf j nd (hsa.tree j ▸ hnd)) (fun l' k => ?_) ?_
  · have hat := h.nodeAt l' k
    rw [hsa.depth, hsa.nextIndex, Calc.pass_tree]
    split
    · rename_i heq
      cases heq
      rw [hse]
      cases drop with
      | false => exact ⟨⟨hl, hnext⟩, hu⟩
      | true => exact fun _ _ => (hdr rfl).2
    · rename_i hne
      by_cases hl' : l' = l
      · subst hl'
        rw [hs'] at hat
        rw [hse]
        exact hat.beside hch fun hk => hne (by rw [hk])
      · rwa [seen_succ_of_ne (by omega)]
  · rw [hsa.depth, Calc.pass_tree]
    split
    · rename_i heq
      have hro : s.depth = l + 1 := congrArg Prod.fst heq
      split
      · rename_i hd
        have hlt := (hdr hd).1
        omega
      · exact ⟨u, rfl⟩
    · exact h.root

/-! ## The way up -/

theorem oneShl_eq {i : ℕ} (hi : i ≤ 30) : oneShl i = 2 ^ i := by
  have h : ∀ i < 31, oneShl i = 2 ^ i := by decide
  exact h i (by omega)

/-- The nodes on the way up from `j` are there. -/
theorem TreeInv.exists_node (h : TreeInv s n (seen S S' l)) (hch : Change n S S' j)
    (hl : l + 1 ≤ s.depth) (hnext : j / 2 ^ (l + 1) < s.nextIndex (l + 1)) :
    ∃ nd, s.tree (l + 1, j / 2 ^ (l + 1)) = some nd ∧ NodeOk n s.depth S l (j / 2 ^ (l + 1)) nd := by
  have hse : seen S S' l (l + 1) = S := if_neg (by omega)
  obtain ⟨nd, hnd⟩ := h.present l _ hl hnext (by rw [hse]; exact hch.alive (l + 1))
  have hok := h.node l _ nd hnd
  rw [hse] at hok
  exact ⟨nd, hnd, hok⟩

/-- What the node on the way adds to the distance. -/
theorem NodeOk.above_succ (h : NodeOk n depth S l (j / 2 ^ (l + 1)) nd) (dist : ℕ) :
    (if (j / 2 ^ l % 2 == 0) = true then dist + nd.sumRight else dist) + above S j l = dist + above S j (l + 1) := by
  rw [Dyadic.above_succ, h.sumRight, div_two_pow_succ]
  by_cases hev : j / 2 ^ l % 2 = 0
  · have hm : 2 * (j / 2 ^ l / 2) + 1 = j / 2 ^ l + 1 := by omega
    rw [if_pos (beq_iff_eq.2 hev), if_pos hev, hm]
    omega
  · rw [if_neg (by simpa using hev), if_neg hev]
    omega

theorem updateSum_spec (verify : Bool) (hch : Change n S S' j) (fuel dist : ℕ) (discard : Bool)
    (hl : l + 1 ≤ s.depth) (hf : s.depth ≤ l + fuel) (hde : s.depth ≤ 31)
    (hnext : ∀ i, i + 1 ≤ s.depth → j / 2 ^ (i + 1) < s.nextIndex (i + 1))
    (h : TreeInv s n (seen S S' l)) (hdi : discard = true → Spent n S' l (j / 2 ^ l)) :
    ∃ r s', Calc.updateSum verify fuel s (l + 1, j / 2 ^ (l + 1)) (j / 2 ^ l % 2 == 0)
        (count S' l (j / 2 ^ l)) l dist discard = .ok (r, s') ∧
      r + above S j l = dist + above S j s.depth ∧ SameLeaves s s' ∧
      TreeInv s' n (seen S S' s.depth) := by
  induction fuel generalizing s l dist discard with
  | zero => omega
  | succ fuel ih =>
    obtain ⟨nd, hnd, hok⟩ := h.exists_node hch hl (hnext l hl)
    have hu := hok.updated hch hdi
    have hdis := hok.above_succ dist
    have hsum : ¬ (verify = true ∧ (oneShl (l + 1 - 1) < nd.sumLeft ∨ oneShl (l + 1 - 1) < nd.sumRight)) := by
      have hle := count_le S l (2 * (j / 2 ^ (l + 1)))
      have hle' := count_le S l (2 * (j / 2 ^ (l + 1)) + 1)
      rw [Nat.add_sub_cancel, oneShl_eq (by omega), hok.sumLeft, hok.sumRight]
      omega
    rw [Calc.updateSum, deref_of_tree hnd, ok_bind, if_neg hsum]
    simp only
    generalize nd.updated (j / 2 ^ l % 2 == 0) (count S' l (j / 2 ^ l)) discard = u at hu ⊢
    generalize hd : (u.discardLeft && u.discardRight && discard && u.parent.isSome &&
      count S' l (j / 2 ^ l) == 0) = drop
    have hdr : drop = true → l + 1 < s.depth ∧ Spent n S' (l + 1) (j / 2 ^ (l + 1)) := by
      intro htr
      rw [← hd] at htr
      simp only [Bool.and_eq_true] at htr
      obtain ⟨⟨⟨⟨hlef, hri⟩, -⟩, hparent⟩, -⟩ := htr
      refine ⟨?_, (hu.discardLeft hlef).join (hu.discardRight hri)⟩
      rw [hu.parent] at hparent
      by_contra hge
      rw [if_neg hge] at hparent
      cases hparent
    have hpa := h.pass hch hl (hnext l hl) hu hdr
    have hsa := sameLeaves_pass s l (j / 2 ^ (l + 1)) u drop
    have hs : (if drop = true then
        ((s.set (l + 1, j / 2 ^ (l + 1)) u).erase (l + 1, j / 2 ^ (l + 1))).erase (l + 1, u.nodeIndex)
      else s.set (l + 1, j / 2 ^ (l + 1)) u) = s.pass (l + 1, j / 2 ^ (l + 1)) u drop := by
      rw [hu.nodeIndex, Calc.pass]
    rw [hs, hu.parent]
    by_cases hro : l + 1 < s.depth
    · rw [if_pos hro, hu.isLeftNode, hu.sumLeft, hu.sumRight, ← count_succ]
      have hup : j / 2 ^ (l + 1) / 2 = j / 2 ^ (l + 1 + 1) := (div_two_pow_succ j (l + 1)).symm
      rw [hup]
      rw [← hsa.depth] at hro hf hde hnext ⊢
      rw [← hsa.nextIndex] at hnext
      obtain ⟨r, s', hrun, hr, hs', htre⟩ := ih _ _ hro (by omega) hde hnext hpa fun htr => (hdr htr).2
      exact ⟨r, s', hrun, by omega, hsa.trans hs', htre⟩
    · have htop : s.depth = l + 1 := by omega
      rw [if_neg hro, htop]
      exact ⟨_, _, rfl, hdis, hsa, hpa⟩

theorem seen_self (S : Finset ℕ) (l : ℕ) : seen S S l = fun _ => S := funext fun _ => ite_self S

theorem Change.refl (hj : j ∈ S) : Change n S S j := ⟨fun _ _ => Iff.rfl, fun _ _ h => h, not_spent_of_mem hj⟩

theorem getSum_spec (hj : j ∈ S) (h : TreeInv s n fun _ => S) (fuel dist : ℕ)
    (hl : l + 1 ≤ s.depth) (hf : s.depth ≤ l + fuel)
    (hnext : ∀ i, i + 1 ≤ s.depth → j / 2 ^ (i + 1) < s.nextIndex (i + 1)) :
    ∃ r, s.getSum fuel (l + 1, j / 2 ^ (l + 1)) (j / 2 ^ l % 2 == 0) dist = .ok r ∧
      r + above S j l = dist + above S j s.depth := by
  induction fuel generalizing l dist with
  | zero => omega
  | succ fuel ih =>
    rw [← seen_self S l] at h
    obtain ⟨nd, hnd, hok⟩ := h.exists_node (Change.refl hj) hl (hnext l hl)
    have hd := hok.above_succ dist
    rw [seen_self] at h
    rw [Calc.getSum, deref_of_tree hnd, ok_bind]
    simp only
    rw [hok.parent]
    by_cases hro : l + 1 < s.depth
    · rw [if_pos hro, hok.isLeftNode]
      have hup : j / 2 ^ (l + 1) / 2 = j / 2 ^ (l + 1 + 1) := (div_two_pow_succ j (l + 1)).symm
      rw [hup]
      obtain ⟨r, hrun, hr⟩ := ih _ hro (by omega)
      exact ⟨r, hrun, by omega⟩
    · have htop : s.depth = l + 1 := by omega
      rw [if_neg hro, htop]
      exact ⟨_, rfl, hd⟩

/-- The climb from a node to the root. -/
theorem climb_spec (hj : j ∈ S) (h : TreeInv s n fun _ => S) (m : ℕ) (hl : l + 1 + m ≤ s.depth)
    (hnext : ∀ i, i + 1 ≤ s.depth → j / 2 ^ (i + 1) < s.nextIndex (i + 1)) :
    s.climb m (l + 1, j / 2 ^ (l + 1)) = .ok (l + 1 + m, j / 2 ^ (l + 1 + m)) := by
  induction m generalizing l with
  | zero => rfl
  | succ m ih =>
    rw [← seen_self S l] at h
    obtain ⟨nd, hnd, hok⟩ := h.exists_node (Change.refl hj) (by omega) (hnext l (by omega))
    rw [seen_self] at h
    rw [Calc.climb, deref_of_tree hnd, ok_bind]
    rw [hok.parent, if_pos (by omega)]
    have hup : j / 2 ^ (l + 1) / 2 = j / 2 ^ (l + 1 + 1) := (div_two_pow_succ j (l + 1)).symm
    simp only
    rw [hup, ih (by omega), show l + 1 + 1 + m = l + 1 + (m + 1) by omega]

end GuardianCouncil.StackDist
