import GuardianCouncil.Lib.LruTree
import Mathlib.Tactic.IntervalCases

/-!
# Tree pseudo-LRU replacement

A set of `2 ^ k` ways has a tree of `2 ^ k - 1` bits, kept in one word in the order of a heap.  `touch` makes
every bit on the way's path say on which side the way is, and `getVictim` follows the bits to the other
sides.  `view` reads the tree off the word.
-/

namespace GuardianCouncil.Ruby

open Function List LruTree

/-! ## The policy -/

structure PseudoLRUPolicy where
  numSets : ℕ
  assoc : ℕ
  effectiveAssoc : ℕ
  numLevels : ℕ
  trees : ℕ → BitVec 64

namespace PseudoLRUPolicy

/-- `while (m_effective_assoc < m_assoc) m_effective_assoc <<= 1`. -/
def assocLoop (assoc : ℕ) : ℕ → ℕ → ℕ
  | 0, effectiveAssoc => effectiveAssoc
  | fuel + 1, effectiveAssoc =>
    if effectiveAssoc < assoc then assocLoop assoc fuel (effectiveAssoc <<< 1) else effectiveAssoc

/-- The loop that counts the levels. -/
def levelLoop : ℕ → ℕ → ℕ → ℕ
  | 0, _, numLevels => numLevels
  | fuel + 1, tmp, numLevels => if tmp / 2 = 0 then numLevels else levelLoop fuel (tmp / 2) (numLevels + 1)

/-- The constructor; here and below `none` is a failed assertion. -/
def new (numSets assoc : ℕ) : Option PseudoLRUPolicy :=
  if 0 < numSets ∧ 1 < assoc ∧ assoc ≤ 8 * 4 then
    if levelLoop assoc (assocLoop assoc assoc 1) 0 < 4 * 4 then
      some ⟨numSets, assoc, assocLoop assoc assoc 1, levelLoop assoc (assocLoop assoc assoc 1) 0, fun _ => 0⟩
    else none
  else none

/-- The shifts are shifts of an `int`. -/
def setNode (tree : BitVec 64) (treeIndex : ℕ) (nodeVal : Bool) : BitVec 64 :=
  if nodeVal then tree ||| (1#32 <<< treeIndex).signExtend 64
  else tree &&& (~~~(1#32 <<< treeIndex)).signExtend 64

def touchLoop (index : ℕ) : ℕ → ℕ → BitVec 64 → BitVec 64
  | 0, _, tree => tree
  | i + 1, treeIndex, tree =>
    let nodeVal := index.testBit i
    touchLoop index i (if nodeVal then treeIndex * 2 + 2 else treeIndex * 2 + 1) (setNode tree treeIndex nodeVal)

def touch (p : PseudoLRUPolicy) (set index : ℕ) : Option PseudoLRUPolicy :=
  if index < p.assoc ∧ set < p.numSets then
    some { p with trees := update p.trees set (touchLoop index p.numLevels 0 (p.trees set)) }
  else none

def victimLoop (effectiveAssoc : ℕ) (tree : BitVec 64) : ℕ → ℕ → ℕ → ℕ → ℕ
  | 0, _, _, index => index
  | n + 1, i, treeIndex, index =>
    let nodeVal := tree.getLsbD treeIndex
    victimLoop effectiveAssoc tree n (i + 1) (if nodeVal then treeIndex * 2 + 1 else treeIndex * 2 + 2)
      (index + if nodeVal then 0 else effectiveAssoc >>> (i + 1))

def getVictim (p : PseudoLRUPolicy) (set : ℕ) : Option ℕ :=
  let index := victimLoop p.effectiveAssoc (p.trees set) p.numLevels 0 0 0
  if index < p.effectiveAssoc then some (if p.assoc - 1 < index then p.assoc - 1 else index) else none

/-! ## The tree in the word -/

/-- The subtree below a node, `n` levels deep. -/
def view (b : ℕ → Bool) : (n : ℕ) → ℕ → LruTree n
  | 0, _ => .leaf
  | n + 1, t => .node (b t) (view b n (t * 2 + 1)) (view b n (t * 2 + 2))

/-- Node `j` is in the subtree below node `t`. -/
def Below (t j : ℕ) : Prop := ∃ d, (j + 1) / 2 ^ d = t + 1

section

variable {t c j n index : ℕ} {tree : BitVec 64} {v : Bool}

theorem Below.le (h : Below t j) : t ≤ j := by
  obtain ⟨d, hd⟩ := h
  have := Nat.div_le_self (j + 1) (2 ^ d)
  omega

theorem Below.of_child (h : Below c j) (hc : c = t * 2 + 1 ∨ c = t * 2 + 2) : Below t j := by
  obtain ⟨d, hd⟩ := h
  exact ⟨d + 1, by rw [pow_succ, ← Nat.div_div_eq_div_mul, hd]; omega⟩

theorem Below.not_right (h : Below (t * 2 + 1) j) : ¬ Below (t * 2 + 2) j := by
  rintro ⟨e, he⟩
  obtain ⟨d, hd⟩ := h
  rcases Nat.le_total d e with hle | hle <;> obtain ⟨x, rfl⟩ := Nat.exists_eq_add_of_le hle
  · rw [pow_add, ← Nat.div_div_eq_div_mul, hd] at he
    have := Nat.div_le_self (t * 2 + 1 + 1) (2 ^ x)
    omega
  · rw [pow_add, ← Nat.div_div_eq_div_mul, he] at hd
    cases x with
    | zero => simp at hd
    | succ x =>
      rw [pow_succ', ← Nat.div_div_eq_div_mul] at hd
      have := Nat.div_le_self ((t * 2 + 2 + 1) / 2) (2 ^ x)
      omega

theorem view_congr {b b' : ℕ → Bool} (h : ∀ j, Below t j → b j = b' j) : view b n t = view b' n t := by
  induction n generalizing t with
  | zero => rfl
  | succ n ih =>
    rw [view, view, h t ⟨0, by simp⟩, ih fun j hj => h j (hj.of_child (.inl rfl)),
      ih fun j hj => h j (hj.of_child (.inr rfl))]

theorem getLsbD_setNode (ht : t < 31) : (setNode tree t v).getLsbD j = if j = t then v else tree.getLsbD j := by
  have hone : (1#32 <<< t).signExtend 64 = 1#64 <<< t ∧ (~~~(1#32 <<< t)).signExtend 64 = ~~~(1#64 <<< t) := by
    interval_cases t <;> decide
  by_cases hj : j < 64
  · cases v <;> simp [setNode, hone, hj] <;> grind
  · have hne : j ≠ t := by omega
    simp [BitVec.getLsbD_of_ge _ _ (not_lt.1 hj), hne]

theorem view_setNode (ht : t < 31) (hc : t < c) : view (setNode tree t v).getLsbD n c = view tree.getLsbD n c :=
  view_congr fun j hj => by rw [getLsbD_setNode ht, if_neg (hc.trans_le hj.le).ne']

/-- The nodes of a tree with 64 leaves at most have numbers that an `int` can be shifted by. -/
theorem lt_of_fits (hn : (t + 2) * 2 ^ (n + 1) ≤ 64) :
    t < 31 ∧ (t * 2 + 1 + 2) * 2 ^ n ≤ 64 ∧ (t * 2 + 2 + 2) * 2 ^ n ≤ 64 := by
  have hpos := Nat.two_pow_pos n
  have hle := Nat.le_mul_of_pos_right (t + 2) hpos
  have heq : (t + 2) * 2 ^ (n + 1) = (t + 2) * 2 ^ n * 2 := by ring
  have hr : (t * 2 + 2 + 2) * 2 ^ n = (t + 2) * 2 ^ n * 2 := by ring
  have hl : (t * 2 + 1 + 2) * 2 ^ n + 2 ^ n = (t + 2) * 2 ^ n * 2 := by ring
  omega

/-- A touch changes the bits below the node it starts from. -/
theorem getLsbD_touchLoop (hn : (t + 2) * 2 ^ n ≤ 64) (hj : ¬ Below t j) :
    (touchLoop index n t tree).getLsbD j = tree.getLsbD j := by
  induction n generalizing t tree with
  | zero => rfl
  | succ n ih =>
    obtain ⟨ht, hl, hr⟩ := lt_of_fits hn
    have hjt : j ≠ t := fun h => hj ⟨0, by simp [h]⟩
    rw [touchLoop, ih (by split <;> assumption) fun h => hj (h.of_child (by split <;> simp)), getLsbD_setNode ht,
      if_neg hjt]

theorem view_touchLoop (hn : (t + 2) * 2 ^ n ≤ 64) :
    view (touchLoop index n t tree).getLsbD n t = (view tree.getLsbD n t).touch (path n index) := by
  induction n generalizing t tree with
  | zero => rfl
  | succ n ih =>
    obtain ⟨ht, hl, hr⟩ := lt_of_fits hn
    have hroot : ∀ c > t, ¬ Below c t := fun c hc h => hc.not_ge h.le
    rw [touchLoop, path, view, view]
    cases index.testBit n with
    | false =>
      rw [LruTree.touch, if_neg (by simp), getLsbD_touchLoop hl (hroot _ (by omega)), getLsbD_setNode ht, if_pos rfl,
        ih hl, view_congr fun j hj => getLsbD_touchLoop hl fun h => h.not_right hj, view_setNode ht (by omega),
        view_setNode ht (by omega)]
    | true =>
      rw [LruTree.touch, if_pos rfl, getLsbD_touchLoop hr (hroot _ (by omega)), getLsbD_setNode ht, if_pos rfl,
        ih hr, view_congr fun j hj => getLsbD_touchLoop hr hj.not_right, view_setNode ht (by omega),
        view_setNode ht (by omega)]

theorem victimLoop_eq (tree : BitVec 64) (n i t index : ℕ) :
    victimLoop (2 ^ (i + n)) tree n i t index = index + value (view tree.getLsbD n t).victim := by
  induction n generalizing i t index with
  | zero => rfl
  | succ n ih =>
    have hshift : 2 ^ (i + (n + 1)) >>> (i + 1) = 2 ^ n := by
      rw [Nat.shiftRight_eq_div_pow, show i + (n + 1) = n + (i + 1) by omega, pow_add,
        Nat.mul_div_cancel _ (Nat.two_pow_pos _)]
    rw [victimLoop, view, hshift, show i + (n + 1) = i + 1 + n by omega, ih]
    cases tree.getLsbD t <;> simp [LruTree.victim, value, Nat.add_assoc]

end

/-! ## The guarantees -/

variable {numSets k set : ℕ} {trees : ℕ → BitVec 64} {p : PseudoLRUPolicy}

/-- A policy for sets of `2 ^ k` ways. -/
def ofWays (numSets k : ℕ) (trees : ℕ → BitVec 64) : PseudoLRUPolicy := ⟨numSets, 2 ^ k, 2 ^ k, k, trees⟩

def treeOf (k : ℕ) (tree : BitVec 64) : LruTree k := view tree.getLsbD k 0

theorem eq_ofWays_of_new (h : new numSets (2 ^ k) = some p) : k ≤ 5 ∧ p = ofWays numSets k fun _ => 0 := by
  rw [new] at h
  split at h
  · rename_i hb
    have hk : k < 6 := (Nat.pow_lt_pow_iff_right Nat.one_lt_two).1 (hb.2.2.trans_lt (by decide))
    split at h <;> cases h
    interval_cases k <;> exact ⟨by decide, rfl⟩
  · cases h

theorem getVictim_ofWays : (ofWays numSets k trees).getVictim set = some (value (treeOf k (trees set)).victim) := by
  have hlt := value_lt (treeOf k (trees set)).victim
  have hloop := victimLoop_eq (trees set) k 0 0 0
  rw [zero_add, zero_add, ← treeOf] at hloop
  rw [length_victim] at hlt
  simp only [getVictim, ofWays, hloop, if_pos hlt]
  rw [if_neg (by omega)]

theorem touch_ofWays {s way : ℕ} (hk : k ≤ 5) (h : (ofWays numSets k trees).touch s way = some p) :
    ∃ trees', p = ofWays numSets k trees' ∧ ∀ set, treeOf k (trees' set) =
      if set = s then (treeOf k (trees set)).touch (path k way) else treeOf k (trees set) := by
  rw [touch] at h
  split at h <;> cases h
  refine ⟨_, rfl, fun set => ?_⟩
  rw [update_apply]
  split
  · subst s
    exact view_touchLoop (Nat.mul_le_mul_left 2 (Nat.pow_le_pow_right Nat.two_pos hk))
  · rfl

/-- The ways of a set that were touched, the last one first. -/
def recent (touches : List (ℕ × ℕ)) (set : ℕ) : List ℕ := ((touches.filter (·.1 = set)).map (·.2)).reverse

theorem touches_ofWays {touches : List (ℕ × ℕ)} (hk : k ≤ 5)
    (h : touches.foldlM (fun p a => p.touch a.1 a.2) (ofWays numSets k trees) = some p) :
    ∃ trees', p = ofWays numSets k trees' ∧ ∀ set, treeOf k (trees' set) =
      (recent touches set).foldr (fun way t => t.touch (path k way)) (treeOf k (trees set)) := by
  induction touches generalizing trees with
  | nil =>
    cases h
    exact ⟨trees, rfl, fun _ => rfl⟩
  | cons a touches ih =>
    rw [foldlM_cons] at h
    obtain ⟨_, h₁, h⟩ := Option.bind_eq_some_iff.1 h
    obtain ⟨trees₁, rfl, ht⟩ := touch_ofWays hk h₁
    obtain ⟨trees', hp, heq⟩ := ih h
    refine ⟨trees', hp, fun set => (heq set).trans ?_⟩
    rw [ht]
    by_cases ha : set = a.1 <;> simp [recent, ha, eq_comm]

/-- The victims of a set, each of them touched as soon as it is chosen. -/
def victims (set : ℕ) : ℕ → PseudoLRUPolicy → Option (List ℕ)
  | 0, _ => some []
  | n + 1, p => do
    let victim ← p.getVictim set
    let p ← p.touch set victim
    return victim :: (← victims set n p)

theorem victims_ofWays (hk : k ≤ 5) (hs : set < numSets) (n : ℕ) : victims set n (ofWays numSets k trees) =
    some ((range n).map fun i => value (next^[i] (treeOf k (trees set))).victim) := by
  induction n generalizing trees with
  | zero => rfl
  | succ n ih =>
    have hlt := value_lt (treeOf k (trees set)).victim
    rw [length_victim] at hlt
    have h : (ofWays numSets k trees).touch set _ = some _ := if_pos ⟨hlt, hs⟩
    obtain ⟨trees', hp, ht⟩ := touch_ofWays hk h
    have ht := ht set
    rw [if_pos rfl, path_value (length_victim _)] at ht
    rw [victims, getVictim_ofWays, Option.bind_eq_bind, Option.bind_some, h, hp]
    simp [ih, range_succ_eq_map, ht, LruTree.next]

/-- **The guarantees of the tree.**  The victim is none of the last `k` ways touched, touches of other sets do
not matter, and `2 ^ k` victims in a row, each touched as it is chosen, are different. -/
theorem pseudoLru_guarantees {p₀ : PseudoLRUPolicy} (hnew : new numSets (2 ^ k) = some p₀)
    (trees : ℕ → BitVec 64) (hset : set < numSets) :
    (∀ touches p, touches.foldlM (fun p a => p.touch a.1 a.2) { p₀ with trees } = some p →
      ∃ victim, p.getVictim set = some victim ∧ victim ∉ ((recent touches set).destutter (· ≠ ·)).take k) ∧
    (∀ set' way p, set' ≠ set → touch { p₀ with trees } set' way = some p →
      p.getVictim set = getVictim { p₀ with trees } set) ∧
    ∃ l, victims set (2 ^ k) { p₀ with trees } = some l ∧ l.Nodup := by
  obtain ⟨hk, rfl⟩ := eq_ofWays_of_new hnew
  refine ⟨fun touches p h => ?_, fun set' way p hne h => ?_, _, victims_ofWays hk hset _, ?_⟩
  · obtain ⟨trees', rfl, heq⟩ := @touches_ofWays _ _ trees _ _ hk h
    refine ⟨_, getVictim_ofWays, fun hmem => ?_⟩
    obtain ⟨j, hj, hget⟩ := mem_take_iff_getElem.1 hmem
    have hle := le_along (path k) (length_path k) (treeOf k (trees set)) (List.getElem?_eq_some_iff.2 ⟨_, hget⟩)
    rw [← heq, path_value (length_victim _), along_victim] at hle
    omega
  · obtain ⟨trees', rfl, ht⟩ := @touch_ofWays _ _ trees _ _ _ hk h
    rw [getVictim_ofWays, ht, if_neg hne.symm]
    exact getVictim_ofWays.symm
  · refine pairwise_map.2 (pairwise_lt_range.imp_of_mem fun {i j} _ hj hij heq => ?_)
    have hv := congrArg (path k) heq
    rw [path_value (length_victim _), path_value (length_victim _), ← Nat.sub_add_cancel hij.le,
      iterate_add_apply] at hv
    exact victim_iterate_ne _ (by omega) ((Nat.sub_le _ _).trans_lt (mem_range.1 hj)) hv.symm

/-- A set of four ways, of which 3, 0 and 0 are touched. -/
theorem pseudoLru_guarantees_four : ∃ p₀ p victim, new 1 4 = some p₀ ∧
    [(0, 3), (0, 0), (0, 0)].foldlM (fun p a => p.touch a.1 a.2) p₀ = some p ∧
    p.getVictim 0 = some victim ∧ victim ∉ [0, 3] := by
  obtain ⟨victim, hv, hnot⟩ := (@pseudoLru_guarantees 1 2 0 _ rfl (fun _ => 0) Nat.zero_lt_one).1
    [(0, 3), (0, 0), (0, 0)] _ rfl
  exact ⟨_, _, victim, rfl, rfl, hv, hnot⟩

end PseudoLRUPolicy

end GuardianCouncil.Ruby
