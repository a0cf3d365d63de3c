import Mathlib.Data.List.Nodup

/-!
# Lists with iterators

The elements of a list are held in nodes.  An iterator is the number of a node: it remains valid while
other nodes are inserted and erased, and dangles once its own node has been erased.  New nodes get new
numbers.

An element may keep the iterator of its own node, so that it can be erased without a search.
`Threads l iter` says that the iterators kept in `iter` are the right ones.
-/

/-- A list of numbered nodes. -/
structure NodeList (α : Type*) where
  nodes : List (Nat × α) := []
  /-- The number of the next node. -/
  fresh : Nat := 0
  lt_fresh : ∀ node ∈ nodes, node.1 < fresh := by simp
  nodup : (nodes.map Prod.fst).Nodup := by simp

namespace NodeList

open List Function

variable {α : Type*} {l : NodeList α} {a b : α} {it i : Nat} {iter : α → Nat}

def toList (l : NodeList α) : List α := l.nodes.map Prod.snd

/-- The element an iterator points at. -/
def get? (l : NodeList α) (it : Nat) : Option α := (l.nodes.find? (·.1 = it)).map Prod.snd

/-- Inserts an element at a place.  Its iterator is `l.fresh`. -/
def insertAt (l : NodeList α) (i : Nat) (a : α) : NodeList α where
  nodes := l.nodes.take i ++ (l.fresh, a) :: l.nodes.drop i
  fresh := l.fresh + 1
  lt_fresh node hnode := by
    rcases mem_append.1 hnode with hnode | hnode
    · exact Nat.lt_succ_of_lt (l.lt_fresh node (mem_of_mem_take hnode))
    · rcases mem_cons.1 hnode with rfl | hnode
      · exact Nat.lt_succ_self _
      · exact Nat.lt_succ_of_lt (l.lt_fresh node (mem_of_mem_drop hnode))
  nodup := by
    have hperm : (l.nodes.take i ++ (l.fresh, a) :: l.nodes.drop i).Perm ((l.fresh, a) :: l.nodes) :=
      perm_middle.trans (by rw [take_append_drop])
    rw [(hperm.map Prod.fst).nodup_iff, map_cons, nodup_cons]
    refine ⟨fun hmem => ?_, l.nodup⟩
    obtain ⟨node, hnode, heq⟩ := mem_map.1 hmem
    exact absurd heq (Nat.ne_of_lt (l.lt_fresh node hnode))

/-- Erases the node of an iterator. -/
def erase (l : NodeList α) (it : Nat) : NodeList α where
  nodes := l.nodes.filter (·.1 ≠ it)
  fresh := l.fresh
  lt_fresh node hnode := l.lt_fresh node (mem_of_mem_filter hnode)
  nodup := l.nodup.sublist (filter_sublist.map Prod.fst)

theorem toList_insertAt : (l.insertAt i a).toList = l.toList.take i ++ a :: l.toList.drop i := by
  simp [toList, insertAt, map_take, map_drop]

theorem perm_insertAt : (l.insertAt i a).toList.Perm (a :: l.toList) := by
  rw [toList_insertAt]
  exact perm_middle.trans (by rw [take_append_drop])

theorem get?_eq_some_iff : l.get? it = some a ↔ (it, a) ∈ l.nodes := by
  rw [get?, Option.map_eq_some_iff]
  constructor
  · rintro ⟨node, hf, rfl⟩
    have hit := find?_some hf
    rw [decide_eq_true_eq] at hit
    rw [← hit]
    exact mem_of_find?_eq_some hf
  · intro hmem
    obtain ⟨node, hf⟩ := Option.isSome_iff_exists.1 (find?_isSome (p := (·.1 = it)).2 ⟨(it, a), hmem, by simp⟩)
    refine ⟨node, hf, ?_⟩
    have hit := find?_some hf
    rw [decide_eq_true_eq] at hit
    have := inj_on_of_nodup_map l.nodup (mem_of_find?_eq_some hf) hmem hit
    rw [this]

/-- The iterators kept for the elements are those of their nodes. -/
def Threads (l : NodeList α) (iter : α → Nat) : Prop := ∀ node ∈ l.nodes, node.1 = iter node.2

namespace Threads

section

variable (h : l.Threads iter)
include h

theorem get?_eq (ha : a ∈ l.toList) : l.get? (iter a) = some a := by
  obtain ⟨node, hnode, rfl⟩ := mem_map.1 ha
  rw [get?_eq_some_iff, ← h node hnode]
  exact hnode

theorem erase : (l.erase it).Threads iter :=
  fun node hnode => h node (mem_of_mem_filter hnode)

/-- A new element is given its iterator. -/
theorem insertAt [DecidableEq α] (ha : a ∉ l.toList) :
    (l.insertAt i a).Threads (update iter a l.fresh) := by
  have hold : ∀ node ∈ l.nodes, node.1 = update iter a l.fresh node.2 := by
    intro node hnode
    have hne : node.2 ≠ a := fun heq => ha (heq ▸ mem_map_of_mem hnode)
    rw [update_of_ne hne]
    exact h node hnode
  intro node hnode
  rcases mem_append.1 hnode with hnode | hnode
  · exact hold node (mem_of_mem_take hnode)
  · rcases mem_cons.1 hnode with rfl | hnode
    · rw [update_self]
    · exact hold node (mem_of_mem_drop hnode)

/-- Erasing by an element's iterator erases the element. -/
theorem toList_erase [DecidableEq α] (ha : a ∈ l.toList) :
    (l.erase (iter a)).toList = l.toList.filter (· ≠ a) := by
  obtain ⟨node, hnode, rfl⟩ := mem_map.1 ha
  rw [toList, toList, filter_map]
  refine congrArg _ (filter_congr fun node' hn' => decide_eq_decide.2 (not_congr ⟨?_, ?_⟩))
  · intro heq
    rw [← h node hnode] at heq
    exact congrArg Prod.snd (inj_on_of_nodup_map l.nodup hn' hnode heq)
  · intro heq
    rw [h node' hn', show node'.2 = node.2 from heq]

end

end Threads

end NodeList
