import GuardianCouncil.Trie.Insert
import GuardianCouncil.Trie.Lookup
import GuardianCouncil.Trie.Remove

/-!
# Runs of the trie

A run inserts and removes values, under prefixes of 1 to `w` bits that are not in use, and by handles that
have not been removed.  Beside the trie it keeps the list of what is stored, from the arguments of the
calls.  In every state of a run a lookup returns the value of the shortest stored prefix, and every call
that the run may make succeeds (`lookup_shortest`).
-/

namespace GuardianCouncil.Trie

open Fallible Heap
open scoped Links

inductive Op (w : Nat) (Value : Type) where
  | insert (key : BitVec w) (width : Nat) (val : Value)
  | remove (handle : Handle)

structure System (w : Nat) (Value : Type) where
  heap : Heap w Value
  /-- What is stored, with the handles that `insert` returned. -/
  store : List (Handle × Entry w Value)

namespace System

variable {w : Nat} {Value : Type}

def init (w : Nat) (Value : Type) : System w Value := ⟨Heap.init w Value, []⟩

/-- The leading bits of a key. -/
def masked (key : BitVec w) (width : Nat) : BitVec w := key &&& (PrefixMask.ofWidth w width).bits

def step (t : System w Value) : Op w Value → Except Fault (System w Value)
  | .insert key width val => do
    let (handle, heap) ← t.heap.insert key width val
    .ok ⟨heap, (handle, ⟨masked key width, width, val⟩) :: t.store⟩
  | .remove handle => do
    let (_, heap) ← remove (w + 1) t.heap handle
    .ok ⟨heap, t.store.filter (·.1 ≠ handle)⟩

/-- What a caller may do. -/
def Allowed (t : System w Value) : Op w Value → Prop
  | .insert key width _ =>
    1 ≤ width ∧ width ≤ w ∧ ∀ e ∈ t.store, ¬ (e.2.key = masked key width ∧ e.2.width = width)
  | .remove handle => ∃ e ∈ t.store, e.1 = handle

instance (t : System w Value) : (op : Op w Value) → Decidable (t.Allowed op)
  | .insert _ _ _ => inferInstanceAs (Decidable (_ ∧ _ ∧ _))
  | .remove _ => inferInstanceAs (Decidable (∃ e ∈ t.store, _))

/-- The trie holds what is stored. -/
structure Holds (t : System w Value) : Prop where
  inv : Inv t.heap
  stored_iff : ∀ h e, t.heap.stored [] h = some e ↔ (h, e) ∈ t.store
  width_pos : ∀ e ∈ t.store, 1 ≤ e.2.width

theorem holds_init : Holds (init w Value) := by
  refine ⟨inv_init, fun h e => ?_, fun e he => absurd he List.not_mem_nil⟩
  by_cases hh : h = 0
  · simp [init, Heap.init, Heap.stored, Heap.linked, hh, Node.make, Node.entry]
  · simp [init, Heap.init, Heap.stored, Heap.linked, hh]

variable {t t' : System w Value}

theorem Holds.insert (h : Holds t) {key : BitVec w} {width : Nat} {val : Value}
    (hok : t.Allowed (.insert key width val)) : ∃ t', t.step (.insert key width val) = .ok t' ∧ Holds t' := by
  obtain ⟨hlow, hhigh, hnew⟩ := hok
  obtain ⟨handle, heap, hrun, hins⟩ := insert_spec h.inv key hlow hhigh val
    fun c e hc => hnew (c, e) ((h.stored_iff c e).1 hc)
  refine ⟨_, by rw [step, hrun, ok_bind], hins.inv, fun c e => ?_, ?_⟩
  · rw [List.mem_cons, ← h.stored_iff, hins.stored, Function.update_apply, Prod.mk.injEq]
    have hfresh := hins.fresh
    grind [masked]
  · rw [List.forall_mem_cons]
    exact ⟨hlow, h.width_pos⟩

theorem Holds.remove (h : Holds t) {handle : Handle} (hok : t.Allowed (.remove handle)) :
    ∃ t', t.step (.remove handle) = .ok t' ∧ Holds t' := by
  obtain ⟨⟨c, e⟩, he, rfl⟩ := hok
  have hc := (h.stored_iff c e).2 he
  obtain ⟨n, hn, hv, -, hwi⟩ := linked_of_stored hc
  have hne : c ≠ 0 := by
    rintro rfl
    have hpos : 1 ≤ e.width := h.width_pos _ he
    have hlen := h.inv.good.len_root
    rw [len_of_linked hn] at hlen
    omega
  have hfull : Full (t.heap.links []) (t.heap.stored []) (· = c) := fun d hd _ => h.inv.full d hd not_false
  obtain ⟨heap, hrun, hrem⟩ := remove_spec (w + 1) h.inv.good hfull h.inv.fresh hn hne
    (fun _ => by simp [hv]) (Nat.le_succ_of_le n.mask.len_le)
  refine ⟨_, by rw [step, hrun, ok_bind], ⟨hrem.good, hrem.full, hrem.fresh⟩, fun d e' => ?_, ?_⟩
  · rw [List.mem_filter, ← h.stored_iff, hrem.stored, Function.update_apply]
    grind
  · exact fun e he => h.width_pos e (List.mem_of_mem_filter he)

/-- Whatever a caller may do succeeds. -/
theorem Holds.step (h : Holds t) {op : Op w Value} (hok : t.Allowed op) : ∃ t', t.step op = .ok t' ∧ Holds t' := by
  cases op with
  | insert key width val => exact h.insert hok
  | remove handle => exact h.remove hok

theorem holds_of_reaches (h : Reaches step Allowed (init w Value) t) : Holds t := by
  refine h.invariant holds_init fun _ hs hok hst => ?_
  obtain ⟨t', hs', ht'⟩ := hs.step hok
  rw [hst] at hs'
  cases hs'
  exact ht'

end System

/-- The shape of the trie, as its pointers have it. -/
structure WellShaped {w : Nat} {Value : Type} (s : Heap w Value) : Prop where
  /-- Two kids differ in the first bit after the mask. -/
  fork : ∀ p n a b na nb, s.nodes p = some n → n.kids 0 = some a → n.kids 1 = some b →
    s.nodes a = some na → s.nodes b = some nb → na.key.getMsbD n.mask.len ≠ nb.key.getMsbD n.mask.len
  /-- A lone kid is kid 0. -/
  lone : ∀ p n, s.nodes p = some n → n.kids 1 ≠ none → n.kids 0 ≠ none
  /-- A node without a value, the root apart, has two kids. -/
  full : ∀ p n, s.nodes p = some n → p ≠ 0 → n.value = none → n.kids 0 ≠ none ∧ n.kids 1 ≠ none

theorem Inv.wellShaped {w : Nat} {Value : Type} {s : Heap w Value} (h : Inv s) : WellShaped s := by
  have hnode : ∀ {p n}, s.nodes p = some n → s.linked [] p = some n := fun hp => by
    rwa [linked_nil]
  have hlo : ∀ p n, s.nodes p = some n → n.kids 1 ≠ none → n.kids 0 ≠ none := by
    intro p n hp hone hn
    refine hone ?_
    rw [← kid_of_linked (hnode hp)] at hn ⊢
    exact h.good.lone hn
  refine ⟨?_, hlo, ?_⟩
  · intro p n a b na nb hp ha hb hna hnb
    rw [← kid_of_linked (hnode hp)] at ha hb
    have hf := h.good.fork ha hb
    rwa [len_of_linked (hnode hp), bit_of_linked (hnode hna), bit_of_linked (hnode hnb)] at hf
  · intro p n hp hne hv
    have hone : n.kids 1 ≠ none := by
      rw [← kid_of_linked (hnode hp)]
      refine h.full p hne not_false (alloc_of_linked (hnode hp)) ?_
      rw [stored_of_linked (hnode hp), Node.entry, hv]
      rfl
    exact ⟨hlo p n hp hone, hone⟩

/-- **Shortest prefixes.**  In every state of a run a lookup returns the value of the shortest stored
prefix of its key, the trie has its shape, and every call that the run may make next succeeds. -/
theorem lookup_shortest {w : Nat} {Value : Type} {t : System w Value}
    (h : Reaches System.step System.Allowed (System.init w Value) t) :
    (∀ key, ∃ r, t.heap.lookup key = .ok r ∧ IsShortest (fun h e => (h, e) ∈ t.store) key r) ∧
      WellShaped t.heap ∧ ∀ op, t.Allowed op → ∃ t', t.step op = .ok t' := by
  have ht := System.holds_of_reaches h
  refine ⟨fun key => ?_, ht.inv.wellShaped, fun op hok => ?_⟩
  · obtain ⟨r, hr, hsh⟩ := lookup_spec ht.inv.good key
    refine ⟨r, hr, ?_⟩
    simpa only [ht.stored_iff] using hsh
  · obtain ⟨t', hst, -⟩ := ht.step hok
    exact ⟨t', hst⟩

/-- A run that splits a leg for the prefix `101`, and takes it out again. -/
theorem lookup_shortest_split : ∃ t : System 8 Nat, Reaches System.step System.Allowed (System.init 8 Nat) t ∧
      t.store.length = 2 ∧ (t.heap.lookup 0xa9).toOption = some (some 1) ∧
      ∃ r, t.heap.lookup 0xa9 = .ok r ∧ IsShortest (fun h e => (h, e) ∈ t.store) 0xa9 r := by
  obtain ⟨t, ht, hlen, hlo⟩ := exists_reaches System.step System.Allowed (System.init 8 Nat)
    [.insert 0xa0 4 1, .insert 0xb0 4 2, .insert 0xa8 5 3, .remove 3]
    (fun t => t.store.length = 2 ∧ (t.heap.lookup 0xa9).toOption = some (some 1)) (by decide +kernel)
  exact ⟨t, ht, hlen, hlo, (lookup_shortest ht).1 0xa9⟩

end GuardianCouncil.Trie
