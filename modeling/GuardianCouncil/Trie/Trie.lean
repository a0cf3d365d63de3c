import GuardianCouncil.Lib.Fallible
import GuardianCouncil.Lib.Links

/-!
# The prefix trie

`Trie<Key, Value>` stores values under prefixes of keys: a prefix is a key with a mask of its leading
bits.  The nodes are cells of a heap that point to their kids and back to their parent; a caller holds the
pointer to the node of its value and removes it by that pointer.

A mask in use is always one of leading bits, and a node's key never has a bit outside its mask.  Both are
carried by the types `PrefixMask` and `Node`.  A pointer is a number that is not used again, and a value a
caller inserts is not `NULL`.  The loops have fuel for one round for each length a prefix may have.
-/

namespace GuardianCouncil.Trie

open BitVec Function
open scoped Links

/-! ## Masks -/

/-- A mask of the leading `len` bits of a key. -/
structure PrefixMask (w : Nat) where
  bits : BitVec w
  len : Nat
  len_le : len ≤ w
  getMsbD_bits : ∀ i, bits.getMsbD i = decide (i < len)
deriving DecidableEq

namespace PrefixMask

variable {w : Nat}

/-- The mask of the root. -/
def zero (w : Nat) : PrefixMask w where
  bits := 0
  len := 0
  len_le := Nat.zero_le w
  getMsbD_bits i := by simp

/-- The mask that `insert` builds from a width. -/
def ofWidth (w width : Nat) : PrefixMask w where
  bits := if width < w then BitVec.allOnes w <<< (w - width) else BitVec.allOnes w
  len := min width w
  len_le := Nat.min_le_right _ _
  getMsbD_bits i := by
    split
    · rw [getMsbD_shiftLeft, getMsbD_allOnes]
      exact decide_eq_decide.2 (by omega)
    · rw [getMsbD_allOnes]
      exact decide_eq_decide.2 (by omega)

/-- `extendMask`. -/
def extend (orig : PrefixMask w) : PrefixMask w where
  bits := orig.bits ||| orig.bits >>> 1 ||| 1#w <<< (w - 1)
  len := min (orig.len + 1) w
  len_le := Nat.min_le_right _ _
  getMsbD_bits i := by
    have hle := orig.len_le
    rw [Bool.eq_iff_iff]
    simp only [getMsbD_or, getMsbD_ushiftRight, getMsbD_shiftLeft,
      getMsbD_one, orig.getMsbD_bits, Bool.or_eq_true, Bool.and_eq_true, Bool.not_eq_true',
      decide_eq_true_eq, decide_eq_false_iff_not]
    omega

/-- Masks of leading bits are told apart by their lengths. -/
theorem bits_inj {m m' : PrefixMask w} : m.bits = m'.bits ↔ m.len = m'.len := by
  constructor
  · intro h
    have hlt : ∀ i, i < m.len ↔ i < m'.len := by
      intro i
      rw [← decide_eq_decide, ← m.getMsbD_bits, ← m'.getMsbD_bits, h]
    have h₁ := hlt m.len
    have h₂ := hlt m'.len
    omega
  · intro h
    refine eq_of_getMsbD_eq fun i _ => ?_
    rw [m.getMsbD_bits, m'.getMsbD_bits, h]

/-- Keys agree under a mask exactly if their leading bits do. -/
theorem and_bits_eq_iff (m : PrefixMask w) (a b : BitVec w) :
    a &&& m.bits = b &&& m.bits ↔ ∀ i < m.len, a.getMsbD i = b.getMsbD i := by
  constructor
  · intro h i hi
    have hbit := congrArg (fun x => x.getMsbD i) h
    simpa [m.getMsbD_bits, hi] using hbit
  · intro h
    refine eq_of_getMsbD_eq fun i _ => ?_
    rw [getMsbD_and, getMsbD_and, m.getMsbD_bits]
    by_cases hi : i < m.len
    · rw [h i hi]
    · simp [hi]

theorem and_bits_iff {m m' : PrefixMask w} : m.bits &&& m'.bits = m.bits ↔ m.len ≤ m'.len := by
  constructor
  · intro h
    by_contra hlt
    have hbit := congrArg (fun x => x.getMsbD m'.len) h
    simp only [getMsbD_and, getMsbD_bits, Nat.lt_irrefl, decide_false, Bool.and_false] at hbit
    exact of_decide_eq_false hbit.symm (by omega)
  · intro h
    refine eq_of_getMsbD_eq fun i _ => ?_
    rw [Bool.eq_iff_iff]
    simp only [getMsbD_and, getMsbD_bits, Bool.and_eq_true, decide_eq_true_eq]
    omega

end PrefixMask

/-! ## Nodes -/

/-- A pointer to a node; `&head` is 0. -/
abbrev Handle := Nat

structure Node (w : Nat) (Value : Type) where
  key : BitVec w
  mask : PrefixMask w
  key_and_mask : key &&& mask.bits = key
  value : Option Value
  parent : Option Handle
  kids : Fin 2 → Option Handle

namespace Node

variable {w : Nat} {Value : Type}

/-- The constructor of the source. -/
def make (key : BitVec w) (mask : PrefixMask w) (val : Option Value) : Node w Value where
  key := key &&& mask.bits
  mask := mask
  key_and_mask := by rw [BitVec.and_assoc, BitVec.and_self]
  value := val
  parent := none
  kids _ := none

variable (n : Node w Value)

/-- `matches`. -/
def accepts (test : BitVec w) : Bool := test &&& n.mask.bits == n.key

def setValue (val : Option Value) : Node w Value := { n with value := val }

def setParent (parent : Option Handle) : Node w Value := { n with parent := parent }

def setKid (i : Fin 2) (kid : Option Handle) : Node w Value :=
  { n with kids := update n.kids i kid }

end Node

/-! ## The heap -/

inductive Fault where
  /-- A pointer to no node. -/
  | dangling
  | assertion
  /-- `Reached the end of the Trie insert function!`. -/
  | insertEnd
  /-- `Trie: Can't remove root node.`. -/
  | removeRoot
  /-- `Trie: Inconsistent parent/kid relationship.`. -/
  | inconsistent
  | outOfFuel
deriving DecidableEq

structure Heap (w : Nat) (Value : Type) where
  nodes : Handle → Option (Node w Value)
  /-- The next pointer that `new` returns. -/
  next : Handle

namespace Heap

variable {w : Nat} {Value : Type} (s : Heap w Value)

/-- The trie that the constructor makes. -/
def init (w : Nat) (Value : Type) : Heap w Value where
  nodes := update (fun _ => none) 0 (some (Node.make 0 (.zero w) none))
  next := 1

def deref (p : Handle) : Except Fault (Node w Value) :=
  match s.nodes p with
  | none => .error .dangling
  | some n => .ok n

/-- A write to a node that the code has read before. -/
def modify (p : Handle) (f : Node w Value → Node w Value) : Heap w Value :=
  { s with nodes := update s.nodes p ((s.nodes p).map f) }

def new (n : Node w Value) : Heap w Value where
  nodes := update s.nodes s.next (some n)
  next := s.next + 1

def delete (p : Handle) : Heap w Value := { s with nodes := update s.nodes p none }

/-! ## Lookup -/

/-- `kid`, if it is there and passes a test. -/
def kidIf (kid : Option Handle) (test : Node w Value → Bool) : Except Fault (Option Handle) :=
  match kid with
  | none => .ok none
  | some kid => do
    let k ← s.deref kid
    .ok (if test k then some kid else none)

def lookupHandle (key : BitVec w) : Nat → Handle → Except Fault (Option Handle)
  | 0, _ => .error .outOfFuel
  | fuel + 1, node => do
    let n ← s.deref node
    if n.value.isSome then .ok (some node)
    else
      match ← s.kidIf (n.kids 0) (·.accepts key) with
      | some kid => lookupHandle key fuel kid
      | none =>
        match ← s.kidIf (n.kids 1) (·.accepts key) with
        | some kid => lookupHandle key fuel kid
        | none => .ok none

def lookup (key : BitVec w) : Except Fault (Option Value) := do
  match ← s.lookupHandle key (w + 1) 0 with
  | none => .ok none
  | some node =>
    let n ← s.deref node
    .ok n.value

/-! ## Insertion -/

/-- The kid that `goesAfter` advances to. -/
def goesAfter (kid : Option Handle) (key : BitVec w) (newMask : PrefixMask w) : Except Fault (Option Handle) :=
  s.kidIf kid fun k => k.accepts key && k.mask.bits &&& newMask.bits == k.mask.bits

/-- The walk past the nodes that the new node goes after. -/
def walk (key : BitVec w) (newMask : PrefixMask w) : Nat → Handle → Except Fault Handle
  | 0, _ => .error .outOfFuel
  | fuel + 1, node => do
    let n ← s.deref node
    match ← s.goesAfter (n.kids 0) key newMask with
    | some kid => walk key newMask fuel kid
    | none =>
      match ← s.goesAfter (n.kids 1) key newMask with
      | some kid => walk key newMask fuel kid
      | none => .ok node

/-- The `do` loop down a leg: the longest mask under which the two keys agree, up to the new one. -/
def runDown (key kidKey : BitVec w) (newMask : PrefixMask w) : Nat → PrefixMask w → Except Fault (PrefixMask w)
  | 0, _ => .error .outOfFuel
  | fuel + 1, lastMask =>
    let curMask := lastMask.extend
    if key &&& curMask.bits ≠ kidKey &&& curMask.bits ∨ lastMask.bits = newMask.bits then .ok lastMask
    else runDown key kidKey newMask fuel curMask

/-- One round of the loop over the kids.  A round that goes on to the next one leaves the mask at that of
the node, so that every round starts there. -/
def tryLeg (node : Handle) (key : BitVec w) (newMask : PrefixMask w) (val : Value) (i : Fin 2) :
    Except Fault (Option (Handle × Heap w Value)) := do
  let n ← s.deref node
  match n.kids i with
  | none =>
    let newNode := s.next
    let s := s.new ((Node.make key newMask (some val)).setParent node)
    .ok (some (newNode, s.modify node (·.setKid i newNode)))
  | some kid =>
    let k ← s.deref kid
    let curMask ← runDown key k.key newMask (w + 1) n.mask
    if curMask.bits = n.mask.bits then .ok none
    else
      let mid := s.next
      let s := s.new ((Node.make key curMask none).setParent node)
      let s := s.modify kid (·.setParent mid)
      let s := s.modify mid (·.setKid 0 kid)
      let s := s.modify node (·.setKid i mid)
      if curMask.bits = newMask.bits then .ok (some (mid, s.modify mid (·.setValue (some val))))
      else
        let newNode := s.next
        let s := s.new ((Node.make key newMask (some val)).setParent mid)
        .ok (some (newNode, s.modify mid (·.setKid 1 newNode)))

def insert (key : BitVec w) (width : Nat) (val : Value) : Except Fault (Handle × Heap w Value) := do
  let newMask := PrefixMask.ofWidth w width
  let key := key &&& newMask.bits
  let node ← s.walk key newMask (w + 1) 0
  let n ← s.deref node
  if n.mask.bits = newMask.bits then
    if n.value.isSome then .error .assertion
    else .ok (node, s.modify node (·.setValue (some val)))
  else
    match ← s.tryLeg node key newMask val 0 with
    | some result => .ok result
    | none =>
      match ← s.tryLeg node key newMask val 1 with
      | some result => .ok result
      | none => .error .insertEnd

/-! ## Removal -/

/-- The kid of the removed node gets its parent. -/
def adopt (kid parent : Option Handle) : Except Fault (Heap w Value) :=
  match kid with
  | none => .ok s
  | some kid => do
    let _ ← s.deref kid
    .ok (s.modify kid (·.setParent parent))

/-- The kid of the removed node takes its place. -/
def relink (parent node : Handle) (kid : Option Handle) : Except Fault (Heap w Value) := do
  let p ← s.deref parent
  if p.kids 0 = some node then .ok (s.modify parent (·.setKid 0 kid))
  else if p.kids 1 = some node then .ok (s.modify parent (·.setKid 1 kid))
  else .error .inconsistent

/-- A lone kid is made kid 0. -/
def shift (parent : Handle) : Except Fault (Heap w Value) := do
  let p ← s.deref parent
  if (p.kids 1).isSome ∧ (p.kids 0).isNone then
    .ok ((s.modify parent (·.setKid 0 (p.kids 1))).modify parent (·.setKid 1 none))
  else .ok s

def remove : Nat → Heap w Value → Handle → Except Fault (Option Value × Heap w Value)
  | 0, _, _ => .error .outOfFuel
  | fuel + 1, s, node => do
    let n ← s.deref node
    if (n.kids 1).isSome then
      if n.value.isNone then .error .assertion
      else .ok (n.value, s.modify node (·.setValue none))
    else
      match n.parent with
      | none => .error .removeRoot
      | some parent =>
        let s ← s.adopt (n.kids 0) parent
        let s ← s.relink parent node (n.kids 0)
        let s ← s.shift parent
        let p ← s.deref parent
        if (p.kids 1).isNone ∧ p.value.isNone ∧ p.parent.isSome then
          let (_, s) ← remove fuel s parent
          .ok (n.value, s.delete node)
        else .ok (n.value, s.delete node)

end Heap

end GuardianCouncil.Trie
