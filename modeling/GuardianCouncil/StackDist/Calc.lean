import Mathlib.Algebra.GroupWithZero.Nat
import GuardianCouncil.Lib.Fallible

/-!
# The stack distance calculator

`StackDistCalc` numbers the accesses and keeps, for every address, the number of its last access.  The numbers
that are in use are the leaves of a binary tree whose nodes hold the number of leaves below their left and
right halves; the stack distance of an address is what lies to the right of its leaf.  The tree grows at
the top when the number of accesses passes a power of two, and nodes below which nothing is left go.

The nodes are named by the layer and the index under which `tree` keeps them, and a pointer to a node by its
name.  Sums are below 2^32 as long as there are fewer than 2^31 accesses, and are natural numbers here;
`1 << i` is an `int`.
-/

namespace GuardianCouncil.StackDist

open Function

abbrev Addr := BitVec 64

/-- A layer of the tree, and the index of a node in it. -/
abbrev Ptr := Nat × Nat

structure Node where
  sumLeft : Nat := 0
  sumRight : Nat := 0
  discardLeft : Bool := false
  discardRight : Bool := false
  nodeIndex : Nat := 0
  parent : Option Ptr := none
  isLeftNode : Bool := true
  isMarked : Bool := false
deriving DecidableEq

def Infinity : Nat := 18446744073709551615

/-- `1 << i` for an `int`, in a `uint64_t` expression. -/
def oneShl (i : Nat) : Nat := (((1 : BitVec 32) <<< i).signExtend 64).toNat

def leastSigBit (n : BitVec 64) : BitVec 64 := n &&& ~~~(n - 1)

def isPowerOf2 (n : Nat) : Bool :=
  BitVec.ofNat 64 n != 0 && leastSigBit (BitVec.ofNat 64 n) == BitVec.ofNat 64 n

inductive Fault where
  /-- A pointer to no node. -/
  | dangling
  /-- `Error in sum left of level`, `Error in sum right of level`. -/
  | sum
  /-- `Sanity check failed for node`. -/
  | sanity
  /-- `Expected stack-distance for address ... but found ...`. -/
  | mismatch
  | outOfFuel
deriving DecidableEq

structure Calc where
  index : Nat
  /-- `getTreeDepth()`. -/
  depth : Nat
  tree : Ptr → Option Node
  nextIndex : Nat → Nat
  aiMap : Addr → Option Nat
  /-- The stack for verification, top first. -/
  stack : List Addr

/-- The new values of a node on the way up.  `discard` says that the node below has gone. -/
def Node.updated (n : Node) (fromLeft : Bool) (sumFromBelow : Nat) (discard : Bool) : Node :=
  { n with
    sumLeft := if fromLeft then sumFromBelow else n.sumLeft
    sumRight := if fromLeft then n.sumRight else sumFromBelow
    discardLeft := n.discardLeft || (discard && sumFromBelow == 0 && fromLeft)
    discardRight := n.discardRight || (discard && sumFromBelow == 0 && !fromLeft) }

namespace Calc

/-- The calculator that the constructor makes. -/
def init : Calc where
  index := 0
  depth := 1
  tree := update (fun _ => none) (1, 0) (some {})
  nextIndex l := if l = 1 then 1 else 0
  aiMap _ := none
  stack := []

variable (s : Calc)

def deref (p : Ptr) : Except Fault Node :=
  match s.tree p with
  | none => .error .dangling
  | some n => .ok n

def set (p : Ptr) (n : Node) : Calc := { s with tree := update s.tree p (some n) }

def erase (p : Ptr) : Calc := { s with tree := update s.tree p none }

/-- The pointer in `tree[layer][i]`. -/
def find (p : Ptr) : Option Ptr := if (s.tree p).isSome then some p else none

/-! ## Sums -/

def updateSum (verify : Bool) : Nat → Calc → Ptr → Bool → Nat → Nat → Nat → Bool → Except Fault (Nat × Calc)
  | 0, _, _, _, _, _, _, _ => .error .outOfFuel
  | fuel + 1, s, p, fromLeft, sumFromBelow, level, stackDist, discard => do
    let level := level + 1
    let node ← s.deref p
    if verify ∧ (oneShl (level - 1) < node.sumLeft ∨ oneShl (level - 1) < node.sumRight) then
      .error .sum
    else
      let stackDist := if fromLeft then stackDist + node.sumRight else stackDist
      let node := node.updated fromLeft sumFromBelow discard
      let s := s.set p node
      let discard := node.discardLeft && node.discardRight && discard && node.parent.isSome &&
        sumFromBelow == 0
      let s := if discard then (s.erase p).erase (level, node.nodeIndex) else s
      match node.parent with
      | some parent =>
        updateSum verify fuel s parent node.isLeftNode (node.sumLeft + node.sumRight) level stackDist
          discard
      | none => .ok (stackDist, s)

def updateSumsLeavesToRoot (verify : Bool) (p : Ptr) (isNewLeaf : Bool) : Except Fault (Nat × Calc) := do
  let node ← s.deref p
  match node.parent with
  | none => .error .dangling
  | some parent =>
    if isNewLeaf then
      let s := s.set p { node with sumLeft := 1 }
      let (_, s) ← updateSum verify (s.depth + 1) s parent node.isLeftNode 1 0 0 false
      .ok (Infinity, s)
    else
      let s := s.set p { node with sumLeft := 0 }
      updateSum verify (s.depth + 1) s parent node.isLeftNode 0 0 0 true

def getSum : Nat → Ptr → Bool → Nat → Except Fault Nat
  | 0, _, _, _ => .error .outOfFuel
  | fuel + 1, p, fromLeft, stackDist => do
    let node ← s.deref p
    let stackDist := if fromLeft then stackDist + node.sumRight else stackDist
    match node.parent with
    | some parent => getSum fuel parent node.isLeftNode stackDist
    | none => .ok stackDist

def getSumsLeavesToRoot (p : Ptr) : Except Fault Nat := do
  let node ← s.deref p
  match node.parent with
  | none => .error .dangling
  | some parent => s.getSum (s.depth + 1) parent node.isLeftNode 0

/-! ## Growth -/

/-- A new intermediate node in layer `i`. -/
def addINode (i : Nat) : Calc :=
  let nodeIndex := s.nextIndex i
  { s with
    tree := update s.tree (i, nodeIndex) (some
      { isLeftNode := nodeIndex % 2 == 0
        parent := s.find (i + 1, s.nextIndex (i + 1) - 1)
        nodeIndex := nodeIndex })
    nextIndex := update s.nextIndex i (nodeIndex + 1) }

/-- `for (i = ...; i >= 1; --i)`, with a new node in the layers that want one. -/
def addINodes (wants : Nat → Bool) : Nat → Calc → Calc
  | 0, s => s
  | i + 1, s => addINodes wants i (if wants (i + 1) then s.addINode (i + 1) else s)

/-- The root that is put above an old one. -/
def newRoot (root : Node) : Node :=
  { sumLeft := root.sumRight + root.sumLeft
    discardLeft := root.discardLeft && root.discardRight }

/-- A new layer with a new root, which the old one points to. -/
def addRoot : Except Fault Calc := do
  let root ← s.deref (s.depth, 0)
  let s :=
    { s with
      depth := s.depth + 1
      tree := update s.tree (s.depth + 1, 0) (some (newRoot root))
      nextIndex := update s.nextIndex (s.depth + 1) 1 }
  .ok (s.set (s.depth - 1, 0) { root with parent := some (s.depth, 0) })

def updateTree : Except Fault Calc :=
  if isPowerOf2 s.index then do
    let s ← s.addRoot
    .ok (addINodes (fun _ => true) (s.depth - 1) s)
  else .ok (addINodes (fun i => s.index % oneShl i == 0) (s.depth - 1) s)

/-! ## Verification -/

/-- The climb of `sanityCheckTree`, of `n` steps. -/
def climb : Nat → Ptr → Except Fault Ptr
  | 0, p => .ok p
  | n + 1, p => do
    let node ← s.deref p
    match node.parent with
    | none => .error .sanity
    | some parent => climb n parent

def sanityCheckTree (p : Ptr) : Except Fault Unit := do
  let node ← s.deref p
  match node.parent with
  | none => .error .dangling
  | some parent =>
    let top ← s.climb (s.depth - 1) parent
    let root ← s.deref top
    if root.parent.isSome then .error .sanity else .ok ()

/-- The distance that `verifyStackDist` finds in a list of addresses. -/
def plainDist (stack : List Addr) (address : Addr) : Nat :=
  if address ∈ stack then stack.idxOf address else Infinity

/-- The stack that `verifyStackDist` leaves. -/
def plainPush (stack : List Addr) (address : Addr) : List Addr := address :: stack.erase address

/-! ## Accesses -/

/-- The removal of the leaf of an address that is in the stack, with its distance and its mark. -/
def removeLeaf (verify : Bool) (rIndex : Nat) : Except Fault (Nat × Bool × Calc) := do
  let (stackDist, s) ← s.updateSumsLeavesToRoot verify (0, rIndex) false
  let leaf ← s.deref (0, rIndex)
  .ok (stackDist, leaf.isMarked, s.erase (0, rIndex))

/-- A leaf for the present access, below the newest node of layer 1. -/
def newLeaf : Calc :=
  { s with
    nextIndex := update s.nextIndex 0 (s.nextIndex 0 + 1)
    tree := update s.tree (0, s.index) (some
      { nodeIndex := s.index
        isLeftNode := s.index % 2 == 0
        parent := s.find (1, s.nextIndex 1 - 1) }) }

/-- The nodes that the present access needs above it, which are there already for every other one. -/
def makeRoom : Except Fault Calc := if s.index % 2 = 0 then s.updateTree else .ok s

def addLeaf (verify : Bool) : Except Fault Calc := do
  let s ← s.makeRoom
  let (_, s) ← s.newLeaf.updateSumsLeavesToRoot verify (0, s.index) true
  .ok s

/-- What is found out about the last access to an address, whose leaf goes. -/
def takeOld (verify : Bool) (address : Addr) (addNewNode : Bool) : Except Fault (Nat × Bool × Calc) :=
  match s.aiMap address with
  | some rIndex =>
    let s := { s with
      aiMap := update s.aiMap address (if addNewNode then some s.index else none) }
    s.removeLeaf verify rIndex
  | none =>
    let s := if addNewNode then
      { s with aiMap := update s.aiMap address (some s.index) } else s
    .ok (Infinity, false, s)

def calcStackDistAndUpdate (verify : Bool) (address : Addr) (addNewNode : Bool) : Except Fault (Nat × Bool × Calc) := do
  let (stackDist, mark, s) ← s.takeOld verify address addNewNode
  if addNewNode then
    let s ← s.addLeaf verify
    if verify then
      s.sanityCheckTree (0, s.index)
      if plainDist s.stack address ≠ stackDist then .error .mismatch
      else .ok (stackDist, mark, { s with stack := plainPush s.stack address, index := s.index + 1 })
    else .ok (stackDist, mark, { s with index := s.index + 1 })
  else .ok (stackDist, mark, s)

/-- What is found out about the last access to an address, whose leaf stays and gets the mark. -/
def lookAt (address : Addr) (mark : Bool) : Except Fault (Nat × Bool × Calc) :=
  match s.aiMap address with
  | some rIndex => do
    let leaf ← s.deref (0, rIndex)
    let s := s.set (0, rIndex) { leaf with isMarked := mark }
    let stackDist ← s.getSumsLeavesToRoot (0, rIndex)
    .ok (stackDist, leaf.isMarked, s)
  | none => .ok (Infinity, false, s)

def calcStackDist (verify : Bool) (address : Addr) (mark : Bool) : Except Fault (Nat × Bool × Calc) := do
  let (stackDist, oldMark, s) ← s.lookAt address mark
  if verify ∧ plainDist s.stack address ≠ stackDist then .error .mismatch
  else .ok (stackDist, oldMark, s)

end Calc

/-- The two ways to access. -/
inductive Access where
  | calcStackDistAndUpdate (address : Addr) (addNewNode : Bool)
  | calcStackDist (address : Addr) (mark : Bool)
deriving DecidableEq

def Access.address : Access → Addr
  | .calcStackDistAndUpdate address _ => address
  | .calcStackDist address _ => address

def Calc.access (verify : Bool) (s : Calc) : Access → Except Fault (Nat × Bool × Calc)
  | .calcStackDistAndUpdate address addNewNode => s.calcStackDistAndUpdate verify address addNewNode
  | .calcStackDist address mark => s.calcStackDist verify address mark

end GuardianCouncil.StackDist
