/-
The Merkle tree that commits to the columns of a tableau: building it, proving
that leaves are in it, and checking such a proof.
-/
import Longfellow.Lib.HeapTree
import Longfellow.Transcript

namespace Longfellow.Ligero

open Exec HeapTree

/-- A nonce that is hashed into a leaf. -/
structure Nonce where
  bytes : List UInt8
  length_bytes : bytes.length = 32

instance : DecidableEq Nonce := fun a b =>
  decidable_of_iff (a.bytes = b.bytes) (by cases a; cases b; simp)

instance : Inhabited Nonce := ⟨⟨List.replicate 32 0, length_zeros⟩⟩

/-- The value of a node of a tree. -/
structure Node where
  digest : Sha256Digest
deriving DecidableEq

instance : Inhabited Node :=
  ⟨⟨⟨List.replicate 32 0, length_zeros⟩⟩⟩

/-- A commitment to a witness: the root of a tree. -/
structure Root where
  digest : Sha256Digest
deriving DecidableEq

def Root.ofNode (node : Node) : Root := ⟨node.digest⟩

def Node.ofRoot (root : Root) : Node := ⟨root.digest⟩

/-- An inclusion proof from a tree. -/
structure InclusionProof where
  nodes : List Node
deriving DecidableEq

/-- A Merkle tree of digests. -/
structure MerkleTree where
  /-- The root is at index 1. Index 0 is unused. -/
  digests : List Node
  /-- The nonces hashed into the leaf nodes of the tree. -/
  nonces : List Nonce
deriving DecidableEq

namespace MerkleTree

/-- A tree big enough for the specified number of leaves. -/
def new (leafCount : Nat) : MerkleTree :=
  ⟨List.replicate (2 * leafCount) default, List.replicate leafCount default⟩

def treeSize (tree : MerkleTree) : Nat := tree.digests.length

def leafCount (tree : MerkleTree) : Nat := tree.treeSize / 2

def leftChildIndex (index : Nat) : Nat := 2 * index

def rightChildIndex (index : Nat) : Nat := 2 * index + 1

/-- Insert the leaf into the tree. -/
def setLeaf (tree : MerkleTree) (position : Nat) (leaf : Node)
    (nonce : Nonce) : Exec MerkleTree := do
  let firstLeafIndex := tree.leafCount
  let digests ← update tree.digests (firstLeafIndex + position) fun _ => leaf
  let nonces ← update tree.nonces position fun _ => nonce
  pure ⟨digests, nonces⟩

/-- The digest at the root of the tree. -/
def root (tree : MerkleTree) : Exec Root := do
  let node ← index tree.digests 1
  pure (Root.ofNode node)

def eitherChildMarked (marked : List Bool) (i : Nat) : Exec Bool := do
  let left ← index marked (leftChildIndex i)
  if left then pure true else index marked (rightChildIndex i)

/-- Mark an inner node if either child is marked. -/
def markInnerNode (marked : List Bool) (i : Nat) : Exec (List Bool) := do
  let value ← eitherChildMarked marked i
  update marked i fun _ => value

/-- Mark the requested leaves, and the inner nodes above them. -/
def markTree (treeSize leafCount : Nat) (requestedLeaves : List Nat) :
    Exec (List Bool) := do
  let marked ← requestedLeaves.foldlM (fun marked requestedLeaf =>
      update marked (leafCount + requestedLeaf) fun _ => true)
    (List.replicate treeSize false)
  (innerNodes leafCount).foldlM markInnerNode marked

/-- The child of a marked node that is not marked itself, if there is one. Its
digest belongs in the proof. -/
def unmarkedChild (marked : List Bool) (i : Nat) : Exec (Option Nat) := do
  if ← index marked i then do
    let leftMarked ← index marked (leftChildIndex i)
    let childIndex := if leftMarked then rightChildIndex i else leftChildIndex i
    let childMarked ← index marked childIndex
    pure (if childMarked then none else some childIndex)
  else pure none

/-- Append the digest that the proof needs at an inner node. -/
def pushProofNode (tree : MerkleTree) (marked : List Bool) (proof : List Node)
    (i : Nat) : Exec (List Node) := do
  match ← unmarkedChild marked i with
  | some childIndex => do
      let node ← index tree.digests childIndex
      pure (proof ++ [node])
  | none => pure proof

/-- Prove that all the requested leaves are included in the tree. -/
def prove (tree : MerkleTree) (requestedLeaves : List Nat) :
    Exec InclusionProof := do
  let marked ← markTree tree.treeSize tree.leafCount requestedLeaves
  let proof ← (innerNodes tree.leafCount).foldlM (tree.pushProofNode marked) []
  pure ⟨proof⟩

/-- Take the digest that an inner node needs from the proof. -/
def placeProofNode (marked : List Bool)
    (state : List (Option Node) × List Node) (i : Nat) :
    Exec (List (Option Node) × List Node) := do
  let (partialTree, proofNodes) := state
  match ← unmarkedChild marked i with
  | some childIndex =>
      match proofNodes with
      | [] => fail "not enough proof elements to prove inclusion"
      | proofNode :: proofNodes => do
          let partialTree ← update partialTree childIndex fun _ =>
            some proofNode
          pure (partialTree, proofNodes)
  | none => pure (partialTree, proofNodes)

/-- Fill a leaf with an included node. -/
def placeLeaf (leafCount : Nat) (partialTree : List (Option Node))
    (included : Node × Nat) : Exec (List (Option Node)) :=
  update partialTree (included.2 + leafCount) fun _ => some included.1

section Hash

variable [Primitives]

/-- Hash `left` and `right` together into a new node. -/
def hashChildren (left right : Node) : Node :=
  ⟨Primitives.sha256 (left.digest.bytes ++ right.digest.bytes)⟩

/-- Compute the digest of an inner node from its two children. -/
def buildNode (digests : List Node) (i : Nat) : Exec (List Node) := do
  let left ← index digests (leftChildIndex i)
  let right ← index digests (rightChildIndex i)
  update digests i fun _ => hashChildren left right

/-- Build the tree up from the leaves to the root. -/
def build (tree : MerkleTree) : Exec MerkleTree := do
  let digests ← (innerNodes tree.leafCount).foldlM buildNode tree.digests
  pure { tree with digests }

/-- Insert leaves into a new tree, one after the other, and build it. -/
def ofLeaves (leafCount : Nat) (calls : List (Nat × Node × Nonce)) :
    Exec MerkleTree := do
  let tree ← calls.foldlM (fun tree (position, leaf, nonce) =>
    tree.setLeaf position leaf nonce) (new leafCount)
  tree.build

/-- The leaf that was inserted last at a position. -/
def lastLeaf (calls : List (Nat × Node × Nonce)) (position : Nat) : Node :=
  ((calls.reverse.find? fun call => call.1 = position).map
    fun call => call.2.1).getD default

/-- Compute an inner node both of whose children are known. -/
def hashKnown (partialTree : List (Option Node)) (i : Nat) :
    Exec (List (Option Node)) := do
  let left ← index partialTree (leftChildIndex i)
  let right ← index partialTree (rightChildIndex i)
  match left, right with
  | some left, some right =>
      update partialTree i fun _ => some (hashChildren left right)
  | _, _ => pure partialTree

/-- The tree that the verifier constructs from the included nodes and the
proof. -/
def fillPartialTree (leafCount : Nat) (includedNodes : List Node)
    (includedNodeIndices : List Nat) (proof : InclusionProof) :
    Exec (List (Option Node)) := do
  let marked ← markTree (leafCount * 2) leafCount includedNodeIndices
  let (partialTree, _) ← (innerNodes leafCount).foldlM (placeProofNode marked)
    (List.replicate (2 * leafCount) none, proof.nodes)
  let partialTree ← (includedNodes.zip includedNodeIndices).foldlM
    (placeLeaf leafCount) partialTree
  (innerNodes leafCount).foldlM hashKnown partialTree

/-- Verify that the proof proves that the nodes at the leaf indices are
included in the tree with the root. -/
def verify (root : Root) (leafCount : Nat) (includedNodes : List Node)
    (includedNodeIndices : List Nat) (proof : InclusionProof) : Exec Unit := do
  ensure (includedNodes.length = includedNodeIndices.length)
    "lengths of nodes and node indices must match"
  ensure (∀ leafIndex ∈ includedNodeIndices, leafIndex < leafCount)
    "included nodes index exceeds tree size"
  let partialTree ←
    fillPartialTree leafCount includedNodes includedNodeIndices proof
  let node ← index partialTree 1
  ensure (node = some (Node.ofRoot root)) "partial tree root does not match"

end Hash

end MerkleTree

end Longfellow.Ligero
