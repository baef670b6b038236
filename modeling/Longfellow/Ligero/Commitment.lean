/-
The commitment of the Ligero prover: the tableau of a witness, and the Merkle
tree of its columns.
-/
import Longfellow.Lib.Infallible
import Longfellow.Ligero.Merkle
import Longfellow.Ligero.Tableau

namespace Longfellow.Ligero

open Exec CodecFieldElement

namespace Tableau

variable {F τ : Type} [CodecFieldElement F] [Primitives]

/-- The hash of a column, after a nonce. -/
def columnLeaf (contents : List (List F)) (nonce : Nonce) (leafIndex : Nat) :
    Exec Node := do
  let elements ← contents.mapM fun row => index row leafIndex
  pure ⟨Primitives.sha256 (nonce.bytes ++ elements.flatMap encode)⟩

/-- Commit to the contents of the tableau, using nonces from the generator. -/
def commit (tableau : Tableau F) (nonceGenerator : τ → Nonce × τ) (t : τ) :
    Exec MerkleTree := do
  let dblock ← tableau.layout.dblock
  let treeSize ← checkedSub tableau.layout.numColumns dblock
  let (tree, _) ← (List.range' dblock treeSize).foldlM
    (fun (state : MerkleTree × τ) leafIndex => do
      let (nonce, t) := nonceGenerator state.2
      let leaf ← columnLeaf tableau.contents nonce leafIndex
      let position ← checkedSub leafIndex dblock
      let tree ← state.1.setLeaf position leaf nonce
      pure (tree, t))
    (MerkleTree.new treeSize, t)
  tree.build

end Tableau

/-- Prover for the Ligero proof system. -/
structure LigeroProver (F : Type) [ExtendFieldElement F] where
  parameters : LigeroParameters
  witnessLayout : WitnessLayout
  quadraticConstraints : List QuadraticConstraint
  extendContextBlockNcol : ExtendContext F
  extendContextDblockNcol : ExtendContext F
  extendContextBlockDblock : ExtendContext F

/-- The tableau that a commitment is to, with the tree of its columns. -/
structure LigeroCommitmentState (F : Type) where
  tableau : Tableau F
  merkleTree : MerkleTree
  root : Root

namespace LigeroProver

section New

variable {F : Type} [ExtendFieldElement F]

/-- Construct a new prover for a circuit and set of parameter choices. -/
def new (circuit : Circuit F) (ligeroParameters : LigeroParameters) :
    Exec (LigeroProver F) := do
  let witnessLayout ← WitnessLayout.fromCircuit circuit
  let quadraticConstraints ←
    Longfellow.quadraticConstraints circuit witnessLayout
  let tableauLayout : TableauLayout := ⟨ligeroParameters,
    witnessLayout.length, quadraticConstraints.length⟩
  let dblock ← tableauLayout.dblock
  let extendContextBlockNcol ←
    extendPrecompute tableauLayout.blockSize tableauLayout.numColumns
  let extendContextDblockNcol ←
    extendPrecompute dblock tableauLayout.numColumns
  let extendContextBlockDblock ←
    extendPrecompute tableauLayout.blockSize dblock
  pure ⟨ligeroParameters, witnessLayout, quadraticConstraints,
    extendContextBlockNcol, extendContextDblockNcol,
    extendContextBlockDblock⟩

end New

section Commit

variable {F σ τ : Type} [Field F] [DecidableEq F] [CodecFieldElement F]
  [ExtendFieldElement F] [Primitives]

/-- Commit to a Ligero witness, returning the full tableau and Merkle
tree. -/
def commit (prover : LigeroProver F) (witness : Witness F)
    (generator : σ → F × σ) (s : σ) (nonceGenerator : τ → Nonce × τ) (t : τ) :
    Exec (LigeroCommitmentState F) := do
  let tableau ← Tableau.build generator prover.parameters witness
    prover.quadraticConstraints prover.extendContextBlockNcol
    prover.extendContextDblockNcol s
  let merkleTree ← tableau.commit nonceGenerator t
  let root ← merkleTree.root
  pure ⟨tableau, merkleTree, root⟩

end Commit

end LigeroProver

end Longfellow.Ligero
