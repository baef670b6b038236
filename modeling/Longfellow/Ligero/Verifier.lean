/-
The Ligero verifier: the checks of the proof against the revealed columns, and
of the revealed columns against the commitment.
-/
import Longfellow.Ligero.Proof

namespace Longfellow.Ligero

open Exec

/-- Gather the tableau elements at the provided indices from a row, in the
order of the indices. They are counted from the end of the systematic part, so
that these are tableau elements and not witnesses. -/
def TableauLayout.gather {F : Type} (layout : TableauLayout) (source : List F)
    (indices : List Nat) : Exec (List F) :=
  indices.mapM fun i => do
    let dblock ← layout.dblock
    index source (i + dblock)

/-- Stitch the quadratic proof parts back together with the middle span of
zeroes. -/
def LigeroProof.stitchedQuadraticProof {F : Type} [Zero F]
    (proof : LigeroProof F) (layout : TableauLayout) : Exec (List F) := do
  let dblock ← layout.dblock
  let low := proof.quadraticProof.1.take layout.blockSize
  let stitched := low ++ List.replicate (layout.blockSize - low.length) 0 ++
    proof.quadraticProof.2
  assert (stitched.length = dblock) "assertion `left == right` failed"
  pure stitched

/-- Verifier for the Ligero proof system. -/
structure LigeroVerifier (F : Type) [ExtendFieldElement F] where
  quadraticConstraints : List QuadraticConstraint
  tableauLayout : TableauLayout
  extendContextBlockNcol : ExtendContext F
  extendContextDblockNcol : ExtendContext F

namespace LigeroVerifier

/-- Construct a new verifier for a circuit and set of parameter choices. -/
def new {F : Type} [ExtendFieldElement F] (circuit : Circuit F)
    (ligeroParameters : LigeroParameters) : Exec (LigeroVerifier F) := do
  let witnessLayout ← WitnessLayout.fromCircuit circuit
  let quadraticConstraints ←
    Longfellow.quadraticConstraints circuit witnessLayout
  let tableauLayout : TableauLayout := ⟨ligeroParameters,
    witnessLayout.length, quadraticConstraints.length⟩
  let extendContextBlockNcol ←
    extendPrecompute tableauLayout.blockSize tableauLayout.numColumns
  let dblock ← tableauLayout.dblock
  let extendContextDblockNcol ←
    extendPrecompute dblock tableauLayout.numColumns
  pure ⟨quadraticConstraints, tableauLayout, extendContextBlockNcol,
    extendContextDblockNcol⟩

variable {F : Type} [Field F] [DecidableEq F] [ExtendFieldElement F]
  (verifier : LigeroVerifier F) (proof : LigeroProof F)

/-- Check that the low degree test proof matches the columns. -/
def checkLowDegree (lowDegreeTestBlind : List F)
    (requestedColumnIndices : List Nat) : Exec Unit := do
  let testRow ← index proof.tableauColumns TableauLayout.lowDegreeTestRow
  let wantLowDegreeRow := ((proof.tableauColumns.drop
    TableauLayout.firstWitnessRow).zip lowDegreeTestBlind).foldl
      (fun want (proofRow, challenge) =>
        addProducts want (List.replicate proofRow.length challenge) proofRow)
      testRow
  let extended ←
    extend proof.lowDegreeTestProof verifier.extendContextBlockNcol
  let proofLowDegreeTestRow ←
    verifier.tableauLayout.gather extended requestedColumnIndices
  ensure (wantLowDegreeRow = proofLowDegreeTestRow)
    "low degree test proof mismatch"

omit [ExtendFieldElement F] [DecidableEq F] in
/-- The random combination of the right hand sides. -/
def wantDotProduct (rhs linearConstraintAlphas : List F) : F :=
  (rhs.zip linearConstraintAlphas).foldl
    (fun sum (rhsTerm, alpha) => sum + rhsTerm * alpha) 0

omit [DecidableEq F] in
/-- The sum of the dot proof over the witnesses. -/
def proofDotProduct : F :=
  ((proof.dotProof.drop verifier.tableauLayout.numRequestedColumns).take
    verifier.tableauLayout.witnessesPerRow).foldl (fun sum term => sum + term) 0

/-- Check that the dot product matches the linear constraints. -/
def checkDotProduct (rhs linearConstraintAlphas : List F) : Exec Unit :=
  ensure (wantDotProduct rhs linearConstraintAlphas =
      verifier.proofDotProduct proof)
    "dot product mismatch"

omit [DecidableEq F] in
/-- Add the products of a part of the inner product vector, extended, and the
revealed elements of a row. -/
def addRevealedProduct (requestedColumnIndices : List Nat)
    (wantDotRow : List F) (part : List F × List F) : Exec (List F) := do
  let extended ← extend
    (List.replicate verifier.tableauLayout.numRequestedColumns 0 ++ part.1)
    verifier.extendContextBlockNcol
  let gathered ←
    verifier.tableauLayout.gather extended requestedColumnIndices
  pure (addProducts wantDotRow gathered part.2)

/-- Check that the dot proof matches the columns. -/
def checkDotRow (innerProductVector : List F)
    (requestedColumnIndices : List Nat) : Exec Unit := do
  let wantDotRow ← index proof.tableauColumns TableauLayout.dotProofRow
  let parts ←
    chunks innerProductVector verifier.tableauLayout.witnessesPerRow
  assert (TableauLayout.firstWitnessRow ≤ proof.tableauColumns.length)
    "range start index out of range for slice"
  let wantDotRow ← (parts.zip (proof.tableauColumns.drop
    TableauLayout.firstWitnessRow)).foldlM
      (verifier.addRevealedProduct requestedColumnIndices) wantDotRow
  let extended ← extend proof.dotProof verifier.extendContextDblockNcol
  let proofDotRow ←
    verifier.tableauLayout.gather extended requestedColumnIndices
  ensure (wantDotRow = proofDotRow) "dot proof mismatch"

/-- Check that the quadratic proof matches the columns. -/
def checkQuadratic (quadraticProofBlind : List F)
    (requestedColumnIndices : List Nat) : Exec Unit := do
  let wantQuadraticTestRow ←
    index proof.tableauColumns TableauLayout.quadraticTestRow
  let firstXRow ← verifier.tableauLayout.firstQuadraticConstraintRow
  let triples ← verifier.tableauLayout.numQuadraticTriples
  let wantQuadraticTestRow ← quadraticProofBlind.zipIdx.foldlM
    (fun want (uquad, i) => do
      let xRow ← index proof.tableauColumns (firstXRow + i)
      let yRow ← index proof.tableauColumns (firstXRow + triples + i)
      let zRow ← index proof.tableauColumns (firstXRow + triples + triples + i)
      let differences := List.zipWith (fun (x, y) z => z - x * y)
        (xRow.zip yRow) zRow
      pure (addProducts want (List.replicate differences.length uquad)
        differences))
    wantQuadraticTestRow
  let stitched ← proof.stitchedQuadraticProof verifier.tableauLayout
  let extended ← extend stitched verifier.extendContextDblockNcol
  let proofQuadraticTestRow ←
    verifier.tableauLayout.gather extended requestedColumnIndices
  ensure (wantQuadraticTestRow = proofQuadraticTestRow)
    "quadratic proof mismatch"

variable [CodecFieldElement F] [Primitives]

/-- Check the Merkle tree inclusion proof of the revealed columns, which are in
the order of the requested indices. -/
def checkInclusion (commitment : Root) (requestedColumnIndices : List Nat) :
    Exec Unit := do
  let includedNodes ← (List.range requestedColumnIndices.length).mapM
    fun column => do
      let nonce ← index proof.merkleTreeNonces column
      Tableau.columnLeaf proof.tableauColumns nonce column
  let dblock ← verifier.tableauLayout.dblock
  let leaves ← checkedSub verifier.tableauLayout.numColumns dblock
  (MerkleTree.verify commitment leaves includedNodes requestedColumnIndices
    proof.inclusionProof).context "Merkle tree inclusion proof failure"

variable [SamplesField F] [SamplesNaturals]

/-- Verify a proof claiming that the commitment satisfies the provided
constraints. -/
def verify (commitment : Root) (transcript : Transcript)
    (linearConstraints : LinearConstraints F) : Exec Transcript := do
  let layout := verifier.tableauLayout
  let transcript := writeHashOfA transcript
  let (challenges, transcript) ← LigeroChallenges.generate F transcript layout
    linearConstraints.rhs.length verifier.quadraticConstraints.length
  let transcript := writeProof transcript proof.lowDegreeTestProof
    proof.dotProof proof.quadraticProof.1 proof.quadraticProof.2
  let dblock ← layout.dblock
  let leaves ← checkedSub layout.numColumns dblock
  let (requestedColumnIndices, transcript) ←
    transcript.generateNaturalsWithoutReplacement leaves
      layout.numRequestedColumns
  verifier.checkLowDegree proof challenges.lowDegreeTestBlind
    requestedColumnIndices
  verifier.checkDotProduct proof linearConstraints.rhs
    challenges.linearConstraintAlphas
  let innerProductVector ← innerProductVector layout linearConstraints
    challenges.linearConstraintAlphas verifier.quadraticConstraints
    challenges.quadraticConstraintAlphas
  verifier.checkDotRow proof innerProductVector requestedColumnIndices
  verifier.checkQuadratic proof challenges.quadraticProofBlind
    requestedColumnIndices
  verifier.checkInclusion proof commitment requestedColumnIndices
  pure transcript

end LigeroVerifier

end Longfellow.Ligero
