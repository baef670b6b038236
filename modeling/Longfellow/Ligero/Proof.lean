/-
The Ligero proof: the challenges that are drawn from the transcript, the tests
of the prover, and the columns that it opens.
-/
import Longfellow.Ligero.Commitment
import Longfellow.Ligero.Prover

namespace Longfellow.Ligero

open Exec

/-- The hash of A is padded `0xdeadbeef`. -/
def writeHashOfA (transcript : Transcript) : Transcript :=
  transcript.writeByteArray ([0xde, 0xad, 0xbe, 0xef] ++ List.replicate 28 0)

/-- Write a Ligero proof to the transcript. -/
def writeProof {F : Type} [CodecFieldElement F] (transcript : Transcript)
    (lowDegreeTestProof dotProof quadraticProofLow quadraticProofHigh : List F) :
    Transcript :=
  [lowDegreeTestProof, dotProof, quadraticProofLow, quadraticProofHigh].foldl
    (fun transcript proof => transcript.writeFieldElementArray proof) transcript

/-- Challenges used to produce or verify a Ligero proof. -/
structure LigeroChallenges (F : Type) where
  lowDegreeTestBlind : List F
  linearConstraintAlphas : List F
  quadraticConstraintAlphas : List F
  quadraticProofBlind : List F

/-- Generate the challenges for the simulated interaction. -/
def LigeroChallenges.generate (F : Type) [CodecFieldElement F] [Primitives]
    [SamplesField F] (transcript : Transcript) (tableauLayout : TableauLayout)
    (linearConstraintsLen quadraticConstraintsLen : Nat) :
    Exec (LigeroChallenges F × Transcript) := do
  let numConstraintRows ← tableauLayout.numConstraintRows
  let (lowDegreeTestBlind, transcript) :=
    transcript.generateChallenge F numConstraintRows
  let (linearConstraintAlphas, transcript) :=
    transcript.generateChallenge F linearConstraintsLen
  let (quadraticConstraintAlphas, transcript) :=
    transcript.generateChallenge F (3 * quadraticConstraintsLen)
  let numQuadraticTriples ← tableauLayout.numQuadraticTriples
  let (quadraticProofBlind, transcript) :=
    transcript.generateChallenge F numQuadraticTriples
  pure (⟨lowDegreeTestBlind, linearConstraintAlphas,
    quadraticConstraintAlphas, quadraticProofBlind⟩, transcript)

/-- A Ligero proof. -/
structure LigeroProof (F : Type) where
  lowDegreeTestProof : List F
  dotProof : List F
  /-- The low and the high part: the middle is zero. -/
  quadraticProof : List F × List F
  tableauColumns : List (List F)
  inclusionProof : InclusionProof
  merkleTreeNonces : List Nonce
deriving DecidableEq

namespace LigeroProver

variable {F : Type} [Field F] [DecidableEq F] [CodecFieldElement F]
  [ExtendFieldElement F] [Primitives] [SamplesField F] [SamplesNaturals]

/-- Prove that the commitment satisfies the constraints. -/
def prove (prover : LigeroProver F) (transcript : Transcript)
    (commitmentState : LigeroCommitmentState F)
    (linearConstraints : LinearConstraints F) :
    Exec (LigeroProof F × Transcript) := do
  let layout := commitmentState.tableau.layout
  let contents := commitmentState.tableau.contents
  let transcript := writeHashOfA transcript
  let (challenges, transcript) ← LigeroChallenges.generate F transcript layout
    linearConstraints.rhs.length prover.quadraticConstraints.length
  let lowDegreeTestProof ←
    lowDegreeTestProof layout contents challenges.lowDegreeTestBlind
  let innerProductVector ← innerProductVector layout linearConstraints
    challenges.linearConstraintAlphas prover.quadraticConstraints
    challenges.quadraticConstraintAlphas
  let dotProof ← dotProof layout contents innerProductVector
    prover.extendContextBlockDblock
  let (quadraticProofLow, quadraticProofHigh) ←
    quadraticProof layout contents challenges.quadraticProofBlind
  let transcript := writeProof transcript lowDegreeTestProof dotProof
    quadraticProofLow quadraticProofHigh
  let dblock ← layout.dblock
  let leaves ← checkedSub layout.numColumns dblock
  let (requestedColumnIndices, transcript) ←
    transcript.generateNaturalsWithoutReplacement leaves
      layout.numRequestedColumns
  let tableauColumns ←
    requestedTableauColumns layout contents requestedColumnIndices
  let merkleTreeNonces ← requestedColumnIndices.mapM fun i =>
    index commitmentState.merkleTree.nonces i
  let inclusionProof ← commitmentState.merkleTree.prove requestedColumnIndices
  pure (⟨lowDegreeTestProof, dotProof,
    (quadraticProofLow, quadraticProofHigh), tableauColumns, inclusionProof,
    merkleTreeNonces⟩, transcript)

end LigeroProver

end Longfellow.Ligero
