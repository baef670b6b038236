/-
The prover for one circuit: evaluation, the Ligero commitment to the private
inputs and the pads, the sumcheck proof and the Ligero proof.
-/
import Longfellow.Ligero.Proof
import Longfellow.Sumcheck.Protocol

namespace Longfellow.ZkOneCircuit

open Exec Ligero

/-- The random values that the prover draws. -/
structure Randomness (F : Type) where
  /-- The pads of the witness. -/
  pads : Nat → F
  /-- The random elements of the tableau. -/
  blinds : Nat → F
  /-- The nonces that are hashed into the leaves of the tree. -/
  nonces : Nat → Nonce

/-- The next value that is drawn. -/
def draw {α : Type} (values : Nat → α) (i : Nat) : α × Nat := (values i, i + 1)

/-- Longfellow ZK prover. -/
structure Prover (F : Type) [ExtendFieldElement F] where
  circuit : Circuit F
  ligeroProver : LigeroProver F

/-- Longfellow ZK proof. -/
structure Proof (F : Type) where
  /-- The byte string used to select a random oracle. -/
  oracle : List UInt8
  sumcheckProof : Sumcheck.SumcheckProof F
  ligeroCommitment : Root
  ligeroProof : LigeroProof F
deriving DecidableEq

namespace Prover

/-- Construct a new prover from a circuit and a choice of Ligero
parameters. -/
def new {F : Type} [ExtendFieldElement F] (circuit : Circuit F)
    (ligeroParameters : LigeroParameters) : Exec (Prover F) := do
  let ligeroProver ← LigeroProver.new circuit ligeroParameters
  pure ⟨circuit, ligeroProver⟩

variable {F : Type} [Field F] [DecidableEq F] [ProofFieldElement F]
  [ExtendFieldElement F] [Primitives] [SamplesField F] [SamplesNaturals]

/-- Construct a proof for the given statement and witness, which are all
inputs to the circuit. -/
def prove (prover : Prover F) (randomness : Randomness F)
    (sessionId : List UInt8) (inputs : List F) : Exec (Proof F) := do
  let circuit := prover.circuit
  ensure (inputs.length = circuit.numInputs)
    "input length does not match circuit"
  let evaluation ← circuit.evaluate inputs
  let privateInputs ← evaluation.privateInputs circuit.numPublicInputs
  let (witness, _) := Witness.fillWitness (draw randomness.pads)
    prover.ligeroProver.witnessLayout privateInputs 0
  let commitmentState ← prover.ligeroProver.commit witness
    (draw randomness.blinds) 0 (draw randomness.nonces) 0
  let transcript := Transcript.new sessionId .v3Compatibility
  let transcript := transcript.writeByteArray commitmentState.root.digest.bytes
  let publicInputs ← evaluation.publicInputs circuit.numPublicInputs
  let transcript :=
    Sumcheck.initializeTranscript transcript circuit publicInputs
  let (⟨sumcheckProof, linearConstraints⟩, transcript) ←
    Sumcheck.prove circuit evaluation transcript witness
  let (ligeroProof, _) ← prover.ligeroProver.prove transcript commitmentState
    linearConstraints
  pure ⟨sessionId, sumcheckProof, commitmentState.root, ligeroProof⟩

end Prover

end Longfellow.ZkOneCircuit
