/-
The verifier for one circuit, and the encoding of its proofs: the oracle, the
Ligero commitment, the sumcheck proof and the Ligero proof.
-/
import Longfellow.Ligero.ProofCodec
import Longfellow.Ligero.Verifier
import Longfellow.Sumcheck.ProofCodec
import Longfellow.Sumcheck.Verifier
import Longfellow.ZkOneCircuit.Prover

namespace Longfellow.Ligero.Root

def decode : Decoder Root := do
  let digest ← Sha256Digest.decode
  pure ⟨digest⟩

def encode (root : Root) : List UInt8 := root.digest.encode

theorem decode_reads (root : Root) : Decoder.Reads decode root.encode root := by
  intro rest
  exact Decoder.bind_eq_ok.mpr
    ⟨root.digest, rest, Sha256Digest.decode_reads root.digest rest, rfl⟩

end Longfellow.Ligero.Root

namespace Longfellow.ZkOneCircuit

open Exec Ligero

/-- Longfellow ZK verifier. -/
structure Verifier (F : Type) [ExtendFieldElement F] where
  circuit : Circuit F
  ligeroVerifier : LigeroVerifier F

namespace Verifier

/-- Construct a new verifier from a circuit and a choice of Ligero
parameters. -/
def new {F : Type} [ExtendFieldElement F] (circuit : Circuit F)
    (ligeroParameters : LigeroParameters) : Exec (Verifier F) := do
  let ligeroVerifier ← LigeroVerifier.new circuit ligeroParameters
  pure ⟨circuit, ligeroVerifier⟩

variable {F : Type} [Field F] [DecidableEq F] [ProofFieldElement F]
  [ExtendFieldElement F] [Primitives] [SamplesField F] [SamplesNaturals]

/-- Verify a Longfellow ZK proof. -/
def verify (verifier : Verifier F) (statement : List F) (proof : Proof F) :
    Exec Unit := do
  ensure (statement.length = verifier.circuit.numPublicInputs)
    "statement length does not match circuit"
  let transcript := Transcript.new proof.oracle .v3Compatibility
  let transcript :=
    transcript.writeByteArray proof.ligeroCommitment.digest.bytes
  let transcript :=
    Sumcheck.initializeTranscript transcript verifier.circuit statement
  -- The deferred linear constraints.
  let (linearConstraints, transcript) ← Sumcheck.linearConstraints
    verifier.circuit statement transcript proof.sumcheckProof
  let _ ← verifier.ligeroVerifier.verify proof.ligeroProof
    proof.ligeroCommitment transcript linearConstraints
  pure ()

end Verifier

namespace Proof

variable {F : Type} [ProofFieldElement F] [ExtendFieldElement F]

/-- Deserialize a Longfellow ZK proof. -/
def decodeWithParam (verifier : Verifier F) : Decoder (Proof F) := do
  let oracle ← Decoder.takeBytes 32 "failed to read u8"
  let ligeroCommitment ← Root.decode
  let sumcheckProof ← Sumcheck.SumcheckProof.decodeWithParam verifier.circuit
  let ligeroProof ←
    LigeroProof.decodeWithParam verifier.ligeroVerifier.tableauLayout
  pure ⟨oracle, sumcheckProof, ligeroCommitment, ligeroProof⟩

/-- Encode a Longfellow ZK proof. -/
def encodeWithParam (proof : Proof F) (verifier : Verifier F) :
    Exec (List UInt8) := do
  ensure (proof.oracle.length = 32) "oracle is not 32 bytes long"
  let ligeroProof ← proof.ligeroProof.encodeWithParam
    verifier.ligeroVerifier.tableauLayout
  pure (proof.oracle ++ (proof.ligeroCommitment.encode ++
    (proof.sumcheckProof.encodeWithParam verifier.circuit ++ ligeroProof)))

end Proof

end Longfellow.ZkOneCircuit
