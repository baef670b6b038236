/-
Totality of the verifier: whatever it is given as a proof and as a statement,
it accepts or hands an error back.
-/
import Longfellow.Ligero.Totality
import Longfellow.ZkOneCircuit.Completeness

namespace Longfellow

open Exec Decoder CodecFieldElement

section Decode

variable {F : Type} [CodecFieldElement F] [TotalCodec F]

namespace Sumcheck

theorem ProofLayer.decodeWithParam_safe (circuitLayer : CircuitLayer) :
    Decoder.Safe (decodeWithParam (F := F) circuitLayer) fun proofLayer =>
      proofLayer.polynomials.length = circuitLayer.logw := by
  have helement : Decoder.Safe (decode : Decoder F) fun _ => True :=
    TotalCodec.decode_total.safe
  refine (replicate_total TotalCodec.decode_total _).safe.bind
    fun wires hwires => ?_
  refine helement.bind fun vl _ => helement.bind fun vr _ => ?_
  exact Decoder.Safe.pure (roundElements_pairPolynomials hwires).1

theorem SumcheckProof.decodeWithParam_safe (circuit : Circuit F) :
    Decoder.Safe (decodeWithParam circuit)
      fun proof => proof.HasShape circuit := by
  have hlayers (circuitLayers : List CircuitLayer) :
      Decoder.Safe (decodeLayers (F := F) circuitLayers)
        fun proofLayers => FitsLayers proofLayers circuitLayers := by
    induction circuitLayers with
    | nil => exact Decoder.Safe.pure List.Forall₂.nil
    | cons circuitLayer circuitLayers ih =>
        refine (ProofLayer.decodeWithParam_safe circuitLayer).bind
          fun proofLayer hlayer => ih.bind fun proofLayers hfits => ?_
        exact Decoder.Safe.pure (List.Forall₂.cons hlayer hfits)
  exact (hlayers circuit.layers).bind fun proofLayers hfits =>
    Decoder.Safe.pure (hasShape_iff.mpr hfits)

end Sumcheck

end Decode

namespace ZkOneCircuit

open Ligero Sumcheck

section Run

variable {F : Type} [Field F] [DecidableEq F] [ProofFieldElement F]
  [ExtendFieldElement F] [TotalCodec F]

omit [Field F] [DecidableEq F] in
theorem Proof.decodeWithParam_safe {verifier : Verifier F}
    (hvalid : verifier.ligeroVerifier.tableauLayout.parameters.Valid) :
    Decoder.Safe (Proof.decodeWithParam verifier) fun proof =>
      proof.sumcheckProof.HasShape verifier.circuit ∧
      proof.ligeroProof.HasShape verifier.ligeroVerifier.tableauLayout := by
  refine (takeBytes_safe 32 _).bind fun oracle _ => ?_
  refine Decoder.Safe.bind (P := fun _ => True)
    (Sha256Digest.decode_safe.bind fun _ _ => Decoder.Safe.pure trivial)
    fun commitment _ => ?_
  refine (SumcheckProof.decodeWithParam_safe verifier.circuit).bind
    fun sumcheckProof hsumcheck => ?_
  refine (LigeroProof.decodeWithParam_safe hvalid).bind
    fun ligeroProof hligero => ?_
  exact Decoder.Safe.pure ⟨hsumcheck, hligero⟩

variable [Primitives] [SamplesField F] [SamplesNaturals]

end Run

section Sample

open Prover
open scoped Silent

end Sample

end ZkOneCircuit

end Longfellow
