/-
The encoding of sumcheck proofs: the elements of each round by evaluation point
and then by hand, with all lengths taken from the circuit.
-/
import Longfellow.Fields.Field2128.Subfield
import Longfellow.Fields.FieldP256
import Longfellow.Sumcheck.Verifier

namespace Longfellow.Sumcheck

open CodecFieldElement

variable {F : Type}

/-- The elements of a round as they are written. -/
def roundElements (pair : Hands (Sumcheck.Polynomial F)) : List F :=
  [pair.left.p0, pair.right.p0, pair.left.p2, pair.right.p2]

/-- Each four elements make a pair of polynomials. -/
def pairPolynomials : List F → List (Hands (Sumcheck.Polynomial F))
  | p00 :: p01 :: p20 :: p21 :: rest =>
      ⟨⟨p00, p20⟩, ⟨p01, p21⟩⟩ :: pairPolynomials rest
  | _ => []

theorem pairPolynomials_roundElements
    (polynomials : List (Hands (Sumcheck.Polynomial F))) :
    pairPolynomials (polynomials.flatMap roundElements) = polynomials := by
  induction polynomials with
  | nil => rfl
  | cons pair polynomials ih =>
      rw [List.flatMap_cons, roundElements]
      simp only [List.cons_append, List.nil_append, pairPolynomials, ih]

theorem roundElements_pairPolynomials {logw : Nat} {wires : List F}
    (hlength : wires.length = logw * 4) :
    (pairPolynomials wires).length = logw ∧
      (pairPolynomials wires).flatMap roundElements = wires := by
  induction logw generalizing wires with
  | zero =>
      rw [Nat.zero_mul] at hlength
      rw [List.eq_nil_of_length_eq_zero hlength]
      exact ⟨rfl, rfl⟩
  | succ logw ih =>
      match wires with
      | p00 :: p01 :: p20 :: p21 :: rest =>
          simp only [List.length_cons] at hlength
          have htail : rest.length = logw * 4 := by omega
          obtain ⟨hrest, hsame⟩ := ih htail
          rw [pairPolynomials, List.length_cons, hrest, List.flatMap_cons,
            hsame]
          exact ⟨rfl, rfl⟩
      | [] => simp at hlength
      | [_] => simp at hlength; omega
      | [_, _] => simp at hlength; omega
      | [_, _, _] => simp at hlength; omega

variable [CodecFieldElement F]

namespace ProofLayer

/-- Encode a layer of a proof. -/
def encodeWithParam (proofLayer : ProofLayer F) (_ : CircuitLayer) :
    List UInt8 :=
  (proofLayer.polynomials.flatMap fun pair =>
      encode pair.left.p0 ++ encode pair.right.p0 ++
        encode pair.left.p2 ++ encode pair.right.p2) ++
    encode proofLayer.vl ++ encode proofLayer.vr

/-- Decode a layer of a proof, with as many rounds as the circuit layer has. -/
def decodeWithParam (circuitLayer : CircuitLayer) :
    Decoder (ProofLayer F) := do
  let wires ← Decoder.replicate decode (circuitLayer.logw * 4)
  let vl ← decode
  let vr ← decode
  pure ⟨pairPolynomials wires, vl, vr⟩

end ProofLayer

namespace SumcheckProof

/-- Encode the layers one after the other. -/
def encodeWithParam (proof : SumcheckProof F) (circuit : Circuit F) :
    List UInt8 :=
  (proof.layers.zip circuit.layers).flatMap fun (proofLayer, circuitLayer) =>
    proofLayer.encodeWithParam circuitLayer

/-- Decode a layer for each layer of the circuit. -/
def decodeLayers : List CircuitLayer → Decoder (List (ProofLayer F))
  | [] => pure []
  | circuitLayer :: circuitLayers => do
      let proofLayer ← ProofLayer.decodeWithParam circuitLayer
      let proofLayers ← decodeLayers circuitLayers
      pure (proofLayer :: proofLayers)

/-- Decode a proof for a circuit. -/
def decodeWithParam (circuit : Circuit F) : Decoder (SumcheckProof F) := do
  let proofLayers ← decodeLayers circuit.layers
  pure ⟨proofLayers⟩

end SumcheckProof

section Format

variable [CanonicalCodec F]

omit [CanonicalCodec F] in
theorem ProofLayer.encodeWithParam_eq (proofLayer : ProofLayer F)
    (circuitLayer : CircuitLayer) :
    proofLayer.encodeWithParam circuitLayer =
      (proofLayer.polynomials.flatMap roundElements).flatMap encode ++
        (encode proofLayer.vl ++ encode proofLayer.vr) := by
  rw [encodeWithParam, List.append_assoc, List.flatMap_assoc]
  simp only [roundElements, List.flatMap_cons, List.flatMap_nil,
    List.append_nil, List.append_assoc]

/-- The layers with as many rounds as the circuit layer are read from their
encodings only. -/
theorem ProofLayer.format (circuitLayer : CircuitLayer) :
    Decoder.Format (ProofLayer.decodeWithParam (F := F) circuitLayer)
      (fun proofLayer => proofLayer.polynomials.length = circuitLayer.logw)
      fun proofLayer => proofLayer.encodeWithParam circuitLayer := by
  have hformat : Decoder.Format (decode : Decoder F) (fun _ => True) encode :=
    CanonicalCodec.decode_format
  have hwires := hformat.replicate (circuitLayer.logw * 4)
  intro bs proofLayer rest
  simp only [ProofLayer.encodeWithParam_eq, ProofLayer.decodeWithParam,
    Decoder.bind_eq_ok, Decoder.pure_eq_ok]
  constructor
  · rintro ⟨wires, mid, hread, vl, mid', hvl, vr, mid'', hvr, rfl, rfl⟩
    obtain ⟨⟨hlength, -⟩, rfl⟩ := (hwires _ _ _).mp hread
    obtain ⟨-, rfl⟩ := (hformat _ _ _).mp hvl
    obtain ⟨-, rfl⟩ := (hformat _ _ _).mp hvr
    obtain ⟨hrounds, hsame⟩ := roundElements_pairPolynomials hlength
    refine ⟨hrounds, ?_⟩
    rw [hsame]
    simp only [List.append_assoc]
  · rintro ⟨hlength, rfl⟩
    have hcount : (proofLayer.polynomials.flatMap roundElements).length =
        circuitLayer.logw * 4 := by
      rw [← hlength, List.length_flatMap]
      simp [roundElements]
    refine ⟨_, _, (hwires _ _ _).mpr ⟨⟨hcount, fun _ _ => trivial⟩, ?_⟩,
      proofLayer.vl, _, (hformat _ _ _).mpr ⟨trivial, rfl⟩, proofLayer.vr, rest,
      (hformat _ _ _).mpr ⟨trivial, rfl⟩, ?_, rfl⟩
    · simp only [List.append_assoc]
    · rw [pairPolynomials_roundElements]

/-- As many layers, each with its number of rounds. -/
def FitsLayers : List (ProofLayer F) → List CircuitLayer → Prop :=
  List.Forall₂ fun proofLayer circuitLayer =>
    proofLayer.polynomials.length = circuitLayer.logw

omit [CodecFieldElement F] [CanonicalCodec F] in
theorem SumcheckProof.hasShape_iff {proof : SumcheckProof F}
    {circuit : Circuit F} :
    proof.HasShape circuit ↔ FitsLayers proof.layers circuit.layers := by
  rw [FitsLayers, List.forall₂_iff_get]
  constructor
  · intro h
    exact ⟨h.length_layers, fun i hi hi' => h.length_polynomials i hi' hi⟩
  · rintro ⟨hlength, hlayers⟩
    exact ⟨hlength, fun i hi hi' => hlayers i hi' hi⟩

theorem SumcheckProof.decodeLayers_format (circuitLayers : List CircuitLayer) :
    Decoder.Format (decodeLayers (F := F) circuitLayers)
      (fun proofLayers => FitsLayers proofLayers circuitLayers)
      fun proofLayers => (proofLayers.zip circuitLayers).flatMap
        fun (proofLayer, circuitLayer) =>
          proofLayer.encodeWithParam circuitLayer := by
  induction circuitLayers with
  | nil =>
      intro bs proofLayers rest
      simp only [decodeLayers, Decoder.pure_eq_ok, FitsLayers,
        List.forall₂_nil_right_iff]
      constructor
      · rintro ⟨rfl, rfl⟩
        exact ⟨rfl, rfl⟩
      · rintro ⟨rfl, rfl⟩
        exact ⟨rfl, rfl⟩
  | cons circuitLayer circuitLayers ih =>
      intro bs proofLayers rest
      simp only [decodeLayers, Decoder.bind_eq_ok, Decoder.pure_eq_ok]
      constructor
      · rintro ⟨proofLayer, mid, hfirst, others, mid', hothers, rfl, rfl⟩
        obtain ⟨hlayer, rfl⟩ := (ProofLayer.format circuitLayer _ _ _).mp hfirst
        obtain ⟨hfits, rfl⟩ := (ih _ _ _).mp hothers
        refine ⟨List.Forall₂.cons hlayer hfits, ?_⟩
        rw [List.zip_cons_cons, List.flatMap_cons, List.append_assoc]
      · rintro ⟨hfits, rfl⟩
        cases hfits with
        | @cons proofLayer _ others _ hlayer hfits =>
            refine ⟨proofLayer, _, (ProofLayer.format circuitLayer _ _ _).mpr
              ⟨hlayer, ?_⟩, others, rest, (ih _ _ _).mpr ⟨hfits, rfl⟩, rfl, rfl⟩
            rw [List.zip_cons_cons, List.flatMap_cons, List.append_assoc]

theorem SumcheckProof.format (circuit : Circuit F) :
    Decoder.Format (decodeWithParam circuit)
      (fun proof => proof.HasShape circuit)
      fun proof => proof.encodeWithParam circuit := by
  intro bs proof rest
  have hlayers := decodeLayers_format circuit.layers bs proof.layers rest
  simp only [hasShape_iff, encodeWithParam]
  refine Iff.trans ?_ hlayers
  simp only [decodeWithParam, Decoder.bind_eq_ok, Decoder.pure_eq_ok]
  constructor
  · rintro ⟨proofLayers, mid, h, rfl, rfl⟩
    exact h
  · intro h
    exact ⟨proof.layers, rest, h, rfl, rfl⟩

/-- A proof of the shape of the circuit is decoded from its encoding, whatever
follows it, and every proof that is decoded has that shape and encodes to the
bytes that were consumed. -/
theorem SumcheckProof.decodeWithParam_exact (circuit : Circuit F) :
    (∀ proof : SumcheckProof F, proof.HasShape circuit → ∀ rest,
      decodeWithParam circuit (proof.encodeWithParam circuit ++ rest) =
        .ok (proof, rest)) ∧
    ∀ (bytes : List UInt8) (proof : SumcheckProof F) (rest : List UInt8),
      decodeWithParam circuit bytes = .ok (proof, rest) →
        proof.HasShape circuit ∧
          bytes = proof.encodeWithParam circuit ++ rest := by
  constructor
  · intro proof hshape rest
    exact (SumcheckProof.format circuit _ _ _).mpr ⟨hshape, rfl⟩
  · intro bytes proof rest h
    exact (SumcheckProof.format circuit _ _ _).mp h

/-- The three fields that proofs are made over. -/
theorem SumcheckProof.decodeWithParam_exact_fields :
    (∀ circuit : Circuit FieldP128,
      (∀ proof : SumcheckProof FieldP128, proof.HasShape circuit → ∀ rest,
        decodeWithParam circuit (proof.encodeWithParam circuit ++ rest) =
          .ok (proof, rest)) ∧
      ∀ bytes proof rest, decodeWithParam circuit bytes = .ok (proof, rest) →
        proof.HasShape circuit ∧
          bytes = proof.encodeWithParam circuit ++ rest) ∧
    (∀ circuit : Circuit FieldP256,
      (∀ proof : SumcheckProof FieldP256, proof.HasShape circuit → ∀ rest,
        decodeWithParam circuit (proof.encodeWithParam circuit ++ rest) =
          .ok (proof, rest)) ∧
      ∀ bytes proof rest, decodeWithParam circuit bytes = .ok (proof, rest) →
        proof.HasShape circuit ∧
          bytes = proof.encodeWithParam circuit ++ rest) ∧
    ∀ circuit : Circuit Field2_128,
      (∀ proof : SumcheckProof Field2_128, proof.HasShape circuit → ∀ rest,
        decodeWithParam circuit (proof.encodeWithParam circuit ++ rest) =
          .ok (proof, rest)) ∧
      ∀ bytes proof rest, decodeWithParam circuit bytes = .ok (proof, rest) →
        proof.HasShape circuit ∧
          bytes = proof.encodeWithParam circuit ++ rest :=
  ⟨fun circuit => decodeWithParam_exact circuit,
    fun circuit => decodeWithParam_exact circuit,
    fun circuit => decodeWithParam_exact circuit⟩

end Format

end Longfellow.Sumcheck
