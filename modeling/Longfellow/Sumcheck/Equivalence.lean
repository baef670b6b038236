/-
The linear constraints that the verifier generates encode the plain sumcheck
verifier.
-/
import Longfellow.Sumcheck.PlainVerifier
import Longfellow.Sumcheck.Verifier
import Longfellow.Sumcheck.Bounds
import Longfellow.Sample

namespace Longfellow.Sumcheck

open Exec Multilinear SparseSumcheckArray Circuit

section Range

variable {F : Type} [Field F]

variable [ProofFieldElement F]

theorem inRange_updateClaim {claim : SymbolicExpression F} {n : Nat}
    (h : claim.InRange n) (message : Sumcheck.Polynomial F) {p0 p2 : Nat}
    (hp0 : p0 < n) (hp2 : p2 < n) (challenge : F) :
    (updateClaim claim message p0 p2 challenge).InRange n := by
  refine ((h.mul _).add fun i hi => ?_).add fun i hi => ?_
  · cases hi
    exact hp0
  · cases hi
    exact hp2

theorem inRange_claimScript {claim : SymbolicExpression F} {n base : Nat}
    (h : claim.InRange n) {messages : List (Sumcheck.Polynomial F × F)}
    (hbase : base + 2 * messages.length ≤ n) :
    (claimScript base claim messages).InRange n := by
  induction messages using List.reverseRecOn with
  | nil => exact h
  | append_singleton messages message ih =>
      rw [List.length_append, List.length_singleton] at hbase
      rw [claimScript_concat]
      exact inRange_updateClaim (ih (by omega)) _ (by omega) (by omega) _

omit [ProofFieldElement F] in
theorem inRange_startClaim {layout : WitnessLayout} {i : Nat}
    (hi : i ≤ layout.logw.length) (claims : Hands F) (alpha : F) :
    (startClaim layout i claims alpha).InRange layout.length := by
  unfold startClaim
  by_cases hpos : 0 < i
  · have hprev : i - 1 < layout.logw.length := by omega
    have hlt := wireStart_add_two_lt hprev
    simp only [hpos, if_true]
    refine ((SymbolicExpression.InRange.new _ _).add fun j hj => ?_).add
      fun j hj => ?_
    · cases hj
      omega
    · cases hj
      omega
  · simp only [hpos, if_false]
    refine ((SymbolicExpression.InRange.new _ _).add fun j hj => ?_).add
      fun j hj => ?_
    · cases hj
    · cases hj

omit [ProofFieldElement F] in
theorem inRange_finishClaim {claim : SymbolicExpression F} {n : Nat}
    (h : claim.InRange n) (q : F) (wires : Hands F) {start : Nat}
    (hstart : start + 2 < n) :
    (finishClaim claim q wires start (start + 1) (start + 2)).InRange n := by
  refine ((h.add fun i hi => ?_).add fun i hi => ?_).add fun i hi => ?_
  · cases hi
    omega
  · cases hi
    omega
  · cases hi
    omega

end Range

section Script

variable {F : Type} [Field F] [DecidableEq F] [ProofFieldElement F]
  [Primitives] [SamplesField F]

/-- Every term of the constraints so far belongs to one of them, and is one of
the witnesses of the layout. -/
theorem scriptLayers_inRange {circuit : Circuit F} {layout : WitnessLayout}
    (hlayout : layout.logw = circuit.layers.map fun layer => layer.logw)
    {start : Script F} (hstart : start.constraints = ⟨[], []⟩)
    {proofLayers : List (ProofLayer F)} (hfits : Fits circuit proofLayers) :
    (scriptLayers circuit layout start proofLayers).constraints.rhs.length =
      proofLayers.length ∧
    (scriptLayers circuit layout start proofLayers).constraints.InRange
      layout.length := by
  induction proofLayers using List.reverseRecOn with
  | nil => simp [hstart, LinearConstraints.InRange]
  | append_singleton init last ih =>
      have hlt : init.length < circuit.layers.length := by
        simpa using hfits.1
      have hinit : Fits circuit init := by
        refine ⟨hlt.le, fun i hi hi' => ?_⟩
        have h := hfits.2 i hi (by simp; omega)
        rwa [List.getElem_append_left hi'] at h
      have hlast : last.messages.length =
          2 * circuit.layers[init.length].logw := by
        have h := hfits.2 init.length hlt (by simp)
        rwa [List.getElem_concat_length rfl] at h
      obtain ⟨hlength, hrange⟩ := ih hinit
      have hi : init.length < layout.logw.length := by simpa [hlayout] using hlt
      have hlogw : layout.logw[init.length] =
          circuit.layers[init.length].logw := by
        simp [hlayout]
      have hend := wireStart_add_two_lt hi
      have hbase := wireStart_eq hi
      have hclaim : (layerClaim circuit layout
          (scriptLayers circuit layout start init) circuit.layers[init.length]
          init.length last.messages last.wires).InRange layout.length := by
        refine inRange_finishClaim (inRange_claimScript
          (inRange_startClaim hi.le _ _) ?_) _ _ hend
        rw [List.length_zip, hlast]
        omega
      rw [scriptLayers_concat circuit layout _ hlt]
      simp only [scriptLayer]
      refine ⟨by simp [hlength], fun term hterm => ?_⟩
      rw [List.length_append, List.length_singleton, hlength]
      rcases List.mem_append.mp hterm with hterm | hterm
      · obtain ⟨hnumber, hindex⟩ := hrange term hterm
        exact ⟨by omega, hindex⟩
      · obtain ⟨hnumber, hindex⟩ := hclaim.lhsTerms term hterm
        refine ⟨?_, hindex⟩
        rw [hnumber]
        simp [layerClaim]

omit [DecidableEq F] [ProofFieldElement F] [Primitives] [SamplesField F] in
theorem eval_inputClaim (circuit : Circuit F) (layout : WitnessLayout)
    (bindings : Hands (List F)) (gamma : F) (witness : Nat → F) :
    (inputClaim circuit layout bindings gamma).eval witness =
      ((List.range layout.numPrivateInputs).map fun i => witness i *
        gateWeight bindings.left bindings.right gamma
          (i + circuit.numPublicInputs)).sum -
      (witness (layout.wireStart (circuit.layers.length - 1)) +
        gamma * witness (layout.wireStart (circuit.layers.length - 1) + 1)) := by
  have hterms : ∀ (indices : List Nat) (claim : SymbolicExpression F),
      (indices.foldl (fun claim i => claim.add ((Term.new i).mul
        (gateWeight bindings.left bindings.right gamma
          (i + circuit.numPublicInputs)))) claim).eval witness =
      claim.eval witness + (indices.map fun i => witness i *
        gateWeight bindings.left bindings.right gamma
          (i + circuit.numPublicInputs)).sum := by
    intro indices
    induction indices with
    | nil => simp
    | cons i indices ih =>
        intro claim
        rw [List.foldl_cons, ih]
        simp
        ring
  simp [inputClaim, hterms]
  ring

omit [DecidableEq F] [ProofFieldElement F] [Primitives] [SamplesField F] in
/-- Every part of the claim on the inputs is symbolic. -/
theorem inputClaim_shape (circuit : Circuit F) {layout : WitnessLayout}
    (hlast : circuit.layers.length - 1 < layout.logw.length)
    (bindings : Hands (List F)) (gamma : F) :
    (inputClaim circuit layout bindings gamma).known = 0 ∧
    (inputClaim circuit layout bindings gamma).constraintNumber =
      circuit.layers.length ∧
    (inputClaim circuit layout bindings gamma).InRange layout.length := by
  have hend := wireStart_add_two_lt hlast
  have hprivate : layout.numPrivateInputs ≤ layout.length := by
    simp only [WitnessLayout.length]
    omega
  have hterms : ∀ (indices : List Nat) (claim : SymbolicExpression F),
      (∀ i ∈ indices, i < layout.length) → claim.InRange layout.length →
      let result := indices.foldl (fun claim i => claim.add ((Term.new i).mul
        (gateWeight bindings.left bindings.right gamma
          (i + circuit.numPublicInputs)))) claim
      result.known = claim.known ∧
        result.constraintNumber = claim.constraintNumber ∧
        result.InRange layout.length := by
    intro indices
    induction indices with
    | nil => intro claim _ hclaim; exact ⟨rfl, rfl, hclaim⟩
    | cons i indices ih =>
        intro claim hall hclaim
        have hrest := ih (claim.add ((Term.new i).mul
          (gateWeight bindings.left bindings.right gamma
            (i + circuit.numPublicInputs))))
          (fun j hj => hall j (List.mem_cons_of_mem i hj))
          (hclaim.add fun j hj => by
            cases hj
            exact hall i List.mem_cons_self)
        refine ⟨?_, hrest.2.1, hrest.2.2⟩
        rw [List.foldl_cons, hrest.1]
        simp
  obtain ⟨hknown, hnumber, hrange⟩ := hterms
    (List.range layout.numPrivateInputs)
    (SymbolicExpression.new circuit.layers.length)
    (fun i hi => (List.mem_range.mp hi).trans_le hprivate)
    (SymbolicExpression.InRange.new _ _)
  refine ⟨?_, hnumber, ?_⟩
  · have hnew : (SymbolicExpression.new circuit.layers.length :
        SymbolicExpression F).known = 0 := rfl
    simp [inputClaim, hknown, hnew]
  · refine (hrange.add fun i hi => ?_).add fun i hi => ?_
    · cases hi
      omega
    · cases hi
      omega

/-- Every term of the constraints at the end of the script belongs to one of
them, and is one of the witnesses of the layout. -/
theorem finishScript_inRange {circuit : Circuit F} (hshaped : circuit.Shaped)
    (publicInputs : List F) (transcript : Transcript)
    {proof : SumcheckProof F} (hproof : proof.HasShape circuit) :
    (finishScript circuit (witnessLayout circuit) publicInputs
      (scriptLayers circuit (witnessLayout circuit)
        (startScript circuit transcript) proof.layers)).1.InRange
      (witnessLayout circuit).length := by
  have hfits := hproof.fits proof.layers.length
  rw [List.take_length] at hfits
  have hstart : (startScript circuit transcript : Script F).constraints =
      ⟨[], []⟩ := rfl
  have hlogws : (witnessLayout circuit).logw =
      circuit.layers.map fun layer => layer.logw := rfl
  obtain ⟨hlength, hrange⟩ := scriptLayers_inRange hlogws hstart hfits
  rw [hproof.length_layers] at hlength
  have hpos : 0 < circuit.layers.length :=
    List.length_pos_iff.mpr hshaped.layers_ne_nil
  have hlast : circuit.layers.length - 1 <
      (witnessLayout circuit).logw.length := by
    simp only [witnessLayout, List.length_map]
    omega
  set script := scriptLayers circuit (witnessLayout circuit)
    (startScript circuit transcript) proof.layers
  obtain ⟨-, hnumber, hclaim⟩ := inputClaim_shape circuit hlast
    script.bindings (script.transcript.challenge F).1
  intro term hterm
  simp only [finishScript] at hterm ⊢
  rw [List.length_append, List.length_singleton, hlength]
  rcases List.mem_append.mp hterm with hterm | hterm
  · obtain ⟨hlt, hindex⟩ := hrange term hterm
    exact ⟨by omega, hindex⟩
  · obtain ⟨heq, hindex⟩ := hclaim.lhsTerms term hterm
    exact ⟨by omega, hindex⟩

/-- The private inputs that a witness vector starts with. -/
def privateInputs (circuit : Circuit F) (witness : Nat → F) : List F :=
  (List.range (witnessLayout circuit).numPrivateInputs).map witness

variable [LawfulProofField F]

theorem zipIdx_privateInputs (circuit : Circuit F) {publicInputs : List F}
    (hpublic : publicInputs.length = circuit.numPublicInputs)
    (witness : Nat → F) (weight : Nat → F) :
    (((privateInputs circuit witness).zipIdx publicInputs.length).map
        fun (input, i) => input * weight i) =
      (List.range (witnessLayout circuit).numPrivateInputs).map fun i =>
        witness i * weight (i + circuit.numPublicInputs) := by
  refine List.ext_getElem (by simp [privateInputs, witnessLayout])
    fun i _ _ => ?_
  simp [privateInputs, hpublic, Nat.add_comm]

/-- The constraints of the script hold of a witness vector exactly when the
plain verifier accepts the proof with the pads of the vector added. -/
theorem finishScript_satisfied_iff {circuit : Circuit F}
    (hshaped : circuit.Shaped) {publicInputs : List F}
    (hpublic : publicInputs.length = circuit.numPublicInputs)
    (transcript : Transcript) {proof : SumcheckProof F}
    (hproof : proof.HasShape circuit) {witness : Nat → F}
    (hproduct : ∀ i < circuit.layers.length,
      witness ((witnessLayout circuit).wireStart i) *
          witness ((witnessLayout circuit).wireStart i + 1) =
        witness ((witnessLayout circuit).wireStart i + 2)) :
    (finishScript circuit (witnessLayout circuit) publicInputs
      (scriptLayers circuit (witnessLayout circuit)
        (startScript circuit transcript) proof.layers)).1.Satisfied witness ↔
    PlainVerifier.Accepts circuit
      (publicInputs ++ privateInputs circuit witness)
      (unpad (witnessLayout circuit) witness proof)
      (drawChallenges circuit transcript proof) := by
  set layout := witnessLayout circuit with hlayout
  set script := scriptLayers circuit layout (startScript circuit transcript)
    proof.layers with hscript
  set gamma := (script.transcript.challenge F).1 with hgamma
  have hle : proof.layers.length ≤ circuit.layers.length :=
    hproof.length_layers.le
  have hpos : 0 < circuit.layers.length :=
    List.length_pos_iff.mpr hshaped.layers_ne_nil
  have hlast : circuit.layers.length - 1 < layout.logw.length := by
    simp only [hlayout, witnessLayout, List.length_map]
    omega
  obtain ⟨htranscript, hbindings, hclaims⟩ :=
    scriptLayers_eq circuit layout transcript gamma hle
  obtain ⟨hlength, hzero, hiff⟩ := scriptLayers_iff transcript gamma hle hproduct
  rw [← hscript] at htranscript hbindings hclaims hlength hzero hiff
  rw [hproof.length_layers] at hbindings hclaims hlength hzero hiff
  have hchallenges : drawChallenges circuit transcript proof =
      ⟨(drawOutputs circuit transcript).1,
        (drawLayers proof.layers (drawOutputs circuit transcript).2).1,
        gamma⟩ := by
    rw [hgamma, htranscript]
    rfl
  obtain ⟨hknown, hnumber, -⟩ :=
    inputClaim_shape circuit hlast script.bindings gamma
  have hlhs (c : Nat) : lhs (script.constraints.lhsTerms ++
      (inputClaim circuit layout script.bindings gamma).lhsTerms) witness c =
      lhs script.constraints.lhsTerms witness c +
        if circuit.layers.length = c then
          (inputClaim circuit layout script.bindings gamma).eval witness
        else 0 := by
    rw [lhs_append, SymbolicExpression.lhs_lhsTerms, hnumber, hknown, sub_zero]
  have hinputs : lhs (script.constraints.lhsTerms ++
      (inputClaim circuit layout script.bindings gamma).lhsTerms) witness
        circuit.layers.length =
      inputRhs publicInputs script.bindings script.claims gamma ↔
      PlainVerifier.AcceptsInputs circuit
        (publicInputs ++ privateInputs circuit witness)
        (unpad layout witness proof)
        (drawChallenges circuit transcript proof) := by
    have hunpad : (unpad layout witness proof).claims circuit.layers.length =
        ⟨script.claims.left +
            witness (layout.wireStart (circuit.layers.length - 1)),
          script.claims.right +
            witness (layout.wireStart (circuit.layers.length - 1) + 1)⟩ := by
      rw [← hproof.length_layers] at hpos ⊢
      rw [claims_unpad layout witness _ le_rfl, unpadClaims, if_pos hpos,
        hclaims, hproof.length_layers]
    have hprivate := zipIdx_privateInputs circuit hpublic witness
      (gateWeight script.bindings.left script.bindings.right gamma)
    rw [hlhs, hzero _ le_rfl, if_pos rfl, zero_add, eval_inputClaim, inputRhs,
      PlainVerifier.AcceptsInputs, hchallenges]
    simp only [hunpad, ← hbindings]
    rw [List.zipIdx_append, List.map_append, List.sum_append, Nat.zero_add,
      hprivate]
    constructor
    · intro h
      linear_combination -h
    · intro h
      linear_combination -h
  have hlayers (i : Nat) (hi : i < circuit.layers.length) :
      script.constraints.rhs[i]? =
        some (lhs (script.constraints.lhsTerms ++
          (inputClaim circuit layout script.bindings gamma).lhsTerms)
            witness i) ↔
      PlainVerifier.AcceptsLayer circuit (unpad layout witness proof)
        (drawChallenges circuit transcript proof) i := by
    rw [hlhs, if_neg (by omega), add_zero, hiff i hi, hchallenges]
  have hsplit : (finishScript circuit layout publicInputs script).1.Satisfied
      witness ↔
      (∀ i < circuit.layers.length, script.constraints.rhs[i]? =
        some (lhs (script.constraints.lhsTerms ++
          (inputClaim circuit layout script.bindings gamma).lhsTerms)
            witness i)) ∧
      lhs (script.constraints.lhsTerms ++
        (inputClaim circuit layout script.bindings gamma).lhsTerms) witness
          circuit.layers.length =
        inputRhs publicInputs script.bindings script.claims gamma := by
    simp only [finishScript, LinearConstraints.Satisfied, ← hgamma,
      List.length_append, List.length_singleton, hlength]
    constructor
    · intro h
      refine ⟨fun i hi => ?_, ?_⟩
      · rw [h i (by omega), List.getElem_append_left (by omega)]
        exact List.getElem?_eq_getElem _
      · rw [h circuit.layers.length (by omega),
          List.getElem_append_right (by omega)]
        simp [hlength]
    · rintro ⟨h, hlast⟩ c hc
      rcases Nat.lt_succ_iff_lt_or_eq.mp hc with hlt | rfl
      · have hget := h c hlt
        rw [List.getElem?_eq_getElem (by omega), Option.some.injEq] at hget
        rw [List.getElem_append_left (by omega), hget]
      · rw [hlast, List.getElem_append_right (by omega)]
        simp [hlength]
  rw [hsplit, hinputs]
  constructor
  · rintro ⟨h, hlast⟩
    exact ⟨fun i hi => (hlayers i hi).mp (h i hi), hlast⟩
  · rintro ⟨h, hlast⟩
    exact ⟨fun i hi => (hlayers i hi).mpr (h i hi), hlast⟩

omit [Field F] [DecidableEq F] [ProofFieldElement F] [Primitives]
  [SamplesField F] [LawfulProofField F] in
/-- The quadratic constraints are the products of the wire pads. -/
theorem quadraticConstraints_eq_ok (circuit : Circuit F)
    (h : circuit.numLayers = circuit.layers.length) :
    quadraticConstraints circuit (witnessLayout circuit) =
      .ok ((List.range circuit.numLayers).map fun i =>
        let start := (witnessLayout circuit).wireStart i
        ⟨start, start + 1, start + 2⟩) := by
  refine mapM_eq_ok fun i hi => ?_
  have hlt : i < (witnessLayout circuit).logw.length := by
    rw [List.mem_range, h] at hi
    simpa [witnessLayout] using hi
  simp [WitnessLayout.wireWitnessIndices, hlt]

/-- The verifier returns linear constraints for every proof of the shape of
the circuit, and they hold of a witness vector exactly when the plain verifier
accepts the proof with the pads of the vector added. -/
theorem linearConstraints_satisfied_iff {circuit : Circuit F}
    (hwf : circuit.WellFormed) {layout : WitnessLayout}
    (hlayout : WitnessLayout.fromCircuit circuit = .ok layout)
    {publicInputs : List F}
    (hpublic : publicInputs.length = circuit.numPublicInputs)
    (transcript : Transcript) {proof : SumcheckProof F}
    (hproof : proof.HasShape circuit) {witness : Nat → F}
    {quadratic : List QuadraticConstraint}
    (hquadratic : quadraticConstraints circuit layout = .ok quadratic)
    (hproduct : ∀ constraint ∈ quadratic, constraint.Satisfied witness) :
    ((∀ layer ∈ circuit.layers, layer.logw < 64) → ∃ result,
      linearConstraints circuit publicInputs transcript proof = .ok result) ∧
    Ensures (linearConstraints circuit publicInputs transcript proof)
      fun result => result.1.InRange layout.length ∧
        (result.1.Satisfied witness ↔
          PlainVerifier.Accepts circuit
            (publicInputs ++ privateInputs circuit witness)
            (unpad layout witness proof)
            (drawChallenges circuit transcript proof)) := by
  have hshaped := hwf.shaped
  rw [fromCircuit_eq_ok hshaped.numPublicInputs_le, Except.ok.injEq] at hlayout
  subst hlayout
  rw [quadraticConstraints_eq_ok circuit hshaped.numLayers_eq,
    Except.ok.injEq] at hquadratic
  subst hquadratic
  refine ⟨fun hlogw => ⟨_, linearConstraints_eq_ok hshaped hlogw hpublic
    transcript hproof⟩, fun result hresult => ?_⟩
  have hlogw : ∀ layer ∈ circuit.layers, layer.logw < 64 := by
    rw [linearConstraints] at hresult
    obtain ⟨inner, hinner, -⟩ := Exec.bind_eq_ok.mp hresult
    exact runProtocol_ensures circuit transcript _ inner hinner
  rw [linearConstraints_eq_ok hshaped hlogw hpublic transcript hproof,
    Except.ok.injEq] at hresult
  subst hresult
  constructor
  · exact finishScript_inRange hshaped publicInputs transcript hproof
  · refine finishScript_satisfied_iff hshaped hpublic transcript hproof
      fun i hi => ?_
    refine hproduct _ (List.mem_map.mpr ⟨i, ?_, rfl⟩)
    rw [List.mem_range, hshaped.numLayers_eq]
    exact hi

end Script

section Sample

open scoped Silent

/-- The test circuit with its private input, and no pads: the constraints of
the proof that is all zero. -/
theorem linearConstraints_satisfied_iff_sample :
    (∃ result, linearConstraints makeAssertionTestCircuit [1]
      (Transcript.new [] .normal) (emptyProof makeAssertionTestCircuit) =
        .ok result) ∧
    Ensures (linearConstraints makeAssertionTestCircuit [1]
        (Transcript.new [] .normal) (emptyProof makeAssertionTestCircuit))
      fun result => result.1.InRange 30 ∧
        (result.1.Satisfied (fun i => if i = 0 then 2 else 0) ↔
          PlainVerifier.Accepts makeAssertionTestCircuit [1, 2]
            (unpad ⟨1, [2, 2, 1]⟩ (fun i => if i = 0 then 2 else 0)
              (emptyProof makeAssertionTestCircuit))
            (drawChallenges makeAssertionTestCircuit
              (Transcript.new [] .normal)
              (emptyProof makeAssertionTestCircuit))) := by
  have hlayout : WitnessLayout.fromCircuit makeAssertionTestCircuit =
      .ok ⟨1, [2, 2, 1]⟩ := rfl
  have hpublic : [(1 : FieldP128)].length =
      makeAssertionTestCircuit.numPublicInputs := rfl
  have hproof : (emptyProof makeAssertionTestCircuit).HasShape
      makeAssertionTestCircuit := ⟨rfl, by decide⟩
  have hquadratic : quadraticConstraints makeAssertionTestCircuit
      ⟨1, [2, 2, 1]⟩ = .ok [⟨9, 10, 11⟩, ⟨20, 21, 22⟩, ⟨27, 28, 29⟩] := rfl
  have hproduct : ∀ constraint ∈
      [⟨9, 10, 11⟩, ⟨20, 21, 22⟩, (⟨27, 28, 29⟩ : QuadraticConstraint)],
      constraint.Satisfied fun i => if i = 0 then (2 : FieldP128) else 0 := by
    simp [QuadraticConstraint.Satisfied]
  have h := linearConstraints_satisfied_iff
    makeAssertionTestCircuit_wellFormed hlayout hpublic
    (Transcript.new [] .normal) hproof hquadratic hproduct
  exact ⟨h.1 (by decide), h.2⟩

end Sample

end Longfellow.Sumcheck
