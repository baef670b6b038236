/-
What the prover does with inputs that do not satisfy the circuit: an error if
the evaluation fails, but a panic if an output is not zero.
-/
import Longfellow.Fields.PrimeExtension
import Longfellow.Invariants
import Longfellow.Sample
import Longfellow.Satisfaction
import Longfellow.ZkOneCircuit.Prover

namespace Longfellow

open Exec

/-- The extension hands no error back: in the source it returns a vector. -/
class InfallibleExtend (F : Type) [ExtendFieldElement F] : Prop where
  infallible_extend (nodes : List F) (context : ExtendContext F) :
    Infallible (extend nodes context)

section Extend

variable {F : Type} [Field F]

omit [Field F] in
theorem butterflies_infallible (butterfly : F → F → F × F) (stride i : Nat)
    (values : List F) : Infallible (butterflies butterfly stride i values) := by
  refine Infallible.foldlM (fun values j => ?_) _ _
  refine (infallible_index _ _).bind fun x => ?_
  refine (infallible_index _ _).bind fun y => ?_
  exact (infallible_update _ _ _).bind fun _ => infallible_update _ _ _

theorem butterflyStage_infallible (first : F → F → F × F)
    (butterfly : F → F → F → F × F) (omega : F) (stride : Nat)
    (values : List F) :
    Infallible (butterflyStage first butterfly omega stride values) := by
  refine (butterflies_infallible _ _ _ _).bind fun values => ?_
  refine (Infallible.foldlM (fun state i => ?_) _ _).bind
    fun _ => infallible_ok
  exact (butterflies_infallible _ _ _ _).bind fun _ => infallible_ok

omit [Field F] in
theorem logLength_infallible (values : List F) (name : String) :
    Infallible (logLength values name) :=
  infallible_assert.bind fun _ => infallible_assert.bind
    fun _ => infallible_ok

omit [Field F] in
theorem tableFrom1_infallible (table : List F) (last : Nat) :
    Infallible (tableFrom1 table last) :=
  infallible_assert.bind fun _ => infallible_ok

variable [NttFieldElement F]

theorem nttBitReversed_infallible (values : List F) :
    Infallible (nttBitReversed values) := by
  refine (logLength_infallible _ _).bind fun logN => ?_
  split
  · exact infallible_ok
  · refine (tableFrom1_infallible _ _).bind fun omegas => ?_
    refine (Infallible.foldlM (fun state omega => ?_) _ _).bind
      fun _ => infallible_ok
    exact (butterflyStage_infallible _ _ _ _ _).bind fun _ => infallible_ok

theorem scaledInverseNttBitReversed_infallible (values : List F) :
    Infallible (scaledInverseNttBitReversed values) := by
  refine (logLength_infallible _ _).bind fun logN => ?_
  split
  · exact infallible_ok
  · refine (tableFrom1_infallible _ _).bind fun omegas => ?_
    refine (Infallible.foldlM (fun state omega => ?_) _ _).bind
      fun _ => infallible_ok
    exact (butterflyStage_infallible _ _ _ _ _).bind fun _ => infallible_ok

theorem ExtendP.extend_infallible (nodes : List F)
    (context : ExtendP.ExtendContext F) :
    Infallible (ExtendP.extend nodes context) := by
  refine infallible_assert.bind fun _ => ?_
  split
  · exact infallible_ok
  · refine (nttBitReversed_infallible _).bind fun _ => ?_
    refine (scaledInverseNttBitReversed_infallible _).bind fun _ => ?_
    exact (infallible_assert.bind fun _ => infallible_ok).bind
      fun _ => infallible_ok

instance : InfallibleExtend FieldP128 := ⟨ExtendP.extend_infallible⟩

instance : InfallibleExtend FieldP256 :=
  ⟨fun _ context =>
    (ExtendP.extend_infallible _ context).bind fun _ => infallible_ok⟩

end Extend

namespace Ligero

namespace TableauLayout

variable (layout : TableauLayout)

theorem numQuadraticRows_infallible : Infallible layout.numQuadraticRows :=
  (infallible_divCeil _ _).bind fun _ => infallible_ok

theorem numRows_infallible : Infallible layout.numRows :=
  (infallible_divCeil _ _).bind fun _ =>
    layout.numQuadraticRows_infallible.bind fun _ => infallible_ok

end TableauLayout

namespace Tableau

variable {F σ : Type} [Field F] (generator : σ → F × σ)

theorem linearTestElements_infallible (nreq blockSize n i available : Nat)
    (sum : F) (s : σ) :
    Infallible (linearTestElements generator nreq blockSize n i available sum
      s) := by
  induction n generalizing i available sum s with
  | zero => exact infallible_ok
  | succ n ih =>
      cases available with
      | zero =>
          rw [linearTestElements]
          split
          · exact (ih _ _ _ _).bind fun _ => infallible_ok
          · exact infallible_assert.bind fun _ => infallible_ok
      | succ available =>
          rw [linearTestElements]
          split
          · exact (ih _ _ _ _).bind fun _ => infallible_ok
          · exact (ih _ _ _ _).bind fun _ => infallible_ok

theorem linearTestRow_infallible [DecidableEq F] (layout : TableauLayout)
    (s : σ) : Infallible (linearTestRow generator layout s) := by
  refine (infallible_checkedSub _ _).bind fun dblock => ?_
  refine (infallible_checkedSub _ _).bind fun available => ?_
  refine (linearTestElements_infallible generator _ _ _ _ _ _ _).bind
    fun state => ?_
  refine (infallible_update _ _ _).bind fun row => ?_
  exact infallible_assert.bind fun _ => infallible_assert.bind
    fun _ => infallible_ok

theorem copyWitnesses_infallible (witness : Witness F) (n : Nat)
    (indices : List Nat) : Infallible (copyWitnesses witness n indices) := by
  induction n generalizing indices with
  | zero => exact infallible_ok
  | succ n ih =>
      cases indices with
      | nil => exact (ih _).bind fun _ => infallible_ok
      | cons i indices =>
          exact (infallible_index _ _).bind fun _ => (ih _).bind
            fun _ => infallible_ok

theorem copyRow_infallible (witness : Witness F) (witnessesPerRow : Nat)
    (triples row : Nat) (indices : QuadraticIndices) :
    Infallible (copyRow witness witnessesPerRow triples row indices) := by
  rw [copyRow]
  split
  · exact (copyWitnesses_infallible _ _ _).bind fun _ => infallible_ok
  · split
    · exact (copyWitnesses_infallible _ _ _).bind fun _ => infallible_ok
    · exact (copyWitnesses_infallible _ _ _).bind fun _ => infallible_ok

variable [ExtendFieldElement F] [InfallibleExtend F]

omit [Field F] in
theorem paddedRow_infallible (extendContextBlockNcol : ExtendContext F)
    (nreq : Nat) (content : List F) (s : σ) :
    Infallible (paddedRow generator extendContextBlockNcol nreq content s) :=
  (InfallibleExtend.infallible_extend _ _).bind fun _ => infallible_ok

theorem build_infallible [DecidableEq F] (parameters : LigeroParameters)
    (witness : Witness F) (quadraticConstraints : List QuadraticConstraint)
    (extendContextBlockNcol extendContextDblockNcol : ExtendContext F)
    (s : σ) : Infallible (build generator parameters witness
      quadraticConstraints extendContextBlockNcol extendContextDblockNcol
      s) := by
  have hextend := InfallibleExtend.infallible_extend (F := F)
  refine (infallible_divCeil _ _).bind fun numWitnessRows => ?_
  refine (TableauLayout.numQuadraticRows_infallible _).bind fun _ => ?_
  refine (infallible_divCeil _ _).bind fun triples => ?_
  refine (TableauLayout.numRows_infallible _).bind fun numRows => ?_
  refine (infallible_checkedSub _ _).bind fun dblock => ?_
  refine (hextend _ _).bind fun low => ?_
  refine (linearTestRow_infallible generator _ _).bind fun linear => ?_
  refine (hextend _ _).bind fun linear => ?_
  refine (hextend _ _).bind fun quadratic => ?_
  refine (Infallible.foldlM (fun state row => ?_) _ _).bind fun state => ?_
  · exact (paddedRow_infallible generator _ _ _ _).bind fun _ => infallible_ok
  refine (Infallible.foldlM (fun state row => ?_) _ _).bind fun state => ?_
  · refine (copyRow_infallible _ _ _ _ _).bind fun content => ?_
    exact (paddedRow_infallible generator _ _ _ _).bind fun _ => infallible_ok
  exact infallible_assert.bind fun _ => infallible_ok

end Tableau

theorem MerkleTree.build_infallible [Primitives] (tree : MerkleTree) :
    Infallible tree.build := by
  refine (Infallible.foldlM (fun digests i => ?_) _ _).bind
    fun _ => infallible_ok
  refine (infallible_index _ _).bind fun left => ?_
  exact (infallible_index _ _).bind fun right => infallible_update _ _ _

theorem Tableau.commit_infallible {F τ : Type} [CodecFieldElement F]
    [Primitives] (tableau : Tableau F) (nonceGenerator : τ → Nonce × τ)
    (t : τ) : Infallible (tableau.commit nonceGenerator t) := by
  refine (infallible_checkedSub _ _).bind fun dblock => ?_
  refine (infallible_checkedSub _ _).bind fun treeSize => ?_
  refine (Infallible.foldlM (fun state leafIndex => ?_) _ _).bind
    fun state => state.1.build_infallible
  refine ((Infallible.mapM (fun row => infallible_index _ _) _).bind
    fun _ => infallible_ok).bind fun leaf => ?_
  refine (infallible_checkedSub _ _).bind fun position => ?_
  refine ((infallible_update _ _ _).bind fun _ =>
    (infallible_update _ _ _).bind fun _ => infallible_ok).bind
    fun _ => infallible_ok

/-- Committing to a witness hands no error back. -/
theorem LigeroProver.commit_infallible {F σ τ : Type} [Field F]
    [DecidableEq F] [CodecFieldElement F] [ExtendFieldElement F]
    [InfallibleExtend F] [Primitives] (prover : LigeroProver F)
    (witness : Witness F) (generator : σ → F × σ) (s : σ)
    (nonceGenerator : τ → Nonce × τ) (t : τ) :
    Infallible (prover.commit witness generator s nonceGenerator t) := by
  refine (Tableau.build_infallible generator _ _ _ _ _ _).bind
    fun tableau => ?_
  refine (tableau.commit_infallible _ _).bind fun merkleTree => ?_
  exact ((infallible_index _ _).bind fun _ => infallible_ok).bind
    fun _ => infallible_ok

end Ligero

namespace ZkOneCircuit.Prover

section Run

variable {F : Type} [Field F] [DecidableEq F] [ProofFieldElement F]
  [ExtendFieldElement F] [Primitives] [SamplesField F] [SamplesNaturals]

variable {circuit : Circuit F} {prover : Prover F} {inputs : List F}

/-- Every proof is about inputs that satisfy the circuit. -/
theorem prove_ensures_satisfies (hwf : circuit.WellFormed)
    (hcircuit : prover.circuit = circuit) (randomness : Randomness F)
    (sessionId : List UInt8) :
    Ensures (prover.prove randomness sessionId inputs) fun _ =>
      circuit.Satisfies inputs := by
  intro proof hproof
  obtain ⟨_, hinputs, hproof⟩ := Exec.bind_eq_ok.mp hproof
  obtain ⟨evaluation, hevaluate, hproof⟩ := Exec.bind_eq_ok.mp hproof
  obtain ⟨privateInputs, -, hproof⟩ := Exec.bind_eq_ok.mp hproof
  obtain ⟨state, -, hproof⟩ := Exec.bind_eq_ok.mp hproof
  obtain ⟨publicInputs, -, hproof⟩ := Exec.bind_eq_ok.mp hproof
  obtain ⟨result, hsumcheck, -⟩ := Exec.bind_eq_ok.mp hproof
  obtain ⟨outputs, houtputs, hsumcheck⟩ := Exec.bind_eq_ok.mp hsumcheck
  obtain ⟨_, hzero, -⟩ := Exec.bind_eq_ok.mp hsumcheck
  rw [hcircuit] at hinputs hevaluate
  obtain ⟨hassertions, rfl⟩ := (Circuit.evaluate_eq_ok_iff hwf
    (ensure_eq_ok.mp hinputs)).mp hevaluate
  refine ⟨hassertions, ?_⟩
  have houtputs' := index_eq_ok.mp houtputs
  simp only [Circuit.evaluation, List.getElem?_map,
    List.getElem?_range (Nat.succ_pos _), Option.map_some,
    Option.some_inj] at houtputs'
  rw [houtputs']
  exact assert_eq_ok.mp hzero

/-- If the evaluation succeeds with an output that is not zero, then the
prover panics. -/
theorem prove_panics [InfallibleExtend F] (hwf : circuit.WellFormed)
    (hcircuit : prover.circuit = circuit)
    (hinputs : inputs.length = circuit.numInputs)
    (hassertions : circuit.AssertionsHold inputs)
    (houtputs : ¬ ∀ output ∈ circuit.wiresAt inputs 0, output = 0)
    (randomness : Randomness F) (sessionId : List UInt8) :
    ∃ message, prover.prove randomness sessionId inputs =
      .error (.panic message) := by
  have hevaluate := (Circuit.evaluate_eq_ok_iff hwf hinputs).mpr
    ⟨hassertions, rfl⟩
  have hevaluates := Circuit.evaluate_ensures hwf.numLayers_eq inputs _
    hevaluate
  have hle : circuit.numPublicInputs ≤ inputs.length := by
    rw [hinputs]
    exact hwf.numPublicInputs_le
  have hinfallible : Infallible
      (prover.prove randomness sessionId inputs) := by
    rw [prove, hcircuit]
    simp only [ensure_of hinputs, ok_bind, hevaluate,
      hevaluates.privateInputs_eq_ok hle, hevaluates.publicInputs_eq_ok hle]
    refine (Ligero.LigeroProver.commit_infallible _ _ _ _ _ _).bind
      fun state => ?_
    have hvalues : (circuit.evaluation inputs).outputs =
        .ok (circuit.wiresAt inputs 0) := by
      rw [Evaluation.outputs, index_eq_ok]
      simp [Circuit.evaluation]
    rw [Sumcheck.prove, hvalues, ok_bind, assert, if_neg houtputs]
    exact infallible_abort
  rcases hinfallible.cases with ⟨proof, hproof⟩ | hpanic
  · have hsatisfies := prove_ensures_satisfies hwf hcircuit randomness
      sessionId proof hproof
    exact absurd hsatisfies.outputs_zero houtputs
  · exact hpanic

end Run

section Sample

open scoped Silent

/-- A circuit whose output is the product of its two input wires. -/
def productCircuit : Circuit FieldP128 where
  version := 1
  numOutputs := 1
  numCopies := 1
  numPublicInputs := 1
  subfieldBoundary := 2
  numInputs := 2
  numLayers := 1
  constantTable := [1]
  layers := [⟨1, 2, [⟨0, 0, 1, 0⟩]⟩]
  id := zeroDigest

theorem productCircuit_wellFormed : productCircuit.WellFormed := by
  have hcheck : productCircuit.checkInvariants none none = .ok () := by
    decide
  have hconsistent : productCircuit.Consistent :=
    ⟨rfl, by decide, by decide, by decide⟩
  exact Circuit.checkInvariants_ensures hconsistent rfl (by decide) (by decide)
    (by decide) none none () hcheck

/-- Parameters with five columns, of which two are not in a block. -/
def productParameters : Ligero.LigeroParameters := ⟨1, 1, 1, 2, 5⟩

def constantRandomness : Randomness FieldP128 :=
  ⟨fun _ => 1, fun _ => 1, fun _ => default⟩

end Sample

end ZkOneCircuit.Prover

end Longfellow
