/-
Every proof of the prover is accepted: the two roles derive the same linear
constraints and the same transcript from the sumcheck proof, and the Ligero
proof is complete for them.
-/
import Longfellow.Ligero.Completeness
import Longfellow.Sumcheck.Completeness
import Longfellow.ZkOneCircuit.Unsatisfied
import Longfellow.ZkOneCircuit.Verifier

namespace Longfellow

open Exec

namespace Ligero

open Polynomial ReedSolomon Tableau CodecFieldElement

theorem MerkleTree.length_suppliedNodes_le (tree : MerkleTree)
    (marked : List Bool) (k : Nat) :
    (tree.suppliedNodes marked k).length ≤ k - 1 := by
  rw [suppliedNodes, List.length_map]
  refine (List.length_filterMap_le _ _).trans ?_
  rw [HeapTree.innerNodes, List.length_reverse, List.length_range']

variable {F : Type} [Field F] [CodecFieldElement F] [Primitives]
  [SamplesField F] [SamplesNaturals] {point : Nat → F}
  {layout : TableauLayout} {quadraticConstraints : List QuadraticConstraint}
  {linearConstraints : LinearConstraints F} {polynomials : RowPolynomials F}
  {tree : MerkleTree}

/-- The proof of an honest run has the lengths that the layout gives. -/
theorem HonestRun.hasShape {transcript last : Transcript}
    {challenges : LigeroChallenges F} {low dot quadratic : F[X]}
    {indices : List Nat} {proof : LigeroProof F}
    (h : HonestRun point layout quadraticConstraints linearConstraints
      polynomials tree transcript challenges low dot quadratic indices proof
      last)
    (hvalid : layout.parameters.Valid)
    (hsized : MerkleTree.Sized
      (layout.numColumns - (2 * layout.blockSize - 1)) tree)
    (hsmall : layout.numColumns ≤ 2 ^ 32) : proof.HasShape layout := by
  have hdblock : layout.dblock = .ok (2 * layout.blockSize - 1) :=
    hvalid.dblock_eq _ _
  have hle := blockSize_le_dblock hdblock
  have hblock : layout.blockSize =
      layout.numRequestedColumns + layout.witnessesPerRow := hvalid.block
  have hcolumns : 2 * layout.blockSize - 1 + layout.numRequestedColumns <
      layout.numColumns := hvalid.columns
  obtain ⟨sampled, -, hindices⟩ := h.drawn
  obtain ⟨hcount, -, hlt⟩ :=
    generateNaturalsWithoutReplacement_ensures _ _ _ _ hindices
  have hdot : proof.dotProof.length = 2 * layout.blockSize - 1 := by
    rw [h.dotProof, length_valuesAt, List.length_range]
  obtain ⟨inclusion, hinclusion, marked, -, hsupplied⟩ :=
    MerkleTree.prove_returns (by omega) hsized hlt
  rw [h.inclusion, Except.ok.injEq] at hinclusion
  have hnodes := tree.length_suppliedNodes_le marked
    (layout.numColumns - (2 * layout.blockSize - 1))
  rw [← hsupplied, ← hinclusion] at hnodes
  refine ⟨?_, ?_, ?_, ?_, ?_, ?_, ?_, by omega⟩
  · rw [h.lowDegreeTestProof, length_valuesAt, List.length_range]
  · rw [hdot, hdblock]
  · rw [h.quadraticProof, List.length_take, length_valuesAt, List.length_range]
    exact Nat.min_eq_left (by omega)
  · rw [hdot, checkedSub_of_le hle, h.quadraticProof, List.length_drop,
      length_valuesAt, List.length_range]
  · rw [h.nonces, List.length_map, hcount]
  · rw [h.numRows, h.columns, RowPolynomials.contents, List.length_map]
  · intro column hcolumn
    rw [h.columns, RowPolynomials.contents] at hcolumn
    obtain ⟨row, -, rfl⟩ := List.mem_map.mp hcolumn
    rw [length_valuesAt, List.length_map, hcount]

end Ligero

namespace ZkOneCircuit

open Ligero CodecFieldElement Sumcheck

namespace Proof

variable {F : Type} [ProofFieldElement F] [ExtendFieldElement F]
  [LawfulCodec F]

/-- A proof is encoded exactly if its oracle has 32 bytes and the runs of the
subfield fit. -/
theorem encodeWithParam_returns_iff {verifier : Verifier F} {proof : Proof F}
    (hinclusion : proof.ligeroProof.inclusionProof.nodes.length < 2 ^ 32) :
    (∃ bytes, proof.encodeWithParam verifier = .ok bytes) ↔
      proof.oracle.length = 32 ∧ RunsFit false
        (proof.ligeroProof.tableauColumns.flatten.map isInSubfield) := by
  rw [← encodeRuns_returns_iff]
  constructor
  · rintro ⟨bytes, hbytes⟩
    obtain ⟨_, horacle, hbytes⟩ := Exec.bind_eq_ok.mp hbytes
    obtain ⟨ligero, hligero, -⟩ := Exec.bind_eq_ok.mp hbytes
    obtain ⟨columns, -, hcolumns, -⟩ :=
      LigeroProof.encodeWithParam_eq_ok.mp hligero
    exact ⟨ensure_eq_ok.mp horacle, columns, hcolumns⟩
  · rintro ⟨horacle, columns, hcolumns⟩
    have hligero : proof.ligeroProof.encodeWithParam
        verifier.ligeroVerifier.tableauLayout = .ok _ :=
      LigeroProof.encodeWithParam_eq_ok.mpr ⟨columns, _, hcolumns,
        InclusionProof.encode_eq_ok.mpr ⟨hinclusion, rfl⟩, rfl⟩
    rw [encodeWithParam, ensure_of horacle, ok_bind, hligero, ok_bind]
    exact ⟨_, rfl⟩

/-- What is encoded of a proof of the right shape is decoded again. -/
theorem decodeWithParam_reads [CanonicalCodec F] {verifier : Verifier F}
    {proof : Proof F} {bytes : List UInt8}
    (hsumcheck : proof.sumcheckProof.HasShape verifier.circuit)
    (hligero : proof.ligeroProof.HasShape verifier.ligeroVerifier.tableauLayout)
    (hnreq :
      0 < verifier.ligeroVerifier.tableauLayout.numRequestedColumns)
    (h : proof.encodeWithParam verifier = .ok bytes) :
    Decoder.Reads (decodeWithParam verifier) bytes proof := by
  obtain ⟨_, horacle, h⟩ := Exec.bind_eq_ok.mp h
  obtain ⟨ligeroBytes, hligeroBytes, h⟩ := Exec.bind_eq_ok.mp h
  cases h
  intro rest
  simp only [List.append_assoc, decodeWithParam]
  refine Decoder.bind_eq_ok.mpr ⟨proof.oracle, _,
    Decoder.takeBytes_reads (ensure_eq_ok.mp horacle) _ _, ?_⟩
  refine Decoder.bind_eq_ok.mpr ⟨proof.ligeroCommitment, _,
    Root.decode_reads proof.ligeroCommitment _, ?_⟩
  refine Decoder.bind_eq_ok.mpr ⟨proof.sumcheckProof, _,
    (SumcheckProof.format verifier.circuit _ _ _).mpr ⟨hsumcheck, rfl⟩, ?_⟩
  exact Decoder.bind_eq_ok.mpr ⟨proof.ligeroProof, rest,
    LigeroProof.decodeWithParam_reads hligero hnreq hligeroBytes rest, rfl⟩

end Proof

section Run

variable {F : Type} [Field F] [DecidableEq F] [ProofFieldElement F]
  [ExtendFieldElement F] [LawfulCodec F] [CanonicalCodec F]
  [LawfulProofField F] [Primitives] [SamplesField F] [SamplesNaturals]
  {point : Nat → F} {circuit : Circuit F} {parameters : LigeroParameters}
  {prover : Prover F} {verifier : Verifier F} {inputs : List F}

end Run

section Sample

open scoped Silent

end Sample

end ZkOneCircuit

end Longfellow
