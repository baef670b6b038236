/-
Totality of Ligero: whatever the bytes are, reading a proof from them fails or
gives a proof of the right shape, and checking such a proof returns or fails.
-/
import Longfellow.Codec.Deltas
import Longfellow.Lib.Totality
import Longfellow.Ligero.Soundness

namespace Longfellow

open Decoder CodecFieldElement

/-- A field the decoders of which do not panic, nor leave more than they were
given. -/
class TotalCodec (F : Type) [CodecFieldElement F] : Prop where
  decode_total : Total (decode : Decoder F) fun _ => True
  decodeInSubfield_total : Total (decodeInSubfield : Decoder F) fun _ => True

namespace Ligero

open Exec

section Decode

theorem Nonce.decode_total : Total Nonce.decode fun _ => True := by
  refine (takeBytes_total 32 _).bind fun bytes hlength => ofExec_total ?_
  rw [Nonce.ofBytes, dif_pos hlength]
  exact trivial

theorem Node.decode_safe : Decoder.Safe Node.decode fun _ => True :=
  Sha256Digest.decode_safe.bind fun _ _ => Decoder.Safe.pure trivial

/-- The length prefix takes four bytes. -/
theorem U32.decode_counts (bs : List UInt8) :
    Exec.Safe (U32.decode bs) fun r =>
      r.1 < 2 ^ 32 ∧ r.2.length + 4 = bs.length := by
  refine (takeBytes_counts 4 _ bs).bind fun r hr => ⟨?_, hr.2⟩
  have hlt := Bytes.ofLeBytes_lt r.1
  rwa [hr.1] at hlt

theorem InclusionProof.decode_safe : Decoder.Safe InclusionProof.decode
    fun proof => proof.nodes.length < 2 ^ 32 := by
  refine Decoder.Safe.bind (P := fun length => length < 2 ^ 32)
    (fun bs => (U32.decode_counts bs).mono fun _ hr => hr.1)
    fun length hlength => ?_
  refine Decoder.Safe.bind (P := fun _ => True)
    (fun bs => safe_ensure.bind fun _ _ => trivial) fun _ _ => ?_
  refine (replicate_safe Node.decode_safe length).bind fun nodes hnodes =>
    Decoder.Safe.pure ?_
  rw [hnodes.1]
  exact hlength

variable {F : Type} [CodecFieldElement F] [TotalCodec F]

theorem decodeRun_total (subfieldRun : Bool) (runLength : Nat) :
    Total (decodeRun (F := F) subfieldRun runLength) fun _ => True := by
  rw [decodeRun]
  split
  · exact (replicate_total TotalCodec.decodeInSubfield_total _).mono
      fun _ _ => trivial
  · exact (replicate_total TotalCodec.decode_total _).mono fun _ _ => trivial

/-- Each turn of the loop reads the length of a run, so that it ends before as
many turns as there are bytes. -/
theorem decodeRunsWith_safe (expected fuel : Nat) (subfieldRun : Bool)
    (columnElements : List F) (bs : List UInt8) (hfuel : bs.length < fuel) :
    Exec.Safe (decodeRunsWith expected fuel subfieldRun columnElements bs)
      fun r => r.1.length = expected := by
  induction fuel generalizing subfieldRun columnElements bs with
  | zero => exact absurd hfuel (Nat.not_lt_zero _)
  | succ fuel ih =>
      rw [decodeRunsWith]
      split
      · refine (U32.decode_counts bs).bind fun prefixed hprefixed => ?_
        refine (ofExec_total safe_ensure _).bind fun checked hchecked => ?_
        refine (ofExec_total safe_ensure _).bind fun checked' hchecked' => ?_
        refine (decodeRun_total _ _ _).bind fun run hrun => ?_
        refine ih _ _ _ ?_
        have hread := hprefixed.2
        have hle := hchecked.2
        have hle' := hchecked'.2
        have hleRun := hrun.2
        omega
      · exact (ofExec_safe safe_ensure bs).bind fun _ h => h

theorem decodeRuns_safe (expected : Nat) :
    Decoder.Safe (decodeRuns (F := F) expected)
      fun columnElements => columnElements.length = expected :=
  fun bs => decodeRunsWith_safe expected _ false [] bs (Nat.lt_succ_self _)

theorem LigeroProof.decodeWithParam_safe {layout : TableauLayout}
    (hvalid : layout.parameters.Valid) :
    Decoder.Safe (LigeroProof.decodeWithParam (F := F) layout)
      fun proof => proof.HasShape layout := by
  have helements (n : Nat) : Decoder.Safe (Decoder.replicate decode n)
      fun xs : List F => xs.length = n :=
    (replicate_total TotalCodec.decode_total n).safe
  have hdblock : layout.dblock = .ok (2 * layout.blockSize - 1) :=
    hvalid.dblock_eq _ _
  have hhigh := checkedSub_of_le (blockSize_le_dblock hdblock)
  have hnreq : 0 < layout.numRequestedColumns := hvalid.nreq_pos
  have hpositive : 0 < layout.quadraticConstraintsPerRow := hvalid.quadratic_pos
  obtain ⟨linear, triples, hlinear, htriples⟩ :=
    numRows_eq_ok hpositive hvalid.quadratic_le
  have hrows : layout.numRows =
      .ok (TableauLayout.firstWitnessRow + linear + 3 * triples) := by
    rw [TableauLayout.numRows, hlinear, ok_bind,
      TableauLayout.numQuadraticRows, htriples]
    rfl
  refine (helements _).bind fun low hlow => ?_
  refine (ofExec_safe (P := (2 * layout.blockSize - 1 = ·))
    (by rw [hdblock]; exact rfl)).bind ?_
  rintro _ rfl
  refine (helements _).bind fun dot hdot => ?_
  refine (helements _).bind fun quadraticLow hquadraticLow => ?_
  refine (ofExec_safe (P := (2 * layout.blockSize - 1 - layout.blockSize = ·))
    (by rw [hhigh]; exact rfl)).bind ?_
  rintro _ rfl
  refine (helements _).bind fun quadraticHigh hquadraticHigh => ?_
  refine (replicate_total Nonce.decode_total _).safe.bind
    fun nonces hnonces => ?_
  refine (ofExec_safe
    (P := (TableauLayout.firstWitnessRow + linear + 3 * triples = ·))
    (by rw [hrows]; exact rfl)).bind ?_
  rintro _ rfl
  refine (decodeRuns_safe _).bind fun columnElements hcolumnElements => ?_
  refine (ofExec_safe (P := fun columns => columns.length =
      TableauLayout.firstWitnessRow + linear + 3 * triples ∧
      ∀ column ∈ columns, column.length = layout.numRequestedColumns)
    ?_).bind fun columns hcolumns => ?_
  · obtain ⟨columns, hcolumns⟩ : ∃ columns,
        chunks columnElements layout.numRequestedColumns = .ok columns :=
      ⟨_, chunks_eq_ok.mpr ⟨hnreq, rfl⟩⟩
    obtain ⟨hparts, hlengths⟩ := chunks_length hcolumns
      (hcolumnElements.trans (Nat.mul_comm _ _))
    rw [hcolumns]
    exact ⟨by rw [hparts, List.length_map, List.length_range], hlengths⟩
  refine InclusionProof.decode_safe.bind fun inclusion hinclusion =>
    Decoder.Safe.pure ?_
  exact ⟨hlow, by rw [hdot, hdblock], hquadraticLow,
    by rw [hdot, hquadraticHigh, hhigh], hnonces, by rw [hrows, hcolumns.1],
    hcolumns.2, hinclusion⟩

end Decode

section Fields

/-- The decoders of residues. -/
theorem residueDecode_total (p n : Nat) :
    Total (residueDecode p n) fun _ => True := by
  refine (takeBytes_total n _).bind fun bytes _ => ?_
  unfold residueOfBytes
  cases residueTryFrom p n bytes with
  | none => exact fun _ => trivial
  | some x => exact Total.pure trivial

instance : TotalCodec FieldP128 :=
  ⟨residueDecode_total _ _, residueDecode_total _ _⟩

instance : TotalCodec FieldP256 :=
  ⟨residueDecode_total _ _, residueDecode_total _ _⟩

instance : TotalCodec Field2_128 where
  decode_total := (takeBytes_total 16 _).bind fun _ _ => Total.pure trivial
  decodeInSubfield_total :=
    Total.bind (P := fun _ => True)
      ((takeBytes_total 2 _).bind fun _ _ => Total.pure trivial)
      fun _ _ => Total.pure trivial

end Fields

section Inclusion

open HeapTree MerkleTree

variable {leafCount : Nat} {indices : List Nat} {marked : List Bool}

/-- Taking nodes from a proof fills nodes or runs out of them. -/
theorem MerkleTree.placeProofNodes_safe (hpos : 1 ≤ leafCount)
    (hmarking : Marking leafCount indices marked) (proofNodes : List Node) :
    Exec.Safe ((innerNodes leafCount).foldlM (placeProofNode marked)
      (List.replicate (2 * leafCount) none, proofNodes)) fun state =>
        state.1.length = 2 * leafCount := by
  refine foldlM_innerNodes Judgement.safe (n := leafCount)
    (f := placeProofNode marked)
    (I := fun _ state => state.1.length = 2 * leafCount) hpos
    List.length_replicate ?_
  rintro i ⟨partialTree, proofNodes⟩ hi hlt hlength
  rw [placeProofNode, hmarking.unmarkedChild_eq hlt, ok_bind]
  cases hchild : suppliedChild marked i with
  | none => exact hlength
  | some child =>
      cases proofNodes with
      | nil => trivial
      | cons proofNode proofNodes =>
          have hbound : child < partialTree.length := by
            rw [hlength]
            exact suppliedChild_lt hmarking hi hlt hchild
          simp only [update_of_lt hbound, ok_bind]
          exact (List.length_set).trans hlength

variable [Primitives]

/-- Checking any proof of inclusion in a tree that has leaves. -/
theorem MerkleTree.verify_safe (hpos : 1 ≤ leafCount) (root : Root)
    (nodes : List Node) (indices : List Nat) (proof : InclusionProof) :
    Exec.Safe (MerkleTree.verify root leafCount nodes indices proof)
      fun _ => True := by
  rw [verify]
  refine safe_ensure.bind fun _ hlength => ?_
  refine safe_ensure.bind fun _ hrange => ?_
  have hfill : Exec.Safe (fillPartialTree leafCount nodes indices proof)
      fun filled => filled.length = 2 * leafCount := by
    obtain ⟨marked, hmark, hmarking⟩ := markTree_returns hpos hrange
    rw [fillPartialTree, Nat.mul_comm leafCount 2, hmark, ok_bind]
    refine ((placeProofNodes_safe hpos hmarking proof.nodes).and_ensures
      (placeProofNodes_ensures hpos hmarking proof.nodes)).bind
        fun state hstate => ?_
    obtain ⟨-, hsize, hknown⟩ := hstate
    refine (fillLeaves_returns (V := fun _ _ => True) hpos hmarking hlength
      hrange hsize hknown (fun _ _ _ => trivial) (fun _ _ => trivial)
      (fun _ _ _ _ _ _ _ => trivial)).safe.mono fun _ h => h.1
  refine hfill.bind fun filled hfilled => ?_
  rw [index_of_lt (by omega : 1 < filled.length), ok_bind]
  exact safe_ensure.mono fun _ _ => trivial

variable {F : Type} [Field F] [DecidableEq F] [CodecFieldElement F]
  [ExtendFieldElement F]

omit [Field F] [DecidableEq F] in
theorem checkInclusion_safe {verifier : LigeroVerifier F}
    {proof : LigeroProof F} {dblock : Nat}
    (hdblock : verifier.tableauLayout.dblock = .ok dblock)
    (hleaves : verifier.tableauLayout.numColumns = dblock + leafCount)
    (hpos : 1 ≤ leafCount)
    (hnonces : proof.merkleTreeNonces.length = indices.length)
    (hcolumns : ∀ row ∈ proof.tableauColumns, row.length = indices.length)
    (commitment : Root) :
    Exec.Safe (verifier.checkInclusion proof commitment indices)
      fun _ => True := by
  rw [LigeroVerifier.checkInclusion]
  refine (Judgement.safe.mapM (P := fun _ => True) _ fun k hk => ?_).bind
    fun nodes _ => ?_
  · have hlt := List.mem_range.mp hk
    rw [index_of_lt (hnonces.symm ▸ hlt), ok_bind]
    exact (columnLeaf_returns hcolumns hlt _).safe
  rw [hdblock, ok_bind, hleaves, checkedSub_of_le (Nat.le_add_right _ _),
    ok_bind, Nat.add_sub_cancel_left]
  exact (MerkleTree.verify_safe hpos _ _ _ _).context _

end Inclusion

section Verify

variable {F : Type} [Field F] [DecidableEq F] [CodecFieldElement F]
  [ExtendFieldElement F] [Primitives] [SamplesField F] [SamplesNaturals]
  {point : Nat → F} {layout : TableauLayout} {prover : LigeroProver F}
  {verifier : LigeroVerifier F} {linearConstraints : LinearConstraints F}

/-- Checking any proof of the right shape, against any commitment. -/
theorem Matching.verify_safe (h : Matching point layout prover verifier)
    (hlinearRange : linearConstraints.InRange layout.numWitnesses)
    (hquadraticRange : Tableau.WitnessesInRange layout.numWitnesses
      verifier.quadraticConstraints)
    {proof : LigeroProof F} (hshape : proof.HasShape layout)
    (commitment : Root) (transcript : Transcript) :
    Exec.Safe (verifier.verify proof commitment transcript linearConstraints)
      fun _ => True := by
  obtain rfl := h.verifier_layout
  set layout := verifier.tableauLayout with hlayout
  have hvalid := h.valid
  have hdblock : layout.dblock = .ok (2 * layout.blockSize - 1) :=
    hvalid.dblock_eq _ _
  have hblock : layout.blockSize =
      layout.numRequestedColumns + layout.witnessesPerRow := hvalid.block
  have hcolumns : 2 * layout.blockSize - 1 + layout.numRequestedColumns <
      layout.numColumns := hvalid.columns
  have hle := blockSize_le_dblock hdblock
  have hpositive : 0 < layout.quadraticConstraintsPerRow := hvalid.quadratic_pos
  obtain ⟨linear, triples, hlinear, htriples⟩ :=
    numRows_eq_ok hpositive hvalid.quadratic_le
  -- What is drawn before the checks.
  obtain ⟨⟨challenges, sampled⟩, hchallenges, hrows, halphas, hcopies,
    hblinds⟩ := LigeroChallenges.generate_returns (F := F)
      (writeHashOfA transcript) hlinear htriples linearConstraints.rhs.length
      verifier.quadraticConstraints.length
  rw [LigeroVerifier.verify]
  simp only [← hlayout, hchallenges, ok_bind, hdblock,
    checkedSub_of_le (by omega : 2 * layout.blockSize - 1 ≤ layout.numColumns)]
  refine Exec.Safe.bind ((generateNaturalsWithoutReplacement_returns _
    (by omega)).safe.and_ensures
      (generateNaturalsWithoutReplacement_ensures _ _ _)) ?_
  rintro ⟨indices, last⟩ ⟨-, hcount, hnodup, hlt⟩
  -- The checks compare values of polynomials.
  have hrowCount := hshape.length_columns hlinear htriples
  have hreveals := h.reveals hshape (by omega) hcount hnodup hlt
  obtain ⟨polynomials, hcontents⟩ := hreveals.exists_contents
  obtain ⟨hstitchLength, hstitched⟩ :=
    stitchedQuadraticProof_eq hshape hdblock (by omega)
  obtain ⟨vector, parts, hvector, hchunks, hparts⟩ := h.exists_parts hlinear
    htriples hlinearRange hquadraticRange halphas hcopies
  have hfirst : layout.firstQuadraticConstraintRow =
      .ok (TableauLayout.firstWitnessRow + linear) := by
    rw [TableauLayout.firstQuadraticConstraintRow, hlinear]
    rfl
  have hdotLength : proof.dotProof.length = 2 * layout.blockSize - 1 := by
    have hdot := hshape.dotProof
    rw [hdblock, Except.ok.injEq] at hdot
    exact hdot.symm
  have hall : TableauLayout.firstWitnessRow + linear + 3 * triples ≤
      polynomials.all.length := by
    rw [hcontents, RowPolynomials.contents, List.length_map] at hrowCount
    exact hrowCount.ge
  simp only [checkLowDegree_eq hdblock hreveals.lt h.verifier_block_ncol
    hcontents hshape.lowDegreeTestProof]
  refine safe_ensure.bind fun _ _ => ?_
  refine safe_ensure.bind fun _ _ => ?_
  rw [hvector, ok_bind, checkDotRow_eq hdblock hreveals.lt
    h.verifier_block_ncol h.verifier_dblock_ncol hcontents hdotLength hchunks
    fun part hpart => (hparts part hpart ▸ hblock.symm)]
  refine safe_ensure.bind fun _ _ => ?_
  rw [checkQuadratic_eq hdblock hreveals.lt h.verifier_dblock_ncol hcontents
    hstitched hfirst htriples hblinds.le hall]
  refine safe_ensure.bind fun _ _ => ?_
  refine (checkInclusion_safe hdblock (by omega : layout.numColumns =
    2 * layout.blockSize - 1 + (layout.numColumns -
      (2 * layout.blockSize - 1))) (by omega)
    (hshape.merkleTreeNonces.trans hcount.symm) hreveals.length_column
    commitment).bind fun _ _ => trivial

end Verify

end Ligero

end Longfellow
