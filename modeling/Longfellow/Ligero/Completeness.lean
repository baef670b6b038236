/-
Completeness of Ligero: for a witness that satisfies the constraints, the
prover commits and proves, and the verifier accepts.
-/
import Longfellow.Fields.Interpolation
import Longfellow.Ligero.Opening
import Longfellow.Ligero.Region
import Longfellow.Sample
import Longfellow.Sumcheck.WitnessLayout
import Longfellow.Transcript.Sampling

namespace Longfellow.Ligero

open Exec Polynomial ReedSolomon Tableau

section Contents

variable {F : Type} [Field F] {witness : Witness F}
  {quadraticConstraints : List QuadraticConstraint}
  {witnessesPerRow linear triples : Nat}

theorem slice_getD (values : List F) {start count j : Nat} (hj : j < count) :
    (slice values start count).getD j 0 = values.getD (start + j) 0 := by
  rw [List.getD_eq_getElem?_getD, slice_getElem? values hj]
  rfl

/-- The contents in the witness positions, row by row. -/
def contentRegion (witness : Witness F)
    (quadraticConstraints : List QuadraticConstraint)
    (witnessesPerRow linear triples : Nat) : List F :=
  (rowContents witness quadraticConstraints witnessesPerRow linear
    triples).flatten

theorem contentRegion_getD (row : Nat) {j : Nat} (hj : j < witnessesPerRow) :
    (contentRegion witness quadraticConstraints witnessesPerRow linear
        triples).getD (row * witnessesPerRow + j) 0 =
      ((rowContents witness quadraticConstraints witnessesPerRow linear
        triples).getD row []).getD j 0 :=
  flatten_getD (fun _ => length_of_mem_rowContents) row hj

/-- First comes the witness. -/
theorem contentRegion_witness {i : Nat} (hi : i < linear * witnessesPerRow) :
    (contentRegion witness quadraticConstraints witnessesPerRow linear
      triples).getD i 0 = witness.values.getD i 0 := by
  obtain ⟨row, j, hj, rfl⟩ :
      ∃ row j, j < witnessesPerRow ∧ i = row * witnessesPerRow + j :=
    ⟨i / witnessesPerRow, i % witnessesPerRow,
      Nat.mod_lt i (Nat.pos_of_lt_mul_left hi), (Nat.div_add_mod' i _).symm⟩
  have hrow : row < linear :=
    Nat.lt_of_mul_lt_mul_right (a := witnessesPerRow) (by omega)
  have hget : (rowContents witness quadraticConstraints witnessesPerRow linear
      triples).getD row [] = witnessContent witness witnessesPerRow row := by
    rw [rowContents, List.getD_append _ _ _ _ (by simpa using hrow)]
    simp [hrow]
  rw [contentRegion_getD _ hj, hget, witnessContent, slice_getD _ hj]

/-- Then come the copies of the `x`s, of the `y`s and of the `z`s. -/
theorem contentRegion_copies {t j : Nat} (ht : t < triples)
    (hj : j < witnessesPerRow) :
    (contentRegion witness quadraticConstraints witnessesPerRow linear
        triples).getD ((linear + t) * witnessesPerRow + j) 0 =
      (copies witness (quadraticConstraints.map fun q => q.x)).getD
        (t * witnessesPerRow + j) 0 ∧
    (contentRegion witness quadraticConstraints witnessesPerRow linear
        triples).getD ((linear + triples + t) * witnessesPerRow + j) 0 =
      (copies witness (quadraticConstraints.map fun q => q.y)).getD
        (t * witnessesPerRow + j) 0 ∧
    (contentRegion witness quadraticConstraints witnessesPerRow linear
        triples).getD ((linear + triples + triples + t) * witnessesPerRow + j)
          0 =
      (copies witness (quadraticConstraints.map fun q => q.z)).getD
        (t * witnessesPerRow + j) 0 := by
  have hget {row : Nat} (hrow : row < 3 * triples) :
      (rowContents witness quadraticConstraints witnessesPerRow linear
        triples).getD (linear + row) [] = quadraticContent witness
          quadraticConstraints witnessesPerRow triples row := by
    rw [rowContents, List.getD_append_right _ _ _ _ (by simp)]
    simp [hrow]
  refine ⟨?_, ?_, ?_⟩
  · rw [contentRegion_getD _ hj, hget (by omega), quadraticContent, if_pos ht,
      slice_getD _ hj]
  · rw [contentRegion_getD _ hj, Nat.add_assoc, hget (by omega),
      quadraticContent, if_neg (by omega), if_pos (by omega), slice_getD _ hj,
      Nat.add_sub_cancel_left]
  · have hsub : triples + triples + t - 2 * triples = t := by omega
    rw [contentRegion_getD _ hj, Nat.add_assoc, Nat.add_assoc, ← Nat.add_assoc
      triples, hget (by omega), quadraticContent, if_neg (by omega),
      if_neg (by omega), slice_getD _ hj, hsub]

theorem copies_getD (f : QuadraticConstraint → Nat) (i : Nat) :
    (copies witness (quadraticConstraints.map f)).getD i 0 =
      (quadraticConstraints[i]?.map fun q =>
        witness.values.getD (f q) 0).getD 0 := by
  rw [copies, List.map_map, List.getD_eq_getElem?_getD, List.getElem?_map]
  rfl

/-- Copies of a witness that satisfies the constraints are products. -/
theorem copies_mul (hsatisfied : ∀ q ∈ quadraticConstraints,
      q.Satisfied fun i => witness.values.getD i 0) (i : Nat) :
    (copies witness (quadraticConstraints.map fun q => q.z)).getD i 0 =
      (copies witness (quadraticConstraints.map fun q => q.x)).getD i 0 *
        (copies witness (quadraticConstraints.map fun q => q.y)).getD i 0 := by
  rw [copies_getD, copies_getD, copies_getD]
  rcases hq : quadraticConstraints[i]? with _ | q
  · exact (mul_zero 0).symm
  · exact (hsatisfied q (List.mem_of_getElem? hq)).symm

/-- The copies are equal to the witnesses that they are copies of. -/
theorem copyCombination_contentRegion
    (hrange : WitnessesInRange witness.values.length quadraticConstraints)
    (hwitnesses : witness.values.length ≤ linear * witnessesPerRow)
    (hcopies : quadraticConstraints.length ≤ triples * witnessesPerRow)
    (alphas : List F) :
    copyCombination quadraticConstraints alphas
      (contentRegion witness quadraticConstraints witnessesPerRow linear
        triples) (linear * witnessesPerRow)
      (linear * witnessesPerRow + triples * witnessesPerRow)
      (linear * witnessesPerRow + triples * witnessesPerRow +
        triples * witnessesPerRow) = 0 := by
  apply List.sum_eq_zero
  rintro term hmem
  obtain ⟨⟨q, i⟩, hpair, rfl⟩ := List.mem_map.mp hmem
  obtain ⟨hi, rfl⟩ : ∃ hi : i < quadraticConstraints.length,
      quadraticConstraints[i] = q := by
    obtain ⟨-, hlt, heq⟩ := List.mem_zipIdx hpair
    simp only [Nat.zero_add, Nat.sub_zero] at hlt heq
    exact ⟨hlt, heq.symm⟩
  obtain ⟨t, j, hj, hsplit⟩ :
      ∃ t j, j < witnessesPerRow ∧ i = t * witnessesPerRow + j :=
    ⟨i / witnessesPerRow, i % witnessesPerRow,
      Nat.mod_lt i (Nat.pos_of_lt_mul_left (hi.trans_le hcopies)),
      (Nat.div_add_mod' i _).symm⟩
  have ht : t < triples :=
    Nat.lt_of_mul_lt_mul_right (a := witnessesPerRow) (by omega)
  obtain ⟨hx, hy, hz⟩ := @contentRegion_copies F _ witness
    quadraticConstraints witnessesPerRow linear triples t j ht hj
  rw [← hsplit, copies_getD, List.getElem?_eq_getElem hi] at hx hy hz
  obtain ⟨hqx, hqy, hqz⟩ := hrange _ (List.getElem_mem hi)
  have hxs : linear * witnessesPerRow + i =
      (linear + t) * witnessesPerRow + j := by rw [hsplit]; ring
  have hys : linear * witnessesPerRow + triples * witnessesPerRow + i =
      (linear + triples + t) * witnessesPerRow + j := by rw [hsplit]; ring
  have hzs : linear * witnessesPerRow + triples * witnessesPerRow +
      triples * witnessesPerRow + i =
        (linear + triples + triples + t) * witnessesPerRow + j := by
    rw [hsplit]
    ring
  simp only [copyTerm]
  rw [hxs, hys, hzs, hx, hy, hz,
    contentRegion_witness (hqx.trans_le hwitnesses),
    contentRegion_witness (hqy.trans_le hwitnesses),
    contentRegion_witness (hqz.trans_le hwitnesses)]
  simp

/-- The combination of the linear constraints is that of their right hand
sides. -/
theorem linearCombination_contentRegion
    {linearConstraints : LinearConstraints F}
    (hrange : linearConstraints.InRange witness.values.length)
    (hsatisfied :
      linearConstraints.Satisfied fun i => witness.values.getD i 0)
    (hwitnesses : witness.values.length ≤ linear * witnessesPerRow)
    {alphas : List F} (hlength : alphas.length = linearConstraints.rhs.length) :
    linearCombination linearConstraints.lhsTerms alphas
        (contentRegion witness quadraticConstraints witnessesPerRow linear
          triples) =
      innerProduct linearConstraints.rhs alphas := by
  rw [linearCombination, innerProduct]
  congr 1
  apply List.ext_getElem
  · simp [hlength]
  · intro c hc hc'
    have hlt : c < linearConstraints.rhs.length := by
      simpa [hlength] using hc
    have hlhs : lhs linearConstraints.lhsTerms (fun i => (contentRegion witness
        quadraticConstraints witnessesPerRow linear triples).getD i 0) c =
          lhs linearConstraints.lhsTerms
            (fun i => witness.values.getD i 0) c := by
      rw [lhs, lhs]
      congr 1
      apply List.map_congr_left
      intro term hterm
      rw [contentRegion_witness ((hrange term hterm).2.trans_le hwitnesses)]
    rw [List.getElem_map, List.getElem_range, hlhs, hsatisfied c hlt,
      List.getElem_zipWith, List.getD_eq_getElem _ _ (hlength ▸ hlt), mul_comm]

end Contents

section Steps

variable {F : Type} [Field F] {point : Nat → F} {layout : TableauLayout}

/-- A prover and a verifier for the same constraints, whose rows are extended
by interpolation at the same points. -/
structure Matching [ExtendFieldElement F] (point : Nat → F)
    (layout : TableauLayout) (prover : LigeroProver F)
    (verifier : LigeroVerifier F) : Prop where
  valid : layout.parameters.Valid
  parameters : prover.parameters = layout.parameters
  verifier_layout : verifier.tableauLayout = layout
  quadratic_length :
    layout.numQuadraticConstraints = prover.quadraticConstraints.length
  constraints : verifier.quadraticConstraints = prover.quadraticConstraints
  prover_block_ncol : Interpolates point layout.blockSize layout.numColumns
    prover.extendContextBlockNcol
  prover_dblock_ncol : Interpolates point (2 * layout.blockSize - 1)
    layout.numColumns prover.extendContextDblockNcol
  prover_block_dblock : Interpolates point layout.blockSize
    (2 * layout.blockSize - 1) prover.extendContextBlockDblock
  verifier_block_ncol : Interpolates point layout.blockSize layout.numColumns
    verifier.extendContextBlockNcol
  verifier_dblock_ncol : Interpolates point (2 * layout.blockSize - 1)
    layout.numColumns verifier.extendContextDblockNcol

/-- What the prover keeps after it has committed to a witness. -/
structure Committed [CodecFieldElement F] [Primitives] (point : Nat → F)
    (layout : TableauLayout) (witness : Witness F)
    (quadraticConstraints : List QuadraticConstraint)
    (state : LigeroCommitmentState F) (polynomials : RowPolynomials F)
    (linear triples : Nat) : Prop where
  layout_eq : state.tableau.layout = layout
  linear_rows : layout.numLinearConstraintRows = .ok linear
  quadratic_triples : layout.numQuadraticTriples = .ok triples
  contents : state.tableau.contents =
    polynomials.contents point (List.range layout.numColumns)
  encodes : polynomials.Encodes point layout (2 * layout.blockSize - 1)
    (rowContents witness quadraticConstraints layout.witnessesPerRow linear
      triples)
  commits : CommitsTo state.tableau.contents (2 * layout.blockSize - 1)
    (layout.numColumns - (2 * layout.blockSize - 1)) state.merkleTree
  root : state.root = Root.ofNode (state.merkleTree.digest 1)

/-- Committing to a witness of the right length succeeds. -/
theorem LigeroProver.commit_returns [DecidableEq F] [CodecFieldElement F]
    [ExtendFieldElement F] [Primitives] {σ τ : Type} {prover : LigeroProver F}
    {verifier : LigeroVerifier F}
    (hmatching : Matching point layout prover verifier) {witness : Witness F}
    (hwitness : layout.numWitnesses = witness.values.length)
    (hrange : WitnessesInRange witness.values.length
      prover.quadraticConstraints)
    (generator : σ → F × σ) (s : σ) (nonceGenerator : τ → Nonce × τ) (t : τ) :
    Returns (prover.commit witness generator s nonceGenerator t) fun state =>
      ∃ polynomials linear triples, Committed point layout witness
        prover.quadraticConstraints state polynomials linear triples := by
  have hlayout : layout = ⟨prover.parameters, witness.values.length,
      prover.quadraticConstraints.length⟩ := by
    rw [hmatching.parameters, ← hwitness, ← hmatching.quadratic_length]
  have hvalid := hmatching.valid
  have hblock := hmatching.prover_block_ncol
  have hdblockNcol := hmatching.prover_dblock_ncol
  rw [hlayout] at hvalid hblock hdblockNcol
  obtain ⟨tableau, htableau, htableauLayout, polynomials, linear, triples,
    hlinear, htriples, hcontents, hencodes⟩ :=
      build_returns generator hvalid hrange hblock hdblockNcol s
  rw [← hlayout] at htableauLayout
  have hdblock : tableau.layout.dblock = .ok (2 * layout.blockSize - 1) := by
    rw [htableauLayout]
    exact hmatching.valid.dblock_eq _ _
  have hcolumns := hmatching.valid.columns
  have hrows : ∀ row ∈ tableau.contents, row.length = layout.numColumns := by
    intro row hrow
    rw [hcontents] at hrow
    obtain ⟨p, -, rfl⟩ := List.mem_map.mp hrow
    rw [length_valuesAt, List.length_range, hmatching.parameters]
    rfl
  have hlt : 2 * layout.blockSize - 1 < layout.numColumns :=
    (Nat.le_add_right _ _).trans_lt hcolumns
  obtain ⟨tree, htree, hcommits⟩ := Ligero.commit_returns hdblock
    (congrArg TableauLayout.numColumns htableauLayout) hlt hrows
    nonceGenerator t
  have hroot : tree.root = .ok (Root.ofNode (tree.digest 1)) := by
    rw [MerkleTree.root, MerkleTree.index_getD (by
      rw [hcommits.sized.1]
      omega) default]
    rfl
  refine ⟨⟨tableau, tree, Root.ofNode (tree.digest 1)⟩, ?_, polynomials,
    linear, triples, htableauLayout, ?_, ?_, ?_, ?_, hcommits, rfl⟩
  · rw [LigeroProver.commit, htableau, ok_bind, htree, ok_bind, hroot, ok_bind]
    rfl
  · rw [← htableauLayout, hlinear]
  · rw [← htableauLayout, htriples]
  · rw [hcontents, hmatching.parameters]
    rfl
  · rw [htableauLayout, hmatching.parameters] at hencodes
    exact hencodes

omit [Field F] in
/-- There are as many challenges as rows and constraints. -/
theorem LigeroChallenges.generate_returns [CodecFieldElement F] [Primitives]
    [SamplesField F] (transcript : Transcript) {linear triples : Nat}
    (hlinear : layout.numLinearConstraintRows = .ok linear)
    (htriples : layout.numQuadraticTriples = .ok triples)
    (linearConstraintsLen quadraticConstraintsLen : Nat) :
    Returns (LigeroChallenges.generate F transcript layout linearConstraintsLen
      quadraticConstraintsLen) fun (challenges, _) =>
        challenges.lowDegreeTestBlind.length = linear + 3 * triples ∧
        challenges.linearConstraintAlphas.length = linearConstraintsLen ∧
        challenges.quadraticConstraintAlphas.length =
          3 * quadraticConstraintsLen ∧
        challenges.quadraticProofBlind.length = triples := by
  rw [LigeroChallenges.generate, numConstraintRows_eq hlinear htriples, ok_bind,
    htriples]
  refine Returns.of_eq rfl ⟨?_, ?_, ?_, ?_⟩
  · exact Transcript.length_generateChallenge _ _
  · exact Transcript.length_generateChallenge _ _
  · exact Transcript.length_generateChallenge _ _
  · exact Transcript.length_generateChallenge _ _

section Honest

variable [CodecFieldElement F] [Primitives] {witness : Witness F}
  {quadraticConstraints : List QuadraticConstraint}
  {state : LigeroCommitmentState F} {polynomials : RowPolynomials F}
  {linear triples : Nat}

/-- The rows of the tableau. -/
theorem Committed.length_rows (h : Committed point layout witness
      quadraticConstraints state polynomials linear triples) :
    polynomials.rows.length = linear + 3 * triples := by
  have hlength := congrArg List.length h.encodes.contents
  rw [List.length_map] at hlength
  rw [hlength, rowContents]
  simp

theorem Committed.length_all (h : Committed point layout witness
      quadraticConstraints state polynomials linear triples) :
    polynomials.all.length =
      TableauLayout.firstWitnessRow + linear + 3 * triples := by
  rw [Nat.add_assoc, ← h.length_rows, Nat.add_comm]
  rfl

theorem Committed.numRows (h : Committed point layout witness
      quadraticConstraints state polynomials linear triples) :
    layout.numRows = .ok polynomials.all.length := by
  rw [TableauLayout.numRows, h.linear_rows, ok_bind,
    TableauLayout.numQuadraticRows, h.quadratic_triples, ok_bind, h.length_all]
  rfl

theorem Committed.witnessRegion_eq (h : Committed point layout witness
      quadraticConstraints state polynomials linear triples) :
    polynomials.witnessRegion point layout = contentRegion witness
      quadraticConstraints layout.witnessesPerRow linear triples := by
  rw [RowPolynomials.witnessRegion, h.encodes.contents, contentRegion]

/-- The quadratic test vanishes in the witness positions. -/
theorem Committed.quadraticSum_eq_zero (h : Committed point layout witness
      quadraticConstraints state polynomials linear triples)
    (hsatisfied : ∀ q ∈ quadraticConstraints,
      q.Satisfied fun i => witness.values.getD i 0)
    {blinds : List F} (hblinds : blinds.length = triples) :
    ∀ i ∈ layout.witnessColumns, (polynomials.quadraticSum
      (TableauLayout.firstWitnessRow + linear) triples blinds).eval (point i) =
        0 := by
  intro i hi
  obtain ⟨hlow, hhigh⟩ := List.mem_range'_1.mp hi
  obtain ⟨j, rfl⟩ := Nat.exists_eq_add_of_le hlow
  have hj : j < layout.witnessesPerRow := Nat.lt_of_add_lt_add_left hhigh
  rw [RowPolynomials.quadraticSum, eval_addCombination,
    h.encodes.quadratic_zero _ hi, zero_add, List.map_map]
  apply List.sum_eq_zero
  intro term hmem
  obtain ⟨⟨blind, t⟩, hpair, rfl⟩ := List.mem_map.mp hmem
  have ht : t < triples := by
    obtain ⟨-, hlt, -⟩ := List.mem_zipIdx hpair
    omega
  have hzero : (polynomials.difference (TableauLayout.firstWitnessRow + linear)
      triples t).eval (point (layout.numRequestedColumns + j)) = 0 := by
    obtain ⟨hx, hy, hz⟩ := @contentRegion_copies F _ witness
      quadraticConstraints layout.witnessesPerRow linear triples t j ht hj
    rw [difference_eval linear triples t hj, h.witnessRegion_eq, hx, hy, hz,
      copies_mul hsatisfied, sub_self]
  simp only [Function.comp_apply, hzero, mul_zero]

/-- The inner product with the witness positions is the combination of the
right hand sides. -/
theorem Committed.innerProductVector_returns (h : Committed point layout
      witness quadraticConstraints state polynomials linear triples)
    (hratio : layout.quadraticConstraintsPerRow ≤ layout.witnessesPerRow)
    {linearConstraints : LinearConstraints F} {alphas quadraticAlphas : List F}
    (hrange : ConstraintsInRange layout linearConstraints alphas
      quadraticConstraints quadraticAlphas)
    (hwitness : layout.numWitnesses = witness.values.length)
    (hsatisfied :
      linearConstraints.Satisfied fun i => witness.values.getD i 0) :
    Returns (innerProductVector layout linearConstraints alphas
      quadraticConstraints quadraticAlphas) fun vector =>
        vector.length = layout.witnessesPerRow * polynomials.rows.length ∧
        innerProduct vector (polynomials.witnessRegion point layout) =
          innerProduct linearConstraints.rhs alphas := by
  have hlength : (polynomials.witnessRegion point layout).length =
      layout.witnessesPerRow * (linear + 3 * triples) := by
    rw [length_witnessRegion, h.length_rows]
  obtain ⟨hcopies, -, -⟩ :=
    hrange.copiesInRange hratio h.linear_rows h.quadratic_triples
  have hwitnesses : witness.values.length ≤
      linear * layout.witnessesPerRow := by
    rw [← hwitness]
    exact divCeil_mul_ge h.linear_rows
  refine (Ligero.innerProductVector_returns hrange hratio h.linear_rows
    h.quadratic_triples hlength).mono ?_
  rintro vector ⟨hvector, hproduct⟩
  refine ⟨hvector.trans length_witnessRegion, ?_⟩
  rw [hproduct, h.witnessRegion_eq,
    linearCombination_contentRegion (hwitness ▸ hrange.linear) hsatisfied
      hwitnesses hrange.linear_alphas_length,
    copyCombination_contentRegion (fun q hq => hwitness ▸ hrange.quadratic q hq)
      hwitnesses hcopies, add_zero]

end Honest

/-- The parts of the quadratic proof are stitched back together. -/
theorem stitchedQuadraticProof_eq_ok {proof : LigeroProof F} {dblock : Nat}
    (hdblock : layout.dblock = .ok dblock)
    (hnreq : layout.numRequestedColumns ≤ layout.blockSize)
    {values : List F} (hlength : values.length = dblock)
    (hzero : ∀ i, layout.numRequestedColumns ≤ i → i < layout.blockSize →
      values[i]? = some 0)
    (hproof : proof.quadraticProof =
      (values.take layout.numRequestedColumns, values.drop layout.blockSize)) :
    proof.stitchedQuadraticProof layout = .ok values := by
  have hle := blockSize_le_dblock hdblock
  have hlow : (values.take layout.numRequestedColumns).length =
      layout.numRequestedColumns := by
    rw [List.length_take]
    omega
  have hmiddle : List.replicate
      (layout.blockSize - layout.numRequestedColumns) 0 =
        (values.take layout.blockSize).drop layout.numRequestedColumns := by
    apply List.ext_getElem
    · rw [List.length_replicate, List.length_drop, List.length_take]
      omega
    · intro i hi hi'
      rw [List.length_replicate] at hi
      have h := hzero (layout.numRequestedColumns + i) (Nat.le_add_right _ _)
        (by omega)
      rw [List.getElem?_eq_getElem (by omega)] at h
      rw [List.getElem_replicate, List.getElem_drop, List.getElem_take]
      exact (Option.some.inj h).symm
  have hvalues : values.take layout.numRequestedColumns ++
      List.replicate (layout.blockSize - layout.numRequestedColumns) 0 ++
        values.drop layout.blockSize = values := by
    have hfirst : (values.take layout.blockSize).take
        layout.numRequestedColumns =
          values.take layout.numRequestedColumns := by
      rw [List.take_take, Nat.min_eq_left hnreq]
    rw [hmiddle, ← hfirst, List.take_append_drop, List.take_append_drop]
  have htake : (values.take layout.numRequestedColumns).take layout.blockSize =
      values.take layout.numRequestedColumns :=
    List.take_of_length_le (hlow.trans_le hnreq)
  rw [LigeroProof.stitchedQuadraticProof, hdblock, ok_bind, hproof]
  simp only [htake, hlow, hvalues]
  rw [assert_of hlength, ok_bind]
  rfl

/-- A column of a part of the columns is a column of all of them. -/
theorem columnLeaf_contents [CodecFieldElement F] [Primitives]
    {polynomials : RowPolynomials F} {indices indices' : List Nat} {k k' : Nat}
    (hk : indices[k]? = indices'[k']?) (nonce : Nonce) :
    columnLeaf (polynomials.contents point indices) nonce k =
      columnLeaf (polynomials.contents point indices') nonce k' := by
  rw [columnLeaf, columnLeaf, RowPolynomials.contents, RowPolynomials.contents,
    List.mapM_map, List.mapM_map]
  have hindex : (fun row => index (valuesAt point indices row) k) =
      fun row => index (valuesAt point indices' row) k' := by
    funext p
    rw [index, index, valuesAt_getElem?, valuesAt_getElem?, hk]
  exact congrArg (fun f => polynomials.all.mapM f >>= _) hindex

/-- The revealed columns are found in the tree. -/
theorem checkInclusion_eq_ok [DecidableEq F] [CodecFieldElement F]
    [ExtendFieldElement F] [Primitives] {verifier : LigeroVerifier F}
    {proof : LigeroProof F} {polynomials : RowPolynomials F}
    {tree : MerkleTree} {dblock leaves : Nat} {indices : List Nat}
    (hdblock : verifier.tableauLayout.dblock = .ok dblock)
    (hleaves : verifier.tableauLayout.numColumns = dblock + leaves)
    (hcommits : CommitsTo (polynomials.contents point
      (List.range verifier.tableauLayout.numColumns)) dblock leaves tree)
    (hne : indices ≠ []) (hrange : ∀ i ∈ indices, i < leaves)
    (hcolumns : proof.tableauColumns =
      polynomials.contents point (indices.map (· + dblock)))
    (hnonces : proof.merkleTreeNonces =
      indices.map fun i => tree.nonces.getD i default)
    (hinclusion : tree.prove indices = .ok proof.inclusionProof) :
    verifier.checkInclusion proof (Root.ofNode (tree.digest 1)) indices =
      .ok () := by
  have hpos : 1 ≤ leaves := by
    obtain ⟨i, hi⟩ := List.exists_mem_of_ne_nil indices hne
    have hlt := hrange i hi
    omega
  -- Every revealed column has the leaf that the tree has for it.
  have hnodes : ((List.range indices.length).mapM fun column => do
      let nonce ← index proof.merkleTreeNonces column
      columnLeaf proof.tableauColumns nonce column) =
        .ok (indices.map tree.leaf) := by
    have hmap : indices.map tree.leaf = (List.range indices.length).map
        fun column => tree.leaf (indices.getD column 0) := by
      apply List.ext_getElem
      · simp
      · intro column hcolumn _
        rw [List.length_map] at hcolumn
        simp [hcolumn]
    rw [hmap]
    apply mapM_eq_ok
    intro column hcolumn
    have hlt := List.mem_range.mp hcolumn
    have hi := hrange _ (List.getElem_mem hlt)
    obtain ⟨nonce, hnonce, hleaf⟩ := hcommits.leaf _ hi
    have hstored : index proof.merkleTreeNonces column = .ok nonce := by
      rw [index_eq_ok, hnonces, List.getElem?_map,
        List.getElem?_eq_getElem hlt, Option.map_some,
        List.getD_eq_getElem?_getD, hnonce]
      rfl
    rw [hstored, ok_bind, hcolumns, List.getD_eq_getElem _ _ hlt, ← hleaf]
    apply columnLeaf_contents
    rw [List.getElem?_map, List.getElem?_eq_getElem hlt, List.getElem?_range
      (by omega), Nat.add_comm]
    rfl
  obtain ⟨inclusion, hprove, marked, hmark, hsupplied⟩ :=
    MerkleTree.prove_returns hpos hcommits.sized hrange
  rw [hinclusion] at hprove
  obtain rfl := Except.ok.inj hprove
  obtain ⟨filled, hfilled, hlength, hroot⟩ :=
    MerkleTree.fillPartialTree_returns hpos hcommits.sized hcommits.hashed
      (fun _ _ => rfl) hne hrange hmark hsupplied
  have hverify : MerkleTree.verify (Root.ofNode (tree.digest 1)) leaves
      (indices.map tree.leaf) indices proof.inclusionProof = .ok () := by
    rw [MerkleTree.verify, ensure_of (List.length_map _), ok_bind,
      ensure_of hrange, ok_bind, hfilled, ok_bind,
      MerkleTree.index_getD (by omega) none, ok_bind, ensure_of hroot]
  rw [LigeroVerifier.checkInclusion, hnodes, ok_bind, hdblock, ok_bind,
    checkedSub_of_le (by omega), ok_bind, hleaves, Nat.add_sub_cancel_left,
    context_eq_ok, hverify]

end Steps

section Run

variable {F : Type} [Field F] [CodecFieldElement F] [Primitives]
  [SamplesField F] [SamplesNaturals]

/-- What the transcript draws for a proof: the challenges before its tests, and
the indices of the columns after them. -/
def Draws (layout : TableauLayout) (linearLength quadraticLength : Nat)
    (transcript : Transcript) (proof : LigeroProof F)
    (challenges : LigeroChallenges F) (indices : List Nat)
    (last : Transcript) : Prop :=
  ∃ sampled, LigeroChallenges.generate F (writeHashOfA transcript) layout
      linearLength quadraticLength = .ok (challenges, sampled) ∧
    (writeProof sampled proof.lowDegreeTestProof proof.dotProof
      proof.quadraticProof.1
      proof.quadraticProof.2).generateNaturalsWithoutReplacement
        (layout.numColumns - (2 * layout.blockSize - 1))
        layout.numRequestedColumns = .ok (indices, last)

/-- A run of an honest prover: what it draws, the polynomials of its tests, of
which the proof holds the first values, and the columns that it opens. -/
structure HonestRun (point : Nat → F) (layout : TableauLayout)
    (quadraticConstraints : List QuadraticConstraint)
    (linearConstraints : LinearConstraints F) (polynomials : RowPolynomials F)
    (tree : MerkleTree) (transcript : Transcript)
    (challenges : LigeroChallenges F) (low dot quadratic : F[X])
    (indices : List Nat) (proof : LigeroProof F) (last : Transcript) :
    Prop where
  drawn : Draws layout linearConstraints.rhs.length
    quadraticConstraints.length transcript proof challenges indices last
  low_eq : low = polynomials.lowDegreeSum challenges.lowDegreeTestBlind
  dot_eq : ∃ vector parts, innerProductVector layout linearConstraints
      challenges.linearConstraintAlphas quadraticConstraints
      challenges.quadraticConstraintAlphas = .ok vector ∧
    chunks vector layout.witnessesPerRow = .ok parts ∧
    (∀ part ∈ parts,
      layout.numRequestedColumns + part.length = layout.blockSize) ∧
    dot = polynomials.dotSum (parts.map (partPolynomial layout point))
  dot_sum : (valuesAt point layout.witnessColumns dot).sum =
    innerProduct linearConstraints.rhs challenges.linearConstraintAlphas
  quadratic_eq : ∃ linear triples,
    layout.firstQuadraticConstraintRow =
      .ok (TableauLayout.firstWitnessRow + linear) ∧
    layout.numQuadraticTriples = .ok triples ∧
    challenges.quadraticProofBlind.length ≤ triples ∧
    TableauLayout.firstWitnessRow + linear + 3 * triples ≤
      polynomials.all.length ∧
    quadratic = polynomials.quadraticSum
      (TableauLayout.firstWitnessRow + linear) triples
      challenges.quadraticProofBlind
  quadratic_zero : ∀ i, layout.numRequestedColumns ≤ i →
    i < layout.blockSize → quadratic.eval (point i) = 0
  numRows : layout.numRows = .ok polynomials.all.length
  lowDegreeTestProof : proof.lowDegreeTestProof =
    valuesAt point (List.range layout.blockSize) low
  dotProof : proof.dotProof =
    valuesAt point (List.range (2 * layout.blockSize - 1)) dot
  quadraticProof : proof.quadraticProof =
    ((valuesAt point (List.range (2 * layout.blockSize - 1)) quadratic).take
      layout.numRequestedColumns,
    (valuesAt point (List.range (2 * layout.blockSize - 1)) quadratic).drop
      layout.blockSize)
  columns : proof.tableauColumns = polynomials.contents point
    (indices.map (· + (2 * layout.blockSize - 1)))
  nonces : proof.merkleTreeNonces =
    indices.map fun i => tree.nonces.getD i default
  inclusion : tree.prove indices = .ok proof.inclusionProof

variable [DecidableEq F] [ExtendFieldElement F] {point : Nat → F}
  {layout : TableauLayout} {prover : LigeroProver F}
  {verifier : LigeroVerifier F} {witness : Witness F}
  {state : LigeroCommitmentState F} {polynomials : RowPolynomials F}
  {linear triples : Nat} {linearConstraints : LinearConstraints F}

/-- The prover returns a proof. -/
theorem Committed.prove_returns
    (h : Committed point layout witness prover.quadraticConstraints state
      polynomials linear triples)
    (hmatching : Matching point layout prover verifier)
    (hwitness : layout.numWitnesses = witness.values.length)
    (hlinearRange : linearConstraints.InRange layout.numWitnesses)
    (hlinear : linearConstraints.Satisfied fun i => witness.values.getD i 0)
    (hquadraticRange : WitnessesInRange layout.numWitnesses
      prover.quadraticConstraints)
    (hquadratic : ∀ q ∈ prover.quadraticConstraints,
      q.Satisfied fun i => witness.values.getD i 0)
    (transcript : Transcript) :
    Returns (prover.prove transcript state linearConstraints)
      fun (proof, last) => ∃ challenges low dot quadratic indices,
        HonestRun point layout prover.quadraticConstraints linearConstraints
          polynomials state.merkleTree transcript challenges low dot quadratic
          indices proof last := by
  have hvalid := hmatching.valid
  have hdblock : layout.dblock = .ok (2 * layout.blockSize - 1) :=
    hvalid.dblock_eq _ _
  have hle := blockSize_le_dblock hdblock
  have hblock : layout.blockSize =
      layout.numRequestedColumns + layout.witnessesPerRow := hvalid.block
  have hcolumns : 2 * layout.blockSize - 1 + layout.numRequestedColumns <
      layout.numColumns := hvalid.columns
  have hratio : layout.quadraticConstraintsPerRow ≤ layout.witnessesPerRow :=
    hvalid.quadratic_le
  have hblockColumns : layout.blockSize ≤ layout.numColumns := by omega
  have hdblockColumns : 2 * layout.blockSize - 1 ≤ layout.numColumns := by
    omega
  have hfirst : layout.firstQuadraticConstraintRow =
      .ok (TableauLayout.firstWitnessRow + linear) := by
    rw [TableauLayout.firstQuadraticConstraintRow, h.linear_rows]
    rfl
  have hallLength := h.length_all
  have hnumRows := h.numRows
  -- The challenges, and the polynomials of the tests.
  obtain ⟨⟨challenges, sampled⟩, hchallenges, -, halphas, hquadraticAlphas,
    hblinds⟩ := LigeroChallenges.generate_returns (F := F)
      (writeHashOfA transcript) h.linear_rows h.quadratic_triples
      linearConstraints.rhs.length prover.quadraticConstraints.length
  obtain ⟨vector, hvector, hvectorLength, hproduct⟩ :=
    h.innerProductVector_returns hratio ⟨hmatching.quadratic_length, halphas,
      hquadraticAlphas, hlinearRange, hquadraticRange⟩ hwitness hlinear
  obtain ⟨parts, hchunks⟩ : ∃ parts,
      chunks vector layout.witnessesPerRow = .ok parts :=
    ⟨_, chunks_eq_ok.mpr ⟨hvalid.quadratic_pos.trans_le hratio, rfl⟩⟩
  obtain ⟨hpartLengths, hdotSum⟩ := sum_dotSum hmatching.prover_block_ncol.1
    hblockColumns hblock hchunks hvectorLength
  rw [h.encodes.linear_sum, zero_add, hproduct] at hdotSum
  have hparts : ∀ part ∈ parts,
      layout.numRequestedColumns + part.length = layout.blockSize := by
    intro part hmem
    rw [hpartLengths part hmem, hblock]
  obtain ⟨low, hlowEq⟩ : ∃ low, low =
    polynomials.lowDegreeSum challenges.lowDegreeTestBlind := ⟨_, rfl⟩
  obtain ⟨dot, hdotEq⟩ : ∃ dot, dot =
    polynomials.dotSum (parts.map (partPolynomial layout point)) := ⟨_, rfl⟩
  obtain ⟨quadratic, hquadraticEq⟩ : ∃ quadratic, quadratic =
    polynomials.quadraticSum (TableauLayout.firstWitnessRow + linear) triples
      challenges.quadraticProofBlind := ⟨_, rfl⟩
  have hzero : ∀ i, layout.numRequestedColumns ≤ i → i < layout.blockSize →
      quadratic.eval (point i) = 0 := by
    intro i hlow hhigh
    rw [hquadraticEq]
    apply h.quadraticSum_eq_zero hquadratic hblinds
    exact List.mem_range'_1.mpr ⟨hlow, hblock ▸ hhigh⟩
  have hlow := @lowDegreeTestProof_eq_ok F _ layout point polynomials _
    hblockColumns challenges.lowDegreeTestBlind
  have hdot := @dotProof_eq_ok F _ _ layout point polynomials _ _ hdblock
    hdblockColumns _ hmatching.prover_block_dblock _ _ hchunks hparts
  have hquad := quadraticProof_eq_ok hdblock hdblockColumns hfirst
    h.quadratic_triples hblinds.le hallLength.ge (by omega)
    (hquadraticEq ▸ hzero)
  rw [← hlowEq] at hlow
  rw [← hdotEq] at hdot hdotSum
  rw [← hquadraticEq] at hquad
  -- The columns that are opened.
  obtain ⟨⟨indices, last⟩, hindices, -, hcount, -, hlt⟩ :=
    (generateNaturalsWithoutReplacement_returns (writeProof sampled
      (valuesAt point (List.range layout.blockSize) low)
      (valuesAt point (List.range (2 * layout.blockSize - 1)) dot)
      ((valuesAt point (List.range (2 * layout.blockSize - 1))
        quadratic).take layout.numRequestedColumns)
      ((valuesAt point (List.range (2 * layout.blockSize - 1))
        quadratic).drop layout.blockSize))
      (by omega : layout.numRequestedColumns <
        layout.numColumns - (2 * layout.blockSize - 1))).and_ensures
      (generateNaturalsWithoutReplacement_ensures _ _ _)
  have hrange : ∀ i ∈ indices,
      i + (2 * layout.blockSize - 1) < layout.numColumns := by
    intro i hi
    have := hlt i hi
    omega
  have hrevealed := @requestedTableauColumns_contents F _ layout _ _
    polynomials point _ hdblock hnumRows hvalid.nreq_pos hcount hrange
  have hnonces : (indices.mapM fun i => index state.merkleTree.nonces i) =
      .ok (indices.map fun i => state.merkleTree.nonces.getD i default) := by
    apply mapM_eq_ok
    intro i hi
    apply MerkleTree.index_getD
    rw [h.commits.sized.2]
    exact hlt i hi
  obtain ⟨inclusion, hinclusion, -⟩ := MerkleTree.prove_returns
    (by omega : 1 ≤ layout.numColumns - (2 * layout.blockSize - 1))
    h.commits.sized hlt
  refine ⟨(⟨valuesAt point (List.range layout.blockSize) low,
    valuesAt point (List.range (2 * layout.blockSize - 1)) dot,
    ((valuesAt point (List.range (2 * layout.blockSize - 1)) quadratic).take
      layout.numRequestedColumns,
    (valuesAt point (List.range (2 * layout.blockSize - 1)) quadratic).drop
      layout.blockSize),
    polynomials.contents point
      (indices.map (· + (2 * layout.blockSize - 1))), inclusion,
    indices.map fun i => state.merkleTree.nonces.getD i default⟩, last), ?_,
    challenges, low, dot, quadratic, indices,
    ⟨sampled, hchallenges, hindices⟩, hlowEq,
    ⟨vector, parts, hvector, hchunks, hparts, hdotEq⟩, hdotSum,
    ⟨linear, triples, hfirst, h.quadratic_triples, hblinds.le, hallLength.ge,
      hquadraticEq⟩, hzero, hnumRows, rfl, rfl, rfl, rfl, rfl, hinclusion⟩
  rw [LigeroProver.prove]
  simp only [h.layout_eq, h.contents]
  rw [hchallenges, ok_bind]
  simp only
  rw [hlow, ok_bind, hvector, ok_bind, hdot, ok_bind, hquad, ok_bind]
  simp only
  rw [hdblock, ok_bind, checkedSub_of_le hdblockColumns, ok_bind, hindices,
    ok_bind]
  simp only
  rw [hrevealed, ok_bind, hnonces, ok_bind, hinclusion, ok_bind]
  rfl

/-- The verifier accepts the proof of an honest run, and leaves the transcript
as the prover does. -/
theorem HonestRun.verify_eq_ok
    (hcodewords : polynomials.Codewords layout (2 * layout.blockSize - 1))
    (hmatching : Matching point layout prover verifier)
    {tree : MerkleTree} (hcommits : CommitsTo (polynomials.contents point
      (List.range layout.numColumns)) (2 * layout.blockSize - 1)
      (layout.numColumns - (2 * layout.blockSize - 1)) tree)
    {transcript last : Transcript} {challenges : LigeroChallenges F}
    {low dot quadratic : F[X]} {indices : List Nat} {proof : LigeroProof F}
    (h : HonestRun point layout prover.quadraticConstraints linearConstraints
      polynomials tree transcript challenges low dot quadratic indices proof
      last) :
    verifier.verify proof (Root.ofNode (tree.digest 1)) transcript
      linearConstraints = .ok last := by
  obtain rfl := hmatching.verifier_layout
  set layout := verifier.tableauLayout with hlayout
  have hvalid := hmatching.valid
  have hdblock : layout.dblock = .ok (2 * layout.blockSize - 1) :=
    hvalid.dblock_eq _ _
  have hle := blockSize_le_dblock hdblock
  have hblock : layout.blockSize =
      layout.numRequestedColumns + layout.witnessesPerRow := hvalid.block
  have hcolumns : 2 * layout.blockSize - 1 + layout.numRequestedColumns <
      layout.numColumns := hvalid.columns
  have hpoint := hmatching.verifier_block_ncol.1
  have hblockColumns : layout.blockSize ≤ layout.numColumns := by omega
  have hdblockColumns : 2 * layout.blockSize - 1 ≤ layout.numColumns := by
    omega
  obtain ⟨sampled, hchallenges, hindices⟩ := h.drawn
  obtain ⟨vector, parts, hvector, hchunks, hparts, hdotEq⟩ := h.dot_eq
  obtain ⟨linear, triples, hfirst, htriples, hblinds, hrows, hquadraticEq⟩ :=
    h.quadratic_eq
  obtain ⟨hcount, -, hlt⟩ :=
    generateNaturalsWithoutReplacement_ensures _ _ _ _ hindices
  have hne : indices ≠ [] := by
    rintro rfl
    exact absurd hcount.symm (Nat.pos_iff_ne_zero.mp hvalid.nreq_pos)
  have hrange : ∀ i ∈ indices,
      i + (2 * layout.blockSize - 1) < layout.numColumns := by
    intro i hi
    have := hlt i hi
    omega
  -- The degrees of the tests.
  have hlowDegree : low.degree < layout.blockSize := by
    rw [h.low_eq]
    exact hcodewords.degree_lowDegreeSum _
  have hdotDegree : dot.degree < (2 * layout.blockSize - 1 : Nat) := by
    rw [hdotEq]
    apply hcodewords.degree_dotSum hdblock
    intro q hq
    obtain ⟨part, hpart, rfl⟩ := List.mem_map.mp hq
    have hnodes : (List.replicate layout.numRequestedColumns 0 ++
        part).length = layout.blockSize := by
      rw [List.length_append, List.length_replicate, hparts part hpart]
    have hdegree := degree_interpolant_lt hpoint
      (hnodes.trans_le hblockColumns)
    rwa [hnodes] at hdegree
  have hquadraticDegree :
      quadratic.degree < (2 * layout.blockSize - 1 : Nat) := by
    rw [hquadraticEq]
    exact hcodewords.degree_quadraticSum hdblock _ _ _
  have hdotLength : proof.dotProof.length = 2 * layout.blockSize - 1 := by
    rw [h.dotProof, length_valuesAt, List.length_range]
  -- The checks.
  have hlow : verifier.checkLowDegree proof challenges.lowDegreeTestBlind
      indices = .ok () := by
    have hlowLength : proof.lowDegreeTestProof.length = layout.blockSize := by
      rw [h.lowDegreeTestProof, length_valuesAt, List.length_range]
    rw [checkLowDegree_eq hdblock hrange hmatching.verifier_block_ncol
      h.columns hlowLength]
    apply ensure_of
    rw [h.lowDegreeTestProof,
      interpolant_valuesAt hpoint hblockColumns hlowDegree, h.low_eq]
  have hproduct : verifier.checkDotProduct proof linearConstraints.rhs
      challenges.linearConstraintAlphas = .ok () := by
    apply ensure_of
    rw [wantDotProduct_eq, proofDotProduct_eq_sum hpoint
      (hdotLength.trans_le hdblockColumns)
      (hblock.symm.trans_le (hle.trans hdotLength.ge)), h.dotProof,
      interpolant_valuesAt hpoint hdblockColumns hdotDegree, h.dot_sum]
  have hdot : verifier.checkDotRow proof vector indices = .ok () := by
    rw [checkDotRow_eq hdblock hrange hmatching.verifier_block_ncol
      hmatching.verifier_dblock_ncol h.columns hdotLength hchunks hparts]
    apply ensure_of
    rw [h.dotProof, interpolant_valuesAt hpoint hdblockColumns hdotDegree,
      hdotEq]
  have hstitched : proof.stitchedQuadraticProof layout = .ok
      (valuesAt point (List.range (2 * layout.blockSize - 1)) quadratic) := by
    apply stitchedQuadraticProof_eq_ok hdblock (by omega) (by simp) ?_
      h.quadraticProof
    intro i hlow hhigh
    rw [valuesAt_getElem?, List.getElem?_range (by omega), Option.map_some,
      h.quadratic_zero i hlow hhigh]
  have hquad : verifier.checkQuadratic proof challenges.quadraticProofBlind
      indices = .ok () := by
    rw [checkQuadratic_eq hdblock hrange hmatching.verifier_dblock_ncol
      h.columns hstitched hfirst htriples hblinds hrows]
    apply ensure_of
    rw [interpolant_valuesAt hpoint hdblockColumns hquadraticDegree,
      hquadraticEq]
  have hinclusion : verifier.checkInclusion proof
      (Root.ofNode (tree.digest 1)) indices = .ok () :=
    checkInclusion_eq_ok hdblock (Nat.add_sub_cancel' hdblockColumns).symm
      hcommits hne hlt h.columns h.nonces h.inclusion
  rw [LigeroVerifier.verify]
  simp only [hmatching.constraints]
  rw [hchallenges, ok_bind]
  simp only
  rw [hdblock, ok_bind, checkedSub_of_le hdblockColumns, ok_bind, hindices,
    ok_bind]
  simp only
  rw [hlow, ok_bind, hproduct, ok_bind, hvector, ok_bind, hdot, ok_bind, hquad,
    ok_bind, hinclusion, ok_bind]
  rfl

end Run

section New

variable {F : Type} [Field F] [DecidableEq F] [ExtendFieldElement F]
  {point : Nat → F} {circuit : Circuit F} {parameters : LigeroParameters}
  {prover : LigeroProver F} {verifier : LigeroVerifier F}

omit [DecidableEq F] in
/-- A prover and a verifier can be constructed for the same circuit and
parameters, and they match. -/
theorem new_returns (hvalid : parameters.Valid)
    (hextend : InterpolatesUpTo point parameters.numColumns)
    {layout : WitnessLayout}
    (hlayout : WitnessLayout.fromCircuit circuit = .ok layout)
    {constraints : List QuadraticConstraint}
    (hconstraints : quadraticConstraints circuit layout = .ok constraints) :
    ∃ (prover : LigeroProver F) (verifier : LigeroVerifier F),
      LigeroProver.new circuit parameters = .ok prover ∧
      LigeroVerifier.new circuit parameters = .ok verifier ∧
      prover.witnessLayout = layout ∧
      prover.quadraticConstraints = constraints ∧
      Matching point ⟨parameters, layout.length, constraints.length⟩ prover
        verifier := by
  have hblock := hvalid.block
  have hnreq := hvalid.nreq_pos
  have hwitnesses := hvalid.quadratic_pos.trans_le hvalid.quadratic_le
  have hcolumns := hvalid.columns
  obtain ⟨blockNcol, hblockNcol, hblockNcolExtends⟩ :=
    hextend parameters.blockSize parameters.numColumns (by omega) (by omega)
      le_rfl
  obtain ⟨dblockNcol, hdblockNcol, hdblockNcolExtends⟩ :=
    hextend (2 * parameters.blockSize - 1) parameters.numColumns (by omega)
      (by omega) le_rfl
  obtain ⟨blockDblock, hblockDblock, hblockDblockExtends⟩ :=
    hextend parameters.blockSize (2 * parameters.blockSize - 1) (by omega)
      (by omega) (by omega)
  refine ⟨⟨parameters, layout, constraints, blockNcol, dblockNcol,
    blockDblock⟩, ⟨constraints, ⟨parameters, layout.length,
      constraints.length⟩, blockNcol, dblockNcol⟩, ?_, ?_, rfl, rfl, hvalid,
    rfl, rfl, rfl, rfl, hblockNcolExtends, hdblockNcolExtends,
    hblockDblockExtends, hblockNcolExtends, hdblockNcolExtends⟩
  · rw [LigeroProver.new, hlayout, ok_bind, hconstraints, ok_bind]
    simp only [TableauLayout.blockSize, TableauLayout.numColumns]
    rw [hvalid.dblock_eq, ok_bind, hblockNcol, ok_bind, hdblockNcol, ok_bind,
      hblockDblock, ok_bind]
    rfl
  · rw [LigeroVerifier.new, hlayout, ok_bind, hconstraints, ok_bind]
    simp only [TableauLayout.blockSize, TableauLayout.numColumns]
    rw [hblockNcol, ok_bind, hvalid.dblock_eq, ok_bind, hdblockNcol, ok_bind]
    rfl

omit [DecidableEq F] in
/-- A prover and a verifier that are constructed for the same circuit and
parameters match. -/
theorem matching_of_new (hvalid : parameters.Valid)
    (hextend : InterpolatesUpTo point parameters.numColumns)
    (hprover : LigeroProver.new circuit parameters = .ok prover)
    (hverifier : LigeroVerifier.new circuit parameters = .ok verifier) :
    WitnessLayout.fromCircuit circuit = .ok prover.witnessLayout ∧
    quadraticConstraints circuit prover.witnessLayout =
      .ok prover.quadraticConstraints ∧
    Matching point ⟨parameters, prover.witnessLayout.length,
      prover.quadraticConstraints.length⟩ prover verifier := by
  have hresult := hprover
  obtain ⟨layout, hlayout, hresult⟩ := Exec.bind_eq_ok.mp hresult
  obtain ⟨constraints, hconstraints, -⟩ := Exec.bind_eq_ok.mp hresult
  obtain ⟨prover', verifier', hprover', hverifier', rfl, rfl, hmatching⟩ :=
    new_returns hvalid hextend hlayout hconstraints
  rw [hprover] at hprover'
  rw [hverifier] at hverifier'
  cases hprover'
  cases hverifier'
  exact ⟨hlayout, hconstraints, hmatching⟩

omit [Field F] [DecidableEq F] [ExtendFieldElement F] in
/-- The quadratic constraints of a circuit are between its witnesses. -/
theorem witnessesInRange_of_circuit {layout : WitnessLayout}
    {constraints : List QuadraticConstraint}
    (h : quadraticConstraints circuit layout = .ok constraints) :
    WitnessesInRange layout.length constraints := by
  intro q hq
  obtain ⟨layer, hlayer, rfl⟩ := quadraticConstraints_eq_ok h q hq
  have hlt := Sumcheck.wireStart_add_two_lt hlayer
  exact ⟨(Nat.le_add_right _ 2).trans_lt hlt,
    (Nat.lt_succ_self _).trans hlt, hlt⟩

variable [CodecFieldElement F] [Primitives] [SamplesField F] [SamplesNaturals]

end New

section Sample

open scoped Silent

end Sample

end Longfellow.Ligero
