/-
The tests of Ligero as identities of polynomials: when the rows of the tableau
are codewords, the prover computes the values of a polynomial, and the verifier
compares its values at the requested columns with those of another one.
-/
import Longfellow.Lib.Codewords
import Longfellow.Ligero.InnerProduct
import Longfellow.Ligero.Verifier

namespace Longfellow.Ligero

open Exec Polynomial ReedSolomon

/-- The polynomials whose values the rows of a tableau are. -/
structure RowPolynomials (F : Type) [Semiring F] where
  low : F[X]
  linear : F[X]
  quadratic : F[X]
  rows : List F[X]

namespace RowPolynomials

section Sums

variable {F : Type} [Field F] (polynomials : RowPolynomials F)

noncomputable def all : List F[X] :=
  polynomials.low :: polynomials.linear :: polynomials.quadratic ::
    polynomials.rows

/-- Add multiples of polynomials, or their products with others. -/
noncomputable def addCombination (start : F[X]) (terms : List (F[X] × F[X])) :
    F[X] :=
  terms.foldl (fun sum (factor, row) => sum + factor * row) start

/-- The polynomial of the low degree test. -/
noncomputable def lowDegreeSum (blinds : List F) : F[X] :=
  addCombination polynomials.low ((blinds.map C).zip polynomials.rows)

/-- The polynomial of the dot proof, of which the parts of the inner product
vector are given as polynomials. -/
noncomputable def dotSum (parts : List F[X]) : F[X] :=
  addCombination polynomials.linear (parts.zip polynomials.rows)

/-- What a triple of quadratic rows is tested for: the difference of the `z`
and the product of the `x` and the `y`. -/
noncomputable def difference (firstXRow triples i : Nat) : F[X] :=
  polynomials.all.getD (firstXRow + triples + triples + i) 0 -
    polynomials.all.getD (firstXRow + i) 0 *
      polynomials.all.getD (firstXRow + triples + i) 0

/-- The polynomial of the quadratic test. -/
noncomputable def quadraticSum (firstXRow triples : Nat) (blinds : List F) :
    F[X] :=
  addCombination polynomials.quadratic (blinds.zipIdx.map fun (blind, i) =>
    (C blind, polynomials.difference firstXRow triples i))

end Sums

/-- The rows as lists of values. -/
noncomputable def contents {F : Type} [Field F]
    (polynomials : RowPolynomials F) (point : Nat → F) (indices : List Nat) :
    List (List F) :=
  polynomials.all.map (valuesAt point indices)

end RowPolynomials

section Values

variable {F : Type} [Field F] {point : Nat → F} {indices : List Nat}

/-- Adding products of values gives the values of the sum of products, as far
as the first list goes. -/
theorem addProducts_valuesAt (indices' indices'' : List Nat) (p q r : F[X]) :
    addProducts (valuesAt point indices p)
        (valuesAt point (indices ++ indices') q)
        (valuesAt point (indices ++ indices'') r) =
      valuesAt point indices (p + q * r) := by
  induction indices with
  | nil => rfl
  | cons i indices ih =>
      simp only [valuesAt, List.cons_append, List.map_cons, addProducts] at ih ⊢
      rw [ih, eval_add, eval_mul]

theorem replicate_eq_valuesAt (blind : F) :
    List.replicate indices.length blind = valuesAt point indices (C blind) := by
  simp [valuesAt]

/-- The loop over rows and blinds. -/
theorem foldl_addProducts_blinds (indices' : List Nat) (start : F[X])
    (rows : List F[X]) (blinds : List F) :
    ((rows.map (valuesAt point (indices ++ indices'))).zip blinds).foldl
        (fun proof (row, blind) =>
          addProducts proof (List.replicate row.length blind) row)
        (valuesAt point indices start) =
      valuesAt point indices
        (RowPolynomials.addCombination start ((blinds.map C).zip rows)) := by
  induction rows generalizing blinds start with
  | nil =>
      rw [List.map_nil, List.zip_nil_left, List.foldl_nil, List.zip_nil_right]
      rfl
  | cons row rows ih =>
      cases blinds with
      | nil => rfl
      | cons blind blinds =>
          rw [List.map_cons, List.zip_cons_cons, List.foldl_cons]
          simp only [length_valuesAt]
          rw [replicate_eq_valuesAt blind,
            addProducts_valuesAt, ih]
          rfl

/-- The loop over the parts of the inner product vector and the rows. -/
theorem foldlM_products {indices' : List Nat} {partPolynomial : List F → F[X]}
    {f : List F → List F × List F → Exec (List F)} {parts : List (List F)}
    (hf : ∀ part ∈ parts, ∀ p row,
      f (valuesAt point indices p) (part, valuesAt point indices' row) =
        .ok (valuesAt point indices (p + partPolynomial part * row)))
    (start : F[X]) (rows : List F[X]) :
    (parts.zip (rows.map (valuesAt point indices'))).foldlM f
        (valuesAt point indices start) =
      .ok (valuesAt point indices (RowPolynomials.addCombination start
        ((parts.map partPolynomial).zip rows))) := by
  induction parts generalizing rows start with
  | nil => rfl
  | cons part parts ih =>
      cases rows with
      | nil => rfl
      | cons row rows =>
          rw [List.map_cons, List.zip_cons_cons, List.foldlM_cons,
            hf part List.mem_cons_self, ok_bind,
            ih fun part hmem => hf part (List.mem_cons_of_mem _ hmem)]
          rfl

theorem zipWith_difference (x y z : F[X]) :
    List.zipWith (fun (x, y) z => z - x * y)
        ((valuesAt point indices x).zip (valuesAt point indices y))
        (valuesAt point indices z) =
      valuesAt point indices (z - x * y) := by
  simp [valuesAt, List.zip_map', List.zipWith_map_left, List.zipWith_map_right,
    List.zipWith_self]

/-- Add the multiple of the differences of a triple of rows. -/
def addDifferences (contents : List (List F)) (firstXRow triples : Nat)
    (proof : List F) (pair : F × Nat) : Exec (List F) := do
  let xRow ← index contents (firstXRow + pair.2)
  let yRow ← index contents (firstXRow + triples + pair.2)
  let zRow ← index contents (firstXRow + triples + triples + pair.2)
  let differences := List.zipWith (fun (x, y) z => z - x * y)
    (xRow.zip yRow) zRow
  pure (addProducts proof (List.replicate differences.length pair.1)
    differences)

/-- The loop over the triples of quadratic rows. -/
theorem foldlM_addDifferences (polynomials : RowPolynomials F)
    (indices' : List Nat) {firstXRow triples : Nat} {blinds : List F}
    (hblinds : blinds.length ≤ triples)
    (hrows : firstXRow + 3 * triples ≤ polynomials.all.length) :
    blinds.zipIdx.foldlM (addDifferences
        (polynomials.contents point (indices ++ indices')) firstXRow triples)
        (valuesAt point indices polynomials.quadratic) =
      .ok (valuesAt point indices
        (polynomials.quadraticSum firstXRow triples blinds)) := by
  have hrow {i : Nat} (hi : i < polynomials.all.length) :
      index (polynomials.contents point (indices ++ indices')) i =
        .ok (valuesAt point (indices ++ indices')
          (polynomials.all.getD i 0)) := by
    rw [RowPolynomials.contents, index_eq_ok, List.getElem?_map,
      List.getElem?_eq_getElem hi, List.getD_eq_getElem _ _ hi]
    rfl
  have hloop (pairs : List (F × Nat)) (start : F[X])
      (hpairs : ∀ pair ∈ pairs, pair.2 < triples) :
      pairs.foldlM (addDifferences
        (polynomials.contents point (indices ++ indices')) firstXRow triples)
        (valuesAt point indices start) =
      .ok (valuesAt point indices (pairs.foldl (fun sum pair =>
        sum + C pair.1 * polynomials.difference firstXRow triples pair.2)
          start)) := by
    induction pairs generalizing start with
    | nil => rfl
    | cons pair pairs ih =>
        have hi := hpairs pair List.mem_cons_self
        have hstep : addDifferences
            (polynomials.contents point (indices ++ indices')) firstXRow triples
            (valuesAt point indices start) pair = .ok (valuesAt point indices
              (start + C pair.1 *
                polynomials.difference firstXRow triples pair.2)) := by
          rw [addDifferences, hrow (by omega), ok_bind, hrow (by omega),
            ok_bind, hrow (by omega), ok_bind, zipWith_difference]
          simp only [length_valuesAt, pure_eq_ok]
          rw [replicate_eq_valuesAt, addProducts_valuesAt]
          rfl
        rw [List.foldlM_cons, hstep, ok_bind,
          ih _ fun pair hmem => hpairs pair (List.mem_cons_of_mem _ hmem)]
        rfl
  rw [RowPolynomials.quadraticSum, RowPolynomials.addCombination,
    List.foldl_map]
  refine hloop _ _ fun pair hmem => ?_
  obtain ⟨i, hi⟩ := List.mem_iff_getElem?.mp hmem
  rw [List.getElem?_zipIdx] at hi
  obtain ⟨blind, hblind, rfl⟩ := Option.map_eq_some_iff.mp hi
  obtain ⟨hlt, -⟩ := List.getElem?_eq_some_iff.mp hblind
  simp only [Nat.zero_add]
  omega

end Values

section Prover

variable {F : Type} [Field F] [ExtendFieldElement F] {layout : TableauLayout}
  {point : Nat → F} {polynomials : RowPolynomials F} {m dblock : Nat}

omit [ExtendFieldElement F] in
theorem rowUpTo_eq_ok {row column : Nat} {p : F[X]}
    (hrow : polynomials.all[row]? = some p) (hcolumn : column ≤ m) :
    rowUpTo (polynomials.contents point (List.range m)) row column =
      .ok (valuesAt point (List.range column) p) := by
  have helements : index (polynomials.contents point (List.range m)) row =
      .ok (valuesAt point (List.range m) p) := by
    rw [RowPolynomials.contents, index_eq_ok, List.getElem?_map, hrow]
    rfl
  have hle : column ≤ (valuesAt point (List.range m) p).length := by
    rwa [length_valuesAt, List.length_range]
  rw [rowUpTo, helements, ok_bind, assert_of hle, ok_bind,
    take_valuesAt hcolumn]
  rfl

theorem range_split {n m : Nat} (h : n ≤ m) :
    ∃ indices, List.range m = List.range n ++ indices := by
  obtain ⟨k, rfl⟩ := Nat.exists_eq_add_of_le h
  exact ⟨_, List.range_add⟩

omit [ExtendFieldElement F] in
theorem drop_contents (indices : List Nat) :
    (polynomials.contents point indices).drop TableauLayout.firstWitnessRow =
      polynomials.rows.map (valuesAt point indices) :=
  rfl

omit [ExtendFieldElement F] in
/-- The low degree test is the first values of its polynomial. -/
theorem lowDegreeTestProof_eq_ok (hle : layout.blockSize ≤ m)
    (blinds : List F) :
    lowDegreeTestProof layout (polynomials.contents point (List.range m))
        blinds =
      .ok (valuesAt point (List.range layout.blockSize)
        (polynomials.lowDegreeSum blinds)) := by
  have hrow : rowUpTo (polynomials.contents point (List.range m))
      TableauLayout.lowDegreeTestRow layout.blockSize =
        .ok (valuesAt point (List.range layout.blockSize) polynomials.low) :=
    rowUpTo_eq_ok rfl hle
  obtain ⟨indices, hsplit⟩ := range_split hle
  rw [lowDegreeTestProof, hrow, ok_bind, drop_contents, hsplit,
    foldl_addProducts_blinds]
  rfl

/-- The polynomial of a part of the inner product vector, which is zero at the
positions of the random elements. -/
noncomputable def partPolynomial (layout : TableauLayout) (point : Nat → F)
    (part : List F) : F[X] :=
  interpolant point (List.replicate layout.numRequestedColumns 0 ++ part)

/-- The dot proof is the first values of its polynomial. -/
theorem dotProof_eq_ok (hdblock : layout.dblock = .ok dblock)
    (hle : dblock ≤ m) {extendContextBlockDblock : ExtendContext F}
    (hextend : Interpolates point layout.blockSize dblock
      extendContextBlockDblock)
    {vector : List F} {parts : List (List F)}
    (hchunks : chunks vector layout.witnessesPerRow = .ok parts)
    (hparts : ∀ part ∈ parts,
      layout.numRequestedColumns + part.length = layout.blockSize) :
    dotProof layout (polynomials.contents point (List.range m)) vector
        extendContextBlockDblock =
      .ok (valuesAt point (List.range dblock)
        (polynomials.dotSum (parts.map (partPolynomial layout point)))) := by
  have hrow : rowUpTo (polynomials.contents point (List.range m))
      TableauLayout.dotProofRow dblock =
        .ok (valuesAt point (List.range dblock) polynomials.linear) :=
    rowUpTo_eq_ok rfl hle
  have hstep : ∀ part ∈ parts, ∀ p row, addDotProduct layout dblock
      extendContextBlockDblock (valuesAt point (List.range dblock) p)
      (part, valuesAt point (List.range m) row) =
        .ok (valuesAt point (List.range dblock)
          (p + partPolynomial layout point part * row)) := by
    intro part hmem p row
    have hlength : (List.replicate layout.numRequestedColumns 0 ++
        part).length = layout.blockSize := by
      rw [List.length_append, List.length_replicate, hparts part hmem]
    have hproducts := @addProducts_valuesAt F _ point (List.range dblock) [] []
      p (partPolynomial layout point part) row
    rw [List.append_nil] at hproducts
    rw [addDotProduct]
    simp only [assert_of hlength, ok_bind, hextend.2 _ hlength]
    rw [take_valuesAt hle, extension_eq_valuesAt, ← partPolynomial, hproducts]
    rfl
  rw [dotProof, hdblock, ok_bind, hrow, ok_bind, hchunks, ok_bind,
    drop_contents, foldlM_products hstep, ok_bind,
    assert_of (by simp), ok_bind]
  rfl

omit [ExtendFieldElement F] in
/-- The quadratic proof is the first values of its polynomial, without those
that must be zero. -/
theorem quadraticProof_eq_ok [DecidableEq F]
    (hdblock : layout.dblock = .ok dblock) (hle : dblock ≤ m)
    {firstXRow triples : Nat}
    (hfirst : layout.firstQuadraticConstraintRow = .ok firstXRow)
    (htriples : layout.numQuadraticTriples = .ok triples) {blinds : List F}
    (hblinds : blinds.length ≤ triples)
    (hrows : firstXRow + 3 * triples ≤ polynomials.all.length)
    (hblock : layout.numRequestedColumns ≤ layout.blockSize)
    (hzero : ∀ i, layout.numRequestedColumns ≤ i → i < layout.blockSize →
      (polynomials.quadraticSum firstXRow triples blinds).eval (point i) = 0) :
    quadraticProof layout (polynomials.contents point (List.range m)) blinds =
      .ok ((valuesAt point (List.range dblock)
          (polynomials.quadraticSum firstXRow triples blinds)).take
            layout.numRequestedColumns,
        (valuesAt point (List.range dblock)
          (polynomials.quadraticSum firstXRow triples blinds)).drop
            layout.blockSize) := by
  have hrow : rowUpTo (polynomials.contents point (List.range m))
      TableauLayout.quadraticTestRow dblock =
        .ok (valuesAt point (List.range dblock) polynomials.quadratic) :=
    rowUpTo_eq_ok rfl hle
  obtain ⟨indices, hsplit⟩ := range_split hle
  have hloop := @foldlM_addDifferences F _ point (List.range dblock)
    polynomials indices _ _ _ hblinds hrows
  rw [← hsplit] at hloop
  have hmiddle : (((valuesAt point (List.range dblock)
      (polynomials.quadraticSum firstXRow triples blinds)).take
        layout.blockSize).drop layout.numRequestedColumns).all (· = 0) := by
    rw [take_valuesAt (blockSize_le_dblock hdblock), List.all_eq_true]
    intro x hx
    obtain ⟨i, hi, rfl⟩ := List.mem_iff_getElem.mp hx
    rw [List.length_drop, length_valuesAt, List.length_range] at hi
    rw [decide_eq_true_eq, List.getElem_drop]
    simp only [valuesAt, List.getElem_map, List.getElem_range]
    exact hzero _ (Nat.le_add_right _ _) (by omega)
  rw [quadraticProof, hdblock, ok_bind, hrow, ok_bind, hfirst, ok_bind,
    htriples, ok_bind]
  change (do
    let proof ← blinds.zipIdx.foldlM (addDifferences
      (polynomials.contents point (List.range m)) firstXRow triples)
        (valuesAt point (List.range dblock) polynomials.quadratic)
    let _ ← checkedSub layout.blockSize layout.numRequestedColumns
    assert (((proof.take layout.blockSize).drop
      layout.numRequestedColumns).all (· = 0)) "assertion `left == right` failed"
    pure (proof.take layout.numRequestedColumns,
      proof.drop layout.blockSize)) = _
  rw [hloop, ok_bind, checkedSub_of_le hblock, ok_bind, assert_of hmiddle,
    ok_bind]
  rfl

end Prover

section Verifier

variable {F : Type} [Field F] [DecidableEq F] [ExtendFieldElement F]
  {verifier : LigeroVerifier F} {proof : LigeroProof F} {point : Nat → F}
  {polynomials : RowPolynomials F} {dblock : Nat} {indices : List Nat}

omit [DecidableEq F] [ExtendFieldElement F] in
theorem gather_eq_ok {layout : TableauLayout} {m : Nat}
    (hdblock : layout.dblock = .ok dblock)
    (hrange : ∀ i ∈ indices, i + dblock < m) (p : F[X]) :
    layout.gather (valuesAt point (List.range m) p) indices =
      .ok (valuesAt point (indices.map (· + dblock)) p) := by
  have hmap : valuesAt point (indices.map (· + dblock)) p =
      indices.map fun i => p.eval (point (i + dblock)) :=
    List.map_map
  rw [TableauLayout.gather, hmap]
  apply mapM_eq_ok
  intro i hi
  rw [valuesAt, hdblock, ok_bind, index_eq_ok, List.getElem?_map,
    List.getElem?_range (hrange i hi)]
  rfl

omit [DecidableEq F] [ExtendFieldElement F] in
theorem index_contents {row : Nat} {p : F[X]} {indices : List Nat}
    (hrow : polynomials.all[row]? = some p) :
    index (polynomials.contents point indices) row =
      .ok (valuesAt point indices p) := by
  rw [RowPolynomials.contents, index_eq_ok, List.getElem?_map, hrow]
  rfl

/-- The low degree test compares its polynomial with that of the proof. -/
theorem checkLowDegree_eq
    (hdblock : verifier.tableauLayout.dblock = .ok dblock)
    (hrange : ∀ i ∈ indices, i + dblock < verifier.tableauLayout.numColumns)
    (hextend : Interpolates point verifier.tableauLayout.blockSize
      verifier.tableauLayout.numColumns verifier.extendContextBlockNcol)
    (hcolumns : proof.tableauColumns =
      polynomials.contents point (indices.map (· + dblock)))
    (hlength : proof.lowDegreeTestProof.length =
      verifier.tableauLayout.blockSize) (blinds : List F) :
    verifier.checkLowDegree proof blinds indices = ensure
      (valuesAt point (indices.map (· + dblock))
          (polynomials.lowDegreeSum blinds) =
        valuesAt point (indices.map (· + dblock))
          (interpolant point proof.lowDegreeTestProof))
      "low degree test proof mismatch" := by
  have hrow : index proof.tableauColumns TableauLayout.lowDegreeTestRow =
      .ok (valuesAt point (indices.map (· + dblock)) polynomials.low) := by
    rw [hcolumns]
    exact index_contents rfl
  have hfold := @foldl_addProducts_blinds F _ point
    (indices.map (· + dblock)) [] polynomials.low polynomials.rows blinds
  rw [List.append_nil] at hfold
  rw [LigeroVerifier.checkLowDegree, hrow, ok_bind, hextend.2 _ hlength,
    ok_bind, extension_eq_valuesAt, gather_eq_ok hdblock hrange, ok_bind,
    hcolumns, drop_contents, hfold]
  rfl

omit [DecidableEq F] in
/-- The sum of the dot proof over the witnesses. -/
theorem proofDotProduct_eq : verifier.proofDotProduct proof =
    ((proof.dotProof.drop verifier.tableauLayout.numRequestedColumns).take
      verifier.tableauLayout.witnessesPerRow).sum := by
  rw [LigeroVerifier.proofDotProduct, List.sum_eq_foldl]

omit [DecidableEq F] [ExtendFieldElement F] in
theorem wantDotProduct_eq (rhs alphas : List F) :
    LigeroVerifier.wantDotProduct rhs alphas = innerProduct rhs alphas := by
  rw [LigeroVerifier.wantDotProduct, innerProduct, List.sum_eq_foldl,
    ← List.map_uncurry_zip_eq_zipWith, List.foldl_map]
  rfl

/-- The dot proof is compared with its polynomial. -/
theorem checkDotRow_eq
    (hdblock : verifier.tableauLayout.dblock = .ok dblock)
    (hrange : ∀ i ∈ indices, i + dblock < verifier.tableauLayout.numColumns)
    (hblock : Interpolates point verifier.tableauLayout.blockSize
      verifier.tableauLayout.numColumns verifier.extendContextBlockNcol)
    (hextend : Interpolates point dblock verifier.tableauLayout.numColumns
      verifier.extendContextDblockNcol)
    (hcolumns : proof.tableauColumns =
      polynomials.contents point (indices.map (· + dblock)))
    (hlength : proof.dotProof.length = dblock)
    {vector : List F} {parts : List (List F)}
    (hchunks : chunks vector verifier.tableauLayout.witnessesPerRow =
      .ok parts)
    (hparts : ∀ part ∈ parts, verifier.tableauLayout.numRequestedColumns +
      part.length = verifier.tableauLayout.blockSize) :
    verifier.checkDotRow proof vector indices = ensure
      (valuesAt point (indices.map (· + dblock)) (polynomials.dotSum
          (parts.map (partPolynomial verifier.tableauLayout point))) =
        valuesAt point (indices.map (· + dblock))
          (interpolant point proof.dotProof))
      "dot proof mismatch" := by
  have hrow : index proof.tableauColumns TableauLayout.dotProofRow =
      .ok (valuesAt point (indices.map (· + dblock)) polynomials.linear) := by
    rw [hcolumns]
    exact index_contents rfl
  have hstep : ∀ part ∈ parts, ∀ p row, verifier.addRevealedProduct indices
      (valuesAt point (indices.map (· + dblock)) p)
      (part, valuesAt point (indices.map (· + dblock)) row) =
        .ok (valuesAt point (indices.map (· + dblock))
          (p + partPolynomial verifier.tableauLayout point part * row)) := by
    intro part hmem p row
    have hlength : (List.replicate verifier.tableauLayout.numRequestedColumns
        0 ++ part).length = verifier.tableauLayout.blockSize := by
      rw [List.length_append, List.length_replicate, hparts part hmem]
    have hproducts := @addProducts_valuesAt F _ point
      (indices.map (· + dblock)) [] [] p
      (partPolynomial verifier.tableauLayout point part) row
    rw [List.append_nil] at hproducts
    rw [LigeroVerifier.addRevealedProduct]
    simp only [hblock.2 _ hlength, ok_bind, extension_eq_valuesAt,
      gather_eq_ok hdblock hrange]
    rw [← partPolynomial, hproducts]
    rfl
  have hrows : TableauLayout.firstWitnessRow ≤
      proof.tableauColumns.length := by
    rw [hcolumns, RowPolynomials.contents, List.length_map]
    exact Nat.le_add_left 3 _
  rw [LigeroVerifier.checkDotRow, hrow, ok_bind, hchunks, ok_bind,
    assert_of hrows, ok_bind, hcolumns, drop_contents,
    foldlM_products hstep, ok_bind, hextend.2 _ hlength, ok_bind,
    extension_eq_valuesAt, gather_eq_ok hdblock hrange, ok_bind]
  rfl

/-- The quadratic proof is compared with its polynomial. -/
theorem checkQuadratic_eq
    (hdblock : verifier.tableauLayout.dblock = .ok dblock)
    (hrange : ∀ i ∈ indices, i + dblock < verifier.tableauLayout.numColumns)
    (hextend : Interpolates point dblock verifier.tableauLayout.numColumns
      verifier.extendContextDblockNcol)
    (hcolumns : proof.tableauColumns =
      polynomials.contents point (indices.map (· + dblock)))
    {stitched : List F} (hstitched :
      proof.stitchedQuadraticProof verifier.tableauLayout = .ok stitched)
    {firstXRow triples : Nat}
    (hfirst : verifier.tableauLayout.firstQuadraticConstraintRow =
      .ok firstXRow)
    (htriples : verifier.tableauLayout.numQuadraticTriples = .ok triples)
    {blinds : List F} (hblinds : blinds.length ≤ triples)
    (hrows : firstXRow + 3 * triples ≤ polynomials.all.length) :
    verifier.checkQuadratic proof blinds indices = ensure
      (valuesAt point (indices.map (· + dblock))
          (polynomials.quadraticSum firstXRow triples blinds) =
        valuesAt point (indices.map (· + dblock))
          (interpolant point stitched))
      "quadratic proof mismatch" := by
  have hrow : index proof.tableauColumns TableauLayout.quadraticTestRow =
      .ok (valuesAt point (indices.map (· + dblock))
        polynomials.quadratic) := by
    rw [hcolumns]
    exact index_contents rfl
  have hlength : stitched.length = dblock := by
    obtain ⟨dblock', hdblock', hstitched⟩ := Exec.bind_eq_ok.mp hstitched
    rw [hdblock] at hdblock'
    obtain rfl := Except.ok.inj hdblock'
    obtain ⟨_, hassert, hstitched⟩ := Exec.bind_eq_ok.mp hstitched
    cases hstitched
    exact assert_eq_ok.mp hassert
  have hloop := @foldlM_addDifferences F _ point (indices.map (· + dblock))
    polynomials [] _ _ _ hblinds hrows
  rw [List.append_nil, ← hcolumns] at hloop
  rw [LigeroVerifier.checkQuadratic, hrow, ok_bind, hfirst, ok_bind, htriples,
    ok_bind]
  change (do
    let want ← blinds.zipIdx.foldlM
      (addDifferences proof.tableauColumns firstXRow triples)
      (valuesAt point (indices.map (· + dblock)) polynomials.quadratic)
    let stitched ← proof.stitchedQuadraticProof verifier.tableauLayout
    let extended ← extend stitched verifier.extendContextDblockNcol
    let row ← verifier.tableauLayout.gather extended indices
    ensure (want = row) "quadratic proof mismatch") = _
  rw [hloop, ok_bind, hstitched, ok_bind, hextend.2 _ hlength, ok_bind,
    extension_eq_valuesAt, gather_eq_ok hdblock hrange, ok_bind]

end Verifier

end Longfellow.Ligero
