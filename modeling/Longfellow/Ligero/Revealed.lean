/-
What the checks of the verifier say about each revealed column, whatever its
elements are: an equation between them and the values of the proof's
polynomials at the point of the column.
-/
import Longfellow.Ligero.ProofCodec
import Longfellow.Ligero.Region

namespace Longfellow.Ligero

open Exec Polynomial ReedSolomon

section Columns

variable {F : Type} [Field F]

/-- A column of some rows. -/
def column (contents : List (List F)) (i : Nat) : List F :=
  contents.map fun row => row.getD i 0

@[simp] theorem length_column (contents : List (List F)) (i : Nat) :
    (column contents i).length = contents.length :=
  List.length_map _

/-- The low degree test of a column. -/
def lowDegreeValue (column blinds : List F) : F :=
  column.getD TableauLayout.lowDegreeTestRow 0 +
    innerProduct blinds (column.drop TableauLayout.firstWitnessRow)

/-- The dot proof of a column, from the elements of the inner product vector
at its point. -/
def dotValue (column parts : List F) : F :=
  column.getD TableauLayout.dotProofRow 0 +
    innerProduct parts (column.drop TableauLayout.firstWitnessRow)

/-- What a triple of quadratic rows is tested for in a column. -/
def differenceValue (column : List F) (firstXRow triples i : Nat) : F :=
  column.getD (firstXRow + triples + triples + i) 0 -
    column.getD (firstXRow + i) 0 * column.getD (firstXRow + triples + i) 0

/-- The quadratic test of a column. -/
def quadraticValue (column : List F) (firstXRow triples : Nat)
    (blinds : List F) : F :=
  column.getD TableauLayout.quadraticTestRow 0 +
    (blinds.zipIdx.map fun (blind, i) =>
      blind * differenceValue column firstXRow triples i).sum

namespace RowPolynomials

variable (polynomials : RowPolynomials F) (x : F)

/-- The values of all rows at a point. -/
noncomputable def column : List F := polynomials.all.map (eval x)

theorem column_getD (row : Nat) :
    (polynomials.column x).getD row 0 =
      (polynomials.all.getD row 0).eval x := by
  rw [column, List.getD_eq_getElem?_getD, List.getD_eq_getElem?_getD,
    List.getElem?_map]
  cases polynomials.all[row]? with
  | none => exact eval_zero.symm
  | some p => rfl

theorem eval_addCombination_zip (start : F[X]) (factors rows : List F[X]) :
    (addCombination start (factors.zip rows)).eval x = start.eval x +
      innerProduct (factors.map (eval x)) (rows.map (eval x)) := by
  rw [eval_addCombination, innerProduct, List.zipWith_map,
    ← List.map_uncurry_zip_eq_zipWith]
  rfl

theorem eval_lowDegreeSum (blinds : List F) :
    (polynomials.lowDegreeSum blinds).eval x =
      lowDegreeValue (polynomials.column x) blinds := by
  rw [lowDegreeSum, eval_addCombination_zip, List.map_map, lowDegreeValue]
  have hfactors : eval x ∘ C = (id : F → F) := funext fun blind => eval_C
  rw [hfactors, List.map_id]
  rfl

theorem eval_dotSum (parts : List F[X]) :
    (polynomials.dotSum parts).eval x =
      dotValue (polynomials.column x) (parts.map (eval x)) :=
  eval_addCombination_zip x _ _ _

theorem eval_difference (firstXRow triples i : Nat) :
    (polynomials.difference firstXRow triples i).eval x =
      differenceValue (polynomials.column x) firstXRow triples i := by
  rw [difference, eval_sub, eval_mul, differenceValue, column_getD,
    column_getD, column_getD]

theorem eval_quadraticSum (firstXRow triples : Nat) (blinds : List F) :
    (polynomials.quadraticSum firstXRow triples blinds).eval x =
      quadraticValue (polynomials.column x) firstXRow triples blinds := by
  rw [quadraticSum, eval_addCombination, List.map_map, quadraticValue]
  simp only [Function.comp_def, eval_C, eval_difference]
  rfl

end RowPolynomials

/-- Any rows are the values of polynomials at distinct points. -/
theorem exists_contents {point : Nat → F} {m : Nat}
    (hpoint : Set.InjOn point (Set.Iio m)) {indices : List Nat}
    (hnodup : indices.Nodup) (hlt : ∀ i ∈ indices, i < m)
    {contents : List (List F)}
    (hcount : TableauLayout.firstWitnessRow ≤ contents.length)
    (hlength : ∀ row ∈ contents, row.length = indices.length) :
    ∃ polynomials : RowPolynomials F,
      contents = polynomials.contents point indices := by
  have hrow : ∀ row ∈ contents, ∃ p : F[X], valuesAt point indices p = row := by
    intro row hmem
    have hinjective : Set.InjOn (fun k : Fin indices.length =>
        point indices[k]) (Finset.univ : Finset (Fin indices.length)) := by
      intro k _ k' _ heq
      have hsame := hpoint (hlt _ (List.getElem_mem k.isLt))
        (hlt _ (List.getElem_mem k'.isLt)) heq
      exact Fin.ext ((List.Nodup.getElem_inj_iff hnodup).mp hsame)
    refine ⟨Lagrange.interpolate Finset.univ
      (fun k : Fin indices.length => point indices[k])
      fun k => row.getD k 0, ?_⟩
    apply List.ext_getElem
    · rw [length_valuesAt, hlength row hmem]
    · intro k hk hk'
      rw [length_valuesAt] at hk
      have hvalue := Lagrange.eval_interpolate_at_node
        (fun k : Fin indices.length => row.getD k 0) hinjective
        (Finset.mem_univ ⟨k, hk⟩)
      simp only [Fin.getElem_fin] at hvalue
      rw [List.getD_eq_getElem _ _ hk'] at hvalue
      simpa [valuesAt] using hvalue
  choose! f hf using hrow
  rcases contents with _ | ⟨low, _ | ⟨linear, _ | ⟨quadratic, rows⟩⟩⟩
  · exact absurd hcount (by simp [TableauLayout.firstWitnessRow])
  · exact absurd hcount (by simp [TableauLayout.firstWitnessRow])
  · exact absurd hcount (by simp [TableauLayout.firstWitnessRow])
  · refine ⟨⟨f low, f linear, f quadratic, rows.map f⟩, ?_⟩
    have hvalues : (low :: linear :: quadratic :: rows).map
        (valuesAt point indices ∘ f) =
          low :: linear :: quadratic :: rows :=
      (List.map_congr_left hf).trans (List.map_id' _)
    rw [← List.map_map] at hvalues
    exact hvalues.symm

/-- The columns of rows that are values of polynomials. -/
theorem column_contents {point : Nat → F} {indices : List Nat}
    (polynomials : RowPolynomials F) {k i : Nat} (hi : indices[k]? = some i) :
    column (polynomials.contents point indices) k =
      polynomials.column (point i) := by
  rw [column, RowPolynomials.contents, RowPolynomials.column, List.map_map]
  refine List.map_congr_left fun p _ => ?_
  rw [Function.comp_apply, List.getD_eq_getElem?_getD, valuesAt_getElem?, hi]
  rfl

end Columns

section Checks

variable {F : Type} [Field F] [DecidableEq F] [ExtendFieldElement F]
  {verifier : LigeroVerifier F} {proof : LigeroProof F} {point : Nat → F}
  {dblock : Nat} {indices : List Nat}

/-- The columns of a proof are as many as the indices, in all rows that the
tests are about. -/
structure Reveals (layout : TableauLayout) (point : Nat → F) (dblock : Nat)
    (indices : List Nat) (columns : List (List F)) : Prop where
  dblock_eq : layout.dblock = .ok dblock
  point_injOn : Set.InjOn point (Set.Iio layout.numColumns)
  nodup : indices.Nodup
  lt : ∀ i ∈ indices, i + dblock < layout.numColumns
  length_column : ∀ row ∈ columns, row.length = indices.length
  firstWitnessRow_le : TableauLayout.firstWitnessRow ≤ columns.length

omit [DecidableEq F] [ExtendFieldElement F] in
theorem Reveals.exists_contents {layout : TableauLayout}
    {columns : List (List F)}
    (h : Reveals layout point dblock indices columns) :
    ∃ polynomials : RowPolynomials F,
      columns = polynomials.contents point (indices.map (· + dblock)) := by
  refine Ligero.exists_contents h.point_injOn ?_ ?_ h.firstWitnessRow_le ?_
  · exact h.nodup.map fun i j heq => Nat.add_right_cancel heq
  · rintro i hi
    obtain ⟨j, hj, rfl⟩ := List.mem_map.mp hi
    exact h.lt j hj
  · intro row hrow
    rw [h.length_column row hrow, List.length_map]

theorem checkLowDegree_ensures
    (h : Reveals verifier.tableauLayout point dblock indices
      proof.tableauColumns)
    (hextend : Interpolates point verifier.tableauLayout.blockSize
      verifier.tableauLayout.numColumns verifier.extendContextBlockNcol)
    (hlength : proof.lowDegreeTestProof.length =
      verifier.tableauLayout.blockSize) (blinds : List F) :
    Ensures (verifier.checkLowDegree proof blinds indices) fun _ =>
      ∀ k i, indices[k]? = some i →
        lowDegreeValue (column proof.tableauColumns k) blinds =
          (interpolant point proof.lowDegreeTestProof).eval
            (point (i + dblock)) := by
  intro _ hcheck k i hi
  obtain ⟨polynomials, hcolumns⟩ := h.exists_contents
  rw [checkLowDegree_eq h.dblock_eq h.lt hextend hcolumns hlength] at hcheck
  have heq := valuesAt_inj.mp (ensure_eq_ok.mp hcheck) (i + dblock)
    (List.mem_map_of_mem (List.mem_of_getElem? hi))
  have hi' : (indices.map (· + dblock))[k]? = some (i + dblock) := by
    rw [List.getElem?_map, hi]
    rfl
  rw [hcolumns, column_contents polynomials hi',
    ← polynomials.eval_lowDegreeSum, heq]

theorem checkDotRow_ensures
    (h : Reveals verifier.tableauLayout point dblock indices
      proof.tableauColumns)
    (hblock : Interpolates point verifier.tableauLayout.blockSize
      verifier.tableauLayout.numColumns verifier.extendContextBlockNcol)
    (hextend : Interpolates point dblock verifier.tableauLayout.numColumns
      verifier.extendContextDblockNcol)
    (hlength : proof.dotProof.length = dblock)
    {vector : List F} {parts : List (List F)}
    (hchunks : chunks vector verifier.tableauLayout.witnessesPerRow =
      .ok parts)
    (hparts : ∀ part ∈ parts, verifier.tableauLayout.numRequestedColumns +
      part.length = verifier.tableauLayout.blockSize) :
    Ensures (verifier.checkDotRow proof vector indices) fun _ =>
      ∀ k i, indices[k]? = some i →
        dotValue (column proof.tableauColumns k)
            ((parts.map (partPolynomial verifier.tableauLayout point)).map
              (eval (point (i + dblock)))) =
          (interpolant point proof.dotProof).eval (point (i + dblock)) := by
  intro _ hcheck k i hi
  obtain ⟨polynomials, hcolumns⟩ := h.exists_contents
  rw [checkDotRow_eq h.dblock_eq h.lt hblock hextend hcolumns hlength hchunks
    hparts] at hcheck
  have heq := valuesAt_inj.mp (ensure_eq_ok.mp hcheck) (i + dblock)
    (List.mem_map_of_mem (List.mem_of_getElem? hi))
  have hi' : (indices.map (· + dblock))[k]? = some (i + dblock) := by
    rw [List.getElem?_map, hi]
    rfl
  rw [hcolumns, column_contents polynomials hi', ← polynomials.eval_dotSum, heq]

theorem checkQuadratic_ensures
    (h : Reveals verifier.tableauLayout point dblock indices
      proof.tableauColumns)
    (hextend : Interpolates point dblock verifier.tableauLayout.numColumns
      verifier.extendContextDblockNcol)
    {stitched : List F} (hstitched :
      proof.stitchedQuadraticProof verifier.tableauLayout = .ok stitched)
    {firstXRow triples : Nat}
    (hfirst : verifier.tableauLayout.firstQuadraticConstraintRow =
      .ok firstXRow)
    (htriples : verifier.tableauLayout.numQuadraticTriples = .ok triples)
    {blinds : List F} (hblinds : blinds.length ≤ triples)
    (hrows : firstXRow + 3 * triples ≤ proof.tableauColumns.length) :
    Ensures (verifier.checkQuadratic proof blinds indices) fun _ =>
      ∀ k i, indices[k]? = some i →
        quadraticValue (column proof.tableauColumns k) firstXRow triples
            blinds =
          (interpolant point stitched).eval (point (i + dblock)) := by
  intro _ hcheck k i hi
  obtain ⟨polynomials, hcolumns⟩ := h.exists_contents
  rw [hcolumns, RowPolynomials.contents, List.length_map] at hrows
  rw [checkQuadratic_eq h.dblock_eq h.lt hextend hcolumns hstitched hfirst
    htriples hblinds hrows] at hcheck
  have heq := valuesAt_inj.mp (ensure_eq_ok.mp hcheck) (i + dblock)
    (List.mem_map_of_mem (List.mem_of_getElem? hi))
  have hi' : (indices.map (· + dblock))[k]? = some (i + dblock) := by
    rw [List.getElem?_map, hi]
    rfl
  rw [hcolumns, column_contents polynomials hi',
    ← polynomials.eval_quadraticSum, heq]

end Checks

end Longfellow.Ligero
