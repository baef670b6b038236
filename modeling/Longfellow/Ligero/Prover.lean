/-
The Ligero prover: the tests that it runs on the rows of the tableau, and the
columns that it reveals.
-/
import Longfellow.Ligero.Merkle
import Longfellow.Ligero.Tableau

namespace Longfellow.Ligero

open Exec

section InnerProduct

variable {F : Type} [Field F]

/-- Add the terms of a quadratic constraint: its copies are in the quadratic
rows, the witnesses that they are copies of in the linear rows. -/
def addQuadraticConstraint (quadraticConstraints : List QuadraticConstraint)
    (quadraticConstraintAlphas : List F) (xsStart ysStart zsStart : Nat)
    (vector : List F) (i : Nat) : Exec (List F) := do
  let constraint ← index quadraticConstraints i
  let alphaX ← index quadraticConstraintAlphas (i * 3)
  let alphaY ← index quadraticConstraintAlphas (i * 3 + 1)
  let alphaZ ← index quadraticConstraintAlphas (i * 3 + 2)
  let vector ← update vector (xsStart + i) (· + alphaX)
  let vector ← update vector constraint.x (· - alphaX)
  let vector ← update vector (ysStart + i) (· + alphaY)
  let vector ← update vector constraint.y (· - alphaY)
  let vector ← update vector (zsStart + i) (· + alphaZ)
  update vector constraint.z (· - alphaZ)

/-- Add the term of a linear constraint. -/
def addLinearTerm (linearConstraintAlphas : List F) (vector : List F)
    (term : LinearConstraintLhsTerm F) : Exec (List F) := do
  let alpha ← index linearConstraintAlphas term.constraintNumber
  update vector term.witnessIndex (· + alpha * term.constantFactor)

/-- The random linear combination of the linear constraints, and of the
constraints that make copies equal to witnesses, as a vector over the witness
positions of the tableau. -/
def innerProductVector (layout : TableauLayout)
    (linearConstraints : LinearConstraints F) (linearConstraintAlphas : List F)
    (quadraticConstraints : List QuadraticConstraint)
    (quadraticConstraintAlphas : List F) : Exec (List F) := do
  let numConstraintRows ← layout.numConstraintRows
  let vector ← linearConstraints.lhsTerms.foldlM
    (addLinearTerm linearConstraintAlphas)
    (List.replicate (layout.witnessesPerRow * numConstraintRows) 0)
  let numLinearConstraintRows ← layout.numLinearConstraintRows
  let numQuadraticTriples ← layout.numQuadraticTriples
  let xsStart := numLinearConstraintRows * layout.witnessesPerRow
  let ysStart := xsStart + numQuadraticTriples * layout.witnessesPerRow
  let zsStart := ysStart + numQuadraticTriples * layout.witnessesPerRow
  (List.range numQuadraticTriples).foldlM
    (fun vector i =>
      -- The inner loop breaks at the first index that is out of range.
      (((List.range layout.witnessesPerRow).map fun j =>
        j + i * layout.witnessesPerRow).takeWhile fun index =>
          index < quadraticConstraints.length).foldlM
        (addQuadraticConstraint quadraticConstraints quadraticConstraintAlphas
          xsStart ysStart zsStart) vector)
    vector

/-- Add the products of two lists to another one, as far as all three go. -/
def addProducts : List F → List F → List F → List F
  | element :: elements, x :: xs, y :: ys =>
      (element + x * y) :: addProducts elements xs ys
  | elements, _, _ => elements

end InnerProduct

section Tests

variable {F : Type} [Field F] [ExtendFieldElement F] (layout : TableauLayout)
  (contents : List (List F))

omit [ExtendFieldElement F] in
/-- The elements of a row up to a column, which must be in range. -/
def rowUpTo (row column : Nat) : Exec (List F) := do
  let elements ← index contents row
  assert (column ≤ elements.length) "range end index out of range for slice"
  pure (elements.take column)

omit [ExtendFieldElement F] in
/-- Sum blinded rows into the low degree test row. -/
def lowDegreeTestProof (lowDegreeTestBlind : List F) : Exec (List F) := do
  let proof ← rowUpTo contents TableauLayout.lowDegreeTestRow layout.blockSize
  pure (((contents.drop TableauLayout.firstWitnessRow).zip
    lowDegreeTestBlind).foldl
      (fun proof (row, blind) =>
        addProducts proof (List.replicate row.length blind) row)
      proof)

/-- Add the products of a part of the inner product vector, extended, and a
row of the tableau. -/
def addDotProduct (dblock : Nat)
    (extendContextBlockDblock : ExtendContext F) (dotProof : List F)
    (part : List F × List F) : Exec (List F) := do
  let innerProductVectorExtended :=
    List.replicate layout.numRequestedColumns 0 ++ part.1
  assert (innerProductVectorExtended.length = layout.blockSize)
    "assertion `left == right` failed"
  let extended ← extend innerProductVectorExtended extendContextBlockDblock
  pure (addProducts dotProof extended (part.2.take dblock))

/-- Sum the products of the inner product vector and the rows into the dot
proof row. -/
def dotProof (innerProductVector : List F)
    (extendContextBlockDblock : ExtendContext F) : Exec (List F) := do
  let dblock ← layout.dblock
  let proof ← rowUpTo contents TableauLayout.dotProofRow dblock
  let parts ← chunks innerProductVector layout.witnessesPerRow
  let proof ← (parts.zip (contents.drop TableauLayout.firstWitnessRow)).foldlM
    (addDotProduct layout dblock extendContextBlockDblock) proof
  assert (proof.length = dblock) "assertion `left == right` failed"
  pure proof

omit [ExtendFieldElement F] in
/-- Sum the blinded differences of the `z`s and the products of the `x`s and
the `y`s into the quadratic test row. -/
def quadraticProof [DecidableEq F] (quadraticProofBlind : List F) :
    Exec (List F × List F) := do
  let dblock ← layout.dblock
  let proof ← rowUpTo contents TableauLayout.quadraticTestRow dblock
  let firstXRow ← layout.firstQuadraticConstraintRow
  let triples ← layout.numQuadraticTriples
  let proof ← quadraticProofBlind.zipIdx.foldlM
    (fun proof (challenge, i) => do
      let xRow ← index contents (firstXRow + i)
      let yRow ← index contents (firstXRow + triples + i)
      let zRow ← index contents (firstXRow + triples + triples + i)
      let differences := List.zipWith (fun (x, y) z => z - x * y)
        (xRow.zip yRow) zRow
      pure (addProducts proof
        (List.replicate differences.length challenge) differences))
    proof
  let _ ← checkedSub layout.blockSize layout.numRequestedColumns
  assert (((proof.take layout.blockSize).drop
    layout.numRequestedColumns).all (· = 0)) "assertion `left == right` failed"
  pure (proof.take layout.numRequestedColumns, proof.drop layout.blockSize)

omit [ExtendFieldElement F] in
/-- The elements of all rows at the requested columns, which are counted from
the end of the systematic part. -/
def requestedTableauColumns (requestedColumnIndices : List Nat) :
    Exec (List (List F)) := do
  let numRows ← layout.numRows
  let dblock ← layout.dblock
  let columns ← (List.range numRows).foldlM
    (fun columns row => requestedColumnIndices.zipIdx.foldlM
      (fun columns (requestedColumnIndex, column) => do
        let elements ← index contents row
        let element ← index elements (requestedColumnIndex + dblock)
        update columns (row * layout.numRequestedColumns + column) fun _ =>
          element)
      columns)
    (List.replicate (layout.numRequestedColumns * numRows) 0)
  chunks columns layout.numRequestedColumns

end Tests

end Longfellow.Ligero
