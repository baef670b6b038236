/-
The parameters of Ligero, the layout of its tableau, and the Reed-Solomon
encoding of the rows.
-/
import Longfellow.Fields
import Longfellow.Lib.ReedSolomon

namespace Longfellow

open Exec

/-- The extension of a row, with the values that are computed once for its
dimensions. -/
class ExtendFieldElement (F : Type) where
  ExtendContext : Type
  extendPrecompute (nodesLen evaluations : Nat) : Exec ExtendContext
  extend (nodes : List F) (context : ExtendContext) : Exec (List F)

export ExtendFieldElement (ExtendContext extendPrecompute extend)

section

variable {F : Type} [Field F] [ExtendFieldElement F]

/-- Extending `n` nodes is interpolation at `m` distinct points. -/
def Interpolates (point : Nat → F) (n m : Nat)
    (context : ExtendContext F) : Prop :=
  Set.InjOn point (Set.Iio m) ∧ ∀ nodes : List F, nodes.length = n →
    extend nodes context = .ok (ReedSolomon.extension point nodes m)

omit [Field F] in
/-- Extending `n` nodes to `m` values keeps the nodes. -/
def Systematic (n m : Nat) (context : ExtendContext F) : Prop :=
  ∀ nodes : List F, nodes.length = n → ∃ values,
    extend nodes context = .ok values ∧ values.length = m ∧
      values.take n = nodes

theorem Interpolates.systematic {point : Nat → F} {n m : Nat}
    {context : ExtendContext F} (h : Interpolates point n m context)
    (hle : n ≤ m) : Systematic n m context := by
  intro nodes hlength
  subst hlength
  refine ⟨_, h.2 nodes rfl, ReedSolomon.length_extension _ _ _, ?_⟩
  exact ReedSolomon.take_extension h.1 hle

end

namespace Ligero

/-- Common parameters for the Ligero proof system. -/
structure LigeroParameters where
  /-- The number of columns that the verifier requests to be revealed. -/
  nreq : Nat
  /-- The number of witness values included in each row. -/
  witnessesPerRow : Nat
  /-- The number of quadratic constraints written in each row. -/
  quadraticConstraintsPerRow : Nat
  /-- The size of a block, in terms of number of field elements. -/
  blockSize : Nat
  /-- The total size of a row. -/
  numColumns : Nat
deriving DecidableEq, Repr

/-- The layout of the tableau. -/
structure TableauLayout where
  parameters : LigeroParameters
  numWitnesses : Nat
  numQuadraticConstraints : Nat
deriving DecidableEq, Repr

namespace TableauLayout

/-- Index of the low degree test row. -/
def lowDegreeTestRow : Nat := 0

/-- Index of the dot proof row. -/
def dotProofRow : Nat := 1

/-- Index of the quadratic test row. -/
def quadraticTestRow : Nat := 2

/-- Index of the first row of the tableau containing witnesses. -/
def firstWitnessRow : Nat := 3

variable (layout : TableauLayout)

def blockSize : Nat := layout.parameters.blockSize

def numColumns : Nat := layout.parameters.numColumns

def numRequestedColumns : Nat := layout.parameters.nreq

def dblock : Exec Nat := checkedSub (layout.parameters.blockSize * 2) 1

def witnessesPerRow : Nat := layout.parameters.witnessesPerRow

def quadraticConstraintsPerRow : Nat :=
  layout.parameters.quadraticConstraintsPerRow

/-- The number of triples of rows needed for the quadratic constraints. -/
def numQuadraticTriples : Exec Nat :=
  divCeil layout.numQuadraticConstraints
    layout.parameters.quadraticConstraintsPerRow

/-- The number of rows needed for the quadratic constraints. -/
def numQuadraticRows : Exec Nat := do
  let triples ← layout.numQuadraticTriples
  pure (3 * triples)

/-- The number of rows needed for the witnesses. -/
def numLinearConstraintRows : Exec Nat :=
  divCeil layout.numWitnesses layout.parameters.witnessesPerRow

/-- Index of the first row containing quadratic constraints. -/
def firstQuadraticConstraintRow : Exec Nat := do
  let linear ← layout.numLinearConstraintRows
  pure (firstWitnessRow + linear)

/-- The total number of rows for witness constraints. -/
def numConstraintRows : Exec Nat := do
  let linear ← layout.numLinearConstraintRows
  let quadratic ← layout.numQuadraticRows
  pure (linear + quadratic)

/-- The total number of rows in the tableau. -/
def numRows : Exec Nat := do
  let linear ← layout.numLinearConstraintRows
  let quadratic ← layout.numQuadraticRows
  pure (firstWitnessRow + linear + quadratic)

end TableauLayout

end Ligero

end Longfellow
