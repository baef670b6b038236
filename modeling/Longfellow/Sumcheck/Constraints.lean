/-
Linear and quadratic constraints on the witness vector, and the symbolic
expressions from which they are made.
-/
import Longfellow.Witness

namespace Longfellow

open Exec

/-- A term of a linear constraint: `k * W[j]` contributes to constraint
`c`. -/
structure LinearConstraintLhsTerm (F : Type) where
  constraintNumber : Nat
  witnessIndex : Nat
  constantFactor : F
deriving DecidableEq, Repr

/-- A quadratic constraint `W[x] * W[y] = W[z]`. -/
structure QuadraticConstraint where
  x : Nat
  y : Nat
  z : Nat
deriving DecidableEq, Repr

/-- Construct quadratic constraints from the circuit. -/
def quadraticConstraints {F : Type} (circuit : Circuit F)
    (layout : WitnessLayout) : Exec (List QuadraticConstraint) :=
  (List.range circuit.numLayers).mapM fun layerIndex => do
    let (vl, vr, vlVr) ← layout.wireWitnessIndices layerIndex
    pure ⟨vl, vr, vlVr⟩

/-- Linear constraints generated from a sumcheck proof. -/
structure LinearConstraints (F : Type) where
  lhsTerms : List (LinearConstraintLhsTerm F)
  rhs : List F
deriving DecidableEq, Repr

/-- The symbolic portion of a term. -/
structure Symbolic (F : Type) where
  witnessIndex : Option Nat
  constantFactor : F
deriving DecidableEq, Repr

/-- A symbolic term: `known` if there is no witness index, or else `known`
plus the constant factor times a witness. -/
structure Term (F : Type) where
  known : F
  symbolic : Symbolic F
deriving DecidableEq, Repr

/-- The symbolic terms that contribute to the linear constraint of a layer. -/
structure SymbolicExpression (F : Type) where
  known : F
  constraintNumber : Nat
  terms : List (Symbolic F)
deriving DecidableEq, Repr

variable {F : Type} [Field F]

namespace Term

def new (witnessIndex : Nat) : Term F := ⟨0, some witnessIndex, 1⟩

def fromKnown (known : F) : Term F := ⟨known, none, 1⟩

def withWitness (term : Term F) (i : Nat) : Term F :=
  { term with symbolic := { term.symbolic with witnessIndex := some i } }

def add (term : Term F) (x : F) : Term F :=
  { term with known := term.known + x }

def mul (term : Term F) (x : F) : Term F :=
  { symbolic :=
      { term.symbolic with constantFactor := term.symbolic.constantFactor * x }
    known := term.known * x }

end Term

namespace SymbolicExpression

/-- An empty expression contributing to the constraint of a layer. -/
def new (layerIndex : Nat) : SymbolicExpression F := ⟨0, layerIndex, []⟩

def add (expression : SymbolicExpression F) (term : Term F) :
    SymbolicExpression F :=
  { expression with
    known := expression.known + term.known
    terms :=
      if term.symbolic.witnessIndex.isSome then
        expression.terms ++ [term.symbolic]
      else expression.terms }

def mul (expression : SymbolicExpression F) (x : F) : SymbolicExpression F :=
  { expression with
    known := expression.known * x
    terms := expression.terms.map fun term =>
      { term with constantFactor := term.constantFactor * x } }

/-- The linear constraint terms for this expression. Terms with no witness
index do not contribute. -/
def lhsTerms (expression : SymbolicExpression F) :
    List (LinearConstraintLhsTerm F) :=
  expression.terms.filterMap fun term => term.witnessIndex.map fun i =>
    ⟨expression.constraintNumber, i, term.constantFactor⟩

end SymbolicExpression

/-- The sum of `k * W[j]` over the terms of constraint `c`. -/
def lhs (terms : List (LinearConstraintLhsTerm F)) (witness : Nat → F)
    (c : Nat) : F :=
  (terms.map fun term =>
    if term.constraintNumber = c then
      term.constantFactor * witness term.witnessIndex
    else 0).sum

/-- Every linear constraint holds of a witness vector. -/
def LinearConstraints.Satisfied (constraints : LinearConstraints F)
    (witness : Nat → F) : Prop :=
  ∀ c (hc : c < constraints.rhs.length),
    lhs constraints.lhsTerms witness c = constraints.rhs[c]

/-- Every term belongs to a constraint and to one of `n` witnesses. -/
def LinearConstraints.InRange (constraints : LinearConstraints F) (n : Nat) :
    Prop :=
  ∀ term ∈ constraints.lhsTerms,
    term.constraintNumber < constraints.rhs.length ∧ term.witnessIndex < n

/-- A quadratic constraint holds of a witness vector. -/
def QuadraticConstraint.Satisfied (constraint : QuadraticConstraint)
    (witness : Nat → F) : Prop :=
  witness constraint.x * witness constraint.y = witness constraint.z

end Longfellow
