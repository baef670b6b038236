/-
The value of a symbolic expression at a witness vector, and what the claims of
a layer evaluate to.
-/
import Longfellow.Sumcheck.Verifier

namespace Longfellow

open Exec Multilinear SparseSumcheckArray

variable {F : Type} [Field F]

namespace Term

/-- The value of a term at a witness vector. -/
def eval (term : Term F) (witness : Nat → F) : F :=
  term.known +
    term.symbolic.constantFactor * term.symbolic.witnessIndex.elim 0 witness

variable (witness : Nat → F)

@[simp] theorem known_new_mul (i : Nat) (x : F) :
    ((new i : Term F).mul x).known = 0 := by
  simp [new, mul]

@[simp] theorem eval_new (i : Nat) : (new i : Term F).eval witness = witness i := by
  simp [eval, new]

@[simp] theorem eval_fromKnown (x : F) : (fromKnown x).eval witness = x := by
  simp [eval, fromKnown]

@[simp] theorem eval_add (term : Term F) (x : F) :
    (term.add x).eval witness = term.eval witness + x := by
  simp [eval, add]
  ring

@[simp] theorem eval_mul (term : Term F) (x : F) :
    (term.mul x).eval witness = term.eval witness * x := by
  simp [eval, mul]
  ring

end Term

namespace SymbolicExpression

/-- The value of an expression at a witness vector. -/
def eval (expression : SymbolicExpression F) (witness : Nat → F) : F :=
  expression.known + (expression.terms.map fun term =>
    term.constantFactor * term.witnessIndex.elim 0 witness).sum

variable (witness : Nat → F)

@[simp] theorem eval_new (i : Nat) :
    (new i : SymbolicExpression F).eval witness = 0 := by
  simp [eval, new]

@[simp] theorem eval_add (expression : SymbolicExpression F) (term : Term F) :
    (expression.add term).eval witness =
      expression.eval witness + term.eval witness := by
  unfold eval add Term.eval
  cases hindex : term.symbolic.witnessIndex with
  | none =>
      simp
      ring
  | some i =>
      simp [hindex]
      ring

@[simp] theorem eval_mul (expression : SymbolicExpression F) (x : F) :
    (expression.mul x).eval witness = expression.eval witness * x := by
  have hterms : (expression.terms.map fun term => term.constantFactor * x *
      term.witnessIndex.elim 0 witness).sum =
      (expression.terms.map fun term =>
        term.constantFactor * term.witnessIndex.elim 0 witness).sum * x := by
    rw [← List.sum_map_mul_right]
    exact congrArg List.sum (List.map_congr_left fun term _ => by ring)
  simp only [eval, mul, List.map_map, Function.comp_def, hterms]
  ring

@[simp] theorem known_add (expression : SymbolicExpression F) (term : Term F) :
    (expression.add term).known = expression.known + term.known := rfl

@[simp] theorem constraintNumber_add (expression : SymbolicExpression F)
    (term : Term F) :
    (expression.add term).constraintNumber = expression.constraintNumber := rfl

@[simp] theorem constraintNumber_mul (expression : SymbolicExpression F)
    (x : F) :
    (expression.mul x).constraintNumber = expression.constraintNumber := rfl

/-- The terms of an expression contribute its symbolic part to its own
constraint, and nothing to the others. -/
theorem lhs_lhsTerms (expression : SymbolicExpression F) (c : Nat) :
    lhs expression.lhsTerms witness c =
      if expression.constraintNumber = c then
        expression.eval witness - expression.known
      else 0 := by
  have hsum : lhs expression.lhsTerms witness c =
      if expression.constraintNumber = c then
        (expression.terms.map fun term =>
          term.constantFactor * term.witnessIndex.elim 0 witness).sum
      else 0 := by
    rw [lhs, lhsTerms]
    induction expression.terms with
    | nil => simp
    | cons term terms ih =>
        cases hindex : term.witnessIndex with
        | none =>
            rw [List.filterMap_cons_none (by simp [hindex]), ih]
            simp [hindex]
        | some i =>
            rw [List.filterMap_cons_some (by rw [hindex]; rfl), List.map_cons,
              List.sum_cons, ih]
            by_cases hc : expression.constraintNumber = c <;> simp [hc, hindex]
  rw [hsum, eval]
  by_cases hc : expression.constraintNumber = c <;> simp [hc]

/-- Every symbolic term of an expression is one of `n` witnesses. -/
def InRange (expression : SymbolicExpression F) (n : Nat) : Prop :=
  ∀ term ∈ expression.terms, ∀ i, term.witnessIndex = some i → i < n

theorem InRange.new (i n : Nat) :
    (SymbolicExpression.new i : SymbolicExpression F).InRange n := by
  simp [InRange, SymbolicExpression.new]

theorem InRange.add {expression : SymbolicExpression F} {n : Nat}
    (h : expression.InRange n) {term : Term F}
    (hterm : ∀ i, term.symbolic.witnessIndex = some i → i < n) :
    (expression.add term).InRange n := by
  intro t ht
  simp only [SymbolicExpression.add] at ht
  split at ht
  · rcases List.mem_append.mp ht with ht | ht
    · exact h t ht
    · rw [List.mem_singleton.mp ht]
      exact hterm
  · exact h t ht

omit [Field F] in
theorem InRange.lhsTerms {expression : SymbolicExpression F} {n : Nat}
    (h : expression.InRange n) :
    ∀ term ∈ expression.lhsTerms,
      term.constraintNumber = expression.constraintNumber ∧
        term.witnessIndex < n := by
  intro term hterm
  obtain ⟨symbolic, hmem, hsome⟩ := List.mem_filterMap.mp hterm
  obtain ⟨i, hi, rfl⟩ := Option.map_eq_some_iff.mp hsome
  exact ⟨rfl, h symbolic hmem i hi⟩

theorem InRange.mul {expression : SymbolicExpression F} {n : Nat}
    (h : expression.InRange n) (x : F) : (expression.mul x).InRange n := by
  intro t ht
  obtain ⟨s, hs, rfl⟩ := List.mem_map.mp ht
  exact h s hs

end SymbolicExpression

theorem lhs_append (terms terms' : List (LinearConstraintLhsTerm F))
    (witness : Nat → F) (c : Nat) :
    lhs (terms ++ terms') witness c =
      lhs terms witness c + lhs terms' witness c := by
  simp [lhs]

namespace Sumcheck

variable [ProofFieldElement F]

/-- The claim after a round of the plain protocol: the value at the challenge
of the polynomial of degree two through the evaluations of the message, and
the rest of the claim at one. -/
noncomputable def reduceClaim (claim : F) (message : Sumcheck.Polynomial F)
    (challenge : F) : F :=
  (quadraticThrough ProofFieldElement.sumcheckP2 message.p0
    (claim - message.p0) message.p2).eval challenge

/-- The claim after the rounds of a layer. -/
noncomputable def reduceRounds (claim : F)
    (messages : List (Sumcheck.Polynomial F × F)) : F :=
  messages.foldl (fun claim message => reduceClaim claim message.1 message.2)
    claim

theorem reduceRounds_concat (claim : F)
    (messages : List (Sumcheck.Polynomial F × F))
    (message : Sumcheck.Polynomial F × F) :
    reduceRounds claim (messages ++ [message]) =
      reduceClaim (reduceRounds claim messages) message.1 message.2 := by
  simp [reduceRounds]

/-- Add the pads that follow a base in the witness vector to the messages of a
layer. -/
def unpadMessages (base : Nat) (witness : Nat → F)
    (messages : List (Sumcheck.Polynomial F)) : List (Sumcheck.Polynomial F) :=
  messages.zipIdx.map fun (message, k) =>
    ⟨message.p0 + witness (base + 2 * k),
      message.p2 + witness (base + 2 * k + 1)⟩

variable (witness : Nat → F)

@[simp] theorem constraintNumber_claimScript (base : Nat)
    (claim : SymbolicExpression F) (messages : List (Sumcheck.Polynomial F × F)) :
    (claimScript base claim messages).constraintNumber =
      claim.constraintNumber := by
  induction messages using List.reverseRecOn with
  | nil => rfl
  | append_singleton messages message ih =>
      rw [claimScript_concat, updateClaim]
      simp [ih]

omit [ProofFieldElement F] in
@[simp] theorem constraintNumber_startClaim (layout : WitnessLayout) (i : Nat)
    (claims : Hands F) (alpha : F) :
    (startClaim layout i claims alpha).constraintNumber = i := by
  unfold startClaim
  split <;> rfl

omit [ProofFieldElement F] in
@[simp] theorem constraintNumber_finishClaim (claim : SymbolicExpression F)
    (q : F) (wires : Hands F) (l r p : Nat) :
    (finishClaim claim q wires l r p).constraintNumber =
      claim.constraintNumber := rfl

/-- The wires of the layer before, with their pads. -/
def unpadClaims (layout : WitnessLayout) (witness : Nat → F) (i : Nat)
    (claims : Hands F) : Hands F :=
  if 0 < i then
    ⟨claims.left + witness (layout.wireStart (i - 1)),
      claims.right + witness (layout.wireStart (i - 1) + 1)⟩
  else claims

omit [ProofFieldElement F] in
theorem eval_startClaim (layout : WitnessLayout) (i : Nat) (claims : Hands F)
    (alpha : F) :
    (startClaim layout i claims alpha).eval witness =
      (unpadClaims layout witness i claims).left +
        alpha * (unpadClaims layout witness i claims).right := by
  unfold startClaim unpadClaims
  by_cases hpos : 0 < i
  · simp [hpos, Term.withWitness, Term.eval, Term.fromKnown, Term.mul]
    ring
  · simp [hpos]
    ring

omit [ProofFieldElement F] in
theorem eval_finishClaim (claim : SymbolicExpression F) (q : F)
    (wires : Hands F) (l r p : Nat) :
    (finishClaim claim q wires l r p).eval witness =
      claim.eval witness - q * (wires.right * witness l +
        wires.left * witness r + witness p) := by
  simp [finishClaim]
  ring

variable [LawfulProofField F]

/-- A symbolic round computes the plain round on the padded message. -/
theorem eval_updateClaim (claim : SymbolicExpression F)
    (message : Sumcheck.Polynomial F) (p0 p2 : Nat) (challenge : F) :
    (updateClaim claim message p0 p2 challenge).eval witness =
      reduceClaim (claim.eval witness)
        ⟨message.p0 + witness p0, message.p2 + witness p2⟩ challenge := by
  rw [reduceClaim, ← lagrangeBasisPolynomial_interpolate]
  simp [updateClaim]
  ring

theorem eval_claimScript (base : Nat) (claim : SymbolicExpression F)
    {messages : List (Sumcheck.Polynomial F)} {challenges : List F}
    (hlength : challenges.length = messages.length) :
    (claimScript base claim (messages.zip challenges)).eval witness =
      reduceRounds (claim.eval witness)
        ((unpadMessages base witness messages).zip challenges) := by
  induction messages using List.reverseRecOn generalizing challenges with
  | nil => simp [claimScript, reduceRounds, unpadMessages]
  | append_singleton messages message ih =>
      rcases List.eq_nil_or_concat' challenges with rfl | ⟨init, last, rfl⟩
      · simp at hlength
      · have hinit : init.length = messages.length := by simpa using hlength
        have hunpad : (unpadMessages base witness messages).length =
            init.length := by
          simp [unpadMessages, hinit]
        have hconcat : unpadMessages base witness (messages ++ [message]) =
            unpadMessages base witness messages ++
              [⟨message.p0 + witness (base + 2 * messages.length),
                message.p2 + witness (base + 2 * messages.length + 1)⟩] := by
          simp [unpadMessages, List.zipIdx_append]
        have hzip : (messages.zip init).length = messages.length := by
          simp [hinit]
        rw [List.zip_append hinit.symm, hconcat, List.zip_append hunpad,
          List.zip_cons_cons, List.zip_nil_right, claimScript_concat,
          eval_updateClaim, ih hinit, hzip, List.zip_cons_cons,
          List.zip_nil_right]
        simp [reduceRounds]

end Sumcheck

end Longfellow
