/-
Soundness of Ligero: whatever was committed to, there is a witness such that a
proof for constraints that it does not satisfy is accepted for few challenges
only, or if all opened columns are among few.
-/
import Longfellow.Lib.Proximity
import Longfellow.Ligero.Binding
import Longfellow.Ligero.Completeness

namespace Longfellow.Ligero

open Exec Polynomial ReedSolomon

section Challenges

variable {F : Type}

/-- The places of all challenges: of the blinds of the low degree test, of the
coefficients of the linear constraints and of the copies, and of the blinds of
the quadratic test. -/
abbrev ChallengeIndex (rows linear copies triples : Nat) : Type :=
  Fin rows ⊕ Fin linear ⊕ Fin copies ⊕ Fin triples

variable {rows linear copies triples : Nat}

/-- The challenges with the given values. -/
def LigeroChallenges.ofVector (v : ChallengeIndex rows linear copies triples → F) :
    LigeroChallenges F where
  lowDegreeTestBlind := List.ofFn fun i => v (.inl i)
  linearConstraintAlphas := List.ofFn fun i => v (.inr (.inl i))
  quadraticConstraintAlphas := List.ofFn fun i => v (.inr (.inr (.inl i)))
  quadraticProofBlind := List.ofFn fun i => v (.inr (.inr (.inr i)))

theorem LigeroChallenges.exists_ofVector {challenges : LigeroChallenges F}
    (hrows : challenges.lowDegreeTestBlind.length = rows)
    (hlinear : challenges.linearConstraintAlphas.length = linear)
    (hcopies : challenges.quadraticConstraintAlphas.length = copies)
    (htriples : challenges.quadraticProofBlind.length = triples) :
    ∃ v : ChallengeIndex rows linear copies triples → F,
      ofVector v = challenges := by
  subst hrows hlinear hcopies htriples
  refine ⟨Sum.elim challenges.lowDegreeTestBlind.get
    (Sum.elim challenges.linearConstraintAlphas.get
      (Sum.elim challenges.quadraticConstraintAlphas.get
        challenges.quadraticProofBlind.get)), ?_⟩
  simp only [ofVector, Sum.elim_inl, Sum.elim_inr, List.ofFn_get]

end Challenges

section Forms

variable {F : Type} [Field F]

theorem innerProduct_ofFn {n : Nat} (f : Fin n → F) {ys : List F}
    (h : n ≤ ys.length) :
    innerProduct (List.ofFn f) ys = ∑ i : Fin n, f i * ys.getD i 0 := by
  rw [innerProduct, ← List.sum_ofFn]
  congr 1
  apply List.ext_getElem
  · simpa using h
  · intro i hi hi'
    rw [List.length_ofFn] at hi'
    rw [List.getElem_zipWith, List.getElem_ofFn, List.getElem_ofFn,
      List.getD_eq_getElem _ _ (hi'.trans_le h)]

theorem sum_zipIdx {α : Type} (xs : List α) (default : α) (f : α × Nat → F) :
    (xs.zipIdx.map f).sum =
      ∑ i ∈ Finset.range xs.length, f (xs.getD i default, i) := by
  rw [Finset.sum_range, ← List.sum_ofFn]
  congr 1
  apply List.ext_getElem
  · simp
  · intro i hi hi'
    rw [List.length_ofFn] at hi'
    simp

theorem sum_range_three_mul (f : Nat → F) (n : Nat) :
    ∑ m ∈ Finset.range (n * 3), f m = ∑ i ∈ Finset.range n,
      (f (i * 3) + f (i * 3 + 1) + f (i * 3 + 2)) := by
  induction n with
  | zero => simp
  | succ n ih =>
      rw [Finset.sum_range_succ, ← ih, Nat.succ_mul, Finset.sum_range_succ,
        Finset.sum_range_succ, Finset.sum_range_succ]
      ring

variable (quadraticConstraints : List QuadraticConstraint) (region : List F)
  (xsStart ysStart zsStart : Nat)

/-- The differences between the copies and the witnesses that they are copies
of, three for each quadratic constraint. -/
def copyDifference (m : Nat) : F :=
  let constraint := quadraticConstraints.getD (m / 3) ⟨0, 0, 0⟩
  if m % 3 = 0 then
    region.getD (xsStart + m / 3) 0 - region.getD constraint.x 0
  else if m % 3 = 1 then
    region.getD (ysStart + m / 3) 0 - region.getD constraint.y 0
  else region.getD (zsStart + m / 3) 0 - region.getD constraint.z 0

theorem copyDifference_zero (i : Nat) :
    copyDifference quadraticConstraints region xsStart ysStart zsStart (i * 3) =
      region.getD (xsStart + i) 0 -
        region.getD (quadraticConstraints.getD i ⟨0, 0, 0⟩).x 0 := by
  have hdiv : i * 3 / 3 = i := by omega
  rw [copyDifference, hdiv, if_pos (by omega)]

theorem copyDifference_one (i : Nat) :
    copyDifference quadraticConstraints region xsStart ysStart zsStart
        (i * 3 + 1) =
      region.getD (ysStart + i) 0 -
        region.getD (quadraticConstraints.getD i ⟨0, 0, 0⟩).y 0 := by
  have hdiv : (i * 3 + 1) / 3 = i := by omega
  rw [copyDifference, hdiv, if_neg (by omega), if_pos (by omega)]

theorem copyDifference_two (i : Nat) :
    copyDifference quadraticConstraints region xsStart ysStart zsStart
        (i * 3 + 2) =
      region.getD (zsStart + i) 0 -
        region.getD (quadraticConstraints.getD i ⟨0, 0, 0⟩).z 0 := by
  have hdiv : (i * 3 + 2) / 3 = i := by omega
  rw [copyDifference, hdiv, if_neg (by omega), if_neg (by omega)]

theorem copyCombination_eq (alphas : List F) :
    copyCombination quadraticConstraints alphas region xsStart ysStart
        zsStart =
      ∑ m ∈ Finset.range (3 * quadraticConstraints.length),
        alphas.getD m 0 * copyDifference quadraticConstraints region xsStart
          ysStart zsStart m := by
  rw [Nat.mul_comm, copyCombination, sum_zipIdx _ ⟨0, 0, 0⟩, sum_range_three_mul]
  refine Finset.sum_congr rfl fun i _ => ?_
  rw [copyDifference_zero, copyDifference_one, copyDifference_two]
  rfl

/-- What each challenge contributes to the difference between the two sides of
the dot product: how far a linear constraint or a copy is off. -/
def dotCoefficient (linearConstraints : LinearConstraints F)
    (rows triples : Nat) :
    ChallengeIndex rows linearConstraints.rhs.length
      (3 * quadraticConstraints.length) triples → F :=
  Sum.elim (fun _ => 0)
    (Sum.elim (fun c => lhs linearConstraints.lhsTerms
        (fun i => region.getD i 0) c - linearConstraints.rhs.getD c 0)
      (Sum.elim (fun m => copyDifference quadraticConstraints region xsStart
        ysStart zsStart m) fun _ => 0))

theorem innerProduct_comm (xs ys : List F) :
    innerProduct xs ys = innerProduct ys xs := by
  rw [innerProduct, innerProduct, List.zipWith_comm_of_comm mul_comm]

theorem ofFn_getD {n : Nat} (f : Fin n → F) (i : Fin n) :
    (List.ofFn f).getD i 0 = f i := by
  rw [List.getD_eq_getElem _ _ (by simp), List.getElem_ofFn]

/-- The difference between the two sides of the dot product is a linear form in
the challenges. -/
theorem dot_combination {linearConstraints : LinearConstraints F}
    {rows triples : Nat}
    (v : ChallengeIndex rows linearConstraints.rhs.length
      (3 * quadraticConstraints.length) triples → F) :
    linearCombination linearConstraints.lhsTerms
        (LigeroChallenges.ofVector v).linearConstraintAlphas region +
      copyCombination quadraticConstraints
        (LigeroChallenges.ofVector v).quadraticConstraintAlphas region xsStart
        ysStart zsStart =
      innerProduct linearConstraints.rhs
        (LigeroChallenges.ofVector v).linearConstraintAlphas +
      ∑ j, v j * dotCoefficient quadraticConstraints region xsStart ysStart
        zsStart linearConstraints rows triples j := by
  have hlinear : linearCombination linearConstraints.lhsTerms
      (LigeroChallenges.ofVector v).linearConstraintAlphas region =
        ∑ c : Fin linearConstraints.rhs.length, v (.inr (.inl c)) *
          lhs linearConstraints.lhsTerms (fun i => region.getD i 0) c := by
    rw [linearCombination, LigeroChallenges.ofVector, List.length_ofFn,
      ← List.sum_ofFn]
    congr 1
    apply List.ext_getElem
    · simp
    · intro c hc hc'
      rw [List.length_ofFn] at hc'
      rw [List.getElem_map, List.getElem_range, List.getElem_ofFn]
      exact congrArg (· * _) (ofFn_getD (fun i => v (.inr (.inl i))) ⟨c, hc'⟩)
  have hcopies : copyCombination quadraticConstraints
      (LigeroChallenges.ofVector v).quadraticConstraintAlphas region xsStart
        ysStart zsStart =
        ∑ m : Fin (3 * quadraticConstraints.length),
          v (.inr (.inr (.inl m))) * copyDifference quadraticConstraints
            region xsStart ysStart zsStart m := by
    rw [copyCombination_eq, Finset.sum_range]
    refine Finset.sum_congr rfl fun m _ => ?_
    exact congrArg (· * _) (ofFn_getD (fun i => v (.inr (.inr (.inl i)))) m)
  have hrhs : innerProduct linearConstraints.rhs
      (LigeroChallenges.ofVector v).linearConstraintAlphas =
        ∑ c : Fin linearConstraints.rhs.length, v (.inr (.inl c)) *
          linearConstraints.rhs.getD c 0 := by
    rw [innerProduct_comm]
    exact innerProduct_ofFn _ le_rfl
  rw [hlinear, hcopies, hrhs]
  simp only [dotCoefficient, Fintype.sum_sum_type, Sum.elim_inl, Sum.elim_inr,
    mul_zero, Finset.sum_const_zero, zero_add, add_zero, mul_sub,
    Finset.sum_sub_distrib]
  ring

end Forms

section Tests

open Finset Proximity

variable {F : Type} [Field F] [DecidableEq F] {layout : TableauLayout}
  {point : Nat → F} {polynomials : RowPolynomials F} {dblock leaves e : Nat}
  {node : Fin leaves → F} {columnAt : Fin leaves → List F}
  {errors : Finset (Fin leaves)}

/-- Columns whose constraint rows are those of codewords, but for few. -/
structure NearCodewords (layout : TableauLayout) (dblock e bound : Nat)
    (node : Fin leaves → F) (columnAt : Fin leaves → List F)
    (polynomials : RowPolynomials F) (errors : Finset (Fin leaves)) : Prop
    extends polynomials.Codewords layout dblock where
  card_errors : errors.card ≤ e
  drop_eq : ∀ k ∉ errors,
    (columnAt k).drop TableauLayout.firstWitnessRow =
      polynomials.rows.map (eval (node k))
  linear_unique : ∀ r : F[X], r.degree < dblock → r ≠ polynomials.linear →
    Finset.card {k |
        (columnAt k).getD TableauLayout.dotProofRow 0 = r.eval (node k)} +
      e ≤ bound
  quadratic_unique : ∀ r : F[X], r.degree < dblock →
    r ≠ polynomials.quadratic →
    Finset.card {k | (columnAt k).getD TableauLayout.quadraticTestRow 0 =
      r.eval (node k)} + e ≤ bound

variable {bound : Nat}

/-- Few columns pass the dot test for a polynomial that is not the one of the
codewords. -/
theorem NearCodewords.card_dotValue_le
    (h : NearCodewords layout dblock e bound node columnAt polynomials errors)
    (hdblock : layout.dblock = .ok dblock) {parts : List F[X]}
    (hparts : ∀ part ∈ parts, part.degree < layout.blockSize) {dot : F[X]}
    (hdegree : dot.degree < dblock) (hne : dot ≠ polynomials.dotSum parts) :
    Finset.card {k | dotValue (columnAt k) (parts.map (eval (node k))) =
      dot.eval (node k)} ≤ bound := by
  refine card_agree_sum_le h.linear_unique h.card_errors (fun k hk => ?_)
    h.linear (h.degree_dotSum hdblock hparts) hdegree hne
  rw [dotValue, h.drop_eq k hk, eval_sub, polynomials.eval_dotSum, dotValue,
    polynomials.column_getD]
  have hrows : (polynomials.column (node k)).drop
      TableauLayout.firstWitnessRow = polynomials.rows.map (eval (node k)) :=
    rfl
  have hlinear : polynomials.all.getD TableauLayout.dotProofRow 0 =
      polynomials.linear := rfl
  rw [hrows, hlinear, add_sub_cancel_left]

omit [DecidableEq F] in
theorem drop_getD {column : List F} (row : Nat) :
    (column.drop TableauLayout.firstWitnessRow).getD row 0 =
      column.getD (TableauLayout.firstWitnessRow + row) 0 := by
  rw [List.getD_eq_getElem?_getD, List.getD_eq_getElem?_getD,
    List.getElem?_drop]

omit [DecidableEq F] in
theorem differenceValue_congr {column column' : List F}
    (h : column.drop TableauLayout.firstWitnessRow =
      column'.drop TableauLayout.firstWitnessRow) (linear triples i : Nat) :
    differenceValue column (TableauLayout.firstWitnessRow + linear) triples i =
      differenceValue column' (TableauLayout.firstWitnessRow + linear) triples
        i := by
  simp only [differenceValue, Nat.add_assoc, ← drop_getD, h]

/-- Few columns pass the quadratic test for a polynomial that is not the one of
the codewords. -/
theorem NearCodewords.card_quadraticValue_le
    (h : NearCodewords layout dblock e bound node columnAt polynomials errors)
    (hdblock : layout.dblock = .ok dblock) {linear triples : Nat}
    {blinds : List F} {quadratic : F[X]} (hdegree : quadratic.degree < dblock)
    (hne : quadratic ≠ polynomials.quadraticSum
      (TableauLayout.firstWitnessRow + linear) triples blinds) :
    Finset.card {k | quadraticValue (columnAt k)
        (TableauLayout.firstWitnessRow + linear) triples blinds =
          quadratic.eval (node k)} ≤ bound := by
  refine card_agree_sum_le h.quadratic_unique h.card_errors (fun k hk => ?_)
    h.quadratic (h.degree_quadraticSum hdblock linear triples blinds) hdegree
    hne
  have hquadratic : polynomials.all.getD TableauLayout.quadraticTestRow 0 =
      polynomials.quadratic := rfl
  have hrows : (columnAt k).drop TableauLayout.firstWitnessRow =
      (polynomials.column (node k)).drop TableauLayout.firstWitnessRow :=
    h.drop_eq k hk
  rw [eval_sub, polynomials.eval_quadraticSum, quadraticValue, quadraticValue,
    polynomials.column_getD, hquadratic, add_sub_cancel_left]
  simp only [differenceValue_congr hrows]

end Tests

section Extraction

variable {F : Type} [Field F] {layout : TableauLayout} {point : Nat → F}
  {polynomials : RowPolynomials F} {linear triples : Nat}
  {linearConstraints : LinearConstraints F}
  {quadraticConstraints : List QuadraticConstraint}

/-- The witness in the rows. -/
noncomputable def RowPolynomials.witness (polynomials : RowPolynomials F)
    (point : Nat → F) (layout : TableauLayout) : List F :=
  (polynomials.witnessRegion point layout).take layout.numWitnesses

theorem RowPolynomials.witness_getD {i : Nat} (hi : i < layout.numWitnesses) :
    (polynomials.witness point layout).getD i 0 =
      (polynomials.witnessRegion point layout).getD i 0 := by
  rw [witness, List.getD_eq_getElem?_getD, List.getD_eq_getElem?_getD,
    List.getElem?_take_of_lt hi]

/-- How far the constraints between the witness positions of the rows are off,
at each place of a challenge. -/
noncomputable def RowPolynomials.dotCoefficient
    (polynomials : RowPolynomials F) (point : Nat → F) (layout : TableauLayout)
    (linearConstraints : LinearConstraints F)
    (quadraticConstraints : List QuadraticConstraint)
    (linear rows triples : Nat) :
    ChallengeIndex rows linearConstraints.rhs.length
      (3 * quadraticConstraints.length) triples → F :=
  Ligero.dotCoefficient quadraticConstraints
    (polynomials.witnessRegion point layout)
    (linear * layout.witnessesPerRow)
    (linear * layout.witnessesPerRow + triples * layout.witnessesPerRow)
    (linear * layout.witnessesPerRow + triples * layout.witnessesPerRow +
      triples * layout.witnessesPerRow)
    linearConstraints rows triples

theorem copyDifference_eq_zero {rows : Nat}
    (hdot : ∀ j, polynomials.dotCoefficient point layout linearConstraints
      quadraticConstraints linear rows triples j = 0) {m : Nat}
    (hm : m < 3 * quadraticConstraints.length) :
    copyDifference quadraticConstraints
      (polynomials.witnessRegion point layout)
      (linear * layout.witnessesPerRow)
      (linear * layout.witnessesPerRow + triples * layout.witnessesPerRow)
      (linear * layout.witnessesPerRow + triples * layout.witnessesPerRow +
        triples * layout.witnessesPerRow) m = 0 :=
  hdot (.inr (.inr (.inl ⟨m, hm⟩)))

/-- If no constraint and no copy is off, and the quadratic rows are products,
then the witness satisfies the constraints. -/
theorem witness_satisfied {rows : Nat}
    (hratio : layout.quadraticConstraintsPerRow ≤ layout.witnessesPerRow)
    (htriples : layout.numQuadraticTriples = .ok triples)
    (hquadraticLength :
      layout.numQuadraticConstraints = quadraticConstraints.length)
    (hlinearRange : linearConstraints.InRange layout.numWitnesses)
    (hquadraticRange :
      Tableau.WitnessesInRange layout.numWitnesses quadraticConstraints)
    (hdot : ∀ j, polynomials.dotCoefficient point layout linearConstraints
      quadraticConstraints linear rows triples j = 0)
    (hdifference : ∀ t < triples, ∀ j < layout.witnessesPerRow,
      (polynomials.difference (TableauLayout.firstWitnessRow + linear) triples
        t).eval (point (layout.numRequestedColumns + j)) = 0) :
    linearConstraints.Satisfied
        (fun i => (polynomials.witness point layout).getD i 0) ∧
      ∀ q ∈ quadraticConstraints, q.Satisfied
        fun i => (polynomials.witness point layout).getD i 0 := by
  constructor
  · intro c hc
    have hzero := hdot (.inr (.inl ⟨c, hc⟩))
    have hvalue : lhs linearConstraints.lhsTerms (fun i =>
        (polynomials.witnessRegion point layout).getD i 0) c =
          linearConstraints.rhs.getD c 0 :=
      sub_eq_zero.mp hzero
    rw [List.getD_eq_getElem _ _ hc] at hvalue
    rw [← hvalue, lhs, lhs]
    congr 1
    refine List.map_congr_left fun term hterm => ?_
    rw [RowPolynomials.witness_getD (hlinearRange term hterm).2]
  · intro q hq
    obtain ⟨i, hi, rfl⟩ := List.mem_iff_getElem.mp hq
    have hcopies : quadraticConstraints.length ≤
        triples * layout.witnessesPerRow := by
      rw [← hquadraticLength]
      exact (divCeil_mul_ge htriples).trans (Nat.mul_le_mul_left triples hratio)
    obtain ⟨t, j, hj, hsplit⟩ : ∃ t j, j < layout.witnessesPerRow ∧
        i = t * layout.witnessesPerRow + j :=
      ⟨i / layout.witnessesPerRow, i % layout.witnessesPerRow,
        Nat.mod_lt i (Nat.pos_of_lt_mul_left (hi.trans_le hcopies)),
        (Nat.div_add_mod' i _).symm⟩
    have ht : t < triples :=
      Nat.lt_of_mul_lt_mul_right (a := layout.witnessesPerRow) (by omega)
    have hproduct := hdifference t ht j hj
    rw [difference_eval linear triples t hj] at hproduct
    have hxs : linear * layout.witnessesPerRow + i =
        (linear + t) * layout.witnessesPerRow + j := by rw [hsplit]; ring
    have hys : linear * layout.witnessesPerRow +
        triples * layout.witnessesPerRow + i =
          (linear + triples + t) * layout.witnessesPerRow + j := by
      rw [hsplit]
      ring
    have hzs : linear * layout.witnessesPerRow +
        triples * layout.witnessesPerRow + triples * layout.witnessesPerRow +
          i = (linear + triples + triples + t) * layout.witnessesPerRow +
            j := by
      rw [hsplit]
      ring
    have hx := copyDifference_eq_zero hdot (m := i * 3) (by omega)
    have hy := copyDifference_eq_zero hdot (m := i * 3 + 1) (by omega)
    have hz := copyDifference_eq_zero hdot (m := i * 3 + 2) (by omega)
    rw [copyDifference_zero, hxs, List.getD_eq_getElem _ _ hi,
      sub_eq_zero] at hx
    rw [copyDifference_one, hys, List.getD_eq_getElem _ _ hi,
      sub_eq_zero] at hy
    rw [copyDifference_two, hzs, List.getD_eq_getElem _ _ hi,
      sub_eq_zero] at hz
    obtain ⟨hqx, hqy, hqz⟩ := hquadraticRange _ (List.getElem_mem hi)
    rw [QuadraticConstraint.Satisfied, RowPolynomials.witness_getD hqx,
      RowPolynomials.witness_getD hqy, RowPolynomials.witness_getD hqz, ← hx,
      ← hy, ← hz]
    exact (sub_eq_zero.mp hproduct).symm

end Extraction

section Fooled

open Finset Proximity

variable {F : Type} [Field F] [Fintype F] [DecidableEq F]
  {layout : TableauLayout} {point : Nat → F} {polynomials : RowPolynomials F}
  {dblock leaves e bound linear triples rows : Nat} {node : Fin leaves → F}
  {columnAt : Fin leaves → List F} {errors : Finset (Fin leaves)}
  {linearConstraints : LinearConstraints F}
  {quadraticConstraints : List QuadraticConstraint}

/-- If a linear constraint or a copy is off, then for most challenges few
columns pass the dot test. -/
theorem NearCodewords.dot_fooled
    (h : NearCodewords layout dblock e bound node columnAt polynomials errors)
    (hvalid : layout.parameters.Valid) (hdblock : layout.dblock = .ok dblock)
    (hpoint : Set.InjOn point (Set.Iio layout.numColumns))
    (hlinear : layout.numLinearConstraintRows = .ok linear)
    (htriples : layout.numQuadraticTriples = .ok triples)
    (hlength : polynomials.rows.length = linear + 3 * triples)
    (hquadraticLength :
      layout.numQuadraticConstraints = quadraticConstraints.length)
    (hlinearRange : linearConstraints.InRange layout.numWitnesses)
    (hquadraticRange :
      Tableau.WitnessesInRange layout.numWitnesses quadraticConstraints)
    {j : ChallengeIndex rows linearConstraints.rhs.length
      (3 * quadraticConstraints.length) triples}
    (hj : polynomials.dotCoefficient point layout linearConstraints
      quadraticConstraints linear rows triples j ≠ 0) :
    ∃ fooled : Finset (ChallengeIndex rows linearConstraints.rhs.length
        (3 * quadraticConstraints.length) triples → F),
      fooled.card * Fintype.card F ≤ Fintype.card F ^ Fintype.card
        (ChallengeIndex rows linearConstraints.rhs.length
          (3 * quadraticConstraints.length) triples) ∧
      ∀ v ∉ fooled, ∀ (vector : List F) (parts : List (List F)) (dot : F[X]),
        innerProductVector layout linearConstraints
            (LigeroChallenges.ofVector v).linearConstraintAlphas
            quadraticConstraints
            (LigeroChallenges.ofVector v).quadraticConstraintAlphas =
          .ok vector →
        chunks vector layout.witnessesPerRow = .ok parts →
        dot.degree < dblock →
        (valuesAt point layout.witnessColumns dot).sum =
          innerProduct linearConstraints.rhs
            (LigeroChallenges.ofVector v).linearConstraintAlphas →
        Finset.card {k | dotValue (columnAt k) ((parts.map (partPolynomial layout
          point)).map (eval (node k))) = dot.eval (node k)} ≤ bound := by
  have hratio := hvalid.quadratic_le
  have hblock : layout.blockSize =
      layout.numRequestedColumns + layout.witnessesPerRow := hvalid.block
  have hblockColumns : layout.blockSize ≤ layout.numColumns := by
    have hcolumns : 2 * layout.blockSize - 1 + layout.numRequestedColumns <
        layout.numColumns := hvalid.columns
    have hnreq : 0 < layout.numRequestedColumns := hvalid.nreq_pos
    omega
  refine ⟨_, card_affine_mul_le
    (valuesAt point layout.witnessColumns polynomials.linear).sum hj, ?_⟩
  intro v hv vector parts dot hvector hchunks hdegree hsum
  rw [mem_filter_univ] at hv
  have hregion : (polynomials.witnessRegion point layout).length =
      layout.witnessesPerRow * (linear + 3 * triples) := by
    rw [length_witnessRegion, hlength]
  have hinRange : ConstraintsInRange layout linearConstraints
      (LigeroChallenges.ofVector v).linearConstraintAlphas quadraticConstraints
      (LigeroChallenges.ofVector v).quadraticConstraintAlphas :=
    ⟨hquadraticLength, List.length_ofFn, List.length_ofFn, hlinearRange,
      hquadraticRange⟩
  obtain ⟨vector', hvector', hvectorLength, hproduct⟩ :=
    innerProductVector_returns hinRange hratio hlinear htriples hregion
  rw [hvector, Except.ok.injEq] at hvector'
  subst hvector'
  obtain ⟨hpartLengths, hdotSum⟩ := sum_dotSum hpoint hblockColumns hblock
    hchunks (hvectorLength.trans length_witnessRegion)
  refine h.card_dotValue_le hdblock ?_ hdegree ?_
  · intro part hpart
    obtain ⟨values, hvalues, rfl⟩ := List.mem_map.mp hpart
    have hnodes : (List.replicate layout.numRequestedColumns 0 ++
        values).length = layout.blockSize := by
      rw [List.length_append, List.length_replicate, hpartLengths values hvalues,
        hblock]
    have hpartDegree := degree_interpolant_lt hpoint
      (hnodes.trans_le hblockColumns)
    rwa [hnodes] at hpartDegree
  · rintro rfl
    apply hv
    rw [hsum, hproduct, dot_combination, ← add_assoc,
      add_comm _ (innerProduct linearConstraints.rhs _), add_assoc,
      left_eq_add] at hdotSum
    exact hdotSum

/-- If a triple of quadratic rows does not hold products, then for most
challenges few columns pass the quadratic test. -/
theorem NearCodewords.quadratic_fooled {linearLength copies : Nat}
    (h : NearCodewords layout dblock e bound node columnAt polynomials errors)
    (hdblock : layout.dblock = .ok dblock) {t j : Nat} (ht : t < triples)
    (hj : j < layout.witnessesPerRow)
    (hne : (polynomials.difference (TableauLayout.firstWitnessRow + linear)
      triples t).eval (point (layout.numRequestedColumns + j)) ≠ 0) :
    ∃ fooled : Finset (ChallengeIndex rows linearLength copies triples → F),
      fooled.card * Fintype.card F ≤ Fintype.card F ^ Fintype.card
        (ChallengeIndex rows linearLength copies triples) ∧
      ∀ v ∉ fooled, ∀ quadratic : F[X], quadratic.degree < dblock →
        (∀ i ∈ layout.witnessColumns, quadratic.eval (point i) = 0) →
        Finset.card {k | quadraticValue (columnAt k)
          (TableauLayout.firstWitnessRow + linear) triples
          (LigeroChallenges.ofVector v).quadraticProofBlind =
            quadratic.eval (node k)} ≤ bound := by
  have hcoefficient : (Sum.elim (fun _ => 0) (Sum.elim (fun _ => 0) (Sum.elim
      (fun _ => 0) fun i : Fin triples => (polynomials.difference
        (TableauLayout.firstWitnessRow + linear) triples i).eval
          (point (layout.numRequestedColumns + j)))) :
      ChallengeIndex rows linearLength copies triples → F)
        (.inr (.inr (.inr ⟨t, ht⟩))) ≠ 0 := hne
  refine ⟨_, card_affine_mul_le (polynomials.quadratic.eval
    (point (layout.numRequestedColumns + j))) hcoefficient, ?_⟩
  intro v hv quadratic hdegree hzero
  rw [mem_filter_univ] at hv
  refine h.card_quadraticValue_le hdblock hdegree ?_
  rintro rfl
  apply hv
  have hcolumn : layout.numRequestedColumns + j ∈ layout.witnessColumns :=
    List.mem_range'_1.mpr ⟨Nat.le_add_right _ _, Nat.add_lt_add_left hj _⟩
  have hsum := hzero _ hcolumn
  rw [RowPolynomials.quadraticSum, eval_addCombination, List.map_map,
    sum_zipIdx _ 0, LigeroChallenges.ofVector, List.length_ofFn,
    Finset.sum_range] at hsum
  simp only [Function.comp_apply, eval_C, ofFn_getD] at hsum
  simpa only [Fintype.sum_sum_type, Sum.elim_inl, Sum.elim_inr, mul_zero,
    Finset.sum_const_zero, zero_add] using hsum

/-- The rows that the low degree test blinds, at the places of the blinds. -/
def blindedRows {linearLength copies : Nat} (columnAt : Fin leaves → List F) :
    ChallengeIndex rows linearLength copies triples → Fin leaves → F :=
  Sum.elim (fun i k => (columnAt k).getD
    (TableauLayout.firstWitnessRow + i) 0) fun _ => 0

omit [Fintype F] [DecidableEq F] in
/-- The low degree test is a random combination of the rows. -/
theorem lowDegreeValue_combination {linearLength copies : Nat}
    (hcolumns : ∀ k, (columnAt k).length =
      TableauLayout.firstWitnessRow + rows)
    (v : ChallengeIndex rows linearLength copies triples → F) :
    (fun k => lowDegreeValue (columnAt k)
      (LigeroChallenges.ofVector v).lowDegreeTestBlind) = combination
        (fun k => (columnAt k).getD TableauLayout.lowDegreeTestRow 0)
        (blindedRows columnAt) v := by
  funext k
  have hdrop : rows ≤
      ((columnAt k).drop TableauLayout.firstWitnessRow).length := by
    rw [List.length_drop, hcolumns]
    omega
  rw [lowDegreeValue, LigeroChallenges.ofVector, innerProduct_ofFn _ hdrop]
  simp [combination, blindedRows, Fintype.sum_sum_type]

/-- The rows are those of codewords in all but a few columns. -/
def RowsNear (blockSize e rows : Nat) (node : Fin leaves → F)
    (columnAt : Fin leaves → List F) : Prop :=
  ∃ c ∈ evaluations node blockSize, ∃ codewords : Fin rows → Fin leaves → F,
    (∀ i, codewords i ∈ evaluations node blockSize) ∧
    Finset.card {k | (columnAt k).getD TableauLayout.lowDegreeTestRow 0 ≠ c k ∨
      ∃ i : Fin rows, (columnAt k).getD
        (TableauLayout.firstWitnessRow + i) 0 ≠ codewords i k} ≤ e

/-- Rows that are not near to codewords are found out by the low degree test,
for most challenges and in many columns. -/
theorem low_fooled {linearLength copies : Nat}
    (hnode : Function.Injective node)
    (he : 6 * e < leaves + 1 - layout.blockSize)
    (hcolumns : ∀ k, (columnAt k).length =
      TableauLayout.firstWitnessRow + rows)
    (hfar : ¬ RowsNear layout.blockSize e rows node columnAt) :
    ∃ fooled : Finset (ChallengeIndex rows linearLength copies triples → F),
      fooled.card * Fintype.card F ≤ (e + 1) * Fintype.card F ^ Fintype.card
        (ChallengeIndex rows linearLength copies triples) ∧
      ∀ v ∉ fooled, ∀ low : F[X], low.degree < layout.blockSize →
        Finset.card {k | lowDegreeValue (columnAt k)
          (LigeroChallenges.ofVector v).lowDegreeTestBlind =
            low.eval (node k)} ≤ leaves - e - 1 := by
  have hd : ∀ c ∈ evaluations node layout.blockSize, c ≠ 0 →
      leaves + 1 - layout.blockSize ≤ hammingNorm c := by
    have h := evaluations_distance (n := layout.blockSize) hnode
    rwa [Fintype.card_fin] at h
  rcases agree_or_card_close_le hd he
    (fun k => (columnAt k).getD TableauLayout.lowDegreeTestRow 0)
    (blindedRows columnAt :
      ChallengeIndex rows linearLength copies triples → Fin leaves → F)
    with ⟨c, hc, codewords, hcode, hagree⟩ | ⟨fooled, hcard, hfooled⟩
  · refine absurd ⟨c, hc, fun i => codewords (.inl i), fun i => hcode _,
      (card_le_card ?_).trans hagree⟩ hfar
    intro k hk
    rw [mem_filter_univ] at hk ⊢
    exact hk.imp_right fun ⟨i, hi⟩ => ⟨.inl i, hi⟩
  · refine ⟨fooled, hcard, fun v hv low hlow => ?_⟩
    have hcount := card_agree_add_hammingDist (fun k => lowDegreeValue
      (columnAt k) (LigeroChallenges.ofVector v).lowDegreeTestBlind)
      fun k => low.eval (node k)
    have hdist : e < hammingDist (fun k => lowDegreeValue (columnAt k)
        (LigeroChallenges.ofVector v).lowDegreeTestBlind)
        fun k => low.eval (node k) := by
      by_contra hle
      rw [lowDegreeValue_combination hcolumns] at hle
      exact hv (hfooled v
        ⟨_, ⟨low, hlow, fun _ => rfl⟩, Nat.not_lt.mp hle⟩)
    rw [Fintype.card_fin] at hcount
    omega

omit [Fintype F] in
/-- Rows that are near to codewords are near to those of polynomials, and the
rows of the dot and of the quadratic test have one polynomial each that they
may be taken for. -/
theorem RowsNear.exists_nearCodewords (hnode : Function.Injective node)
    (h : RowsNear layout.blockSize e rows node columnAt)
    (hcolumns : ∀ k, (columnAt k).length =
      TableauLayout.firstWitnessRow + rows) :
    ∃ (polynomials : RowPolynomials F) (errors : Finset (Fin leaves)),
      polynomials.rows.length = rows ∧
      NearCodewords layout dblock e
        (max (leaves - e - 1) (dblock - 1 + 3 * e)) node columnAt polynomials
        errors := by
  obtain ⟨c, ⟨low, hlow, -⟩, codewords, hcode, hcard⟩ := h
  choose p hp heval using hcode
  obtain ⟨linear, hlinear, hlinearUnique⟩ := exists_card_agree_le hnode
    (fun k => (columnAt k).getD TableauLayout.dotProofRow 0) dblock e
  obtain ⟨quadratic, hquadratic, hquadraticUnique⟩ := exists_card_agree_le hnode
    (fun k => (columnAt k).getD TableauLayout.quadraticTestRow 0) dblock e
  rw [Fintype.card_fin] at hlinearUnique hquadraticUnique
  refine ⟨⟨low, linear, quadratic, List.ofFn p⟩, _, List.length_ofFn,
    ⟨hlow, hlinear, hquadratic, ?_⟩, hcard, ?_, hlinearUnique,
    hquadraticUnique⟩
  · intro row hrow
    obtain ⟨i, rfl⟩ := (List.mem_ofFn' p row).mp hrow
    exact hp i
  · intro k hk
    rw [mem_filter_univ, not_or, not_exists] at hk
    apply List.ext_getElem
    · rw [List.length_drop, hcolumns, List.length_map, List.length_ofFn]
      omega
    · intro i hi hi'
      rw [List.length_map, List.length_ofFn] at hi'
      have hvalue := not_not.mp (hk.2 ⟨i, hi'⟩)
      rw [← drop_getD, List.getD_eq_getElem _ _ hi, heval] at hvalue
      rw [hvalue, List.getElem_map, List.getElem_ofFn]

/-- The columns that pass all tests of a response. -/
noncomputable def passing (columnAt : Fin leaves → List F)
    (node : Fin leaves → F) (challenges : LigeroChallenges F)
    (parts : List F[X]) (linear triples : Nat) (low dot quadratic : F[X]) :
    Finset (Fin leaves) :=
  {k | lowDegreeValue (columnAt k) challenges.lowDegreeTestBlind =
      low.eval (node k) ∧
    dotValue (columnAt k) (parts.map (eval (node k))) = dot.eval (node k) ∧
    quadraticValue (columnAt k) (TableauLayout.firstWitnessRow + linear) triples
      challenges.quadraticProofBlind = quadratic.eval (node k)}

/-- For most challenges few columns pass the tests of any response. -/
def FewPass (layout : TableauLayout) (point : Nat → F) (dblock e : Nat)
    (node : Fin leaves → F) (columnAt : Fin leaves → List F)
    (linear triples : Nat) (linearConstraints : LinearConstraints F)
    (quadraticConstraints : List QuadraticConstraint) : Prop :=
  ∃ fooled : Finset (ChallengeIndex (linear + 3 * triples)
      linearConstraints.rhs.length (3 * quadraticConstraints.length) triples →
        F),
    fooled.card * Fintype.card F ≤ (e + 1) * Fintype.card F ^ Fintype.card
      (ChallengeIndex (linear + 3 * triples) linearConstraints.rhs.length
        (3 * quadraticConstraints.length) triples) ∧
    ∀ v ∉ fooled, ∀ (vector : List F) (parts : List (List F))
      (low dot quadratic : F[X]),
      innerProductVector layout linearConstraints
          (LigeroChallenges.ofVector v).linearConstraintAlphas
          quadraticConstraints
          (LigeroChallenges.ofVector v).quadraticConstraintAlphas =
        .ok vector →
      chunks vector layout.witnessesPerRow = .ok parts →
      low.degree < layout.blockSize → dot.degree < dblock →
      quadratic.degree < dblock →
      (valuesAt point layout.witnessColumns dot).sum =
        innerProduct linearConstraints.rhs
          (LigeroChallenges.ofVector v).linearConstraintAlphas →
      (∀ i ∈ layout.witnessColumns, quadratic.eval (point i) = 0) →
      (passing columnAt node (LigeroChallenges.ofVector v)
        (parts.map (partPolynomial layout point)) linear triples low dot
        quadratic).card ≤ max (leaves - e - 1) (dblock - 1 + 3 * e)

/-- Whatever the columns are, there is a witness such that few columns pass the
tests for constraints that it does not satisfy. -/
theorem exists_witness_or_fewPass
    (hvalid : layout.parameters.Valid) (hdblock : layout.dblock = .ok dblock)
    (hpoint : Set.InjOn point (Set.Iio layout.numColumns))
    (hnode : Function.Injective node)
    (hlinear : layout.numLinearConstraintRows = .ok linear)
    (htriples : layout.numQuadraticTriples = .ok triples)
    (hquadraticLength :
      layout.numQuadraticConstraints = quadraticConstraints.length)
    (hquadraticRange :
      Tableau.WitnessesInRange layout.numWitnesses quadraticConstraints)
    (hcolumns : ∀ k, (columnAt k).length =
      TableauLayout.firstWitnessRow + (linear + 3 * triples))
    (he : 6 * e < leaves + 1 - layout.blockSize) :
    ∃ witness : List F, witness.length = layout.numWitnesses ∧
      ∀ linearConstraints : LinearConstraints F,
        linearConstraints.InRange layout.numWitnesses →
        (linearConstraints.Satisfied (fun i => witness.getD i 0) ∧
          ∀ q ∈ quadraticConstraints, q.Satisfied
            fun i => witness.getD i 0) ∨
        FewPass layout point dblock e node columnAt linear triples
          linearConstraints quadraticConstraints := by
  have hpow (x : Nat) : x ≤ (e + 1) * x :=
    Nat.le_mul_of_pos_left x (Nat.succ_pos e)
  by_cases hnear : RowsNear layout.blockSize e (linear + 3 * triples) node
    columnAt
  · obtain ⟨polynomials, errors, hlength, hcodewords⟩ :=
      hnear.exists_nearCodewords hnode hcolumns
    have hwitness : layout.numWitnesses ≤
        (polynomials.witnessRegion point layout).length := by
      have hle : layout.numWitnesses ≤ linear * layout.witnessesPerRow :=
        divCeil_mul_ge hlinear
      rw [length_witnessRegion, hlength, Nat.mul_comm]
      exact hle.trans (Nat.mul_le_mul_right _ (Nat.le_add_right _ _))
    refine ⟨polynomials.witness point layout, ?_, fun linearConstraints
      hlinearRange => ?_⟩
    · rw [RowPolynomials.witness, List.length_take, Nat.min_eq_left hwitness]
    by_cases hdot : ∀ j, polynomials.dotCoefficient point layout
      linearConstraints quadraticConstraints linear (linear + 3 * triples)
        triples j = 0
    · by_cases hdifference : ∀ t < triples, ∀ j < layout.witnessesPerRow,
        (polynomials.difference (TableauLayout.firstWitnessRow + linear)
          triples t).eval (point (layout.numRequestedColumns + j)) = 0
      · exact Or.inl (witness_satisfied hvalid.quadratic_le htriples
          hquadraticLength hlinearRange hquadraticRange hdot hdifference)
      · push Not at hdifference
        obtain ⟨t, ht, j, hj, hne⟩ := hdifference
        obtain ⟨fooled, hcard, hfooled⟩ :=
          hcodewords.quadratic_fooled hdblock ht hj hne
        refine Or.inr ⟨fooled, hcard.trans (hpow _), ?_⟩
        intro v hv vector parts low dot quadratic _ _ _ _ hdegree _ hzero
        refine (card_le_card fun k hk => ?_).trans
          (hfooled v hv quadratic hdegree hzero)
        exact mem_filter_univ k |>.mpr (mem_filter_univ k |>.mp hk).2.2
    · push Not at hdot
      obtain ⟨j, hj⟩ := hdot
      obtain ⟨fooled, hcard, hfooled⟩ := hcodewords.dot_fooled hvalid hdblock
        hpoint hlinear htriples hlength hquadraticLength hlinearRange
        hquadraticRange hj
      refine Or.inr ⟨fooled, hcard.trans (hpow _), ?_⟩
      intro v hv vector parts low dot quadratic hvector hchunks _ hdegree _ hsum _
      refine (card_le_card fun k hk => ?_).trans
        (hfooled v hv vector parts dot hvector hchunks hdegree hsum)
      exact mem_filter_univ k |>.mpr (mem_filter_univ k |>.mp hk).2.1
  · refine ⟨List.replicate layout.numWitnesses 0, List.length_replicate,
      fun linearConstraints _ => Or.inr ?_⟩
    refine Exists.imp (fun fooled hfooled => ⟨hfooled.1, ?_⟩)
      (low_fooled hnode he hcolumns hnear)
    intro v hv vector parts low dot quadratic _ _ hdegree _ _ _ _
    refine (card_le_card fun k hk => ?_).trans
      ((hfooled.2 v hv low hdegree).trans (Nat.le_max_left _ _))
    exact mem_filter_univ k |>.mpr (mem_filter_univ k |>.mp hk).1

end Fooled

section Responses

variable {F : Type} [Field F] {layout : TableauLayout} {point : Nat → F}

/-- The parts of a quadratic proof, with the zeros between them. -/
def stitch (layout : TableauLayout) (quadratic : List F × List F) : List F :=
  quadratic.1 ++ List.replicate
    (layout.blockSize - layout.numRequestedColumns) 0 ++ quadratic.2

theorem stitchedQuadraticProof_eq {proof : LigeroProof F} {dblock : Nat}
    (hshape : proof.HasShape layout) (hdblock : layout.dblock = .ok dblock)
    (hnreq : layout.numRequestedColumns ≤ layout.blockSize) :
    (stitch layout proof.quadraticProof).length = dblock ∧
    proof.stitchedQuadraticProof layout =
      .ok (stitch layout proof.quadraticProof) := by
  have hle := blockSize_le_dblock hdblock
  have hdot := hshape.dotProof
  have hhigh := hshape.quadraticProofHigh
  rw [hdblock, Except.ok.injEq] at hdot
  rw [← hdot, checkedSub_of_le hle, Except.ok.injEq] at hhigh
  have hlow := hshape.quadraticProofLow
  have hlength : (stitch layout proof.quadraticProof).length = dblock := by
    rw [stitch, List.length_append, List.length_append, List.length_replicate,
      hlow, ← hhigh]
    omega
  have htake : proof.quadraticProof.1.take layout.blockSize =
      proof.quadraticProof.1 :=
    List.take_of_length_le (hlow.trans_le hnreq)
  refine ⟨hlength, ?_⟩
  rw [LigeroProof.stitchedQuadraticProof, hdblock, ok_bind]
  simp only [htake, hlow]
  rw [← stitch, assert_of hlength, ok_bind]
  rfl

/-- The stitched proof vanishes in the witness positions. -/
theorem stitch_eval_eq_zero {m : Nat} (hpoint : Set.InjOn point (Set.Iio m))
    (hblock : layout.blockSize =
      layout.numRequestedColumns + layout.witnessesPerRow)
    {quadratic : List F × List F}
    (hlow : quadratic.1.length = layout.numRequestedColumns)
    (hlength : (stitch layout quadratic).length ≤ m) :
    ∀ i ∈ layout.witnessColumns,
      (interpolant point (stitch layout quadratic)).eval (point i) = 0 := by
  intro i hi
  obtain ⟨hge, hlt⟩ := List.mem_range'_1.mp hi
  have hbound : i < (stitch layout quadratic).length := by
    rw [stitch, List.length_append, List.length_append, List.length_replicate]
    omega
  rw [eval_interpolant hpoint hlength hbound]
  simp only [stitch]
  rw [List.getElem_append_left (by
      rw [List.length_append, List.length_replicate]
      omega),
    List.getElem_append_right (by omega), List.getElem_replicate]

variable [DecidableEq F] [ExtendFieldElement F] {dblock linear triples : Nat}
  {linearConstraints : LinearConstraints F}
  {quadraticConstraints : List QuadraticConstraint}

/-- A column passes the tests of a response that is in order. -/
structure PassesTests (point : Nat → F) (layout : TableauLayout)
    (dblock linear triples : Nat) (linearConstraints : LinearConstraints F)
    (quadraticConstraints : List QuadraticConstraint)
    (challenges : LigeroChallenges F) (low dot : List F)
    (quadratic : List F × List F) (x : F) (column : List F) : Prop where
  low_length : low.length = layout.blockSize
  dot_length : dot.length = dblock
  quadratic_length : quadratic.1.length = layout.numRequestedColumns
  stitch_length : (stitch layout quadratic).length = dblock
  dot_sum : (valuesAt point layout.witnessColumns (interpolant point dot)).sum =
    innerProduct linearConstraints.rhs challenges.linearConstraintAlphas
  low_eq : lowDegreeValue column challenges.lowDegreeTestBlind =
    (interpolant point low).eval x
  dot_eq : ∃ vector parts, innerProductVector layout linearConstraints
      challenges.linearConstraintAlphas quadraticConstraints
      challenges.quadraticConstraintAlphas = .ok vector ∧
    chunks vector layout.witnessesPerRow = .ok parts ∧
    dotValue column ((parts.map (partPolynomial layout point)).map (eval x)) =
      (interpolant point dot).eval x
  quadratic_eq : quadraticValue column
      (TableauLayout.firstWitnessRow + linear) triples
      challenges.quadraticProofBlind =
    (interpolant point (stitch layout quadratic)).eval x

/-- The columns of the contents that pass the tests of a response. -/
noncomputable def passingPositions (point : Nat → F) (layout : TableauLayout)
    (dblock leaves linear triples : Nat)
    (linearConstraints : LinearConstraints F)
    (quadraticConstraints : List QuadraticConstraint)
    (contents : List (List F)) (challenges : LigeroChallenges F)
    (low dot : List F) (quadratic : List F × List F) : Finset Nat :=
  open scoped Classical in
  (Finset.range leaves).filter fun i => PassesTests point layout dblock linear
    triples linearConstraints quadraticConstraints challenges low dot quadratic
    (point (dblock + i)) (column contents (dblock + i))

omit [ExtendFieldElement F] in
/-- If few columns pass the tests of a response as polynomials, then few
positions pass those of the response. -/
theorem card_passingPositions_le [Fintype F] {leaves e : Nat}
    {contents : List (List F)}
    (hpoint : Set.InjOn point (Set.Iio layout.numColumns))
    (hblock : layout.blockSize =
      layout.numRequestedColumns + layout.witnessesPerRow)
    (hle : layout.blockSize ≤ dblock) (hdblock : dblock ≤ layout.numColumns)
    {v : ChallengeIndex (linear + 3 * triples) linearConstraints.rhs.length
      (3 * quadraticConstraints.length) triples → F}
    (hfew : ∀ (vector : List F) (parts : List (List F))
      (low dot quadratic : F[X]),
      innerProductVector layout linearConstraints
          (LigeroChallenges.ofVector v).linearConstraintAlphas
          quadraticConstraints
          (LigeroChallenges.ofVector v).quadraticConstraintAlphas =
        .ok vector →
      chunks vector layout.witnessesPerRow = .ok parts →
      low.degree < layout.blockSize → dot.degree < dblock →
      quadratic.degree < dblock →
      (valuesAt point layout.witnessColumns dot).sum =
        innerProduct linearConstraints.rhs
          (LigeroChallenges.ofVector v).linearConstraintAlphas →
      (∀ i ∈ layout.witnessColumns, quadratic.eval (point i) = 0) →
      (passing (fun k : Fin leaves => column contents (dblock + k))
        (fun k => point (dblock + k)) (LigeroChallenges.ofVector v)
        (parts.map (partPolynomial layout point)) linear triples low dot
        quadratic).card ≤ max (leaves - e - 1) (dblock - 1 + 3 * e))
    (low dot : List F) (quadratic : List F × List F) :
    (passingPositions point layout dblock leaves linear triples
      linearConstraints quadraticConstraints contents
      (LigeroChallenges.ofVector v) low dot quadratic).card ≤
        max (leaves - e - 1) (dblock - 1 + 3 * e) := by
  classical
  rcases Finset.eq_empty_or_nonempty (passingPositions point layout dblock
    leaves linear triples linearConstraints quadraticConstraints contents
    (LigeroChallenges.ofVector v) low dot quadratic) with hempty | ⟨i, hi⟩
  · rw [hempty, Finset.card_empty]
    exact Nat.zero_le _
  have hpasses := (Finset.mem_filter.mp hi).2
  obtain ⟨vector, parts, hvector, hchunks, -⟩ := hpasses.dot_eq
  have hdegree {nodes : List F} {n : Nat} (hlength : nodes.length = n)
      (hn : n ≤ layout.numColumns) :
      (interpolant point nodes).degree < n := by
    have h := degree_interpolant_lt hpoint (hlength.trans_le hn)
    rwa [hlength] at h
  refine le_trans ?_ (hfew vector parts (interpolant point low)
    (interpolant point dot) (interpolant point (stitch layout quadratic))
    hvector hchunks (hdegree hpasses.low_length (hle.trans hdblock))
    (hdegree hpasses.dot_length hdblock)
    (hdegree hpasses.stitch_length hdblock) hpasses.dot_sum
    (stitch_eval_eq_zero hpoint hblock hpasses.quadratic_length
      (hpasses.stitch_length.trans_le hdblock)))
  rw [← Finset.card_map Fin.valEmbedding]
  apply Finset.card_le_card
  intro i hi
  obtain ⟨hlt, hpasses⟩ := Finset.mem_filter.mp hi
  refine Finset.mem_map.mpr ⟨⟨i, Finset.mem_range.mp hlt⟩, ?_, rfl⟩
  obtain ⟨vector', parts', hvector', hchunks', hdot⟩ := hpasses.dot_eq
  rw [hvector, Except.ok.injEq] at hvector'
  subst hvector'
  rw [hchunks, Except.ok.injEq] at hchunks'
  subst hchunks'
  rw [passing, Finset.mem_filter_univ]
  exact ⟨hpasses.low_eq, hdot, hpasses.quadratic_eq⟩

end Responses

section Verify

variable {F : Type} [Field F] [DecidableEq F] [CodecFieldElement F]
  [ExtendFieldElement F] [Primitives] [SamplesField F] [SamplesNaturals]
  {point : Nat → F} {layout : TableauLayout} {prover : LigeroProver F}
  {verifier : LigeroVerifier F} {linear triples : Nat}
  {linearConstraints : LinearConstraints F}

omit [DecidableEq F] [CodecFieldElement F] [Primitives] [SamplesField F]
  [SamplesNaturals] in
/-- A verifier has a prover that it matches. -/
theorem LigeroVerifier.exists_matching {circuit : Circuit F}
    {parameters : LigeroParameters} (hvalid : parameters.Valid)
    (hextend : InterpolatesUpTo point parameters.numColumns)
    (h : LigeroVerifier.new circuit parameters = .ok verifier) :
    ∃ (witnessLayout : WitnessLayout) (prover : LigeroProver F),
      WitnessLayout.fromCircuit circuit = .ok witnessLayout ∧
      Longfellow.quadraticConstraints circuit witnessLayout =
        .ok verifier.quadraticConstraints ∧
      Matching point ⟨parameters, witnessLayout.length,
        verifier.quadraticConstraints.length⟩ prover verifier := by
  obtain ⟨witnessLayout, hwitnessLayout, hresult⟩ := Exec.bind_eq_ok.mp h
  obtain ⟨constraints, hconstraints, -⟩ := Exec.bind_eq_ok.mp hresult
  obtain ⟨prover, verifier', -, hverifier', -, hprover, hmatching⟩ :=
    new_returns hvalid hextend hwitnessLayout hconstraints
  rw [h, Except.ok.injEq] at hverifier'
  subst hverifier'
  obtain rfl : verifier.quadraticConstraints = constraints :=
    hmatching.constraints.trans hprover
  exact ⟨witnessLayout, prover, hwitnessLayout, hconstraints, hmatching⟩

omit [Field F] [DecidableEq F] [CodecFieldElement F] [ExtendFieldElement F]
  [Primitives] [SamplesField F] [SamplesNaturals] in
theorem LigeroProof.HasShape.length_columns {proof : LigeroProof F}
    (h : proof.HasShape layout)
    (hlinear : layout.numLinearConstraintRows = .ok linear)
    (htriples : layout.numQuadraticTriples = .ok triples) :
    proof.tableauColumns.length =
      TableauLayout.firstWitnessRow + linear + 3 * triples := by
  have hnumRows := h.numRows
  rw [TableauLayout.numRows, hlinear, ok_bind, TableauLayout.numQuadraticRows,
    htriples] at hnumRows
  exact (Except.ok.inj hnumRows).symm

omit [DecidableEq F] [CodecFieldElement F] [Primitives] [SamplesField F]
  [SamplesNaturals] in
/-- A proof of the right shape reveals the columns that were asked for. -/
theorem Matching.reveals (h : Matching point layout prover verifier)
    {proof : LigeroProof F} (hshape : proof.HasShape layout)
    (hrows : TableauLayout.firstWitnessRow ≤ proof.tableauColumns.length)
    {indices : List Nat} (hcount : indices.length = layout.numRequestedColumns)
    (hnodup : indices.Nodup)
    (hlt : ∀ i ∈ indices,
      i < layout.numColumns - (2 * layout.blockSize - 1)) :
    Reveals layout point (2 * layout.blockSize - 1) indices
      proof.tableauColumns := by
  refine ⟨h.valid.dblock_eq _ _, h.verifier_block_ncol.1, hnodup,
    fun i hi => ?_, fun row hrow => ?_, hrows⟩
  · have := hlt i hi
    omega
  · rw [hshape.tableauColumns row hrow, hcount]

omit [DecidableEq F] [CodecFieldElement F] [Primitives] [SamplesField F]
  [SamplesNaturals] in
/-- The inner product vector exists, and is made of whole parts. -/
theorem Matching.exists_parts (h : Matching point layout prover verifier)
    (hlinear : layout.numLinearConstraintRows = .ok linear)
    (htriples : layout.numQuadraticTriples = .ok triples)
    (hlinearRange : linearConstraints.InRange layout.numWitnesses)
    (hquadraticRange : Tableau.WitnessesInRange layout.numWitnesses
      verifier.quadraticConstraints)
    {linearAlphas quadraticAlphas : List F}
    (hlinearAlphas : linearAlphas.length = linearConstraints.rhs.length)
    (hquadraticAlphas : quadraticAlphas.length =
      3 * verifier.quadraticConstraints.length) :
    ∃ vector parts,
      innerProductVector layout linearConstraints linearAlphas
        verifier.quadraticConstraints quadraticAlphas = .ok vector ∧
      chunks vector layout.witnessesPerRow = .ok parts ∧
      ∀ part ∈ parts, part.length = layout.witnessesPerRow := by
  have hinRange : ConstraintsInRange layout linearConstraints linearAlphas
      verifier.quadraticConstraints quadraticAlphas :=
    ⟨h.quadratic_length.trans (congrArg List.length h.constraints).symm,
      hlinearAlphas, hquadraticAlphas, hlinearRange, hquadraticRange⟩
  obtain ⟨vector, hvector, hlength, -⟩ := innerProductVector_returns hinRange
    h.valid.quadratic_le hlinear htriples
    (List.length_replicate (a := (0 : F)))
  obtain ⟨parts, hchunks⟩ : ∃ parts,
      chunks vector layout.witnessesPerRow = .ok parts :=
    ⟨_, chunks_eq_ok.mpr
      ⟨h.valid.quadratic_pos.trans_le h.valid.quadratic_le, rfl⟩⟩
  exact ⟨vector, parts, hvector, hchunks,
    (chunks_length hchunks (hlength.trans List.length_replicate)).2⟩

/-- Every column that an accepted proof reveals passes the tests, and is found
in the tree. -/
theorem Matching.verify_ensures (h : Matching point layout prover verifier)
    (hlinear : layout.numLinearConstraintRows = .ok linear)
    (htriples : layout.numQuadraticTriples = .ok triples)
    (hlinearRange : linearConstraints.InRange layout.numWitnesses)
    (hquadraticRange : Tableau.WitnessesInRange layout.numWitnesses
      verifier.quadraticConstraints)
    {proof : LigeroProof F} (hshape : proof.HasShape layout)
    (commitment : Root) (transcript : Transcript) :
    Ensures (verifier.verify proof commitment transcript linearConstraints)
      fun last => ∃ (v : ChallengeIndex (linear + 3 * triples)
          linearConstraints.rhs.length
          (3 * verifier.quadraticConstraints.length) triples → F)
        (indices : List Nat),
        Draws layout linearConstraints.rhs.length
          verifier.quadraticConstraints.length transcript proof
          (LigeroChallenges.ofVector v) indices last ∧
        indices.Nodup ∧
        (∀ i ∈ indices, i < layout.numColumns - (2 * layout.blockSize - 1)) ∧
        verifier.checkInclusion proof commitment indices = .ok () ∧
        ∀ k i, indices[k]? = some i →
          PassesTests point layout (2 * layout.blockSize - 1) linear triples
            linearConstraints verifier.quadraticConstraints
            (LigeroChallenges.ofVector v) proof.lowDegreeTestProof
            proof.dotProof proof.quadraticProof
            (point (2 * layout.blockSize - 1 + i))
            (column proof.tableauColumns k) := by
  obtain rfl := h.verifier_layout
  set layout := verifier.tableauLayout with hlayout
  have hvalid := h.valid
  have hdblock : layout.dblock = .ok (2 * layout.blockSize - 1) :=
    hvalid.dblock_eq _ _
  have hle := blockSize_le_dblock hdblock
  have hblock : layout.blockSize =
      layout.numRequestedColumns + layout.witnessesPerRow := hvalid.block
  have hcolumns : 2 * layout.blockSize - 1 + layout.numRequestedColumns <
      layout.numColumns := hvalid.columns
  have hpoint := h.verifier_block_ncol.1
  have hdblockColumns : 2 * layout.blockSize - 1 ≤ layout.numColumns := by
    omega
  intro last hverify
  obtain ⟨⟨challenges, sampled⟩, hchallenges, hverify⟩ :=
    Exec.bind_eq_ok.mp hverify
  simp only at hverify
  obtain ⟨dblock, hdblock', hverify⟩ := Exec.bind_eq_ok.mp hverify
  rw [← hlayout, hdblock, Except.ok.injEq] at hdblock'
  subst hdblock'
  obtain ⟨leaves, hleaves, hverify⟩ := Exec.bind_eq_ok.mp hverify
  rw [← hlayout, checkedSub_of_le hdblockColumns, Except.ok.injEq] at hleaves
  subst hleaves
  obtain ⟨⟨indices, last'⟩, hindices, hverify⟩ := Exec.bind_eq_ok.mp hverify
  simp only at hverify
  obtain ⟨_, hlow, hverify⟩ := Exec.bind_eq_ok.mp hverify
  obtain ⟨_, hproduct, hverify⟩ := Exec.bind_eq_ok.mp hverify
  obtain ⟨vector, hvector, hverify⟩ := Exec.bind_eq_ok.mp hverify
  obtain ⟨_, hdot, hverify⟩ := Exec.bind_eq_ok.mp hverify
  obtain ⟨_, hquadratic, hverify⟩ := Exec.bind_eq_ok.mp hverify
  obtain ⟨_, hinclusion, hverify⟩ := Exec.bind_eq_ok.mp hverify
  cases hverify
  have hgenerated := LigeroChallenges.generate_returns (F := F)
    (writeHashOfA transcript) hlinear htriples linearConstraints.rhs.length
    verifier.quadraticConstraints.length
  obtain ⟨_, heq, hrows, halphas, hcopies, hblinds⟩ := hgenerated
  rw [hchallenges, Except.ok.injEq] at heq
  subst heq
  obtain ⟨v, rfl⟩ :=
    LigeroChallenges.exists_ofVector hrows halphas hcopies hblinds
  obtain ⟨hcount, hnodup, hlt⟩ :=
    generateNaturalsWithoutReplacement_ensures _ _ _ _ hindices
  refine ⟨v, indices, ⟨sampled, hchallenges, hindices⟩, hnodup, hlt, hinclusion,
    fun k i hi => ?_⟩
  -- The shape of what the checks read.
  have hrowCount := hshape.length_columns hlinear htriples
  have hreveals := h.reveals hshape (by omega) hcount hnodup hlt
  have hdotLength : proof.dotProof.length = 2 * layout.blockSize - 1 := by
    have hdot := hshape.dotProof
    rw [hdblock, Except.ok.injEq] at hdot
    exact hdot.symm
  obtain ⟨hstitchLength, hstitched⟩ :=
    stitchedQuadraticProof_eq hshape hdblock (by omega)
  obtain ⟨_, parts, hvector', hchunks, hparts⟩ := h.exists_parts hlinear
    htriples hlinearRange hquadraticRange halphas hcopies
  rw [hvector, Except.ok.injEq] at hvector'
  subst hvector'
  have hfirst : layout.firstQuadraticConstraintRow =
      .ok (TableauLayout.firstWitnessRow + linear) := by
    rw [TableauLayout.firstQuadraticConstraintRow, hlinear]
    rfl
  have hpoints : point (2 * layout.blockSize - 1 + i) =
      point (i + (2 * layout.blockSize - 1)) := by
    rw [Nat.add_comm]
  refine ⟨hshape.lowDegreeTestProof, hdotLength, hshape.quadraticProofLow,
    hstitchLength, ?_, ?_, ⟨vector, parts, hvector, hchunks, ?_⟩, ?_⟩
  · have heq := ensure_eq_ok.mp hproduct
    rw [wantDotProduct_eq, proofDotProduct_eq_sum hpoint
      (hdotLength.trans_le hdblockColumns)
      (hblock.symm.trans_le (hle.trans hdotLength.ge))] at heq
    exact heq.symm
  · rw [hpoints]
    exact checkLowDegree_ensures hreveals h.verifier_block_ncol
      hshape.lowDegreeTestProof _ _ hlow k i hi
  · rw [hpoints]
    refine checkDotRow_ensures hreveals h.verifier_block_ncol
      h.verifier_dblock_ncol hdotLength hchunks (fun part hpart => ?_) _ hdot k
      i hi
    rw [hparts part hpart]
    exact hblock.symm
  · rw [hpoints]
    exact checkQuadratic_ensures hreveals h.verifier_dblock_ncol hstitched
      hfirst htriples hblinds.le hrowCount.ge _ hquadratic k i hi

variable [Fintype F]

/-- For most challenges, a proof against the root of the tree is accepted only
if all columns that are drawn after its tests are among few of them, which are
determined by the contents, the challenges and the tests. -/
def LigeroVerifier.AcceptsRarely (verifier : LigeroVerifier F)
    (contents : List (List F)) (tree : MerkleTree)
    (linearConstraints : LinearConstraints F)
    (dblock leaves e linear triples : Nat) : Prop :=
  ∃ fooled : Finset (ChallengeIndex (linear + 3 * triples)
      linearConstraints.rhs.length (3 * verifier.quadraticConstraints.length)
      triples → F),
    fooled.card * Fintype.card F ≤ (e + 1) * Fintype.card F ^ Fintype.card
      (ChallengeIndex (linear + 3 * triples) linearConstraints.rhs.length
        (3 * verifier.quadraticConstraints.length) triples) ∧
    ∃ positions : LigeroChallenges F → List F → List F → List F × List F →
        Finset Nat,
      (∀ v ∉ fooled, ∀ low dot quadratic,
        (positions (LigeroChallenges.ofVector v) low dot quadratic).card ≤
          max (leaves - e - 1) (dblock - 1 + 3 * e)) ∧
      ∀ (proof : LigeroProof F) (transcript last : Transcript),
        proof.HasShape verifier.tableauLayout →
        verifier.verify proof (Root.ofNode (tree.digest 1)) transcript
          linearConstraints = .ok last →
        ∃ (v : ChallengeIndex (linear + 3 * triples)
            linearConstraints.rhs.length
            (3 * verifier.quadraticConstraints.length) triples → F)
          (indices : List Nat),
          Draws verifier.tableauLayout linearConstraints.rhs.length
            verifier.quadraticConstraints.length transcript proof
            (LigeroChallenges.ofVector v) indices last ∧
          (CollisionFreeOpening contents dblock leaves tree proof indices →
            ∀ i ∈ indices, i ∈ positions (LigeroChallenges.ofVector v)
              proof.lowDegreeTestProof proof.dotProof proof.quadraticProof)

end Verify

section Sample

open scoped Silent

end Sample

end Longfellow.Ligero
