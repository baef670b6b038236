/-
What the tests of Ligero say about the witness positions of rows that are
codewords: the dot proof sums to the inner product with them, and the quadratic
test compares products of rows with rows.
-/
import Longfellow.Ligero.Codewords

namespace Longfellow.Ligero

open Exec Polynomial ReedSolomon

section Combinations

variable {F : Type} [Field F]

open RowPolynomials

theorem eval_addCombination (start : F[X]) (terms : List (F[X] × F[X]))
    (x : F) :
    (addCombination start terms).eval x = start.eval x +
      (terms.map fun term => term.1.eval x * term.2.eval x).sum := by
  induction terms generalizing start with
  | nil => simp [addCombination]
  | cons term terms ih =>
      rw [addCombination, List.foldl_cons]
      have h := ih (start + term.1 * term.2)
      rw [addCombination] at h
      rw [h, eval_add, eval_mul, List.map_cons, List.sum_cons, add_assoc]

theorem degree_addCombination_lt {start : F[X]} {terms : List (F[X] × F[X])}
    {n : Nat} (hstart : start.degree < n)
    (hterms : ∀ term ∈ terms, (term.1 * term.2).degree < n) :
    (addCombination start terms).degree < n := by
  induction terms generalizing start with
  | nil => exact hstart
  | cons term terms ih =>
      rw [addCombination, List.foldl_cons]
      apply ih
      · exact (degree_add_le _ _).trans_lt
          (max_lt hstart (hterms term List.mem_cons_self))
      · exact fun other hmem => hterms other (List.mem_cons_of_mem _ hmem)

theorem degree_mul_lt {p q : F[X]} {a b : Nat} (hp : p.degree < a)
    (hq : q.degree < b) : (p * q).degree < (a + b - 1 : Nat) := by
  rcases eq_or_ne p 0 with rfl | hp0
  · rw [zero_mul, degree_zero]
    exact WithBot.bot_lt_coe _
  rcases eq_or_ne q 0 with rfl | hq0
  · rw [mul_zero, degree_zero]
    exact WithBot.bot_lt_coe _
  have ha : p.natDegree < a := (natDegree_lt_iff_degree_lt hp0).mpr hp
  have hb : q.natDegree < b := (natDegree_lt_iff_degree_lt hq0).mpr hq
  apply (natDegree_lt_iff_degree_lt (mul_ne_zero hp0 hq0)).mp
  rw [natDegree_mul hp0 hq0]
  omega

end Combinations

section Sums

variable {F : Type} [Field F] {polynomials : RowPolynomials F}
  {layout : TableauLayout} {point : Nat → F} {dblock : Nat}

open RowPolynomials

theorem all_getD (row : Nat) :
    polynomials.all.getD (TableauLayout.firstWitnessRow + row) 0 =
      polynomials.rows.getD row 0 := by
  rw [Nat.add_comm]
  rfl

namespace RowPolynomials.Codewords

/-- A multiple of a row is as low as a row. -/
theorem degree_lowDegreeSum (h : polynomials.Codewords layout dblock)
    (blinds : List F) :
    (polynomials.lowDegreeSum blinds).degree < layout.blockSize := by
  apply degree_addCombination_lt h.low
  rintro ⟨factor, row⟩ hmem
  obtain ⟨hfactor, hrow⟩ := List.of_mem_zip hmem
  obtain ⟨blind, -, rfl⟩ := List.mem_map.mp hfactor
  rw [C_mul']
  exact (degree_smul_le blind row).trans_lt (h.rows row hrow)

/-- The product of a part and a row is as low as the dot proof. -/
theorem degree_dotSum (h : polynomials.Codewords layout dblock)
    (hdblock : layout.dblock = .ok dblock) {parts : List F[X]}
    (hparts : ∀ part ∈ parts, part.degree < layout.blockSize) :
    (polynomials.dotSum parts).degree < dblock := by
  apply degree_addCombination_lt h.linear
  rintro ⟨part, row⟩ hmem
  obtain ⟨hpart, hrow⟩ := List.of_mem_zip hmem
  obtain ⟨-, rfl⟩ := checkedSub_eq_ok.mp hdblock
  have hdegree := degree_mul_lt (hparts part hpart) (h.rows row hrow)
  rwa [← Nat.mul_two] at hdegree

theorem getD_degree (h : polynomials.Codewords layout dblock) (row : Nat) :
    (polynomials.rows.getD row 0).degree < layout.blockSize := by
  rw [List.getD_eq_getElem?_getD]
  rcases hrow : polynomials.rows[row]? with _ | p
  · rw [Option.getD_none, degree_zero]
    exact WithBot.bot_lt_coe _
  · exact h.rows p (List.mem_of_getElem? hrow)

/-- The products of rows are as low as the quadratic proof. -/
theorem degree_quadraticSum (h : polynomials.Codewords layout dblock)
    (hdblock : layout.dblock = .ok dblock) (linear triples : Nat)
    (blinds : List F) :
    (polynomials.quadraticSum (TableauLayout.firstWitnessRow + linear) triples
      blinds).degree < dblock := by
  apply degree_addCombination_lt h.quadratic
  rintro ⟨factor, difference⟩ hmem
  obtain ⟨⟨blind, i⟩, -, heq⟩ := List.mem_map.mp hmem
  obtain ⟨rfl, rfl⟩ := Prod.mk.inj heq
  have hrow {k : Nat} (hk : TableauLayout.firstWitnessRow ≤ k) :
      (polynomials.all.getD k 0).degree < layout.blockSize := by
    obtain ⟨row, rfl⟩ := Nat.exists_eq_add_of_le hk
    rw [all_getD]
    exact h.getD_degree row
  have hle : (layout.blockSize : WithBot Nat) ≤ dblock := by
    exact_mod_cast blockSize_le_dblock hdblock
  set first := TableauLayout.firstWitnessRow + linear with hfirst
  have hz := hrow (k := first + triples + triples + i) (by omega)
  have hxy := degree_mul_lt (hrow (k := first + i) (by omega))
    (hrow (k := first + triples + i) (by omega))
  obtain ⟨-, rfl⟩ := checkedSub_eq_ok.mp hdblock
  rw [← Nat.mul_two] at hxy
  rw [C_mul']
  refine (degree_smul_le _ _).trans_lt ((degree_sub_le _ _).trans_lt ?_)
  exact max_lt (hz.trans_le hle) hxy

end RowPolynomials.Codewords

/-- The witness positions of the rows, row by row. -/
noncomputable def RowPolynomials.witnessRegion (polynomials : RowPolynomials F)
    (point : Nat → F) (layout : TableauLayout) : List F :=
  (polynomials.rows.map (valuesAt point layout.witnessColumns)).flatten

theorem length_valuesAt_witnessColumns (p : F[X]) :
    (valuesAt point layout.witnessColumns p).length =
      layout.witnessesPerRow := by
  rw [length_valuesAt, TableauLayout.witnessColumns, List.length_range']

theorem length_witnessRegion : (polynomials.witnessRegion point layout).length =
    layout.witnessesPerRow * polynomials.rows.length := by
  rw [witnessRegion, List.length_flatten, List.map_map]
  have hconst : List.length ∘ valuesAt point layout.witnessColumns =
      fun _ => layout.witnessesPerRow := by
    funext p
    exact length_valuesAt_witnessColumns p
  rw [hconst, List.map_const', List.sum_replicate, smul_eq_mul, Nat.mul_comm]

theorem flatten_getD {rows : List (List F)} {size : Nat}
    (hrows : ∀ row ∈ rows, row.length = size) (row : Nat) {j : Nat}
    (hj : j < size) :
    rows.flatten.getD (row * size + j) 0 = (rows.getD row []).getD j 0 := by
  induction rows generalizing row with
  | nil => simp
  | cons first rows ih =>
      have hfirst := hrows first List.mem_cons_self
      rw [List.flatten_cons]
      cases row with
      | zero =>
          rw [Nat.zero_mul, Nat.zero_add, List.getD_append _ _ _ _ (by omega)]
          rfl
      | succ row =>
          have hsub : (row + 1) * size + j - size = row * size + j := by
            rw [Nat.succ_mul]
            omega
          rw [List.getD_append_right _ _ _ _ (by rw [Nat.succ_mul]; omega),
            hfirst, hsub,
            ih (fun other hmem => hrows other (List.mem_cons_of_mem _ hmem))]
          rfl

/-- The witness positions are values of the rows. -/
theorem witnessRegion_getD (row : Nat) {j : Nat} (hj : j < layout.witnessesPerRow) :
    (polynomials.witnessRegion point layout).getD (row * layout.witnessesPerRow + j)
        0 =
      (polynomials.rows.getD row 0).eval
        (point (layout.numRequestedColumns + j)) := by
  have hlengths : ∀ values ∈ polynomials.rows.map
      (valuesAt point layout.witnessColumns),
        values.length = layout.witnessesPerRow := by
    intro values hmem
    obtain ⟨p, -, rfl⟩ := List.mem_map.mp hmem
    exact length_valuesAt_witnessColumns p
  rw [witnessRegion, flatten_getD hlengths row hj]
  rcases Nat.lt_or_ge row polynomials.rows.length with hlt | hge
  · have hget : (polynomials.rows.map
        (valuesAt point layout.witnessColumns)).getD row [] =
          valuesAt point layout.witnessColumns polynomials.rows[row] := by
      rw [List.getD_eq_getElem _ _ (by rwa [List.length_map]), List.getElem_map]
    rw [hget, List.getD_eq_getElem _ _ hlt, List.getD_eq_getElem?_getD,
      valuesAt_getElem?, TableauLayout.witnessColumns, List.getElem?_range' hj]
    simp
  · rw [List.getD_eq_default (polynomials.rows.map _) _
      (by rwa [List.length_map]), List.getD_eq_default _ _ hge, eval_zero]
    rfl

/-- A part of the inner product vector is found again in the witness positions
of its polynomial. -/
theorem valuesAt_partPolynomial {m : Nat}
    (hpoint : Set.InjOn point (Set.Iio m)) (hle : layout.blockSize ≤ m)
    (hblock : layout.blockSize =
      layout.numRequestedColumns + layout.witnessesPerRow)
    {part : List F} (hlength : part.length = layout.witnessesPerRow) :
    valuesAt point layout.witnessColumns (partPolynomial layout point part) =
      part := by
  have hnodes : (List.replicate layout.numRequestedColumns 0 ++ part).length =
      layout.blockSize := by
    rw [List.length_append, List.length_replicate, hlength, hblock]
  rw [TableauLayout.witnessColumns, partPolynomial,
    valuesAt_range'_interpolant hpoint (hnodes.trans_le hle)
      (hblock.symm.trans hnodes.symm).le,
    List.drop_left' (List.length_replicate), ← hlength, List.take_length]

theorem sum_valuesAt_add_mul (p q r : F[X]) (indices : List Nat) :
    (valuesAt point indices (p + q * r)).sum = (valuesAt point indices p).sum +
      innerProduct (valuesAt point indices q) (valuesAt point indices r) := by
  induction indices with
  | nil => simp [valuesAt, innerProduct]
  | cons i indices ih =>
      simp only [valuesAt, innerProduct, List.map_cons, List.zipWith_cons_cons,
        List.sum_cons, eval_add, eval_mul] at ih ⊢
      rw [ih]
      ring

/-- What the dot proof sums to over the witness positions, part by part. -/
theorem sum_addCombination_parts {m : Nat}
    (hpoint : Set.InjOn point (Set.Iio m)) (hle : layout.blockSize ≤ m)
    (hblock : layout.blockSize =
      layout.numRequestedColumns + layout.witnessesPerRow)
    {parts : List (List F)}
    (hparts : ∀ part ∈ parts, part.length = layout.witnessesPerRow)
    (start : F[X]) (rows : List F[X]) :
    (valuesAt point layout.witnessColumns (addCombination start
        ((parts.map (partPolynomial layout point)).zip rows))).sum =
      (valuesAt point layout.witnessColumns start).sum +
        (List.zipWith innerProduct parts
          (rows.map (valuesAt point layout.witnessColumns))).sum := by
  induction parts generalizing start rows with
  | nil => simp [addCombination]
  | cons part parts ih =>
      cases rows with
      | nil => simp [addCombination]
      | cons row rows =>
          have hpart := hparts part List.mem_cons_self
          have hrest := ih (fun other hmem => hparts other
            (List.mem_cons_of_mem _ hmem))
            (start + partPolynomial layout point part * row) rows
          rw [addCombination] at hrest
          rw [List.map_cons, List.zip_cons_cons, addCombination,
            List.foldl_cons, hrest, sum_valuesAt_add_mul,
            valuesAt_partPolynomial hpoint hle hblock hpart, List.map_cons,
            List.zipWith_cons_cons, List.sum_cons, add_assoc]

omit [Field F] in
/-- The parts of a vector of whole parts. -/
theorem chunks_length {vector : List F} {parts : List (List F)} {size n : Nat}
    (hchunks : chunks vector size = .ok parts)
    (hvector : vector.length = size * n) :
    parts = (List.range n).map
      (fun k => (vector.drop (k * size)).take size) ∧
    ∀ part ∈ parts, part.length = size := by
  obtain ⟨hpos, rfl⟩ := chunks_eq_ok.mp hchunks
  have hcount : (vector.length + size - 1) / size = n := by
    rw [hvector, Nat.add_sub_assoc hpos, Nat.mul_add_div hpos,
      Nat.div_eq_of_lt (Nat.sub_one_lt_of_lt hpos), Nat.add_zero]
  rw [hcount]
  refine ⟨rfl, fun part hmem => ?_⟩
  obtain ⟨k, hk, rfl⟩ := List.mem_map.mp hmem
  have hend : (k + 1) * size ≤ vector.length := by
    rw [hvector, Nat.mul_comm]
    exact Nat.mul_le_mul_left _ (List.mem_range.mp hk)
  rw [Nat.succ_mul] at hend
  rw [List.length_take, List.length_drop]
  omega

/-- The dot proof sums to the blinds and the inner product of the vector with
the witness positions. -/
theorem sum_dotSum {m : Nat} (hpoint : Set.InjOn point (Set.Iio m))
    (hle : layout.blockSize ≤ m)
    (hblock : layout.blockSize =
      layout.numRequestedColumns + layout.witnessesPerRow)
    {vector : List F} {parts : List (List F)}
    (hchunks : chunks vector layout.witnessesPerRow = .ok parts)
    (hvector : vector.length =
      layout.witnessesPerRow * polynomials.rows.length) :
    (∀ part ∈ parts, part.length = layout.witnessesPerRow) ∧
    (valuesAt point layout.witnessColumns (polynomials.dotSum
        (parts.map (partPolynomial layout point)))).sum =
      (valuesAt point layout.witnessColumns polynomials.linear).sum +
        innerProduct vector (polynomials.witnessRegion point layout) := by
  obtain ⟨rfl, hparts⟩ := chunks_length hchunks hvector
  refine ⟨hparts, ?_⟩
  have hlengths : ∀ values ∈ polynomials.rows.map
      (valuesAt point layout.witnessColumns),
        values.length = layout.witnessesPerRow := by
    intro values hmem
    obtain ⟨p, -, rfl⟩ := List.mem_map.mp hmem
    exact length_valuesAt_witnessColumns p
  rw [RowPolynomials.dotSum, sum_addCombination_parts hpoint hle hblock hparts, witnessRegion,
    innerProduct_flatten _ hlengths vector (by rwa [List.length_map])]
  congr 2
  apply List.ext_getElem
  · simp
  · intro k hk hk'
    have hlt : k < polynomials.rows.length := by simpa using hk'
    simp [hlt]

/-- What the verifier sums of the dot proof. -/
theorem proofDotProduct_eq_sum [ExtendFieldElement F]
    {verifier : LigeroVerifier F} {proof : LigeroProof F} {m : Nat}
    (hpoint : Set.InjOn point (Set.Iio m)) (hle : proof.dotProof.length ≤ m)
    (hcount : verifier.tableauLayout.numRequestedColumns +
      verifier.tableauLayout.witnessesPerRow ≤ proof.dotProof.length) :
    verifier.proofDotProduct proof =
      (valuesAt point verifier.tableauLayout.witnessColumns
        (interpolant point proof.dotProof)).sum := by
  rw [proofDotProduct_eq, TableauLayout.witnessColumns,
    valuesAt_range'_interpolant hpoint hle hcount]

/-- What a triple of quadratic rows is tested for, in a witness position. -/
theorem difference_eval (linear triples t : Nat) {j : Nat}
    (hj : j < layout.witnessesPerRow) :
    (polynomials.difference (TableauLayout.firstWitnessRow + linear) triples
        t).eval (point (layout.numRequestedColumns + j)) =
      (polynomials.witnessRegion point layout).getD
          ((linear + triples + triples + t) * layout.witnessesPerRow + j) 0 -
        (polynomials.witnessRegion point layout).getD
            ((linear + t) * layout.witnessesPerRow + j) 0 *
          (polynomials.witnessRegion point layout).getD
            ((linear + triples + t) * layout.witnessesPerRow + j) 0 := by
  rw [witnessRegion_getD _ hj, witnessRegion_getD _ hj,
    witnessRegion_getD _ hj, RowPolynomials.difference, eval_sub, eval_mul]
  simp only [Nat.add_assoc, all_getD]

end Sums

end Longfellow.Ligero
