/-
Building the tableau succeeds, and its rows are codewords: the values of
polynomials of low degree, with blinds that do not disturb the tests, and with
the witness and its copies in the witness positions.
-/
import Longfellow.Ligero.Tests

namespace Longfellow.Ligero

open Exec Polynomial ReedSolomon

/-- Parameters for which a block is made of the random elements and the
witnesses, and more columns than are requested follow the systematic part. -/
structure LigeroParameters.Valid (parameters : LigeroParameters) : Prop where
  nreq_pos : 0 < parameters.nreq
  block : parameters.blockSize = parameters.nreq + parameters.witnessesPerRow
  quadratic_pos : 0 < parameters.quadraticConstraintsPerRow
  quadratic_le :
    parameters.quadraticConstraintsPerRow ≤ parameters.witnessesPerRow
  columns : 2 * parameters.blockSize - 1 + parameters.nreq <
    parameters.numColumns

theorem LigeroParameters.Valid.dblock_eq {parameters : LigeroParameters}
    (h : parameters.Valid) (numWitnesses numQuadraticConstraints : Nat) :
    TableauLayout.dblock
        ⟨parameters, numWitnesses, numQuadraticConstraints⟩ =
      .ok (2 * parameters.blockSize - 1) := by
  have hpos : 1 ≤ parameters.blockSize * 2 := by
    have hblock := h.block
    have hnreq := h.nreq_pos
    omega
  rw [TableauLayout.dblock, checkedSub_of_le hpos, Nat.mul_comm]

/-- The positions of the witnesses in a row. -/
def TableauLayout.witnessColumns (layout : TableauLayout) : List Nat :=
  List.range' layout.numRequestedColumns layout.witnessesPerRow

/-- Rows that are codewords, of the degrees that the tests are about. -/
structure RowPolynomials.Codewords {F : Type} [Field F]
    (polynomials : RowPolynomials F) (layout : TableauLayout) (dblock : Nat) :
    Prop where
  low : polynomials.low.degree < layout.blockSize
  linear : polynomials.linear.degree < dblock
  quadratic : polynomials.quadratic.degree < dblock
  rows : ∀ row ∈ polynomials.rows, row.degree < layout.blockSize

/-- Codewords with blinds that sum to zero or vanish in the witness positions,
where the rows have the given contents. -/
structure RowPolynomials.Encodes {F : Type} [Field F]
    (polynomials : RowPolynomials F) (point : Nat → F) (layout : TableauLayout)
    (dblock : Nat) (contents : List (List F)) : Prop
    extends polynomials.Codewords layout dblock where
  linear_sum :
    (valuesAt point layout.witnessColumns polynomials.linear).sum = 0
  quadratic_zero : ∀ i ∈ layout.witnessColumns,
    polynomials.quadratic.eval (point i) = 0
  contents : polynomials.rows.map (valuesAt point layout.witnessColumns) =
    contents

namespace Tableau

section Blinds

variable {F σ : Type} [Field F] (generator : σ → F × σ)

/-- The elements of the linear test row are drawn until none is left, and the
sum is that of those after the first witness position. -/
theorem linearTestElements_returns {nreq : Nat} (blockSize n i : Nat)
    (available : Nat) (sum : F) (s : σ)
    (havailable :
      available = if i ≤ nreq ∧ nreq < i + n then n - 1 else n) :
    Returns (linearTestElements generator nreq blockSize n i available sum s)
      fun (elements, total, left, _) => elements.length = n ∧ left = 0 ∧
        total = sum + ((elements.drop (nreq + 1 - i)).take
          (blockSize - max (nreq + 1) i)).sum := by
  induction n generalizing i available sum s with
  | zero =>
      have hzero : available = 0 := by
        rw [havailable]
        split <;> omega
      exact ⟨_, rfl, rfl, hzero, by simp⟩
  | succ n ih =>
      rw [linearTestElements.eq_def]
      simp only
      split
      next hi =>
        subst hi
        have hnext : available =
            if i + 1 ≤ i ∧ i < i + 1 + n then n - 1 else n := by
          rw [if_pos (by omega)] at havailable
          rw [if_neg (by omega)]
          omega
        refine (ih (i + 1) available sum s hnext).bind ?_
        rintro ⟨elements, total, left, s'⟩ ⟨hlength, hleft, htotal⟩
        refine ⟨_, rfl, by simp [hlength], hleft, ?_⟩
        have hdrop : i + 1 - i = 1 := by omega
        have hmax : max (i + 1) i = i + 1 := by omega
        simp only [Nat.sub_self, List.drop_zero, Nat.max_self] at htotal
        rw [hdrop, hmax, List.drop_one, List.tail_cons]
        exact htotal
      next hi =>
        split
        next =>
          have hpos : 0 < n + 1 := Nat.succ_pos n
          split at havailable <;> omega
        next rest =>
          have hnext : rest =
              if i + 1 ≤ nreq ∧ nreq < i + 1 + n then n - 1 else n := by
            split at havailable
            · rw [if_pos (by omega)]
              omega
            · rw [if_neg (by omega)]
              omega
          refine (ih (i + 1) rest _ _ hnext).bind ?_
          rintro ⟨elements, total, left, s'⟩ ⟨hlength, hleft, htotal⟩
          refine ⟨_, rfl, by simp [hlength], hleft, ?_⟩
          rw [htotal]
          by_cases hbefore : i < nreq
          · have hdrop : nreq + 1 - i = nreq + 1 - (i + 1) + 1 := by omega
            have hmax : max (nreq + 1) (i + 1) = max (nreq + 1) i := by omega
            rw [if_neg (by omega), hdrop, hmax, List.drop_succ_cons]
          · have hdrop : nreq + 1 - i = 0 := by omega
            have hdrop' : nreq + 1 - (i + 1) = 0 := by omega
            have hmax : max (nreq + 1) i = i := by omega
            have hmax' : max (nreq + 1) (i + 1) = i + 1 := by omega
            rw [hdrop, hdrop', hmax, hmax', List.drop_zero, List.drop_zero]
            by_cases hinside : i < blockSize
            · have htake : blockSize - i = blockSize - (i + 1) + 1 := by omega
              rw [if_pos (by omega), htake, List.take_succ_cons, List.sum_cons,
                add_assoc]
            · have htake : blockSize - i = 0 := by omega
              have htake' : blockSize - (i + 1) = 0 := by omega
              rw [if_neg (by omega), htake, htake']
              simp

/-- The linear test row sums to zero in the witness positions. -/
theorem linearTestRow_returns [DecidableEq F] {layout : TableauLayout}
    {dblock : Nat} (hdblock : layout.dblock = .ok dblock)
    (hblock : layout.blockSize =
      layout.numRequestedColumns + layout.witnessesPerRow)
    (hrow : 0 < layout.witnessesPerRow) (s : σ) :
    Returns (linearTestRow generator layout s) fun (row, _) =>
      row.length = dblock ∧ ((row.drop layout.numRequestedColumns).take
        layout.witnessesPerRow).sum = 0 := by
  set nreq := layout.numRequestedColumns with hnreq
  have hle : layout.blockSize ≤ dblock := by
    obtain ⟨hone, rfl⟩ := checkedSub_eq_ok.mp hdblock
    rw [TableauLayout.blockSize]
    omega
  have havailable : dblock - 1 =
      if 0 ≤ nreq ∧ nreq < 0 + dblock then dblock - 1 else dblock := by
    rw [if_pos (by omega)]
  obtain ⟨⟨row, total, left, s'⟩, hrow', hlength, hleft, htotal⟩ :=
    linearTestElements_returns generator layout.blockSize dblock 0
      (dblock - 1) 0 s havailable
  have hlt : nreq < row.length := by
    rw [hlength]
    omega
  -- The first of the witness positions is the inverse of the sum of the others.
  have hsum : (((row.set nreq (-total)).drop nreq).take
      layout.witnessesPerRow).sum = 0 := by
    obtain ⟨w, hw⟩ := Nat.exists_eq_add_of_le hrow
    have hbefore : ((row.set nreq (-total)).drop nreq) =
        -total :: row.drop (nreq + 1) := by
      rw [List.drop_eq_getElem_cons (by simpa using hlt), List.getElem_set_self,
        List.drop_set_of_lt (Nat.lt_succ_self nreq)]
    have hcount : layout.blockSize - max (nreq + 1) 0 = w := by omega
    rw [hcount, Nat.sub_zero, zero_add] at htotal
    have hw' : layout.witnessesPerRow = w + 1 := by omega
    rw [hbefore, hw', List.take_succ_cons, List.sum_cons, htotal,
      neg_add_cancel]
  refine ⟨(row.set nreq (-total), s'), ?_, ?_, hsum⟩
  · rw [linearTestRow, hdblock, ok_bind, checkedSub_of_le (by omega), ok_bind,
      hrow', ok_bind]
    simp only
    rw [update_of_lt hlt, ok_bind, assert_of hleft, ok_bind, assert_of hsum]
    rfl
  · rw [List.length_set, hlength]

/-- The quadratic test row is zero in the witness positions. -/
theorem quadraticTestRow_spec (nreq blockSize n i : Nat) (s : σ) :
    (quadraticTestRow generator nreq blockSize n i s).1.length = n ∧
      ∀ k, k < n → nreq ≤ i + k → i + k < blockSize →
        (quadraticTestRow generator nreq blockSize n i s).1[k]? = some 0 := by
  induction n generalizing i s with
  | zero => exact ⟨rfl, fun k hk => absurd hk (Nat.not_lt_zero k)⟩
  | succ n ih =>
      rw [quadraticTestRow]
      split
      next houtside =>
        obtain ⟨hlength, hzero⟩ := ih (i + 1) (generator s).2
        refine ⟨by simp [hlength], ?_⟩
        rintro (_ | k) hk hlow hhigh
        · omega
        · rw [List.getElem?_cons_succ]
          exact hzero k (by omega) (by omega) (by omega)
      next hinside =>
        obtain ⟨hlength, hzero⟩ := ih (i + 1) s
        refine ⟨by simp [hlength], ?_⟩
        rintro (_ | k) hk hlow hhigh
        · rfl
        · rw [List.getElem?_cons_succ]
          exact hzero k (by omega) (by omega) (by omega)

end Blinds

section Rows

variable {F σ : Type} [Field F] [ExtendFieldElement F] {generator : σ → F × σ}
  {witness : Witness F} {layout : TableauLayout} {point : Nat → F}
  {extendContextBlockNcol : ExtendContext F}

omit [ExtendFieldElement F] in
theorem copyWitnesses_returns {indices : List Nat}
    (hindices : ∀ i ∈ indices, i < witness.values.length) (n : Nat) :
    Returns (copyWitnesses witness n indices) fun _ => True := by
  induction n generalizing indices with
  | zero => exact ⟨_, rfl, trivial⟩
  | succ n ih =>
      cases indices with
      | nil => exact (ih hindices).bind fun _ _ => ⟨_, rfl, trivial⟩
      | cons i indices =>
          have hi := hindices i List.mem_cons_self
          refine Returns.bind_of_eq (index_of_lt hi) ?_
          refine (ih fun j hj => hindices j (List.mem_cons_of_mem i hj)).bind ?_
          exact fun _ _ => ⟨_, rfl, trivial⟩

/-- Quadratic constraints between witnesses that exist. -/
def WitnessesInRange (numWitnesses : Nat)
    (quadraticConstraints : List QuadraticConstraint) : Prop :=
  ∀ q ∈ quadraticConstraints,
    q.x < numWitnesses ∧ q.y < numWitnesses ∧ q.z < numWitnesses

omit [ExtendFieldElement F] in
theorem copyRow_returns {quadraticConstraints : List QuadraticConstraint}
    (hrange : WitnessesInRange witness.values.length quadraticConstraints)
    (witnessesPerRow triples : Nat) {row : Nat} (hrow : row < 3 * triples) :
    Returns (copyRow witness witnessesPerRow triples row
      (remaining quadraticConstraints witnessesPerRow triples row))
      fun (content, rest) =>
        content = quadraticContent witness quadraticConstraints
          witnessesPerRow triples row ∧
        rest = remaining quadraticConstraints witnessesPerRow triples
          (row + 1) := by
  have hindices (f : QuadraticConstraint → Nat)
      (hf : ∀ q ∈ quadraticConstraints, f q < witness.values.length)
      (start : Nat) : Returns (copyWitnesses witness witnessesPerRow
        ((quadraticConstraints.map f).drop start)) fun _ => True := by
    apply copyWitnesses_returns
    intro i hi
    obtain ⟨q, hq, rfl⟩ := List.mem_map.mp (List.mem_of_mem_drop hi)
    exact hf q hq
  have hreturns : Returns (copyRow witness witnessesPerRow triples row
      (remaining quadraticConstraints witnessesPerRow triples row))
        fun _ => True := by
    rw [copyRow]
    split
    · exact (hindices _ (fun q hq => (hrange q hq).1) _).bind
        fun _ _ => ⟨_, rfl, trivial⟩
    · split
      · exact (hindices _ (fun q hq => (hrange q hq).2.1) _).bind
          fun _ _ => ⟨_, rfl, trivial⟩
      · exact (hindices _ (fun q hq => (hrange q hq).2.2) _).bind
          fun _ _ => ⟨_, rfl, trivial⟩
  exact (hreturns.and_ensures (copyRow_ensures witness quadraticConstraints
    witnessesPerRow hrow)).mono fun _ h => h.2

theorem paddedRow_returns
    (hextend : Interpolates point layout.blockSize layout.numColumns
      extendContextBlockNcol)
    {content : List F}
    (hlength : layout.numRequestedColumns + content.length = layout.blockSize)
    (s : σ) :
    Returns (paddedRow generator extendContextBlockNcol
      layout.numRequestedColumns content s) fun _ => True := by
  have hnodes : ((takeElements generator layout.numRequestedColumns s).1 ++
      content).length = layout.blockSize := by
    rw [List.length_append, length_takeElements, hlength]
  exact Returns.bind_of_eq (hextend.2 _ hnodes) ⟨_, rfl, trivial⟩

theorem pushWitnessRows_returns
    (hextend : Interpolates point layout.blockSize layout.numColumns
      extendContextBlockNcol)
    (hblock : layout.blockSize =
      layout.numRequestedColumns + layout.witnessesPerRow)
    (numWitnessRows : Nat) (state : List (List F) × σ) :
    Returns ((List.range numWitnessRows).foldlM
      (pushWitnessRow generator layout witness extendContextBlockNcol)
      state) fun _ => True := by
  refine (Returns.foldlM (I := fun _ _ => True) _ trivial ?_).mono
    fun _ _ => trivial
  rintro k hk ⟨rows, s⟩ -
  rw [List.getElem_range]
  refine (paddedRow_returns hextend ?_ s).bind fun _ _ => ⟨_, rfl, trivial⟩
  exact (congrArg _ (length_slice _ _ _)).trans hblock.symm

theorem pushQuadraticRows_returns
    {quadraticConstraints : List QuadraticConstraint}
    (hrange : WitnessesInRange witness.values.length quadraticConstraints)
    (hextend : Interpolates point layout.blockSize layout.numColumns
      extendContextBlockNcol)
    (hblock : layout.blockSize =
      layout.numRequestedColumns + layout.witnessesPerRow)
    (triples : Nat) (rows : List (List F)) (s : σ) :
    Returns ((List.range (3 * triples)).foldlM
      (pushQuadraticRow generator layout witness extendContextBlockNcol
        triples)
      (rows, s, remaining quadraticConstraints layout.witnessesPerRow triples
        0)) fun _ => True := by
  refine (Returns.foldlM (I := fun k state => state.2.2 =
    remaining quadraticConstraints layout.witnessesPerRow triples k) _ rfl
    ?_).mono fun _ _ => trivial
  rintro k hk ⟨rows, s, indices⟩ hindices
  obtain rfl : indices = _ := hindices
  rw [List.length_range] at hk
  rw [List.getElem_range]
  refine (copyRow_returns hrange _ _ hk).bind ?_
  rintro ⟨content, rest⟩ ⟨rfl, rfl⟩
  refine (paddedRow_returns hextend ?_ s).bind fun _ _ => ⟨_, rfl, rfl⟩
  rw [length_quadraticContent, hblock]

/-- Padded rows are codewords of their contents. -/
theorem PaddedRows.codewords
    (hextend : Interpolates point layout.blockSize layout.numColumns
      extendContextBlockNcol)
    (hblock : layout.blockSize =
      layout.numRequestedColumns + layout.witnessesPerRow)
    (hle : layout.blockSize ≤ layout.numColumns)
    {front : Nat → List F} {contents rows : List (List F)}
    (hrows : PaddedRows extendContextBlockNcol front contents rows)
    (hfront : ∀ row, (front row).length = layout.numRequestedColumns)
    (hcontents : ∀ content ∈ contents,
      content.length = layout.witnessesPerRow) :
    ∃ polynomials : List F[X],
      rows = polynomials.map (valuesAt point (List.range layout.numColumns)) ∧
      (∀ p ∈ polynomials, p.degree < layout.blockSize) ∧
      polynomials.map (valuesAt point layout.witnessColumns) = contents := by
  obtain ⟨hcount, hrow⟩ := hrows
  set polynomial : Nat → F[X] := fun row =>
    interpolant point (front row ++ contents.getD row []) with hpolynomial
  have hspec {row : Nat} (hlt : row < contents.length) :
      rows[row]? = some (valuesAt point (List.range layout.numColumns)
        (polynomial row)) ∧ (polynomial row).degree < layout.blockSize ∧
      valuesAt point layout.witnessColumns (polynomial row) =
        contents[row] := by
    have hget : contents.getD row [] = contents[row] :=
      List.getD_eq_getElem _ _ hlt
    have hlength : (front row ++ contents.getD row []).length =
        layout.blockSize := by
      rw [List.length_append, hfront, hget,
        hcontents _ (List.getElem_mem hlt), hblock]
    obtain ⟨elements, helements, hvalues⟩ :=
      hrow row contents[row] (List.getElem?_eq_getElem hlt)
    rw [← hget, hextend.2 _ hlength] at hvalues
    refine ⟨?_, ?_, ?_⟩
    · rw [helements, ← Except.ok.inj hvalues]
      rfl
    · have hdegree := degree_interpolant_lt hextend.1 (hlength.trans_le hle)
      rwa [hlength] at hdegree
    · rw [TableauLayout.witnessColumns, hpolynomial,
        valuesAt_range'_interpolant hextend.1 (hlength.trans_le hle)
          (hblock.symm.trans hlength.symm).le, hget,
        List.drop_left' (hfront row), List.take_of_length_le]
      exact (hcontents _ (List.getElem_mem hlt)).le
  refine ⟨(List.range contents.length).map polynomial, ?_, ?_, ?_⟩
  · apply List.ext_getElem?
    intro row
    rcases Nat.lt_or_ge row contents.length with hlt | hge
    · rw [(hspec hlt).1, List.map_map, List.getElem?_map,
        List.getElem?_range hlt]
      rfl
    · rw [List.getElem?_eq_none (hcount.trans_le hge),
        List.getElem?_eq_none (by simpa using hge)]
  · intro p hp
    obtain ⟨row, hlt, rfl⟩ := List.mem_map.mp hp
    exact (hspec (List.mem_range.mp hlt)).2.1
  · apply List.ext_getElem
    · simp
    · intro row _ hlt
      simpa using (hspec hlt).2.2

end Rows

/-- Building the tableau succeeds, with rows that are codewords of the witness
and of its copies. -/
theorem build_returns {F σ : Type} [Field F] [DecidableEq F]
    [ExtendFieldElement F] (generator : σ → F × σ) {witness : Witness F}
    {point : Nat → F} {parameters : LigeroParameters}
    {extendContextBlockNcol extendContextDblockNcol : ExtendContext F}
    (hvalid : parameters.Valid)
    {quadraticConstraints : List QuadraticConstraint}
    (hrange : WitnessesInRange witness.values.length quadraticConstraints)
    (hblockNcol : Interpolates point parameters.blockSize
      parameters.numColumns extendContextBlockNcol)
    (hdblockNcol : Interpolates point (2 * parameters.blockSize - 1)
      parameters.numColumns extendContextDblockNcol) (s : σ) :
    Returns (build generator parameters witness quadraticConstraints
      extendContextBlockNcol extendContextDblockNcol s) fun tableau =>
        tableau.layout =
          ⟨parameters, witness.values.length, quadraticConstraints.length⟩ ∧
        ∃ (polynomials : RowPolynomials F) (linear triples : Nat),
          tableau.layout.numLinearConstraintRows = .ok linear ∧
          tableau.layout.numQuadraticTriples = .ok triples ∧
          tableau.contents = polynomials.contents point
            (List.range parameters.numColumns) ∧
          polynomials.Encodes point tableau.layout
            (2 * parameters.blockSize - 1)
            (rowContents witness quadraticConstraints
              parameters.witnessesPerRow linear triples) := by
  have hcolumns := hvalid.columns
  set layout : TableauLayout :=
    ⟨parameters, witness.values.length, quadraticConstraints.length⟩
    with hlayout
  have hblock : layout.blockSize =
      layout.numRequestedColumns + layout.witnessesPerRow := hvalid.block
  have hextend : Interpolates point layout.blockSize layout.numColumns
      extendContextBlockNcol := hblockNcol
  have hdblock : layout.dblock = .ok (2 * parameters.blockSize - 1) :=
    hvalid.dblock_eq _ _
  have hle : layout.blockSize ≤ 2 * parameters.blockSize - 1 :=
    blockSize_le_dblock hdblock
  have hpositive : 0 < layout.quadraticConstraintsPerRow := hvalid.quadratic_pos
  obtain ⟨linear, triples, hlinear, htriples⟩ :=
    numRows_eq_ok hpositive hvalid.quadratic_le
  have hquadratic : layout.numQuadraticRows = .ok (3 * triples) := by
    rw [TableauLayout.numQuadraticRows, htriples]
    rfl
  have hrows : layout.numRows =
      .ok (TableauLayout.firstWitnessRow + linear + 3 * triples) := by
    rw [TableauLayout.numRows, hlinear, ok_bind, hquadratic]
    rfl
  have hle' : 2 * parameters.blockSize - 1 ≤ parameters.numColumns := by
    omega
  -- The rows of the blinds.
  obtain ⟨lowNodes, s₁, hlow⟩ : ∃ nodes s₁,
    takeElements generator layout.blockSize s = (nodes, s₁) := ⟨_, _, rfl⟩
  have hlowLength : lowNodes.length = layout.blockSize := by
    have h : (takeElements generator layout.blockSize s).1.length =
        layout.blockSize := length_takeElements _ _
    rwa [hlow] at h
  obtain ⟨⟨linearNodes, s₂⟩, hlinearRow, hlinearLength, hsum⟩ :=
    linearTestRow_returns generator hdblock hblock
      (hvalid.quadratic_pos.trans_le hvalid.quadratic_le) s₁
  obtain ⟨hquadraticLength, hzero⟩ := quadraticTestRow_spec generator
    layout.numRequestedColumns layout.blockSize
    (2 * parameters.blockSize - 1) 0 s₂
  obtain ⟨quadraticNodes, s₃, hquadraticRow⟩ : ∃ nodes s₃,
    quadraticTestRow generator layout.numRequestedColumns layout.blockSize
      (2 * parameters.blockSize - 1) 0 s₂ = (nodes, s₃) := ⟨_, _, rfl⟩
  rw [hquadraticRow] at hquadraticLength hzero
  simp only [Nat.zero_add] at hquadraticLength hzero
  -- The rows of the witness and of its copies.
  have hwitnessRows : Returns ((List.range linear).foldlM (pushWitnessRow
      generator layout witness extendContextBlockNcol)
      ([extension point lowNodes parameters.numColumns,
        extension point linearNodes parameters.numColumns,
        extension point quadraticNodes parameters.numColumns], s₃))
      fun _ => True :=
    pushWitnessRows_returns hextend hblock _ _
  obtain ⟨⟨pushed, s₄⟩, hpushed, -, hs₄, witnessRows, hpushedRows, hwitness⟩ :=
    hwitnessRows.and_ensures (pushWitnessRows_ensures _ _ _)
  have hquadraticRows : Returns ((List.range (3 * triples)).foldlM
      (pushQuadraticRow generator layout witness extendContextBlockNcol triples)
      (pushed, s₄, remaining quadraticConstraints layout.witnessesPerRow
        triples 0)) fun _ => True :=
    pushQuadraticRows_returns hrange hextend hblock _ _ _
  obtain ⟨⟨all, s₅, indices⟩, hall, -, quadraticRows, hallRows, hpadded⟩ :=
    hquadraticRows.and_ensures (pushQuadraticRows_ensures _ _ _ _)
  have hfront : rowFront generator layout.numRequestedColumns s₄ = fun row =>
      rowFront generator layout.numRequestedColumns s₃ (linear + row) := by
    funext row
    rw [hs₄, rowFront_add]
  rw [hfront] at hpadded
  have hpaddedRows := hwitness.append (by
    rw [List.length_map, List.length_range]
    exact hpadded)
  obtain ⟨rows, hrowsEq, hdegrees, hcontents⟩ := hpaddedRows.codewords hextend
    hblock (hle.trans hle') (length_rowFront _ _)
    fun content hcontent => length_of_mem_rowContents hcontent
  have hdegree {nodes : List F} {n : Nat} (hlength : nodes.length = n)
      (hn : n ≤ parameters.numColumns) :
      (interpolant point nodes).degree < n := by
    subst hlength
    exact degree_interpolant_lt hblockNcol.1 hn
  have hwitnesses {nodes : List F}
      (hlength : nodes.length = 2 * parameters.blockSize - 1) :
      valuesAt point layout.witnessColumns (interpolant point nodes) =
        (nodes.drop layout.numRequestedColumns).take layout.witnessesPerRow :=
    valuesAt_range'_interpolant hblockNcol.1 (hlength.trans_le hle')
      (by rw [← hblock, hlength]; exact hle)
  refine ⟨⟨layout, all⟩, ?_, rfl, ⟨interpolant point lowNodes,
    interpolant point linearNodes, interpolant point quadraticNodes, rows⟩,
    linear, triples, hlinear, htriples, ?_, ?_⟩
  · have hstart : (⟨quadraticConstraints.map fun q => q.x,
        quadraticConstraints.map fun q => q.y,
        quadraticConstraints.map fun q => q.z⟩ : QuadraticIndices) =
          remaining quadraticConstraints layout.witnessesPerRow triples 0 := by
      simp [remaining]
    have hcount : all.length =
        TableauLayout.firstWitnessRow + linear + 3 * triples := by
      rw [hallRows, hpushedRows, List.append_assoc, List.length_append,
        hpaddedRows.1]
      simp [TableauLayout.firstWitnessRow, Nat.add_assoc]
    rw [build]
    simp only
    rw [hlinear, ok_bind, hquadratic, ok_bind, htriples, ok_bind, hrows,
      ok_bind, hdblock, ok_bind, hlow]
    simp only
    rw [hblockNcol.2 _ hlowLength, ok_bind, hlinearRow, ok_bind]
    simp only
    rw [hdblockNcol.2 _ hlinearLength, ok_bind, hquadraticRow]
    simp only
    rw [hdblockNcol.2 _ hquadraticLength, ok_bind, hpushed, ok_bind]
    simp only
    rw [hstart, hall, ok_bind]
    simp only
    rw [assert_of hcount, ok_bind]
    rfl
  · rw [hallRows, hpushedRows, List.append_assoc, hrowsEq]
    rfl
  · refine ⟨⟨hdegree hlowLength (hle.trans hle'), hdegree hlinearLength hle',
      hdegree hquadraticLength hle', hdegrees⟩, ?_, ?_, hcontents⟩
    · rw [hwitnesses hlinearLength, hsum]
    · intro i hi
      obtain ⟨hlow, hhigh⟩ := List.mem_range'_1.mp hi
      rw [← hblock] at hhigh
      have hlt : i < quadraticNodes.length := by omega
      rw [eval_interpolant hblockNcol.1 (by omega) hlt]
      have h := hzero i (by omega) (by omega) (by omega)
      rw [List.getElem?_eq_getElem hlt] at h
      exact Option.some.inj h

end Tableau

end Longfellow.Ligero
