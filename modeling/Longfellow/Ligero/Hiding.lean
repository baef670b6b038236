/-
The revealed columns hide the witness: the values that a row of the tableau
shows are in bijection with its random elements, whatever else is in it.
-/
import Longfellow.Fields.PrimeExtension
import Longfellow.Ligero.Prover
import Mathlib

namespace Longfellow.Ligero

open Exec Tableau

section Columns

variable {F : Type} [Field F] {layout : TableauLayout}
  {contents : List (List F)} {indices : List Nat} {dblock numRows : Nat}

/-- The element at a position of the revealed columns, counted row by row. -/
def columnElement (contents : List (List F)) (indices : List Nat)
    (dblock nreq position : Nat) : Option F := do
  let elements ← contents[position / nreq]?
  let i ← indices[position % nreq]?
  elements[i + dblock]?

/-- The first positions of the revealed columns have been filled in. -/
def FilledColumns (contents : List (List F)) (indices : List Nat)
    (dblock nreq n : Nat) (columns : List F) : Prop :=
  ∀ position, position < n → columns[position]? =
    columnElement contents indices dblock nreq position

omit [Field F] in
theorem fillRow_ensures {nreq row : Nat} (hlength : indices.length = nreq)
    {columns : List F}
    (hfilled : FilledColumns contents indices dblock nreq (row * nreq) columns) :
    Ensures (indices.zipIdx.foldlM
      (fun columns (requestedColumnIndex, column) => do
        let elements ← index contents row
        let element ← index elements (requestedColumnIndex + dblock)
        update columns (row * nreq + column) fun _ => element)
      columns) fun filled => filled.length = columns.length ∧
        FilledColumns contents indices dblock nreq ((row + 1) * nreq)
          filled := by
  have hloop := Ensures.foldlM
    (f := fun columns (pair : Nat × Nat) => do
      let elements ← index contents row
      let element ← index elements (pair.1 + dblock)
      update columns (row * nreq + pair.2) fun _ => element)
    (I := fun k filled => filled.length = columns.length ∧
      FilledColumns contents indices dblock nreq (row * nreq + k) filled)
    indices.zipIdx (s := columns) ⟨rfl, hfilled⟩
    (by
      rintro k hk filled ⟨hsize, hbefore⟩ result hresult
      obtain ⟨elements, helements, hresult⟩ := Exec.bind_eq_ok.mp hresult
      obtain ⟨element, helement, hresult⟩ := Exec.bind_eq_ok.mp hresult
      rw [List.length_zipIdx] at hk
      have hget : indices.zipIdx[k] = (indices[k], k) := by simp
      rw [hget] at helement hresult
      simp only at helement hresult
      obtain ⟨old, hold, rfl⟩ := update_eq_ok.mp hresult
      obtain ⟨hbound, -⟩ := List.getElem?_eq_some_iff.mp hold
      refine ⟨by rw [List.length_set, hsize], fun position hposition => ?_⟩
      have hcases : position < row * nreq + k ∨ position = row * nreq + k := by
        omega
      rcases hcases with hlt | rfl
      · rw [List.getElem?_set_ne (Nat.ne_of_gt hlt)]
        exact hbefore position hlt
      · have hcolumn : k < nreq := by omega
        have hdiv : (row * nreq + k) / nreq = row := by
          rw [Nat.mul_comm, Nat.mul_add_div (by omega), Nat.div_eq_of_lt hcolumn,
            Nat.add_zero]
        have hmod : (row * nreq + k) % nreq = k := by
          rw [Nat.mul_comm, Nat.mul_add_mod, Nat.mod_eq_of_lt hcolumn]
        rw [List.getElem?_set_self hbound, columnElement, hdiv, hmod,
          index_eq_ok.mp helements, List.getElem?_eq_getElem hk]
        exact (index_eq_ok.mp helement).symm)
  rw [List.length_zipIdx, hlength] at hloop
  rwa [Nat.succ_mul]

/-- The revealed columns hold the elements of every row at the requested
indices. -/
theorem requestedTableauColumns_ensures
    (hlength : indices.length = layout.numRequestedColumns)
    (hdblock : layout.dblock = .ok dblock) :
    Ensures (requestedTableauColumns layout contents indices) fun columns =>
      ∀ numRows, layout.numRows = .ok numRows → ∀ row, row < numRows →
        ∃ values, columns[row]? = some values ∧
          values.length = layout.numRequestedColumns ∧
          ∀ k, k < layout.numRequestedColumns → values[k]? =
            columnElement contents indices dblock layout.numRequestedColumns
              (row * layout.numRequestedColumns + k) := by
  intro columns hcolumns numRows hnumRows row hrow
  rw [requestedTableauColumns, hnumRows, ok_bind, hdblock, ok_bind] at hcolumns
  obtain ⟨filled, hfilled, hcolumns⟩ := Exec.bind_eq_ok.mp hcolumns
  have hloop := Ensures.foldlM
    (f := fun columns row => indices.zipIdx.foldlM
      (fun columns (pair : Nat × Nat) => do
        let elements ← index contents row
        let element ← index elements (pair.1 + dblock)
        update columns (row * layout.numRequestedColumns + pair.2) fun _ =>
          element)
      columns)
    (I := fun k filled =>
      filled.length = layout.numRequestedColumns * numRows ∧
        FilledColumns contents indices dblock layout.numRequestedColumns
          (k * layout.numRequestedColumns) filled)
    (List.range numRows)
    (s := List.replicate (layout.numRequestedColumns * numRows) 0)
    (by
      refine ⟨List.length_replicate, fun position hposition => ?_⟩
      rw [Nat.zero_mul] at hposition
      exact absurd hposition (Nat.not_lt_zero position))
    (by
      rintro k hk filled ⟨hsize, hbefore⟩
      rw [List.getElem_range]
      exact (fillRow_ensures hlength hbefore).mono fun next hnext =>
        ⟨hnext.1.trans hsize, hnext.2⟩)
  obtain ⟨hsize, hfilled⟩ := hloop filled hfilled
  rw [List.length_range] at hfilled
  obtain ⟨hpos, rfl⟩ := chunks_eq_ok.mp hcolumns
  set nreq := layout.numRequestedColumns with hnreq
  have hcount : (filled.length + nreq - 1) / nreq = numRows := by
    rw [hsize, Nat.add_sub_assoc hpos, Nat.mul_add_div hpos,
      Nat.div_eq_of_lt (Nat.sub_one_lt_of_lt hpos), Nat.add_zero]
  have hend : (row + 1) * nreq ≤ nreq * numRows := by
    rw [Nat.mul_comm nreq]
    exact Nat.mul_le_mul_right nreq hrow
  rw [Nat.succ_mul] at hend
  refine ⟨(filled.drop (row * nreq)).take nreq, ?_, ?_, fun k hk => ?_⟩
  · rw [hcount]
    simp [hrow]
  · rw [List.length_take, List.length_drop, hsize]
    omega
  · rw [List.getElem?_take_of_lt hk, List.getElem?_drop]
    apply hfilled
    rw [Nat.mul_comm numRows]
    omega

theorem requestedTableauColumns_eq_ok {columns : List (List F)}
    (h : requestedTableauColumns layout contents indices = .ok columns) :
    ∃ numRows dblock, layout.numRows = .ok numRows ∧
      layout.dblock = .ok dblock := by
  obtain ⟨numRows, hnumRows, h⟩ := Exec.bind_eq_ok.mp h
  obtain ⟨dblock, hdblock, -⟩ := Exec.bind_eq_ok.mp h
  exact ⟨numRows, dblock, hnumRows, hdblock⟩

end Columns

section Hiding

variable {F : Type} [ExtendFieldElement F]

/-- What a row of the tableau shows in some columns. -/
def revealed (extendContextBlockNcol : ExtendContext F) (columns : List Nat)
    (content front : List F) : Exec (List F) := do
  let row ← extend (front ++ content) extendContextBlockNcol
  columns.mapM (index row)

/-- A bijection does not change the uniform distribution. -/
theorem map_uniformOfFintype {α : Type} [Fintype α] [Nonempty α] {f : α → α}
    (hf : Function.Bijective f) :
    (PMF.uniformOfFintype α).map f = PMF.uniformOfFintype α := by
  classical
  ext b
  obtain ⟨a, rfl⟩ := hf.surjective b
  have hother : ∀ a', a' ≠ a →
      (if f a = f a' then PMF.uniformOfFintype α a' else 0) = 0 := by
    intro a' hne
    rw [if_neg]
    intro heq
    exact hne (hf.injective heq).symm
  rw [PMF.map_apply, tsum_eq_single a hother, if_pos rfl,
    PMF.uniformOfFintype_apply, PMF.uniformOfFintype_apply]

variable [Field F] {parameters : LigeroParameters} {point : Nat → F}
  {extendContextBlockNcol : ExtendContext F}
  {indices : Fin parameters.nreq → Nat}

/-- What a row shows in as many columns as it has random elements is in
bijection with them. -/
theorem revealed_bijective
    (hblock :
      parameters.blockSize = parameters.nreq + parameters.witnessesPerRow)
    (hextend : Interpolates point parameters.blockSize parameters.numColumns
      extendContextBlockNcol)
    (hindices : Function.Injective indices)
    (hrange : ∀ j, 2 * parameters.blockSize - 1 ≤ indices j ∧
      indices j < parameters.numColumns)
    {content : List F} (hcontent : content.length = parameters.witnessesPerRow) :
    ∃ reveal : (Fin parameters.nreq → F) → Fin parameters.nreq → F,
      Function.Bijective reveal ∧ ∀ front,
        revealed extendContextBlockNcol (List.ofFn indices) content
          (List.ofFn front) = .ok (List.ofFn (reveal front)) := by
  obtain ⟨hpoint, hvalues⟩ := hextend
  refine ⟨fun front j => (ReedSolomon.interpolant point
    (List.ofFn front ++ content)).eval (point (indices j)), ?_, fun front => ?_⟩
  · rcases Nat.eq_zero_or_pos parameters.nreq with hzero | hpos
    · have hempty : IsEmpty (Fin parameters.nreq) := by
        rw [hzero]
        exact Fin.isEmpty
      constructor
      · exact Function.injective_of_subsingleton _
      · exact fun values => ⟨values, Subsingleton.elim _ _⟩
    · have hlength : parameters.nreq + content.length ≤
          2 * parameters.blockSize - 1 := by
        omega
      apply ReedSolomon.prefix_bijective hpoint hindices
      · exact fun j => hlength.trans (hrange j).1
      · exact fun j => (hrange j).2
      · exact hlength.trans ((hrange ⟨0, hpos⟩).1.trans
          (Nat.le_of_lt (hrange ⟨0, hpos⟩).2))
  · have hlength : (List.ofFn front ++ content).length =
        parameters.blockSize := by
      rw [List.length_append, List.length_ofFn, hcontent, hblock]
    have hmap : List.ofFn (fun j => (ReedSolomon.interpolant point
          (List.ofFn front ++ content)).eval (point (indices j))) =
        (List.ofFn indices).map fun i => (ReedSolomon.interpolant point
          (List.ofFn front ++ content)).eval (point i) := by
      rw [List.map_ofFn]
      rfl
    rw [revealed, hvalues _ hlength, ok_bind, hmap]
    apply mapM_eq_ok
    intro i hi
    obtain ⟨j, rfl⟩ := List.mem_ofFn.mp hi
    exact index_eq_ok.mpr (ReedSolomon.extension_getElem? (hrange j).2)

section Tableau

variable [DecidableEq F] {σ : Type} {generator : σ → F × σ}
  {witness : Witness F} {quadraticConstraints : List QuadraticConstraint}
  {extendContextDblockNcol : ExtendContext F} {s : σ} {tableau : Tableau F}

/-- The revealed columns of a tableau show, for each row of the witness or of
its copies, the elements of a padded row. -/
theorem build_revealed
    (hbuild : build generator parameters witness quadraticConstraints
      extendContextBlockNcol extendContextDblockNcol s = .ok tableau)
    (hrange : ∀ j, 2 * parameters.blockSize - 1 ≤ indices j)
    {columns : List (List F)}
    (hcolumns : requestedTableauColumns tableau.layout tableau.contents
      (List.ofFn fun j => indices j - (2 * parameters.blockSize - 1)) =
        .ok columns)
    {numWitnessRows triples : Nat}
    (hlinear : tableau.layout.numLinearConstraintRows = .ok numWitnessRows)
    (htriples : tableau.layout.numQuadraticTriples = .ok triples) :
    ∃ s', ∀ (row : Nat) (content : List F),
      (rowContents witness quadraticConstraints parameters.witnessesPerRow
        numWitnessRows triples)[row]? = some content →
      ∃ values, columns[TableauLayout.firstWitnessRow + row]? = some values ∧
        revealed extendContextBlockNcol (List.ofFn indices) content
          (rowFront generator parameters.nreq s' row) = .ok values := by
  obtain ⟨hlayout, numWitnessRows', triples', hlinear', htriples', low, linear,
    quadratic, rows, hcontents, -, s', -, hpadded⟩ :=
      build_ensures _ _ _ _ _ _ _ hbuild
  rw [hlinear] at hlinear'
  rw [htriples] at htriples'
  obtain rfl := Except.ok.inj hlinear'
  obtain rfl := Except.ok.inj htriples'
  refine ⟨s', fun row content hcontent => ?_⟩
  obtain ⟨elements, helements, hextend⟩ := hpadded row content hcontent
  have hnreq : tableau.layout.numRequestedColumns = parameters.nreq := by
    rw [hlayout]
    rfl
  obtain ⟨numRows, dblock, hnumRows, hdblock⟩ :=
    requestedTableauColumns_eq_ok hcolumns
  have hdblock' : dblock = 2 * parameters.blockSize - 1 := by
    obtain ⟨-, h⟩ := checkedSub_eq_ok.mp hdblock
    rw [h, hlayout, Nat.mul_comm]
  have hrow : TableauLayout.firstWitnessRow + row < numRows := by
    have hcount : numRows =
        TableauLayout.firstWitnessRow + numWitnessRows + 3 * triples := by
      rw [TableauLayout.numRows, hlinear, ok_bind,
        TableauLayout.numQuadraticRows, htriples, ok_bind] at hnumRows
      exact (Except.ok.inj hnumRows).symm
    obtain ⟨hlt, -⟩ := List.getElem?_eq_some_iff.mp hcontent
    rw [rowContents, List.length_append, List.length_map, List.length_map,
      List.length_range, List.length_range] at hlt
    omega
  obtain ⟨values, hvalues, hlength, hget⟩ := requestedTableauColumns_ensures
    (by rw [List.length_ofFn, hnreq]) hdblock _ hcolumns numRows hnumRows _ hrow
  rw [hnreq] at hlength hget
  -- What the columns show of the row is what it has at the indices.
  have hshown (j : Fin parameters.nreq) :
      values[(j : Nat)]? = elements[indices j]? := by
    have hpos : 0 < parameters.nreq := Fin.pos j
    have hdiv : ((TableauLayout.firstWitnessRow + row) * parameters.nreq + j) /
        parameters.nreq = TableauLayout.firstWitnessRow + row := by
      rw [Nat.mul_comm, Nat.mul_add_div hpos, Nat.div_eq_of_lt j.isLt,
        Nat.add_zero]
    have hmod : ((TableauLayout.firstWitnessRow + row) * parameters.nreq + j) %
        parameters.nreq = j := by
      rw [Nat.mul_comm, Nat.mul_add_mod, Nat.mod_eq_of_lt j.isLt]
    have hcontents' : tableau.contents[TableauLayout.firstWitnessRow + row]? =
        some elements := by
      rw [hcontents, TableauLayout.firstWitnessRow, Nat.add_comm]
      exact helements
    rw [hget j j.isLt, columnElement, hdiv, hmod, hcontents']
    simp [hdblock', Nat.sub_add_cancel (hrange j)]
  refine ⟨values, hvalues, ?_⟩
  have hmap : values = (List.ofFn indices).map fun i => elements.getD i 0 := by
    apply List.ext_getElem
    · rw [List.length_map, List.length_ofFn, hlength]
    · intro i hi _
      have hj := hshown ⟨i, hlength ▸ hi⟩
      rw [List.getElem?_eq_getElem hi] at hj
      simp [← hj]
  rw [revealed, hextend, ok_bind, hmap]
  apply mapM_eq_ok
  intro i hi
  obtain ⟨j, rfl⟩ := List.mem_ofFn.mp hi
  have hbound : (j : Nat) < values.length := by
    rw [hlength]
    exact j.isLt
  have hj := hshown j
  rw [List.getElem?_eq_getElem hbound] at hj
  rw [index_eq_ok, ← hj]
  simp [← hj]

omit [DecidableEq F] in
/-- Rows with independent uniform random elements show the same distribution,
whatever their contents are. -/
theorem map_revealed_eq [Fintype F]
    (hblock :
      parameters.blockSize = parameters.nreq + parameters.witnessesPerRow)
    (hextend : Interpolates point parameters.blockSize parameters.numColumns
      extendContextBlockNcol)
    (hindices : Function.Injective indices)
    (hrange : ∀ j, 2 * parameters.blockSize - 1 ≤ indices j ∧
      indices j < parameters.numColumns)
    {rows : Nat} {contents : Fin rows → List F}
    (hcontents : ∀ row,
      (contents row).length = parameters.witnessesPerRow) :
    (PMF.uniformOfFintype (Fin rows → Fin parameters.nreq → F)).map
        (fun fronts row => revealed extendContextBlockNcol (List.ofFn indices)
          (contents row) (List.ofFn (fronts row))) =
      (PMF.uniformOfFintype (Fin rows → Fin parameters.nreq → F)).map
        fun values row => .ok (List.ofFn (values row)) := by
  choose reveal hbijective hreveal using fun row =>
    revealed_bijective hblock hextend hindices hrange (hcontents row)
  have hrows : Function.Bijective fun
      (fronts : Fin rows → Fin parameters.nreq → F) row =>
        reveal row (fronts row) :=
    Function.Bijective.piMap hbijective
  calc
    _ = ((PMF.uniformOfFintype (Fin rows → Fin parameters.nreq → F)).map
          fun fronts row => reveal row (fronts row)).map
            fun values row => .ok (List.ofFn (values row)) := by
      rw [PMF.map_comp]
      congr 1
      funext fronts row
      exact hreveal row (fronts row)
    _ = _ := by rw [map_uniformOfFintype hrows]

/-- For any content of a row, what is shown of it is in bijection with its
random elements, so that rows are shown with the same distribution whatever is
in them; and the revealed columns of a tableau show rows with successive
elements of the generator. -/
theorem revealed_hides [Fintype F]
    (hblock :
      parameters.blockSize = parameters.nreq + parameters.witnessesPerRow)
    (hextend : Interpolates point parameters.blockSize parameters.numColumns
      extendContextBlockNcol)
    (hindices : Function.Injective indices)
    (hrange : ∀ j, 2 * parameters.blockSize - 1 ≤ indices j ∧
      indices j < parameters.numColumns) :
    (∀ content : List F, content.length = parameters.witnessesPerRow →
      ∃ reveal : (Fin parameters.nreq → F) → Fin parameters.nreq → F,
        Function.Bijective reveal ∧ ∀ front,
          revealed extendContextBlockNcol (List.ofFn indices) content
            (List.ofFn front) = .ok (List.ofFn (reveal front))) ∧
    (∀ (rows : Nat) (contents contents' : Fin rows → List F),
      (∀ row, (contents row).length = parameters.witnessesPerRow) →
      (∀ row, (contents' row).length = parameters.witnessesPerRow) →
      (PMF.uniformOfFintype (Fin rows → Fin parameters.nreq → F)).map
          (fun fronts row => revealed extendContextBlockNcol
            (List.ofFn indices) (contents row) (List.ofFn (fronts row))) =
        (PMF.uniformOfFintype (Fin rows → Fin parameters.nreq → F)).map
          fun fronts row => revealed extendContextBlockNcol
            (List.ofFn indices) (contents' row) (List.ofFn (fronts row))) ∧
    ∀ (σ : Type) (generator : σ → F × σ) (witness : Witness F)
      (quadraticConstraints : List QuadraticConstraint)
      (extendContextDblockNcol : ExtendContext F) (s : σ)
      (tableau : Tableau F) (columns : List (List F))
      (numWitnessRows triples : Nat),
      build generator parameters witness quadraticConstraints
        extendContextBlockNcol extendContextDblockNcol s = .ok tableau →
      requestedTableauColumns tableau.layout tableau.contents
        (List.ofFn fun j => indices j - (2 * parameters.blockSize - 1)) =
          .ok columns →
      tableau.layout.numLinearConstraintRows = .ok numWitnessRows →
      tableau.layout.numQuadraticTriples = .ok triples →
      ∃ s', ∀ (row : Nat) (content : List F),
        (rowContents witness quadraticConstraints parameters.witnessesPerRow
          numWitnessRows triples)[row]? = some content →
        content.length = parameters.witnessesPerRow ∧
        ∃ values,
          columns[TableauLayout.firstWitnessRow + row]? = some values ∧
          revealed extendContextBlockNcol (List.ofFn indices) content
            (rowFront generator parameters.nreq s' row) = .ok values := by
  refine ⟨fun content hcontent =>
    revealed_bijective hblock hextend hindices hrange hcontent, ?_, ?_⟩
  · intro rows contents contents' hcontents hcontents'
    rw [map_revealed_eq hblock hextend hindices hrange hcontents,
      map_revealed_eq hblock hextend hindices hrange hcontents']
  · intro σ generator witness quadraticConstraints extendContextDblockNcol s
      tableau columns numWitnessRows triples hbuild hcolumns hlinear htriples
    obtain ⟨s', hrevealed⟩ := build_revealed hbuild (fun j => (hrange j).1)
      hcolumns hlinear htriples
    refine ⟨s', fun row content hcontent => ⟨?_, ?_⟩⟩
    · exact length_of_mem_rowContents (List.mem_of_getElem? hcontent)
    · exact hrevealed row content hcontent

end Tableau

end Hiding

section Sample

/-- Parameters for rows of one random element and one witness. -/
def sampleParameters : LigeroParameters := ⟨1, 1, 1, 2, 4⟩

/-- The only column that is revealed of a sample row. -/
def sampleIndices : Fin sampleParameters.nreq → Nat := fun _ => 3

theorem revealed_hides_sample :
    ∃ reveal : (Fin sampleParameters.nreq → FieldP128) →
        Fin sampleParameters.nreq → FieldP128,
      Function.Bijective reveal ∧ ∀ front,
        revealed (F := FieldP128) (ExtendP.contextOf 1 4)
          (List.ofFn sampleIndices) [5] (List.ofFn front) =
            .ok (List.ofFn (reveal front)) := by
  have hblock : sampleParameters.blockSize =
      sampleParameters.nreq + sampleParameters.witnessesPerRow := rfl
  have hextend : Interpolates (F := FieldP128) Nat.cast
      sampleParameters.blockSize sampleParameters.numColumns
      (ExtendP.contextOf 1 4) :=
    ExtendP.interpolates_p128 (by decide) (by decide)
  have hindices : Function.Injective sampleIndices :=
    fun i j _ => Fin.ext (by
      have hi : (i : Nat) < 1 := i.isLt
      have hj : (j : Nat) < 1 := j.isLt
      omega)
  have hrange : ∀ j, 2 * sampleParameters.blockSize - 1 ≤ sampleIndices j ∧
      sampleIndices j < sampleParameters.numColumns :=
    fun _ => ⟨Nat.le_refl 3, Nat.lt_succ_self 3⟩
  exact (revealed_hides hblock hextend hindices hrange).1 [5] rfl

end Sample

end Longfellow.Ligero
