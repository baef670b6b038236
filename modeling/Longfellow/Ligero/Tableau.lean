/-
Building the tableau: three rows of blinds, the rows of the witness, and the
rows of the copies of it that the quadratic constraints take. Every row starts
with random elements and is extended by interpolation.
-/
import Longfellow.Ligero.Layout
import Longfellow.Sumcheck.Constraints

namespace Longfellow.Ligero

open Exec

/-- An actual tableau containing values. -/
structure Tableau (F : Type) where
  layout : TableauLayout
  contents : List (List F)
deriving DecidableEq

namespace Tableau

variable {F σ : Type} [Field F] (generator : σ → F × σ)

/-- The next elements of the generator. -/
def takeElements : Nat → σ → List F × σ
  | 0, s => ([], s)
  | n + 1, s =>
      let (element, s) := generator s
      let (elements, s) := takeElements n s
      (element :: elements, s)

/-- The elements of the linear test row, with the sum of those in the witness
positions after the first. That one is reserved for its inverse. -/
def linearTestElements (nreq blockSize : Nat) :
    Nat → Nat → Nat → F → σ → Exec (List F × F × Nat × σ)
  | 0, _, available, sum, s => pure ([], sum, available, s)
  | n + 1, i, available, sum, s =>
      if i = nreq then do
        let (elements, sum, available, s) ←
          linearTestElements nreq blockSize n (i + 1) available sum s
        pure (0 :: elements, sum, available, s)
      else
        match available with
        | 0 => do
            assert (¬ (nreq + 1 ≤ i ∧ i < blockSize))
              "called `Option::unwrap()` on a `None` value"
            pure ([], sum, 0, s)
        | available + 1 => do
            let (element, s) := generator s
            let sum :=
              if nreq + 1 ≤ i ∧ i < blockSize then sum + element else sum
            let (elements, sum, available, s) ←
              linearTestElements nreq blockSize n (i + 1) available sum s
            pure (element :: elements, sum, available, s)

/-- The linear test row, before it is extended. -/
def linearTestRow [DecidableEq F] (layout : TableauLayout) (s : σ) :
    Exec (List F × σ) := do
  let dblock ← layout.dblock
  let available ← checkedSub dblock 1
  let (row, sum, available, s) ← linearTestElements generator
    layout.numRequestedColumns layout.blockSize dblock 0 available 0 s
  let row ← update row layout.numRequestedColumns fun _ => -sum
  assert (available = 0) "assertion `left == right` failed"
  assert (((row.drop layout.numRequestedColumns).take
    layout.witnessesPerRow).sum = 0) "assertion `left == right` failed"
  pure (row, s)

/-- The quadratic test row, before it is extended: zeros in the witness
positions, random elements in the others. -/
def quadraticTestRow (nreq blockSize : Nat) : Nat → Nat → σ → List F × σ
  | 0, _, s => ([], s)
  | n + 1, i, s =>
      if i < nreq ∨ blockSize ≤ i then
        let (element, s) := generator s
        let (elements, s) := quadraticTestRow nreq blockSize n (i + 1) s
        (element :: elements, s)
      else
        let (elements, s) := quadraticTestRow nreq blockSize n (i + 1) s
        (0 :: elements, s)

/-- The witness indices that are left to copy into the quadratic rows. -/
structure QuadraticIndices where
  x : List Nat
  y : List Nat
  z : List Nat

/-- Copy the witnesses at the next indices, with zeros once there are none
left. -/
def copyWitnesses (witness : Witness F) :
    Nat → List Nat → Exec (List F × List Nat)
  | 0, indices => pure ([], indices)
  | n + 1, [] => do
      let (elements, indices) ← copyWitnesses witness n []
      pure (0 :: elements, indices)
  | n + 1, i :: indices => do
      let element ← witness.element i
      let (elements, indices) ← copyWitnesses witness n indices
      pure (element :: elements, indices)

/-- The copies of a quadratic row: of an `x`, a `y` or a `z`. -/
def copyRow (witness : Witness F) (witnessesPerRow numQuadraticTriples : Nat)
    (row : Nat) (indices : QuadraticIndices) :
    Exec (List F × QuadraticIndices) :=
  if row < numQuadraticTriples then do
    let (elements, x) ← copyWitnesses witness witnessesPerRow indices.x
    pure (elements, { indices with x })
  else if row < 2 * numQuadraticTriples then do
    let (elements, y) ← copyWitnesses witness witnessesPerRow indices.y
    pure (elements, { indices with y })
  else do
    let (elements, z) ← copyWitnesses witness witnessesPerRow indices.z
    pure (elements, { indices with z })

section Rows

variable [ExtendFieldElement F] (layout : TableauLayout) (witness : Witness F)
  (extendContextBlockNcol : ExtendContext F)

/-- A row of a block: random elements, then the given ones, extended. -/
def paddedRow (nreq : Nat) (content : List F) (s : σ) :
    Exec (List F × σ) := do
  let (front, s) := takeElements generator nreq s
  let row ← extend (front ++ content) extendContextBlockNcol
  pure (row, s)

/-- Push the witness row with the given number. -/
def pushWitnessRow (state : List (List F) × σ) (witnessRow : Nat) :
    Exec (List (List F) × σ) := do
  let (rows, s) := state
  let content := witness.elements (witnessRow * layout.witnessesPerRow)
    layout.witnessesPerRow
  let (row, s) ← paddedRow generator extendContextBlockNcol
    layout.numRequestedColumns content s
  pure (rows ++ [row], s)

/-- Push the quadratic row with the given number. -/
def pushQuadraticRow (numQuadraticTriples : Nat)
    (state : List (List F) × σ × QuadraticIndices) (quadraticRow : Nat) :
    Exec (List (List F) × σ × QuadraticIndices) := do
  let (rows, s, indices) := state
  let (content, indices) ← copyRow witness layout.witnessesPerRow
    numQuadraticTriples quadraticRow indices
  let (row, s) ← paddedRow generator extendContextBlockNcol
    layout.numRequestedColumns content s
  pure (rows ++ [row], s, indices)

end Rows

/-- Build the tableau, using the generator for random elements. -/
def build [DecidableEq F] [ExtendFieldElement F]
    (ligeroParameters : LigeroParameters) (witness : Witness F)
    (quadraticConstraints : List QuadraticConstraint)
    (extendContextBlockNcol extendContextDblockNcol : ExtendContext F)
    (s : σ) : Exec (Tableau F) := do
  let layout : TableauLayout := ⟨ligeroParameters, witness.values.length,
    quadraticConstraints.length⟩
  let numWitnessRows ← layout.numLinearConstraintRows
  let numQuadraticRows ← layout.numQuadraticRows
  let numQuadraticTriples ← layout.numQuadraticTriples
  let numRows ← layout.numRows
  let dblock ← layout.dblock
  let (lowDegreeTestRow, s) := takeElements generator layout.blockSize s
  let lowDegreeTestRow ← extend lowDegreeTestRow extendContextBlockNcol
  let (linearTestRow, s) ← linearTestRow generator layout s
  let linearTestRow ← extend linearTestRow extendContextDblockNcol
  let (quadraticTestRow, s) := quadraticTestRow generator
    layout.numRequestedColumns layout.blockSize dblock 0 s
  let quadraticTestRow ← extend quadraticTestRow extendContextDblockNcol
  let (rows, s) ← (List.range numWitnessRows).foldlM
    (pushWitnessRow generator layout witness extendContextBlockNcol)
    ([lowDegreeTestRow, linearTestRow, quadraticTestRow], s)
  let (rows, _, _) ← (List.range numQuadraticRows).foldlM
    (pushQuadraticRow generator layout witness extendContextBlockNcol
      numQuadraticTriples)
    (rows, s, ⟨quadraticConstraints.map fun q => q.x,
      quadraticConstraints.map fun q => q.y,
      quadraticConstraints.map fun q => q.z⟩)
  assert (rows.length = numRows) "assertion `left == right` failed"
  pure ⟨layout, rows⟩

section Contents

variable {generator}

omit [Field F] in
theorem length_takeElements (n : Nat) (s : σ) :
    (takeElements generator n s).1.length = n := by
  induction n generalizing s with
  | zero => rfl
  | succ n ih => simp [takeElements, ih]

omit [Field F] in
/-- Taking elements twice leaves the same as taking them at once. -/
theorem takeElements_add (m n : Nat) (s : σ) :
    (takeElements generator (m + n) s).2 =
      (takeElements generator n (takeElements generator m s).2).2 := by
  induction m generalizing s with
  | zero => rw [Nat.zero_add, takeElements]
  | succ m ih =>
      rw [Nat.succ_add, takeElements, takeElements]
      exact ih _

/-- Some consecutive values, with zeros where there are none left. -/
def slice (values : List F) (start count : Nat) : List F :=
  (values.drop start).take count ++
    List.replicate (count - ((values.drop start).take count).length) 0

@[simp] theorem length_slice (values : List F) (start count : Nat) :
    (slice values start count).length = count := by
  simp only [slice, List.length_append, List.length_replicate,
    List.length_take, List.length_drop]
  omega

theorem slice_getElem? (values : List F) {start count i : Nat}
    (hi : i < count) :
    (slice values start count)[i]? = some (values.getD (start + i) 0) := by
  rw [slice, List.getD_eq_getElem?_getD]
  by_cases h : start + i < values.length
  · have hshort : i < ((values.drop start).take count).length := by
      simp only [List.length_take, List.length_drop]
      omega
    rw [List.getElem?_append_left hshort, List.getElem?_take_of_lt hi,
      List.getElem?_drop, List.getElem?_eq_getElem h]
    rfl
  · have hlong : ((values.drop start).take count).length ≤ i := by
      simp only [List.length_take, List.length_drop]
      omega
    rw [List.getElem?_append_right hlong, List.getElem?_replicate,
      if_pos (by simp only [List.length_take, List.length_drop]; omega),
      List.getElem?_eq_none (Nat.not_lt.mp h)]
    rfl

/-- The witnesses of a row. -/
def witnessContent (witness : Witness F) (witnessesPerRow row : Nat) :
    List F :=
  slice witness.values (row * witnessesPerRow) witnessesPerRow

/-- The values of the witness at some indices. -/
def copies (witness : Witness F) (indices : List Nat) : List F :=
  indices.map fun i => witness.values.getD i 0

/-- The copies of a quadratic row: those of the `x`s come first, then those of
the `y`s, then those of the `z`s. -/
def quadraticContent (witness : Witness F)
    (quadraticConstraints : List QuadraticConstraint)
    (witnessesPerRow triples row : Nat) : List F :=
  if row < triples then
    slice (copies witness (quadraticConstraints.map fun q => q.x))
      (row * witnessesPerRow) witnessesPerRow
  else if row < 2 * triples then
    slice (copies witness (quadraticConstraints.map fun q => q.y))
      ((row - triples) * witnessesPerRow) witnessesPerRow
  else
    slice (copies witness (quadraticConstraints.map fun q => q.z))
      ((row - 2 * triples) * witnessesPerRow) witnessesPerRow

theorem length_quadraticContent (witness : Witness F)
    (quadraticConstraints : List QuadraticConstraint)
    (witnessesPerRow triples row : Nat) :
    (quadraticContent witness quadraticConstraints witnessesPerRow triples
      row).length = witnessesPerRow := by
  rw [quadraticContent]
  split
  · exact length_slice _ _ _
  · split
    · exact length_slice _ _ _
    · exact length_slice _ _ _

/-- Copying takes the next values, and leaves the indices after them. -/
theorem copyWitnesses_ensures (witness : Witness F) (n : Nat)
    (indices : List Nat) :
    Ensures (copyWitnesses witness n indices) fun (elements, rest) =>
      elements = slice (copies witness indices) 0 n ∧
        rest = indices.drop n := by
  induction n generalizing indices with
  | zero =>
      intro result hresult
      cases hresult
      exact ⟨rfl, rfl⟩
  | succ n ih =>
      intro result hresult
      cases indices with
      | nil =>
          obtain ⟨⟨elements, rest⟩, hrest, hresult⟩ :=
            Exec.bind_eq_ok.mp hresult
          cases hresult
          obtain ⟨rfl, rfl⟩ := ih [] _ hrest
          refine ⟨?_, by simp⟩
          simp [slice, copies, List.replicate_succ]
      | cons i indices =>
          obtain ⟨element, helement, hresult⟩ := Exec.bind_eq_ok.mp hresult
          obtain ⟨⟨elements, rest⟩, hrest, hresult⟩ :=
            Exec.bind_eq_ok.mp hresult
          cases hresult
          obtain ⟨rfl, rfl⟩ := ih indices _ hrest
          refine ⟨?_, rfl⟩
          have hvalue := index_eq_ok.mp helement
          simp [slice, copies, hvalue]

theorem slice_drop (values : List F) (a start count : Nat) :
    slice (values.drop a) start count = slice values (a + start) count := by
  rw [slice, slice, List.drop_drop]

/-- The indices that are left to copy after some of the quadratic rows. -/
def remaining (quadraticConstraints : List QuadraticConstraint)
    (witnessesPerRow triples row : Nat) : QuadraticIndices where
  x := (quadraticConstraints.map fun q => q.x).drop
    (min row triples * witnessesPerRow)
  y := (quadraticConstraints.map fun q => q.y).drop
    (min (row - triples) triples * witnessesPerRow)
  z := (quadraticConstraints.map fun q => q.z).drop
    ((row - 2 * triples) * witnessesPerRow)

theorem copyRow_ensures (witness : Witness F)
    (quadraticConstraints : List QuadraticConstraint) (witnessesPerRow : Nat)
    {triples row : Nat} (hrow : row < 3 * triples) :
    Ensures (copyRow witness witnessesPerRow triples row
      (remaining quadraticConstraints witnessesPerRow triples row))
      fun (content, rest) =>
        content = quadraticContent witness quadraticConstraints
          witnessesPerRow triples row ∧
        rest = remaining quadraticConstraints witnessesPerRow triples
          (row + 1) := by
  have hslice (indices : List Nat) (start : Nat) :
      slice (copies witness (indices.drop start)) 0 witnessesPerRow =
        slice (copies witness indices) start witnessesPerRow := by
    rw [copies, List.map_drop, slice_drop]
    rfl
  have hdrop (indices : List Nat) (start : Nat) :
      (indices.drop (start * witnessesPerRow)).drop witnessesPerRow =
        indices.drop ((start + 1) * witnessesPerRow) := by
    rw [List.drop_drop, Nat.succ_mul]
  intro result hresult
  rw [copyRow] at hresult
  rw [quadraticContent]
  by_cases hx : row < triples
  · rw [if_pos hx] at hresult
    obtain ⟨⟨elements, rest⟩, hrest, hresult⟩ := Exec.bind_eq_ok.mp hresult
    cases hresult
    obtain ⟨rfl, rfl⟩ := copyWitnesses_ensures witness _ _ _ hrest
    have hmin : min row triples = row := by omega
    have hmin' : min (row + 1) triples = row + 1 := by omega
    have hy : row + 1 - triples = row - triples := by omega
    have hz : row + 1 - 2 * triples = row - 2 * triples := by omega
    constructor
    · rw [if_pos hx, remaining, hmin]
      exact hslice _ _
    · simp only [remaining, hmin, hmin', hy, hz, hdrop]
  · rw [if_neg hx] at hresult
    have hmin : min row triples = triples := by omega
    have hmin' : min (row + 1) triples = triples := by omega
    by_cases hy : row < 2 * triples
    · rw [if_pos hy] at hresult
      obtain ⟨⟨elements, rest⟩, hrest, hresult⟩ := Exec.bind_eq_ok.mp hresult
      cases hresult
      obtain ⟨rfl, rfl⟩ := copyWitnesses_ensures witness _ _ _ hrest
      have hminy : min (row - triples) triples = row - triples := by omega
      have hminy' : min (row + 1 - triples) triples = row - triples + 1 := by
        omega
      have hz : row + 1 - 2 * triples = row - 2 * triples := by omega
      constructor
      · rw [if_neg hx, if_pos hy, remaining, hminy]
        exact hslice _ _
      · simp only [remaining, hmin, hmin', hminy, hminy', hz, hdrop]
    · rw [if_neg hy] at hresult
      obtain ⟨⟨elements, rest⟩, hrest, hresult⟩ := Exec.bind_eq_ok.mp hresult
      cases hresult
      obtain ⟨rfl, rfl⟩ := copyWitnesses_ensures witness _ _ _ hrest
      have hminy : min (row - triples) triples = triples := by omega
      have hminy' : min (row + 1 - triples) triples = triples := by omega
      have hz : row + 1 - 2 * triples = row - 2 * triples + 1 := by omega
      constructor
      · rw [if_neg hx, if_neg hy, remaining]
        exact hslice _ _
      · simp only [remaining, hmin, hmin', hminy, hminy', hz, hdrop]

end Contents

section Build

variable {generator} [ExtendFieldElement F] {witness : Witness F}
  {extendContextBlockNcol : ExtendContext F} {layout : TableauLayout}

/-- The random elements of a padded row, which follow those of the rows before
it. -/
def rowFront (generator : σ → F × σ) (nreq : Nat) (s : σ) (row : Nat) :
    List F :=
  (takeElements generator nreq (takeElements generator (row * nreq) s).2).1

omit [Field F] [ExtendFieldElement F] in
theorem length_rowFront (nreq : Nat) (s : σ) (row : Nat) :
    (rowFront generator nreq s row).length = nreq :=
  length_takeElements _ _

omit [Field F] [ExtendFieldElement F] in
theorem rowFront_add (nreq : Nat) (s : σ) (skipped row : Nat) :
    rowFront generator nreq (takeElements generator (skipped * nreq) s).2 row =
      rowFront generator nreq s (skipped + row) := by
  rw [rowFront, rowFront, Nat.add_mul, takeElements_add]

omit [Field F] in
/-- Rows that are the extensions of their fronts followed by their contents. -/
def PaddedRows (extendContextBlockNcol : ExtendContext F)
    (front : Nat → List F) (contents rows : List (List F)) : Prop :=
  rows.length = contents.length ∧
    ∀ (row : Nat) (content : List F), contents[row]? = some content →
      ∃ elements, rows[row]? = some elements ∧
        extend (front row ++ content) extendContextBlockNcol = .ok elements

omit [Field F] in
theorem PaddedRows.nil (front : Nat → List F) :
    PaddedRows extendContextBlockNcol front [] [] :=
  ⟨rfl, fun _ _ hcontent => absurd hcontent (by simp)⟩

omit [Field F] in
theorem PaddedRows.append {front : Nat → List F}
    {contents rows contents' rows' : List (List F)}
    (h : PaddedRows extendContextBlockNcol front contents rows)
    (h' : PaddedRows extendContextBlockNcol
      (fun row => front (contents.length + row)) contents' rows') :
    PaddedRows extendContextBlockNcol front (contents ++ contents')
      (rows ++ rows') := by
  constructor
  · rw [List.length_append, List.length_append, h.1, h'.1]
  · intro row content hcontent
    by_cases hrow : row < contents.length
    · rw [List.getElem?_append_left hrow] at hcontent
      rw [List.getElem?_append_left (h.1 ▸ hrow)]
      exact h.2 row content hcontent
    · have hle : contents.length ≤ row := Nat.not_lt.mp hrow
      rw [List.getElem?_append_right hle] at hcontent
      obtain ⟨elements, helements, hextend⟩ := h'.2 _ _ hcontent
      simp only [Nat.add_sub_cancel' hle] at hextend
      refine ⟨elements, ?_, hextend⟩
      rw [List.getElem?_append_right (h.1 ▸ hle), h.1]
      exact helements

omit [Field F] in
theorem PaddedRows.singleton {front : Nat → List F}
    {content elements : List F}
    (hextend : extend (front 0 ++ content) extendContextBlockNcol =
      .ok elements) :
    PaddedRows extendContextBlockNcol front [content] [elements] := by
  refine ⟨rfl, fun row content' hcontent => ?_⟩
  obtain ⟨hrow, rfl⟩ := List.getElem?_eq_some_iff.mp hcontent
  obtain rfl : row = 0 := Nat.lt_one_iff.mp hrow
  exact ⟨elements, rfl, hextend⟩

omit [Field F] in
/-- One more padded row. -/
theorem paddedRow_ensures {nreq k : Nat} {s s' : σ} {content : List F}
    {contents rows : List (List F)}
    (hrows : PaddedRows extendContextBlockNcol (rowFront generator nreq s)
      contents rows) (hlength : contents.length = k)
    (hs : s' = (takeElements generator (k * nreq) s).2) :
    Ensures (paddedRow generator extendContextBlockNcol nreq content s')
      fun (elements, next) =>
        PaddedRows extendContextBlockNcol (rowFront generator nreq s)
          (contents ++ [content]) (rows ++ [elements]) ∧
        next = (takeElements generator ((k + 1) * nreq) s).2 := by
  intro result hresult
  obtain ⟨elements, hextend, hresult⟩ := Exec.bind_eq_ok.mp hresult
  cases hresult
  constructor
  · apply hrows.append
    apply PaddedRows.singleton
    rw [hlength, Nat.add_zero, rowFront, ← hs]
    exact hextend
  · rw [hs, Nat.succ_mul, takeElements_add]

/-- The witness rows are padded, and have the witness as their content. -/
theorem pushWitnessRows_ensures (numWitnessRows : Nat) (rows : List (List F))
    (s : σ) :
    Ensures ((List.range numWitnessRows).foldlM
      (pushWitnessRow generator layout witness extendContextBlockNcol)
      (rows, s)) fun (pushed, next) =>
        next = (takeElements generator
          (numWitnessRows * layout.numRequestedColumns) s).2 ∧
        ∃ added, pushed = rows ++ added ∧
          PaddedRows extendContextBlockNcol
            (rowFront generator layout.numRequestedColumns s)
            ((List.range numWitnessRows).map
              (witnessContent witness layout.witnessesPerRow)) added := by
  have hloop := Ensures.foldlM
    (f := pushWitnessRow generator layout witness extendContextBlockNcol)
    (I := fun k state =>
      state.2 = (takeElements generator
        (k * layout.numRequestedColumns) s).2 ∧
      ∃ added, state.1 = rows ++ added ∧ PaddedRows extendContextBlockNcol
        (rowFront generator layout.numRequestedColumns s)
        ((List.range k).map (witnessContent witness layout.witnessesPerRow))
        added)
    (List.range numWitnessRows) (s := (rows, s))
    ⟨by rw [Nat.zero_mul]; rfl, [], (List.append_nil rows).symm,
      PaddedRows.nil _⟩
    (by
      rintro k hk ⟨pushed, s'⟩ ⟨hs, added, hpushed, hpadded⟩ result hresult
      obtain rfl : pushed = rows ++ added := hpushed
      rw [List.getElem_range] at hresult
      obtain ⟨⟨row, next⟩, hrow, hresult⟩ := Exec.bind_eq_ok.mp hresult
      cases hresult
      obtain ⟨hpadded', hnext⟩ :=
        paddedRow_ensures hpadded (by simp) hs _ hrow
      refine ⟨hnext, added ++ [row], List.append_assoc rows added [row], ?_⟩
      rw [List.range_succ, List.map_append]
      exact hpadded')
  rwa [List.length_range] at hloop

/-- The quadratic rows are padded, and have the copies as their content. -/
theorem pushQuadraticRows_ensures (triples : Nat)
    (quadraticConstraints : List QuadraticConstraint) (rows : List (List F))
    (s : σ) :
    Ensures ((List.range (3 * triples)).foldlM
      (pushQuadraticRow generator layout witness extendContextBlockNcol
        triples)
      (rows, s, remaining quadraticConstraints layout.witnessesPerRow triples 0))
      fun (pushed, _, _) => ∃ added, pushed = rows ++ added ∧
        PaddedRows extendContextBlockNcol
          (rowFront generator layout.numRequestedColumns s)
          ((List.range (3 * triples)).map
            (quadraticContent witness quadraticConstraints
              layout.witnessesPerRow triples)) added := by
  have hloop := Ensures.foldlM
    (f := pushQuadraticRow generator layout witness extendContextBlockNcol
      triples)
    (I := fun k state =>
      state.2.1 = (takeElements generator
        (k * layout.numRequestedColumns) s).2 ∧
      state.2.2 =
        remaining quadraticConstraints layout.witnessesPerRow triples k ∧
      ∃ added, state.1 = rows ++ added ∧ PaddedRows extendContextBlockNcol
        (rowFront generator layout.numRequestedColumns s)
        ((List.range k).map (quadraticContent witness quadraticConstraints
          layout.witnessesPerRow triples)) added)
    (List.range (3 * triples))
    (s := (rows, s,
      remaining quadraticConstraints layout.witnessesPerRow triples 0))
    ⟨by rw [Nat.zero_mul]; rfl, rfl, [], (List.append_nil rows).symm,
      PaddedRows.nil _⟩
    (by
      rintro k hk ⟨pushed, s', indices⟩ ⟨hs, hindices, added, hpushed, hpadded⟩
        result hresult
      obtain rfl : pushed = rows ++ added := hpushed
      obtain rfl : indices = _ := hindices
      rw [List.length_range] at hk
      rw [List.getElem_range] at hresult
      obtain ⟨⟨content, indices'⟩, hcontent, hresult⟩ :=
        Exec.bind_eq_ok.mp hresult
      obtain ⟨⟨row, next⟩, hrow, hresult⟩ := Exec.bind_eq_ok.mp hresult
      cases hresult
      obtain ⟨rfl, rfl⟩ := copyRow_ensures witness quadraticConstraints
        layout.witnessesPerRow hk _ hcontent
      obtain ⟨hpadded', hnext⟩ :=
        paddedRow_ensures hpadded (by simp) hs _ hrow
      refine ⟨hnext, rfl, added ++ [row],
        List.append_assoc rows added [row], ?_⟩
      rw [List.range_succ, List.map_append]
      exact hpadded')
  rw [List.length_range] at hloop
  exact hloop.mono fun state h => h.2.2

/-- The contents of the padded rows. -/
def rowContents (witness : Witness F)
    (quadraticConstraints : List QuadraticConstraint)
    (witnessesPerRow numWitnessRows triples : Nat) : List (List F) :=
  (List.range numWitnessRows).map (witnessContent witness witnessesPerRow) ++
    (List.range (3 * triples)).map
      (quadraticContent witness quadraticConstraints witnessesPerRow triples)

omit [ExtendFieldElement F] in
theorem length_of_mem_rowContents
    {quadraticConstraints : List QuadraticConstraint}
    {witnessesPerRow numWitnessRows triples : Nat} {content : List F}
    (hcontent : content ∈ rowContents witness quadraticConstraints
      witnessesPerRow numWitnessRows triples) :
    content.length = witnessesPerRow := by
  rcases List.mem_append.mp hcontent with hmem | hmem
  · obtain ⟨row, -, rfl⟩ := List.mem_map.mp hmem
    exact length_slice _ _ _
  · obtain ⟨row, -, rfl⟩ := List.mem_map.mp hmem
    exact length_quadraticContent _ _ _ _ _

omit [ExtendFieldElement F] in
/-- The witness positions of the linear test row sum to zero. -/
theorem linearTestRow_ensures [DecidableEq F] (s : σ) :
    Ensures (linearTestRow generator layout s) fun (row, _) =>
      ((row.drop layout.numRequestedColumns).take
        layout.witnessesPerRow).sum = 0 := by
  intro result hresult
  obtain ⟨dblock, -, hresult⟩ := Exec.bind_eq_ok.mp hresult
  obtain ⟨available, -, hresult⟩ := Exec.bind_eq_ok.mp hresult
  obtain ⟨⟨row, sum, left, s'⟩, -, hresult⟩ := Exec.bind_eq_ok.mp hresult
  obtain ⟨updated, -, hresult⟩ := Exec.bind_eq_ok.mp hresult
  obtain ⟨_, -, hresult⟩ := Exec.bind_eq_ok.mp hresult
  obtain ⟨_, hsum, hresult⟩ := Exec.bind_eq_ok.mp hresult
  cases hresult
  exact assert_eq_ok.mp hsum

/-- After three rows of blinds come the padded rows of the witness and of its
copies. -/
theorem build_ensures [DecidableEq F] (parameters : LigeroParameters)
    (witness : Witness F) (quadraticConstraints : List QuadraticConstraint)
    (extendContextBlockNcol extendContextDblockNcol : ExtendContext F)
    (s : σ) :
    Ensures (build generator parameters witness quadraticConstraints
      extendContextBlockNcol extendContextDblockNcol s) fun tableau =>
        tableau.layout =
          ⟨parameters, witness.values.length, quadraticConstraints.length⟩ ∧
        ∃ numWitnessRows triples,
          tableau.layout.numLinearConstraintRows = .ok numWitnessRows ∧
          tableau.layout.numQuadraticTriples = .ok triples ∧
          ∃ low linear quadratic rows,
            tableau.contents = low :: linear :: quadratic :: rows ∧
            (∃ blinds, extend blinds extendContextDblockNcol = .ok linear ∧
              ((blinds.drop parameters.nreq).take
                parameters.witnessesPerRow).sum = 0) ∧
            ∃ s', PaddedRows extendContextBlockNcol
              (rowFront generator parameters.nreq s')
              (rowContents witness quadraticConstraints
                parameters.witnessesPerRow numWitnessRows triples) rows := by
  intro tableau htableau
  obtain ⟨numWitnessRows, hlinear, htableau⟩ := Exec.bind_eq_ok.mp htableau
  obtain ⟨numQuadraticRows, hquadratic, htableau⟩ :=
    Exec.bind_eq_ok.mp htableau
  obtain ⟨triples, htriples, htableau⟩ := Exec.bind_eq_ok.mp htableau
  obtain ⟨numRows, -, htableau⟩ := Exec.bind_eq_ok.mp htableau
  obtain ⟨dblock, -, htableau⟩ := Exec.bind_eq_ok.mp htableau
  obtain ⟨low, -, htableau⟩ := Exec.bind_eq_ok.mp htableau
  obtain ⟨⟨blinds, s₁⟩, hblinds, htableau⟩ := Exec.bind_eq_ok.mp htableau
  obtain ⟨linear, hextend, htableau⟩ := Exec.bind_eq_ok.mp htableau
  obtain ⟨quadratic, -, htableau⟩ := Exec.bind_eq_ok.mp htableau
  obtain ⟨⟨rows, s₂⟩, hrows, htableau⟩ := Exec.bind_eq_ok.mp htableau
  obtain ⟨⟨rows', s₃, indices⟩, hrows', htableau⟩ :=
    Exec.bind_eq_ok.mp htableau
  obtain ⟨_, -, htableau⟩ := Exec.bind_eq_ok.mp htableau
  cases htableau
  obtain ⟨rfl, witnessRows, rfl, hwitness⟩ :=
    pushWitnessRows_ensures _ _ _ _ hrows
  have hcount : numQuadraticRows = 3 * triples := by
    rw [TableauLayout.numQuadraticRows, htriples, ok_bind] at hquadratic
    exact (Except.ok.inj hquadratic).symm
  subst hcount
  have hstart : (⟨quadraticConstraints.map fun q => q.x,
      quadraticConstraints.map fun q => q.y,
      quadraticConstraints.map fun q => q.z⟩ : QuadraticIndices) =
        remaining quadraticConstraints parameters.witnessesPerRow triples 0 := by
    simp [remaining]
  rw [hstart] at hrows'
  obtain ⟨quadraticRows, rfl, hpadded⟩ :=
    pushQuadraticRows_ensures _ _ _ _ _ hrows'
  refine ⟨rfl, numWitnessRows, triples, hlinear, htriples, low, linear,
    quadratic, witnessRows ++ quadraticRows, rfl,
    ⟨blinds, hextend, linearTestRow_ensures _ _ hblinds⟩, _,
    hwitness.append ?_⟩
  rw [List.length_map, List.length_range]
  exact (funext fun row => rowFront_add _ _ _ row) ▸ hpadded

end Build

end Tableau

end Longfellow.Ligero
