/-
Committing to a tableau, and opening columns of it: the Merkle tree has the hash
of every column, and what is revealed of rows that are codewords are some of
their values.
-/
import Longfellow.Ligero.Hiding
import Longfellow.Ligero.Inclusion
import Longfellow.Ligero.Tests

namespace Longfellow.Ligero

open Exec Polynomial ReedSolomon Tableau

section Commit

open HeapTree MerkleTree

variable {F τ : Type} [CodecFieldElement F] [Primitives]

/-- A tree of the columns after the systematic part, each hashed after the
nonce that the tree keeps. -/
structure CommitsTo (contents : List (List F)) (dblock leaves : Nat)
    (tree : MerkleTree) : Prop where
  sized : Sized leaves tree
  hashed : Hashed hashChildren leaves tree.digest
  leaf : ∀ i, i < leaves → ∃ nonce, tree.nonces[i]? = some nonce ∧
    columnLeaf contents nonce (dblock + i) = .ok (tree.leaf i)

theorem columnLeaf_returns {contents : List (List F)} {columns i : Nat}
    (hcontents : ∀ row ∈ contents, row.length = columns) (hi : i < columns)
    (nonce : Nonce) : Returns (columnLeaf contents nonce i) fun _ => True := by
  have hcolumn : ∃ elements,
      (contents.mapM fun row => index row i) = .ok elements := by
    induction contents with
    | nil => exact ⟨[], rfl⟩
    | cons row contents ih =>
        obtain ⟨elements, helements⟩ :=
          ih fun other hmem => hcontents other (List.mem_cons_of_mem _ hmem)
        have hlt : i < row.length := by
          rwa [hcontents row List.mem_cons_self]
        refine ⟨row[i] :: elements, ?_⟩
        rw [List.mapM_cons, index_of_lt hlt, ok_bind, helements]
        rfl
  obtain ⟨elements, helements⟩ := hcolumn
  exact Returns.bind_of_eq helements ⟨_, rfl, trivial⟩

omit [Primitives] in
theorem setLeaf_eq_ok {tree : MerkleTree} {leaves position : Nat}
    (hsized : Sized leaves tree) (hposition : position < leaves) (leaf : Node)
    (nonce : Nonce) :
    tree.setLeaf position leaf nonce =
      .ok ⟨tree.digests.set (leaves + position) leaf,
        tree.nonces.set position nonce⟩ := by
  have hdigests : leaves + position < tree.digests.length := by
    rw [hsized.1]
    omega
  rw [setLeaf, hsized.leafCount_eq, update_of_lt hdigests, ok_bind,
    update_of_lt (hsized.2.symm ▸ hposition)]
  rfl

/-- Committing succeeds. -/
theorem commit_returns {tableau : Tableau F} {dblock columns : Nat}
    (hdblock : tableau.layout.dblock = .ok dblock)
    (hcolumns : tableau.layout.numColumns = columns) (hlt : dblock < columns)
    (hcontents : ∀ row ∈ tableau.contents, row.length = columns)
    (nonceGenerator : τ → Nonce × τ) (t : τ) :
    Returns (tableau.commit nonceGenerator t) fun tree =>
      CommitsTo tableau.contents dblock (columns - dblock) tree := by
  set leaves := columns - dblock with hleaves
  have hpos : 1 ≤ leaves := by omega
  have hloop := Returns.foldlM
    (f := fun (state : MerkleTree × τ) leafIndex => do
      let leaf ← columnLeaf tableau.contents (nonceGenerator state.2).1 leafIndex
      let position ← checkedSub leafIndex dblock
      let tree ← state.1.setLeaf position leaf (nonceGenerator state.2).1
      pure (tree, (nonceGenerator state.2).2))
    (I := fun k state => Sized leaves state.1 ∧ ∀ i, i < k →
      ∃ nonce, state.1.nonces[i]? = some nonce ∧
        columnLeaf tableau.contents nonce (dblock + i) =
          .ok (state.1.digest (leaves + i)))
    (List.range' dblock leaves) (s := (MerkleTree.new leaves, t))
    ⟨⟨List.length_replicate, List.length_replicate⟩,
      fun i hi => absurd hi (Nat.not_lt_zero i)⟩
    (by
      rintro k hk ⟨tree, t⟩ ⟨hsized, hbefore⟩
      rw [List.length_range'] at hk
      rw [List.getElem_range', Nat.one_mul]
      obtain ⟨leaf, hleaf, -⟩ := columnLeaf_returns hcontents
        (by omega : dblock + k < columns) (nonceGenerator t).1
      simp only [hleaf, ok_bind, checkedSub_of_le (Nat.le_add_right dblock k),
        Nat.add_sub_cancel_left, setLeaf_eq_ok hsized hk]
      have hbound : leaves + k < tree.digests.length := by
        rw [hsized.1]
        omega
      refine ⟨_, rfl, ⟨(List.length_set).trans hsized.1,
        (List.length_set).trans hsized.2⟩, fun i hi => ?_⟩
      simp only [digest, getD_set _ hbound, Nat.add_left_cancel_iff]
      rcases Nat.lt_succ_iff_lt_or_eq.mp hi with hlt | rfl
      · rw [List.getElem?_set_ne (Nat.ne_of_gt hlt),
          if_neg (Nat.ne_of_gt hlt)]
        exact hbefore i hlt
      · rw [List.getElem?_set_self (hsized.2.symm ▸ hk), if_pos rfl]
        exact ⟨_, rfl, hleaf⟩)
  rw [List.length_range'] at hloop
  obtain ⟨⟨tree, t'⟩, htree, hsized, hnonces⟩ := hloop
  obtain ⟨built, hbuilt, hlength, hkept, hdigests, hhashed⟩ :=
    build_returns hpos hsized.1
  have hbuiltSized : Sized leaves built := ⟨hlength, by rw [hkept, hsized.2]⟩
  refine ⟨built, ?_, hbuiltSized, hhashed, fun i hi => ?_⟩
  · rw [Tableau.commit, hdblock, ok_bind, hcolumns,
      checkedSub_of_le (Nat.le_of_lt hlt), ok_bind, htree, ok_bind]
    exact hbuilt
  · rw [hkept, leaf, hbuiltSized.leafCount_eq,
      hdigests _ (Nat.le_add_right _ _)]
    exact hnonces i hi

end Commit

section Columns

variable {F : Type} [Field F] {layout : TableauLayout}
  {contents : List (List F)} {indices : List Nat} {dblock : Nat}

/-- Filling in the requested columns succeeds. -/
theorem fillColumns_returns
    (hlength : indices.length = layout.numRequestedColumns)
    (hcontents : ∀ row ∈ contents, ∀ i ∈ indices, i + dblock < row.length) :
    Returns ((List.range contents.length).foldlM
      (fun columns row => indices.zipIdx.foldlM
        (fun columns (requestedColumnIndex, column) => do
          let elements ← index contents row
          let element ← index elements (requestedColumnIndex + dblock)
          update columns (row * layout.numRequestedColumns + column) fun _ =>
            element)
        columns)
      (List.replicate (layout.numRequestedColumns * contents.length) 0))
      fun (columns : List F) =>
        columns.length = layout.numRequestedColumns * contents.length := by
  have hloop := Returns.foldlM
    (f := fun columns row => indices.zipIdx.foldlM
      (fun columns (pair : Nat × Nat) => do
        let elements ← index contents row
        let element ← index elements (pair.1 + dblock)
        update columns (row * layout.numRequestedColumns + pair.2) fun _ =>
          element)
      columns)
    (I := fun _ (columns : List F) =>
      columns.length = layout.numRequestedColumns * contents.length)
    (List.range contents.length)
    (s := List.replicate (layout.numRequestedColumns * contents.length) (0 : F))
    List.length_replicate
    (by
      intro row hrow columns hcolumns
      rw [List.length_range] at hrow
      rw [List.getElem_range]
      refine Returns.foldlM (I := fun _ (columns : List F) =>
        columns.length = layout.numRequestedColumns * contents.length) _
        hcolumns fun column hcolumn columns hcolumns => ?_
      rw [List.length_zipIdx] at hcolumn
      rw [List.getElem_zipIdx, Nat.zero_add]
      have hend : (row + 1) * layout.numRequestedColumns ≤
          layout.numRequestedColumns * contents.length := by
        rw [Nat.mul_comm]
        exact Nat.mul_le_mul_left _ hrow
      rw [Nat.succ_mul] at hend
      refine Returns.bind_of_eq (index_of_lt hrow) ?_
      refine Returns.bind_of_eq (index_of_lt (hcontents _
        (List.getElem_mem hrow) _ (List.getElem_mem hcolumn))) ?_
      refine Returns.of_eq (update_of_lt ?_) ?_
      · omega
      · rw [List.length_set, hcolumns])
  exact hloop

/-- The requested columns hold the elements of every row at the requested
indices. -/
theorem requestedTableauColumns_of_length
    (hdblock : layout.dblock = .ok dblock)
    (hrows : layout.numRows = .ok contents.length)
    (hpos : 0 < layout.numRequestedColumns)
    (hlength : indices.length = layout.numRequestedColumns)
    (hcontents : ∀ row ∈ contents, ∀ i ∈ indices, i + dblock < row.length) :
    requestedTableauColumns layout contents indices = .ok
      (contents.map fun row => indices.map fun i => row.getD (i + dblock) 0) := by
  obtain ⟨filled, hfilled, hsize⟩ := fillColumns_returns hlength hcontents
  have hne : layout.numRequestedColumns ≠ 0 := Nat.pos_iff_ne_zero.mp hpos
  obtain ⟨columns, hcolumns⟩ : ∃ columns,
      chunks filled layout.numRequestedColumns = .ok columns :=
    ⟨_, chunks_eq_ok.mpr ⟨hpos, rfl⟩⟩
  have hresult : requestedTableauColumns layout contents indices =
      .ok columns := by
    rw [requestedTableauColumns, hrows, ok_bind, hdblock, ok_bind, hfilled,
      ok_bind, hcolumns]
  have hcount : columns.length = contents.length := by
    obtain ⟨-, rfl⟩ := chunks_eq_ok.mp hcolumns
    rw [List.length_map, List.length_range, hsize, Nat.add_sub_assoc hpos,
      Nat.mul_add_div hpos, Nat.div_eq_of_lt (Nat.sub_one_lt_of_lt hpos),
      Nat.add_zero]
  have hvalues := requestedTableauColumns_ensures hlength hdblock columns
    hresult contents.length hrows
  rw [hresult]
  congr 1
  apply List.ext_getElem
  · rw [hcount, List.length_map]
  · intro row hrow hrow'
    rw [List.length_map] at hrow'
    obtain ⟨values, hget, hwidth, helements⟩ := hvalues row hrow'
    rw [List.getElem?_eq_getElem hrow] at hget
    obtain rfl := Option.some.inj hget
    rw [List.getElem_map]
    apply List.ext_getElem
    · rw [hwidth, List.length_map, hlength]
    · intro k hk hk'
      rw [List.length_map] at hk'
      have hlt := hcontents _ (List.getElem_mem hrow') _
        (List.getElem_mem hk')
      have helement := helements k (hlength ▸ hk')
      rw [columnElement, Nat.mul_comm row, Nat.mul_add_div hpos,
        Nat.div_eq_of_lt (hlength ▸ hk'), Nat.add_zero, Nat.mul_add_mod,
        Nat.mod_eq_of_lt (hlength ▸ hk'), List.getElem?_eq_getElem hrow',
        List.getElem?_eq_getElem hk', List.getElem?_eq_getElem hk] at helement
      simp only [Option.bind_eq_bind, Option.bind_some] at helement
      rw [List.getElem?_eq_getElem hlt] at helement
      rw [List.getElem_map, List.getD_eq_getElem _ _ hlt]
      exact Option.some.inj helement

/-- Of rows that are values of polynomials, the requested columns are some of
the values. -/
theorem requestedTableauColumns_contents {polynomials : RowPolynomials F}
    {point : Nat → F} {m : Nat} (hdblock : layout.dblock = .ok dblock)
    (hrows : layout.numRows = .ok polynomials.all.length)
    (hpos : 0 < layout.numRequestedColumns)
    (hlength : indices.length = layout.numRequestedColumns)
    (hrange : ∀ i ∈ indices, i + dblock < m) :
    requestedTableauColumns layout
        (polynomials.contents point (List.range m)) indices =
      .ok (polynomials.contents point (indices.map (· + dblock))) := by
  have hcount : (polynomials.contents point (List.range m)).length =
      polynomials.all.length := List.length_map _
  rw [requestedTableauColumns_of_length hdblock (hcount.symm ▸ hrows) hpos
    hlength]
  · congr 1
    rw [RowPolynomials.contents, RowPolynomials.contents, List.map_map]
    apply List.map_congr_left
    intro p hp
    rw [valuesAt, List.map_map]
    apply List.map_congr_left
    intro i hi
    simp [valuesAt, hrange i hi]
  · intro row hrow i hi
    obtain ⟨p, -, rfl⟩ := List.mem_map.mp hrow
    rw [length_valuesAt, List.length_range]
    exact hrange i hi

end Columns

end Longfellow.Ligero
