/-
The commitment binds the prover: columns that are found in the tree are the
columns that the tree was built from, unless two different messages have one
hash.
-/
import Longfellow.Ligero.Opening
import Longfellow.Ligero.Revealed

namespace Longfellow.Ligero

open Exec CodecFieldElement HeapTree Tableau

/-- What a loop returns for one of the items. -/
theorem mapM_getElem? {α β : Type} {f : α → Exec β} {xs : List α}
    {ys : List β} (h : xs.mapM f = .ok ys) {k : Nat} {x : α}
    (hx : xs[k]? = some x) : ∃ y, f x = .ok y ∧ ys[k]? = some y := by
  induction xs generalizing ys k with
  | nil => simp at hx
  | cons first xs ih =>
      rw [List.mapM_cons] at h
      obtain ⟨y, hy, h⟩ := Exec.bind_eq_ok.mp h
      obtain ⟨rest, hrest, h⟩ := Exec.bind_eq_ok.mp h
      cases h
      cases k with
      | zero => exact ⟨y, Option.some.inj hx ▸ hy, rfl⟩
      | succ k => exact ih hrest hx

section Messages

variable {F : Type} [Field F] [CodecFieldElement F]

/-- What is hashed of a column. -/
def columnMessage (contents : List (List F)) (nonce : Nonce) (i : Nat) :
    List UInt8 :=
  nonce.bytes ++ (column contents i).flatMap encode

theorem columnLeaf_ensures [Primitives] (contents : List (List F))
    (nonce : Nonce) (i : Nat) : Ensures (columnLeaf contents nonce i)
      fun leaf => leaf = ⟨Primitives.sha256 (columnMessage contents nonce i)⟩ := by
  have hcolumn (elements : List F)
      (h : (contents.mapM fun row => index row i) = .ok elements) :
      elements = column contents i := by
    induction contents generalizing elements with
    | nil => cases h; rfl
    | cons row contents ih =>
        rw [List.mapM_cons] at h
        obtain ⟨element, helement, h⟩ := Exec.bind_eq_ok.mp h
        obtain ⟨rest, hrest, h⟩ := Exec.bind_eq_ok.mp h
        cases h
        have hget := index_eq_ok.mp helement
        rw [ih rest hrest, column, column, List.map_cons,
          List.getD_eq_getElem?_getD, hget]
        rfl
  intro leaf hleaf
  obtain ⟨elements, helements, hleaf⟩ := Exec.bind_eq_ok.mp hleaf
  cases hleaf
  rw [hcolumn elements helements]
  rfl

/-- Columns of one length are told apart by their messages. -/
theorem columnMessage_inj [LawfulCodec F] {contents contents' : List (List F)}
    (hlength : contents.length = contents'.length) {nonce nonce' : Nonce}
    {i i' : Nat}
    (h : columnMessage contents nonce i = columnMessage contents' nonce' i') :
    column contents i = column contents' i' := by
  have helements := (List.append_inj h
    (nonce.length_bytes.trans nonce'.length_bytes.symm)).2
  have hread (elements : List F) : Decoder.replicate decode elements.length
      (elements.flatMap encode ++ []) = .ok (elements, []) :=
    Decoder.replicate_reads elements (fun x _ => LawfulCodec.decode_reads x) []
  have hfirst := hread (column contents i)
  have hsecond := hread (column contents' i')
  rw [helements, length_column, hlength, ← length_column contents' i',
    hsecond, Except.ok.injEq, Prod.mk.injEq] at hfirst
  exact hfirst.1.symm

end Messages

namespace MerkleTree

variable [Primitives]

/-- A verified node is the digest of its leaf, if the tree and the verifier
hash no two different pairs of nodes to the same digest. -/
theorem verify_ensures_digest {leafCount : Nat} (hpos : 1 ≤ leafCount)
    {tree : MerkleTree} (hsized : Sized leafCount tree)
    (hhashed : Hashed hashChildren leafCount tree.digest) {nodes : List Node}
    {indices : List Nat} (hdistinct : indices.Nodup) {proof : InclusionProof}
    (hcollision : ∀ partialTree,
      fillPartialTree leafCount nodes indices proof = .ok partialTree →
        CollisionFree
          (hashedPairs (tree.digests.map some) ++ hashedPairs partialTree)) :
    Ensures (verify (Root.ofNode (tree.digest 1)) leafCount nodes indices proof)
      fun _ => nodes.length = indices.length ∧ ∀ (k : Nat) (i : Nat),
        indices[k]? = some i → i < leafCount ∧
          nodes[k]? = some (tree.leaf i) := by
  intro u hverify
  obtain ⟨_, hlength, hverify⟩ := Exec.bind_eq_ok.mp hverify
  have hlength := ensure_eq_ok.mp hlength
  obtain ⟨_, hrange, hverify⟩ := Exec.bind_eq_ok.mp hverify
  have hrange := ensure_eq_ok.mp hrange
  obtain ⟨filled, hfilled, hverify⟩ := Exec.bind_eq_ok.mp hverify
  obtain ⟨top, htop, hverify⟩ := Exec.bind_eq_ok.mp hverify
  have hverify := ensure_eq_ok.mp hverify
  obtain ⟨hsize, marked, hmarking, hincluded, hrebuilt⟩ :=
    fillPartialTree_ensures hpos hlength hrange proof filled hfilled
  have hrootAt : nodeAt filled 1 = some (tree.digest 1) := by
    rw [index_getD (by omega) none, Except.ok.injEq] at htop
    rw [nodeAt, htop]
    exact hverify
  have hagrees := hrebuilt.agrees hhashed
    (fun j hj hlt hchild => by
      rw [hmarking.inner_eq j hj hlt, Bool.or_eq_true]
      exact hchild)
    (fun j left right hj hlt hleft hright hhash => by
      have hmem := mem_hashedPairs hsize hj hlt hleft hright
      have hmemTree : (tree.digest (2 * j), tree.digest (2 * j + 1)) ∈
          hashedPairs (tree.digests.map some) :=
        mem_hashedPairs (by rw [List.length_map, hsized.1]) hj hlt
          (nodeAt_digests (by rw [hsized.1]; omega))
          (nodeAt_digests (by rw [hsized.1]; omega))
      exact Prod.mk.inj (hcollision filled hfilled _
        (List.mem_append_right _ hmem) _ (List.mem_append_left _ hmemTree)
        hhash))
    hrootAt
  refine ⟨hlength, fun k i hi => ?_⟩
  have hmem : i ∈ indices := List.mem_of_getElem? hi
  have hlt := hrange i hmem
  refine ⟨hlt, ?_⟩
  have hk : k < nodes.length := by
    rw [hlength]
    exact (List.getElem?_eq_some_iff.mp hi).1
  have hnode := List.getElem?_eq_getElem hk
  have hleaf := hagrees (leafCount + i) (by omega) (by omega)
    ((hmarking.leaf_iff i hlt).mpr hmem)
  have hfind := find?_zip_of_nodup hdistinct hnode hi leafCount
  rw [hincluded (nodes[k], i) hfind] at hleaf
  rw [hnode, leaf, hsized.leafCount_eq]
  exact hleaf

end MerkleTree

section Inclusion

variable {F : Type} [Field F] [CodecFieldElement F] [Primitives]

/-- The hashes of the revealed columns. -/
def includedNodes (proof : LigeroProof F)
    (requestedColumnIndices : List Nat) : Exec (List Node) :=
  (List.range requestedColumnIndices.length).mapM fun column => do
    let nonce ← index proof.merkleTreeNonces column
    columnLeaf proof.tableauColumns nonce column

/-- Neither two columns nor two pairs of nodes that the commitment or the
check of a proof against it hash have the same hash. -/
structure CollisionFreeOpening (contents : List (List F))
    (dblock leaves : Nat) (tree : MerkleTree) (proof : LigeroProof F)
    (indices : List Nat) : Prop where
  columns : ∀ (k i : Nat) (nonce nonce' : Nonce), indices[k]? = some i →
    proof.merkleTreeNonces[k]? = some nonce → tree.nonces[i]? = some nonce' →
    Primitives.sha256 (columnMessage proof.tableauColumns nonce k) =
      Primitives.sha256 (columnMessage contents nonce' (dblock + i)) →
    columnMessage proof.tableauColumns nonce k =
      columnMessage contents nonce' (dblock + i)
  nodes : ∀ nodes partialTree, includedNodes proof indices = .ok nodes →
    MerkleTree.fillPartialTree leaves nodes indices proof.inclusionProof =
      .ok partialTree →
    MerkleTree.CollisionFree (MerkleTree.hashedPairs (tree.digests.map some) ++
      MerkleTree.hashedPairs partialTree)

variable [ExtendFieldElement F] [LawfulCodec F]

/-- The revealed columns are columns of the contents that were committed to. -/
theorem checkInclusion_ensures {verifier : LigeroVerifier F}
    {proof : LigeroProof F} {contents : List (List F)} {tree : MerkleTree}
    {dblock leaves : Nat} {indices : List Nat}
    (hdblock : verifier.tableauLayout.dblock = .ok dblock)
    (hleaves : verifier.tableauLayout.numColumns = dblock + leaves)
    (hpos : 1 ≤ leaves) (hcommits : CommitsTo contents dblock leaves tree)
    (hrows : proof.tableauColumns.length = contents.length)
    (hdistinct : indices.Nodup)
    (hcollision :
      CollisionFreeOpening contents dblock leaves tree proof indices) :
    Ensures (verifier.checkInclusion proof (Root.ofNode (tree.digest 1))
      indices) fun _ => ∀ k i, indices[k]? = some i →
        column proof.tableauColumns k = column contents (dblock + i) := by
  intro u hcheck k i hi
  obtain ⟨nodes, hnodes, hcheck⟩ := Exec.bind_eq_ok.mp hcheck
  obtain ⟨dblock', hdblock', hcheck⟩ := Exec.bind_eq_ok.mp hcheck
  rw [hdblock, Except.ok.injEq] at hdblock'
  subst hdblock'
  obtain ⟨leaves', hleaves', hcheck⟩ := Exec.bind_eq_ok.mp hcheck
  rw [hleaves, checkedSub_of_le (Nat.le_add_right _ _), Nat.add_sub_cancel_left,
    Except.ok.injEq] at hleaves'
  subst hleaves'
  obtain ⟨-, hincluded⟩ := MerkleTree.verify_ensures_digest hpos
    hcommits.sized hcommits.hashed hdistinct
    (fun partialTree => hcollision.nodes nodes partialTree hnodes) u
    (context_eq_ok.mp hcheck)
  obtain ⟨hlt, hnode⟩ := hincluded k i hi
  have hk := (List.getElem?_eq_some_iff.mp hi).1
  obtain ⟨nonce', hnonce', hleaf⟩ := hcommits.leaf i hlt
  obtain ⟨node, hleaf', hget⟩ := mapM_getElem? hnodes
    (List.getElem?_range hk)
  rw [hnode, Option.some_inj] at hget
  subst hget
  obtain ⟨nonce, hnonce, hleaf'⟩ := Exec.bind_eq_ok.mp hleaf'
  have hdigest := (columnLeaf_ensures _ _ _ _ hleaf').symm.trans
    (columnLeaf_ensures _ _ _ _ hleaf)
  rw [Node.mk.injEq] at hdigest
  exact columnMessage_inj hrows (hcollision.columns k i nonce nonce' hi
    (index_eq_ok.mp hnonce) hnonce' hdigest)

end Inclusion

end Longfellow.Ligero
