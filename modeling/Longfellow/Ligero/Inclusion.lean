/-
Inclusion proofs of the Merkle tree: what the passes of the prover and of the
verifier do to the tree, that a verified node is the leaf at its index, and
that the prover's proof is verified.
-/
import Longfellow.Ligero.Merkle
import Longfellow.Sample

namespace Longfellow.Ligero.MerkleTree

open Exec HeapTree

section Marks

/-- Whether a node is marked. -/
def isMarked (marked : List Bool) (i : Nat) : Bool := marked.getD i false

/-- The child of a marked node that the proof supplies. -/
def suppliedChild (marked : List Bool) (i : Nat) : Option Nat :=
  if isMarked marked i = false then none
  else if isMarked marked (2 * i) = false then some (2 * i)
  else if isMarked marked (2 * i + 1) = false then some (2 * i + 1)
  else none

/-- The requested leaves are marked, and the inner nodes above them. -/
structure Marking (leafCount : Nat) (requestedLeaves : List Nat)
    (marked : List Bool) : Prop where
  length_eq : marked.length = 2 * leafCount
  leaf_iff : ∀ position, position < leafCount →
    (isMarked marked (leafCount + position) ↔ position ∈ requestedLeaves)
  inner_eq : ∀ i, 1 ≤ i → i < leafCount →
    isMarked marked i =
      (isMarked marked (2 * i) || isMarked marked (2 * i + 1))

theorem isMarked_set (marked : List Bool) {i : Nat} (hi : i < marked.length)
    (value : Bool) (j : Nat) :
    isMarked (marked.set i value) j =
      if i = j then value else isMarked marked j := by
  by_cases h : i = j
  · subst h
    simp [isMarked, hi]
  · simp [isMarked, h]

theorem index_isMarked {marked : List Bool} {i : Nat}
    (hi : i < marked.length) : index marked i = .ok (isMarked marked i) := by
  rw [index_of_lt hi]
  simp [isMarked, hi]

theorem isMarked_replicate (n i : Nat) :
    isMarked (List.replicate n false) i = false := by
  rw [isMarked, List.getD_eq_getElem?_getD, List.getElem?_replicate]
  split
  · rfl
  · rfl

theorem markLeaves_returns (leafCount : Nat) {requestedLeaves : List Nat}
    (hrange : ∀ leaf ∈ requestedLeaves, leaf < leafCount) :
    Returns (requestedLeaves.foldlM (fun marked requestedLeaf =>
        update marked (leafCount + requestedLeaf) fun _ => true)
      (List.replicate (2 * leafCount) false)) fun marked =>
        marked.length = 2 * leafCount ∧
          ∀ position, isMarked marked (leafCount + position) ↔
            position ∈ requestedLeaves := by
  have hloop := Returns.foldlM
    (f := fun marked requestedLeaf =>
      update marked (leafCount + requestedLeaf) fun _ => true)
    (I := fun k marked => marked.length = 2 * leafCount ∧
      ∀ position, isMarked marked (leafCount + position) ↔
        position ∈ requestedLeaves.take k)
    requestedLeaves (s := List.replicate (2 * leafCount) false)
    (by
      refine ⟨List.length_replicate, fun position => ?_⟩
      simp [isMarked_replicate])
    (by
      intro k hk marked hmarked
      obtain ⟨hlength, hiff⟩ := hmarked
      have hlt : leafCount + requestedLeaves[k] < marked.length := by
        have := hrange _ (List.getElem_mem hk)
        omega
      refine Returns.of_eq (update_of_lt hlt) ⟨?_, fun position => ?_⟩
      · rw [List.length_set, hlength]
      · rw [isMarked_set marked hlt, List.take_add_one,
          List.getElem?_eq_getElem hk, Option.toList_some, List.mem_append,
          List.mem_singleton, ← hiff position]
        by_cases h : requestedLeaves[k] = position
        · simp [h]
        · have hne : leafCount + requestedLeaves[k] ≠ leafCount + position := by
            omega
          rw [if_neg hne]
          exact ⟨Or.inl, fun hor => hor.resolve_right (Ne.symm h)⟩)
  rwa [List.take_length] at hloop

theorem eitherChildMarked_eq {marked : List Bool} {i : Nat}
    (hi : 2 * i + 1 < marked.length) :
    eitherChildMarked marked i =
      .ok (isMarked marked (2 * i) || isMarked marked (2 * i + 1)) := by
  rw [eitherChildMarked, leftChildIndex, rightChildIndex,
    index_isMarked (by omega), ok_bind, index_isMarked hi]
  cases isMarked marked (2 * i)
  · rfl
  · rfl

/-- The marking pass never leaves the tree, and marks what it should. -/
theorem markTree_returns {leafCount : Nat} (hpos : 1 ≤ leafCount)
    {requestedLeaves : List Nat}
    (hrange : ∀ leaf ∈ requestedLeaves, leaf < leafCount) :
    Returns (markTree (2 * leafCount) leafCount requestedLeaves)
      (Marking leafCount requestedLeaves) := by
  rw [markTree]
  refine (markLeaves_returns leafCount hrange).bind fun leaves hleaves => ?_
  obtain ⟨hlength, hiff⟩ := hleaves
  have hpass := foldlM_innerNodes Judgement.returns (n := leafCount)
    (f := markInnerNode)
    (I := fun k marked => marked.length = 2 * leafCount ∧
      (∀ position, isMarked marked (leafCount + position) ↔
        position ∈ requestedLeaves) ∧
      ∀ i, k ≤ i → i < leafCount → isMarked marked i =
        (isMarked marked (2 * i) || isMarked marked (2 * i + 1)))
    (s := leaves) hpos ⟨hlength, hiff, fun i hle hlt => by omega⟩
    (by
      intro i marked hi hlt hmarked
      obtain ⟨hlength, hiff, hinner⟩ := hmarked
      have hvalue : eitherChildMarked marked i =
          .ok (isMarked marked (2 * i) || isMarked marked (2 * i + 1)) :=
        eitherChildMarked_eq (by omega)
      have hbound : i < marked.length := by omega
      refine Returns.of_eq (by
        rw [markInnerNode, hvalue, ok_bind, update_of_lt hbound]) ?_
      refine ⟨by rw [List.length_set, hlength], fun position => ?_, ?_⟩
      · rw [isMarked_set marked hbound, if_neg (by omega)]
        exact hiff position
      · intro j hle hj
        rw [isMarked_set marked hbound, isMarked_set marked hbound,
          isMarked_set marked hbound, if_neg (by omega : i ≠ 2 * j),
          if_neg (by omega : i ≠ 2 * j + 1)]
        rcases Nat.eq_or_lt_of_le hle with rfl | hlt
        · rw [if_pos rfl]
        · rw [if_neg (by omega)]
          exact hinner j hlt hj)
  exact hpass.mono fun marked h =>
    { length_eq := h.1
      leaf_iff := fun position _ => h.2.1 position
      inner_eq := h.2.2 }

namespace Marking

variable {leafCount : Nat} {requestedLeaves : List Nat} {marked : List Bool}

theorem unmarkedChild_eq (h : Marking leafCount requestedLeaves marked)
    {i : Nat} (hi : i < leafCount) :
    unmarkedChild marked i = .ok (suppliedChild marked i) := by
  have hlength := h.length_eq
  rw [unmarkedChild, index_isMarked (by omega), ok_bind, suppliedChild]
  cases hnode : isMarked marked i with
  | false => rfl
  | true =>
      simp only [if_true, Bool.true_eq_false, if_false]
      rw [leftChildIndex, index_isMarked (by omega), ok_bind]
      cases hleft : isMarked marked (2 * i) with
      | false =>
          simp only [Bool.false_eq_true, if_false, if_true]
          rw [index_isMarked (by omega), ok_bind, hleft]
          rfl
      | true =>
          simp only [if_true, Bool.true_eq_false, if_false]
          rw [rightChildIndex, index_isMarked (by omega), ok_bind]
          cases isMarked marked (2 * i + 1) <;> rfl

/-- The proof supplies the unmarked children of marked nodes. -/
theorem suppliedChild_eq_some (h : Marking leafCount requestedLeaves marked)
    {i : Nat} (hpos : 1 ≤ i) (hi : i < leafCount) {child : Nat} :
    suppliedChild marked i = some child ↔
      child / 2 = i ∧ isMarked marked i ∧ isMarked marked child = false := by
  have hinner := h.inner_eq i hpos hi
  have hchild : child / 2 = i ↔ child = 2 * i ∨ child = 2 * i + 1 := by omega
  rw [suppliedChild, hchild]
  cases hleft : isMarked marked (2 * i) <;>
  cases hright : isMarked marked (2 * i + 1) <;>
  rw [hleft, hright] at hinner <;>
  simp only [hinner] <;> grind

end Marking

end Marks

section Build

/-- The digest of a node of the tree. -/
def digest (tree : MerkleTree) (i : Nat) : Node := tree.digests.getD i default

/-- The digest of a leaf of the tree. -/
def leaf (tree : MerkleTree) (position : Nat) : Node :=
  tree.digest (tree.leafCount + position)

theorem getD_set {α : Type} (xs : List α) {i : Nat} (hi : i < xs.length)
    (x d : α) (j : Nat) :
    (xs.set i x).getD j d = if i = j then x else xs.getD j d := by
  by_cases h : i = j
  · subst h
    simp [hi]
  · simp [h]

theorem index_getD {α : Type} {xs : List α} {i : Nat} (hi : i < xs.length)
    (d : α) : index xs i = .ok (xs.getD i d) := by
  rw [index_of_lt hi]
  simp [hi]

/-- A tree of the size of a new one. -/
def Sized (leafCount : Nat) (tree : MerkleTree) : Prop :=
  tree.digests.length = 2 * leafCount ∧ tree.nonces.length = leafCount

theorem Sized.leafCount_eq {leafCount : Nat} {tree : MerkleTree}
    (h : Sized leafCount tree) : tree.leafCount = leafCount := by
  rw [MerkleTree.leafCount, treeSize, h.1]
  omega

theorem setLeaf_ensures {tree : MerkleTree} {leafCount : Nat}
    (h : Sized leafCount tree) (position : Nat) (node : Node) (nonce : Nonce) :
    Ensures (tree.setLeaf position node nonce) fun next =>
      Sized leafCount next ∧ ∀ i, next.digest (leafCount + i) =
        if position = i then node else tree.digest (leafCount + i) := by
  intro next hnext
  rw [setLeaf, h.leafCount_eq] at hnext
  obtain ⟨digests, hdigests, hnext⟩ := Exec.bind_eq_ok.mp hnext
  obtain ⟨nonces, hnonces, hnext⟩ := Exec.bind_eq_ok.mp hnext
  cases hnext
  obtain ⟨old, hold, rfl⟩ := update_eq_ok.mp hdigests
  obtain ⟨oldNonce, -, rfl⟩ := update_eq_ok.mp hnonces
  obtain ⟨hlt, -⟩ := List.getElem?_eq_some_iff.mp hold
  refine ⟨⟨by rw [List.length_set, h.1], by rw [List.length_set, h.2]⟩, ?_⟩
  intro i
  rw [digest, getD_set _ hlt]
  simp only [Nat.add_left_cancel_iff]
  rfl

variable [Primitives]

/-- Building a tree hashes every inner node and leaves the leaves alone. -/
theorem build_returns {tree : MerkleTree} {leafCount : Nat}
    (hpos : 1 ≤ leafCount) (hlength : tree.digests.length = 2 * leafCount) :
    Returns tree.build fun built =>
      built.digests.length = 2 * leafCount ∧ built.nonces = tree.nonces ∧
        (∀ i, leafCount ≤ i → built.digest i = tree.digest i) ∧
        Hashed hashChildren leafCount built.digest := by
  have hcount : tree.leafCount = leafCount := by
    rw [MerkleTree.leafCount, treeSize, hlength]
    omega
  rw [build, hcount]
  have hpass := foldlM_innerNodes Judgement.returns (n := leafCount)
    (f := buildNode)
    (I := fun k digests => digests.length = 2 * leafCount ∧
      (∀ i, leafCount ≤ i → digests.getD i default = tree.digest i) ∧
      ∀ i, k ≤ i → i < leafCount → digests.getD i default =
        hashChildren (digests.getD (2 * i) default)
          (digests.getD (2 * i + 1) default))
    (s := tree.digests) hpos
    ⟨hlength, fun i _ => rfl, fun i hle hlt => by omega⟩
    (by
      intro i digests hi hlt hdigests
      obtain ⟨hlength, hleaves, hinner⟩ := hdigests
      have hbound : i < digests.length := by omega
      have hleft : index digests (leftChildIndex i) =
          .ok (digests.getD (2 * i) default) :=
        index_getD (by rw [hlength, leftChildIndex]; omega) default
      have hright : index digests (rightChildIndex i) =
          .ok (digests.getD (2 * i + 1) default) :=
        index_getD (by rw [hlength, rightChildIndex]; omega) default
      refine Returns.of_eq (by
        rw [buildNode, hleft, ok_bind, hright, ok_bind,
          update_of_lt hbound]) ?_
      refine ⟨by rw [List.length_set, hlength], fun j hj => ?_, ?_⟩
      · rw [getD_set digests hbound, if_neg (by omega)]
        exact hleaves j hj
      · intro j hle hj
        rw [getD_set digests hbound, getD_set digests hbound,
          getD_set digests hbound, if_neg (by omega : i ≠ 2 * j),
          if_neg (by omega : i ≠ 2 * j + 1)]
        rcases Nat.eq_or_lt_of_le hle with rfl | hlt
        · rw [if_pos rfl]
        · rw [if_neg (by omega)]
          exact hinner j hlt hj)
  refine hpass.bind fun digests h => Returns.of_eq rfl ?_
  exact ⟨h.1, rfl, h.2.1, h.2.2⟩

/-- Inserting leaves at positions of the tree, and building it, succeeds. -/
theorem ofLeaves_returns {leafCount : Nat} (hpos : 1 ≤ leafCount)
    {calls : List (Nat × Node × Nonce)}
    (hrange : ∀ call ∈ calls, call.1 < leafCount) :
    Returns (ofLeaves leafCount calls) fun _ => True := by
  have hloop := Returns.foldlM
    (f := fun (tree : MerkleTree) (call : Nat × Node × Nonce) =>
      tree.setLeaf call.1 call.2.1 call.2.2)
    (I := fun _ tree => Sized leafCount tree) calls (s := new leafCount)
    ⟨List.length_replicate, List.length_replicate⟩
    (by
      intro k hk tree hsized
      have hlt := hrange _ (List.getElem_mem hk)
      have hdigests := update_of_lt (f := fun _ => calls[k].2.1)
        (by rw [hsized.1]; omega :
          leafCount + calls[k].1 < tree.digests.length)
      have hnonces := update_of_lt (f := fun _ => calls[k].2.2)
        (by rw [hsized.2]; exact hlt : calls[k].1 < tree.nonces.length)
      refine Returns.of_eq (by
        rw [setLeaf, hsized.leafCount_eq, hdigests, ok_bind, hnonces,
          ok_bind]
        rfl) ?_
      exact ⟨by rw [List.length_set, hsized.1],
        by rw [List.length_set, hsized.2]⟩)
  refine hloop.bind fun tree hsized => ?_
  exact (build_returns hpos hsized.1).mono fun _ _ => trivial

/-- A built tree has every leaf that was inserted, at its position, unless the
position was overwritten later. -/
theorem ofLeaves_ensures {leafCount : Nat} (hpos : 1 ≤ leafCount)
    (calls : List (Nat × Node × Nonce)) :
    Ensures (ofLeaves leafCount calls) fun tree =>
      Sized leafCount tree ∧ Hashed hashChildren leafCount tree.digest ∧
        ∀ i, i < leafCount → tree.leaf i = lastLeaf calls i := by
  have hloop := Ensures.foldlM
    (f := fun (tree : MerkleTree) (call : Nat × Node × Nonce) =>
      tree.setLeaf call.1 call.2.1 call.2.2)
    (I := fun k tree => Sized leafCount tree ∧ ∀ i, i < leafCount →
      tree.digest (leafCount + i) = lastLeaf (calls.take k) i)
    calls (s := new leafCount)
    (by
      refine ⟨⟨List.length_replicate, List.length_replicate⟩, fun i hi => ?_⟩
      simp [digest, new, lastLeaf])
    (by
      intro k hk tree htree
      obtain ⟨hsized, hleaves⟩ := htree
      refine (setLeaf_ensures hsized _ _ _).mono fun next hnext => ?_
      refine ⟨hnext.1, fun i hi => ?_⟩
      rw [hnext.2 i, hleaves i hi, lastLeaf, lastLeaf, List.take_add_one,
        List.getElem?_eq_getElem hk, Option.toList_some, List.reverse_concat,
        List.find?_cons]
      by_cases h : calls[k].1 = i
      · simp [h]
      · simp [h])
  rw [List.take_length] at hloop
  refine hloop.bind fun tree htree => ?_
  intro built hbuilt
  obtain ⟨hsized, hleaves⟩ := htree
  obtain ⟨built', heq, hlength, hnonces, hkept, hhashed⟩ :=
    build_returns hpos hsized.1
  rw [heq] at hbuilt
  cases hbuilt
  have hbuilt : Sized leafCount built := ⟨hlength, by rw [hnonces, hsized.2]⟩
  refine ⟨hbuilt, hhashed, fun i hi => ?_⟩
  rw [leaf, hbuilt.leafCount_eq, hkept _ (Nat.le_add_right _ _)]
  exact hleaves i hi

end Build

section Prove

variable {leafCount : Nat} {requestedLeaves : List Nat}

/-- The digests that the proof supplies at the inner nodes below `k`. -/
def suppliedNodes (tree : MerkleTree) (marked : List Bool) (k : Nat) :
    List Node :=
  ((innerNodes k).filterMap (suppliedChild marked)).map tree.digest

theorem suppliedNodes_succ (tree : MerkleTree) (marked : List Bool) {i : Nat}
    (hi : 1 ≤ i) :
    tree.suppliedNodes marked (i + 1) =
      ((suppliedChild marked i).map tree.digest).toList ++
        tree.suppliedNodes marked i := by
  rw [suppliedNodes, suppliedNodes, innerNodes_succ hi, List.filterMap_cons]
  cases suppliedChild marked i with
  | none => rfl
  | some child => rfl

theorem suppliedChild_lt {marked : List Bool}
    (h : Marking leafCount requestedLeaves marked) {i child : Nat}
    (hpos : 1 ≤ i) (hi : i < leafCount)
    (hchild : suppliedChild marked i = some child) : child < 2 * leafCount := by
  obtain ⟨hparent, -, -⟩ := (h.suppliedChild_eq_some hpos hi).mp hchild
  omega

/-- The prover returns the digests of the unmarked children of marked nodes. -/
theorem prove_returns {tree : MerkleTree} (hpos : 1 ≤ leafCount)
    (hsized : Sized leafCount tree)
    (hrange : ∀ leaf ∈ requestedLeaves, leaf < leafCount) :
    Returns (tree.prove requestedLeaves) fun proof => ∃ marked,
      markTree (2 * leafCount) leafCount requestedLeaves = .ok marked ∧
        proof.nodes = tree.suppliedNodes marked leafCount := by
  rw [prove, hsized.leafCount_eq, treeSize, hsized.1]
  obtain ⟨marked, hmark, hmarking⟩ := markTree_returns hpos hrange
  rw [hmark, ok_bind]
  have hpass := foldlM_innerNodes Judgement.returns (n := leafCount)
    (f := tree.pushProofNode marked)
    (I := fun k proof => proof ++ tree.suppliedNodes marked k =
      tree.suppliedNodes marked leafCount)
    (s := []) hpos rfl
    (by
      intro i proof hi hlt hproof
      rw [suppliedNodes_succ tree marked hi] at hproof
      cases hchild : suppliedChild marked i with
      | none =>
          refine Returns.of_eq (a := proof) ?_ ?_
          · rw [pushProofNode, hmarking.unmarkedChild_eq hlt, ok_bind, hchild]
            rfl
          · simpa [hchild] using hproof
      | some child =>
          have hbound : child < tree.digests.length := by
            rw [hsized.1]
            exact suppliedChild_lt hmarking hi hlt hchild
          refine Returns.of_eq (a := proof ++ [tree.digest child]) ?_ ?_
          · rw [pushProofNode, hmarking.unmarkedChild_eq hlt, ok_bind, hchild]
            simp only
            rw [index_getD hbound default, ok_bind]
            rfl
          · simpa [hchild] using hproof)
  refine hpass.bind fun proof hproof => Returns.of_eq rfl ⟨marked, rfl, ?_⟩
  simpa [suppliedNodes] using hproof

end Prove

section Fill

/-- The digest of a node of a partial tree, if it is known. -/
def nodeAt (partialTree : List (Option Node)) (i : Nat) : Option Node :=
  partialTree.getD i none

/-- The proof supplies the digest of a node. -/
def Supplied (leafCount : Nat) (marked : List Bool) (i : Nat) : Prop :=
  1 ≤ i / 2 ∧ i < 2 * leafCount ∧ isMarked marked (i / 2) ∧
    isMarked marked i = false

variable {leafCount : Nat} {indices : List Nat} {marked : List Bool}

/-- Taking nodes from the proof fills exactly the nodes that it supplies. -/
theorem placeProofNodes_ensures (hpos : 1 ≤ leafCount)
    (hmarking : Marking leafCount indices marked) (proofNodes : List Node) :
    Ensures ((innerNodes leafCount).foldlM (placeProofNode marked)
      (List.replicate (2 * leafCount) none, proofNodes)) fun state =>
        state.1.length = 2 * leafCount ∧
          ∀ i, (nodeAt state.1 i).isSome ↔ Supplied leafCount marked i := by
  have hpass := foldlM_innerNodes Judgement.ensures (n := leafCount)
    (f := placeProofNode marked)
    (I := fun k state => state.1.length = 2 * leafCount ∧
      ∀ i, (nodeAt state.1 i).isSome ↔
        k ≤ i / 2 ∧ Supplied leafCount marked i)
    (s := (List.replicate (2 * leafCount) none, proofNodes)) hpos
    (by
      refine ⟨List.length_replicate, fun i => ?_⟩
      have hnone : nodeAt (List.replicate (2 * leafCount) none) i = none := by
        rw [nodeAt, List.getD_eq_getElem?_getD, List.getElem?_replicate]
        split
        · rfl
        · rfl
      have hnot : ¬ (leafCount ≤ i / 2 ∧ Supplied leafCount marked i) := by
        rintro ⟨hle, -, hlt, -⟩
        omega
      simp [hnone, hnot])
    (by
      intro i state hi hlt hstate next hnext
      obtain ⟨partialTree, proofNodes⟩ := state
      obtain ⟨hlength, hknown⟩ := hstate
      have hiff (j : Nat) : i ≤ j / 2 ∧ Supplied leafCount marked j ↔
          suppliedChild marked i = some j ∨
            (i + 1 ≤ j / 2 ∧ Supplied leafCount marked j) := by
        rw [hmarking.suppliedChild_eq_some hi hlt, Supplied]
        constructor
        · rintro ⟨hle, hone, hbound, hparent, hself⟩
          rcases Nat.eq_or_lt_of_le hle with rfl | hlt
          · exact Or.inl ⟨rfl, hparent, hself⟩
          · exact Or.inr ⟨hlt, hone, hbound, hparent, hself⟩
        · rintro (⟨rfl, hparent, hself⟩ | ⟨hle, hrest⟩)
          · exact ⟨le_rfl, hi, by omega, hparent, hself⟩
          · exact ⟨by omega, hrest⟩
      rw [placeProofNode, hmarking.unmarkedChild_eq hlt, ok_bind] at hnext
      cases hchild : suppliedChild marked i with
      | none =>
          rw [hchild] at hnext
          cases hnext
          refine ⟨hlength, fun j => ?_⟩
          rw [hknown j, hiff j, hchild]
          simp
      | some child =>
          rw [hchild] at hnext
          cases proofNodes with
          | nil => cases hnext
          | cons proofNode proofNodes =>
              obtain ⟨filled, hfilled, hnext⟩ := Exec.bind_eq_ok.mp hnext
              cases hnext
              have hbound : child < partialTree.length := by
                rw [hlength]
                exact suppliedChild_lt hmarking hi hlt hchild
              rw [update_of_lt hbound] at hfilled
              cases hfilled
              refine ⟨by rw [List.length_set, hlength], fun j => ?_⟩
              rw [nodeAt, getD_set _ hbound, hiff j, hchild]
              by_cases h : child = j
              · simp [h]
              · rw [if_neg h]
                simp only [Option.some_inj, h, false_or]
                exact hknown j)
  refine hpass.mono fun state h => ⟨h.1, fun i => ?_⟩
  rw [h.2 i, Supplied]
  tauto

/-- With the prover's proof, taking nodes from it succeeds, and the filled
nodes are those of the tree. -/
theorem placeProofNodes_returns (tree : MerkleTree) (hpos : 1 ≤ leafCount)
    (hmarking : Marking leafCount indices marked) :
    Returns ((innerNodes leafCount).foldlM (placeProofNode marked)
      (List.replicate (2 * leafCount) none,
        tree.suppliedNodes marked leafCount)) fun state =>
          ∀ i node, nodeAt state.1 i = some node → node = tree.digest i := by
  have hpass := foldlM_innerNodes Judgement.returns (n := leafCount)
    (f := placeProofNode marked)
    (I := fun k state => state.1.length = 2 * leafCount ∧
      state.2 = tree.suppliedNodes marked k ∧
      ∀ i node, nodeAt state.1 i = some node → node = tree.digest i)
    (s := (List.replicate (2 * leafCount) none,
      tree.suppliedNodes marked leafCount)) hpos
    (by
      refine ⟨List.length_replicate, rfl, fun i node hnode => ?_⟩
      rw [nodeAt, List.getD_eq_getElem?_getD, List.getElem?_replicate] at hnode
      split at hnode
      · cases hnode
      · cases hnode)
    (by
      intro i state hi hlt hstate
      obtain ⟨partialTree, proofNodes⟩ := state
      obtain ⟨hlength, hproof, hagrees⟩ := hstate
      simp only at hlength hproof hagrees
      rw [suppliedNodes_succ tree marked hi] at hproof
      rw [placeProofNode, hmarking.unmarkedChild_eq hlt, ok_bind]
      cases hchild : suppliedChild marked i with
      | none =>
          rw [hchild] at hproof
          exact Returns.of_eq rfl ⟨hlength, hproof, hagrees⟩
      | some child =>
          have hbound : child < partialTree.length := by
            rw [hlength]
            exact suppliedChild_lt hmarking hi hlt hchild
          rw [hchild] at hproof
          subst hproof
          simp only [Option.map_some, Option.toList_some, List.cons_append,
            List.nil_append]
          rw [update_of_lt hbound, ok_bind]
          refine Returns.of_eq rfl
            ⟨by rw [List.length_set, hlength], rfl, fun j node hnode => ?_⟩
          rw [nodeAt, getD_set _ hbound] at hnode
          by_cases h : child = j
          · rw [if_pos h, Option.some_inj] at hnode
            rw [← hnode, h]
          · rw [if_neg h] at hnode
            exact hagrees j node hnode)
  exact hpass.mono fun state h => h.2.2

/-- Filling the leaves writes every included node at its index. -/
theorem placeLeaves_returns {partialTree : List (Option Node)}
    (hlength : partialTree.length = 2 * leafCount)
    (included : List (Node × Nat))
    (hrange : ∀ pair ∈ included, pair.2 < leafCount) :
    Returns (included.foldlM (placeLeaf leafCount) partialTree) fun filled =>
      filled.length = 2 * leafCount ∧ ∀ i, nodeAt filled i =
        ((included.reverse.find? fun pair => pair.2 + leafCount = i).map
          fun pair => pair.1).or (nodeAt partialTree i) := by
  have hloop := Returns.foldlM (f := placeLeaf leafCount)
    (I := fun k filled => filled.length = 2 * leafCount ∧
      ∀ i, nodeAt filled i =
        (((included.take k).reverse.find? fun pair =>
            pair.2 + leafCount = i).map
          fun pair => pair.1).or (nodeAt partialTree i))
    included (s := partialTree)
    ⟨hlength, fun i => by simp⟩
    (by
      intro k hk filled hfilled
      obtain ⟨hlength, hnodes⟩ := hfilled
      have hbound : included[k].2 + leafCount < filled.length := by
        have := hrange _ (List.getElem_mem hk)
        omega
      refine Returns.of_eq (update_of_lt hbound)
        ⟨by rw [List.length_set, hlength], fun i => ?_⟩
      rw [nodeAt, getD_set _ hbound, List.take_add_one,
        List.getElem?_eq_getElem hk, Option.toList_some, List.reverse_concat,
        List.find?_cons]
      by_cases h : included[k].2 + leafCount = i
      · simp [h]
      · rw [if_neg h]
        simp only [h, decide_false]
        exact hnodes i)
  rwa [List.take_length] at hloop

/-- The leaves that are filled are the marked ones. -/
theorem find?_included_isSome (hmarking : Marking leafCount indices marked)
    {nodes : List Node} (hlength : nodes.length = indices.length) {i : Nat}
    (hi : i < 2 * leafCount) :
    ((nodes.zip indices).reverse.find? fun pair =>
      pair.2 + leafCount = i).isSome ↔ leafCount ≤ i ∧ isMarked marked i := by
  have hindices : (nodes.zip indices).map Prod.snd = indices := by
    rw [List.map_snd_zip (by omega)]
  rw [List.find?_isSome]
  constructor
  · rintro ⟨pair, hpair, heq⟩
    have heq : pair.2 + leafCount = i := by simpa using heq
    have hmem : pair.2 ∈ indices := by
      rw [← hindices]
      exact List.mem_map_of_mem (List.mem_reverse.mp hpair)
    refine ⟨by omega, ?_⟩
    rw [← heq, Nat.add_comm, hmarking.leaf_iff pair.2 (by omega)]
    exact hmem
  · rintro ⟨hle, hmarked⟩
    obtain ⟨position, rfl⟩ := Nat.exists_eq_add_of_le hle
    have hmem := (hmarking.leaf_iff position (by omega)).mp hmarked
    rw [← hindices] at hmem
    obtain ⟨pair, hpair, heq⟩ := List.mem_map.mp hmem
    refine ⟨pair, List.mem_reverse.mpr hpair, ?_⟩
    simp [heq, Nat.add_comm]

variable [Primitives]

/-- Hashing upwards makes the marked inner nodes known. A property of the known
nodes that hashing keeps holds of them as well. -/
theorem hashKnown_returns (hpos : 1 ≤ leafCount)
    (hmarking : Marking leafCount indices marked)
    {partialTree : List (Option Node)}
    (hlength : partialTree.length = 2 * leafCount)
    (hknown : ∀ i, i < 2 * leafCount → ((nodeAt partialTree i).isSome ↔
      (leafCount ≤ i ∧ isMarked marked i) ∨ Supplied leafCount marked i))
    {V : Nat → Node → Prop}
    (hvalue : ∀ i node, nodeAt partialTree i = some node → V i node)
    (hhash : ∀ i left right, 1 ≤ i → i < leafCount → V (2 * i) left →
      V (2 * i + 1) right → V i (hashChildren left right)) :
    Returns ((innerNodes leafCount).foldlM hashKnown partialTree)
      fun filled => filled.length = 2 * leafCount ∧
        (∀ i, leafCount ≤ i → nodeAt filled i = nodeAt partialTree i) ∧
        Rebuilt hashChildren leafCount (fun i => isMarked marked i)
          (nodeAt filled) ∧
        (∀ i, 1 ≤ i → i < 2 * leafCount → isMarked marked i →
          (nodeAt filled i).isSome) ∧
        ∀ i node, nodeAt filled i = some node → V i node := by
  have hpass := foldlM_innerNodes Judgement.returns (n := leafCount)
    (f := hashKnown)
    (I := fun k filled => filled.length = 2 * leafCount ∧
      (∀ i, i < k ∨ leafCount ≤ i → nodeAt filled i = nodeAt partialTree i) ∧
      (∀ i, k ≤ i → i < 2 * leafCount → ((nodeAt filled i).isSome ↔
        isMarked marked i ∨ Supplied leafCount marked i)) ∧
      (∀ i, k ≤ i → i < leafCount → isMarked marked i → ∃ left right,
        nodeAt filled (2 * i) = some left ∧
          nodeAt filled (2 * i + 1) = some right ∧
          nodeAt filled i = some (hashChildren left right)) ∧
      ∀ i node, nodeAt filled i = some node → V i node)
    (s := partialTree) hpos
    (by
      refine ⟨hlength, fun _ _ => rfl, fun i hle hlt => ?_, fun i hle hlt => ?_,
        hvalue⟩
      · rw [hknown i hlt]
        simp [hle]
      · omega)
    (by
      intro i filled hi hlt hfilled
      obtain ⟨hlength, hkept, hsome, hrebuilt, hvalue⟩ := hfilled
      have hinner := hmarking.inner_eq i hi hlt
      have hleft : index filled (leftChildIndex i) =
          .ok (nodeAt filled (2 * i)) :=
        index_getD (by rw [hlength, leftChildIndex]; omega) none
      have hright : index filled (rightChildIndex i) =
          .ok (nodeAt filled (2 * i + 1)) :=
        index_getD (by rw [hlength, rightChildIndex]; omega) none
      have hleftSome := hsome (2 * i) (by omega) (by omega)
      have hrightSome := hsome (2 * i + 1) (by omega) (by omega)
      have hself : (nodeAt filled i).isSome ↔ Supplied leafCount marked i := by
        rw [hkept i (Or.inl (Nat.lt_succ_self i)), hknown i (by omega)]
        simp [Nat.not_le.mpr hlt]
      rw [hashKnown, hleft, ok_bind, hright, ok_bind]
      cases hnode : isMarked marked i with
      | false =>
          have hnone : nodeAt filled (2 * i) = none := by
            rw [← Option.not_isSome_iff_eq_none, hleftSome, Supplied]
            have hhalf : 2 * i / 2 = i := by omega
            rw [hnode, eq_comm, Bool.or_eq_false_iff] at hinner
            simp [hhalf, hnode, hinner.1]
          rw [hnone]
          refine Returns.of_eq rfl ⟨hlength, fun j hj => ?_, fun j hle hj => ?_,
            fun j hle hj hmarked => ?_, hvalue⟩
          · exact hkept j (by omega)
          · rcases Nat.eq_or_lt_of_le hle with rfl | hlt
            · rw [hself]
              simp [hnode]
            · exact hsome j hlt hj
          · rcases Nat.eq_or_lt_of_le hle with rfl | hlt
            · rw [hnode] at hmarked
              cases hmarked
            · exact hrebuilt j hlt hj hmarked
      | true =>
          have hchild (j : Nat) (hj : j / 2 = i) :
              isMarked marked j ∨ Supplied leafCount marked j := by
            cases hmarked : isMarked marked j with
            | true => exact Or.inl rfl
            | false =>
                refine Or.inr ⟨by omega, by omega, ?_, hmarked⟩
                rw [hj, hnode]
          obtain ⟨left, hleft⟩ := Option.isSome_iff_exists.mp
            (hleftSome.mpr (hchild (2 * i) (by omega)))
          obtain ⟨right, hright⟩ := Option.isSome_iff_exists.mp
            (hrightSome.mpr (hchild (2 * i + 1) (by omega)))
          have hbound : i < filled.length := by omega
          have hset (j : Nat) :
              nodeAt (filled.set i (some (hashChildren left right))) j =
                if i = j then some (hashChildren left right)
                else nodeAt filled j :=
            getD_set filled hbound _ none j
          rw [hleft, hright]
          refine Returns.of_eq (update_of_lt hbound)
            ⟨by rw [List.length_set, hlength], fun j hj => ?_,
              fun j hle hj => ?_, fun j hle hj hmarked => ?_,
              fun j node hj => ?_⟩
          · rw [hset j, if_neg (by omega)]
            exact hkept j (by omega)
          · rw [hset j]
            rcases Nat.eq_or_lt_of_le hle with rfl | hlt
            · simp [hnode]
            · rw [if_neg (by omega)]
              exact hsome j hlt hj
          · rw [hset (2 * j), hset (2 * j + 1), hset j,
              if_neg (by omega : i ≠ 2 * j), if_neg (by omega : i ≠ 2 * j + 1)]
            rcases Nat.eq_or_lt_of_le hle with rfl | hlt
            · exact ⟨left, right, hleft, hright, if_pos rfl⟩
            · rw [if_neg (by omega)]
              exact hrebuilt j hlt hj hmarked
          · rw [hset j] at hj
            by_cases h : i = j
            · subst h
              rw [if_pos rfl, Option.some_inj] at hj
              rw [← hj]
              exact hhash i left right hi hlt (hvalue _ _ hleft)
                (hvalue _ _ hright)
            · rw [if_neg h] at hj
              exact hvalue j node hj)
  refine hpass.mono fun filled h => ?_
  obtain ⟨hlength, hkept, hsome, hrebuilt, hvalue⟩ := h
  refine ⟨hlength, fun i hi => hkept i (Or.inr hi), ?_, ?_, hvalue⟩
  · exact fun i hi hlt hmarked => hrebuilt i hi hlt hmarked
  · exact fun i hi hlt hmarked => (hsome i hi hlt).mpr (Or.inl hmarked)

/-- The last two passes of the verifier, from the nodes that the proof
supplies. -/
theorem fillLeaves_returns (hpos : 1 ≤ leafCount)
    (hmarking : Marking leafCount indices marked) {nodes : List Node}
    (hlength : nodes.length = indices.length)
    (hrange : ∀ i ∈ indices, i < leafCount)
    {partialTree : List (Option Node)}
    (hsize : partialTree.length = 2 * leafCount)
    (hknown : ∀ i, (nodeAt partialTree i).isSome ↔
      Supplied leafCount marked i)
    {V : Nat → Node → Prop}
    (hvalue : ∀ i node, nodeAt partialTree i = some node → V i node)
    (hleaf : ∀ pair ∈ nodes.zip indices, V (pair.2 + leafCount) pair.1)
    (hhash : ∀ i left right, 1 ≤ i → i < leafCount → V (2 * i) left →
      V (2 * i + 1) right → V i (hashChildren left right)) :
    Returns (do
        let partialTree ← (nodes.zip indices).foldlM (placeLeaf leafCount)
          partialTree
        (innerNodes leafCount).foldlM hashKnown partialTree) fun filled =>
      filled.length = 2 * leafCount ∧
        (∀ pair, (nodes.zip indices).reverse.find? (fun other =>
            other.2 + leafCount = pair.2 + leafCount) = some pair →
          nodeAt filled (leafCount + pair.2) = some pair.1) ∧
        Rebuilt hashChildren leafCount (fun i => isMarked marked i)
          (nodeAt filled) ∧
        (∀ i, 1 ≤ i → i < 2 * leafCount → isMarked marked i →
          (nodeAt filled i).isSome) ∧
        ∀ i node, nodeAt filled i = some node → V i node := by
  have hpairs : ∀ pair ∈ nodes.zip indices, pair.2 < leafCount :=
    fun pair hpair => hrange pair.2 (List.of_mem_zip hpair).2
  refine (placeLeaves_returns hsize _ hpairs).bind fun leaves hleaves => ?_
  obtain ⟨hsize, hnodes⟩ := hleaves
  have hknown' (i : Nat) (hi : i < 2 * leafCount) :
      (nodeAt leaves i).isSome ↔
        (leafCount ≤ i ∧ isMarked marked i) ∨ Supplied leafCount marked i := by
    rw [hnodes i, ← find?_included_isSome hmarking hlength hi, ← hknown i]
    simp [Option.isSome_or, Option.isSome_map]
  have hvalue' (i : Nat) (node : Node) (h : nodeAt leaves i = some node) :
      V i node := by
    rw [hnodes i] at h
    cases hfind : (nodes.zip indices).reverse.find? fun pair =>
        pair.2 + leafCount = i with
    | none =>
        rw [hfind] at h
        exact hvalue i node (by simpa using h)
    | some pair =>
        rw [hfind] at h
        have heq : pair.2 + leafCount = i := by
          simpa using List.find?_some hfind
        obtain rfl : pair.1 = node := by simpa using h
        rw [← heq]
        exact hleaf pair (List.mem_reverse.mp (List.mem_of_find?_eq_some hfind))
  refine (hashKnown_returns hpos hmarking hsize hknown' hvalue' hhash).mono
    fun filled hfilled => ⟨hfilled.1, fun pair hpair => ?_, hfilled.2.2⟩
  rw [hfilled.2.1 _ (Nat.le_add_right _ _), hnodes, Nat.add_comm, hpair]
  rfl

/-- The tree of the verifier is rebuilt from the included nodes. -/
theorem fillPartialTree_ensures (hpos : 1 ≤ leafCount) {nodes : List Node}
    (hlength : nodes.length = indices.length)
    (hrange : ∀ i ∈ indices, i < leafCount) (proof : InclusionProof) :
    Ensures (fillPartialTree leafCount nodes indices proof) fun filled =>
      filled.length = 2 * leafCount ∧ ∃ marked,
        Marking leafCount indices marked ∧
        (∀ pair, (nodes.zip indices).reverse.find? (fun other =>
            other.2 + leafCount = pair.2 + leafCount) = some pair →
          nodeAt filled (leafCount + pair.2) = some pair.1) ∧
        Rebuilt hashChildren leafCount (fun i => isMarked marked i)
          (nodeAt filled) := by
  intro filled hfilled
  obtain ⟨marked, hmark, hmarking⟩ := markTree_returns hpos hrange
  rw [fillPartialTree, Nat.mul_comm leafCount 2, hmark, ok_bind] at hfilled
  obtain ⟨state, hstate, hfilled⟩ := Exec.bind_eq_ok.mp hfilled
  obtain ⟨hsize, hknown⟩ :=
    placeProofNodes_ensures hpos hmarking proof.nodes state hstate
  obtain ⟨filled', heq, hfilled'⟩ :=
    fillLeaves_returns (V := fun _ _ => True) hpos hmarking hlength hrange
      hsize hknown (fun _ _ _ => trivial) (fun _ _ => trivial)
      (fun _ _ _ _ _ _ _ => trivial)
  have hsame : filled' = filled := by
    have h : Except.ok filled' = (Except.ok filled : Exec _) :=
      heq.symm.trans hfilled
    cases h
    rfl
  subst hsame
  exact ⟨hfilled'.1, marked, hmarking, hfilled'.2.1, hfilled'.2.2.1⟩

end Fill

section Soundness

variable [Primitives]

/-- The pairs of nodes that are hashed together in a tree. -/
def hashedPairs (partialTree : List (Option Node)) : List (Node × Node) :=
  (innerNodes (partialTree.length / 2)).filterMap fun i =>
    match nodeAt partialTree (2 * i), nodeAt partialTree (2 * i + 1) with
    | some left, some right => some (left, right)
    | _, _ => none

/-- No two of the pairs have the same hash. -/
def CollisionFree (pairs : List (Node × Node)) : Prop :=
  ∀ p ∈ pairs, ∀ q ∈ pairs,
    hashChildren p.1 p.2 = hashChildren q.1 q.2 → p = q

instance (pairs : List (Node × Node)) : Decidable (CollisionFree pairs) :=
  inferInstanceAs (Decidable (∀ p ∈ pairs, ∀ q ∈ pairs,
    hashChildren p.1 p.2 = hashChildren q.1 q.2 → p = q))

omit [Primitives] in
theorem mem_hashedPairs {leafCount : Nat} {partialTree : List (Option Node)}
    (hlength : partialTree.length = 2 * leafCount) {i : Nat} (hpos : 1 ≤ i)
    (hi : i < leafCount) {left right : Node}
    (hleft : nodeAt partialTree (2 * i) = some left)
    (hright : nodeAt partialTree (2 * i + 1) = some right) :
    (left, right) ∈ hashedPairs partialTree := by
  rw [hashedPairs, List.mem_filterMap]
  refine ⟨i, mem_innerNodes.mpr ⟨hpos, by omega⟩, ?_⟩
  rw [hleft, hright]

omit [Primitives] in
theorem nodeAt_digests {tree : MerkleTree} {i : Nat}
    (hi : i < tree.digests.length) :
    nodeAt (tree.digests.map some) i = some (tree.digest i) := by
  simp [nodeAt, digest, hi]

omit [Primitives] in
theorem find?_zip_of_nodup {nodes : List Node} {indices : List Nat}
    (hdistinct : indices.Nodup) {k : Nat} {node : Node} {i : Nat}
    (hnode : nodes[k]? = some node) (hi : indices[k]? = some i)
    (leafCount : Nat) :
    (nodes.zip indices).reverse.find? (fun other =>
      other.2 + leafCount = i + leafCount) = some (node, i) := by
  have hmem : (node, i) ∈ nodes.zip indices := by
    apply List.mem_of_getElem? (i := k)
    rw [List.getElem?_zip_eq_some]
    exact ⟨hnode, hi⟩
  cases hfind : (nodes.zip indices).reverse.find? fun other =>
      other.2 + leafCount = i + leafCount with
  | none =>
      have hnone := List.find?_eq_none.mp hfind (node, i)
        (List.mem_reverse.mpr hmem)
      simp at hnone
  | some pair =>
      have hpair := List.mem_reverse.mp (List.mem_of_find?_eq_some hfind)
      have heq : pair.2 = i := by simpa using List.find?_some hfind
      obtain ⟨j, hj⟩ := List.getElem?_of_mem hpair
      obtain ⟨hnodej, hij⟩ := List.getElem?_zip_eq_some.mp hj
      have hbound : j < indices.length :=
        (List.getElem?_eq_some_iff.mp hij).1
      have hsame : j = k := by
        apply (List.getElem?_inj hbound hdistinct).mp
        rw [hij, hi, heq]
      subst hsame
      rw [hnode, Option.some_inj] at hnodej
      rw [Option.some_inj, Prod.ext_iff]
      exact ⟨hnodej.symm, heq⟩

/-- Soundness: a verified node is the leaf at its index, if the tree and the
verifier hash no two different pairs of nodes to the same digest. -/
theorem verify_ensures_leaf {leafCount : Nat} (hpos : 1 ≤ leafCount)
    {calls : List (Nat × Node × Nonce)} {tree : MerkleTree}
    (htree : ofLeaves leafCount calls = .ok tree) {root : Root}
    (hroot : tree.root = .ok root) {nodes : List Node} {indices : List Nat}
    (hdistinct : indices.Nodup) {proof : InclusionProof}
    (hcollision : ∀ partialTree,
      fillPartialTree leafCount nodes indices proof = .ok partialTree →
        CollisionFree
          (hashedPairs (tree.digests.map some) ++ hashedPairs partialTree)) :
    Ensures (verify root leafCount nodes indices proof) fun _ =>
      ∀ (k : Nat) (node : Node) (i : Nat), nodes[k]? = some node →
        indices[k]? = some i → node = lastLeaf calls i := by
  intro u hverify k node i hnode hi
  obtain ⟨hsized, hhashed, hleaves⟩ := ofLeaves_ensures hpos calls tree htree
  rw [verify] at hverify
  obtain ⟨_, hlength, hverify⟩ := Exec.bind_eq_ok.mp hverify
  have hlength := ensure_eq_ok.mp hlength
  obtain ⟨_, hrange, hverify⟩ := Exec.bind_eq_ok.mp hverify
  have hrange := ensure_eq_ok.mp hrange
  obtain ⟨filled, hfilled, hverify⟩ := Exec.bind_eq_ok.mp hverify
  obtain ⟨top, htop, hverify⟩ := Exec.bind_eq_ok.mp hverify
  have hverify := ensure_eq_ok.mp hverify
  obtain ⟨hsize, marked, hmarking, hincluded, hrebuilt⟩ :=
    fillPartialTree_ensures hpos hlength hrange proof filled hfilled
  have hcollision := hcollision filled hfilled
  have hrootAt : nodeAt filled 1 = some (tree.digest 1) := by
    rw [index_getD (by omega) none] at htop
    rw [MerkleTree.root, index_getD (by rw [hsized.1]; omega) default] at hroot
    cases htop
    cases hroot
    exact hverify
  have hagrees := hrebuilt.agrees hhashed
    (fun j hj hlt hchild => by
      rw [hmarking.inner_eq j hj hlt, Bool.or_eq_true]
      exact hchild)
    (fun j left right hj hlt hleft hright hhash => by
      have hmem := mem_hashedPairs hsize hj hlt hleft hright
      have hmemTree : (tree.digest (2 * j), tree.digest (2 * j + 1)) ∈
          hashedPairs (tree.digests.map some) :=
        mem_hashedPairs (by rw [List.length_map, hsized.1]) hj hlt
          (nodeAt_digests (by rw [hsized.1]; omega))
          (nodeAt_digests (by rw [hsized.1]; omega))
      have heq := hcollision _ (List.mem_append_right _ hmem) _
        (List.mem_append_left _ hmemTree) hhash
      exact Prod.mk.inj heq)
    hrootAt
  have hmem : i ∈ indices := List.mem_of_getElem? hi
  have hlt := hrange i hmem
  have hleaf := hagrees (leafCount + i) (by omega) (by omega)
    ((hmarking.leaf_iff i hlt).mpr hmem)
  have hfind := find?_zip_of_nodup hdistinct hnode hi leafCount
  rw [hincluded (node, i) hfind, Option.some_inj] at hleaf
  have hnode : node = tree.digest (leafCount + i) := hleaf
  rw [hnode, ← hleaves i hlt, leaf, hsized.leafCount_eq]

end Soundness

section Completeness

/-- The root is marked as soon as a leaf is. -/
theorem Marking.root {leafCount : Nat} {indices : List Nat} {marked : List Bool}
    (hmarking : Marking leafCount indices marked) :
    ∀ i, 1 ≤ i → i < 2 * leafCount → isMarked marked i →
      isMarked marked 1 := by
  refine topDown (P := fun i => isMarked marked i → isMarked marked 1)
    (fun h => h) fun i hpos hi hup => ?_
  have hinner := hmarking.inner_eq i hpos hi
  constructor
  · intro hleft
    apply hup
    rw [hinner, hleft, Bool.true_or]
  · intro hright
    apply hup
    rw [hinner, hright, Bool.or_true]

variable [Primitives]

/-- With the prover's proof, the tree of the verifier has the right root. -/
theorem fillPartialTree_returns {leafCount : Nat} (hpos : 1 ≤ leafCount)
    {tree : MerkleTree} (hsized : Sized leafCount tree)
    (hhashed : Hashed hashChildren leafCount tree.digest)
    {leaves : Nat → Node} (hleaves : ∀ i, i < leafCount → tree.leaf i = leaves i)
    {indices : List Nat} (hne : indices ≠ [])
    (hrange : ∀ i ∈ indices, i < leafCount) {marked : List Bool}
    (hmark : markTree (2 * leafCount) leafCount indices = .ok marked)
    {proof : InclusionProof}
    (hnodes : proof.nodes = tree.suppliedNodes marked leafCount) :
    Returns (fillPartialTree leafCount (indices.map leaves) indices proof)
      fun filled => filled.length = 2 * leafCount ∧
        filled.getD 1 none =
          some (Node.ofRoot (Root.ofNode (tree.digest 1))) := by
  have hmarking : Marking leafCount indices marked := by
    obtain ⟨marked', heq, hmarking⟩ := markTree_returns hpos hrange
    rw [hmark] at heq
    cases heq
    exact hmarking
  rw [fillPartialTree, Nat.mul_comm leafCount 2, hmark, ok_bind, hnodes]
  have hplaced := (placeProofNodes_returns tree hpos
    hmarking).and_ensures (placeProofNodes_ensures hpos hmarking _)
  refine hplaced.bind fun state hstate => ?_
  obtain ⟨hagrees, hsize, hknown⟩ := hstate
  have hfill := fillLeaves_returns (V := fun i node => node = tree.digest i)
    hpos hmarking (List.length_map leaves) hrange hsize hknown hagrees
    (fun pair hpair => by
      obtain ⟨k, hk⟩ := List.getElem?_of_mem hpair
      obtain ⟨hnode, hi⟩ := List.getElem?_zip_eq_some.mp hk
      rw [List.getElem?_map, hi] at hnode
      have hlt := hrange _ (List.mem_of_getElem? hi)
      rw [← Option.some_inj.mp hnode, ← hleaves _ hlt, leaf, hsized.leafCount_eq,
        Nat.add_comm])
    (fun i left right hi hlt hleft hright => by
      rw [hleft, hright, hhashed i hi hlt])
  refine hfill.mono fun filled hfilled => ⟨hfilled.1, ?_⟩
  obtain ⟨hlength, -, -, hsome, hvalue⟩ := hfilled
  obtain ⟨i, hi⟩ := List.exists_mem_of_ne_nil indices hne
  have hleafMarked : isMarked marked (leafCount + i) :=
    (hmarking.leaf_iff i (hrange i hi)).mpr hi
  have hlt := hrange i hi
  have hrootMarked : isMarked marked 1 :=
    hmarking.root (leafCount + i) (by omega) (by omega) hleafMarked
  obtain ⟨node, hnode⟩ := Option.isSome_iff_exists.mp
    (hsome 1 le_rfl (by omega) hrootMarked)
  have hroot : node = tree.digest 1 := hvalue 1 node hnode
  rw [nodeAt] at hnode
  rw [hnode, hroot]
  rfl

/-- Completeness: the proof that the prover makes for leaves of its tree is
verified against the root of the tree. -/
theorem verify_prove_returns {leafCount : Nat} (hpos : 1 ≤ leafCount)
    {calls : List (Nat × Node × Nonce)}
    (hcalls : ∀ call ∈ calls, call.1 < leafCount) {indices : List Nat}
    (hne : indices ≠ []) (hrange : ∀ i ∈ indices, i < leafCount) :
    Returns (do
      let tree ← ofLeaves leafCount calls
      let root ← tree.root
      let proof ← tree.prove indices
      verify root leafCount (indices.map (lastLeaf calls)) indices proof)
      fun _ => True := by
  obtain ⟨tree, htree, -⟩ := ofLeaves_returns hpos hcalls
  obtain ⟨hsized, hhashed, hleaves⟩ := ofLeaves_ensures hpos calls tree htree
  have hroot : tree.root = .ok (Root.ofNode (tree.digest 1)) := by
    rw [MerkleTree.root, index_getD (by rw [hsized.1]; omega) default]
    rfl
  obtain ⟨proof, hproof, marked, hmark, hnodes⟩ :=
    prove_returns hpos hsized hrange
  rw [htree, ok_bind, hroot, ok_bind, hproof, ok_bind]
  obtain ⟨filled, hfilled, htop⟩ :=
    fillPartialTree_returns hpos hsized hhashed hleaves hne hrange hmark hnodes
  rw [verify, ensure_of (by rw [List.length_map]), ok_bind, ensure_of hrange,
    ok_bind, hfilled, ok_bind]
  refine Returns.of_eq (a := ()) ?_ trivial
  obtain ⟨hlength, htop⟩ := htop
  rw [index_getD (by omega) none, ok_bind]
  exact ensure_of htop

end Completeness

section TestVector

/-- The digests of the test vector with five leaves. The root is at index 1,
the leaves are at the last five. -/
def testVectorDigests : List Sha256Digest :=
  [ digestOf 0,
    digestOf
      0xf22f4501ffd3bdffcecc9e4cd6828a4479aeedd6aa484eb7c1f808ccf71c6e76,
    digestOf
      0xc6b15aebd07795c6ff8c77e54a2ce3df92d6ea3b80bb0648bfd0a8826202ace0,
    digestOf
      0xc2768b34413548c2a4cca10af5c71d399d9e70975a8fd428c1dc27cc0282f273,
    digestOf
      0xf03808f5b8088c61286d505e8e93aa378991d9889ae2d874433ca06acabcd493,
    digestOf
      0x4bf5122f344554c53bde2ebb8cd2b7e3d1600ad631c385a5d7cce23c7785459a,
    digestOf
      0xdbc1b4c900ffe48d575b5da5c638040125f65db0fe3e24494b76ea986457d986,
    digestOf
      0x084fed08b978af4d7d196a7446a86b58009e636b611db16211b65a9aadff29c5,
    digestOf
      0xe52d9c508c502347344d8c07ad91cbd6068afc75ff6292f062a09ca381c89e71,
    digestOf
      0xe77b9a9ae9e30b0dbdb6f510a264ef9de781501d7b6b92ae89eb059c5ab743db ]

def testVectorNode (i : Nat) : Node :=
  ⟨testVectorDigests.getD i (digestOf 0)⟩

namespace TestVector

/-- SHA-256 on the pairs of nodes that the test vector hashes. -/
scoped instance primitives : Primitives :=
  tabled ([1, 2, 3, 4].map fun i =>
    ((testVectorNode (2 * i)).digest.bytes ++
      (testVectorNode (2 * i + 1)).digest.bytes, (testVectorNode i).digest))

end TestVector

open scoped TestVector

def testVectorCalls : List (Nat × Node × Nonce) :=
  (List.range 5).map fun i => (i, testVectorNode (5 + i), default)

/-- The proof of the test vector for its first two leaves. -/
def testVectorProof : InclusionProof := ⟨[testVectorNode 7, testVectorNode 4]⟩

/-- The test vector is verified, and the verified nodes are its leaves. -/
theorem verify_ensures_leaf_testVector :
    let nodes := [testVectorNode 5, testVectorNode 6]
    let verification := verify ⟨(testVectorNode 1).digest⟩ 5 nodes [0, 1]
      testVectorProof
    verification = .ok () ∧ Ensures verification fun _ =>
      ∀ (k : Nat) (node : Node) (i : Nat), nodes[k]? = some node →
        [0, 1][k]? = some i → node = lastLeaf testVectorCalls i := by
  refine ⟨by decide, ?_⟩
  have htree : ofLeaves 5 testVectorCalls =
      .ok ⟨(List.range 10).map testVectorNode, List.replicate 5 default⟩ := by
    decide
  have hfill : fillPartialTree 5 [testVectorNode 5, testVectorNode 6] [0, 1]
      testVectorProof = .ok [none, some (testVectorNode 1),
        some (testVectorNode 2), some (testVectorNode 3),
        some (testVectorNode 4), some (testVectorNode 5),
        some (testVectorNode 6), some (testVectorNode 7), none, none] := by
    decide
  refine verify_ensures_leaf (by decide) htree rfl (by decide) ?_
  intro partialTree h
  rw [hfill] at h
  cases h
  decide

/-- Two of the five leaves, out of order and one of them twice. -/
theorem verify_prove_returns_testVector :
    Returns (do
      let tree ← ofLeaves 5 testVectorCalls
      let root ← tree.root
      let proof ← tree.prove [3, 1, 3]
      verify root 5 ([3, 1, 3].map (lastLeaf testVectorCalls)) [3, 1, 3] proof)
      fun _ => True :=
  verify_prove_returns (by decide) (by decide) (by decide) (by decide)

end TestVector

end Longfellow.Ligero.MerkleTree
