/-
The nodes of an inclusion proof: how many of them the verifier reads, that they
are determined by the root, and that those after them are ignored.
-/
import Longfellow.Ligero.Inclusion

namespace Longfellow.Ligero.MerkleTree

open Exec HeapTree

section Count

/-- The children below the inner nodes under `k` that a proof supplies, in the
order of the proof. -/
def suppliedChildren (marked : List Bool) (k : Nat) : List Nat :=
  (innerNodes k).filterMap (suppliedChild marked)

/-- The number of nodes that the verifier reads from a proof. -/
def proofNodeCount (leafCount : Nat) (indices : List Nat) : Exec Nat := do
  let marked ← markTree (2 * leafCount) leafCount indices
  pure (suppliedChildren marked leafCount).length

theorem suppliedChildren_succ (marked : List Bool) {i : Nat} (hi : 1 ≤ i) :
    suppliedChildren marked (i + 1) =
      (suppliedChild marked i).toList ++ suppliedChildren marked i := by
  rw [suppliedChildren, suppliedChildren, innerNodes_succ hi,
    List.filterMap_cons]
  cases suppliedChild marked i with
  | none => rfl
  | some child => rfl

variable {leafCount : Nat} {indices : List Nat} {marked : List Bool}

theorem mem_suppliedChildren (hmarking : Marking leafCount indices marked)
    {child : Nat} :
    child ∈ suppliedChildren marked leafCount ↔
      Supplied leafCount marked child := by
  rw [suppliedChildren, List.mem_filterMap, Supplied]
  constructor
  · rintro ⟨i, hmem, hchild⟩
    obtain ⟨hpos, hlt⟩ := mem_innerNodes.mp hmem
    have hbound := suppliedChild_lt hmarking hpos hlt hchild
    obtain ⟨rfl, hparent, hself⟩ :=
      (hmarking.suppliedChild_eq_some hpos hlt).mp hchild
    exact ⟨hpos, hbound, hparent, hself⟩
  · rintro ⟨hpos, hbound, hparent, hself⟩
    have hlt : child / 2 < leafCount := by omega
    refine ⟨child / 2, mem_innerNodes.mpr ⟨hpos, hlt⟩, ?_⟩
    exact (hmarking.suppliedChild_eq_some hpos hlt).mpr ⟨rfl, hparent, hself⟩

end Count

section Place

variable {leafCount : Nat} {indices : List Nat} {marked : List Bool}

/-- Taking nodes from the proof puts them at the supplied children, in order. -/
theorem placeProofNodes_ensures_map (hpos : 1 ≤ leafCount)
    (hmarking : Marking leafCount indices marked) (proofNodes : List Node) :
    Ensures ((innerNodes leafCount).foldlM (placeProofNode marked)
      (List.replicate (2 * leafCount) none, proofNodes)) fun state =>
        (suppliedChildren marked leafCount).map (nodeAt state.1) ++
          state.2.map some = proofNodes.map some := by
  have hpass := foldlM_innerNodes Judgement.ensures (n := leafCount)
    (f := placeProofNode marked)
    (I := fun k state => state.1.length = 2 * leafCount ∧
      ∃ placed, placed ++ suppliedChildren marked k =
          suppliedChildren marked leafCount ∧
        (∀ child ∈ placed, k ≤ child / 2) ∧
        placed.map (nodeAt state.1) ++ state.2.map some = proofNodes.map some)
    (s := (List.replicate (2 * leafCount) none, proofNodes)) hpos
    (by
      refine ⟨List.length_replicate, [], rfl, ?_, rfl⟩
      intro child hchild
      cases hchild)
    (by
      intro i state hi hlt hstate next hnext
      obtain ⟨partialTree, proofNodes⟩ := state
      obtain ⟨hlength, placed, hplaced, habove, hnodes⟩ := hstate
      rw [suppliedChildren_succ marked hi] at hplaced
      rw [placeProofNode, hmarking.unmarkedChild_eq hlt, ok_bind] at hnext
      cases hchild : suppliedChild marked i with
      | none =>
          rw [hchild] at hnext hplaced
          cases hnext
          refine ⟨hlength, placed, hplaced, ?_, hnodes⟩
          intro child hmem
          exact Nat.le_of_succ_le (habove child hmem)
      | some child =>
          rw [hchild] at hnext hplaced
          cases proofNodes with
          | nil => cases hnext
          | cons proofNode proofNodes =>
              obtain ⟨filled, hfilled, hnext⟩ := Exec.bind_eq_ok.mp hnext
              cases hnext
              have hbound : child < partialTree.length := by
                rw [hlength]
                exact suppliedChild_lt hmarking hi hlt hchild
              obtain ⟨hparent, -, -⟩ :=
                (hmarking.suppliedChild_eq_some hi hlt).mp hchild
              rw [update_of_lt hbound] at hfilled
              cases hfilled
              have hset (j : Nat) :
                  nodeAt (partialTree.set child (some proofNode)) j =
                    if child = j then some proofNode
                    else nodeAt partialTree j :=
                getD_set partialTree hbound _ none j
              refine ⟨by rw [List.length_set, hlength], placed ++ [child],
                ?_, ?_, ?_⟩
              · rw [List.append_assoc]
                exact hplaced
              · intro other hmem
                rcases List.mem_append.mp hmem with hmem | hmem
                · exact Nat.le_of_succ_le (habove other hmem)
                · rw [List.mem_singleton.mp hmem, hparent]
              · have hkept : placed.map
                    (nodeAt (partialTree.set child (some proofNode))) =
                      placed.map (nodeAt partialTree) := by
                  apply List.map_congr_left
                  intro other hmem
                  have hne : child ≠ other := by
                    rintro rfl
                    have := habove child hmem
                    omega
                  rw [hset, if_neg hne]
                rw [List.map_append, hkept, List.map_singleton, hset,
                  if_pos rfl, List.append_assoc]
                exact hnodes)
  refine hpass.mono fun state hstate => ?_
  obtain ⟨-, placed, hplaced, -, hnodes⟩ := hstate
  have hnone : suppliedChildren marked 1 = [] := rfl
  rw [hnone, List.append_nil] at hplaced
  rw [← hplaced]
  exact hnodes

/-- Nodes of the proof after those that the verifier reads stay where they
are. -/
theorem placeProofNodes_append (hmarking : Marking leafCount indices marked)
    {nodes : List Nat} (hnodes : ∀ i ∈ nodes, i < leafCount)
    (partialTree : List (Option Node)) {proofNodes : List Node}
    (hlength : (nodes.filterMap (suppliedChild marked)).length ≤
      proofNodes.length) (rest : List Node) :
    nodes.foldlM (placeProofNode marked) (partialTree, proofNodes ++ rest) =
      (nodes.foldlM (placeProofNode marked) (partialTree, proofNodes)).map
        fun state => (state.1, state.2 ++ rest) := by
  induction nodes generalizing partialTree proofNodes with
  | nil => rfl
  | cons i nodes ih =>
      have hlt : i < leafCount := hnodes i List.mem_cons_self
      have htail : ∀ j ∈ nodes, j < leafCount :=
        fun j hj => hnodes j (List.mem_cons_of_mem i hj)
      rw [List.foldlM_cons, List.foldlM_cons, placeProofNode, placeProofNode,
        hmarking.unmarkedChild_eq hlt, ok_bind, ok_bind]
      rw [List.filterMap_cons] at hlength
      cases hchild : suppliedChild marked i with
      | none =>
          rw [hchild] at hlength
          exact ih htail partialTree hlength
      | some child =>
          rw [hchild] at hlength
          cases proofNodes with
          | nil => cases hlength
          | cons proofNode proofNodes =>
              simp only [List.cons_append]
              cases update partialTree child fun _ => some proofNode with
              | error fault => rfl
              | ok filled =>
                  exact ih htail filled (Nat.le_of_succ_le_succ hlength)

end Place

section Fill

variable [Primitives] {leafCount : Nat} {indices : List Nat}
  {marked : List Bool}

/-- The tree of the verifier has the nodes of the proof at the supplied
children. -/
theorem fillPartialTree_ensures_map (hpos : 1 ≤ leafCount)
    {nodes : List Node} (hlength : nodes.length = indices.length)
    (hrange : ∀ i ∈ indices, i < leafCount)
    (hmark : markTree (2 * leafCount) leafCount indices = .ok marked)
    (hmarking : Marking leafCount indices marked) (proof : InclusionProof) :
    Ensures (fillPartialTree leafCount nodes indices proof) fun filled =>
      filled.length = 2 * leafCount ∧
        Rebuilt hashChildren leafCount (fun i => isMarked marked i)
          (nodeAt filled) ∧
        ∃ rest : List Node,
          (suppliedChildren marked leafCount).map (nodeAt filled) ++
            rest.map some = proof.nodes.map some := by
  intro filled hfilled
  rw [fillPartialTree, Nat.mul_comm leafCount 2, hmark, ok_bind] at hfilled
  obtain ⟨state, hstate, hfilled⟩ := Exec.bind_eq_ok.mp hfilled
  obtain ⟨hsize, hknown⟩ :=
    placeProofNodes_ensures hpos hmarking proof.nodes state hstate
  have hplaced :=
    placeProofNodes_ensures_map hpos hmarking proof.nodes state hstate
  -- An unmarked node is never hashed: neither of its children is known.
  obtain ⟨filled', heq, hfilled'⟩ := fillLeaves_returns
    (V := fun i node => isMarked marked i = false →
      nodeAt state.1 i = some node)
    hpos hmarking hlength hrange hsize hknown
    (fun i node hnode _ => hnode)
    (by
      intro pair hpair hunmarked
      have hmem := (List.of_mem_zip hpair).2
      have hleaf := (hmarking.leaf_iff pair.2 (hrange pair.2 hmem)).mpr hmem
      rw [Nat.add_comm, hunmarked] at hleaf
      cases hleaf)
    (by
      intro i left right hi hlt hleft hright hunmarked
      have hinner := hmarking.inner_eq i hi hlt
      rw [hunmarked, eq_comm, Bool.or_eq_false_iff] at hinner
      have hsome : (nodeAt state.1 (2 * i)).isSome := by
        rw [hleft hinner.1]
        rfl
      obtain ⟨-, -, hparent, -⟩ := (hknown (2 * i)).mp hsome
      rw [Nat.mul_div_cancel_left i Nat.two_pos, hunmarked] at hparent
      cases hparent)
  obtain rfl : filled' = filled := Except.ok.inj (heq.symm.trans hfilled)
  obtain ⟨hsize', -, hrebuilt, -, hkept⟩ := hfilled'
  refine ⟨hsize', hrebuilt, state.2, ?_⟩
  rw [← hplaced]
  congr 1
  apply List.map_congr_left
  intro child hmem
  obtain ⟨hparent, hbound, hmarked, hself⟩ :=
    (mem_suppliedChildren hmarking).mp hmem
  have hlt : child / 2 < leafCount := by omega
  obtain ⟨left, right, hleft, hright, -⟩ := hrebuilt _ hparent hlt hmarked
  have hknown' : ∃ node, nodeAt filled' child = some node := by
    rcases Nat.mod_two_eq_zero_or_one child with heven | hodd
    · have heq : 2 * (child / 2) = child := by omega
      rw [heq] at hleft
      exact ⟨left, hleft⟩
    · have heq : 2 * (child / 2) + 1 = child := by omega
      rw [heq] at hright
      exact ⟨right, hright⟩
  obtain ⟨node, hnode⟩ := hknown'
  rw [hnode, hkept child node hnode hself]

theorem fillPartialTree_zero (nodes : List Node) (proof : InclusionProof) :
    fillPartialTree 0 nodes [] proof = .ok [] := by
  rw [fillPartialTree, List.zip_nil_right]
  rfl

/-- The tree of the verifier does not depend on the nodes that follow those it
reads. -/
theorem fillPartialTree_append
    (hmark : markTree (2 * leafCount) leafCount indices = .ok marked)
    (hmarking : Marking leafCount indices marked) (nodes : List Node)
    {proofNodes : List Node}
    (hlength : (suppliedChildren marked leafCount).length ≤ proofNodes.length)
    (rest : List Node) :
    fillPartialTree leafCount nodes indices ⟨proofNodes ++ rest⟩ =
      fillPartialTree leafCount nodes indices ⟨proofNodes⟩ := by
  have hnodes : ∀ i ∈ innerNodes leafCount, i < leafCount :=
    fun i hi => (mem_innerNodes.mp hi).2
  rw [fillPartialTree, fillPartialTree, Nat.mul_comm leafCount 2, hmark,
    ok_bind, ok_bind, placeProofNodes_append hmarking hnodes _ hlength rest]
  cases (innerNodes leafCount).foldlM (placeProofNode marked)
    (List.replicate (2 * leafCount) none, proofNodes) with
  | error fault => rfl
  | ok state => rfl

end Fill

section Verify

variable [Primitives] {leafCount : Nat} {indices : List Nat}

theorem verify_eq_ok {root : Root} {nodes : List Node}
    (hrange : ∀ i ∈ indices, i < leafCount) {proof : InclusionProof} :
    verify root leafCount nodes indices proof = .ok () ↔
      nodes.length = indices.length ∧ ∃ filled,
        fillPartialTree leafCount nodes indices proof = .ok filled ∧
          index filled 1 = .ok (some (Node.ofRoot root)) := by
  rw [verify, Exec.ensure_bind_eq_ok, Exec.ensure_bind_eq_ok,
    Exec.bind_eq_ok]
  constructor
  · rintro ⟨hlength, -, filled, hfilled, hverify⟩
    obtain ⟨node, hnode, hverify⟩ := Exec.bind_eq_ok.mp hverify
    rw [ensure_eq_ok.mp hverify] at hnode
    exact ⟨hlength, filled, hfilled, hnode⟩
  · rintro ⟨hlength, filled, hfilled, hnode⟩
    refine ⟨hlength, hrange, filled, hfilled, ?_⟩
    rw [hnode, ok_bind]
    exact ensure_of rfl

/-- The nodes that the verifier reads from a verified proof are determined by
the root, if it hashes no two different pairs of nodes to the same digest. -/
theorem suppliedChildren_eq {marked : List Bool}
    (hmarking : Marking leafCount indices marked)
    {first second : List (Option Node)}
    (hfirst : first.length = 2 * leafCount)
    (hsecond : second.length = 2 * leafCount)
    (hrebuilt : Rebuilt hashChildren leafCount (fun i => isMarked marked i)
      (nodeAt first))
    (hrebuilt' : Rebuilt hashChildren leafCount (fun i => isMarked marked i)
      (nodeAt second))
    (hcollision : CollisionFree (hashedPairs first ++ hashedPairs second))
    (hroot : nodeAt first 1 = nodeAt second 1) :
    (suppliedChildren marked leafCount).map (nodeAt first) =
      (suppliedChildren marked leafCount).map (nodeAt second) := by
  have hchildren := hrebuilt.children_eq hrebuilt'
    (fun i hi hlt hchild => by
      rw [hmarking.inner_eq i hi hlt, Bool.or_eq_true]
      exact hchild)
    (fun i left right left' right' hi hlt hleft hright hleft' hright' hhash =>
      Prod.mk.inj (hcollision _
        (List.mem_append_left _ (mem_hashedPairs hfirst hi hlt hleft hright))
        _ (List.mem_append_right _
          (mem_hashedPairs hsecond hi hlt hleft' hright')) hhash))
    hroot
  apply List.map_congr_left
  intro child hmem
  obtain ⟨hparent, hbound, hmarked, -⟩ :=
    (mem_suppliedChildren hmarking).mp hmem
  have hlt : child / 2 < leafCount := by omega
  obtain ⟨hleft, hright⟩ := hchildren _ hparent hlt hmarked
  rcases Nat.mod_two_eq_zero_or_one child with heven | hodd
  · have heq : 2 * (child / 2) = child := by omega
    rwa [heq] at hleft
  · have heq : 2 * (child / 2) + 1 = child := by omega
    rwa [heq] at hright

/-- The verifier reads a number of nodes from the start of a proof that depends
on the leaves only. A proof is verified exactly when it has that many and they
are verified on their own, and the root determines them. -/
theorem verify_proof_unique (hrange : ∀ i ∈ indices, i < leafCount)
    (root : Root) (nodes : List Node) :
    ∃ count, proofNodeCount leafCount indices = .ok count ∧
      (∀ proof : InclusionProof,
        verify root leafCount nodes indices proof = .ok () ↔
          count ≤ proof.nodes.length ∧
            verify root leafCount nodes indices ⟨proof.nodes.take count⟩ =
              .ok ()) ∧
      ∀ proof proof' : InclusionProof,
        verify root leafCount nodes indices proof = .ok () →
        verify root leafCount nodes indices proof' = .ok () →
        (∀ filled filled',
          fillPartialTree leafCount nodes indices proof = .ok filled →
          fillPartialTree leafCount nodes indices proof' = .ok filled' →
          CollisionFree (hashedPairs filled ++ hashedPairs filled')) →
        proof.nodes.take count = proof'.nodes.take count := by
  rcases Nat.eq_zero_or_pos leafCount with rfl | hpos
  · obtain rfl : indices = [] := by
      apply List.eq_nil_iff_forall_not_mem.mpr
      intro i hi
      exact Nat.not_lt_zero i (hrange i hi)
    refine ⟨0, rfl, fun proof => ?_, fun proof proof' _ _ _ => rfl⟩
    rw [verify_eq_ok hrange, verify_eq_ok hrange, fillPartialTree_zero,
      fillPartialTree_zero]
    simp
  · obtain ⟨marked, hmark, hmarking⟩ := markTree_returns hpos hrange
    refine ⟨(suppliedChildren marked leafCount).length, ?_, ?_, ?_⟩
    · rw [proofNodeCount, hmark]
      rfl
    · intro proof
      have hread (h : (suppliedChildren marked leafCount).length ≤
          proof.nodes.length) :
          fillPartialTree leafCount nodes indices
              ⟨proof.nodes.take (suppliedChildren marked leafCount).length⟩ =
            fillPartialTree leafCount nodes indices proof := by
        have hshort : (suppliedChildren marked leafCount).length ≤
            (proof.nodes.take
              (suppliedChildren marked leafCount).length).length := by
          rw [List.length_take, Nat.min_eq_left h]
        have happend := fillPartialTree_append hmark hmarking nodes hshort
          (proof.nodes.drop (suppliedChildren marked leafCount).length)
        rw [List.take_append_drop] at happend
        exact happend.symm
      rw [verify_eq_ok hrange, verify_eq_ok hrange]
      constructor
      · rintro ⟨hlength, filled, hfilled, hroot⟩
        obtain ⟨-, -, rest, hnodes⟩ := fillPartialTree_ensures_map hpos hlength
          hrange hmark hmarking proof filled hfilled
        have hcount : (suppliedChildren marked leafCount).length ≤
            proof.nodes.length := by
          have := congrArg List.length hnodes
          simp only [List.length_append, List.length_map] at this
          omega
        refine ⟨hcount, hlength, filled, ?_, hroot⟩
        rw [hread hcount, hfilled]
      · rintro ⟨hcount, hlength, filled, hfilled, hroot⟩
        refine ⟨hlength, filled, ?_, hroot⟩
        rw [← hread hcount, hfilled]
    · intro proof proof' hverify hverify' hcollision
      obtain ⟨hlength, filled, hfilled, hroot⟩ :=
        (verify_eq_ok hrange).mp hverify
      obtain ⟨-, filled', hfilled', hroot'⟩ :=
        (verify_eq_ok hrange).mp hverify'
      obtain ⟨hsize, hrebuilt, rest, hnodes⟩ := fillPartialTree_ensures_map
        hpos hlength hrange hmark hmarking proof filled hfilled
      obtain ⟨hsize', hrebuilt', rest', hnodes'⟩ := fillPartialTree_ensures_map
        hpos hlength hrange hmark hmarking proof' filled' hfilled'
      have hone : nodeAt filled 1 = nodeAt filled' 1 := by
        rw [index_getD (by omega) none] at hroot hroot'
        exact Except.ok.inj (hroot.trans hroot'.symm)
      have hsame := suppliedChildren_eq hmarking hsize hsize' hrebuilt
        hrebuilt' (hcollision filled filled' hfilled hfilled') hone
      apply List.map_injective_iff.mpr (Option.some_injective Node)
      rw [List.map_take, List.map_take, ← hnodes, ← hnodes', ← hsame,
        List.take_left' (List.length_map _),
        List.take_left' (List.length_map _)]

end Verify

section TestVector

open scoped TestVector

/-- The proof of the test vector with one more node. -/
def testVectorLongProof : InclusionProof :=
  ⟨testVectorProof.nodes ++ [default]⟩

/-- The verifier accepts the proof of the test vector with one more node as
well, although the trees of both proofs hash no two different pairs of nodes to
the same digest. -/
theorem verify_testVectorLongProof :
    let nodes := [testVectorNode 5, testVectorNode 6]
    let root : Root := ⟨(testVectorNode 1).digest⟩
    testVectorProof ≠ testVectorLongProof ∧
      verify root 5 nodes [0, 1] testVectorProof = .ok () ∧
      verify root 5 nodes [0, 1] testVectorLongProof = .ok () ∧
      ∃ filled, fillPartialTree 5 nodes [0, 1] testVectorProof = .ok filled ∧
        fillPartialTree 5 nodes [0, 1] testVectorLongProof = .ok filled ∧
        CollisionFree (hashedPairs filled ++ hashedPairs filled) := by
  refine ⟨by decide, by decide, by decide,
    [none, some (testVectorNode 1), some (testVectorNode 2),
      some (testVectorNode 3), some (testVectorNode 4),
      some (testVectorNode 5), some (testVectorNode 6),
      some (testVectorNode 7), none, none], ?_, ?_, ?_⟩
  · decide
  · decide
  · decide

/-- The first two nodes of a proof for the leaves of the test vector are those
of its own proof. -/
theorem verify_proof_unique_testVector :
    let nodes := [testVectorNode 5, testVectorNode 6]
    let root : Root := ⟨(testVectorNode 1).digest⟩
    proofNodeCount 5 [0, 1] = .ok 2 ∧
      ∃ count, proofNodeCount 5 [0, 1] = .ok count ∧
        testVectorProof.nodes.take count =
          testVectorLongProof.nodes.take count := by
  intro nodes root
  refine ⟨by decide, ?_⟩
  have hrange : ∀ i ∈ [0, 1], i < 5 := by decide
  obtain ⟨count, hcount, -, hunique⟩ := verify_proof_unique hrange root nodes
  refine ⟨count, hcount, hunique _ _ ?_ ?_ ?_⟩
  · decide
  · decide
  · have hfill : fillPartialTree 5 nodes [0, 1] testVectorProof =
        .ok [none, some (testVectorNode 1), some (testVectorNode 2),
          some (testVectorNode 3), some (testVectorNode 4),
          some (testVectorNode 5), some (testVectorNode 6),
          some (testVectorNode 7), none, none] := by
      decide
    have hfill' : fillPartialTree 5 nodes [0, 1] testVectorLongProof =
        fillPartialTree 5 nodes [0, 1] testVectorProof := by
      decide
    intro filled filled' h h'
    rw [hfill', hfill] at h'
    rw [hfill] at h
    cases h
    cases h'
    decide

end TestVector

end Longfellow.Ligero.MerkleTree
