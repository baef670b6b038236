/-
Binary trees stored as heaps: the root is at index 1, the children of `i` are
at `2 * i` and `2 * i + 1`, the inner nodes are the indices below `n`, and the
`n` leaves follow them. The leaf count need not be a power of two.
-/
import Longfellow.Lib.Exec
import Mathlib.Tactic.Ring

universe u

namespace HeapTree

/-- The inner nodes of a tree with `n` leaves, from the last one to the root. -/
def innerNodes (n : Nat) : List Nat := (List.range' 1 (n - 1)).reverse

@[simp] theorem innerNodes_one : innerNodes 1 = [] := rfl

theorem innerNodes_succ {i : Nat} (hi : 1 ≤ i) :
    innerNodes (i + 1) = i :: innerNodes i := by
  obtain ⟨k, rfl⟩ := Nat.exists_eq_add_of_le' hi
  have hrange : List.range' 1 (k + 1) = List.range' 1 k ++ [1 + k] :=
    List.range'_1_concat
  rw [innerNodes, innerNodes, Nat.add_sub_cancel, Nat.add_sub_cancel, hrange,
    List.reverse_concat, Nat.add_comm 1 k]

theorem mem_innerNodes {n i : Nat} : i ∈ innerNodes n ↔ 1 ≤ i ∧ i < n := by
  rw [innerNodes, List.mem_reverse, List.mem_range'_1]
  omega

/-- The loop rule for a pass from the last inner node to the root: what every
step carries from `i + 1` to `i` holds at the end. -/
theorem foldlM_innerNodes (J : Exec.Judgement) {β : Type u}
    {f : β → Nat → Exec β} {I : Nat → β → Prop} {n : Nat} {s : β}
    (hn : 1 ≤ n) (h0 : I n s)
    (hstep : ∀ i s, 1 ≤ i → i < n → I (i + 1) s → J.holds (f s i) (I i)) :
    J.holds ((innerNodes n).foldlM f s) (I 1) := by
  induction n, hn using Nat.le_induction generalizing s with
  | base => exact J.ok h0
  | succ n hn ih =>
      rw [innerNodes_succ hn, List.foldlM_cons]
      have hfirst : J.holds (f s n) (I n) :=
        hstep n s hn (Nat.lt_succ_self n) h0
      refine J.bind hfirst fun t ht => ?_
      exact ih ht fun i r hi hlt hr =>
        hstep i r hi (Nat.lt_succ_of_lt hlt) hr

/-- Induction from the root downwards. -/
theorem topDown {P : Nat → Prop} {n : Nat} (hroot : P 1)
    (hchildren : ∀ i, 1 ≤ i → i < n → P i → P (2 * i) ∧ P (2 * i + 1)) :
    ∀ i, 1 ≤ i → i < 2 * n → P i := by
  intro i
  induction i using Nat.strong_induction_on with
  | h i ih =>
      intro hpos hlt
      rcases Nat.lt_or_ge i 2 with hone | htwo
      · obtain rfl : i = 1 := by omega
        exact hroot
      · have hparent : P (i / 2) := ih (i / 2) (by omega) (by omega) (by omega)
        obtain ⟨hleft, hright⟩ :=
          hchildren (i / 2) (by omega) (by omega) hparent
        rcases Nat.mod_two_eq_zero_or_one i with heven | hodd
        · have heq : 2 * (i / 2) = i := by omega
          rwa [heq] at hleft
        · have heq : 2 * (i / 2) + 1 = i := by omega
          rwa [heq] at hright

section Hash

variable {α : Type u} (hash : α → α → α)

/-- Every inner node is the hash of its two children. -/
def Hashed (n : Nat) (tree : Nat → α) : Prop :=
  ∀ i, 1 ≤ i → i < n → tree i = hash (tree (2 * i)) (tree (2 * i + 1))

/-- Every marked inner node of a partial tree is the hash of its two children,
which are both known. -/
def Rebuilt (n : Nat) (marked : Nat → Prop) (tree : Nat → Option α) : Prop :=
  ∀ i, 1 ≤ i → i < n → marked i → ∃ left right,
    tree (2 * i) = some left ∧ tree (2 * i + 1) = some right ∧
      tree i = some (hash left right)

variable {hash}

/-- A partial tree with the root of a full one agrees with it at every marked
node, unless two different pairs of children have one hash. -/
theorem Rebuilt.agrees {n : Nat} {marked : Nat → Prop} {tree : Nat → α}
    {partialTree : Nat → Option α} (hrebuilt : Rebuilt hash n marked partialTree)
    (hhashed : Hashed hash n tree)
    (hup : ∀ i, 1 ≤ i → i < n → marked (2 * i) ∨ marked (2 * i + 1) → marked i)
    (hinjective : ∀ i left right, 1 ≤ i → i < n →
      partialTree (2 * i) = some left → partialTree (2 * i + 1) = some right →
      hash left right = hash (tree (2 * i)) (tree (2 * i + 1)) →
      left = tree (2 * i) ∧ right = tree (2 * i + 1))
    (hroot : partialTree 1 = some (tree 1)) :
    ∀ i, 1 ≤ i → i < 2 * n → marked i → partialTree i = some (tree i) := by
  apply topDown
  · exact fun _ => hroot
  · intro i hpos hlt hagrees
    have hboth (hmarked : marked i) :
        partialTree (2 * i) = some (tree (2 * i)) ∧
          partialTree (2 * i + 1) = some (tree (2 * i + 1)) := by
      obtain ⟨left, right, hleft, hright, hnode⟩ :=
        hrebuilt i hpos hlt hmarked
      have hhash : hash left right =
          hash (tree (2 * i)) (tree (2 * i + 1)) := by
        rw [← hhashed i hpos hlt, ← Option.some_inj, ← hnode, hagrees hmarked]
      obtain ⟨rfl, rfl⟩ := hinjective i left right hpos hlt hleft hright hhash
      exact ⟨hleft, hright⟩
    constructor
    · exact fun hmarked => (hboth (hup i hpos hlt (Or.inl hmarked))).1
    · exact fun hmarked => (hboth (hup i hpos hlt (Or.inr hmarked))).2

/-- Two partial trees with one root agree at the children of every marked node,
unless two different pairs of children have one hash. -/
theorem Rebuilt.children_eq {n : Nat} {marked : Nat → Prop}
    {first second : Nat → Option α} (hfirst : Rebuilt hash n marked first)
    (hsecond : Rebuilt hash n marked second)
    (hup : ∀ i, 1 ≤ i → i < n → marked (2 * i) ∨ marked (2 * i + 1) → marked i)
    (hinjective : ∀ i left right left' right', 1 ≤ i → i < n →
      first (2 * i) = some left → first (2 * i + 1) = some right →
      second (2 * i) = some left' → second (2 * i + 1) = some right' →
      hash left right = hash left' right' → left = left' ∧ right = right')
    (hroot : first 1 = second 1) :
    ∀ i, 1 ≤ i → i < n → marked i →
      first (2 * i) = second (2 * i) ∧
        first (2 * i + 1) = second (2 * i + 1) := by
  have hboth (i : Nat) (hpos : 1 ≤ i) (hlt : i < n) (hmarked : marked i)
      (hnode : first i = second i) : first (2 * i) = second (2 * i) ∧
        first (2 * i + 1) = second (2 * i + 1) := by
    obtain ⟨left, right, hleft, hright, hhash⟩ := hfirst i hpos hlt hmarked
    obtain ⟨left', right', hleft', hright', hhash'⟩ :=
      hsecond i hpos hlt hmarked
    have heq : hash left right = hash left' right' := by
      rw [← Option.some_inj, ← hhash, ← hhash', hnode]
    obtain ⟨rfl, rfl⟩ := hinjective i left right left' right' hpos hlt hleft
      hright hleft' hright' heq
    exact ⟨hleft.trans hleft'.symm, hright.trans hright'.symm⟩
  have hagree : ∀ i, 1 ≤ i → i < 2 * n → marked i → first i = second i := by
    apply topDown
    · exact fun _ => hroot
    · intro i hpos hlt hagrees
      constructor
      · intro hmarked
        have hparent := hup i hpos hlt (Or.inl hmarked)
        exact (hboth i hpos hlt hparent (hagrees hparent)).1
      · intro hmarked
        have hparent := hup i hpos hlt (Or.inr hmarked)
        exact (hboth i hpos hlt hparent (hagrees hparent)).2
  intro i hpos hlt hmarked
  have hnode : first i = second i := by
    apply hagree i hpos _ hmarked
    exact Nat.lt_of_lt_of_le hlt (Nat.le_mul_of_pos_left n Nat.two_pos)
  exact hboth i hpos hlt hmarked hnode

end Hash

end HeapTree
