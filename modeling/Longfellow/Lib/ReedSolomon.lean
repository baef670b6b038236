/-
Extending a list of values by interpolation: the values at further points of
the polynomial of least degree through the given ones. A prefix of the list is
hidden by as many values at further points as it is long.
-/
import Mathlib.LinearAlgebra.Lagrange

universe u

namespace ReedSolomon

open Polynomial

variable {F : Type u} [Field F]

/-- The polynomial of degree below the number of nodes that has the nodes as
its values at the first points. -/
noncomputable def interpolant (point : Nat → F) (nodes : List F) : F[X] :=
  Lagrange.interpolate (Finset.range nodes.length) point
    fun i => nodes.getD i 0

/-- The values of the interpolant at the first `m` points. -/
noncomputable def extension (point : Nat → F) (nodes : List F) (m : Nat) :
    List F :=
  (List.range m).map fun i => (interpolant point nodes).eval (point i)

@[simp] theorem length_extension (point : Nat → F) (nodes : List F) (m : Nat) :
    (extension point nodes m).length = m := by
  simp [extension]

theorem extension_getElem? {point : Nat → F} {nodes : List F} {m i : Nat}
    (hi : i < m) :
    (extension point nodes m)[i]? =
      some ((interpolant point nodes).eval (point i)) := by
  simp [extension, hi]

/-- The values are those of the only polynomial of degree below the number of
nodes that has the nodes as its first values. -/
def Encodes (point : Nat → F) (nodes values : List F)
    (m : Nat) : Prop :=
  ∃ p : F[X], (p.degree < nodes.length ∧
      ∀ i (hi : i < nodes.length), p.eval (point i) = nodes[i]) ∧
    (∀ q : F[X], (q.degree < nodes.length ∧
      ∀ i (hi : i < nodes.length), q.eval (point i) = nodes[i]) → q = p) ∧
    values = (List.range m).map fun i => p.eval (point i)

section Distinct

variable {point : Nat → F} {m : Nat}

omit [Field F] in
theorem injOn_range {n : Nat} (hpoint : Set.InjOn point (Set.Iio m))
    (hn : n ≤ m) : Set.InjOn point (Finset.range n : Set Nat) := by
  apply hpoint.mono
  intro i hi
  exact Nat.lt_of_lt_of_le (Finset.mem_range.mp hi) hn

theorem degree_interpolant_lt {nodes : List F}
    (hpoint : Set.InjOn point (Set.Iio m)) (hlength : nodes.length ≤ m) :
    (interpolant point nodes).degree < nodes.length := by
  have h := Lagrange.degree_interpolate_lt (fun i => nodes.getD i 0)
    (injOn_range hpoint hlength)
  rwa [Finset.card_range] at h

theorem eval_interpolant {nodes : List F}
    (hpoint : Set.InjOn point (Set.Iio m)) (hlength : nodes.length ≤ m)
    {i : Nat} (hi : i < nodes.length) :
    (interpolant point nodes).eval (point i) = nodes[i] := by
  rw [interpolant, Lagrange.eval_interpolate_at_node _
    (injOn_range hpoint hlength) (Finset.mem_range.mpr hi)]
  simp [hi]

/-- The interpolant is the only polynomial of its degree with these values. -/
theorem eq_interpolant {nodes : List F}
    (hpoint : Set.InjOn point (Set.Iio m)) (hlength : nodes.length ≤ m)
    {p : F[X]} (hdegree : p.degree < nodes.length)
    (heval : ∀ i (hi : i < nodes.length), p.eval (point i) = nodes[i]) :
    p = interpolant point nodes := by
  apply Lagrange.eq_interpolate_of_eval_eq _ (injOn_range hpoint hlength)
  · rwa [Finset.card_range]
  · intro i hi
    have hi := Finset.mem_range.mp hi
    rw [heval i hi]
    simp [hi]

theorem encodes_extension {nodes : List F}
    (hpoint : Set.InjOn point (Set.Iio m))
    (hlength : nodes.length ≤ m) :
    Encodes point nodes (extension point nodes m) m := by
  refine ⟨interpolant point nodes, ⟨degree_interpolant_lt hpoint hlength,
    fun i hi => eval_interpolant hpoint hlength hi⟩, ?_, rfl⟩
  rintro q ⟨hdegree, heval⟩
  exact eq_interpolant hpoint hlength hdegree heval

/-- Extending keeps the nodes. -/
theorem take_extension {nodes : List F}
    (hpoint : Set.InjOn point (Set.Iio m)) (hlength : nodes.length ≤ m) :
    (extension point nodes m).take nodes.length = nodes := by
  apply List.ext_getElem
  · simpa using hlength
  · intro i _ hi
    simp [extension, eval_interpolant hpoint hlength hi]

/-- Two polynomials of low degree are equal if they agree at enough distinct
points. -/
theorem eq_of_eval_eq {n : Nat} (hpoint : Set.InjOn point (Set.Iio m))
    {p q : F[X]} (hp : p.degree < n) (hq : q.degree < n)
    {indices : Finset Nat} (hcard : n ≤ indices.card)
    (hrange : ∀ i ∈ indices, i < m)
    (heval : ∀ i ∈ indices, p.eval (point i) = q.eval (point i)) : p = q := by
  have hinjective : Set.InjOn point indices := by
    apply hpoint.mono
    intro i hi
    exact hrange i hi
  have hle : (n : WithBot Nat) ≤ indices.card := by exact_mod_cast hcard
  exact eq_of_degrees_lt_of_eval_index_eq indices hinjective
    (hp.trans_le hle) (hq.trans_le hle) heval

section Prefix

variable {k : Nat} {content : List F} {indices : Fin k → Nat}

/-- The positions of the content, and the given ones after it. -/
def positions (k n : Nat) (indices : Fin k → Nat) : Finset Nat :=
  Finset.Ico k n ∪ Finset.univ.image indices

theorem card_positions {n : Nat} (hindices : Function.Injective indices)
    (hle : ∀ j, n ≤ indices j) (hn : k ≤ n) :
    (positions k n indices).card = n := by
  have hdisjoint : Disjoint (Finset.Ico k n) (Finset.univ.image indices) := by
    rw [Finset.disjoint_right]
    intro i hi
    obtain ⟨j, -, rfl⟩ := Finset.mem_image.mp hi
    rw [Finset.mem_Ico]
    exact fun h => Nat.not_lt.mpr (hle j) h.2
  rw [positions, Finset.card_union_of_disjoint hdisjoint,
    Finset.card_image_of_injective _ hindices, Nat.card_Ico, Finset.card_univ,
    Fintype.card_fin, Nat.sub_add_cancel hn]

theorem positions_lt {n : Nat} (hlt : ∀ j, indices j < m) (hn : n ≤ m) :
    ∀ i ∈ positions k n indices, i < m := by
  intro i hi
  rcases Finset.mem_union.mp hi with hi | hi
  · exact Nat.lt_of_lt_of_le (Finset.mem_Ico.mp hi).2 hn
  · obtain ⟨j, -, rfl⟩ := Finset.mem_image.mp hi
    exact hlt j

/-- With the content after it fixed, a prefix and the values at as many
positions after the content determine each other. -/
theorem prefix_bijective (hpoint : Set.InjOn point (Set.Iio m))
    (hindices : Function.Injective indices)
    (hle : ∀ j, k + content.length ≤ indices j) (hlt : ∀ j, indices j < m)
    (hlength : k + content.length ≤ m) :
    Function.Bijective fun (front : Fin k → F) (j : Fin k) =>
      (interpolant point (List.ofFn front ++ content)).eval
        (point (indices j)) := by
  have hnodes (front : Fin k → F) :
      (List.ofFn front ++ content).length = k + content.length := by
    rw [List.length_append, List.length_ofFn]
  have hdegree (front : Fin k → F) :
      (interpolant point (List.ofFn front ++ content)).degree <
        ((k + content.length : Nat) : WithBot Nat) := by
    rw [← hnodes front]
    exact degree_interpolant_lt hpoint (by rw [hnodes]; exact hlength)
  have hcontent (front : Fin k → F) (i : Nat) (hi : i < content.length) :
      (interpolant point (List.ofFn front ++ content)).eval (point (k + i)) =
        content[i] := by
    have hbound : k + i < (List.ofFn front ++ content).length := by
      rw [hnodes]
      exact Nat.add_lt_add_left hi k
    rw [eval_interpolant hpoint (by rw [hnodes]; exact hlength) hbound,
      List.getElem_append_right (by simp)]
    simp
  have hfront (front : Fin k → F) (i : Fin k) :
      (interpolant point (List.ofFn front ++ content)).eval (point i) =
        front i := by
    have hbound : (i : Nat) < (List.ofFn front ++ content).length := by
      rw [hnodes]
      exact Nat.lt_of_lt_of_le i.isLt (Nat.le_add_right _ _)
    rw [eval_interpolant hpoint (by rw [hnodes]; exact hlength) hbound,
      List.getElem_append_left (by simp)]
    simp
  have hcard := card_positions hindices hle (Nat.le_add_right k content.length)
  have hrange := positions_lt (k := k) hlt hlength
  constructor
  · intro first second hsame
    have heq : interpolant point (List.ofFn first ++ content) =
        interpolant point (List.ofFn second ++ content) := by
      apply eq_of_eval_eq hpoint (hdegree first) (hdegree second) hcard.ge
        hrange
      intro i hi
      rcases Finset.mem_union.mp hi with hi | hi
      · obtain ⟨hge, hlt⟩ := Finset.mem_Ico.mp hi
        obtain ⟨c, rfl⟩ := Nat.exists_eq_add_of_le hge
        have hc : c < content.length := Nat.lt_of_add_lt_add_left hlt
        rw [hcontent first c hc, hcontent second c hc]
      · obtain ⟨j, -, rfl⟩ := Finset.mem_image.mp hi
        exact congrFun hsame j
    funext i
    rw [← hfront first i, ← hfront second i, heq]
  · intro values
    -- The polynomial with the content and these values; its first values are
    -- the prefix.
    obtain ⟨p, hp, hvalues, hrest⟩ : ∃ p : F[X],
        p.degree < ((k + content.length : Nat) : WithBot Nat) ∧
        (∀ j, p.eval (point (indices j)) = values j) ∧
        ∀ i (hi : i < content.length), p.eval (point (k + i)) = content[i] := by
      set value : Nat → F := fun i =>
        if i < k + content.length then content.getD (i - k) 0
        else Function.extend indices values (fun _ => 0) i with hvalue
      set chosen := positions k (k + content.length) indices with hchosen
      have hinjective : Set.InjOn point chosen := by
        apply hpoint.mono
        intro i hi
        exact hrange i hi
      refine ⟨Lagrange.interpolate chosen point value, ?_, ?_, ?_⟩
      · have h := Lagrange.degree_interpolate_lt value hinjective
        rwa [hcard] at h
      · intro j
        have hmem : indices j ∈ chosen := Finset.mem_union_right _
          (Finset.mem_image_of_mem indices (Finset.mem_univ j))
        have hge : ¬ indices j < k + content.length :=
          Nat.not_lt.mpr (hle j)
        rw [Lagrange.eval_interpolate_at_node _ hinjective hmem, hvalue]
        simp only [if_neg hge]
        exact hindices.extend_apply values _ j
      · intro i hi
        have hbound : k + i < k + content.length := Nat.add_lt_add_left hi k
        have hmem : k + i ∈ chosen := Finset.mem_union_left _
          (Finset.mem_Ico.mpr ⟨Nat.le_add_right k i, hbound⟩)
        rw [Lagrange.eval_interpolate_at_node _ hinjective hmem, hvalue]
        simp only [if_pos hbound, Nat.add_sub_cancel_left]
        simp [hi]
    refine ⟨fun i => p.eval (point i), ?_⟩
    have heq : p = interpolant point
        (List.ofFn (fun i : Fin k => p.eval (point i)) ++ content) := by
      apply eq_interpolant hpoint
      · rw [hnodes]
        exact hlength
      · rwa [hnodes]
      · intro i hi
        rcases Nat.lt_or_ge i k with hlow | hhigh
        · rw [List.getElem_append_left (by simpa using hlow)]
          simp
        · obtain ⟨c, rfl⟩ := Nat.exists_eq_add_of_le hhigh
          rw [List.getElem_append_right (by simp)]
          rw [hnodes] at hi
          rw [hrest c (Nat.lt_of_add_lt_add_left hi)]
          simp
    funext j
    change (interpolant point _).eval (point (indices j)) = values j
    rw [← heq, hvalues]

end Prefix

end Distinct

end ReedSolomon
