/-
The table of equality weights: its entries in closed form, the table as the
identity matrix bound row bit by row bit, and binding as an inner product with
the table.
-/
import Longfellow.Sumcheck.Bind
import Longfellow.Fields.FieldP128
import Mathlib.Algebra.BigOperators.Fin

namespace Longfellow

open Exec Multilinear

section Weights

variable {F : Type} [Field F]

/-- The entries of the table, in closed form. -/
theorem eqWeight_eq_prod (xs : List F) {j : Nat} (hj : j < 2 ^ xs.length) :
    eqWeight xs j =
      ∏ k : Fin xs.length, if j.testBit k then xs[k] else 1 - xs[k] := by
  induction xs generalizing j with
  | nil =>
      obtain rfl : j = 0 := by simpa using hj
      simp [eqWeight]
  | cons x xs ih =>
      have hhalf : j / 2 < 2 ^ xs.length := by
        rw [List.length_cons, pow_succ] at hj
        omega
      have hlow : weight x j = if j.testBit 0 then x else 1 - x := by
        rw [weight, Nat.testBit_zero]
        rcases Nat.mod_two_eq_zero_or_one j with h | h
        · simp [h]
        · simp [h]
      have hprod := Fin.prod_univ_succ fun k : Fin (xs.length + 1) =>
        if j.testBit k then (x :: xs)[k] else 1 - (x :: xs)[k]
      rw [eqWeight, hlow, ih hhalf]
      refine Eq.trans ?_ hprod.symm
      congr 1
      refine Finset.prod_congr rfl fun k _ => ?_
      rw [Fin.val_succ, Nat.testBit_succ]
      rfl

/-- The inner product of two arrays, as far as both go. -/
def innerProduct (a b : List F) : F := (List.zipWith (· * ·) a b).sum

theorem innerProduct_range (f : Nat → F) {n : Nat} {array : List F}
    (hlength : array.length ≤ n) :
    innerProduct ((List.range n).map f) array =
      ∑ i ∈ Finset.range array.length, f i * element array i := by
  have hterms : List.zipWith (· * ·) ((List.range n).map f) array =
      (List.range array.length).map fun i => f i * element array i := by
    apply List.ext_getElem
    · simp [hlength]
    · intro i hi _
      have hlt : i < array.length := by
        rw [List.length_zipWith] at hi
        omega
      simp [element_of_lt hlt]
  rw [innerProduct, hterms]
  rfl

/-- Zeros after the end of an array do not change what it is. -/
theorem element_append_zeros (array : List F) (n : Nat) :
    element (array ++ List.replicate n 0) = element array := by
  funext i
  rw [element, element, List.getD_eq_getElem?_getD,
    List.getD_eq_getElem?_getD]
  rcases lt_or_ge i array.length with hi | hi
  · rw [List.getElem?_append_left hi]
  · rw [List.getElem?_append_right hi, List.getElem?_eq_none hi,
      List.getElem?_replicate]
    by_cases hn : i - array.length < n
    · rw [if_pos hn]
      rfl
    · rw [if_neg hn]

theorem bindAll_eq_innerProduct {xs array : List F}
    (hlength : array.length ≤ 2 ^ xs.length) :
    bindAll xs (element array) 0 =
      innerProduct ((List.range (2 ^ xs.length)).map (eqWeight xs)) array := by
  rw [innerProduct_range _ hlength,
    bindAll_zero_eq_sum xs fun i hi => element_of_le hi]

/-- The identity matrix, by its rows. -/
def identity (F : Type) [Field F] (n : Nat) : List (List F) :=
  (List.range n).map fun i => (List.range n).map fun j => if i = j then 1 else 0

/-- The elements of a matrix in one column. -/
def column (matrix : List (List F)) (j : Nat) : List F :=
  matrix.map fun row => element row j

theorem column_identity {n j : Nat} (hj : j < n) :
    column (identity F n) j =
      (List.range n).map fun i => if i = j then 1 else 0 := by
  rw [column, identity, List.map_map]
  apply List.map_congr_left
  intro i _
  simp [element, hj]

theorem bindAll_indicator {xs : List F} {j : Nat} (hj : j < 2 ^ xs.length) :
    bindAll xs (fun i => if i = j then 1 else 0) 0 = eqWeight xs j := by
  have hmem : j ∈ Finset.range (2 ^ xs.length) := Finset.mem_range.mpr hj
  rw [bindAll_zero_eq_sum_pow]
  simp only [mul_ite, mul_one, mul_zero, Finset.sum_ite_eq', hmem, if_true]

end Weights

section Binding

variable {F : Type} [Field F] [ProofFieldElement F]

/-- Bind an array to field elements, one after the other. -/
def bindSuccessively (array xs : List F) : Exec (List F) :=
  xs.foldlM (fun array x => bind array (.other x)) array

/-- An array that is not used up before the last of the field elements becomes
a single element. -/
theorem bindSuccessively_eq_ok {array xs : List F}
    (hlength : array.length ≤ 2 ^ xs.length)
    (henough : 2 ^ xs.length < 2 * array.length) :
    bindSuccessively array xs = .ok [bindAll xs (element array) 0] := by
  induction xs generalizing array with
  | nil =>
      obtain ⟨value, rfl⟩ := List.length_eq_one_iff.mp
        (show array.length = 1 by simp at hlength henough; omega)
      rfl
  | cons x xs ih =>
      rw [List.length_cons, pow_succ] at hlength henough
      have hpos := Nat.two_pow_pos xs.length
      have hmany : 1 < array.length := by omega
      have hzero : ∀ i, (array.length + 1) / 2 ≤ i →
          bindAt x (element array) i = 0 := fun i hi =>
        bindAt_eq_zero (fun i hi => element_of_le hi) x hi
      have hbound : element ((List.range ((array.length + 1) / 2)).map
          (bindAt x (element array))) = bindAt x (element array) :=
        funext (element_map_range hzero)
      have hrest := @ih ((List.range ((array.length + 1) / 2)).map
          (bindAt x (element array)))
        (by rw [List.length_map, List.length_range]; omega)
        (by rw [List.length_map, List.length_range]; omega)
      rw [hbound] at hrest
      rw [bindSuccessively, List.foldlM_cons, bind_other_eq_ok hmany, ok_bind]
      exact hrest

theorem bindSuccessively_identity {xs : List F} {j : Nat}
    (hj : j < 2 ^ xs.length) :
    bindSuccessively (column (identity F (2 ^ xs.length)) j) xs =
      .ok [eqWeight xs j] := by
  have hzero : ∀ i, 2 ^ xs.length ≤ i → (if i = j then (1 : F) else 0) = 0 :=
    fun i hi => if_neg (by omega)
  have hlength : (column (identity F (2 ^ xs.length)) j).length =
      2 ^ xs.length := by
    rw [column_identity hj, List.length_map, List.length_range]
  have hpos := Nat.two_pow_pos xs.length
  rw [bindSuccessively_eq_ok hlength.le (by omega), column_identity hj,
    funext (element_map_range hzero), bindAll_indicator hj]

end Binding

end Longfellow
