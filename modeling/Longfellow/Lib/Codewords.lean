/-
Codewords as the values of polynomials: a codeword is found again from its
first values, and two codewords that agree at enough points are equal.
-/
import Longfellow.Lib.ReedSolomon

namespace ReedSolomon

open Polynomial

variable {F : Type} [Field F]

/-- The values of a polynomial at the points with the given indices. -/
noncomputable def valuesAt (point : Nat → F) (indices : List Nat) (p : F[X]) :
    List F :=
  indices.map fun i => p.eval (point i)

variable {point : Nat → F} {indices : List Nat} {m n : Nat} {p q : F[X]}

@[simp] theorem length_valuesAt :
    (valuesAt point indices p).length = indices.length :=
  List.length_map _

theorem valuesAt_getElem? (i : Nat) : (valuesAt point indices p)[i]? =
    indices[i]?.map fun j => p.eval (point j) :=
  List.getElem?_map

theorem take_valuesAt (hn : n ≤ m) :
    (valuesAt point (List.range m) p).take n =
      valuesAt point (List.range n) p := by
  rw [valuesAt, ← List.map_take, List.take_range, Nat.min_eq_left hn, valuesAt]

theorem valuesAt_inj : valuesAt point indices p = valuesAt point indices q ↔
    ∀ i ∈ indices, p.eval (point i) = q.eval (point i) :=
  List.map_inj_left

theorem extension_eq_valuesAt (nodes : List F) : extension point nodes m =
    valuesAt point (List.range m) (interpolant point nodes) :=
  rfl

/-- A polynomial of low degree is found again from its first values. -/
theorem interpolant_valuesAt (hpoint : Set.InjOn point (Set.Iio m))
    (hn : n ≤ m) (hp : p.degree < n) :
    interpolant point (valuesAt point (List.range n) p) = p := by
  have hlength : (valuesAt point (List.range n) p).length = n := by simp
  refine (eq_interpolant hpoint (hlength.le.trans hn) ?_ ?_).symm
  · rwa [hlength]
  · intro i hi
    simp [valuesAt]

theorem valuesAt_interpolant {nodes : List F}
    (hpoint : Set.InjOn point (Set.Iio m)) (hlength : nodes.length ≤ m) :
    valuesAt point (List.range nodes.length) (interpolant point nodes) =
      nodes := by
  have h := take_extension hpoint hlength
  rwa [extension_eq_valuesAt, take_valuesAt hlength] at h

/-- Some consecutive values of the interpolant are nodes. -/
theorem valuesAt_range'_interpolant {nodes : List F} {start count : Nat}
    (hpoint : Set.InjOn point (Set.Iio m)) (hlength : nodes.length ≤ m)
    (hcount : start + count ≤ nodes.length) :
    valuesAt point (List.range' start count) (interpolant point nodes) =
      (nodes.drop start).take count := by
  have hrange : List.range' start count =
      ((List.range nodes.length).drop start).take count := by
    rw [List.range_eq_range', List.drop_range',
      List.take_range'_of_length_ge (by omega), Nat.zero_add, Nat.mul_one]
  have hvalues := valuesAt_interpolant hpoint hlength
  rw [valuesAt] at hvalues
  rw [valuesAt, hrange, List.map_take, List.map_drop, hvalues]

end ReedSolomon
