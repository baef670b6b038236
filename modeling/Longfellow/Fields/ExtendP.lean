/-
Extension of rows over fields of large characteristic, by a convolution that is
computed with number theoretic transforms.
-/
import Longfellow.Fields.Ntt
import Longfellow.Lib.IntegerPoints
import Mathlib.Data.Nat.Log

namespace Longfellow.ExtendP

open Exec Ntt

/-- Precomputed values for the convolution-based implementation of
`extend`. -/
structure ExtendContext (F : Type) where
  /-- Length of the input vector. -/
  nodesLen : Nat
  /-- Length of the output vector. -/
  evaluations : Nat
  /-- Size of the NTT operation used for convolutions. -/
  nttSize : Nat
  /-- Convolution kernel, in the NTT domain. -/
  transformedConvolutionKernel : List F
  /-- The element at index `i` is `(-1)^i * (d choose i)`. -/
  beforeConvolutionCoeffs : List F
  /-- The elements are `(-1)^d * (k - d) * (k choose d)`. -/
  afterConvolutionCoeffs : List F
deriving DecidableEq, Repr

section Model

variable {F : Type} [Field F]

/-- The least power of two that is not less than a number. -/
def nextPowerOfTwo (n : Nat) : Nat := 2 ^ Nat.clog 2 n

/-- The next products of successive numbers, with the number after them. -/
def prefixProducts : Nat → F → F → List F × F
  | 0, _, i => ([], i)
  | n + 1, product, i =>
      let (products, next) := prefixProducts n (product * i) (i + 1)
      (product * i :: products, next)

/-- The state of the loop over the products, from the last one: the reciprocals
of the numbers it has been through, the inverse of a factorial, and the number
after it. -/
structure InversionState (F : Type) where
  output : List F
  productInverse : F
  i : F

/-- Multiply the inverse of a factorial by the one before it. -/
def invertStep (state : InversionState F) (prevFactorial : F) :
    InversionState F where
  output := state.productInverse * prevFactorial :: state.output
  productInverse := state.productInverse * (state.i - 1)
  i := state.i - 1

/-- Efficiently computes reciprocals of successive numbers. The element at
index zero is zero. -/
def batchedInversionSequence (length : Nat) : List F :=
  if length = 0 then []
  else
    let (products, i) := prefixProducts (length - 1) (1 : F) 1
    let prefixProducts := (1 : F) :: products
    let productInverse := (prefixProducts.getLastD 1)⁻¹
    let state := (prefixProducts.take (length - 1)).reverse.foldl invertStep
      ⟨[], productInverse, i⟩
    0 :: state.output

/-- Multiply by a power of -1, by the parity of its exponent. -/
def signed (i : Nat) (value : F) : F := if i % 2 = 1 then -value else value

/-- The binomial coefficients `d choose i` after one of them, from the
reciprocals of the further `i`. -/
def binomialCoefficients (d : Nat) : Nat → F → List F → List F
  | _, _, [] => []
  | i, binomial, reciprocal :: reciprocals =>
      let binomial := binomial * ((d - i + 1 : Nat) : F) * reciprocal
      binomial :: binomialCoefficients d (i + 1) binomial reciprocals

/-- The coefficient of an evaluation, added to those before it, with the
binomial coefficient `k choose d` that the next one starts from. -/
def pushAfterCoeff (reciprocals : List F) (d : Nat) (state : List F × F)
    (k : Nat) : Exec (List F × F) := do
  let (coeffs, binomialKD) := state
  let kMinusDTimesKChooseD := (k : F) * binomialKD
  let reciprocal ← index reciprocals (k - d)
  pure (coeffs ++ [signed d kMinusDTimesKChooseD],
    kMinusDTimesKChooseD * reciprocal)

/-- The first elements of a list, which must be in range. -/
def sliceTo (values : List F) (stop : Nat) : Exec (List F) := do
  assert (stop ≤ values.length) "range end index out of range for slice"
  pure (values.take stop)

/-- Change the length of a list, with zeros at its end where it grows. -/
def resize (values : List F) (length : Nat) : List F :=
  values.take length ++ List.replicate (length - values.length) 0

/-- Multiply the elements of a list by those of another one, as far as it
goes. -/
def mulElements : List F → List F → List F
  | x :: xs, y :: ys => x * y :: mulElements xs ys
  | xs, _ => xs

variable [NttFieldElement F]

/-- Precompute values for the convolution-based implementation of
`extend`. -/
def extendPrecompute (nodesLen evaluations : Nat) :
    Exec (ExtendContext F) := do
  let nttSize := nextPowerOfTwo evaluations
  let reciprocalsLen := max (evaluations + 1) nttSize
  let reciprocals : List F := batchedInversionSequence reciprocalsLen
  let nttSizeInv := (half : F) ^ Nat.log2 nttSize
  let convolutionLeftTerms ← sliceTo reciprocals nttSize
  let transformedConvolutionKernel ← nttBitReversed
    (convolutionLeftTerms.map fun elem => elem * nttSizeInv)
  let d ← checkedSub nodesLen 1
  let binomials := 1 ::
    binomialCoefficients d 1 1 ((reciprocals.take nodesLen).drop 1)
  let beforeConvolutionCoeffs := binomials.zipIdx.map fun (binom, i) =>
    signed i binom
  let (afterConvolutionCoeffs, _) ←
    (List.range' nodesLen (evaluations - nodesLen)).foldlM
      (pushAfterCoeff reciprocals d) ([], 1)
  pure ⟨nodesLen, evaluations, nttSize, transformedConvolutionKernel,
    beforeConvolutionCoeffs, afterConvolutionCoeffs⟩

/-- Interpolate a polynomial from its values at `0, 1, ...` and evaluate it at
more points. -/
def extend (nodes : List F) (context : ExtendContext F) : Exec (List F) := do
  assert (nodes.length = context.nodesLen)
    "assertion `left == right` failed"
  if context.evaluations ≤ nodes.length then
    pure (nodes.take context.evaluations)
  else do
    let convolutionRightTerms := resize
      (List.zipWith (· * ·) nodes context.beforeConvolutionCoeffs)
      context.nttSize
    let transformedConvolutionInput ← nttBitReversed convolutionRightTerms
    let convolutionResult ← scaledInverseNttBitReversed (mulElements
      transformedConvolutionInput context.transformedConvolutionKernel)
    let evaluated ← sliceTo convolutionResult context.evaluations
    pure (nodes ++ List.zipWith (· * ·) (evaluated.drop nodes.length)
      context.afterConvolutionCoeffs)

end Model

section Reciprocals

variable {F : Type} [Field F]

open ReedSolomon

theorem prefixProducts_factorial (n a : Nat) :
    prefixProducts n ((a.factorial : Nat) : F) ((a + 1 : Nat) : F) =
      ((List.range' (a + 1) n).map fun t => ((t.factorial : Nat) : F),
        ((a + 1 + n : Nat) : F)) := by
  induction n generalizing a with
  | zero => rfl
  | succ n ih =>
      have hproduct : ((a.factorial : Nat) : F) * ((a + 1 : Nat) : F) =
          (((a + 1).factorial : Nat) : F) := by
        rw [Nat.factorial_succ, Nat.mul_comm, Nat.cast_mul]
      have hnext : ((a + 1 : Nat) : F) + 1 = ((a + 1 + 1 : Nat) : F) := by
        push_cast
        ring
      rw [prefixProducts, hproduct, hnext, ih (a + 1), List.range'_succ,
        List.map_cons, Nat.add_right_comm (a + 1) 1 n]
      rfl

/-- The loop gives the reciprocals of the numbers up to `n`, in order. -/
theorem foldl_invertStep {n : Nat} (hne : IntegersNonzero F (n + 1))
    (output : List F) :
    ((List.range n).map fun t => ((t.factorial : Nat) : F)).reverse.foldl
        invertStep ⟨output, ((n.factorial : Nat) : F)⁻¹, ((n + 1 : Nat) : F)⟩ =
      ⟨((List.range' 1 n).map fun t => ((t : Nat) : F)⁻¹) ++ output, 1, 1⟩ := by
  induction n generalizing output with
  | zero => simp
  | succ n ih =>
      have hsucc : ((n + 1 : Nat) : F) ≠ 0 :=
        hne (n + 1) (Nat.succ_pos n) (Nat.lt_succ_self _)
      have hfactorial : ((n.factorial : Nat) : F) ≠ 0 :=
        hne.factorial_ne_zero (by omega)
      have hstep : invertStep
          ⟨output, (((n + 1).factorial : Nat) : F)⁻¹, ((n + 1 + 1 : Nat) : F)⟩
          ((n.factorial : Nat) : F) =
            ⟨((n + 1 : Nat) : F)⁻¹ :: output, ((n.factorial : Nat) : F)⁻¹,
              ((n + 1 : Nat) : F)⟩ := by
        have hi : ((n + 1 + 1 : Nat) : F) - 1 = ((n + 1 : Nat) : F) := by
          push_cast
          ring
        rw [invertStep, hi, Nat.factorial_succ, Nat.cast_mul]
        congr 1
        · congr 1
          field_simp
        · field_simp
      rw [List.range_succ, List.map_append, List.reverse_append, List.map_cons,
        List.map_nil, List.reverse_singleton, List.singleton_append,
        List.foldl_cons, hstep, ih (hne.mono (Nat.le_succ _)),
        List.range'_concat, List.map_append, List.append_assoc]
      simp [Nat.add_comm 1]

/-- The element at every index is the reciprocal of the index. -/
theorem batchedInversionSequence_eq {length : Nat} (hpos : 0 < length)
    (hne : IntegersNonzero F length) :
    batchedInversionSequence length =
      tabulate length fun t => ((t : Nat) : F)⁻¹ := by
  obtain ⟨n, rfl⟩ := Nat.exists_eq_succ_of_ne_zero (Nat.pos_iff_ne_zero.mp hpos)
  have hproducts := prefixProducts_factorial (F := F) n 0
  rw [Nat.factorial_zero, Nat.zero_add, Nat.cast_one] at hproducts
  have hrange : (List.range (n + 1)).map (fun t => ((t.factorial : Nat) : F)) =
      1 :: (List.range' 1 n).map fun t => ((t.factorial : Nat) : F) := by
    rw [List.range_eq_range', List.range'_succ, List.map_cons,
      Nat.factorial_zero, Nat.cast_one]
  have hlast : ((1 : F) :: (List.range' 1 n).map fun t =>
      ((t.factorial : Nat) : F)).getLastD 1 = ((n.factorial : Nat) : F) := by
    rw [← hrange, List.range_succ, List.map_append, List.map_singleton,
      List.getLastD_concat]
  have htake : ((1 : F) :: (List.range' 1 n).map fun t =>
      ((t.factorial : Nat) : F)).take n =
        (List.range n).map fun t => ((t.factorial : Nat) : F) := by
    rw [← hrange, ← List.map_take, List.take_range, Nat.min_eq_left (by omega)]
  rw [batchedInversionSequence, if_neg (Nat.succ_ne_zero n)]
  simp only [Nat.succ_eq_add_one, Nat.add_sub_cancel, hproducts, hlast, htake]
  rw [Nat.add_comm 1 n, foldl_invertStep hne, List.append_nil, tabulate,
    List.range_eq_range', List.range'_succ, List.map_cons, Nat.cast_zero,
    inv_zero]

end Reciprocals

section Coefficients

variable {F : Type} [Field F]

open ReedSolomon

theorem signed_eq (i : Nat) (value : F) : signed i value = (-1) ^ i * value := by
  rw [signed]
  by_cases h : i % 2 = 1
  · rw [if_pos h, (Nat.odd_iff.mpr h).neg_one_pow, neg_one_mul]
  · have heven : Even i := Nat.even_iff.mpr (by omega)
    rw [if_neg h, heven.neg_one_pow, one_mul]

/-- The recurrence for the binomial coefficients. -/
theorem binomialCoefficients_eq {d : Nat} (count j : Nat)
    (hcount : j + count ≤ d) (hne : IntegersNonzero F (d + 1)) :
    binomialCoefficients d (j + 1) ((d.choose j : Nat) : F)
        ((List.range' (j + 1) count).map fun t => ((t : Nat) : F)⁻¹) =
      (List.range' (j + 1) count).map fun t => ((d.choose t : Nat) : F) := by
  induction count generalizing j with
  | zero => rfl
  | succ count ih =>
      have hstep : ((d.choose j : Nat) : F) * ((d - (j + 1) + 1 : Nat) : F) *
          ((j + 1 : Nat) : F)⁻¹ = ((d.choose (j + 1) : Nat) : F) := by
        have hsub : d - (j + 1) + 1 = d - j := by omega
        have hsucc : ((j + 1 : Nat) : F) ≠ 0 :=
          hne (j + 1) (Nat.succ_pos j) (by omega)
        rw [hsub, ← Nat.cast_mul, ← Nat.choose_succ_right_eq, Nat.cast_mul,
          mul_assoc, mul_inv_cancel₀ hsucc, mul_one]
      rw [List.range'_succ, List.map_cons, List.map_cons, binomialCoefficients,
        hstep, ih (j + 1) (by omega)]

/-- The recurrence for the coefficients after the convolution. -/
theorem pushAfterCoeffs_eq {d length : Nat} (count : Nat)
    (hcount : count < length) (hne : IntegersNonzero F length) :
    (List.range' (d + 1) count).foldlM
        (pushAfterCoeff (tabulate length fun t => ((t : Nat) : F)⁻¹) d)
        ([], 1) =
      .ok ((List.range' (d + 1) count).map fun k =>
          (-1) ^ d * (((k - d) * k.choose d : Nat) : F),
        (((d + count).choose d : Nat) : F)) := by
  induction count with
  | zero =>
      rw [show (d + 0).choose d = 1 from Nat.choose_self d, Nat.cast_one]
      rfl
  | succ count ih =>
      have hindex : d + 1 + count - d = count + 1 := by omega
      have hproduct : ((d + 1 + count : Nat) : F) *
          (((d + count).choose d : Nat) : F) =
            (((d + 1 + count - d) * (d + 1 + count).choose d : Nat) : F) := by
        have h := Nat.choose_mul_succ_eq (d + count) d
        rw [← Nat.cast_mul, Nat.add_right_comm d 1 count, Nat.mul_comm, h,
          Nat.mul_comm]
      have hsucc : ((count + 1 : Nat) : F) ≠ 0 :=
        hne (count + 1) (Nat.succ_pos count) hcount
      have hnext : (((d + 1 + count - d) * (d + 1 + count).choose d : Nat) :
          F) * ((count + 1 : Nat) : F)⁻¹ =
            (((d + (count + 1)).choose d : Nat) : F) := by
        have hsum : d + 1 + count = d + (count + 1) := by omega
        rw [hindex, Nat.cast_mul, mul_comm, inv_mul_cancel_left₀ hsucc, hsum]
      have hstep (coeffs : List F) : pushAfterCoeff
          (tabulate length fun t => ((t : Nat) : F)⁻¹) d
          (coeffs, (((d + count).choose d : Nat) : F)) (d + 1 + count) =
            .ok (coeffs ++ [(-1) ^ d *
                (((d + 1 + count - d) * (d + 1 + count).choose d : Nat) : F)],
              (((d + (count + 1)).choose d : Nat) : F)) := by
        rw [pushAfterCoeff, hproduct, signed_eq, ← hnext, hindex,
          index_tabulate hcount]
        rfl
      rw [List.range'_concat, List.foldlM_append,
        ih (Nat.lt_of_succ_lt hcount), ok_bind, List.foldlM_cons, Nat.one_mul,
        hstep, ok_bind, List.map_append]
      rfl

end Coefficients

section Precompute

variable {F : Type} [Field F] [NttFieldElement F]

open ReedSolomon

/-- The kernel of the convolution: reciprocals, scaled by that of the size of
the transform. -/
def kernel (logN t : Nat) : F := ((t : Nat) : F)⁻¹ * half ^ logN

/-- The context for extending `d + 1` nodes to `m` values. -/
def contextOf (d m : Nat) : ExtendContext F where
  nodesLen := d + 1
  evaluations := m
  nttSize := nextPowerOfTwo m
  transformedConvolutionKernel := tabulate (nextPowerOfTwo m)
    (forward rootOfUnity (Nat.clog 2 m) (kernel (Nat.clog 2 m)))
  beforeConvolutionCoeffs := (List.range (d + 1)).map fun i =>
    (-1) ^ i * ((d.choose i : Nat) : F)
  afterConvolutionCoeffs := (List.range' (d + 1) (m - (d + 1))).map fun k =>
    (-1) ^ d * (((k - d) * k.choose d : Nat) : F)

theorem tabulate_take {F : Type} {N n : Nat} (hn : n ≤ N) (v : Nat → F) :
    (tabulate N v).take n = tabulate n v := by
  rw [tabulate, ← List.map_take, List.take_range, Nat.min_eq_left hn]
  rfl

/-- The context has the values that its fields are described with. -/
theorem extendPrecompute_eq [LawfulNtt F] {d m : Nat} (hm : d + 1 < m)
    (hsize : nextPowerOfTwo m ≤ 2 ^ 31)
    (hne : IntegersNonzero F (max (m + 1) (nextPowerOfTwo m))) :
    extendPrecompute (d + 1) m = .ok (contextOf d m : ExtendContext F) := by
  have hlog : Nat.clog 2 m ≤ 31 :=
    (Nat.pow_le_pow_iff_right Nat.one_lt_two).mp hsize
  have hle : nextPowerOfTwo m ≤ max (m + 1) (nextPowerOfTwo m) :=
    Nat.le_max_right _ _
  have hlarge : m + 1 ≤ max (m + 1) (nextPowerOfTwo m) := Nat.le_max_left _ _
  have hpos : 0 < max (m + 1) (nextPowerOfTwo m) :=
    (Nat.succ_pos m).trans_le hlarge
  have hslice : sliceTo (tabulate (max (m + 1) (nextPowerOfTwo m)) fun t =>
      ((t : Nat) : F)⁻¹) (nextPowerOfTwo m) =
        .ok (tabulate (nextPowerOfTwo m) fun t => ((t : Nat) : F)⁻¹) := by
    rw [sliceTo, assert_of (by rwa [length_tabulate]), ok_bind,
      tabulate_take hle]
    rfl
  have hkernel : (tabulate (nextPowerOfTwo m) fun t => ((t : Nat) : F)⁻¹).map
      (fun elem => elem * half ^ Nat.log2 (nextPowerOfTwo m)) =
        tabulate (2 ^ Nat.clog 2 m) (kernel (Nat.clog 2 m)) := by
    rw [nextPowerOfTwo, Nat.log2_two_pow, tabulate, List.map_map]
    rfl
  have hterms : ((tabulate (max (m + 1) (nextPowerOfTwo m)) fun t =>
      ((t : Nat) : F)⁻¹).take (d + 1)).drop 1 =
        (List.range' 1 d).map fun t => ((t : Nat) : F)⁻¹ := by
    rw [tabulate_take (by omega), tabulate, List.range_eq_range',
      List.range'_succ]
    rfl
  have hbinomials : (1 : F) :: binomialCoefficients d 1 1
      ((List.range' 1 d).map fun t => ((t : Nat) : F)⁻¹) =
        (List.range (d + 1)).map fun i => ((d.choose i : Nat) : F) := by
    have h := binomialCoefficients_eq (F := F) (d := d) d 0 (by omega)
      (hne.mono (by omega))
    rw [Nat.choose_zero_right, Nat.cast_one] at h
    rw [h, List.range_eq_range', List.range'_succ, List.map_cons,
      Nat.choose_zero_right, Nat.cast_one]
  have hbefore : (((List.range (d + 1)).map fun i =>
      ((d.choose i : Nat) : F)).zipIdx.map fun (binom, i) => signed i binom) =
        (List.range (d + 1)).map fun i =>
          (-1) ^ i * ((d.choose i : Nat) : F) := by
    apply List.ext_getElem
    · simp
    · intro i _ _
      simp [signed_eq]
  have hbound : m - (d + 1) < max (m + 1) (nextPowerOfTwo m) := by omega
  have hafter := pushAfterCoeffs_eq (F := F) (d := d) (m - (d + 1)) hbound hne
  have hd : checkedSub (d + 1) 1 = .ok d := checkedSub_of_le (Nat.succ_pos d)
  rw [extendPrecompute]
  simp only [batchedInversionSequence_eq hpos hne, hslice, ok_bind, hkernel,
    nttBitReversed_tabulate LawfulNtt.validRoots hlog, hd, hterms, hbinomials,
    hbefore, hafter]
  rfl

end Precompute

section Extend

variable {F : Type} [Field F] [NttFieldElement F]

open ReedSolomon Finset

omit [NttFieldElement F] in
theorem resize_eq_tabulate {values : List F} {N : Nat}
    (hN : values.length ≤ N) :
    resize values N = tabulate N fun p => values.getD p 0 := by
  apply List.ext_getElem?
  intro p
  rw [resize, List.take_of_length_le hN]
  by_cases hp : p < N
  · rw [tabulate_getElem? hp]
    by_cases hvalue : p < values.length
    · rw [List.getElem?_append_left hvalue, List.getElem?_eq_getElem hvalue,
        List.getD_eq_getElem _ _ hvalue]
    · have hle := Nat.not_lt.mp hvalue
      rw [List.getElem?_append_right hle, List.getElem?_replicate,
        if_pos (by omega), List.getD_eq_default _ _ hle]
  · rw [List.getElem?_eq_none (by simp; omega),
      List.getElem?_eq_none (by simp; omega)]

omit [NttFieldElement F] in
theorem mulElements_tabulate (N : Nat) (v w : Nat → F) :
    mulElements (tabulate N v) (tabulate N w) =
      tabulate N fun p => v p * w p := by
  have hlists (xs : List Nat) : mulElements (xs.map v) (xs.map w) =
      xs.map fun p => v p * w p := by
    induction xs with
    | nil => rfl
    | cons x xs ih => rw [List.map_cons, List.map_cons, mulElements, ih]; rfl
  exact hlists _

/-- The convolution of the scaled nodes with the kernel, without wrapping
around in the positions after the nodes. -/
theorem cyclicConvolution_kernel [LawfulNtt F] {logN n k : Nat}
    {terms : Nat → F} (hterms : ∀ i, n ≤ i → terms i = 0) (hk : n ≤ k)
    (hN : k < 2 ^ logN) :
    (2 ^ logN : F) * cyclicConvolution (2 ^ logN) terms (kernel logN) k =
      ∑ i ∈ range n, terms i * ((k - i : Nat) : F)⁻¹ := by
  have hscale : (2 ^ logN : F) * half ^ logN = 1 := by
    rw [← mul_pow, LawfulNtt.two_mul_half, one_pow]
  have hsubset : range n ⊆ range (2 ^ logN) :=
    range_subset_range.mpr (hk.trans hN.le)
  rw [cyclicConvolution, ← sum_subset hsubset, mul_sum]
  · apply sum_congr rfl
    intro i hi
    have hi := mem_range.mp hi
    have hindex : (k + (2 ^ logN - i)) % 2 ^ logN = k - i := by
      have hsplit : k + (2 ^ logN - i) = k - i + 2 ^ logN := by omega
      rw [hsplit, Nat.add_mod_right, Nat.mod_eq_of_lt (by omega)]
    rw [hindex, kernel]
    linear_combination terms i * ((k - i : Nat) : F)⁻¹ * hscale
  · intro i _ hi
    rw [hterms i (Nat.not_lt.mp fun hlt => hi (mem_range.mpr hlt)), zero_mul]

omit [NttFieldElement F] in
/-- The nodes, scaled before the convolution. -/
theorem scaledNodes_getD {nodes : List F} {d : Nat}
    (hlength : nodes.length = d + 1) (i : Nat) :
    (List.zipWith (· * ·) nodes ((List.range (d + 1)).map fun i =>
      (-1) ^ i * ((d.choose i : Nat) : F))).getD i 0 =
        (-1) ^ i * ((d.choose i : Nat) : F) * nodes.getD i 0 := by
  by_cases hi : i < d + 1
  · have hnode : i < nodes.length := by rwa [hlength]
    have hzip : i < (List.zipWith (· * ·) nodes ((List.range (d + 1)).map
        fun i => (-1) ^ i * ((d.choose i : Nat) : F))).length := by
      simp [hlength, hi]
    rw [List.getD_eq_getElem _ _ hzip, List.getD_eq_getElem _ _ hnode,
      List.getElem_zipWith, List.getElem_map, List.getElem_range, mul_comm]
  · have hle : d + 1 ≤ i := Nat.not_lt.mp hi
    rw [List.getD_eq_default nodes 0 (by rwa [hlength]), mul_zero,
      List.getD_eq_default _ _ (by simp [hlength, hle])]

/-- Extending with the context is interpolation at the integers. -/
theorem extend_contextOf [LawfulNtt F] {d m : Nat} (hm : d + 1 < m)
    (hsize : nextPowerOfTwo m ≤ 2 ^ 31) (hne : IntegersNonzero F m)
    {nodes : List F} (hlength : nodes.length = d + 1) :
    extend nodes (contextOf d m) = .ok (extension Nat.cast nodes m) := by
  have hroots := (LawfulNtt.validRoots (F := F))
  set logN := Nat.clog 2 m with hlogN
  have hlog : logN ≤ 31 := (Nat.pow_le_pow_iff_right Nat.one_lt_two).mp hsize
  have hmN : m ≤ 2 ^ logN := Nat.le_pow_clog Nat.one_lt_two m
  set scaled := List.zipWith (· * ·) nodes ((List.range (d + 1)).map fun i =>
    (-1) ^ i * ((d.choose i : Nat) : F)) with hscaled
  set terms : Nat → F := fun i => scaled.getD i 0 with hterms
  have hresize : resize scaled (2 ^ logN) = tabulate (2 ^ logN) terms := by
    apply resize_eq_tabulate
    rw [hscaled, List.length_zipWith, hlength]
    simp only [List.length_map, List.length_range, Nat.min_self]
    omega
  have hinverse : ∀ i, i < logN → (rootOfUnity (i + 1) : F) *
      (rootsOfUnityInverses : List F).getD (i + 1) 0 = 1 :=
    fun i hi => hroots.inverse (i + 1) (by omega)
  have hproduct : mulElements
      (tabulate (2 ^ logN) (forward rootOfUnity logN terms))
      (tabulate (2 ^ logN) (forward rootOfUnity logN (kernel logN))) =
        tabulate (2 ^ logN) (forward rootOfUnity logN
          (cyclicConvolution (2 ^ logN) terms (kernel logN))) := by
    rw [mulElements_tabulate]
    apply tabulate_congr
    intro p hp
    exact (forward_cyclicConvolution hroots.rootChain hroots.zero hlog _ _
      hp).symm
  have hresult : scaledInverseNttBitReversed (mulElements
      (tabulate (2 ^ logN) (forward rootOfUnity logN terms))
      (tabulate (2 ^ logN) (forward rootOfUnity logN (kernel logN)))) =
        .ok (tabulate (2 ^ logN) fun k => 2 ^ logN *
          cyclicConvolution (2 ^ logN) terms (kernel logN) k) := by
    rw [hproduct, scaledInverseNttBitReversed_tabulate hroots hlog,
      inverse_forward hinverse]
  have hslice (v : Nat → F) : sliceTo (tabulate (2 ^ logN) v) m =
      .ok (tabulate m v) := by
    rw [sliceTo, assert_of (by rwa [length_tabulate]), ok_bind,
      tabulate_take hmN]
    rfl
  have hnot : ¬ m ≤ nodes.length := by omega
  rw [extend, contextOf]
  simp only [assert_of hlength, ok_bind, if_neg hnot, nextPowerOfTwo, ← hlogN,
    ← hscaled, hresize, nttBitReversed_tabulate hroots hlog, hresult, hslice,
    pure_eq_ok]
  congr 1
  -- The values at the nodes are the nodes, those after them the convolution.
  apply List.ext_getElem?
  intro k
  by_cases hnode : k < nodes.length
  · have hle : nodes.length ≤ m := by
      rw [hlength]
      exact hm.le
    have htake := take_extension hne.injOn hle
    rw [List.getElem?_append_left hnode]
    conv_lhs => rw [← htake]
    exact List.getElem?_take_of_lt hnode
  · have hge : d + 1 ≤ k := hlength ▸ Nat.not_lt.mp hnode
    rw [List.getElem?_append_right (Nat.not_lt.mp hnode)]
    by_cases hk : k < m
    · have hvalue : (2 ^ logN : F) *
          cyclicConvolution (2 ^ logN) terms (kernel logN) k *
          ((-1) ^ d * (((k - d) * k.choose d : Nat) : F)) =
            (interpolant Nat.cast nodes).eval (k : F) := by
        have hzero : ∀ i, d + 1 ≤ i → terms i = 0 := by
          intro i hi
          rw [hterms, hscaled]
          simp only [scaledNodes_getD hlength]
          rw [List.getD_eq_default nodes 0 (by rwa [hlength]), mul_zero]
        rw [cyclicConvolution_kernel hzero hge (hk.trans_le hmN),
          eval_interpolant_natCast hlength hge (hne.mono hk), mul_comm]
        congr 1
        apply sum_congr rfl
        intro i _
        rw [hterms, hscaled]
        simp only [scaledNodes_getD hlength]
      rw [extension_getElem? hk, ← hvalue, hlength]
      have hslot : k - (d + 1) < m - (d + 1) := by omega
      have hcoeff : ((List.range' (d + 1) (m - (d + 1))).map fun k =>
          (-1) ^ d * (((k - d) * k.choose d : Nat) : F))[k - (d + 1)]? =
            some ((-1) ^ d * (((k - d) * k.choose d : Nat) : F)) := by
        rw [List.getElem?_map, List.getElem?_range' hslot, Option.map_some,
          Nat.one_mul, Nat.add_sub_cancel' hge]
      rw [List.getElem?_zipWith, List.getElem?_drop, hcoeff,
        Nat.add_sub_cancel' hge, tabulate_getElem? hk]
    · rw [List.getElem?_eq_none (by simp [hlength]; omega),
        List.getElem?_eq_none (by simp; omega)]

end Extend

end Longfellow.ExtendP
