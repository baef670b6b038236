/-
The multiplication of the field with `2^128` elements on arrays of bits: a
carry-less product by loops over slices, and a modular reduction from the top
bit down.
-/
import Mathlib.Data.List.GetD
import Longfellow.Fields.Field2128.Quotient

namespace Longfellow.Field2_128.BackendNaiveLoop

open Polynomial BinaryPolynomial Finset

def decompose (value : BitVec 128) : List Bool :=
  (List.range 128).map fun i => (value >>> i) &&& 1 != 0

/-- One bit of the carry-less product, from two slices of which the second is
read backwards. -/
def productBit (x y : List Bool) (i : Nat) : Bool :=
  let slice (bits : List Bool) : List Bool :=
    if i < 128 then bits.take (i + 1) else bits.drop (i - 127)
  ((slice x).zip (slice y).reverse).foldl
    (fun out (left, right) => out ^^ (left && right)) false

def product (x y : List Bool) : List Bool :=
  (List.range 255).map (productBit x y)

def flip (product : List Bool) (i : Nat) : List Bool :=
  product.modify i (· ^^ true)

/-- Cancel the bit at `i + 128`. -/
def reduceBit (product : List Bool) (i : Nat) : List Bool :=
  if product.getD (i + 128) false then
    flip (flip (flip (flip (flip product (i + 128)) (i + 7)) (i + 2)) (i + 1)) i
  else product

def reduce (product : List Bool) : List Bool :=
  (List.range 127).reverse.foldl reduceBit product

def output (product : List Bool) : BitVec 128 :=
  (product.take 128).zipIdx.foldl
    (fun output (bit, i) => output ||| ((BitVec.ofBool bit).setWidth 128 <<< i))
    0

/-- Multiply two elements. -/
def galoisMultiply (x y : BitVec 128) : BitVec 128 :=
  output (reduce (product (decompose x) (decompose y)))

/-- Square an element. -/
def galoisSquare (x : BitVec 128) : BitVec 128 :=
  galoisMultiply x x

section Bits

/-- A bit as an element of the field with two elements. -/
def bit (b : Bool) : ZMod 2 := if b then 1 else 0

theorem bit_xor (a b : Bool) : bit (a ^^ b) = bit a + bit b := by
  cases a <;> cases b <;> rfl

theorem bit_and (a b : Bool) : bit (a && b) = bit a * bit b := by
  cases a <;> cases b <;> rfl

/-- The polynomial of an array of bits. -/
noncomputable def listPoly (bits : List Bool) : (ZMod 2)[X] :=
  poly (BitVec.ofBoolListLE bits)

theorem coeff_listPoly (bits : List Bool) (i : Nat) :
    (listPoly bits).coeff i = bit (bits.getD i false) := by
  rw [listPoly, coeff_poly, BitVec.getLsbD_ofBoolListLE, bit]

theorem getD_decompose (value : BitVec 128) (i : Nat) :
    (decompose value).getD i false = value.getLsbD i := by
  rw [decompose, List.getD_eq_getElem?_getD, List.getElem?_map]
  by_cases hi : i < 128
  · rw [List.getElem?_range hi, Option.map_some, Option.getD_some]
    have hlow : ((value >>> i) &&& 1 != 0) = (value >>> i).getLsbD 0 := by
      change ((value >>> i) &&& 1#128 != 0) = _
      rw [BitVec.and_one_eq_setWidth_ofBool_getLsbD]
      cases (value >>> i).getLsbD 0 <;> rfl
    rw [hlow, BitVec.getLsbD_ushiftRight, Nat.add_zero]
  · rw [List.getElem?_eq_none (by simpa using hi), BitVec.getLsbD_of_ge value i
      (Nat.not_lt.mp hi)]
    rfl

@[simp] theorem length_decompose (value : BitVec 128) :
    (decompose value).length = 128 := by
  rw [decompose, List.length_map, List.length_range]

theorem listPoly_decompose (value : BitVec 128) :
    listPoly (decompose value) = poly value := by
  ext i
  rw [coeff_listPoly, getD_decompose, coeff_poly, bit]

end Bits

section Product

theorem bit_foldl (pairs : List (Bool × Bool)) (out : Bool) :
    bit (pairs.foldl (fun out (left, right) => out ^^ (left && right)) out) =
      bit out + (pairs.map fun pair => bit pair.1 * bit pair.2).sum := by
  induction pairs generalizing out with
  | nil => simp
  | cons pair pairs ih =>
      rw [List.foldl_cons, ih, bit_xor, bit_and, List.map_cons, List.sum_cons,
        add_assoc]

/-- Two slices of the same length, the second read backwards. -/
theorem zip_reverse {x y : List Bool} (h : x.length = y.length) :
    x.zip y.reverse = (List.range x.length).map fun k =>
      (x.getD k false, y.getD (x.length - 1 - k) false) := by
  apply List.ext_getElem
  · simp [h]
  · intro k hk _
    simp only [List.length_zip, List.length_reverse, h, Nat.min_self] at hk
    simp [h, hk, show y.length - 1 - k < y.length by omega]

theorem sum_map_range (f : Nat → ZMod 2) (n : Nat) :
    ((List.range n).map f).sum = ∑ k ∈ range n, f k := by
  induction n with
  | zero => rfl
  | succ n ih =>
      rw [List.range_succ, List.map_append, List.sum_append, ih,
        sum_range_succ]
      simp

variable {x y : List Bool}

theorem bit_productBit_low (hx : x.length = 128) (hy : y.length = 128)
    {i : Nat} (hi : i < 128) :
    bit (productBit x y i) =
      ∑ k ∈ range (i + 1), bit (x.getD k false) * bit (y.getD (i - k) false) := by
  have hlength : (x.take (i + 1)).length = i + 1 := by
    rw [List.length_take, hx]
    omega
  simp only [productBit, if_pos hi]
  rw [bit_foldl, zip_reverse (by simp [hx, hy]), List.map_map, sum_map_range,
    hlength]
  have hzero : bit false = 0 := rfl
  rw [hzero, zero_add]
  apply sum_congr rfl
  intro k hk
  have hk := mem_range.mp hk
  have hindex : i + 1 - 1 - k = i - k := by omega
  simp only [Function.comp_apply, hindex, List.getD_eq_getElem?_getD,
    List.getElem?_take]
  rw [if_pos hk, if_pos (by omega)]

theorem bit_productBit_high (hx : x.length = 128) (hy : y.length = 128)
    {i : Nat} (hi : 128 ≤ i) (hle : i < 255) :
    bit (productBit x y i) =
      ∑ k ∈ range (i + 1), bit (x.getD k false) * bit (y.getD (i - k) false) := by
  have hlength : (x.drop (i - 127)).length = 255 - i := by
    rw [List.length_drop, hx]
    omega
  have hsplit : i + 1 = (i - 127) + ((255 - i) + (i - 127)) := by omega
  have hbeyond (bits : List Bool) (hbits : bits.length = 128) {k : Nat}
      (hk : 128 ≤ k) : bit (bits.getD k false) = 0 := by
    rw [List.getD_eq_default bits false (by omega)]
    rfl
  simp only [productBit, if_neg (Nat.not_lt.mpr hi)]
  rw [bit_foldl, zip_reverse (by simp [hx, hy]), List.map_map, sum_map_range,
    hlength, hsplit, sum_range_add, sum_range_add]
  -- the slices leave out the pairs of which one bit is beyond its array
  have hbefore : ∑ k ∈ range (i - 127),
      bit (x.getD k false) * bit (y.getD (i - k) false) = 0 := by
    apply sum_eq_zero
    intro k hk
    have hk := mem_range.mp hk
    rw [hbeyond y hy (by omega), mul_zero]
  have hafter : ∑ k ∈ range (i - 127),
      bit (x.getD (i - 127 + (255 - i + k)) false) *
        bit (y.getD (i - (i - 127 + (255 - i + k))) false) = 0 := by
    apply sum_eq_zero
    intro k _
    rw [hbeyond x hx (by omega), zero_mul]
  have hzero : bit false = 0 := rfl
  rw [hbefore, hafter, hzero, add_zero, zero_add, zero_add]
  apply sum_congr rfl
  intro k hk
  have hk := mem_range.mp hk
  have hindex : i - 127 + (255 - i - 1 - k) = i - (i - 127 + k) := by omega
  simp only [Function.comp_apply, List.getD_eq_getElem?_getD,
    List.getElem?_drop, hindex]

/-- The loops over slices multiply the polynomials. -/
theorem listPoly_product (hx : x.length = 128) (hy : y.length = 128) :
    listPoly (product x y) = listPoly x * listPoly y := by
  ext i
  rw [coeff_mul, Nat.sum_antidiagonal_eq_sum_range_succ_mk, coeff_listPoly]
  simp only [coeff_listPoly]
  rw [product, List.getD_eq_getElem?_getD, List.getElem?_map]
  by_cases hi : i < 255
  · rw [List.getElem?_range hi, Option.map_some, Option.getD_some]
    by_cases hlow : i < 128
    · exact bit_productBit_low hx hy hlow
    · exact bit_productBit_high hx hy (Nat.not_lt.mp hlow) hi
  · rw [List.getElem?_eq_none (by simpa using hi)]
    symm
    apply sum_eq_zero
    intro k _
    by_cases hk : k < 128
    · rw [List.getD_eq_default y false (by omega)]
      exact mul_zero _
    · rw [List.getD_eq_default x false (by omega)]
      exact zero_mul _

end Product

section Reduction

theorem getD_flip (product : List Bool) {i : Nat} (hi : i < product.length)
    (j : Nat) : (flip product i).getD j false =
      if j = i then !product.getD j false else product.getD j false := by
  rw [flip, List.getD_eq_getElem?_getD, List.getD_eq_getElem?_getD,
    List.getElem?_modify]
  by_cases hij : i = j
  · subst hij
    simp [hi]
  · simp [hij, Ne.symm hij]

@[simp] theorem length_flip (product : List Bool) (i : Nat) :
    (flip product i).length = product.length := by
  rw [flip, List.length_modify]

theorem listPoly_flip (product : List Bool) {i : Nat}
    (hi : i < product.length) :
    listPoly (flip product i) = listPoly product + X ^ i := by
  ext j
  rw [coeff_add, coeff_listPoly, coeff_listPoly, getD_flip product hi,
    coeff_X_pow]
  by_cases hj : j = i
  · rw [if_pos hj, if_pos hj]
    cases product.getD j false <;> rfl
  · rw [if_neg hj, if_neg hj, add_zero]

@[simp] theorem length_reduceBit (product : List Bool) (i : Nat) :
    (reduceBit product i).length = product.length := by
  rw [reduceBit]
  split
  · simp
  · rfl

/-- No bit is left at a position that the reduction has passed. -/
def Cleared (product : List Bool) (i : Nat) : Prop :=
  ∀ j, i + 128 ≤ j → product.getD j false = false

/-- A multiple of the quotient polynomial cancels one more bit. -/
theorem reduceBit_spec {product : List Bool} {i : Nat}
    (hi : i + 128 < product.length) (hcleared : Cleared product (i + 1)) :
    (∃ q, listPoly (reduceBit product i) + quotient * q = listPoly product) ∧
      Cleared (reduceBit product i) i := by
  by_cases hbit : product.getD (i + 128) false = true
  · constructor
    · refine ⟨X ^ i, ?_⟩
      rw [reduceBit, if_pos hbit, listPoly_flip _ (by simp; omega),
        listPoly_flip _ (by simp; omega), listPoly_flip _ (by simp; omega),
        listPoly_flip _ (by simp; omega), listPoly_flip _ hi, quotient_eq,
        lowerTerms, pow_add X i 128, pow_add X i 7, pow_add X i 2,
        pow_add X i 1]
      generalize (X : (ZMod 2)[X]) ^ 128 = leading
      linear_combination (X ^ i * (leading + X ^ 7 + X ^ 2 + X + 1)) *
        two_eq_zero
    · intro j hj
      rw [reduceBit, if_pos hbit, getD_flip _ (by simp; omega),
        if_neg (by omega), getD_flip _ (by simp; omega), if_neg (by omega),
        getD_flip _ (by simp; omega), if_neg (by omega),
        getD_flip _ (by simp; omega), if_neg (by omega), getD_flip _ hi]
      by_cases htop : j = i + 128
      · rw [if_pos htop, htop, hbit, Bool.not_true]
      · rw [if_neg htop]
        exact hcleared j (by omega)
  · constructor
    · refine ⟨0, ?_⟩
      rw [reduceBit, if_neg hbit, mul_zero, add_zero]
    · intro j hj
      rw [reduceBit, if_neg hbit]
      by_cases htop : j = i + 128
      · rw [htop]
        exact Bool.eq_false_iff.mpr hbit
      · exact hcleared j (by omega)

/-- The bits above are cancelled one after the other, from the top down. -/
theorem foldl_reduceBit_spec (n : Nat) {product : List Bool}
    (hn : n + 128 ≤ product.length) (hcleared : Cleared product n) :
    (∃ q, listPoly ((List.range n).reverse.foldl reduceBit product) +
        quotient * q = listPoly product) ∧
      Cleared ((List.range n).reverse.foldl reduceBit product) 0 := by
  induction n generalizing product with
  | zero =>
      constructor
      · refine ⟨0, ?_⟩
        rw [mul_zero, add_zero]
        rfl
      · exact hcleared
  | succ n ih =>
      obtain ⟨⟨q, hq⟩, hstep⟩ := reduceBit_spec (by omega) hcleared
      obtain ⟨⟨r, hr⟩, hrest⟩ :=
        ih (by rw [length_reduceBit]; omega) hstep
      rw [List.range_succ, List.reverse_append, List.reverse_singleton,
        List.singleton_append, List.foldl_cons]
      refine ⟨⟨q + r, ?_⟩, hrest⟩
      rw [← hq, ← hr]
      ring

end Reduction

section Output

theorem getLsbD_foldl (bits : List Bool) (n : Nat) (out : BitVec 128)
    {i : Nat} (hi : i < 128) :
    ((bits.zipIdx n).foldl (fun output (bit, i) =>
      output ||| ((BitVec.ofBool bit).setWidth 128 <<< i)) out).getLsbD i =
        (out.getLsbD i || (decide (n ≤ i) && bits.getD (i - n) false)) := by
  induction bits generalizing n out with
  | nil => simp
  | cons b bits ih =>
      have hone : ((BitVec.ofBool b).setWidth 128 <<< n).getLsbD i =
          (decide (n = i) && b) := by
        rw [BitVec.getLsbD_shiftLeft, BitVec.getLsbD_setWidth,
          BitVec.getLsbD_ofBool]
        by_cases hn : n = i
        · simp [hn, hi]
        · by_cases hlt : i < n
          · simp [hn, hlt]
          · simp [hn, show i - n ≠ 0 by omega]
      rw [List.zipIdx_cons, List.foldl_cons, ih, BitVec.getLsbD_or, hone,
        Bool.or_assoc]
      congr 1
      by_cases hn : n = i
      · subst hn
        simp
      · by_cases hle : n ≤ i
        · have hindex : i - n = i - (n + 1) + 1 := by omega
          rw [hindex, List.getD_cons_succ]
          simp [hn, hle, show n + 1 ≤ i by omega]
        · simp [hn, hle, show ¬ n + 1 ≤ i by omega]

theorem poly_output {product : List Bool} (h : Cleared product 0) :
    poly (output product) = listPoly product := by
  ext i
  rw [coeff_listPoly, coeff_poly]
  by_cases hi : i < 128
  · rw [output, getLsbD_foldl _ 0 0 hi, List.getD_eq_getElem?_getD,
      List.getElem?_take, Nat.sub_zero, if_pos hi,
      ← List.getD_eq_getElem?_getD, bit]
    simp
  · rw [h i (by omega), BitVec.getLsbD_of_ge _ i (by omega), bit]

end Output

/-- The loops compute the reduced product of polynomials. -/
theorem poly_galoisMultiply (x y : BitVec 128) :
    poly (galoisMultiply x y) = (poly x * poly y) %ₘ quotient := by
  have hlength : (product (decompose x) (decompose y)).length = 255 := by
    rw [product, List.length_map, List.length_range]
  have hcleared : Cleared (product (decompose x) (decompose y)) 127 := by
    intro j hj
    exact List.getD_eq_default _ false (by omega)
  obtain ⟨⟨q, hq⟩, hreduced⟩ := foldl_reduceBit_spec 127 (by omega) hcleared
  apply poly_eq_modByMonic (q := q)
  rw [galoisMultiply, reduce, poly_output hreduced, hq,
    listPoly_product (length_decompose x) (length_decompose y),
    listPoly_decompose, listPoly_decompose]

theorem poly_galoisSquare (x : BitVec 128) :
    poly (galoisSquare x) = (poly x * poly x) %ₘ quotient :=
  poly_galoisMultiply x x

end Longfellow.Field2_128.BackendNaiveLoop
