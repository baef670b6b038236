/-
Number theoretic transforms by decimation in frequency: stages of butterflies
on blocks of halving size leave the transform in bit-reversed order, and the
inverse stages undo them one by one, up to a factor of two each.
-/
import Mathlib.Algebra.BigOperators.Intervals
import Mathlib.Algebra.BigOperators.Ring.Finset
import Mathlib.Data.Nat.Bitwise
import Mathlib.Tactic.LinearCombination
import Mathlib.Tactic.Ring

universe u

namespace Ntt

open Finset

/-- The lowest `k` bits of a number, in reverse order. -/
def bitReverse : Nat → Nat → Nat
  | 0, _ => 0
  | k + 1, j => j % 2 * 2 ^ k + bitReverse k (j / 2)

theorem bitReverse_lt (k j : Nat) : bitReverse k j < 2 ^ k := by
  induction k generalizing j with
  | zero => exact Nat.one_pos
  | succ k ih =>
      have htail := ih (j / 2)
      rw [bitReverse, pow_succ]
      rcases Nat.mod_two_eq_zero_or_one j with h | h
      · rw [h]
        omega
      · rw [h]
        omega

/-- Bit `i` of the reversal is bit `k - 1 - i`. -/
theorem testBit_bitReverse {k i : Nat} (hi : i < k) (j : Nat) :
    (bitReverse k j).testBit i = j.testBit (k - 1 - i) := by
  induction k generalizing j with
  | zero => exact absurd hi (Nat.not_lt_zero i)
  | succ k ih =>
      have hlt := bitReverse_lt k (j / 2)
      rw [bitReverse, Nat.mul_comm, Nat.testBit_two_pow_mul_add _ hlt]
      by_cases h : i < k
      · have hindex : k + 1 - 1 - i = k - 1 - i + 1 := by omega
        rw [if_pos h, ih h, hindex, Nat.testBit_succ]
      · obtain rfl : i = k := by omega
        rw [if_neg h, Nat.sub_self, Nat.add_sub_cancel, Nat.sub_self,
          Nat.testBit_zero, Nat.testBit_zero, Nat.mod_mod]

/-- Reversing twice gives the bits back. -/
theorem bitReverse_bitReverse {k j : Nat} (hj : j < 2 ^ k) :
    bitReverse k (bitReverse k j) = j := by
  apply Nat.eq_of_testBit_eq
  intro i
  by_cases hi : i < k
  · have hindex : k - 1 - (k - 1 - i) = i := by omega
    rw [testBit_bitReverse hi, testBit_bitReverse (by omega), hindex]
  · have hle : 2 ^ k ≤ 2 ^ i :=
      Nat.pow_le_pow_right Nat.two_pos (Nat.not_lt.mp hi)
    rw [Nat.testBit_lt_two_pow ((bitReverse_lt k _).trans_le hle),
      Nat.testBit_lt_two_pow (hj.trans_le hle)]

section Stage

variable {α : Type u}

/-- One stage: a butterfly on every pair of elements that are a stride apart
within a block. It depends on the place of the pair in the block. -/
def stage (stride : Nat) (butterfly : Nat → α → α → α × α) (v : Nat → α)
    (p : Nat) : α :=
  if p % (2 * stride) < stride then
    (butterfly (p % (2 * stride)) (v p) (v (p + stride))).1
  else
    (butterfly (p % (2 * stride) - stride) (v (p - stride)) (v p)).2

variable {stride : Nat} {butterfly : Nat → α → α → α × α} {v : Nat → α}

theorem block_mod {q i : Nat} (hi : i < 2 * stride) :
    (q * (2 * stride) + i) % (2 * stride) = i := by
  rw [Nat.mul_comm, Nat.mul_add_mod, Nat.mod_eq_of_lt hi]

/-- The first of a pair. -/
theorem stage_low {q i : Nat} (hi : i < stride) :
    stage stride butterfly v (q * (2 * stride) + i) =
      (butterfly i (v (q * (2 * stride) + i))
        (v (q * (2 * stride) + i + stride))).1 := by
  have hmod : (q * (2 * stride) + i) % (2 * stride) = i :=
    block_mod (by omega)
  rw [stage, hmod, if_pos hi]

/-- The second of a pair. -/
theorem stage_high {q i : Nat} (hi : i < stride) :
    stage stride butterfly v (q * (2 * stride) + i + stride) =
      (butterfly i (v (q * (2 * stride) + i))
        (v (q * (2 * stride) + i + stride))).2 := by
  have hmod : (q * (2 * stride) + (i + stride)) % (2 * stride) = i + stride :=
    block_mod (by omega)
  rw [← Nat.add_assoc] at hmod
  rw [stage, hmod, if_neg (by omega), Nat.add_sub_cancel, Nat.add_sub_cancel]

/-- Every position is one of a pair. -/
theorem exists_pair (hpos : 0 < stride) (p : Nat) :
    ∃ q i, i < stride ∧
      (p = q * (2 * stride) + i ∨ p = q * (2 * stride) + i + stride) := by
  have hmod : p % (2 * stride) < 2 * stride := Nat.mod_lt p (by omega)
  have hdiv := Nat.div_add_mod p (2 * stride)
  rw [Nat.mul_comm] at hdiv
  by_cases h : p % (2 * stride) < stride
  · exact ⟨p / (2 * stride), p % (2 * stride), h, Or.inl hdiv.symm⟩
  · exact ⟨p / (2 * stride), p % (2 * stride) - stride, by omega,
      Or.inr (by omega)⟩

end Stage

section Transform

variable {R : Type u} [CommRing R]

/-- The butterfly of the transform. -/
def forwardButterfly (ω : R) (i : Nat) (x y : R) : R × R :=
  (x + y, (x - y) * ω ^ i)

/-- The butterfly of the inverse transform. -/
def inverseButterfly (ω : R) (i : Nat) (x y : R) : R × R :=
  (x + y * ω ^ i, x - y * ω ^ i)

/-- The stages of the transform, on blocks of size `2 ^ k` and then on smaller
ones. -/
def forward (root : Nat → R) : Nat → (Nat → R) → Nat → R
  | 0, v => v
  | k + 1, v =>
      forward root k (stage (2 ^ k) (forwardButterfly (root (k + 1))) v)

/-- The stages of the inverse transform, on blocks of growing size. -/
def inverse (root : Nat → R) : Nat → (Nat → R) → Nat → R
  | 0, v => v
  | k + 1, v =>
      stage (2 ^ k) (inverseButterfly (root (k + 1))) (inverse root k v)

/-- Roots of unity of the orders `2 ^ k`, each the square of the next one. -/
structure RootChain (n : Nat) (root : Nat → R) : Prop where
  square : ∀ k, k < n → root (k + 1) ^ 2 = root k
  half : ∀ k, k < n → root (k + 1) ^ 2 ^ k = -1

/-- A sum over a block, by halves. -/
theorem sum_halves (k : Nat) (f : Nat → R) :
    ∑ i ∈ range (2 ^ (k + 1)), f i =
      ∑ i ∈ range (2 ^ k), (f i + f (i + 2 ^ k)) := by
  rw [pow_succ, Nat.mul_two, sum_range_add, sum_add_distrib]
  congr 1
  apply sum_congr rfl
  intro i _
  rw [Nat.add_comm]

/-- The stages leave the transform of every block in bit-reversed order. -/
theorem forward_bitReverse {n k : Nat} {root : Nat → R}
    (h : RootChain n root) (hk : k ≤ n) (v : Nat → R) (q : Nat) {j : Nat}
    (hj : j < 2 ^ k) :
    forward root k v (q * 2 ^ k + bitReverse k j) =
      ∑ i ∈ range (2 ^ k), v (q * 2 ^ k + i) * root k ^ (i * j) := by
  induction k generalizing v q j with
  | zero => simp [forward, bitReverse]
  | succ k ih =>
      have hsquare := h.square k hk
      have hhalf := h.half k hk
      have hdiv : j / 2 < 2 ^ k := by
        rw [pow_succ] at hj
        omega
      have hblock : 2 ^ (k + 1) = 2 * 2 ^ k := pow_succ' 2 k
      have hposition : q * 2 ^ (k + 1) + bitReverse (k + 1) j =
          (2 * q + j % 2) * 2 ^ k + bitReverse k (j / 2) := by
        rw [bitReverse, pow_succ]
        ring
      rw [hposition, forward, ih (Nat.le_of_succ_le hk) _ _ hdiv, sum_halves]
      apply sum_congr rfl
      intro i hi
      have hi := mem_range.mp hi
      have hroot : root k ^ (i * (j / 2)) =
          root (k + 1) ^ (i * (2 * (j / 2))) := by
        rw [← hsquare, ← pow_mul]
        congr 1
        ring
      have hshift : root (k + 1) ^ ((i + 2 ^ k) * j) =
          (-1) ^ j * root (k + 1) ^ (i * j) := by
        rw [Nat.add_mul, pow_add, pow_mul _ (2 ^ k), hhalf, mul_comm]
      rw [hroot, hshift, hblock, ← Nat.add_assoc]
      -- The parity of `j` says which half of the block it comes from.
      rcases Nat.mod_two_eq_zero_or_one j with hparity | hparity
      · have heven : 2 * (j / 2) = j := by omega
        have hlow : (2 * q + 0) * 2 ^ k + i = q * (2 * 2 ^ k) + i := by ring
        have hsign : (-1 : R) ^ j = 1 := by
          rw [← heven, pow_mul, neg_one_sq, one_pow]
        rw [hparity, hlow, stage_low hi, heven, hsign, forwardButterfly]
        ring
      · have hodd : 2 * (j / 2) + 1 = j := by omega
        have hhigh : (2 * q + 1) * 2 ^ k + i =
            q * (2 * 2 ^ k) + i + 2 ^ k := by
          ring
        have hsign : (-1 : R) ^ j = -1 := by
          rw [← hodd, pow_succ, pow_mul, neg_one_sq, one_pow, one_mul]
        have hpow : root (k + 1) ^ (i * j) =
            root (k + 1) ^ i * root (k + 1) ^ (i * (2 * (j / 2))) := by
          rw [← pow_add]
          congr 1
          calc
            i * j = i * (2 * (j / 2) + 1) := by rw [hodd]
            _ = _ := by ring
        rw [hparity, hhigh, stage_high hi, hsign, hpow, forwardButterfly]
        ring

/-- The cyclic convolution of the first `n` values of two sequences. -/
def cyclicConvolution (n : Nat) (v w : Nat → R) (k : Nat) : R :=
  ∑ i ∈ range n, v i * w ((k + (n - i)) % n)

/-- The values at a root of unity of a convolution are products of values. -/
theorem sum_cyclicConvolution {n : Nat} {ω : R} (hω : ω ^ n = 1)
    (v w : Nat → R) :
    ∑ k ∈ range n, cyclicConvolution n v w k * ω ^ k =
      (∑ i ∈ range n, v i * ω ^ i) * ∑ t ∈ range n, w t * ω ^ t := by
  have hmod (e : Nat) : ω ^ (e % n) = ω ^ e := by
    conv_rhs => rw [← Nat.div_add_mod e n, pow_add, pow_mul, hω, one_pow,
      one_mul]
  -- For each term of the first sequence, the second one is rotated.
  have hrotate (i : Nat) (hi : i ∈ range n) :
      ∑ k ∈ range n, w ((k + (n - i)) % n) * ω ^ k =
        ω ^ i * ∑ t ∈ range n, w t * ω ^ t := by
    have hi := mem_range.mp hi
    have hpos : 0 < n := Nat.zero_lt_of_lt hi
    have hback (t : Nat) (ht : t < n) : ((t + i) % n + (n - i)) % n = t := by
      rw [Nat.mod_add_mod, Nat.add_assoc, Nat.add_sub_cancel' hi.le,
        Nat.add_mod_right, Nat.mod_eq_of_lt ht]
    have hforth (k : Nat) (hk : k < n) : ((k + (n - i)) % n + i) % n = k := by
      rw [Nat.mod_add_mod, Nat.add_assoc, Nat.sub_add_cancel hi.le,
        Nat.add_mod_right, Nat.mod_eq_of_lt hk]
    rw [mul_sum]
    symm
    apply sum_bij' (fun t _ => (t + i) % n) (fun k _ => (k + (n - i)) % n)
    · intro t _
      exact mem_range.mpr (Nat.mod_lt _ hpos)
    · intro k _
      exact mem_range.mpr (Nat.mod_lt _ hpos)
    · intro t ht
      exact hback t (mem_range.mp ht)
    · intro k hk
      exact hforth k (mem_range.mp hk)
    · intro t ht
      rw [hback t (mem_range.mp ht), hmod, pow_add]
      ring
  calc
    _ = ∑ k ∈ range n, ∑ i ∈ range n,
          v i * (w ((k + (n - i)) % n) * ω ^ k) := by
      apply sum_congr rfl
      intro k _
      rw [cyclicConvolution, sum_mul]
      apply sum_congr rfl
      intro i _
      rw [mul_assoc]
    _ = ∑ i ∈ range n, v i * ω ^ i * ∑ t ∈ range n, w t * ω ^ t := by
      rw [sum_comm]
      apply sum_congr rfl
      intro i hi
      rw [← mul_sum, hrotate i hi, mul_assoc]
    _ = _ := by rw [sum_mul]

theorem RootChain.pow_eq_one {n k : Nat} {root : Nat → R}
    (h : RootChain n root) (hone : root 0 = 1) (hk : k ≤ n) :
    root k ^ 2 ^ k = 1 := by
  cases k with
  | zero => rw [hone, one_pow]
  | succ k => rw [pow_succ, pow_mul, h.half k hk, neg_one_sq]

/-- The transform of a cyclic convolution is the product of the transforms. -/
theorem forward_cyclicConvolution {n k : Nat} {root : Nat → R}
    (h : RootChain n root) (hone : root 0 = 1) (hk : k ≤ n) (v w : Nat → R)
    {p : Nat} (hp : p < 2 ^ k) :
    forward root k (cyclicConvolution (2 ^ k) v w) p =
      forward root k v p * forward root k w p := by
  have hvalue (u : Nat → R) : forward root k u p =
      ∑ i ∈ range (2 ^ k), u i * (root k ^ bitReverse k p) ^ i := by
    have hblock := forward_bitReverse h hk u 0 (bitReverse_lt k p)
    rw [Nat.zero_mul, Nat.zero_add, bitReverse_bitReverse hp] at hblock
    rw [hblock]
    apply sum_congr rfl
    intro i _
    rw [Nat.zero_add, ← pow_mul, Nat.mul_comm i]
  have hω : (root k ^ bitReverse k p) ^ 2 ^ k = 1 := by
    rw [← pow_mul, Nat.mul_comm, pow_mul, h.pow_eq_one hone hk, one_pow]
  rw [hvalue, hvalue, hvalue, sum_cyclicConvolution hω]

/-- A stage of the inverse transform commutes with scaling. -/
theorem stage_inverse_scale (stride : Nat) (ω c : R) (v : Nat → R) :
    stage stride (inverseButterfly ω) (fun p => c * v p) =
      fun p => c * stage stride (inverseButterfly ω) v p := by
  funext p
  simp only [stage, inverseButterfly]
  split
  · ring
  · ring

/-- A stage of the inverse transform undoes the stage of the transform, but
for a factor of two. -/
theorem stage_inverse_forward {stride : Nat} (hpos : 0 < stride) {ω ω' : R}
    (hinverse : ω * ω' = 1) (v : Nat → R) :
    stage stride (inverseButterfly ω') (stage stride (forwardButterfly ω) v) =
      fun p => 2 * v p := by
  have hpow (i : Nat) : ω ^ i * ω' ^ i = 1 := by
    rw [← mul_pow, hinverse, one_pow]
  funext p
  obtain ⟨q, i, hi, rfl | rfl⟩ := exists_pair hpos p
  · rw [stage_low hi, stage_low hi, stage_high hi, inverseButterfly,
      forwardButterfly]
    linear_combination (v (q * (2 * stride) + i) -
      v (q * (2 * stride) + i + stride)) * hpow i
  · rw [stage_high hi, stage_low hi, stage_high hi, inverseButterfly,
      forwardButterfly]
    linear_combination (v (q * (2 * stride) + i + stride) -
      v (q * (2 * stride) + i)) * hpow i

/-- The inverse transform undoes the transform, but for the size. -/
theorem inverse_forward {root root' : Nat → R} {k : Nat}
    (hinverse : ∀ i, i < k → root (i + 1) * root' (i + 1) = 1)
    (v : Nat → R) :
    inverse root' k (forward root k v) = fun p => 2 ^ k * v p := by
  induction k generalizing v with
  | zero =>
      funext p
      rw [pow_zero, one_mul]
      rfl
  | succ k ih =>
      rw [inverse, forward,
        ih (fun i hi => hinverse i (Nat.lt_succ_of_lt hi)), stage_inverse_scale,
        stage_inverse_forward (Nat.two_pow_pos k)
          (hinverse k (Nat.lt_succ_self k))]
      funext p
      ring

end Transform

end Ntt
