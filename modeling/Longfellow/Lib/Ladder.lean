/-
Combinations of three points of a group by the bits of three numbers, the
highest bits first.
-/
import Mathlib.Data.ZMod.Basic
import Mathlib.GroupTheory.OrderOfElement
import Mathlib.Tactic.Abel

namespace Ladder

variable {M : Type} [AddCommGroup M]

/-- The sum of multiples of three points. -/
def combination (P Q R : M) (k l m : Nat) : M := k • P + l • Q + m • R

/-- The entry of the table for three bits is added to the double of what the
higher bits give. -/
theorem combination_double_add (P Q R : M) (k l m : Nat) :
    combination P Q R k l m =
      combination P Q R (k / 2) (l / 2) (m / 2) +
        combination P Q R (k / 2) (l / 2) (m / 2) +
          combination P Q R (k % 2) (l % 2) (m % 2) := by
  have hbits (k : Nat) (P : M) : k • P = (k / 2) • P + (k / 2) • P +
      (k % 2) • P := by
    rw [← add_nsmul, ← add_nsmul]
    congr 1
    omega
  simp only [combination]
  rw [hbits k P, hbits l Q, hbits m R]
  abel

theorem combination_zero (P Q R : M) : combination P Q R 0 0 0 = 0 := by
  simp [combination]

/-- What the bits above a position give. -/
def rung (P Q R : M) (k l m position : Nat) : M :=
  combination P Q R (k / 2 ^ position) (l / 2 ^ position) (m / 2 ^ position)

theorem rung_start (P Q R : M) {k l m n : Nat} (hk : k < 2 ^ n)
    (hl : l < 2 ^ n) (hm : m < 2 ^ n) : rung P Q R k l m n = 0 := by
  rw [rung, Nat.div_eq_of_lt hk, Nat.div_eq_of_lt hl, Nat.div_eq_of_lt hm,
    combination_zero]

theorem rung_zero (P Q R : M) (k l m : Nat) :
    rung P Q R k l m 0 = combination P Q R k l m := by
  simp only [rung, pow_zero, Nat.div_one]

theorem rung_double_add (P Q R : M) (k l m position : Nat) :
    rung P Q R k l m position =
      rung P Q R k l m (position + 1) + rung P Q R k l m (position + 1) +
        combination P Q R (k / 2 ^ position % 2) (l / 2 ^ position % 2)
          (m / 2 ^ position % 2) := by
  have hdiv (v : Nat) : v / 2 ^ (position + 1) = v / 2 ^ position / 2 := by
    rw [pow_succ, Nat.div_div_eq_div_mul]
  rw [rung, combination_double_add, rung, hdiv, hdiv, hdiv]

section Order

variable {n : Nat}

/-- In a group of exponent `n`, multiples are told modulo `n`. -/
theorem nsmul_eq_of_cast_eq (hn : ∀ P : M, n • P = 0) {k l : Nat}
    (h : (k : ZMod n) = l) (P : M) : k • P = l • P := by
  refine nsmul_eq_nsmul_iff_modEq.mpr ?_
  have hmod := (ZMod.natCast_eq_natCast_iff k l n).mp h
  exact hmod.of_dvd (addOrderOf_dvd_of_nsmul_eq_zero (hn P))

/-- The combination of `P`, `Q` and the negative multiple of a point vanishes
when the multiple of the point is a combination of `P` and `Q`. -/
theorem combination_eq_zero (hn : ∀ P : M, n • P = 0) {P Q : M}
    {u v s k l : Nat} (hs : s ≤ n) (hk : (s * u : ZMod n) = k)
    (hl : (s * v : ZMod n) = l) :
    combination P Q (u • P + v • Q) k l (n - s) = 0 := by
  have hmultiple : s • (u • P + v • Q) = k • P + l • Q := by
    have hP : (s * u) • P = k • P :=
      nsmul_eq_of_cast_eq hn (by rw [Nat.cast_mul, hk]) P
    have hQ : (s * v) • Q = l • Q :=
      nsmul_eq_of_cast_eq hn (by rw [Nat.cast_mul, hl]) Q
    rw [nsmul_add, smul_smul, smul_smul, hP, hQ]
  rw [combination, ← hmultiple, ← add_nsmul, Nat.add_sub_of_le hs, hn]

end Order

end Ladder
