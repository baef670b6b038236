/-
A certificate that a cubic polynomial has no root modulo a prime: modulo the
polynomial, the Frobenius power of the variable minus the variable is a unit.
-/
import Mathlib.FieldTheory.Finite.Basic
import Mathlib.Tactic.LinearCombination

namespace CubicRoots

/-- A polynomial of degree at most two. -/
structure Residue (F : Type) where
  c0 : F
  c1 : F
  c2 : F
deriving DecidableEq

variable {F : Type} [Field F]

/-- The product modulo `x³ + a x + b`. -/
def mul (a b : F) (u v : Residue F) : Residue F :=
  let e3 := u.c1 * v.c2 + u.c2 * v.c1
  let e4 := u.c2 * v.c2
  ⟨u.c0 * v.c0 - b * e3, u.c0 * v.c1 + u.c1 * v.c0 - a * e3 - b * e4,
    u.c0 * v.c2 + u.c1 * v.c1 + u.c2 * v.c0 - a * e4⟩

/-- `acc * base ^ e` for an exponent of `k` bits. -/
def power (a b : F) : Nat → Nat → Residue F → Residue F → Residue F
  | 0, _, _, acc => acc
  | k + 1, e, base, acc =>
      power a b k (e / 2) (mul a b base base)
        (if e % 2 = 1 then mul a b acc base else acc)

def value (u : Residue F) (x : F) : F := u.c0 + u.c1 * x + u.c2 * x ^ 2

section Value

variable {a b x : F}

theorem value_mul (hx : x ^ 3 + a * x + b = 0) (u v : Residue F) :
    value (mul a b u v) x = value u x * value v x := by
  simp only [value, mul]
  linear_combination
    -(u.c1 * v.c2 + u.c2 * v.c1 + u.c2 * v.c2 * x) * hx

theorem value_power (hx : x ^ 3 + a * x + b = 0) (k : Nat) {e : Nat}
    (he : e < 2 ^ k) (base acc : Residue F) :
    value (power a b k e base acc) x =
      value acc x * value base x ^ e := by
  induction k generalizing e base acc with
  | zero =>
      obtain rfl : e = 0 := by omega
      rw [power, pow_zero, mul_one]
  | succ k ih =>
      have hhalf : e / 2 < 2 ^ k := by
        rw [pow_succ] at he
        omega
      have hsplit : e = e % 2 + 2 * (e / 2) := by omega
      rw [power, ih hhalf, value_mul hx, ← sq, ← pow_mul]
      rcases Nat.mod_two_eq_zero_or_one e with hbit | hbit
      · rw [if_neg (by omega)]
        congr 2
        omega
      · rw [if_pos hbit, value_mul hx, mul_assoc, ← pow_succ']
        congr 2
        omega

end Value

/-- The power of the variable minus the variable. -/
def frobenius (a b : F) (k p : Nat) : Residue F :=
  let power := power a b k p ⟨0, 1, 0⟩ ⟨1, 0, 0⟩
  ⟨power.c0, power.c1 - 1, power.c2⟩

theorem ne_zero_of_inverse {p : Nat} [Fact p.Prime] {a b : ZMod p} {k : Nat}
    (hp : p < 2 ^ k) {u : Residue (ZMod p)}
    (hu : mul a b (frobenius a b k p) u = ⟨1, 0, 0⟩) (x : ZMod p) :
    x ^ 3 + a * x + b ≠ 0 := by
  intro hx
  have hpower := value_power hx k hp ⟨0, 1, 0⟩ ⟨1, 0, 0⟩
  have hvariable : value ⟨0, 1, 0⟩ x = x := by simp [value]
  have hone : value ⟨1, 0, 0⟩ x = 1 := by simp [value]
  rw [hvariable, ZMod.pow_card, hone, one_mul] at hpower
  have hzero : value (frobenius a b k p) x = 0 := by
    simp only [value, frobenius] at hpower ⊢
    linear_combination hpower
  have hunit := value_mul hx (frobenius a b k p) u
  rw [hu, hzero, zero_mul, hone] at hunit
  exact one_ne_zero hunit

end CubicRoots
