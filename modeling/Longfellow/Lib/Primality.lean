/-
Primality certificates: an element whose order is the predecessor of a number
shows that the number is prime. Powers are taken by repeated squaring, so that
certificates can be evaluated.
-/
import Mathlib.NumberTheory.LucasPrimality

namespace Primality

/-- `acc * base ^ e` for an exponent of `k` bits, modulo `m`. -/
def powMod (m : Nat) : Nat → Nat → Nat → Nat → Nat
  | 0, _, _, acc => acc % m
  | k + 1, e, base, acc =>
      powMod m k (e / 2) (base * base % m) (acc * base ^ (e % 2) % m)

theorem cast_powMod (m k : Nat) {e : Nat} (he : e < 2 ^ k) (base acc : Nat) :
    ((powMod m k e base acc : Nat) : ZMod m) =
      (acc : ZMod m) * (base : ZMod m) ^ e := by
  induction k generalizing e base acc with
  | zero =>
      obtain rfl : e = 0 := by omega
      simp [powMod]
  | succ k ih =>
      have hhalf : e / 2 < 2 ^ k := by
        rw [pow_succ] at he
        omega
      have hsplit : e = e % 2 + 2 * (e / 2) := by omega
      rw [powMod, ih hhalf, ZMod.natCast_mod, ZMod.natCast_mod, Nat.cast_mul,
        Nat.cast_mul, Nat.cast_pow, ← pow_two, ← pow_mul, mul_assoc, ← pow_add,
        ← hsplit]

/-- A certificate: a base and the prime factors of `p - 1`, with their
exponents. -/
structure Certificate (p k base : Nat) (factors : List (Nat × Nat)) : Prop where
  product : (factors.map fun f => f.1 ^ f.2).prod = p - 1
  size : p - 1 < 2 ^ k
  one_lt : 1 < p
  order : powMod p k (p - 1) base 1 = 1
  proper : ∀ f ∈ factors, powMod p k ((p - 1) / f.1) base 1 ≠ 1

instance (p k base : Nat) (factors : List (Nat × Nat)) :
    Decidable (Certificate p k base factors) :=
  decidable_of_iff
    ((factors.map fun f => f.1 ^ f.2).prod = p - 1 ∧ p - 1 < 2 ^ k ∧ 1 < p ∧
      powMod p k (p - 1) base 1 = 1 ∧
      ∀ f ∈ factors, powMod p k ((p - 1) / f.1) base 1 ≠ 1)
    ⟨fun ⟨h1, h2, h3, h4, h5⟩ => ⟨h1, h2, h3, h4, h5⟩,
      fun ⟨h1, h2, h3, h4, h5⟩ => ⟨h1, h2, h3, h4, h5⟩⟩

theorem powMod_lt {m : Nat} (hm : 0 < m) (k e base acc : Nat) :
    powMod m k e base acc < m := by
  induction k generalizing e base acc with
  | zero => exact Nat.mod_lt acc hm
  | succ k ih => exact ih _ _ _

/-- A number with a certificate from primes is prime. -/
theorem Certificate.prime {p k base : Nat} {factors : List (Nat × Nat)}
    (h : Certificate p k base factors)
    (hprime : ∀ f ∈ factors, f.1.Prime) : p.Prime := by
  have hpow (e : Nat) (he : e ≤ p - 1) :
      (base : ZMod p) ^ e = ((powMod p k e base 1 : Nat) : ZMod p) := by
    rw [cast_powMod p k (he.trans_lt h.size), Nat.cast_one, one_mul]
  apply lucas_primality p (base : ZMod p)
  · rw [hpow _ le_rfl, h.order, Nat.cast_one]
  · intro q hq hdvd hone
    rw [← h.product] at hdvd
    obtain ⟨power, hpower, hdvd⟩ := (hq.prime.dvd_prod_iff).mp hdvd
    obtain ⟨f, hf, rfl⟩ := List.mem_map.mp hpower
    have heq : q = f.1 := (Nat.prime_dvd_prime_iff_eq hq (hprime f hf)).mp
      (hq.dvd_of_dvd_pow hdvd)
    subst heq
    have hcast : ((powMod p k ((p - 1) / f.1) base 1 : Nat) : ZMod p) =
        ((1 : Nat) : ZMod p) := by
      rw [← hpow _ (Nat.div_le_self _ _), hone, Nat.cast_one]
    rw [ZMod.natCast_eq_natCast_iff', Nat.mod_eq_of_lt h.one_lt,
      Nat.mod_eq_of_lt (powMod_lt (Nat.lt_of_succ_lt h.one_lt) _ _ _ _)]
      at hcast
    exact h.proper f hf hcast

end Primality
