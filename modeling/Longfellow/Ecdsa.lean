/-
ECDSA signatures over the P-256 elliptic curve, as relations on the points of
its group.
-/
import Longfellow.Fields.P256
import Longfellow.Lib.Ladder

namespace Longfellow

namespace P256

open ShortWeierstrass

/-- The point is the public key with two coordinates. -/
def Key (Q : Point) (x y : FieldP256) : Prop := coordinates Q = some (x, y)

/-- The point that a digest, a signature and a key determine. -/
def recovered (Q : Point) (e r s : ZMod order) : Point :=
  (e / s).val • generator + (r / s).val • Q

/-- A valid signature: both numbers are in range, and the x-coordinate of the
recovered point is the first one modulo the order. -/
structure Valid (Q : Point) (e r s : Nat) : Prop where
  r_pos : 0 < r
  r_lt : r < order
  s_pos : 0 < s
  s_lt : s < order
  reduced : ∃ x y, coordinates (recovered Q e r s) = some (x, y) ∧
    x.val % order = r

/-- None of the sums in a table of combinations is the identity. -/
structure Nondegenerate (Q R : Point) : Prop where
  generator_add_key : generator + Q ≠ 0
  generator_add_recovered : generator + R ≠ 0
  recovered_add_key : R + Q ≠ 0
  generator_add_sum : generator + (R + Q) ≠ 0

open Ladder

/-- The combination of the digest, of an x-coordinate that is the first number
modulo the order, and of the negative of the second number vanishes. -/
theorem combination_recovered {Q : Point} {e r s k l : Nat} (hs : 0 < s)
    (hlt : s < order) (hk : (k : ZMod order) = e) (hl : (l : ZMod order) = r) :
    combination generator Q (recovered Q e r s) k l (order - s) = 0 := by
  have hne : (s : ZMod order) ≠ 0 := by
    rw [Ne, ZMod.natCast_eq_zero_iff]
    exact Nat.not_dvd_of_pos_of_lt hs hlt
  refine combination_eq_zero order_nsmul hlt.le ?_ ?_
  · rw [ZMod.natCast_zmod_val, hk]
    exact mul_div_cancel₀ _ hne
  · rw [ZMod.natCast_zmod_val, hl]
    exact mul_div_cancel₀ _ hne

end P256

end Longfellow
