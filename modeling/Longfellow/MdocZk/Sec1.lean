/-
The encodings of points that SEC 1 defines, and that decoding accepts exactly
these.
-/
import Longfellow.Fields.P256
import Longfellow.MdocZk.Ec

namespace Longfellow

namespace FieldP256

theorem sqrt_eq (x : FieldP256) :
    ∃ e, 2 * (e + e) = modulusP256 + 1 ∧
      sqrt x = if x ^ e * x ^ e = x then some (x ^ e) else none := by
  have hexponent : 2 * ((modulusP256 + 1) / 4 + (modulusP256 + 1) / 4) =
      modulusP256 + 1 := by decide
  unfold sqrt
  generalize (modulusP256 + 1) / 4 = e at hexponent
  exact ⟨e, hexponent, rfl⟩

theorem sqrt_eq_some {x y : FieldP256} (h : sqrt x = some y) : y ^ 2 = x := by
  obtain ⟨e, -, hsqrt⟩ := sqrt_eq x
  rw [hsqrt] at h
  split at h
  · next hsq =>
      cases h
      rw [sq, hsq]
  · cases h

/-- The exponentiation finds the root of every square, since the modulus is
three modulo four. -/
theorem exists_sqrt {x r : FieldP256} (h : r ^ 2 = x) :
    ∃ y, sqrt x = some y := by
  obtain ⟨e, hexponent, hsqrt⟩ := sqrt_eq x
  have hcandidate : x ^ e * x ^ e = x := by
    rw [← pow_add, ← h, ← pow_mul, hexponent, pow_succ, ZMod.pow_card, sq]
  rw [if_pos hcandidate] at hsqrt
  exact ⟨_, hsqrt⟩

/-- Of two opposite roots other than zero, one is even and one is odd. -/
theorem val_neg_mod_two {y : FieldP256} (hy : y ≠ 0) :
    (-y).val % 2 ≠ y.val % 2 := by
  have : NeZero y := ⟨hy⟩
  have hodd : modulusP256 % 2 = 1 := by decide
  have hlt := ZMod.val_lt y
  rw [ZMod.val_neg_of_ne_zero]
  omega

end FieldP256

namespace MdocZk

open Exec

open scoped Numerals

/-- The big-endian bytes of a coordinate. -/
def coordinateBytes (x : FieldP256) : List UInt8 :=
  (Bytes.leBytes 32 x.val).reverse

/-- The equation of the curve. -/
def OnP256 (x y : FieldP256) : Prop := y ^ 2 = x ^ 3 - 3 * x + p256B

/-- The encodings of a point. -/
inductive Sec1 : AffinePoint → List UInt8 → Prop
  | infinity : Sec1 .infinity [0]
  | uncompressed {x y : FieldP256} (h : OnP256 x y) :
      Sec1 (.new x y) (4 :: coordinateBytes x ++ coordinateBytes y)
  | compressed {x y : FieldP256} {first : UInt8} (h : OnP256 x y)
      (hfirst : first = 2 ∨ first = 3)
      (hparity : y.val % 2 = first.toNat % 2) :
      Sec1 (.new x y) (first :: coordinateBytes x)

section Decode

theorem length_coordinateBytes (x : FieldP256) :
    (coordinateBytes x).length = 32 := by simp [coordinateBytes]

theorem curve_eq (x : FieldP256) :
    AffinePoint.curve x = x ^ 3 - 3 * x + p256B := by
  have ha : p256A = -3 := by decide
  rw [AffinePoint.curve, ha]
  ring

theorem onP256_iff {x y : FieldP256} :
    OnP256 x y ↔ y ^ 2 = x ^ 3 + P256.coefficientA * x + P256.coefficientB := by
  have hb : p256B = P256.coefficientB := rfl
  rw [OnP256, P256.coefficientA, hb, neg_mul, sub_eq_add_neg]

theorem OnP256.neg {x y : FieldP256} (h : OnP256 x y) : OnP256 x (-y) := by
  rw [OnP256, neg_sq]
  exact h

theorem OnP256.ne_zero {x y : FieldP256} (h : OnP256 x y) : y ≠ 0 :=
  P256.rootless.y_ne_zero (onP256_iff.mp h)

theorem decodeFieldElement_coordinateBytes (x : FieldP256) :
    decodeFieldElement (coordinateBytes x) = .ok x := by
  have hread : residueTryFrom modulusP256 32 (residueEncode modulusP256 32 x) =
      some x := residueTryFrom_encode (by decide) x
  have htry (bytes : List UInt8) : FieldP256.tryFrom bytes =
      match residueTryFrom modulusP256 32 bytes with
      | some x => pure x
      | none => Exec.fail
          "serialized FieldP256 element is not less than the modulus" := rfl
  rw [decodeFieldElement, coordinateBytes, List.reverse_reverse, htry]
  rw [residueEncode] at hread
  rw [hread]
  rfl

theorem decodeFieldElement_eq_ok {bytes : List UInt8} {x : FieldP256} :
    decodeFieldElement bytes = .ok x ↔ bytes = coordinateBytes x := by
  constructor
  · intro h
    have hbytes := FieldP256.encode_of_tryFrom h
    rw [coordinateBytes, ← List.reverse_eq_iff]
    exact hbytes.symm
  · rintro rfl
    exact decodeFieldElement_coordinateBytes x

/-- The root of the given parity is chosen. -/
theorem chosen_eq {first : UInt8} {y beta : FieldP256} (hy : y ≠ 0)
    (hsq : beta ^ 2 = y ^ 2) (hparity : y.val % 2 = first.toNat % 2) :
    (if first.toNat % 2 = beta.val % 2 then beta else -beta) = y := by
  rcases sq_eq_sq_iff_eq_or_eq_neg.mp hsq with rfl | rfl
  · rw [if_pos hparity.symm]
  · have hne := FieldP256.val_neg_mod_two hy
    rw [if_neg (by rw [← hparity]; exact hne.symm), neg_neg]

theorem decodeCompressed_eq_ok {first : UInt8} {rest : List UInt8}
    {point : AffinePoint} :
    AffinePoint.decodeCompressed first rest = .ok point ↔
      ∃ x y, OnP256 x y ∧ (first = 2 ∨ first = 3) ∧
        y.val % 2 = first.toNat % 2 ∧ rest = coordinateBytes x ∧
        point = .new x y := by
  constructor
  · intro h
    obtain ⟨x, hx, h⟩ := Exec.bind_eq_ok.mp h
    obtain ⟨_, hfirst, h⟩ := Exec.bind_eq_ok.mp h
    have hfirst := ensure_eq_ok.mp hfirst
    split at h
    · cases h
    · next beta hbeta =>
        cases h
        have hroot : OnP256 x beta := by
          rw [OnP256, ← curve_eq]
          exact FieldP256.sqrt_eq_some hbeta
        refine ⟨x, _, ?_, hfirst, ?_, decodeFieldElement_eq_ok.mp hx, rfl⟩
        · split
          · exact hroot
          · exact hroot.neg
        · have hne := FieldP256.val_neg_mod_two hroot.ne_zero
          split
          · next hsame => exact hsame.symm
          · omega
  · rintro ⟨x, y, hroot, hfirst, hparity, rfl, rfl⟩
    have hcurve : y ^ 2 = AffinePoint.curve x := by
      rw [curve_eq]
      exact hroot
    obtain ⟨beta, hbeta⟩ := FieldP256.exists_sqrt hcurve
    have hsq : beta ^ 2 = y ^ 2 := by
      rw [FieldP256.sqrt_eq_some hbeta, hcurve]
    rw [AffinePoint.decodeCompressed, decodeFieldElement_coordinateBytes,
      ok_bind, ensure_of hfirst, ok_bind, hbeta]
    change Except.ok (AffinePoint.new x _) = _
    rw [chosen_eq hroot.ne_zero hsq hparity]

theorem decodeUncompressed_eq_ok {first : UInt8} {rest : List UInt8}
    {point : AffinePoint} :
    AffinePoint.decodeUncompressed first rest = .ok point ↔
      ∃ x y, OnP256 x y ∧ first = 4 ∧
        rest = coordinateBytes x ++ coordinateBytes y ∧
        point = .new x y := by
  constructor
  · intro h
    obtain ⟨_, hfirst, h⟩ := Exec.bind_eq_ok.mp h
    obtain ⟨x, hx, h⟩ := Exec.bind_eq_ok.mp h
    obtain ⟨y, hy, h⟩ := Exec.bind_eq_ok.mp h
    obtain ⟨_, hcurve, h⟩ := Exec.bind_eq_ok.mp h
    cases h
    refine ⟨x, y, ?_, ensure_eq_ok.mp hfirst, ?_, rfl⟩
    · rw [OnP256, sq, ensure_eq_ok.mp hcurve, curve_eq]
    · rw [← decodeFieldElement_eq_ok.mp hx, ← decodeFieldElement_eq_ok.mp hy,
        List.take_append_drop]
  · rintro ⟨x, y, hroot, rfl, rfl, rfl⟩
    have hcurve : y * y = AffinePoint.curve x := by
      rw [curve_eq, ← sq]
      exact hroot
    have hlength := length_coordinateBytes x
    rw [AffinePoint.decodeUncompressed, ensure_of rfl, ok_bind,
      List.take_left' hlength, List.drop_left' hlength,
      decodeFieldElement_coordinateBytes, ok_bind,
      decodeFieldElement_coordinateBytes, ok_bind, ensure_of hcurve, ok_bind]
    rfl

theorem decode_eq_ok {bytes : List UInt8} {point : AffinePoint} :
    AffinePoint.decode bytes = .ok point ↔ Sec1 point bytes := by
  constructor
  · intro h
    rw [AffinePoint.decode] at h
    split at h
    · next hzero =>
        cases h
        rw [hzero]
        exact .infinity
    · split at h
      · next hlength =>
          match bytes, hlength with
          | first :: rest, hlength =>
              obtain ⟨x, y, hroot, hfirst, hparity, rfl, rfl⟩ :=
                decodeCompressed_eq_ok.mp h
              exact .compressed hroot hfirst hparity
      · split at h
        · next hlength =>
            match bytes, hlength with
            | first :: rest, hlength =>
                obtain ⟨x, y, hroot, hfirst, hrest, rfl⟩ :=
                  decodeUncompressed_eq_ok.mp h
                change first = 4 at hfirst
                change rest = _ at hrest
                rw [hfirst, hrest]
                exact .uncompressed hroot
        · cases h
  · rintro (_ | hroot | ⟨hroot, hfirst, hparity⟩)
    · rfl
    · next x y =>
      have hlength : (4 :: coordinateBytes x ++ coordinateBytes y).length =
          65 := by
        simp [length_coordinateBytes]
      rw [AffinePoint.decode, if_neg, if_neg, if_pos hlength]
      · exact decodeUncompressed_eq_ok.mpr ⟨x, y, hroot, rfl, rfl, rfl⟩
      · rw [hlength]
        decide
      · intro hzero
        rw [hzero] at hlength
        cases hlength
    · next x y first =>
      have hlength : (first :: coordinateBytes x).length = 33 := by
        simp [length_coordinateBytes]
      rw [AffinePoint.decode, if_neg, if_pos hlength]
      · exact decodeCompressed_eq_ok.mpr
          ⟨x, y, hroot, hfirst, hparity, rfl, rfl⟩
      · intro hzero
        rw [hzero] at hlength
        cases hlength

/-- Decoding accepts exactly the encodings of points.  A compressed encoding is
accepted if the right-hand side of the equation is a square, and both encodings
of a finite point decode to the point. -/
theorem decode_exact :
    (∀ (bytes : List UInt8) (point : AffinePoint),
      AffinePoint.decode bytes = .ok point ↔ Sec1 point bytes) ∧
    (∀ (first : UInt8) (x : FieldP256), first = 2 ∨ first = 3 →
      ((∃ point, AffinePoint.decode (first :: coordinateBytes x) = .ok point) ↔
        IsSquare (x ^ 3 - 3 * x + p256B))) ∧
    ∀ x y : FieldP256, OnP256 x y →
      AffinePoint.decode (4 :: coordinateBytes x ++ coordinateBytes y) =
          .ok (.new x y) ∧
        AffinePoint.decode
          (UInt8.ofNat (2 + y.val % 2) :: coordinateBytes x) =
            .ok (.new x y) := by
  refine ⟨fun _ _ => decode_eq_ok, fun first x hfirst => ⟨?_, ?_⟩,
    fun x y h => ⟨decode_eq_ok.mpr (.uncompressed h), decode_eq_ok.mpr ?_⟩⟩
  · rintro ⟨point, h⟩
    have hlength : (first :: coordinateBytes x).length = 33 := by
      simp [length_coordinateBytes]
    rw [AffinePoint.decode, if_neg, if_pos hlength] at h
    · obtain ⟨x', y, hroot, -, -, hbytes, -⟩ := decodeCompressed_eq_ok.mp h
      have hsame : x = x' := by
        have hx := decodeFieldElement_coordinateBytes x
        rw [List.tail_cons] at hbytes
        rw [hbytes, decodeFieldElement_coordinateBytes] at hx
        exact (Except.ok.inj hx).symm
      rw [hsame]
      exact ⟨y, by rw [← sq]; exact hroot.symm⟩
    · intro hzero
      rw [hzero] at hlength
      cases hlength
  · rintro ⟨y, hy⟩
    have hroot : OnP256 x y := by rw [OnP256, hy, sq]
    by_cases hparity : y.val % 2 = first.toNat % 2
    · exact ⟨_, decode_eq_ok.mpr (.compressed hroot hfirst hparity)⟩
    · have hne := FieldP256.val_neg_mod_two hroot.ne_zero
      exact ⟨_, decode_eq_ok.mpr
        (.compressed hroot.neg hfirst (by omega))⟩
  · rcases Nat.mod_two_eq_zero_or_one y.val with hbit | hbit
    · rw [hbit]
      exact .compressed h (.inl rfl) hbit
    · rw [hbit]
      exact .compressed h (.inr rfl) hbit

end Decode

end MdocZk

end Longfellow
