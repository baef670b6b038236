/-
Fields of prime order with their little-endian residue codec, and the field
with modulus `2^128 - 2^108 + 1`.
-/
import Longfellow.Codec
import Longfellow.Transcript
import Mathlib.NumberTheory.LucasPrimality
import Mathlib.Tactic.NormNum.Prime

namespace Longfellow

open Exec Bytes FiatShamirPseudoRandomFunction

namespace Numerals

/-- The numerals in constants of the code are elements of a field by these
names. -/
scoped instance two : Nat.AtLeastTwo 2 := inferInstance

scoped instance three : Nat.AtLeastTwo 3 := inferInstance

scoped instance four : Nat.AtLeastTwo 4 := inferInstance

scoped instance seven : Nat.AtLeastTwo 7 := inferInstance

scoped instance eight : Nat.AtLeastTwo 8 := inferInstance

end Numerals

section Residue

variable (p n : Nat)

/-- Read a residue from exactly `n` bytes. -/
def residueTryFrom (bytes : List UInt8) : Option (ZMod p) :=
  if bytes.length = n ∧ ofLeBytes bytes < p then some (ofLeBytes bytes)
  else none

/-- Write a residue in `n` bytes. -/
def residueEncode (x : ZMod p) : List UInt8 := leBytes n x.val

/-- Decode a residue from bytes that have been read. -/
def residueOfBytes (bytes : List UInt8) : Decoder (ZMod p) :=
  match residueTryFrom p n bytes with
  | some x => pure x
  | none => fun _ => fail "serialized element is not less than the modulus"

/-- Decode a residue. -/
def residueDecode : Decoder (ZMod p) := do
  let bytes ← Decoder.takeBytes n "failed to read element"
  residueOfBytes p n bytes

/-- The codec of a prime field, which is its own subfield. -/
@[reducible] def residueCodec (numBits : Nat) (fieldId : FieldId) :
    CodecFieldElement (ZMod p) where
  numBits
  fieldId
  updateCircuitId := leBytes 8 1 ++ residueEncode p n (-1)
  tryFrom := residueTryFrom p n
  encode := residueEncode p n
  decode := residueDecode p n
  isInSubfield _ := true
  encodeInSubfield x := pure (residueEncode p n x)
  decodeInSubfield := residueDecode p n

variable {p n}

theorem residueTryFrom_encode [NeZero p] (hp : p ≤ 256 ^ n) (x : ZMod p) :
    residueTryFrom p n (residueEncode p n x) = some x := by
  have hlt : x.val < p := ZMod.val_lt x
  have hread : ofLeBytes (leBytes n x.val) = x.val :=
    ofLeBytes_leBytes n (hlt.trans_le hp)
  simp [residueTryFrom, residueEncode, hread, hlt]

theorem residueDecode_reads [NeZero p] (hp : p ≤ 256 ^ n) (x : ZMod p) :
    Decoder.Reads (residueDecode p n) (residueEncode p n x) x := by
  have hlength : (residueEncode p n x).length = n := by simp [residueEncode]
  have hlast : Decoder.Reads
      (residueOfBytes p n (residueEncode p n x)) [] x := by
    rw [residueOfBytes, residueTryFrom_encode hp]
    exact Decoder.Reads.pure x
  have hread := (Decoder.takeBytes_reads hlength "failed to read element").bind
    hlast
  rwa [List.append_nil] at hread

theorem residueDecode_safe :
    Decoder.Safe (residueDecode p n) fun _ => True := by
  refine (Decoder.takeBytes_safe n _).bind fun bytes _ => ?_
  unfold residueOfBytes
  cases residueTryFrom p n bytes with
  | none => exact Decoder.Safe.fail _
  | some x => exact Decoder.Safe.pure trivial

theorem residueCodec_lawful [NeZero p] {numBits : Nat} {fieldId : FieldId}
    (hn : (numBits + 7) / 8 = n) (hp : p ≤ 256 ^ n) :
    @LawfulCodec (ZMod p) (residueCodec p n numBits fieldId) := by
  let _ := residueCodec p n numBits fieldId
  exact
    { length_encode := fun x => by
        change (residueEncode p n x).length = (numBits + 7) / 8
        simp [residueEncode, hn]
      decode_reads := residueDecode_reads hp
      decode_safe := residueDecode_safe
      decodeInSubfield_reads := fun x _ =>
        ⟨residueEncode p n x, rfl, residueDecode_reads hp x⟩
      decodeInSubfield_safe := residueDecode_safe
      encodeInSubfield_fails := fun x h => absurd rfl h }

theorem residueCodec_canonical [NeZero p] {numBits : Nat} {fieldId : FieldId}
    (hp : p ≤ 256 ^ n) :
    @CanonicalCodec (ZMod p) (residueCodec p n numBits fieldId) := by
  let _ := residueCodec p n numBits fieldId
  refine @CanonicalCodec.mk (ZMod p) (residueCodec p n numBits fieldId) ?_
  intro bs x rest
  constructor
  · intro h
    obtain ⟨bytes, mid, hbytes, hlast⟩ := Decoder.bind_eq_ok.mp h
    obtain ⟨hlength, rfl⟩ := (Decoder.Format.takeBytes n _ _ _ _).mp hbytes
    refine ⟨trivial, ?_⟩
    rw [residueOfBytes, residueTryFrom] at hlast
    by_cases hlt : ofLeBytes bytes < p
    · rw [if_pos ⟨hlength, hlt⟩] at hlast
      obtain ⟨rfl, rfl⟩ := Decoder.pure_eq_ok.mp hlast
      change bytes ++ mid = residueEncode p n (ofLeBytes bytes : ZMod p) ++ mid
      rw [residueEncode, ZMod.val_natCast, Nat.mod_eq_of_lt hlt, ← hlength,
        leBytes_ofLeBytes]
    · rw [if_neg fun h => hlt h.2] at hlast
      cases hlast
  · rintro ⟨-, rfl⟩
    exact residueDecode_reads hp x rest

end Residue

section Modulus

/-- The modulus of `FieldP128`. -/
def modulusP128 : Nat := 0xfffff000000000000000000000000001

/-- Square a residue `k` times. -/
def squares (m : Nat) : Nat → Nat → Nat
  | 0, x => x
  | k + 1, x => squares m k (x * x % m)

theorem cast_squares (m k x : Nat) :
    ((squares m k x : Nat) : ZMod m) = (x : ZMod m) ^ 2 ^ k := by
  induction k generalizing x with
  | zero => simp [squares]
  | succ k ih =>
      rw [squares, ih, ZMod.natCast_mod, Nat.cast_mul, pow_succ' 2 k, pow_mul]
      ring

theorem pow_eq_cast_squares (m k e x : Nat) :
    (x : ZMod m) ^ (e * 2 ^ k) =
      ((squares m k (x ^ e % m) : Nat) : ZMod m) := by
  rw [cast_squares, ZMod.natCast_mod, Nat.cast_pow, pow_mul]

/-- A residue of order `p - 1`, from the factors of `p - 1`. -/
theorem prime_modulusP128 : modulusP128.Prime := by
  have hfactor : modulusP128 - 1 = 1048575 * 2 ^ 108 := by decide
  have hne : ∀ k e, squares modulusP128 k (59 ^ e % modulusP128) %
        modulusP128 ≠ 1 →
      ((59 : Nat) : ZMod modulusP128) ^ (e * 2 ^ k) ≠ 1 := by
    intro k e h hone
    rw [pow_eq_cast_squares, ← Nat.cast_one, ZMod.natCast_eq_natCast_iff'] at hone
    rw [hone] at h
    exact h (by decide)
  refine lucas_primality modulusP128 ((59 : Nat) : ZMod modulusP128) ?_ ?_
  · rw [hfactor, pow_eq_cast_squares, ← Nat.cast_one,
      ZMod.natCast_eq_natCast_iff']
    decide +kernel
  · intro q hq hdvd
    have hsame : modulusP128 - 1 = 2 ^ 108 * 3 * 5 ^ 2 * 11 * 31 * 41 := by
      decide
    rw [hsame] at hdvd
    simp only [hq.dvd_mul] at hdvd
    have hbase (r : Nat) (hr : r.Prime) (h : q ∣ r) : q = r :=
      (Nat.prime_dvd_prime_iff_eq hq hr).mp h
    have hcases : q = 2 ∨ q = 3 ∨ q = 5 ∨ q = 11 ∨ q = 31 ∨ q = 41 := by
      rcases hdvd with ((((h | h) | h) | h) | h) | h
      · exact Or.inl (hbase 2 (by norm_num) (hq.dvd_of_dvd_pow h))
      · exact Or.inr (Or.inl (hbase 3 (by norm_num) h))
      · exact Or.inr (Or.inr (Or.inl
          (hbase 5 (by norm_num) (hq.dvd_of_dvd_pow h))))
      · have := hbase 11 (by norm_num) h
        omega
      · have := hbase 31 (by norm_num) h
        omega
      · have := hbase 41 (by norm_num) h
        omega
    have hdiv (e k : Nat) (h : (modulusP128 - 1) / q = e * 2 ^ k)
        (hsq : squares modulusP128 k (59 ^ e % modulusP128) %
          modulusP128 ≠ 1) :
        ((59 : Nat) : ZMod modulusP128) ^ ((modulusP128 - 1) / q) ≠ 1 := by
      rw [h]
      exact hne k e hsq
    rcases hcases with rfl | rfl | rfl | rfl | rfl | rfl
    · exact hdiv 1048575 107 (by decide +kernel) (by decide +kernel)
    · exact hdiv 349525 108 (by decide +kernel) (by decide +kernel)
    · exact hdiv 209715 108 (by decide +kernel) (by decide +kernel)
    · exact hdiv 95325 108 (by decide +kernel) (by decide +kernel)
    · exact hdiv 33825 108 (by decide +kernel) (by decide +kernel)
    · exact hdiv 25575 108 (by decide +kernel) (by decide +kernel)

end Modulus

/-- The field with modulus `2^128 - 2^108 + 1`. -/
abbrev FieldP128 := ZMod modulusP128

instance : Fact modulusP128.Prime := ⟨prime_modulusP128⟩

instance : ProofFieldElement FieldP128 where
  toCodecFieldElement := residueCodec modulusP128 16 128 .fp128
  largeCharacteristic := true
  sumcheckP2 := (2 : Nat)
  sumcheckP2MulInv := (0x7ffff800000000000000000000000001 : Nat)
  oneMinusSumcheckP2MulInv := (0xfffff000000000000000000000000000 : Nat)
  sumcheckP2SquaredMinusSumcheckP2MulInv :=
    (0x7ffff800000000000000000000000001 : Nat)

instance : LawfulCodec FieldP128 :=
  residueCodec_lawful (by decide) (by decide)

instance : CanonicalCodec FieldP128 := residueCodec_canonical (by decide)

instance : LawfulProofField FieldP128 where
  sumcheckP2_mul_inv := by decide
  one_minus_sumcheckP2_mul_inv := by decide
  sumcheckP2_squared_minus_sumcheckP2_mul_inv := by decide
  sumcheckP2_of_large _ := by decide

end Longfellow
