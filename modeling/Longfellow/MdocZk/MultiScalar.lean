/-
The witness for a signature against the group of the curve: what is accepted,
and what the values of the witness are.
-/
import Longfellow.MdocZk.Signature

namespace Longfellow

open ShortWeierstrass

section Scalars

/-- The number of a digest. -/
def Sha256Digest.value (hash : Sha256Digest) : Nat :=
  Bytes.ofBeBytes hash.bytes

theorem Sha256Digest.value_lt (hash : Sha256Digest) : hash.value < 2 ^ 256 := by
  have hlt := Bytes.ofBeBytes_lt hash.bytes
  rw [hash.length_bytes] at hlt
  exact hlt

theorem flatMap_bits (bytes : List UInt8) :
    (bytes.flatMap fun byte => (List.range 8).reverse.map byte.toNat.testBit) =
      ShortWeierstrass.bits (8 * bytes.length) (Bytes.ofBeBytes bytes) := by
  induction bytes with
  | nil => rfl
  | cons byte bytes ih =>
      have hlt : Bytes.ofBeBytes bytes < 2 ^ (8 * bytes.length) := by
        rw [pow_mul]
        exact Bytes.ofBeBytes_lt bytes
      have hvalue : Bytes.ofBeBytes (byte :: bytes) =
          2 ^ (8 * bytes.length) * byte.toNat + Bytes.ofBeBytes bytes := by
        rw [Bytes.ofBeBytes_cons, pow_mul]
        ring
      rw [List.flatMap_cons, ih, List.length_cons, Nat.mul_succ, Nat.add_comm,
        bits_add, hvalue, Nat.mul_add_div (Nat.two_pow_pos _),
        Nat.div_eq_of_lt hlt, Nat.add_zero, ← bits_eq,
        ← bits_mod (8 * bytes.length) (2 ^ _ * byte.toNat + _),
        Nat.mul_add_mod, Nat.mod_eq_of_lt hlt]

theorem Sha256Digest.bits_eq (hash : Sha256Digest) :
    hash.bits = ShortWeierstrass.bits 256 hash.value := by
  rw [Sha256Digest.bits, flatMap_bits, hash.length_bytes]
  rfl

namespace FieldP256Scalar

theorem val_lt (x : FieldP256Scalar) : x.val < 2 ^ 256 :=
  (ZMod.val_lt x).trans (by decide)

theorem bits_eq (x : FieldP256Scalar) :
    x.bits = ShortWeierstrass.bits 256 x.val := by
  have hlimb (i : Nat) : (List.range 64).reverse.map
      (x.val / 2 ^ (64 * i) % 2 ^ 64).testBit =
        ShortWeierstrass.bits 64 (x.val / 2 ^ (64 * i)) := by
    rw [← ShortWeierstrass.bits_eq, bits_mod]
  have hrange : (List.range 4).reverse = [3, 2, 1, 0] := rfl
  rw [bits, toNonMontgomery, ← List.map_reverse, List.flatMap_map, hrange]
  simp only [hlimb, List.flatMap_cons, List.flatMap_nil]
  rw [bits_add 192 64 x.val, bits_add 128 64, bits_add 64 64]
  simp only [Nat.div_div_eq_div_mul, ← pow_add, Nat.mul_zero, pow_zero,
    Nat.div_one, List.append_nil, List.append_assoc]

theorem tryFrom_eq_ok {bytes : List UInt8} {x : FieldP256Scalar} :
    tryFrom bytes = .ok x ↔ bytes.length = 32 ∧
      Bytes.ofLeBytes bytes < P256.order ∧ x = (Bytes.ofLeBytes bytes : Nat) := by
  rw [tryFrom, residueTryFrom]
  by_cases hvalid : bytes.length = 32 ∧ Bytes.ofLeBytes bytes < P256.order
  · rw [if_pos hvalid]
    constructor
    · intro hok
      cases hok
      exact ⟨hvalid.1, hvalid.2, rfl⟩
    · rintro ⟨-, -, rfl⟩
      rfl
  · rw [if_neg hvalid]
    constructor
    · intro hok
      cases hok
    · intro h
      exact absurd ⟨h.1, h.2.1⟩ hvalid

/-- The subtraction on two halves, which is kept unless it overflows. -/
theorem conditional_sub {high low mh ml : Nat} (hhigh : high < 2 ^ 128)
    (hlow : low < 2 ^ 128) (hmh : mh < 2 ^ 128) (hml : ml < 2 ^ 128)
    (hhalf : 2 ^ 127 < mh) :
    let borrow := if low < ml then 1 else 0
    let selectHigh := if high < mh + borrow then high
      else (high + 2 ^ 128 - mh + 2 ^ 128 - borrow) % 2 ^ 128
    let selectLow := if high < mh + borrow then low
      else (low + 2 ^ 128 - ml) % 2 ^ 128
    selectHigh < 2 ^ 128 ∧ selectLow < 2 ^ 128 ∧
      2 ^ 128 * selectHigh + selectLow < 2 ^ 128 * mh + ml ∧
      (2 ^ 128 * selectHigh + selectLow = 2 ^ 128 * high + low ∨
        2 ^ 128 * selectHigh + selectLow + (2 ^ 128 * mh + ml) =
          2 ^ 128 * high + low) := by
  intro borrow selectHigh selectLow
  by_cases hborrow : low < ml
  · have hone : borrow = 1 := if_pos hborrow
    by_cases hless : high < mh + borrow
    · have hsh : selectHigh = high := if_pos hless
      have hsl : selectLow = low := if_pos hless
      omega
    · have hsh : selectHigh = (high + 2 ^ 128 - mh + 2 ^ 128 - borrow) %
        2 ^ 128 := if_neg hless
      have hsl : selectLow = (low + 2 ^ 128 - ml) % 2 ^ 128 := if_neg hless
      omega
  · have hnone : borrow = 0 := if_neg hborrow
    by_cases hless : high < mh + borrow
    · have hsh : selectHigh = high := if_pos hless
      have hsl : selectLow = low := if_pos hless
      omega
    · have hsh : selectHigh = (high + 2 ^ 128 - mh + 2 ^ 128 - borrow) %
        2 ^ 128 := if_neg hless
      have hsl : selectLow = (low + 2 ^ 128 - ml) % 2 ^ 128 := if_neg hless
      omega

/-- One conditional subtraction of the modulus is enough. -/
theorem fromHash_eq (hash : Sha256Digest) :
    fromHash hash = .ok (hash.value : FieldP256Scalar) := by
  have hlength := hash.length_bytes
  have hhigh := Bytes.ofBeBytes_lt (hash.bytes.take 16)
  have hlow := Bytes.ofBeBytes_lt (hash.bytes.drop 16)
  have hvalue := Bytes.ofBeBytes_append (hash.bytes.take 16)
    (hash.bytes.drop 16)
  rw [List.take_append_drop] at hvalue
  rw [List.length_take, hlength] at hhigh
  rw [List.length_drop, hlength] at hlow hvalue
  have hpow : 256 ^ 16 = 2 ^ 128 := by norm_num
  have hpow' : 256 ^ (32 - 16) = 2 ^ 128 := by norm_num
  rw [hpow'] at hvalue
  have horder : 2 ^ 128 * modulusHigh + modulusLow = P256.order := by
    decide
  obtain ⟨hsh, hsl, hlt, hresult⟩ := conditional_sub hhigh hlow
    (show modulusHigh < 2 ^ 128 by decide)
    (show modulusLow < 2 ^ 128 by decide) (by decide)
  rw [fromHash]
  generalize (if Bytes.ofBeBytes (hash.bytes.take 16) < modulusHigh + _ then
    Bytes.ofBeBytes (hash.bytes.take 16) else _) = selectHigh at *
  generalize (if Bytes.ofBeBytes (hash.bytes.take 16) < modulusHigh + _ then
    Bytes.ofBeBytes (hash.bytes.drop 16) else _) = selectLow at *
  have hread : Bytes.ofLeBytes (Bytes.leBytes 16 selectLow ++
      Bytes.leBytes 16 selectHigh) = 2 ^ 128 * selectHigh + selectLow := by
    rw [Bytes.ofLeBytes_append, Bytes.ofLeBytes_leBytes 16 hsl,
      Bytes.ofLeBytes_leBytes 16 hsh, Bytes.length_leBytes, hpow,
      Nat.add_comm]
  have hok : tryFrom (Bytes.leBytes 16 selectLow ++
      Bytes.leBytes 16 selectHigh) = .ok (hash.value : FieldP256Scalar) ↔ _ :=
    tryFrom_eq_ok
  rw [horder] at hlt hresult
  refine Exec.unwrap_eq_ok.mpr (hok.mpr ⟨by simp, hread ▸ hlt, ?_⟩)
  rw [hread, Sha256Digest.value, hvalue]
  rcases hresult with hsame | hsub
  · rw [hsame]
  · have hcast : ((2 ^ 128 * selectHigh + selectLow + P256.order : Nat) :
        FieldP256Scalar) = (2 ^ 128 * selectHigh + selectLow : Nat) := by
      rw [Nat.cast_add, ZMod.natCast_self, add_zero]
    rw [← hcast, hsub]

end FieldP256Scalar

end Scalars

namespace MdocZk

open Exec Ladder

section Points

theorem embedScalarInBaseField_eq (x : FieldP256Scalar) :
    embedScalarInBaseField x = .ok (x.val : FieldP256) := by
  have hlt : x.val < 256 ^ 32 := FieldP256Scalar.val_lt x
  have hread : Bytes.ofLeBytes (residueEncode P256.order 32 x) = x.val :=
    Bytes.ofLeBytes_leBytes 32 hlt
  have hsmall : x.val < modulusP256 :=
    (ZMod.val_lt x).trans (by decide)
  have hresidue : residueTryFrom modulusP256 32
      (residueEncode P256.order 32 x) = some (x.val : FieldP256) := by
    rw [residueTryFrom, hread, if_pos ⟨by simp [residueEncode], hsmall⟩]
  have htry : CodecFieldElement.tryFrom (residueEncode P256.order 32 x) =
      some (x.val : FieldP256) := hresidue
  refine unwrap_eq_ok.mpr ?_
  rw [FieldP256.tryFrom, FieldP256Scalar.encode, htry]
  rfl

theorem requireCoordinates_eq_ok {point : AffinePoint} {message : String}
    {xy : FieldP256 × FieldP256} :
    requireCoordinates point message = .ok xy ↔ point.coordinates = some xy := by
  rw [requireCoordinates]
  cases point.coordinates with
  | none => constructor <;> intro h <;> cases h
  | some xy' =>
      constructor
      · intro h
        cases h
        rfl
      · intro h
        cases h
        rfl

namespace ProjectivePoint

variable {p q : ProjectivePoint} {P Q : P256.Point} {A : AffinePoint}

theorem represents_add (hp : Represents p.triple P)
    (hq : Represents q.triple Q) : Represents (p.add q).triple (P + Q) := by
  rw [triple_add]
  exact P256.rootless.represents_add hp hq

theorem represents_double (hp : Represents p.triple P) :
    Represents p.double.triple (P + P) := by
  rw [triple_double]
  exact P256.rootless.represents_double hp

theorem represents_identity : Represents identity.triple (0 : P256.Point) :=
  represents_zero.mpr ⟨rfl, one_ne_zero, rfl⟩

theorem coordinates_toAffine (hp : Represents p.triple P) :
    p.toAffine.coordinates = coordinates P := by
  rw [hp.coordinates_eq, toAffine]
  by_cases hz : p.z = 0
  · rw [if_pos hz]
    exact (if_pos hz).symm
  · rw [if_neg hz]
    exact (if_neg hz).symm

theorem represents_ofAffine (hA : A.coordinates = coordinates P) :
    Represents (ofAffine A).triple P := by
  rw [ofAffine, hA]
  cases hP : coordinates P with
  | none =>
      rw [coordinates_eq_none.mp hP]
      exact represents_identity
  | some xy => exact represents_of_coordinates hP

theorem represents_addAffine (hp : Represents p.triple P)
    (hA : A.coordinates = coordinates Q) :
    Represents (p.addAffine A).triple (P + Q) := by
  cases hQ : coordinates Q with
  | none =>
      rw [coordinates_eq_none.mp hQ, add_zero, addAffine, hA, hQ]
      exact hp
  | some xy =>
      have hA' : A = .new xy.1 xy.2 := by
        obtain ⟨coords⟩ := A
        exact congrArg AffinePoint.mk (hA.trans hQ)
      rw [hA', addAffine_eq_add]
      exact represents_add hp (represents_of_coordinates hQ)

theorem triple_scalarMult (p : ProjectivePoint) (bits : List Bool) :
    (p.scalarMult bits).triple =
      multiple P256.coefficientA P256.coefficientB p.triple bits := by
  rw [multiple, scalarMult]
  refine (List.foldl_hom triple fun acc bit => ?_).symm
  cases bit with
  | false => exact (triple_double acc).symm
  | true =>
      change _ = (acc.double.add p).triple
      rw [triple_add, triple_double]
      rfl

theorem represents_scalarMult (hp : Represents p.triple P)
    (k : FieldP256Scalar) :
    Represents (p.scalarMult k.bits).triple (k.val • P) := by
  rw [triple_scalarMult, FieldP256Scalar.bits_eq]
  exact P256.rootless.represents_multiple hp 256 (FieldP256Scalar.val_lt k)

end ProjectivePoint

end Points

section MultiScalar

variable {Q R : P256.Point} {table : TablePoints} {k l m : Nat}

/-- The table holds the combinations of the generator, the key and the
recovered point by three bits. -/
def TablePoints.IsTable (table : TablePoints) (Q R : P256.Point) : Prop :=
  ∀ e r negS : Bool, Represents (table.lookup e r negS).triple
    (combination P256.generator Q R e.toNat r.toNat negS.toNat)

/-- The accumulator that a step leaves in the witness. -/
def msmAccumulator (out : List FieldP256) (j : Nat) : ProjectivePoint :=
  ⟨out.getD (4 * j + 1) 0, out.getD (4 * j + 2) 0, out.getD (4 * j + 3) 0⟩

/-- The multi-scalar multiplication before a step. -/
structure Combined (Q R : P256.Point) (k l m : Nat) (j : Nat)
    (state : List FieldP256 × ProjectivePoint) : Prop where
  length : j < 256 → state.1.length = 4 * j
  accumulators : ∀ i, i < j → i < 255 →
    Represents (msmAccumulator state.1 i).triple
      (rung P256.generator Q R k l m (255 - i))
  current : Represents state.2.triple
    (rung P256.generator Q R k l m (256 - j))

theorem msmAccumulator_append {out : List FieldP256} {j : Nat}
    (h : out.length = 4 * j) (index : FieldP256) (acc : ProjectivePoint) :
    msmAccumulator (out ++ [index, acc.x, acc.y, acc.z]) j = acc := by
  have hread (n : Nat) : (out ++ [index, acc.x, acc.y, acc.z]).getD
      (4 * j + n) 0 = [index, acc.x, acc.y, acc.z].getD n 0 := by
    rw [List.getD_append_right _ _ _ _ (by omega), h, Nat.add_sub_cancel_left]
  rw [msmAccumulator, hread, hread, hread]
  rfl

theorem msmAccumulator_append_of_lt {out : List FieldP256} {i j : Nat}
    (h : out.length = 4 * j) (hi : i < j) (rest : List FieldP256) :
    msmAccumulator (out ++ rest) i = msmAccumulator out i := by
  have hread (n : Nat) (hn : n < 4) :
      (out ++ rest).getD (4 * i + n) 0 = out.getD (4 * i + n) 0 :=
    List.getD_append _ _ _ _ (by omega)
  rw [msmAccumulator, hread 1 (by decide), hread 2 (by decide),
    hread 3 (by decide), msmAccumulator]

theorem combined_start (hk : k < 2 ^ 256) (hl : l < 2 ^ 256)
    (hm : m < 2 ^ 256) :
    Combined Q R k l m 0 ([], ProjectivePoint.identity) where
  length := fun _ => rfl
  accumulators := fun i hi => absurd hi (Nat.not_lt_zero i)
  current := by
    rw [Nat.sub_zero, rung_start _ _ _ hk hl hm]
    exact ProjectivePoint.represents_identity

theorem toNat_testBit (v i : Nat) : (v.testBit i).toNat = v / 2 ^ i % 2 := by
  rw [Nat.toNat_testBit]

/-- The steps of the loop. -/
theorem getElem_steps {hash : Sha256Digest} {r negS : FieldP256Scalar}
    {j : Nat} (h : j < (iterMsm.zip
      (hash.bits.zip (r.bits.zip negS.bits))).length) :
    (iterMsm.zip (hash.bits.zip (r.bits.zip negS.bits)))[j] =
      (decide (j < 255), hash.value.testBit (255 - j),
        r.val.testBit (255 - j), negS.val.testBit (255 - j)) := by
  have hplace (hj : j < iterMsm.length) : iterMsm[j] = decide (j < 255) := by
    simp only [iterMsm]
    rw [List.getElem_append]
    split
    · next hlt =>
        rw [List.length_replicate] at hlt
        rw [List.getElem_replicate, decide_eq_true hlt]
    · next hge =>
        rw [List.length_replicate] at hge
        rw [List.getElem_singleton, decide_eq_false hge]
  simp only [List.getElem_zip, Sha256Digest.bits_eq, FieldP256Scalar.bits_eq,
    getElem_bits]
  rw [hplace]

/-- One step keeps the invariant.  The last one finds the identity. -/
theorem multiScalarStep_combines (htable : table.IsTable Q R)
    (hzero : combination P256.generator Q R k l m = 0) {j : Nat}
    (hj : j < 256) {state : List FieldP256 × ProjectivePoint}
    (h : Combined Q R k l m j state) :
    Returns (multiScalarStep table state (decide (j < 255),
        k.testBit (255 - j), l.testBit (255 - j), m.testBit (255 - j)))
      (Combined Q R k l m (j + 1)) := by
  obtain ⟨out, acc⟩ := state
  have hlookup := htable (k.testBit (255 - j)) (l.testBit (255 - j))
    (m.testBit (255 - j))
  rw [toNat_testBit, toNat_testBit, toNat_testBit] at hlookup
  have hposition : 256 - j = 255 - j + 1 := by omega
  have hnow : 256 - (j + 1) = 255 - j := by omega
  have hcurrent := h.current
  rw [hposition] at hcurrent
  have hnext := ProjectivePoint.represents_add
    (ProjectivePoint.represents_double hcurrent) hlookup
  rw [← rung_double_add] at hnext
  have hlength : out.length = 4 * j := h.length hj
  rw [multiScalarStep]
  generalize acc.double.add (table.lookup (k.testBit (255 - j))
    (l.testBit (255 - j)) (m.testBit (255 - j))) = next at hnext
  generalize tableIndex _ _ _ = index
  by_cases hplace : j < 255
  · rw [if_pos (decide_eq_true hplace)]
    refine Returns.of_eq rfl ⟨fun _ => ?_, fun i hi hi' => ?_, ?_⟩
    · rw [List.length_append, hlength]
      rfl
    · rcases Nat.lt_succ_iff_lt_or_eq.mp hi with hlt | rfl
      · rw [msmAccumulator_append_of_lt hlength hlt]
        exact h.accumulators i hlt hi'
      · rw [msmAccumulator_append hlength]
        exact hnext
    · rw [hnow]
      exact hnext
  · obtain rfl : j = 255 := by omega
    have hidentity := hnext
    rw [Nat.sub_self, rung_zero, hzero, represents_zero] at hidentity
    have hz : next.z = 0 := hidentity.2.2
    rw [if_neg (by decide), ensure_of hz, ok_bind]
    refine Returns.of_eq rfl ⟨fun hlt => absurd hlt (by decide),
      fun i hi hi' => ?_, hnext⟩
    rw [msmAccumulator_append_of_lt hlength hi']
    exact h.accumulators i hi' hi'

/-- When the combination vanishes, the loop ends at the identity. -/
theorem foldlM_multiScalarStep (htable : table.IsTable Q R)
    (hash : Sha256Digest) (r negS : FieldP256Scalar)
    (hzero : combination P256.generator Q R hash.value r.val negS.val = 0) :
    Returns ((iterMsm.zip (hash.bits.zip (r.bits.zip negS.bits))).foldlM
        (multiScalarStep table) ([], ProjectivePoint.identity))
      (Combined Q R hash.value r.val negS.val 256) := by
  have hlength : (iterMsm.zip (hash.bits.zip (r.bits.zip negS.bits))).length =
      256 := by
    simp only [List.length_zip, Sha256Digest.bits_eq,
      FieldP256Scalar.bits_eq, length_bits, iterMsm, List.length_append,
      List.length_replicate, List.length_singleton]
    rfl
  have hloop := Returns.foldlM (f := multiScalarStep table)
    (I := Combined Q R hash.value r.val negS.val)
    (iterMsm.zip (hash.bits.zip (r.bits.zip negS.bits)))
    (s := ([], ProjectivePoint.identity))
    (combined_start hash.value_lt (FieldP256Scalar.val_lt r)
      (FieldP256Scalar.val_lt negS)) fun j hj state hstate => by
        rw [getElem_steps hj]
        exact multiScalarStep_combines htable hzero (hlength ▸ hj) hstate
  rw [hlength] at hloop
  exact hloop

/-- The points of the table, after their way through the affine form. -/
def tablePoints (g q rPoint : AffinePoint) : TablePoints :=
  let gProj := ProjectivePoint.ofAffine g
  let qProj := ProjectivePoint.ofAffine q
  { gProj, qProj
    rProj := .ofAffine rPoint
    gPlusQProj := .ofAffine (gProj.addAffine q).toAffine
    gPlusRProj := .ofAffine (gProj.addAffine rPoint).toAffine
    qPlusRProj := .ofAffine (qProj.addAffine rPoint).toAffine
    gPlusQPlusRProj :=
      .ofAffine ((gProj.addAffine q).addAffine rPoint).toAffine }

variable {g q rPoint : AffinePoint}

theorem coordinates_sums (hg : g.coordinates = coordinates P256.generator)
    (hq : q.coordinates = coordinates Q)
    (hR : rPoint.coordinates = coordinates R) :
    ((ProjectivePoint.ofAffine g).addAffine q).toAffine.coordinates =
        coordinates (P256.generator + Q) ∧
      ((ProjectivePoint.ofAffine g).addAffine rPoint).toAffine.coordinates =
        coordinates (P256.generator + R) ∧
      ((ProjectivePoint.ofAffine q).addAffine rPoint).toAffine.coordinates =
        coordinates (Q + R) ∧
      (((ProjectivePoint.ofAffine g).addAffine q).addAffine
          rPoint).toAffine.coordinates =
        coordinates (P256.generator + Q + R) := by
  have hgP := ProjectivePoint.represents_ofAffine hg
  have hqP := ProjectivePoint.represents_ofAffine hq
  have hgq := ProjectivePoint.represents_addAffine hgP hq
  exact ⟨ProjectivePoint.coordinates_toAffine hgq,
    ProjectivePoint.coordinates_toAffine
      (ProjectivePoint.represents_addAffine hgP hR),
    ProjectivePoint.coordinates_toAffine
      (ProjectivePoint.represents_addAffine hqP hR),
    ProjectivePoint.coordinates_toAffine
      (ProjectivePoint.represents_addAffine hgq hR)⟩

theorem tablePoints_isTable (hg : g.coordinates = coordinates P256.generator)
    (hq : q.coordinates = coordinates Q)
    (hR : rPoint.coordinates = coordinates R) :
    (tablePoints g q rPoint).IsTable Q R := by
  obtain ⟨hgq, hgr, hqr, hgqr⟩ := coordinates_sums hg hq hR
  intro e r negS
  cases e <;> cases r <;> cases negS <;>
    simp only [combination, Bool.toNat_true, Bool.toNat_false, zero_nsmul,
      one_nsmul, zero_add, add_zero]
  · exact ProjectivePoint.represents_identity
  · exact ProjectivePoint.represents_ofAffine hR
  · exact ProjectivePoint.represents_ofAffine hq
  · exact ProjectivePoint.represents_ofAffine hqr
  · exact ProjectivePoint.represents_ofAffine hg
  · exact ProjectivePoint.represents_ofAffine hgr
  · exact ProjectivePoint.represents_ofAffine hgq
  · exact ProjectivePoint.represents_ofAffine hgqr

theorem exists_coordinates {point : AffinePoint} {P : P256.Point}
    (h : point.coordinates = coordinates P) (hne : P ≠ 0) (message : String) :
    ∃ xy, requireCoordinates point message = .ok xy ∧
      coordinates P = some xy := by
  cases hP : coordinates P with
  | none => exact absurd (coordinates_eq_none.mp hP) hne
  | some xy =>
      exact ⟨xy, requireCoordinates_eq_ok.mpr (h.trans hP), rfl⟩

theorem ne_zero_of_require {point : AffinePoint} {P : P256.Point}
    (h : point.coordinates = coordinates P) {message : String}
    {xy : FieldP256 × FieldP256}
    (hok : requireCoordinates point message = .ok xy) : P ≠ 0 := by
  intro hzero
  have hnone := coordinates_eq_none.mpr hzero
  rw [← h, requireCoordinates_eq_ok.mp hok] at hnone
  cases hnone

/-- What the multi-scalar multiplication puts into the witness. -/
structure IsMultiScalar (Q R : P256.Point) (k l m : Nat)
    (witness result : EcdsaWitness) : Prop where
  kept : result.rX = witness.rX ∧ result.rY = witness.rY ∧
    result.rXInverse = witness.rXInverse ∧
    result.negSInverse = witness.negSInverse ∧
    result.qXInverse = witness.qXInverse
  sum_g_q : coordinates (P256.generator + Q) = some result.sumGQ
  sum_g_r : coordinates (P256.generator + R) = some result.sumGR
  sum_q_r : coordinates (Q + R) = some result.sumQR
  sum_g_q_r : coordinates (P256.generator + Q + R) = some result.sumGQR
  accumulators : ∀ j < 255,
    Represents (msmAccumulator result.msmWitnesses j).triple
      (combination P256.generator Q R (k / 2 ^ (255 - j))
        (l / 2 ^ (255 - j)) (m / 2 ^ (255 - j)))

theorem multiScalarMultiplication_returns
    (hg : g.coordinates = coordinates P256.generator)
    (hq : q.coordinates = coordinates Q)
    (hR : rPoint.coordinates = coordinates R)
    (hne : P256.Nondegenerate Q R) (witness : EcdsaWitness)
    (hash : Sha256Digest) (r negS : FieldP256Scalar)
    (hzero : combination P256.generator Q R hash.value r.val negS.val = 0) :
    Returns (multiScalarMultiplication witness g hash q r rPoint negS)
      (IsMultiScalar Q R hash.value r.val negS.val witness) := by
  obtain ⟨hgq, hgr, hqr, hgqr⟩ := coordinates_sums hg hq hR
  have hqrne : Q + R ≠ 0 := by
    rw [add_comm]
    exact hne.recovered_add_key
  have hgqrne : P256.generator + Q + R ≠ 0 := by
    rw [add_assoc, add_comm Q]
    exact hne.generator_add_sum
  obtain ⟨gq, hgq, hgq'⟩ := exists_coordinates hgq hne.generator_add_key
    "invalid public key (G + Q = O)"
  obtain ⟨gr, hgr, hgr'⟩ := exists_coordinates hgr
    hne.generator_add_recovered "invalid signature (G + R = 0)"
  obtain ⟨qr, hqr, hqr'⟩ := exists_coordinates hqr hqrne
    "invalid signature (Q + R = 0)"
  obtain ⟨gqr, hgqr, hgqr'⟩ := exists_coordinates hgqr hgqrne
    "invalid signature (G + Q + R = 0)"
  have hloop := foldlM_multiScalarStep (tablePoints_isTable hg hq hR) hash r
    negS hzero
  unfold multiScalarMultiplication
  refine Returns.bind_of_eq hgq ?_
  refine Returns.bind_of_eq hgr ?_
  refine Returns.bind_of_eq hqr ?_
  refine Returns.bind_of_eq hgqr ?_
  refine hloop.bind fun state hstate => Returns.of_eq rfl
    ⟨⟨rfl, rfl, rfl, rfl, rfl⟩, hgq', hgr', hqr', hgqr', fun j hj => ?_⟩
  exact hstate.accumulators j (hj.trans (by decide)) hj

theorem nondegenerate_of_multiScalar
    (hg : g.coordinates = coordinates P256.generator)
    (hq : q.coordinates = coordinates Q)
    (hR : rPoint.coordinates = coordinates R) {witness result : EcdsaWitness}
    {hash : Sha256Digest} {r negS : FieldP256Scalar}
    (h : multiScalarMultiplication witness g hash q r rPoint negS =
      .ok result) : P256.Nondegenerate Q R := by
  obtain ⟨hgq, hgr, hqr, hgqr⟩ := coordinates_sums hg hq hR
  unfold multiScalarMultiplication at h
  obtain ⟨_, hgqOk, h⟩ := Exec.bind_eq_ok.mp h
  obtain ⟨_, hgrOk, h⟩ := Exec.bind_eq_ok.mp h
  obtain ⟨_, hqrOk, h⟩ := Exec.bind_eq_ok.mp h
  obtain ⟨_, hgqrOk, -⟩ := Exec.bind_eq_ok.mp h
  refine ⟨ne_zero_of_require hgq hgqOk, ne_zero_of_require hgr hgrOk, ?_, ?_⟩
  · rw [add_comm]
    exact ne_zero_of_require hqr hqrOk
  · rw [add_comm R, ← add_assoc]
    exact ne_zero_of_require hgqr hgqrOk

end MultiScalar

section Witness

variable {Q : P256.Point} {x y rx ry : FieldP256} {witness : EcdsaWitness}
  {signature : Signature} {hash : Sha256Digest}

/-- The point that a digest, a signature and a key determine. -/
def Signature.recovered (signature : Signature) (Q : P256.Point)
    (hash : Sha256Digest) : P256.Point :=
  P256.recovered Q hash.value signature.r.val signature.s.val

/-- The values of the witness for a signature. -/
structure IsWitness (Q : P256.Point) (x : FieldP256) (signature : Signature)
    (hash : Sha256Digest) (witness : EcdsaWitness) : Prop where
  recovered_eq : coordinates (signature.recovered Q hash) =
    some (witness.rX, witness.rY)
  r_x_inverse : witness.rX * witness.rXInverse = 1
  neg_s_inverse : ((-signature.s).val : FieldP256) * witness.negSInverse = 1
  q_x_inverse : x * witness.qXInverse = 1
  sum_g_q : coordinates (P256.generator + Q) = some witness.sumGQ
  sum_g_r : coordinates (P256.generator + signature.recovered Q hash) =
    some witness.sumGR
  sum_q_r : coordinates (Q + signature.recovered Q hash) = some witness.sumQR
  sum_g_q_r : coordinates (P256.generator + Q +
    signature.recovered Q hash) = some witness.sumGQR
  accumulators : ∀ j < 255,
    Represents (msmAccumulator witness.msmWitnesses j).triple
      (combination P256.generator Q (signature.recovered Q hash)
        (hash.value / 2 ^ (255 - j)) (signature.r.val / 2 ^ (255 - j))
        ((-signature.s).val / 2 ^ (255 - j)))
  ends : combination P256.generator Q (signature.recovered Q hash)
    hash.value signature.r.val (-signature.s).val = 0

theorem val_neg_scalar {s : FieldP256Scalar} (hs : s ≠ 0) :
    (-s).val = P256.order - s.val := by
  have : NeZero s := ⟨hs⟩
  exact ZMod.val_neg_of_ne_zero s

theorem combination_signature (hs : signature.s ≠ 0) :
    combination P256.generator Q (signature.recovered Q hash) hash.value
      signature.r.val (-signature.s).val = 0 := by
  rw [val_neg_scalar hs]
  exact P256.combination_recovered
    (Nat.pos_of_ne_zero fun h => hs ((ZMod.val_eq_zero _).mp h))
    (ZMod.val_lt _) rfl rfl

theorem represents_recovered (hkey : P256.Key Q x y) :
    Represents
      (((ProjectivePoint.ofAffine (.new p256G.1 p256G.2)).scalarMult
          (FieldP256Scalar.bits
            ((hash.value : FieldP256Scalar) * signature.s⁻¹))).add
        ((ProjectivePoint.ofAffine (.new x y)).scalarMult
          (FieldP256Scalar.bits (signature.r * signature.s⁻¹)))).triple
      (signature.recovered Q hash) := by
  have hg : Represents (ProjectivePoint.ofAffine
      (.new p256G.1 p256G.2)).triple P256.generator :=
    P256.generator_represents
  have hq : Represents (ProjectivePoint.ofAffine (.new x y)).triple Q :=
    represents_of_coordinates hkey
  have hsum := ProjectivePoint.represents_add
    (ProjectivePoint.represents_scalarMult hg
      ((hash.value : FieldP256Scalar) * signature.s⁻¹))
    (ProjectivePoint.represents_scalarMult hq (signature.r * signature.s⁻¹))
  have heq : signature.recovered Q hash =
      ((hash.value : FieldP256Scalar) * signature.s⁻¹).val • P256.generator +
        (signature.r * signature.s⁻¹).val • Q := by
    rw [Signature.recovered, P256.recovered, ZMod.natCast_zmod_val,
      ZMod.natCast_zmod_val, div_eq_mul_inv, div_eq_mul_inv]
  rw [heq]
  exact hsum

/-- A signature is accepted when its first number is the x-coordinate itself. -/
theorem fillEcdsaWitness_returns (hkey : P256.Key Q x y)
    (hs : signature.s ≠ 0)
    (hR : coordinates (signature.recovered Q hash) = some (rx, ry))
    (hrx : (signature.r.val : FieldP256) = rx)
    (hne : P256.Nondegenerate Q (signature.recovered Q hash)) :
    Returns (fillEcdsaWitness witness (.new x y) signature hash) fun result =>
      ∃ recorded : EcdsaWitness, recorded.rX = rx ∧ recorded.rY = ry ∧
        recorded.rXInverse = rx⁻¹ ∧
        recorded.negSInverse = ((-signature.s).val : FieldP256)⁻¹ ∧
        recorded.qXInverse = x⁻¹ ∧
        IsMultiScalar Q (signature.recovered Q hash) hash.value
          signature.r.val (-signature.s).val recorded result := by
  have hrepresents : Represents _ (signature.recovered Q hash) :=
    represents_recovered hkey
  have hcoordinates := ProjectivePoint.coordinates_toAffine hrepresents
  have hzero : combination P256.generator Q (signature.recovered Q hash)
      hash.value signature.r.val (-signature.s).val = 0 :=
    combination_signature hs
  obtain ⟨r, s⟩ := signature
  unfold fillEcdsaWitness
  refine Returns.bind_of_eq (a := (x, y)) rfl ?_
  refine Returns.bind_of_eq (FieldP256Scalar.fromHash_eq hash) ?_
  refine Returns.bind_of_eq
    (requireCoordinates_eq_ok.mpr (hcoordinates.trans hR)) ?_
  refine Returns.bind_of_eq (embedScalarInBaseField_eq r) ?_
  refine Returns.bind_of_eq (ensure_of hrx) ?_
  refine Returns.bind_of_eq (embedScalarInBaseField_eq (-s)) ?_
  have hg : (AffinePoint.new p256G.1 p256G.2).coordinates =
      coordinates P256.generator := rfl
  have hrun := multiScalarMultiplication_returns (Q := Q) hg hkey.symm
    hcoordinates hne
    { witness with
      rX := rx, rY := ry, rXInverse := rx⁻¹
      negSInverse := ((-s).val : FieldP256)⁻¹, qXInverse := x⁻¹ }
    hash r (-s) hzero
  exact hrun.mono fun result hresult =>
    ⟨_, rfl, rfl, rfl, rfl, rfl, hresult⟩

theorem accepted_of_fillEcdsaWitness (hkey : P256.Key Q x y)
    {result : EcdsaWitness}
    (h : fillEcdsaWitness witness (.new x y) signature hash = .ok result) :
    ∃ rx ry, coordinates (signature.recovered Q hash) = some (rx, ry) ∧
      (signature.r.val : FieldP256) = rx ∧
      P256.Nondegenerate Q (signature.recovered Q hash) := by
  have hrepresents : Represents _ (signature.recovered Q hash) :=
    represents_recovered hkey
  have hcoordinates := ProjectivePoint.coordinates_toAffine hrepresents
  obtain ⟨r, s⟩ := signature
  unfold fillEcdsaWitness at h
  obtain ⟨_, -, h⟩ := Exec.bind_eq_ok.mp h
  obtain ⟨_, he, h⟩ := Exec.bind_eq_ok.mp h
  rw [FieldP256Scalar.fromHash_eq] at he
  cases he
  obtain ⟨⟨rx, ry⟩, hR, h⟩ := Exec.bind_eq_ok.mp h
  have hR' := hcoordinates.symm.trans (requireCoordinates_eq_ok.mp hR)
  obtain ⟨_, hembedded, h⟩ := Exec.bind_eq_ok.mp h
  rw [embedScalarInBaseField_eq] at hembedded
  cases hembedded
  obtain ⟨_, hrx, h⟩ := Exec.bind_eq_ok.mp h
  obtain ⟨_, -, h⟩ := Exec.bind_eq_ok.mp h
  have hg : (AffinePoint.new p256G.1 p256G.2).coordinates =
      coordinates P256.generator := rfl
  exact ⟨rx, ry, hR', ensure_eq_ok.mp hrx,
    nondegenerate_of_multiScalar hg hkey.symm hcoordinates h⟩

/-- A valid signature. -/
def Signature.Valid (signature : Signature) (Q : P256.Point)
    (hash : Sha256Digest) : Prop :=
  P256.Valid Q hash.value signature.r.val signature.s.val

/-- What is expected of the witness for a key, a signature and a hash: there is
one exactly if the signature is valid and no sum of the table is the identity,
and then its values are right. -/
structure Correct (witness : EcdsaWitness) (Q : P256.Point) (x y : FieldP256)
    (signature : Signature) (hash : Sha256Digest) : Prop where
  accepts_iff :
    (∃ result, fillEcdsaWitness witness (.new x y) signature hash =
      .ok result) ↔
    signature.Valid Q hash ∧
      P256.Nondegenerate Q (signature.recovered Q hash)
  isWitness : ∀ result,
    fillEcdsaWitness witness (.new x y) signature hash = .ok result →
      IsWitness Q x signature hash result

/-- The inputs on which the witness is as expected: if the signature is valid
and no sum is the identity, then the x-coordinate of the recovered point is
below the order, and that of the key is not zero. -/
def Regular (Q : P256.Point) (x : FieldP256) (signature : Signature)
    (hash : Sha256Digest) : Prop :=
  signature.Valid Q hash →
    P256.Nondegenerate Q (signature.recovered Q hash) →
      (∀ rx ry, coordinates (signature.recovered Q hash) = some (rx, ry) →
        rx.val < P256.order) ∧ x ≠ 0

theorem ne_zero_of_decode {input : List UInt8}
    (h : Signature.decode input = .ok signature) :
    signature.r ≠ 0 ∧ signature.s ≠ 0 := by
  unfold Signature.decode at h
  obtain ⟨_, -, h⟩ := Exec.bind_eq_ok.mp h
  obtain ⟨r, -, h⟩ := Exec.bind_eq_ok.mp h
  obtain ⟨_, hr, h⟩ := Exec.bind_eq_ok.mp h
  obtain ⟨s, -, h⟩ := Exec.bind_eq_ok.mp h
  obtain ⟨_, hs, h⟩ := Exec.bind_eq_ok.mp h
  cases h
  exact ⟨ensure_eq_ok.mp hr, ensure_eq_ok.mp hs⟩

theorem val_pos {v : FieldP256Scalar} (hv : v ≠ 0) : 0 < v.val :=
  Nat.pos_of_ne_zero fun h => hv ((ZMod.val_eq_zero v).mp h)

theorem val_cast_scalar (v : FieldP256Scalar) :
    (v.val : FieldP256).val = v.val := by
  have hsmall : P256.order < modulusP256 := by decide
  exact ZMod.val_natCast_of_lt ((ZMod.val_lt v).trans hsmall)

/-- The comparison of the two numbers is equality in the base field. -/
theorem accepts_iff_eq (hkey : P256.Key Q x y) (hs : signature.s ≠ 0) :
    (∃ result, fillEcdsaWitness witness (.new x y) signature hash =
      .ok result) ↔
    (∃ rx ry, coordinates (signature.recovered Q hash) = some (rx, ry) ∧
      rx.val = signature.r.val) ∧
      P256.Nondegenerate Q (signature.recovered Q hash) := by
  constructor
  · rintro ⟨result, h⟩
    obtain ⟨rx, ry, hR, hrx, hne⟩ := accepted_of_fillEcdsaWitness hkey h
    exact ⟨⟨rx, ry, hR, by rw [← hrx, val_cast_scalar]⟩, hne⟩
  · rintro ⟨⟨rx, ry, hR, hrx⟩, hne⟩
    have hcast : (signature.r.val : FieldP256) = rx := by
      rw [← hrx, ZMod.natCast_zmod_val]
    obtain ⟨result, hok, -⟩ : Returns
        (fillEcdsaWitness witness (.new x y) signature hash) _ :=
      fillEcdsaWitness_returns hkey hs hR hcast hne
    exact ⟨result, hok⟩

theorem valid_of_eq (hr : signature.r ≠ 0) (hs : signature.s ≠ 0)
    (hR : coordinates (signature.recovered Q hash) = some (rx, ry))
    (hrx : rx.val = signature.r.val) : signature.Valid Q hash where
  r_pos := val_pos hr
  r_lt := ZMod.val_lt _
  s_pos := val_pos hs
  s_lt := ZMod.val_lt _
  reduced := ⟨rx, ry, hR, by rw [hrx, Nat.mod_eq_of_lt (ZMod.val_lt _)]⟩

theorem isWitness_of_ok (hkey : P256.Key Q x y) (hr : signature.r ≠ 0)
    (hs : signature.s ≠ 0) (hx : x ≠ 0) {result : EcdsaWitness}
    (h : fillEcdsaWitness witness (.new x y) signature hash = .ok result) :
    IsWitness Q x signature hash result := by
  obtain ⟨rx, ry, hR, hrx, hne⟩ := accepted_of_fillEcdsaWitness hkey h
  obtain ⟨result', hok, recorded, hrX, hrY, hrInv, hsInv, hqInv, hmulti⟩ :
      Returns (fillEcdsaWitness witness (.new x y) signature hash) _ :=
    fillEcdsaWitness_returns hkey hs hR hrx hne
  rw [h] at hok
  cases hok
  obtain ⟨hkept, hkept', hkeptInv, hkeptS, hkeptQ⟩ := hmulti.kept
  have hrxne : rx ≠ 0 := by
    intro hzero
    have hval := val_cast_scalar signature.r
    rw [hrx, hzero, ZMod.val_zero] at hval
    exact hr ((ZMod.val_eq_zero _).mp hval.symm)
  have hsne : ((-signature.s).val : FieldP256) ≠ 0 := by
    intro hzero
    have hval := val_cast_scalar (-signature.s)
    rw [hzero, ZMod.val_zero] at hval
    exact neg_ne_zero.mpr hs ((ZMod.val_eq_zero _).mp hval.symm)
  refine
    { recovered_eq := by rw [hkept, hkept', hrX, hrY, hR]
      r_x_inverse := by
        rw [hkept, hkeptInv, hrX, hrInv, mul_inv_cancel₀ hrxne]
      neg_s_inverse := by rw [hkeptS, hsInv, mul_inv_cancel₀ hsne]
      q_x_inverse := by rw [hkeptQ, hqInv, mul_inv_cancel₀ hx]
      sum_g_q := hmulti.sum_g_q
      sum_g_r := hmulti.sum_g_r
      sum_q_r := hmulti.sum_q_r
      sum_g_q_r := hmulti.sum_g_q_r
      accumulators := hmulti.accumulators
      ends := combination_signature hs }

end Witness

section HighCoordinate

/-- An x-coordinate that is not below the order. -/
def highX : FieldP256 := ((P256.order + 3 : Nat) : FieldP256)

def highY : FieldP256 :=
  (0x484f0c0fda434ef0a808458914f328715d7a545e198ac7eee31dffe861b5d23f : Nat)

/-- Two numbers that are both three. -/
def threes : List UInt8 :=
  List.replicate 31 0 ++ [3] ++ List.replicate 31 0 ++ [3]

def zeroHash : Sha256Digest := ⟨List.replicate 32 0, rfl⟩

theorem highX_onCurve : highY ^ 2 =
    highX ^ 3 + P256.coefficientA * highX + P256.coefficientB := by
  decide

/-- A key with that x-coordinate. -/
def highKey : P256.Point := P256.rootless.point highX highY highX_onCurve

theorem highKey_key : P256.Key highKey highX highY := rfl

theorem decode_threes : Signature.decode threes = .ok ⟨3, 3⟩ := by
  decide

/-- For the digest zero and two equal numbers, the key itself is recovered. -/
theorem recovered_zeroHash (Q : P256.Point) {r : FieldP256Scalar}
    (hr : r ≠ 0) : (⟨r, r⟩ : Signature).recovered Q zeroHash = Q := by
  have hzero : zeroHash.value = 0 := by decide
  rw [Signature.recovered, hzero, P256.recovered, Nat.cast_zero, zero_div,
    ZMod.val_zero, zero_nsmul, zero_add, ZMod.natCast_zmod_val,
    div_self hr, ZMod.val_one, one_nsmul]

theorem recovered_highKey :
    (⟨3, 3⟩ : Signature).recovered highKey zeroHash = highKey :=
  recovered_zeroHash highKey (by decide)

theorem valid_threes : (⟨3, 3⟩ : Signature).Valid highKey zeroHash where
  r_pos := by decide
  r_lt := ZMod.val_lt _
  s_pos := by decide
  s_lt := ZMod.val_lt _
  reduced := ⟨highX, highY,
    (congrArg coordinates recovered_highKey).trans highKey_key,
    by decide⟩

theorem ne_zero_of_z_ne_zero {t : Triple FieldP256} {P : P256.Point}
    (h : Represents t P) (hz : t.z ≠ 0) : P ≠ 0 := by
  rintro rfl
  exact hz (represents_zero.mp h).2.2

theorem nondegenerate_highKey : P256.Nondegenerate highKey highKey := by
  have hg := P256.generator_represents
  have hq : Represents ⟨highX, highY, 1⟩ highKey := represents_normal highKey
  have hgq := P256.rootless.represents_add hg hq
  have hqq := P256.rootless.represents_add hq hq
  have hgqq := P256.rootless.represents_add hg hqq
  refine ⟨ne_zero_of_z_ne_zero hgq ?_, ne_zero_of_z_ne_zero hgq ?_,
    ne_zero_of_z_ne_zero hqq ?_, ne_zero_of_z_ne_zero hgqq ?_⟩ <;>
  decide

/-- The signature of two threes on the digest zero is valid under the key whose
x-coordinate is three more than the order, but there is no witness for it. -/
theorem not_correct_highKey :
    Signature.decode threes = .ok ⟨3, 3⟩ ∧ P256.Key highKey highX highY ∧
      ∀ witness, ¬ Correct witness highKey highX highY ⟨3, 3⟩ zeroHash := by
  refine ⟨decode_threes, highKey_key, fun witness h => ?_⟩
  have hne : P256.Nondegenerate highKey
      ((⟨3, 3⟩ : Signature).recovered highKey zeroHash) := by
    rw [recovered_highKey]
    exact nondegenerate_highKey
  obtain ⟨-, hs⟩ := ne_zero_of_decode decode_threes
  obtain ⟨⟨rx, ry, hR, hrx⟩, -⟩ := (accepts_iff_eq highKey_key hs).mp
    (h.accepts_iff.mpr ⟨valid_threes, hne⟩)
  rw [recovered_highKey, highKey_key] at hR
  cases hR
  exact absurd hrx (by decide)

end HighCoordinate

/-- The witness is as expected exactly on the regular inputs. -/
theorem correct_iff_regular {Q : P256.Point}
    {x y : FieldP256} {signature : Signature} {input : List UInt8}
    (hdecode : Signature.decode input = .ok signature)
    (hkey : P256.Key Q x y) (witness : EcdsaWitness) (hash : Sha256Digest) :
    Correct witness Q x y signature hash ↔ Regular Q x signature hash := by
  obtain ⟨hr, hs⟩ := ne_zero_of_decode hdecode
  have hiff : (∃ result, fillEcdsaWitness witness (.new x y) signature hash =
      .ok result) ↔ _ := accepts_iff_eq hkey hs
  constructor
  · intro h hvalid hne
    obtain ⟨result, hok⟩ := h.accepts_iff.mpr ⟨hvalid, hne⟩
    obtain ⟨⟨rx, ry, hR, hrx⟩, -⟩ := hiff.mp ⟨result, hok⟩
    refine ⟨fun rx' ry' hR' => ?_, ?_⟩
    · rw [hR] at hR'
      cases hR'
      rw [hrx]
      exact ZMod.val_lt _
    · rintro rfl
      have hone := (h.isWitness result hok).q_x_inverse
      rw [zero_mul] at hone
      exact zero_ne_one hone
  · intro h
    refine ⟨⟨fun hex => ?_, fun ⟨hvalid, hne⟩ => hiff.mpr ⟨?_, hne⟩⟩,
      fun result hok => ?_⟩
    · obtain ⟨⟨rx, ry, hR, hrx⟩, hne⟩ := hiff.mp hex
      exact ⟨valid_of_eq hr hs hR hrx, hne⟩
    · obtain ⟨rx, ry, hR, hreduced⟩ := hvalid.reduced
      have hlt := (h hvalid hne).1 rx ry hR
      exact ⟨rx, ry, hR, by rw [← hreduced, Nat.mod_eq_of_lt hlt]⟩
    · obtain ⟨⟨rx, ry, hR, hrx⟩, hne⟩ := hiff.mp ⟨result, hok⟩
      have hx := (h (valid_of_eq hr hs hR hrx) hne).2
      exact isWitness_of_ok hkey hr hs hx hok

theorem correct_iff_regular_generator :
    Correct ⟨0, 0, 0, 0, 0, (0, 0), (0, 0), (0, 0), (0, 0), []⟩ P256.generator
      P256.generatorX P256.generatorY
      ⟨P256.generatorX.val, P256.generatorX.val⟩ zeroHash := by
  have hdecode : Signature.decode (coordinateBytes P256.generatorX ++
      coordinateBytes P256.generatorX) =
        .ok ⟨P256.generatorX.val, P256.generatorX.val⟩ := by
    decide
  have hkey : P256.Key P256.generator P256.generatorX P256.generatorY := rfl
  have hne : (P256.generatorX.val : FieldP256Scalar) ≠ 0 := by decide
  refine (correct_iff_regular hdecode hkey _ _).mpr fun _ _ =>
    ⟨fun rx ry hR => ?_, by decide⟩
  rw [recovered_zeroHash P256.generator hne] at hR
  cases hR
  decide

end MdocZk

end Longfellow
