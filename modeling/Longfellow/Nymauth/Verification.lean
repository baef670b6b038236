/-
The verification of an ECDSA signature against the group of the curve: it
accepts the valid signatures outside the degenerate cases, and its values are
those of the combination that the circuit checks.
-/
import Longfellow.Ecdsa
import Longfellow.Nymauth.Ecdsa
import Mathlib.Data.Nat.Size

namespace Longfellow.Nymauth.Ecdsa

open Exec ShortWeierstrass Ladder

section Numbers

theorem orderN_eq : orderN = P256.order := rfl

theorem fromBytesBe_lt (b : Bytes32) : fromBytesBe b < 2 ^ 256 := by
  have hlt := Bytes.ofBeBytes_lt b.toList
  rw [Vector.length_toList] at hlt
  exact hlt

theorem fromBytesBe_be32 {v : Nat} (hv : v < 2 ^ 256) :
    fromBytesBe (be32 v) = v := by
  rw [fromBytesBe, be32, Vector.toList_mk, List.toList_toArray,
    Bytes.ofBeBytes, List.reverse_reverse]
  exact Bytes.ofLeBytes_leBytes 32 hv

theorem bit_eq (b : Bytes32) {i : Nat} (hi : i < 256) :
    bit b i = fromBytesBe b / 2 ^ i % 2 := by
  have hlength : b.toList.reverse.length = 32 := by simp
  have hbyte : i / 8 < b.toList.reverse.length := by omega
  rw [fromBytesBe, Bytes.ofBeBytes,
    ← Bytes.getElem_div_two_pow_mod_two hbyte, bit,
    Nat.shiftRight_eq_div_pow, List.getElem_reverse]
  simp

theorem feBe_eq_ok {b : Bytes32} {x : FieldP256} :
    feBe b = .ok x ↔ x.val = fromBytesBe b := by
  have hlength : b.toList.reverse.length = 32 := by simp
  have htry : feBe b =
      match residueTryFrom modulusP256 32 b.toList.reverse with
      | some x => pure x
      | none => invalid "a coordinate is not below p" := rfl
  rw [htry, residueTryFrom, fromBytesBe, Bytes.ofBeBytes]
  generalize Bytes.ofLeBytes b.toList.reverse = v
  by_cases hv : v < modulusP256
  · rw [if_pos ⟨hlength, hv⟩]
    constructor
    · intro h
      cases h
      rw [ZMod.val_natCast, Nat.mod_eq_of_lt hv]
    · intro h
      rw [← h, ZMod.natCast_zmod_val]
      rfl
  · rw [if_neg fun h => hv h.2]
    constructor
    · intro h
      cases h
    · intro h
      exact absurd (h ▸ ZMod.val_lt x) hv

theorem satisfied_eq_ok {holds : Bool} {m : String} {u : Unit} :
    satisfied holds m = .ok u ↔ holds = true := by
  cases holds with
  | false => constructor <;> intro h <;> cases h
  | true => exact ⟨fun _ => rfl, fun _ => rfl⟩

theorem inv_eq_ok {x y : FieldP256} {m : String} :
    inv x m = .ok y ↔ x ≠ 0 ∧ y = x⁻¹ := by
  rw [inv]
  by_cases hx : x = 0
  · rw [if_pos hx]
    refine ⟨(by intro h; cases h), fun h => absurd hx h.1⟩
  · rw [if_neg hx]
    constructor
    · intro h
      cases h
      exact ⟨hx, rfl⟩
    · rintro ⟨-, rfl⟩
      rfl

/-- The power that stands for the inverse modulo the order. -/
theorem cast_modpow {s : Nat} (hs : (s : ZMod P256.order) ≠ 0) :
    (modpow s (orderN - 2) orderN : ZMod P256.order) =
      (s : ZMod P256.order)⁻¹ := by
  have hexponent : P256.order - 2 < 2 ^ 256 := by decide
  have htwo : P256.order - 2 + 1 = P256.order - 1 := by decide
  have hpow := Primality.cast_powMod P256.order 256 hexponent s 1
  rw [modpow, orderN_eq, hpow, Nat.cast_one, one_mul]
  refine eq_inv_of_mul_eq_one_left ?_
  rw [← pow_succ, htwo]
  exact ZMod.pow_card_sub_one_eq_one hs

end Numbers

section Points

theorem represents_add {p q : P3} {P Q : P256.Point}
    (hp : Represents p.triple P) (hq : Represents q.triple Q) :
    Represents (add p256 p q).triple (P + Q) := by
  rw [triple_add]
  exact P256.rootless.represents_add hp hq

theorem represents_dbl {p : P3} {P : P256.Point}
    (hp : Represents p.triple P) :
    Represents (dbl p256 p).triple (P + P) := by
  rw [triple_dbl]
  exact P256.rootless.represents_double hp

theorem represents_identity : Represents identity.triple (0 : P256.Point) :=
  represents_zero.mpr ⟨rfl, one_ne_zero, rfl⟩

theorem represents_fromAffine {P : P256.Point} {x y : FieldP256}
    (h : coordinates P = some (x, y)) :
    Represents (fromAffine x y).triple P :=
  represents_of_coordinates h

theorem triple_scalarMul (p : P3) (k : Nat) :
    (scalarMul p256 p k).triple =
      multiple P256.coefficientA P256.coefficientB p.triple
        (bits (Nat.size k) k) := by
  rw [bits_eq, multiple, scalarMul, List.foldl_map]
  refine (List.foldl_hom P3.triple fun acc i => ?_).symm
  split
  · rw [triple_add, triple_dbl]
  · rw [triple_dbl]

theorem represents_scalarMul {p : P3} {P : P256.Point}
    (hp : Represents p.triple P) (k : Nat) :
    Represents (scalarMul p256 p k).triple (k • P) := by
  rw [triple_scalarMul]
  exact P256.rootless.represents_multiple hp _ (Nat.lt_size_self k)

theorem aff_eq_ok {p : P3} {P : P256.Point} (hp : Represents p.triple P)
    {m : String} {xy : FieldP256 × FieldP256} :
    aff p m = .ok xy ↔ coordinates P = some xy := by
  have haffine : affine p = coordinates P := hp.coordinates_eq.symm
  rw [aff, haffine]
  cases coordinates P with
  | none => constructor <;> intro h <;> cases h
  | some xy' =>
      constructor
      · intro h
        cases h
        rfl
      · intro h
        cases h
        rfl

theorem ne_zero_of_aff {p : P3} {P : P256.Point} (hp : Represents p.triple P)
    {m : String} {xy : FieldP256 × FieldP256} (h : aff p m = .ok xy) :
    P ≠ 0 := by
  intro hzero
  have hnone := coordinates_eq_none.mpr hzero
  rw [(aff_eq_ok hp).mp h] at hnone
  cases hnone

/-- A point other than the identity has affine coordinates. -/
theorem exists_aff {p : P3} {P : P256.Point} (hp : Represents p.triple P)
    (hne : P ≠ 0) (m : String) :
    ∃ xy, aff p m = .ok xy ∧ coordinates P = some xy := by
  cases hcoordinates : coordinates P with
  | none => exact absurd (coordinates_eq_none.mp hcoordinates) hne
  | some xy => exact ⟨xy, (aff_eq_ok hp).mpr hcoordinates, rfl⟩

theorem onCurve_eq_true {x y : FieldP256} :
    onCurve p256 coefficientB x y = true ↔ ∃ Q, P256.Key Q x y := by
  have hcurve : (∃ Q, P256.Key Q x y) ↔
      y ^ 2 = x ^ 3 + P256.coefficientA * x + P256.coefficientB :=
    P256.rootless.exists_coordinates
  rw [hcurve, onCurve, decide_eq_true_iff, pow_succ x 2]
  rfl

end Points

section Ladder

variable {Q R : P256.Point} {table : List P3} {eb rx mb : Bytes32}

/-- The entries of the table are the combinations of the generator, the key and
the recovered point by three bits. -/
def IsTable (Q R : P256.Point) (table : List P3) : Prop :=
  ∀ i j k, i < 2 → j < 2 → k < 2 →
    ∃ t, table[i + 2 * j + 4 * k]? = some t ∧
      Represents t.triple (combination P256.generator Q R i j k)

/-- What the bits above a position give. -/
def climb (Q R : P256.Point) (eb rx mb : Bytes32) (position : Nat) :
    P256.Point :=
  rung P256.generator Q R (fromBytesBe eb) (fromBytesBe rx) (fromBytesBe mb)
    position

theorem climb_start (Q R : P256.Point) (eb rx mb : Bytes32) :
    climb Q R eb rx mb 256 = 0 :=
  rung_start _ _ _ (fromBytesBe_lt eb) (fromBytesBe_lt rx) (fromBytesBe_lt mb)

theorem climb_eq {position : Nat} (h : position < 256) :
    climb Q R eb rx mb position =
      climb Q R eb rx mb (position + 1) + climb Q R eb rx mb (position + 1) +
        combination P256.generator Q R (bit eb position) (bit rx position)
          (bit mb position) := by
  rw [bit_eq eb h, bit_eq rx h, bit_eq mb h]
  exact rung_double_add _ _ _ _ _ _ position

/-- The accumulator after a step of the ladder. -/
def accumulator (out : List FieldP256) (j : Nat) : P3 :=
  ⟨out.getD (13 + 4 * j + 1) 0, out.getD (13 + 4 * j + 2) 0,
    out.getD (13 + 4 * j + 3) 0⟩

/-- The ladder before a step: the values so far and the accumulator. -/
structure Climbed (Q R : P256.Point) (eb rx mb : Bytes32)
    (head : List FieldP256) (j : Nat) (state : List FieldP256 × P3) :
    Prop where
  length : state.1.length = 13 + 4 * j
  head_prefix : head <+: state.1
  rungs : ∀ i < j, Represents (accumulator state.1 i).triple
    (climb Q R eb rx mb (255 - i))
  current : Represents state.2.triple (climb Q R eb rx mb (256 - j))
  last : 0 < j → state.2 = accumulator state.1 (j - 1)

theorem climbed_start {head : List FieldP256} (h : head.length = 13) :
    Climbed Q R eb rx mb head 0 (head, identity) where
  length := h
  head_prefix := List.prefix_refl head
  rungs := fun i hi => absurd hi (Nat.not_lt_zero i)
  current := by
    rw [Nat.sub_zero, climb_start]
    exact represents_identity
  last := fun hpos => absurd hpos (Nat.lt_irrefl 0)

theorem accumulator_append {out : List FieldP256} {j : Nat}
    (h : out.length = 13 + 4 * j) (index : FieldP256) (acc : P3) :
    accumulator (out ++ [index, acc.x, acc.y, acc.z]) j = acc ∧
      ∀ i < j, accumulator (out ++ [index, acc.x, acc.y, acc.z]) i =
        accumulator out i := by
  constructor
  · have hread (k : Nat) : (out ++ [index, acc.x, acc.y, acc.z]).getD
        (13 + 4 * j + k) 0 = [index, acc.x, acc.y, acc.z].getD k 0 := by
      rw [List.getD_append_right _ _ _ _ (by omega), h,
        Nat.add_sub_cancel_left]
    rw [accumulator, hread, hread, hread]
    rfl
  · intro i hi
    have hread (k : Nat) (hk : k < 4) :
        (out ++ [index, acc.x, acc.y, acc.z]).getD (13 + 4 * i + k) 0 =
          out.getD (13 + 4 * i + k) 0 :=
      List.getD_append _ _ _ _ (by omega)
    rw [accumulator, hread 1 (by decide), hread 2 (by decide),
      hread 3 (by decide), accumulator]

/-- The first step takes the entry itself, with its coordinates multiplied by
one of them. -/
theorem represents_scaled {t : P3} {P : P256.Point}
    (ht : Represents t.triple P) :
    Represents (P3.triple ⟨t.x * t.y, t.y * t.y, t.y * t.z⟩) P := by
  have hscale := ht.scale (P256.rootless.y_ne_zero_of_represents ht)
  have heq : P3.triple ⟨t.x * t.y, t.y * t.y, t.y * t.z⟩ =
      t.triple.scale t.triple.y := by
    simp [P3.triple, Triple.scale, mul_comm]
  rw [heq]
  exact hscale

theorem ladderStep_climbs (htable : IsTable Q R table) {head : List FieldP256}
    {j : Nat} (hj : j < 256) {state : List FieldP256 × P3}
    (h : Climbed Q R eb rx mb head j state) :
    Returns (ladderStep p256 table eb rx mb state j)
      (Climbed Q R eb rx mb head (j + 1)) := by
  obtain ⟨out, acc⟩ := state
  obtain ⟨t, hread, ht⟩ := htable _ _ _ (bit_lt eb (255 - j))
    (bit_lt rx (255 - j)) (bit_lt mb (255 - j))
  have hposition : 256 - j = 255 - j + 1 := by omega
  have hclimb : climb Q R eb rx mb (255 - j) = _ := climb_eq (by omega)
  rw [ladderStep]
  simp only [index_eq_ok.mpr hread, ok_bind]
  generalize hnext : (if j = 0 then (⟨t.x * t.y, t.y * t.y, t.y * t.z⟩ : P3)
    else add p256 (dbl p256 acc) t) = next
  have hrepresents : Represents next.triple (climb Q R eb rx mb (255 - j)) := by
    rw [hclimb, ← hposition, ← hnext]
    split
    · next hzero =>
        rw [hzero, Nat.sub_zero, climb_start, zero_add, zero_add]
        rw [hzero, Nat.sub_zero] at ht
        exact represents_scaled ht
    · exact represents_add (represents_dbl h.current) ht
  obtain ⟨hlast, hbefore⟩ := accumulator_append h.length
    (((2 * (bit eb (255 - j) + 2 * bit rx (255 - j) +
      4 * bit mb (255 - j)) : Nat) : FieldP256) - 7) next
  refine Returns.of_eq rfl ⟨?_, ?_, fun i hi => ?_, ?_, fun _ => hlast.symm⟩
  · rw [List.length_append, h.length]
    rfl
  · exact h.head_prefix.trans (List.prefix_append _ _)
  · rcases Nat.lt_succ_iff_lt_or_eq.mp hi with hlt | rfl
    · rw [hbefore i hlt]
      exact h.rungs i hlt
    · rw [hlast]
      exact hrepresents
  · have hnow : 256 - (j + 1) = 255 - j := by omega
    rw [hnow]
    exact hrepresents

/-- When the combination vanishes, the ladder ends at the identity. -/
theorem ladder_returns (htable : IsTable Q R table) {head : List FieldP256}
    (hhead : head.length = 13)
    (hzero : combination P256.generator Q R (fromBytesBe eb)
      (fromBytesBe rx) (fromBytesBe mb) = 0) :
    Returns (ladder p256 table eb rx mb head) fun out =>
      head <+: out ∧
      (∀ j < 256, Represents (accumulator out j).triple
        (climb Q R eb rx mb (255 - j))) ∧
      (accumulator out 255).x = 0 ∧ (accumulator out 255).z = 0 := by
  have hloop := Returns.foldlM (f := ladderStep p256 table eb rx mb)
    (I := Climbed Q R eb rx mb head) (List.range 256)
    (s := (head, identity)) (climbed_start hhead) fun j hj state hstate => by
      rw [List.getElem_range]
      exact ladderStep_climbs htable (by simpa using hj) hstate
  rw [List.length_range] at hloop
  obtain ⟨⟨out, acc⟩, hrun, hclimbed⟩ := hloop
  have hend : climb Q R eb rx mb 0 = 0 := by
    rw [climb, rung_zero]
    exact hzero
  have hcurrent := hclimbed.current
  rw [Nat.sub_self, hend, represents_zero] at hcurrent
  obtain ⟨hx, -, hz⟩ := hcurrent
  have hlast : acc = accumulator out 255 := hclimbed.last (by decide)
  refine Returns.of_eq ?_
    ⟨hclimbed.head_prefix, hclimbed.rungs, hlast ▸ hx, hlast ▸ hz⟩
  have hsatisfied : satisfied (decide (acc.x = 0 ∧ acc.z = 0))
      "the ladder does not end at the identity" = .ok () ↔ _ :=
    satisfied_eq_ok
  rw [ladder, hrun, ok_bind]
  simp only []
  rw [hsatisfied.mpr (decide_eq_true ⟨hx, hz⟩), ok_bind]
  rfl

end Ladder

section Verification

variable {qx qy d r s : Bytes32} {Q : P256.Point} {x y rx ry : FieldP256}

/-- The point that the digest, the signature and the key determine. -/
def recovered (Q : P256.Point) (d r s : Bytes32) : P256.Point :=
  P256.recovered Q (fromBytesBe d) (fromBytesBe r) (fromBytesBe s)

/-- The inputs are a key on the curve and a valid signature under it, outside
the degenerate cases. -/
structure Accepts (qx qy d r s : Bytes32) (Q : P256.Point)
    (x y rx ry : FieldP256) : Prop where
  key : P256.Key Q x y
  x_eq : x.val = fromBytesBe qx
  y_eq : y.val = fromBytesBe qy
  valid : P256.Valid Q (fromBytesBe d) (fromBytesBe r) (fromBytesBe s)
  coordinates_eq : coordinates (recovered Q d r s) = some (rx, ry)
  nondegenerate : P256.Nondegenerate Q (recovered Q d r s)
  x_ne_zero : x ≠ 0
  rx_ne_zero : rx ≠ 0

/-- The values for a signature: the coordinates of the recovered point, the
three inverses, and the accumulators of the ladder. -/
structure IsTrace (Q : P256.Point) (d r s : Bytes32) (x rx ry : FieldP256)
    (out : List FieldP256) : Prop where
  length : out.length = traceLen
  recovered_eq : out[0]? = some rx ∧ out[1]? = some ry
  rx_inverse : ∃ v, out[2]? = some v ∧ rx * v = 1
  m_inverse : ∃ v, out[3]? = some v ∧
    ((P256.order - fromBytesBe s : Nat) : FieldP256) * v = 1
  x_inverse : ∃ v, out[4]? = some v ∧ x * v = 1
  accumulators : ∀ j < 256, Represents (accumulator out j).triple
    (combination P256.generator Q (recovered Q d r s)
      (fromBytesBe d % P256.order / 2 ^ (255 - j)) (rx.val / 2 ^ (255 - j))
      ((P256.order - fromBytesBe s) / 2 ^ (255 - j)))
  ends : (accumulator out 255).x = 0 ∧ (accumulator out 255).z = 0

theorem represents_recovered (hkey : P256.Key Q x y)
    (hs : (fromBytesBe s : ZMod P256.order) ≠ 0) :
    Represents (add p256
      (scalarMul p256 (fromAffine generatorX generatorY)
        (fromBytesBe d % orderN *
          modpow (fromBytesBe s) (orderN - 2) orderN % orderN))
      (scalarMul p256 (fromAffine x y)
        (fromBytesBe r *
          modpow (fromBytesBe s) (orderN - 2) orderN % orderN))).triple
      (recovered Q d r s) := by
  have hgenerator : Represents (fromAffine generatorX generatorY).triple
      P256.generator := P256.generator_represents
  have hinverse := cast_modpow hs
  have hfirst := represents_scalarMul hgenerator (fromBytesBe d % orderN *
    modpow (fromBytesBe s) (orderN - 2) orderN % orderN)
  have hsecond := represents_scalarMul (represents_fromAffine hkey)
    (fromBytesBe r * modpow (fromBytesBe s) (orderN - 2) orderN % orderN)
  have hsum := represents_add hfirst hsecond
  generalize modpow (fromBytesBe s) (orderN - 2) orderN = w at *
  have hu : ((fromBytesBe d % orderN * w % orderN : Nat) :
      ZMod P256.order) = (((fromBytesBe d : ZMod P256.order) /
        (fromBytesBe s : ZMod P256.order)).val : ZMod P256.order) := by
    rw [orderN_eq, ZMod.natCast_mod, Nat.cast_mul, ZMod.natCast_mod, hinverse,
      ZMod.natCast_zmod_val, div_eq_mul_inv]
  have hv : ((fromBytesBe r * w % orderN : Nat) :
      ZMod P256.order) = (((fromBytesBe r : ZMod P256.order) /
        (fromBytesBe s : ZMod P256.order)).val : ZMod P256.order) := by
    rw [orderN_eq, ZMod.natCast_mod, Nat.cast_mul, hinverse,
      ZMod.natCast_zmod_val, div_eq_mul_inv]
  rw [nsmul_eq_of_cast_eq P256.order_nsmul hu,
    nsmul_eq_of_cast_eq P256.order_nsmul hv] at hsum
  exact hsum

theorem cast_ne_zero {v : Nat} (hpos : 0 < v) (hlt : v < P256.order) :
    (v : ZMod P256.order) ≠ 0 := by
  rw [Ne, ZMod.natCast_eq_zero_iff]
  exact Nat.not_dvd_of_pos_of_lt hpos hlt

theorem scalars_in_range {r s : Nat}
    (h : (decide ¬ (r = 0 ∨ orderN ≤ r ∨ s = 0 ∨ orderN ≤ s)) = true) :
    0 < r ∧ r < P256.order ∧ 0 < s ∧ s < P256.order := by
  have hnot := of_decide_eq_true h
  rw [orderN_eq] at hnot
  omega

theorem fromBytesBe_feBeBytes (x : FieldP256) :
    fromBytesBe (feBeBytes x) = x.val := by
  have hlt : x.val < 2 ^ 256 := (ZMod.val_lt x).trans (by decide)
  exact fromBytesBe_be32 hlt

/-- What the verification accepts. -/
theorem accepts_of_ok {out : List FieldP256}
    (h : verification qx qy d r s = .ok out) :
    ∃ Q x y rx ry, Accepts qx qy d r s Q x y rx ry := by
  unfold verification verificationOn at h
  extract_lets rb sb e w u1 u2 m eb mb at h
  obtain ⟨_, hscalars, h⟩ := Exec.bind_eq_ok.mp h
  obtain ⟨hr, hrlt, hs, hslt⟩ := scalars_in_range (satisfied_eq_ok.mp hscalars)
  obtain ⟨x, hx, h⟩ := Exec.bind_eq_ok.mp h
  obtain ⟨y, hy, h⟩ := Exec.bind_eq_ok.mp h
  obtain ⟨_, hcurve, h⟩ := Exec.bind_eq_ok.mp h
  obtain ⟨Q, hkey⟩ := onCurve_eq_true.mp (satisfied_eq_ok.mp hcurve)
  extract_lets q rp at h
  have hrp : Represents rp.triple (recovered Q d r s) :=
    represents_recovered hkey (cast_ne_zero hs hslt)
  obtain ⟨⟨rx, ry⟩, hrecovered, h⟩ := Exec.bind_eq_ok.mp h
  have hcoordinates := (aff_eq_ok hrp).mp hrecovered
  obtain ⟨_, hreduced, h⟩ := Exec.bind_eq_ok.mp h
  have hreduced := of_decide_eq_true (satisfied_eq_ok.mp hreduced)
  rw [fromBytesBe_feBeBytes] at hreduced
  have hg : Represents (fromAffine generatorX generatorY).triple
      P256.generator := P256.generator_represents
  have hq : Represents q.triple Q := represents_fromAffine hkey
  clear_value q rp u1 u2 w e eb mb
  obtain ⟨gq, hgq, h⟩ := Exec.bind_eq_ok.mp h
  obtain ⟨gr, hgr, h⟩ := Exec.bind_eq_ok.mp h
  obtain ⟨rq, hrq, h⟩ := Exec.bind_eq_ok.mp h
  have hrq' := (aff_eq_ok (represents_add hrp hq)).mp hrq
  obtain ⟨grq, hgrq, h⟩ := Exec.bind_eq_ok.mp h
  obtain ⟨rxInv, hrx, h⟩ := Exec.bind_eq_ok.mp h
  obtain ⟨mf, -, h⟩ := Exec.bind_eq_ok.mp h
  obtain ⟨mInv, -, h⟩ := Exec.bind_eq_ok.mp h
  obtain ⟨qxInv, hqx, -⟩ := Exec.bind_eq_ok.mp h
  refine ⟨Q, x, y, rx, ry, hkey, feBe_eq_ok.mp hx, feBe_eq_ok.mp hy,
    ⟨hr, hrlt, hs, hslt, rx, ry, hcoordinates, hreduced⟩, hcoordinates,
    ⟨?_, ?_, ?_, ?_⟩, (inv_eq_ok.mp hqx).1, (inv_eq_ok.mp hrx).1⟩
  · exact ne_zero_of_aff (represents_add hg hq) hgq
  · exact ne_zero_of_aff (represents_add hg hrp) hgr
  · exact ne_zero_of_aff (represents_add hrp hq) hrq
  · exact ne_zero_of_aff
      (represents_add hg (represents_fromAffine hrq')) hgrq

theorem order_lt_modulus : P256.order < modulusP256 := by decide

theorem val_negative {s : Nat} (hlt : s < P256.order) :
    ((P256.order - s : Nat) : FieldP256).val = P256.order - s ∧
      ((P256.order - s : Nat) : FieldP256) ≠ 0 := by
  have hsmall : P256.order - s < modulusP256 :=
    (Nat.sub_le _ _).trans_lt order_lt_modulus
  refine ⟨ZMod.val_natCast_of_lt hsmall, fun hzero => ?_⟩
  have hval := ZMod.val_natCast_of_lt hsmall
  rw [hzero, ZMod.val_zero] at hval
  omega

/-- The points of the table are the combinations by three bits. -/
theorem isTable {R : P256.Point} {gq gr rq grq : FieldP256 × FieldP256}
    (hkey : P256.Key Q x y) (hR : coordinates R = some (rx, ry))
    (hgq : coordinates (P256.generator + Q) = some gq)
    (hgr : coordinates (P256.generator + R) = some gr)
    (hrq : coordinates (R + Q) = some rq)
    (hgrq : coordinates (P256.generator + (R + Q)) = some grq) :
    IsTable Q R [identity, fromAffine generatorX generatorY, fromAffine x y,
      fromAffine gq.1 gq.2, fromAffine rx ry, fromAffine gr.1 gr.2,
      fromAffine rq.1 rq.2, fromAffine grq.1 grq.2] := by
  have hg : Represents (fromAffine generatorX generatorY).triple
      P256.generator := P256.generator_represents
  intro i j k hi hj hk
  interval_cases i <;> interval_cases j <;> interval_cases k <;>
    refine ⟨_, rfl, ?_⟩ <;>
    simp only [combination, zero_nsmul, one_nsmul, zero_add, add_zero]
  · exact represents_identity
  · exact represents_fromAffine hR
  · exact represents_fromAffine hkey
  · rw [add_comm]
    exact represents_fromAffine hrq
  · exact hg
  · exact represents_fromAffine hgr
  · exact represents_fromAffine hgq
  · rw [add_assoc, add_comm Q]
    exact represents_fromAffine hgrq

/-- The verification succeeds, and the ladder with the x-coordinate of the
recovered point in the place of the first number ends at the identity. -/
theorem verification_returns (h : Accepts qx qy d r s Q x y rx ry) :
    Returns (verification qx qy d r s) (IsTrace Q d r s x rx ry) := by
  have hvalid := h.valid
  have hsne := cast_ne_zero hvalid.s_pos hvalid.s_lt
  obtain ⟨hmval, hmne⟩ := val_negative hvalid.s_lt
  have hg : Represents (fromAffine generatorX generatorY).triple
      P256.generator := P256.generator_represents
  have hreduced : rx.val % P256.order = fromBytesBe r := by
    obtain ⟨rx', ry', heq, hmod⟩ := hvalid.reduced
    have hsame := h.coordinates_eq.symm.trans heq
    cases hsame
    exact hmod
  have hzero := P256.combination_recovered (Q := Q)
    (e := fromBytesBe d) (r := fromBytesBe r) (k := fromBytesBe d % P256.order)
    (l := rx.val) hvalid.s_pos hvalid.s_lt (ZMod.natCast_mod _ _)
    (by rw [← hreduced, ZMod.natCast_mod])
  unfold verification verificationOn
  extract_lets rb sb e w u1 u2 m eb mb
  have hscalars : ¬ (rb = 0 ∨ p256.n ≤ rb ∨ sb = 0 ∨ p256.n ≤ sb) := by
    have hr := hvalid.r_pos
    have hrlt := hvalid.r_lt
    have hs := hvalid.s_pos
    have hslt := hvalid.s_lt
    change ¬ (fromBytesBe r = 0 ∨ P256.order ≤ fromBytesBe r ∨
      fromBytesBe s = 0 ∨ P256.order ≤ fromBytesBe s)
    omega
  have heb : fromBytesBe eb = fromBytesBe d % P256.order :=
    fromBytesBe_be32 ((Nat.mod_lt _ (NeZero.pos P256.order)).trans
      (by decide))
  have hmb : fromBytesBe mb = P256.order - fromBytesBe s :=
    fromBytesBe_be32 ((Nat.sub_le _ _).trans_lt (by decide))
  refine Returns.bind_of_eq (a := ())
    (satisfied_eq_ok.mpr (decide_eq_true hscalars)) ?_
  refine Returns.bind_of_eq (feBe_eq_ok.mpr h.x_eq) ?_
  refine Returns.bind_of_eq (feBe_eq_ok.mpr h.y_eq) ?_
  refine Returns.bind_of_eq (a := ())
    (satisfied_eq_ok.mpr (onCurve_eq_true.mpr ⟨Q, h.key⟩)) ?_
  extract_lets q rp
  have hrp : Represents rp.triple (recovered Q d r s) :=
    represents_recovered h.key hsne
  have hq : Represents q.triple Q := represents_fromAffine h.key
  have hgq := exists_aff (represents_add hg hq)
    h.nondegenerate.generator_add_key
  have hgr := exists_aff (represents_add hg hrp)
    h.nondegenerate.generator_add_recovered
  have hrq := exists_aff (represents_add hrp hq)
    h.nondegenerate.recovered_add_key
  refine Returns.bind_of_eq ((aff_eq_ok hrp).mpr h.coordinates_eq) ?_
  extract_lets rxBytes
  have hrx : fromBytesBe rxBytes = rx.val := fromBytesBe_feBeBytes rx
  refine Returns.bind_of_eq (a := ())
    (satisfied_eq_ok.mpr (decide_eq_true (hrx ▸ hreduced))) ?_
  clear_value rp u1 u2 w eb mb rxBytes
  obtain ⟨gq, hgq, hgq'⟩ := hgq "G + Q is the identity"
  obtain ⟨gr, hgr, hgr'⟩ := hgr "G + R is the identity"
  obtain ⟨rq, hrq, hrq'⟩ := hrq "R + Q is the identity"
  have hgrq := exists_aff (represents_add hg (represents_fromAffine hrq'))
    h.nondegenerate.generator_add_sum
  obtain ⟨grq, hgrq, hgrq'⟩ := hgrq "G + R + Q is the identity"
  refine Returns.bind_of_eq hgq ?_
  refine Returns.bind_of_eq hgr ?_
  refine Returns.bind_of_eq hrq ?_
  refine Returns.bind_of_eq hgrq ?_
  refine Returns.bind_of_eq (inv_eq_ok.mpr ⟨h.rx_ne_zero, rfl⟩) ?_
  refine Returns.bind_of_eq (feBe_eq_ok.mpr (hmval.trans hmb.symm)) ?_
  refine Returns.bind_of_eq (inv_eq_ok.mpr ⟨hmne, rfl⟩) ?_
  refine Returns.bind_of_eq (inv_eq_ok.mpr ⟨h.x_ne_zero, rfl⟩) ?_
  extract_lets out table
  have htable : IsTable Q (recovered Q d r s) table :=
    isTable h.key h.coordinates_eq hgq' hgr' hrq' hgrq'
  have hrun : Returns (ladder p256 table eb rxBytes mb out) _ :=
    ladder_returns htable rfl (by rw [heb, hrx, hmb]; exact hzero)
  have hsafe : Safe (ladder p256 table eb rxBytes mb out) _ :=
    ladder_safe p256 rfl eb rxBytes mb rfl
  have hlength := hsafe.ensures
  refine (hrun.and_ensures hlength).mono ?_
  rintro _ ⟨⟨⟨rest, rfl⟩, haccumulators, hends⟩, hlength⟩
  refine ⟨hlength, ⟨rfl, rfl⟩, ⟨_, rfl, mul_inv_cancel₀ h.rx_ne_zero⟩,
    ⟨_, rfl, mul_inv_cancel₀ hmne⟩, ⟨_, rfl, mul_inv_cancel₀ h.x_ne_zero⟩,
    fun j hj => ?_, hends⟩
  have haccumulator := haccumulators j hj
  rw [climb, heb, hrx, hmb] at haccumulator
  exact haccumulator

/-- The verification accepts exactly the valid signatures under keys on the
curve, outside the degenerate cases, and its values are then the coordinates of
the recovered point, genuine inverses, and the accumulators of a ladder over
the digest, the x-coordinate of the recovered point and the negative of the
second number of the signature, which ends at the identity. -/
theorem verification_exact (qx qy d r s : Bytes32) :
    ((∃ out, verification qx qy d r s = .ok out) ↔
      ∃ Q x y rx ry, Accepts qx qy d r s Q x y rx ry) ∧
    ∀ out Q x y rx ry, verification qx qy d r s = .ok out →
      Accepts qx qy d r s Q x y rx ry → IsTrace Q d r s x rx ry out := by
  refine ⟨⟨fun ⟨out, h⟩ => accepts_of_ok h, ?_⟩, ?_⟩
  · rintro ⟨Q, x, y, rx, ry, haccepts⟩
    obtain ⟨out, hout, -⟩ := verification_returns haccepts
    exact ⟨out, hout⟩
  · intro out Q x y rx ry hout haccepts
    obtain ⟨out', hout', htrace⟩ := verification_returns haccepts
    rw [hout] at hout'
    cases hout'
    exact htrace

end Verification

end Longfellow.Nymauth.Ecdsa
