/-
The values of the signature circuit for one ECDSA verification: the points and
inverses of the verification, and the accumulators of a ladder over bits.
-/
import Longfellow.Fields.P256
import Longfellow.Nymauth.Cbor

namespace Longfellow.Nymauth

open Exec

open scoped Numerals

/-- An array of 32 bytes. -/
abbrev Bytes32 := Vector UInt8 32

/-- An error about inputs that do not satisfy the statement. -/
def unsat {α : Type} (m : String) : Exec α :=
  fail s!"nymauth statement not satisfied: {m}"

namespace Ecdsa

/-- The number of values for one verification. -/
def traceLen : Nat := 13 + 4 * 256

/-- The order of the group. -/
def orderN : Nat :=
  0xffffffff00000000ffffffffffffffffbce6faada7179e84f3b9cac2fc632551

/-- The constant coefficient of the curve. -/
def coefficientB : FieldP256 :=
  (0x5ac635d8aa3a93e7b3ebbd55769886bc651d06b0cc53b0f63bce3c3e27d2604b : Nat)

def generatorX : FieldP256 :=
  (0x6b17d1f2e12c4247f8bce6e563a440f277037d812deb33a0f4a13945d898c296 : Nat)

def generatorY : FieldP256 :=
  (0x4fe342e2fe1a7f9b8ee7eb4a7c0f9e162bce33576b315ececbb6406837bf51f5 : Nat)

/-- Projective coordinates of a point. -/
structure P3 where
  x : FieldP256
  y : FieldP256
  z : FieldP256
deriving DecidableEq

/-- The number with the big-endian bytes. -/
def fromBytesBe (b : Bytes32) : Nat := Bytes.ofBeBytes b.toList

/-- A field element from a big-endian value below p. -/
def feBe (b : Bytes32) : Exec FieldP256 :=
  match CodecFieldElement.tryFrom b.toList.reverse with
  | some x => pure x
  | none => invalid "a coordinate is not below p"

/-- The big-endian bytes of a number of at most 256 bits. -/
def be32 (v : Nat) : Bytes32 :=
  ⟨(Bytes.leBytes 32 v).reverse.toArray, by simp⟩

def feBeBytes (x : FieldP256) : Bytes32 := be32 x.val

/-- The residue of a big-endian value. -/
def reduceModP (v : Bytes32) : Bytes32 := be32 (fromBytesBe v % modulusP256)

/-- A bit of a big-endian number of 256 bits. -/
def bit (b : Bytes32) (i : Nat) : Nat :=
  (b[31 - i / 8].toNat >>> (i % 8)) % 2

theorem bit_lt (b : Bytes32) (i : Nat) : bit b i < 2 := Nat.mod_lt _ (by decide)

structure Curve where
  a : FieldP256
  b3 : FieldP256
  n : Nat

def dbl (c : Curve) (p : P3) : P3 :=
  let (x, y, z) := (p.x, p.y, p.z)
  let two : FieldP256 := 2
  let (t0, t1, t2) := (x * x, y * y, z * z)
  let t3 := two * x * y
  let zz := two * x * z
  let yz := two * y * z
  let u := c.a * zz + c.b3 * t2
  let (v, w) := (t1 - u, t1 + u)
  let m := c.a * t0 - 9 * t2 + c.b3 * zz
  let n := 3 * t0 + c.a * t2
  ⟨t3 * v - yz * m, v * w + n * m, 4 * yz * t1⟩

def add (c : Curve) (p q : P3) : P3 :=
  let (x1, y1, z1, x2, y2, z2) := (p.x, p.y, p.z, q.x, q.y, q.z)
  let (t0, t1, t2) := (x1 * x2, y1 * y2, z1 * z2)
  let t3 := (x1 + y1) * (x2 + y2) - t0 - t1
  let t4 := (x1 + z1) * (x2 + z2) - t0 - t2
  let t5 := (y1 + z1) * (y2 + z2) - t1 - t2
  let zh := c.a * t4 + c.b3 * t2
  let (xh, zo) := (t1 - zh, t1 + zh)
  let r1 := 3 * t0 + c.a * t2
  let q4 := c.b3 * t4 + c.a * (t0 - c.a * t2)
  ⟨t3 * xh - t5 * q4, xh * zo + r1 * q4, t5 * zo + t3 * r1⟩

def identity : P3 := ⟨0, 1, 0⟩

/-- A multiple of a point, by its bits from the highest one. -/
def scalarMul (c : Curve) (p : P3) (k : Nat) : P3 :=
  (List.range (Nat.size k)).reverse.foldl
    (fun acc i =>
      let acc := dbl c acc
      if k.testBit i then add c acc p else acc)
    identity

def affine (p : P3) : Option (FieldP256 × FieldP256) :=
  if p.z = 0 then none
  else
    let zi := p.z⁻¹
    some (p.x * zi, p.y * zi)

def fromAffine (x y : FieldP256) : P3 := ⟨x, y, 1⟩

def onCurve (c : Curve) (b x y : FieldP256) : Bool :=
  y ^ 2 = x ^ 2 * x + c.a * x + b

/-- A power modulo a number, for exponents of at most 256 bits. -/
def modpow (base e n : Nat) : Nat := Primality.powMod n 256 e base 1

/-- Refuse inputs that do not satisfy the statement. -/
def satisfied (holds : Bool) (m : String) : Exec Unit :=
  if holds then pure () else unsat m

/-- The affine coordinates of a point that must not be the identity. -/
def aff (p : P3) (m : String) : Exec (FieldP256 × FieldP256) :=
  match affine p with
  | some xy => pure xy
  | none => unsat m

/-- The inverse of an element that must not be zero. -/
def inv (x : FieldP256) (m : String) : Exec FieldP256 :=
  if x = 0 then unsat m else pure x⁻¹

/-- One step of the ladder: the accumulator is doubled, an entry of the table
is added to it, and both are pushed. -/
def ladderStep (c : Curve) (table : List P3) (eb rx mb : Bytes32)
    (state : List FieldP256 × P3) (j : Nat) :
    Exec (List FieldP256 × P3) := do
  let (out, acc) := state
  let pos := 255 - j
  let idx := bit eb pos + 2 * bit rx pos + 4 * bit mb pos
  let t ← index table idx
  let acc : P3 :=
    if j = 0 then ⟨t.x * t.y, t.y * t.y, t.y * t.z⟩
    else add c (dbl c acc) t
  pure (out ++ [((2 * idx : Nat) : FieldP256) - 7, acc.x, acc.y, acc.z], acc)

/-- The ladder, which must end at the identity. -/
def ladder (c : Curve) (table : List P3) (eb rx mb : Bytes32)
    (out : List FieldP256) : Exec (List FieldP256) := do
  let (out, acc) ← (List.range 256).foldlM (ladderStep c table eb rx mb)
    (out, identity)
  satisfied (acc.x = 0 ∧ acc.z = 0) "the ladder does not end at the identity"
  pure out

/-- The values for the verification of the signature `(r, s)` on the digest `d`
under the key `(qx, qy)`, on the curve with the constant coefficient `b` and the
generator `g`. -/
def verificationOn (c : Curve) (b : FieldP256) (g : P3)
    (qx qy d r s : Bytes32) : Exec (List FieldP256) := do
  let rb := fromBytesBe r
  let sb := fromBytesBe s
  satisfied (¬ (rb = 0 ∨ c.n ≤ rb ∨ sb = 0 ∨ c.n ≤ sb))
    "signature scalar out of range"
  let qxf ← feBe qx
  let qyf ← feBe qy
  satisfied (onCurve c b qxf qyf) "key is not on the curve"
  let e := fromBytesBe d % c.n
  let w := modpow sb (c.n - 2) c.n
  let u1 := e * w % c.n
  let u2 := rb * w % c.n
  let q := fromAffine qxf qyf
  let rp := add c (scalarMul c g u1) (scalarMul c q u2)
  let rf ← aff rp "R is the identity"
  let rx := feBeBytes rf.1
  satisfied (fromBytesBe rx % c.n = rb) "signature does not verify"
  let m := c.n - sb
  let eb := be32 e
  let mb := be32 m
  let gq ← aff (add c g q) "G + Q is the identity"
  let gr ← aff (add c g rp) "G + R is the identity"
  let rq ← aff (add c rp q) "R + Q is the identity"
  let rqP := fromAffine rq.1 rq.2
  let grq ← aff (add c g rqP) "G + R + Q is the identity"
  let rxInv ← inv rf.1 "rx is zero"
  let mf ← feBe mb
  let mInv ← inv mf "m is zero"
  let qxInv ← inv qxf "Qx is zero"
  let out := [rf.1, rf.2, rxInv, mInv, qxInv] ++
    [gq, gr, rq, grq].flatMap fun pt => [pt.1, pt.2]
  let table := [identity, g, q, fromAffine gq.1 gq.2, fromAffine rf.1 rf.2,
    fromAffine gr.1 gr.2, rqP, fromAffine grq.1 grq.2]
  ladder c table eb rx mb out

/-- The values for the verification of the signature `(r, s)` on the digest `d`
under the key `(qx, qy)`. -/
def verification (qx qy d r s : Bytes32) : Exec (List FieldP256) :=
  verificationOn ⟨-3, 3 * coefficientB, orderN⟩ coefficientB
    (fromAffine generatorX generatorY) qx qy d r s

section Length

theorem satisfied_safe (holds : Bool) (m : String) :
    Safe (satisfied holds m) fun _ => True := by
  rw [satisfied]
  split <;> trivial

theorem feBe_safe (b : Bytes32) : Safe (feBe b) fun _ => True := by
  rw [feBe]
  split <;> trivial

theorem aff_safe (p : P3) (m : String) : Safe (aff p m) fun _ => True := by
  rw [aff]
  split <;> trivial

theorem inv_safe (x : FieldP256) (m : String) :
    Safe (inv x m) fun _ => True := by
  rw [inv]
  split <;> trivial

theorem ladderStep_returns (c : Curve) {table : List P3}
    (htable : table.length = 8) (eb rx mb : Bytes32)
    (state : List FieldP256 × P3) (j : Nat) :
    Returns (ladderStep c table eb rx mb state j) fun next =>
      next.1.length = state.1.length + 4 := by
  have hindex : bit eb (255 - j) + 2 * bit rx (255 - j) +
      4 * bit mb (255 - j) < table.length := by
    have heb := bit_lt eb (255 - j)
    have hrx := bit_lt rx (255 - j)
    have hmb := bit_lt mb (255 - j)
    omega
  rw [ladderStep]
  simp only [index_of_lt hindex, ok_bind]
  exact Returns.of_eq rfl (by simp)

theorem ladder_safe (c : Curve) {table : List P3}
    (htable : table.length = 8) (eb rx mb : Bytes32) {out : List FieldP256}
    (hout : out.length = 13) :
    Safe (ladder c table eb rx mb out) fun out => out.length = traceLen := by
  have hloop := Returns.foldlM (f := ladderStep c table eb rx mb)
    (I := fun j state => state.1.length = 13 + 4 * j) (List.range 256)
    (s := (out, identity)) hout fun j hj state hstate =>
      (ladderStep_returns c htable eb rx mb state _).mono fun next hnext => by
        rw [hnext, hstate]
        omega
  rw [List.length_range] at hloop
  exact hloop.safe.bind fun state hstate =>
    (satisfied_safe _ _).bind fun _ _ => hstate

theorem verificationOn_safe (c : Curve) (b : FieldP256) (g : P3)
    (qx qy d r s : Bytes32) :
    Safe (verificationOn c b g qx qy d r s) fun out =>
      out.length = traceLen := by
  unfold verificationOn
  extract_lets rb sb e w u1 u2 m eb mb
  refine (satisfied_safe _ _).bind fun _ _ => ?_
  refine (feBe_safe qx).bind fun qxf _ => ?_
  refine (feBe_safe qy).bind fun qyf _ => ?_
  refine (satisfied_safe _ _).bind fun _ _ => ?_
  extract_lets q rp
  clear_value eb mb rp
  refine (aff_safe rp _).bind fun rf _ => ?_
  extract_lets rx
  clear_value rx
  refine (satisfied_safe _ _).bind fun _ _ => ?_
  refine (aff_safe _ _).bind fun gq _ => ?_
  refine (aff_safe _ _).bind fun gr _ => ?_
  refine (aff_safe _ _).bind fun rq _ => ?_
  extract_lets rqP
  refine (aff_safe _ _).bind fun grq _ => ?_
  refine (inv_safe _ _).bind fun rxInv _ => ?_
  refine (feBe_safe _).bind fun mf _ => ?_
  refine (inv_safe _ _).bind fun mInv _ => ?_
  refine (inv_safe _ _).bind fun qxInv _ => ?_
  extract_lets out table
  exact ladder_safe c rfl eb rx mb rfl

/-- The verification does not panic, and gives as many values as the witness
layout reserves for it. -/
theorem verification_safe (qx qy d r s : Bytes32) :
    Safe (verification qx qy d r s) fun out => out.length = traceLen :=
  verificationOn_safe _ _ _ qx qy d r s

end Length

section Formulas

open ShortWeierstrass

/-- The curve of the verification. -/
def p256 : Curve := ⟨-3, 3 * coefficientB, orderN⟩

def P3.triple (p : P3) : Triple FieldP256 := ⟨p.x, p.y, p.z⟩

theorem P3.triple_injective : Function.Injective P3.triple := by
  rintro ⟨x, y, z⟩ ⟨x', y', z'⟩ h
  simpa [triple] using h

theorem triple_add (p q : P3) :
    (add p256 p q).triple =
      ShortWeierstrass.add P256.coefficientA P256.coefficientB p.triple
        q.triple := by
  have hb : coefficientB = P256.coefficientB := rfl
  simp only [P3.triple, add, ShortWeierstrass.add, p256, hb, P256.coefficientA,
    Triple.mk.injEq]
  generalize P256.coefficientB = b
  refine ⟨?_, ?_, ?_⟩ <;> ring

theorem triple_dbl (p : P3) :
    (dbl p256 p).triple =
      ShortWeierstrass.double P256.coefficientA P256.coefficientB
        p.triple := by
  have hb : coefficientB = P256.coefficientB := rfl
  simp only [P3.triple, dbl, ShortWeierstrass.double, p256, hb,
    P256.coefficientA, Triple.mk.injEq]
  generalize P256.coefficientB = b
  refine ⟨?_, ?_, ?_⟩ <;> ring

end Formulas

end Ecdsa

end Longfellow.Nymauth
