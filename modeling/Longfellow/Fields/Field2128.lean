/-
Elements of the field with `2^128` elements as bit vectors: addition, the
subfield basis, the bytes and the decomposition into bits.
-/
import Longfellow.Lib.Bytes
import Mathlib.Data.List.Range

namespace Longfellow

/-- An element of the field with `2^128` elements. -/
structure Field2_128 where
  bits : BitVec 128
deriving DecidableEq

namespace Field2_128

instance : Zero Field2_128 := ⟨⟨0⟩⟩

instance : One Field2_128 := ⟨⟨1⟩⟩

instance : Add Field2_128 := ⟨fun x y => ⟨x.bits ^^^ y.bits⟩⟩

instance : Sub Field2_128 := ⟨fun x y => ⟨x.bits ^^^ y.bits⟩⟩

/-- The basis of the subfield with `2^16` elements. -/
def subfieldBasis : List Field2_128 :=
  [ ⟨1⟩,
    ⟨122753392676920971658749122761936853580⟩,
    ⟨185726315739164108859399796142663757480⟩,
    ⟨242075443675499227109267320400911498989⟩,
    ⟨222542784214874944227167260511584909351⟩,
    ⟨112425233274138136655968706803108112542⟩,
    ⟨111955919296675432803292387102199683976⟩,
    ⟨98263563783606923211003062286538201250⟩,
    ⟨201564998845547644025367330818532893392⟩,
    ⟨160337305018218142404182087593505552404⟩,
    ⟨226322062164902409880343938983895220315⟩,
    ⟨162097237762330204766181745825071946233⟩,
    ⟨231881152083561309652087018093156258488⟩,
    ⟨285712114744156533702206238221900352048⟩,
    ⟨7298129229485713500594372746195714592⟩,
    ⟨33006046103584326006971076539670943571⟩ ]

/-- Inject a value with a limited number of bits. -/
def injectBits (bits : Nat) (value : UInt16) : Field2_128 :=
  ((subfieldBasis.take bits).foldl
    (fun (injected, value) basisElement =>
      (injected + (if value &&& 1 = 1 then basisElement else 0), value >>> 1))
    ((0 : Field2_128), value)).1

/-- Inject a value into the field using the subfield basis. -/
def inject (value : UInt16) : Field2_128 := injectBits 16 value

/-- The bytes of an element, the lowest one first. -/
def encode (x : Field2_128) : List UInt8 := Bytes.leBytes 16 x.bits.toNat

/-- Every sixteen bytes stand for an element. -/
def ofBytes (bytes : List UInt8) : Field2_128 :=
  ⟨BitVec.ofNat 128 (Bytes.ofLeBytes bytes)⟩

@[simp] theorem length_encode (x : Field2_128) : x.encode.length = 16 :=
  Bytes.length_leBytes _ _

/-- Decompose an element into bits. -/
def iterBits (x : Field2_128) : List Bool :=
  (List.range 128).map fun i => x.bits.getLsbD i

@[simp] theorem length_iterBits (x : Field2_128) : x.iterBits.length = 128 := by
  simp [iterBits]

theorem iterBits_inj {x y : Field2_128} (h : x.iterBits = y.iterBits) :
    x = y := by
  have hbits : x.bits = y.bits := by
    apply BitVec.eq_of_getLsbD_eq
    intro i hi
    have hget := congrArg (fun bits => bits[i]?) h
    simpa [iterBits, hi] using hget
  cases x
  cases y
  rw [mk.injEq]
  exact hbits

end Field2_128

end Longfellow
