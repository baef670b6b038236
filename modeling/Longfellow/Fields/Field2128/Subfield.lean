/-
The subfield with `2^16` elements: which elements are in it, and the codec that
writes them in two bytes.
-/
import Longfellow.Fields.Field2128.Constants
import Longfellow.Fields.FieldP128

namespace Longfellow.Field2_128

open Exec AdditiveFft Bytes

/-- Reduce an element by the row of a rank, and take its coefficients. -/
def uninjectStep (state : BitVec 128 × UInt16) (rank : Nat) :
    BitVec 128 × UInt16 :=
  let decomposition := subfieldBasisLuDecomposition
  let (remainder, subfieldEncoding) := state
  let bit := remainder.getLsbD (decomposition.firstNonzero.getD rank 0)
  (remainder ^^^ (if bit then decomposition.upper.getD rank 0 else 0),
    subfieldEncoding ^^^
      (if bit then decomposition.lowerInverse.getD rank 0 else 0))

/-- The value that an element of the subfield is injected from. -/
def uninject (x : Field2_128) : Option UInt16 :=
  let (remainder, subfieldEncoding) :=
    (List.range 16).foldl uninjectStep (x.bits, 0)
  if remainder = 0 then some subfieldEncoding else none

section Uninject

theorem ext_bits {x y : Field2_128} (h : x.bits = y.bits) : x = y := by
  cases x
  cases y
  rw [mk.injEq]
  exact h

theorem bits_add (x y : Field2_128) : (x + y).bits = x.bits ^^^ y.bits := rfl

theorem bits_zero : (0 : Field2_128).bits = 0#128 := rfl

/-- What is left of an element by the rows of some ranks. -/
def remainderOf (ranks : List Nat) (x : BitVec 128) : BitVec 128 :=
  (ranks.foldl uninjectStep (x, 0)).1

theorem foldl_uninjectStep_fst (ranks : List Nat) (x : BitVec 128)
    (subfieldEncoding : UInt16) :
    (ranks.foldl uninjectStep (x, subfieldEncoding)).1 =
      remainderOf ranks x := by
  rw [remainderOf]
  generalize (0 : UInt16) = other
  induction ranks generalizing x subfieldEncoding other with
  | nil => rfl
  | cons rank ranks ih =>
      rw [List.foldl_cons, List.foldl_cons]
      exact ih _ _ _

theorem remainderOf_cons (rank : Nat) (ranks : List Nat) (x : BitVec 128) :
    remainderOf (rank :: ranks) x =
      remainderOf ranks (uninjectStep (x, 0) rank).1 := by
  rw [remainderOf, List.foldl_cons]
  exact foldl_uninjectStep_fst _ _ _

/-- Reducing by rows is linear. -/
theorem remainderOf_xor (ranks : List Nat) (x y : BitVec 128) :
    remainderOf ranks (x ^^^ y) =
      remainderOf ranks x ^^^ remainderOf ranks y := by
  induction ranks generalizing x y with
  | nil => rfl
  | cons rank ranks ih =>
      rw [remainderOf_cons, remainderOf_cons, remainderOf_cons, ← ih]
      congr 1
      simp only [uninjectStep, BitVec.getLsbD_xor]
      generalize subfieldBasisLuDecomposition.upper.getD rank 0 = row
      generalize subfieldBasisLuDecomposition.firstNonzero.getD rank 0 = pivot
      cases x.getLsbD pivot
      · cases y.getLsbD pivot
        · simp
        · simp [BitVec.xor_assoc]
      · cases y.getLsbD pivot
        · simp only [Bool.xor_false, if_true, Bool.false_eq_true, if_false]
          ac_rfl
        · have hswap : x ^^^ row ^^^ (y ^^^ row) =
              x ^^^ y ^^^ (row ^^^ row) := by ac_rfl
          simp [hswap]

/-- The elements of the basis reduce to zero. -/
theorem remainderOf_basisAt : ∀ k, k < 16 →
    remainderOf (List.range 16) (basisAt k).bits = 0 := by
  decide

/-- Elements of the subfield reduce to zero. -/
theorem remainderOf_inject (value : UInt16) :
    remainderOf (List.range 16) (inject value).bits = 0 := by
  let φ : Field2_128 →+ Field2_128 :=
    ⟨⟨fun x => ⟨remainderOf (List.range 16) x.bits⟩, by rfl⟩,
      fun x y => ext_bits (remainderOf_xor (List.range 16) x.bits y.bits)⟩
  have hbasis (k : Nat) (hk : k < 16) : φ (basisAt k) = 0 :=
    ext_bits (remainderOf_basisAt k hk)
  have hzero : φ (inject value) = 0 := by
    rw [inject_eq_bitSum, map_bitSum,
      bitSum_congr (g := fun _ => 0) value.toNat_lt hbasis, bitSum]
    simp
  exact congrArg Field2_128.bits hzero

/-- What has been taken off an element is injected from its coefficients. -/
theorem foldl_uninjectStep (ranks : List Nat) (hranks : ∀ r ∈ ranks, r < 16)
    (x : BitVec 128) (subfieldEncoding : UInt16) :
    let state := ranks.foldl uninjectStep (x, subfieldEncoding)
    state.1 ^^^ (inject state.2).bits =
      x ^^^ (inject subfieldEncoding).bits := by
  have hrow : ∀ rank, rank < 16 →
      (inject (subfieldBasisLuDecomposition.lowerInverse.getD rank 0)).bits =
        subfieldBasisLuDecomposition.upper.getD rank 0 := by
    decide
  induction ranks generalizing x subfieldEncoding with
  | nil => rfl
  | cons rank ranks ih =>
      rw [List.forall_mem_cons] at hranks
      intro state
      have hrest := ih hranks.2 (uninjectStep (x, subfieldEncoding) rank).1
        (uninjectStep (x, subfieldEncoding) rank).2
      refine hrest.trans ?_
      simp only [uninjectStep]
      cases x.getLsbD (subfieldBasisLuDecomposition.firstNonzero.getD rank 0)
      · simp
      · have hxor := congrArg Field2_128.bits (inject_xor subfieldEncoding
          (subfieldBasisLuDecomposition.lowerInverse.getD rank 0))
        simp only [if_true]
        rw [hxor, bits_add, hrow rank hranks.1]
        have hswap (a b c : BitVec 128) : a ^^^ b ^^^ (c ^^^ b) =
            a ^^^ c ^^^ (b ^^^ b) := by ac_rfl
        simp [hswap]

/-- An element is in the subfield exactly if a value is injected to it, and
then that value is found. -/
theorem uninject_eq_some_iff (x : Field2_128) (value : UInt16) :
    x.uninject = some value ↔ x = inject value := by
  have hsound (v : UInt16) (h : x.uninject = some v) : x = inject v := by
    have hfold := foldl_uninjectStep (List.range 16)
      (fun r hr => List.mem_range.mp hr) x.bits 0
    rw [uninject] at h
    split at h
    next remainder subfieldEncoding hstate =>
      by_cases hzero : remainder = 0
      · rw [if_pos hzero, Option.some.injEq] at h
        subst hzero h
        simp only [hstate, inject_zero, bits_zero, BitVec.xor_zero] at hfold
        exact ext_bits (hfold.symm.trans BitVec.zero_xor)
      · rw [if_neg hzero] at h
        cases h
  constructor
  · exact hsound value
  · intro hx
    have hzero : remainderOf (List.range 16) x.bits = 0 := by
      rw [hx]
      exact remainderOf_inject value
    have hsome : x.uninject =
        some ((List.range 16).foldl uninjectStep (x.bits, 0)).2 := by
      rw [uninject]
      exact if_pos hzero
    rw [hsome, Option.some.injEq]
    apply inject_injective
    rw [← hsound _ hsome, hx]

end Uninject

section Codec

/-- Read an element from exactly 16 bytes. -/
def tryFrom (bytes : List UInt8) : Option Field2_128 :=
  if bytes.length = 16 then some (ofBytes bytes) else none

/-- Decode an element. -/
def decode : Decoder Field2_128 := do
  let buffer ← Decoder.takeBytes 16 "failed to read Field2_128 element"
  pure (ofBytes buffer)

/-- The text that stands for an element in messages. -/
def debug (x : Field2_128) : String :=
  let digits := Nat.toDigits 16 x.bits.toNat
  "Field2_128(0x" ++
    String.ofList (List.replicate (32 - digits.length) '0' ++ digits) ++ ")"

/-- Whether an element is in the subfield. -/
def isInSubfield (x : Field2_128) : Bool := x.uninject.isSome

/-- Encode an element of the subfield by the value that it is injected from. -/
def encodeInSubfield (x : Field2_128) : Exec (List UInt8) :=
  match x.uninject with
  | some subfieldEncoding => pure (leBytes 2 subfieldEncoding.toNat)
  | none => fail ("GF(2^128) element " ++ x.debug ++ " is not in subfield")

/-- Decode a value of two bytes. -/
def decodeU16 : Decoder UInt16 := do
  let bytes ← Decoder.takeBytes 2 "failed to read u16"
  pure (UInt16.ofNat (ofLeBytes bytes))

/-- Decode elements of the subfield. -/
def decodeFixedArrayInSubfield (count : Nat) : Decoder (List Field2_128) := do
  let subfieldElements ← Decoder.replicate decodeU16 count
  pure (subfieldElements.map inject)

theorem decode_format :
    Decoder.Format decode (fun _ => True) encode := by
  intro bs x rest
  constructor
  · intro h
    obtain ⟨buffer, mid, hbuffer, hlast⟩ := Decoder.bind_eq_ok.mp h
    obtain ⟨hlength, rfl⟩ := (Decoder.Format.takeBytes 16 _ _ _ _).mp hbuffer
    obtain ⟨rfl, rfl⟩ := Decoder.pure_eq_ok.mp hlast
    refine ⟨trivial, ?_⟩
    have hlt : ofLeBytes buffer < 2 ^ 128 := by
      have h := ofLeBytes_lt buffer
      rwa [hlength] at h
    rw [encode, ofBytes, BitVec.toNat_ofNat, Nat.mod_eq_of_lt hlt, ← hlength,
      leBytes_ofLeBytes]
  · rintro ⟨-, rfl⟩
    have hlast : Decoder.Reads (pure (ofBytes x.encode)) [] x := by
      have hx : ofBytes x.encode = x := by
        apply ext_bits
        rw [ofBytes, encode, ofLeBytes_leBytes 16 x.bits.isLt,
          BitVec.ofNat_toNat, BitVec.setWidth_eq]
      rw [hx]
      exact Decoder.Reads.pure x
    have hread := (Decoder.takeBytes_reads (length_encode x)
      "failed to read Field2_128 element").bind
      (f := fun buffer => pure (ofBytes buffer)) hlast
    rw [List.append_nil] at hread
    exact hread rest

theorem decode_safe : Decoder.Safe decode fun _ => True :=
  (Decoder.takeBytes_safe 16 _).bind fun _ _ => Decoder.Safe.pure trivial

theorem decodeU16_safe : Decoder.Safe decodeU16 fun _ => True :=
  (Decoder.takeBytes_safe 2 _).bind fun _ _ => Decoder.Safe.pure trivial

theorem decodeU16_reads (value : UInt16) :
    Decoder.Reads decodeU16 (leBytes 2 value.toNat) value := by
  have hlast : Decoder.Reads
      (pure (UInt16.ofNat (ofLeBytes (leBytes 2 value.toNat)))) [] value := by
    rw [ofLeBytes_leBytes 2 value.toNat_lt, UInt16.ofNat_toNat]
    exact Decoder.Reads.pure value
  have hread := (Decoder.takeBytes_reads (length_leBytes 2 value.toNat)
    "failed to read u16").bind
    (f := fun bytes => pure (UInt16.ofNat (ofLeBytes bytes))) hlast
  rwa [List.append_nil] at hread

theorem isInSubfield_iff (x : Field2_128) :
    x.isInSubfield = true ↔ ∃ value, x = inject value := by
  rw [isInSubfield, Option.isSome_iff_exists]
  simp only [uninject_eq_some_iff]

theorem encodeInSubfield_inject (value : UInt16) :
    encodeInSubfield (inject value) = .ok (leBytes 2 value.toNat) := by
  rw [encodeInSubfield, (uninject_eq_some_iff _ _).mpr rfl]
  rfl

/-- Elements of the subfield are decoded from their encodings. -/
theorem decodeFixedArrayInSubfield_reads {xs : List Field2_128}
    (hxs : ∀ x ∈ xs, x.isInSubfield = true) :
    ∃ encodings, xs.mapM encodeInSubfield = .ok encodings ∧
      Decoder.Reads (decodeFixedArrayInSubfield xs.length) encodings.flatten
        xs := by
  have hvalues : ∃ values : List UInt16, xs = values.map inject := by
    induction xs with
    | nil => exact ⟨[], rfl⟩
    | cons x xs ih =>
        rw [List.forall_mem_cons] at hxs
        obtain ⟨value, hvalue⟩ := (isInSubfield_iff x).mp hxs.1
        obtain ⟨values, hvalues⟩ := ih hxs.2
        exact ⟨value :: values, by rw [List.map_cons, hvalue, hvalues]⟩
  obtain ⟨values, rfl⟩ := hvalues
  refine ⟨values.map fun value => leBytes 2 value.toNat, ?_, ?_⟩
  · have hmap : ((values.map inject).mapM encodeInSubfield) =
        values.mapM fun value => encodeInSubfield (inject value) := by
      rw [List.mapM_map]
      rfl
    rw [hmap]
    exact mapM_eq_ok fun value _ => encodeInSubfield_inject value
  · rw [List.length_map, ← List.flatMap_def]
    have hread := (Decoder.replicate_reads values fun value _ =>
      decodeU16_reads value).bind
      (f := fun elements => pure (elements.map inject)) (Decoder.Reads.pure _)
    rwa [List.append_nil] at hread

/-- Undoing the injection decides membership in the subfield and finds the
value; distinct values are injected to distinct elements, and the codec of the
subfield reads back what it writes. -/
theorem uninject_inverts_inject :
    (∀ (x : Field2_128) (value : UInt16),
      x.uninject = some value ↔ x = inject value) ∧
    Function.Injective inject ∧
    (∀ x : Field2_128, x.isInSubfield = true ↔ x ∈ Set.range inject) ∧
    ∀ xs : List Field2_128, (∀ x ∈ xs, x.isInSubfield = true) →
      ∃ encodings, xs.mapM encodeInSubfield = .ok encodings ∧
        Decoder.Reads (decodeFixedArrayInSubfield xs.length) encodings.flatten
          xs := by
  refine ⟨uninject_eq_some_iff, inject_injective, fun x => ?_,
    fun xs hxs => decodeFixedArrayInSubfield_reads hxs⟩
  rw [isInSubfield_iff, Set.mem_range]
  constructor
  · rintro ⟨value, h⟩
    exact ⟨value, h.symm⟩
  · rintro ⟨value, h⟩
    exact ⟨value, h.symm⟩

end Codec

section Instances

instance : ProofFieldElement Field2_128 where
  numBits := 128
  fieldId := .gf2_128
  updateCircuitId := leBytes 8 2 ++ leBytes 8 128
  tryFrom := tryFrom
  encode := encode
  decode := decode
  isInSubfield := isInSubfield
  encodeInSubfield := encodeInSubfield
  decodeInSubfield := do
    let subfieldElement ← decodeU16
    pure (inject subfieldElement)
  largeCharacteristic := false
  sumcheckP2 := ⟨122753392676920971658749122761936853580⟩
  sumcheckP2MulInv := ⟨334209021876177427854041998379618990425⟩
  oneMinusSumcheckP2MulInv := ⟨184748276259172837197859239441540652321⟩
  sumcheckP2SquaredMinusSumcheckP2MulInv :=
    ⟨150968175972766452367765019741058622584⟩

instance : LawfulCodec Field2_128 where
  length_encode := length_encode
  decode_reads x := decode_format.reads (a := x) trivial
  decode_safe := decode_safe
  decodeInSubfield_reads x hx := by
    obtain ⟨value, rfl⟩ := (isInSubfield_iff x).mp hx
    refine ⟨leBytes 2 value.toNat, encodeInSubfield_inject value, ?_⟩
    have hread := (decodeU16_reads value).bind
      (f := fun element => pure (inject element)) (Decoder.Reads.pure _)
    rwa [List.append_nil] at hread
  decodeInSubfield_safe := decodeU16_safe.bind fun _ _ =>
    Decoder.Safe.pure trivial
  encodeInSubfield_fails x hx := by
    have hnone : x.uninject = none := by
      rw [← Option.not_isSome_iff_eq_none]
      exact hx
    refine ⟨"GF(2^128) element " ++ x.debug ++ " is not in subfield", ?_⟩
    change encodeInSubfield x = _
    rw [encodeInSubfield, hnone]

instance : CanonicalCodec Field2_128 := ⟨decode_format⟩

instance : LawfulProofField Field2_128 where
  sumcheckP2_mul_inv := by decide
  one_minus_sumcheckP2_mul_inv := by decide
  sumcheckP2_squared_minus_sumcheckP2_mul_inv := by
    rw [← square_eq]
    decide
  sumcheckP2_of_large h := by cases h

end Instances

end Longfellow.Field2_128
