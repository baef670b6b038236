/-
Private wires that are computed from bytes: plucked bits, offsets, and the
intermediate values of SHA-256.
-/
import Longfellow.MdocZk.Encoding

namespace Longfellow

namespace MdocZk

open Exec

open scoped Numerals

section BitPlucker

/-- Encode four bits into one element. -/
def pluck (value : UInt16) : Field2_128 :=
  Field2_128.injectBits 5 (2 * value) - Field2_128.inject 15

/-- Encode the low groups of four bits of a word. -/
def pluckWord : Nat → UInt32 → List Field2_128
  | 0, _ => []
  | n + 1, bits => pluck (bits.toUInt16 &&& 15) :: pluckWord n (bits >>> 4)

/-- Encode multiple words into multiple elements. -/
def encodeU32Array (words : List UInt32) : List Field2_128 :=
  words.flatMap (pluckWord 8)

/-- Encode two bits into one element. -/
def pluckP256 (value : UInt16) : FieldP256 :=
  ((2 * value.toNat : Nat) : FieldP256) - 3

/-- Encode the low groups of two bits of a byte. -/
def pluckByte : Nat → UInt8 → List FieldP256
  | 0, _ => []
  | n + 1, bits => pluckP256 (bits &&& 3).toUInt16 :: pluckByte n (bits >>> 2)

/-- Encode multiple bytes into multiple elements. -/
def encodeByteArray (bytes : List UInt8) : List FieldP256 :=
  bytes.flatMap (pluckByte 4)

@[simp] theorem length_pluckWord (n : Nat) (bits : UInt32) :
    (pluckWord n bits).length = n := by
  induction n generalizing bits with
  | zero => rfl
  | succ n ih => rw [pluckWord, List.length_cons, ih]

@[simp] theorem length_encodeU32Array (words : List UInt32) :
    (encodeU32Array words).length = words.length * 8 := by
  simp [encodeU32Array, List.length_flatMap]

@[simp] theorem length_pluckByte (n : Nat) (bits : UInt8) :
    (pluckByte n bits).length = n := by
  induction n generalizing bits with
  | zero => rfl
  | succ n ih => rw [pluckByte, List.length_cons, ih]

@[simp] theorem length_encodeByteArray (bytes : List UInt8) :
    (encodeByteArray bytes).length = bytes.length * 4 := by
  simp [encodeByteArray, List.length_flatMap]

end BitPlucker

section Offsets

/-- The low bits of a number as field elements, the lowest one first. -/
def wordBits : Nat → UInt16 → List Field2_128
  | 0, _ => []
  | n + 1, bits =>
      Field2_128.injectBits 1 (bits &&& 1) :: wordBits n (bits >>> 1)

/-- Encode a 12-bit integer as field elements, with one field element
representing each bit. -/
def u12AsBits (u12 : UInt16) : Exec (List Field2_128) := do
  ensure (u12 >>> 12 = 0) "CBOR offset is over 4095"
  pure (wordBits 12 u12)

/-- Encode a 2-bit integer as field elements, with one field element
representing each bit. -/
def u2AsBits (u2 : UInt8) : Exec (List Field2_128) := do
  ensure (u2 >>> 2 = 0) "Permutation index is over 3"
  pure (wordBits 2 u2.toUInt16)

/-- A size as a sixteen-bit number, if it is one. -/
def toU16 (size : Nat) : Exec UInt16 := do
  ensure (size < 2 ^ 16) "out of range integral type conversion attempted"
  pure (UInt16.ofNat size)

@[simp] theorem length_wordBits (n : Nat) (bits : UInt16) :
    (wordBits n bits).length = n := by
  induction n generalizing bits with
  | zero => rfl
  | succ n ih => rw [wordBits, List.length_cons, ih]

theorem length_u12AsBits {u12 : UInt16} {wires : List Field2_128}
    (h : u12AsBits u12 = .ok wires) : wires.length = 12 := by
  obtain ⟨_, -, h⟩ := Exec.bind_eq_ok.mp h
  cases h
  exact length_wordBits 12 u12

theorem length_u2AsBits {u2 : UInt8} {wires : List Field2_128}
    (h : u2AsBits u2 = .ok wires) : wires.length = 2 := by
  obtain ⟨_, -, h⟩ := Exec.bind_eq_ok.mp h
  cases h
  exact length_wordBits 2 _

end Offsets

section Sha256

/-- The result of a SHA-256 hash operation, along with auxiliary information. -/
structure Sha256Result where
  digest : Sha256Digest
  paddedInput : List UInt8
  numBlocks : Nat

/-- The number of wires for one block. -/
def sha256BlockWitnessLength : Nat := 48 * 32 / 4 + 64 * 2 * 32 / 4 + 8 * 32 / 4

/-- Run the rounds of one block, and record the values `e` and `a` of each
state. -/
def witnessRounds : List (UInt32 × UInt32) → HashValue →
    HashValue × List Field2_128
  | [], state => (state, [])
  | (constant, word) :: rounds, state =>
      let state := round state constant word
      let rest := witnessRounds rounds state
      (rest.1, encodeU32Array [state.e, state.a] ++ rest.2)

/-- Add the state after the rounds to the hash value. -/
def addState (hash state : HashValue) : HashValue :=
  ⟨hash.a + state.a, hash.b + state.b, hash.c + state.c, hash.d + state.d,
    hash.e + state.e, hash.f + state.f, hash.g + state.g, hash.h + state.h⟩

/-- The wires of a hash value. -/
def encodeHashValue (hash : HashValue) : List Field2_128 :=
  encodeU32Array
    [hash.a, hash.b, hash.c, hash.d, hash.e, hash.f, hash.g, hash.h]

/-- Compute one block of SHA-256 and record witness values. -/
def witnessBlock (hash : HashValue) (messageBlock : List UInt8) :
    HashValue × List Field2_128 :=
  let schedule := messageSchedule messageBlock
  let rounds := witnessRounds (roundConstants.zip schedule) hash
  let hash := addState hash rounds.1
  (hash, encodeU32Array (schedule.drop 16) ++ rounds.2 ++ encodeHashValue hash)

/-- The loop over the blocks, which keeps the digest of one of them. -/
def witnessBlocks (numBlocks : Nat) : Nat → List (List UInt8) → HashValue →
    Option Sha256Digest × List Field2_128
  | _, [], _ => (none, [])
  | blockNumber, block :: blocks, hash =>
      let (hash, wires) := witnessBlock hash block
      let rest := witnessBlocks numBlocks (blockNumber + 1) blocks hash
      let digest := if blockNumber + 1 = numBlocks then
        some (serializeHashValue hash) else rest.1
      (digest, wires ++ rest.2)

/-- Compute the SHA-256 hash of an input, and the wires of the intermediate
computations. -/
def runSha256Witnessed (input : List UInt8) (maxBlocks : Nat) :
    Exec (Sha256Result × List Field2_128) :=
  let circuitInputLength := maxBlocks * 64
  let padded := padInput input
  let numBlocks := padded.length / 64
  let paddedInput := (padded ++
    List.replicate (circuitInputLength - padded.length) 0).take
      circuitInputLength
  match witnessBlocks numBlocks 0 (chunks 64 maxBlocks paddedInput)
    initialHashValue with
  | (some digest, wires) => pure (⟨digest, paddedInput, numBlocks⟩, wires)
  | (none, _) => fail "SHA-256 input was too long"

@[simp] theorem length_chunks {α : Type} (size n : Nat) (xs : List α) :
    (chunks size n xs).length = n := by
  induction n generalizing xs with
  | zero => rfl
  | succ n ih => rw [chunks, List.length_cons, ih]

@[simp] theorem length_extendSchedule (n : Nat) (words : List UInt32) :
    (extendSchedule n words).length = n + words.length := by
  induction n generalizing words with
  | zero => simp [extendSchedule]
  | succ n ih =>
      rw [extendSchedule, ih, List.length_cons]
      omega

@[simp] theorem length_messageSchedule (message : List UInt8) :
    (messageSchedule message).length = 64 := by
  have hwords : ((chunks 4 16 message).map ofBeBytes).reverse.length = 16 := by
    rw [List.length_reverse, List.length_map, length_chunks]
  rw [messageSchedule, List.length_reverse]
  generalize ((chunks 4 16 message).map ofBeBytes).reverse = words at hwords
  rw [length_extendSchedule, hwords]

theorem length_witnessRounds (rounds : List (UInt32 × UInt32))
    (state : HashValue) :
    (witnessRounds rounds state).2.length = rounds.length * 16 := by
  induction rounds generalizing state with
  | nil => rfl
  | cons entry rounds ih =>
      obtain ⟨constant, word⟩ := entry
      rw [witnessRounds, List.length_append, ih, length_encodeU32Array,
        List.length_cons]
      simp only [List.length_cons, List.length_nil]
      omega

@[simp] theorem length_encodeHashValue (hash : HashValue) :
    (encodeHashValue hash).length = 64 := by
  rw [encodeHashValue, length_encodeU32Array]
  rfl

theorem length_witnessBlock (hash : HashValue) (messageBlock : List UInt8) :
    (witnessBlock hash messageBlock).2.length = sha256BlockWitnessLength := by
  have hschedule := length_messageSchedule messageBlock
  have hconstants : roundConstants.length = 64 := rfl
  have hrounds : (witnessRounds (roundConstants.zip
      (messageSchedule messageBlock)) hash).2.length = 64 * 16 := by
    rw [length_witnessRounds, List.length_zip, hschedule, hconstants,
      Nat.min_self]
  simp only [witnessBlock, List.length_append, hrounds, length_encodeU32Array,
    List.length_drop, hschedule, length_encodeHashValue]
  rw [sha256BlockWitnessLength]

theorem length_witnessBlocks (numBlocks blockNumber : Nat)
    (blocks : List (List UInt8)) (hash : HashValue) :
    (witnessBlocks numBlocks blockNumber blocks hash).2.length =
      blocks.length * sha256BlockWitnessLength := by
  induction blocks generalizing blockNumber hash with
  | nil => simp [witnessBlocks]
  | cons block blocks ih =>
      rw [witnessBlocks, List.length_append, length_witnessBlock, ih,
        List.length_cons]
      ring

theorem length_runSha256Witnessed {input : List UInt8} {maxBlocks : Nat}
    {result : Sha256Result} {wires : List Field2_128}
    (h : runSha256Witnessed input maxBlocks = .ok (result, wires)) :
    wires.length = maxBlocks * sha256BlockWitnessLength ∧
      result.paddedInput.length = maxBlocks * 64 := by
  have hwires := length_witnessBlocks ((padInput input).length / 64) 0
    (chunks 64 maxBlocks ((padInput input ++
      List.replicate (maxBlocks * 64 - (padInput input).length) 0).take
        (maxBlocks * 64))) initialHashValue
  rw [runSha256Witnessed] at h
  split at h
  · next digest found hfound =>
      cases h
      rw [hfound, length_chunks] at hwires
      refine ⟨hwires, ?_⟩
      simp only [List.length_take, List.length_append, List.length_replicate]
      omega
  · cases h

end Sha256

end MdocZk

end Longfellow
