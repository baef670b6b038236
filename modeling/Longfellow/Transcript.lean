/-
The Fiat-Shamir transcript: a running hash of the messages written so far, and
a stream of bytes keyed by it from which challenges are sampled.
-/
import Longfellow.Circuit

namespace Longfellow

open Exec CodecFieldElement

/-- A block of the cipher that the byte stream is made of. -/
abbrev Block := Vector UInt8 16

/-- The hash function and the block cipher of the transcript. -/
class Primitives where
  sha256 : List UInt8 → Sha256Digest
  encryptBlock : Sha256Digest → Block → Block

/-- Backwards compatibility configuration for the transcript. -/
inductive TranscriptMode where
  | normal
  | v3Compatibility
deriving DecidableEq, Repr

/-- Tag written to the transcript to identify the message type. -/
inductive Tag where
  | byteArray
  | fieldElement
  | fieldElementArray
deriving DecidableEq, Repr

def Tag.asByte : Tag → TranscriptMode → UInt8
  | .byteArray, _ => 0
  | .fieldElement, _ => 1
  | .fieldElementArray, .normal => 2
  | .fieldElementArray, .v3Compatibility => 1

/-- An infinite stream of bytes based on a key. -/
structure FiatShamirPseudoRandomFunction where
  key : Sha256Digest
  /-- Current position of the infinite stream, in bytes. -/
  position : Nat
  currentBlock : Block
deriving DecidableEq

namespace FiatShamirPseudoRandomFunction

variable [Primitives]

def new (seed : Sha256Digest) : FiatShamirPseudoRandomFunction :=
  ⟨seed, 0, Vector.replicate 16 0⟩

/-- The block that holds a position of the stream. -/
def blockAt (key : Sha256Digest) (position : Nat) : Block :=
  Primitives.encryptBlock key
    (Vector.ofFn fun i => UInt8.ofNat (position / 16 / 256 ^ i.val))

/-- The next byte of the stream. -/
def next (fsprf : FiatShamirPseudoRandomFunction) :
    UInt8 × FiatShamirPseudoRandomFunction :=
  let block :=
    if fsprf.position % 16 = 0 then blockAt fsprf.key fsprf.position
    else fsprf.currentBlock
  (block.get ⟨fsprf.position % 16, Nat.mod_lt _ (by decide)⟩,
    { fsprf with position := fsprf.position + 1, currentBlock := block })

/-- The next `n` bytes of the stream. -/
def take : Nat → FiatShamirPseudoRandomFunction →
    List UInt8 × FiatShamirPseudoRandomFunction
  | 0, fsprf => ([], fsprf)
  | n + 1, fsprf =>
      let (byte, fsprf) := fsprf.next
      let (bytes, fsprf) := take n fsprf
      (byte :: bytes, fsprf)

theorem length_take (n : Nat) (fsprf : FiatShamirPseudoRandomFunction) :
    (take n fsprf).1.length = n := by
  induction n generalizing fsprf with
  | zero => rfl
  | succ n ih => simp [take, ih]

/-- Sample as many bytes as `numBits` bits take, and mask the excess bits of
the last one. -/
def sampleBits (numBits : Nat) (fsprf : FiatShamirPseudoRandomFunction) :
    List UInt8 × FiatShamirPseudoRandomFunction :=
  let numSampledBytes := (numBits + 7) / 8
  let (bytes, fsprf) := take numSampledBytes fsprf
  let excessBits := numSampledBytes * 8 - numBits
  let bytes :=
    if excessBits = 0 then bytes
    else bytes.modify (numSampledBytes - 1)
      (· &&& UInt8.ofNat (2 ^ (8 - excessBits) - 1))
  (bytes, fsprf)

section Rejection

variable {α : Type}

/-- One round of rejection sampling: a value, if the sampled bits are one. -/
def attempt (numBits : Nat) (accept : List UInt8 → Option α)
    (fsprf : FiatShamirPseudoRandomFunction) :
    Option α × FiatShamirPseudoRandomFunction :=
  let (bytes, fsprf) := sampleBits numBits fsprf
  (accept bytes, fsprf)

/-- The stream after a number of rejected rounds. -/
def afterRejections (numBits : Nat) (accept : List UInt8 → Option α) :
    Nat → FiatShamirPseudoRandomFunction → FiatShamirPseudoRandomFunction
  | 0, fsprf => fsprf
  | k + 1, fsprf =>
      afterRejections numBits accept k (attempt numBits accept fsprf).2

/-- Whether the loop of rejection sampling ends from every point of every
stream. -/
def Accepts (numBits : Nat) (accept : List UInt8 → Option α) : Prop :=
  ∀ fsprf : FiatShamirPseudoRandomFunction, ∃ k,
    (attempt numBits accept
      (afterRejections numBits accept k fsprf)).1.isSome = true

/-- Rejection sampling: the value of the first round that is accepted. -/
def sample {numBits : Nat} {accept : List UInt8 → Option α}
    (accepts : Accepts numBits accept)
    (fsprf : FiatShamirPseudoRandomFunction) :
    α × FiatShamirPseudoRandomFunction :=
  let rejections := Nat.find (accepts fsprf)
  let last := afterRejections numBits accept rejections fsprf
  ((attempt numBits accept last).1.get (Nat.find_spec (accepts fsprf)),
    (attempt numBits accept last).2)

end Rejection

end FiatShamirPseudoRandomFunction

open FiatShamirPseudoRandomFunction

/-- Rejection sampling of field elements ends. -/
class SamplesField (F : Type) [CodecFieldElement F] [Primitives] : Prop where
  accepts : Accepts (numBits F) (tryFrom (F := F))

/-- Accept the little-endian numbers below `max`. -/
def acceptNatural (max : Nat) (bytes : List UInt8) : Option Nat :=
  if Bytes.ofLeBytes bytes < max then some (Bytes.ofLeBytes bytes) else none

/-- The number of bits that a number below `max` is sampled from. -/
def naturalBits (max : Nat) : Nat :=
  Nat.log 2 max + if 2 ^ Nat.log 2 max = max then 0 else 1

/-- Rejection sampling of natural numbers ends. -/
class SamplesNaturals [Primitives] : Prop where
  accepts : ∀ max, 0 < max → Accepts (naturalBits max) (acceptNatural max)

/-- A polynomial of degree two, represented by its evaluations at `0` and the
third evaluation point. -/
structure Sumcheck.Polynomial (F : Type) where
  p0 : F
  p2 : F
deriving DecidableEq, Repr

/-- A transcript of the execution of a protocol. -/
structure Transcript where
  mode : TranscriptMode
  /-- The messages that the hash has absorbed. -/
  fsprfSeed : List UInt8
  /-- A stream of bytes, seeded with the transcript up to some point. -/
  currentFsprf : Option FiatShamirPseudoRandomFunction
deriving DecidableEq

namespace Transcript

/-- Write a slice of bytes, with no tag or length. Challenges past this point
need to incorporate the new bytes. -/
def writeBytes (transcript : Transcript) (bytes : List UInt8) : Transcript :=
  { transcript with
    fsprfSeed := transcript.fsprfSeed ++ bytes
    currentFsprf := none }

/-- Write the tag and length for a byte array. -/
def beginWriteByteArray (transcript : Transcript) (length : Nat) : Transcript :=
  let transcript := transcript.writeBytes [Tag.byteArray.asByte transcript.mode]
  transcript.writeBytes (Bytes.leBytes 8 length)

/-- Write a slice of bytes to the transcript. -/
def writeByteArray (transcript : Transcript) (bytes : List UInt8) : Transcript :=
  (transcript.beginWriteByteArray bytes.length).writeBytes bytes

/-- Absorb zeroes in chunks. -/
def absorbZeroes (fsprfSeed : List UInt8) (count : Nat) : List UInt8 :=
  if 0 < count then
    let written := min count 16834
    absorbZeroes (fsprfSeed ++ List.replicate written 0) (count - written)
  else fsprfSeed
termination_by count

/-- Write an array of zero bytes to the transcript. -/
def writeZeroArray (transcript : Transcript) (count : Nat) : Transcript :=
  let transcript := transcript.beginWriteByteArray count
  { transcript with
    fsprfSeed := absorbZeroes transcript.fsprfSeed count
    currentFsprf := none }

/-- Initialize a transcript with the session ID. -/
def new (sessionId : List UInt8) (mode : TranscriptMode) : Transcript :=
  writeByteArray ⟨mode, [], none⟩ sessionId

section Writes

variable {F : Type} [CodecFieldElement F]

/-- Write a field element to the transcript. -/
def writeFieldElement (transcript : Transcript) (x : F) : Transcript :=
  let transcript :=
    transcript.writeBytes [Tag.fieldElement.asByte transcript.mode]
  transcript.writeBytes (encode x)

/-- Write an array of field elements to the transcript. -/
def writeFieldElementArray (transcript : Transcript) (xs : List F) :
    Transcript :=
  let transcript :=
    transcript.writeBytes [Tag.fieldElementArray.asByte transcript.mode]
  let transcript := transcript.writeBytes (Bytes.leBytes 8 xs.length)
  xs.foldl (fun transcript x => transcript.writeBytes (encode x)) transcript

/-- Write the two evaluations of a polynomial to the transcript. -/
def writePolynomial (transcript : Transcript)
    (polynomial : Sumcheck.Polynomial F) : Transcript :=
  (transcript.writeFieldElement polynomial.p0).writeFieldElement polynomial.p2

end Writes

section Challenges

variable [Primitives]

/-- The stream that is keyed by the transcript written so far. -/
def getCurrentFsprf (transcript : Transcript) : FiatShamirPseudoRandomFunction :=
  match transcript.currentFsprf with
  | some fsprf => fsprf
  | none => FiatShamirPseudoRandomFunction.new
      (Primitives.sha256 transcript.fsprfSeed)

section

variable {F : Type} [CodecFieldElement F] [SamplesField F]

/-- Sample field elements from a stream. -/
def sampleFieldElements (F : Type) [CodecFieldElement F] [SamplesField F] :
    Nat → FiatShamirPseudoRandomFunction →
      List F × FiatShamirPseudoRandomFunction
  | 0, fsprf => ([], fsprf)
  | n + 1, fsprf =>
      let (x, fsprf) := sample (SamplesField.accepts (F := F)) fsprf
      let (xs, fsprf) := sampleFieldElements F n fsprf
      (x :: xs, fsprf)

theorem length_sampleFieldElements (n : Nat)
    (fsprf : FiatShamirPseudoRandomFunction) :
    (sampleFieldElements F n fsprf).1.length = n := by
  induction n generalizing fsprf with
  | zero => rfl
  | succ n ih => simp [sampleFieldElements, ih]

/-- Generate a challenge, consisting of `length` field elements. -/
def generateChallenge (F : Type) [CodecFieldElement F] [SamplesField F]
    (transcript : Transcript) (length : Nat) : List F × Transcript :=
  let (xs, fsprf) := sampleFieldElements F length transcript.getCurrentFsprf
  (xs, { transcript with currentFsprf := some fsprf })

theorem length_generateChallenge (transcript : Transcript) (n : Nat) :
    (transcript.generateChallenge F n).1.length = n :=
  length_sampleFieldElements n _

/-- Generate bindings for the output wires of a circuit. -/
def generateOutputWireBindings (transcript : Transcript)
    (circuit : Circuit F) : Exec (List F × Transcript) := do
  let longfellowZkMaxBindings := 40
  let (_, transcript) := transcript.generateChallenge F longfellowZkMaxBindings
  let (bindings, transcript) := transcript.generateChallenge F circuit.logw
  let discarded ← checkedSub longfellowZkMaxBindings circuit.logw
  let (_, transcript) := transcript.generateChallenge F discarded
  pure (bindings, transcript)

end

section

variable [SamplesNaturals]

/-- Generate a value smaller than `max`. -/
def generateNatural (transcript : Transcript) (max : Nat) :
    Exec (Nat × Transcript) :=
  if h : 0 < max then
    let (natural, fsprf) :=
      sample (SamplesNaturals.accepts max h) transcript.getCurrentFsprf
    pure (natural, { transcript with currentFsprf := some fsprf })
  else abort "argument of integer logarithm must be positive"

/-- Generate `count` values below `max` with no repeated values. -/
def generateNaturalsWithoutReplacement (transcript : Transcript)
    (max count : Nat) : Exec (List Nat × Transcript) := do
  assert (count < max) "assertion failed: max > count"
  let (list, transcript) ← (List.range count).foldlM
    (fun (state : List Nat × Transcript) i => do
      let (list, transcript) := state
      let (natural, transcript) ← transcript.generateNatural (max - i)
      let j := i + natural
      let a ← index list i
      let b ← index list j
      pure ((list.set i b).set j a, transcript))
    (List.range max, transcript)
  pure (list.take count, transcript)

end

end Challenges

end Transcript

end Longfellow
