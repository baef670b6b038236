/-
The SHA-256 implementation of the credential circuits.
-/
import Longfellow.Circuit

namespace Longfellow.MdocZk

/-- Eight words: a hash value, or the state of the rounds. -/
structure HashValue where
  a : UInt32
  b : UInt32
  c : UInt32
  d : UInt32
  e : UInt32
  f : UInt32
  g : UInt32
  h : UInt32

def initialHashValue : HashValue :=
  ⟨0x6a09e667, 0xbb67ae85, 0x3c6ef372, 0xa54ff53a, 0x510e527f, 0x9b05688c,
    0x1f83d9ab, 0x5be0cd19⟩

/-- The constants of the rounds. -/
def roundConstants : List UInt32 :=
  [ 0x428a2f98, 0x71374491, 0xb5c0fbcf, 0xe9b5dba5, 0x3956c25b, 0x59f111f1,
    0x923f82a4, 0xab1c5ed5, 0xd807aa98, 0x12835b01, 0x243185be, 0x550c7dc3,
    0x72be5d74, 0x80deb1fe, 0x9bdc06a7, 0xc19bf174, 0xe49b69c1, 0xefbe4786,
    0x0fc19dc6, 0x240ca1cc, 0x2de92c6f, 0x4a7484aa, 0x5cb0a9dc, 0x76f988da,
    0x983e5152, 0xa831c66d, 0xb00327c8, 0xbf597fc7, 0xc6e00bf3, 0xd5a79147,
    0x06ca6351, 0x14292967, 0x27b70a85, 0x2e1b2138, 0x4d2c6dfc, 0x53380d13,
    0x650a7354, 0x766a0abb, 0x81c2c92e, 0x92722c85, 0xa2bfe8a1, 0xa81a664b,
    0xc24b8b70, 0xc76c51a3, 0xd192e819, 0xd6990624, 0xf40e3585, 0x106aa070,
    0x19a4c116, 0x1e376c08, 0x2748774c, 0x34b0bcb5, 0x391c0cb3, 0x4ed8aa4a,
    0x5b9cca4f, 0x682e6ff3, 0x748f82ee, 0x78a5636f, 0x84c87814, 0x8cc70208,
    0x90befffa, 0xa4506ceb, 0xbef9a3f7, 0xc67178f2 ]

/-- Pads the input to whole blocks. -/
def padInput (input : List UInt8) : List UInt8 :=
  let zeroBytes := 63 - (input.length + 8) % 64
  input ++ [0x80] ++ List.replicate zeroBytes 0 ++
    (Bytes.leBytes 8 (input.length * 8)).reverse

def rotateRight (x n : UInt32) : UInt32 := (x >>> n) ||| (x <<< (32 - n))

def choice (x y z : UInt32) : UInt32 := (x &&& y) ^^^ (~~~x &&& z)

def majority (x y z : UInt32) : UInt32 := (x &&& y) ^^^ (x &&& z) ^^^ (y &&& z)

def upperSigma0 (x : UInt32) : UInt32 :=
  rotateRight x 2 ^^^ rotateRight x 13 ^^^ rotateRight x 22

def upperSigma1 (x : UInt32) : UInt32 :=
  rotateRight x 6 ^^^ rotateRight x 11 ^^^ rotateRight x 25

def lowerSigma0 (x : UInt32) : UInt32 :=
  rotateRight x 7 ^^^ rotateRight x 18 ^^^ (x >>> 3)

def lowerSigma1 (x : UInt32) : UInt32 :=
  rotateRight x 17 ^^^ rotateRight x 19 ^^^ (x >>> 10)

/-- Split into whole chunks, and drop what is left over. -/
def chunks {α : Type} (size : Nat) : Nat → List α → List (List α)
  | 0, _ => []
  | n + 1, xs => xs.take size :: chunks size n (xs.drop size)

def ofBeBytes (bytes : List UInt8) : UInt32 :=
  UInt32.ofNat (Bytes.ofLeBytes bytes.reverse)

def toBeBytes (word : UInt32) : List UInt8 :=
  (Bytes.leBytes 4 word.toNat).reverse

/-- The words of the schedule, the last one first. -/
def extendSchedule : Nat → List UInt32 → List UInt32
  | 0, words => words
  | n + 1, words =>
      let next := lowerSigma1 (words.getD 1 0) + words.getD 6 0 +
        lowerSigma0 (words.getD 14 0) + words.getD 15 0
      extendSchedule n (next :: words)

/-- Expand a block of the message into the message schedule. -/
def messageSchedule (message : List UInt8) : List UInt32 :=
  (extendSchedule 48 ((chunks 4 16 message).map ofBeBytes).reverse).reverse

/-- Execute the round function once. -/
def round (state : HashValue) (constant word : UInt32) : HashValue :=
  let t1 := state.h + upperSigma1 state.e + choice state.e state.f state.g +
    constant + word
  let t2 := upperSigma0 state.a + majority state.a state.b state.c
  ⟨t1 + t2, state.a, state.b, state.c, state.d + t1, state.e, state.f, state.g⟩

/-- Process a block of input. -/
def processBlock (hash : HashValue) (messageBlock : List UInt8) : HashValue :=
  let state := (roundConstants.zip (messageSchedule messageBlock)).foldl
    (fun state entry => round state entry.1 entry.2) hash
  ⟨hash.a + state.a, hash.b + state.b, hash.c + state.c, hash.d + state.d,
    hash.e + state.e, hash.f + state.f, hash.g + state.g, hash.h + state.h⟩

def serializeHashValue (hash : HashValue) : Sha256Digest where
  bytes := [hash.a, hash.b, hash.c, hash.d, hash.e, hash.f, hash.g,
    hash.h].flatMap toBeBytes
  length_bytes := by simp [toBeBytes]

/-- Compute the SHA-256 hash of an input. -/
def runSha256 (input : List UInt8) : Sha256Digest :=
  let padded := padInput input
  serializeHashValue
    ((chunks 64 (padded.length / 64) padded).foldl processBlock initialHashValue)

example : (runSha256 [0x61, 0x62, 0x63]).bytes =
    (Bytes.leBytes 32
      0xba7816bf8f01cfea414140de5dae2223b00361a396177a9cb410ff61f20015ad).reverse :=
  by decide +kernel

end Longfellow.MdocZk
