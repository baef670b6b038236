/-
The hash function SHA-256 as its standard defines it: constants from roots of
primes, padding to the least whole number of blocks, a schedule given by its
recurrence, and rounds over eight words.
-/
import Longfellow.Lib.Bytes
import Mathlib.Data.Nat.NthRoot.Defs

namespace Sha2

/-- The words of a hash value, or of the state of the rounds. -/
structure State where
  a : UInt32
  b : UInt32
  c : UInt32
  d : UInt32
  e : UInt32
  f : UInt32
  g : UInt32
  h : UInt32
deriving DecidableEq

section Constants

/-- The first primes. -/
def primes : List Nat :=
  [ 2, 3, 5, 7, 11, 13, 17, 19, 23, 29, 31, 37, 41, 43, 47, 53, 59, 61, 67, 71,
    73, 79, 83, 89, 97, 101, 103, 107, 109, 113, 127, 131, 137, 139, 149, 151,
    157, 163, 167, 173, 179, 181, 191, 193, 197, 199, 211, 223, 227, 229, 233,
    239, 241, 251, 257, 263, 269, 271, 277, 281, 283, 293, 307, 311 ]

/-- The first bits of the fractional part of a root. -/
def rootFraction (degree n : Nat) : UInt32 :=
  UInt32.ofNat (Nat.nthRoot degree (n * 2 ^ (32 * degree)))

/-- The constant of a round. -/
def constant (t : Nat) : UInt32 := rootFraction 3 (primes.getD t 0)

def initial : State :=
  let word (i : Nat) := rootFraction 2 (primes.getD i 0)
  ⟨word 0, word 1, word 2, word 3, word 4, word 5, word 6, word 7⟩

end Constants

section Rounds

def rotr (n x : UInt32) : UInt32 := (x >>> n) ||| (x <<< (32 - n))

def ch (x y z : UInt32) : UInt32 := (x &&& y) ^^^ (~~~x &&& z)

def maj (x y z : UInt32) : UInt32 := (x &&& y) ^^^ (x &&& z) ^^^ (y &&& z)

def bigSigma0 (x : UInt32) : UInt32 := rotr 2 x ^^^ rotr 13 x ^^^ rotr 22 x

def bigSigma1 (x : UInt32) : UInt32 := rotr 6 x ^^^ rotr 11 x ^^^ rotr 25 x

def smallSigma0 (x : UInt32) : UInt32 := rotr 7 x ^^^ rotr 18 x ^^^ (x >>> 3)

def smallSigma1 (x : UInt32) : UInt32 := rotr 17 x ^^^ rotr 19 x ^^^ (x >>> 10)

/-- A word of a block. -/
def blockWord (block : List UInt8) (t : Nat) : UInt32 :=
  UInt32.ofNat (Bytes.ofBeBytes ((block.drop (4 * t)).take 4))

/-- A word of the message schedule. -/
def schedule (block : List UInt8) (t : Nat) : UInt32 :=
  if t < 16 then blockWord block t
  else smallSigma1 (schedule block (t - 2)) + schedule block (t - 7) +
    smallSigma0 (schedule block (t - 15)) + schedule block (t - 16)

/-- A round with its constant and its word of the schedule. -/
def step (k w : UInt32) (s : State) : State :=
  let t1 := s.h + bigSigma1 s.e + ch s.e s.f s.g + k + w
  let t2 := bigSigma0 s.a + maj s.a s.b s.c
  ⟨t1 + t2, s.a, s.b, s.c, s.d + t1, s.e, s.f, s.g⟩

/-- The state after the first rounds for a block. -/
def rounds (block : List UInt8) (hash : State) : Nat → State
  | 0 => hash
  | t + 1 => step (constant t) (schedule block t) (rounds block hash t)

/-- The hash value after a block. -/
def compress (hash : State) (block : List UInt8) : State :=
  let s := rounds block hash 64
  ⟨hash.a + s.a, hash.b + s.b, hash.c + s.c, hash.d + s.d, hash.e + s.e,
    hash.f + s.f, hash.g + s.g, hash.h + s.h⟩

/-- The first word of the states of the rounds, in the order in which they are
computed: the first four are in the hash value that the rounds start from. -/
def firstWord (block : List UInt8) (hash : State) : Nat → UInt32
  | 0 => hash.d
  | 1 => hash.c
  | 2 => hash.b
  | 3 => hash.a
  | t + 4 => (rounds block hash (t + 1)).a

/-- The fifth word of the states of the rounds, in the same order. -/
def fifthWord (block : List UInt8) (hash : State) : Nat → UInt32
  | 0 => hash.h
  | 1 => hash.g
  | 2 => hash.f
  | 3 => hash.e
  | t + 4 => (rounds block hash (t + 1)).e

/-- The other words of a state are those of the states before it. -/
theorem rounds_eq (block : List UInt8) (hash : State) (t : Nat) :
    rounds block hash t =
      ⟨firstWord block hash (t + 3), firstWord block hash (t + 2),
        firstWord block hash (t + 1), firstWord block hash t,
        fifthWord block hash (t + 3), fifthWord block hash (t + 2),
        fifthWord block hash (t + 1), fifthWord block hash t⟩ := by
  induction t with
  | zero => rfl
  | succ t ih =>
      have hb : (rounds block hash (t + 1)).b = (rounds block hash t).a := rfl
      have hc : (rounds block hash (t + 1)).c = (rounds block hash t).b := rfl
      have hd : (rounds block hash (t + 1)).d = (rounds block hash t).c := rfl
      have hf : (rounds block hash (t + 1)).f = (rounds block hash t).e := rfl
      have hg : (rounds block hash (t + 1)).g = (rounds block hash t).f := rfl
      have hh : (rounds block hash (t + 1)).h = (rounds block hash t).g := rfl
      rw [ih] at hb hc hd hf hg hh
      calc
        rounds block hash (t + 1) =
            ⟨(rounds block hash (t + 1)).a, (rounds block hash (t + 1)).b,
              (rounds block hash (t + 1)).c, (rounds block hash (t + 1)).d,
              (rounds block hash (t + 1)).e, (rounds block hash (t + 1)).f,
              (rounds block hash (t + 1)).g, (rounds block hash (t + 1)).h⟩ :=
          rfl
        _ = _ := by
          rw [hb, hc, hd, hf, hg, hh]
          rfl

theorem schedule_of_lt (block : List UInt8) {t : Nat} (ht : t < 16) :
    schedule block t = blockWord block t := by
  rw [schedule, if_pos ht]

theorem schedule_add (block : List UInt8) (t : Nat) :
    schedule block (t + 16) =
      smallSigma1 (schedule block (t + 14)) + schedule block (t + 9) +
        smallSigma0 (schedule block (t + 1)) + schedule block t := by
  rw [schedule, if_neg (by omega)]
  rfl

end Rounds

section Message

/-- The number of zero bytes between the byte after the message and the length,
which end a block. -/
def zeros (length : Nat) : Nat := (119 - length % 64) % 64

/-- The message with its padding. -/
def pad (message : List UInt8) : List UInt8 :=
  message ++ 0x80 :: List.replicate (zeros message.length) 0 ++
    (Bytes.leBytes 8 (8 * message.length)).reverse

/-- A block of a padded message. -/
def block (padded : List UInt8) (i : Nat) : List UInt8 :=
  (padded.drop (64 * i)).take 64

/-- The hash value after the first blocks. -/
def chain (padded : List UInt8) : Nat → State
  | 0 => initial
  | i + 1 => compress (chain padded i) (block padded i)

def bytesOf (word : UInt32) : List UInt8 :=
  (Bytes.leBytes 4 word.toNat).reverse

/-- The bytes of a hash value. -/
def digest (hash : State) : List UInt8 :=
  [hash.a, hash.b, hash.c, hash.d, hash.e, hash.f, hash.g, hash.h].flatMap
    bytesOf

/-- The hash of a message, which is shorter than `2 ^ 61` bytes. -/
def sha256 (message : List UInt8) : List UInt8 :=
  digest (chain (pad message) ((pad message).length / 64))

/-- The padding is the shortest that ends a block. -/
theorem zeros_least (length : Nat) :
    (length + 1 + zeros length) % 64 = 56 ∧
      ∀ k, (length + 1 + k) % 64 = 56 → zeros length ≤ k := by
  constructor
  · rw [zeros]
    omega
  · intro k hk
    rw [zeros]
    omega

theorem length_pad (message : List UInt8) :
    (pad message).length = 64 * ((message.length + 9 + 63) / 64) := by
  simp only [pad, List.length_append, List.length_cons, List.length_replicate,
    List.length_reverse, Bytes.length_leBytes]
  rw [zeros]
  omega

/-- The hash value after the first blocks depends on these only. -/
theorem chain_append (padded rest : List UInt8) {i : Nat}
    (hi : 64 * i ≤ padded.length) :
    chain (padded ++ rest) i = chain padded i := by
  induction i with
  | zero => rfl
  | succ i ih =>
      have hblock : block (padded ++ rest) i = block padded i := by
        rw [block, block, List.drop_append_of_le_length (by omega),
          List.take_append_of_le_length (by rw [List.length_drop]; omega)]
      rw [chain, chain, ih (by omega), hblock]

end Message

end Sha2
