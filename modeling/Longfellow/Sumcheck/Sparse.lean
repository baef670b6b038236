/-
A sparse array specialized for sumcheck, indexed by gate number, left wire
index and right wire index.
-/
import Longfellow.Lib.Morton
import Longfellow.Sumcheck.Bind
import Mathlib.Data.BitVec

universe u

namespace Longfellow

open Exec Multilinear

/-- The handedness of an input wire. -/
inductive Hand where
  | left
  | right
deriving DecidableEq, Repr

/-- The hand opposite to this one. -/
def Hand.opposite : Hand → Hand
  | .left => .right
  | .right => .left

@[simp] theorem Hand.opposite_opposite (hand : Hand) :
    hand.opposite.opposite = hand := by
  cases hand <;> rfl

/-- One value for each hand. -/
structure Hands (α : Type u) where
  left : α
  right : α
deriving DecidableEq, Repr

namespace Hands

variable {α : Type u}

def get (pair : Hands α) : Hand → α
  | .left => pair.left
  | .right => pair.right

def set (pair : Hands α) (hand : Hand) (a : α) : Hands α :=
  match hand with
  | .left => { pair with left := a }
  | .right => { pair with right := a }

@[simp] theorem get_set_self (pair : Hands α) (hand : Hand) (a : α) :
    (pair.set hand a).get hand = a := by
  cases hand <;> rfl

@[simp] theorem get_set_opposite (pair : Hands α) (hand : Hand) (a : α) :
    (pair.set hand a).get hand.opposite = pair.get hand.opposite := by
  cases hand <;> rfl

theorem get_set_of_ne (pair : Hands α) {hand other : Hand} (h : other ≠ hand)
    (a : α) : (pair.set hand a).get other = pair.get other := by
  cases hand <;> cases other <;> first | rfl | exact absurd rfl h

end Hands

/-- An individual quad with its value. -/
structure SparseQuadElement (F : Type) where
  gateIndex : Nat
  leftWireIndex : Nat
  rightWireIndex : Nat
  coefficient : F
deriving DecidableEq, Repr

namespace SparseQuadElement

variable {F : Type}

/-- A new element, assigning the wire indices based on the hand. -/
def new (gateIndex : Nat) (hand : Hand) (handWire oppositeHandWire : Nat)
    (coefficient : F) : SparseQuadElement F :=
  match hand with
  | .left => ⟨gateIndex, handWire, oppositeHandWire, coefficient⟩
  | .right => ⟨gateIndex, oppositeHandWire, handWire, coefficient⟩

/-- The wire index on the given hand. -/
def handWire (e : SparseQuadElement F) : Hand → Nat
  | .left => e.leftWireIndex
  | .right => e.rightWireIndex

/-- Whether `other` is the next wire on this hand, and the same otherwise. -/
def isNextWire (e : SparseQuadElement F) (hand : Hand)
    (other : SparseQuadElement F) : Bool :=
  other.gateIndex = e.gateIndex ∧
    other.handWire hand = e.handWire hand + 1 ∧
    other.handWire hand.opposite = e.handWire hand.opposite

/-- Put a zero bit in front of every bit of an integer. -/
def spread (value : BitVec 64) : BitVec 128 :=
  let value := value.zeroExtend 128
  let value := (value ||| value <<< 32) &&& 0x00000000FFFFFFFF00000000FFFFFFFF
  let value := (value ||| value <<< 16) &&& 0x0000FFFF0000FFFF0000FFFF0000FFFF
  let value := (value ||| value <<< 8) &&& 0x00FF00FF00FF00FF00FF00FF00FF00FF
  let value := (value ||| value <<< 4) &&& 0x0F0F0F0F0F0F0F0F0F0F0F0F0F0F0F0F
  let value := (value ||| value <<< 2) &&& 0x33333333333333333333333333333333
  (value ||| value <<< 1) &&& 0x55555555555555555555555555555555

/-- Interleave the bits of two integers. -/
def interleave (right left : BitVec 64) : BitVec 128 :=
  spread left ||| spread right <<< 1

/-- The order of the array: interleaved wire indices, then gate index. -/
def cmp [DecidableEq F] (e other : SparseQuadElement F) : Exec Ordering :=
  let wires (e : SparseQuadElement F) : BitVec 128 :=
    interleave (.ofNat 64 e.rightWireIndex) (.ofNat 64 e.leftWireIndex)
  let wiresCmp := compare (wires e).toNat (wires other).toNat
  if wiresCmp = .eq then do
    if e.gateIndex = other.gateIndex then
      assert (e.coefficient = other.coefficient)
        "published circuits should never contain duplicated indices"
    pure (compare e.gateIndex other.gateIndex)
  else pure wiresCmp

/-- Whether no element of the array comes after its successor. -/
def isSorted [DecidableEq F] : List (SparseQuadElement F) → Exec Bool
  | [] => pure true
  | [_] => pure true
  | e :: other :: rest => do
      let order ← cmp e other
      if order = .gt then pure false else isSorted (other :: rest)

end SparseQuadElement

/-- A sparse array, in the order of its elements. -/
structure SparseSumcheckArray (F : Type) where
  contents : List (SparseQuadElement F)
deriving DecidableEq, Repr

namespace SparseSumcheckArray

open SparseQuadElement

variable {F : Type}

/-- Make an array of elements that are in order. -/
def ofContents [DecidableEq F] (contents : List (SparseQuadElement F)) :
    Exec (SparseSumcheckArray F) := do
  let sorted ← isSorted contents
  assert (sorted = true) "assertion failed: contents.is_sorted()"
  pure ⟨contents⟩

variable [Field F]

/-- What two neighbouring elements on a hand are bound to. -/
def bindPair (hand : Hand) (binding : F) (curr next : SparseQuadElement F) :
    SparseQuadElement F :=
  new 0 hand (curr.handWire hand / 2) (curr.handWire hand.opposite)
    (curr.coefficient + binding * (next.coefficient - curr.coefficient))

/-- What an element with no neighbour on a hand is bound to. -/
def bindSingle (hand : Hand) (binding : F) (curr : SparseQuadElement F) :
    SparseQuadElement F :=
  new 0 hand (curr.handWire hand / 2) (curr.handWire hand.opposite)
    (if curr.handWire hand % 2 = 0 then (1 - binding) * curr.coefficient
     else binding * curr.coefficient)

/-- Whether two elements are the pair `2 i`, `2 i + 1` of a hand. -/
def isPair (hand : Hand) (curr next : SparseQuadElement F) : Bool :=
  curr.handWire hand % 2 = 0 ∧ curr.isNextWire hand next

/-- The loop of `bindHand`. Every round reads one or two elements and writes
one, so `fuel` need not exceed the number of elements. -/
def bindHandLoop (hand : Hand) (binding : F) :
    Nat → List (SparseQuadElement F) → Nat → Nat →
      Exec (List (SparseQuadElement F))
  | 0, contents, write, _ => pure (contents.take write)
  | fuel + 1, contents, write, read =>
      if read < contents.length then do
        let curr ← index contents read
        assert (curr.gateIndex = 0)
          "sparse array should have been bound down to 2D before binding a hand"
        match contents[read + 1]? with
        | some next =>
            if isPair hand curr next then do
              assert (next.gateIndex = 0)
                "sparse array should have been bound down to 2D before binding a hand"
              let contents ← update contents write fun _ =>
                bindPair hand binding curr next
              bindHandLoop hand binding fuel contents (write + 1) (read + 2)
            else do
              let contents ← update contents write fun _ =>
                bindSingle hand binding curr
              bindHandLoop hand binding fuel contents (write + 1) (read + 1)
        | none => do
            let contents ← update contents write fun _ =>
              bindSingle hand binding curr
            bindHandLoop hand binding fuel contents (write + 1) (read + 1)
      else pure (contents.take write)

/-- Bind this array in the dimension indicated by `hand`, in place. -/
def bindHand (array : SparseSumcheckArray F) (hand : Hand) (binding : F) :
    Exec (SparseSumcheckArray F) := do
  let contents ←
    bindHandLoop hand binding array.contents.length array.contents 0 0
  pure ⟨contents⟩

/-- Whether two elements have the same wire indices. -/
def sameWires (e other : SparseQuadElement F) : Bool :=
  other.leftWireIndex = e.leftWireIndex ∧
    other.rightWireIndex = e.rightWireIndex

/-- One round of the compaction in `bindvGate`. -/
def compactStep (state : List (SparseQuadElement F) × Nat) (read : Nat) :
    Exec (List (SparseQuadElement F) × Nat) := do
  let (contents, write) := state
  let readItem ← index contents read
  let last ← index contents (write - 1)
  if sameWires last readItem then do
    let contents ← update contents (write - 1) fun last =>
      { last with coefficient := last.coefficient + readItem.coefficient }
    pure (contents, write)
  else do
    let contents ← update contents write fun _ => readItem
    pure (contents, write + 1)

/-- Compute the bound quad of a layer from the combined quad, and take
together the elements that now have the same wires. -/
def bindvGate (array : SparseSumcheckArray F) (bindings0 bindings1 : List F)
    (alpha : F) : Exec (SparseSumcheckArray F) := do
  assert (bindings0.length = bindings1.length)
    "assertion `left == right` failed"
  let maxGate ← match (array.contents.map fun e => e.gateIndex).max? with
    | some gate => pure gate
    | none => abort "called `Option::unwrap()` on a `None` value"
  assert (Nat.clog 2 maxGate ≤ bindings0.length)
    "bindings are not long enough to reduce gate dimension to a single element"
  let table ← bindeq bindings0 bindings1 alpha
  let contents ← array.contents.mapM fun e => do
    let weight ← index table e.gateIndex
    pure { e with coefficient := e.coefficient * weight, gateIndex := 0 }
  let (contents, write) ←
    (List.range' 1 (contents.length - 1)).foldlM compactStep (contents, 1)
  pure ⟨contents.take write⟩

/-- Compute the intermediate array `A = Σ_r QUAD[l, r] * VR[r]`. -/
def computeA (array : SparseSumcheckArray F) (hand : Hand)
    (wires : Hands (List F)) : Exec (List F) :=
  array.contents.foldlM
    (fun into e => do
      let oppositeWire ←
        index (wires.get hand.opposite) (e.handWire hand.opposite)
      update into (e.handWire hand) (· + e.coefficient * oppositeWire))
    (List.replicate (wires.get hand).length 0)

end SparseSumcheckArray

end Longfellow
