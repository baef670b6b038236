/-
The circuits that the `LFC2` serialization stands for: its grammar, and the
expansion of its tokens to quads.
-/
import Longfellow.Codec.RoundTrip
import Longfellow.Lib.Grammar
import Longfellow.Nymauth.Lfc2

namespace Longfellow.Nymauth.Lfc2

open Grammar

/-- Differences of the indices of two quads, and a constant. -/
structure Delta where
  gate : Int
  left : Int
  right : Int
  constTableIndex : Nat
deriving DecidableEq, Inhabited

/-- A layer: a dictionary of deltas, segments of the dictionary, and tokens
that name segments. -/
structure Layer where
  logw : Nat
  numWires : Nat
  deltas : List Delta
  segments : List (List Nat)
  tokens : List Nat

/-- A circuit as it is serialized, with uninterpreted constants. -/
structure Serialized where
  fieldId : Nat
  numOutputs : Nat
  numPublicInputs : Nat
  subfieldBoundary : Nat
  numInputs : Nat
  constants : List (List UInt8)
  layers : List Layer
  id : Sha256Digest

/-- Signed numbers as unsigned ones, small ones first. -/
def zigzag : Int → Nat
  | .ofNat n => 2 * n
  | .negSucc n => 2 * n + 1

theorem zigzag_inj {a b : Int} (h : zigzag a = zigzag b) : a = b := by
  cases a with
  | ofNat m =>
      cases b with
      | ofNat n =>
          have hmn : 2 * m = 2 * n := h
          rw [Nat.eq_of_mul_eq_mul_left (by decide) hmn]
      | negSucc n =>
          have hmn : 2 * m = 2 * n + 1 := h
          omega
  | negSucc m =>
      cases b with
      | ofNat n =>
          have hmn : 2 * m + 1 = 2 * n := h
          omega
      | negSucc n =>
          have hmn : 2 * m + 1 = 2 * n + 1 := h
          rw [Nat.eq_of_mul_eq_mul_left (by decide) (Nat.succ.inj hmn)]

namespace Delta

def zero : Delta := ⟨0, 0, 0, 0⟩

def words (delta : Delta) : List Nat :=
  [zigzag delta.gate, zigzag delta.left, zigzag delta.right,
    delta.constTableIndex]

def grammar : Grammar Delta := fun delta => Many Uleb delta.words

/-- The indices that a delta leads to. -/
def after (delta previous : Delta) : Delta :=
  ⟨previous.gate + delta.gate, previous.left + delta.left,
    previous.right + delta.right, delta.constTableIndex⟩

/-- The sums are `u32`s. -/
structure InRange (sums : Delta) : Prop where
  gate : 0 ≤ sums.gate ∧ sums.gate < 2 ^ 32
  left : 0 ≤ sums.left ∧ sums.left < 2 ^ 32
  right : 0 ≤ sums.right ∧ sums.right < 2 ^ 32

theorem grammar_unambiguous : Unambiguous grammar := by
  intro a b w w' r s ha hb heq
  obtain ⟨hwords, hrest⟩ := uleb_unambiguous.many ha hb rfl heq
  simp only [words, List.cons.injEq, and_true] at hwords
  obtain ⟨hgate, hleft, hright, hconstant⟩ := hwords
  refine ⟨?_, hrest⟩
  rw [mk.injEq]
  exact ⟨zigzag_inj hgate, zigzag_inj hleft, zigzag_inj hright, hconstant⟩

/-- The exact sums of the deltas up to each one. -/
def runningSums (previous : Delta) : List Delta → List Delta
  | [] => []
  | delta :: deltas =>
      delta.after previous :: runningSums (delta.after previous) deltas

theorem length_runningSums (previous : Delta) (deltas : List Delta) :
    (runningSums previous deltas).length = deltas.length := by
  induction deltas generalizing previous with
  | nil => rfl
  | cons delta deltas ih =>
      rw [runningSums, List.length_cons, ih, List.length_cons]

end Delta

/-- The entries of a dictionary that the tokens name. -/
def expand {α : Type} [Inhabited α] (dictionary : List α)
    (segments : List (List Nat)) (tokens : List Nat) : List α :=
  tokens.flatMap fun t =>
    (segments.getD t []).map fun d => dictionary.getD d default

namespace Layer

def parts (layer : Layer) :
    Nat × Nat × List Delta × List (List Nat) × List Nat :=
  (layer.logw, layer.numWires, layer.deltas, layer.segments, layer.tokens)

def grammar : Grammar Layer := fun layer =>
  Both Uleb (Both Uleb (Both (Counted Delta.grammar)
    (Both (Counted (Counted Uleb)) (Counted Uleb)))) layer.parts

/-- The deltas of the quads, in order. -/
def terms (layer : Layer) : List Delta :=
  expand layer.deltas layer.segments layer.tokens

/-- The indices of the quads, in order. -/
def expansion (layer : Layer) : List Delta :=
  Delta.runningSums Delta.zero layer.terms

theorem grammar_unambiguous : Unambiguous grammar := by
  have hparts : Unambiguous (Both Uleb (Both Uleb (Both (Counted Delta.grammar)
      (Both (Counted (Counted Uleb)) (Counted Uleb))))) :=
    uleb_unambiguous.both <|
    uleb_unambiguous.both <|
    Delta.grammar_unambiguous.counted.both <|
    uleb_unambiguous.counted.counted.both uleb_unambiguous.counted
  refine hparts.comap (f := parts) fun a b h => ?_
  cases a
  cases b
  simpa [parts] using h

end Layer

namespace Serialized

def words (circuit : Serialized) : List Nat :=
  [circuit.fieldId, circuit.numOutputs, 1, circuit.numPublicInputs,
    circuit.subfieldBoundary, circuit.numInputs, circuit.layers.length,
    circuit.constants.length]

/-- The serializations of a circuit. -/
structure Encodes (circuit : Serialized) (bytes : List UInt8) : Prop where
  constants : ∃ elt, elementSize circuit.fieldId = .ok elt ∧
    ∀ constant ∈ circuit.constants, constant.length = elt
  parts : ∃ words layers, Many Uleb circuit.words words ∧
    Many Layer.grammar circuit.layers layers ∧
    bytes = magic ++ words ++ circuit.constants.flatten ++ layers ++
      circuit.id.bytes

/-- Every index is a `u32`. -/
def InRange (circuit : Serialized) : Prop :=
  ∀ layer ∈ circuit.layers, ∀ sums ∈ layer.expansion, sums.InRange

theorem flatten_append_inj {n : Nat} {xs ys : List (List UInt8)}
    {r s : List UInt8} (hxs : ∀ x ∈ xs, x.length = n)
    (hys : ∀ y ∈ ys, y.length = n) (hlength : xs.length = ys.length)
    (heq : xs.flatten ++ r = ys.flatten ++ s) : xs = ys ∧ r = s := by
  induction xs generalizing ys with
  | nil =>
      obtain rfl : ys = [] := List.eq_nil_of_length_eq_zero hlength.symm
      exact ⟨rfl, heq⟩
  | cons x xs ih =>
      cases ys with
      | nil => cases hlength
      | cons y ys =>
          obtain ⟨hx, hxsTail⟩ := List.forall_mem_cons.mp hxs
          obtain ⟨hy, hysTail⟩ := List.forall_mem_cons.mp hys
          rw [List.flatten_cons, List.flatten_cons, List.append_assoc,
            List.append_assoc] at heq
          obtain ⟨rfl, htail⟩ := List.append_inj heq (by rw [hx, hy])
          obtain ⟨rfl, hrest⟩ := ih hxsTail hysTail (Nat.succ.inj hlength) htail
          exact ⟨rfl, hrest⟩

/-- An input starts with the serialization of at most one circuit. -/
theorem encodes_unambiguous : Unambiguous Encodes := by
  intro a b w w' r s ha hb heq
  obtain ⟨⟨elt, helt, hconstants⟩, words, layers, hwords, hlayers, rfl⟩ := ha
  obtain ⟨⟨elt', helt', hconstants'⟩, words', layers', hwords', hlayers',
    rfl⟩ := hb
  simp only [List.append_assoc] at heq
  obtain ⟨hsame, heq⟩ := uleb_unambiguous.many hwords hwords' rfl
    (List.append_cancel_left heq)
  simp only [Serialized.words, List.cons.injEq, and_true] at hsame
  obtain ⟨hfield, hnumOutputs, -, hpublic, hsubfield, hnumInputs, hnumLayers,
    hnumConstants⟩ := hsame
  rw [hfield, helt'] at helt
  cases helt
  obtain ⟨hconstantsEq, heq⟩ :=
    flatten_append_inj hconstants hconstants' hnumConstants heq
  obtain ⟨hlayersEq, heq⟩ :=
    Layer.grammar_unambiguous.many hlayers hlayers' hnumLayers heq
  obtain ⟨hid, hrest⟩ := List.append_inj heq (by
    rw [a.id.length_bytes, b.id.length_bytes])
  refine ⟨?_, hrest⟩
  cases a with
  | mk fieldId numOutputs numPublicInputs subfieldBoundary numInputs constants
      layers id =>
    cases b with
    | mk fieldId' numOutputs' numPublicInputs' subfieldBoundary' numInputs'
        constants' layers' id' =>
      cases id with
      | mk bytes hbytes =>
        cases id' with
        | mk bytes' hbytes' =>
          simp_all

end Serialized

/-- The indices and the constant of a quad. -/
def exact (quad : Quad) : Delta :=
  ⟨quad.gateIndex, quad.leftWireIndex, quad.rightWireIndex,
    quad.constTableIndex⟩

/-- A layer with the sizes and the expanded quads of a serialized one. -/
structure ConvertedLayer (layer : Layer) (converted : CircuitLayer) : Prop where
  logw_eq : converted.logw = layer.logw
  numWires_eq : converted.numWires = layer.numWires
  quads_eq : converted.quads.map exact = layer.expansion
  fits : ∀ quad ∈ converted.quads, quad.Fits

/-- A circuit with everything that a serialized one says. -/
structure Converted {F : Type} (serialized : Serialized) (constants : List F)
    (circuit : Circuit F) : Prop where
  version_eq : circuit.version = 1
  numOutputs_eq : circuit.numOutputs = serialized.numOutputs
  numCopies_eq : circuit.numCopies = 1
  numPublicInputs_eq : circuit.numPublicInputs = serialized.numPublicInputs
  subfieldBoundary_eq : circuit.subfieldBoundary = serialized.subfieldBoundary
  numInputs_eq : circuit.numInputs = serialized.numInputs
  numLayers_eq : circuit.numLayers = serialized.layers.length
  constantTable_eq : circuit.constantTable = constants
  id_eq : circuit.id = serialized.id
  layers : List.Forall₂ ConvertedLayer serialized.layers circuit.layers

end Longfellow.Nymauth.Lfc2
