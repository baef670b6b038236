/-
Sample instances: a hash with the digests of a table, a hash and a cipher that
answer everything with zeros, and the circuit with an assertion that the tests
of the source evaluate. The streams of the silent cipher are quiet after at
most one block, so every rejection loop ends.
-/
import Longfellow.Fields.FieldP128

namespace Longfellow

open FiatShamirPseudoRandomFunction

/-- The digest of zeros. -/
def zeroDigest : Sha256Digest := ⟨List.replicate 32 0, length_zeros⟩

/-- The digest with the given big-endian value. -/
def digestOf (value : Nat) : Sha256Digest :=
  ⟨(Bytes.leBytes 32 value).reverse, by simp⟩

/-- SHA-256 on the inputs of a table. -/
@[reducible] def tabled (table : List (List UInt8 × Sha256Digest)) :
    Primitives where
  sha256 bytes :=
    ((table.find? fun entry => entry.1 = bytes).map Prod.snd).getD zeroDigest
  encryptBlock _ _ := Vector.replicate 16 0

/-- The hash and the cipher that answer everything with zeros. -/
@[reducible] def silent : Primitives where
  sha256 _ := zeroDigest
  encryptBlock _ _ := Vector.replicate 16 0

namespace Silent

scoped instance primitives : Primitives := silent

end Silent

namespace FiatShamirPseudoRandomFunction

/-- A stream all of whose bytes are zero. -/
def Quiet (fsprf : FiatShamirPseudoRandomFunction) : Prop :=
  fsprf.position % 16 ≠ 0 → fsprf.currentBlock = Vector.replicate 16 0

open scoped Silent

theorem Quiet.next {fsprf : FiatShamirPseudoRandomFunction} (h : fsprf.Quiet) :
    fsprf.next.1 = 0 ∧ fsprf.next.2.Quiet := by
  have hblock : fsprf.next.2.currentBlock = Vector.replicate 16 0 := by
    simp only [FiatShamirPseudoRandomFunction.next]
    split
    · rfl
    · next hne => exact h hne
  have hbyte : fsprf.next.1 = fsprf.next.2.currentBlock.get
      ⟨fsprf.position % 16, Nat.mod_lt _ (by decide)⟩ := rfl
  refine ⟨?_, fun _ => hblock⟩
  rw [hbyte, hblock]
  simp [Vector.get]

theorem Quiet.take {fsprf : FiatShamirPseudoRandomFunction} (h : fsprf.Quiet)
    (n : Nat) :
    (take n fsprf).1 = List.replicate n 0 ∧ (take n fsprf).2.Quiet := by
  induction n generalizing fsprf with
  | zero => exact ⟨rfl, h⟩
  | succ n ih =>
      obtain ⟨hbytes, hquiet⟩ := ih h.next.2
      refine ⟨?_, hquiet⟩
      simp only [FiatShamirPseudoRandomFunction.take, h.next.1, hbytes]
      rfl

/-- A stream is quiet once it has left its block. -/
theorem quiet_take (n : Nat) (fsprf : FiatShamirPseudoRandomFunction) :
    (take n fsprf).2.Quiet ∨ n + fsprf.position % 16 < 16 := by
  induction n generalizing fsprf with
  | zero =>
      have hlt : fsprf.position % 16 < 16 := Nat.mod_lt _ (by decide)
      exact Or.inr (by omega)
  | succ n ih =>
      have hposition : fsprf.next.2.position = fsprf.position + 1 := rfl
      rcases Nat.eq_zero_or_pos (fsprf.position % 16) with hzero | hpos
      · have hquiet : fsprf.Quiet := fun hne => absurd hzero hne
        exact Or.inl (hquiet.next.2.take n).2
      · rcases Nat.eq_zero_or_pos ((fsprf.position + 1) % 16) with hwrap | hstay
        · have hquiet : fsprf.next.2.Quiet := fun hne => by
            rw [hposition] at hne
            exact absurd hwrap hne
          exact Or.inl (hquiet.take n).2
        · rcases ih fsprf.next.2 with hquiet | hlt
          · exact Or.inl hquiet
          · rw [hposition] at hlt
            exact Or.inr (by omega)

theorem take_add (m n : Nat) (fsprf : FiatShamirPseudoRandomFunction) :
    (take (m + n) fsprf).2 = (take n (take m fsprf).2).2 := by
  induction m generalizing fsprf with
  | zero => simp [FiatShamirPseudoRandomFunction.take]
  | succ m ih =>
      rw [Nat.succ_add]
      exact ih fsprf.next.2

section Accepts

variable {α : Type}

theorem afterRejections_eq (numBits : Nat) (accept : List UInt8 → Option α)
    (k : Nat) (fsprf : FiatShamirPseudoRandomFunction) :
    afterRejections numBits accept k fsprf =
      (take (k * ((numBits + 7) / 8)) fsprf).2 := by
  induction k generalizing fsprf with
  | zero => simp [afterRejections, FiatShamirPseudoRandomFunction.take]
  | succ k ih =>
      have hsum : (k + 1) * ((numBits + 7) / 8) =
          (numBits + 7) / 8 + k * ((numBits + 7) / 8) := by ring
      rw [afterRejections, ih, hsum, take_add]
      rfl

theorem sampleBits_quiet {fsprf : FiatShamirPseudoRandomFunction}
    (h : fsprf.Quiet) (numBits : Nat) :
    (sampleBits numBits fsprf).1 = List.replicate ((numBits + 7) / 8) 0 := by
  have hmask (n i : Nat) (mask : UInt8) :
      (List.replicate n (0 : UInt8)).modify i (· &&& mask) =
        List.replicate n 0 := by
    refine List.ext_getElem (by simp) fun j hj _ => ?_
    simp [List.getElem_modify]
  simp only [sampleBits, (h.take _).1]
  split
  · rfl
  · exact hmask _ _ _

/-- Sampling ends if it accepts zero. -/
theorem silent_accepts {numBits : Nat} {accept : List UInt8 → Option α}
    (h : (accept (List.replicate ((numBits + 7) / 8) 0)).isSome) :
    Accepts numBits accept := by
  intro fsprf
  rcases Nat.eq_zero_or_pos ((numBits + 7) / 8) with hzero | hpos
  · have hbits : numBits = 0 := by omega
    subst hbits
    exact ⟨0, h⟩
  · have hquiet : (afterRejections numBits accept 16 fsprf).Quiet := by
      rw [afterRejections_eq]
      rcases quiet_take (16 * ((numBits + 7) / 8)) fsprf with hquiet | hlt
      · exact hquiet
      · omega
    refine ⟨16, ?_⟩
    simp only [attempt, sampleBits_quiet hquiet]
    exact h

end Accepts

end FiatShamirPseudoRandomFunction

open scoped Numerals

instance silent_samplesField : @SamplesField FieldP128 _ silent :=
  @SamplesField.mk FieldP128 _ silent
    (FiatShamirPseudoRandomFunction.silent_accepts (by decide))

instance silent_samplesNaturals : @SamplesNaturals silent :=
  @SamplesNaturals.mk silent fun max hmax =>
    FiatShamirPseudoRandomFunction.silent_accepts (by
      have hzero (n : Nat) : Bytes.ofLeBytes (List.replicate n 0) = 0 := by
        induction n with
        | zero => rfl
        | succ n ih => simp [List.replicate_succ, Bytes.ofLeBytes, ih]
      simp [acceptNatural, hzero, hmax])

/-- A circuit with an assertion in its middle layer: it propagates
`x^2 - 3x + 2` and `x^3 - 3x^2 + 2x` to the outputs, and asserts `x - 2 = 0`. -/
def makeAssertionTestCircuit : Circuit FieldP128 where
  version := 1
  numOutputs := 2
  numCopies := 0
  numPublicInputs := 1
  subfieldBoundary := 2
  numInputs := 2
  numLayers := 3
  constantTable := [0, 1, 2, -2, -3]
  layers :=
    [ { logw := 2
        numWires := 4
        quads := [⟨0, 0, 1, 1⟩, ⟨1, 0, 3, 1⟩] },
      { logw := 2
        numWires := 4
        quads := [⟨0, 0, 0, 1⟩, ⟨1, 0, 1, 1⟩, ⟨2, 0, 2, 0⟩, ⟨3, 1, 2, 1⟩,
          ⟨2, 0, 3, 0⟩] },
      { logw := 1
        numWires := 2
        quads := [⟨0, 0, 0, 1⟩, ⟨1, 0, 0, 2⟩, ⟨3, 0, 0, 3⟩, ⟨1, 0, 1, 4⟩,
          ⟨2, 0, 1, 1⟩, ⟨1, 1, 1, 1⟩] } ]
  id := zeroDigest

/-- The wires of the test circuit at `x = 2`, which satisfies the assertion. -/
def assertionPassEvaluation : Evaluation FieldP128 :=
  ⟨[[0, 0], [1, 0, 0, 0], [1, 0, 2, -2], [1, 2]]⟩

example : makeAssertionTestCircuit.evaluate [1, 2] =
    .ok assertionPassEvaluation := by
  decide

theorem makeAssertionTestCircuit_wellFormed :
    makeAssertionTestCircuit.WellFormed where
  numLayers_eq := rfl
  layers_ne_nil := by decide
  numOutputs_lt := by decide
  numPublicInputs_le := by decide
  layer_invariants i hi := by
    have hcases : i = 0 ∨ i = 1 ∨ i = 2 := by
      have : makeAssertionTestCircuit.layers.length = 3 := rfl
      omega
    rcases hcases with rfl | rfl | rfl
    all_goals exact
      { quads_ne_nil := by decide +revert +kernel
        leftWire_lt := by decide +revert +kernel
        rightWire_lt := by decide +revert +kernel
        numWires_le := by decide +revert +kernel
        numWires_lt := by decide +revert +kernel
        constant_lt := by decide +revert +kernel
        gate_lt := by decide +revert +kernel
        disjoint := by decide +revert +kernel
        isSorted := by decide +revert +kernel }
  numInputs_eq := rfl

theorem makeAssertionTestCircuit_logw :
    ∀ layer ∈ makeAssertionTestCircuit.layers,
      layer.logw = Nat.clog 2 layer.numWires := by
  have hfour : Nat.clog 2 4 = 2 := Nat.clog_pow 2 2 Nat.one_lt_two
  have htwo : Nat.clog 2 2 = 1 := Nat.clog_pow 2 1 Nat.one_lt_two
  simp [makeAssertionTestCircuit, hfour, htwo]

end Longfellow
