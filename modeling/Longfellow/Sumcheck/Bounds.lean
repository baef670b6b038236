/-
A run of the protocol that returns has bound every layer within the width of a
machine word.
-/
import Longfellow.Sumcheck.Protocol

namespace Longfellow

open Exec

theorem update_length {α : Type} {xs ys : List α} {i : Nat} {f : α → α}
    (h : update xs i f = .ok ys) : ys.length = xs.length := by
  obtain ⟨x, -, rfl⟩ := update_eq_ok.mp h
  exact List.length_set

theorem bindeqInner_ensures {F : Type} [Field F] (input : List F) :
    Ensures (bindeqInner input) fun _ => input.length < 64 := by
  intro table h
  rw [bindeqInner] at h
  obtain ⟨u, hlength, -⟩ := Exec.bind_eq_ok.mp h
  exact assert_eq_ok.mp hlength

theorem bindeq_ensures {F : Type} [Field F] (bindings0 bindings1 : List F)
    (scale : F) :
    Ensures (bindeq bindings0 bindings1 scale)
      fun _ => bindings0.length < 64 := by
  intro table h
  rw [bindeq] at h
  obtain ⟨table0, htable0, -⟩ := Exec.bind_eq_ok.mp h
  exact bindeqInner_ensures bindings0 table0 htable0

namespace Sumcheck

section Protocol

variable {F : Type} [Field F]

theorem bindvGate_ensures (array : SparseSumcheckArray F)
    (bindings0 bindings1 : List F) (alpha : F) :
    Ensures (array.bindvGate bindings0 bindings1 alpha)
      fun _ => bindings0.length < 64 := by
  refine Ensures.trivial.bind fun _ _ => ?_
  cases (array.contents.map fun e => e.gateIndex).max? with
  | none =>
      intro _ h
      cases h
  | some gate =>
      refine Ensures.trivial.bind fun _ _ => ?_
      refine Ensures.trivial.bind fun _ _ => ?_
      exact (bindeq_ensures bindings0 bindings1 alpha).bind
        fun _ hlength _ _ => hlength

variable [ProofFieldElement F] [Primitives] [SamplesField F]

theorem runRound_ensures (layout : WitnessLayout) (layerIndex : Nat)
    (state : RoundState F) (roundHand : Nat × Hand) :
    Ensures (runRound layout layerIndex state roundHand) fun next =>
      next.newBindings.left.length = state.newBindings.left.length := by
  obtain ⟨round, hand⟩ := roundHand
  refine Ensures.trivial.bind fun polynomial _ => ?_
  refine Ensures.trivial.bind fun challenge _ => ?_
  have hupdate : Ensures
      (update (state.newBindings.get hand) round fun _ => challenge)
      fun binding => binding.length = (state.newBindings.get hand).length :=
    fun binding h => update_length h
  refine hupdate.bind fun binding hbinding => ?_
  refine Ensures.trivial.bind fun _ _ => ?_
  refine Ensures.trivial.bind fun _ _ => ?_
  refine Ensures.trivial.bind fun _ _ => ?_
  refine Ensures.pure ?_
  cases hand with
  | left => exact hbinding
  | right => rfl

variable [DecidableEq F]

/-- A layer that returns was given bindings that fit, and leaves as many as it
has rounds. -/
theorem runLayer_ensures (circuit : Circuit F) (layout : WitnessLayout)
    (state : LayerState F) (layer : CircuitLayer) (i : Nat) :
    Ensures (runLayer circuit layout state (layer, i)) fun next =>
      state.bindings.left.length < 64 ∧
        next.bindings.left.length = layer.logw := by
  refine Ensures.trivial.bind fun alpha _ => ?_
  refine Ensures.trivial.bind fun beta _ => ?_
  refine Ensures.trivial.bind fun quad _ => ?_
  refine (bindvGate_ensures quad _ _ alpha).bind fun quad hlength => ?_
  refine Ensures.trivial.bind fun claim _ => ?_
  have hrounds := Ensures.foldlM (f := runRound layout i)
    (I := fun _ state => state.newBindings.left.length = layer.logw)
    (rounds layer.logw)
    (s := ⟨((state.transcript.generateChallenge F 1).2.generateChallenge F 1).2, state.role, quad,
      ⟨List.replicate layer.logw 0, List.replicate layer.logw 0⟩, claim⟩)
    (List.length_replicate ..)
    fun k hk state hstate next hnext =>
      (runRound_ensures layout i state _ next hnext).trans hstate
  refine hrounds.bind fun inner hinner => ?_
  refine Ensures.trivial.bind fun _ _ => ?_
  refine Ensures.trivial.bind fun _ _ => ?_
  refine Ensures.trivial.bind fun _ _ => ?_
  refine Ensures.trivial.bind fun _ _ => ?_
  refine Ensures.trivial.bind fun _ _ => ?_
  refine Ensures.trivial.bind fun _ _ => ?_
  refine Ensures.trivial.bind fun _ _ => ?_
  exact Ensures.pure ⟨hlength, hinner⟩

/-- If a run returns, whatever the role, then no layer has more bits than a
shift of a machine word allows. -/
theorem runProtocol_ensures (circuit : Circuit F) (transcript : Transcript)
    (role : ProtocolRole F) :
    Ensures (runProtocol circuit transcript role)
      fun _ => ∀ layer ∈ circuit.layers, layer.logw < 64 := by
  refine Ensures.trivial.bind fun inputs _ => ?_
  refine Ensures.trivial.bind fun _ _ => ?_
  refine Ensures.trivial.bind fun _ _ => ?_
  refine Ensures.trivial.bind fun outputs _ => ?_
  have hlayers := Ensures.foldlM (f := runLayer circuit inputs.2)
    (I := fun k state =>
      (∀ j (hj : j < circuit.layers.length), j + 1 < k →
        circuit.layers[j].logw < 64) ∧
      ∀ j (hj : j < circuit.layers.length), j + 1 = k →
        state.bindings.left.length = circuit.layers[j].logw)
    circuit.layers.zipIdx
    (s := ⟨outputs.2, role, ⟨outputs.1, outputs.1⟩, ⟨0, 0⟩, ⟨[], []⟩⟩)
    ⟨fun j hj hlt => by omega, fun j hj heq => by omega⟩ ?_
  · refine hlayers.bind fun state hstate => ?_
    refine Ensures.trivial.bind fun gamma _ => ?_
    refine (bindeq_ensures _ _ gamma).bind fun table hlast => ?_
    intro result hresult layer hlayer
    obtain ⟨j, hj, rfl⟩ := List.getElem_of_mem hlayer
    simp only [List.length_zipIdx] at hstate
    rcases Nat.lt_or_eq_of_le (Nat.succ_le_of_lt hj) with hlt | heq
    · exact hstate.1 j hj hlt
    · rwa [hstate.2 j hj heq] at hlast
  · intro k hk state hstate next hnext
    have hk' : k < circuit.layers.length := by simpa using hk
    rw [List.getElem_zipIdx, Nat.zero_add] at hnext
    obtain ⟨hlength, hbindings⟩ :=
      runLayer_ensures circuit inputs.2 state circuit.layers[k] k next hnext
    refine ⟨fun j hj hlt => ?_, fun j hj heq => ?_⟩
    · rcases Nat.lt_or_eq_of_le (Nat.le_of_lt_succ hlt) with hlt' | heq
      · exact hstate.1 j hj hlt'
      · rwa [hstate.2 j hj heq] at hlength
    · have hjk : j = k := by omega
      subst hjk
      exact hbindings

end Protocol

end Sumcheck

end Longfellow
