/-
What the verifier of the sumcheck has seen when it draws a challenge. The
transcript answers the view, and nothing else.
-/
import Longfellow.Sumcheck.PlainVerifier

namespace Longfellow.Sumcheck

open Multilinear

section View

variable {F : Type}

/-- The challenges of the outputs, and the layers with the challenges that
answer them. -/
structure Seen (F : Type) where
  outputs : List F
  proofLayers : List (ProofLayer F)
  drawn : List (LayerChallenges F)

/-- What the verifier has seen when it draws a challenge for the outputs, one
of the two that combine a layer, one that answers a message, or the last
one. -/
inductive View (F : Type) where
  | output (bound : List F)
  | alpha (seen : Seen F)
  | beta (seen : Seen F) (alpha : F)
  | round (seen : Seen F) (alpha beta : F)
      (rounds : List (Sumcheck.Polynomial F × F))
      (message : Sumcheck.Polynomial F)
  | gamma (seen : Seen F)

/-- What has been seen before a layer. -/
def Seen.before (proof : SumcheckProof F) (challenges : Challenges F)
    (i : Nat) : Seen F :=
  ⟨challenges.outputs, proof.layers.take i, challenges.layers.take i⟩

/-- The bindings of the next layer. -/
def Seen.bindings (seen : Seen F) : Hands (List F) :=
  seen.drawn.getLast?.elim ⟨seen.outputs, seen.outputs⟩ fun layer =>
    ⟨deal .left layer.rounds, deal .right layer.rounds⟩

/-- The claims that the next layer starts from. -/
def Seen.claims [Field F] (seen : Seen F) : Hands F :=
  seen.proofLayers.getLast?.elim ⟨0, 0⟩ ProofLayer.wires

/-- A challenge is drawn at a view of the run. -/
inductive Drawn (proof : SumcheckProof F) (challenges : Challenges F) :
    View F → F → Prop where
  | output {k : Nat} {x : F} (hx : challenges.outputs[k]? = some x) :
      Drawn proof challenges (.output (challenges.outputs.take k)) x
  | alpha {i : Nat} {drawn : LayerChallenges F}
      (hdrawn : challenges.layers[i]? = some drawn) :
      Drawn proof challenges (.alpha (.before proof challenges i)) drawn.alpha
  | beta {i : Nat} {drawn : LayerChallenges F}
      (hdrawn : challenges.layers[i]? = some drawn) :
      Drawn proof challenges (.beta (.before proof challenges i) drawn.alpha)
        drawn.beta
  | round {i k : Nat} {proofLayer : ProofLayer F} {drawn : LayerChallenges F}
      {message : Sumcheck.Polynomial F} {x : F}
      (hlayer : proof.layers[i]? = some proofLayer)
      (hdrawn : challenges.layers[i]? = some drawn)
      (hmessage : proofLayer.messages[k]? = some message)
      (hx : drawn.rounds[k]? = some x) :
      Drawn proof challenges
        (.round (.before proof challenges i) drawn.alpha drawn.beta
          ((proofLayer.messages.zip drawn.rounds).take k) message) x
  | gamma : Drawn proof challenges
      (.gamma (.before proof challenges proof.layers.length)) challenges.gamma

variable {proof : SumcheckProof F} {challenges : Challenges F} {i : Nat}

theorem Seen.bindings_before (hi : i ≤ challenges.layers.length) :
    (Seen.before proof challenges i).bindings = challenges.bindings i := by
  cases i with
  | zero => rfl
  | succ i =>
      have hlast : (challenges.layers.take (i + 1)).getLast? =
          challenges.layers[i]? := by
        rw [List.getLast?_take, if_neg (Nat.succ_ne_zero i), Nat.add_sub_cancel,
          List.getElem?_eq_getElem hi, Option.some_or]
      rw [bindings, before, hlast, Challenges.bindings,
        List.getElem?_eq_getElem hi]
      rfl

theorem Seen.claims_before [Field F] (hi : i ≤ proof.layers.length) :
    (Seen.before proof challenges i).claims = proof.claims i := by
  cases i with
  | zero => rfl
  | succ i =>
      have hlast : (proof.layers.take (i + 1)).getLast? = proof.layers[i]? := by
        rw [List.getLast?_take, if_neg (Nat.succ_ne_zero i), Nat.add_sub_cancel,
          List.getElem?_eq_getElem hi, Option.some_or]
      rw [claims, before, hlast, SumcheckProof.claims,
        List.getElem?_eq_getElem hi]
      rfl

theorem Seen.length_before (hi : i ≤ proof.layers.length) :
    (Seen.before proof challenges i).proofLayers.length = i := by
  rw [before, List.length_take, Nat.min_eq_left hi]

end View

section Unpad

variable {F : Type} [Field F] (layout : WitnessLayout) (witness : Nat → F)

/-- What is seen without the pads. -/
def Seen.unpad (seen : Seen F) : Seen F :=
  { seen with
    proofLayers := (Sumcheck.unpad layout witness ⟨seen.proofLayers⟩).layers }

/-- The message of a round without its pads. -/
def unpadMessage (base : Nat) (message : Sumcheck.Polynomial F) (k : Nat) :
    Sumcheck.Polynomial F :=
  ⟨message.p0 + witness (base + 2 * k), message.p2 + witness (base + 2 * k + 1)⟩

/-- The view without the pads. -/
def View.unpad : View F → View F
  | output bound => output bound
  | alpha seen => alpha (seen.unpad layout witness)
  | beta seen a => beta (seen.unpad layout witness) a
  | round seen a b rounds message =>
      let base := polynomialBase layout seen.proofLayers.length
      round (seen.unpad layout witness) a b
        (rounds.mapIdx fun k turn =>
          (unpadMessage witness base turn.1 k, turn.2))
        (unpadMessage witness base message rounds.length)
  | gamma seen => gamma (seen.unpad layout witness)

variable {layout : WitnessLayout} {witness : Nat → F}
  {proof : SumcheckProof F} {challenges : Challenges F}

theorem zip_unpadMessages (base : Nat) (messages : List (Sumcheck.Polynomial F))
    (drawn : List F) :
    (unpadMessages base witness messages).zip drawn =
      (messages.zip drawn).mapIdx fun k turn =>
        (unpadMessage witness base turn.1 k, turn.2) := by
  refine List.ext_getElem ?_ fun i hi hi' => ?_
  · simp [unpadMessages]
  · simp [unpadMessages, unpadMessage]

theorem mapIdx_take {α β : Type} (f : Nat → α → β) (xs : List α) (n : Nat) :
    (xs.take n).mapIdx f = (xs.mapIdx f).take n := by
  refine List.ext_getElem? fun i => ?_
  rw [List.getElem?_mapIdx, List.getElem?_take, List.getElem?_take,
    List.getElem?_mapIdx]
  split <;> rfl

theorem Seen.unpad_before (i : Nat) :
    (Seen.before proof challenges i).unpad layout witness =
      .before (Sumcheck.unpad layout witness proof) challenges i := by
  simp only [unpad, before, Sumcheck.unpad, mapIdx_take]

/-- What is drawn in the run without the pads is drawn in the run with them. -/
theorem Drawn.of_unpad {view : View F} {x : F}
    (h : Drawn (Sumcheck.unpad layout witness proof) challenges view x) :
    ∃ padded, Drawn proof challenges padded x ∧
      padded.unpad layout witness = view := by
  cases h with
  | output hx => exact ⟨_, .output hx, rfl⟩
  | alpha hdrawn => exact ⟨_, .alpha hdrawn, by rw [View.unpad, Seen.unpad_before]⟩
  | beta hdrawn => exact ⟨_, .beta hdrawn, by rw [View.unpad, Seen.unpad_before]⟩
  | @round i k proofLayer drawn message x hlayer hdrawn hmessage hx =>
      rw [Sumcheck.unpad, List.getElem?_mapIdx, Option.map_eq_some_iff] at hlayer
      obtain ⟨padded, hlayer, rfl⟩ := hlayer
      rw [messages_unpadLayer, unpadMessages, List.getElem?_map,
        List.getElem?_zipIdx, Nat.zero_add] at hmessage
      obtain ⟨turn, hturn, rfl⟩ := Option.map_eq_some_iff.mp hmessage
      obtain ⟨sent, hsent, rfl⟩ := Option.map_eq_some_iff.mp hturn
      have hi := (List.getElem?_eq_some_iff.mp hlayer).1
      have hk := (List.getElem?_eq_some_iff.mp hsent).1
      have hk' := (List.getElem?_eq_some_iff.mp hx).1
      have hlength : ((padded.messages.zip drawn.rounds).take k).length = k := by
        rw [List.length_take, List.length_zip]
        omega
      refine ⟨_, .round hlayer hdrawn hsent hx, ?_⟩
      rw [View.unpad, Seen.unpad_before, Seen.length_before hi.le, hlength,
        messages_unpadLayer, zip_unpadMessages, mapIdx_take]
      rfl
  | gamma =>
      refine ⟨_, .gamma, ?_⟩
      rw [View.unpad, Seen.unpad_before]
      simp [Sumcheck.unpad]

end Unpad

end Longfellow.Sumcheck
