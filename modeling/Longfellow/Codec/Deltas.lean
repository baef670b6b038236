/-
The signed differences of an encoded circuit, and their exact running sums.
The decoder computes these sums as long as they are `u32`s. Where one is not,
a build with overflow checks panics.
-/
import Longfellow.Codec.RoundTrip
import Longfellow.Lib.Logged

namespace Longfellow

open Exec CodecFieldElement Decoder

/-- A difference that a decoder meets: its word, and the exact sum of the
differences of the same index up to this one. -/
structure Delta where
  word : Nat
  sum : Int
deriving DecidableEq

/-- The running sum is a `u32`. -/
def Delta.InRange (delta : Delta) : Prop := 0 ≤ delta.sum ∧ delta.sum < 2 ^ 32

instance (delta : Delta) : Decidable delta.InRange :=
  inferInstanceAs (Decidable (0 ≤ delta.sum ∧ delta.sum < 2 ^ 32))

/-- Zero is written as zero, not as minus zero. -/
def Delta.Canonical (delta : Delta) : Prop := delta.word ≠ 1

instance (delta : Delta) : Decidable delta.Canonical :=
  inferInstanceAs (Decidable (delta.word ≠ 1))

/-- The running sums of the three indices of a quad. -/
structure Sums where
  gate : Int
  left : Int
  right : Int
deriving DecidableEq

/-- Read a difference, and add it to the sum. -/
def readDelta (sum : Int) : Logged Delta Int := do
  let word ← Logged.ofDecoder Size.decode
  let sum := sum + Size.signed word
  Logged.log ⟨word, sum⟩
  pure sum

/-- Read the three differences and the constant of a quad. -/
def readQuad (sums : Sums) : Logged Delta (Sums × Nat) := do
  let gate ← readDelta sums.gate
  let left ← readDelta sums.left
  let right ← readDelta sums.right
  let constTableIndex ← Logged.ofDecoder Size.decode
  pure (⟨gate, left, right⟩, constTableIndex)

/-- The quad with the given sums as indices. -/
def Sums.toQuad (sums : Sums) (constTableIndex : Nat) : Quad :=
  ⟨sums.gate.toNat, sums.left.toNat, sums.right.toNat, constTableIndex⟩

def readQuads : Nat → Sums → Logged Delta (List Quad)
  | 0, _ => pure []
  | n + 1, sums => do
      let (sums, constTableIndex) ← readQuad sums
      let quads ← readQuads n sums
      pure (sums.toQuad constTableIndex :: quads)

def readLayer : Logged Delta CircuitLayer := do
  let logw ← Logged.ofDecoder Size.decode
  let numWires ← Logged.ofDecoder Size.decode
  let numQuads ← Logged.ofDecoder Size.decode
  let quads ← readQuads numQuads ⟨0, 0, 0⟩
  pure ⟨logw, numWires, quads⟩

/-- Read a circuit, with exact running sums as indices. -/
def readCircuit (F : Type) [CodecFieldElement F] : Logged Delta (Circuit F) := do
  let header ← Logged.ofDecoder Circuit.decodeHeader
  let layers ← Logged.replicate readLayer header.numLayers
  let id ← Logged.ofDecoder Sha256Digest.decode
  pure { header with layers, id }

/-- The differences that decoding a circuit meets. -/
def deltas (F : Type) [CodecFieldElement F] (bs : List UInt8) : List Delta :=
  ((readCircuit F).run bs).1

/-- An index is the exact sum. -/
def IsSum (value : Nat) (sum : Int) : Prop :=
  (value : Int) = sum ∧ value < 2 ^ 32

namespace Size

theorem applyDelta_dev_panics {previous word : Nat} (hprevious : previous < 2 ^ 32)
    (h : ¬ (⟨word, (previous : Int) + signed word⟩ : Delta).InRange) :
    ∃ message, applyDelta .dev previous word = .error (.panic message) := by
  rw [Delta.InRange] at h
  rw [applyDelta_eq]
  rw [signed] at h
  split
  · next hodd =>
      rw [if_pos hodd] at h
      have hlt : ¬ word / 2 ≤ previous := by
        intro hle
        apply h
        simp only
        omega
      exact ⟨_, by rw [Profile.subU32, checkedSub, if_neg hlt]; rfl⟩
  · next heven =>
      rw [if_neg heven] at h
      have hlt : ¬ previous + word / 2 < 2 ^ 32 := by
        intro hle
        apply h
        simp only
        omega
      exact ⟨_, by rw [Profile.addU32, Exec.assert, if_neg hlt]; rfl⟩

theorem run_readDelta_none {sum : Int} {bs : List UInt8}
    (h : (decode bs).toOption = none) :
    (readDelta sum).run bs = ([], none) :=
  Logged.run_bind_none h

theorem run_readDelta_some {sum : Int} {bs rest : List UInt8} {word : Nat}
    (h : (decode bs).toOption = some (word, rest)) :
    (readDelta sum).run bs =
      ([⟨word, sum + signed word⟩], some (sum + signed word, rest)) :=
  Logged.run_bind_some h

end Size

section Tracks

variable {profile : Profile}

/-- Decoding a difference tracks reading it. -/
theorem Quad.decodeIndex_tracks {previous : Nat} {sum : Int}
    (h : IsSum previous sum) :
    Logged.Tracks (profile = .dev) Delta.InRange
      (Quad.decodeIndex profile previous) (readDelta sum) IsSum := by
  obtain ⟨rfl, hlt⟩ := h
  have hindex : Quad.decodeIndex profile previous =
      Size.decodeDelta profile previous := by
    funext bs
    rw [Quad.decodeIndex, Decoder.run_bind, Decoder.ofExec,
      Size.tryFrom_eq_ok.mpr ⟨hlt, rfl⟩]
    rfl
  rw [hindex]
  have hsafe := Size.decode_safe
  constructor
  · intro bs b rest hgood hsome
    rcases hword : (Size.decode bs).toOption with _ | ⟨word, mid⟩
    · rw [Size.run_readDelta_none hword] at hsome
      cases hsome
    · rw [Size.run_readDelta_some hword] at hgood hsome
      have hrange := hgood _ List.mem_cons_self
      cases hsome
      have hdecode : Size.decode bs = .ok (word, rest) := by
        cases hrun : Size.decode bs with
        | error e => rw [hrun] at hword; cases hword
        | ok r => rw [hrun] at hword; cases hword; rfl
      obtain ⟨hnonneg, hbound⟩ := hrange
      obtain ⟨size, hsize⟩ := Int.eq_ofNat_of_zero_le hnonneg
      simp only at hsize hbound
      have hsizeLt : size < 2 ^ 32 := by omega
      refine ⟨size, ?_, ⟨hsize.symm, hsizeLt⟩⟩
      apply Decoder.bind_eq_ok.mpr
      refine ⟨word, rest, hdecode, ?_⟩
      apply ofExec_eq_ok.mpr
      exact ⟨Size.applyDelta_of_inRange profile hlt hsizeLt hsize, rfl⟩
  · intro bs hgood hnone
    rcases hword : (Size.decode bs).toOption with _ | ⟨word, mid⟩
    · have hP := hsafe bs
      rcases hrun : Size.decode bs with (message | message) | r
      · exact ⟨message, by rw [Size.decodeDelta, Decoder.run_bind, hrun]; rfl⟩
      · rw [hrun] at hP
        cases hP
      · rw [hrun] at hword
        cases hword
    · rw [Size.run_readDelta_some hword] at hnone
      cases hnone
  · rintro rfl bs ⟨delta, hmem, hbad⟩
    rcases hword : (Size.decode bs).toOption with _ | ⟨word, mid⟩
    · rw [Size.run_readDelta_none hword] at hmem
      cases hmem
    · rw [Size.run_readDelta_some hword] at hmem
      obtain rfl := List.mem_singleton.mp hmem
      have hdecode : Size.decode bs = .ok (word, mid) := by
        cases hrun : Size.decode bs with
        | error e => rw [hrun] at hword; cases hword
        | ok r => rw [hrun] at hword; cases hword; rfl
      obtain ⟨message, hpanic⟩ := Size.applyDelta_dev_panics hlt hbad
      refine ⟨message, ?_⟩
      rw [Size.decodeDelta, Decoder.run_bind, hdecode]
      simp only [ok_bind, ofExec, hpanic]
      rfl

/-- The indices of a quad are the exact sums. -/
structure Quad.IsSums (quad : Quad) (sums : Sums) : Prop where
  gate : IsSum quad.gateIndex sums.gate
  left : IsSum quad.leftWireIndex sums.left
  right : IsSum quad.rightWireIndex sums.right

theorem Quad.IsSums.eq_toQuad {quad : Quad} {sums : Sums}
    (h : quad.IsSums sums) : quad = sums.toQuad quad.constTableIndex := by
  have hnat {value : Nat} {sum : Int} (h : IsSum value sum) :
      sum.toNat = value := by
    rw [← h.1, Int.toNat_natCast]
  rw [Sums.toQuad, hnat h.gate, hnat h.left, hnat h.right]

theorem Quad.zero_isSums : Quad.zero.IsSums ⟨0, 0, 0⟩ :=
  ⟨⟨rfl, by decide⟩, ⟨rfl, by decide⟩, ⟨rfl, by decide⟩⟩

theorem Quad.decodeWithParam_tracks {prevQuad : Option Quad} {sums : Sums}
    (h : (prevQuad.getD Quad.zero).IsSums sums) :
    Logged.Tracks (profile = .dev) Delta.InRange
      (Quad.decodeWithParam profile prevQuad) (readQuad sums)
      fun quad read => quad.IsSums read.1 ∧ quad.constTableIndex = read.2 :=
  (Quad.decodeIndex_tracks h.gate).bind fun _ _ hgate =>
  (Quad.decodeIndex_tracks h.left).bind fun _ _ hleft =>
  (Quad.decodeIndex_tracks h.right).bind fun _ _ hright =>
  (Logged.Tracks.ofDecoder Size.decode_safe).bind fun _ _ hconstant =>
  Logged.Tracks.pure ⟨⟨hgate, hleft, hright⟩, hconstant.1⟩

namespace CircuitLayer

theorem decodeQuads_tracks (n : Nat) (prevQuad : Option Quad) {sums : Sums}
    (h : (prevQuad.getD Quad.zero).IsSums sums) :
    Logged.Tracks (profile = .dev) Delta.InRange
      (decodeQuads profile n prevQuad) (readQuads n sums) Eq := by
  induction n generalizing prevQuad sums with
  | zero => exact Logged.Tracks.pure rfl
  | succ n ih =>
      refine (Quad.decodeWithParam_tracks h).bind fun quad read hquad => ?_
      obtain ⟨sums, constTableIndex⟩ := read
      obtain ⟨hsums, rfl⟩ := hquad
      have hnext := ih (some quad) hsums
      refine hnext.bind fun quads quads' hquads => Logged.Tracks.pure ?_
      rw [hquads, ← hsums.eq_toQuad]

theorem decode_tracks :
    Logged.Tracks (profile = .dev) Delta.InRange (decode profile) readLayer
      Eq := by
  refine (Logged.Tracks.ofDecoder Size.decode_safe).bind fun logw _ hlogw =>
    (Logged.Tracks.ofDecoder Size.decode_safe).bind fun numWires _ hnumWires =>
    (Logged.Tracks.ofDecoder Size.decode_safe).bind
      fun numQuads _ hnumQuads => ?_
  obtain ⟨rfl, -⟩ := hlogw
  obtain ⟨rfl, -⟩ := hnumWires
  obtain ⟨rfl, -⟩ := hnumQuads
  refine (decodeQuads_tracks numQuads none
    Quad.zero_isSums).bind fun quads quads' hquads => Logged.Tracks.pure ?_
  rw [hquads]

end CircuitLayer

end Tracks

section Safe

theorem FieldId.decode_safe :
    Decoder.Safe FieldId.decode fun _ => True := by
  refine Size.decode_safe.bind fun value _ => ofExec_safe ?_
  refine safe_ensure.bind fun _ _ => ?_
  unfold FieldId.tryFrom
  split <;> trivial

theorem Sha256Digest.decode_safe :
    Decoder.Safe Sha256Digest.decode fun _ => True := by
  refine (takeBytes_safe 32 _).bind fun bytes hlength => ofExec_safe ?_
  rw [Sha256Digest.ofBytes, dif_pos hlength]
  trivial

theorem decodeArray_safe {α : Type} {item : Decoder α} {P : α → Prop}
    (h : item.Safe P) : Decoder.Safe (decodeArray item) fun xs =>
      xs.length < 2 ^ 24 ∧ ∀ x ∈ xs, P x := by
  refine Size.decode_safe.bind fun elements helements => ?_
  exact (replicate_safe h elements).mono fun xs hxs =>
    ⟨by rw [hxs.1]; exact helements, hxs.2⟩

variable {F : Type} [CodecFieldElement F]

theorem Circuit.decodeHeader_safe [LawfulCodec F] :
    Decoder.Safe (Circuit.decodeHeader : Decoder (Circuit F))
      fun _ => True :=
  (takeBytes_safe 1 _).bind fun _ _ =>
  FieldId.decode_safe.bind fun _ _ =>
  (ofExec_safe safe_ensure).bind fun _ _ =>
  Size.decode_safe.bind fun _ _ =>
  Size.decode_safe.bind fun _ _ =>
  Size.decode_safe.bind fun _ _ =>
  Size.decode_safe.bind fun _ _ =>
  Size.decode_safe.bind fun _ _ =>
  Size.decode_safe.bind fun _ _ =>
  (decodeArray_safe LawfulCodec.decode_safe).bind fun _ _ =>
  Decoder.Safe.pure trivial

/-- Decoding a circuit tracks reading it with exact sums. -/
theorem Circuit.decode_tracks [LawfulCodec F] (profile : Profile) :
    Logged.Tracks (profile = .dev) Delta.InRange
      (Circuit.decode profile : Decoder (Circuit F)) (readCircuit F) Eq := by
  refine (Logged.Tracks.ofDecoder Circuit.decodeHeader_safe).bind
    fun header _ hheader => ?_
  obtain ⟨rfl, -⟩ := hheader
  refine ((CircuitLayer.decode_tracks.replicate header.numLayers).context
    "failed to decode layers").bind fun layers _ hlayers => ?_
  subst hlayers
  refine (Logged.Tracks.ofDecoder Sha256Digest.decode_safe).bind
    fun id _ hid => Logged.Tracks.pure ?_
  rw [hid.1]

end Safe

section Exact

def Quad.indices (quad : Quad) : List Nat :=
  [quad.gateIndex, quad.leftWireIndex, quad.rightWireIndex]

def CircuitLayer.indices (layer : CircuitLayer) : List Nat :=
  layer.quads.flatMap Quad.indices

/-- The gate, left-wire and right-wire indices of the quads of a circuit. -/
def Circuit.indices {F : Type} (circuit : Circuit F) : List Nat :=
  circuit.layers.flatMap CircuitLayer.indices

theorem run_readDelta_eq {sum : Int} {bs rest : List UInt8} {next : Int}
    {entries : List Delta} :
    (readDelta sum).run bs = (entries, some (next, rest)) ↔
      ∃ word, Size.decode bs = .ok (word, rest) ∧
        next = sum + Size.signed word ∧ entries = [⟨word, next⟩] := by
  rw [readDelta, Logged.run_bind_eq]
  constructor
  · rintro ⟨word, mid, first, second, hfirst, hsecond, rfl⟩
    obtain ⟨rfl, hword⟩ := Logged.run_ofDecoder_eq.mp hfirst
    cases hsecond
    exact ⟨word, hword, rfl, rfl⟩
  · rintro ⟨word, hword, rfl, rfl⟩
    exact ⟨word, rest, [], _, Logged.run_ofDecoder_eq.mpr ⟨rfl, hword⟩, rfl,
      rfl⟩

theorem run_readQuad_eq {sums next : Sums} {constTableIndex : Nat}
    {bs rest : List UInt8} {entries : List Delta}
    (h : (readQuad sums).run bs =
      (entries, some ((next, constTableIndex), rest))) :
    ∃ gate left right : Nat,
      next = ⟨sums.gate + Size.signed gate, sums.left + Size.signed left,
        sums.right + Size.signed right⟩ ∧
      entries = [⟨gate, next.gate⟩, ⟨left, next.left⟩, ⟨right, next.right⟩] ∧
      gate < 2 ^ 24 ∧ left < 2 ^ 24 ∧ right < 2 ^ 24 ∧
      constTableIndex < 2 ^ 24 ∧
      bs = Bytes.leBytes 3 gate ++ Bytes.leBytes 3 left ++
        Bytes.leBytes 3 right ++ Bytes.leBytes 3 constTableIndex ++ rest := by
  rw [readQuad] at h
  obtain ⟨_, _, _, _, h1, hrest1, rfl⟩ := Logged.run_bind_eq.mp h
  obtain ⟨_, _, _, _, h2, hrest2, rfl⟩ := Logged.run_bind_eq.mp hrest1
  obtain ⟨_, _, _, _, h3, hrest3, rfl⟩ := Logged.run_bind_eq.mp hrest2
  obtain ⟨_, _, _, _, h4, hrest4, rfl⟩ := Logged.run_bind_eq.mp hrest3
  obtain ⟨gate, hgate, rfl, rfl⟩ := run_readDelta_eq.mp h1
  obtain ⟨left, hleft, rfl, rfl⟩ := run_readDelta_eq.mp h2
  obtain ⟨right, hright, rfl, rfl⟩ := run_readDelta_eq.mp h3
  obtain ⟨rfl, hconstant⟩ := Logged.run_ofDecoder_eq.mp h4
  obtain ⟨rfl, hlast, rfl⟩ := Logged.run_pure_eq.mp hrest4
  cases hlast
  obtain ⟨hgateLt, rfl⟩ := (Size.decode_format _ _ _).mp hgate
  obtain ⟨hleftLt, rfl⟩ := (Size.decode_format _ _ _).mp hleft
  obtain ⟨hrightLt, rfl⟩ := (Size.decode_format _ _ _).mp hright
  obtain ⟨hconstantLt, rfl⟩ := (Size.decode_format _ _ _).mp hconstant
  exact ⟨gate, left, right, rfl, rfl, hgateLt, hleftLt, hrightLt, hconstantLt,
    by simp [List.append_assoc]⟩

end Exact

end Longfellow
