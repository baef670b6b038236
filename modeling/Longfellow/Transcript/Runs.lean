/-
Runs of a transcript: any sequence of writes and challenges. The stream that
challenges are sampled from is always keyed by the bytes written so far, and
its position counts the bytes drawn since the last write.
-/
import Longfellow.Lib.ByteStream
import Longfellow.Messages

namespace Longfellow

open Exec CodecFieldElement ByteStream

namespace FiatShamirPseudoRandomFunction

variable [Primitives]

/-- The infinite stream of bytes based on a key. -/
def byteAt (key : Sha256Digest) (position : Nat) : UInt8 :=
  (blockAt key position).get ⟨position % 16, Nat.mod_lt _ (by decide)⟩

/-- The state of the stream with a key at a position. Inside a block, that
block is at hand. -/
structure At (key : Sha256Digest) (position : Nat)
    (fsprf : FiatShamirPseudoRandomFunction) : Prop where
  key_eq : fsprf.key = key
  position_eq : fsprf.position = position
  currentBlock_eq :
    position % 16 ≠ 0 → fsprf.currentBlock = blockAt key position

theorem new_at (seed : Sha256Digest) : At seed 0 (new seed) :=
  ⟨rfl, rfl, fun hne => absurd rfl hne⟩

variable {key : Sha256Digest} {position : Nat}
  {fsprf : FiatShamirPseudoRandomFunction}

theorem At.next (h : At key position fsprf) :
    fsprf.next.1 = byteAt key position ∧
      At key (position + 1) fsprf.next.2 := by
  obtain ⟨rfl, rfl, hcurrent⟩ := h
  have hblock : fsprf.next.2.currentBlock =
      blockAt fsprf.key fsprf.position := by
    simp only [FiatShamirPseudoRandomFunction.next]
    by_cases hzero : fsprf.position % 16 = 0
    · rw [if_pos hzero]
    · rw [if_neg hzero, hcurrent hzero]
  constructor
  · have hbyte : fsprf.next.1 = fsprf.next.2.currentBlock.get
        ⟨fsprf.position % 16, Nat.mod_lt _ (by decide)⟩ := rfl
    rw [hbyte, hblock, byteAt]
  · refine ⟨rfl, rfl, fun hne => ?_⟩
    have hsame : (fsprf.position + 1) / 16 = fsprf.position / 16 := by omega
    rw [hblock, blockAt, blockAt, hsame]

theorem At.take (h : At key position fsprf) (n : Nat) :
    (take n fsprf).1 = window (byteAt key) position n ∧
      At key (position + n) (take n fsprf).2 := by
  induction n generalizing position fsprf with
  | zero => exact ⟨rfl, h⟩
  | succ n ih =>
      obtain ⟨hbyte, hnext⟩ := h.next
      obtain ⟨hbytes, hlast⟩ := ih hnext
      constructor
      · rw [window_succ, ← hbyte, ← hbytes]
        rfl
      · rw [Nat.add_assoc, Nat.add_comm 1 n] at hlast
        exact hlast

theorem At.sampleBits (h : At key position fsprf) (numBits : Nat) :
    (sampleBits numBits fsprf).1 = maskExcess numBits
        (window (byteAt key) position ((numBits + 7) / 8)) ∧
      At key (position + (numBits + 7) / 8) (sampleBits numBits fsprf).2 := by
  obtain ⟨hbytes, hlast⟩ := h.take ((numBits + 7) / 8)
  constructor
  · rw [← hbytes]
    rfl
  · exact hlast

section Rejection

variable {α : Type} {numBits : Nat} {accept : List UInt8 → Option α}

theorem At.attempt (h : At key position fsprf) (numBits : Nat)
    (accept : List UInt8 → Option α) :
    (attempt numBits accept fsprf).1 =
        ByteStream.round (byteAt key) numBits accept position ∧
      At key (position + (numBits + 7) / 8)
        (attempt numBits accept fsprf).2 := by
  obtain ⟨hbits, hlast⟩ := h.sampleBits numBits
  constructor
  · rw [ByteStream.round, ← hbits]
    rfl
  · exact hlast

theorem At.afterRejections (h : At key position fsprf) (numBits : Nat)
    (accept : List UInt8 → Option α) (k : Nat) :
    At key (position + k * ((numBits + 7) / 8))
      (afterRejections numBits accept k fsprf) := by
  induction k generalizing position fsprf with
  | zero =>
      rw [Nat.zero_mul, Nat.add_zero]
      exact h
  | succ k ih =>
      have hnext := ih (h.attempt numBits accept).2
      have hsum : position + (numBits + 7) / 8 + k * ((numBits + 7) / 8) =
          position + (k + 1) * ((numBits + 7) / 8) := by ring
      rw [hsum] at hnext
      exact hnext

/-- The loop of rejection sampling samples from the stream. -/
theorem At.sample (h : At key position fsprf)
    (accepts : Accepts numBits accept) :
    ∃ next, Sampled (byteAt key) numBits accept position
        (sample accepts fsprf).1 next ∧
      At key next (sample accepts fsprf).2 := by
  have hround (k : Nat) :=
    (h.afterRejections numBits accept k).attempt numBits accept
  have hlast := (hround (Nat.find (accepts fsprf))).2
  refine ⟨position + (Nat.find (accepts fsprf) + 1) * ((numBits + 7) / 8),
    ⟨Nat.find (accepts fsprf), fun k hk => ?_, ?_, rfl⟩, ?_⟩
  · have hnot := Nat.find_min (accepts fsprf) hk
    rw [← (hround k).1]
    exact Option.not_isSome_iff_eq_none.mp hnot
  · rw [← (hround _).1]
    exact (Option.some_get _).symm
  · have hsum : position +
          Nat.find (accepts fsprf) * ((numBits + 7) / 8) + (numBits + 7) / 8 =
        position + (Nat.find (accepts fsprf) + 1) * ((numBits + 7) / 8) := by
      ring
    rw [hsum] at hlast
    exact hlast

end Rejection

end FiatShamirPseudoRandomFunction

open FiatShamirPseudoRandomFunction

section Abstract

variable [Primitives]

/-- An operation on a transcript: a write of elements of any field, a challenge
of any field, or natural numbers without replacement. -/
inductive Operation : Type 1 where
  | write {F : Type} [CodecFieldElement F] (w : Write F)
  | generateChallenge (F : Type) [CodecFieldElement F] [SamplesField F]
      (length : Nat)
  | generateNaturalsWithoutReplacement (max count : Nat)

/-- What an operation hands back. -/
inductive Output : Type 1 where
  | nothing
  | elements {F : Type} (xs : List F)
  | naturals (xs : List Nat)

/-- The bytes that an operation writes. -/
def Operation.bytes (mode : TranscriptMode) : Operation → List UInt8
  | @Operation.write _ _ _ w => w.messages.flatMap (Message.bytes mode)
  | _ => []

/-- Swapping each of the leading positions of a list with a position that is
sampled at or after it. -/
inductive Shuffled (stream : Nat → UInt8) (max : Nat) :
    List Nat → List Nat → Nat → List Nat → Nat → Prop where
  | nil (list : List Nat) (position : Nat) :
      Shuffled stream max [] list position list position
  | cons {i natural a b position next last : Nat} {is list shuffled : List Nat} :
      Sampled stream (naturalBits (max - i)) (acceptNatural (max - i))
        position natural next →
      list[i]? = some a → list[i + natural]? = some b →
      Shuffled stream max is ((list.set i b).set (i + natural) a) next
        shuffled last →
      Shuffled stream max (i :: is) list position shuffled last

/-- What the challenges of a transcript depend on: the bytes written so far,
and how many bytes were drawn from the stream since the last write. -/
structure History where
  written : List UInt8
  drawn : Nat

namespace History

/-- The stream that is keyed by the bytes written so far. -/
def stream (history : History) : Nat → UInt8 :=
  byteAt (Primitives.sha256 history.written)

/-- An operation on the history: a write starts a new stream, a challenge reads
on in the current one. -/
inductive Step (mode : TranscriptMode) :
    History → Operation → Output → History → Prop where
  | write {F : Type} [CodecFieldElement F] (history : History) (w : Write F) :
      Step mode history (.write w) .nothing
        ⟨history.written ++ w.messages.flatMap (Message.bytes mode), 0⟩
  | generateChallenge {F : Type} [CodecFieldElement F] [SamplesField F]
      {history : History} {length drawn : Nat} {xs : List F} :
      xs.length = length →
      SampledList history.stream (numBits F) (tryFrom (F := F)) history.drawn
        xs drawn →
      Step mode history (.generateChallenge F length) (.elements xs)
        ⟨history.written, drawn⟩
  | generateNaturalsWithoutReplacement {history : History}
      {max count drawn : Nat} {shuffled : List Nat} :
      Shuffled history.stream max (List.range count) (List.range max)
        history.drawn shuffled drawn →
      Step mode history (.generateNaturalsWithoutReplacement max count)
        (.naturals (shuffled.take count)) ⟨history.written, drawn⟩

/-- A sequence of operations on the history. -/
inductive Run (mode : TranscriptMode) :
    History → List Operation → List Output → History → Prop where
  | nil (history : History) : Run mode history [] [] history
  | cons {first second last : History} {operation : Operation}
      {operations : List Operation} {output : Output} {outputs : List Output} :
      Step mode first operation output second →
      Run mode second operations outputs last →
      Run mode first (operation :: operations) (output :: outputs) last

end History

omit [Primitives] in
theorem Shuffled.unique {stream : Nat → UInt8} {max : Nat}
    {is list shuffled shuffled' : List Nat} {position last last' : Nat}
    (h : Shuffled stream max is list position shuffled last)
    (h' : Shuffled stream max is list position shuffled' last') :
    shuffled = shuffled' ∧ last = last' := by
  induction h generalizing shuffled' last' with
  | nil list position =>
      cases h'
      exact ⟨rfl, rfl⟩
  | cons hsampled hfirst hsecond _ ih =>
      cases h' with
      | cons hsampled' hfirst' hsecond' hrest' =>
          obtain ⟨rfl, rfl⟩ := hsampled.unique hsampled'
          rw [hfirst, Option.some_inj] at hfirst'
          rw [hsecond, Option.some_inj] at hsecond'
          subst hfirst'
          subst hsecond'
          exact ih hrest'

/-- What an operation hands back, and what it draws, depends on the history
only. -/
theorem History.Step.unique {mode mode' : TranscriptMode} {history : History}
    {operation : Operation} {output output' : Output} {next next' : History}
    (h : Step mode history operation output next)
    (h' : Step mode' history operation output' next') :
    output = output' ∧ next.drawn = next'.drawn := by
  cases h with
  | write w =>
      cases h'
      exact ⟨rfl, rfl⟩
  | generateChallenge hlength hsampled =>
      cases h' with
      | generateChallenge hlength' hsampled' =>
          obtain ⟨rfl, rfl⟩ :=
            hsampled.unique hsampled' (hlength.trans hlength'.symm)
          exact ⟨rfl, rfl⟩
  | generateNaturalsWithoutReplacement hshuffled =>
      cases h' with
      | generateNaturalsWithoutReplacement hshuffled' =>
          obtain ⟨rfl, rfl⟩ := hshuffled.unique hshuffled'
          exact ⟨rfl, rfl⟩

theorem History.Run.written_eq {mode : TranscriptMode} {first last : History}
    {operations : List Operation} {outputs : List Output}
    (h : Run mode first operations outputs last) :
    last.written =
      first.written ++ operations.flatMap (Operation.bytes mode) := by
  induction h with
  | nil history => simp
  | cons hstep _ ih =>
      rw [ih, List.flatMap_cons, ← List.append_assoc]
      congr 1
      cases hstep with
      | write => rfl
      | generateChallenge => exact (List.append_nil _).symm
      | generateNaturalsWithoutReplacement => exact (List.append_nil _).symm

end Abstract

namespace Transcript

section Refinement

variable [Primitives]

/-- A transcript whose stream is the one of the history: absent as long as
nothing was drawn since the last write, or else keyed by the bytes written so
far and at the position up to which it was drawn. -/
structure Follows (transcript : Transcript) (history : History) : Prop where
  fsprfSeed_eq : transcript.fsprfSeed = history.written
  currentFsprf_at :
    (transcript.currentFsprf = none ∧ history.drawn = 0) ∨
      ∃ fsprf, transcript.currentFsprf = some fsprf ∧
        At (Primitives.sha256 history.written) history.drawn fsprf

variable {transcript : Transcript} {history : History}

theorem Follows.getCurrentFsprf (h : Follows transcript history) :
    At (Primitives.sha256 history.written) history.drawn
      transcript.getCurrentFsprf := by
  rcases h.currentFsprf_at with ⟨hnone, hdrawn⟩ | ⟨fsprf, hsome, hat⟩
  · rw [Transcript.getCurrentFsprf, hnone, h.fsprfSeed_eq, hdrawn]
    exact new_at _
  · rw [Transcript.getCurrentFsprf, hsome]
    exact hat

/-- The transcript whose stream was read on follows the history in which as
many more bytes are drawn. -/
theorem Follows.draw (h : Follows transcript history) {drawn : Nat}
    {fsprf : FiatShamirPseudoRandomFunction}
    (hat : At (Primitives.sha256 history.written) drawn fsprf) :
    Follows { transcript with currentFsprf := some fsprf }
      ⟨history.written, drawn⟩ :=
  ⟨h.fsprfSeed_eq, Or.inr ⟨fsprf, rfl, hat⟩⟩

theorem Follows.write {F : Type} [CodecFieldElement F]
    (h : Follows transcript history) (w : Write F) :
    Follows (transcript.write w) ⟨history.written ++
      w.messages.flatMap (Message.bytes transcript.mode), 0⟩ := by
  constructor
  · rw [write_fsprfSeed, h.fsprfSeed_eq]
  · exact Or.inl ⟨write_currentFsprf transcript w, rfl⟩

theorem sampleFieldElements_sampled {F : Type} [CodecFieldElement F]
    [SamplesField F] {key : Sha256Digest} {position : Nat}
    {fsprf : FiatShamirPseudoRandomFunction} (h : At key position fsprf)
    (n : Nat) :
    ∃ last, SampledList (byteAt key) (numBits F) (tryFrom (F := F)) position
        (sampleFieldElements F n fsprf).1 last ∧
      At key last (sampleFieldElements F n fsprf).2 := by
  induction n generalizing position fsprf with
  | zero => exact ⟨position, .nil position, h⟩
  | succ n ih =>
      obtain ⟨next, hsampled, hnext⟩ :=
        h.sample (SamplesField.accepts (F := F))
      obtain ⟨last, hrest, hlast⟩ := ih hnext
      exact ⟨last, .cons hsampled hrest, hlast⟩

theorem Follows.generateChallenge {F : Type} [CodecFieldElement F]
    [SamplesField F] (h : Follows transcript history) (n : Nat) :
    ∃ next, History.Step transcript.mode history (.generateChallenge F n)
        (.elements (transcript.generateChallenge F n).1) next ∧
      Follows (transcript.generateChallenge F n).2 next := by
  obtain ⟨last, hsampled, hlast⟩ :=
    sampleFieldElements_sampled (F := F) h.getCurrentFsprf n
  refine ⟨⟨history.written, last⟩, ?_, h.draw hlast⟩
  exact .generateChallenge (length_generateChallenge transcript n) hsampled

section Naturals

variable [SamplesNaturals]

theorem Follows.generateNatural (h : Follows transcript history) (max : Nat) :
    Ensures (transcript.generateNatural max) fun (natural, next) =>
      next.mode = transcript.mode ∧ ∃ drawn,
        Sampled history.stream (naturalBits max) (acceptNatural max)
          history.drawn natural drawn ∧
        Follows next ⟨history.written, drawn⟩ := by
  intro result hresult
  by_cases hmax : 0 < max
  · rw [Transcript.generateNatural, dif_pos hmax] at hresult
    cases hresult
    obtain ⟨drawn, hsampled, hat⟩ :=
      h.getCurrentFsprf.sample (SamplesNaturals.accepts max hmax)
    exact ⟨rfl, drawn, hsampled, h.draw hat⟩
  · rw [Transcript.generateNatural, dif_neg hmax] at hresult
    cases hresult

/-- One swap of sampling without replacement. -/
def swapSampled (max : Nat) (state : List Nat × Transcript) (i : Nat) :
    Exec (List Nat × Transcript) := do
  let (list, transcript) := state
  let (natural, transcript) ← transcript.generateNatural (max - i)
  let j := i + natural
  let a ← index list i
  let b ← index list j
  pure ((list.set i b).set j a, transcript)

theorem Follows.swaps (h : Follows transcript history) (max : Nat)
    (is list : List Nat) :
    Ensures (is.foldlM (swapSampled max) (list, transcript))
      fun (shuffled, last) => last.mode = transcript.mode ∧ ∃ drawn,
        Shuffled history.stream max is list history.drawn shuffled drawn ∧
          Follows last ⟨history.written, drawn⟩ := by
  induction is generalizing list transcript history with
  | nil =>
      intro result hresult
      cases hresult
      exact ⟨rfl, history.drawn, .nil list history.drawn, h⟩
  | cons i is ih =>
      intro result hresult
      rw [List.foldlM_cons] at hresult
      obtain ⟨state, hstate, hresult⟩ := Exec.bind_eq_ok.mp hresult
      obtain ⟨⟨natural, next⟩, hnatural, hstate⟩ := Exec.bind_eq_ok.mp hstate
      obtain ⟨a, ha, hstate⟩ := Exec.bind_eq_ok.mp hstate
      obtain ⟨b, hb, hstate⟩ := Exec.bind_eq_ok.mp hstate
      cases hstate
      obtain ⟨hmode, drawn, hsampled, hfollows⟩ :=
        h.generateNatural (max - i) _ hnatural
      obtain ⟨hmode', last, hshuffled, hlast⟩ := ih hfollows _ _ hresult
      refine ⟨hmode'.trans hmode, last, ?_, hlast⟩
      exact .cons hsampled (index_eq_ok.mp ha) (index_eq_ok.mp hb) hshuffled

theorem Follows.generateNaturalsWithoutReplacement
    (h : Follows transcript history) (max count : Nat) :
    Ensures (transcript.generateNaturalsWithoutReplacement max count)
      fun (naturals, last) => last.mode = transcript.mode ∧ ∃ next,
        History.Step transcript.mode history
          (.generateNaturalsWithoutReplacement max count)
          (.naturals naturals) next ∧ Follows last next := by
  intro result hresult
  obtain ⟨_, -, hresult⟩ := Exec.bind_eq_ok.mp hresult
  obtain ⟨⟨shuffled, last⟩, hswaps, hresult⟩ := Exec.bind_eq_ok.mp hresult
  cases hresult
  obtain ⟨hmode, drawn, hshuffled, hlast⟩ := h.swaps max _ _ _ hswaps
  refine ⟨hmode, ⟨history.written, drawn⟩, ?_, hlast⟩
  exact .generateNaturalsWithoutReplacement hshuffled

/-- Run an operation. -/
def apply (transcript : Transcript) :
    Operation → Exec (Output × Transcript)
  | @Operation.write _ _ _ w => pure (.nothing, transcript.write w)
  | @Operation.generateChallenge _ F _ _ length =>
      let (xs, transcript) := transcript.generateChallenge F length
      pure (.elements xs, transcript)
  | .generateNaturalsWithoutReplacement max count =>
      match transcript.generateNaturalsWithoutReplacement max count with
      | .ok (naturals, transcript) => .ok (.naturals naturals, transcript)
      | .error fault => .error fault

/-- Run operations, one after the other. -/
def run : Transcript → List Operation → Exec (List Output × Transcript)
  | transcript, [] => pure ([], transcript)
  | transcript, operation :: operations => do
      let (output, transcript) ← transcript.apply operation
      let (outputs, transcript) ← transcript.run operations
      pure (output :: outputs, transcript)

theorem Follows.apply (h : Follows transcript history)
    (operation : Operation) :
    Ensures (transcript.apply operation) fun (output, last) =>
      last.mode = transcript.mode ∧ ∃ next,
        History.Step transcript.mode history operation output next ∧
          Follows last next := by
  intro result hresult
  cases operation with
  | write w =>
      cases hresult
      exact ⟨write_mode transcript w, _, .write history w, h.write w⟩
  | generateChallenge F length =>
      cases hresult
      obtain ⟨next, hstep, hnext⟩ := h.generateChallenge (F := F) length
      exact ⟨rfl, next, hstep, hnext⟩
  | generateNaturalsWithoutReplacement max count =>
      rw [Transcript.apply] at hresult
      cases hnaturals :
          transcript.generateNaturalsWithoutReplacement max count with
      | error fault =>
          rw [hnaturals] at hresult
          cases hresult
      | ok state =>
          rw [hnaturals] at hresult
          cases hresult
          exact h.generateNaturalsWithoutReplacement max count state hnaturals

/-- A run of the transcript is a run of the history. -/
theorem Follows.run (h : Follows transcript history)
    (operations : List Operation) :
    Ensures (transcript.run operations) fun (outputs, last) =>
      last.mode = transcript.mode ∧ ∃ next,
        History.Run transcript.mode history operations outputs next ∧
          Follows last next := by
  induction operations generalizing transcript history with
  | nil =>
      intro result hresult
      cases hresult
      exact ⟨rfl, history, .nil history, h⟩
  | cons operation operations ih =>
      intro result hresult
      rw [Transcript.run] at hresult
      obtain ⟨⟨output, second⟩, hfirst, hresult⟩ := Exec.bind_eq_ok.mp hresult
      obtain ⟨⟨outputs, last⟩, hrest, hresult⟩ := Exec.bind_eq_ok.mp hresult
      cases hresult
      obtain ⟨hmode, next, hstep, hnext⟩ := h.apply operation _ hfirst
      obtain ⟨hmode', final, hrun, hfinal⟩ := ih hnext _ hrest
      rw [hmode] at hmode' hrun
      exact ⟨hmode', final, .cons hstep hrun, hfinal⟩

end Naturals

section Consecutive

variable {F : Type} [CodecFieldElement F] [SamplesField F]

theorem sampleFieldElements_add (m n : Nat)
    (fsprf : FiatShamirPseudoRandomFunction) :
    sampleFieldElements F (m + n) fsprf =
      ((sampleFieldElements F m fsprf).1 ++
          (sampleFieldElements F n (sampleFieldElements F m fsprf).2).1,
        (sampleFieldElements F n (sampleFieldElements F m fsprf).2).2) := by
  induction m generalizing fsprf with
  | zero => simp [sampleFieldElements]
  | succ m ih =>
      rw [Nat.succ_add]
      simp only [sampleFieldElements, ih, List.cons_append]

/-- Consecutive challenges are one challenge. -/
theorem generateChallenge_add (transcript : Transcript) (m n : Nat) :
    transcript.generateChallenge F (m + n) =
      ((transcript.generateChallenge F m).1 ++
          ((transcript.generateChallenge F m).2.generateChallenge F n).1,
        ((transcript.generateChallenge F m).2.generateChallenge F n).2) := by
  simp only [generateChallenge, sampleFieldElements_add]
  rfl

end Consecutive

section Runs

/-- The bytes that a session has written after some operations. -/
def writtenBytes (sessionId : Slice UInt8) (mode : TranscriptMode)
    (operations : List Operation) : List UInt8 :=
  Tag.byteArray.asByte mode :: Bytes.leBytes 8 sessionId.1.length ++
    sessionId.1 ++ operations.flatMap (Operation.bytes mode)

theorem new_follows (sessionId : Slice UInt8) (mode : TranscriptMode) :
    Follows (new sessionId.1 mode) ⟨writtenBytes sessionId mode [], 0⟩ := by
  constructor
  · simp [new, writeByteArray, beginWriteByteArray, writeBytes, writtenBytes]
  · exact Or.inl ⟨rfl, rfl⟩

omit [Primitives] in
/-- A write forgets what was drawn before it. -/
theorem write_congr {F : Type} [CodecFieldElement F]
    {transcript transcript' : Transcript}
    (hmode : transcript.mode = transcript'.mode)
    (hseed : transcript.fsprfSeed = transcript'.fsprfSeed) (w : Write F) :
    transcript.write w = transcript'.write w := by
  have hwritten (t : Transcript) : t.write w = ⟨t.mode, t.fsprfSeed ++
      w.messages.flatMap (Message.bytes t.mode), none⟩ := by
    rw [← write_fsprfSeed, ← write_currentFsprf t w, ← write_mode t w]
  rw [hwritten, hwritten, hmode, hseed]

variable [SamplesNaturals]

/-- What holds of a transcript after any operations of a session. -/
structure RunInvariant (sessionId : Slice UInt8) (mode : TranscriptMode)
    (operations : List Operation) (outputs : List Output)
    (transcript : Transcript) : Prop where
  /-- The outputs are those of the history. The stream is absent, or keyed by
  all bytes written so far and at the position up to which it was drawn since
  the last write, and whatever another transcript with that history hands back
  next, this one does too. -/
  follows : ∃ drawn,
    History.Run mode ⟨writtenBytes sessionId mode [], 0⟩ operations outputs
      ⟨writtenBytes sessionId mode operations, drawn⟩ ∧
    transcript.Follows ⟨writtenBytes sessionId mode operations, drawn⟩ ∧
    ∀ other : Transcript,
      other.Follows ⟨writtenBytes sessionId mode operations, drawn⟩ →
      ∀ operation, Ensures (transcript.apply operation) fun result =>
        Ensures (other.apply operation) fun result' => result.1 = result'.1
  /-- Consecutive challenges are one challenge. -/
  challenges : ∀ (F : Type) [CodecFieldElement F] [SamplesField F] (m n : Nat),
    transcript.generateChallenge F (m + n) =
      ((transcript.generateChallenge F m).1 ++
          ((transcript.generateChallenge F m).2.generateChallenge F n).1,
        ((transcript.generateChallenge F m).2.generateChallenge F n).2)
  /-- After another write, all that is drawn is what would be drawn if other
  challenges, or none, had been drawn before it. -/
  writes : ∀ operations',
    operations'.flatMap (Operation.bytes mode) =
      operations.flatMap (Operation.bytes mode) →
    Ensures ((new sessionId.1 mode).run operations') fun (_, transcript') =>
      ∀ (F : Type) [CodecFieldElement F] (w : Write F)
        (after : List Operation),
        transcript.run (.write w :: after) =
          transcript'.run (.write w :: after)

theorem run_new_follows (sessionId : Slice UInt8) (mode : TranscriptMode)
    (operations : List Operation) :
    Ensures ((new sessionId.1 mode).run operations)
      fun (outputs, transcript) => transcript.mode = mode ∧ ∃ drawn,
        History.Run mode ⟨writtenBytes sessionId mode [], 0⟩ operations outputs
          ⟨writtenBytes sessionId mode operations, drawn⟩ ∧
        transcript.Follows ⟨writtenBytes sessionId mode operations, drawn⟩ := by
  intro result hresult
  obtain ⟨hmode, next, hrun, hnext⟩ :=
    (new_follows sessionId mode).run operations result hresult
  have hwritten := hrun.written_eq
  obtain ⟨written, drawn⟩ := next
  have heq : written = writtenBytes sessionId mode operations := by
    have hmode : (new sessionId.1 mode).mode = mode := rfl
    rw [hmode] at hwritten
    simpa [writtenBytes] using hwritten
  subst heq
  exact ⟨hmode, drawn, hrun, hnext⟩

end Runs

end Refinement

section Silent

open scoped Silent

end Silent

end Transcript

end Longfellow
