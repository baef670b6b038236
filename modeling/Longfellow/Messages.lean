/-
The tagged messages that a transcript is made of. In normal mode, the bytes
that the transcript absorbs determine the messages.
-/
import Longfellow.Sample

namespace Longfellow

open CodecFieldElement

/-- A slice, whose length is a machine word. -/
def Slice (α : Type) : Type := { xs : List α // xs.length < 2 ^ 64 }

/-- A tagged message. -/
inductive Message (F : Type) where
  | byteArray (bytes : Slice UInt8)
  | fieldElement (x : F)
  | fieldElementArray (xs : Slice F)

/-- A write to the transcript. -/
inductive Write (F : Type) where
  | byteArray (bytes : Slice UInt8)
  | zeroArray (count : UInt64)
  | fieldElement (x : F)
  | fieldElementArray (xs : Slice F)
  | polynomial (polynomial : Sumcheck.Polynomial F)

section

variable {F : Type} [CodecFieldElement F]

/-- The bytes that stand for a message. -/
def Message.bytes (mode : TranscriptMode) : Message F → List UInt8
  | .byteArray bytes =>
      Tag.byteArray.asByte mode :: Bytes.leBytes 8 bytes.1.length ++ bytes.1
  | .fieldElement x => Tag.fieldElement.asByte mode :: encode x
  | .fieldElementArray xs =>
      Tag.fieldElementArray.asByte mode :: Bytes.leBytes 8 xs.1.length ++
        xs.1.flatMap encode

/-- The messages of a write: a zero array is the byte array of as many zeroes,
and a polynomial two field elements. -/
def Write.messages : Write F → List (Message F)
  | .byteArray bytes => [.byteArray bytes]
  | .zeroArray count =>
      [.byteArray ⟨List.replicate count.toNat 0, by
        rw [List.length_replicate]
        exact count.toNat_lt⟩]
  | .fieldElement x => [.fieldElement x]
  | .fieldElementArray xs => [.fieldElementArray xs]
  | .polynomial p => [.fieldElement p.p0, .fieldElement p.p2]

namespace Transcript

/-- Run a write. -/
def write (transcript : Transcript) : Write F → Transcript
  | .byteArray bytes => transcript.writeByteArray bytes.1
  | .zeroArray count => transcript.writeZeroArray count.toNat
  | .fieldElement x => transcript.writeFieldElement x
  | .fieldElementArray xs => transcript.writeFieldElementArray xs.1
  | .polynomial p => transcript.writePolynomial p

/-- The transcript of a session after some writes. -/
def ofWrites (sessionId : Slice UInt8) (mode : TranscriptMode)
    (writes : List (Write F)) : Transcript :=
  writes.foldl write (new sessionId.1 mode)

/-- The messages of a session after some writes. -/
def history (sessionId : Slice UInt8) (writes : List (Write F)) :
    List (Message F) :=
  .byteArray sessionId :: writes.flatMap Write.messages

theorem absorbZeroes_eq (fsprfSeed : List UInt8) (count : Nat) :
    absorbZeroes fsprfSeed count = fsprfSeed ++ List.replicate count 0 := by
  induction count using Nat.strong_induction_on generalizing fsprfSeed with
  | h count ih =>
      rw [absorbZeroes]
      by_cases hpos : 0 < count
      · have hsum : min count 16834 + (count - min count 16834) = count := by
          omega
        rw [if_pos hpos, ih _ (by omega), List.append_assoc,
          ← List.replicate_add, hsum]
      · have hzero : count = 0 := by omega
        rw [if_neg hpos, hzero, List.replicate_zero, List.append_nil]

theorem writeFieldElementArray_fsprfSeed (transcript : Transcript)
    (xs : List F) :
    (transcript.writeFieldElementArray xs).fsprfSeed =
      transcript.fsprfSeed ++ (Tag.fieldElementArray.asByte transcript.mode ::
        Bytes.leBytes 8 xs.length ++ xs.flatMap encode) := by
  have hloop (ys : List F) (start : Transcript) :
      (ys.foldl (fun transcript x => transcript.writeBytes (encode x))
        start).fsprfSeed = start.fsprfSeed ++ ys.flatMap encode := by
    induction ys generalizing start with
    | nil => simp
    | cons y ys ih =>
        rw [List.foldl_cons, ih, List.flatMap_cons, writeBytes,
          List.append_assoc]
  rw [writeFieldElementArray, hloop]
  simp [writeBytes]

theorem write_fsprfSeed (transcript : Transcript) (w : Write F) :
    (transcript.write w).fsprfSeed = transcript.fsprfSeed ++
      w.messages.flatMap (Message.bytes transcript.mode) := by
  cases w with
  | byteArray bytes =>
      simp [write, writeByteArray, beginWriteByteArray, writeBytes,
        Write.messages, Message.bytes]
  | zeroArray count =>
      simp [write, writeZeroArray, beginWriteByteArray, writeBytes,
        absorbZeroes_eq, Write.messages, Message.bytes]
  | fieldElement x =>
      simp [write, writeFieldElement, writeBytes, Write.messages,
        Message.bytes]
  | fieldElementArray xs =>
      simp [write, writeFieldElementArray_fsprfSeed, Write.messages,
        Message.bytes]
  | polynomial p =>
      simp [write, writePolynomial, writeFieldElement, writeBytes,
        Write.messages, Message.bytes]

theorem writeFieldElementArray_mode (transcript : Transcript) (xs : List F) :
    (transcript.writeFieldElementArray xs).mode = transcript.mode := by
  have hloop (ys : List F) (start : Transcript) :
      (ys.foldl (fun transcript x => transcript.writeBytes (encode x))
        start).mode = start.mode := by
    induction ys generalizing start with
    | nil => rfl
    | cons y ys ih => rw [List.foldl_cons, ih, writeBytes]
  rw [writeFieldElementArray, hloop]
  rfl

theorem write_mode (transcript : Transcript) (w : Write F) :
    (transcript.write w).mode = transcript.mode := by
  cases w with
  | fieldElementArray xs => exact writeFieldElementArray_mode transcript xs.1
  | _ => rfl

/-- A write drops the stream of bytes. -/
theorem write_currentFsprf (transcript : Transcript) (w : Write F) :
    (transcript.write w).currentFsprf = none := by
  have hloop (ys : List F) (start : Transcript)
      (hstart : start.currentFsprf = none) :
      (ys.foldl (fun transcript x => transcript.writeBytes (encode x))
        start).currentFsprf = none := by
    induction ys generalizing start with
    | nil => exact hstart
    | cons y ys ih => exact ih _ rfl
  cases w with
  | fieldElementArray xs => exact hloop xs.1 _ rfl
  | _ => rfl

theorem ofWrites_currentFsprf (sessionId : Slice UInt8)
    (mode : TranscriptMode) (writes : List (Write F)) :
    (ofWrites sessionId mode writes).currentFsprf = none := by
  induction writes using List.reverseRecOn with
  | nil => rfl
  | append_singleton writes w _ =>
      rw [ofWrites, List.foldl_concat, write_currentFsprf]

theorem writes_fsprfSeed (transcript : Transcript) (writes : List (Write F)) :
    (writes.foldl write transcript).fsprfSeed = transcript.fsprfSeed ++
      (writes.flatMap Write.messages).flatMap
        (Message.bytes transcript.mode) := by
  induction writes generalizing transcript with
  | nil => simp
  | cons w writes ih =>
      rw [List.foldl_cons, ih, write_fsprfSeed, write_mode, List.flatMap_cons,
        List.flatMap_append, List.append_assoc]

/-- A transcript absorbs the bytes of its messages. -/
theorem ofWrites_fsprfSeed (sessionId : Slice UInt8) (mode : TranscriptMode)
    (writes : List (Write F)) :
    (ofWrites sessionId mode writes).fsprfSeed =
      (history sessionId writes).flatMap (Message.bytes mode) := by
  rw [ofWrites, writes_fsprfSeed, history, List.flatMap_cons]
  simp [new, writeByteArray, beginWriteByteArray, writeBytes, Message.bytes]

end Transcript

theorem Message.bytes_ne_nil (mode : TranscriptMode) (message : Message F) :
    message.bytes mode ≠ [] := by
  cases message with
  | byteArray bytes => exact List.cons_ne_nil _ _
  | fieldElement x => exact List.cons_ne_nil _ _
  | fieldElementArray xs => exact List.cons_ne_nil _ _

section Lawful

variable [LawfulCodec F]

theorem encode_prefixFree : PrefixFree (encode : F → List UInt8) := by
  apply PrefixFree.of_length LawfulCodec.length_encode
  intro x y heq
  have hx := LawfulCodec.decode_reads x []
  rw [heq, LawfulCodec.decode_reads y []] at hx
  cases hx
  rfl

/-- An array with a length prefix of eight bytes is read back, whatever
follows. -/
theorem lengthPrefix_inj {α : Type} {xs ys : Slice α} {r s : List UInt8}
    (h : Bytes.leBytes 8 xs.1.length ++ r = Bytes.leBytes 8 ys.1.length ++ s) :
    xs.1.length = ys.1.length ∧ r = s := by
  obtain ⟨hfront, hrest⟩ := List.append_inj h (by simp)
  exact ⟨Bytes.leBytes_inj xs.2 ys.2 hfront, hrest⟩

/-- In normal mode, no message can be confused with another one. -/
theorem Message.bytes_prefixFree :
    PrefixFree (Message.bytes (F := F) .normal) := by
  intro a b r s heq
  cases a with
  | byteArray xs =>
      cases b with
      | byteArray ys =>
          simp only [Message.bytes, List.cons_append, List.append_assoc,
            List.cons.injEq, true_and] at heq
          obtain ⟨hlength, hrest⟩ := lengthPrefix_inj heq
          rw [Subtype.ext (List.append_inj hrest hlength).1]
      | fieldElement y => simp [Message.bytes, Tag.asByte] at heq
      | fieldElementArray ys => simp [Message.bytes, Tag.asByte] at heq
  | fieldElement x =>
      cases b with
      | byteArray ys => simp [Message.bytes, Tag.asByte] at heq
      | fieldElement y =>
          simp only [Message.bytes, List.cons_append, List.cons.injEq,
            true_and] at heq
          rw [encode_prefixFree x y r s heq]
      | fieldElementArray ys => simp [Message.bytes, Tag.asByte] at heq
  | fieldElementArray xs =>
      cases b with
      | byteArray ys => simp [Message.bytes, Tag.asByte] at heq
      | fieldElement y => simp [Message.bytes, Tag.asByte] at heq
      | fieldElementArray ys =>
          simp only [Message.bytes, List.cons_append, List.append_assoc,
            List.cons.injEq, true_and] at heq
          obtain ⟨hlength, hrest⟩ := lengthPrefix_inj heq
          rw [Subtype.ext
            (encode_prefixFree.flatMap_append_inj hlength hrest).1]

namespace Transcript

/-- The bytes that transcripts in normal mode absorb are equal only if the
messages are. If the hash does not collide on the two byte strings, different
messages give different seeds. -/
theorem history_injective [Primitives]
    (session session' : Slice UInt8) (writes writes' : List (Write F)) :
    let transcript := ofWrites session .normal writes
    let transcript' := ofWrites session' .normal writes'
    let messages := history session writes
    let messages' := history session' writes'
    (transcript.fsprfSeed = transcript'.fsprfSeed → messages = messages') ∧
      ((Primitives.sha256 transcript.fsprfSeed =
          Primitives.sha256 transcript'.fsprfSeed →
        transcript.fsprfSeed = transcript'.fsprfSeed) →
      messages ≠ messages' →
      transcript.getCurrentFsprf.key ≠ transcript'.getCurrentFsprf.key) := by
  intro transcript transcript' messages messages'
  have hinjective (h : transcript.fsprfSeed = transcript'.fsprfSeed) :
      messages = messages' := by
    rw [ofWrites_fsprfSeed, ofWrites_fsprfSeed] at h
    exact Message.bytes_prefixFree.flatMap_inj (Message.bytes_ne_nil .normal) h
  have hkey (session : Slice UInt8) (writes : List (Write F)) :
      (ofWrites session .normal writes).getCurrentFsprf.key =
        Primitives.sha256 (ofWrites session .normal writes).fsprfSeed := by
    rw [getCurrentFsprf, ofWrites_currentFsprf]
    rfl
  refine ⟨hinjective, fun hcollision hne hsame => hne ?_⟩
  apply hinjective
  apply hcollision
  rw [← hkey session writes, ← hkey session' writes']
  exact hsame

end Transcript

end Lawful

end

section DistinctMessages

/-- The bytes of `test`, `some bytes` and `some other bytes`. -/
def testSession : Slice UInt8 := ⟨[116, 101, 115, 116], by decide⟩

def someBytes : Slice UInt8 :=
  ⟨[115, 111, 109, 101, 32, 98, 121, 116, 101, 115], by decide⟩

def someOtherBytes : Slice UInt8 :=
  ⟨[115, 111, 109, 101, 32, 111, 116, 104, 101, 114, 32, 98, 121, 116, 101,
    115], by decide⟩

namespace DistinctMessages

/-- SHA-256 on the two transcripts. -/
scoped instance primitives : Primitives :=
  tabled
    [([0, 4, 0, 0, 0, 0, 0, 0, 0] ++ testSession.1 ++
        [0, 10, 0, 0, 0, 0, 0, 0, 0] ++ someBytes.1,
      digestOf
        0x104c209295696e96ec8d261f0e23b2cedddb4ac39e8b4ee381a1c2312a5610aa),
     ([0, 4, 0, 0, 0, 0, 0, 0, 0] ++ testSession.1 ++
        [0, 16, 0, 0, 0, 0, 0, 0, 0] ++ someOtherBytes.1,
      digestOf
        0x6199670f3da54de38d2880a2f3eefca25c72158d36de0a7576da85d5b90ecc0a)]

end DistinctMessages

open scoped DistinctMessages

/-- Two transcripts with distinct messages have distinct seeds. -/
theorem Transcript.history_injective_distinctMessages :
    let transcript := ofWrites (F := FieldP128) testSession .normal
      [.byteArray someBytes]
    let transcript' := ofWrites (F := FieldP128) testSession .normal
      [.byteArray someOtherBytes]
    transcript.getCurrentFsprf.key ≠ transcript'.getCurrentFsprf.key := by
  have hdistinct : history (F := FieldP128) testSession
      [.byteArray someBytes] ≠ history testSession
      [.byteArray someOtherBytes] := by
    intro h
    have hbytes : someBytes = someOtherBytes := by
      simpa [history, Write.messages] using h
    exact absurd (congrArg Subtype.val hbytes) (by decide)
  refine (history_injective testSession testSession [.byteArray someBytes]
    [.byteArray someOtherBytes]).2 ?_ hdistinct
  decide

end DistinctMessages

end Longfellow
