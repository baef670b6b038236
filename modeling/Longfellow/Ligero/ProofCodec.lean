/-
The encoding of Ligero proofs: the elements of the columns are written in runs,
by turns of field elements and of elements of the subfield.
-/
import Longfellow.Codec.RoundTrip
import Longfellow.Fields.Field2128.Subfield
import Longfellow.Ligero.Proof

namespace Longfellow.Ligero

open Exec CodecFieldElement Decoder

def maxRunLength : Nat := 2 ^ 25

namespace U32

def decode : Decoder Nat := do
  let bytes ← takeBytes 4 "failed to read u32"
  pure (Bytes.ofLeBytes bytes)

def encode (value : Nat) : List UInt8 := Bytes.leBytes 4 value

theorem decode_reads {value : Nat} (h : value < 2 ^ 32) :
    Reads decode (encode value) value := by
  intro rest
  apply Decoder.bind_eq_ok.mpr
  refine ⟨encode value, rest,
    takeBytes_reads (Bytes.length_leBytes 4 value) _ rest, ?_⟩
  rw [encode, Bytes.ofLeBytes_leBytes 4 h]
  rfl

end U32

namespace Nonce

/-- A nonce from as many bytes as one has. -/
def ofBytes (bytes : List UInt8) : Exec Nonce :=
  if h : bytes.length = 32 then pure ⟨bytes, h⟩
  else fail "failed to convert byte vec to array"

def decode : Decoder Nonce := do
  let bytes ← takeBytes 32 "failed to read u8"
  ofExec (ofBytes bytes)

def encode (nonce : Nonce) : List UInt8 := nonce.bytes

theorem decode_reads (nonce : Nonce) : Reads decode nonce.encode nonce := by
  intro rest
  apply Decoder.bind_eq_ok.mpr
  refine ⟨nonce.bytes, rest, takeBytes_reads nonce.length_bytes _ rest, ?_⟩
  apply ofExec_eq_ok.mpr
  exact ⟨by rw [ofBytes, dif_pos nonce.length_bytes]; rfl, rfl⟩

end Nonce

namespace Node

def decode : Decoder Node := do
  let digest ← Sha256Digest.decode
  pure ⟨digest⟩

def encode (node : Node) : List UInt8 := node.digest.encode

theorem decode_reads (node : Node) : Reads decode node.encode node := by
  intro rest
  exact Decoder.bind_eq_ok.mpr
    ⟨node.digest, rest, Sha256Digest.decode_reads node.digest rest, rfl⟩

theorem length_encode (node : Node) : node.encode.length = 32 :=
  node.digest.length_bytes

end Node

namespace InclusionProof

/-- The prefix is refused if less is left than as many nodes take. -/
def checkRemaining (length : Nat) : Decoder Unit := fun bytes => do
  ensure (¬ bytes.length / 32 < length)
    "inclusion proof length prefix is too large"
  pure ((), bytes)

def decode : Decoder InclusionProof := do
  let length ← U32.decode
  checkRemaining length
  let nodes ← replicate Node.decode length
  pure ⟨nodes⟩

def encode (proof : InclusionProof) : Exec (List UInt8) := do
  ensure (proof.nodes.length < 2 ^ 32) "proof too big to be encoded"
  pure (U32.encode proof.nodes.length ++ proof.nodes.flatMap Node.encode)

theorem encode_eq_ok {proof : InclusionProof} {bytes : List UInt8} :
    proof.encode = .ok bytes ↔ proof.nodes.length < 2 ^ 32 ∧
      bytes = U32.encode proof.nodes.length ++
        proof.nodes.flatMap Node.encode := by
  rw [encode, ensure_bind_eq_ok, Exec.pure_eq_ok, Except.ok.injEq,
    eq_comm (a := bytes)]

theorem decode_reads {proof : InclusionProof} {bytes : List UInt8}
    (h : proof.encode = .ok bytes) : Reads decode bytes proof := by
  obtain ⟨hlt, rfl⟩ := encode_eq_ok.mp h
  intro rest
  rw [List.append_assoc]
  have hlength : (proof.nodes.flatMap Node.encode).length =
      proof.nodes.length * 32 := by
    rw [List.length_flatMap]
    simp [Node.length_encode]
  have hremaining : ¬ (proof.nodes.flatMap Node.encode ++ rest).length / 32 <
      proof.nodes.length := by
    rw [List.length_append, hlength]
    omega
  have hchecked : checkRemaining proof.nodes.length
      (proof.nodes.flatMap Node.encode ++ rest) =
        .ok ((), proof.nodes.flatMap Node.encode ++ rest) := by
    rw [checkRemaining, ensure_of hremaining]
    rfl
  have hnodes : Reads (replicate Node.decode proof.nodes.length)
      (proof.nodes.flatMap Node.encode) proof.nodes :=
    replicate_reads proof.nodes fun node _ => Node.decode_reads node
  exact Decoder.bind_eq_ok.mpr ⟨_, _, U32.decode_reads hlt _,
    Decoder.bind_eq_ok.mpr ⟨(), _, hchecked,
      Decoder.bind_eq_ok.mpr ⟨proof.nodes, rest, hnodes rest, rfl⟩⟩⟩

end InclusionProof

variable {F : Type} [CodecFieldElement F]

section Runs

/-- Seek to the end of the current run. -/
def seekRun (isSubfieldRun : Bool) : Nat → List F → Nat
  | runLength, [] => runLength
  | runLength, element :: elements =>
      if runLength = maxRunLength then runLength
      else if isInSubfield element = isSubfieldRun then
        seekRun isSubfieldRun (runLength + 1) elements
      else seekRun isSubfieldRun runLength elements

def encodeElement (isSubfieldRun : Bool) (element : F) : Exec (List UInt8) :=
  if isSubfieldRun then encodeInSubfield element else pure (encode element)

/-- The loop over the runs of the elements that are not written yet. -/
def encodeRunsWith : Nat → Bool → List F → Exec (List UInt8)
  | _, _, [] => pure []
  | 0, _, _ => abort "out of fuel"
  | fuel + 1, isSubfieldRun, elements => do
      let runLength := seekRun isSubfieldRun 0 elements
      ensure (runLength < 2 ^ 32) "run length too big for u32"
      let run ← encodeFixedArray (encodeElement isSubfieldRun)
        (elements.take runLength)
      let rest ←
        encodeRunsWith fuel (!isSubfieldRun) (elements.drop runLength)
      pure (U32.encode runLength ++ run ++ rest)

/-- Every second run is longer than zero. -/
def encodeRuns (columnElements : List F) : Exec (List UInt8) :=
  encodeRunsWith (2 * columnElements.length + 1) false columnElements

def decodeRun (subfieldRun : Bool) (runLength : Nat) : Decoder (List F) :=
  if subfieldRun then replicate decodeInSubfield runLength
  else replicate decode runLength

/-- The loop over the runs until there are as many elements as expected. -/
def decodeRunsWith (expected : Nat) :
    Nat → Bool → List F → Decoder (List F)
  | 0, _, _ => ofExec (abort "out of fuel")
  | fuel + 1, subfieldRun, columnElements =>
      if columnElements.length < expected then do
        let runLength ← U32.decode
        ofExec (ensure (runLength ≤ maxRunLength)
          "run exceeds maximum run length")
        ofExec (ensure (runLength + columnElements.length ≤ expected)
          s!"too many column elements in serialized proof: {runLength + columnElements.length} > {expected}")
        let run ← decodeRun subfieldRun runLength
        decodeRunsWith expected fuel (!subfieldRun) (columnElements ++ run)
      else do
        ofExec (ensure (columnElements.length = expected)
          "unexpected number of column elements in serialized proof")
        pure columnElements

/-- Each run takes four bytes and more. -/
def decodeRuns (expected : Nat) : Decoder (List F) := fun bytes =>
  decodeRunsWith expected (bytes.length + 1) false [] bytes

end Runs

namespace LigeroProof

def encodeWithParam (proof : LigeroProof F) (_ : TableauLayout) :
    Exec (List UInt8) := do
  let columns ← encodeRuns proof.tableauColumns.flatten
  let inclusionProof ← proof.inclusionProof.encode
  pure (proof.lowDegreeTestProof.flatMap encode ++
    (proof.dotProof.flatMap encode ++
    (proof.quadraticProof.1.flatMap encode ++
    (proof.quadraticProof.2.flatMap encode ++
    (proof.merkleTreeNonces.flatMap Nonce.encode ++
    (columns ++ inclusionProof))))))

def decodeWithParam (layout : TableauLayout) : Decoder (LigeroProof F) := do
  let lowDegreeTestProof ← replicate decode layout.blockSize
  let dblock ← ofExec layout.dblock
  let dotProof ← replicate decode dblock
  let quadraticProofLow ← replicate decode layout.numRequestedColumns
  let numHigh ← ofExec (checkedSub dblock layout.blockSize)
  let quadraticProofHigh ← replicate decode numHigh
  let merkleTreeNonces ← replicate Nonce.decode layout.numRequestedColumns
  let numRows ← ofExec layout.numRows
  let columnElements ← decodeRuns (numRows * layout.numRequestedColumns)
  let tableauColumns ←
    ofExec (chunks columnElements layout.numRequestedColumns)
  let inclusionProof ← InclusionProof.decode
  pure ⟨lowDegreeTestProof, dotProof, (quadraticProofLow, quadraticProofHigh),
    tableauColumns, inclusionProof, merkleTreeNonces⟩

/-- A proof with the lengths that the layout gives. -/
structure HasShape (proof : LigeroProof F) (layout : TableauLayout) :
    Prop where
  lowDegreeTestProof : proof.lowDegreeTestProof.length = layout.blockSize
  dotProof : layout.dblock = .ok proof.dotProof.length
  quadraticProofLow :
    proof.quadraticProof.1.length = layout.numRequestedColumns
  quadraticProofHigh : checkedSub proof.dotProof.length layout.blockSize =
    .ok proof.quadraticProof.2.length
  merkleTreeNonces :
    proof.merkleTreeNonces.length = layout.numRequestedColumns
  numRows : layout.numRows = .ok proof.tableauColumns.length
  tableauColumns : ∀ column ∈ proof.tableauColumns,
    column.length = layout.numRequestedColumns
  inclusionProof : proof.inclusionProof.nodes.length < 2 ^ 32

end LigeroProof

section Condition

/-- How long the run is that starts at a place: as many elements as are of its
kind from there on, in a row or not. -/
def runLength (isSubfieldRun : Bool) (inSubfield : List Bool) : Nat :=
  min (inSubfield.count isSubfieldRun) maxRunLength

/-- Cut into runs by turns, elements that are in the subfield or not have none
outside of it in a run of the subfield. -/
inductive RunsFit : Bool → List Bool → Prop where
  | nil (isSubfieldRun : Bool) : RunsFit isSubfieldRun []
  | field {inSubfield : List Bool} :
      RunsFit true (inSubfield.drop (runLength false inSubfield)) →
      RunsFit false inSubfield
  | subfield {inSubfield : List Bool} :
      (∀ b ∈ inSubfield.take (runLength true inSubfield), b = true) →
      RunsFit false (inSubfield.drop (runLength true inSubfield)) →
      RunsFit true inSubfield

theorem RunsFit.run {isSubfieldRun : Bool} {inSubfield : List Bool}
    (h : RunsFit isSubfieldRun inSubfield) :
    (isSubfieldRun = true →
      ∀ b ∈ inSubfield.take (runLength isSubfieldRun inSubfield), b = true) ∧
    RunsFit (!isSubfieldRun)
      (inSubfield.drop (runLength isSubfieldRun inSubfield)) := by
  cases h with
  | nil =>
      rw [List.take_nil, List.drop_nil]
      exact ⟨by simp, RunsFit.nil _⟩
  | field hrest => exact ⟨by simp, hrest⟩
  | subfield hin hrest => exact ⟨fun _ => hin, hrest⟩

theorem seekRun_eq (isSubfieldRun : Bool) {n : Nat} (hn : n ≤ maxRunLength)
    (elements : List F) : seekRun isSubfieldRun n elements =
      min (n + (elements.map isInSubfield).count isSubfieldRun)
        maxRunLength := by
  induction elements generalizing n with
  | nil =>
      rw [seekRun, List.map_nil, List.count_nil, Nat.add_zero,
        Nat.min_eq_left hn]
  | cons element elements ih =>
      rw [seekRun, List.map_cons, List.count_cons]
      by_cases hmax : n = maxRunLength
      · rw [if_pos hmax, Nat.min_eq_right (by omega), hmax]
      · rw [if_neg hmax]
        by_cases hkind : isInSubfield element = isSubfieldRun
        · rw [if_pos hkind, ih (by omega), hkind, if_pos (by simp)]
          congr 1
          omega
        · rw [if_neg hkind, ih hn, if_neg (by simpa using hkind),
            Nat.add_zero]

theorem seekRun_start (isSubfieldRun : Bool) (elements : List F) :
    seekRun isSubfieldRun 0 elements =
      runLength isSubfieldRun (elements.map isInSubfield) := by
  rw [seekRun_eq isSubfieldRun (Nat.zero_le _), Nat.zero_add, runLength]

theorem runLength_le (isSubfieldRun : Bool) (inSubfield : List Bool) :
    runLength isSubfieldRun inSubfield ≤ inSubfield.length :=
  (Nat.min_le_left _ _).trans List.count_le_length

/-- A run is empty only if no element of its kind is left. -/
theorem runLength_pos {isSubfieldRun : Bool} {inSubfield : List Bool}
    (h : isSubfieldRun ∈ inSubfield) :
    0 < runLength isSubfieldRun inSubfield :=
  Nat.lt_min.mpr ⟨List.count_pos_iff.mpr h, by decide⟩

/-- After an empty run there are elements of the other kind only. -/
theorem mem_of_runLength_eq_zero {isSubfieldRun : Bool}
    {inSubfield : List Bool} (hne : inSubfield ≠ [])
    (h : runLength isSubfieldRun inSubfield = 0) :
    (!isSubfieldRun) ∈ inSubfield := by
  have hnot : isSubfieldRun ∉ inSubfield := by
    intro hmem
    have hpos := runLength_pos hmem
    omega
  obtain ⟨b, rest, rfl⟩ := List.exists_cons_of_ne_nil hne
  have hb : b = !isSubfieldRun := by
    rw [Bool.eq_not]
    rintro rfl
    exact hnot List.mem_cons_self
  rw [hb]
  exact List.mem_cons_self

/-- Elements of the subfield, and then none of it. -/
def SubfieldFirst (inSubfield : List Bool) : Prop :=
  ∃ m n, inSubfield = List.replicate m true ++ List.replicate n false

/-- Where one run can take all elements, the first run takes as many as are
outside of the subfield, whichever those are. -/
theorem runsFit_iff {inSubfield : List Bool}
    (hle : inSubfield.length ≤ maxRunLength) :
    RunsFit false inSubfield ↔
      SubfieldFirst (inSubfield.drop (inSubfield.count false)) := by
  have hrun (b : Bool) {p : List Bool} (hp : p.length ≤ maxRunLength) :
      runLength b p = p.count b :=
    Nat.min_eq_left (List.count_le_length.trans hp)
  constructor
  · intro h
    obtain ⟨-, hsecond⟩ := h.run
    rw [hrun false hle, Bool.not_false] at hsecond
    generalize hp : inSubfield.drop (inSubfield.count false) = p at hsecond ⊢
    have hlength : p.length ≤ maxRunLength := by
      rw [← hp, List.length_drop]
      omega
    obtain ⟨hin, -⟩ := hsecond.run
    rw [hrun true hlength] at hin
    have htake := List.eq_replicate_of_mem (hin rfl)
    have hcount : (p.take (p.count true)).length = p.count true := by
      rw [List.length_take, Nat.min_eq_left List.count_le_length]
    have hsplit := congrArg (List.count true)
      (List.take_append_drop (p.count true) p)
    rw [hcount] at htake
    rw [List.count_append, htake, List.count_replicate_self] at hsplit
    have hdrop := List.eq_replicate_of_mem (a := false)
      (l := p.drop (p.count true)) (by
        intro b hb
        by_contra hne
        rw [Bool.not_eq_false] at hne
        subst hne
        have := List.count_pos_iff.mpr hb
        omega)
    refine ⟨p.count true, (p.drop (p.count true)).length, ?_⟩
    rw [← htake, ← hdrop, List.take_append_drop]
  · rintro ⟨m, n, hp⟩
    apply RunsFit.field
    rw [hrun false hle, hp]
    have hlength : m + n ≤ maxRunLength := by
      have := congrArg List.length hp
      simp only [List.length_drop, List.length_append,
        List.length_replicate] at this
      omega
    have htrue : runLength true
        (List.replicate m true ++ List.replicate n false) = m := by
      rw [hrun true (by simpa using hlength), List.count_append,
        List.count_replicate_self, List.count_replicate]
      simp
    have hfalse : runLength false (List.replicate n false) = n := by
      rw [hrun false (by simp; omega), List.count_replicate_self]
    apply RunsFit.subfield
    · rw [htrue, List.take_left' List.length_replicate]
      exact fun b hb => List.eq_of_mem_replicate hb
    · rw [htrue, List.drop_left' List.length_replicate]
      apply RunsFit.field
      rw [hfalse, List.drop_eq_nil_of_le (by simp)]
      exact RunsFit.nil true

/-- In a field that is its own subfield all runs fit. -/
theorem runsFit_of_forall {inSubfield : List Bool}
    (h : ∀ b ∈ inSubfield, b = true) : RunsFit false inSubfield := by
  induction hlength : inSubfield.length using Nat.strong_induction_on
    generalizing inSubfield with
  | h n ih =>
      have hnone : runLength false inSubfield = 0 := by
        have hcount : inSubfield.count false = 0 :=
          List.count_eq_zero.mpr fun hmem => Bool.noConfusion (h _ hmem)
        rw [runLength, hcount, Nat.zero_min]
      apply RunsFit.field
      rw [hnone, List.drop_zero]
      by_cases hnil : inSubfield = []
      · rw [hnil]
        exact RunsFit.nil true
      obtain ⟨b, hb⟩ := List.exists_mem_of_ne_nil inSubfield hnil
      have hpos := runLength_pos (h b hb ▸ hb)
      have hlt := List.length_pos_iff.mpr hnil
      apply RunsFit.subfield
      · exact fun b hb => h b (List.mem_of_mem_take hb)
      · exact ih _ (by rw [List.length_drop]; omega)
          (fun b hb => h b (List.mem_of_mem_drop hb)) rfl

end Condition

section Loops

theorem encodeRunsWith_nil (fuel : Nat) (isSubfieldRun : Bool) :
    encodeRunsWith fuel isSubfieldRun ([] : List F) = .ok [] := by
  rw [encodeRunsWith]
  rfl

theorem encodeRunsWith_zero (isSubfieldRun : Bool) {elements : List F}
    (h : elements ≠ []) :
    encodeRunsWith 0 isSubfieldRun elements = abort "out of fuel" := by
  cases elements with
  | nil => exact absurd rfl h
  | cons => rfl

/-- One step of the loop writes one run. -/
theorem encodeRunsWith_succ (fuel : Nat) (isSubfieldRun : Bool)
    {elements : List F} (h : elements ≠ []) :
    encodeRunsWith (fuel + 1) isSubfieldRun elements = (do
      let length := runLength isSubfieldRun (elements.map isInSubfield)
      let run ← encodeFixedArray (encodeElement isSubfieldRun)
        (elements.take length)
      let rest ← encodeRunsWith fuel (!isSubfieldRun) (elements.drop length)
      pure (U32.encode length ++ run ++ rest)) := by
  have hsmall : runLength isSubfieldRun (elements.map isInSubfield) < 2 ^ 32 :=
    (Nat.min_le_right _ _).trans_lt (by decide)
  rw [encodeRunsWith, seekRun_start, ensure_of hsmall]
  · rfl
  · exact h

/-- All elements are there, and the loop over the runs ends. -/
theorem decodeRunsWith_done (subfieldRun : Bool) (columnElements : List F)
    (n : Nat) (hn : ([] : List UInt8).length < n) :
    Reads (decodeRunsWith (columnElements.length + ([] : List F).length) n
      subfieldRun columnElements) [] (columnElements ++ []) := by
  obtain ⟨n, rfl⟩ := Nat.exists_eq_succ_of_ne_zero hn.ne'
  rw [List.append_nil, List.length_nil, Nat.add_zero]
  intro rest
  rw [decodeRunsWith, if_neg (Nat.lt_irrefl _)]
  exact Decoder.bind_eq_ok.mpr ⟨(), rest,
    ofExec_eq_ok.mpr ⟨ensure_eq_ok.mpr rfl, rfl⟩, rfl⟩

/-- One step of the loop reads one run. -/
theorem decodeRunsWith_run {expected n : Nat} {subfieldRun : Bool}
    {columnElements run rest : List F} {runBytes bytes : List UInt8}
    (hlt : columnElements.length < expected)
    (hmax : run.length ≤ maxRunLength)
    (hle : run.length + columnElements.length ≤ expected)
    (hrun : Reads (decodeRun subfieldRun run.length) runBytes run)
    (hrest : Reads (decodeRunsWith expected n (!subfieldRun)
      (columnElements ++ run)) bytes rest) :
    Reads (decodeRunsWith expected (n + 1) subfieldRun columnElements)
      (U32.encode run.length ++ runBytes ++ bytes) rest := by
  have hsmall : run.length < 2 ^ 32 := hmax.trans_lt (by decide)
  intro tail
  rw [decodeRunsWith, if_pos hlt, List.append_assoc, List.append_assoc]
  apply Decoder.bind_eq_ok.mpr
  refine ⟨_, _, U32.decode_reads hsmall _, ?_⟩
  apply Decoder.bind_eq_ok.mpr
  refine ⟨(), _, ofExec_eq_ok.mpr ⟨ensure_eq_ok.mpr hmax, rfl⟩, ?_⟩
  apply Decoder.bind_eq_ok.mpr
  refine ⟨(), _, ofExec_eq_ok.mpr ⟨ensure_eq_ok.mpr hle, rfl⟩, ?_⟩
  exact Decoder.bind_eq_ok.mpr ⟨run, _, hrun _, hrest tail⟩

end Loops

section RoundTrip

variable [LawfulCodec F]

theorem encodeElement_true_eq_ok {element : F} {bytes : List UInt8}
    (h : encodeElement true element = .ok bytes) :
    isInSubfield element = true ∧ Reads decodeInSubfield bytes element := by
  rw [encodeElement, if_pos rfl] at h
  by_cases hin : isInSubfield element = true
  · obtain ⟨bytes', hbytes', hreads⟩ :=
      LawfulCodec.decodeInSubfield_reads element hin
    rw [hbytes'] at h
    cases h
    exact ⟨hin, hreads⟩
  · obtain ⟨message, hfail⟩ := LawfulCodec.encodeInSubfield_fails element hin
    rw [hfail] at h
    cases h

/-- A run that is written is read again, and one of the subfield has no element
outside of it. -/
theorem encodeRun_eq_ok {isSubfieldRun : Bool} {run : List F}
    {bytes : List UInt8}
    (h : encodeFixedArray (encodeElement isSubfieldRun) run = .ok bytes) :
    Reads (decodeRun isSubfieldRun run.length) bytes run ∧
      (isSubfieldRun = true → ∀ x ∈ run, isInSubfield x = true) := by
  cases isSubfieldRun with
  | false =>
      refine ⟨encodeFixedArray_reads (fun x _ bytes hx => ?_) h, by simp⟩
      cases hx
      exact LawfulCodec.decode_reads x
  | true =>
      refine ⟨encodeFixedArray_reads (fun x _ bytes hx =>
        (encodeElement_true_eq_ok hx).2) h, fun _ => ?_⟩
      induction run generalizing bytes with
      | nil => simp
      | cons x run ih =>
          rw [encodeFixedArray] at h
          obtain ⟨first, hfirst, h⟩ := Exec.bind_eq_ok.mp h
          obtain ⟨rest, hrest, -⟩ := Exec.bind_eq_ok.mp h
          exact List.forall_mem_cons.mpr
            ⟨(encodeElement_true_eq_ok hfirst).1, ih hrest⟩

theorem encodeRun_returns {isSubfieldRun : Bool} {run : List F}
    (h : isSubfieldRun = true → ∀ x ∈ run, isInSubfield x = true) :
    ∃ bytes, encodeFixedArray (encodeElement isSubfieldRun) run =
      .ok bytes := by
  induction run with
  | nil => exact ⟨[], rfl⟩
  | cons x run ih =>
      obtain ⟨rest, hrest⟩ := ih fun htrue y hy =>
        h htrue y (List.mem_cons_of_mem x hy)
      have hfirst : ∃ bytes, encodeElement isSubfieldRun x = .ok bytes := by
        cases isSubfieldRun with
        | false => exact ⟨encode x, rfl⟩
        | true =>
            obtain ⟨bytes, hbytes, -⟩ := LawfulCodec.decodeInSubfield_reads x
              (h rfl x List.mem_cons_self)
            exact ⟨bytes, hbytes⟩
      obtain ⟨first, hfirst⟩ := hfirst
      exact ⟨first ++ rest, by rw [encodeFixedArray, hfirst, ok_bind, hrest]; rfl⟩

/-- What the loop over the runs writes is read again. -/
theorem encodeRunsWith_eq_ok {fuel : Nat} {isSubfieldRun : Bool}
    {elements : List F} {bytes : List UInt8}
    (h : encodeRunsWith fuel isSubfieldRun elements = .ok bytes) :
    RunsFit isSubfieldRun (elements.map isInSubfield) ∧
      ∀ (columnElements : List F) (n : Nat), bytes.length < n →
        Reads (decodeRunsWith (columnElements.length + elements.length) n
          isSubfieldRun columnElements) bytes (columnElements ++ elements) := by
  induction fuel generalizing isSubfieldRun elements bytes with
  | zero =>
      by_cases hnil : elements = []
      · subst hnil
        rw [encodeRunsWith_nil] at h
        cases h
        exact ⟨RunsFit.nil _, decodeRunsWith_done isSubfieldRun⟩
      · rw [encodeRunsWith_zero _ hnil] at h
        cases h
  | succ fuel ih =>
      by_cases hnil : elements = []
      · subst hnil
        rw [encodeRunsWith_nil] at h
        cases h
        exact ⟨RunsFit.nil _, decodeRunsWith_done isSubfieldRun⟩
      rw [encodeRunsWith_succ _ _ hnil] at h
      obtain ⟨runBytes, hrunBytes, h⟩ := Exec.bind_eq_ok.mp h
      obtain ⟨restBytes, hrestBytes, h⟩ := Exec.bind_eq_ok.mp h
      cases h
      have hle := runLength_le isSubfieldRun (elements.map isInSubfield)
      rw [List.length_map] at hle
      have hmax : runLength isSubfieldRun (elements.map isInSubfield) ≤
          maxRunLength := Nat.min_le_right _ _
      generalize hlength : runLength isSubfieldRun
        (elements.map isInSubfield) = length at *
      have htake : (elements.take length).length = length := by
        rw [List.length_take, Nat.min_eq_left hle]
      obtain ⟨hreads, hin⟩ := encodeRun_eq_ok hrunBytes
      obtain ⟨hfit, hrest⟩ := ih hrestBytes
      rw [List.map_drop, ← hlength] at hfit
      constructor
      · cases isSubfieldRun with
        | false => exact RunsFit.field hfit
        | true =>
            apply RunsFit.subfield _ hfit
            rw [hlength, ← List.map_take]
            exact List.forall_mem_map.mpr (hin rfl)
      · intro columnElements n hn
        obtain ⟨n, rfl⟩ := Nat.exists_eq_succ_of_ne_zero (by omega : n ≠ 0)
        have hpos : 0 < elements.length := List.length_pos_iff.mpr hnil
        have hcode : (U32.encode length).length = 4 :=
          Bytes.length_leBytes 4 length
        rw [List.length_append, List.length_append, hcode] at hn
        have hdecode := hrest (columnElements ++ elements.take length) n
          (by omega)
        have htotal : (columnElements ++ elements.take length).length +
            (elements.drop length).length =
              columnElements.length + elements.length := by
          rw [List.length_append, htake, List.length_drop]
          omega
        rw [htotal, List.append_assoc, List.take_append_drop] at hdecode
        rw [← htake]
        refine decodeRunsWith_run (by omega) ?_ ?_ ?_ hdecode
        · rw [htake]
          exact hmax
        · rw [htake]
          omega
        · exact hreads

/-- Runs that fit are written: one step in two makes progress. -/
theorem encodeRunsWith_returns {fuel : Nat} {isSubfieldRun : Bool}
    {elements : List F}
    (hfit : RunsFit isSubfieldRun (elements.map isInSubfield))
    (hfuel : 2 * elements.length < fuel ∨
      2 * elements.length ≤ fuel ∧
        0 < runLength isSubfieldRun (elements.map isInSubfield)) :
    ∃ bytes, encodeRunsWith fuel isSubfieldRun elements = .ok bytes := by
  induction fuel generalizing isSubfieldRun elements with
  | zero =>
      have hnil : elements = [] := List.eq_nil_of_length_eq_zero (by omega)
      exact ⟨[], by rw [hnil, encodeRunsWith_nil]⟩
  | succ fuel ih =>
      by_cases hnil : elements = []
      · exact ⟨[], by rw [hnil, encodeRunsWith_nil]⟩
      obtain ⟨hin, hrest⟩ := hfit.run
      rw [← List.map_take, List.forall_mem_map] at hin
      rw [← List.map_drop] at hrest
      have hpos := List.length_pos_iff.mpr hnil
      have hle := runLength_le isSubfieldRun (elements.map isInSubfield)
      rw [List.length_map] at hle
      obtain ⟨runBytes, hrunBytes⟩ := encodeRun_returns hin
      have hprogress : 2 * (elements.drop (runLength isSubfieldRun
          (elements.map isInSubfield))).length < fuel ∨
          2 * (elements.drop (runLength isSubfieldRun
            (elements.map isInSubfield))).length ≤ fuel ∧
          0 < runLength (!isSubfieldRun) ((elements.drop (runLength
            isSubfieldRun (elements.map isInSubfield))).map isInSubfield) := by
        rw [List.length_drop]
        rcases Nat.eq_zero_or_pos (runLength isSubfieldRun
          (elements.map isInSubfield)) with hzero | hsome
        · right
          rw [hzero, List.drop_zero]
          exact ⟨by omega,
            runLength_pos (mem_of_runLength_eq_zero (by simpa) hzero)⟩
        · left
          omega
      obtain ⟨restBytes, hrestBytes⟩ := ih hrest hprogress
      exact ⟨U32.encode _ ++ runBytes ++ restBytes, by
        rw [encodeRunsWith_succ _ _ hnil]
        simp only [hrunBytes, hrestBytes, ok_bind]
        rfl⟩

theorem encodeRuns_returns_iff {columnElements : List F} :
    (∃ bytes, encodeRuns columnElements = .ok bytes) ↔
      RunsFit false (columnElements.map isInSubfield) := by
  constructor
  · rintro ⟨bytes, h⟩
    exact (encodeRunsWith_eq_ok h).1
  · intro h
    exact encodeRunsWith_returns h (Or.inl (Nat.lt_succ_self _))

theorem encodeRuns_reads {columnElements : List F} {bytes rest : List UInt8}
    (h : encodeRuns columnElements = .ok bytes) :
    decodeRuns columnElements.length (bytes ++ rest) =
      .ok (columnElements, rest) := by
  have hread := (encodeRunsWith_eq_ok h).2 [] ((bytes ++ rest).length + 1) (by
    rw [List.length_append]
    omega) rest
  rw [List.length_nil, Nat.zero_add, List.nil_append] at hread
  exact hread

theorem take_drop_flatten {α : Type} {columns : List (List α)} {size : Nat}
    (hlength : ∀ column ∈ columns, column.length = size) {k : Nat}
    (hk : k < columns.length) :
    (columns.flatten.drop (k * size)).take size = columns[k] := by
  induction columns generalizing k with
  | nil => exact absurd hk (Nat.not_lt_zero k)
  | cons column columns ih =>
      obtain ⟨hfirst, hothers⟩ := List.forall_mem_cons.mp hlength
      rw [List.flatten_cons]
      cases k with
      | zero => rw [Nat.zero_mul, List.drop_zero, List.take_left' hfirst]; rfl
      | succ k =>
          rw [Nat.succ_mul, Nat.add_comm, ← List.drop_drop,
            List.drop_left' hfirst]
          exact ih hothers (Nat.lt_of_succ_lt_succ hk)

/-- Columns of one length are the chunks of all their elements. -/
theorem chunks_flatten {α : Type} {columns : List (List α)} {size : Nat}
    (hsize : 0 < size) (hlength : ∀ column ∈ columns, column.length = size) :
    chunks columns.flatten size = .ok columns := by
  have hflatten : columns.flatten.length = columns.length * size := by
    rw [List.length_flatten, List.map_congr_left hlength]
    simp
  have hcount : (columns.flatten.length + size - 1) / size =
      columns.length := by
    rw [hflatten, Nat.add_sub_assoc hsize, Nat.mul_comm, Nat.mul_add_div hsize,
      Nat.div_eq_of_lt (by omega), Nat.add_zero]
  rw [chunks_eq_ok, hcount]
  refine ⟨hsize, ?_⟩
  apply List.ext_getElem
  · simp
  · intro k hk _
    rw [List.getElem_map, List.getElem_range]
    exact (take_drop_flatten hlength hk).symm

namespace LigeroProof

omit [LawfulCodec F] in
theorem encodeWithParam_eq_ok {proof : LigeroProof F} {layout : TableauLayout}
    {bytes : List UInt8} :
    proof.encodeWithParam layout = .ok bytes ↔ ∃ columns inclusionProof,
      encodeRuns proof.tableauColumns.flatten = .ok columns ∧
      proof.inclusionProof.encode = .ok inclusionProof ∧
      bytes = proof.lowDegreeTestProof.flatMap encode ++
        (proof.dotProof.flatMap encode ++
        (proof.quadraticProof.1.flatMap encode ++
        (proof.quadraticProof.2.flatMap encode ++
        (proof.merkleTreeNonces.flatMap Nonce.encode ++
        (columns ++ inclusionProof))))) := by
  simp only [encodeWithParam, Exec.bind_eq_ok, Exec.pure_eq_ok,
    Except.ok.injEq, ← exists_and_left, eq_comm (b := bytes)]

/-- What is written of a proof is read again, up to the columns, which must not
be empty. -/
theorem decodeWithParam_reads {proof : LigeroProof F} {layout : TableauLayout}
    {bytes : List UInt8} (hshape : proof.HasShape layout)
    (hnreq : 0 < layout.numRequestedColumns)
    (h : proof.encodeWithParam layout = .ok bytes) :
    Reads (decodeWithParam layout) bytes proof := by
  obtain ⟨columns, inclusionProof, hcolumns, hinclusion, rfl⟩ :=
    encodeWithParam_eq_ok.mp h
  have helements {n : Nat} {elements : List F} (hn : elements.length = n)
      (rest : List UInt8) : replicate decode n
        (elements.flatMap encode ++ rest) = .ok (elements, rest) :=
    hn ▸ replicate_reads elements (fun x _ => LawfulCodec.decode_reads x) rest
  have hnonces {n : Nat} {nonces : List Nonce} (hn : nonces.length = n)
      (rest : List UInt8) : replicate Nonce.decode n
        (nonces.flatMap Nonce.encode ++ rest) = .ok (nonces, rest) :=
    hn ▸ replicate_reads nonces (fun nonce _ => Nonce.decode_reads nonce) rest
  have hcount : proof.tableauColumns.flatten.length =
      proof.tableauColumns.length * layout.numRequestedColumns := by
    rw [List.length_flatten, List.map_congr_left hshape.tableauColumns]
    simp
  have hruns (rest : List UInt8) : decodeRuns (proof.tableauColumns.length *
      layout.numRequestedColumns) (columns ++ rest) =
        .ok (proof.tableauColumns.flatten, rest) :=
    hcount ▸ encodeRuns_reads hcolumns
  intro rest
  simp only [List.append_assoc, decodeWithParam]
  refine Decoder.bind_eq_ok.mpr
    ⟨_, _, helements hshape.lowDegreeTestProof _, ?_⟩
  refine Decoder.bind_eq_ok.mpr
    ⟨_, _, ofExec_eq_ok.mpr ⟨hshape.dotProof, rfl⟩, ?_⟩
  refine Decoder.bind_eq_ok.mpr ⟨_, _, helements rfl _, ?_⟩
  refine Decoder.bind_eq_ok.mpr
    ⟨_, _, helements hshape.quadraticProofLow _, ?_⟩
  refine Decoder.bind_eq_ok.mpr
    ⟨_, _, ofExec_eq_ok.mpr ⟨hshape.quadraticProofHigh, rfl⟩, ?_⟩
  refine Decoder.bind_eq_ok.mpr ⟨_, _, helements rfl _, ?_⟩
  refine Decoder.bind_eq_ok.mpr
    ⟨_, _, hnonces hshape.merkleTreeNonces _, ?_⟩
  refine Decoder.bind_eq_ok.mpr
    ⟨_, _, ofExec_eq_ok.mpr ⟨hshape.numRows, rfl⟩, ?_⟩
  refine Decoder.bind_eq_ok.mpr ⟨_, _, hruns _, ?_⟩
  refine Decoder.bind_eq_ok.mpr ⟨_, _, ofExec_eq_ok.mpr
    ⟨chunks_flatten hnreq hshape.tableauColumns, rfl⟩, ?_⟩
  exact Decoder.bind_eq_ok.mpr
    ⟨_, _, InclusionProof.decode_reads hinclusion rest, rfl⟩

omit [LawfulCodec F] in
/-- Chunks of size zero are refused, also of no elements. -/
theorem numRequestedColumns_pos {layout : TableauLayout}
    {proof : LigeroProof F} {bytes rest : List UInt8}
    (h : decodeWithParam layout bytes = .ok (proof, rest)) :
    0 < layout.numRequestedColumns := by
  simp only [decodeWithParam, Decoder.bind_eq_ok, ofExec_eq_ok] at h
  obtain ⟨_, _, -, _, _, -, _, _, -, _, _, -, _, _, -, _, _, -, _, _, -, _, _,
    -, _, _, -, _, _, ⟨hchunks, -⟩, -⟩ := h
  exact (chunks_eq_ok.mp hchunks).1

/-- A proof is decoded from its encoding exactly if there is something in its
columns, and if the runs of the subfield fit. Where one run can take all the
elements, that is a matter of their order; and in a field that is its own
subfield they do. -/
theorem roundTrip_iff {layout : TableauLayout} {proof : LigeroProof F}
    (hshape : proof.HasShape layout) :
    ((∃ bytes, proof.encodeWithParam layout = .ok bytes ∧
        decodeWithParam layout bytes = .ok (proof, [])) ↔
      0 < layout.numRequestedColumns ∧
        RunsFit false (proof.tableauColumns.flatten.map isInSubfield)) ∧
    (proof.tableauColumns.flatten.length ≤ maxRunLength →
      (RunsFit false (proof.tableauColumns.flatten.map isInSubfield) ↔
        SubfieldFirst ((proof.tableauColumns.flatten.map isInSubfield).drop
          ((proof.tableauColumns.flatten.map isInSubfield).count false)))) ∧
    ((∀ x : F, isInSubfield x = true) →
      RunsFit false (proof.tableauColumns.flatten.map isInSubfield)) := by
  refine ⟨?_, ?_, ?_⟩
  · constructor
    · rintro ⟨bytes, hencode, hdecode⟩
      obtain ⟨columns, _, hcolumns, -, -⟩ := encodeWithParam_eq_ok.mp hencode
      exact ⟨numRequestedColumns_pos hdecode,
        encodeRuns_returns_iff.mp ⟨columns, hcolumns⟩⟩
    · rintro ⟨hnreq, hfit⟩
      obtain ⟨columns, hcolumns⟩ := encodeRuns_returns_iff.mpr hfit
      have hinclusion :=
        InclusionProof.encode_eq_ok.mpr ⟨hshape.inclusionProof, rfl⟩
      obtain ⟨bytes, hencode⟩ : ∃ bytes,
          proof.encodeWithParam layout = .ok bytes :=
        ⟨_, encodeWithParam_eq_ok.mpr
          ⟨columns, _, hcolumns, hinclusion, rfl⟩⟩
      have hread := decodeWithParam_reads hshape hnreq hencode []
      rw [List.append_nil] at hread
      exact ⟨bytes, hencode, hread⟩
  · intro hle
    exact runsFit_iff (by rwa [List.length_map])
  · intro hin
    exact runsFit_of_forall (List.forall_mem_map.mpr fun x _ => hin x)

end LigeroProof

end RoundTrip

section Sample

/-- One row with a witness, and one column that is opened. -/
def rowLayout : TableauLayout := ⟨⟨1, 1, 1, 2, 4⟩, 1, 0⟩

/-- A proof with the given elements in its four rows. -/
def rowProof (elements : List Field2_128) : LigeroProof Field2_128 where
  lowDegreeTestProof := [0, 0]
  dotProof := [0, 0, 0]
  quadraticProof := ([0], [0])
  tableauColumns := elements.map fun element => [element]
  inclusionProof := ⟨[]⟩
  merkleTreeNonces := [default]

theorem rowProof_hasShape {elements : List Field2_128}
    (h : elements.length = 4) : (rowProof elements).HasShape rowLayout where
  lowDegreeTestProof := rfl
  dotProof := rfl
  quadraticProofLow := rfl
  quadraticProofHigh := rfl
  merkleTreeNonces := rfl
  numRows := by rw [rowProof, List.length_map, h]; rfl
  tableauColumns := by simp [rowProof, rowLayout,
    TableauLayout.numRequestedColumns]
  inclusionProof := by simp [rowProof]

/-- Two elements of the subfield, each after one that is not. -/
theorem roundTrip_mixed :
    (rowProof [⟨-1⟩, 1, ⟨-1⟩, 1]).HasShape rowLayout ∧
      ¬ ∃ bytes, (rowProof [⟨-1⟩, 1, ⟨-1⟩, 1]).encodeWithParam rowLayout =
          .ok bytes ∧
        LigeroProof.decodeWithParam rowLayout bytes =
          .ok (rowProof [⟨-1⟩, 1, ⟨-1⟩, 1], []) := by
  refine ⟨rowProof_hasShape rfl, ?_⟩
  rintro ⟨bytes, hencode, -⟩
  have hfails : ((rowProof [⟨-1⟩, 1, ⟨-1⟩, 1]).encodeWithParam
      rowLayout).isOk = false := by decide
  rw [hencode] at hfails
  cases hfails

theorem roundTrip_iff_rowProof :
    ∃ bytes, (rowProof [⟨-1⟩, ⟨-1⟩, 1, 1]).encodeWithParam rowLayout =
        .ok bytes ∧
      LigeroProof.decodeWithParam rowLayout bytes =
        .ok (rowProof [⟨-1⟩, ⟨-1⟩, 1, 1], []) := by
  obtain ⟨hiff, hfirst, -⟩ := LigeroProof.roundTrip_iff
    (@rowProof_hasShape [⟨-1⟩, ⟨-1⟩, 1, 1] rfl)
  exact hiff.mpr ⟨by decide, (hfirst (by decide)).mpr ⟨2, 0, by decide⟩⟩

end Sample

end Longfellow.Ligero
