/-
The implementation of SHA-256 against the standard: the digests are equal, and
the wires that are computed beside one encode the standard's intermediate words.
-/
import Longfellow.Lib.Sha2
import Longfellow.MdocZk.Witnessed

namespace Longfellow.MdocZk

/-- The words of a hash value as the standard names them. -/
def HashValue.words (hash : HashValue) : Sha2.State :=
  ⟨hash.a, hash.b, hash.c, hash.d, hash.e, hash.f, hash.g, hash.h⟩

section Blocks

theorem roundConstants_eq :
    roundConstants = (List.range 64).map Sha2.constant := by decide

theorem initialHashValue_words : initialHashValue.words = Sha2.initial := by
  decide

theorem padInput_eq (input : List UInt8) : padInput input = Sha2.pad input := by
  have hzeros : 63 - (input.length + 8) % 64 = Sha2.zeros input.length := by
    rw [Sha2.zeros]
    omega
  rw [padInput, Sha2.pad, hzeros, Nat.mul_comm, List.append_assoc input]
  rfl

theorem chunks_eq {α : Type} (size n : Nat) (xs : List α) :
    chunks size n xs =
      (List.range n).map fun i => (xs.drop (size * i)).take size := by
  induction n generalizing xs with
  | zero => rfl
  | succ n ih =>
      rw [chunks, ih, List.range_succ_eq_map, List.map_cons, List.map_map,
        Nat.mul_zero, List.drop_zero]
      congr 1
      refine List.map_congr_left fun i _ => ?_
      rw [Function.comp_apply, List.drop_drop, Nat.mul_succ, Nat.add_comm]

/-- The recurrence extends a schedule that is kept with its last word first. -/
theorem extendSchedule_eq (W : Nat → UInt32) {m : Nat}
    (hW : ∀ t, W (t + 16) = lowerSigma1 (W (t + 14)) + W (t + 9) +
      lowerSigma0 (W (t + 1)) + W t) (hm : 16 ≤ m) (n : Nat) :
    extendSchedule n ((List.range m).map W).reverse =
      ((List.range (m + n)).map W).reverse := by
  have hword (m k : Nat) (hk : k < m) :
      ((List.range m).map W).reverse.getD k 0 = W (m - 1 - k) := by
    rw [List.getD_eq_getElem _ _ (by simpa using hk), List.getElem_reverse]
    simp
  induction n generalizing m with
  | zero => rfl
  | succ n ih =>
      obtain ⟨t, rfl⟩ : ∃ t, m = t + 16 := ⟨m - 16, by omega⟩
      have hnext : (lowerSigma1 (W (t + 14)) + W (t + 9) +
          lowerSigma0 (W (t + 1)) + W t) :: ((List.range (t + 16)).map W).reverse =
            ((List.range (t + 16 + 1)).map W).reverse := by
        conv_rhs => rw [List.range_succ]
        rw [List.map_append, List.reverse_append, ← hW t]
        rfl
      rw [extendSchedule, hword _ 1 (by omega), hword _ 6 (by omega),
        hword _ 14 (by omega), hword _ 15 (by omega)]
      rw [show t + 16 - 1 - 1 = t + 14 by omega,
        show t + 16 - 1 - 6 = t + 9 by omega,
        show t + 16 - 1 - 14 = t + 1 by omega,
        show t + 16 - 1 - 15 = t by omega, hnext, ih (by omega),
        Nat.add_right_comm]
      rfl

theorem messageSchedule_eq (message : List UInt8) :
    messageSchedule message = (List.range 64).map (Sha2.schedule message) := by
  have hwords : (chunks 4 16 message).map ofBeBytes =
      (List.range 16).map (Sha2.schedule message) := by
    rw [chunks_eq, List.map_map]
    refine List.map_congr_left fun t ht => ?_
    rw [Sha2.schedule_of_lt message (List.mem_range.mp ht)]
    rfl
  rw [messageSchedule, hwords, extendSchedule_eq (Sha2.schedule message)
    (Sha2.schedule_add message) (Nat.le_refl 16), List.reverse_reverse]

theorem zip_schedule (message : List UInt8) :
    roundConstants.zip (messageSchedule message) =
      (List.range 64).map fun t =>
        (Sha2.constant t, Sha2.schedule message t) := by
  rw [roundConstants_eq, messageSchedule_eq, List.zip_map']

theorem round_words (state : HashValue) (constant word : UInt32) :
    (round state constant word).words = Sha2.step constant word state.words :=
  rfl

/-- The fold over the first entries is the state after as many rounds. -/
theorem foldl_round_words (hash : HashValue) (message : List UInt8) (n : Nat) :
    (((List.range n).map fun t =>
      (Sha2.constant t, Sha2.schedule message t)).foldl
        (fun state entry => round state entry.1 entry.2) hash).words =
      Sha2.rounds message hash.words n := by
  induction n with
  | zero => rfl
  | succ n ih =>
      rw [List.range_succ, List.map_append, List.foldl_append, Sha2.rounds, ← ih]
      rfl

theorem processBlock_words (hash : HashValue) (message : List UInt8) :
    (processBlock hash message).words = Sha2.compress hash.words message := by
  have hstate := foldl_round_words hash message 64
  rw [← zip_schedule] at hstate
  rw [Sha2.compress, ← hstate]
  rfl

theorem serializeHashValue_bytes (hash : HashValue) :
    (serializeHashValue hash).bytes = Sha2.digest hash.words := rfl

theorem foldl_processBlock_words (padded : List UInt8) (n : Nat) :
    ((chunks 64 n padded).foldl processBlock initialHashValue).words =
      Sha2.chain padded n := by
  rw [chunks_eq]
  induction n with
  | zero => exact initialHashValue_words
  | succ n ih =>
      rw [List.range_succ, List.map_append, List.foldl_append, Sha2.chain, ← ih]
      exact processBlock_words _ _

/-- The implementation computes the hash function of the standard. -/
theorem runSha256_bytes (input : List UInt8) :
    (runSha256 input).bytes = Sha2.sha256 input := by
  rw [runSha256, serializeHashValue_bytes, foldl_processBlock_words,
    padInput_eq, Sha2.sha256]

end Blocks

section Witness

/-- A hash value of the standard as a digest. -/
def digestOf (hash : Sha2.State) : Sha256Digest :=
  ⟨Sha2.digest hash, by simp [Sha2.digest, Sha2.bytesOf]⟩

/-- The wires of a block: the words of the schedule after the block's own, the
words `e` and `a` after each round, and the chained hash value. -/
def blockWires (hash : Sha2.State) (block : List UInt8) : List Field2_128 :=
  let next := Sha2.compress hash block
  encodeU32Array ((List.range 48).map fun t => Sha2.schedule block (t + 16)) ++
    (List.range 64).flatMap (fun t =>
      let state := Sha2.rounds block hash (t + 1)
      encodeU32Array [state.e, state.a]) ++
    encodeU32Array
      [next.a, next.b, next.c, next.d, next.e, next.f, next.g, next.h]

theorem witnessRounds_append (rounds rounds' : List (UInt32 × UInt32))
    (state : HashValue) :
    witnessRounds (rounds ++ rounds') state =
      let first := witnessRounds rounds state
      let second := witnessRounds rounds' first.1
      (second.1, first.2 ++ second.2) := by
  induction rounds generalizing state with
  | nil => rfl
  | cons entry rounds ih =>
      obtain ⟨constant, word⟩ := entry
      simp only [List.cons_append, witnessRounds, ih, List.append_assoc]

theorem witnessRounds_eq (hash : HashValue) (message : List UInt8) (n : Nat) :
    let run := witnessRounds ((List.range n).map fun t =>
      (Sha2.constant t, Sha2.schedule message t)) hash
    run.1.words = Sha2.rounds message hash.words n ∧
      run.2 = (List.range n).flatMap fun t =>
        let state := Sha2.rounds message hash.words (t + 1)
        encodeU32Array [state.e, state.a] := by
  induction n with
  | zero => exact ⟨rfl, rfl⟩
  | succ n ih =>
      obtain ⟨hstate, hwires⟩ := ih
      have hnext := congrArg
        (Sha2.step (Sha2.constant n) (Sha2.schedule message n)) hstate
      rw [← round_words] at hnext
      simp only [List.range_succ, List.map_append, List.flatMap_append,
        witnessRounds_append, hwires]
      refine ⟨hnext, congrArg _ ?_⟩
      simp only [List.map_cons, List.map_nil, witnessRounds, List.flatMap_cons,
        List.flatMap_nil, Sha2.rounds, ← hnext]
      rfl

theorem witnessBlock_eq (hash : HashValue) (message : List UInt8) :
    (witnessBlock hash message).1.words = Sha2.compress hash.words message ∧
      (witnessBlock hash message).2 = blockWires hash.words message := by
  obtain ⟨hstate, hwires⟩ := witnessRounds_eq hash message 64
  rw [← zip_schedule] at hstate hwires
  have hnext : (witnessBlock hash message).1.words =
      Sha2.compress hash.words message := by
    rw [Sha2.compress, ← hstate]
    rfl
  refine ⟨hnext, ?_⟩
  have hdrop : (messageSchedule message).drop 16 =
      (List.range 48).map fun t => Sha2.schedule message (t + 16) := by
    rw [messageSchedule_eq, ← List.map_drop]
    rfl
  have hhash : encodeHashValue (witnessBlock hash message).1 =
      let next := (witnessBlock hash message).1.words
      encodeU32Array
        [next.a, next.b, next.c, next.d, next.e, next.f, next.g, next.h] := rfl
  rw [hnext] at hhash
  rw [blockWires, ← hdrop, ← hwires, ← hhash]
  rfl

/-- The loop over blocks that stand one after the other in a padded input. -/
theorem witnessBlocks_eq (padded : List UInt8) (numBlocks : Nat)
    (blockNumber count : Nat) (hash : HashValue)
    (hhash : hash.words = Sha2.chain padded blockNumber) :
    witnessBlocks numBlocks blockNumber
      ((List.range' blockNumber count).map (Sha2.block padded)) hash =
      (if blockNumber < numBlocks ∧ numBlocks ≤ blockNumber + count then
          some (digestOf (Sha2.chain padded numBlocks))
        else none,
        (List.range' blockNumber count).flatMap fun i =>
          blockWires (Sha2.chain padded i) (Sha2.block padded i)) := by
  induction count generalizing blockNumber hash with
  | zero =>
      rw [if_neg (by omega)]
      rfl
  | succ count ih =>
      obtain ⟨hnext, hwires⟩ :=
        witnessBlock_eq hash (Sha2.block padded blockNumber)
      rw [hhash] at hnext hwires
      change _ = Sha2.chain padded (blockNumber + 1) at hnext
      rw [List.range'_succ, List.map_cons, List.flatMap_cons, witnessBlocks]
      simp only [ih (blockNumber + 1) _ hnext, hwires]
      refine Prod.ext ?_ rfl
      by_cases hlast : blockNumber + 1 = numBlocks
      · subst hlast
        rw [if_pos rfl, if_pos (by omega)]
        rw [← hnext]
        rfl
      · rw [if_neg hlast]
        by_cases hrange : blockNumber < numBlocks ∧
            numBlocks ≤ blockNumber + (count + 1)
        · rw [if_pos hrange, if_pos (by omega)]
        · rw [if_neg hrange, if_neg (by omega)]

/-- Hashing with wires succeeds exactly if the padded input has at most the
number of blocks that there are wires for.  Then the digest is the hash, the
padded input is the standard's, followed by zeros, and the wires of every block
encode what the standard computes for it, also those of the blocks of zeros. -/
theorem runSha256Witnessed_exact (input : List UInt8) (maxBlocks : Nat) :
    ((∃ result wires, runSha256Witnessed input maxBlocks =
        .ok (result, wires)) ↔ (Sha2.pad input).length ≤ 64 * maxBlocks) ∧
    ∀ result wires, runSha256Witnessed input maxBlocks = .ok (result, wires) →
      result.digest = runSha256 input ∧
      result.digest.bytes = Sha2.sha256 input ∧
      result.numBlocks = (input.length + 9 + 63) / 64 ∧
      result.paddedInput = Sha2.pad input ++
        List.replicate (64 * maxBlocks - (Sha2.pad input).length) 0 ∧
      result.paddedInput.length = 64 * maxBlocks ∧
      wires = (List.range maxBlocks).flatMap fun i =>
        blockWires (Sha2.chain result.paddedInput i)
          (Sha2.block result.paddedInput i) := by
  have hlength := Sha2.length_pad input
  have hblocks : (Sha2.pad input).length / 64 = (input.length + 9 + 63) / 64 := by
    omega
  have hwitness (padded : List UInt8) (numBlocks : Nat) :
      witnessBlocks numBlocks 0 (chunks 64 maxBlocks padded) initialHashValue =
        (if 0 < numBlocks ∧ numBlocks ≤ 0 + maxBlocks then
          some (digestOf (Sha2.chain padded numBlocks)) else none,
          (List.range maxBlocks).flatMap fun i =>
            blockWires (Sha2.chain padded i) (Sha2.block padded i)) := by
    rw [chunks_eq, List.range_eq_range']
    exact witnessBlocks_eq padded numBlocks 0 maxBlocks initialHashValue
      initialHashValue_words
  have hrun : runSha256Witnessed input maxBlocks =
      if (Sha2.pad input).length ≤ 64 * maxBlocks then
        let paddedInput := Sha2.pad input ++
          List.replicate (64 * maxBlocks - (Sha2.pad input).length) 0
        .ok (⟨runSha256 input, paddedInput, (input.length + 9 + 63) / 64⟩,
          (List.range maxBlocks).flatMap fun i =>
            blockWires (Sha2.chain paddedInput i) (Sha2.block paddedInput i))
      else Exec.fail "SHA-256 input was too long" := by
    rw [runSha256Witnessed, padInput_eq]
    by_cases hfit : (Sha2.pad input).length ≤ 64 * maxBlocks
    · have hlen : (Sha2.pad input ++ List.replicate
          (64 * maxBlocks - (Sha2.pad input).length) (0 : UInt8)).length =
            64 * maxBlocks := by
        rw [List.length_append, List.length_replicate]
        omega
      have hdigest : digestOf (Sha2.chain (Sha2.pad input ++ List.replicate
          (64 * maxBlocks - (Sha2.pad input).length) 0)
            ((Sha2.pad input).length / 64)) = runSha256 input := by
        rw [Sha2.chain_append _ _ (by omega), ← foldl_processBlock_words,
          runSha256, padInput_eq]
        rfl
      rw [if_pos hfit]
      simp only [Nat.mul_comm maxBlocks 64, List.take_of_length_le hlen.le]
      rw [hwitness, if_pos (by omega), hdigest, hblocks]
      rfl
    · rw [if_neg hfit]
      simp only [Nat.mul_comm maxBlocks 64]
      rw [hwitness, if_neg (by omega)]
  rw [hrun]
  by_cases hfit : (Sha2.pad input).length ≤ 64 * maxBlocks
  · rw [if_pos hfit]
    refine ⟨iff_of_true ⟨_, _, rfl⟩ hfit, fun result wires h => ?_⟩
    cases h
    refine ⟨rfl, runSha256_bytes input, rfl, rfl, ?_, rfl⟩
    rw [List.length_append, List.length_replicate]
    omega
  · rw [if_neg hfit]
    constructor
    · refine iff_of_false ?_ hfit
      rintro ⟨result, wires, h⟩
      cases h
    · intro result wires h
      cases h

end Witness

end Longfellow.MdocZk
