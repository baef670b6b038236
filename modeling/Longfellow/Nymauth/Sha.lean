/-
The compression function of SHA-256 with the face of each block, which the hash
circuit consumes.
-/
import Longfellow.MdocZk.Standard
import Longfellow.Nymauth.Lfc2

namespace Longfellow.Nymauth.Sha

open Exec Lfc2 MdocZk

section Model

/-- The greatest size of an allocation. -/
def isizeMax : Nat := 2 ^ 63 - 1

def iv : Vector UInt32 8 :=
  #v[0x6a09e667, 0xbb67ae85, 0x3c6ef372, 0xa54ff53a, 0x510e527f, 0x9b05688c,
    0x1f83d9ab, 0x5be0cd19]

def k : List UInt32 :=
  [ 0x428a2f98, 0x71374491, 0xb5c0fbcf, 0xe9b5dba5, 0x3956c25b, 0x59f111f1,
    0x923f82a4, 0xab1c5ed5, 0xd807aa98, 0x12835b01, 0x243185be, 0x550c7dc3,
    0x72be5d74, 0x80deb1fe, 0x9bdc06a7, 0xc19bf174, 0xe49b69c1, 0xefbe4786,
    0x0fc19dc6, 0x240ca1cc, 0x2de92c6f, 0x4a7484aa, 0x5cb0a9dc, 0x76f988da,
    0x983e5152, 0xa831c66d, 0xb00327c8, 0xbf597fc7, 0xc6e00bf3, 0xd5a79147,
    0x06ca6351, 0x14292967, 0x27b70a85, 0x2e1b2138, 0x4d2c6dfc, 0x53380d13,
    0x650a7354, 0x766a0abb, 0x81c2c92e, 0x92722c85, 0xa2bfe8a1, 0xa81a664b,
    0xc24b8b70, 0xc76c51a3, 0xd192e819, 0xd6990624, 0xf40e3585, 0x106aa070,
    0x19a4c116, 0x1e376c08, 0x2748774c, 0x34b0bcb5, 0x391c0cb3, 0x4ed8aa4a,
    0x5b9cca4f, 0x682e6ff3, 0x748f82ee, 0x78a5636f, 0x84c87814, 0x8cc70208,
    0x90befffa, 0xa4506ceb, 0xbef9a3f7, 0xc67178f2 ]

/-- Appends the low `n` bits of `v`, bit 0 first. -/
def word (out : List UInt8) (v : UInt64) (n : Nat) : List UInt8 :=
  out ++ (List.range n).map fun j => ((v >>> UInt64.ofNat j) &&& 1).toUInt8

/-- The words of the schedule so far, with the one at `i`. -/
def scheduleStep (w : List UInt32) (i : Nat) : List UInt32 :=
  let w15 := w.getD (i - 15) 0
  let w2 := w.getD (i - 2) 0
  let s0 := rotateRight w15 7 ^^^ rotateRight w15 18 ^^^ (w15 >>> 3)
  let s1 := rotateRight w2 17 ^^^ rotateRight w2 19 ^^^ (w2 >>> 10)
  w ++ [w.getD (i - 16) 0 + s0 + w.getD (i - 7) 0 + s1]

/-- The words of the block, and the rest of the schedule after them. -/
def schedule (block : List UInt8) : List UInt32 :=
  (List.range' 16 48).foldl scheduleStep
    ((List.range 16).map fun i => ofBeBytes
      [block.getD (4 * i) 0, block.getD (4 * i + 1) 0,
        block.getD (4 * i + 2) 0, block.getD (4 * i + 3) 0])

/-- The working variables, and the `e` and `a` after each round so far. -/
structure Working where
  a : UInt32
  b : UInt32
  c : UInt32
  d : UInt32
  e : UInt32
  f : UInt32
  g : UInt32
  h : UInt32
  es : List UInt32
  as : List UInt32

def round (w : List UInt32) (s : Working) (i : Nat) : Working :=
  let s1 := rotateRight s.e 6 ^^^ rotateRight s.e 11 ^^^ rotateRight s.e 25
  let ch := (s.e &&& s.f) ^^^ (~~~s.e &&& s.g)
  let t1 := s.h + s1 + ch + k.getD i 0 + w.getD i 0
  let s0 := rotateRight s.a 2 ^^^ rotateRight s.a 13 ^^^ rotateRight s.a 22
  let maj := (s.a &&& s.b) ^^^ (s.a &&& s.c) ^^^ (s.b &&& s.c)
  let t2 := s0 + maj
  let e := s.d + t1
  let a := t1 + t2
  { a := a, b := s.a, c := s.b, d := s.c, e := e, f := s.e, g := s.f, h := s.g
    es := s.es ++ [e]
    as := s.as ++ [a] }

/-- All the rounds, from a state. -/
def rounds (state : Vector UInt32 8) (w : List UInt32) : Working :=
  (List.range 64).foldl (round w)
    ⟨state[0], state[1], state[2], state[3], state[4], state[5], state[6],
      state[7], [], []⟩

/-- Compresses `block` into `state`. With `face`, appends the face of the
block. -/
def compress (state : Vector UInt32 8) (block : List UInt8)
    (face : Option (List UInt8)) :
    Exec (Vector UInt32 8 × Option (List UInt8)) := do
  assert (block.length = 64) "assertion `left == right` failed"
  let w := schedule block
  let s := rounds state w
  let next := state.zipWith (· + ·) #v[s.a, s.b, s.c, s.d, s.e, s.f, s.g, s.h]
  let face := face.map fun out =>
    (state.toList ++ w ++ s.es ++ s.as ++ next.toList).foldl
      (fun out x => word out x.toUInt64 32) out
  pure (next, face)

/-- Overwrite a part of a list. -/
def copyFromSlice (out : List UInt8) (start : Nat) (bytes : List UInt8) :
    Exec (List UInt8) := do
  assert (start + bytes.length ≤ out.length)
    "range end index out of range for slice"
  pure (out.take start ++ bytes ++ out.drop (start + bytes.length))

/-- SHA-256 padding of `m`, then zero bytes up to `64 * blocks` bytes. `none`
if `m` does not fit. -/
def pad (m : List UInt8) (blocks : Nat) : Exec (Option (List UInt8)) :=
  let n := 64 * blocks
  if usizeMax < n then pure none
  else if usizeMax < m.length + 9 then pure none
  else if n < m.length + 9 then pure none
  else do
    let full := (m.length + 9 + 63) / 64 * 64
    assert (n ≤ isizeMax) "capacity overflow"
    let out := List.replicate n 0
    let out ← copyFromSlice out 0 m
    let out ← update out m.length fun _ => 0x80
    let out ← copyFromSlice out (full - 8)
      (Bytes.leBytes 8 (8 * m.length)).reverse
    pure (some out)

/-- Appends the faces of every block of the padded message `p`, chained from
`state`. -/
def facesPadded (p : List UInt8) (state : Vector UInt32 8) (out : List UInt8) :
    Exec (Vector UInt32 8 × List UInt8) :=
  (chunks 64 (p.length / 64) p).foldlM (fun (state, out) block => do
    let (state, face) ← compress state block (some out)
    pure (state, face.getD out)) (state, out)

/-- The faces of a message in as many blocks; `none` if it does not fit. -/
def faces (m : List UInt8) (blocks : Nat) (out : List UInt8) :
    Exec (Option (List UInt8)) := do
  match ← pad m blocks with
  | none => pure none
  | some padded => do
      let (_, out) ← facesPadded padded iv out
      pure (some out)

end Model

/-- The words of an array as the standard names them. -/
def stateOf (state : Vector UInt32 8) : Sha2.State :=
  ⟨state[0], state[1], state[2], state[3], state[4], state[5], state[6],
    state[7]⟩

/-- The words of a hash value, in order. -/
def hashWords (hash : Sha2.State) : List UInt32 :=
  [hash.a, hash.b, hash.c, hash.d, hash.e, hash.f, hash.g, hash.h]

section Compress

theorem stateOf_iv : stateOf iv = Sha2.initial := by decide

theorem k_eq : k = (List.range 64).map Sha2.constant := roundConstants_eq

theorem toList_eq (state : Vector UInt32 8) :
    state.toList = hashWords (stateOf state) := by
  apply List.ext_getElem
  · rw [Vector.length_toList]
    rfl
  · intro i hi _
    rw [Vector.length_toList] at hi
    rw [Vector.getElem_toList]
    interval_cases i <;> rfl

theorem blockWord_eq {block : List UInt8} (hblock : block.length = 64)
    {i : Nat} (hi : i < 16) :
    ofBeBytes [block.getD (4 * i) 0, block.getD (4 * i + 1) 0,
        block.getD (4 * i + 2) 0, block.getD (4 * i + 3) 0] =
      Sha2.blockWord block i := by
  have hword : [block.getD (4 * i) 0, block.getD (4 * i + 1) 0,
      block.getD (4 * i + 2) 0, block.getD (4 * i + 3) 0] =
        (block.drop (4 * i)).take 4 := by
    apply List.ext_getElem?
    intro j
    by_cases hj : j < 4
    · have hlt : 4 * i + j < block.length := by omega
      have hbyte : block[4 * i + j]? = some (block.getD (4 * i + j) 0) := by
        rw [List.getD_eq_getElem _ _ hlt, List.getElem?_eq_getElem hlt]
      rw [List.getElem?_take_of_lt hj, List.getElem?_drop, hbyte]
      interval_cases j <;> rfl
    · rw [List.getElem?_eq_none (by simp; omega),
        List.getElem?_eq_none (by simp; omega)]
  rw [hword]
  rfl

theorem schedule_prefix {block : List UInt8} (hblock : block.length = 64)
    (n : Nat) :
    (List.range' 16 n).foldl scheduleStep
      ((List.range 16).map fun i => ofBeBytes
        [block.getD (4 * i) 0, block.getD (4 * i + 1) 0,
          block.getD (4 * i + 2) 0, block.getD (4 * i + 3) 0]) =
      (List.range (16 + n)).map (Sha2.schedule block) := by
  induction n with
  | zero =>
      apply List.map_congr_left
      intro i hi
      have hi := List.mem_range.mp hi
      rw [blockWord_eq hblock hi, Sha2.schedule_of_lt block hi]
  | succ n ih =>
      have hget {i : Nat} (hi : i < 16 + n) :
          ((List.range (16 + n)).map (Sha2.schedule block)).getD i 0 =
            Sha2.schedule block i := by
        rw [List.getD_eq_getElem _ _ (by simpa using hi)]
        simp
      have hnext : Sha2.schedule block (16 + n) =
          Sha2.schedule block n + Sha2.smallSigma0 (Sha2.schedule block (n + 1))
            + Sha2.schedule block (n + 9) +
            Sha2.smallSigma1 (Sha2.schedule block (n + 14)) := by
        rw [Nat.add_comm 16 n, Sha2.schedule_add]
        ac_rfl
      rw [List.range'_1_concat, List.foldl_append, ih, List.foldl_cons,
        List.foldl_nil, scheduleStep, hget (by omega), hget (by omega),
        hget (by omega), hget (by omega), ← Nat.add_assoc, List.range_succ,
        List.map_append, List.map_singleton, hnext]
      have h15 : 16 + n - 15 = n + 1 := by omega
      have h2 : 16 + n - 2 = n + 14 := by omega
      have h16 : 16 + n - 16 = n := by omega
      have h7 : 16 + n - 7 = n + 9 := by omega
      rw [h15, h2, h16, h7]
      rfl

theorem schedule_eq {block : List UInt8} (hblock : block.length = 64) :
    schedule block = (List.range 64).map (Sha2.schedule block) :=
  schedule_prefix hblock 48

/-- The working variables as the standard names them. -/
def Working.state (s : Working) : Sha2.State :=
  ⟨s.a, s.b, s.c, s.d, s.e, s.f, s.g, s.h⟩

theorem round_state (w : List UInt32) (s : Working) (i : Nat) :
    (round w s i).state =
      Sha2.step (k.getD i 0) (w.getD i 0) s.state := rfl

/-- The working variables after the first rounds for a block. -/
def run (hash : Sha2.State) (block : List UInt8) (n : Nat) : Working :=
  (List.range n).foldl (round ((List.range 64).map (Sha2.schedule block)))
    ⟨hash.a, hash.b, hash.c, hash.d, hash.e, hash.f, hash.g, hash.h, [], []⟩

theorem run_succ (hash : Sha2.State) (block : List UInt8) (n : Nat) :
    run hash block (n + 1) = round ((List.range 64).map (Sha2.schedule block))
      (run hash block n) n := by
  have hrange : List.range (n + 1) = List.range n ++ [n] := List.range_succ
  rw [run, hrange, List.foldl_append]
  rfl

theorem getD_map_range (f : Nat → UInt32) {m n : Nat} (hn : n < m) :
    ((List.range m).map f).getD n 0 = f n := by
  rw [List.getD_eq_getElem _ _ (by simpa using hn)]
  simp

/-- The rounds, and what they leave for the face. -/
theorem run_eq (hash : Sha2.State) (block : List UInt8) {n : Nat}
    (hn : n ≤ 64) :
    (run hash block n).state = Sha2.rounds block hash n ∧
      (run hash block n).es =
        (List.range n).map (fun t => Sha2.fifthWord block hash (t + 4)) ∧
      (run hash block n).as =
        (List.range n).map fun t => Sha2.firstWord block hash (t + 4) := by
  induction n with
  | zero => exact ⟨rfl, rfl, rfl⟩
  | succ n ih =>
      obtain ⟨hstate, hes, has⟩ := ih (Nat.le_of_succ_le hn)
      have hnext : (run hash block (n + 1)).state =
          Sha2.rounds block hash (n + 1) := by
        rw [run_succ, round_state, hstate, k_eq, getD_map_range _ hn,
          getD_map_range _ hn]
        rfl
      have hpush : (run hash block (n + 1)).es =
            (run hash block n).es ++ [(run hash block (n + 1)).state.e] ∧
          (run hash block (n + 1)).as =
            (run hash block n).as ++ [(run hash block (n + 1)).state.a] := by
        rw [run_succ]
        exact ⟨rfl, rfl⟩
      rw [hpush.1, hpush.2, hnext, hes, has, List.range_succ, List.map_append,
        List.map_append]
      exact ⟨rfl, rfl, rfl⟩

end Compress

section Face

/-- The words of a face: a hash value, the schedule, the `e` and the `a` after
every round, and the next hash value. -/
structure Face where
  hIn : List UInt32
  w : List UInt32
  es : List UInt32
  as : List UInt32
  hOut : List UInt32

namespace Face

def words (face : Face) : List UInt32 :=
  face.hIn ++ face.w ++ face.es ++ face.as ++ face.hOut

/-- The bits of the words, bit 0 of each first. -/
def bits (face : Face) : List UInt8 :=
  face.words.flatMap fun x =>
    (List.range 32).map fun j => if x.toNat.testBit j then 1 else 0

/-- The variable `a`, from three rounds before the first one on. -/
def a (face : Face) (t : Nat) : UInt32 :=
  ((face.hIn.take 4).reverse ++ face.as).getD t 0

/-- The variable `e`, from three rounds before the first one on. -/
def e (face : Face) (t : Nat) : UInt32 :=
  ((face.hIn.drop 4).reverse ++ face.es).getD t 0

/-- The equations of SHA-256 between the words of a face for a block. -/
structure Satisfies (face : Face) (block : List UInt8) : Prop where
  length_hIn : face.hIn.length = 8
  length_w : face.w.length = 64
  length_es : face.es.length = 64
  length_as : face.as.length = 64
  block_eq : ∀ t, t < 16 → face.w.getD t 0 = Sha2.blockWord block t
  schedule_eq : ∀ t, t < 48 → face.w.getD (t + 16) 0 =
    Sha2.smallSigma1 (face.w.getD (t + 14) 0) + face.w.getD (t + 9) 0 +
      Sha2.smallSigma0 (face.w.getD (t + 1) 0) + face.w.getD t 0
  round_eq : ∀ t, t < 64 →
    let t1 := face.e t + Sha2.bigSigma1 (face.e (t + 3)) +
      Sha2.ch (face.e (t + 3)) (face.e (t + 2)) (face.e (t + 1)) +
      Sha2.constant t + face.w.getD t 0
    let t2 := Sha2.bigSigma0 (face.a (t + 3)) +
      Sha2.maj (face.a (t + 3)) (face.a (t + 2)) (face.a (t + 1))
    face.e (t + 4) = face.a t + t1 ∧ face.a (t + 4) = t1 + t2
  hOut_eq : face.hOut = List.zipWith (· + ·) face.hIn
    [face.a 67, face.a 66, face.a 65, face.a 64, face.e 67, face.e 66,
      face.e 65, face.e 64]

/-- The face of a block after a hash value. -/
def of (hash : Sha2.State) (block : List UInt8) : Face where
  hIn := hashWords hash
  w := (List.range 64).map (Sha2.schedule block)
  es := (List.range 64).map fun t => Sha2.fifthWord block hash (t + 4)
  as := (List.range 64).map fun t => Sha2.firstWord block hash (t + 4)
  hOut := hashWords (Sha2.compress hash block)

theorem a_of (hash : Sha2.State) (block : List UInt8) {t : Nat}
    (ht : t < 68) : (of hash block).a t = Sha2.firstWord block hash t := by
  by_cases hfirst : t < 4
  · interval_cases t <;> rfl
  · obtain ⟨n, rfl⟩ : ∃ n, t = n + 4 := ⟨t - 4, by omega⟩
    exact getD_map_range (fun t => Sha2.firstWord block hash (t + 4))
      (by omega : n < 64)

theorem e_of (hash : Sha2.State) (block : List UInt8) {t : Nat}
    (ht : t < 68) : (of hash block).e t = Sha2.fifthWord block hash t := by
  by_cases hfirst : t < 4
  · interval_cases t <;> rfl
  · obtain ⟨n, rfl⟩ : ∃ n, t = n + 4 := ⟨t - 4, by omega⟩
    exact getD_map_range (fun t => Sha2.fifthWord block hash (t + 4))
      (by omega : n < 64)

theorem w_of (hash : Sha2.State) (block : List UInt8) {t : Nat}
    (ht : t < 64) : (of hash block).w.getD t 0 = Sha2.schedule block t :=
  getD_map_range (Sha2.schedule block) ht

/-- The face of a block has the words that the equations ask for. -/
theorem of_satisfies (hash : Sha2.State) (block : List UInt8) :
    (of hash block).Satisfies block where
  length_hIn := rfl
  length_w := by simp [of]
  length_es := by simp [of]
  length_as := by simp [of]
  block_eq t ht := by
    rw [w_of hash block (by omega), Sha2.schedule_of_lt block ht]
  schedule_eq t ht := by
    rw [w_of hash block (by omega), w_of hash block (by omega),
      w_of hash block (by omega), w_of hash block (by omega),
      w_of hash block (by omega), Sha2.schedule_add]
  round_eq t ht := by
    have hnext := Sha2.rounds_eq block hash (t + 1)
    rw [Sha2.rounds, Sha2.rounds_eq block hash t] at hnext
    rw [e_of hash block (by omega), e_of hash block (by omega),
      e_of hash block (by omega), e_of hash block (by omega),
      e_of hash block (by omega), a_of hash block (by omega),
      a_of hash block (by omega), a_of hash block (by omega),
      a_of hash block (by omega), a_of hash block (by omega),
      w_of hash block ht]
    exact ⟨(congrArg Sha2.State.e hnext).symm,
      (congrArg Sha2.State.a hnext).symm⟩
  hOut_eq := by
    rw [a_of hash block (by omega), a_of hash block (by omega),
      a_of hash block (by omega), a_of hash block (by omega),
      e_of hash block (by omega), e_of hash block (by omega),
      e_of hash block (by omega), e_of hash block (by omega)]
    change hashWords (Sha2.compress hash block) = _
    rw [Sha2.compress, Sha2.rounds_eq block hash 64]
    rfl

end Face

/-- The bit of a word at an index. -/
theorem bit_eq (v : UInt64) {j : Nat} (hj : j < 64) :
    ((v >>> UInt64.ofNat j) &&& 1).toUInt8 =
      if v.toNat.testBit j then 1 else 0 := by
  have hshift : (UInt64.ofNat j).toNat = j := by
    rw [UInt64.toNat_ofNat', Nat.mod_eq_of_lt (by omega)]
  have hvalue : ((v >>> UInt64.ofNat j) &&& 1).toNat =
      (v.toNat.testBit j).toNat := by
    rw [UInt64.toNat_and, UInt64.toNat_shiftRight, hshift,
      Nat.mod_eq_of_lt hj, UInt64.toNat_one, Nat.and_one_is_mod,
      Nat.toNat_testBit, Nat.shiftRight_eq_div_pow]
  apply UInt8.toNat_inj.mp
  rw [UInt64.toNat_toUInt8, hvalue]
  cases v.toNat.testBit j <;> rfl

theorem word_eq (out : List UInt8) (x : UInt32) :
    word out x.toUInt64 32 = out ++
      (List.range 32).map fun j => if x.toNat.testBit j then 1 else 0 := by
  rw [word]
  congr 1
  apply List.map_congr_left
  intro j hj
  have hj := List.mem_range.mp hj
  rw [bit_eq _ (by omega), UInt32.toNat_toUInt64]

theorem foldl_word_eq (words : List UInt32) (out : List UInt8) :
    words.foldl (fun out x => word out x.toUInt64 32) out = out ++
      words.flatMap fun x =>
        (List.range 32).map fun j => if x.toNat.testBit j then 1 else 0 := by
  induction words generalizing out with
  | nil => simp
  | cons x words ih =>
      rw [List.foldl_cons, ih, word_eq, List.flatMap_cons, List.append_assoc]

theorem stateOf_zipWith (state : Vector UInt32 8) (s : Working) :
    stateOf (state.zipWith (· + ·)
        #v[s.a, s.b, s.c, s.d, s.e, s.f, s.g, s.h]) =
      ⟨(stateOf state).a + s.a, (stateOf state).b + s.b,
        (stateOf state).c + s.c, (stateOf state).d + s.d,
        (stateOf state).e + s.e, (stateOf state).f + s.f,
        (stateOf state).g + s.g, (stateOf state).h + s.h⟩ := by
  simp [stateOf]

/-- Compressing a block is what the standard says, and appends its face. -/
theorem compress_eq_ok (state : Vector UInt32 8) {block : List UInt8}
    (hblock : block.length = 64) (face : Option (List UInt8)) :
    ∃ next, stateOf next = Sha2.compress (stateOf state) block ∧
      compress state block face = .ok (next, face.map fun out =>
        out ++ (Face.of (stateOf state) block).bits) := by
  obtain ⟨hstate, hes, has⟩ := run_eq (stateOf state) block (Nat.le_refl 64)
  have hrun : rounds state (schedule block) = run (stateOf state) block 64 := by
    rw [schedule_eq hblock]
    rfl
  rw [← hrun] at hstate hes has
  have hschedule := schedule_eq hblock
  generalize hw : schedule block = w at *
  generalize hs : rounds state w = s at *
  have hnext := stateOf_zipWith state s
  generalize hstep : state.zipWith (· + ·)
    #v[s.a, s.b, s.c, s.d, s.e, s.f, s.g, s.h] = next at *
  have hcompress : stateOf next = Sha2.compress (stateOf state) block := by
    rw [hnext, Sha2.compress, ← hstate]
    rfl
  have hwords : state.toList ++ w ++ s.es ++ s.as ++ next.toList =
      (Face.of (stateOf state) block).words := by
    rw [toList_eq, toList_eq, hcompress, hes, has, hschedule]
    rfl
  have hface (out : List UInt8) :
      (state.toList ++ w ++ s.es ++ s.as ++ next.toList).foldl
        (fun out x => word out x.toUInt64 32) out =
      out ++ (Face.of (stateOf state) block).bits := by
    rw [foldl_word_eq, hwords]
    rfl
  refine ⟨next, hcompress, ?_⟩
  rw [← funext hface]
  unfold compress
  rw [assert_of hblock, ok_bind]
  simp only [hw, hs, hstep]
  rfl

theorem length_bits {face : Face} {block : List UInt8}
    (h : face.Satisfies block) : face.bits.length = 208 * 32 := by
  have hwords : face.words.length = 208 := by
    have hout := congrArg List.length h.hOut_eq
    rw [List.length_zipWith, h.length_hIn] at hout
    simp only [Face.words, List.length_append, h.length_hIn, h.length_w,
      h.length_es, h.length_as, hout]
    rfl
  rw [Face.bits, List.length_flatMap]
  simp only [List.length_map, List.length_range]
  rw [List.map_const', List.sum_replicate, hwords]
  rfl

end Face

section Faces

/-- The faces of the first blocks of a padded message, from the initial
value. -/
def chainFace (p : List UInt8) (i : Nat) : Face :=
  Face.of (Sha2.chain p i) (Sha2.block p i)

theorem facesPadded_eq_ok (p out : List UInt8) :
    ∃ last, stateOf last = Sha2.chain p (p.length / 64) ∧
      facesPadded p iv out = .ok (last, out ++
        (List.range (p.length / 64)).flatMap fun i => (chainFace p i).bits) := by
  have hfold : ∀ n, n ≤ p.length / 64 → ∃ last,
      stateOf last = Sha2.chain p n ∧
        ((List.range n).map (Sha2.block p)).foldlM
          (fun (state, out) block => do
            let (state, face) ← compress state block (some out)
            pure (state, face.getD out)) (iv, out) =
          Except.ok (ε := Fault) (last, out ++
            (List.range n).flatMap fun i => (chainFace p i).bits) := by
    intro n
    induction n with
    | zero =>
        intro _
        exact ⟨iv, stateOf_iv, by simp⟩
    | succ n ih =>
        intro hn
        obtain ⟨last, hlast, hrun⟩ := ih (Nat.le_of_succ_le hn)
        have hblock : (Sha2.block p n).length = 64 := by
          rw [Sha2.block, List.length_take, List.length_drop]
          omega
        obtain ⟨next, hnext, hcompress⟩ := compress_eq_ok last hblock
          (some (out ++ (List.range n).flatMap fun i => (chainFace p i).bits))
        refine ⟨next, by rw [hnext, hlast, Sha2.chain], ?_⟩
        rw [List.range_succ, List.map_append, List.foldlM_append, hrun, ok_bind,
          List.map_singleton, List.foldlM_cons]
        simp only [hcompress, ok_bind, Option.map_some, Option.getD_some, hlast]
        simp [chainFace]
  rw [facesPadded, chunks_eq]
  exact hfold _ le_rfl

/-- The padding of the standard, with zeros after it. -/
def padded (m : List UInt8) (blocks : Nat) : List UInt8 :=
  Sha2.pad m ++ List.replicate (64 * blocks - (Sha2.pad m).length) 0

theorem length_padded {m : List UInt8} {blocks : Nat}
    (hfit : m.length + 9 ≤ 64 * blocks) :
    (padded m blocks).length = 64 * blocks := by
  have hlength := Sha2.length_pad m
  rw [padded, List.length_append, List.length_replicate]
  omega

theorem copyFromSlice_append (a b c bytes : List UInt8)
    (hlength : b.length = bytes.length) :
    copyFromSlice (a ++ b ++ c) a.length bytes = .ok (a ++ bytes ++ c) := by
  have hbound : a.length + bytes.length ≤ (a ++ b ++ c).length := by
    simp only [List.length_append]
    omega
  have hdrop : (a ++ b ++ c).drop (a.length + bytes.length) = c := by
    rw [← hlength, ← List.length_append, List.drop_left]
  rw [copyFromSlice, assert_of hbound, ok_bind, hdrop, List.append_assoc a b,
    List.take_left]
  rfl

/-- The message, the byte after it and the length are written to an array of
zeros. -/
theorem pad_eq_ok {m : List UInt8} {blocks : Nat}
    (hfit : m.length + 9 ≤ 64 * blocks) (hsize : 64 * blocks ≤ isizeMax) :
    pad m blocks = .ok (some (padded m blocks)) := by
  have husize : isizeMax < usizeMax := by decide
  have hzeros := (Sha2.zeros_least m.length).1
  have hfull : (m.length + 9 + 63) / 64 * 64 =
      m.length + 1 + Sha2.zeros m.length + 8 := by
    rw [Sha2.zeros]
    omega
  have hlength := Sha2.length_pad m
  set rest := 64 * blocks - (Sha2.pad m).length with hrest
  have hout : List.replicate (64 * blocks) (0 : UInt8) =
      [] ++ List.replicate m.length 0 ++
        (0 :: List.replicate (Sha2.zeros m.length) 0 ++ List.replicate 8 0 ++
          List.replicate rest 0) := by
    rw [List.nil_append, ← List.replicate_succ, List.replicate_append_replicate,
      List.replicate_append_replicate, List.replicate_append_replicate]
    congr 1
    omega
  have hmark : update ([] ++ m ++
      (0 :: List.replicate (Sha2.zeros m.length) 0 ++ List.replicate 8 0 ++
        List.replicate rest 0)) m.length (fun _ => 0x80) =
      .ok ((m ++ 0x80 :: List.replicate (Sha2.zeros m.length) 0) ++
        List.replicate 8 0 ++ List.replicate rest 0) := by
    rw [update_of_lt (by simp), List.nil_append, List.set_append_right _ _
      le_rfl, Nat.sub_self]
    simp
  have hposition : (m.length + 9 + 63) / 64 * 64 - 8 =
      (m ++ 0x80 :: List.replicate (Sha2.zeros m.length) (0 : UInt8)).length := by
    rw [hfull, List.length_append, List.length_cons, List.length_replicate]
    omega
  rw [pad]
  simp only [if_neg (show ¬ usizeMax < 64 * blocks by omega),
    if_neg (show ¬ usizeMax < m.length + 9 by omega),
    if_neg (show ¬ 64 * blocks < m.length + 9 by omega)]
  rw [assert_of hsize, ok_bind, hout]
  have hcopy := copyFromSlice_append [] (List.replicate m.length 0)
    (0 :: List.replicate (Sha2.zeros m.length) 0 ++ List.replicate 8 0 ++
      List.replicate rest 0) m List.length_replicate
  rw [List.length_nil] at hcopy
  rw [hcopy, ok_bind, hmark, ok_bind, hposition, copyFromSlice_append _ _ _ _
    (by rw [List.length_replicate, List.length_reverse, Bytes.length_leBytes]),
    ok_bind]
  rfl

theorem pad_eq_none {m : List UInt8} {blocks : Nat}
    (hfit : 64 * blocks < m.length + 9) : pad m blocks = .ok none := by
  rw [pad]
  by_cases hn : usizeMax < 64 * blocks
  · simp only [if_pos hn]
    rfl
  · by_cases hm : usizeMax < m.length + 9
    · simp only [if_neg hn, if_pos hm]
      rfl
    · simp only [if_neg hn, if_neg hm, if_pos hfit]
      rfl

/-- There is no padded message of a size that cannot be allocated. -/
theorem pad_too_large {m : List UInt8} {blocks : Nat}
    (hsize : isizeMax < 64 * blocks) (p : List UInt8) :
    pad m blocks ≠ .ok (some p) := by
  intro h
  rw [pad] at h
  by_cases hn : usizeMax < 64 * blocks
  · simp only [if_pos hn] at h
    cases h
  · by_cases hm : usizeMax < m.length + 9
    · simp only [if_neg hn, if_pos hm] at h
      cases h
    · by_cases hfit : 64 * blocks < m.length + 9
      · simp only [if_neg hn, if_neg hm, if_pos hfit] at h
        cases h
      · simp only [if_neg hn, if_neg hm, if_neg hfit] at h
        obtain ⟨_, hassert, _⟩ := Exec.bind_eq_ok.mp h
        have hle := assert_eq_ok.mp hassert
        omega

/-- A size that does not fit the machine word is refused, whatever the message
is. -/
theorem pad_overflow :
    ([] : List UInt8).length + 9 ≤ 64 * 2 ^ 58 ∧
      pad [] (2 ^ 58) = .ok none := by
  have hle : ([] : List UInt8).length + 9 ≤ 64 * 2 ^ 58 := by decide
  have hn : usizeMax < 64 * 2 ^ 58 := by decide
  refine ⟨hle, ?_⟩
  rw [pad]
  simp only [if_pos hn]
  rfl

/-- The hash value after the last block of the message is its hash. -/
theorem digest_chain_padded {m : List UInt8} {blocks : Nat} :
    Sha2.digest (Sha2.chain (padded m blocks) ((m.length + 9 + 63) / 64)) =
      Sha2.sha256 m := by
  have hlength := Sha2.length_pad m
  have hblocks : (Sha2.pad m).length / 64 = (m.length + 9 + 63) / 64 := by
    omega
  rw [padded, Sha2.chain_append _ _ (by omega), Sha2.sha256, hblocks]

theorem compress_processBlock (hash : HashValue) {block : List UInt8}
    (hblock : block.length = 64) (face : Option (List UInt8)) :
    ∃ next face', compress #v[hash.a, hash.b, hash.c, hash.d, hash.e, hash.f,
        hash.g, hash.h] block face = .ok (next, face') ∧
      stateOf next = (processBlock hash block).words := by
  obtain ⟨next, hnext, hcompress⟩ := compress_eq_ok
    #v[hash.a, hash.b, hash.c, hash.d, hash.e, hash.f, hash.g, hash.h]
    hblock face
  exact ⟨next, _, hcompress, hnext.trans (processBlock_words hash block).symm⟩

/-- Padding succeeds for a message that fits in blocks that can be allocated,
and is then the standard's with zeros after it. The faces are as many bits as
they should be, they satisfy the equations of the standard, each starts where
the one before it ends, and the one of the last block of the message ends with
its hash. The compression function is the one of the credential circuits. -/
theorem faces_chain (m : List UInt8) (blocks : Nat) (out : List UInt8) :
    ((∃ p, pad m blocks = .ok (some p)) ↔
        m.length + 9 ≤ 64 * blocks ∧ 64 * blocks ≤ isizeMax) ∧
      (64 * blocks < m.length + 9 → pad m blocks = .ok none) ∧
      (∀ p, pad m blocks = .ok (some p) →
        p = Sha2.pad m ++
            List.replicate (64 * blocks - (Sha2.pad m).length) 0 ∧
          ∃ (face : Nat → Face) (bits : List UInt8),
            bits = (List.range blocks).flatMap (fun i => (face i).bits) ∧
            bits.length = blocks * 208 * 32 ∧
            (facesPadded p iv out).map Prod.snd = .ok (out ++ bits) ∧
            faces m blocks out = .ok (some (out ++ bits)) ∧
            (face 0).hIn = iv.toList ∧
            (∀ i, i < blocks → (face i).Satisfies (Sha2.block p i) ∧
              (face (i + 1)).hIn = (face i).hOut) ∧
            (face ((m.length + 9 + 63) / 64 - 1)).hOut.flatMap toBeBytes =
              Sha2.sha256 m) ∧
      ∀ (hash : HashValue) (block : List UInt8), block.length = 64 →
        ∀ face, ∃ next face', compress #v[hash.a, hash.b, hash.c, hash.d,
            hash.e, hash.f, hash.g, hash.h] block face = .ok (next, face') ∧
          stateOf next = (processBlock hash block).words := by
  have hpadded {p : List UInt8} (h : pad m blocks = .ok (some p)) :
      (m.length + 9 ≤ 64 * blocks ∧ 64 * blocks ≤ isizeMax) ∧
        p = padded m blocks := by
    have hfit : m.length + 9 ≤ 64 * blocks := by
      by_contra hnot
      rw [pad_eq_none (Nat.not_le.mp hnot)] at h
      cases h
    have hsize : 64 * blocks ≤ isizeMax := by
      by_contra hnot
      exact pad_too_large (Nat.not_le.mp hnot) p h
    rw [pad_eq_ok hfit hsize] at h
    cases h
    exact ⟨⟨hfit, hsize⟩, rfl⟩
  refine ⟨⟨fun ⟨p, h⟩ => (hpadded h).1,
    fun ⟨hfit, hsize⟩ => ⟨_, pad_eq_ok hfit hsize⟩⟩, pad_eq_none,
    fun p h => ?_, fun hash block hblock face =>
      compress_processBlock hash hblock face⟩
  obtain ⟨⟨hfit, hsize⟩, rfl⟩ := hpadded h
  have hlength : (padded m blocks).length / 64 = blocks := by
    rw [length_padded hfit]
    omega
  obtain ⟨last, hlast, hfaces⟩ := facesPadded_eq_ok (padded m blocks) out
  rw [hlength] at hfaces
  refine ⟨rfl, chainFace (padded m blocks), _, rfl, ?_, ?_, ?_, ?_,
    fun i hi => ⟨Face.of_satisfies _ _, rfl⟩, ?_⟩
  · rw [List.length_flatMap]
    simp only [chainFace, length_bits (Face.of_satisfies _ _)]
    rw [List.map_const', List.sum_replicate, List.length_range]
    simp [Nat.mul_assoc]
  · rw [hfaces]
    rfl
  · rw [faces, h, ok_bind]
    simp only [hfaces, ok_bind]
    rfl
  · rw [toList_eq, stateOf_iv]
    rfl
  · have hlast : (m.length + 9 + 63) / 64 =
        (m.length + 9 + 63) / 64 - 1 + 1 := by omega
    rw [← @digest_chain_padded m blocks, hlast]
    rfl

end Faces

end Longfellow.Nymauth.Sha
