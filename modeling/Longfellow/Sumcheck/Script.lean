/-
The run of the protocol as a function of the messages: the challenges that a
transcript answers them with, and the constraints that follow. Both roles run
this script on the messages of the proof.
-/
import Longfellow.Sumcheck.Protocol

namespace Longfellow

open Exec Multilinear SparseSumcheckArray

namespace Transcript

variable {F : Type} [CodecFieldElement F] [Primitives] [SamplesField F]

/-- Generate a challenge of a single field element. -/
def challenge (F : Type) [CodecFieldElement F] [SamplesField F]
    (transcript : Transcript) : F × Transcript :=
  let (x, fsprf) := FiatShamirPseudoRandomFunction.sample
    (SamplesField.accepts (F := F)) transcript.getCurrentFsprf
  (x, { transcript with currentFsprf := some fsprf })

theorem generateChallenge_one (transcript : Transcript) :
    transcript.generateChallenge F 1 =
      ([(transcript.challenge F).1], (transcript.challenge F).2) := rfl

/-- The challenges that answer the polynomials of a layer. -/
def draw : List (Sumcheck.Polynomial F) → Transcript → List F × Transcript
  | [], transcript => ([], transcript)
  | message :: messages, transcript =>
      let (x, transcript) := (transcript.writePolynomial message).challenge F
      let (xs, transcript) := draw messages transcript
      (x :: xs, transcript)

theorem draw_concat (messages : List (Sumcheck.Polynomial F))
    (message : Sumcheck.Polynomial F) (transcript : Transcript) :
    draw (messages ++ [message]) transcript =
      ((draw messages transcript).1 ++
        [(((draw messages transcript).2.writePolynomial message).challenge F).1],
      (((draw messages transcript).2.writePolynomial message).challenge F).2) := by
  induction messages generalizing transcript with
  | nil => rfl
  | cons m ms ih => simp [draw, ih]

theorem length_draw (messages : List (Sumcheck.Polynomial F))
    (transcript : Transcript) :
    (draw messages transcript).1.length = messages.length := by
  induction messages generalizing transcript with
  | nil => rfl
  | cons m ms ih => simp [draw, ih]

end Transcript

namespace Sumcheck

/-- The hand of a round, when both hands are counted. -/
def handAt (k : Nat) : Hand := if k % 2 = 0 then .left else .right

theorem handAt_succ (k : Nat) : handAt (k + 1) = (handAt k).opposite := by
  unfold handAt
  rcases Nat.mod_two_eq_zero_or_one k with hk | hk
  · have hsucc : (k + 1) % 2 = 1 := by omega
    simp [hk, hsucc, Hand.opposite]
  · have hsucc : (k + 1) % 2 = 0 := by omega
    simp [hk, hsucc, Hand.opposite]

theorem two_mul_add_handAt (k : Nat) : 2 * (k / 2) + (handAt k).toNat = k := by
  unfold handAt
  split <;> simp only [Hand.toNat] <;> omega

theorem length_rounds (logw : Nat) : (rounds logw).length = 2 * logw := by
  simp [rounds, List.length_flatMap, Nat.mul_comm]

theorem getElem_rounds {logw k : Nat} (hk : k < (rounds logw).length) :
    (rounds logw)[k] = (k / 2, handAt k) := by
  have hsome : ∀ logw, k < 2 * logw →
      (rounds logw)[k]? = some (k / 2, handAt k) := by
    intro logw
    induction logw with
    | zero => omega
    | succ n ih =>
        intro hk
        have hsplit : rounds (n + 1) =
            rounds n ++ [(n, .left), (n, .right)] := by
          simp [rounds, List.range_succ]
        rw [hsplit]
        rcases lt_or_ge k (2 * n) with hlt | hge
        · rw [List.getElem?_append_left (by rwa [length_rounds]), ih hlt]
        · rw [List.getElem?_append_right (by rwa [length_rounds]),
            length_rounds]
          rcases (by omega : k = 2 * n ∨ k = 2 * n + 1) with rfl | rfl
          · simp [handAt]
          · have hhalf : (2 * n + 1) / 2 = n := by omega
            simp [handAt, hhalf, Nat.add_mod]
  have hlt : k < 2 * logw := by rwa [length_rounds] at hk
  exact Option.some.inj ((List.getElem?_eq_getElem hk).symm.trans
    (hsome logw hlt))

section Deal

variable {α : Type}

/-- The challenges of one hand, when the hands take turns and the left one
begins. -/
def deal : Hand → List α → List α
  | _, [] => []
  | .left, x :: xs => x :: deal .right xs
  | .right, _ :: xs => deal .left xs

theorem length_deal (hand : Hand) (xs : List α) :
    (deal hand xs).length = (xs.length + 1 - hand.toNat) / 2 := by
  induction xs generalizing hand with
  | nil => cases hand <;> simp [deal, Hand.toNat]
  | cons x xs ih =>
      cases hand
      · simp only [deal, List.length_cons, ih, Hand.toNat]
        omega
      · simp only [deal, List.length_cons, ih, Hand.toNat]
        omega

theorem deal_concat (hand : Hand) (xs : List α) (x : α) :
    deal hand (xs ++ [x]) =
      if handAt xs.length = hand then deal hand xs ++ [x] else deal hand xs := by
  induction xs generalizing hand with
  | nil => cases hand <;> rfl
  | cons y ys ih =>
      rw [List.cons_append, List.length_cons, handAt_succ]
      cases hand with
      | left =>
          simp only [deal, ih]
          cases handAt ys.length <;> simp [Hand.opposite]
      | right =>
          simp only [deal, ih]
          cases handAt ys.length <;> simp [Hand.opposite]

end Deal

section Quad

variable {F : Type} [Field F]

/-- Bind the hands in turn. -/
def boundAll : Hand → List F → List (SparseQuadElement F) →
    List (SparseQuadElement F)
  | _, [], elements => elements
  | hand, x :: xs, elements =>
      boundAll hand.opposite xs (bound hand x elements)

theorem boundAll_concat (xs : List F) (x : F)
    (elements : List (SparseQuadElement F)) :
    boundAll .left (xs ++ [x]) elements =
      bound (handAt xs.length) x (boundAll .left xs elements) := by
  have hgeneral : ∀ (ys : List F) (j : Nat)
      (elements : List (SparseQuadElement F)),
      boundAll (handAt j) (ys ++ [x]) elements =
        bound (handAt (j + ys.length)) x (boundAll (handAt j) ys elements) := by
    intro ys
    induction ys with
    | nil => intro j elements; rfl
    | cons y ys ih =>
        intro j elements
        have hrest := ih (j + 1) (bound (handAt j) y elements)
        rw [handAt_succ] at hrest
        simp only [List.cons_append, boundAll, List.length_cons]
        rw [hrest, Nat.add_assoc, Nat.add_comm 1]
  have h := hgeneral xs 0 elements
  rwa [Nat.zero_add] at h

/-- Read a function of the fully bound wires as one of the wires before. -/
def pullAll : Hand → List F → (Hands Nat → F) → Hands Nat → F
  | _, [], f => f
  | hand, x :: xs, f => pull hand x (pullAll hand.opposite xs f)

theorem denote_boundAll (hand : Hand) (xs : List F)
    (elements : List (SparseQuadElement F)) (f : Hands Nat → F) :
    denote (boundAll hand xs elements) f =
      denote elements (pullAll hand xs f) := by
  induction xs generalizing hand elements with
  | nil => rfl
  | cons x xs ih => rw [boundAll, ih, denote_bound, pullAll]

/-- The indicator of the pair of wires that is all zero. -/
def atZero (w : Hands Nat) : F := if w = ⟨0, 0⟩ then 1 else 0

theorem pullAll_atZero (xs : List F) (w : Hands Nat) :
    pullAll .left xs atZero w =
      eqWeight (deal .left xs) w.left * eqWeight (deal .right xs) w.right := by
  have hboth : ∀ w : Hands Nat,
      pullAll .left xs atZero w =
        eqWeight (deal .left xs) w.left * eqWeight (deal .right xs) w.right ∧
      pullAll .right xs atZero w =
        eqWeight (deal .right xs) w.left * eqWeight (deal .left xs) w.right := by
    induction xs with
    | nil =>
        intro w
        have hzero : (atZero w : F) =
            eqWeight [] w.left * eqWeight [] w.right := by
          obtain ⟨l, r⟩ := w
          by_cases hl : l = 0 <;> by_cases hr : r = 0 <;>
            simp [atZero, eqWeight, hl, hr]
        exact ⟨hzero, hzero⟩
    | cons x xs ih =>
        intro w
        constructor
        · have hrest := (ih (w.set .left (w.left / 2))).2
          simp only [pullAll, pull, Hand.opposite, Hands.get, deal, eqWeight]
          rw [hrest]
          simp only [Hands.set]
          ring
        · have hrest := (ih (w.set .right (w.right / 2))).1
          simp only [pullAll, pull, Hand.opposite, Hands.get, deal, eqWeight]
          rw [hrest]
          simp only [Hands.set]
          ring
  exact (hboth w).1

/-- An array stays aligned as its hands are bound in turn. -/
theorem aligned_boundAll {elements : List (SparseQuadElement F)} {logw : Nat}
    (h : Aligned .left 128 logw logw elements) (hlogw : logw ≤ 64)
    (xs : List F) (hxs : xs.length ≤ 2 * logw) :
    Aligned (handAt xs.length) (128 - xs.length)
      (logw - xs.length / 2) (logw - (xs.length + 1) / 2)
      (boundAll .left xs elements) := by
  induction xs using List.reverseRecOn with
  | nil => simpa [handAt, boundAll] using h
  | append_singleton xs x ih =>
      rw [List.length_append, List.length_singleton] at hxs ⊢
      have hprev := ih (by omega)
      have hn : 128 - xs.length = 128 - (xs.length + 1) + 1 := by omega
      have ha : logw - xs.length / 2 =
          logw - (xs.length + 1 + 1) / 2 + 1 := by omega
      rw [hn, ha] at hprev
      rw [boundAll_concat, handAt_succ]
      exact hprev.bound x

/-- All rounds leave a single element behind. -/
theorem aligned_end {elements : List (SparseQuadElement F)} {logw : Nat}
    (h : Aligned .left 128 logw logw elements) (hlogw : logw ≤ 64)
    {xs : List F} (hxs : xs.length = 2 * logw) :
    Aligned (handAt (2 * logw)) (128 - 2 * logw) 0 0
      (boundAll .left xs elements) := by
  have hall := aligned_boundAll h hlogw xs hxs.le
  have hzero : logw - 2 * logw / 2 = 0 := by omega
  have hzero' : logw - (2 * logw + 1) / 2 = 0 := by omega
  rwa [hxs, hzero, hzero'] at hall

theorem denote_single (coefficient : F) :
    denote [⟨0, 0, 0, coefficient⟩] atZero = coefficient := by
  simp [denote, atZero, SparseQuadElement.wires]

end Quad

section Claim

variable {F : Type} [Field F] [ProofFieldElement F]

/-- The first of the polynomial witnesses of a layer. -/
def polynomialBase (layout : WitnessLayout) (layer : Nat) : Nat :=
  layout.numPrivateInputs + layer * 3 + 2 * 2 * (layout.logw.take layer).sum

theorem polynomialStart_eq (layout : WitnessLayout) (layer k : Nat) :
    layout.polynomialStart layer (k / 2) (handAt k) =
      polynomialBase layout layer + 2 * k := by
  have hturn := two_mul_add_handAt k
  rw [WitnessLayout.polynomialStart, polynomialBase]
  omega

theorem sum_take_succ {xs : List Nat} {i : Nat} (hi : i < xs.length) :
    (xs.take (i + 1)).sum = (xs.take i).sum + xs[i] := by
  rw [List.take_add_one, List.getElem?_eq_getElem hi, List.sum_append]
  simp

theorem sum_take_le (xs : List Nat) (i : Nat) : (xs.take i).sum ≤ xs.sum := by
  have h := List.sum_take_add_sum_drop xs i
  omega

theorem wireStart_add_two_lt {layout : WitnessLayout} {i : Nat}
    (hi : i < layout.logw.length) : layout.wireStart i + 2 < layout.length := by
  have hle := sum_take_le layout.logw (i + 1)
  simp only [WitnessLayout.wireStart, WitnessLayout.length]
  omega

theorem wireStart_eq {layout : WitnessLayout} {i : Nat}
    (hi : i < layout.logw.length) :
    layout.wireStart i = polynomialBase layout i + 4 * layout.logw[i] := by
  rw [WitnessLayout.wireStart, polynomialBase, sum_take_succ hi]
  ring

/-- The claim after the rounds that exchanged these messages and
challenges. -/
def claimScript (base : Nat) (claim : SymbolicExpression F)
    (messages : List (Sumcheck.Polynomial F × F)) : SymbolicExpression F :=
  messages.zipIdx.foldl (fun claim (message, k) =>
    updateClaim claim message.1 (base + 2 * k) (base + 2 * k + 1) message.2)
    claim

theorem claimScript_concat (base : Nat) (claim : SymbolicExpression F)
    (messages : List (Sumcheck.Polynomial F × F))
    (message : Sumcheck.Polynomial F × F) :
    claimScript base claim (messages ++ [message]) =
      updateClaim (claimScript base claim messages) message.1
        (base + 2 * messages.length) (base + 2 * messages.length + 1)
        message.2 := by
  simp [claimScript, List.zipIdx_append]

/-- The claim at the start of a layer. -/
def startClaim (layout : WitnessLayout) (layerIndex : Nat) (claims : Hands F)
    (alpha : F) : SymbolicExpression F :=
  let claim := SymbolicExpression.new layerIndex
  let claim0 := Term.fromKnown claims.left
  let claim1 := (Term.fromKnown claims.right).mul alpha
  if 0 < layerIndex then
    let start := layout.wireStart (layerIndex - 1)
    (claim.add (claim0.withWitness start)).add (claim1.withWitness (start + 1))
  else (claim.add claim0).add claim1

omit [ProofFieldElement F] in
theorem initialClaim_eq_ok {layout : WitnessLayout} {layerIndex : Nat}
    (h : layerIndex ≤ layout.logw.length) (claims : Hands F) (alpha : F) :
    initialClaim layout layerIndex claims alpha =
      .ok (startClaim layout layerIndex claims alpha) := by
  unfold initialClaim startClaim
  by_cases hpos : 0 < layerIndex
  · have hlt : layerIndex - 1 < layout.logw.length := by omega
    simp [hpos, WitnessLayout.wireWitnessIndices, hlt]
  · simp [hpos]

end Claim

section Pad

variable {F : Type} [Field F]

/-- An array of `n` elements that starts with these. -/
def padTo (n : Nat) (xs : List F) : List F :=
  xs ++ List.replicate (n - xs.length) 0

theorem padTo_of_length {n : Nat} {xs : List F} (h : xs.length = n) :
    padTo n xs = xs := by
  simp [padTo, h]

theorem update_padTo {n : Nat} {xs : List F} (h : xs.length < n) (x : F) :
    update (padTo n xs) xs.length (fun _ => x) = .ok (padTo n (xs ++ [x])) := by
  have hsucc : n - xs.length = n - (xs.length + 1) + 1 := by omega
  rw [update_of_lt (by simp [padTo]; omega), padTo, padTo,
    List.set_append_right _ _ le_rfl, hsucc, List.replicate_succ]
  simp

end Pad

section Rounds

variable {F : Type} [Field F] [DecidableEq F] [ProofFieldElement F]
  [Primitives] [SamplesField F]

/-- What the rounds of a layer start from. -/
structure RoundStart (F : Type) where
  layerIndex : Nat
  logw : Nat
  transcript : Transcript
  elements : List (SparseQuadElement F)
  claim : SymbolicExpression F

/-- The challenges that answer the messages of a layer so far. -/
def RoundStart.challenges (start : RoundStart F)
    (messages : List (Sumcheck.Polynomial F)) : List F :=
  (Transcript.draw messages start.transcript).1

omit [Field F] [DecidableEq F] in
theorem RoundStart.length_challenges (start : RoundStart F)
    (messages : List (Sumcheck.Polynomial F)) :
    (start.challenges messages).length = messages.length :=
  Transcript.length_draw messages start.transcript

/-- The state after the rounds that sent these messages. -/
def roundState (layout : WitnessLayout) (start : RoundStart F)
    (messages : List (Sumcheck.Polynomial F)) (role : ProtocolRole F) :
    RoundState F :=
  let challenges := start.challenges messages
  { transcript := (Transcript.draw messages start.transcript).2
    role
    quad := ⟨boundAll .left challenges start.elements⟩
    newBindings :=
      { left := padTo start.logw (deal .left challenges)
        right := padTo start.logw (deal .right challenges) }
    layerClaim := claimScript (polynomialBase layout start.layerIndex)
      start.claim (messages.zip challenges) }

/-- The challenge that answers the next message of a layer. -/
def RoundStart.nextChallenge (start : RoundStart F)
    (messages : List (Sumcheck.Polynomial F))
    (message : Sumcheck.Polynomial F) : F :=
  (((Transcript.draw messages start.transcript).2.writePolynomial
    message).challenge F).1

omit [Field F] [DecidableEq F] in
theorem RoundStart.challenges_concat (start : RoundStart F)
    (messages : List (Sumcheck.Polynomial F))
    (message : Sumcheck.Polynomial F) :
    start.challenges (messages ++ [message]) =
      start.challenges messages ++ [start.nextChallenge messages message] := by
  rw [challenges, Transcript.draw_concat]
  rfl

/-- The layout has a layer with this many rounds. -/
def RoundStart.Fits (start : RoundStart F) (layout : WitnessLayout) : Prop :=
  layout.logw[start.layerIndex]? = some start.logw

omit [DecidableEq F] in
/-- A round sends a message, binds the wires of the role to its challenge, and
goes on with one more message. -/
theorem runRound_eq {layout : WitnessLayout} {start : RoundStart F}
    (hfits : start.Fits layout) {messages : List (Sumcheck.Polynomial F)}
    (hlt : messages.length < 2 * start.logw)
    (hgate : ∀ e ∈ boundAll .left (start.challenges messages) start.elements,
      e.gateIndex = 0) (role : ProtocolRole F) :
    runRound layout start.layerIndex (roundState layout start messages role)
        (messages.length / 2, handAt messages.length) =
      (roundPolynomial role
        ⟨boundAll .left (start.challenges messages) start.elements⟩
        start.layerIndex (messages.length / 2) (handAt messages.length) >>=
      fun sent => bindWires sent.2 start.layerIndex (handAt messages.length)
          (start.nextChallenge messages sent.1) >>=
        fun role => .ok (roundState layout start (messages ++ [sent.1])
          role)) := by
  obtain ⟨hi, hlogw⟩ := List.getElem?_eq_some_iff.mp hfits
  set hand := handAt messages.length with hhand
  set challenges := start.challenges messages with hchallenges
  have hlength : challenges.length = messages.length :=
    start.length_challenges messages
  have hposition : (deal hand challenges).length = messages.length / 2 := by
    rw [length_deal, hlength, hhand, handAt]
    split <;> simp only [Hand.toNat] <;> omega
  have hupdate (x : F) : update ((roundState layout start messages
      role).newBindings.get hand) (messages.length / 2) (fun _ => x) =
      .ok (padTo start.logw (deal hand challenges ++ [x])) := by
    have hget : (roundState layout start messages role).newBindings.get hand =
        padTo start.logw (deal hand challenges) := by
      cases hand <;> rfl
    rw [hget, ← hposition]
    exact update_padTo (by omega) x
  have hbind (x : F) : (⟨boundAll .left challenges start.elements⟩ :
      SparseSumcheckArray F).bindHand hand x =
      .ok ⟨boundAll .left (challenges ++ [x]) start.elements⟩ := by
    rw [bindHand_eq_ok hgate, boundAll_concat, hlength]
  have hindices : layout.polynomialWitnessIndices start.layerIndex
      (messages.length / 2) hand =
      .ok (polynomialBase layout start.layerIndex + 2 * messages.length,
        polynomialBase layout start.layerIndex + 2 * messages.length + 1) := by
    have hround : messages.length / 2 < start.logw := by omega
    rw [WitnessLayout.polynomialWitnessIndices, assert_of hi, ok_bind,
      index_of_lt hi, ok_bind, hlogw, assert_of hround, ok_bind, hhand,
      polynomialStart_eq]
    rfl
  have hnext (message : Sumcheck.Polynomial F) (role2 : ProtocolRole F) :
      roundState layout start (messages ++ [message]) role2 =
      { transcript := (((Transcript.draw messages
          start.transcript).2.writePolynomial message).challenge F).2
        role := role2
        quad := ⟨boundAll .left (challenges ++
          [start.nextChallenge messages message]) start.elements⟩
        newBindings := (roundState layout start messages role).newBindings.set
          hand (padTo start.logw (deal hand challenges ++
            [start.nextChallenge messages message]))
        layerClaim := updateClaim (roundState layout start messages
          role).layerClaim message
          (polynomialBase layout start.layerIndex + 2 * messages.length)
          (polynomialBase layout start.layerIndex + 2 * messages.length + 1)
          (start.nextChallenge messages message) } := by
    rw [roundState, start.challenges_concat, ← hchallenges]
    rw [RoundState.mk.injEq]
    refine ⟨by rw [Transcript.draw_concat], rfl, rfl, ?_, ?_⟩
    · rw [deal_concat, deal_concat, hlength, ← hhand]
      cases hand <;> rfl
    · have hzip : (messages ++ [message]).zip
          (challenges ++ [start.nextChallenge messages message]) =
          messages.zip challenges ++
            [(message, start.nextChallenge messages message)] :=
        List.zip_append hlength.symm
      have hziplength : (messages.zip challenges).length = messages.length := by
        simp [hlength]
      rw [hzip, claimScript_concat, hziplength]
      rfl
  rw [runRound]
  refine congrArg (roundPolynomial role _ _ _ _ >>= ·) (funext fun sent => ?_)
  obtain ⟨message, role1⟩ := sent
  simp only [Transcript.generateChallenge_one]
  change (do
    let challenge ← index [start.nextChallenge messages message] 0
    _) = _
  rw [index_of_lt (by simp), ok_bind]
  simp only [List.getElem_cons_zero]
  rw [hupdate, ok_bind]
  refine congrArg (bindWires role1 _ _ _ >>= ·) (funext fun role2 => ?_)
  change (do
    let quad ← (⟨boundAll .left challenges start.elements⟩ :
      SparseSumcheckArray F).bindHand hand
        (start.nextChallenge messages message)
    _) = _
  rw [hbind, ok_bind, hindices, ok_bind, hnext]
  rfl

omit [DecidableEq F] in
/-- All rounds of a layer: what a role keeps from message to message holds
after the last. -/
theorem runRounds_holds (J : Judgement) {layout : WitnessLayout}
    {start : RoundStart F} (hfits : start.Fits layout)
    (hlogw : start.logw ≤ 64)
    (haligned : Aligned .left 128 start.logw start.logw start.elements)
    {keeps : List (Sumcheck.Polynomial F) → ProtocolRole F → Prop}
    {role : ProtocolRole F} (hstart : keeps [] role)
    (hround : ∀ messages role, messages.length < 2 * start.logw →
      keeps messages role →
      J.holds
        (roundPolynomial role
          ⟨boundAll .left (start.challenges messages) start.elements⟩
          start.layerIndex (messages.length / 2) (handAt messages.length))
        fun sent => J.holds
          (bindWires sent.2 start.layerIndex (handAt messages.length)
            (start.nextChallenge messages sent.1))
          (keeps (messages ++ [sent.1]))) :
    J.holds
      ((rounds start.logw).foldlM (runRound layout start.layerIndex)
        (roundState layout start [] role))
      fun state => ∃ messages role,
        messages.length = 2 * start.logw ∧ keeps messages role ∧
          state = roundState layout start messages role := by
  have hrule := J.foldlM (f := runRound layout start.layerIndex)
    (I := fun k state => ∃ messages role, messages.length = k ∧
      keeps messages role ∧ state = roundState layout start messages role)
    (rounds start.logw) (s := roundState layout start [] role)
    ⟨[], role, rfl, hstart, rfl⟩ ?_
  · rwa [length_rounds] at hrule
  · intro k hk state hstate
    obtain ⟨messages, role, rfl, hkeeps, rfl⟩ := hstate
    rw [getElem_rounds hk]
    rw [length_rounds] at hk
    have hgate := (aligned_boundAll haligned hlogw (start.challenges messages)
      (by rw [start.length_challenges]; omega)).gate_eq_zero
    rw [runRound_eq hfits hk hgate]
    refine J.bind (hround messages role hk hkeeps) fun sent hsent => ?_
    refine J.bind hsent fun role2 hnext => J.ok ?_
    exact ⟨messages ++ [sent.1], role2, by simp, hnext, rfl⟩

end Rounds

end Sumcheck

end Longfellow
