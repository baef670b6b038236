/-
Readings that keep a log of what they meet, also of what they meet before they
stop short. A decoder that goes wrong on what a log shows tracks a reading that
does not.
-/
import Longfellow.Lib.Format

/-- A reading logs what it meets, and returns a value and the bytes after it,
or stops short. -/
structure Logged (ω α : Type) where
  run : List UInt8 → List ω × Option (α × List UInt8)

namespace Logged

variable {ω α β γ : Type}

instance : Monad (Logged ω) where
  pure a := ⟨fun bs => ([], some (a, bs))⟩
  bind t f := ⟨fun bs =>
    match t.run bs with
    | (log, none) => (log, none)
    | (log, some (a, rest)) =>
        (log ++ ((f a).run rest).1, ((f a).run rest).2)⟩

/-- Read without a log. -/
def ofDecoder (d : Decoder α) : Logged ω α :=
  ⟨fun bs => ([], (d bs).toOption)⟩

/-- Log an entry. -/
def log (entry : ω) : Logged ω Unit := ⟨fun bs => ([entry], some ((), bs))⟩

/-- A fixed number of readings, one after the other. -/
def replicate (item : Logged ω α) : Nat → Logged ω (List α)
  | 0 => pure []
  | n + 1 => do
      let x ← item
      let xs ← replicate item n
      pure (x :: xs)

theorem run_pure (a : α) (bs : List UInt8) :
    (pure a : Logged ω α).run bs = ([], some (a, bs)) := rfl

theorem run_bind_none {t : Logged ω α} {f : α → Logged ω β} {bs : List UInt8}
    (h : (t.run bs).2 = none) : (t >>= f).run bs = ((t.run bs).1, none) := by
  change (match t.run bs with
    | (log, none) => (log, none)
    | (log, some (a, rest)) =>
        (log ++ ((f a).run rest).1, ((f a).run rest).2)) = _
  rcases hrun : t.run bs with ⟨log, result⟩
  rw [hrun] at h
  obtain rfl : result = none := h
  rfl

theorem run_bind_some {t : Logged ω α} {f : α → Logged ω β}
    {bs rest : List UInt8} {a : α} (h : (t.run bs).2 = some (a, rest)) :
    (t >>= f).run bs =
      ((t.run bs).1 ++ ((f a).run rest).1, ((f a).run rest).2) := by
  change (match t.run bs with
    | (log, none) => (log, none)
    | (log, some (a, rest)) =>
        (log ++ ((f a).run rest).1, ((f a).run rest).2)) = _
  rcases hrun : t.run bs with ⟨log, result⟩
  rw [hrun] at h
  obtain rfl : result = some (a, rest) := h
  rfl

theorem run_pure_eq {a b : α} {bs rest : List UInt8} {entries : List ω} :
    (pure a : Logged ω α).run bs = (entries, some (b, rest)) ↔
      entries = [] ∧ a = b ∧ bs = rest := by
  rw [run_pure]
  simp [eq_comm]

theorem run_ofDecoder_eq {d : Decoder α} {bs rest : List UInt8} {a : α}
    {entries : List ω} :
    (ofDecoder d : Logged ω α).run bs = (entries, some (a, rest)) ↔
      entries = [] ∧ d bs = .ok (a, rest) := by
  change ([], (d bs).toOption) = (entries, some (a, rest)) ↔ _
  cases d bs with
  | error e => simp [Except.toOption]
  | ok r => simp [Except.toOption, eq_comm]

/-- A sequence completes exactly when both parts do, and logs what they log. -/
theorem run_bind_eq {t : Logged ω α} {f : α → Logged ω β}
    {bs rest : List UInt8} {b : β} {entries : List ω} :
    (t >>= f).run bs = (entries, some (b, rest)) ↔
      ∃ a mid first second, t.run bs = (first, some (a, mid)) ∧
        (f a).run mid = (second, some (b, rest)) ∧
        entries = first ++ second := by
  constructor
  · intro h
    rcases hrun : t.run bs with ⟨first, _ | ⟨a, mid⟩⟩
    · rw [run_bind_none (by rw [hrun])] at h
      cases h
    · have hsome : (t.run bs).2 = some (a, mid) := by rw [hrun]
      rw [run_bind_some hsome, hrun, Prod.mk.injEq] at h
      refine ⟨a, mid, first, ((f a).run mid).1, rfl, ?_, h.1.symm⟩
      rw [← h.2]
  · rintro ⟨a, mid, first, second, hfirst, hsecond, rfl⟩
    have hsome : (t.run bs).2 = some (a, mid) := by rw [hfirst]
    rw [run_bind_some hsome, hfirst, hsecond]

/-- As long as the log is good, the decoder returns when the reading does, a
value that goes with the reading's, and hands back an error when it stops
short. If the decoder `detects` what is not good, it panics on it. -/
structure Tracks (detects : Prop) (good : ω → Prop) (d : Decoder α)
    (t : Logged ω β) (R : α → β → Prop) : Prop where
  returns : ∀ bs b rest, (∀ entry ∈ (t.run bs).1, good entry) →
    (t.run bs).2 = some (b, rest) → ∃ a, d bs = .ok (a, rest) ∧ R a b
  fails : ∀ bs, (∀ entry ∈ (t.run bs).1, good entry) →
    (t.run bs).2 = none → ∃ message, d bs = .error (.error message)
  panics : detects → ∀ bs, (∃ entry ∈ (t.run bs).1, ¬ good entry) →
    ∃ message, d bs = .error (.panic message)

namespace Tracks

variable {detects : Prop} {good : ω → Prop} {d : Decoder α} {t : Logged ω β}
  {R : α → β → Prop}

theorem pure {a : α} {b : β} (h : R a b) :
    Tracks detects good (Pure.pure a) (Pure.pure b : Logged ω β) R where
  returns bs b' rest _ hsome := by
    rw [run_pure] at hsome
    cases hsome
    exact ⟨a, rfl, h⟩
  fails bs _ hnone := by cases hnone
  panics _ bs hbad := by
    obtain ⟨entry, hentry, -⟩ := hbad
    cases hentry

/-- A decoder that does not panic tracks itself. -/
theorem ofDecoder {P : α → Prop} (hsafe : d.Safe P) :
    Tracks detects good d (Logged.ofDecoder d : Logged ω α) fun a b =>
      a = b ∧ P b where
  returns bs b rest _ hsome := by
    have hrun : (d bs).toOption = some (b, rest) := hsome
    have hP := hsafe bs
    rcases hd : d bs with (_ | _) | ⟨a, rest'⟩
    · rw [hd] at hrun
      cases hrun
    · rw [hd] at hrun
      cases hrun
    · rw [hd] at hrun hP
      cases hrun
      exact ⟨b, rfl, rfl, hP⟩
  fails bs _ hnone := by
    have hrun : (d bs).toOption = none := hnone
    have hP := hsafe bs
    rcases hd : d bs with (message | message) | r
    · exact ⟨message, rfl⟩
    · rw [hd] at hP
      cases hP
    · rw [hd] at hrun
      cases hrun
  panics _ bs hbad := by
    obtain ⟨entry, hentry, -⟩ := hbad
    cases hentry

theorem bind {f : α → Decoder γ} {δ : Type} {g : β → Logged ω δ}
    {S : γ → δ → Prop} (h : Tracks detects good d t R)
    (hf : ∀ a b, R a b → Tracks detects good (f a) (g b) S) :
    Tracks detects good (d >>= f) (t >>= g) S where
  returns bs c rest hgood hsome := by
    rcases hrun : (t.run bs).2 with _ | ⟨b, mid⟩
    · rw [run_bind_none hrun] at hsome
      cases hsome
    · rw [run_bind_some hrun] at hgood hsome
      obtain ⟨hfirst, hsecond⟩ := List.forall_mem_append.mp hgood
      obtain ⟨a, ha, hR⟩ := h.returns bs b mid hfirst hrun
      obtain ⟨c', hc, hS⟩ := (hf a b hR).returns mid c rest hsecond hsome
      exact ⟨c', Decoder.bind_eq_ok.mpr ⟨a, mid, ha, hc⟩, hS⟩
  fails bs hgood hnone := by
    rcases hrun : (t.run bs).2 with _ | ⟨b, mid⟩
    · rw [run_bind_none hrun] at hgood
      obtain ⟨message, ha⟩ := h.fails bs hgood hrun
      exact ⟨message, by rw [Decoder.run_bind, ha]; rfl⟩
    · rw [run_bind_some hrun] at hgood hnone
      obtain ⟨hfirst, hsecond⟩ := List.forall_mem_append.mp hgood
      obtain ⟨a, ha, hR⟩ := h.returns bs b mid hfirst hrun
      obtain ⟨message, hc⟩ := (hf a b hR).fails mid hsecond hnone
      exact ⟨message, by rw [Decoder.run_bind, ha]; exact hc⟩
  panics hdetects bs hbad := by
    by_cases hfirst : ∀ entry ∈ (t.run bs).1, good entry
    · rcases hrun : (t.run bs).2 with _ | ⟨b, mid⟩
      · rw [run_bind_none hrun] at hbad
        obtain ⟨entry, hentry, hnot⟩ := hbad
        exact absurd (hfirst entry hentry) hnot
      · rw [run_bind_some hrun] at hbad
        obtain ⟨entry, hentry, hnot⟩ := hbad
        obtain ⟨a, ha, hR⟩ := h.returns bs b mid hfirst hrun
        have hmem : entry ∈ ((g b).run mid).1 := by
          rcases List.mem_append.mp hentry with hleft | hright
          · exact absurd (hfirst entry hleft) hnot
          · exact hright
        obtain ⟨message, hc⟩ :=
          (hf a b hR).panics hdetects mid ⟨entry, hmem, hnot⟩
        exact ⟨message, by rw [Decoder.run_bind, ha]; exact hc⟩
    · push Not at hfirst
      obtain ⟨message, ha⟩ := h.panics hdetects bs hfirst
      exact ⟨message, by rw [Decoder.run_bind, ha]; rfl⟩

theorem mono {S : α → β → Prop} (h : Tracks detects good d t R)
    (hRS : ∀ a b, R a b → S a b) : Tracks detects good d t S where
  returns bs b rest hgood hsome := by
    obtain ⟨a, ha, hR⟩ := h.returns bs b rest hgood hsome
    exact ⟨a, ha, hRS a b hR⟩
  fails := h.fails
  panics := h.panics

/-- A decoder and a reading that return equal values, repeated. -/
theorem replicate {t : Logged ω α} (h : Tracks detects good d t Eq) (n : Nat) :
    Tracks detects good (Decoder.replicate d n) (t.replicate n) Eq := by
  induction n with
  | zero => exact Tracks.pure rfl
  | succ n ih =>
      refine h.bind fun x y hxy => ih.bind fun xs ys hys => Tracks.pure ?_
      rw [hxy, hys]

theorem context (h : Tracks detects good d t R) (message : String) :
    Tracks detects good (Decoder.context message d) t R where
  returns bs b rest hgood hsome := by
    obtain ⟨a, ha, hR⟩ := h.returns bs b rest hgood hsome
    exact ⟨a, Decoder.context_eq_ok.mpr ha, hR⟩
  fails bs hgood hnone := by
    obtain ⟨inner, ha⟩ := h.fails bs hgood hnone
    exact ⟨message, by rw [Decoder.context, ha]; rfl⟩
  panics hdetects bs hbad := by
    obtain ⟨inner, ha⟩ := h.panics hdetects bs hbad
    exact ⟨inner, by rw [Decoder.context, ha]⟩

end Tracks

end Logged
