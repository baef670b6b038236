/-
Formats: decoders that accept exactly the encodings of the valid values,
followed by anything. They are built like the decoders they describe.
-/
import Longfellow.Lib.Bytes

namespace Decoder

variable {α β : Type}

/-- Run a computation that reads nothing. -/
def ofExec (m : Exec α) : Decoder α := fun bs => m >>= fun a => pure (a, bs)

/-- Replace the message of an error. -/
def context (message : String) (d : Decoder α) : Decoder α := fun bs =>
  match d bs with
  | .error (.error _) => Exec.fail message
  | outcome => outcome

theorem context_eq_ok {message : String} {d : Decoder α}
    {bs rest : List UInt8} {a : α} :
    context message d bs = .ok (a, rest) ↔ d bs = .ok (a, rest) := by
  unfold context
  rcases d bs with (_ | _) | r
  · simp [Exec.fail]
  · simp
  · simp

theorem bind_eq_ok {d : Decoder α} {f : α → Decoder β} {bs rest : List UInt8}
    {b : β} :
    (d >>= f) bs = .ok (b, rest) ↔
      ∃ a mid, d bs = .ok (a, mid) ∧ f a mid = .ok (b, rest) := by
  rw [run_bind, Exec.bind_eq_ok]
  constructor
  · rintro ⟨⟨a, mid⟩, hd, hf⟩
    exact ⟨a, mid, hd, hf⟩
  · rintro ⟨a, mid, hd, hf⟩
    exact ⟨(a, mid), hd, hf⟩

theorem pure_eq_ok {a b : α} {bs rest : List UInt8} :
    (pure a : Decoder α) bs = .ok (b, rest) ↔ a = b ∧ bs = rest := by
  rw [run_pure]
  simp

theorem ofExec_eq_ok {m : Exec α} {a : α} {bs rest : List UInt8} :
    ofExec m bs = .ok (a, rest) ↔ m = .ok a ∧ bs = rest := by
  cases m with
  | error e => simp [ofExec]
  | ok b => simp [ofExec]

theorem ofExec_safe {m : Exec α} {P : α → Prop} (h : Exec.Safe m P) :
    Safe (ofExec m) P := fun _ => h.bind fun _ ha => ha

theorem length_of_replicate {item : Decoder α} {n : Nat} {xs : List α}
    {bs rest : List UInt8} (h : replicate item n bs = .ok (xs, rest)) :
    xs.length = n := by
  induction n generalizing xs bs rest with
  | zero =>
      obtain ⟨rfl, -⟩ := pure_eq_ok.mp h
      rfl
  | succ n ih =>
      obtain ⟨x, mid, -, htail⟩ := bind_eq_ok.mp h
      obtain ⟨ys, last, hys, hlast⟩ := bind_eq_ok.mp htail
      obtain ⟨rfl, -⟩ := pure_eq_ok.mp hlast
      rw [List.length_cons, ih hys]

/-- The decoder returns the valid values on their encodings, whatever follows
them, and nothing else. -/
def Format (d : Decoder α) (valid : α → Prop) (encode : α → List UInt8) : Prop :=
  ∀ bs a rest, d bs = .ok (a, rest) ↔ valid a ∧ bs = encode a ++ rest

namespace Format

variable {d : Decoder α} {valid : α → Prop} {encode : α → List UInt8}

theorem reads (h : Format d valid encode) {a : α} (ha : valid a) :
    Reads d (encode a) a :=
  fun rest => (h _ a rest).mpr ⟨ha, rfl⟩

/-- The valid values have codes that cannot be confused. -/
theorem append_inj (h : Format d valid encode) {a b : α} (ha : valid a)
    (hb : valid b) {r s : List UInt8} (heq : encode a ++ r = encode b ++ s) :
    a = b ∧ r = s := by
  have hread := h.reads ha r
  rw [heq, h.reads hb s] at hread
  cases hread
  exact ⟨rfl, rfl⟩

theorem pure (a : α) :
    Format (Pure.pure a : Decoder α) (fun b => a = b) fun _ => [] :=
  fun bs b rest => pure_eq_ok

/-- A sequence of two decoders, where the first value is a part of the
second. -/
theorem bind (hd : Format d valid encode) {f : α → Decoder β}
    {validRest : α → β → Prop} {encodeRest : β → List UInt8}
    (hf : ∀ a, Format (f a) (validRest a) encodeRest) (part : β → α)
    (hpart : ∀ a b, validRest a b → part b = a) :
    Format (d >>= f) (fun b => valid (part b) ∧ validRest (part b) b)
      fun b => encode (part b) ++ encodeRest b := by
  intro bs b rest
  rw [bind_eq_ok]
  constructor
  · rintro ⟨a, mid, hfirst, hsecond⟩
    obtain ⟨ha, rfl⟩ := (hd _ _ _).mp hfirst
    obtain ⟨hb, rfl⟩ := (hf a _ _ _).mp hsecond
    obtain rfl := hpart a b hb
    exact ⟨⟨ha, hb⟩, by rw [List.append_assoc]⟩
  · rintro ⟨⟨ha, hb⟩, rfl⟩
    refine ⟨part b, encodeRest b ++ rest, ?_, ?_⟩
    · exact (hd _ _ _).mpr ⟨ha, by rw [List.append_assoc]⟩
    · exact (hf _ _ _ _).mpr ⟨hb, rfl⟩

/-- Two ways to say which values are valid, and how they are written. -/
theorem congr (h : Format d valid encode) {valid' : α → Prop}
    {encode' : α → List UInt8} (hvalid : ∀ a, valid a ↔ valid' a)
    (hencode : ∀ a, valid' a → encode a = encode' a) :
    Format d valid' encode' := by
  intro bs a rest
  rw [h, hvalid]
  constructor
  · rintro ⟨ha, rfl⟩
    exact ⟨ha, by rw [hencode a ha]⟩
  · rintro ⟨ha, rfl⟩
    exact ⟨ha, by rw [hencode a ha]⟩

theorem takeBytes (n : Nat) (message : String) :
    Format (Decoder.takeBytes n message) (fun bs => bs.length = n)
      fun bs => bs := by
  intro bs a rest
  unfold Decoder.takeBytes
  split
  · next hle =>
      simp only [Exec.pure_eq_ok, Except.ok.injEq, Prod.mk.injEq]
      constructor
      · rintro ⟨rfl, rfl⟩
        exact ⟨by simp [hle], (List.take_append_drop n bs).symm⟩
      · rintro ⟨hlength, rfl⟩
        exact ⟨by rw [← hlength, List.take_left],
          by rw [← hlength, List.drop_left]⟩
  · next hlt =>
      simp only [Exec.fail, reduceCtorEq, false_iff, not_and]
      rintro hlength rfl
      simp at hlt
      omega

theorem replicate (h : Format d valid encode) (n : Nat) :
    Format (Decoder.replicate d n)
      (fun xs => xs.length = n ∧ ∀ x ∈ xs, valid x)
      fun xs => xs.flatMap encode := by
  induction n with
  | zero =>
      refine (Format.pure ([] : List α)).congr (fun xs => ?_) fun xs hxs => ?_
      · constructor
        · rintro rfl
          exact ⟨rfl, by simp⟩
        · rintro ⟨hlength, -⟩
          exact (List.eq_nil_of_length_eq_zero hlength).symm
      · rw [List.eq_nil_of_length_eq_zero hxs.1, List.flatMap_nil]
  | succ n ih =>
      intro bs xs rest
      rw [Decoder.replicate, bind_eq_ok]
      constructor
      · rintro ⟨x, mid, hx, hxs⟩
        obtain ⟨ys, last, hys, hlast⟩ := bind_eq_ok.mp hxs
        obtain ⟨rfl, rfl⟩ := pure_eq_ok.mp hlast
        obtain ⟨hvalid, rfl⟩ := (h _ _ _).mp hx
        obtain ⟨⟨hlength, hall⟩, rfl⟩ := (ih _ _ _).mp hys
        refine ⟨⟨by rw [List.length_cons, hlength], ?_⟩, ?_⟩
        · exact List.forall_mem_cons.mpr ⟨hvalid, hall⟩
        · simp only [List.flatMap_cons, List.append_assoc]
      · rintro ⟨⟨hlength, hall⟩, rfl⟩
        cases xs with
        | nil => cases hlength
        | cons x xs =>
            obtain ⟨hvalid, hall⟩ := List.forall_mem_cons.mp hall
            refine ⟨x, xs.flatMap encode ++ rest, ?_, ?_⟩
            · exact (h _ _ _).mpr ⟨hvalid, by
                simp only [List.flatMap_cons, List.append_assoc]⟩
            · apply bind_eq_ok.mpr
              refine ⟨xs, rest, (ih _ _ _).mpr ⟨⟨?_, hall⟩, rfl⟩,
                pure_eq_ok.mpr ⟨rfl, rfl⟩⟩
              simpa using hlength

end Format

end Decoder
