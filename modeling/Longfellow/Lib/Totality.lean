/-
Passes over lists, and decoders that neither panic nor leave more than they
were given, so that a loop of them ends.
-/
import Longfellow.Lib.Format

universe u

namespace Exec

/-- The rule for a pass over a list. -/
theorem Judgement.mapM (J : Judgement) {α β : Type u} {f : α → Exec β}
    {P : β → Prop} (xs : List α) (h : ∀ x ∈ xs, J.holds (f x) P) :
    J.holds (xs.mapM f) fun ys => ys.length = xs.length ∧ ∀ y ∈ ys, P y := by
  induction xs with
  | nil => exact J.ok ⟨rfl, by simp⟩
  | cons x xs ih =>
      rw [List.mapM_cons]
      refine J.bind (h x List.mem_cons_self) fun y hy => ?_
      refine J.bind (ih fun x hx => h x (List.mem_cons_of_mem _ hx))
        fun ys hys => J.ok ?_
      exact ⟨by rw [List.length_cons, List.length_cons, hys.1],
        List.forall_mem_cons.mpr ⟨hy, hys.2⟩⟩

theorem Safe.and_ensures {α : Type u} {m : Exec α} {P Q : α → Prop}
    (h : Safe m P) (hQ : Ensures m Q) : Safe m fun a => P a ∧ Q a :=
  safe_iff.mpr
    ⟨fun a ha => ⟨h.ensures a ha, hQ a ha⟩, (safe_iff.mp h).2⟩

theorem Safe.context {α : Type u} {m : Exec α} {P : α → Prop} (h : Safe m P)
    (message : String) : Safe (m.context message) P := by
  rcases m with (_ | _) | a
  · trivial
  · exact h
  · exact h

end Exec

namespace Decoder

variable {α β : Type}

/-- The decoder does not panic, and every value it returns satisfies `P` and
leaves no more bytes than there were. -/
def Total (d : Decoder α) (P : α → Prop) : Prop :=
  ∀ bs, Exec.Safe (d bs) fun r => P r.1 ∧ r.2.length ≤ bs.length

theorem Total.safe {d : Decoder α} {P : α → Prop} (h : Total d P) : Safe d P :=
  fun bs => (h bs).mono fun _ hr => hr.1

theorem Total.pure {P : α → Prop} {a : α} (ha : P a) :
    Total (Pure.pure a) P := fun _ => ⟨ha, le_rfl⟩

theorem Total.mono {d : Decoder α} {P Q : α → Prop} (h : Total d P)
    (hPQ : ∀ a, P a → Q a) : Total d Q :=
  fun bs => (h bs).mono fun r hr => ⟨hPQ r.1 hr.1, hr.2⟩

theorem Total.bind {d : Decoder α} {f : α → Decoder β} {P : α → Prop}
    {Q : β → Prop} (hd : Total d P) (hf : ∀ a, P a → Total (f a) Q) :
    Total (d >>= f) Q := by
  intro bs
  rw [run_bind]
  refine (hd bs).bind fun r hr => (hf r.1 hr.1 r.2).mono fun s hs => ?_
  exact ⟨hs.1, hs.2.trans hr.2⟩

theorem ofExec_total {m : Exec α} {P : α → Prop} (h : Exec.Safe m P) :
    Total (ofExec m) P :=
  fun _ => h.bind fun _ ha => ⟨ha, le_rfl⟩

/-- What was read and what is left are as much as there was. -/
theorem takeBytes_counts (n : Nat) (message : String) (bs : List UInt8) :
    Exec.Safe (takeBytes n message bs) fun r =>
      r.1.length = n ∧ r.2.length + n = bs.length := by
  unfold takeBytes
  split
  · next hle =>
      rw [Exec.pure_eq_ok, Exec.safe_ok, List.length_take, List.length_drop]
      exact ⟨Nat.min_eq_left hle, Nat.sub_add_cancel hle⟩
  · trivial

theorem takeBytes_total (n : Nat) (message : String) :
    Total (takeBytes n message) fun bytes => bytes.length = n :=
  fun bs => (takeBytes_counts n message bs).mono fun _ hr =>
    ⟨hr.1, Nat.le.intro hr.2⟩

theorem replicate_total {item : Decoder α} {P : α → Prop}
    (hitem : Total item P) (n : Nat) :
    Total (replicate item n) fun xs => xs.length = n := by
  induction n with
  | zero => exact Total.pure rfl
  | succ n ih =>
      refine hitem.bind fun x _ => ih.bind fun xs hxs => Total.pure ?_
      rw [List.length_cons, hxs]

end Decoder
