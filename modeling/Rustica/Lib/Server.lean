/-
  Machines that answer requests.

  A machine answers a request and goes on in another state, or the session ends with the answer.
  Where related states of two machines answer alike, as long as the requests keep to a guard, every
  session that keeps to it gets the same answers from both (`Follows.answers_eq`).
-/
import Mathlib.Data.Option.Basic
import Mathlib.Data.List.Basic

namespace Server

/-- A machine with the states `S`, the requests `R` and the answers `A`. -/
structure Machine (S R A : Type*) where
  call : S → R → A × Option S

variable {S T R A : Type*}

/-- The answers to the requests, up to the one that ends the session. -/
def Machine.answers (m : Machine S R A) : S → List R → List A
  | _, [] => []
  | s, r :: rs => (m.call s r).1 :: (m.call s r).2.elim [] fun s' => m.answers s' rs

/-- All requests that are answered keep to the guard. -/
def Machine.Within (m : Machine S R A) (C : S → R → Prop) : S → List R → Prop
  | _, [] => True
  | s, r :: rs => C s r ∧ ∀ s' ∈ (m.call s r).2, m.Within C s' rs

/-- The state after the requests, unless the session has ended before. -/
def Machine.after (m : Machine S R A) : S → List R → Option S
  | s, [] => some s
  | s, r :: rs => (m.call s r).2.bind fun s' => m.after s' rs

/-- Two answers, with the states where the machines go on. -/
def Alike (I : S → T → Prop) (x : A × Option S) (y : A × Option T) : Prop :=
  x.1 = y.1 ∧ Option.Rel I x.2 y.2

/-- Within the guard, related states answer alike. -/
def Follows (m : Machine S R A) (n : Machine T R A) (I : S → T → Prop) (C : T → R → Prop) : Prop :=
  ∀ s t r, I s t → C t r → Alike I (m.call s r) (n.call t r)

variable {m : Machine S R A} {n : Machine T R A} {I : S → T → Prop} {C : T → R → Prop} {s : S}
  {t : T} {rs : List R}

/-- **Sessions within the guard** get the same answers. -/
theorem Follows.answers_eq (h : Follows m n I C) (hI : I s t) (hC : n.Within C t rs) :
    m.answers s rs = n.answers t rs := by
  induction rs generalizing s t with
  | nil => rfl
  | cons r rs ih =>
    obtain ⟨ha, hs⟩ := h s t r hI hC.1
    rw [Machine.answers, Machine.answers, ha]
    cases hm : (m.call s r).2 with
    | none =>
      rw [hm] at hs
      cases hn : (n.call t r).2 with
      | none => rfl
      | some t' => rw [hn] at hs; cases hs
    | some s' =>
      rw [hm] at hs
      cases hn : (n.call t r).2 with
      | none => rw [hn] at hs; cases hs
      | some t' =>
        rw [hn] at hs
        cases hs with
        | some hI' => exact congrArg (_ :: ·) (ih hI' (hC.2 t' hn))

/-- **Invariant rule**, for a property that the requests within a guard keep. -/
theorem Machine.Within.after {P : S → Prop} {C : S → R → Prop}
    (hP : ∀ s r s', P s → C s r → s' ∈ (m.call s r).2 → P s') (hC : m.Within C s rs) (h : P s) :
    ∀ s' ∈ m.after s rs, P s' := by
  induction rs generalizing s with
  | nil =>
    rintro s' ⟨⟩
    exact h
  | cons r rs ih =>
    intro s' hs'
    obtain ⟨s₁, h1, h2⟩ := Option.bind_eq_some_iff.1 hs'
    exact ih (hC.2 s₁ h1) (hP s r s₁ h hC.1 h1) s' h2

end Server
