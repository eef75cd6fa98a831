/-
  Conduits: what goes into a queue of a transition system and what comes out of it, along a run.

  The labels of a run say what was put in and what was taken out (`gathered`); the state holds the rest.
  Where every step keeps the balance, what was taken out and what is held is what was put in, in its
  order (`Run.conduit`).  A conduit can break: then nothing more comes out of it, and what came out
  before is the beginning of what was put in.
-/
import Rustica.Lib.Exec

namespace Exec

variable {S A α : Type*} {step : S → A → S → Prop} {s₀ s s' : S} {a : A} {h : List (S × A)}

/-- What a run told: what its steps told, in their order. -/
def gathered (f : S → A → List α) : List (S × A) → List α
  | [] => []
  | (s, a) :: h => gathered f h ++ f s a

variable {f : S → A → List α}

@[simp] theorem gathered_nil : gathered f [] = [] := rfl

@[simp] theorem gathered_cons : gathered f ((s, a) :: h) = gathered f h ++ f s a := rfl

/-- A run none of whose steps tells anything. -/
theorem gathered_eq_nil (hf : ∀ p ∈ h, f p.1 p.2 = []) : gathered f h = [] := by
  induction h with
  | nil => rfl
  | cons p h ih =>
    obtain ⟨hp, hh⟩ := List.forall_mem_cons.1 hf
    rw [gathered_cons, ih hh, hp, List.append_nil]

/-- A conduit: what is put in and taken out by a step, what the state holds, and when it is broken,
    under an invariant. -/
structure Conduit (step : S → A → S → Prop) (I : S → Prop)
    (input output : S → A → List α) where
  held : S → List α
  broken : S → Prop
  stays : ∀ {s a s'}, I s → step s a s' → broken s → broken s'
  balance : ∀ {s a s'}, I s → step s a s' → ¬ broken s' →
    held s ++ input s a = output s a ++ held s'
  prefix_held : ∀ {s a s'}, I s → step s a s' → output s a <+: held s
  dry : ∀ {s a s'}, I s → step s a s' → broken s → output s a = []

variable {I : S → Prop} {input output : S → A → List α}

/-- **What comes out of a conduit** along a run is the beginning of what was in it and was put in, and
    the rest is held while it is whole. -/
theorem Run.conduit (c : Conduit step I input output) (h0 : I s₀)
    (hI : ∀ s a s', I s → step s a s' → I s') (hr : Run step s₀ h s) :
    gathered output h <+: c.held s₀ ++ gathered input h ∧
      (¬ c.broken s → c.held s₀ ++ gathered input h = gathered output h ++ c.held s) := by
  induction hr with
  | nil => exact ⟨by simp, fun _ => by simp⟩
  | @snoc h s a s' hr hs ih =>
    have hIs : I s := (hr.always h0 hI).last
    obtain ⟨hpre, heq⟩ := ih
    rw [gathered_cons, gathered_cons, ← List.append_assoc]
    constructor
    · by_cases hb : c.broken s
      · rw [c.dry hIs hs hb, List.append_nil]
        exact hpre.trans (List.prefix_append _ _)
      · rw [heq hb, List.append_assoc, List.prefix_append_right_inj]
        exact (c.prefix_held hIs hs).trans (List.prefix_append _ _)
    · intro hb
      rw [heq fun hs' => hb (c.stays hIs hs hs'), List.append_assoc, c.balance hIs hs hb,
        List.append_assoc]

end Exec
