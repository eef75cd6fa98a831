/-
  Labelled transition systems: runs with their history, the invariant rule, and the rule for a
  property that holds along a run exactly as long as every step keeps to a guard.

  A history lists the steps latest first, each as the state the step was taken in and its label.
-/
import Mathlib.Tactic

namespace Exec

variable {S A : Type*}

/-- `Run step s₀ h s`: the history `h` leads from `s₀` to `s`. -/
inductive Run (step : S → A → S → Prop) (s₀ : S) : List (S × A) → S → Prop
  | nil : Run step s₀ [] s₀
  | snoc {h s a s'} : Run step s₀ h s → step s a s' → Run step s₀ ((s, a) :: h) s'

variable {step : S → A → S → Prop} {s₀ s s' : S} {a : A} {h : List (S × A)}

/-- Every step of the history keeps to the guard `C`. -/
def Meets (C : S → A → Prop) (h : List (S × A)) : Prop := ∀ p ∈ h, C p.1 p.2

/-- `P` holds in every state of the run, the last one included. -/
def Always (P : S → Prop) (h : List (S × A)) (s : S) : Prop := P s ∧ ∀ p ∈ h, P p.1

/-- Some run leads from `s₀` to `s`. -/
def Reach (step : S → A → S → Prop) (s₀ s : S) : Prop := ∃ h, Run step s₀ h s

@[simp] theorem meets_nil (C : S → A → Prop) : Meets C [] := by simp [Meets]

@[simp] theorem meets_cons (C : S → A → Prop) :
    Meets C ((s, a) :: h) ↔ C s a ∧ Meets C h := by simp [Meets]

@[simp] theorem always_nil (P : S → Prop) : Always P ([] : List (S × A)) s ↔ P s := by
  simp [Always]

@[simp] theorem always_cons (P : S → Prop) :
    Always P ((s, a) :: h) s' ↔ P s' ∧ Always P h s := by simp [Always]

theorem Always.last {P : S → Prop} (hP : Always P h s) : P s := hP.1

theorem Always.imp {P Q : S → Prop} (hPQ : ∀ s, P s → Q s) (hP : Always P h s) :
    Always Q h s := ⟨hPQ _ hP.1, fun p hp => hPQ _ (hP.2 p hp)⟩

theorem Always.and {P Q : S → Prop} (hP : Always P h s) (hQ : Always Q h s) :
    Always (fun s => P s ∧ Q s) h s := ⟨⟨hP.1, hQ.1⟩, fun p hp => ⟨hP.2 p hp, hQ.2 p hp⟩⟩

/-- **Invariant rule.** -/
theorem Run.always {I : S → Prop} (h0 : I s₀) (hstep : ∀ s a s', I s → step s a s' → I s')
    (hr : Run step s₀ h s) : Always I h s := by
  induction hr with
  | nil => simpa using h0
  | snoc _ hs ih => simpa using ⟨hstep _ _ _ ih.last hs, ih⟩

theorem Reach.inv {I : S → Prop} (h0 : I s₀) (hstep : ∀ s a s', I s → step s a s' → I s')
    (hr : Reach step s₀ s) : I s := by
  obtain ⟨h, hr⟩ := hr
  exact (hr.always h0 hstep).last

/-- **Guarded invariant rule**: an invariant that only the steps within the guard `C` keep. -/
theorem Run.always_of_meets {I : S → Prop} {C : S → A → Prop} (h0 : I s₀)
    (hstep : ∀ s a s', I s → C s a → step s a s' → I s')
    (hr : Run step s₀ h s) (hC : Meets C h) : Always I h s := by
  induction hr with
  | nil => simpa using h0
  | snoc _ hs ih =>
    rw [meets_cons] at hC
    have ih := ih hC.2
    simpa using ⟨hstep _ _ _ ih.last hC.1 hs, ih⟩

/-- Steps within the guard `C` that keep an invariant have what the invariant gives them. -/
theorem Run.meets_of_meets {I : S → Prop} {C Q : S → A → Prop} (h0 : I s₀)
    (hstep : ∀ s a s', I s → C s a → step s a s' → I s' ∧ Q s a)
    (hr : Run step s₀ h s) (hC : Meets C h) : Meets Q h := by
  induction hr with
  | nil => exact meets_nil Q
  | @snoc h s a s' hr hs ih =>
    rw [meets_cons] at hC ⊢
    have hI : Always I h s :=
      hr.always_of_meets h0 (fun s a s' hI hC hs => (hstep s a s' hI hC hs).1) hC.2
    exact ⟨(hstep s a s' hI.last hC.1 hs).2, ih hC.2⟩

/-- **Exact guard**: when the steps within the guard keep `P` (with the help of `I`) and every
    step outside of it breaks `P`, then `P` holds along a run iff all its steps meet the guard. -/
theorem Run.always_iff_meets {I P : S → Prop} {C : S → A → Prop} (hI : I s₀) (hP : P s₀)
    (hstep : ∀ s a s', I s → P s → C s a → step s a s' → I s' ∧ P s')
    (hbreak : ∀ s a s', I s → P s → ¬ C s a → step s a s' → ¬ P s')
    (hr : Run step s₀ h s) : Always P h s ↔ Meets C h := by
  have key : ∀ {h s}, Run step s₀ h s → Always P h s → Meets C h ∧ I s := by
    intro h s hr
    induction hr with
    | nil => exact fun _ => ⟨meets_nil C, hI⟩
    | snoc _ hs ih =>
      intro hA
      rw [always_cons] at hA
      obtain ⟨hm, hIs⟩ := ih hA.2
      have hC := Classical.not_not.1 fun hC => hbreak _ _ _ hIs hA.2.last hC hs hA.1
      exact ⟨(meets_cons C).2 ⟨hC, hm⟩, (hstep _ _ _ hIs hA.2.last hC hs).1⟩
  constructor
  · exact fun hA => (key hr hA).1
  · intro hm
    refine (hr.always_of_meets (I := fun s => I s ∧ P s) ⟨hI, hP⟩ ?_ hm).imp fun _ h => h.2
    exact fun s a s' h hC hs => hstep s a s' h.1 h.2 hC hs

/-- **Exact guard, step by step**: where an invariant makes a property `Q` of a step the same as the
    guard `C`, and the steps with `Q` keep the invariant, all steps of a run have `Q` iff they all
    meet the guard. -/
theorem Run.meets_iff_meets {I : S → Prop} {Q C : S → A → Prop} (h0 : I s₀)
    (hstep : ∀ s a s', I s → Q s a → step s a s' → I s') (hiff : ∀ s a, I s → (Q s a ↔ C s a))
    (hr : Run step s₀ h s) : Meets Q h ↔ Meets C h := by
  have key : ∀ {h s}, Run step s₀ h s → Meets Q h → I s := fun hr hQ =>
    (hr.always_of_meets h0 hstep hQ).last
  induction hr with
  | nil => simp
  | @snoc h s a s' hr hs ih =>
    rw [meets_cons, meets_cons]
    constructor
    · rintro ⟨hQ, hall⟩
      exact ⟨(hiff s a (key hr hall)).1 hQ, ih.1 hall⟩
    · rintro ⟨hC, hall⟩
      exact ⟨(hiff s a (key hr (ih.2 hall))).2 hC, ih.2 hall⟩

/-- Every step of the history keeps to a guard on the state, the label and what came before. -/
def MeetsPast (C : List (S × A) → S → A → Prop) : List (S × A) → Prop
  | [] => True
  | (s, a) :: h => C h s a ∧ MeetsPast C h

/-- **Exact guard on the past**: as `meets_iff_meets`, with an invariant and a guard that take the
    steps so far into account. -/
theorem Run.meets_iff_meetsPast {I : List (S × A) → S → Prop} {Q : S → A → Prop}
    {C : List (S × A) → S → A → Prop} (h0 : I [] s₀)
    (hstep : ∀ h s a s', I h s → Q s a → step s a s' → I ((s, a) :: h) s')
    (hiff : ∀ h s a, I h s → (Q s a ↔ C h s a)) (hr : Run step s₀ h s) :
    Meets Q h ↔ MeetsPast C h := by
  have key : ∀ {h s}, Run step s₀ h s → Meets Q h → I h s := by
    intro h s hr
    induction hr with
    | nil => exact fun _ => h0
    | snoc _ hs ih =>
      intro hQ
      rw [meets_cons] at hQ
      exact hstep _ _ _ _ (ih hQ.2) hQ.1 hs
  induction hr with
  | nil => simp [MeetsPast]
  | @snoc h s a s' hr hs ih =>
    rw [meets_cons, MeetsPast]
    constructor
    · rintro ⟨hQ, hall⟩
      exact ⟨(hiff h s a (key hr hall)).1 hQ, ih.1 hall⟩
    · rintro ⟨hC, hall⟩
      exact ⟨(hiff h s a (key hr (ih.2 hall))).2 hC, ih.2 hall⟩

/-- **What holds of every step and what came before it**, of all runs. -/
theorem Run.meetsPast {Q : List (S × A) → S → A → Prop}
    (hQ : ∀ h s a s', Run step s₀ h s → step s a s' → Q h s a) (hr : Run step s₀ h s) :
    MeetsPast Q h := by
  induction hr with
  | nil => exact trivial
  | snoc hr hs ih => exact ⟨hQ _ _ _ _ hr hs, ih⟩

/-- Guards that are the same at every step. -/
theorem MeetsPast.meets_iff {Q : List (S × A) → S → A → Prop} {C : S → A → Prop}
    (hiff : MeetsPast (fun h s a => Q h s a ↔ C s a) h) : MeetsPast Q h ↔ Meets C h := by
  induction h with
  | nil => exact iff_of_true trivial (meets_nil C)
  | cons p h ih =>
    obtain ⟨hp, hrest⟩ := hiff
    rw [MeetsPast, meets_cons, hp, ih hrest]

theorem Reach.refl : Reach step s₀ s₀ := ⟨[], .nil⟩

theorem Reach.snoc (hr : Reach step s₀ s) (hs : step s a s') : Reach step s₀ s' := by
  obtain ⟨h, hr⟩ := hr
  exact ⟨_, .snoc hr hs⟩

theorem Reach.trans (hr : Reach step s₀ s) (hr' : Reach step s s') : Reach step s₀ s' :=
  hr'.inv hr fun _ _ _ h hs => h.snoc hs

/-! ## Executing labels -/

/-- The state after the labels, where each step is enabled. -/
def execs (f : S → A → Option S) : S → List A → Option S
  | s, [] => some s
  | s, a :: l => (f s a).bind fun s' => execs f s' l

/-- A state found by execution is reachable. -/
theorem reach_of_execs {f : S → A → Option S}
    (hf : ∀ s a s', f s a = some s' → step s a s') {l : List A}
    (hr : Reach step s₀ s) (he : execs f s l = some s') : Reach step s₀ s' := by
  induction l generalizing s with
  | nil => cases he; exact hr
  | cons a l ih =>
    obtain ⟨s₁, h1, h2⟩ := Option.bind_eq_some_iff.1 he
    exact ih (hr.snoc (hf _ _ _ h1)) h2

/-- A property found by execution holds in some reachable state. -/
theorem exists_reach_of_execs {f : S → A → Option S}
    (hf : ∀ s a s', f s a = some s' → step s a s') {l : List A} {p : S → Bool}
    (he : (execs f s₀ l).any p = true) : ∃ s, Reach step s₀ s ∧ p s = true := by
  cases h : execs f s₀ l with
  | none => simp [h] at he
  | some s =>
    rw [h] at he
    exact ⟨s, reach_of_execs hf .refl h, he⟩

/-- The history `h` and the labels executed from `s`, as far as each step is enabled. -/
def trail (f : S → A → Option S) : S → List A → List (S × A) → List (S × A)
  | _, [], h => h
  | s, a :: l, h => match f s a with
    | some s' => trail f s' l ((s, a) :: h)
    | none => h

/-- Execution makes a run. -/
theorem Run.execs {f : S → A → Option S} (hf : ∀ s a s', f s a = some s' → step s a s')
    {l : List A} (hr : Run step s₀ h s) (he : execs f s l = some s') :
    Run step s₀ (trail f s l h) s' := by
  induction l generalizing s h with
  | nil => cases he; exact hr
  | cons a l ih =>
    obtain ⟨s₁, h1, h2⟩ := Option.bind_eq_some_iff.1 he
    simp only [trail, h1]
    exact ih (hr.snoc (hf _ _ _ h1)) h2

/-- A property found by execution holds at the end of the executed run. -/
theorem exists_run_of_execs {f : S → A → Option S}
    (hf : ∀ s a s', f s a = some s' → step s a s') {l : List A} {p : S → Bool}
    (he : (execs f s₀ l).any p = true) : ∃ s, Run step s₀ (trail f s₀ l []) s ∧ p s = true := by
  cases h : Exec.execs f s₀ l with
  | none => simp [h] at he
  | some s =>
    rw [h] at he
    exact ⟨s, Run.nil.execs hf h, he⟩

end Exec
