/-
  Code that can raise an error: it ends by returning, by a raised error, or by a crash of its
  process, and what it did to the state before it raised stays done.

  `wp c Q s` says that `c`, started in `s`, ends as `Q` says.  Code is a function of the state, so
  this is exact: `¬ wp c Q s` says that it ends in another way.
-/
import Mathlib.Tactic

namespace PgTry

/-- How code ends. -/
inductive Ending (α : Type*) where
  | returned (a : α)
  | raised
  | crashed
  deriving DecidableEq

/-- Code over the state `σ`. -/
def Code (σ α : Type*) := σ → Ending α × σ

variable {σ : Type*} {α β : Type _} {s : σ}

namespace Code

instance : Monad (Code σ) where
  pure a := fun s => (.returned a, s)
  bind c f := fun s => match c s with
    | (.returned a, s') => f a s'
    | (.raised, s') => (.raised, s')
    | (.crashed, s') => (.crashed, s')

def state : Code σ σ := fun s => (.returned s, s)
def update (f : σ → σ) : Code σ Unit := fun s => (.returned (), f s)
def crash : Code σ Unit := fun s => (.crashed, s)

/-- A call that raises an error, or has the effect `f`. -/
def call (fails : Bool) (f : σ → σ := id) : Code σ Unit := fun s =>
  if fails then (.raised, s) else (.returned (), f s)

/-- A pointer is followed; `none` is `NULL`. -/
def deref : Option α → Code σ α
  | some a => pure a
  | none => fun s => (.crashed, s)

/-- `PG_TRY`, `PG_FINALLY`: the cleanup runs after the body in any case, it is told whether an error
    was raised (`_do_rethrow`), and such an error is raised again after it. -/
def pgFinally (body : Code σ Unit) (cleanup : Bool → Code σ Unit) : Code σ Unit := fun s =>
  match body s with
  | (.returned _, s') => cleanup false s'
  | (.raised, s') => match cleanup true s' with
    | (.returned _, s'') => (.raised, s'')
    | r => r
  | (.crashed, s') => (.crashed, s')

/-- Code over a part of the state. -/
def lift {τ : Type*} (get : τ → σ) (set : σ → τ → τ) (c : Code σ α) : Code τ α := fun t =>
  ((c (get t)).1, set (c (get t)).2 t)

/-- An error is raised. -/
def raiseError : Code σ α := fun s => (.raised, s)

/-- A result, or an error. -/
def ofExcept {ε : Type _} : Except ε α → Code σ α
  | .ok a => pure a
  | .error _ => raiseError

/-- `PG_TRY`, `PG_FINALLY`, for a body with a result. -/
def ensuring (body : Code σ α) (cleanup : Code σ Unit) : Code σ α := fun s =>
  match body s with
  | (.crashed, s') => (.crashed, s')
  | (e, s') => match cleanup s' with
    | (.returned _, s'') => (e, s'')
    | (.raised, s'') => (.raised, s'')
    | (.crashed, s'') => (.crashed, s'')

/-- Code with local variables, which are kept when an error is caught. -/
def withLocals {τ : Type _} (l : τ) (c : Code (σ × τ) α) : Code σ α := fun s =>
  ((c (s, l)).1, (c (s, l)).2.1)

/-- Code that does not use the local variables. -/
def inner {τ : Type _} (c : Code σ α) : Code (σ × τ) α := lift Prod.fst (fun s t => (s, t.2)) c

/-- `PG_TRY`, `PG_CATCH`: the handler runs after an error, which ends there. -/
def pgCatch (body handler : Code σ α) : Code σ α := fun s =>
  match body s with
  | (.raised, s') => handler s'
  | r => r

end Code

open Code

/-- The code, started in `s`, ends as `Q` says. -/
def wp (c : Code σ α) (Q : Ending α → σ → Prop) (s : σ) : Prop := Q (c s).1 (c s).2

variable {c : Code σ α} {f : α → Code σ β}

@[simp] theorem wp_pure (a : α) {Q : Ending α → σ → Prop} :
    wp (pure a : Code σ α) Q s ↔ Q (.returned a) s := Iff.rfl

@[simp] theorem wp_state {Q : Ending σ → σ → Prop} : wp state Q s ↔ Q (.returned s) s := Iff.rfl

@[simp] theorem wp_update (f : σ → σ) {Q : Ending Unit → σ → Prop} :
    wp (update f) Q s ↔ Q (.returned ()) (f s) := Iff.rfl

@[simp] theorem wp_crash {Q : Ending Unit → σ → Prop} : wp crash Q s ↔ Q .crashed s := Iff.rfl

@[simp] theorem wp_deref_some (a : α) {Q : Ending α → σ → Prop} :
    wp (deref (some a)) Q s ↔ Q (.returned a) s := Iff.rfl

@[simp] theorem wp_deref_none {Q : Ending α → σ → Prop} :
    wp (deref none) Q s ↔ Q .crashed s := Iff.rfl

/-- **Rule for a call**: it raises in the state it was called in. -/
@[simp] theorem wp_call (fails : Bool) (f : σ → σ) {Q : Ending Unit → σ → Prop} :
    wp (call fails f) Q s ↔
      (fails = true → Q .raised s) ∧ (fails = false → Q (.returned ()) (f s)) := by
  cases fails <;> simp [wp, call]

theorem Code.bind_apply (c : Code σ α) (f : α → Code σ β) (s : σ) : (c >>= f) s =
    match c s with
    | (.returned a, s') => f a s'
    | (.raised, s') => (.raised, s')
    | (.crashed, s') => (.crashed, s') := rfl

theorem Code.bind_assoc {γ : Type _} (c : Code σ α) (f : α → Code σ β) (g : β → Code σ γ) :
    (c >>= f) >>= g = c >>= fun a => f a >>= g := by
  funext s
  simp only [bind]
  rcases c s with ⟨_ | _ | _, s'⟩ <;> rfl

/-- What is left to show of an ending, where code that returns is followed by `f`. -/
def andThen (f : α → Code σ β) (Q : Ending β → σ → Prop) : Ending α → σ → Prop
  | .returned a, s => wp (f a) Q s
  | .raised, s => Q .raised s
  | .crashed, s => Q .crashed s

/-- **Rule of sequence.** -/
@[simp] theorem wp_bind {Q : Ending β → σ → Prop} :
    wp (c >>= f) Q s ↔ wp c (andThen f Q) s := by
  simp only [wp, bind]
  split <;> rename_i h <;> simp [h, andThen, wp]

@[simp] theorem andThen_returned (a : α) {Q : Ending β → σ → Prop} :
    andThen f Q (.returned a) s ↔ wp (f a) Q s := Iff.rfl

@[simp] theorem andThen_raised {Q : Ending β → σ → Prop} :
    andThen f Q .raised s ↔ Q .raised s := Iff.rfl

@[simp] theorem andThen_crashed {Q : Ending β → σ → Prop} :
    andThen f Q .crashed s ↔ Q .crashed s := Iff.rfl

/-- A last call without an effect leaves the state as it was, so it does not count where returning
    and raising an error are the same. -/
theorem wp_bind_call {Q : Ending Unit → σ → Prop} (hQ : ∀ s, Q .raised s ↔ Q (.returned ()) s)
    (c : Code σ Unit) (fails : Bool) : wp (c >>= fun _ => call fails) Q s ↔ wp c Q s := by
  rw [wp_bind]
  unfold wp
  rcases c s with ⟨_ | _ | _, s'⟩
  · cases fails
    · exact Iff.rfl
    · exact hQ s'
  · exact Iff.rfl
  · exact Iff.rfl

/-- **Rule for a part of the state**: the rest is left alone. -/
theorem wp_lift {τ : Type*} {get : τ → σ} {set : σ → τ → τ} {t : τ} {Q : Ending α → τ → Prop} :
    wp (lift get set c) Q t ↔ wp c (fun e s => Q e (set s t)) (get t) := Iff.rfl

@[simp] theorem wp_raiseError {Q : Ending α → σ → Prop} : wp raiseError Q s ↔ Q .raised s := Iff.rfl

@[simp] theorem wp_withLocals {τ : Type _} {l : τ} {c : Code (σ × τ) α} {Q : Ending α → σ → Prop} :
    wp (withLocals l c) Q s ↔ wp c (fun e t => Q e t.1) (s, l) := Iff.rfl

@[simp] theorem wp_inner {τ : Type _} {l : τ} {Q : Ending α → σ × τ → Prop} :
    wp (inner c) Q (s, l) ↔ wp c (fun e s => Q e (s, l)) s := Iff.rfl

theorem wp_mono {Q Q' : Ending α → σ → Prop} (h : wp c Q s) (hQ : ∀ e s, Q e s → Q' e s) :
    wp c Q' s := hQ _ _ h

/-- What is decided by an ending holds of the code or not as it does of the ending. -/
theorem wp_iff {P Q : Ending α → σ → Prop} {R : Prop} (h : wp c P s)
    (hQ : ∀ e s, P e s → (Q e s ↔ R)) : wp c Q s ↔ R := hQ _ _ h

/-- An error once raised is raised again by cleanup that returns. -/
def rethrow : Ending Unit → Ending Unit
  | .returned _ => .raised
  | e => e

/-- **Rule for cleanup.** -/
theorem wp_pgFinally {body : Code σ Unit} {cleanup : Bool → Code σ Unit}
    {Q : Ending Unit → σ → Prop} : wp (pgFinally body cleanup) Q s ↔
      wp body (fun e s => match e with
        | .returned _ => wp (cleanup false) Q s
        | .raised => wp (cleanup true) (fun e s => Q (rethrow e) s) s
        | .crashed => Q .crashed s) s := by
  unfold wp pgFinally
  rcases body s with ⟨_ | _ | _, s'⟩
  · rfl
  · dsimp only
    rcases cleanup true s' with ⟨_ | _ | _, s''⟩ <;> rfl
  · rfl

/-! ## Code beside a computation with errors -/

/-- The ending of a computation. -/
def Ending.ofExcept {ε : Type _} : Except ε α → Ending α
  | .ok a => .returned a
  | .error _ => .raised

section
variable {ε γ : Type _} {Q : Except ε γ → Ending β → σ → Prop}

theorem wp_ofExcept {x : Except ε α} {Q : Ending α → σ → Prop} :
    wp (ofExcept x) Q s ↔ Q (.ofExcept x) s := by
  cases x <;> exact Iff.rfl

/-- **Rule for a step** that fails where the computation does. -/
theorem wp_ofExcept_bind {x : Except ε α} {g : α → Except ε γ} (herr : ∀ err, Q (.error err) .raised s)
    (hok : ∀ a, x = .ok a → wp (f a) (Q (g a)) s) :
    wp (ofExcept x >>= f) (Q (x >>= g)) s := by
  cases x with
  | error err => exact herr err
  | ok a => exact hok a rfl

/-- **Rule for a check.** -/
theorem wp_check {b : Bool} {p : Prop} [Decidable p] {code : Code σ β} {r r' : Except ε γ}
    (hb : b = true ↔ p) (hr : ∃ err, r' = .error err) (herr : ∀ err, Q (.error err) .raised s)
    (hok : ¬ p → wp code (Q r) s) :
    wp (call b >>= fun _ => code) (Q (if p then r' else r)) s := by
  obtain ⟨err, rfl⟩ := hr
  rw [wp_bind, wp_call]
  constructor
  · intro h
    rw [if_pos (hb.1 h)]
    exact herr err
  · intro h
    have hp : ¬ p := fun hp => by rw [hb.2 hp] at h; cases h
    rw [if_neg hp]
    exact hok hp

end

/-- **Rule for cleanup that returns**, after a body with a result. -/
theorem wp_ensuring {body : Code σ α} {cleanup : Code σ Unit} {Q : Ending α → σ → Prop} :
    wp (ensuring body cleanup) Q s ↔ wp body (fun e s => match e with
      | .crashed => Q .crashed s
      | e => wp cleanup (fun e' s => match e' with
        | .returned _ => Q e s
        | .raised => Q .raised s
        | .crashed => Q .crashed s) s) s := by
  unfold wp ensuring
  rcases body s with ⟨_ | _ | _, s'⟩
  · dsimp only
    rcases cleanup s' with ⟨_ | _ | _, s''⟩ <;> rfl
  · dsimp only
    rcases cleanup s' with ⟨_ | _ | _, s''⟩ <;> rfl
  · rfl

/-- **Rule for a handler.** -/
theorem wp_pgCatch {body handler : Code σ α} {Q : Ending α → σ → Prop} :
    wp (pgCatch body handler) Q s ↔
      wp body (fun e s => match e with
        | .raised => wp handler Q s
        | e => Q e s) s := by
  unfold wp pgCatch
  rcases body s with ⟨_ | _ | _, s'⟩ <;> rfl

/-! ## Invariants -/

/-- Whatever way the code ends, it keeps `I`. -/
def Keeps (I : σ → Prop) (c : Code σ α) : Prop := ∀ s, I s → wp c (fun _ s => I s) s

namespace Keeps

variable {I : σ → Prop}

theorem pure (a : α) : Keeps I (Pure.pure a : Code σ α) := fun _ h => h

theorem update {g : σ → σ} (hg : ∀ s, I s → I (g s)) : Keeps I (Code.update g) := hg

theorem call {fails : Bool} {g : σ → σ} (hg : ∀ s, I s → I (g s)) : Keeps I (Code.call fails g) :=
  fun s h => (wp_call fails g).2 ⟨fun _ => h, fun _ => hg s h⟩

theorem deref (a : Option α) : Keeps I (Code.deref a : Code σ α) := by
  intro s h
  cases a <;> exact h

theorem bind (hc : Keeps I c) (hf : ∀ a, Keeps I (f a)) : Keeps I (c >>= f) := by
  intro s h
  rw [wp_bind]
  refine wp_mono (hc s h) fun e s h => ?_
  cases e with
  | returned a => exact hf a s h
  | raised => exact h
  | crashed => exact h

theorem pgCatch {body handler : Code σ α} (hb : Keeps I body) (hh : Keeps I handler) :
    Keeps I (Code.pgCatch body handler) := by
  refine fun s h => wp_pgCatch.2 (wp_mono (hb s h) fun e s h => ?_)
  cases e with
  | returned _ | crashed => exact h
  | raised => exact hh s h

theorem pgFinally {body : Code σ Unit} {cleanup : Bool → Code σ Unit} (hb : Keeps I body)
    (hc : ∀ b, Keeps I (cleanup b)) : Keeps I (Code.pgFinally body cleanup) := by
  refine fun s h => wp_pgFinally.2 (wp_mono (hb s h) fun e s h => ?_)
  cases e with
  | returned _ => exact hc false s h
  | raised => exact hc true s h
  | crashed => exact h

/-- What is decided by the state, where it is known to satisfy the invariant. -/
theorem state_bind {g : σ → Code σ β} (hg : ∀ s₀, I s₀ → Keeps I (g s₀)) :
    Keeps I (Code.state >>= g) := fun s h => hg s h s h

end Keeps

/-- **Rule for cleanup after code with an invariant**, where only the state at the end counts. -/
theorem wp_pgFinally_of_keeps {I : σ → Prop} {body : Code σ Unit} {cleanup : Bool → Code σ Unit}
    {Q : σ → Prop} (hbody : Keeps I body) (hcleanup : ∀ b s, I s → wp (cleanup b) (fun _ s => Q s) s)
    (hcrash : ∀ s, I s → Q s) (hs : I s) : wp (pgFinally body cleanup) (fun _ s => Q s) s := by
  refine wp_pgFinally.2 (wp_mono (hbody s hs) fun e s h => ?_)
  cases e with
  | returned _ => exact hcleanup false s h
  | raised => exact hcleanup true s h
  | crashed => exact hcrash s h

/-! ## Two codes in lockstep -/

/-- Started in related states, the two end in the same way, and again in related states. -/
def Alike {τ : Type*} (R : σ → τ → Prop) (c : Code σ α) (d : Code τ α) : Prop :=
  ∀ s t, R s t → (c s).1 = (d t).1 ∧ R (c s).2 (d t).2

namespace Alike

variable {τ : Type*} {R : σ → τ → Prop} {d : Code τ α} {g : α → Code τ β}

theorem update {f : σ → σ} {g : τ → τ} (h : ∀ s t, R s t → R (f s) (g t)) :
    Alike R (Code.update f) (Code.update g) := fun s t hst => ⟨rfl, h s t hst⟩

theorem call {fails : Bool} {f : σ → σ} {g : τ → τ} (h : ∀ s t, R s t → R (f s) (g t)) :
    Alike R (Code.call fails f) (Code.call fails g) := by
  intro s t hst
  cases fails
  · exact ⟨rfl, h s t hst⟩
  · exact ⟨rfl, hst⟩

theorem bind (hc : Alike R c d) (hf : ∀ a, Alike R (f a) (g a)) :
    Alike R (c >>= f) (d >>= g) := by
  intro s t hst
  have hcd := hc s t hst
  simp only [Bind.bind]
  rcases hx : c s with ⟨e, s'⟩
  rcases hy : d t with ⟨e', t'⟩
  rw [hx, hy] at hcd
  obtain ⟨rfl, hR⟩ := hcd
  cases e with
  | returned a => exact hf a s' t' hR
  | raised | crashed => exact ⟨rfl, hR⟩

/-- Only one of the two does something first, without an error. -/
theorem left {c' : Code σ Unit} (hc' : ∀ s t, R s t → (c' s).1 = .returned () ∧ R (c' s).2 t)
    (hc : Alike R c d) : Alike R (c' >>= fun _ => c) d := by
  intro s t hst
  have h := hc' s t hst
  simp only [Bind.bind]
  rcases hx : c' s with ⟨e, s'⟩
  rw [hx] at h
  obtain ⟨rfl, hR⟩ := h
  exact hc s' t hR

/-- Only one of the two does something last, without an error. -/
theorem leftLast {d : Code τ Unit} {c c' : Code σ Unit} (hc : Alike R c d)
    (hc' : ∀ s t, R s t → (c' s).1 = .returned () ∧ R (c' s).2 t) :
    Alike R (c >>= fun _ => c') d := by
  intro s t hst
  have hcd := hc s t hst
  simp only [Bind.bind]
  rcases hx : c s with ⟨e, s'⟩
  rcases hy : d t with ⟨e', t'⟩
  rw [hx, hy] at hcd
  obtain ⟨rfl, hR⟩ := hcd
  cases e with
  | returned _ => exact hc' s' t' hR
  | raised | crashed => exact ⟨rfl, hR⟩

theorem symm (hc : Alike R c d) : Alike (fun t s => R s t) d c := fun t s hst =>
  ⟨(hc s t hst).1.symm, (hc s t hst).2⟩

end Alike

/-- The ending of code with a cleanup, from those of the two parts. -/
theorem pgFinally_ending {τ : Type*} {t : τ} {body : Code σ Unit} {body' : Code τ Unit}
    {cleanup : Bool → Code σ Unit} {cleanup' : Bool → Code τ Unit} (hbody : (body s).1 = (body' t).1)
    (hcleanup : ∀ b, (cleanup b (body s).2).1 = (cleanup' b (body' t).2).1) :
    (pgFinally body cleanup s).1 = (pgFinally body' cleanup' t).1 := by
  simp only [pgFinally]
  rcases hx : body s with ⟨e, s'⟩
  rcases hy : body' t with ⟨e', t'⟩
  rw [hx, hy] at hbody hcleanup
  obtain rfl : e = e' := hbody
  cases e with
  | returned _ => exact hcleanup false
  | raised =>
    have hc := hcleanup true
    rcases hx₁ : cleanup true s' with ⟨e₁, s₁⟩
    rcases hy₁ : cleanup' true t' with ⟨e₂, t₁⟩
    rw [hx₁, hy₁] at hc
    obtain rfl : e₁ = e₂ := hc
    cases e₁ <;> simp [hx₁, hy₁]
  | crashed => rfl

end PgTry
