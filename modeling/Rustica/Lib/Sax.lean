/-
  Documents that are read event by event.

  A document is a scalar, an array or an object.  A reader does not see it as a whole: it is called
  back for each event of the document in order (`events`), keeps a state of its own, and the reading
  ends early once a call fails (`drive`).

  A grammar says at each place what an event leads to (`Reply`).  A reader that follows it, except
  for gaps where it stops, makes the calls of the grammar up to the first stop (`Follows.calls_eq`), and
  raises an error exactly if that is a stop that is to be reported (`Follows.raises_iff`).
-/
import Mathlib.Tactic

namespace Sax

/-! ## Documents and their events -/

/-- A document with names of type `κ` and scalars of type `σ`. -/
inductive Doc (κ σ : Type) where
  | scalar (s : σ)
  | array (xs : List (Doc κ σ))
  | object (fs : List (κ × Doc κ σ))

/-- What a reader is told; at the start of a field also whether its value is null. -/
inductive Event (κ σ : Type) where
  | objectStart
  | objectEnd
  | arrayStart
  | arrayEnd
  | fieldStart (name : κ) (isNull : Bool)
  | scalar (s : σ)
deriving DecidableEq

variable {κ σ τ : Type}

/-- A scalar that is null. -/
def Doc.isNull (null : σ → Bool) : Doc κ σ → Bool
  | .scalar s => null s
  | _ => false

mutual

/-- The events of a document, depth first. -/
def Doc.events (null : σ → Bool) : Doc κ σ → List (Event κ σ)
  | .scalar s => [.scalar s]
  | .array xs => .arrayStart :: (elements null xs ++ [.arrayEnd])
  | .object fs => .objectStart :: (fields null fs ++ [.objectEnd])

/-- The events of the elements of an array. -/
def elements (null : σ → Bool) : List (Doc κ σ) → List (Event κ σ)
  | [] => []
  | x :: xs => x.events null ++ elements null xs

/-- The events of the fields of an object. -/
def fields (null : σ → Bool) : List (κ × Doc κ σ) → List (Event κ σ)
  | [] => []
  | (k, x) :: fs => .fieldStart k (x.isNull null) :: (x.events null ++ fields null fs)

end

theorem elements_append (null : σ → Bool) (xs ys : List (Doc κ σ)) :
    elements null (xs ++ ys) = elements null xs ++ elements null ys := by
  induction xs with
  | nil => rfl
  | cons x xs ih => rw [List.cons_append, elements, elements, ih, List.append_assoc]

theorem fields_append (null : σ → Bool) (fs gs : List (κ × Doc κ σ)) :
    fields null (fs ++ gs) = fields null fs ++ fields null gs := by
  induction fs with
  | nil => rfl
  | cons f fs ih =>
    rw [List.cons_append, fields, fields, ih, List.cons_append, List.append_assoc]

/-- Every field that is said to be null is followed by a null. -/
inductive Announced (null : σ → Bool) : List (Event κ σ) → Prop
  | nil : Announced null []
  | cons {e es} : (∀ k, e ≠ .fieldStart k true) → Announced null es → Announced null (e :: es)
  | null {k s es} : null s = true → Announced null es →
      Announced null (.fieldStart k true :: .scalar s :: es)

theorem Announced.append {null : σ → Bool} {es fs : List (Event κ σ)} (h : Announced null es)
    (h' : Announced null fs) : Announced null (es ++ fs) := by
  induction h with
  | nil => exact h'
  | cons hne _ ih => exact .cons hne ih
  | null hs _ ih => exact .null hs ih

theorem Announced.next {null : σ → Bool} {es a b : List (Event κ σ)} {e : Event κ σ} {k : κ}
    (h : Announced null es) (heq : es = a ++ .fieldStart k true :: e :: b) :
    ∃ s, e = .scalar s ∧ null s = true := by
  induction h generalizing a with
  | nil => cases a <;> cases heq
  | cons hne _ ih =>
    cases a with
    | nil =>
      cases heq
      exact absurd rfl (hne k)
    | cons x a =>
      cases heq
      exact ih rfl
  | @null k' s es hs _ ih =>
    match a, heq with
    | [], heq =>
      cases heq
      exact ⟨s, rfl, hs⟩
    | [x], heq => cases heq
    | x :: y :: a, heq =>
      cases heq
      exact ih rfl

mutual

/-- **The events of a document** announce each null. -/
theorem announced_events (null : σ → Bool) : ∀ d : Doc κ σ, Announced null (d.events null)
  | .scalar s => by
    rw [Doc.events]
    exact .cons nofun .nil
  | .array xs => by
    rw [Doc.events]
    exact .cons nofun
      ((announced_elements null xs).append (.cons nofun .nil))
  | .object fs => by
    rw [Doc.events]
    exact .cons nofun
      ((announced_fields null fs).append (.cons nofun .nil))

theorem announced_elements (null : σ → Bool) :
    ∀ xs : List (Doc κ σ), Announced null (elements null xs)
  | [] => .nil
  | x :: xs => by
    rw [elements]
    exact (announced_events null x).append (announced_elements null xs)

theorem announced_fields (null : σ → Bool) :
    ∀ fs : List (κ × Doc κ σ), Announced null (fields null fs)
  | [] => .nil
  | (k, x) :: fs => by
    have hx := announced_events null x
    have hfs := announced_fields null fs
    rw [fields]
    cases hn : x.isNull null with
    | false => exact .cons (fun k' => by simp) (hx.append hfs)
    | true =>
      cases x with
      | scalar s => exact .null hn hfs
      | array xs => cases hn
      | object gs => cases hn

end

/-! ## The reader -/

/-- The end of a call: the reading goes on, or fails, or is left by an error. -/
inductive Verdict (ε : Type) where
  | success
  | failed
  | raised (err : ε)
deriving DecidableEq

variable {S T ε α β : Type}

/-- The events are told in order, up to the first that does not succeed. -/
def drive (cb : S → α → S × Verdict ε) : S → List α → S × Verdict ε
  | s, [] => (s, .success)
  | s, e :: es =>
    match cb s e with
    | (s', .success) => drive cb s' es
    | (s', v) => (s', v)

variable {cb : S → α → S × Verdict ε} {s s' : S} {e : α} {es fs : List α} {v : Verdict ε}

@[simp] theorem drive_nil : drive cb s [] = (s, .success) := rfl

theorem drive_cons_success (h : cb s e = (s', .success)) :
    drive cb s (e :: es) = drive cb s' es := by
  rw [drive, h]

theorem drive_cons_stop (h : cb s e = (s', v)) (hv : v ≠ .success) :
    drive cb s (e :: es) = (s', v) := by
  rw [drive, h]
  cases v with
  | success => exact absurd rfl hv
  | failed => rfl
  | raised err => rfl

/-- **Sequence**: what succeeds is followed by the rest. -/
theorem drive_append_success (h : drive cb s es = (s', .success)) :
    drive cb s (es ++ fs) = drive cb s' fs := by
  induction es generalizing s with
  | nil =>
    rw [drive_nil, Prod.mk.injEq] at h
    rw [List.nil_append, h.1]
  | cons e es ih =>
    rw [List.cons_append]
    rcases hcb : cb s e with ⟨s₁, v⟩
    cases v with
    | success =>
      rw [drive_cons_success hcb] at h ⊢
      exact ih h
    | failed => rw [drive_cons_stop hcb (by simp)] at h; cases h
    | raised err => rw [drive_cons_stop hcb (by simp)] at h; cases h

/-- **Invariant rule**: what each call keeps is kept by the reading. -/
theorem drive_invariant {I : S → Prop} (hcb : ∀ s e, I s → I (cb s e).1) (hs : I s) :
    I (drive cb s es).1 := by
  induction es generalizing s with
  | nil => exact hs
  | cons e es ih =>
    have hI := hcb s e hs
    rcases h : cb s e with ⟨s₁, v⟩
    rw [h] at hI
    by_cases hv : v = .success
    · rw [hv] at h
      rw [drive_cons_success h]
      exact ih hI
    · rw [drive_cons_stop h hv]
      exact hI

/-- A reader of the images of the events. -/
theorem drive_map (cb : S → β → S × Verdict ε) (f : α → β) :
    drive cb s (es.map f) = drive (fun s e => cb s (f e)) s es := by
  induction es generalizing s with
  | nil => rfl
  | cons e es ih =>
    rw [List.map_cons, drive, drive]
    rcases cb s (f e) with ⟨s₁, v⟩
    cases v with
    | success => exact ih
    | failed => rfl
    | raised err => rfl

/-! ## Grammars -/

/-- What an event leads to.  A gap is an event that the grammar knows and the reader does not. -/
inductive Reply (P C : Type) where
  | goes (p : P) (cs : List C)
  | gap (p : P)
  | reported
  | misplaced

section
variable {P C : Type} (next : P → α → Reply P C)

/-- The calls that events lead to, and `none` for each stop of a reader. -/
def trace : P → List α → List (Option C)
  | _, [] => []
  | p, e :: es =>
    match next p e with
    | .goes p' cs => cs.map some ++ trace p' es
    | .gap p' => none :: trace p' es
    | .reported | .misplaced => [none]

/-- The first stop is one that is to be reported. -/
def Reported : P → List α → Prop
  | _, [] => False
  | p, e :: es =>
    match next p e with
    | .goes p' _ => Reported p' es
    | .reported => True
    | .gap _ | .misplaced => False

/-- The events lead from one place to another without a stop. -/
inductive Goes : P → List α → P → Prop
  | nil {p} : Goes p [] p
  | cons {p e p₁ cs es p'} : next p e = .goes p₁ cs → Goes p₁ es p' → Goes p (e :: es) p'

/-- The calls up to the first stop. -/
def upto : List (Option C) → List C
  | some c :: l => c :: upto l
  | _ => []

variable (R : P → S → Prop) (calls : S → List C)

/-- A reader in the state `s` does at an event what is replied. -/
def Reply.Done (s : S) (v : S × Verdict ε) : Reply P C → Prop
  | .goes p cs => ∃ s', v = (s', .success) ∧ R p s' ∧ calls s' = calls s ++ cs
  | .gap _ | .misplaced => v = (s, .failed)
  | .reported => ∃ err, v = (s, .raised err)

/-- The reader follows the grammar, with `R` between the places and the states. -/
def Follows (cb : S → α → S × Verdict ε) : Prop :=
  ∀ p s e, R p s → (next p e).Done R calls s (cb s e)

variable {next R calls} {p p' p₁ : P} {a b : List (Option C)} {cs : List C}

@[simp] theorem upto_nil : upto ([] : List (Option C)) = [] := rfl

@[simp] theorem upto_none : upto (none :: a) = [] := rfl

theorem upto_append_some : upto (cs.map some ++ a) = cs ++ upto a := by
  induction cs with
  | nil => rfl
  | cons c cs ih => rw [List.map_cons, List.cons_append, upto, ih, List.cons_append]

theorem upto_append_congr (c : List (Option C)) (h : upto a = upto b) :
    upto (c ++ a) = upto (c ++ b) := by
  induction c with
  | nil => exact h
  | cons o c ih =>
    cases o with
    | none => rfl
    | some x => rw [List.cons_append, List.cons_append, upto, upto, ih]

/-- **One more stop** changes nothing if there is one before it, or if no call comes before the
    next. -/
theorem upto_insert_iff : upto (a ++ none :: b) = upto (a ++ b) ↔ none ∈ a ∨ upto b = [] := by
  induction a with
  | nil =>
    rw [List.nil_append, List.nil_append, upto_none]
    exact ⟨fun h => .inr h.symm, fun h => (h.resolve_left (List.not_mem_nil)).symm⟩
  | cons o a ih =>
    cases o with
    | none => simp
    | some c => simp [upto, ih]

/-- **A reader that follows a grammar** makes its calls up to the first stop. -/
theorem Follows.calls_eq (hF : Follows next R calls cb) (hR : R p s) :
    calls (drive cb s es).1 = calls s ++ upto (trace next p es) := by
  induction es generalizing p s with
  | nil => simp [trace]
  | cons e es ih =>
    have hd := hF p s e hR
    rw [trace]
    cases hn : next p e with
    | goes p' cs =>
      rw [hn] at hd
      obtain ⟨s', hcb, hR', hcalls⟩ := hd
      rw [drive_cons_success hcb, ih hR', hcalls, upto_append_some, List.append_assoc]
    | gap p' =>
      rw [hn] at hd
      rw [drive_cons_stop hd (by simp)]
      simp
    | reported =>
      rw [hn] at hd
      obtain ⟨err, hcb⟩ := hd
      rw [drive_cons_stop hcb (by simp)]
      simp
    | misplaced =>
      rw [hn] at hd
      rw [drive_cons_stop hd (by simp)]
      simp

/-- It raises an error exactly if the first stop is to be reported. -/
theorem Follows.raises_iff (hF : Follows next R calls cb) (hR : R p s) :
    (∃ err, (drive cb s es).2 = .raised err) ↔ Reported next p es := by
  induction es generalizing p s with
  | nil => simp [Reported]
  | cons e es ih =>
    have hd := hF p s e hR
    rw [Reported]
    cases hn : next p e with
    | goes p' cs =>
      rw [hn] at hd
      obtain ⟨s', hcb, hR', -⟩ := hd
      rw [drive_cons_success hcb]
      exact ih hR'
    | gap p' =>
      rw [hn] at hd
      rw [drive_cons_stop hd (by simp)]
      simp
    | reported =>
      rw [hn] at hd
      obtain ⟨err, hcb⟩ := hd
      rw [drive_cons_stop hcb (by simp)]
      simp
    | misplaced =>
      rw [hn] at hd
      rw [drive_cons_stop hd (by simp)]
      simp

theorem Goes.append (h : Goes next p es p₁) (h' : Goes next p₁ fs p') :
    Goes next p (es ++ fs) p' := by
  induction h with
  | nil => exact h'
  | cons hn _ ih => exact .cons hn (ih h')

/-- **Up to the first stop** the events lead on, and all calls come of these. -/
theorem exists_goes (next : P → α → Reply P C) (p : P) (es : List α) :
    ∃ es₁ es₂ p', es = es₁ ++ es₂ ∧ Goes next p es₁ p' ∧
      upto (trace next p es) = upto (trace next p es₁) := by
  induction es generalizing p with
  | nil => exact ⟨[], [], p, rfl, .nil, rfl⟩
  | cons e es ih =>
    rw [trace]
    cases hn : next p e with
    | goes p₁ cs =>
      obtain ⟨es₁, es₂, p', rfl, hgoes, hupto⟩ := ih p₁
      refine ⟨e :: es₁, es₂, p', rfl, .cons hn hgoes, ?_⟩
      rw [trace, hn]
      simp only [upto_append_some, hupto]
    | gap p' => exact ⟨[], e :: es, p, rfl, .nil, rfl⟩
    | reported => exact ⟨[], e :: es, p, rfl, .nil, rfl⟩
    | misplaced => exact ⟨[], e :: es, p, rfl, .nil, rfl⟩

/-- **Rule of prefixes**: what holds of nothing read, and is kept by each event that leads on, holds
    of all that is read before the first stop. -/
theorem Goes.rule {I : P → List α → Prop} (h : Goes next p es p') (fs : List α) (hI : I p fs)
    (hstep : ∀ p es e p' cs, I p es → next p e = .goes p' cs → I p' (es ++ [e])) :
    I p' (fs ++ es) := by
  induction h generalizing fs with
  | nil => rwa [List.append_nil]
  | @cons p e p₁ cs es p' hn _ ih =>
    have := ih (fs ++ [e]) (hstep _ _ _ _ _ hI hn)
    rwa [List.append_assoc] at this

end

end Sax
