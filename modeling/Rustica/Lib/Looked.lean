/-
  Code that looks values up in a table and can fail, with the indexes that it looks up.

  Of such code there are two things to say: what its result is (`result`), and that it stays within a
  set of indexes, whether it fails or not (`Within`).  Each has a rule for every construct.
-/
import Mathlib.Tactic

/-- The result, and the indexes looked up, the first one first. -/
structure Looked (ι ε α : Type*) where
  result : Except ε α
  lookups : List ι

namespace Looked

variable {ι ε : Type*} {α β : Type _}

instance : Monad (Looked ι ε) where
  pure a := ⟨.ok a, []⟩
  bind c f := match c.result with
    | .ok a => ⟨(f a).result, c.lookups ++ (f a).lookups⟩
    | .error err => ⟨.error err, c.lookups⟩

/-- The value at an index of the table. -/
def look (table : ι → α) (i : ι) : Looked ι ε α := ⟨.ok (table i), [i]⟩

def fail (err : ε) : Looked ι ε α := ⟨.error err, []⟩

/-- All indexes looked up are in `S`. -/
def Within (S : ι → Prop) (c : Looked ι ε α) : Prop := ∀ i ∈ c.lookups, S i

variable {c : Looked ι ε α} {f : α → Looked ι ε β} {S : ι → Prop}

/-! ## Results -/

@[simp] theorem result_pure (a : α) : (pure a : Looked ι ε α).result = .ok a := rfl

@[simp] theorem result_look (table : ι → α) (i : ι) :
    (look table i : Looked ι ε α).result = .ok (table i) := rfl

@[simp] theorem result_fail (err : ε) : (fail err : Looked ι ε α).result = .error err := rfl

/-- **Rule of sequence**, for results. -/
@[simp] theorem result_bind : (c >>= f).result = c.result >>= fun a => (f a).result := by
  simp only [bind, Except.bind]
  cases c.result <;> rfl

theorem result_bind_ok {a : α} (h : c.result = .ok a) : (c >>= f).result = (f a).result := by
  simp only [result_bind, h]
  rfl

/-! ## Lookups -/

@[simp] theorem within_pure (a : α) : Within S (pure a : Looked ι ε α) := nofun

@[simp] theorem within_fail (err : ε) : Within S (fail err : Looked ι ε α) := nofun

@[simp] theorem within_look {table : ι → α} {i : ι} :
    Within S (look table i : Looked ι ε α) ↔ S i := List.forall_mem_singleton

/-- **Rule of sequence**, for lookups: what follows counts if the first part succeeds. -/
theorem within_bind :
    Within S (c >>= f) ↔ Within S c ∧ ∀ a, c.result = .ok a → Within S (f a) := by
  simp only [Within, bind]
  cases h : c.result with
  | ok a =>
    simp only [List.forall_mem_append, Except.ok.injEq]
    exact and_congr_right fun _ => ⟨fun h' _ ha => ha ▸ h', fun h' => h' a rfl⟩
  | error err => exact ⟨fun h' => ⟨h', nofun⟩, fun h' => h'.1⟩

theorem within_bind_ok {a : α} (h : c.result = .ok a) :
    Within S (c >>= f) ↔ Within S c ∧ Within S (f a) := by
  rw [within_bind, h]
  exact and_congr_right fun _ => ⟨fun h' => h' a rfl, fun h' _ ha => Except.ok.inj ha ▸ h'⟩

theorem within_ite {p : Prop} [Decidable p] {c d : Looked ι ε α} :
    Within S (if p then c else d) ↔ (p → Within S c) ∧ (¬ p → Within S d) := by
  split_ifs with h <;> simp [h]

end Looked
