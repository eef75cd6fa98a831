/-
  Objects that own allocations: each allocation belongs to at most one live object, and is freed with
  it or by it, once.  Allocations are numbered in the order in which they are made.
-/
import Rustica.Lib.Memory

namespace Memory

variable {P V : Type*} (own : V → List ℕ)

/-- The live objects own different allocations, which are not freed; `freed` lists those that are,
    and all have a number below `next`. -/
structure Owned (m : Memory P V) (freed : List ℕ) (next : ℕ) : Prop where
  lt : ∀ p v, m.get? p = some v → ∀ b ∈ own v, b < next
  nodup : ∀ p v, m.get? p = some v → (own v).Nodup
  unique : ∀ p q v w, m.get? p = some v → m.get? q = some w → ∀ b ∈ own v, b ∈ own w → p = q
  not_freed : ∀ p v, m.get? p = some v → ∀ b ∈ own v, b ∉ freed
  freed_nodup : freed.Nodup
  freed_lt : ∀ b ∈ freed, b < next

variable {own} {m : Memory P V} {freed : List ℕ} {next next' : ℕ} {p : P} {v w : V}

theorem Owned.empty : (Memory.empty : Memory P V).Owned own [] 0 where
  lt := by rintro p v ⟨⟩
  nodup := by rintro p v ⟨⟩
  unique := by rintro p q v w ⟨⟩
  not_freed := by rintro p v ⟨⟩
  freed_nodup := List.nodup_nil
  freed_lt := by rintro b ⟨⟩

variable [DecidableEq P]

/-- **An object is freed** with all that it owns. -/
theorem Owned.free (h : m.Owned own freed next) (hv : m.get? p = some v) :
    (m.free p).Owned own (own v ++ freed) next := by
  have hget : ∀ q w, (m.free p).get? q = some w → q ≠ p ∧ m.get? q = some w := by
    intro q w hw
    by_cases hq : q = p
    · subst hq
      simp at hw
    · exact ⟨hq, (get?_free_of_ne hq).symm.trans hw⟩
  refine ⟨?_, ?_, ?_, ?_, ?_, ?_⟩
  · exact fun q w hw => h.lt q w (hget q w hw).2
  · exact fun q w hw => h.nodup q w (hget q w hw).2
  · exact fun q q' w w' hw hw' => h.unique q q' w w' (hget q w hw).2 (hget q' w' hw').2
  · intro q w hw b hb hfreed
    obtain ⟨hne, hw⟩ := hget q w hw
    rcases List.mem_append.1 hfreed with hbv | hbf
    · exact hne (h.unique q p w v hw hv b hb hbv)
    · exact h.not_freed q w hw b hb hbf
  · exact (h.nodup p v hv).append h.freed_nodup fun b hb => h.not_freed p v hv b hb
  · intro b hb
    rcases List.mem_append.1 hb with hb | hb
    · exact h.lt p v hv b hb
    · exact h.freed_lt b hb

/-- **An object is made or changed**: what it owns afterwards it has owned before, or is new; what it
    frees it has owned before and does not own any more. -/
theorem Owned.store (h : m.Owned own freed next) {fr : List ℕ} (hnodup : fr.Nodup)
    (hfr : ∀ b ∈ fr, ∃ v, m.get? p = some v ∧ b ∈ own v)
    (hw : ∀ b ∈ own w, (∃ v, m.get? p = some v ∧ b ∈ own v ∧ b ∉ fr) ∨ next ≤ b ∧ b < next')
    (hle : next ≤ next') (hown : (own w).Nodup) :
    (m.store p w).Owned own (fr ++ freed) next' := by
  have hget : ∀ q u, (m.store p w).get? q = some u →
      (q = p ∧ u = w) ∨ (q ≠ p ∧ m.get? q = some u) := by
    intro q u hu
    by_cases hq : q = p
    · subst hq
      rw [get?_store_self] at hu
      exact .inl ⟨rfl, (Option.some.inj hu).symm⟩
    · exact .inr ⟨hq, (get?_store_of_ne hq).symm.trans hu⟩
  -- no other object owns what this one owns
  have hother : ∀ q u, q ≠ p → m.get? q = some u → ∀ b ∈ own u, b ∉ own w := by
    intro q u hq hu b hb hbw
    rcases hw b hbw with ⟨v, hv, hbv, -⟩ | ⟨hnew, -⟩
    · exact hq (h.unique q p u v hu hv b hb hbv)
    · exact absurd (h.lt q u hu b hb) (by omega)
  refine ⟨?_, ?_, ?_, ?_, ?_, ?_⟩
  · intro q u hu b hb
    rcases hget q u hu with ⟨rfl, rfl⟩ | ⟨-, hu⟩
    · rcases hw b hb with ⟨v, hv, hbv, -⟩ | ⟨-, hlt⟩
      · exact (h.lt q v hv b hbv).trans_le hle
      · exact hlt
    · exact (h.lt q u hu b hb).trans_le hle
  · intro q u hu
    rcases hget q u hu with ⟨rfl, rfl⟩ | ⟨-, hu⟩
    · exact hown
    · exact h.nodup q u hu
  · intro q q' u u' hu hu' b hb hb'
    rcases hget q u hu with ⟨rfl, rfl⟩ | ⟨hq, hm⟩
    · rcases hget q' u' hu' with ⟨rfl, -⟩ | ⟨hq', hu'⟩
      · rfl
      · exact absurd hb (hother q' u' hq' hu' b hb')
    · rcases hget q' u' hu' with ⟨rfl, rfl⟩ | ⟨-, hm'⟩
      · exact absurd hb' (hother q u hq hm b hb)
      · exact h.unique q q' u u' hm hm' b hb hb'
  · intro q u hu b hb hfreed
    rcases hget q u hu with ⟨rfl, rfl⟩ | ⟨hq, hu⟩
    · rcases hw b hb with ⟨v, hv, hbv, hbfr⟩ | ⟨hnew, -⟩
      · rcases List.mem_append.1 hfreed with hf | hf
        · exact hbfr hf
        · exact h.not_freed q v hv b hbv hf
      · rcases List.mem_append.1 hfreed with hf | hf
        · obtain ⟨v, hv, hbv⟩ := hfr b hf
          exact absurd (h.lt q v hv b hbv) (by omega)
        · exact absurd (h.freed_lt b hf) (by omega)
    · rcases List.mem_append.1 hfreed with hf | hf
      · obtain ⟨v, hv, hbv⟩ := hfr b hf
        exact hq (h.unique q p u v hu hv b hb hbv)
      · exact h.not_freed q u hu b hb hf
  · refine hnodup.append h.freed_nodup fun b hb => ?_
    obtain ⟨v, hv, hbv⟩ := hfr b hb
    exact h.not_freed p v hv b hbv
  · intro b hb
    rcases List.mem_append.1 hb with hb | hb
    · obtain ⟨v, hv, hbv⟩ := hfr b hb
      exact (h.lt p v hv b hbv).trans_le hle
    · exact (h.freed_lt b hb).trans_le hle

/-- An object whose allocations are all new. -/
theorem Owned.store_new (h : m.Owned own freed next)
    (hw : ∀ b ∈ own w, next ≤ b ∧ b < next') (hle : next ≤ next') (hown : (own w).Nodup) :
    (m.store p w).Owned own freed next' :=
  h.store List.nodup_nil (by rintro b ⟨⟩) (fun b hb => .inr (hw b hb)) hle hown

/-- An object that owns nothing. -/
theorem Owned.store_nil (h : m.Owned own freed next) (hw : own w = []) :
    (m.store p w).Owned own freed next := by
  refine h.store_new ?_ le_rfl ?_
  · rw [hw]
    rintro b ⟨⟩
  · rw [hw]
    exact List.nodup_nil

end Memory
