/-
  Objects in memory that point to each other: a memory is closed if no live object points to one
  that is not live.  Making an object keeps that as long as it points to live ones; freeing one
  keeps it exactly as long as no other object points to it (`Closed.free_iff`).  Whatever can be
  followed from a live object of a closed memory is live (`Closed.live_of_follows`).

  For a collector only that counts which the roots reach: a memory is traced if all of it is live.
  That is kept by objects that point to what is reached (`Traced.store`) and by freeing what is not
  (`Traced.free`).
-/
import Mathlib.Tactic
import Mathlib.Logic.Relation

/-- What is stored at each pointer whose object is live. -/
structure Memory (P V : Type*) where
  get? : P → Option V

namespace Memory

variable {P V : Type*}

/-- The object at `p` has been made and not been freed. -/
def Live (m : Memory P V) (p : P) : Prop := (m.get? p).isSome

instance (m : Memory P V) (p : P) : Decidable (m.Live p) := inferInstanceAs (Decidable (_ = true))

def empty : Memory P V := ⟨fun _ => none⟩

section
variable [DecidableEq P]

/-- The memory in which the object at `p` is `v`. -/
def store (m : Memory P V) (p : P) (v : V) : Memory P V := ⟨Function.update m.get? p (some v)⟩

/-- The memory without the object at `p`. -/
def free (m : Memory P V) (p : P) : Memory P V := ⟨Function.update m.get? p none⟩

end

variable (refs : V → List P)

/-- No live object points to one that is not live. -/
def Closed (m : Memory P V) : Prop := ∀ p v, m.get? p = some v → ∀ q ∈ refs v, m.Live q

/-- The object at `p` points to `q`. -/
def Points (m : Memory P V) (p q : P) : Prop := ∃ v, m.get? p = some v ∧ q ∈ refs v

/-- Following pointers from `p` leads to `q`. -/
def Follows (m : Memory P V) : P → P → Prop := Relation.ReflTransGen (m.Points refs)

variable {refs} {m : Memory P V} {p q : P} {v : V}

theorem live_iff : m.Live p ↔ ∃ v, m.get? p = some v := Option.isSome_iff_exists

theorem live_of_get? (h : m.get? p = some v) : m.Live p := live_iff.2 ⟨v, h⟩

@[simp] theorem not_live_empty : ¬ (empty : Memory P V).Live p := by simp [Live, empty]

theorem closed_empty : (empty : Memory P V).Closed refs := by
  rintro p v ⟨⟩

/-- **Following pointers** from a live object never leads out of a closed memory. -/
theorem Closed.live_of_follows (h : m.Closed refs) (hp : m.Live p) (hq : m.Follows refs p q) :
    m.Live q := by
  induction hq with
  | refl => exact hp
  | tail _ hlast _ =>
    obtain ⟨v, hv, hmem⟩ := hlast
    exact h _ _ hv _ hmem

section
variable [DecidableEq P]

@[simp] theorem get?_store_self : (m.store p v).get? p = some v := by simp [store]

theorem get?_store_of_ne (h : q ≠ p) : (m.store p v).get? q = m.get? q := by simp [store, h]

@[simp] theorem get?_free_self : (m.free p).get? p = none := by simp [free]

theorem get?_free_of_ne (h : q ≠ p) : (m.free p).get? q = m.get? q := by simp [free, h]

@[simp] theorem store_store {w : V} : (m.store p v).store p w = m.store p w := by
  simp [store]

theorem live_store : (m.store p v).Live q ↔ q = p ∨ m.Live q := by
  by_cases h : q = p
  · subst h
    simp [Live]
  · rw [Live, get?_store_of_ne h]
    simp [Live, h]

theorem live_free : (m.free p).Live q ↔ q ≠ p ∧ m.Live q := by
  by_cases h : q = p
  · subst h
    simp [Live]
  · rw [Live, get?_free_of_ne h]
    simp [Live, h]

/-- A new object may point to live ones and to itself. -/
theorem Closed.store (h : m.Closed refs) (hv : ∀ q ∈ refs v, q = p ∨ m.Live q) :
    (m.store p v).Closed refs := by
  intro a w hw b hb
  rw [live_store]
  by_cases ha : a = p
  · subst ha
    rw [get?_store_self] at hw
    cases hw
    exact hv b hb
  · rw [get?_store_of_ne ha] at hw
    exact .inr (h a w hw b hb)

/-- **A new object** adds itself, and what it points to, to what can be followed. -/
theorem follows_store {a : P} (h : (m.store p v).Follows refs a q) :
    (a ≠ p ∧ m.Follows refs a q) ∨ q = p ∨ ∃ b ∈ refs v, m.Follows refs b q := by
  induction h with
  | refl =>
    by_cases ha : a = p
    · exact .inr (.inl ha)
    · exact .inl ⟨ha, .refl⟩
  | @tail b c _ hlast ih =>
    obtain ⟨w, hw, hc⟩ := hlast
    by_cases hb : b = p
    · subst hb
      rw [get?_store_self] at hw
      cases hw
      exact .inr (.inr ⟨c, hc, .refl⟩)
    · rw [get?_store_of_ne hb] at hw
      rcases ih with ⟨ha, hab⟩ | hbp | ⟨d, hd, hdb⟩
      · exact .inl ⟨ha, hab.tail ⟨w, hw, hc⟩⟩
      · exact absurd hbp hb
      · exact .inr (.inr ⟨d, hd, hdb.tail ⟨w, hw, hc⟩⟩)

/-- **Freeing** an object keeps a memory closed exactly if no other object points to it. -/
theorem Closed.free_iff (h : m.Closed refs) :
    (m.free p).Closed refs ↔ ∀ a ≠ p, ¬ m.Points refs a p := by
  constructor
  · rintro hfree a ha ⟨v, hv, hp⟩
    have hlive := hfree a v ((get?_free_of_ne ha).trans hv) p hp
    exact (live_free.1 hlive).1 rfl
  · intro hpoints a v hv b hb
    by_cases ha : a = p
    · subst ha
      simp at hv
    · rw [get?_free_of_ne ha] at hv
      refine live_free.2 ⟨?_, h a v hv b hb⟩
      rintro rfl
      exact hpoints a ha ⟨v, hv, hb⟩

end

/-! ## Roots -/

section
variable (refs)

/-- Following pointers from a root leads to `q`. -/
def Reaches (m : Memory P V) (roots : List P) (q : P) : Prop :=
  ∃ r ∈ roots, m.Follows refs r q

/-- All that the roots reach is live. -/
def Traced (m : Memory P V) (roots : List P) : Prop := ∀ q, m.Reaches refs roots q → m.Live q

end

variable {roots roots' : List P}

theorem Reaches.root (h : p ∈ roots) : m.Reaches refs roots p := ⟨p, h, .refl⟩

theorem Reaches.points (h : m.Reaches refs roots p) (hq : m.Points refs p q) :
    m.Reaches refs roots q := by
  obtain ⟨r, hr, hp⟩ := h
  exact ⟨r, hr, hp.tail hq⟩

/-- **Rule of reachability**: what holds of the roots and is handed on along pointers holds of all
    that is reached. -/
theorem Reaches.rule {I : P → Prop} (hroots : ∀ r ∈ roots, I r)
    (hpoints : ∀ a b, I a → m.Points refs a b → I b) (h : m.Reaches refs roots q) : I q := by
  obtain ⟨r, hr, hq⟩ := h
  induction hq with
  | refl => exact hroots r hr
  | tail _ hlast ih => exact hpoints _ _ ih hlast

theorem Reaches.of_roots (h : m.Reaches refs roots q)
    (hroots : ∀ r ∈ roots, m.Reaches refs roots' r) : m.Reaches refs roots' q :=
  h.rule hroots fun _ _ ha hab => ha.points hab

theorem Traced.of_roots (h : m.Traced refs roots')
    (hroots : ∀ r ∈ roots, m.Reaches refs roots' r) : m.Traced refs roots :=
  fun q hq => h q (hq.of_roots hroots)

/-- In a closed memory with live roots all that is reached is live. -/
theorem Closed.traced (h : m.Closed refs) (hroots : ∀ r ∈ roots, m.Live r) : m.Traced refs roots := by
  rintro q ⟨r, hr, hq⟩
  exact h.live_of_follows (hroots r hr) hq

section
variable [DecidableEq P]

/-- An object is made or changed so that it points only to what is reached, and to itself. -/
theorem Traced.store (h : m.Traced refs roots)
    (hv : ∀ q ∈ refs v, q = p ∨ m.Reaches refs roots q)
    (hroots : ∀ r ∈ roots', r = p ∨ m.Reaches refs roots r) :
    (m.store p v).Traced refs roots' := by
  intro q hq
  have hI : q = p ∨ m.Reaches refs roots q := by
    refine hq.rule (I := fun q => q = p ∨ m.Reaches refs roots q) hroots ?_
    rintro a b ha ⟨w, hw, hb⟩
    by_cases hap : a = p
    · subst hap
      rw [get?_store_self] at hw
      cases hw
      exact hv b hb
    · rw [get?_store_of_ne hap] at hw
      exact .inr ((ha.resolve_left hap).points ⟨w, hw, hb⟩)
  rw [live_store]
  exact hI.imp_right fun hq => h q hq

theorem reaches_of_free (h : (m.free p).Reaches refs roots q) : m.Reaches refs roots q := by
  refine h.rule (fun r hr => .root hr) ?_
  rintro a b ha ⟨w, hw, hb⟩
  by_cases hap : a = p
  · subst hap
    simp at hw
  · rw [get?_free_of_ne hap] at hw
    exact ha.points ⟨w, hw, hb⟩

/-- **What is not reached** can be freed. -/
theorem Traced.free (h : m.Traced refs roots) (hp : ¬ m.Reaches refs roots p) :
    (m.free p).Traced refs roots := by
  intro q hq
  have hm : m.Reaches refs roots q := reaches_of_free hq
  refine live_free.2 ⟨?_, h q hm⟩
  rintro rfl
  exact hp hm

/-! ## Collections -/

/-- The memory without the objects of a list. -/
def sweep (m : Memory P V) (dead : List P) : Memory P V := dead.foldl free m

theorem get?_sweep {dead : List P} :
    (m.sweep dead).get? q = if q ∈ dead then none else m.get? q := by
  induction dead generalizing m with
  | nil => simp [sweep]
  | cons p dead ih =>
    rw [sweep, List.foldl_cons, ← sweep, ih]
    by_cases hq : q = p
    · subst hq
      simp
    · rw [get?_free_of_ne hq]
      simp [hq]

theorem live_sweep {dead : List P} : (m.sweep dead).Live q ↔ q ∉ dead ∧ m.Live q := by
  rw [Live, get?_sweep]
  by_cases hq : q ∈ dead
  · simp [hq]
  · simp [hq, Live]

/-- The list is of all that is live and that the roots do not reach. -/
def Garbage (refs : V → List P) (m : Memory P V) (roots dead : List P) : Prop :=
  ∀ p, p ∈ dead ↔ m.Live p ∧ ¬ m.Reaches refs roots p

/-- **A collection** leaves what is live and reached, -/
theorem Garbage.live_iff {dead : List P} (h : m.Garbage refs roots dead) :
    (m.sweep dead).Live q ↔ m.Live q ∧ m.Reaches refs roots q := by
  rw [live_sweep, h q]
  tauto

/-- and a memory that is closed. -/
theorem Closed.sweep {dead : List P} (h : m.Closed refs) (hd : m.Garbage refs roots dead) :
    (m.sweep dead).Closed refs := by
  intro p v hv q hq
  have hp := hd.live_iff.1 (live_of_get? hv)
  rw [get?_sweep] at hv
  split_ifs at hv
  exact hd.live_iff.2 ⟨h p v hv q hq, hp.2.points ⟨v, hv, hq⟩⟩

end

end Memory
