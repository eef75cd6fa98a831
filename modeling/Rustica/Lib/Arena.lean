/-
  Allocations that are made and freed by hand.

  An arena numbers its allocations in the order in which they are made, and none is live twice.  To
  free what is not live, because it was never made or has been freed before, is a crash.
-/
import Rustica.Lib.PgTry

/-- The allocations that are live, and the number of the next one. -/
structure Arena where
  live : Multiset ℕ
  next : ℕ
  nodup : live.Nodup
  lt : ∀ i ∈ live, i < next

namespace Arena

open PgTry

def empty : Arena := ⟨0, 0, Multiset.nodup_zero, by simp⟩

def alloc (a : Arena) : Arena where
  live := {a.next} + a.live
  next := a.next + 1
  nodup := by
    rw [Multiset.singleton_add]
    exact Multiset.nodup_cons.2 ⟨fun h => lt_irrefl _ (a.lt _ h), a.nodup⟩
  lt i hi := by
    rw [Multiset.singleton_add] at hi
    rcases Multiset.mem_cons.1 hi with rfl | hi
    · exact Nat.lt_succ_self _
    · exact Nat.lt_succ_of_lt (a.lt i hi)

def free (a : Arena) (i : ℕ) : Arena where
  live := a.live.erase i
  next := a.next
  nodup := a.nodup.erase i
  lt j hj := a.lt j (Multiset.mem_of_mem_erase hj)

@[simp] theorem live_empty : empty.live = 0 := rfl

@[simp] theorem live_alloc (a : Arena) : a.alloc.live = {a.next} + a.live := rfl

@[simp] theorem next_alloc (a : Arena) : a.alloc.next = a.next + 1 := rfl

@[simp] theorem next_free (a : Arena) (i : ℕ) : (a.free i).next = a.next := rfl

theorem live_free {a : Arena} {i : ℕ} {F : Multiset ℕ} (h : a.live = {i} + F) :
    (a.free i).live = F := by
  change a.live.erase i = F
  rw [h, Multiset.singleton_add]
  exact Multiset.erase_cons_head i F

/-! ## Code -/

variable {a : Arena} {i : ℕ} {F : Multiset ℕ}

def allocate : Code Arena ℕ := fun a => (.returned a.next, a.alloc)

/-- What is freed has to be live. -/
def release (i : ℕ) : Code Arena Unit := fun a =>
  if i ∈ a.live then (.returned (), a.free i) else (.crashed, a)

@[simp] theorem wp_allocate {Q : Ending ℕ → Arena → Prop} :
    wp allocate Q a ↔ Q (.returned a.next) a.alloc := Iff.rfl

/-- **Rule for freeing** what is live. -/
theorem wp_release {Q : Ending Unit → Arena → Prop} (h : a.live = {i} + F) :
    wp (release i) Q a ↔ Q (.returned ()) (a.free i) := by
  have hmem : i ∈ a.live := by
    rw [h, Multiset.singleton_add]
    exact Multiset.mem_cons_self i F
  rw [wp, release, if_pos hmem]

end Arena
