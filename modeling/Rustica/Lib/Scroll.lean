/-
  Positions in a list that is read in both directions.

  A position is before the first item, on one, or after the last.  Reading forward in pieces gives the
  items in order (`Scroll.read_forward`), and all of them once a piece is empty (`Scroll.read_all`).
-/
import Mathlib.Tactic

/-- Position 0 is before the first item, `i + 1` is on item `i`, and the last one is after all. -/
structure Scroll (α : Type*) where
  items : List α
  pos : ℕ
  le : pos ≤ items.length + 1

namespace Scroll

variable {α : Type*} (s : Scroll α)

/-- Before the first item. -/
def start (items : List α) : Scroll α := ⟨items, 0, Nat.zero_le _⟩

/-- Another position. -/
def move (pos : ℕ) : Scroll α := ⟨s.items, min pos (s.items.length + 1), Nat.min_le_right _ _⟩

/-- The next items. -/
def next (n : ℕ) : List α := (s.items.drop s.pos).take n

/-- The items before, the last one first. -/
def prev (n : ℕ) : List α := (s.items.take (s.pos - 1)).reverse.take n

/-- The item at the position. -/
def here : List α := if s.pos = 0 then [] else (s.items.drop (s.pos - 1)).take 1

/-- What has been passed. -/
def read : List α := s.items.take s.pos

@[simp] theorem items_move (pos : ℕ) : (s.move pos).items = s.items := rfl

theorem read_start (items : List α) : (start items).read = [] := List.take_zero

variable {s}

theorem mem_next {n : ℕ} {x : α} (h : x ∈ s.next n) : x ∈ s.items :=
  List.mem_of_mem_drop (List.mem_of_mem_take h)

theorem mem_prev {n : ℕ} {x : α} (h : x ∈ s.prev n) : x ∈ s.items :=
  List.mem_of_mem_take (List.mem_reverse.1 (List.mem_of_mem_take h))

theorem mem_here {x : α} (h : x ∈ s.here) : x ∈ s.items := by
  rw [here] at h
  split_ifs at h with h0
  · exact absurd h List.not_mem_nil
  · exact List.mem_of_mem_drop (List.mem_of_mem_take h)

/-- **Reading forward** appends. -/
theorem read_forward (n : ℕ) : (s.move (s.pos + n)).read = s.read ++ s.next n := by
  have hmin : s.items.take (min (s.pos + n) (s.items.length + 1)) = s.items.take (s.pos + n) := by
    rcases Nat.le_total (s.pos + n) (s.items.length + 1) with h | h
    · rw [Nat.min_eq_left h]
    · rw [Nat.min_eq_right h, List.take_of_length_le (Nat.le_succ _),
        List.take_of_length_le (by omega)]
  exact hmin.trans List.take_add

/-- **An empty piece** is the end. -/
theorem read_all {n : ℕ} (hn : 0 < n) (h : s.next n = []) : s.read = s.items := by
  rw [next, List.take_eq_nil_iff, List.drop_eq_nil_iff] at h
  exact List.take_of_length_le (h.resolve_left hn.ne')

end Scroll
