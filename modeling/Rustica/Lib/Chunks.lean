/-
  Lists cut into chunks by their heads.

  The first element of a chunk announces its length, as the first byte of a character does.  The
  last chunk may be shorter than it announces, because the list ends; all others are complete.
-/
import Mathlib.Tactic

namespace Chunks

variable {α : Type*} (len : α → ℕ)

/-- The chunks of a list. -/
def chunks : List α → List (List α)
  | [] => []
  | a :: s => (a :: s.take (len a - 1)) :: chunks (s.drop (len a - 1))
termination_by s => s.length
decreasing_by rw [List.length_drop, List.length_cons]; omega

/-- How long a chunk is by what its first element says, which is at least 1. -/
def size : List α → ℕ
  | [] => 0
  | a :: _ => max 1 (len a)

/-- How long some chunks are by what their first elements say. -/
def announced (ps : List (List α)) : ℕ := (ps.map (size len)).sum

variable {len} {a : α} {s : List α} {k : ℕ}

@[simp] theorem chunks_nil : chunks len ([] : List α) = [] := by rw [chunks]

theorem chunks_cons :
    chunks len (a :: s) = (a :: s.take (len a - 1)) :: chunks len (s.drop (len a - 1)) := by
  rw [chunks]

@[simp] theorem announced_nil : announced len ([] : List (List α)) = 0 := rfl

@[simp] theorem announced_cons {p : List α} {ps : List (List α)} :
    announced len (p :: ps) = size len p + announced len ps := by
  simp [announced]

/-- A chunk has an element, and no more of them than it announces. -/
theorem length_le_size {q : List α} (hq : q ∈ chunks len s) : 0 < q.length ∧ q.length ≤ size len q := by
  induction s using chunks.induct len with
  | case1 => rw [chunks_nil] at hq; cases hq
  | case2 a s ih =>
    rw [chunks_cons] at hq
    rcases List.mem_cons.1 hq with rfl | hq
    · rw [size, List.length_cons, List.length_take]
      omega
    · exact ih hq

theorem drop_size_cons (n : ℕ) :
    (a :: s).drop (max 1 (len a) + n) = (s.drop (len a - 1)).drop n := by
  rw [show max 1 (len a) + n = (len a - 1 + n) + 1 by omega, List.drop_succ_cons, List.drop_drop]

theorem take_size_cons (n : ℕ) :
    (a :: s).take (max 1 (len a) + n) =
      a :: s.take (len a - 1) ++ (s.drop (len a - 1)).take n := by
  rw [show max 1 (len a) + n = (len a - 1 + n) + 1 by omega, List.take_succ_cons, List.take_add,
    List.cons_append]

/-- **The chunks from the `k`-th on** are those of what follows the length that the first `k`
    announce. -/
theorem chunks_drop (k : ℕ) (s : List α) :
    (chunks len s).drop k = chunks len (s.drop (announced len ((chunks len s).take k))) := by
  induction k generalizing s with
  | zero => rw [List.take_zero, announced_nil, List.drop_zero, List.drop_zero]
  | succ k ih =>
    cases s with
    | nil => simp
    | cons a s =>
      rw [chunks_cons, List.drop_succ_cons, List.take_succ_cons, announced_cons, size,
        drop_size_cons, ih]

/-- **The first `k` chunks** are the elements up to that length. -/
theorem flatten_take_chunks (k : ℕ) (s : List α) :
    ((chunks len s).take k).flatten = s.take (announced len ((chunks len s).take k)) := by
  induction k generalizing s with
  | zero => simp
  | succ k ih =>
    cases s with
    | nil => simp
    | cons a s =>
      rw [chunks_cons, List.take_succ_cons, announced_cons, size, take_size_cons,
        List.flatten_cons, ih]

end Chunks
