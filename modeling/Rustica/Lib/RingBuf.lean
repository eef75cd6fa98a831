/-
  Circular buffers over an array of `n` cells, and the queue they hold.

  The buffer keeps the cell of the next pop (`head`), of the next push (`tail`) and its fill
  (`size`); `toList n` is the queue, oldest entry first.  A push into a buffer that is already
  full is possible (it overwrites the oldest cell): `size ≤ n` is not part of well-formedness.
-/
import Mathlib.Tactic

/-- A circular buffer. -/
structure RingBuf (α : Type*) where
  buf : ℕ → α
  head : ℕ
  tail : ℕ
  size : ℕ

namespace RingBuf

variable {α : Type*} {n : ℕ} {r : RingBuf α} {x : α}

/-- The buffer with every cell `x` and no entry. -/
def empty (x : α) : RingBuf α := ⟨fun _ => x, 0, 0, 0⟩

/-- `buf[tail] = x; tail = (tail + 1) % n; size++`. -/
def push (n : ℕ) (r : RingBuf α) (x : α) : RingBuf α :=
  { r with buf := Function.update r.buf r.tail x, tail := (r.tail + 1) % n, size := r.size + 1 }

/-- `head = (head + 1) % n; size--`. -/
def pop (n : ℕ) (r : RingBuf α) : RingBuf α :=
  { r with head := (r.head + 1) % n, size := r.size - 1 }

/-- The entry the next pop takes. -/
def front (r : RingBuf α) : α := r.buf r.head

/-- The queue held by the buffer. -/
def toList (n : ℕ) (r : RingBuf α) : List α :=
  (List.range r.size).map fun k => r.buf ((r.head + k) % n)

/-- The two positions are cells, and `tail` is `size` cells past `head`. -/
structure Wf (n : ℕ) (r : RingBuf α) : Prop where
  head_lt : r.head < n
  tail_eq : r.tail = (r.head + r.size) % n

@[simp] theorem size_push : (r.push n x).size = r.size + 1 := rfl
@[simp] theorem size_pop : (r.pop n).size = r.size - 1 := rfl
@[simp] theorem size_empty : (empty x).size = 0 := rfl
@[simp] theorem length_toList : (r.toList n).length = r.size := by simp [toList]
@[simp] theorem toList_empty : (empty x).toList n = [] := rfl

theorem toList_eq_nil : r.toList n = [] ↔ r.size = 0 := by
  rw [← List.length_eq_zero_iff, length_toList]

theorem wf_empty (hn : 0 < n) : Wf n (empty x) := ⟨hn, by simp [empty]⟩

theorem Wf.pos (hr : Wf n r) : 0 < n := by have := hr.head_lt; omega

theorem Wf.push (hr : Wf n r) (x : α) : Wf n (r.push n x) := by
  refine ⟨hr.head_lt, ?_⟩
  simp only [RingBuf.push]
  rw [hr.tail_eq, Nat.mod_add_mod, Nat.add_assoc]

theorem Wf.pop (hr : Wf n r) (h : 0 < r.size) : Wf n (r.pop n) := by
  refine ⟨Nat.mod_lt _ hr.pos, ?_⟩
  simp only [RingBuf.pop]
  rw [hr.tail_eq, Nat.mod_add_mod]
  congr 1; omega

/-- Different places of a buffer that is not overfull lie in different cells. -/
theorem cell_inj {c i k : ℕ} (hi : i < n) (hk : k < n) (he : (c + i) % n = (c + k) % n) : i = k := by
  have hik : i ≡ k [MOD n] := Nat.ModEq.add_left_cancel' c he
  rwa [Nat.ModEq, Nat.mod_eq_of_lt hi, Nat.mod_eq_of_lt hk] at hik

/-- **Push appends**, as long as a cell is free. -/
theorem toList_push (hr : Wf n r) (h : r.size < n) : (r.push n x).toList n = r.toList n ++ [x] := by
  simp only [toList, push, List.range_succ, List.map_append, List.map_cons, List.map_nil]
  congr 1
  · refine List.map_congr_left fun k hk => ?_
    rw [List.mem_range] at hk
    refine Function.update_of_ne (fun he => ?_) _ _
    have := cell_inj (by omega) h (hr.tail_eq ▸ he)
    omega
  · rw [hr.tail_eq, Function.update_self]

/-- **Pop takes the front off.** -/
theorem toList_pop (hr : Wf n r) (h : 0 < r.size) : r.toList n = r.front :: (r.pop n).toList n := by
  obtain ⟨m, hm⟩ : ∃ m, r.size = m + 1 := ⟨r.size - 1, by omega⟩
  simp only [toList, pop, front, hm, List.range_succ_eq_map, List.map_cons, List.map_map,
    Nat.add_zero, Nat.mod_eq_of_lt hr.head_lt, Nat.add_sub_cancel]
  congr 1
  refine List.map_congr_left fun k _ => ?_
  simp only [Function.comp, Nat.mod_add_mod]
  congr 2; omega

theorem mem_toList (hx : x ∈ r.toList n) : ∃ k, r.buf k = x := by
  simp only [toList, List.mem_map] at hx
  obtain ⟨k, -, rfl⟩ := hx
  exact ⟨_, rfl⟩

/-- A pop leaves cells and entries behind it alone. -/
theorem mem_of_mem_pop (hr : Wf n r) (h : 0 < r.size) (hx : x ∈ (r.pop n).toList n) :
    x ∈ r.toList n := by
  rw [toList_pop hr h]; exact List.mem_cons_of_mem _ hx

end RingBuf
