/-
  One allocation of memory, and the stores into it.

  A byte of the allocation holds a byte that was stored, or a part of a pointer, so that a pointer is
  found again only as a whole.  A store outside of the allocation fails.  What an allocation holds is
  stated as a list of places and contents (`Has`), which a store next to them extends.
-/
import Mathlib.Tactic

/-- What is at one byte of an allocation, with pointers of type `P`. -/
inductive Cell (P : Type*) where
  | byte (b : UInt8)
  | part (ptr : P) (i : ℕ)
  deriving DecidableEq

namespace Cell

variable {P : Type*}

def bytes (bs : List UInt8) : List (Cell P) := bs.map .byte

/-- A pointer of eight bytes. -/
def pointer (ptr : P) : List (Cell P) := (List.range 8).map (.part ptr)

@[simp] theorem length_bytes (bs : List UInt8) : (bytes bs : List (Cell P)).length = bs.length :=
  List.length_map _

@[simp] theorem length_pointer (ptr : P) : (pointer ptr).length = 8 := rfl

theorem getElem?_bytes (bs : List UInt8) (i : ℕ) :
    (bytes bs : List (Cell P))[i]? = bs[i]?.map .byte := List.getElem?_map

theorem getElem?_pointer (ptr : P) {i : ℕ} (h : i < 8) : (pointer ptr)[i]? = some (.part ptr i) := by
  rw [pointer, List.getElem?_map, List.getElem?_range h]
  rfl

end Cell

/-- An allocation; what was not stored is not known. -/
structure Alloc (P : Type*) where
  size : ℕ
  cells : ℕ → Option (Cell P)

namespace Alloc

variable {P : Type*} {m m' : Alloc P} {p q n : ℕ} {cs ds : List (Cell P)}

def fresh (size : ℕ) : Alloc P := ⟨size, fun _ => none⟩

/-- `none` is a store that does not lie within the allocation. -/
def store (m : Alloc P) (p : ℕ) (cs : List (Cell P)) : Option (Alloc P) :=
  if p + cs.length ≤ m.size then
    some { m with cells := fun i => if p ≤ i ∧ i < p + cs.length then cs[i - p]? else m.cells i }
  else none

/-- The contents from `p` on are `cs`. -/
def Holds (m : Alloc P) (p : ℕ) (cs : List (Cell P)) : Prop :=
  ∀ i < cs.length, m.cells (p + i) = cs[i]?

/-- The pointer at `p`, if there is one. -/
def pointer? [DecidableEq P] (m : Alloc P) (p : ℕ) : Option P :=
  match m.cells p with
  | some (.part ptr 0) =>
    if (List.range 8).all fun i => m.cells (p + i) = some (.part ptr i) then some ptr else none
  | _ => none

/-- The bytes from a place on, if they were all stored as bytes. -/
def bytes? (m : Alloc P) : ℕ → ℕ → Option (List UInt8)
  | _, 0 => some []
  | p, n + 1 =>
    match m.cells p with
    | some (.byte b) => (m.bytes? (p + 1) n).map (b :: ·)
    | _ => none

theorem store_eq_none_iff : m.store p cs = none ↔ m.size < p + cs.length := by
  rw [store]
  split_ifs with h <;> simp only [true_iff, false_iff] <;> omega

theorem pointer?_eq_some [DecidableEq P] {ptr : P} (h : m.Holds p (Cell.pointer ptr)) :
    m.pointer? p = some ptr := by
  have hall : ∀ i < 8, m.cells (p + i) = some (.part ptr i) := fun i hi =>
    (h i hi).trans (Cell.getElem?_pointer ptr hi)
  have h0 : m.cells p = some (.part ptr 0) := hall 0 (by omega)
  rw [pointer?, h0]
  exact if_pos (List.all_eq_true.2 fun i hi => decide_eq_true (hall i (List.mem_range.1 hi)))

/-- A place of the allocation that was not stored to holds no pointer. -/
theorem pointer?_eq_none [DecidableEq P] (h : m.cells p = none) : m.pointer? p = none := by
  rw [pointer?, h]

theorem Holds.cells (h : m.Holds p cs) (hlt : n < cs.length) : m.cells (p + n) = cs[n]? := h n hlt

theorem holds_nil : m.Holds p [] := nofun

/-- The contents of a place, in two pieces. -/
theorem holds_append : m.Holds p (cs ++ ds) ↔ m.Holds p cs ∧ m.Holds (p + cs.length) ds := by
  constructor
  · intro h
    refine ⟨fun i hi => ?_, fun i hi => ?_⟩
    · rw [h i (by rw [List.length_append]; omega), List.getElem?_append_left hi]
    · rw [add_assoc, h _ (by rw [List.length_append]; omega),
        List.getElem?_append_right (by omega), Nat.add_sub_cancel_left]
  · rintro ⟨h, h'⟩ i hi
    rw [List.length_append] at hi
    by_cases hlt : i < cs.length
    · rw [h i hlt, List.getElem?_append_left hlt]
    · rw [List.getElem?_append_right (by omega), ← h' _ (by omega)]
      congr 1; omega

/-- Of two contents in bytes of one place, the shorter one is the beginning of the other. -/
theorem Holds.isPrefix {as bs : List UInt8} (ha : m.Holds p (Cell.bytes as))
    (hb : m.Holds p (Cell.bytes bs)) (hle : as.length ≤ bs.length) : as <+: bs := by
  refine List.prefix_iff_getElem?.2 fun i hi => ?_
  have hcell := (ha i (by rwa [Cell.length_bytes])).symm.trans
    (hb i (by rw [Cell.length_bytes]; omega))
  rw [Cell.getElem?_bytes, Cell.getElem?_bytes] at hcell
  have hinj : Function.Injective (Cell.byte : UInt8 → Cell P) := fun _ _ h => Cell.byte.inj h
  rw [← Option.map_injective hinj hcell]
  exact List.getElem?_eq_getElem hi

theorem bytes?_eq {bs : List UInt8} (h : m.Holds p (Cell.bytes bs)) :
    m.bytes? p bs.length = some bs := by
  induction bs generalizing p with
  | nil => rfl
  | cons b bs ih =>
    have hsplit : m.Holds p (Cell.bytes [b] ++ Cell.bytes bs) := h
    obtain ⟨hb, hbs⟩ := holds_append.1 hsplit
    have hcell : m.cells p = some (.byte b) := hb 0 Nat.one_pos
    have hrest : m.bytes? (p + 1) bs.length = some bs := ih hbs
    rw [List.length_cons, bytes?, hcell]
    dsimp only
    rw [hrest, Option.map_some]

/-! ## Several places -/

/-- Each of the places has its contents. -/
def Has (m : Alloc P) (l : List (ℕ × List (Cell P))) : Prop := ∀ x ∈ l, m.Holds x.1 x.2

/-- Two places that do not overlap. -/
def Apart (x y : ℕ × List (Cell P)) : Prop :=
  x.1 + x.2.length ≤ y.1 ∨ y.1 + y.2.length ≤ x.1

variable {l : List (ℕ × List (Cell P))}

@[simp] theorem has_nil : m.Has [] := nofun

@[simp] theorem has_cons : m.Has ((p, cs) :: l) ↔ m.Holds p cs ∧ m.Has l :=
  List.forall_mem_cons

theorem Has.holds (h : m.Has l) (hx : (p, cs) ∈ l) : m.Holds p cs := h _ hx

theorem Has.mono {l' : List (ℕ × List (Cell P))} (h : m.Has l) (hl : l' ⊆ l) : m.Has l' :=
  fun x hx => h x (hl hx)

/-- **Rule for a store**: it succeeds within the allocation, and leaves alone what is apart. -/
theorem Has.store (h : m.Has l) (hin : p + cs.length ≤ m.size) (hl : ∀ x ∈ l, Apart (p, cs) x) :
    ∃ m', m.store p cs = some m' ∧ m'.size = m.size ∧ m'.Has ((p, cs) :: l) := by
  refine ⟨_, if_pos hin, rfl, has_cons.2 ⟨fun i hi => ?_, fun x hx i hi => ?_⟩⟩
  · dsimp only
    rw [if_pos (by omega), Nat.add_sub_cancel_left]
  · have hx' := hl x hx
    dsimp only [Apart] at hx' ⊢
    rw [if_neg (by omega)]
    exact h x hx i hi

end Alloc
