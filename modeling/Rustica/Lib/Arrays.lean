/-
  Arrays in one allocation: elements of one size, one behind the other, and several arrays that share
  the allocation between them.
-/
import Rustica.Lib.Alloc
import Rustica.Lib.Varlena

/-! ## Elements -/

/-- How the elements of an array are stored, and read back. -/
structure Coding (P α : Type*) where
  size : ℕ
  encode : α → List (Cell P)
  decode : Alloc P → ℕ → Option α
  length_encode : ∀ a, (encode a).length = size
  decode_encode : ∀ {m : Alloc P} {p a}, m.Holds p (encode a) → decode m p = some a

namespace Coding

variable {P α : Type*} {c : Coding P α} {m m' : Alloc P} {xs ys : List α} {x : α} {p i : ℕ}

/-- A word of `n` bytes, the lowest byte first. -/
def word (n : ℕ) : Coding P (BitVec (8 * n)) where
  size := n
  encode v := Cell.bytes (Varlena.le n v.toNat)
  decode m p := (m.bytes? p n).map fun bs => .ofNat _ (Varlena.ofLe bs)
  length_encode v := by rw [Cell.length_bytes, Varlena.length_le]
  decode_encode {m p v} h := by
    have hread := Alloc.bytes?_eq h
    rw [Varlena.length_le] at hread
    have hlt : v.toNat < 256 ^ n := by
      rw [show (256 : ℕ) = 2 ^ 8 from rfl, ← Nat.pow_mul]
      exact v.isLt
    rw [hread, Option.map_some, Varlena.ofLe_le, Nat.mod_eq_of_lt hlt, BitVec.ofNat_toNat,
      BitVec.setWidth_eq]

/-- A pointer to one of several kinds of things, which is read as one of its kind. -/
def pointer [DecidableEq P] (kind : α → P) (ofKind : P → Option α)
    (h : ∀ a, ofKind (kind a) = some a) : Coding P α where
  size := 8
  encode a := Cell.pointer (kind a)
  decode m p := (m.pointer? p).bind ofKind
  length_encode a := Cell.length_pointer _
  decode_encode hm := by rw [Alloc.pointer?_eq_some hm, Option.bind_some, h]

/-- The elements of an array. -/
def encodeAll (c : Coding P α) (xs : List α) : List (Cell P) := xs.flatMap c.encode

@[simp] theorem encodeAll_nil : c.encodeAll [] = [] := rfl

theorem encodeAll_cons : c.encodeAll (x :: xs) = c.encode x ++ c.encodeAll xs :=
  List.flatMap_cons

theorem encodeAll_append : c.encodeAll (xs ++ ys) = c.encodeAll xs ++ c.encodeAll ys :=
  List.flatMap_append

@[simp] theorem length_encodeAll : (c.encodeAll xs).length = c.size * xs.length := by
  induction xs with
  | nil => rfl
  | cons x xs ih =>
    rw [encodeAll_cons, List.length_append, ih, c.length_encode, List.length_cons, Nat.mul_succ,
      add_comm]

/-- **An element is read back** at its index. -/
theorem decode_of_holds (h : m.Holds p (c.encodeAll xs)) (hx : xs[i]? = some x) :
    c.decode m (p + c.size * i) = some x := by
  induction xs generalizing p i with
  | nil => cases hx
  | cons y ys ih =>
    rw [encodeAll_cons] at h
    obtain ⟨hy, hys⟩ := Alloc.holds_append.1 h
    rw [c.length_encode] at hys
    cases i with
    | zero =>
      obtain rfl : y = x := Option.some.inj hx
      exact c.decode_encode hy
    | succ i =>
      have hread := ih hys hx
      rwa [add_assoc, add_comm c.size, ← Nat.mul_succ] at hread

end Coding

/-! ## Stores behind what is there -/

namespace Alloc

variable {P : Type*} {m : Alloc P} {p : ℕ} {cs ds : List (Cell P)} {l : List (ℕ × List (Cell P))}

/-- **Rule for a store behind contents**, which extends them. -/
theorem Has.extend (h : m.Has ((p, cs) :: l)) (hin : p + cs.length + ds.length ≤ m.size)
    (hl : ∀ x ∈ l, Apart (p + cs.length, ds) x) :
    ∃ m', m.store (p + cs.length) ds = some m' ∧ m'.size = m.size ∧
      m'.Has ((p, cs ++ ds) :: l) := by
  have hcs : Apart (p + cs.length, ds) (p, cs) := .inr le_rfl
  obtain ⟨m', hm', hsize, hhas⟩ := h.store hin (List.forall_mem_cons.2 ⟨hcs, hl⟩)
  refine ⟨m', hm', hsize, has_cons.2 ⟨?_, hhas.mono fun x hx => ?_⟩⟩
  · exact holds_append.2 ⟨hhas.holds (by simp), hhas.holds (by simp)⟩
  · exact List.mem_cons_of_mem _ (List.mem_cons_of_mem _ hx)

end Alloc

/-! ## Arrays beside each other -/

/-- The place of an array: where it begins, how many elements it has, and their size. -/
structure Extent where
  base : ℕ
  count : ℕ
  size : ℕ
  deriving DecidableEq

namespace Extent

variable {e e' : Extent} {l : List Extent} {b i n p : ℕ}

def bytes (e : Extent) : ℕ := e.size * e.count

/-- A byte is one of the array's. -/
def Covers (e : Extent) (i : ℕ) : Prop := e.base ≤ i ∧ i < e.base + e.bytes

/-- All of some bytes are the array's. -/
def Contains (e : Extent) (p n : ℕ) : Prop := e.base ≤ p ∧ p + n ≤ e.base + e.bytes

/-- Each element begins at a multiple of its size. -/
def Aligned (e : Extent) : Prop := ∀ i < e.count, e.size ∣ e.base + e.size * i

/-- The arrays do not overlap, and together they are all of the first `n` bytes. -/
structure Tiles (l : List Extent) (n : ℕ) : Prop where
  disjoint : l.Pairwise fun e e' => ∀ i, ¬ (e.Covers i ∧ e'.Covers i)
  exact : ∀ i, i < n ↔ ∃ e ∈ l, e.Covers i

/-- Each array begins where the one before it ends, but for those without elements; the first one
    begins at `b` and the last one ends at `n`. -/
def Chain : ℕ → List Extent → ℕ → Prop
  | b, [], n => b = n
  | b, e :: l, n => (e.count = 0 ∨ e.base = b) ∧ Chain (b + e.bytes) l n

theorem aligned_of_dvd (h : e.count = 0 ∨ e.size ∣ e.base) : e.Aligned := by
  intro i hi
  rcases h with h | h
  · omega
  · exact Nat.dvd_add h (Nat.dvd_mul_right _ _)

theorem contains_slot (hi : i < e.count) : e.Contains (e.base + e.size * i) e.size := by
  have hle : e.size * (i + 1) ≤ e.size * e.count := Nat.mul_le_mul_left _ hi
  rw [Nat.mul_succ] at hle
  simp only [Contains, bytes]
  omega

/-- An array with a byte begins where the chain has it. -/
theorem Covers.base_eq (h : e.Covers i) (hb : e.count = 0 ∨ e.base = b) : e.base = b := by
  refine hb.resolve_left fun h0 => ?_
  simp only [Covers, bytes, h0, Nat.mul_zero] at h
  omega

theorem Chain.le (h : Chain b l n) : b ≤ n := by
  induction l generalizing b with
  | nil => exact h.le
  | cons e l ih => exact (Nat.le_add_right _ _).trans (ih h.2)

/-- It does not matter where an array without elements begins. -/
theorem Chain.congr {ι : Type*} {js : List ι} {f g : ι → Extent} (h : Chain b (js.map f) n)
    (hcount : ∀ j ∈ js, (g j).count = (f j).count) (hfg : ∀ j ∈ js, 0 < (f j).count → g j = f j) :
    Chain b (js.map g) n := by
  induction js generalizing b with
  | nil => exact h
  | cons j js ih =>
    obtain ⟨hcountj, hcount⟩ := List.forall_mem_cons.1 hcount
    obtain ⟨hfgj, hfg⟩ := List.forall_mem_cons.1 hfg
    obtain ⟨hb, hjs⟩ := h
    rcases Nat.eq_zero_or_pos (f j).count with h0 | hpos
    · have hbytes : (g j).bytes = (f j).bytes := by
        rw [bytes, bytes, hcountj, h0, Nat.mul_zero, Nat.mul_zero]
      exact ⟨.inl (hcountj.trans h0), hbytes ▸ ih hjs hcount hfg⟩
    · rw [List.map_cons, hfgj hpos]
      exact ⟨hb, ih hjs hcount hfg⟩

/-- The bytes of a chain are those from its beginning up to its end. -/
theorem Chain.exists_covers (h : Chain b l n) (i : ℕ) :
    (b ≤ i ∧ i < n) ↔ ∃ e ∈ l, e.Covers i := by
  induction l generalizing b with
  | nil =>
    obtain rfl : b = n := h
    simp only [List.not_mem_nil, false_and, exists_false, iff_false]
    omega
  | cons e l ih =>
    obtain ⟨hb, hl⟩ := h
    have hn := hl.le
    rw [List.exists_mem_cons_iff, ← ih hl]
    constructor
    · intro hi
      by_cases hlt : i < b + e.bytes
      · have h0 : e.count ≠ 0 := by
          intro h0
          simp only [bytes, h0, Nat.mul_zero] at hlt
          omega
        have hbase := hb.resolve_left h0
        exact .inl ⟨by omega, by omega⟩
      · exact .inr ⟨by omega, hi.2⟩
    · rintro (he | he)
      · have hbase := he.base_eq hb
        simp only [Covers] at he
        omega
      · omega

/-- **A chain from the first byte on tiles** the allocation. -/
theorem Chain.tiles (h : Chain 0 l n) : Tiles l n := by
  suffices hpair : ∀ b, Chain b l n → l.Pairwise fun e e' => ∀ i, ¬ (e.Covers i ∧ e'.Covers i) by
    refine ⟨hpair 0 h, fun i => ?_⟩
    rw [← h.exists_covers i]
    omega
  clear h
  intro b h
  induction l generalizing b with
  | nil => exact .nil
  | cons e l ih =>
    obtain ⟨hb, hl⟩ := h
    refine .cons (fun e' he' i hi => ?_) (ih _ hl)
    have hbase := hi.1.base_eq hb
    have hlast := (hl.exists_covers i).2 ⟨e', he', hi.2⟩
    have hfirst := hi.1
    simp only [Covers] at hfirst
    omega

/-- **All of the allocation is written** where each of its arrays is. -/
theorem Tiles.written {P : Type*} {m : Alloc P} (h : Tiles l m.size)
    (hl : ∀ e ∈ l, ∃ cs, e.bytes = cs.length ∧ m.Holds e.base cs) (hi : i < m.size) :
    (m.cells i).isSome := by
  obtain ⟨e, he, hcov⟩ := (h.exact i).1 hi
  obtain ⟨cs, hlen, hcs⟩ := hl e he
  obtain ⟨hle, hlt⟩ := hcov
  have hcell := hcs (i - e.base) (by omega)
  rw [Nat.add_sub_cancel' hle] at hcell
  rw [hcell, List.getElem?_eq_getElem (by omega)]
  rfl

end Extent
