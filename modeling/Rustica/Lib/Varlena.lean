/-
  Variable-length values with a header that tells their size (Postgres' varlena), on a machine that
  stores the low byte first.

  A value of at most 126 bytes has a header of one byte, any other one of four.  The lowest bits of the
  first byte tell the forms apart, and the rest of the header is the size, the header included.  What
  is read from a value that was written so is what was written (`inline_encode`).
-/
import Mathlib.Tactic

namespace Varlena

/-- The `n` low bytes of a number, the lowest one first. -/
def le (n v : ℕ) : List UInt8 := (List.range n).map fun i => .ofNat (v / 256 ^ i)

/-- The number that bytes stand for, the lowest one first. -/
def ofLe : List UInt8 → ℕ
  | [] => 0
  | b :: bs => b.toNat + 256 * ofLe bs

@[simp] theorem length_le (n v : ℕ) : (le n v).length = n := by simp [le]

theorem le_succ (n v : ℕ) : le (n + 1) v = .ofNat v :: le n (v / 256) := by
  rw [le, List.range_succ_eq_map, List.map_cons, List.map_map, le]
  refine congrArg₂ _ (by simp) (List.map_congr_left fun i _ => ?_)
  simp only [Function.comp, Nat.pow_succ']
  rw [Nat.div_div_eq_div_mul]

theorem ofLe_le (n v : ℕ) : ofLe (le n v) = v % 256 ^ n := by
  induction n generalizing v with
  | zero => simp [le, ofLe, Nat.mod_one]
  | succ n ih =>
    have hb : (UInt8.ofNat v).toNat = v % 256 := UInt8.toNat_ofNat'
    rw [le_succ, ofLe, ih, hb, Nat.pow_succ', Nat.mod_mul]

/-! ## Headers -/

/-- The largest size that a header of one byte can tell. -/
def shortMax : ℕ := 127

/-- The largest size that a header of four bytes can tell. -/
def longMax : ℕ := 0x3FFFFFFF

/-- A header of one byte; the size is that of the whole value. -/
def shortHeader (size : ℕ) : List UInt8 := le 1 (2 * size + 1)

def longHeader (size : ℕ) : List UInt8 := le 4 (4 * size)

/-- The payload with its header. -/
def encode (payload : List UInt8) : List UInt8 :=
  if payload.length + 1 ≤ shortMax then shortHeader (payload.length + 1) ++ payload
  else longHeader (payload.length + 4) ++ payload

/-- What the first byte says that a value is. -/
inductive Form where
  /-- with a header of one byte -/
  | short
  /-- with a header of four bytes, not compressed -/
  | long
  | compressed
  /-- a pointer to the value -/
  | external
  deriving DecidableEq

def form (b : UInt8) : Form :=
  if b.toNat = 1 then .external
  else if b.toNat % 2 = 1 then .short
  else if b.toNat % 4 = 0 then .long
  else .compressed

theorem odd_of_short {b : UInt8} (h : form b = .short) : b.toNat % 2 = 1 := by
  unfold form at h
  split_ifs at h
  assumption

theorem even_of_long {b : UInt8} (h : form b = .long) : b.toNat % 2 = 0 := by
  unfold form at h
  split_ifs at h
  omega

/-- The size that a header of one byte tells. -/
def shortSize (b : UInt8) : ℕ := b.toNat / 2

/-- The size that a header of four bytes tells. -/
def longSize (header : List UInt8) : ℕ := ofLe header / 4

theorem shortHeader_eq {size : ℕ} (h0 : 0 < size) (h : size ≤ shortMax) :
    ∃ b, shortHeader size = [b] ∧ form b = .short ∧ shortSize b = size := by
  have hb : (UInt8.ofNat (2 * size + 1)).toNat = 2 * size + 1 := by
    rw [UInt8.toNat_ofNat']
    simp only [shortMax] at h
    omega
  refine ⟨.ofNat (2 * size + 1), by simp [shortHeader, le], ?_, ?_⟩
  · rw [form, hb, if_neg (by omega), if_pos (by omega)]
  · rw [shortSize, hb]; omega

theorem longSize_longHeader {size : ℕ} (h : size ≤ longMax) :
    longSize (longHeader size) = size := by
  rw [longSize, longHeader, ofLe_le, Nat.mod_eq_of_lt, Nat.mul_div_cancel_left _ (by omega)]
  simp only [longMax] at h
  omega

theorem longHeader_eq (size : ℕ) :
    ∃ b t, longHeader size = b :: t ∧ t.length = 3 ∧ form b = .long := by
  refine ⟨_, _, le_succ 3 _, length_le _ _, ?_⟩
  have hb : (UInt8.ofNat (4 * size)).toNat = 4 * size % 256 := UInt8.toNat_ofNat'
  rw [form, hb, if_neg (by omega), if_neg (by omega), if_pos (by omega)]

/-! ## Reading -/

/-- The payload of a value that is stored as it is, at the start of the memory; `none` where the size
    that the header tells is more than there is, or less than the header. -/
def inline : List UInt8 → Option (List UInt8)
  | [] => none
  | b :: mem =>
    match form b with
    | .short =>
      if shortSize b - 1 ≤ mem.length then some (mem.take (shortSize b - 1)) else none
    | .long =>
      let size := longSize ((b :: mem).take 4)
      if 4 ≤ size ∧ size ≤ (b :: mem).length then some (((b :: mem).take size).drop 4) else none
    | _ => none

/-- **Reading a value that was written** gives the payload back, whatever is behind it. -/
theorem inline_encode {payload : List UInt8} (h : payload.length + 4 ≤ longMax)
    (rest : List UInt8) : inline (encode payload ++ rest) = some payload := by
  rw [encode]
  split_ifs with hs
  · obtain ⟨b, hb, hform, hsize⟩ := shortHeader_eq (Nat.succ_pos _) hs
    rw [hb, List.singleton_append, List.cons_append, inline, hform, hsize]
    dsimp only
    rw [Nat.succ_sub_one, if_pos (by simp), List.take_left]
  · obtain ⟨b, t, hb, ht, hform⟩ := longHeader_eq (payload.length + 4)
    have htake : (b :: (t ++ payload ++ rest)).take 4 = longHeader (payload.length + 4) := by
      rw [hb, List.append_assoc, List.take_succ_cons, ← ht, List.take_left]
    rw [hb, List.cons_append, List.cons_append, inline, hform]
    dsimp only
    rw [htake, longSize_longHeader h, if_pos]
    · have hlen : payload.length + 4 = (b :: (t ++ payload)).length := by simp [ht]; omega
      rw [← List.cons_append, hlen, List.take_left, List.drop_succ_cons, ← ht, List.drop_left]
    · simp [ht]; omega

end Varlena
