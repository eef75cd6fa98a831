/-
  What the natives share: how a call from the guest ends, machine integers, and the varlena values
  that they hand out.

  The guest passes 32-bit integers of its own choice.  They are `Int32` at the boundary and
  integers inside, with the conversions of the source written out: `asInt32` where it computes in
  `int32_t`, `asUint32` where it compares with a `uint32_t`.
-/
import Mathlib.Tactic

namespace Rustica

/-! ## The end of a call -/

/-- How the call of a native ends. -/
inductive Native (α : Type) where
  /-- The guest gets a result. -/
  | returns (a : α)
  /-- `wasm_runtime_set_exception`, and the result is `NULL`. -/
  | throws (err : String)
  /-- `ereport(ERROR)`. -/
  | raises (err : String)
  /-- The native reads past the end of what it was given. -/
  | overruns
deriving DecidableEq

/-- A helper of the native raises, or the native returns. -/
def Native.ofExcept {α : Type} : Except String α → Native α
  | .ok a => .returns a
  | .error err => .raises err

/-- The native goes on with the result of a helper. -/
def Native.bind {α β : Type} : Native α → (α → Native β) → Native β
  | .returns a, f => f a
  | .throws err, _ => .throws err
  | .raises err, _ => .raises err
  | .overruns, _ => .overruns

/-! ## Machine integers -/

/-- The value as an `int32_t`. -/
def asInt32 (x : ℤ) : ℤ := (x + 2147483648) % 4294967296 - 2147483648

/-- The value as a `uint32_t`. -/
def asUint32 (x : ℤ) : ℤ := x % 4294967296

theorem asInt32_of_range {x : ℤ} (h : -2147483648 ≤ x) (h' : x < 2147483648) : asInt32 x = x := by
  simp only [asInt32]; omega

theorem int32_range (x : Int32) : -2147483648 ≤ x.toInt ∧ x.toInt < 2147483648 := by
  have h := x.le_toInt
  have h' := x.toInt_lt
  omega

/-- The same 32 bits, signed and unsigned. -/
theorem toNat_toUInt32 (x : Int32) : (x.toUInt32.toNat : ℤ) = asUint32 x.toInt := by
  have h : x.toInt = x.toUInt32.toBitVec.toInt := rfl
  have hn : x.toUInt32.toNat = x.toUInt32.toBitVec.toNat := rfl
  have hlt := x.toUInt32.toBitVec.isLt
  rw [h, hn, BitVec.toInt_eq_toNat_cond, asUint32]
  split_ifs <;> omega

/-! ## Varlena values -/

/-- `VARATT_MAX`. -/
def varattMax : ℕ := 0x3FFFFFFF

/-- `VARHDRSZ`. -/
def varhdrsz : ℕ := 4

/-- `VARATT_SHORT_MAX`. -/
def varattShortMax : ℕ := 0x7F

/-- `VARHDRSZ_SHORT`. -/
def varhdrszShort : ℕ := 1

/-- A datum with a header of one byte or of four, whose payload fits the header. -/
structure Varatt where
  isShort : Bool
  data : List UInt8
  fits : data.length ≤ if isShort then varattShortMax - varhdrszShort else varattMax - varhdrsz

theorem Varatt.length_data (t : Varatt) : t.data.length < 1073741820 := by
  have h := t.fits
  split_ifs at h <;> simp only [varattShortMax, varhdrszShort, varattMax, varhdrsz] at h <;> omega

/-- `CStringGetTextDatum("")`. -/
def Varatt.empty : Varatt := ⟨false, [], Nat.zero_le _⟩

/-- A new object with a copy of the bytes. -/
def cstringIntoVarattObj (data : List UInt8) : Except String Varatt :=
  if h : varattMax - varhdrsz < data.length then .error "varlena_new: input too long"
  else if hs : data.length ≤ varattShortMax - varhdrszShort then .ok ⟨true, data, by simpa⟩
  else .ok ⟨false, data, by simpa using h⟩

theorem cstringIntoVarattObj_rule {data : List UInt8} (h : data.length ≤ varattMax - varhdrsz) :
    ∃ t : Varatt, cstringIntoVarattObj data = .ok t ∧ t.data = data := by
  rw [cstringIntoVarattObj, dif_neg (not_lt.2 h)]
  split_ifs
  · exact ⟨_, rfl, rfl⟩
  · exact ⟨_, rfl, rfl⟩

theorem data_of_cstringIntoVarattObj {data : List UInt8} {t : Varatt}
    (h : cstringIntoVarattObj data = .ok t) : t.data = data := by
  rw [cstringIntoVarattObj] at h
  split_ifs at h
  · cases h; rfl
  · cases h; rfl

end Rustica
