/-
  Integer arrays between the guest and PostgreSQL.

  A MoonBit array is a buffer and a length.  On the way to `int2[]` every element is cut to 16 bits;
  on the way back a NULL becomes a zero, and the lower bound of the dimension is forgotten.  So an
  array crosses unchanged exactly when its elements fit, are not NULL and are numbered from one
  (`unchanged_iff`).

  `Native.overruns` is also the end of a converter that works on a null pointer, which is what WAMR
  gives where its heap is exhausted.
-/
import Rustica.Sandbox

namespace Rustica

/-! ## Arrays -/

/-- `MaxArraySize`. -/
def maxArraySize : ℕ := 134217727

/-- An `ArrayType` with elements of `w` bits, detoasted; no value for an element that is NULL. -/
structure ArrayType (w : ℕ) where
  dims : List ℕ
  lbound : List ℤ
  elems : List (Option (BitVec w))
  pos : ∀ d ∈ dims, 0 < d
  lbounds : lbound.length = dims.length
  nitems : elems.length = if dims = [] then 0 else dims.prod
  size : elems.length ≤ maxArraySize

/-- The MoonBit array: a struct of the array `buf` and of `len`. -/
structure WasmArray where
  buf : List (BitVec 32)
  len : Int32

/-- The buffer has all elements. -/
structure WasmArray.Valid (a : WasmArray) : Prop where
  nonneg : 0 ≤ a.len.toInt
  le : a.len.toInt ≤ a.buf.length

/-- The elements of the array. -/
def WasmArray.elems (a : WasmArray) : List (BitVec 32) := a.buf.take a.len.toInt.toNat

def int16GetDatum (x : BitVec 16) : BitVec 64 := x.signExtend 64
def int32GetDatum (x : BitVec 32) : BitVec 64 := x.signExtend 64
def datumGetInt16 (d : BitVec 64) : BitVec 16 := d.setWidth 16
def datumGetInt32 (d : BitVec 64) : BitVec 32 := d.setWidth 32

/-- `construct_empty_array`. -/
def constructEmptyArray (w : ℕ) : ArrayType w where
  dims := []
  lbound := []
  elems := []
  pos := fun _ h => absurd h List.not_mem_nil
  lbounds := rfl
  nitems := rfl
  size := Nat.zero_le _

/-- `construct_array`: one dimension, from one on. -/
def constructArray (w : ℕ) (elems : List (BitVec 64)) : Native (ArrayType w) :=
  if hmax : maxArraySize < elems.length then .raises "array size exceeds the maximum allowed"
  else if hpos : elems.length = 0 then .returns (constructEmptyArray w)
  else .returns {
    dims := [elems.length]
    lbound := [1]
    elems := elems.map fun d => some (d.setWidth w)
    pos := fun d hd => by rw [List.mem_singleton.1 hd]; exact Nat.pos_of_ne_zero hpos
    lbounds := rfl
    nitems := by simp
    size := by rw [List.length_map]; exact not_lt.1 hmax }

/-- `deconstruct_array`: the datum of a NULL is zero. -/
def deconstructArray {w : ℕ} (a : ArrayType w) : List (BitVec 64) :=
  a.elems.map fun e => (e.map (BitVec.signExtend 64)).getD 0

/-! ## Converters -/

/-- What the two converters to PostgreSQL have in common. -/
def wasmI32ArrayToPgArray (w : ℕ) (toDatum : BitVec 32 → BitVec 64) (a : WasmArray) :
    Native (ArrayType w) :=
  if maxAllocSize < sizeT (8 * a.len.toInt) then .raises "invalid memory alloc request size"
  else match (List.range a.len.toInt.toNat).mapM fun i => a.buf[i]? with
    | none => .overruns
    | some vals => constructArray w (vals.map toDatum)

def wasmI32ArrayToPgInt2Array : WasmArray → Native (ArrayType 16) :=
  wasmI32ArrayToPgArray 16 fun v => int16GetDatum (v.setWidth 16)

def wasmI32ArrayToPgInt4Array : WasmArray → Native (ArrayType 32) :=
  wasmI32ArrayToPgArray 32 int32GetDatum

/-- What the two converters to the guest have in common; there may be no room for the struct, or for
    the array of its elements. -/
def pgArrayToWasmI32Array {w : ℕ} (fromDatum : BitVec 64 → BitVec 32) (room : Bool)
    (value : ArrayType w) : Native WasmArray :=
  if room then .returns
    ⟨(deconstructArray value).map fromDatum, Int32.ofNat (deconstructArray value).length⟩
  else .overruns

def pgInt2ArrayToWasmI32Array : Bool → ArrayType 16 → Native WasmArray :=
  pgArrayToWasmI32Array fun d => (datumGetInt16 d).signExtend 32

def pgInt4ArrayToWasmI32Array : Bool → ArrayType 32 → Native WasmArray :=
  pgArrayToWasmI32Array datumGetInt32

/-! ## What crosses unchanged -/

/-- The two types of elements. -/
inductive IntType where
  | int2
  | int4
deriving DecidableEq

def IntType.bits : IntType → ℕ
  | .int2 => 16
  | .int4 => 32

def IntType.toPg : (k : IntType) → WasmArray → Native (ArrayType k.bits)
  | .int2 => wasmI32ArrayToPgInt2Array
  | .int4 => wasmI32ArrayToPgInt4Array

def IntType.toWasm : (k : IntType) → Bool → ArrayType k.bits → Native WasmArray
  | .int2 => pgInt2ArrayToWasmI32Array
  | .int4 => pgInt4ArrayToWasmI32Array

/-- A conversion of an array, one way or the other. -/
inductive Crossing where
  | toPg (k : IntType) (a : WasmArray)
  | toWasm (k : IntType) (room : Bool) (value : ArrayType k.bits)

/-- A MoonBit array has all its elements; a value of PostgreSQL has one dimension. -/
def Crossing.Valid : Crossing → Prop
  | .toPg _ a => a.Valid
  | .toWasm _ _ value => value.dims.length = 1

/-- The converter raises, or what it gives is equal: element by element as integers, or as the value
    that the converter for the way back makes of it. -/
def Crossing.Unchanged : Crossing → Prop
  | .toPg k a => (∃ err, k.toPg a = .raises err) ∨ ∃ value, k.toPg a = .returns value ∧
      value.elems.map (Option.map BitVec.toInt) = a.elems.map fun v => some v.toInt
  | .toWasm k room value => (∃ err, k.toWasm room value = .raises err) ∨
      ∃ a, k.toWasm room value = .returns a ∧ k.toPg a = .returns value

/-- The elements fit, or the converter has no memory for them; a value has no NULL and is numbered
    from one. -/
def Crossing.Meets : Crossing → Prop
  | .toPg k a => maxArraySize < a.elems.length ∨
      ∀ v ∈ a.elems, -2 ^ (k.bits - 1) ≤ v.toInt ∧ v.toInt < 2 ^ (k.bits - 1)
  | .toWasm _ room value => room = true ∧ value.lbound = [1] ∧ none ∉ value.elems

variable {w : ℕ} {a : WasmArray} {value : ArrayType w}

/-- The loop over the first elements of a buffer that has so many. -/
theorem mapM_range_getElem? {α : Type} {l : List α} {n : ℕ} (hn : n ≤ l.length) :
    ((List.range n).mapM fun i => l[i]?) = some (l.take n) := by
  induction n with
  | zero => rfl
  | succ n ih =>
    rw [List.range_succ, List.mapM_append, ih (Nat.le_of_succ_le hn), List.mapM_cons, List.mapM_nil,
      List.getElem?_eq_getElem hn, List.take_add_one, List.getElem?_eq_getElem hn]
    rfl

theorem WasmArray.Valid.length (ha : a.Valid) : (a.elems.length : ℤ) = a.len.toInt := by
  have := ha.nonneg
  have := ha.le
  rw [WasmArray.elems, List.length_take]
  omega

theorem WasmArray.Valid.palloc_iff (ha : a.Valid) :
    maxAllocSize < sizeT (8 * a.len.toInt) ↔ maxArraySize < a.elems.length := by
  have := ha.nonneg
  have := ha.length
  have := (int32_range a.len).2
  rw [maxAllocSize, maxArraySize, sizeT]
  omega

/-- The array has one dimension, from one on, or is empty. -/
def ArrayType.FromOne (value : ArrayType w) : Prop :=
  0 < value.elems.length → value.dims.length = 1 ∧ value.lbound = [1]

/-- `construct_array` stores all elements. -/
theorem constructArray_rule {ds : List (BitVec 64)} (h : ds.length ≤ maxArraySize) :
    ∃ value : ArrayType w, constructArray w ds = .returns value ∧
      value.elems = (ds.map fun d => some (d.setWidth w)) ∧ value.FromOne := by
  rw [constructArray, dif_neg (not_lt.2 h)]
  split_ifs with h0
  · rw [List.eq_nil_of_length_eq_zero h0]
    exact ⟨_, rfl, rfl, fun hpos => absurd hpos (Nat.lt_irrefl 0)⟩
  · exact ⟨_, rfl, rfl, fun _ => ⟨rfl, rfl⟩⟩

/-- **To PostgreSQL**: the converter raises, or all elements are stored as their datums. -/
theorem wasmI32ArrayToPgArray_rule (toDatum : BitVec 32 → BitVec 64) (ha : a.Valid) :
    (maxArraySize < a.elems.length ∧
      ∃ err, wasmI32ArrayToPgArray w toDatum a = .raises err) ∨
    (a.elems.length ≤ maxArraySize ∧
      ∃ value, wasmI32ArrayToPgArray w toDatum a = .returns value ∧
        value.elems = (a.elems.map fun v => some ((toDatum v).setWidth w)) ∧ value.FromOne) := by
  rw [wasmI32ArrayToPgArray]
  by_cases hmax : maxArraySize < a.elems.length
  · exact .inl ⟨hmax, _, if_pos (ha.palloc_iff.2 hmax)⟩
  · have hle : a.len.toInt.toNat ≤ a.buf.length := by
      have := ha.nonneg
      have := ha.le
      omega
    rw [if_neg (mt ha.palloc_iff.1 hmax), mapM_range_getElem? hle]
    have hlen : (a.elems.map toDatum).length ≤ maxArraySize := by
      rw [List.length_map]; exact not_lt.1 hmax
    obtain ⟨value, hvalue, helems, hone⟩ := constructArray_rule (w := w) hlen
    refine .inr ⟨not_lt.1 hmax, value, hvalue, ?_, hone⟩
    rw [helems, List.map_map]
    rfl

/-! ## Elements -/

theorem setWidth_signExtend {u : ℕ} (hw : w ≤ u) (x : BitVec w) :
    (x.signExtend u).setWidth w = x := by
  rw [← BitVec.signExtend_eq_setWidth_of_le _ hw]
  refine BitVec.eq_of_toInt_eq ?_
  rw [BitVec.toInt_signExtend_eq_toInt_bmod_of_le _ hw, BitVec.toInt_signExtend_of_le hw,
    BitVec.toInt_bmod_cancel]

/-- **What is stored** of an element: its low bits. -/
theorem IntType.toPg_rule (k : IntType) (ha : a.Valid) :
    (maxArraySize < a.elems.length ∧ ∃ err, k.toPg a = .raises err) ∨
    (a.elems.length ≤ maxArraySize ∧ ∃ value, k.toPg a = .returns value ∧
      value.elems = (a.elems.map fun v => some (v.setWidth k.bits)) ∧ value.FromOne) := by
  cases k with
  | int2 =>
    rcases wasmI32ArrayToPgArray_rule (w := 16) (fun v => int16GetDatum (v.setWidth 16)) ha with
      h | ⟨hmax, value, hvalue, helems, hone⟩
    · exact .inl h
    · refine .inr ⟨hmax, value, hvalue, helems.trans (List.map_congr_left fun v _ => ?_), hone⟩
      rw [int16GetDatum, setWidth_signExtend (by decide)]
      rfl
  | int4 =>
    rcases wasmI32ArrayToPgArray_rule (w := 32) int32GetDatum ha with
      h | ⟨hmax, value, hvalue, helems, hone⟩
    · exact .inl h
    · refine .inr ⟨hmax, value, hvalue, helems.trans (List.map_congr_left fun v _ => ?_), hone⟩
      rw [int32GetDatum, setWidth_signExtend (by decide)]
      exact congrArg some (BitVec.setWidth_eq v).symm

/-- What the guest gets of elements, when a datum gives the value and zero gives zero. -/
theorem pgArrayToWasmI32Array_rule {fromDatum : BitVec 64 → BitVec 32} (h0 : fromDatum 0 = 0)
    (hx : ∀ x : BitVec w, fromDatum (x.signExtend 64) = x.signExtend 32) :
    pgArrayToWasmI32Array fromDatum true value =
      .returns ⟨value.elems.map fun e => (e.map (BitVec.signExtend 32)).getD 0,
        Int32.ofNat value.elems.length⟩ := by
  rw [pgArrayToWasmI32Array, if_pos rfl, deconstructArray, List.length_map, List.map_map]
  refine congrArg (fun l => Native.returns (WasmArray.mk l (Int32.ofNat value.elems.length)))
    (List.map_congr_left fun e _ => ?_)
  cases e with
  | none => exact h0
  | some x => exact hx x

/-- **What the guest gets** of an element: its value, and zero for NULL. -/
theorem IntType.toWasm_rule (k : IntType) (value : ArrayType k.bits) :
    k.toWasm true value = .returns ⟨value.elems.map fun e => (e.map (BitVec.signExtend 32)).getD 0,
      Int32.ofNat value.elems.length⟩ := by
  cases k with
  | int2 =>
    exact pgArrayToWasmI32Array_rule rfl fun x =>
      congrArg (BitVec.signExtend 32) (setWidth_signExtend (by decide) x)
  | int4 =>
    exact pgArrayToWasmI32Array_rule rfl fun x =>
      (setWidth_signExtend (by decide) x).trans (BitVec.signExtend_eq x).symm

/-- The low bits of an element are the element when it fits. -/
theorem IntType.toInt_setWidth_iff (k : IntType) (v : BitVec 32) :
    (v.setWidth k.bits).toInt = v.toInt ↔
      -2 ^ (k.bits - 1) ≤ v.toInt ∧ v.toInt < 2 ^ (k.bits - 1) := by
  have hk : k.bits ≤ 32 := by cases k <;> decide
  constructor
  · intro h
    rw [← h]
    exact ⟨BitVec.le_toInt _, BitVec.toInt_lt⟩
  · rintro ⟨hlo, hhi⟩
    rw [← BitVec.signExtend_eq_setWidth_of_le _ hk,
      BitVec.toInt_signExtend_eq_toInt_bmod_of_le _ hk]
    refine Int.bmod_eq_of_le ?_ ?_
    · cases k <;> exact hlo
    · cases k <;> exact hhi

/-! ## Arrays -/

theorem toPg_unchanged_iff (k : IntType) (ha : a.Valid) :
    (Crossing.toPg k a).Unchanged ↔ (Crossing.toPg k a).Meets := by
  rw [Crossing.Unchanged, Crossing.Meets]
  rcases k.toPg_rule ha with ⟨hmax, herr⟩ | ⟨hmax, value, hvalue, helems, -⟩
  · exact iff_of_true (.inl herr) (.inl hmax)
  · rw [or_iff_right (not_lt.2 hmax), or_iff_right (by rw [hvalue]; rintro ⟨err, herr⟩; cases herr)]
    have hsame : value.elems.map (Option.map BitVec.toInt) = a.elems.map (fun v => some v.toInt) ↔
        ∀ v ∈ a.elems, (v.setWidth k.bits).toInt = v.toInt := by
      rw [helems, List.map_map, List.map_inj_left]
      exact forall₂_congr fun v _ => Option.some_inj
    rw [← forall₂_congr fun v _ => k.toInt_setWidth_iff v, ← hsame]
    constructor
    · rintro ⟨value', hvalue', h⟩
      obtain rfl := Native.returns.inj (hvalue.symm.trans hvalue')
      exact h
    · exact fun h => ⟨value, hvalue, h⟩

/-- An array with one dimension is its elements and their lower bound. -/
theorem ArrayType.ext_of_dim {value' : ArrayType w} (h : value.dims.length = 1)
    (h' : value'.dims.length = 1) (hl : value.lbound = value'.lbound)
    (he : value.elems = value'.elems) : value = value' := by
  obtain ⟨dims, lbound, elems, hpos, hlb, hn, hsize⟩ := value
  obtain ⟨dims', lbound', elems', hpos', hlb', hn', hsize'⟩ := value'
  obtain ⟨d, rfl⟩ := List.length_eq_one_iff.1 h
  obtain ⟨d', rfl⟩ := List.length_eq_one_iff.1 h'
  obtain rfl : lbound = lbound' := hl
  obtain rfl : elems = elems' := he
  have hd : d = d' := by simpa using hn.symm.trans hn'
  subst hd
  rfl

theorem ArrayType.length_pos (h : value.dims.length = 1) : 0 < value.elems.length := by
  obtain ⟨d, hd⟩ := List.length_eq_one_iff.1 h
  have hpos := value.pos d (by rw [hd]; exact List.mem_singleton_self d)
  have hn := value.nitems
  rw [hd, if_neg (List.cons_ne_nil _ _), List.prod_singleton] at hn
  omega

theorem elems_there_and_back (hw : w ≤ 32) {es : List (Option (BitVec w))} :
    ((es.map fun e => (e.map (BitVec.signExtend 32)).getD 0).map fun v => some (v.setWidth w)) =
      es.map fun e => some (e.getD 0) := by
  rw [List.map_map]
  refine List.map_congr_left fun e _ => ?_
  cases e with
  | none => exact congrArg some (BitVec.setWidth_zero w 32)
  | some x =>
    refine congrArg some ?_
    show (x.signExtend 32).setWidth w = x
    exact setWidth_signExtend hw x

theorem map_getD_eq_iff {es : List (Option (BitVec w))} :
    (es.map fun e => some (e.getD 0)) = es ↔ none ∉ es := by
  constructor
  · intro h hnone
    rw [← h, List.mem_map] at hnone
    obtain ⟨e, -, he⟩ := hnone
    cases he
  · intro h
    refine (List.map_congr_left fun e he => ?_).trans (List.map_id es)
    cases e with
    | none => exact absurd he h
    | some x => rfl

theorem toInt_ofNat {n : ℕ} (hn : n ≤ maxArraySize) : (Int32.ofNat n).toInt = n := by
  refine Int32.toInt_ofNat_of_lt ?_
  rw [maxArraySize] at hn
  omega

theorem toWasm_unchanged_iff (k : IntType) (room : Bool) (value : ArrayType k.bits)
    (hdim : value.dims.length = 1) :
    (Crossing.toWasm k room value).Unchanged ↔ (Crossing.toWasm k room value).Meets := by
  rw [Crossing.Unchanged, Crossing.Meets]
  cases room with
  | false =>
    have hno : k.toWasm false value = .overruns := by cases k <;> rfl
    refine iff_of_false ?_ fun h => Bool.false_ne_true h.1
    rintro (⟨err, herr⟩ | ⟨a, ha, -⟩)
    · cases hno.symm.trans herr
    · cases hno.symm.trans ha
  | true =>
    have hk : k.bits ≤ 32 := by cases k <;> decide
    set a : WasmArray := ⟨value.elems.map fun e => (e.map (BitVec.signExtend 32)).getD 0,
      Int32.ofNat value.elems.length⟩ with ha
    have hret : k.toWasm true value = .returns a := k.toWasm_rule value
    have hbuf : a.buf.length = value.elems.length := List.length_map _
    have hlen : a.len.toInt = value.elems.length := toInt_ofNat value.size
    have hvalid : a.Valid := ⟨by omega, by omega⟩
    have helems : a.elems = a.buf := by
      rw [WasmArray.elems, hlen, Int.toNat_natCast, ← hbuf, List.take_length]
    have hsome : k.toPg a = .returns value ↔ value.lbound = [1] ∧ none ∉ value.elems := by
      rcases k.toPg_rule hvalid with ⟨hmax, -⟩ | ⟨-, value', hvalue', helems', hone⟩
      · rw [helems, hbuf] at hmax
        exact absurd value.size (not_le.2 hmax)
      · have hpos : 0 < value'.elems.length := by
          rw [helems', List.length_map, helems, hbuf]
          exact ArrayType.length_pos hdim
        obtain ⟨hdim', hlb'⟩ := hone hpos
        rw [helems, elems_there_and_back hk] at helems'
        rw [hvalue', Native.returns.injEq, ← map_getD_eq_iff, ← helems']
        constructor
        · rintro rfl
          exact ⟨hlb', rfl⟩
        · rintro ⟨hl, he⟩
          exact ArrayType.ext_of_dim hdim' hdim (hlb'.trans hl.symm) he
    rw [hret]
    constructor
    · rintro (⟨err, herr⟩ | ⟨a', ha', hback⟩)
      · cases herr
      · obtain rfl := Native.returns.inj ha'
        exact ⟨rfl, hsome.1 hback⟩
    · exact fun h => .inr ⟨a, rfl, hsome.2 h.2⟩

/-- **Integer arrays cross unchanged** exactly when the elements fit on the way to PostgreSQL, and on
    the way back exactly when there is no NULL, the lower bound is one and there is memory. -/
theorem unchanged_iff (c : Crossing) (hc : c.Valid) : c.Unchanged ↔ c.Meets := by
  cases c with
  | toPg k a => exact toPg_unchanged_iff k hc
  | toWasm k room value => exact toWasm_unchanged_iff k room value hc

/-- The array `[40000]`, on the way to `int2[]`. -/
theorem large_changed : (Crossing.toPg .int2 ⟨[40000], 1⟩).Valid ∧
    ¬ (Crossing.toPg .int2 ⟨[40000], 1⟩).Unchanged := by
  refine ⟨WasmArray.Valid.mk (by decide) (by decide), ?_⟩
  rintro (⟨err, herr⟩ | ⟨value, hvalue, h⟩)
  · cases herr
  · obtain rfl := Native.returns.inj hvalue
    revert h
    decide

/-- The array `[32767, -1]`, on the way to `int2[]`. -/
theorem small_unchanged : (Crossing.toPg .int2 ⟨[32767, -1], 2⟩).Unchanged := by
  have hvalid : WasmArray.Valid ⟨[32767, -1], 2⟩ := ⟨by decide, by decide⟩
  refine (unchanged_iff (.toPg .int2 ⟨[32767, -1], 2⟩) hvalid).2 (.inr fun v hv => ?_)
  have hmem : v = 32767 ∨ v = -1 := by
    simpa [WasmArray.elems] using hv
  rcases hmem with rfl | rfl <;> decide

end Rustica
