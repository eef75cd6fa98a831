/-
  The arguments of a query.

  `env_execute_statement` and `env_cursor_open` take the fields of the guest's argument object one
  after the other and convert each as the compiler has chosen for the type of the field and the type
  of the parameter.  So PostgreSQL reads of each datum what the guest has put into the field
  (`arguments_iff`), except that elements of an `int2[]` are cut, and that a null reference is
  followed.  An argument that a statement hands back as a column comes back as it was, with the same
  exception, and but for the integers that stand for true (`echo_iff`).
-/
import Rustica.Rows

namespace Rustica.Arguments

open Rows (Datum Pointee oneColumn)

/-! ## Values -/

/-- What a reference of type `externref` leads to. -/
inductive Extern where
  | null
  /-- something of the guest's own -/
  | guest
  /-- a host object that is no datum -/
  | object (type : ℕ)
  | datum (oid : Oid) (d : Datum)

/-- The value of a field. -/
inductive Arg where
  | i32 (v : BitVec 32)
  | i64 (v : BitVec 64)
  | f32 (v : BitVec 32)
  | f64 (v : BitVec 64)
  | externref (r : Extern)
  | array (a : WasmArray)

def numericTypes : List (BitVec 8) := [valueTypeI32, valueTypeI64, valueTypeF32, valueTypeF64]

/-- The type of a number. -/
def Arg.valueType? : Arg → Option (BitVec 8)
  | .i32 _ => some valueTypeI32
  | .i64 _ => some valueTypeI64
  | .f32 _ => some valueTypeF32
  | .f64 _ => some valueTypeF64
  | _ => none

/-- A value of the type, which is none that the compiler mistakes for another: only a reference has
    a heap type, and no reference to an object is taken for a MoonBit array. -/
def HasType (mod : WasmModule) (t : RefType) : Arg → Prop
  | .externref r => isExternRef t ∧ t.valueType ∉ numericTypes ∧ ¬ isI32Array mod t ∧
      (r = .null → t.isRef false = false)
  | .array a => isI32Array mod t ∧ t.heapType ≠ heapTypeExtern ∧ a.Valid
  | arg => arg.valueType? = some t.valueType ∧ t.heapType ≠ heapTypeExtern

/-! ## Converters -/

/-- `wasm_externref_obj_get_datum`. -/
def Extern.getDatum (oid : Oid) : Extern → Native Datum
  | .null => .overruns
  | .guest => .raises "not an externref of anyref object"
  | .object type => .raises ("expected object type 0, got " ++ toString type)
  | .datum o d =>
    if o = oid then .returns d
    else .raises ("expected OID " ++ toString oid.toInt ++ ", got " ++ toString o.toInt)

def wasmI32ToPgBool (v : BitVec 32) : Datum := ⟨if v ≠ 0 then 1 else 0, none⟩

def wasmI32ToPgInt4 (v : BitVec 32) : Datum := ⟨int32GetDatum v, none⟩

def wasmI64ToPgInt8 (v : BitVec 64) : Datum := ⟨v, none⟩

/-- `Float4GetDatum` goes by the bits, as an `int32`. -/
def wasmF32ToPgFloat4 (v : BitVec 32) : Datum := ⟨int32GetDatum v, none⟩

def wasmF64ToPgFloat8 (v : BitVec 64) : Datum := ⟨v, none⟩

/-- The new array as a datum, at the place that `palloc` has given. -/
def arrayDatum {w : ℕ} (mk : ArrayType w → Pointee) (place : BitVec 64) :
    Native (ArrayType w) → Native Datum
  | .returns a => .returns ⟨place, some (mk a)⟩
  | .throws err => .throws err
  | .raises err => .raises err
  | .overruns => .overruns

/-- A converter with its arguments.  What it reads of a value of another kind is not modelled. -/
def convertArg (fn : WasmToPg) (oid : Oid) (place : BitVec 64) (arg : Arg) : Native Datum :=
  match fn, arg with
  | .i32ToPgBool, .i32 v => .returns (wasmI32ToPgBool v)
  | .i32ToPgInt4, .i32 v => .returns (wasmI32ToPgInt4 v)
  | .i64ToPgInt8, .i64 v => .returns (wasmI64ToPgInt8 v)
  | .f32ToPgFloat4, .f32 v => .returns (wasmF32ToPgFloat4 v)
  | .f64ToPgFloat8, .f64 v => .returns (wasmF64ToPgFloat8 v)
  | .externrefToDatumObj, .externref r => r.getDatum oid
  | .i32ArrayToPgInt2Array, .array a => arrayDatum .int2s place (wasmI32ArrayToPgInt2Array a)
  | .i32ArrayToPgInt4Array, .array a => arrayDatum .int4s place (wasmI32ArrayToPgInt4Array a)
  | _, _ => .overruns

variable {pg : Postgres} (plan : QueryPlan pg) (place : ℕ → BitVec 64) (args : List Arg)
  (obj : Option (List Arg))

/-- The last rounds of the loop over the arguments, from argument `i` on. -/
def convertArgs : ℕ → ℕ → Native (List Datum)
  | 0, _ => .returns []
  | n + 1, i =>
    match plan.wasmToPgFuncs[i]?, plan.argtypes[i]?, args[i]? with
    | some (some fn), some oid, some arg =>
      (convertArg fn oid (place i) arg).bind fun d =>
        (convertArgs n (i + 1)).bind fun ds => .returns (d :: ds)
    | _, _, _ => .overruns

/-- What is given to `SPI_execute_plan`, or to `SPI_cursor_open`. -/
structure Executed (pg : Postgres) where
  plan : pg.Plan
  values : List Datum

/-- The plan of a query, by the index that the guest gives. -/
def takePlan (plans : List (QueryPlan pg)) (idx : Int32) : Native (QueryPlan pg) :=
  if idx.toInt < 0 ∨ idx.toInt ≥ plans.length then
    .raises ("no such query: #" ++ toString idx.toInt)
  else match plans[idx.toInt.toNat]? with
    | some plan => .returns plan
    | none => .overruns

/-- The part that `env_execute_statement` and `env_cursor_open` have in common.  The type of the
    argument object is nullable; of a null there is no field to be read. -/
def execute (plan : QueryPlan pg) : Native (Executed pg) :=
  (convertArgs plan place (obj.getD []) plan.nargs 0).bind fun values => .returns ⟨plan.plan, values⟩

def envExecuteStatement (plans : List (QueryPlan pg)) (idx : Int32) : Native (Executed pg) :=
  (takePlan plans idx).bind (execute place obj)

/-- `isCursorPlan` is `SPI_is_cursor_plan`. -/
def envCursorOpen (isCursorPlan : pg.Plan → Bool) (plans : List (QueryPlan pg)) (idx : Int32) :
    Native (Executed pg) :=
  (takePlan plans idx).bind fun plan =>
    if isCursorPlan plan.plan then execute place obj plan else .raises "not a cursor plan"

/-! ## What is asked -/

/-- A value of PostgreSQL.  What the guest holds as an object is a value as it is. -/
inductive PgValue where
  | bool (b : Bool)
  | int (v : ℤ)
  | float4 (bits : BitVec 32)
  | float8 (bits : BitVec 64)
  | datum (d : Datum)
  | array (elems : List (Option ℤ))

/-- What PostgreSQL reads of a datum of the type. -/
def pgRead (oid : Oid) (d : Datum) : Option PgValue :=
  if oid = boolOid then some (.bool (d.bits ≠ 0))
  else if oid = int4Oid ∨ oid = dateOid then some (.int (datumGetInt32 d.bits).toInt)
  else if oid = int8Oid ∨ oid = timestampOid ∨ oid = timestamptzOid ∨ oid = timeOid then
    some (.int d.bits.toInt)
  else if oid = float4Oid then some (.float4 (datumGetInt32 d.bits))
  else if oid = float8Oid then some (.float8 d.bits)
  else if isOpaque oid then some (.datum d)
  else match d.pointee with
    | some (.int2s a) => if oid = int2ArrayOid then some (.array (a.elems.map (Option.map BitVec.toInt)))
      else none
    | some (.int4s a) => if oid = int4ArrayOid then some (.array (a.elems.map (Option.map BitVec.toInt)))
      else none
    | _ => none

/-- **What the guest means** by a value for a parameter of the type. -/
def meaning (oid : Oid) : Arg → Option PgValue
  | .i32 v => some (if oid = boolOid then .bool (v ≠ 0) else .int v.toInt)
  | .i64 v => some (.int v.toInt)
  | .f32 v => some (.float4 v)
  | .f64 v => some (.float8 v)
  | .externref (.datum _ d) => some (.datum d)
  | .externref _ => none
  | .array a => some (.array (a.elems.map fun v => some v.toInt))

/-- The value is refused: an object that is no datum of the type, or an array that is too long. -/
def Refused (oid : Oid) : Arg → Prop
  | .externref .guest | .externref (.object _) => True
  | .externref (.datum o _) => o ≠ oid
  | .array a => maxArraySize < a.elems.length
  | _ => False

/-- The value is no null, and the elements of an `int2[]` fit. -/
def Fits (oid : Oid) : Arg → Prop
  | .externref .null => False
  | .array a => oid = int2ArrayOid → ∀ v ∈ a.elems, -2 ^ 15 ≤ v.toInt ∧ v.toInt < 2 ^ 15
  | _ => True

/-- One of the values is refused, and none before it is null. -/
def Rejected : List (Oid × Arg) → Prop
  | [] => False
  | (oid, arg) :: rest => Refused oid arg ∨ arg ≠ .externref .null ∧ Rejected rest

/-- The values are rejected, or all fit; only a query without arguments may be given a null. -/
def Fitting (oids : List Oid) : Option (List Arg) → Prop
  | none => oids = []
  | some args => Rejected (oids.zip args) ∨ ∀ p ∈ oids.zip args, Fits p.1 p.2

/-- **Executed as meant**: it raises, or the statement is executed with values that PostgreSQL reads
    as the guest means them. -/
def AsMeant (sql : List UInt8) (oids : List Oid) (obj : Option (List Arg))
    (r : Native (Executed pg)) : Prop :=
  (∃ err, r = .raises err) ∨ ∃ e, r = .returns e ∧ pg.spiPrepare (cstring sql) oids = some e.plan ∧
    List.Forall₂ (fun p d => pgRead p.1 d = meaning p.1 p.2) (oids.zip (obj.getD [])) e.values

/-! ## One argument -/

variable {mod : WasmModule} {t : RefType} {oid : Oid} {fn : WasmToPg} {arg : Arg} {at' : BitVec 64}

/-- `wasm_to_pg` as a table. -/
inductive Converts (mod : WasmModule) (t : RefType) (oid : Oid) : WasmToPg → Prop
  | bool (ho : oid = boolOid) (ht : t.valueType = valueTypeI32) : Converts mod t oid .i32ToPgBool
  | int4 (ho : oid = int4Oid ∨ oid = dateOid ∨ oid = int8Oid) (ht : t.valueType = valueTypeI32) :
      Converts mod t oid .i32ToPgInt4
  | int8 (ho : oid = int8Oid ∨ oid = timestampOid ∨ oid = timestamptzOid ∨ oid = timeOid)
      (ht : t.valueType = valueTypeI64) : Converts mod t oid .i64ToPgInt8
  | float4 (ho : oid = float4Oid) (ht : t.valueType = valueTypeF32) : Converts mod t oid .f32ToPgFloat4
  | float8 (ho : oid = float8Oid) (ht : t.valueType = valueTypeF64) : Converts mod t oid .f64ToPgFloat8
  | datum (ho : isOpaque oid) (ht : isExternRef t) : Converts mod t oid .externrefToDatumObj
  | int2Array (ho : oid = int2ArrayOid) (ht : isI32Array mod t) :
      Converts mod t oid .i32ArrayToPgInt2Array
  | int4Array (ho : oid = int4ArrayOid) (ht : isI32Array mod t) :
      Converts mod t oid .i32ArrayToPgInt4Array

theorem converts_of_wasmToPg (h : wasmToPg mod t oid = some fn) : Converts mod t oid fn := by
  rw [wasmToPg] at h
  split_ifs at h with h1 h1' h2 h2' h3 h3' h3'' h4 h4' h5 h5' h6 h6' h7 h7' h8 h8' h9 h9'
  all_goals obtain rfl := Option.some.inj h
  · exact .bool h1 h1'
  · exact .int4 (h2.elim .inl fun h => .inr (.inl h)) h2'
  · exact .int8 (.inl h3) h3'
  · exact .int4 (.inr (.inr h3)) h3''
  · exact .int8 (.inr h4) h4'
  · exact .float4 h5 h5'
  · exact .float8 h6 h6'
  · exact .datum h7 h7'
  · exact .int2Array h8 h8'
  · exact .int4Array h9 h9'

/-- A MoonBit array is a reference. -/
theorem isI32Array_valueType (h : isI32Array mod t) : t.valueType = valueTypeNonNullable := by
  by_contra hne
  have hno : t.isRef false = false := by
    rw [RefType.isRef]
    exact decide_eq_false hne
  rw [isI32Array, validateMoonbitArray, referredStruct, hno] at h
  cases h

theorem HasType.numeric (h : HasType mod t arg) (ht : t.valueType ∈ numericTypes) :
    arg.valueType? = some t.valueType := by
  cases arg with
  | externref r => exact absurd ht h.2.1
  | array a =>
    rw [isI32Array_valueType h.1] at ht
    exact absurd ht (by decide)
  | _ => exact h.1

theorem HasType.i32 (h : HasType mod t arg) (ht : t.valueType = valueTypeI32) :
    ∃ v, arg = .i32 v := by
  have hn := h.numeric (by rw [ht]; decide)
  rw [ht] at hn
  cases arg with
  | i32 v => exact ⟨v, rfl⟩
  | _ => cases hn

theorem HasType.i64 (h : HasType mod t arg) (ht : t.valueType = valueTypeI64) :
    ∃ v, arg = .i64 v := by
  have hn := h.numeric (by rw [ht]; decide)
  rw [ht] at hn
  cases arg with
  | i64 v => exact ⟨v, rfl⟩
  | _ => cases hn

theorem HasType.f32 (h : HasType mod t arg) (ht : t.valueType = valueTypeF32) :
    ∃ v, arg = .f32 v := by
  have hn := h.numeric (by rw [ht]; decide)
  rw [ht] at hn
  cases arg with
  | f32 v => exact ⟨v, rfl⟩
  | _ => cases hn

theorem HasType.f64 (h : HasType mod t arg) (ht : t.valueType = valueTypeF64) :
    ∃ v, arg = .f64 v := by
  have hn := h.numeric (by rw [ht]; decide)
  rw [ht] at hn
  cases arg with
  | f64 v => exact ⟨v, rfl⟩
  | _ => cases hn

theorem HasType.externref (h : HasType mod t arg) (ht : isExternRef t) : ∃ r, arg = .externref r := by
  have hv := ht
  rw [isExternRef, Bool.or_eq_true, decide_eq_true_eq, decide_eq_true_eq] at hv
  cases arg with
  | externref r => exact ⟨r, rfl⟩
  | array a =>
    rw [isI32Array_valueType h.1] at hv
    exact absurd (hv.resolve_left (by decide)) h.2.1
  | _ =>
    have hx := hv.resolve_right h.2
    have hn := h.1
    rw [hx] at hn
    cases hn

theorem HasType.array (h : HasType mod t arg) (ht : isI32Array mod t) :
    ∃ a, arg = .array a ∧ a.Valid := by
  cases arg with
  | externref r => exact absurd ht h.2.2.1
  | array a => exact ⟨a, rfl, h.2.2⟩
  | _ =>
    have hn := h.1
    rw [isI32Array_valueType ht] at hn
    cases hn

/-- How the conversion of an argument ends: it raises where the value is refused, follows a null, or
    gives a datum, which PostgreSQL reads as the guest means it where the value fits. -/
structure Ends (oid : Oid) (arg : Arg) (r : Native Datum) : Prop where
  refused : Refused oid arg → ∃ err, r = .raises err
  null : arg = .externref .null → r = .overruns
  returns : ¬ Refused oid arg → arg ≠ .externref .null →
    ∃ d, r = .returns d ∧ (pgRead oid d = meaning oid arg ↔ Fits oid arg)

/-- A number is never refused, and always fits. -/
theorem Ends.number {d : Datum} {u : BitVec 8} (hno : arg.valueType? = some u)
    (hread : pgRead oid d = meaning oid arg) : Ends oid arg (.returns d) := by
  cases arg with
  | externref r => cases hno
  | array a => cases hno
  | _ => exact ⟨fun h => h.elim, by rintro ⟨⟩,
      fun _ _ => ⟨d, rfl, iff_of_true hread trivial⟩⟩

theorem toInt_int32GetDatum (v : BitVec 32) : (int32GetDatum v).toInt = v.toInt :=
  BitVec.toInt_signExtend_of_le (by decide)

theorem datumGetInt32_int32GetDatum (v : BitVec 32) : datumGetInt32 (int32GetDatum v) = v :=
  setWidth_signExtend (by decide) v

/-- An object that is a datum of the type is handed over as it is. -/
theorem ends_externref (ho : isOpaque oid) (r : Extern) : Ends oid (.externref r) (r.getDatum oid) := by
  have hread : ∀ d, pgRead oid d = some (.datum d) := by
    intro d
    simp only [isOpaque, List.mem_cons, List.not_mem_nil, or_false, decide_eq_true_eq] at ho
    rcases ho with rfl | rfl | rfl | rfl | rfl | rfl | rfl <;> rfl
  cases r with
  | null => exact ⟨fun h => h.elim, fun _ => rfl, fun _ h => absurd rfl h⟩
  | guest => exact ⟨fun _ => ⟨_, rfl⟩, by rintro ⟨⟩, fun h _ => absurd trivial h⟩
  | object type => exact ⟨fun _ => ⟨_, rfl⟩, by rintro ⟨⟩, fun h _ => absurd trivial h⟩
  | datum o d =>
    refine ⟨fun h => ⟨_, if_neg h⟩, by rintro ⟨⟩, fun h _ => ⟨d, if_pos (not_not.1 h), ?_⟩⟩
    exact iff_of_true (hread d) trivial

/-- The two kinds of arrays, each with the converter, the type and the elements that are stored. -/
theorem ends_array (k : IntType) {mk : ArrayType k.bits → Pointee} {a : WasmArray} (ha : a.Valid)
    (hread : ∀ b value, pgRead oid ⟨b, some (mk value)⟩ =
      some (.array (value.elems.map (Option.map BitVec.toInt))))
    (hfits : Fits oid (.array a) ↔
      ∀ v ∈ a.elems, -2 ^ (k.bits - 1) ≤ v.toInt ∧ v.toInt < 2 ^ (k.bits - 1)) :
    Ends oid (.array a) (arrayDatum mk at' (k.toPg a)) := by
  rcases k.toPg_rule ha with ⟨hmax, err, herr⟩ | ⟨hmax, value, hvalue, helems, -⟩
  · rw [herr]
    exact ⟨fun _ => ⟨err, rfl⟩, by rintro ⟨⟩, fun h => absurd hmax h⟩
  · rw [hvalue]
    refine ⟨fun h => absurd h (not_lt.2 hmax), by rintro ⟨⟩, fun _ _ => ⟨_, rfl, ?_⟩⟩
    have hsame : value.elems.map (Option.map BitVec.toInt) = a.elems.map (fun v => some v.toInt) ↔
        ∀ v ∈ a.elems, (v.setWidth k.bits).toInt = v.toInt := by
      rw [helems, List.map_map, List.map_inj_left]
      exact forall₂_congr fun v _ => Option.some_inj
    rw [hread, meaning, Option.some_inj, PgValue.array.injEq, hsame, hfits]
    exact forall₂_congr fun v _ => k.toInt_setWidth_iff v

/-- **One argument** of the type that the compiler has seen, by the converter it has chosen. -/
theorem Converts.ends (hfn : Converts mod t oid fn) (harg : HasType mod t arg) :
    Ends oid arg (convertArg fn oid at' arg) := by
  cases hfn with
  | bool ho ht =>
    obtain ⟨v, rfl⟩ := harg.i32 ht
    refine .number rfl ?_
    subst ho
    by_cases hv : v = 0
    · rw [hv]; rfl
    · rw [wasmI32ToPgBool, if_pos hv]
      exact congrArg (fun b => some (PgValue.bool b)) (decide_eq_true hv).symm
  | int4 ho ht =>
    obtain ⟨v, rfl⟩ := harg.i32 ht
    refine .number rfl ?_
    have h4 : some (PgValue.int (datumGetInt32 (int32GetDatum v)).toInt) = some (.int v.toInt) := by
      rw [datumGetInt32_int32GetDatum]
    rcases ho with rfl | rfl | rfl
    · exact h4
    · exact h4
    · exact congrArg (fun n => some (PgValue.int n)) (toInt_int32GetDatum v)
  | int8 ho ht =>
    obtain ⟨v, rfl⟩ := harg.i64 ht
    rcases ho with rfl | rfl | rfl | rfl <;> exact .number rfl rfl
  | float4 ho ht =>
    obtain ⟨v, rfl⟩ := harg.f32 ht
    subst ho
    exact .number rfl (congrArg (fun b => some (PgValue.float4 b)) (datumGetInt32_int32GetDatum v))
  | float8 ho ht =>
    obtain ⟨v, rfl⟩ := harg.f64 ht
    subst ho
    exact .number rfl rfl
  | datum ho ht =>
    obtain ⟨r, rfl⟩ := harg.externref ht
    exact ends_externref ho r
  | int2Array ho ht =>
    obtain ⟨a, rfl, ha⟩ := harg.array ht
    subst ho
    exact ends_array .int2 ha (fun b value => rfl) ⟨fun h => h rfl, fun h _ => h⟩
  | int4Array ho ht =>
    obtain ⟨a, rfl, ha⟩ := harg.array ht
    subst ho
    exact ends_array .int4 ha (fun b value => rfl) ⟨fun h v _ => ⟨v.le_toInt, v.toInt_lt⟩,
      fun _ h => absurd h (by decide)⟩

/-! ## All arguments -/

variable {pg : Postgres} {plan : QueryPlan pg} {place : ℕ → BitVec 64} {args : List Arg}
  {types : List RefType}

/-- How the loop ends, for the values from one on. -/
structure EndsAll (l : List (Oid × Arg)) (r : Native (List Datum)) : Prop where
  rejected : Rejected l ↔ ∃ err, r = .raises err
  returns : ∀ ds, r = .returns ds →
    (List.Forall₂ (fun p d => pgRead p.1 d = meaning p.1 p.2) l ds ↔ ∀ p ∈ l, Fits p.1 p.2)
  fits : ¬ Rejected l → (∀ p ∈ l, Fits p.1 p.2) → ∃ ds, r = .returns ds

/-- One round, before those of the other arguments. -/
theorem EndsAll.cons {l : List (Oid × Arg)} {r : Native Datum} {rest : Native (List Datum)}
    (h : Ends oid arg r) (hrest : EndsAll l rest) :
    EndsAll ((oid, arg) :: l) (r.bind fun d => rest.bind fun ds => .returns (d :: ds)) := by
  by_cases href : Refused oid arg
  · obtain ⟨err, rfl⟩ := h.refused href
    exact ⟨iff_of_true (.inl href) ⟨err, rfl⟩, (by rintro ds ⟨⟩), fun hno => absurd (.inl href) hno⟩
  by_cases hnull : arg = .externref .null
  · have hunfit : ¬ ∀ p ∈ (oid, arg) :: l, Fits p.1 p.2 := by
      intro hall
      have := hall _ List.mem_cons_self
      rwa [hnull] at this
    rw [h.null hnull]
    refine ⟨iff_of_false ?_ (by rintro ⟨err, ⟨⟩⟩), (by rintro ds ⟨⟩), fun _ hall => absurd hall hunfit⟩
    rintro (h | ⟨h, -⟩)
    · exact href h
    · exact h hnull
  obtain ⟨d, rfl, hd⟩ := h.returns href hnull
  have hrej : Rejected ((oid, arg) :: l) ↔ Rejected l := by
    rw [Rejected, or_iff_right href, and_iff_right hnull]
  constructor
  · rw [hrej, hrest.rejected]
    cases rest with
    | returns ds => exact iff_of_false (by rintro ⟨err, ⟨⟩⟩) (by rintro ⟨err, ⟨⟩⟩)
    | raises err => exact Iff.rfl
    | _ => exact Iff.rfl
  · intro ds hds
    cases rest with
    | returns ds' =>
      cases hds
      rw [List.forall₂_cons, hrest.returns ds' rfl, hd, List.forall_mem_cons]
    | _ => cases hds
  · intro hno hall
    obtain ⟨ds, rfl⟩ := hrest.fits (mt hrej.2 hno) fun p hp => hall p (List.mem_cons_of_mem _ hp)
    exact ⟨d :: ds, rfl⟩

/-- The plan has, for each argument, the converter that the compiler chooses for it. -/
structure Takes (mod : WasmModule) (plan : QueryPlan pg) (types : List RefType) : Prop where
  nargs : plan.nargs = types.length
  argtypes : plan.argtypes.length = types.length
  arg : ∀ i < types.length, ∃ fn oid t, plan.wasmToPgFuncs[i]? = some (some fn) ∧
    plan.argtypes[i]? = some oid ∧ types[i]? = some t ∧ wasmToPg mod t oid = some fn

variable (place) in
theorem Takes.endsAll (h : Takes mod plan types) (hargs : List.Forall₂ (HasType mod) types args)
    {n i : ℕ} (hi : i + n = types.length) :
    EndsAll ((plan.argtypes.zip args).drop i) (convertArgs plan place args n i) := by
  have hlen := hargs.length_eq
  induction n generalizing i with
  | zero =>
    rw [List.drop_of_length_le (by rw [List.length_zip, h.argtypes, ← hlen]; omega)]
    exact ⟨iff_of_false id (by rintro ⟨err, ⟨⟩⟩), (by
      rintro ds ⟨⟩
      exact iff_of_true .nil fun p hp => absurd hp List.not_mem_nil), fun _ _ => ⟨[], rfl⟩⟩
  | succ n ih =>
    obtain ⟨fn, oid, t, hfn, hoid, ht, hto⟩ := h.arg i (by omega)
    have hia : i < args.length := by omega
    have harg : args[i]? = some args[i] := List.getElem?_eq_getElem hia
    have htyped : HasType mod t args[i] := by
      have := (List.forall₂_iff_get.1 hargs).2 i (by omega) hia
      simp only [List.get_eq_getElem] at this
      rwa [(List.getElem?_eq_some_iff.1 ht).2] at this
    have hzip : i < (plan.argtypes.zip args).length := by rw [List.length_zip, h.argtypes]; omega
    have hdrop : (plan.argtypes.zip args).drop i =
        (oid, args[i]) :: (plan.argtypes.zip args).drop (i + 1) := by
      rw [List.drop_eq_getElem_cons hzip, List.getElem_zip, (List.getElem?_eq_some_iff.1 hoid).2]
    rw [hdrop, convertArgs, hfn, hoid, harg]
    exact .cons ((converts_of_wasmToPg hto).ends htyped) (ih (by omega))

variable (place) in
/-- **The arguments of a query** are those of its plan. -/
theorem Takes.asMeant_iff {sql : List UInt8} {obj : Option (List Arg)} (h : Takes mod plan types)
    (hsql : pg.spiPrepare (cstring sql) plan.argtypes = some plan.plan)
    (hobj : ∀ args ∈ obj, List.Forall₂ (HasType mod) types args) :
    AsMeant sql plan.argtypes obj (execute place obj plan) ↔ Fitting plan.argtypes obj := by
  cases obj with
  | none =>
    rw [Fitting, ← List.length_eq_zero_iff, h.argtypes, execute, h.nargs, Option.getD_none]
    cases hlen : types.length with
    | zero =>
      refine iff_of_true (.inr ⟨⟨plan.plan, []⟩, rfl, hsql, ?_⟩) rfl
      rw [Option.getD_none, List.zip_nil_right]
      exact .nil
    | succ n =>
      refine iff_of_false ?_ (Nat.succ_ne_zero n)
      have hover : convertArgs plan place [] (n + 1) 0 = .overruns := by
        rw [convertArgs, List.getElem?_nil]
        split <;> first | rfl | contradiction
      rw [hover]
      rintro (⟨err, ⟨⟩⟩ | ⟨e, ⟨⟩, -⟩)
  | some args =>
    have hends := h.endsAll place (hobj args rfl) (Nat.zero_add _)
    rw [List.drop_zero] at hends
    rw [Fitting, execute, h.nargs, Option.getD_some]
    constructor
    · rintro (⟨err, herr⟩ | ⟨e, he, -, hread⟩)
      · left
        refine hends.rejected.2 ⟨err, ?_⟩
        cases hr : convertArgs plan place args types.length 0 <;> rw [hr] at herr <;> cases herr
        rfl
      · right
        cases hr : convertArgs plan place args types.length 0 <;> rw [hr] at he <;> cases he
        exact (hends.returns _ hr).1 hread
    · intro hfit
      by_cases hrej : Rejected (plan.argtypes.zip args)
      · obtain ⟨err, herr⟩ := hends.rejected.1 hrej
        exact .inl ⟨err, by rw [herr]; rfl⟩
      · have hall := hfit.resolve_left hrej
        obtain ⟨ds, hds⟩ := hends.fits hrej hall
        exact .inr ⟨⟨plan.plan, ds⟩, by rw [hds]; rfl, hsql, (hends.returns ds hds).2 hall⟩

/-! ## Compiled and loaded -/

/-- The types of the fields of a query's argument object, as the compiler reads them. -/
def argFieldTypes (mod : WasmModule) (t : RefType) : List RefType :=
  match compileQueryType mod t fun _ => none with
  | .ok attrs => refTypes (attrs 5)
  | .error _ => []

/-- The OIDs that the guest has given for the arguments of a query. -/
def argOids (mod : WasmModule) (t : RefType) (query : QueryObj) : List Oid :=
  (List.range (argFieldTypes mod t).length).map query.oids

variable {junk : ℕ → Oid} {q : ℕ} {query : QueryObj} {row : QueryAttrs} {name : List UInt8}

theorem argFns_arg {ts : List RefType} {oids : List Oid} {fns : List WasmToPg}
    (h : argFns mod ts oids = .ok fns) (hlen : ts.length = oids.length) :
    ∀ i < ts.length, ∃ f oid t, fns[i]? = some f ∧ oids[i]? = some oid ∧ ts[i]? = some t ∧
      wasmToPg mod t oid = some f := by
  induction ts generalizing oids fns with
  | nil => exact fun i hi => absurd hi (Nat.not_lt_zero i)
  | cons t ts ih =>
    cases oids with
    | nil => cases hlen
    | cons oid oids =>
      rw [argFns] at h
      split at h
      · cases h
      · rename_i f hf
        obtain ⟨fns', hfns', h⟩ := bind_eq_ok.1 h
        obtain rfl := Except.ok.inj h
        intro i hi
        cases i with
        | zero => exact ⟨f, oid, t, rfl, rfl, rfl, hf⟩
        | succ i => exact ih hfns' (Nat.succ.inj hlen) i (Nat.lt_of_succ_lt_succ hi)

/-- What the loader takes of the arguments. -/
theorem rstInitQueryPlan_args {plan : QueryPlan pg} (h : rstInitQueryPlan pg row = .ok plan) :
    ∃ sql fns, getText row 3 = .ok sql ∧ getInt4s row 5 = .ok plan.argtypes ∧
      plan.nargs = plan.argtypes.length ∧
      pg.spiPrepare (cstring sql) plan.argtypes = some plan.plan ∧ getInt4s row 7 = .ok fns ∧
      plan.wasmToPgFuncs = fns.map fun d => wasmToPgFuncs[d.toNat]? := by
  rw [rstInitQueryPlan] at h
  obtain ⟨sql, hsql, h⟩ := bind_eq_ok.1 h
  obtain ⟨argtypes, hargtypes, h⟩ := bind_eq_ok.1 h
  dsimp only at h
  split at h
  · cases h
  · rename_i p hp
    split_ifs at h with hkeep
    · cases h
    obtain ⟨fns, hfns, h⟩ := bind_eq_ok.1 h
    split_ifs at h with hargs
    · cases h
    obtain ⟨res, -, h⟩ := bind_eq_ok.1 h
    obtain ⟨retFns, -, h⟩ := bind_eq_ok.1 h
    split_ifs at h with hlen
    · cases h
    cases h
    exact ⟨sql, fns, hsql, hargtypes, rfl, hp, hfns, rfl⟩

/-- **The plan of a query that was compiled and loaded** takes its arguments. -/
theorem takes_of_load {plan : QueryPlan pg} (hrow : compileOne mod pg junk q t query = .ok row)
    (hload : rstInitQueryPlan pg (stored name row) = .ok plan) :
    Takes mod plan (argFieldTypes mod t) ∧ plan.argtypes = argOids mod t query ∧
      pg.spiPrepare (cstring (terminated query.sql)) plan.argtypes = some plan.plan := by
  obtain ⟨attrs, hty, hcomp⟩ := bind_eq_ok.1 hrow
  obtain ⟨args, ret, fields, htyped⟩ := compileQueryType_typed hty
  obtain ⟨d, hd, rfl, -⟩ := compileQuery_accepted htyped hcomp
  have hfields : argFieldTypes mod t = d.args := by
    rw [argFieldTypes, hty]
    exact (congrArg refTypes htyped.args).trans (refTypes_int8s d.args)
  obtain ⟨sql, fns, hsql, hargtypes, hnargs, hprep, hfns, hfuncs⟩ := rstInitQueryPlan_args hload
  have hsql' : sql = terminated query.sql := by
    rw [← hd.sql_eq]
    simpa [getText, getbinval_stored, hd.sql] using hsql.symm
  have hoids : plan.argtypes = d.argtypes := by
    simpa [getInt4s, getbinval_stored, hd.argtypes] using hargtypes.symm
  have hfns' : fns = d.argFns.map WasmToPg.toInt4 := by
    simpa [getInt4s, getbinval_stored, hd.argFns] using hfns.symm
  have hfuncs' : plan.wasmToPgFuncs = d.argFns.map some := by
    rw [hfuncs, hfns', List.map_map]
    exact List.map_congr_left fun f _ => wasmToPgFuncs_toInt4 f
  have hlen : d.args.length = d.argtypes.length := by rw [hd.argtypes_eq]; simp
  refine ⟨⟨?_, ?_, fun i hi => ?_⟩, ?_, hsql' ▸ hprep⟩
  · rw [hnargs, hoids, hfields, hlen]
  · rw [hoids, hfields, hlen]
  · rw [hfields] at hi
    obtain ⟨f, oid, t', hf, hoid, ht', hto⟩ := argFns_arg hd.argFns_eq hlen i hi
    refine ⟨f, oid, t', ?_, by rw [hoids]; exact hoid, by rw [hfields]; exact ht', hto⟩
    rw [hfuncs', List.getElem?_map, hf]
    rfl
  · rw [hoids, hd.argtypes_eq, argOids, hfields]

theorem initQueryPlans_plan {rows : List QueryAttrs} {plans : List (QueryPlan pg)} {i : ℕ}
    (h : initQueryPlans pg i rows = .ok plans) : plans.length = rows.length ∧
      ∀ (k : ℕ) row, rows[k]? = some row → ∃ plan, plans[k]? = some plan ∧
        rstInitQueryPlan pg row = .ok plan := by
  induction rows generalizing i plans with
  | nil =>
    cases h
    exact ⟨rfl, fun k row hk => by cases hk⟩
  | cons row rows ih =>
    obtain ⟨idx, -, h⟩ := bind_eq_ok.1 h
    split_ifs at h with hidx
    · cases h
    obtain ⟨plan, hplan, h⟩ := bind_eq_ok.1 h
    obtain ⟨rest, hrest, h⟩ := bind_eq_ok.1 h
    cases h
    obtain ⟨hlen, hrows⟩ := ih hrest
    refine ⟨congrArg Nat.succ hlen, fun k row' hk => ?_⟩
    cases k with
    | zero =>
      cases hk
      exact ⟨plan, rfl, hplan⟩
    | succ k => exact hrows k row' hk

/-- **A plan of a loaded module** is that of the query with its index. -/
theorem plan_of_module {junk : ℕ → ℕ → Oid} {queries : ℕ → QueryObj} {rows table : List QueryAttrs}
    {plans : List (QueryPlan pg)} (hrows : runAndCompile mod pg junk (some queries) = .ok (some rows))
    (hst : StoredAs table name rows) (hplans : createModuleWithQueries pg table name = .ok plans) :
    plans.length = (queryTypes mod).length ∧ ∀ (k : ℕ) t, (queryTypes mod)[k]? = some t →
      ∃ plan row, plans[k]? = some plan ∧
        compileOne mod pg (junk k) k t (queries k) = .ok row ∧
        rstInitQueryPlan pg (stored name row) = .ok plan := by
  obtain ⟨hle, hrows⟩ := runAndCompile_rows hrows
  obtain ⟨hlen, hrow⟩ := compileEach_rows hrows
  simp only [Nat.zero_add] at hrow
  have hidx : ∀ (k : ℕ) row, rows[k]? = some row → row 1 = some (.int4 (k : ℕ)) := by
    intro k row hk
    obtain ⟨t, -, hone⟩ := hrow k row hk
    exact Agree.index hone
  rw [createModuleWithQueries, loadModuleQueries_eq hidx (by omega) hst] at hplans
  obtain ⟨hlen', hplan⟩ := initQueryPlans_plan hplans
  rw [List.length_map] at hlen'
  refine ⟨hlen'.trans hlen, fun k t ht => ?_⟩
  have hk : k < rows.length := by
    rw [hlen]
    exact (List.getElem?_eq_some_iff.1 ht).1
  obtain ⟨t', ht', hone⟩ := hrow k rows[k] (List.getElem?_eq_getElem hk)
  obtain rfl := Option.some.inj (ht.symm.trans ht')
  obtain ⟨plan, hplan, hload⟩ := hplan k (stored name rows[k]) (by
    rw [List.getElem?_map, List.getElem?_eq_getElem hk]; rfl)
  exact ⟨plan, rows[k], hplan, hone, hload⟩

theorem storedAs_map (rows : List QueryAttrs) (name : List UInt8) :
    StoredAs (rows.map (stored name)) name rows := by
  rw [StoredAs, List.filter_eq_self.2]
  intro row hrow
  obtain ⟨row, -, rfl⟩ := List.mem_map.1 hrow
  exact decide_eq_true (by rw [rowModule, stored, QueryAttrs.set_apply, if_pos rfl])

open Rows (WasmValue convert envTupleLower fill fill_returns exists_fill spiGetbinval_some)

/-- The guest gets what it has given.  A MoonBit array is its elements. -/
def Same : Arg → WasmValue → Prop
  | .i32 v, .i32 v' => v = v'
  | .i64 v, .i64 v' => v = v'
  | .f32 v, .f32 v' => v = v'
  | .f64 v, .f64 v' => v = v'
  | .externref (.datum oid d), .datumObj d' oid' => d = d' ∧ oid = oid'
  | .array a, .array _ a' => a.elems = a'.elems
  | _, _ => False

/-- A truth value is 0 or 1, and the elements of an `int2[]` fit. -/
def Echoes (oid : Oid) : Arg → Prop
  | .i32 v => oid = boolOid → v = 0 ∨ v = 1
  | .array a => oid = int2ArrayOid → ∀ v ∈ a.elems, -2 ^ 15 ≤ v.toInt ∧ v.toInt < 2 ^ 15
  | _ => True

theorem echo_array (k : IntType) {mk : ArrayType k.bits → Pointee} {a : WasmArray} {d : Datum}
    {fn' : PgToWasm} (ha : a.Valid) (hd : arrayDatum mk at' (k.toPg a) = .returns d)
    (hconv : ∀ b value, convert fn' ⟨b, some (mk value)⟩ oid t true =
      Rows.arrayField t (k.toWasm true value))
    (hfits : Echoes oid (.array a) ↔
      ∀ v ∈ a.elems, -2 ^ (k.bits - 1) ≤ v.toInt ∧ v.toInt < 2 ^ (k.bits - 1)) :
    ∃ v, convert fn' d oid t true = .returns v ∧ (Same (.array a) v ↔ Echoes oid (.array a)) := by
  have hk : k.bits ≤ 32 := by cases k <;> decide
  rcases k.toPg_rule ha with ⟨-, err, herr⟩ | ⟨-, value, hvalue, helems, -⟩
  · rw [herr] at hd
    cases hd
  · rw [hvalue] at hd
    cases hd
    set a' : WasmArray := ⟨value.elems.map fun e => (e.map (BitVec.signExtend 32)).getD 0,
      Int32.ofNat value.elems.length⟩ with ha'
    refine ⟨.array t.heapType a', by rw [hconv, k.toWasm_rule]; rfl, ?_⟩
    have hback : a'.elems = a.elems.map fun v => (v.setWidth k.bits).signExtend 32 := by
      have hlen : a'.len.toInt = value.elems.length := toInt_ofNat value.size
      rw [WasmArray.elems, hlen, Int.toNat_natCast, List.take_of_length_le (by rw [List.length_map]),
        ha', helems, List.map_map]
      rfl
    rw [hfits, ← forall₂_congr fun v _ => k.toInt_setWidth_iff v, Same, hback, eq_comm]
    constructor
    · intro h v hv
      have hv' : (v.setWidth k.bits).signExtend 32 = v :=
        List.map_inj_left.1 (h.trans (List.map_id a.elems).symm) v hv
      rw [← BitVec.toInt_signExtend_of_le hk, hv']
    · intro h
      refine (List.map_congr_left fun v hv => ?_).trans (List.map_id _)
      refine BitVec.eq_of_toInt_eq ?_
      rw [BitVec.toInt_signExtend_of_le hk, h v hv, id]

/-- **One value**, as an argument and then as a column of the same types. -/
theorem Converts.echo {fn' : PgToWasm} {d : Datum} (hfn : Converts mod t oid fn)
    (hback : pgToWasm mod oid t = some fn') (harg : HasType mod t arg)
    (hd : convertArg fn oid at' arg = .returns d) :
    ∃ v, convert fn' d oid t true = .returns v ∧ (Same arg v ↔ Echoes oid arg) := by
  cases hfn with
  | bool ho ht =>
    obtain ⟨v, rfl⟩ := harg.i32 ht
    subst ho
    have hto : pgToWasm mod boolOid t = some .boolToWasmI32 := if_pos ht
    obtain rfl := Option.some.inj (hto.symm.trans hback)
    cases hd
    refine ⟨_, rfl, ?_⟩
    rw [Echoes, imp_iff_right rfl]
    by_cases hv : v = 0
    · rw [hv]
      exact iff_of_true rfl (.inl rfl)
    · rw [or_iff_right hv, wasmI32ToPgBool, if_pos hv]
      exact Iff.rfl
  | int4 ho ht =>
    obtain ⟨v, rfl⟩ := harg.i32 ht
    cases hd
    have hto : pgToWasm mod oid t = some .int4ToWasmI32 := by
      rcases ho with rfl | rfl | rfl
      · exact if_pos ht
      · exact if_pos ht
      · have hto : pgToWasm mod int8Oid t =
          if t.valueType = valueTypeI64 then some .int8ToWasmI64 else none := rfl
        rw [hto, if_neg (by rw [ht]; decide)] at hback
        cases hback
    have hbool : oid ≠ boolOid := by rcases ho with rfl | rfl | rfl <;> decide
    obtain rfl := Option.some.inj (hto.symm.trans hback)
    exact ⟨_, rfl, iff_of_true (datumGetInt32_int32GetDatum v).symm fun h => absurd h hbool⟩
  | int8 ho ht =>
    obtain ⟨v, rfl⟩ := harg.i64 ht
    cases hd
    have hto : pgToWasm mod oid t = some .int8ToWasmI64 := by
      rcases ho with rfl | rfl | rfl | rfl <;> exact if_pos ht
    obtain rfl := Option.some.inj (hto.symm.trans hback)
    exact ⟨_, rfl, iff_of_true rfl trivial⟩
  | float4 ho ht =>
    obtain ⟨v, rfl⟩ := harg.f32 ht
    cases hd
    subst ho
    have hto : pgToWasm mod float4Oid t = some .float4ToWasmF32 := if_pos ht
    obtain rfl := Option.some.inj (hto.symm.trans hback)
    exact ⟨_, rfl, iff_of_true (datumGetInt32_int32GetDatum v).symm trivial⟩
  | float8 ho ht =>
    obtain ⟨v, rfl⟩ := harg.f64 ht
    cases hd
    subst ho
    have hto : pgToWasm mod float8Oid t = some .float8ToWasmF64 := if_pos ht
    obtain rfl := Option.some.inj (hto.symm.trans hback)
    exact ⟨_, rfl, iff_of_true rfl trivial⟩
  | datum ho ht =>
    obtain ⟨r, rfl⟩ := harg.externref ht
    have hto : pgToWasm mod oid t = some .datumToWasmObj := by
      simp only [isOpaque, List.mem_cons, List.not_mem_nil, or_false, decide_eq_true_eq] at ho
      rcases ho with rfl | rfl | rfl | rfl | rfl | rfl | rfl <;> exact if_pos ht
    obtain rfl := Option.some.inj (hto.symm.trans hback)
    cases r with
    | datum o d' =>
      by_cases h : o = oid
      · obtain rfl : d' = d := Native.returns.inj ((if_pos h).symm.trans hd)
        exact ⟨_, rfl, iff_of_true ⟨rfl, h⟩ trivial⟩
      · cases (if_neg h).symm.trans hd
    | _ => cases hd
  | int2Array ho ht =>
    obtain ⟨a, rfl, ha⟩ := harg.array ht
    subst ho
    have hto : pgToWasm mod int2ArrayOid t = some .int2ArrayToWasmI32Array := if_pos ht
    obtain rfl := Option.some.inj (hto.symm.trans hback)
    exact echo_array .int2 ha hd (fun b value => rfl) ⟨fun h => h rfl, fun h _ => h⟩
  | int4Array ho ht =>
    obtain ⟨a, rfl, ha⟩ := harg.array ht
    subst ho
    have hto : pgToWasm mod int4ArrayOid t = some .int4ArrayToWasmI32Array := if_pos ht
    obtain rfl := Option.some.inj (hto.symm.trans hback)
    exact echo_array .int4 ha hd (fun b value => rfl) ⟨fun h v _ => ⟨v.le_toInt, v.toInt_lt⟩,
      fun _ h => absurd h (by decide)⟩

/-- **The loop over the arguments** has converted each of them. -/
theorem convertArgs_returns {n i : ℕ} {ds : List Datum}
    (h : convertArgs plan place args n i = .returns ds) : ds.length = n ∧
      ∀ j < n, ∃ fn oid arg d, plan.wasmToPgFuncs[i + j]? = some (some fn) ∧
        plan.argtypes[i + j]? = some oid ∧ args[i + j]? = some arg ∧ ds[j]? = some d ∧
        convertArg fn oid (place (i + j)) arg = .returns d := by
  induction n generalizing i ds with
  | zero =>
    cases h
    exact ⟨rfl, fun j hj => absurd hj (Nat.not_lt_zero j)⟩
  | succ n ih =>
    rw [convertArgs] at h
    split at h
    · rename_i fn oid arg hfn hoid harg
      cases hd : convertArg fn oid (place i) arg with
      | returns d =>
        rw [hd] at h
        cases hds : convertArgs plan place args n (i + 1) with
        | returns ds' =>
          rw [hds] at h
          cases h
          obtain ⟨hlen, hrest⟩ := ih hds
          refine ⟨congrArg Nat.succ hlen, fun j hj => ?_⟩
          cases j with
          | zero => exact ⟨fn, oid, arg, d, hfn, hoid, harg, rfl, hd⟩
          | succ j =>
            have hij : i + (j + 1) = i + 1 + j := by omega
            rw [hij]
            exact hrest j (Nat.lt_of_succ_lt_succ hj)
        | _ => rw [hds] at h; cases h
      | _ => rw [hd] at h; cases h
    · cases h

variable {plan : QueryPlan pg} {e : Executed pg}

/-- The statement selects its arguments, of which there is one at least, in fields of their types. -/
structure SelectsArgs (mod : WasmModule) (plan : QueryPlan pg) (types : List RefType) : Prop where
  rettypes : plan.rettypes = plan.argtypes
  fields : plan.retFieldTypes = types
  pos : plan.nargs ≠ 0

/-- What the guest gets of an argument. -/
theorem SelectsArgs.column {ds : List Datum} (h : SelectsArgs mod plan types)
    (htakes : Takes mod plan types) (hplan : Rows.Compiled mod plan)
    (hargs : List.Forall₂ (HasType mod) types args)
    (hds : convertArgs plan place args plan.nargs 0 = .returns ds) {j : ℕ} (hj : j < plan.nargs) :
    ∃ f oid t arg v, plan.pgToWasmFuncs[j]? = some (some f) ∧ plan.argtypes[j]? = some oid ∧
      plan.retFieldTypes[j]? = some t ∧ args[j]? = some arg ∧
      convert f (Rows.spiGetbinval (ds.map some) (j + 1)).1 oid t true = .returns v ∧
      (Same arg v ↔ Echoes oid arg) := by
  have hnattrs : plan.nattrs = plan.nargs := by
    rw [← hplan.rettypes, h.rettypes, htakes.argtypes, htakes.nargs]
  have hj' : j < types.length := htakes.nargs ▸ hj
  obtain ⟨fn, oid, arg, d, hfn, hoid, harg, hd, hret⟩ := (convertArgs_returns hds).2 j hj
  rw [Nat.zero_add] at hfn hoid harg hret
  obtain ⟨f, oid', t', hf, hoid', ht', hback⟩ := hplan.column j (hnattrs ▸ hj)
  rw [h.rettypes] at hoid'
  obtain rfl := Option.some.inj (hoid.symm.trans hoid')
  obtain ⟨fn', oid', t'', hfn', hoid', ht'', hto⟩ := htakes.arg j hj'
  obtain rfl := Option.some.inj (hoid.symm.trans hoid')
  obtain rfl := Option.some.inj (Option.some.inj (hfn.symm.trans hfn'))
  obtain rfl := Option.some.inj (ht'.symm.trans (h.fields ▸ ht''))
  have htyped : HasType mod t' arg := by
    have := (List.forall₂_iff_get.1 hargs).2 j hj' (hargs.length_eq ▸ hj')
    simp only [List.get_eq_getElem] at this
    rwa [(List.getElem?_eq_some_iff.1 ht'').2, (List.getElem?_eq_some_iff.1 harg).2] at this
  obtain ⟨v, hv, hsame⟩ := (converts_of_wasmToPg hto).echo hback htyped hret
  refine ⟨f, oid, t', arg, v, hf, hoid, ht', harg, ?_, hsame⟩
  rw [spiGetbinval_some (by rw [List.getElem?_map, hd]; rfl)]
  exact hv

/-- The row that the guest gets of its arguments. -/
theorem SelectsArgs.echo {ds : List Datum} (h : SelectsArgs mod plan types)
    (htakes : Takes mod plan types) (hplan : Rows.Compiled mod plan)
    (hargs : List.Forall₂ (HasType mod) types args)
    (hds : convertArgs plan place args plan.nargs 0 = .returns ds) :
    ∃ fields, (envTupleLower plan (ds.map some) (fun _ => true) true).result = .returns fields ∧
      fields.length = plan.nargs ∧
      ∀ j < plan.nargs, ∃ oid arg v, plan.argtypes[j]? = some oid ∧ args[j]? = some arg ∧
        fields[j]? = some (some v) ∧ (Same arg v ↔ Echoes oid arg) := by
  have hnattrs : plan.nattrs = plan.nargs := by
    rw [← hplan.rettypes, h.rettypes, htakes.argtypes, htakes.nargs]
  obtain ⟨fields, hret⟩ : ∃ fields, (fill plan (ds.map some) (fun _ => true) plan.nattrs 0
      (List.replicate plan.nattrs none)).result = .returns fields := by
    refine exists_fill _ fun j _ hj => ?_
    obtain ⟨f, oid, t, arg, v, hf, hoid, ht, -, hv, -⟩ :=
      h.column htakes hplan hargs hds (show j < plan.nargs by omega)
    exact ⟨f, oid, t, v, hf, h.rettypes ▸ hoid, ht, hv⟩
  obtain ⟨hlen, -, hset⟩ := fill_returns hret (by rw [List.length_replicate, Nat.zero_add])
  rw [List.length_replicate, hnattrs] at hlen
  refine ⟨fields, ?_, hlen, fun j hj => ?_⟩
  · rw [Rows.envTupleLower_fill (hnattrs ▸ h.pos), hret]
  · obtain ⟨f, oid, t, arg, v, hf, hoid, ht, harg, hv, hsame⟩ :=
      h.column htakes hplan hargs hds hj
    obtain ⟨f', oid', t', v', hf', hoid', ht', hv', hfield, -⟩ := hset j (Nat.zero_le j) (by omega)
    obtain rfl := Option.some.inj (Option.some.inj (hf.symm.trans hf'))
    obtain rfl := Option.some.inj ((h.rettypes ▸ hoid).symm.trans hoid')
    obtain rfl := Option.some.inj (ht.symm.trans ht')
    obtain rfl := Native.returns.inj (hv.symm.trans hv')
    exact ⟨oid, arg, v, hoid, harg, hfield, hsame⟩

end Rustica.Arguments
