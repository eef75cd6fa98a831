/-
  The rows of a result: `env_tuple_lower` takes the columns of a fetched tuple one after the other
  and stores each, converted, in the field of its position.

  `SPI_getbinval` says which columns are NULL; the loop does not look at what it says.  A column that
  is NULL is converted like any other, from the datum 0: it becomes a false, a zero, an object
  without a value, or a read through a null pointer.  So rows are lowered as they should be exactly
  when they have no NULL (`tupleLower_iff`).
-/
import Rustica.IntArrays
import Rustica.Reload

namespace Rustica.Rows

/-! ## Columns -/

/-- What a pointer datum points to, detoasted. -/
inductive Pointee where
  | varlena (bytes : List UInt8)
  | int2s (value : ArrayType 16)
  | int4s (value : ArrayType 32)

/-- A datum: its bits, and what is there if they are a pointer. -/
structure Datum where
  bits : BitVec 64
  pointee : Option Pointee

/-- The datum 0, the null pointer. -/
def Datum.zero : Datum := ⟨0, none⟩

/-- `SPI_getbinval`: the datum, and `isnull`. -/
def spiGetbinval (tuple : List (Option Datum)) (fnumber : ℕ) : Datum × Bool :=
  match tuple[fnumber - 1]? with
  | some (some d) => (d, false)
  | _ => (.zero, true)

/-- A `wasm_value_t`.  A datum object has the type of its column, and keeps the tuple alive; an array
    is a struct of the type of the field. -/
inductive WasmValue where
  | i32 (v : BitVec 32)
  | i64 (v : BitVec 64)
  | f32 (v : BitVec 32)
  | f64 (v : BitVec 64)
  | datumObj (datum : Datum) (oid : Oid)
  | array (heapType : BitVec 32) (a : WasmArray)

/-! ## Converters -/

def pgBoolToWasmI32 (value : Datum) : Native WasmValue :=
  .returns (.i32 (if value.bits ≠ 0 then 1 else 0))

def pgInt4ToWasmI32 (value : Datum) : Native WasmValue := .returns (.i32 (value.bits.setWidth 32))

def pgInt8ToWasmI64 (value : Datum) : Native WasmValue := .returns (.i64 value.bits)

def pgFloat4ToWasmF32 (value : Datum) : Native WasmValue := .returns (.f32 (value.bits.setWidth 32))

def pgFloat8ToWasmF64 (value : Datum) : Native WasmValue := .returns (.f64 value.bits)

def pgDatumToWasmObj (value : Datum) (oid : Oid) (room : Bool) : Native WasmValue :=
  if room then .returns (.datumObj value oid) else .overruns

/-- The new array as a field. -/
def arrayField (t : RefType) : Native WasmArray → Native WasmValue
  | .returns a => .returns (.array t.heapType a)
  | .throws err => .throws err
  | .raises err => .raises err
  | .overruns => .overruns

/-- A converter with all its arguments: the column's datum and type, the type of the field, and
    whether WAMR has memory for new objects. -/
def convert (fn : PgToWasm) (value : Datum) (oid : Oid) (t : RefType) (room : Bool) :
    Native WasmValue :=
  match fn with
  | .boolToWasmI32 => pgBoolToWasmI32 value
  | .int4ToWasmI32 => pgInt4ToWasmI32 value
  | .int8ToWasmI64 => pgInt8ToWasmI64 value
  | .float4ToWasmF32 => pgFloat4ToWasmF32 value
  | .float8ToWasmF64 => pgFloat8ToWasmF64 value
  | .datumToWasmObj => pgDatumToWasmObj value oid room
  | .int2ArrayToWasmI32Array => match value.pointee with
    | some (.int2s a) => arrayField t (pgInt2ArrayToWasmI32Array room a)
    | _ => .overruns
  | .int4ArrayToWasmI32Array => match value.pointee with
    | some (.int4s a) => arrayField t (pgInt4ArrayToWasmI32Array room a)
    | _ => .overruns

/-- The converter makes objects. -/
def allocates : PgToWasm → Bool
  | .datumToWasmObj | .int2ArrayToWasmI32Array | .int4ArrayToWasmI32Array => true
  | _ => false

/-! ## The loop -/

/-- A call of a converter: the column, its datum, and what `SPI_getbinval` said of it. -/
structure Call where
  column : ℕ
  value : Datum
  isnull : Bool

/-- The calls of converters, in turn, and the end: the fields of the row.  A field that was not set
    yet has no value. -/
structure Lowering where
  calls : List Call
  result : Native (List (Option WasmValue))

variable {pg : Postgres} (plan : QueryPlan pg) (tuple : List (Option Datum)) (room : ℕ → Bool)

/-- The last rounds of the loop, from column `i` on. -/
def fill : ℕ → ℕ → List (Option WasmValue) → Lowering
  | 0, _, fields => ⟨[], .returns fields⟩
  | n + 1, i, fields =>
    match plan.pgToWasmFuncs[i]?, plan.rettypes[i]?, plan.retFieldTypes[i]? with
    | some (some fn), some oid, some t =>
      let binval := spiGetbinval tuple (i + 1)
      match convert fn binval.1 oid t (room i) with
      | .returns colValue =>
        let rest := fill n (i + 1) (fields.set i (some colValue))
        ⟨⟨i, binval.1, binval.2⟩ :: rest.calls, rest.result⟩
      | .throws err => ⟨[⟨i, binval.1, binval.2⟩], .throws err⟩
      | .raises err => ⟨[⟨i, binval.1, binval.2⟩], .raises err⟩
      | .overruns => ⟨[⟨i, binval.1, binval.2⟩], .overruns⟩
    | _, _, _ => ⟨[], .overruns⟩

/-- `env_tuple_lower`, of a tuple of the plan's query; `retRoom` says whether there is memory for the
    row. -/
def envTupleLower (retRoom : Bool) : Lowering :=
  if plan.nattrs = 0 then ⟨[], .raises "no attributes in the tuple"⟩
  else if retRoom then fill plan tuple room plan.nattrs 0 (List.replicate plan.nattrs none)
  else ⟨[], .overruns⟩

/-! ## What is asked -/

/-- The datum is one of a column of the type: arrays are where it points to. -/
def Datum.OfType (d : Datum) (oid : Oid) : Prop :=
  (oid = int2ArrayOid → ∃ a, d.pointee = some (.int2s a)) ∧
    (oid = int4ArrayOid → ∃ a, d.pointee = some (.int4s a))

/-- The columns of the tuple have the types of the plan. -/
def TupleOf : Prop := List.Forall₂ (fun oid (col : Option Datum) => ∀ d ∈ col, d.OfType oid)
  plan.rettypes tuple

/-- The field is the converted column; of a column that is NULL, no column with a value has it. -/
def FieldOf (fn : PgToWasm) (oid : Oid) (t : RefType) (room : Bool) (col : Option Datum)
    (v : WasmValue) : Prop :=
  match col with
  | some d => convert fn d oid t room = .returns v
  | none => ∀ d : Datum, d.OfType oid → convert fn d oid t room ≠ .returns v

/-- **A row is lowered** without a look at the datum of a NULL, into fields that tell the columns. -/
structure Lowers (retRoom : Bool) : Prop where
  nonnull : ∀ call ∈ (envTupleLower plan tuple room retRoom).calls, call.isnull = false
  ends : (∃ err, (envTupleLower plan tuple room retRoom).result = .raises err) ∨
    ∃ fields, (envTupleLower plan tuple room retRoom).result = .returns fields ∧
      fields.length = plan.nattrs ∧
      ∀ i < plan.nattrs, ∃ fn oid t col v, plan.pgToWasmFuncs[i]? = some (some fn) ∧
        plan.rettypes[i]? = some oid ∧ plan.retFieldTypes[i]? = some t ∧ tuple[i]? = some col ∧
        fields[i]? = some (some v) ∧ FieldOf fn oid t (room i) col v

/-- The row has columns, none of them NULL, and there is memory for it. -/
structure Meets (retRoom : Bool) : Prop where
  ret : retRoom = true
  nonnull : ∀ i < plan.nattrs, ∃ d, tuple[i]? = some (some d)
  room : ∀ (i : ℕ) fn, plan.pgToWasmFuncs[i]? = some (some fn) → allocates fn = true →
    room i = true

/-! ## One converter -/

variable {plan tuple room} {fn : PgToWasm} {oid : Oid} {t : RefType} {d : Datum} {v : WasmValue}
  {b : Bool} {i j n : ℕ} {fields fields' : List (Option WasmValue)} {call : Call}

/-- The array converters are for columns of arrays. -/
def Suits (fn : PgToWasm) (oid : Oid) : Prop :=
  (fn = .int2ArrayToWasmI32Array → oid = int2ArrayOid) ∧
    (fn = .int4ArrayToWasmI32Array → oid = int4ArrayOid)

/-- One line of the table of converters. -/
theorem ite_ite_eq_some {p q : Prop} [Decidable p] [Decidable q] {fn' : PgToWasm}
    {rest : Option PgToWasm} : (if p then if q then some fn' else none else rest) = some fn ↔
      p ∧ q ∧ fn' = fn ∨ ¬ p ∧ rest = some fn := by
  by_cases hp : p <;> by_cases hq : q <;> simp [hp, hq]

theorem pgToWasm_suits {mod : WasmModule} (h : pgToWasm mod oid t = some fn) : Suits fn oid := by
  simp only [pgToWasm, ite_ite_eq_some] at h
  constructor
  · rintro rfl
    simp only [reduceCtorEq, and_false, false_or, or_false] at h
    exact h.2.2.2.2.2.2.1
  · rintro rfl
    simp only [reduceCtorEq, and_false, false_or, or_false] at h
    exact h.2.2.2.2.2.2.2.1

/-- **A converter with memory** gives a value. -/
theorem convert_returns (hfn : Suits fn oid) (hd : d.OfType oid) (hb : allocates fn = true → b = true) :
    ∃ v, convert fn d oid t b = .returns v := by
  cases fn with
  | datumToWasmObj => exact ⟨_, if_pos (hb rfl)⟩
  | int2ArrayToWasmI32Array =>
    obtain ⟨a, ha⟩ := hd.1 (hfn.1 rfl)
    obtain rfl := hb rfl
    simp only [convert, ha]
    exact ⟨_, congrArg (arrayField t) (IntType.toWasm_rule .int2 a)⟩
  | int4ArrayToWasmI32Array =>
    obtain ⟨a, ha⟩ := hd.2 (hfn.2 rfl)
    obtain rfl := hb rfl
    simp only [convert, ha]
    exact ⟨_, congrArg (arrayField t) (IntType.toWasm_rule .int4 a)⟩
  | _ => exact ⟨_, rfl⟩

/-- A converter that makes objects needs memory. -/
theorem allocates_room (hfn : allocates fn = true) (h : convert fn d oid t b = .returns v) :
    b = true := by
  cases b with
  | true => rfl
  | false =>
    exfalso
    cases fn with
    | datumToWasmObj => cases h
    | int2ArrayToWasmI32Array =>
      simp only [convert] at h
      split at h <;> cases h
    | int4ArrayToWasmI32Array =>
      simp only [convert] at h
      split at h <;> cases h
    | _ => cases hfn

/-- A converter gives a value, or works on a null pointer. -/
theorem convert_ends (fn : PgToWasm) (d : Datum) (oid : Oid) (t : RefType) (b : Bool) :
    (∃ v, convert fn d oid t b = .returns v) ∨ convert fn d oid t b = .overruns := by
  cases fn with
  | datumToWasmObj =>
    cases b with
    | true => exact .inl ⟨_, rfl⟩
    | false => exact .inr rfl
  | int2ArrayToWasmI32Array =>
    simp only [convert]
    split
    · cases b with
      | true => exact .inl ⟨_, rfl⟩
      | false => exact .inr rfl
    · exact .inr rfl
  | int4ArrayToWasmI32Array =>
    simp only [convert]
    split
    · cases b with
      | true => exact .inl ⟨_, rfl⟩
      | false => exact .inr rfl
    · exact .inr rfl
  | _ => exact .inl ⟨_, rfl⟩

theorem spiGetbinval_isnull : (spiGetbinval tuple (i + 1)).2 = false ↔
    ∃ d, tuple[i]? = some (some d) := by
  rw [spiGetbinval, Nat.add_sub_cancel]
  split
  · rename_i d hd
    exact iff_of_true rfl ⟨d, hd⟩
  · rename_i hno
    exact iff_of_false Bool.noConfusion fun ⟨d, hd⟩ => hno d hd

theorem spiGetbinval_some (h : tuple[i]? = some (some d)) : spiGetbinval tuple (i + 1) = (d, false) := by
  rw [spiGetbinval, Nat.add_sub_cancel, h]

/-! ## The loop -/

/-- One round. -/
theorem fill_succ {f : PgToWasm} (hfn : plan.pgToWasmFuncs[i]? = some (some f))
    (hoid : plan.rettypes[i]? = some oid) (ht : plan.retFieldTypes[i]? = some t) :
    fill plan tuple room (n + 1) i fields =
      match convert f (spiGetbinval tuple (i + 1)).1 oid t (room i) with
      | .returns v =>
        ⟨⟨i, (spiGetbinval tuple (i + 1)).1, (spiGetbinval tuple (i + 1)).2⟩ ::
          (fill plan tuple room n (i + 1) (fields.set i (some v))).calls,
          (fill plan tuple room n (i + 1) (fields.set i (some v))).result⟩
      | .throws err => ⟨[⟨i, (spiGetbinval tuple (i + 1)).1, (spiGetbinval tuple (i + 1)).2⟩],
          .throws err⟩
      | .raises err => ⟨[⟨i, (spiGetbinval tuple (i + 1)).1, (spiGetbinval tuple (i + 1)).2⟩],
          .raises err⟩
      | .overruns => ⟨[⟨i, (spiGetbinval tuple (i + 1)).1, (spiGetbinval tuple (i + 1)).2⟩],
          .overruns⟩ := by
  rw [fill, hfn, hoid, ht]

variable (plan tuple room) in
/-- The round of a column is over with its value in the field, or the loop is. -/
theorem fill_cases (n i : ℕ) (fields : List (Option WasmValue)) :
    (∃ f oid t v, plan.pgToWasmFuncs[i]? = some (some f) ∧ plan.rettypes[i]? = some oid ∧
      plan.retFieldTypes[i]? = some t ∧
      convert f (spiGetbinval tuple (i + 1)).1 oid t (room i) = .returns v ∧
      fill plan tuple room (n + 1) i fields =
        ⟨⟨i, (spiGetbinval tuple (i + 1)).1, (spiGetbinval tuple (i + 1)).2⟩ ::
          (fill plan tuple room n (i + 1) (fields.set i (some v))).calls,
          (fill plan tuple room n (i + 1) (fields.set i (some v))).result⟩) ∨
    ((fill plan tuple room (n + 1) i fields).result = .overruns ∧
      ∀ call ∈ (fill plan tuple room (n + 1) i fields).calls,
        call = ⟨i, (spiGetbinval tuple (i + 1)).1, (spiGetbinval tuple (i + 1)).2⟩) := by
  by_cases hplan : ∃ f oid t, plan.pgToWasmFuncs[i]? = some (some f) ∧
      plan.rettypes[i]? = some oid ∧ plan.retFieldTypes[i]? = some t
  · obtain ⟨f, oid, t, hfn, hoid, ht⟩ := hplan
    rw [fill_succ hfn hoid ht]
    rcases convert_ends f (spiGetbinval tuple (i + 1)).1 oid t (room i) with ⟨v, hv⟩ | hv
    · rw [hv]
      exact .inl ⟨f, oid, t, v, hfn, hoid, ht, hv, rfl⟩
    · rw [hv]
      exact .inr ⟨rfl, fun call hcall => List.mem_singleton.1 hcall⟩
  · right
    rw [fill]
    split
    · rename_i f oid t hfn hoid ht
      exact absurd ⟨f, oid, t, hfn, hoid, ht⟩ hplan
    · exact ⟨rfl, fun call hcall => absurd hcall List.not_mem_nil⟩

/-- **A call** is that of a column of the loop, with its datum. -/
theorem mem_calls (h : call ∈ (fill plan tuple room n i fields).calls) :
    i ≤ call.column ∧ call.column < i + n ∧
      call.isnull = (spiGetbinval tuple (call.column + 1)).2 := by
  induction n generalizing i fields with
  | zero => exact absurd h List.not_mem_nil
  | succ n ih =>
    rcases fill_cases plan tuple room n i fields with
      ⟨f, oid, t, v, -, -, -, -, heq⟩ | ⟨-, hcalls⟩
    · rw [heq] at h
      rcases List.mem_cons.1 h with rfl | h
      · exact ⟨le_rfl, by show i < i + (n + 1); omega, rfl⟩
      · obtain ⟨h1, h2, h3⟩ := ih h
        exact ⟨by omega, by omega, h3⟩
    · obtain rfl := hcalls call h
      exact ⟨le_rfl, by show i < i + (n + 1); omega, rfl⟩

theorem fill_not_raises (err : String) : (fill plan tuple room n i fields).result ≠ .raises err := by
  induction n generalizing i fields with
  | zero => rintro ⟨⟩
  | succ n ih =>
    rcases fill_cases plan tuple room n i fields with
      ⟨f, oid, t, v, -, -, -, -, heq⟩ | ⟨hover, -⟩
    · rw [heq]
      exact ih
    · rw [hover]
      rintro ⟨⟩

/-- **A loop that comes to its end** has set the fields of its columns to what their converters gave,
    and no others. -/
theorem fill_returns (h : (fill plan tuple room n i fields).result = .returns fields')
    (hlen : i + n ≤ fields.length) : fields'.length = fields.length ∧
      (∀ j < i, fields'[j]? = fields[j]?) ∧
      ∀ j, i ≤ j → j < i + n → ∃ f oid t v, plan.pgToWasmFuncs[j]? = some (some f) ∧
        plan.rettypes[j]? = some oid ∧ plan.retFieldTypes[j]? = some t ∧
        convert f (spiGetbinval tuple (j + 1)).1 oid t (room j) = .returns v ∧
        fields'[j]? = some (some v) ∧
        ∃ call ∈ (fill plan tuple room n i fields).calls, call.column = j := by
  induction n generalizing i fields with
  | zero =>
    obtain rfl := Native.returns.inj h
    exact ⟨rfl, fun j _ => rfl, fun j h1 h2 => by omega⟩
  | succ n ih =>
    rcases fill_cases plan tuple room n i fields with
      ⟨f, oid, t, v, hfn, hoid, ht, hv, heq⟩ | ⟨hover, -⟩
    · rw [heq] at h
      obtain ⟨hlen', hbelow, hrest⟩ := ih h (by rw [List.length_set]; omega)
      rw [List.length_set] at hlen'
      refine ⟨hlen', fun j hj => ?_, fun j h1 h2 => ?_⟩
      · rw [hbelow j (by omega), List.getElem?_set_ne (by omega)]
      · rw [heq]
        rcases Nat.eq_or_lt_of_le h1 with rfl | hlt
        · refine ⟨f, oid, t, v, hfn, hoid, ht, hv, ?_, _, List.mem_cons_self, rfl⟩
          rw [hbelow i (Nat.lt_succ_self i), List.getElem?_set_self (by omega)]
        · obtain ⟨f', oid', t', v', hfn', hoid', ht', hv', hf', call, hcall, hcol⟩ :=
            hrest j hlt (by omega)
          exact ⟨f', oid', t', v', hfn', hoid', ht', hv', hf', call, List.mem_cons_of_mem _ hcall,
            hcol⟩
    · cases hover.symm.trans h

/-- **The loop comes to its end** when all converters give values. -/
theorem exists_fill (fields : List (Option WasmValue)) (h : ∀ j, i ≤ j → j < i + n → ∃ f oid t v,
      plan.pgToWasmFuncs[j]? = some (some f) ∧ plan.rettypes[j]? = some oid ∧
      plan.retFieldTypes[j]? = some t ∧
      convert f (spiGetbinval tuple (j + 1)).1 oid t (room j) = .returns v) :
    ∃ fields', (fill plan tuple room n i fields).result = .returns fields' := by
  induction n generalizing i fields with
  | zero => exact ⟨fields, rfl⟩
  | succ n ih =>
    obtain ⟨f, oid, t, v, hfn, hoid, ht, hv⟩ := h i le_rfl (by omega)
    rw [fill_succ hfn hoid ht, hv]
    exact ih _ fun j h1 h2 => h j (by omega) (by omega)

/-! ## Compiled plans -/

/-- A converter for every column, of the type of the column and of its field. -/
structure Compiled (mod : WasmModule) (plan : QueryPlan pg) : Prop where
  rettypes : plan.rettypes.length = plan.nattrs
  column : ∀ i < plan.nattrs, ∃ f oid t, plan.pgToWasmFuncs[i]? = some (some f) ∧
    plan.rettypes[i]? = some oid ∧ plan.retFieldTypes[i]? = some t ∧ pgToWasm mod oid t = some f
  funcs : plan.pgToWasmFuncs.length = plan.nattrs

theorem retFns_column {mod : WasmModule} {oids : List Oid} {ts : List RefType} {fns : List PgToWasm}
    (h : retFns mod oids ts = .ok fns) (hlen : oids.length = ts.length) :
    ∀ i < oids.length, ∃ f oid t, fns[i]? = some f ∧ oids[i]? = some oid ∧ ts[i]? = some t ∧
      pgToWasm mod oid t = some f := by
  induction oids generalizing ts fns with
  | nil => exact fun i hi => absurd hi (Nat.not_lt_zero i)
  | cons oid oids ih =>
    cases ts with
    | nil => cases hlen
    | cons t ts =>
      rw [retFns] at h
      split at h
      · cases h
      · rename_i f hf
        obtain ⟨fns', hfns', h⟩ := bind_eq_ok.1 h
        obtain rfl := Except.ok.inj h
        intro i hi
        cases i with
        | zero => exact ⟨f, oid, t, rfl, rfl, rfl, hf⟩
        | succ i => exact ih hfns' (Nat.succ.inj hlen) i (Nat.lt_of_succ_lt_succ hi)

/-- What the loader has checked of the columns. -/
theorem initResult_ok {row : QueryAttrs} {r : Option RefType × List Oid × List RefType}
    (h : initResult row n = .ok r) (hn : 0 < n) :
    getInt4s row 9 = .ok r.2.1 ∧ r.2.1.length = n ∧
      ∃ fields, getInt8s row 10 = .ok fields ∧ fields.length = n ∧
        r.2.2 = fields.map RefType.ofInt64 := by
  rw [initResult, if_pos hn] at h
  obtain ⟨ret, -, h⟩ := bind_eq_ok.1 h
  split_ifs at h with hret
  · cases h
  obtain ⟨rettypes, hrettypes, h⟩ := bind_eq_ok.1 h
  split_ifs at h with hlen
  · cases h
  obtain ⟨fields, hfields, h⟩ := bind_eq_ok.1 h
  split_ifs at h with hlen'
  · cases h
  cases h
  exact ⟨hrettypes, not_not.1 hlen, fields, hfields, not_not.1 hlen', rfl⟩

theorem rstInitQueryPlan_ok {row : QueryAttrs} (h : rstInitQueryPlan pg row = .ok plan) :
    ∃ fns retType, getInt4s row 11 = .ok fns ∧ fns.length = plan.nattrs ∧
      plan.pgToWasmFuncs = (fns.map fun d => pgToWasmFuncs[d.toNat]?) ∧
      initResult row plan.nattrs = .ok (retType, plan.rettypes, plan.retFieldTypes) := by
  rw [rstInitQueryPlan] at h
  obtain ⟨sql, -, h⟩ := bind_eq_ok.1 h
  obtain ⟨argtypes, -, h⟩ := bind_eq_ok.1 h
  dsimp only at h
  split at h
  · cases h
  · rename_i p hp
    split_ifs at h with hkeep
    · cases h
    obtain ⟨fns, -, h⟩ := bind_eq_ok.1 h
    split_ifs at h with hargs
    · cases h
    obtain ⟨⟨retType, rettypes, retFieldTypes⟩, hres, h⟩ := bind_eq_ok.1 h
    dsimp only at h
    obtain ⟨retFns, hretFns, h⟩ := bind_eq_ok.1 h
    split_ifs at h with hlen
    · cases h
    cases h
    exact ⟨retFns, retType, hretFns, not_not.1 hlen, rfl, hres⟩

/-- **A plan that was compiled and loaded** has a converter for every column. -/
theorem compiled_of_load {mod : WasmModule} {junk : ℕ → Oid} {q : ℕ} {query : QueryObj}
    {row : QueryAttrs} {name : List UInt8} (hrow : compileOne mod pg junk q t query = .ok row)
    (hload : rstInitQueryPlan pg (stored name row) = .ok plan) : Compiled mod plan := by
  obtain ⟨attrs, hty, hcomp⟩ := bind_eq_ok.1 hrow
  obtain ⟨args, ret, fields, htyped⟩ := compileQueryType_typed hty
  obtain ⟨d, hd, -⟩ := compileQuery_accepted htyped hcomp
  obtain ⟨fns, retType, hfns, hlen, hfuncs, hres⟩ := rstInitQueryPlan_ok hload
  have hretFns : fns = d.retFns.map PgToWasm.toInt4 := by
    simpa [getInt4s, getbinval_stored, hd.retFns] using hfns.symm
  have hfuncs' : plan.pgToWasmFuncs = d.retFns.map some := by
    rw [hfuncs, hretFns, List.map_map]
    exact List.map_congr_left fun f _ => pgToWasmFuncs_toInt4 f
  have hfl : plan.pgToWasmFuncs.length = plan.nattrs := by rw [hfuncs, List.length_map, hlen]
  rcases Nat.eq_zero_or_pos plan.nattrs with h0 | hpos
  · have hnone : plan.rettypes = [] := by
      rw [h0] at hres
      exact (congrArg (fun r => r.2.1) (Except.ok.inj hres)).symm
    exact ⟨by rw [hnone, h0]; rfl, fun i hi => by omega, hfl⟩
  · obtain ⟨hoids, hoidsLen, fields', hfields', hfieldsLen, hret⟩ := initResult_ok hres hpos
    have hrettypes : plan.rettypes = d.retOids := by
      simpa [getInt4s, getbinval_stored, hd.retOids] using hoids.symm
    have hfields : fields' = d.fields.map RefType.toInt64 := by
      simpa [getInt8s, getbinval_stored, hd.fields] using hfields'.symm
    have hret' : plan.retFieldTypes = d.fields := by
      refine hret.trans ?_
      rw [hfields, List.map_map]
      exact (List.map_congr_left fun t _ => RefType.ofInt64_toInt64 t).trans (List.map_id _)
    rw [hfields, List.length_map] at hfieldsLen
    dsimp only at hoidsLen
    have hcol := retFns_column hd.retFns_eq (by rw [← hrettypes, hoidsLen, hfieldsLen])
    refine ⟨hoidsLen, fun i hi => ?_, hfl⟩
    obtain ⟨f, oid, t, hf, hoid, ht, hto⟩ := hcol i (by rw [← hrettypes, hoidsLen]; exact hi)
    refine ⟨f, oid, t, ?_, by rw [hrettypes]; exact hoid, by rw [hret']; exact ht, hto⟩
    rw [hfuncs', List.getElem?_map, hf]
    rfl

/-! ## Rows -/

variable {mod : WasmModule} {retRoom : Bool}

theorem TupleOf.column (h : TupleOf plan tuple) (hoid : plan.rettypes[i]? = some oid) :
    ∃ col, tuple[i]? = some col ∧ ∀ d ∈ col, d.OfType oid := by
  have hi := (List.getElem?_eq_some_iff.1 hoid).1
  have hi' : i < tuple.length := h.length_eq ▸ hi
  refine ⟨tuple[i], List.getElem?_eq_getElem hi', ?_⟩
  have := List.forall₂_iff_get.1 h
  have hget := this.2 i hi hi'
  simp only [List.get_eq_getElem] at hget
  rwa [(List.getElem?_eq_some_iff.1 hoid).2] at hget

theorem envTupleLower_fill (h0 : plan.nattrs ≠ 0) : envTupleLower plan tuple room true =
    fill plan tuple room plan.nattrs 0 (List.replicate plan.nattrs none) := by
  rw [envTupleLower, if_neg h0, if_pos rfl]

theorem lowers_of_zero (h0 : plan.nattrs = 0) : Lowers plan tuple room retRoom := by
  have heq : envTupleLower plan tuple room retRoom =
      ⟨[], .raises "no attributes in the tuple"⟩ := if_pos h0
  refine ⟨fun call hcall => ?_, .inl ⟨"no attributes in the tuple", by rw [heq]⟩⟩
  rw [heq] at hcall
  exact absurd hcall List.not_mem_nil

/-- **Rows without NULL** are lowered. -/
theorem Meets.lowers (hplan : Compiled mod plan) (htup : TupleOf plan tuple)
    (h0 : plan.nattrs ≠ 0) (h : Meets plan tuple room retRoom) : Lowers plan tuple room retRoom := by
  have hret := h.ret
  subst hret
  have hall : ∀ j, 0 ≤ j → j < 0 + plan.nattrs → ∃ f oid t v,
      plan.pgToWasmFuncs[j]? = some (some f) ∧ plan.rettypes[j]? = some oid ∧
      plan.retFieldTypes[j]? = some t ∧
      convert f (spiGetbinval tuple (j + 1)).1 oid t (room j) = .returns v := by
    intro j _ hj
    rw [Nat.zero_add] at hj
    obtain ⟨f, oid, t, hf, hoid, ht, hto⟩ := hplan.column j hj
    obtain ⟨d, hd⟩ := h.nonnull j hj
    obtain ⟨col, hcol, htype⟩ := htup.column hoid
    obtain rfl := Option.some.inj (hd.symm.trans hcol)
    obtain ⟨v, hv⟩ := convert_returns (t := t) (pgToWasm_suits hto) (htype d rfl) (h.room j f hf)
    exact ⟨f, oid, t, v, hf, hoid, ht, by rw [spiGetbinval_some hd]; exact hv⟩
  obtain ⟨fields, hfields⟩ := exists_fill (List.replicate plan.nattrs none) hall
  obtain ⟨hlen, -, hcols⟩ := fill_returns hfields (by rw [List.length_replicate, Nat.zero_add])
  constructor
  · intro call hcall
    rw [envTupleLower_fill h0] at hcall
    obtain ⟨-, hlt, hnull⟩ := mem_calls hcall
    rw [hnull, spiGetbinval_isnull]
    exact h.nonnull _ (by omega)
  · refine .inr ⟨fields, by rw [envTupleLower_fill h0, hfields], by rw [hlen, List.length_replicate],
      fun i hi => ?_⟩
    obtain ⟨f, oid, t, v, hf, hoid, ht, hv, hfield, -⟩ := hcols i (Nat.zero_le i) (by omega)
    obtain ⟨d, hd⟩ := h.nonnull i hi
    rw [spiGetbinval_some hd] at hv
    exact ⟨f, oid, t, some d, v, hf, hoid, ht, hd, hfield, hv⟩

/-- **Rows that are lowered** have no NULL. -/
theorem Lowers.meets (hplan : Compiled mod plan) (h0 : plan.nattrs ≠ 0)
    (h : Lowers plan tuple room retRoom) : Meets plan tuple room retRoom := by
  cases retRoom with
  | false =>
    have hover : (envTupleLower plan tuple room false).result = .overruns := by
      rw [envTupleLower, if_neg h0]
      rfl
    rcases h.ends with ⟨err, herr⟩ | ⟨fields, hfields, -⟩
    · cases hover.symm.trans herr
    · cases hover.symm.trans hfields
  | true =>
    have hnull := h.nonnull
    have hends := h.ends
    rw [envTupleLower_fill h0] at hnull hends
    rcases hends with ⟨err, herr⟩ | ⟨fields, hfields, -, -⟩
    · exact absurd herr (fill_not_raises err)
    obtain ⟨-, -, hcols⟩ := fill_returns hfields (by rw [List.length_replicate, Nat.zero_add])
    refine ⟨rfl, fun i hi => ?_, fun i f hf halloc => ?_⟩
    · obtain ⟨f, oid, t, v, -, -, -, -, -, call, hcall, rfl⟩ := hcols i (Nat.zero_le i) (by omega)
      rw [← spiGetbinval_isnull, ← (mem_calls hcall).2.2]
      exact hnull call hcall
    · have hi : i < plan.nattrs := hplan.funcs ▸ (List.getElem?_eq_some_iff.1 hf).1
      obtain ⟨f', oid, t, v, hf', -, -, hv, -⟩ := hcols i (Nat.zero_le i) (by omega)
      obtain rfl := Option.some.inj (Option.some.inj (hf.symm.trans hf'))
      exact allocates_room halloc hv

/-- **NULLs in results**: whatever a module's query selects, a tuple is lowered without passing the
    datum of a NULL to a converter exactly when it has no NULL, and memory for its objects. -/
theorem tupleLower_iff {junk : ℕ → Oid} {q : ℕ} {query : QueryObj} {row : QueryAttrs}
    {name : List UInt8} (hrow : compileOne mod pg junk q t query = .ok row)
    (hload : rstInitQueryPlan pg (stored name row) = .ok plan) (htup : TupleOf plan tuple) :
    Lowers plan tuple room retRoom ↔ plan.nattrs = 0 ∨ Meets plan tuple room retRoom := by
  have hplan := compiled_of_load hrow hload
  by_cases h0 : plan.nattrs = 0
  · exact iff_of_true (lowers_of_zero h0) (.inl h0)
  · rw [or_iff_right h0]
    exact ⟨Lowers.meets hplan h0, Meets.lowers hplan htup h0⟩

/-- A catalog in which the statement has one column, an `int4`. -/
def oneColumn : Postgres := selectPostgres [⟨false, int4Oid⟩]

/-- A NULL is passed on, and becomes a zero. -/
theorem selectA_null : ∃ row plan,
    compileOne (sampleModule [] 1) oneColumn (fun _ => 0) 0 (ref 0) (sampleQuery selectA []) = .ok row ∧
    rstInitQueryPlan oneColumn (stored [] row) = .ok plan ∧ TupleOf plan [none] ∧
    (envTupleLower plan [none] (fun _ => true) true).result = .returns [some (.i32 0)] ∧
    ¬ Lowers plan [none] (fun _ => true) true := by
  refine ⟨_, _, rfl, rfl, ?_, rfl, fun h => ?_⟩
  · exact .cons (fun d hd => by cases hd) .nil
  · have hcall := h.nonnull ⟨0, .zero, true⟩ List.mem_cons_self
    cases hcall

theorem selectA_five : ∃ row plan,
    compileOne (sampleModule [] 1) oneColumn (fun _ => 0) 0 (ref 0) (sampleQuery selectA []) = .ok row ∧
    rstInitQueryPlan oneColumn (stored [] row) = .ok plan ∧
    Lowers plan [some ⟨5, none⟩] (fun _ => true) true := by
  refine ⟨_, _, rfl, rfl, (@tupleLower_iff oneColumn _ _ _ (ref 0) (sampleModule [] 1) _
    (fun _ => 0) 0 (sampleQuery selectA []) _ [] rfl rfl ?_).2
    (.inr ⟨rfl, fun i hi => ?_, fun _ _ _ _ => rfl⟩)⟩
  · refine .cons (fun d hd => ⟨fun h => ?_, fun h => ?_⟩) .nil
    · exact absurd h (by decide)
    · exact absurd h (by decide)
  · obtain rfl : i = 0 := Nat.lt_one_iff.1 hi
    exact ⟨_, rfl⟩

end Rustica.Rows
