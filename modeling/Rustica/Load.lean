/-
  The loader of queries (`rst_init_query_plan` in `query.c`, `create_module_with_queries` in
  `module.c`): the rows of `rustica.queries` become plans.

  `SPI_getbinval` counts the attributes of a row from 1.  Where the column count of the prepared
  statement is 0 the fields `ret_type`, `rettypes` and `ret_field_types` of a plan stay empty.
-/
import Rustica.Compile

namespace Rustica

/-- `wasm_to_pg_funcs`. -/
def wasmToPgFuncs : List WasmToPg :=
  [.i32ToPgBool, .i32ToPgInt4, .i64ToPgInt8, .f32ToPgFloat4, .f64ToPgFloat8, .externrefToDatumObj,
    .i32ArrayToPgInt2Array, .i32ArrayToPgInt4Array]

/-- `pg_to_wasm_funcs`. -/
def pgToWasmFuncs : List PgToWasm :=
  [.boolToWasmI32, .int4ToWasmI32, .int8ToWasmI64, .float4ToWasmF32, .float8ToWasmF64,
    .datumToWasmObj, .int2ArrayToWasmI32Array, .int4ArrayToWasmI32Array]

/-- `QueryPlan`.  A converter is `none` where the stored index lies outside of the table. -/
structure QueryPlan (pg : Postgres) where
  plan : pg.Plan
  nargs : ℕ
  nattrs : ℕ
  argtypes : List Oid
  rettypes : List Oid
  retType : Option RefType
  retFieldTypes : List RefType
  wasmToPgFuncs : List (Option WasmToPg)
  pgToWasmFuncs : List (Option PgToWasm)

inductive LoadError where
  /-- `failed to prepare statement: %s` -/
  | prepare
  /-- `failed to keep plan` -/
  | keepPlan
  /-- `arg_field_fn has different length (%d) than arg_oids (%d)` -/
  | argFieldFn (len nargs : ℕ)
  /-- `wrong number of ret_type elements` -/
  | retType
  /-- `ret_oids has different length (%d) than described (%d)` -/
  | retOids (len nattrs : ℕ)
  /-- `ret_field_types has different length (%d) than described (%d)` -/
  | retFieldTypes (len nattrs : ℕ)
  /-- `ret_field_fn has different length (%d) than described (%d)` -/
  | retFieldFn (len nattrs : ℕ)
  /-- `bad query index %d: expect %d` -/
  | queryIndex (idx : ℤ) (expect : ℕ)
  /-- a value that is null or of another type, which the table does not allow -/
  | attribute (i : ℕ)
  deriving DecidableEq

/-- `SPI_getbinval`, of the 11 attributes of a row. -/
def getbinval (row : QueryAttrs) (i : ℕ) : Option Attr :=
  if 0 < i ∧ i ≤ 11 then row (i - 1) else none

def getText (row : QueryAttrs) (i : ℕ) : Except LoadError (List UInt8) :=
  match getbinval row i with
  | some (.text bytes) => .ok bytes
  | _ => .error (.attribute i)

def getInt4 (row : QueryAttrs) (i : ℕ) : Except LoadError (BitVec 32) :=
  match getbinval row i with
  | some (.int4 v) => .ok v
  | _ => .error (.attribute i)

/-- `deconstruct_array` of an attribute. -/
def getInt4s (row : QueryAttrs) (i : ℕ) : Except LoadError (List (BitVec 32)) :=
  match getbinval row i with
  | some (.int4s vs) => .ok vs
  | _ => .error (.attribute i)

def getInt8s (row : QueryAttrs) (i : ℕ) : Except LoadError (List (BitVec 64)) :=
  match getbinval row i with
  | some (.int8s vs) => .ok vs
  | _ => .error (.attribute i)

variable (pg : Postgres)

/-- The branch for statements with columns: `ret_type`, `rettypes` and `ret_field_types`. -/
def initResult (row : QueryAttrs) (nattrs : ℕ) :
    Except LoadError (Option RefType × List Oid × List RefType) :=
  if 0 < nattrs then do
    let ret ← getInt8s row 8
    if ret.length ≠ 1 then throw .retType
    let rettypes ← getInt4s row 9
    if rettypes.length ≠ nattrs then throw (.retOids rettypes.length nattrs)
    let fields ← getInt8s row 10
    if fields.length ≠ nattrs then throw (.retFieldTypes fields.length nattrs)
    return (ret.head?.map RefType.ofInt64, rettypes, fields.map RefType.ofInt64)
  else return (none, [], [])

def rstInitQueryPlan (row : QueryAttrs) : Except LoadError (QueryPlan pg) := do
  let sql ← getText row 3
  let argtypes ← getInt4s row 5
  let nargs := argtypes.length
  match pg.spiPrepare (cstring sql) argtypes with
  | none => throw .prepare
  | some plan => do
    if !pg.spiKeepplan plan then throw .keepPlan
    let nattrs := (pg.resultDesc plan).getD 0
    let fns ← getInt4s row 7
    if fns.length ≠ nargs then throw (.argFieldFn fns.length nargs)
    let (retType, rettypes, retFieldTypes) ← initResult row nattrs
    let retFns ← getInt4s row 11
    if retFns.length ≠ nattrs then throw (.retFieldFn retFns.length nattrs)
    return {
      plan, nargs, nattrs, argtypes, rettypes, retType, retFieldTypes
      wasmToPgFuncs := fns.map fun d => wasmToPgFuncs[d.toNat]?
      pgToWasmFuncs := retFns.map fun d => pgToWasmFuncs[d.toNat]? }

/-- The loop over the rows, from row `i` on. -/
def initQueryPlans : ℕ → List QueryAttrs → Except LoadError (List (QueryPlan pg))
  | _, [] => .ok []
  | i, row :: rows => do
    let idx ← getInt4 row 2
    if idx.toInt ≠ i then throw (.queryIndex idx.toInt i)
    let plan ← rstInitQueryPlan pg row
    return plan :: (← initQueryPlans (i + 1) rows)

/-- `module` of a row, and its `index`, as the statement that loads the queries sees them. -/
def rowModule (row : QueryAttrs) : Option Attr := row 0
def rowIndex (row : QueryAttrs) : ℤ :=
  match row 1 with
  | some (.int4 v) => v.toInt
  | _ => 0

/-- `SELECT * FROM rustica.queries WHERE module = $1 ORDER BY index`. -/
def loadModuleQueries (table : List QueryAttrs) (name : List UInt8) : List QueryAttrs :=
  (table.filter fun row => rowModule row = some (.text name)).mergeSort
    fun row row' => rowIndex row ≤ rowIndex row'

/-- `create_module_with_queries`: the queries of the new module. -/
def createModuleWithQueries (table : List QueryAttrs) (name : List UInt8) :
    Except LoadError (List (QueryPlan pg)) :=
  initQueryPlans pg 0 (loadModuleQueries table name)

/-- A compiled row as it is stored, under the name of its module. -/
def stored (name : List UInt8) (row : QueryAttrs) : QueryAttrs := row.set 0 (.text name)

end Rustica
