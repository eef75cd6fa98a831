/-
  The compiler of queries (`compiler.c`, from `compile_queries` on): what a module's `get_queries`
  returns becomes the rows of `rustica.queries`.

  A row is the array `query_attrs`, which the compiler fills by index, the first one 0.  Postgres'
  parser and planner are parameters (`Postgres`), and so is what the guest's `get_queries` returns.
  Types and OIDs are stored as the bits they consist of.

  An array of the compiler that is allocated but not written holds what was in memory before; such
  cells are a parameter (`junk`) too.  The type table of a module is indexed by integers because the
  compiler does not check the index.

  Left out: the name of the result's row type, `heap_types` (read by messages only) and the AOT code.
-/
import Mathlib.Tactic

namespace Rustica

/-! ## Types and converters -/

abbrev Oid := BitVec 32

instance : LawfulBEq Oid := inferInstance

def boolOid : Oid := 16
def byteaOid : Oid := 17
def int8Oid : Oid := 20
def int4Oid : Oid := 23
def textOid : Oid := 25
def jsonOid : Oid := 114
def float4Oid : Oid := 700
def float8Oid : Oid := 701
def int2ArrayOid : Oid := 1005
def int4ArrayOid : Oid := 1007
def varcharOid : Oid := 1043
def dateOid : Oid := 1082
def timeOid : Oid := 1083
def timestampOid : Oid := 1114
def timestamptzOid : Oid := 1184
def intervalOid : Oid := 1186
def uuidOid : Oid := 2950
def jsonbOid : Oid := 3802

/-- `wasm_ref_type_t`, eight bytes; `rest` are the flag `nullable` and the padding. -/
structure RefType where
  valueType : BitVec 8
  rest : BitVec 24 := 0
  heapType : BitVec 32 := 0
  deriving DecidableEq

def valueTypeI32 : BitVec 8 := 0x7f
def valueTypeI64 : BitVec 8 := 0x7e
def valueTypeF32 : BitVec 8 := 0x7d
def valueTypeF64 : BitVec 8 := 0x7c
def valueTypeExternref : BitVec 8 := 0x6f
def valueTypeNonNullable : BitVec 8 := 0x64
def valueTypeNullable : BitVec 8 := 0x63
def heapTypeExtern : BitVec 32 := -17

/-- `*(int64 *)&ref_type`. -/
def RefType.toInt64 (t : RefType) : BitVec 64 := t.heapType ++ t.rest ++ t.valueType

/-- `*(wasm_ref_type_t *)&value`. -/
def RefType.ofInt64 (b : BitVec 64) : RefType :=
  ⟨b.extractLsb' 0 8, b.extractLsb' 8 24, b.extractLsb' 32 32⟩

inductive WasmType where
  | struct (fields : List RefType)
  | array (elem : RefType)
  | func
  deriving DecidableEq

structure WasmModule where
  types : ℤ → WasmType
  /-- parameters and results of the exported function `get_queries` -/
  getQueries : Option (List RefType × List RefType)

variable (mod : WasmModule)

/-- The reference is nullable or not, as asked. -/
def RefType.isRef (t : RefType) (nullable : Bool) : Bool :=
  t.valueType = if nullable then valueTypeNullable else valueTypeNonNullable

/-- `wasm_ref_type_get_referred_struct`: the fields of the struct. -/
def referredStruct (t : RefType) (nullable : Bool) : Option (List RefType) :=
  if t.isRef nullable then
    match mod.types t.heapType.toInt with
    | .struct fields => some fields
    | _ => none
  else none

/-- `wasm_ref_type_get_referred_array`: the type of the elements. -/
def referredArray (t : RefType) (nullable : Bool) : Option RefType :=
  if t.isRef nullable then
    match mod.types t.heapType.toInt with
    | .array elem => some elem
    | _ => none
  else none

def isRefExtern (t : RefType) : Bool := t.isRef false && t.heapType = heapTypeExtern

/-- A MoonBit array is a struct of an array and its length; the type of the elements. -/
def validateMoonbitArray (t : RefType) : Option RefType :=
  match referredStruct mod t false with
  | some [arr, len] => match referredArray mod arr false with
    | some elem => if len.valueType = valueTypeI32 then some elem else none
    | none => none
  | _ => none

/-- `wasm_to_pg_fn`. -/
inductive WasmToPg where
  | i32ToPgBool | i32ToPgInt4 | i64ToPgInt8 | f32ToPgFloat4 | f64ToPgFloat8 | externrefToDatumObj
  | i32ArrayToPgInt2Array | i32ArrayToPgInt4Array
  deriving DecidableEq

/-- `pg_to_wasm_fn`. -/
inductive PgToWasm where
  | boolToWasmI32 | int4ToWasmI32 | int8ToWasmI64 | float4ToWasmF32 | float8ToWasmF64
  | datumToWasmObj | int2ArrayToWasmI32Array | int4ArrayToWasmI32Array
  deriving DecidableEq

/-- Datums that a guest holds as opaque references. -/
def isOpaque (oid : Oid) : Bool :=
  oid ∈ [textOid, varcharOid, uuidOid, jsonOid, jsonbOid, byteaOid, intervalOid]

def isExternRef (t : RefType) : Bool :=
  t.valueType = valueTypeExternref || t.heapType = heapTypeExtern

/-- The elements of the MoonBit array are `i32`. -/
def isI32Array (t : RefType) : Bool :=
  (validateMoonbitArray mod t).any fun elem => elem.valueType = valueTypeI32

/-- `wasm_to_pg`, `none` where it raises an error. -/
def wasmToPg (t : RefType) (oid : Oid) : Option WasmToPg :=
  if oid = boolOid then
    if t.valueType = valueTypeI32 then some .i32ToPgBool else none
  else if oid = int4Oid ∨ oid = dateOid then
    if t.valueType = valueTypeI32 then some .i32ToPgInt4 else none
  else if oid = int8Oid then
    if t.valueType = valueTypeI64 then some .i64ToPgInt8
    else if t.valueType = valueTypeI32 then some .i32ToPgInt4 else none
  else if oid = timestampOid ∨ oid = timestamptzOid ∨ oid = timeOid then
    if t.valueType = valueTypeI64 then some .i64ToPgInt8 else none
  else if oid = float4Oid then
    if t.valueType = valueTypeF32 then some .f32ToPgFloat4 else none
  else if oid = float8Oid then
    if t.valueType = valueTypeF64 then some .f64ToPgFloat8 else none
  else if isOpaque oid then
    if isExternRef t then some .externrefToDatumObj else none
  else if oid = int2ArrayOid then
    if isI32Array mod t then some .i32ArrayToPgInt2Array else none
  else if oid = int4ArrayOid then
    if isI32Array mod t then some .i32ArrayToPgInt4Array else none
  else none

/-- `pg_to_wasm`, `none` where it raises an error. -/
def pgToWasm (oid : Oid) (t : RefType) : Option PgToWasm :=
  if oid = boolOid then
    if t.valueType = valueTypeI32 then some .boolToWasmI32 else none
  else if oid = int4Oid ∨ oid = dateOid then
    if t.valueType = valueTypeI32 then some .int4ToWasmI32 else none
  else if oid = int8Oid ∨ oid = timestampOid ∨ oid = timestamptzOid ∨ oid = timeOid then
    if t.valueType = valueTypeI64 then some .int8ToWasmI64 else none
  else if oid = float4Oid then
    if t.valueType = valueTypeF32 then some .float4ToWasmF32 else none
  else if oid = float8Oid then
    if t.valueType = valueTypeF64 then some .float8ToWasmF64 else none
  else if isOpaque oid then
    if isExternRef t then some .datumToWasmObj else none
  else if oid = int2ArrayOid then
    if isI32Array mod t then some .int2ArrayToWasmI32Array else none
  else if oid = int4ArrayOid then
    if isI32Array mod t then some .int4ArrayToWasmI32Array else none
  else none

/-! ## Postgres -/

structure TargetEntry where
  resjunk : Bool
  exprType : Oid
  deriving DecidableEq

/-- An analyzed statement. -/
structure Query where
  targetList : List TargetEntry
  returningList : List TargetEntry
  canSetTag : Bool

inductive PortalStrategy where
  | oneSelect | oneModWith | oneReturning | utilSelect | multiQuery

/-- What is used of Postgres; `none` is an error it raises.  Strings end before their first NUL. -/
structure Postgres where
  RawStmt : Type
  Plan : Type
  rawParser : List UInt8 → Option (List RawStmt)
  /-- `pg_analyze_and_rewrite_fixedparams` -/
  analyze : RawStmt → List UInt8 → List Oid → Option (List Query)
  choosePortalStrategy : List Query → PortalStrategy
  /-- `none` also where the result is null -/
  spiPrepare : List UInt8 → List Oid → Option Plan
  /-- true for the return value 0 -/
  spiKeepplan : Plan → Bool
  /-- the number of columns of `resultDesc`, where there is one -/
  resultDesc : Plan → Option ℕ

/-- The bytes of a C string. -/
def cstring (bytes : List UInt8) : List UInt8 := bytes.takeWhile (· ≠ 0)

/-! ## Rows -/

/-- The value of an attribute. -/
inductive Attr where
  | text (bytes : List UInt8)
  | int4 (v : BitVec 32)
  | int8 (v : BitVec 64)
  | int4s (vs : List (BitVec 32))
  | int8s (vs : List (BitVec 64))
  deriving DecidableEq

/-- `query_attrs`; no value for what is not written yet. -/
def QueryAttrs := ℕ → Option Attr

def QueryAttrs.set (attrs : QueryAttrs) (i : ℕ) (v : Attr) : QueryAttrs :=
  Function.update attrs i (some v)

/-- The errors of the compiler, with the text where it has no argument. -/
inductive CompileError where
  | ereport (text : String)
  /-- `given %d OIDs but expect %d`, of arguments -/
  | argCount (given : ℤ) (expect : ℕ)
  /-- `given %d OIDs but expect %d`, of result columns -/
  | columnCount (given expect : ℕ)
  /-- `cannot cast WASM "%s" into PG "%s"` -/
  | castToPg (t : RefType) (oid : Oid)
  /-- `cannot cast PG "%s" into WASM "%s"` -/
  | castToWasm (oid : Oid) (t : RefType)
  /-- `expect exactly 1 SQL statement, found %d` -/
  | statements (found : ℕ)
  /-- an error Postgres raises -/
  | postgres
  deriving DecidableEq

def raise {α : Type} (text : String) : Except CompileError α := .error (.ereport text)

/-! ## The types of a query -/

/-- The fields of a nullable struct; none for the Unit. -/
def unitOrStruct (t : RefType) (text : String) : Except CompileError (List RefType) :=
  if t.valueType = valueTypeI32 then .ok []
  else match referredStruct mod t true with
    | some fields => .ok fields
    | none => raise text

/-- The check of the arguments' type, the forth field. -/
def compileArgs (t : RefType) (attrs : QueryAttrs) : Except CompileError QueryAttrs := do
  let args ← unitOrStruct mod t "forth field of Query must be a nullable struct or Unit"
  if 65535 < args.length then raise "too many arguments (max: 65535)"
  else return (attrs.set 3 (.int8 t.toInt64)).set 5 (.int8s (args.map RefType.toInt64))

/-- The check of the result's type, the fifth field. -/
def compileResult (t : RefType) (attrs : QueryAttrs) : Except CompileError QueryAttrs :=
  match referredStruct mod t false with
  | none => raise "fifth field of Query must be a result box"
  | some [ret] => do
    let fields ← unitOrStruct mod ret
      "fifth field of Query must be a box of nullable struct or Unit"
    return (attrs.set 7 (.int8s [ret.toInt64])).set 9 (.int8s (fields.map RefType.toInt64))
  | some _ => raise "the result box must have exactly 1 field"

def compileQueryType (t : RefType) (attrs : QueryAttrs) : Except CompileError QueryAttrs :=
  match referredStruct mod t false with
  | none => raise "Query must be a non-nullable struct"
  | some (index :: sql :: oids :: args :: box :: _) =>
    if index.valueType ≠ valueTypeI64 ∧ index.valueType ≠ valueTypeI32 then
      raise "first field of Query must be an integer"
    else if ¬ isRefExtern sql then raise "second field of Query must be bytes"
    else match validateMoonbitArray mod oids with
      | none => raise "third field of Query must be an array"
      | some elem =>
        if elem.valueType ≠ valueTypeI32 then raise "third field of Query must be an array of i32"
        else do
          let attrs ← compileArgs mod args attrs
          compileResult mod box attrs
  | some _ => raise "Query must have at least 5 fields"

/-! ## The query itself -/

/-- A query object of the guest: the SQL bytes, and the MoonBit array of argument OIDs.  `oids` goes
    on past the end of the array's buffer. -/
structure QueryObj where
  sql : List UInt8
  oids : ℕ → Oid
  oidsLen : ℤ

/-- A NUL is added unless the last byte is one. -/
def terminated (sql : List UInt8) : List UInt8 :=
  if sql.getLast? = some 0 then sql else sql ++ [0]

variable (pg : Postgres)

/-- `describe_query_results` from the choice of the strategy on. -/
def targetList (querytreeList : List Query) : Except CompileError (List TargetEntry) :=
  match pg.choosePortalStrategy querytreeList with
  | .oneSelect | .oneModWith => .ok (querytreeList.head?.elim [] Query.targetList)
  | .oneReturning => .ok ((querytreeList.find? Query.canSetTag).elim [] Query.returningList)
  | .utilSelect => raise "utilities SQL is not allowed"
  | .multiQuery => .ok []

def describeQueryResults (sql : List UInt8) (argtypes : List Oid) :
    Except CompileError (List TargetEntry) :=
  match pg.rawParser sql with
  | none => .error .postgres
  | some [stmt] => match pg.analyze stmt sql argtypes with
    | none => .error .postgres
    | some querytreeList => targetList pg querytreeList
  | some stmts => .error (.statements stmts.length)

/-- The types of the visible columns. -/
def visible (tl : List TargetEntry) : List Oid :=
  (tl.filter fun e => !e.resjunk).map TargetEntry.exprType

/-- `ret_array` after the loop over the target list: only the visible entries are stored. -/
def retArray (junk : ℕ → Oid) (nattrs : ℕ) (tl : List TargetEntry) : List Oid :=
  visible tl ++ ((List.range nattrs).drop (visible tl).length).map junk

/-- The converters of the arguments, one after the other. -/
def argFns : List RefType → List Oid → Except CompileError (List WasmToPg)
  | t :: ts, oid :: oids => match wasmToPg mod t oid with
    | none => .error (.castToPg t oid)
    | some fn => do return fn :: (← argFns ts oids)
  | _, _ => .ok []

/-- The converters of the columns. -/
def retFns : List Oid → List RefType → Except CompileError (List PgToWasm)
  | oid :: oids, t :: ts => match pgToWasm mod oid t with
    | none => .error (.castToWasm oid t)
    | some fn => do return fn :: (← retFns oids ts)
  | _, _ => .ok []

/-- The position of a converter in the enumeration. -/
def WasmToPg.toInt4 : WasmToPg → BitVec 32
  | .i32ToPgBool => 0 | .i32ToPgInt4 => 1 | .i64ToPgInt8 => 2 | .f32ToPgFloat4 => 3
  | .f64ToPgFloat8 => 4 | .externrefToDatumObj => 5 | .i32ArrayToPgInt2Array => 6
  | .i32ArrayToPgInt4Array => 7

def PgToWasm.toInt4 : PgToWasm → BitVec 32
  | .boolToWasmI32 => 0 | .int4ToWasmI32 => 1 | .int8ToWasmI64 => 2 | .float4ToWasmF32 => 3
  | .float8ToWasmF64 => 4 | .datumToWasmObj => 5 | .int2ArrayToWasmI32Array => 6
  | .int4ArrayToWasmI32Array => 7

/-- The types read back from an attribute. -/
def refTypes : Option Attr → List RefType
  | some (.int8s vs) => vs.map RefType.ofInt64
  | _ => []

/-- The part of `compile_query` for the arguments; also the argument OIDs. -/
def compileQueryArgs (attrs : QueryAttrs) (query : QueryObj) :
    Except CompileError (QueryAttrs × List Oid) :=
  let argFieldTypes := refTypes (attrs 5)
  let nargs := argFieldTypes.length
  if query.oidsLen ≠ nargs then .error (.argCount query.oidsLen nargs)
  else do
    let argtypes := (List.range nargs).map query.oids
    let attrs := attrs.set 4 (.int4s argtypes)
    let fns ← argFns mod argFieldTypes argtypes
    return (attrs.set 6 (.int4s (fns.map WasmToPg.toInt4)), argtypes)

/-- The part of `compile_query` for the result. -/
def compileQueryResult (junk : ℕ → Oid) (attrs : QueryAttrs) (sql : List UInt8)
    (argtypes : List Oid) : Except CompileError QueryAttrs := do
  let retFieldTypes := refTypes (attrs 9)
  let nattrs := retFieldTypes.length
  let tl ← describeQueryResults pg (cstring sql) argtypes
  if nattrs ≠ tl.length then .error (.columnCount nattrs tl.length)
  else do
    let retOids := retArray junk nattrs tl
    let attrs := attrs.set 8 (.int4s retOids)
    let fns ← retFns mod retOids retFieldTypes
    return attrs.set 10 (.int4s (fns.map PgToWasm.toInt4))

/-- `compile_query`; `index` is what the guest's object holds in its first field. -/
def compileQuery (junk : ℕ → Oid) (attrs : QueryAttrs) (index : BitVec 32) (query : QueryObj) :
    Except CompileError QueryAttrs := do
  let sql := terminated query.sql
  let attrs := ((attrs.set 0 (.text [])).set 1 (.int4 index)).set 2 (.text sql)
  let (attrs, argtypes) ← compileQueryArgs mod attrs query
  compileQueryResult mod pg junk attrs sql argtypes

/-! ## All queries of a module -/

/-- One round of the loop over the queries. -/
def compileOne (junk : ℕ → Oid) (q : ℕ) (t : RefType) (query : QueryObj) :
    Except CompileError QueryAttrs := do
  let attrs ← compileQueryType mod t fun _ => none
  compileQuery mod pg junk attrs q query

/-- The rounds from query `q` on. -/
def compileEach (junk : ℕ → ℕ → Oid) (queries : ℕ → QueryObj) :
    ℕ → List RefType → Except CompileError (List QueryAttrs)
  | _, [] => .ok []
  | q, t :: ts => do
    let row ← compileOne mod pg (junk q) q t (queries q)
    return row :: (← compileEach junk queries (q + 1) ts)

/-- `compile_queries`; `ran` is what `get_queries` returns in the temporary instance, if that can be
    made and the call does not trap. -/
def compileQueries (junk : ℕ → ℕ → Oid) (func : List RefType × List RefType)
    (ran : Option (ℕ → QueryObj)) : Except CompileError (List QueryAttrs) :=
  match func with
  | ([param], results) =>
    if param.valueType ≠ valueTypeI32 then raise "get_queries() must take a boolean/i32 argument"
    else match results with
      | [result] => match referredStruct mod result false with
        | none => raise "get_queries() must return a non-nullable struct"
        | some types =>
          if types.length = 0 then .ok []
          else if 65535 < types.length then raise "get_queries() returned too many queries"
          else match ran with
            | none => raise "failed to call get_queries()"
            | some queries => compileEach mod pg junk queries 0 types
      | _ => raise "get_queries() must return exactly 1 value"
  | _ => raise "get_queries() must take exactly 1 argument"

/-- The queries of `run_and_compile`, none for a module without `get_queries`. -/
def runAndCompile (junk : ℕ → ℕ → Oid) (ran : Option (ℕ → QueryObj)) :
    Except CompileError (Option (List QueryAttrs)) :=
  match mod.getQueries with
  | none => .ok none
  | some func => (compileQueries mod pg junk func ran).map some

end Rustica
