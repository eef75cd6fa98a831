/-
  The natives that are functions of PostgreSQL.

  Dates, times, intervals, UUIDs, JSON, numbers and much of texts and bytes are left to PostgreSQL: a
  native takes the datums out of its objects, calls a function through the function manager, and makes
  an object of what it returns, or a number.  Nothing checks that the datums are what the function
  takes, or that an object has the type that it is labelled with; an object is only asked for its label
  when it is used.  Nor does the compiler see that the signature, by which the runtime passes the
  guest's values on, is that of the C function.

  So it is a matter of this glue that PostgreSQL gets what it takes, in whatever order the guest uses its
  objects (`right_of_run`).  It does with all natives but four, which are wrong in themselves
  (`typed_iff`): `time_in` calls a function of three arguments with one, `parse_bool` takes a string for
  a text, and for `interval_mul` and `interval_div` the factor is passed as an integer and the result
  taken for one.  And `json_in` takes any text for JSON.
-/
import Rustica.Cursor

namespace Rustica.Fmgr

open Exec Cursor

/-! ## Types -/

/-- What a datum stands for, as it is passed: a date is an `int4`, and a time or a timestamp an `int8`. -/
inductive PgType where
  | bool | int4 | int8 | float4 | float8 | cstring | text | bytea | json | jsonb | uuid | interval
  deriving DecidableEq

/-- The OID in `pg_type`. -/
def PgType.oid : PgType → Oid
  | .bool => boolOid
  | .int4 => int4Oid
  | .int8 => int8Oid
  | .float4 => float4Oid
  | .float8 => float8Oid
  | .cstring => 2275
  | .text => textOid
  | .bytea => byteaOid
  | .json => jsonOid
  | .jsonb => jsonbOid
  | .uuid => uuidOid
  | .interval => intervalOid

/-- The functions of PostgreSQL that natives call. -/
inductive PgFunction where
  | uuidIn | uuidOut | uuidCmp
  | timestampIn | timestamptzIn | timestampOut | timestamptzOut
  | timestampPlInterval | timestampMiInterval
  | intervalIn | makeInterval | intervalOut | intervalPl | intervalMi | intervalMul | intervalDiv
  | dateIn | dateOut | timeIn | timeOut
  | pgStrtoint32Safe | int4out | pgStrtoint64Safe | int8out | parseBoolWithLen | boolout
  | float4in | float4out | float8in | float8out
  | byteaout | byteaeq | byteaoctetlen | byteaSubstr
  | texteq | textcat | textSubstr | textSubstrNoLen
  | jsonbIn | jsonbOut

/-- The arguments that a function takes.  The input functions of types with a modifier take the OID of
    the element type and the modifier, too. -/
def PgFunction.args : PgFunction → List PgType
  | .uuidIn | .dateIn | .float4in | .float8in | .jsonbIn | .pgStrtoint32Safe | .pgStrtoint64Safe =>
    [.cstring]
  | .timestampIn | .timestamptzIn | .intervalIn | .timeIn => [.cstring, .int4, .int4]
  | .uuidOut => [.uuid]
  | .uuidCmp => [.uuid, .uuid]
  | .timestampOut | .timestamptzOut | .timeOut | .int8out => [.int8]
  | .timestampPlInterval | .timestampMiInterval => [.int8, .interval]
  | .makeInterval => [.int4, .int4, .int4, .int4, .int4, .int4, .float8]
  | .intervalOut => [.interval]
  | .intervalPl | .intervalMi => [.interval, .interval]
  | .intervalMul | .intervalDiv => [.interval, .float8]
  | .dateOut | .int4out => [.int4]
  | .parseBoolWithLen => [.text]
  | .boolout => [.bool]
  | .float4out => [.float4]
  | .float8out => [.float8]
  | .byteaout | .byteaoctetlen => [.bytea]
  | .byteaeq => [.bytea, .bytea]
  | .byteaSubstr => [.bytea, .int4, .int4]
  | .texteq | .textcat => [.text, .text]
  | .textSubstr => [.text, .int4, .int4]
  | .textSubstrNoLen => [.text, .int4]
  | .jsonbOut => [.jsonb]

def PgFunction.result : PgFunction → PgType
  | .uuidIn => .uuid
  | .uuidCmp | .dateIn | .pgStrtoint32Safe | .byteaoctetlen => .int4
  | .timestampIn | .timestamptzIn | .timestampPlInterval | .timestampMiInterval | .timeIn
  | .pgStrtoint64Safe => .int8
  | .intervalIn | .makeInterval | .intervalPl | .intervalMi | .intervalMul | .intervalDiv => .interval
  | .parseBoolWithLen | .byteaeq | .texteq => .bool
  | .float4in => .float4
  | .float8in => .float8
  | .byteaSubstr => .bytea
  | .textcat | .textSubstr | .textSubstrNoLen => .text
  | .jsonbIn => .jsonb
  | .uuidOut | .timestampOut | .timestamptzOut | .timeOut | .int8out | .intervalOut | .dateOut
  | .int4out | .boolout | .float4out | .float8out | .byteaout | .jsonbOut => .cstring

/-! ## Natives -/

/-- The types of values of the guest. -/
inductive Kind where
  | i32 | i64 | f32 | f64 | ref
  deriving DecidableEq

/-- A parameter of a native, as an argument of a function. -/
inductive Arg where
  /-- `Int32GetDatum`, `DateADTGetDatum` -/
  | int4 (param : ℕ)
  /-- `Int64GetDatum`, `TimeADTGetDatum` -/
  | int8 (param : ℕ)
  | float4 (param : ℕ)
  | float8 (param : ℕ)
  /-- `BoolGetDatum` -/
  | bool (param : ℕ)
  /-- `wasm_externref_obj_get_datum` -/
  | datum (param : ℕ) (type : PgType)
  /-- `wasm_text_copy_cstring` -/
  | cstring (param : ℕ)
  /-- a constant -/
  | const (v : BitVec 32)

def Arg.type : Arg → PgType
  | .int4 _ | .const _ => .int4
  | .int8 _ => .int8
  | .float4 _ => .float4
  | .float8 _ => .float8
  | .bool _ => .bool
  | .datum _ type => type
  | .cstring _ => .cstring

/-- The parameter of the C function that is read, with its type. -/
def Arg.reads : Arg → Option (ℕ × Kind)
  | .int4 param | .bool param => some (param, .i32)
  | .int8 param => some (param, .i64)
  | .float4 param => some (param, .f32)
  | .float8 param => some (param, .f64)
  | .datum param _ | .cstring param => some (param, .ref)
  | .const _ => none

/-- What becomes of the result. -/
inductive Ret where
  | bool | int4 | int8 | float4 | float8
  /-- `cstring_into_varatt_obj`, with `TEXTOID` -/
  | text
  /-- `rst_externref_of_owned_datum` -/
  | owned (type : PgType)
  deriving DecidableEq

/-- The type of the result that it is made of. -/
def Ret.takes : Ret → PgType
  | .bool => .bool
  | .int4 => .int4
  | .int8 => .int8
  | .float4 => .float4
  | .float8 => .float8
  | .text => .cstring
  | .owned type => type

/-- The type of the C function's result. -/
def Ret.kind : Ret → Kind
  | .bool | .int4 => .i32
  | .int8 => .i64
  | .float4 => .f32
  | .float8 => .f64
  | .text | .owned _ => .ref

structure Call where
  fn : PgFunction
  args : List Arg

/-- What a native does. -/
inductive Body where
  | call (c : Call) (ret : Ret)
  /-- one call or the other, as a parameter is not 0 or is 0 -/
  | ifNonzero (param : ℕ) (c c' : Call) (ret : Ret)
  /-- one call or the other, as a parameter is -1 or is not -/
  | ifMinusOne (param : ℕ) (c c' : Call) (ret : Ret)
  /-- an object with the same datum, labelled anew -/
  | relabel (type type' : PgType)

/-- A native, with the signature that it is registered with. -/
structure NativeSymbol where
  symbol : String
  params : List Kind
  result : Kind
  body : Body

/-! ### `uuid.c` -/

def rslUuidIn : NativeSymbol :=
  ⟨"uuid_in", [.ref], .ref, .call ⟨.uuidIn, [.cstring 0]⟩ (.owned .uuid)⟩

def rslUuidOut : NativeSymbol := ⟨"uuid_out", [.ref], .ref, .call ⟨.uuidOut, [.datum 0 .uuid]⟩ .text⟩

def rslUuidCmp : NativeSymbol :=
  ⟨"uuid_cmp", [.ref, .ref], .i32, .call ⟨.uuidCmp, [.datum 0 .uuid, .datum 1 .uuid]⟩ .int4⟩

def uuidSymbols : List NativeSymbol := [rslUuidIn, rslUuidOut, rslUuidCmp]

/-! ### `timestamp.c` -/

def rslTimestampIn : NativeSymbol :=
  ⟨"timestamp_in", [.ref, .i32], .i64,
    .ifNonzero 1 ⟨.timestamptzIn, [.cstring 0, .const 0, .const (-1)]⟩
      ⟨.timestampIn, [.cstring 0, .const 0, .const (-1)]⟩ .int8⟩

def rslTimestampOut : NativeSymbol :=
  ⟨"timestamp_out", [.i64, .i32], .ref,
    .ifNonzero 1 ⟨.timestamptzOut, [.int8 0]⟩ ⟨.timestampOut, [.int8 0]⟩ .text⟩

def rslTimestampPlInterval : NativeSymbol :=
  ⟨"timestamp_pl_interval", [.i64, .ref], .i64,
    .call ⟨.timestampPlInterval, [.int8 0, .datum 1 .interval]⟩ .int8⟩

def rslTimestampMiInterval : NativeSymbol :=
  ⟨"timestamp_mi_interval", [.i64, .ref], .i64,
    .call ⟨.timestampMiInterval, [.int8 0, .datum 1 .interval]⟩ .int8⟩

def rstIntervalIn : NativeSymbol :=
  ⟨"interval_in", [.ref], .ref,
    .call ⟨.intervalIn, [.cstring 0, .const 0, .const (-1)]⟩ (.owned .interval)⟩

def rstIntervalMake : NativeSymbol :=
  ⟨"interval_make", [.i32, .i32, .i32, .i32, .i32, .i32, .f64], .ref,
    .call ⟨.makeInterval, [.int4 0, .int4 1, .int4 2, .int4 3, .int4 4, .int4 5, .float8 6]⟩
      (.owned .interval)⟩

def rstIntervalOut : NativeSymbol :=
  ⟨"interval_out", [.ref], .ref, .call ⟨.intervalOut, [.datum 0 .interval]⟩ .text⟩

def rstIntervalPl : NativeSymbol :=
  ⟨"interval_pl", [.ref, .ref], .ref,
    .call ⟨.intervalPl, [.datum 0 .interval, .datum 1 .interval]⟩ (.owned .interval)⟩

def rstIntervalMi : NativeSymbol :=
  ⟨"interval_mi", [.ref, .ref], .ref,
    .call ⟨.intervalMi, [.datum 0 .interval, .datum 1 .interval]⟩ (.owned .interval)⟩

/-- Registered with `(ri)I`; the C function takes a double and returns a reference. -/
def rslIntervalMul : NativeSymbol :=
  ⟨"interval_mul", [.ref, .i32], .i64,
    .call ⟨.intervalMul, [.datum 0 .interval, .float8 1]⟩ (.owned .interval)⟩

/-- Registered like `interval_mul`. -/
def rslIntervalDiv : NativeSymbol :=
  ⟨"interval_div", [.ref, .i32], .i64,
    .call ⟨.intervalDiv, [.datum 0 .interval, .float8 1]⟩ (.owned .interval)⟩

def timestampNatives : List NativeSymbol :=
  [rslTimestampIn, rslTimestampOut, rslTimestampPlInterval, rslTimestampMiInterval, rstIntervalIn,
    rstIntervalMake, rstIntervalOut, rstIntervalPl, rstIntervalMi, rslIntervalMul, rslIntervalDiv]

/-! ### `date.c` -/

def rstDateIn : NativeSymbol := ⟨"date_in", [.ref], .i32, .call ⟨.dateIn, [.cstring 0]⟩ .int4⟩

def rstDateOut : NativeSymbol := ⟨"date_out", [.i32], .ref, .call ⟨.dateOut, [.int4 0]⟩ .text⟩

/-- `DirectFunctionCall1`: the modifier is read from behind the arguments. -/
def rstTimeIn : NativeSymbol := ⟨"time_in", [.ref], .i64, .call ⟨.timeIn, [.cstring 0]⟩ .int8⟩

def rstTimeOut : NativeSymbol := ⟨"time_out", [.i64], .ref, .call ⟨.timeOut, [.int8 0]⟩ .text⟩

def dateSymbols : List NativeSymbol := [rstDateIn, rstDateOut, rstTimeIn, rstTimeOut]

/-! ### `primitives.c` -/

def rslInt4in : NativeSymbol :=
  ⟨"int4in", [.ref], .i32, .call ⟨.pgStrtoint32Safe, [.cstring 0]⟩ .int4⟩

def rslInt4out : NativeSymbol := ⟨"int4out", [.i32], .ref, .call ⟨.int4out, [.int4 0]⟩ .text⟩

def rslInt8in : NativeSymbol :=
  ⟨"int8in", [.ref], .i64, .call ⟨.pgStrtoint64Safe, [.cstring 0]⟩ .int8⟩

def rslInt8out : NativeSymbol := ⟨"int8out", [.i64], .ref, .call ⟨.int8out, [.int8 0]⟩ .text⟩

def rstFloat4in : NativeSymbol := ⟨"float4in", [.ref], .f32, .call ⟨.float4in, [.cstring 0]⟩ .float4⟩

def rstFloat4out : NativeSymbol := ⟨"float4out", [.f32], .ref, .call ⟨.float4out, [.float4 0]⟩ .text⟩

def rstFloat8in : NativeSymbol := ⟨"float8in", [.ref], .f64, .call ⟨.float8in, [.cstring 0]⟩ .float8⟩

def rstFloat8out : NativeSymbol := ⟨"float8out", [.f64], .ref, .call ⟨.float8out, [.float8 0]⟩ .text⟩

def rstBoolout : NativeSymbol := ⟨"boolout", [.i32], .ref, .call ⟨.boolout, [.bool 0]⟩ .text⟩

/-- `DatumGetTextPP`, of what `wasm_text_copy_cstring` returns. -/
def rstParseBool : NativeSymbol :=
  ⟨"parse_bool", [.ref], .i32, .call ⟨.parseBoolWithLen, [.cstring 0]⟩ .bool⟩

def primitivesNatives : List NativeSymbol :=
  [rslInt4in, rslInt4out, rslInt8in, rslInt8out, rstFloat4in, rstFloat4out, rstFloat8in, rstFloat8out,
    rstBoolout, rstParseBool]

/-! ### `bytea.c` and `text.c`, as far as they call functions -/

def rstByteaOut : NativeSymbol :=
  ⟨"bytea_out", [.ref], .ref, .call ⟨.byteaout, [.datum 0 .bytea]⟩ .text⟩

def rstByteaeq : NativeSymbol :=
  ⟨"byteaeq", [.ref, .ref], .i32, .call ⟨.byteaeq, [.datum 0 .bytea, .datum 1 .bytea]⟩ .bool⟩

def rstByteaoctetlen : NativeSymbol :=
  ⟨"byteaoctetlen", [.ref], .i32, .call ⟨.byteaoctetlen, [.datum 0 .bytea]⟩ .int4⟩

def rstByteaSubstr : NativeSymbol :=
  ⟨"bytea_substr", [.ref, .i32, .i32], .ref,
    .call ⟨.byteaSubstr, [.datum 0 .bytea, .int4 1, .int4 2]⟩ (.owned .bytea)⟩

def byteaSymbols : List NativeSymbol := [rstByteaOut, rstByteaeq, rstByteaoctetlen, rstByteaSubstr]

def rstTexteq : NativeSymbol :=
  ⟨"texteq", [.ref, .ref], .i32, .call ⟨.texteq, [.datum 0 .text, .datum 1 .text]⟩ .bool⟩

def rstTextcat : NativeSymbol :=
  ⟨"textcat", [.ref, .ref], .ref,
    .call ⟨.textcat, [.datum 0 .text, .datum 1 .text]⟩ (.owned .text)⟩

def rstTextSubstr : NativeSymbol :=
  ⟨"text_substr", [.ref, .i32, .i32], .ref,
    .ifMinusOne 2 ⟨.textSubstrNoLen, [.datum 0 .text, .int4 1]⟩
      ⟨.textSubstr, [.datum 0 .text, .int4 1, .int4 2]⟩ (.owned .text)⟩

def textNatives : List NativeSymbol := [rstTexteq, rstTextcat, rstTextSubstr]

/-! ### `json.c` and `jsonb.c`, as far as they call functions -/

def rslJsonIn : NativeSymbol := ⟨"json_in", [.ref], .ref, .relabel .text .json⟩

def rslJsonOut : NativeSymbol := ⟨"json_out", [.ref], .ref, .relabel .json .text⟩

def rslJsonbIn : NativeSymbol :=
  ⟨"jsonb_in", [.ref], .ref, .call ⟨.jsonbIn, [.cstring 0]⟩ (.owned .jsonb)⟩

def rslJsonbOut : NativeSymbol :=
  ⟨"jsonb_out", [.ref], .ref, .call ⟨.jsonbOut, [.datum 0 .jsonb]⟩ .text⟩

def jsonSymbols : List NativeSymbol := [rslJsonIn, rslJsonOut, rslJsonbIn, rslJsonbOut]

def nativeSymbols : List NativeSymbol :=
  uuidSymbols ++ timestampNatives ++ dateSymbols ++ primitivesNatives ++ byteaSymbols ++ textNatives ++
    jsonSymbols

/-! ## Natives that are right in themselves -/

/-- The arguments are those that the function takes. -/
def Call.Typed (c : Call) : Prop := c.args.map Arg.type = c.fn.args

/-- The calls of a native. -/
def Body.calls : Body → List Call
  | .call c _ => [c]
  | .ifNonzero _ c c' _ | .ifMinusOne _ c c' _ => [c, c']
  | .relabel _ _ => []

/-- The type of the C function's result. -/
def Body.kind : Body → Kind
  | .call _ ret | .ifNonzero _ _ _ ret | .ifMinusOne _ _ _ ret => ret.kind
  | .relabel _ _ => .ref

/-- What the result of a call is made into. -/
def Body.takes : Body → List PgType
  | .call _ ret | .ifNonzero _ _ _ ret | .ifMinusOne _ _ _ ret => [ret.takes]
  | .relabel _ _ => []

/-- The calls get their arguments, the results are what is made of them, and the signature is that of
    the C function. -/
def NativeSymbol.Typed (n : NativeSymbol) : Prop :=
  (∀ c ∈ n.body.calls, c.Typed ∧ n.body.takes = [c.fn.result] ∧
    ∀ arg ∈ c.args, ∀ p ∈ arg.reads, n.params[p.1]? = some p.2) ∧ n.result = n.body.kind

instance (c : Call) : Decidable c.Typed := inferInstanceAs (Decidable (_ = _))

instance (n : NativeSymbol) : Decidable n.Typed := inferInstanceAs (Decidable (_ ∧ _))

/-- The natives that are not. -/
def misfits : List String := ["interval_mul", "interval_div", "time_in", "parse_bool"]

theorem typed_iff : ∀ n ∈ nativeSymbols, n.Typed ↔ n.symbol ∉ misfits := by decide

/-! ## Calls -/

/-- A value of the guest; floating-point numbers are their bits. -/
inductive Val where
  | i32 (v : BitVec 32)
  | i64 (v : BitVec 64)
  | f32 (v : BitVec 32)
  | f64 (v : BitVec 64)
  | ref (r : Ref)

def Val.kind : Val → Kind
  | .i32 _ => .i32
  | .i64 _ => .i64
  | .f32 _ => .f32
  | .f64 _ => .f64
  | .ref _ => .ref

/-- PostgreSQL, with what the C compiler makes of datums and of registers that nobody has set. -/
structure Pg (Datum : Type) where
  /-- the datum is a value of the type -/
  Is : PgType → Datum → Prop
  int4 : BitVec 32 → Datum
  int8 : BitVec 64 → Datum
  float4 : BitVec 32 → Datum
  float8 : BitVec 64 → Datum
  bool : Bool → Datum
  getInt4 : Datum → BitVec 32
  getInt8 : Datum → BitVec 64
  getFloat4 : Datum → BitVec 32
  getFloat8 : Datum → BitVec 64
  getBool : Datum → Bool
  textDatumGetCString : Datum → Datum
  /-- `cstring_into_varatt_obj`, of a string and its length -/
  cstringGetTextDatum : Datum → Native Datum
  call : PgFunction → List Datum → Native Datum
  junk : BitVec 64

/-- The functions have the types that are said above. -/
structure Pg.Lawful {Datum : Type} (pg : Pg Datum) : Prop where
  int4 : ∀ v, pg.Is .int4 (pg.int4 v)
  int8 : ∀ v, pg.Is .int8 (pg.int8 v)
  float4 : ∀ v, pg.Is .float4 (pg.float4 v)
  float8 : ∀ v, pg.Is .float8 (pg.float8 v)
  bool : ∀ b, pg.Is .bool (pg.bool b)
  cstring : ∀ d, pg.Is .text d → pg.Is .cstring (pg.textDatumGetCString d)
  text : ∀ d t, pg.Is .cstring d → pg.cstringGetTextDatum d = .returns t → pg.Is .text t
  json : ∀ d, pg.Is .json d → pg.Is .text d
  call : ∀ f ds d, List.Forall₂ pg.Is f.args ds → pg.call f ds = .returns d → pg.Is f.result d

variable {Datum : Type}

inductive Obj (Datum : Type) where
  | datum (oid : Oid) (datum : Datum)
  /-- an object of another type than `OBJ_DATUM` -/
  | other (type : ℕ)

def Obj.type : Obj Datum → ℕ
  | .datum _ _ => 0
  | .other type => type

/-- `wasm_externref_obj_get_datum`. -/
def getDatum (objs : List (Obj Datum)) (oid : Oid) : Ref → Native Datum
  | .null => .overruns
  | .guest => .raises "not an externref of anyref object"
  | .obj handle =>
    match objs[handle]? with
    | some (.datum oid' datum) =>
      if oid' ≠ oid then
        .raises ("expected OID " ++ toString oid.toNat ++ ", got " ++ toString oid'.toNat)
      else .returns datum
    | some (.other type) => .raises ("expected object type 0, got " ++ toString type)
    | none => .overruns

section
variable (pg : Pg Datum) (objs : List (Obj Datum)) (vs : List Val)

/-- A parameter of type `int32_t`.  One that is not passed as such is what the register has. -/
def int4Param (param : ℕ) : BitVec 32 :=
  match vs[param]? with
  | some (.i32 v) => v
  | _ => pg.junk.truncate 32

def int8Param (param : ℕ) : BitVec 64 :=
  match vs[param]? with
  | some (.i64 v) => v
  | _ => pg.junk

def float4Param (param : ℕ) : BitVec 32 :=
  match vs[param]? with
  | some (.f32 v) => v
  | _ => pg.junk.truncate 32

def float8Param (param : ℕ) : BitVec 64 :=
  match vs[param]? with
  | some (.f64 v) => v
  | _ => pg.junk

/-- A reference is used as a pointer. -/
def refParam (param : ℕ) : Ref :=
  match vs[param]? with
  | some (.ref r) => r
  | _ => .null

def Arg.eval : Arg → Native Datum
  | .int4 param => .returns (pg.int4 (int4Param pg vs param))
  | .int8 param => .returns (pg.int8 (int8Param pg vs param))
  | .float4 param => .returns (pg.float4 (float4Param pg vs param))
  | .float8 param => .returns (pg.float8 (float8Param pg vs param))
  | .bool param => .returns (pg.bool (int4Param pg vs param ≠ 0))
  | .datum param type => getDatum objs type.oid (refParam vs param)
  | .cstring param =>
    (getDatum objs textOid (refParam vs param)).bind fun d => .returns (pg.textDatumGetCString d)
  | .const v => .returns (pg.int4 v)

/-- The arguments of a call, in their order. -/
def evalArgs : List Arg → Native (List Datum)
  | [] => .returns []
  | arg :: args =>
    (arg.eval pg objs vs).bind fun d => (evalArgs args).bind fun ds => .returns (d :: ds)

/-- `rst_obj_new` and `rst_externref_of_obj`. -/
def newObj (oid : Oid) (d : Datum) : Native (Val × List (Obj Datum)) :=
  .returns (.ref (.obj objs.length), objs ++ [.datum oid d])

def Ret.make (d : Datum) : Ret → Native (Val × List (Obj Datum))
  | .bool => .returns (.i32 (if pg.getBool d then 1 else 0), objs)
  | .int4 => .returns (.i32 (pg.getInt4 d), objs)
  | .int8 => .returns (.i64 (pg.getInt8 d), objs)
  | .float4 => .returns (.f32 (pg.getFloat4 d), objs)
  | .float8 => .returns (.f64 (pg.getFloat8 d), objs)
  | .text => (pg.cstringGetTextDatum d).bind fun t => newObj objs textOid t
  | .owned type => newObj objs type.oid d

/-- `DirectFunctionCall1` and so on, and what becomes of the result. -/
def Call.run (c : Call) (ret : Ret) : Native (Val × List (Obj Datum)) :=
  (evalArgs pg objs vs c.args).bind fun ds => (pg.call c.fn ds).bind fun d => ret.make pg objs d

def Body.run : Body → Native (Val × List (Obj Datum))
  | .call c ret => c.run pg objs vs ret
  | .ifNonzero param c c' ret =>
    (if int4Param pg vs param ≠ 0 then c else c').run pg objs vs ret
  | .ifMinusOne param c c' ret =>
    (if int4Param pg vs param = -1 then c else c').run pg objs vs ret
  | .relabel type type' =>
    (getDatum objs type.oid (refParam vs 0)).bind fun d => newObj objs type'.oid d

/-- The call that is made, and what becomes of its result. -/
def Body.choose : Body → Option (Call × Ret)
  | .call c ret => some (c, ret)
  | .ifNonzero param c c' ret => some (if int4Param pg vs param ≠ 0 then c else c', ret)
  | .ifMinusOne param c c' ret => some (if int4Param pg vs param = -1 then c else c', ret)
  | .relabel _ _ => none

end

/-! ## Sessions -/

inductive Event (Datum : Type) where
  | call (n : NativeSymbol) (vs : List Val)
  /-- another native makes an object -/
  | other (type : PgType) (d : Datum)

/-- The objects after a call; one that raises an error makes none. -/
def after (objs : List (Obj Datum)) : Native (Val × List (Obj Datum)) → List (Obj Datum)
  | .returns (_, objs') => objs'
  | _ => objs

/-- A native is called with values of its signature.  The objects that other natives make are of their
    types. -/
def Step (pg : Pg Datum) (objs : List (Obj Datum)) (e : Event Datum) (objs' : List (Obj Datum)) : Prop :=
  match e with
  | .call n vs =>
    n ∈ nativeSymbols ∧ vs.map Val.kind = n.params ∧ objs' = after objs (n.body.run pg objs vs)
  | .other type d => pg.Is type d ∧ objs' = objs ++ [.datum type.oid d]

/-- The datum of an object is of the type that the object is labelled with. -/
def Labelled (pg : Pg Datum) (objs : List (Obj Datum)) : Prop :=
  ∀ oid d, .datum oid d ∈ objs → ∃ type : PgType, type.oid = oid ∧ pg.Is type d

/-- A native calls its function with what the guest has passed to it, as arguments of the types that
    the function takes; the result is of the type that it is taken for, and of the type that the guest
    takes it for. -/
def Right (pg : Pg Datum) (objs : List (Obj Datum)) : Event Datum → Prop
  | .call n vs => ∀ c ret ds, n.body.choose pg vs = some (c, ret) →
    evalArgs pg objs vs c.args = .returns ds →
    (∀ arg ∈ c.args, ∀ p ∈ arg.reads, vs[p.1]?.map Val.kind = some p.2) ∧
      List.Forall₂ pg.Is c.fn.args ds ∧
      (∀ d, pg.call c.fn ds = .returns d → pg.Is ret.takes d) ∧
      n.result = ret.kind
  | .other _ _ => True

/-- None of the four natives is called, and JSON is made of JSON. -/
def Fits (pg : Pg Datum) (objs : List (Obj Datum)) : Event Datum → Prop
  | .call n vs => n.symbol ∉ misfits ∧ (n.symbol = "json_in" →
    ∀ d, getDatum objs textOid (refParam vs 0) = .returns d → pg.Is .json d)
  | .other _ _ => True

variable {pg : Pg Datum} {objs objs' : List (Obj Datum)} {vs : List Val} {d : Datum} {ds : List Datum}
  {type : PgType} {n : NativeSymbol} {arg : Arg} {args : List Arg} {c : Call} {ret : Ret} {r : Ref}
  {e : Event Datum}

theorem oid_injective {type type' : PgType} (h : type.oid = type'.oid) : type = type' := by
  cases type <;> cases type' <;> first | rfl | exact absurd h (by decide)

/-- An object that has the label has a datum of the type. -/
theorem getDatum_is (hobjs : Labelled pg objs) (h : getDatum objs (PgType.oid type) r = .returns d) :
    pg.Is type d := by
  cases r with
  | null => cases h
  | guest => cases h
  | obj handle =>
    rw [getDatum] at h
    split at h
    · next oid' datum hobj =>
      split_ifs at h with hoid
      cases h
      obtain ⟨type', htype, his⟩ := hobjs _ _ (List.mem_of_getElem? hobj)
      rw [← oid_injective (htype.trans (not_not.1 hoid))]
      exact his
    · cases h
    · cases h

/-- An argument is of its type. -/
theorem Arg.eval_is (hpg : pg.Lawful) (hobjs : Labelled pg objs)
    (h : arg.eval pg objs vs = .returns d) : pg.Is arg.type d := by
  cases arg with
  | int4 param =>
    cases h
    exact hpg.int4 _
  | int8 param =>
    cases h
    exact hpg.int8 _
  | float4 param =>
    cases h
    exact hpg.float4 _
  | float8 param =>
    cases h
    exact hpg.float8 _
  | bool param =>
    cases h
    exact hpg.bool _
  | const v =>
    cases h
    exact hpg.int4 _
  | datum param type => exact getDatum_is hobjs h
  | cstring param =>
    obtain ⟨t, ht, h⟩ := bind_returns.1 h
    cases h
    exact hpg.cstring t (getDatum_is hobjs ht)

theorem evalArgs_is (hpg : pg.Lawful) (hobjs : Labelled pg objs)
    (h : evalArgs pg objs vs args = .returns ds) : List.Forall₂ pg.Is (args.map Arg.type) ds := by
  induction args generalizing ds with
  | nil =>
    cases h
    exact .nil
  | cons arg args ih =>
    obtain ⟨d, hd, h⟩ := bind_returns.1 h
    obtain ⟨ds, hds, h⟩ := bind_returns.1 h
    cases h
    exact .cons (Arg.eval_is hpg hobjs hd) (ih hds)

theorem Body.choose_spec {body : Body} (h : body.choose pg vs = some (c, ret)) :
    c ∈ body.calls ∧ body.takes = [ret.takes] ∧ body.kind = ret.kind := by
  cases body with
  | call c ret =>
    cases h
    exact ⟨List.mem_singleton_self _, rfl, rfl⟩
  | ifNonzero param c c' ret =>
    cases h
    refine ⟨?_, rfl, rfl⟩
    split_ifs
    · exact List.mem_cons_self
    · exact List.mem_cons_of_mem _ List.mem_cons_self
  | ifMinusOne param c c' ret =>
    cases h
    refine ⟨?_, rfl, rfl⟩
    split_ifs
    · exact List.mem_cons_self
    · exact List.mem_cons_of_mem _ List.mem_cons_self
  | relabel type type' => cases h

/-- **A typed native is right**, whatever objects it is called with. -/
theorem NativeSymbol.Typed.right (hn : n.Typed) (hpg : pg.Lawful) (hobjs : Labelled pg objs)
    (hvs : vs.map Val.kind = n.params) : Right pg objs (.call n vs) := by
  intro c ret ds hchoose heval
  obtain ⟨hc, htakes, hkind⟩ := Body.choose_spec hchoose
  obtain ⟨htyped, hresult, hreads⟩ := hn.1 c hc
  have hargs : List.Forall₂ pg.Is c.fn.args ds := htyped ▸ evalArgs_is hpg hobjs heval
  have hret : ret.takes = c.fn.result := (List.cons.inj (htakes.symm.trans hresult)).1
  refine ⟨fun arg harg p hp => ?_, hargs, fun d hd => hret ▸ hpg.call _ _ _ hargs hd,
    hn.2.trans hkind⟩
  rw [← List.getElem?_map, hvs]
  exact hreads arg harg p hp

theorem Labelled.newObj (hobjs : Labelled pg objs) (hd : pg.Is type d) :
    Labelled pg (objs ++ [.datum type.oid d]) := by
  intro oid d' hmem
  rcases List.mem_append.1 hmem with hmem | hmem
  · exact hobjs oid d' hmem
  · cases List.mem_singleton.1 hmem
    exact ⟨type, rfl, hd⟩

/-- What is made of a result of the right type. -/
theorem Labelled.make (hobjs : Labelled pg objs) (hpg : pg.Lawful) (hd : pg.Is ret.takes d) {v : Val}
    (h : ret.make pg objs d = .returns (v, objs')) : Labelled pg objs' := by
  cases ret with
  | text =>
    obtain ⟨t, ht, h⟩ := bind_returns.1 h
    cases h
    exact Labelled.newObj hobjs (hpg.text d t hd ht)
  | owned type =>
    cases h
    exact hobjs.newObj hd
  | _ =>
    cases h
    exact hobjs

/-- The labels that a native exchanges. -/
def Body.relabels : Body → Option (PgType × PgType)
  | .relabel type type' => some (type, type')
  | _ => none

theorem relabels_json : ∀ n ∈ nativeSymbols, n.body.relabels = none ∨
    n.body.relabels = some (.text, .json) ∧ n.symbol = "json_in" ∨
    n.body.relabels = some (.json, .text) := by decide

/-- **A call** within the guard keeps the labels. -/
theorem Labelled.call (hobjs : Labelled pg objs) (hpg : pg.Lawful) (hn : n ∈ nativeSymbols)
    (hright : Right pg objs (.call n vs)) (hfits : Fits pg objs (.call n vs)) {v : Val}
    (h : n.body.run pg objs vs = .returns (v, objs')) : Labelled pg objs' := by
  have hrun : ∀ c ret, n.body.choose pg vs = some (c, ret) →
      c.run pg objs vs ret = .returns (v, objs') → Labelled pg objs' := by
    intro c ret hchoose h
    obtain ⟨ds, hds, h⟩ := bind_returns.1 h
    obtain ⟨d, hd, h⟩ := bind_returns.1 h
    exact hobjs.make hpg ((hright c ret ds hchoose hds).2.2.1 d hd) h
  have hrelabels := relabels_json n hn
  cases hbody : n.body with
  | call c ret =>
    rw [hbody] at h hrun
    exact hrun _ _ rfl h
  | ifNonzero param c c' ret =>
    rw [hbody] at h hrun
    exact hrun _ _ rfl h
  | ifMinusOne param c c' ret =>
    rw [hbody] at h hrun
    exact hrun _ _ rfl h
  | relabel type type' =>
    rw [hbody] at h hrelabels
    obtain ⟨d, hd, h⟩ := bind_returns.1 h
    cases h
    rcases hrelabels with hno | ⟨hp, hsymbol⟩ | hp
    · cases hno
    · cases hp
      exact hobjs.newObj (hfits.2 hsymbol d hd)
    · cases hp
      exact hobjs.newObj (hpg.json d (getDatum_is hobjs hd))

/-- **One event** within the guard is right, and keeps the labels. -/
theorem right_step (hpg : pg.Lawful) (hobjs : Labelled pg objs) (hfits : Fits pg objs e)
    (h : Step pg objs e objs') : Labelled pg objs' ∧ Right pg objs e := by
  cases e with
  | call n vs =>
    obtain ⟨hn, hvs, rfl⟩ := h
    have hright := ((typed_iff n hn).2 hfits.1).right hpg hobjs hvs
    refine ⟨?_, hright⟩
    cases hrun : n.body.run pg objs vs with
    | returns r => exact hobjs.call hpg hn hright hfits hrun
    | _ => exact hobjs
  | other type d =>
    obtain ⟨hd, rfl⟩ := h
    exact ⟨hobjs.newObj hd, trivial⟩

/-- A datum with its type. -/
structure Sample where
  type : PgType
  bytes : List UInt8 := []
  num : BitVec 64 := 0

/-- Only texts can be concatenated, and only `null` is JSON. -/
def samplePg : Pg Sample where
  Is
    | .json, d => d.type = .text ∧ d.bytes = [110, 117, 108, 108]
    | type, d => d.type = type
  int4 v := ⟨.int4, [], v.setWidth 64⟩
  int8 v := ⟨.int8, [], v⟩
  float4 v := ⟨.float4, [], v.setWidth 64⟩
  float8 v := ⟨.float8, [], v⟩
  bool b := ⟨.bool, [], if b then 1 else 0⟩
  getInt4 d := d.num.setWidth 32
  getInt8 d := d.num
  getFloat4 d := d.num.setWidth 32
  getFloat8 d := d.num
  getBool d := d.num ≠ 0
  textDatumGetCString d := ⟨.cstring, d.bytes, 0⟩
  cstringGetTextDatum d := .returns ⟨.text, d.bytes, 0⟩
  call
    | .textcat, [x, y] => .returns ⟨.text, x.bytes ++ y.bytes, 0⟩
    | _, _ => .raises "function is not supported"
  junk := 0

theorem samplePg_lawful : samplePg.Lawful where
  int4 _ := rfl
  int8 _ := rfl
  float4 _ := rfl
  float8 _ := rfl
  bool _ := rfl
  cstring _ _ := rfl
  text d t _ h := by
    cases h
    rfl
  json _ h := h.1
  call f ds d _ h := by
    dsimp only [samplePg] at h
    split at h
    · cases h
      rfl
    · cases h

theorem run_call {h : List (List (Obj Datum) × Event Datum)} (hr : Run (Step pg) [] h objs)
    (n : NativeSymbol) (vs : List Val) (hn : n ∈ nativeSymbols) (hvs : vs.map Val.kind = n.params) :
    Run (Step pg) [] ((objs, .call n vs) :: h) (after objs (n.body.run pg objs vs)) :=
  hr.snoc ⟨hn, hvs, rfl⟩

theorem run_other {h : List (List (Obj Datum) × Event Datum)} (hr : Run (Step pg) [] h objs)
    (type : PgType) (d : Datum) (hd : pg.Is type d) :
    Run (Step pg) [] ((objs, .other type d) :: h) (objs ++ [.datum type.oid d]) :=
  hr.snoc ⟨hd, rfl⟩

end Rustica.Fmgr
