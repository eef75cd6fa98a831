/-
  What the natives do with the references that a guest passes to them or has stored: null, an `i31`,
  an object of the guest, or a host object of any kind.

  `wasm_externref_obj_get_obj` is how a native gets at the host object.  It tells what a reference is
  by the header of what it points to, without a test for null.  The same goes for the fields of a
  query struct, where the compiler admits null.

  A native is given by its steps (`NativeCall.native`): it asks for a host object, reads a field
  through a reference, does work that can raise an error, or makes an object for the guest.  Of the
  other arguments and of the work only whether it raises an error is of interest.  The contents of
  columns are those of `Rustica.Rows`, and what is done with an object's body is left out.

  * `contained_iff`: a call reads nothing through null, and works on the objects that it asks for or
    raises an error, exactly if none of the references that it comes to is null.
-/
import Rustica.Load
import Rustica.Objects
import Rustica.Reload

namespace Rustica.Nulls

/-! ## References -/

/-- `ObjType` -/
inductive ObjType where
  | datum | stringInfo | jsonbValue | portal | tupleTable | heapTuple | clockMonotonic
  deriving DecidableEq

def ObjType.toNat : ObjType → ℕ
  | .datum => 0
  | .stringInfo => 1
  | .jsonbValue => 2
  | .portal => 3
  | .tupleTable => 4
  | .heapTuple => 5
  | .clockMonotonic => 6

def objType (o : Obj) : ObjType :=
  match o.body with
  | .datum .. => .datum
  | .stringInfo .. => .stringInfo
  | .jsonbValue .. => .jsonbValue
  | .portal .. => .portal
  | .tupleTable .. => .tupleTable
  | .heapTuple .. => .heapTuple
  | .clockMonotonic => .clockMonotonic

/-- The member that a datum object has for its OID, and some others for the index of the query. -/
def objOid (o : Obj) : Oid :=
  match o.body with
  | .datum oid _ => oid
  | .portal _ queryIdx | .tupleTable _ queryIdx => queryIdx
  | _ => 0

/-- What is inside of an `externref`; `other` is an object of the guest. -/
inductive Internal where
  | i31 | other
  | host (o : Obj)

/-- A reference. -/
inductive Ref where
  | null | i31 | other
  | externref (internal : Internal)

/-- The host object behind a reference. -/
def Ref.host? : Ref → Option Obj
  | .externref (.host o) => some o
  | _ => none

/-- A reference to a struct of the guest, or null. -/
def structRef {α : Type} : Option α → Ref
  | none => .null
  | some _ => .other

/-- Why a step does not go on. -/
inductive Fault where
  | raised (err : String)
  /-- the header of an object, or a field, is read through null -/
  | nullRead

abbrev Access := Except Fault

def ereport {α : Type} (err : String) : Access α := .error (.raised err)

/-- The predicates on references read the header, except for an `i31`, which has none. -/
def wasmExternrefObjGetObj (refobj : Ref) (type : ObjType) : Access Obj :=
  match refobj with
  | .null => .error .nullRead
  | .i31 | .other => ereport "not an externref object"
  | .externref anyref => match anyref with
    | .i31 | .other => ereport "not an externref of anyref object"
    | .host rv =>
      if objType rv ≠ type then ereport ("expected object type " ++ toString type.toNat ++ ", got " ++
        toString (objType rv).toNat)
      else .ok rv

def wasmExternrefObjGetDatum (refobj : Ref) (oid : Oid) : Access Obj := do
  let obj ← wasmExternrefObjGetObj refobj .datum
  if objOid obj ≠ oid then
    ereport ("expected OID " ++ toString oid.toInt ++ ", got " ++ toString (objOid obj).toInt)
  else return obj

/-- What the guest holds: null, or an object of the heap. -/
def refOf (s : ObjHeap) : Option ℕ → Ref
  | none => .null
  | some a => match s.nodes.get? a with
    | some (.externref internal) => match s.nodes.get? internal with
      | some (.host o) => .externref (.host o)
      | _ => .externref .other
    | _ => .other

/-- The natives of the heap get at the same objects. -/
theorem getObj_refOf {s : ObjHeap} {a : ℕ} {o : Obj} :
    (∃ i, s.getObj a = some (i, o)) ↔ (refOf s (some a)).host? = some o := by
  unfold refOf ObjHeap.getObj
  rcases ha : s.nodes.get? a with _ | (_ | _ | internal | _)
  · simp [ha, Ref.host?]
  · simp [ha, Ref.host?]
  · simp [ha, Ref.host?]
  · rcases hi : s.nodes.get? internal with _ | (_ | _ | _ | o') <;> simp [ha, hi, Ref.host?]
  · simp [ha, Ref.host?]

/-! ## Steps -/

inductive Step where
  /-- `wasm_externref_obj_get_obj` -/
  | obj (refobj : Ref) (type : ObjType)
  /-- `wasm_externref_obj_get_datum` -/
  | datum (refobj : Ref) (oid : Oid)
  /-- a field is read or written -/
  | field (ref : Ref)
  | raise (err : String)
  /-- work that can raise an error -/
  | work
  /-- an object is made, and its header read; without memory it is null -/
  | newObj

/-- The errors that the work raises, and whether WAMR has memory, by the position of the step. -/
structure Inputs where
  fails : ℕ → Option String
  room : ℕ → Bool

variable (inp : Inputs)

def Step.run (k : ℕ) : Step → Access Unit
  | .obj refobj type => (wasmExternrefObjGetObj refobj type).map fun _ => ()
  | .datum refobj oid => (wasmExternrefObjGetDatum refobj oid).map fun _ => ()
  | .field .null => .error .nullRead
  | .field _ => .ok ()
  | .raise err => ereport err
  | .work => match inp.fails k with
    | some err => ereport err
    | none => .ok ()
  | .newObj => if inp.room k then .ok () else .error .nullRead

/-- The steps from the position `k` on. -/
def run : ℕ → List Step → Access Unit
  | _, [] => .ok ()
  | k, step :: steps => do
    step.run inp k
    run (k + 1) steps

/-- The step works on a host object as expected, or through a reference that is not null. -/
def Step.Works : Step → Prop
  | .obj refobj type => ∃ o, refobj = .externref (.host o) ∧ objType o = type
  | .datum refobj oid => ∃ o, refobj = .externref (.host o) ∧ objType o = .datum ∧ objOid o = oid
  | .field ref => ref ≠ .null
  | .raise _ => False
  | .work | .newObj => True

/-- An error is raised, or every step has worked. -/
def Contained (k : ℕ) (steps : List Step) : Prop :=
  (∃ err, run inp k steps = .error (.raised err)) ∨
    (run inp k steps = .ok () ∧ ∀ step ∈ steps, step.Works)

/-- The step is followed by the next one. -/
def Step.Passes (k : ℕ) : Step → Prop
  | .work => inp.fails k = none
  | .newObj => inp.room k = true
  | step => step.Works

/-- The step does not use null. -/
def Step.Safe (k : ℕ) : Step → Prop
  | .obj refobj _ | .datum refobj _ | .field refobj => refobj ≠ .null
  | .raise _ | .work => True
  | .newObj => inp.room k = true

/-- No step that is come to uses null. -/
def NullFree : ℕ → List Step → Prop
  | _, [] => True
  | k, step :: steps => step.Safe inp k ∧ (step.Passes inp k → NullFree (k + 1) steps)

variable {inp} {k : ℕ} {step : Step} {steps : List Step} {refobj : Ref} {type : ObjType} {oid : Oid}

theorem getObj_cases (refobj : Ref) (type : ObjType) :
    (∃ o, refobj = .externref (.host o) ∧ objType o = type ∧
      wasmExternrefObjGetObj refobj type = .ok o) ∨
    (refobj ≠ .null ∧ (¬ ∃ o, refobj = .externref (.host o) ∧ objType o = type) ∧
      ∃ err, wasmExternrefObjGetObj refobj type = ereport err) ∨
    (refobj = .null ∧ wasmExternrefObjGetObj refobj type = .error .nullRead) := by
  rcases refobj with _ | _ | _ | (_ | _ | o)
  · exact .inr (.inr ⟨rfl, rfl⟩)
  · exact .inr (.inl ⟨nofun, nofun, _, rfl⟩)
  · exact .inr (.inl ⟨nofun, nofun, _, rfl⟩)
  · exact .inr (.inl ⟨nofun, nofun, _, rfl⟩)
  · exact .inr (.inl ⟨nofun, nofun, _, rfl⟩)
  · by_cases h : objType o = type
    · exact .inl ⟨o, rfl, h, if_neg (not_not.2 h)⟩
    · refine .inr (.inl ⟨nofun, ?_, _, if_pos h⟩)
      rintro ⟨_, ⟨⟩, h'⟩
      exact h h'

theorem getDatum_cases (refobj : Ref) (oid : Oid) :
    (∃ o, refobj = .externref (.host o) ∧ objType o = .datum ∧ objOid o = oid ∧
      wasmExternrefObjGetDatum refobj oid = .ok o) ∨
    (refobj ≠ .null ∧
      (¬ ∃ o, refobj = .externref (.host o) ∧ objType o = .datum ∧ objOid o = oid) ∧
      ∃ err, wasmExternrefObjGetDatum refobj oid = ereport err) ∨
    (refobj = .null ∧ wasmExternrefObjGetDatum refobj oid = .error .nullRead) := by
  unfold wasmExternrefObjGetDatum
  rcases getObj_cases refobj .datum with ⟨o, rfl, ht, h⟩ | ⟨hne, hno, err, h⟩ | ⟨rfl, h⟩
  · rw [h]
    by_cases hoid : objOid o = oid
    · exact .inl ⟨o, rfl, ht, hoid, if_neg (not_not.2 hoid)⟩
    · refine .inr (.inl ⟨nofun, ?_, _, if_pos hoid⟩)
      rintro ⟨_, ⟨⟩, -, hoid'⟩
      exact hoid hoid'
  · rw [h]
    exact .inr (.inl ⟨hne, fun ⟨o, ho, ht, _⟩ => hno ⟨o, ho, ht⟩, err, rfl⟩)
  · rw [h]
    exact .inr (.inr ⟨rfl, rfl⟩)

/-- A step is over, raises an error, or uses null. -/
theorem step_cases (inp : Inputs) (k : ℕ) (step : Step) :
    (step.run inp k = .ok () ∧ step.Safe inp k ∧ step.Passes inp k ∧ step.Works) ∨
    ((∃ err, step.run inp k = .error (.raised err)) ∧ step.Safe inp k ∧ ¬ step.Passes inp k) ∨
    (step.run inp k = .error .nullRead ∧ ¬ step.Safe inp k) := by
  cases step with
  | obj refobj type =>
    rcases getObj_cases refobj type with ⟨o, rfl, ht, h⟩ | ⟨hne, hno, err, h⟩ | ⟨rfl, h⟩
    · exact .inl ⟨by rw [Step.run, h]; rfl, nofun, ⟨o, rfl, ht⟩, ⟨o, rfl, ht⟩⟩
    · exact .inr (.inl ⟨⟨err, by rw [Step.run, h]; rfl⟩, hne, hno⟩)
    · exact .inr (.inr ⟨by rw [Step.run, h]; rfl, fun hne => hne rfl⟩)
  | datum refobj oid =>
    rcases getDatum_cases refobj oid with ⟨o, rfl, ht, hoid, h⟩ | ⟨hne, hno, err, h⟩ | ⟨rfl, h⟩
    · exact .inl ⟨by rw [Step.run, h]; rfl, nofun, ⟨o, rfl, ht, hoid⟩, ⟨o, rfl, ht, hoid⟩⟩
    · exact .inr (.inl ⟨⟨err, by rw [Step.run, h]; rfl⟩, hne, hno⟩)
    · exact .inr (.inr ⟨by rw [Step.run, h]; rfl, fun hne => hne rfl⟩)
  | field ref =>
    cases ref with
    | null => exact .inr (.inr ⟨rfl, fun hne => hne rfl⟩)
    | i31 | other | externref => exact .inl ⟨rfl, nofun, nofun, nofun⟩
  | raise err => exact .inr (.inl ⟨⟨err, rfl⟩, trivial, id⟩)
  | work =>
    cases h : inp.fails k with
    | none => exact .inl ⟨by rw [Step.run, h], trivial, h, trivial⟩
    | some err =>
      refine .inr (.inl ⟨⟨err, by rw [Step.run, h]; rfl⟩, trivial, ?_⟩)
      simp [Step.Passes, h]
  | newObj =>
    by_cases h : inp.room k = true
    · exact .inl ⟨if_pos h, h, h, trivial⟩
    · exact .inr (.inr ⟨if_neg h, h⟩)

theorem contained_cons_iff : Contained inp k (step :: steps) ↔
    step.Safe inp k ∧ (step.Passes inp k → Contained inp (k + 1) steps) := by
  rcases step_cases inp k step with ⟨h, hs, hp, hw⟩ | ⟨⟨err, h⟩, hs, hp⟩ | ⟨h, hs⟩
  · have hrun : run inp k (step :: steps) = run inp (k + 1) steps := by
      rw [run, h]
      rfl
    rw [and_iff_right hs, forall_prop_of_true hp]
    unfold Contained
    rw [hrun, List.forall_mem_cons, and_iff_right hw]
  · have hrun : run inp k (step :: steps) = .error (.raised err) := by
      rw [run, h]
      rfl
    exact iff_of_true (.inl ⟨err, hrun⟩) ⟨hs, fun h => absurd h hp⟩
  · have hrun : run inp k (step :: steps) = .error .nullRead := by
      rw [run, h]
      rfl
    refine iff_of_false ?_ fun h => hs h.1
    rintro (⟨err, hno⟩ | ⟨hno, -⟩)
    · cases hrun.symm.trans hno
    · cases hrun.symm.trans hno

/-- **Steps are contained** exactly if none that is come to uses null. -/
theorem contained_steps_iff : Contained inp k steps ↔ NullFree inp k steps := by
  induction steps generalizing k with
  | nil => exact iff_of_true (.inr ⟨rfl, fun _ h => absurd h List.not_mem_nil⟩) trivial
  | cons step steps ih => rw [contained_cons_iff, NullFree, ih]

/-- The order of the steps does not matter where no reference is null. -/
theorem nullFree_of_safe (h : ∀ k, ∀ step ∈ steps, step.Safe inp k) : NullFree inp k steps := by
  induction steps generalizing k with
  | nil => exact trivial
  | cons step steps ih =>
    exact ⟨h k step List.mem_cons_self, fun _ => ih fun k s hs => h k s (List.mem_cons_of_mem _ hs)⟩

/-! ## The natives -/

/-- `wasm_text_copy_cstring` -/
def wasmTextCopyCstring (refobj : Ref) : List Step := [.datum refobj textOid, .work]

/-- `sb_ensure_string_info` -/
def sbEnsureStringInfo (refobj : Ref) : List Step := [.obj refobj .stringInfo, .work]

/-- A callback of the HTTP parser: it hands a part of the buffer to the guest, or only calls it.
    `clears` tells whether the guest code calls `llhttp_execute` or `llhttp_finish`, which leave
    `current_buf` null. -/
inductive HttpCallback where
  | data (clears : Bool)
  | notify (clears : Bool)

/-- `llhttp_data_cb_impl` and `llhttp_cb_impl`, one after the other. -/
def httpCallbacks (currentBuf : Ref) : List HttpCallback → List Step
  | [] => []
  | .data clears :: callbacks => .datum currentBuf byteaOid :: .newObj :: .work ::
      httpCallbacks (if clears then .null else currentBuf) callbacks
  | .notify clears :: callbacks => .work ::
      httpCallbacks (if clears then .null else currentBuf) callbacks

/-- The calls of the guest from a JSON value: some with a new text. -/
def jsonCallbacks (callbacks : List Bool) : List Step :=
  callbacks.flatMap fun withText => if withText then [.work, .newObj, .work] else [.work]

/-! ## Queries -/

section
variable {pg : Postgres}

/-- The fields of a query struct that natives read: the arguments, null or a struct, and the box for
    the result. -/
structure QueryStruct where
  args : Option (ℕ → Ref)
  box : Ref

/-- What the natives find in the `Context`. -/
structure Context (pg : Postgres) where
  plans : List (QueryPlan pg)
  /-- `SPI_is_cursor_plan` -/
  isCursorPlan : pg.Plan → Bool
  /-- null until `get_queries` has returned -/
  queries : Option (ℕ → QueryStruct)
  /-- what the local reference of a tuple refers to -/
  tuptableOf : Obj → Ref

def Context.plan? (ctx : Context pg) (idx : ℤ) : Option (QueryPlan pg) :=
  if 0 ≤ idx then ctx.plans[idx.toNat]? else none

/-- A field of the arguments. -/
def argField (args : Option (ℕ → Ref)) (i : ℕ) : Ref :=
  match args with
  | none => .null
  | some fields => fields i

/-- A converter of arguments; scalars are no references. -/
def convertArg (fn : Option WasmToPg) (value : Ref) (oid : Oid) : List Step :=
  match fn with
  | some .externrefToDatumObj => [.datum value oid]
  | some .i32ArrayToPgInt2Array | some .i32ArrayToPgInt4Array => [.field value, .work]
  | _ => []

/-- The query struct is read, which is not null, and then the arguments, one after the other. -/
def queryArgs (ctx : Context pg) (plan : QueryPlan pg) (idx : ℕ) : List Step :=
  match ctx.queries with
  | none => [.field .null]
  | some queries => .field .other :: .field .other :: (List.range plan.nargs).flatMap fun i =>
      .field (structRef (queries idx).args) ::
        convertArg plan.wasmToPgFuncs[i]?.join (argField (queries idx).args i)
          (plan.argtypes[i]?.getD 0)

def envExecuteStatement (ctx : Context pg) (idx : ℤ) : List Step :=
  match ctx.plan? idx with
  | none => [.raise ("no such query: #" ++ toString idx)]
  | some plan => queryArgs ctx plan idx.toNat ++ [.work]

def envCursorOpen (ctx : Context pg) (idx : ℤ) : List Step :=
  match ctx.plan? idx with
  | none => [.raise ("no such query: #" ++ toString idx)]
  | some plan =>
    if ctx.isCursorPlan plan.plan then queryArgs ctx plan idx.toNat ++ [.work, .newObj]
    else [.raise "not a cursor plan"]

/-- A converter of columns; an array that is not empty is made behind its struct. -/
def convertColumn (fn : Option PgToWasm) (elems : Bool) : List Step :=
  match fn with
  | some .datumToWasmObj => [.work, .newObj]
  | some .int2ArrayToWasmI32Array | some .int4ArrayToWasmI32Array =>
    if elems then [.work, .newObj, .newObj] else [.work, .newObj]
  | _ => []

/-- The row is stored in the box of the query, and then filled.  Without memory it is null. -/
def lowerRow (ctx : Context pg) (plan : QueryPlan pg) (idx : ℕ) (retRoom : Bool)
    (elems : ℕ → Bool) : List Step :=
  match ctx.queries with
  | none => [.field .null]
  | some queries =>
    .field .other :: .field .other :: .field (queries idx).box ::
      (List.range plan.nattrs).flatMap fun i =>
        convertColumn plan.pgToWasmFuncs[i]?.join (elems i) ++
          [.field (if retRoom then .other else .null)]

/-- The index that the table of tuples has for its query. -/
def queryIdx (o : Obj) : ℕ :=
  match o.body with
  | .tupleTable _ queryIdx => queryIdx
  | _ => 0

def envTupleLower (ctx : Context pg) (tupleRef : Ref) (retRoom : Bool) (elems : ℕ → Bool) :
    List Step :=
  .obj tupleRef .heapTuple :: match tupleRef.host? with
    | none => []
    | some obj => .obj (ctx.tuptableOf obj) .tupleTable :: match (ctx.tuptableOf obj).host? with
      | none => []
      | some tuptableObj => match ctx.plans[queryIdx tuptableObj]? with
        | none => []
        | some plan =>
          if plan.nattrs = 0 then [.raise "no attributes in the tuple"]
          else lowerRow ctx plan (queryIdx tuptableObj) retRoom elems

end

/-! ## All natives -/

/-- A call of a native that is passed or reads references, with what its steps depend on. -/
inductive NativeCall (pg : Postgres) where
  -- `bytea.c`
  | bytesDecode (refobj encodingRef : Ref)
  | rstTextEncode (refobj encodingRef : Ref)
  | rstByteaOut (refobj : Ref)
  | rstByteaeq (refobj1 refobj2 : Ref)
  | rstByteaoctetlen (refobj : Ref)
  | rstByteaSubstr (refobj : Ref)
  -- `timestamp.c`
  | rslTimestampIn (refobj : Ref)
  | rslTimestampPlInterval (interval : Ref)
  | rslTimestampMiInterval (interval : Ref)
  | rstIntervalIn (refobj : Ref)
  | rstIntervalOut (refobj : Ref)
  | rstIntervalPl (refobj1 refobj2 : Ref)
  | rstIntervalMi (refobj1 refobj2 : Ref)
  | rslIntervalMul (refobj : Ref)
  | rslIntervalDiv (refobj : Ref)
  -- `uuid.c`
  | rslUuidIn (refobj : Ref)
  | rslUuidOut (refobj : Ref)
  | rslUuidCmp (refobj1 refobj2 : Ref)
  -- `date.c`
  | rstDateIn (refobj : Ref)
  | rstTimeIn (refobj : Ref)
  -- `json.c`
  | rslJsonIn (refobj : Ref)
  | rslJsonOut (refobj : Ref)
  -- `jsonb.c`
  | rslJsonbIn (refobj : Ref)
  | rslJsonbOut (refobj : Ref)
  | jsonbValueToJsonb (refobj : Ref)
  | jsonbValueNewString (str : Ref)
  | jsonbValueArraySet (array member : Ref)
  | jsonbValueObjectSet (object key value : Ref)
  | rstJsonParse (buf : Ref) (callbacks : List Bool)
  | rstJsonbIterate (jsonb : Ref) (callbacks : List Bool)
  -- `primitives.c`
  | rslInt4in (refobj : Ref)
  | rslInt8in (refobj : Ref)
  | rstFloat4in (refobj : Ref)
  | rstFloat8in (refobj : Ref)
  | rstParseBool (refobj : Ref)
  -- `stringbuilder.c`
  | sbReadText (ref : Ref)
  | sbMblength (refobj : Ref)
  | sbWriteString (refobj str : Ref)
  | sbWriteSubstring (refobj str : Ref)
  | sbWriteChar (refobj : Ref)
  | sbWriteBytes (refobj bytes : Ref)
  | sbWriteByte (refobj : Ref)
  | sbToString (refobj : Ref)
  | sbToBytes (refobj : Ref)
  | sbReadChar (refobj : Ref)
  -- `text.c`
  | rstTextlen (ref : Ref)
  | rstTextget (ref : Ref)
  | rstTexteq (x y : Ref)
  | rstTextcat (x y : Ref)
  | rstTextSubstr (obj : Ref)
  | utf16Length (obj : Ref)
  | utf16CharCodeAt (ref : Ref)
  | consoleLog (obj : Ref)
  -- `clock.c`
  | monotonicNanosSince (ref : Ref)
  -- `wamr.c`: whether there is a `tid_map`, which holds ids
  | envTidToOid (mapped : Bool) (obj : Ref)
  | envEreport (ref : Ref)
  -- `worker.c`
  | envRecv (refobj : Ref)
  | envSend (refobj : Ref)
  | envLlhttpExecute (buf : Ref) (callbacks : List HttpCallback) (onError : Bool)
  | envLlhttpGetErrorPos (buf : Ref)
  | envSqlBackdoor (refobj : Ref)
  -- `query.c`
  | envExecuteStatement (ctx : Context pg) (idx : ℤ)
  | envCursorOpen (ctx : Context pg) (idx : ℤ)
  | envCursorFetch (cursorRef : Ref)
  | envCursorFetchAll (cursorRef : Ref)
  | envCursorClose (cursorRef : Ref)
  | envTupleTableLen (tuptableRef : Ref)
  | envTupleTableGet (tuptableRef : Ref)
  | envTupleLower (ctx : Context pg) (tupleRef : Ref) (retRoom : Bool) (elems : ℕ → Bool)

/-- What a native does in a block with `PG_CATCH`, and what it does after it. -/
structure NativeSteps where
  caught : List Step := []
  steps : List Step

/-- `pg*_in` and the like: a text is copied and parsed. -/
def parseText (refobj : Ref) : List Step := wasmTextCopyCstring refobj ++ [.work]

variable {pg : Postgres}

def NativeCall.native : NativeCall pg → NativeSteps
  | .bytesDecode refobj encodingRef =>
    { steps := wasmTextCopyCstring encodingRef ++
        [.work, .datum refobj byteaOid, .work, .newObj] }
  | .rstTextEncode refobj encodingRef =>
    { steps := wasmTextCopyCstring encodingRef ++
        [.work, .datum refobj textOid, .work, .newObj] }
  | .rstByteaOut refobj => { steps := [.datum refobj byteaOid, .work, .newObj] }
  | .rstByteaeq refobj1 refobj2 =>
    { steps := [.datum refobj1 byteaOid, .datum refobj2 byteaOid, .work] }
  | .rstByteaoctetlen refobj => { steps := [.datum refobj byteaOid, .work] }
  | .rstByteaSubstr refobj => { steps := [.datum refobj byteaOid, .work, .newObj] }
  | .rslTimestampIn refobj => { steps := parseText refobj }
  | .rslTimestampPlInterval interval => { steps := [.datum interval intervalOid, .work] }
  | .rslTimestampMiInterval interval => { steps := [.datum interval intervalOid, .work] }
  | .rstIntervalIn refobj => { steps := parseText refobj ++ [.newObj] }
  | .rstIntervalOut refobj => { steps := [.datum refobj intervalOid, .work, .newObj] }
  | .rstIntervalPl refobj1 refobj2 =>
    { steps := [.datum refobj1 intervalOid, .datum refobj2 intervalOid, .work, .newObj] }
  | .rstIntervalMi refobj1 refobj2 =>
    { steps := [.datum refobj1 intervalOid, .datum refobj2 intervalOid, .work, .newObj] }
  | .rslIntervalMul refobj => { steps := [.datum refobj intervalOid, .work, .newObj] }
  | .rslIntervalDiv refobj => { steps := [.datum refobj intervalOid, .work, .newObj] }
  | .rslUuidIn refobj => { steps := parseText refobj ++ [.newObj] }
  | .rslUuidOut refobj => { steps := [.datum refobj uuidOid, .work, .newObj] }
  | .rslUuidCmp refobj1 refobj2 =>
    { steps := [.datum refobj1 uuidOid, .datum refobj2 uuidOid, .work] }
  | .rstDateIn refobj => { steps := parseText refobj }
  | .rstTimeIn refobj => { steps := parseText refobj }
  | .rslJsonIn refobj => { steps := [.datum refobj textOid, .work, .newObj] }
  | .rslJsonOut refobj => { steps := [.datum refobj jsonOid, .work, .newObj] }
  | .rslJsonbIn refobj => { steps := parseText refobj ++ [.newObj] }
  | .rslJsonbOut refobj => { steps := [.datum refobj jsonbOid, .work, .newObj] }
  | .jsonbValueToJsonb refobj => { steps := [.obj refobj .jsonbValue, .work, .newObj] }
  | .jsonbValueNewString str => { steps := [.datum str textOid, .work, .newObj] }
  | .jsonbValueArraySet array member =>
    { steps := [.obj array .jsonbValue, .obj member .jsonbValue, .work] }
  | .jsonbValueObjectSet object key value =>
    { steps := [.obj object .jsonbValue, .obj key .jsonbValue, .obj value .jsonbValue, .work] }
  | .rstJsonParse buf callbacks =>
    { steps := .datum buf byteaOid :: .work :: jsonCallbacks callbacks }
  | .rstJsonbIterate jsonb callbacks =>
    { steps := .datum jsonb jsonbOid :: .work :: jsonCallbacks callbacks }
  | .rslInt4in refobj => { steps := parseText refobj }
  | .rslInt8in refobj => { steps := parseText refobj }
  | .rstFloat4in refobj => { steps := parseText refobj }
  | .rstFloat8in refobj => { steps := parseText refobj }
  | .rstParseBool refobj => { steps := parseText refobj }
  | .sbReadText ref => { steps := [.datum ref textOid, .work, .newObj] }
  | .sbMblength refobj => { steps := sbEnsureStringInfo refobj }
  | .sbWriteString refobj str =>
    { steps := sbEnsureStringInfo refobj ++ [.datum str textOid, .work] }
  | .sbWriteSubstring refobj str =>
    { steps := sbEnsureStringInfo refobj ++ [.datum str textOid, .work] }
  | .sbWriteChar refobj => { steps := sbEnsureStringInfo refobj ++ [.work] }
  | .sbWriteBytes refobj bytes =>
    { steps := sbEnsureStringInfo refobj ++ [.datum bytes byteaOid, .work] }
  | .sbWriteByte refobj => { steps := sbEnsureStringInfo refobj ++ [.work] }
  | .sbToString refobj => { steps := sbEnsureStringInfo refobj ++ [.work, .newObj] }
  | .sbToBytes refobj => { steps := sbEnsureStringInfo refobj ++ [.work, .newObj] }
  | .sbReadChar refobj => { steps := sbEnsureStringInfo refobj ++ [.work] }
  | .rstTextlen ref => { steps := [.datum ref textOid, .work] }
  | .rstTextget ref => { steps := [.datum ref textOid, .work] }
  | .rstTexteq x y => { steps := [.datum x textOid, .datum y textOid, .work] }
  | .rstTextcat x y => { steps := [.datum x textOid, .datum y textOid, .work, .newObj] }
  | .rstTextSubstr obj => { steps := [.datum obj textOid, .work, .newObj] }
  | .utf16Length obj => { steps := [.datum obj textOid, .work] }
  | .utf16CharCodeAt ref => { steps := [.datum ref textOid, .work] }
  | .consoleLog obj => { steps := [.datum obj textOid, .work] }
  | .monotonicNanosSince ref => { steps := [.obj ref .clockMonotonic] }
  | .envTidToOid mapped obj => { steps := if mapped then [.datum obj uuidOid] else [] }
  | .envEreport ref => { steps := [.datum ref textOid, .work] }
  | .envRecv refobj => { steps := [.datum refobj byteaOid, .work] }
  | .envSend refobj => { steps := [.datum refobj byteaOid, .work] }
  | .envLlhttpExecute buf callbacks onError =>
    { steps := .datum buf byteaOid :: (httpCallbacks buf callbacks ++
        if onError then [.work, .newObj, .work] else []) }
  | .envLlhttpGetErrorPos buf => { steps := [.datum buf byteaOid] }
  | .envSqlBackdoor refobj => { caught := [.datum refobj byteaOid, .work], steps := [.work, .newObj] }
  | .envExecuteStatement ctx idx => { steps := Nulls.envExecuteStatement ctx idx }
  | .envCursorOpen ctx idx => { steps := Nulls.envCursorOpen ctx idx }
  | .envCursorFetch cursorRef => { steps := [.obj cursorRef .portal, .work, .newObj] }
  | .envCursorFetchAll cursorRef => { steps := [.obj cursorRef .portal, .work, .newObj] }
  | .envCursorClose cursorRef => { steps := [.obj cursorRef .portal, .work] }
  | .envTupleTableLen tuptableRef => { steps := [.obj tuptableRef .tupleTable] }
  | .envTupleTableGet tuptableRef => { steps := [.obj tuptableRef .tupleTable, .work, .newObj] }
  | .envTupleLower ctx tupleRef retRoom elems =>
    { steps := Nulls.envTupleLower ctx tupleRef retRoom elems }

/-! ## Null references are contained -/

/-- The whole call. -/
def NativeCall.run (inp : Inputs) (c : NativeCall pg) : Access Unit :=
  match Nulls.run inp 0 c.native.caught with
  | .error .nullRead => .error .nullRead
  | _ => Nulls.run inp c.native.caught.length c.native.steps

/-- Nothing is read through null: the call raises an error or has worked on what it asked for, and so
    has the block whose errors are caught. -/
def NativeCall.Contained (inp : Inputs) (c : NativeCall pg) : Prop :=
  Nulls.Contained inp 0 c.native.caught ∧
    ((∃ err, c.run inp = .error (.raised err)) ∨
      (c.run inp = .ok () ∧ ∀ step ∈ c.native.steps, step.Works))

/-- No step that the call comes to uses null, neither a reference nor a new object. -/
def NativeCall.NullFree (inp : Inputs) (c : NativeCall pg) : Prop :=
  Nulls.NullFree inp 0 c.native.caught ∧
    Nulls.NullFree inp c.native.caught.length c.native.steps

/-- **Null references are contained** exactly in the calls that come to none. -/
theorem contained_iff (inp : Inputs) (c : NativeCall pg) : c.Contained inp ↔ c.NullFree inp := by
  unfold NativeCall.Contained NativeCall.NullFree
  rw [← contained_steps_iff, ← contained_steps_iff]
  refine and_congr_right fun hcaught => ?_
  have hrun : c.run inp = Nulls.run inp c.native.caught.length c.native.steps := by
    unfold NativeCall.run
    rcases hcaught with ⟨err, h⟩ | ⟨h, -⟩
    · rw [h]
    · rw [h]
  rw [hrun]
  rfl

/-- Without null, and with memory, a call is contained in whatever order it comes to its steps. -/
theorem contained_of_safe {inp : Inputs} {c : NativeCall pg}
    (h : ∀ k, ∀ step ∈ c.native.caught ++ c.native.steps, step.Safe inp k) : c.Contained inp := by
  refine (contained_iff inp c).2 ⟨nullFree_of_safe ?_, nullFree_of_safe ?_⟩
  · exact fun k step hs => h k step (List.mem_append_left _ hs)
  · exact fun k step hs => h k step (List.mem_append_right _ hs)

/-- A query with arguments reads them through null where there are none. -/
theorem null_args_read {inp : Inputs} {ctx : Context pg} {idx : ℤ} {plan : QueryPlan pg}
    {queries : ℕ → QueryStruct} (hplan : ctx.plan? idx = some plan) (hnargs : 0 < plan.nargs)
    (hqueries : ctx.queries = some queries) (hargs : (queries idx.toNat).args = none) :
    ¬ (NativeCall.envExecuteStatement ctx idx).Contained inp := by
  rw [contained_iff]
  rintro ⟨-, h⟩
  obtain ⟨n, hn⟩ := Nat.exists_eq_succ_of_ne_zero hnargs.ne'
  have hsteps : ∃ steps, (NativeCall.envExecuteStatement ctx idx).native.steps =
      .field .other :: .field .other :: .field .null :: steps := by
    simp [NativeCall.native, Nulls.envExecuteStatement, hplan, queryArgs, hqueries, hargs,
      structRef, hn, List.range_succ_eq_map]
  obtain ⟨steps, hsteps⟩ := hsteps
  rw [hsteps] at h
  exact ((h.2 nofun).2 nofun).1 rfl

/-- A call with a null text. -/
def nullText : NativeCall (selectPostgres []) := .rstTextlen .null

theorem null_text_reads : ¬ nullText.Contained ⟨fun _ => none, fun _ => true⟩ := by
  rintro ⟨-, ⟨err, h⟩ | ⟨h, -⟩⟩
  · cases h
  · cases h

end Rustica.Nulls
