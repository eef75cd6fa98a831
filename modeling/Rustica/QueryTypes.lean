/-
  Which types of a query are accepted, and where the type section of the module is looked at.

  The checks of `Rustica.Compile` take the type table to go on without an end on both sides.  Here
  they are given with the indexes that they look up, and compute the same (`result_checkQueryType`).
  The type section has `count` types, those with the indexes from 0 to `count - 1`; an abstract heap
  type is a negative number.

  * `IsQuery` says what the type of a query is, in terms of the type section alone.
  * `query_types_exact_iff`: the checks stay within the type section, and accept exactly the types of
    queries, if and only if the references that they come to are to defined types.
  * `IsQuery.followed`: in the type of a query all of them are.
-/
import Rustica.Agreement
import Rustica.Lib.Looked

namespace Rustica.QueryTypes

open Looked

/-- A check, with the indexes of the types it looks up. -/
abbrev Check := Looked ℤ CompileError

/-! ## The checks -/

section
variable (mod : WasmModule)

/-- `wasm_get_defined_type` -/
def getDefinedType (i : ℤ) : Check WasmType := look mod.types i

def getReferredStruct (t : RefType) (nullable : Bool) : Check (Option (List RefType)) :=
  if t.isRef nullable then do
    match ← getDefinedType mod t.heapType.toInt with
    | .struct fields => return some fields
    | _ => return none
  else return none

def getReferredArray (t : RefType) (nullable : Bool) : Check (Option RefType) :=
  if t.isRef nullable then do
    match ← getDefinedType mod t.heapType.toInt with
    | .array elem => return some elem
    | _ => return none
  else return none

/-- `validate_moonbit_array`; the type of the elements. -/
def checkMoonbitArray (t : RefType) (nullable : Bool) : Check (Option RefType) := do
  match ← getReferredStruct mod t nullable with
  | some [arr, len] => do
    match ← getReferredArray mod arr false with
    | some elem => if len.valueType = valueTypeI32 then return some elem else return none
    | none => return none
  | _ => return none

/-- The type of the arguments, or of the result. -/
def checkUnitOrStruct (t : RefType) (text : String) : Check (List RefType) :=
  if t.valueType = valueTypeI32 then return []
  else do
    match ← getReferredStruct mod t true with
    | some fields => return fields
    | none => fail (.ereport text)

/-- The forth field. -/
def checkArgs (t : RefType) (attrs : QueryAttrs) : Check QueryAttrs := do
  let args ← checkUnitOrStruct mod t "forth field of Query must be a nullable struct or Unit"
  if 65535 < args.length then fail (.ereport "too many arguments (max: 65535)")
  else return (attrs.set 3 (.int8 t.toInt64)).set 5 (.int8s (args.map RefType.toInt64))

/-- The fifth field. -/
def checkResult (t : RefType) (attrs : QueryAttrs) : Check QueryAttrs := do
  match ← getReferredStruct mod t false with
  | none => fail (.ereport "fifth field of Query must be a result box")
  | some [ret] => do
    let fields ← checkUnitOrStruct mod ret
      "fifth field of Query must be a box of nullable struct or Unit"
    return (attrs.set 7 (.int8s [ret.toInt64])).set 9 (.int8s (fields.map RefType.toInt64))
  | some _ => fail (.ereport "the result box must have exactly 1 field")

/-- `compile_query_type` -/
def checkQueryType (t : RefType) (attrs : QueryAttrs) : Check QueryAttrs := do
  match ← getReferredStruct mod t false with
  | none => fail (.ereport "Query must be a non-nullable struct")
  | some (index :: sql :: oids :: args :: box :: _) =>
    if index.valueType ≠ valueTypeI64 ∧ index.valueType ≠ valueTypeI32 then
      fail (.ereport "first field of Query must be an integer")
    else if ¬ isRefExtern sql then fail (.ereport "second field of Query must be bytes")
    else do
      match ← checkMoonbitArray mod oids false with
      | none => fail (.ereport "third field of Query must be an array")
      | some elem =>
        if elem.valueType ≠ valueTypeI32 then
          fail (.ereport "third field of Query must be an array of i32")
        else do
          let attrs ← checkArgs mod args attrs
          checkResult mod box attrs
  | some _ => fail (.ereport "Query must have at least 5 fields")

end

/-! ## The types of queries -/

/-- The index of a type in the type section. -/
def InSection (count : ℕ) (i : ℤ) : Prop := 0 ≤ i ∧ i < count

section
variable (mod : WasmModule) (count : ℕ)

/-- A reference to this type of the type section. -/
def RefersTo (t : RefType) (nullable : Bool) (ty : WasmType) : Prop :=
  t.isRef nullable = true ∧ InSection count t.heapType.toInt ∧ mod.types t.heapType.toInt = ty

/-- A reference to a struct of an array and its length. -/
def IsMoonbitArray (t : RefType) (nullable : Bool) (elem : RefType) : Prop :=
  ∃ arr len, RefersTo mod count t nullable (.struct [arr, len]) ∧
    RefersTo mod count arr false (.array elem) ∧ len.valueType = valueTypeI32

/-- An `i32` for the Unit, or a nullable reference to a struct with these fields. -/
inductive IsUnitOrStruct (t : RefType) : List RefType → Prop
  | unit : t.valueType = valueTypeI32 → IsUnitOrStruct t []
  | struct {fields : List RefType} : RefersTo mod count t true (.struct fields) →
    IsUnitOrStruct t fields

/-- The types of the arguments and of the result, with those of their fields. -/
structure QueryData where
  argsType : RefType
  args : List RefType
  ret : RefType
  fields : List RefType

/-- The type of a query with these arguments and this result. -/
inductive IsQuery : RefType → QueryData → Prop
  | mk {t index sql oids box elem : RefType} {rest : List RefType} {d : QueryData}
    (query : RefersTo mod count t false
      (.struct (index :: sql :: oids :: d.argsType :: box :: rest)))
    (index : index.valueType = valueTypeI64 ∨ index.valueType = valueTypeI32)
    (sql : isRefExtern sql = true)
    (oids : IsMoonbitArray mod count oids false elem) (elem : elem.valueType = valueTypeI32)
    (args : IsUnitOrStruct mod count d.argsType d.args) (args_le : d.args.length ≤ 65535)
    (box : RefersTo mod count box false (.struct [d.ret]))
    (ret : IsUnitOrStruct mod count d.ret d.fields) : IsQuery t d

/-- What is recorded of it. -/
def QueryData.record (d : QueryData) (attrs : QueryAttrs) : QueryAttrs :=
  (((attrs.set 3 (.int8 d.argsType.toInt64)).set 5 (.int8s (d.args.map RefType.toInt64))).set 7
    (.int8s [d.ret.toInt64])).set 9 (.int8s (d.fields.map RefType.toInt64))

/-! ## The references that are followed -/

/-- The checks come to the third field. -/
def ComesToOids (t oids args box : RefType) : Prop :=
  ∃ index sql rest, referredStruct mod t false = some (index :: sql :: oids :: args :: box :: rest) ∧
    (index.valueType = valueTypeI64 ∨ index.valueType = valueTypeI32) ∧ isRefExtern sql = true

/-- The checks come to the forth field. -/
def ComesToArgs (t oids args box : RefType) : Prop :=
  ComesToOids mod t oids args box ∧
    ∃ elem, validateMoonbitArray mod oids = some elem ∧ elem.valueType = valueTypeI32

/-- The checks come to the fifth field. -/
def ComesToBox (t oids args box : RefType) : Prop :=
  ComesToArgs mod t oids args box ∧ (args.valueType = valueTypeI32 ∨
    ∃ fields, referredStruct mod args true = some fields ∧ fields.length ≤ 65535)

/-- A reference that is followed is to a type of the type section. -/
def Followed (t : RefType) (nullable : Bool) : Prop :=
  t.isRef nullable = true → InSection count t.heapType.toInt

/-- In a MoonBit array. -/
structure ArrayFollowed (t : RefType) (nullable : Bool) : Prop where
  array : Followed count t nullable
  buf : ∀ arr len, referredStruct mod t nullable = some [arr, len] → Followed count arr false

/-- In the type of a query. -/
structure QueryFollowed (t : RefType) : Prop where
  query : Followed count t false
  oids : ∀ oids args box, ComesToOids mod t oids args box → ArrayFollowed mod count oids false
  args : ∀ oids args box, ComesToArgs mod t oids args box → Followed count args true
  box : ∀ oids args box, ComesToBox mod t oids args box → Followed count box false
  ret : ∀ oids args box ret, ComesToBox mod t oids args box →
    referredStruct mod box false = some [ret] → Followed count ret true

end

variable {mod : WasmModule} {count : ℕ} {t : RefType} {nullable : Bool} {attrs : QueryAttrs}
  {S : ℤ → Prop}

/-! ## They compute what the compiler computes -/

@[simp] theorem result_getReferredStruct :
    (getReferredStruct mod t nullable).result = .ok (referredStruct mod t nullable) := by
  unfold getReferredStruct referredStruct getDefinedType
  split_ifs
  · rw [result_bind_ok (result_look mod.types _)]
    cases mod.types t.heapType.toInt <;> rfl
  · rfl

@[simp] theorem result_getReferredArray :
    (getReferredArray mod t nullable).result = .ok (referredArray mod t nullable) := by
  unfold getReferredArray referredArray getDefinedType
  split_ifs
  · rw [result_bind_ok (result_look mod.types _)]
    cases mod.types t.heapType.toInt <;> rfl
  · rfl

theorem result_checkUnitOrStruct (text : String) :
    (checkUnitOrStruct mod t text).result = unitOrStruct mod t text := by
  unfold checkUnitOrStruct unitOrStruct
  split_ifs
  · rfl
  · rw [result_bind_ok result_getReferredStruct]
    cases referredStruct mod t true <;> rfl

theorem result_checkArgs : (checkArgs mod t attrs).result = compileArgs mod t attrs := by
  unfold checkArgs compileArgs
  rw [result_bind, result_checkUnitOrStruct]
  congr 1
  funext args
  split_ifs <;> rfl

theorem result_checkResult : (checkResult mod t attrs).result = compileResult mod t attrs := by
  unfold checkResult compileResult
  rw [result_bind_ok result_getReferredStruct]
  rcases referredStruct mod t false with _ | _ | ⟨ret, _ | ⟨_, _⟩⟩
  · rfl
  · rfl
  · dsimp only
    rw [result_bind, result_checkUnitOrStruct]
    rfl
  · rfl

theorem result_checkMoonbitArray :
    (checkMoonbitArray mod t false).result = .ok (validateMoonbitArray mod t) := by
  unfold checkMoonbitArray validateMoonbitArray
  rw [result_bind_ok result_getReferredStruct]
  rcases referredStruct mod t false with _ | _ | ⟨arr, _ | ⟨len, _ | ⟨_, _⟩⟩⟩
  · rfl
  · rfl
  · rfl
  · dsimp only
    rw [result_bind_ok result_getReferredArray]
    cases referredArray mod arr false
    · rfl
    · dsimp only
      split_ifs <;> rfl
  · rfl

theorem result_checkQueryType :
    (checkQueryType mod t attrs).result = compileQueryType mod t attrs := by
  unfold checkQueryType compileQueryType
  rw [result_bind_ok result_getReferredStruct]
  rcases referredStruct mod t false with
    _ | _ | ⟨index, _ | ⟨sql, _ | ⟨oids, _ | ⟨args, _ | ⟨box, rest⟩⟩⟩⟩⟩
  · rfl
  · rfl
  · rfl
  · rfl
  · rfl
  · rfl
  · dsimp only
    split_ifs
    · rfl
    swap
    · rfl
    rw [result_bind_ok result_checkMoonbitArray]
    cases validateMoonbitArray mod oids with
    | none => rfl
    | some elem =>
      dsimp only
      split_ifs
      · rfl
      · rw [result_bind, result_checkArgs]
        simp only [result_checkResult]

/-! ## What they look up -/

theorem within_getReferredStruct :
    Within (InSection count) (getReferredStruct mod t nullable) ↔ Followed count t nullable := by
  unfold getReferredStruct getDefinedType
  split_ifs with h
  · rw [within_bind_ok (result_look mod.types _), within_look]
    refine (and_iff_left ?_).trans ⟨fun h' _ => h', fun h' => h' h⟩
    cases mod.types t.heapType.toInt <;> exact within_pure _
  · exact iff_of_true (within_pure _) fun h' => absurd h' h

theorem within_getReferredArray :
    Within (InSection count) (getReferredArray mod t nullable) ↔ Followed count t nullable := by
  unfold getReferredArray getDefinedType
  split_ifs with h
  · rw [within_bind_ok (result_look mod.types _), within_look]
    refine (and_iff_left ?_).trans ⟨fun h' _ => h', fun h' => h' h⟩
    cases mod.types t.heapType.toInt <;> exact within_pure _
  · exact iff_of_true (within_pure _) fun h' => absurd h' h

theorem within_checkMoonbitArray :
    Within (InSection count) (checkMoonbitArray mod t nullable) ↔
      ArrayFollowed mod count t nullable := by
  have hdef : ArrayFollowed mod count t nullable ↔ Followed count t nullable ∧ ∀ arr len,
      referredStruct mod t nullable = some [arr, len] → Followed count arr false :=
    ⟨fun h => ⟨h.array, h.buf⟩, fun h => ⟨h.1, h.2⟩⟩
  unfold checkMoonbitArray
  rw [hdef, within_bind_ok result_getReferredStruct, within_getReferredStruct]
  refine and_congr_right fun _ => ?_
  rcases referredStruct mod t nullable with _ | _ | ⟨arr, _ | ⟨len, _ | ⟨_, _⟩⟩⟩
  · simp
  · simp
  · simp
  · dsimp only
    rw [within_bind_ok result_getReferredArray, within_getReferredArray]
    have hrest : Within (InSection count) (match referredArray mod arr false with
        | some elem => if len.valueType = valueTypeI32 then pure (some elem) else pure none
        | none => pure none : Check (Option RefType)) := by
      cases referredArray mod arr false with
      | none => exact within_pure _
      | some elem => exact within_ite.2 ⟨fun _ => within_pure _, fun _ => within_pure _⟩
    simp [hrest]
  · simp

theorem not_isRef_i32 (h : t.valueType = valueTypeI32) : ¬ t.isRef nullable = true := by
  cases nullable <;> simp [RefType.isRef, h, valueTypeI32, valueTypeNullable, valueTypeNonNullable]

theorem within_checkUnitOrStruct {text : String} :
    Within (InSection count) (checkUnitOrStruct mod t text) ↔ Followed count t true := by
  unfold checkUnitOrStruct
  split_ifs with h
  · exact iff_of_true (within_pure _) fun h' => absurd h' (not_isRef_i32 h)
  · rw [within_bind_ok result_getReferredStruct, within_getReferredStruct]
    refine and_iff_left ?_
    cases referredStruct mod t true
    · exact within_fail _
    · exact within_pure _

theorem within_checkArgs :
    Within (InSection count) (checkArgs mod t attrs) ↔ Followed count t true := by
  unfold checkArgs
  rw [within_bind, within_checkUnitOrStruct]
  exact and_iff_left fun _ _ => within_ite.2 ⟨fun _ => within_fail _, fun _ => within_pure _⟩

theorem within_checkResult : Within (InSection count) (checkResult mod t attrs) ↔
    Followed count t false ∧
      ∀ ret, referredStruct mod t false = some [ret] → Followed count ret true := by
  unfold checkResult
  rw [within_bind_ok result_getReferredStruct, within_getReferredStruct]
  refine and_congr_right fun _ => ?_
  rcases referredStruct mod t false with _ | _ | ⟨ret, _ | ⟨_, _⟩⟩
  · simp
  · simp
  · dsimp only
    rw [within_bind, within_checkUnitOrStruct]
    simp
  · simp

theorem unitOrStruct_ok {text : String} {fields : List RefType} :
    unitOrStruct mod t text = .ok fields ↔
      (t.valueType = valueTypeI32 ∧ fields = []) ∨ referredStruct mod t true = some fields := by
  unfold unitOrStruct
  split_ifs with h
  · have hno : referredStruct mod t true ≠ some fields := by
      simp [referredStruct, not_isRef_i32 h]
    simp [h, hno, eq_comm]
  · cases referredStruct mod t true <;> simp [h, raise]

theorem compileArgs_eq_ok {attrs' : QueryAttrs} : compileArgs mod t attrs = .ok attrs' ↔
    ∃ args : List RefType, ((t.valueType = valueTypeI32 ∧ args = []) ∨
      referredStruct mod t true = some args) ∧ args.length ≤ 65535 ∧
      attrs' = (attrs.set 3 (.int8 t.toInt64)).set 5 (.int8s (args.map RefType.toInt64)) := by
  unfold compileArgs
  simp only [bind_eq_ok, unitOrStruct_ok]
  refine exists_congr fun args => and_congr_right fun _ => ?_
  split_ifs with h
  · simp [raise, h]
  · simp [pure, Except.pure, not_lt.1 h, eq_comm]

theorem compileArgs_accepts : (∃ attrs', compileArgs mod t attrs = .ok attrs') ↔
    (t.valueType = valueTypeI32 ∨
      ∃ fields, referredStruct mod t true = some fields ∧ fields.length ≤ 65535) := by
  simp only [compileArgs_eq_ok]
  constructor
  · rintro ⟨_, args, ⟨h, -⟩ | h, hle, -⟩
    · exact .inl h
    · exact .inr ⟨args, h, hle⟩
  · rintro (h | ⟨args, h, hle⟩)
    · exact ⟨_, [], .inl ⟨h, rfl⟩, Nat.zero_le _, rfl⟩
    · exact ⟨_, args, .inr h, hle, rfl⟩

theorem within_checkFields {index sql oids args box : RefType} {rest : List RefType}
    (ht : referredStruct mod t false = some (index :: sql :: oids :: args :: box :: rest))
    (hindex : index.valueType = valueTypeI64 ∨ index.valueType = valueTypeI32)
    (hsql : isRefExtern sql = true) :
    Within (InSection count) (checkQueryType mod t attrs) ↔ Followed count t false ∧
      ArrayFollowed mod count oids false ∧
      ∀ elem, validateMoonbitArray mod oids = some elem → elem.valueType = valueTypeI32 →
        Followed count args true ∧
        ((∃ attrs', compileArgs mod args attrs = .ok attrs') → Followed count box false ∧
          ∀ ret, referredStruct mod box false = some [ret] → Followed count ret true) := by
  unfold checkQueryType
  rw [within_bind_ok result_getReferredStruct, within_getReferredStruct, ht]
  dsimp only
  rw [if_neg (by tauto), if_neg (not_not.2 hsql), within_bind_ok result_checkMoonbitArray,
    within_checkMoonbitArray]
  refine and_congr_right fun _ => and_congr_right fun _ => ?_
  cases validateMoonbitArray mod oids with
  | none => exact iff_of_true (within_fail _) nofun
  | some elem =>
    dsimp only
    by_cases helem : elem.valueType = valueTypeI32
    · rw [if_neg (not_not.2 helem), within_bind, within_checkArgs, result_checkArgs]
      simp only [within_checkResult, Option.some.injEq, forall_eq', helem, forall_const,
        forall_exists_index]
    · rw [if_pos helem]
      refine iff_of_true (within_fail _) ?_
      rintro _ ⟨⟩ h
      exact absurd h helem

theorem ComesToOids.unique {index sql oids args box oids' args' box' : RefType}
    {rest : List RefType} (h : ComesToOids mod t oids' args' box')
    (ht : referredStruct mod t false = some (index :: sql :: oids :: args :: box :: rest)) :
    oids' = oids ∧ args' = args ∧ box' = box := by
  obtain ⟨index', sql', rest', ht', -, -⟩ := h
  rw [ht] at ht'
  simp only [Option.some.injEq, List.cons.injEq] at ht'
  exact ⟨ht'.2.2.1.symm, ht'.2.2.2.1.symm, ht'.2.2.2.2.1.symm⟩

theorem within_checkQueryType :
    Within (InSection count) (checkQueryType mod t attrs) ↔ QueryFollowed mod count t := by
  by_cases hcome : ∃ oids args box, ComesToOids mod t oids args box
  · obtain ⟨oids, args, box, index, sql, rest, ht, hindex, hsql⟩ := hcome
    rw [within_checkFields ht hindex hsql]
    constructor
    · rintro ⟨hquery, hoids, h⟩
      refine ⟨hquery, ?_, ?_, ?_, ?_⟩
      · intro oids' args' box' hc
        obtain ⟨rfl, rfl, rfl⟩ := hc.unique ht
        exact hoids
      · rintro oids' args' box' ⟨hc, elem, helem, h32⟩
        obtain ⟨rfl, rfl, rfl⟩ := hc.unique ht
        exact (h elem helem h32).1
      · rintro oids' args' box' ⟨⟨hc, elem, helem, h32⟩, hargs⟩
        obtain ⟨rfl, rfl, rfl⟩ := hc.unique ht
        exact ((h elem helem h32).2 (compileArgs_accepts.2 hargs)).1
      · rintro oids' args' box' ret ⟨⟨hc, elem, helem, h32⟩, hargs⟩ hret
        obtain ⟨rfl, rfl, rfl⟩ := hc.unique ht
        exact ((h elem helem h32).2 (compileArgs_accepts.2 hargs)).2 ret hret
    · intro h
      have hc : ComesToOids mod t oids args box := ⟨index, sql, rest, ht, hindex, hsql⟩
      refine ⟨h.query, h.oids _ _ _ hc, fun elem helem h32 => ?_⟩
      have hc' : ComesToArgs mod t oids args box := ⟨hc, elem, helem, h32⟩
      refine ⟨h.args _ _ _ hc', fun hargs => ?_⟩
      have hc'' : ComesToBox mod t oids args box := ⟨hc', compileArgs_accepts.1 hargs⟩
      exact ⟨h.box _ _ _ hc'', fun ret hret => h.ret _ _ _ ret hc'' hret⟩
  · have hshort : Within (InSection count) (checkQueryType mod t attrs) ↔
        Followed count t false := by
      unfold checkQueryType
      rw [within_bind_ok result_getReferredStruct, within_getReferredStruct]
      refine and_iff_left ?_
      rcases ht : referredStruct mod t false with
        _ | _ | ⟨index, _ | ⟨sql, _ | ⟨oids, _ | ⟨args, _ | ⟨box, rest⟩⟩⟩⟩⟩
      · exact within_fail _
      · exact within_fail _
      · exact within_fail _
      · exact within_fail _
      · exact within_fail _
      · exact within_fail _
      · dsimp only
        refine within_ite.2 ⟨fun _ => within_fail _, fun hindex => within_ite.2
          ⟨fun _ => within_fail _, fun hsql => absurd ?_ hcome⟩⟩
        exact ⟨oids, args, box, index, sql, rest, ht, by tauto, not_not.1 hsql⟩
    rw [hshort]
    constructor
    · intro h
      exact ⟨h, fun o a b hc => absurd ⟨o, a, b, hc⟩ hcome,
        fun o a b hc => absurd ⟨o, a, b, hc.1⟩ hcome, fun o a b hc => absurd ⟨o, a, b, hc.1.1⟩ hcome,
        fun o a b _ hc => absurd ⟨o, a, b, hc.1.1⟩ hcome⟩
    · exact fun h => h.query

/-! ## What they accept -/

theorem referredStruct_eq_some {fields : List RefType} :
    referredStruct mod t nullable = some fields ↔
      t.isRef nullable = true ∧ mod.types t.heapType.toInt = .struct fields := by
  unfold referredStruct
  split_ifs with h
  · cases mod.types t.heapType.toInt <;> simp [h]
  · simp [h]

theorem referredArray_eq_some {elem : RefType} : referredArray mod t nullable = some elem ↔
    t.isRef nullable = true ∧ mod.types t.heapType.toInt = .array elem := by
  unfold referredArray
  split_ifs with h
  · cases mod.types t.heapType.toInt <;> simp [h]
  · simp [h]

/-- A reference that is followed is found to be what it is in the type section. -/
theorem refersTo_struct {fields : List RefType} (h : Followed count t nullable) :
    RefersTo mod count t nullable (.struct fields) ↔
      referredStruct mod t nullable = some fields := by
  rw [RefersTo, referredStruct_eq_some]
  exact and_congr_right fun ht => and_iff_right (h ht)

theorem refersTo_array {elem : RefType} (h : Followed count t nullable) :
    RefersTo mod count t nullable (.array elem) ↔ referredArray mod t nullable = some elem := by
  rw [RefersTo, referredArray_eq_some]
  exact and_congr_right fun ht => and_iff_right (h ht)

theorem RefersTo.followed {ty : WasmType} (h : RefersTo mod count t nullable ty) :
    Followed count t nullable := fun _ => h.2.1

theorem RefersTo.struct {fields : List RefType}
    (h : RefersTo mod count t nullable (.struct fields)) :
    referredStruct mod t nullable = some fields := (refersTo_struct h.followed).1 h

theorem checkMoonbitArray_ok {elem : RefType} :
    (checkMoonbitArray mod t nullable).result = .ok (some elem) ↔
      ∃ arr len, referredStruct mod t nullable = some [arr, len] ∧
        referredArray mod arr false = some elem ∧ len.valueType = valueTypeI32 := by
  unfold checkMoonbitArray
  rw [result_bind_ok result_getReferredStruct]
  rcases referredStruct mod t nullable with _ | _ | ⟨arr, _ | ⟨len, _ | ⟨_, _⟩⟩⟩
  · simp
  · simp
  · simp
  · dsimp only
    rw [result_bind_ok result_getReferredArray]
    cases harr : referredArray mod arr false with
    | none => simp [harr]
    | some elem' => by_cases hlen : len.valueType = valueTypeI32 <;> simp [harr, hlen]
  · simp

theorem checkMoonbitArray_accepts {elem : RefType} (h : ArrayFollowed mod count t nullable) :
    (checkMoonbitArray mod t nullable).result = .ok (some elem) ↔
      IsMoonbitArray mod count t nullable elem := by
  rw [checkMoonbitArray_ok, IsMoonbitArray]
  refine exists_congr fun arr => exists_congr fun len => ?_
  rw [refersTo_struct h.array]
  exact and_congr_right fun ht => and_congr_left fun _ => (refersTo_array (h.buf arr len ht)).symm

theorem validateMoonbitArray_accepts {elem : RefType} (h : ArrayFollowed mod count t false) :
    validateMoonbitArray mod t = some elem ↔ IsMoonbitArray mod count t false elem := by
  rw [← checkMoonbitArray_accepts h, result_checkMoonbitArray, Except.ok.injEq]

theorem IsMoonbitArray.followed {elem : RefType} (h : IsMoonbitArray mod count t nullable elem) :
    ArrayFollowed mod count t nullable := by
  obtain ⟨arr, len, ht, harr, -⟩ := h
  refine ⟨ht.followed, fun arr' len' ht' => ?_⟩
  cases ht.struct.symm.trans ht'
  exact harr.followed

theorem isUnitOrStruct_iff {fields : List RefType} (h : Followed count t true) :
    IsUnitOrStruct mod count t fields ↔
      (t.valueType = valueTypeI32 ∧ fields = []) ∨ referredStruct mod t true = some fields := by
  rw [← refersTo_struct h]
  constructor
  · rintro (h32 | h)
    · exact .inl ⟨h32, rfl⟩
    · exact .inr h
  · rintro (⟨h32, rfl⟩ | h)
    · exact .unit h32
    · exact .struct h

theorem IsUnitOrStruct.followed {fields : List RefType} (h : IsUnitOrStruct mod count t fields) :
    Followed count t true := by
  cases h with
  | unit h32 => exact fun h => absurd h (not_isRef_i32 h32)
  | struct h => exact h.followed

theorem compileResult_eq_ok {row : QueryAttrs} : compileResult mod t attrs = .ok row ↔
    ∃ ret fields, referredStruct mod t false = some [ret] ∧
      unitOrStruct mod ret "fifth field of Query must be a box of nullable struct or Unit" =
        .ok fields ∧
      row = (attrs.set 7 (.int8s [ret.toInt64])).set 9 (.int8s (fields.map RefType.toInt64)) := by
  unfold compileResult
  rcases referredStruct mod t false with _ | _ | ⟨ret, _ | ⟨_, _⟩⟩
  · simp [raise]
  · simp [raise]
  · dsimp only
    rw [bind_eq_ok]
    constructor
    · rintro ⟨fields, h, hrow⟩
      exact ⟨ret, fields, rfl, h, (Except.ok.inj hrow).symm⟩
    · rintro ⟨_, fields, ⟨⟩, h, rfl⟩
      exact ⟨fields, h, rfl⟩
  · simp [raise]

theorem compileQueryType_eq_ok {row : QueryAttrs} : compileQueryType mod t attrs = .ok row ↔
    ∃ oids args box attrs', ComesToArgs mod t oids args box ∧
      compileArgs mod args attrs = .ok attrs' ∧ compileResult mod box attrs' = .ok row := by
  constructor
  · intro h
    unfold compileQueryType at h
    split at h
    · cases h
    · rename_i index sql oids args box rest ht
      split_ifs at h with hindex hsql
      · cases h
      swap
      · cases h
      split at h
      · cases h
      · rename_i elem helem
        split_ifs at h with h32
        · cases h
        obtain ⟨attrs', h1, h2⟩ := bind_eq_ok.1 h
        exact ⟨oids, args, box, attrs', ⟨⟨index, sql, rest, ht, by tauto, hsql⟩, elem, helem,
          not_not.1 h32⟩, h1, h2⟩
    · cases h
  · rintro ⟨oids, args, box, attrs', ⟨⟨index, sql, rest, ht, hindex, hsql⟩, elem, helem, h32⟩,
      h1, h2⟩
    unfold compileQueryType
    rw [ht]
    dsimp only
    rw [if_neg (by tauto), if_neg (not_not.2 hsql), helem]
    dsimp only
    rw [if_neg (not_not.2 h32), bind_eq_ok]
    exact ⟨attrs', h1, h2⟩

/-- The type of a query is checked without a look beyond the type section. -/
theorem IsQuery.followed {d : QueryData} (h : IsQuery mod count t d) :
    QueryFollowed mod count t := by
  obtain ⟨ht, -, -, hoids, -, hargs, -, hbox, hret⟩ := h
  refine ⟨ht.followed, ?_, ?_, ?_, ?_⟩
  · intro oids args box hc
    obtain ⟨rfl, rfl, rfl⟩ := hc.unique ht.struct
    exact hoids.followed
  · intro oids args box hc
    obtain ⟨rfl, rfl, rfl⟩ := hc.1.unique ht.struct
    exact hargs.followed
  · intro oids args box hc
    obtain ⟨rfl, rfl, rfl⟩ := hc.1.1.unique ht.struct
    exact hbox.followed
  · intro oids args box ret hc hret'
    obtain ⟨rfl, rfl, rfl⟩ := hc.1.1.unique ht.struct
    cases hbox.struct.symm.trans hret'
    exact hret.followed

theorem IsQuery.accepted {d : QueryData} (h : IsQuery mod count t d) (attrs : QueryAttrs) :
    compileQueryType mod t attrs = .ok (d.record attrs) := by
  obtain ⟨ht, hindex, hsql, hoids, h32, hargs, hle, hbox, hret⟩ := h
  have helem := (validateMoonbitArray_accepts hoids.followed).2 hoids
  have hargs' : compileArgs mod d.argsType attrs = .ok ((attrs.set 3 (.int8 d.argsType.toInt64)).set 5
      (.int8s (d.args.map RefType.toInt64))) :=
    compileArgs_eq_ok.2 ⟨d.args, (isUnitOrStruct_iff hargs.followed).1 hargs, hle, rfl⟩
  refine compileQueryType_eq_ok.2 ⟨_, d.argsType, _, _,
    ⟨⟨_, _, _, ht.struct, hindex, hsql⟩, _, helem, h32⟩, hargs', ?_⟩
  exact compileResult_eq_ok.2 ⟨d.ret, d.fields, hbox.struct,
    unitOrStruct_ok.2 ((isUnitOrStruct_iff hret.followed).1 hret), rfl⟩

/-- Where the references are followed within the type section, the types of queries are accepted,
    and no others. -/
theorem compileQueryType_accepts (h : QueryFollowed mod count t) {row : QueryAttrs} :
    compileQueryType mod t attrs = .ok row ↔
      ∃ d, IsQuery mod count t d ∧ row = d.record attrs := by
  constructor
  · intro hok
    obtain ⟨oids, args, box, attrs', hcome, hargs, hresult⟩ := compileQueryType_eq_ok.1 hok
    obtain ⟨fields, hfields, hle, rfl⟩ := compileArgs_eq_ok.1 hargs
    obtain ⟨ret, rets, hbox, hret, rfl⟩ := compileResult_eq_ok.1 hresult
    have hbox' : ComesToBox mod t oids args box :=
      ⟨hcome, compileArgs_accepts.1 ⟨_, hargs⟩⟩
    obtain ⟨⟨index, sql, rest, ht, hindex, hsql⟩, elem, helem, h32⟩ := id hcome
    refine ⟨⟨args, fields, ret, rets⟩, .mk ((refersTo_struct h.query).2 ht) hindex hsql
      ((validateMoonbitArray_accepts (h.oids _ _ _ hcome.1)).1 helem) h32
      ((isUnitOrStruct_iff (h.args _ _ _ hcome)).2 hfields) hle
      ((refersTo_struct (h.box _ _ _ hbox')).2 hbox) ?_, rfl⟩
    exact (isUnitOrStruct_iff (h.ret _ _ _ ret hbox' hbox)).2 (unitOrStruct_ok.1 hret)
  · rintro ⟨d, hd, rfl⟩
    exact hd.accepted attrs

/-- **The checks are exact if they follow references within the type section**, and only then they
    stay within it: for MoonBit arrays, and for queries. -/
theorem query_types_exact_iff (mod : WasmModule) (count : ℕ) (t : RefType) (attrs : QueryAttrs)
    (nullable : Bool) :
    ((Within (InSection count) (checkMoonbitArray mod t nullable) ∧
        ∀ elem, (checkMoonbitArray mod t nullable).result = .ok (some elem) ↔
          IsMoonbitArray mod count t nullable elem) ↔
      ArrayFollowed mod count t nullable) ∧
    ((Within (InSection count) (checkQueryType mod t attrs) ∧
        ∀ row, (checkQueryType mod t attrs).result = .ok row ↔
          ∃ d, IsQuery mod count t d ∧ row = d.record attrs) ↔
      QueryFollowed mod count t) := by
  rw [within_checkMoonbitArray, within_checkQueryType, result_checkQueryType]
  exact ⟨and_iff_left_of_imp fun h elem => checkMoonbitArray_accepts h,
    and_iff_left_of_imp fun h row => compileQueryType_accepts h⟩

/-- A module whose only query is a `(ref extern)`, with the types of the queries and of
    `get_queries`. -/
def externQuery : RefType := ⟨valueTypeNonNullable, 0, heapTypeExtern⟩

def externModule : WasmModule where
  types i := if i = 0 then .struct [externQuery] else .func
  getQueries := some ([⟨valueTypeI32, 0, 0⟩], [⟨valueTypeNonNullable, 0, 0⟩])

theorem extern_query_looks_outside :
    ¬ Within (InSection 2) (checkQueryType externModule externQuery fun _ => none) := by
  intro h
  have hin := (within_checkQueryType.1 h).query rfl
  simp [InSection, externQuery, heapTypeExtern] at hin

end Rustica.QueryTypes
