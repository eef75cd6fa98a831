/-
  The objects that natives make for a guest, and the memory of the host behind them.

  An `Obj` is wrapped in a reference that the guest can hold.  Its body is in memory that it owns and
  its finalizer frees, or in memory of another object; then it keeps that object by a local
  reference, which the collector takes for a root until the finalizer removes it.  What is made of
  what is decided by the natives; when objects are finalized is up to the collector, which may run
  at any allocation, and so also between making an `Obj` and wrapping it.
-/
import Rustica.Lib.Exec
import Rustica.Lib.Memory
import Rustica.Compile

namespace Rustica

open Exec

/-! ## Objects -/

/-- An allocation of the host.  Each has a number of its own. -/
abbrev Block := ℕ

/-- `JsonbValue`.  The elements of an array and the pairs of an object are an allocation. -/
inductive JsonbValue where
  | null
  | bool (b : Bool)
  | numeric (numeric : Block)
  | string (val : Block)
  | array (elems : Block)
  | object (pairs : Block)

/-- The type and the body of an `Obj`.  Where a body is embedded, its allocation is that of the
    `Obj`. -/
inductive Body where
  | datum (oid : Oid) (datum : Block)
  | stringInfo (sb data : Block) (readOnly : Bool)
  | jsonbValue (jbv : Block) (v : JsonbValue)
  | portal (portal : Option Block) (queryIdx : ℕ)
  | tupleTable (tuptable : Option Block) (queryIdx : ℕ)
  | heapTuple (tuple : Block)
  | clockMonotonic

/-- `Obj`, in the allocation `mem`. -/
structure Obj where
  mem : Block
  body : Body
  /-- what its local reference refers to, with `OBJ_REFERENCING` -/
  ref : Option ℕ := none
  ownsBody : Bool := false
  ownsBodyMembers : Bool := false

/-- The memory that the value owns as a member of a body. -/
def JsonbValue.members : JsonbValue → List Block
  | .string val => [val]
  | .array elems => [elems]
  | .object pairs => [pairs]
  | _ => []

/-- What `obj_finalizer` frees: what is owned of the body, and the `Obj`. -/
def Obj.freed (o : Obj) : List Block :=
  (match o.body with
    | .datum _ datum => if o.ownsBody then [datum] else []
    | .stringInfo sb data _ =>
      (if o.ownsBodyMembers then [data] else []) ++ (if o.ownsBody then [sb] else [])
    | .jsonbValue jbv v =>
      (if o.ownsBodyMembers then v.members else []) ++ (if o.ownsBody then [jbv] else [])
    | .portal portal _ => portal.toList
    | .tupleTable tuptable _ => tuptable.toList
    | .heapTuple _ => []
    | .clockMonotonic => []) ++ [o.mem]

/-- A WASM object: one made by the guest, the array behind a JSONB container, a reference, or the
    object inside of a reference, which stands for an `Obj`. -/
inductive Node where
  | struct (fields : List ℕ)
  | refSet (members : List (Option ℕ))
  | externref (internal : ℕ)
  | host (o : Obj)

/-- The objects that the collector finds in an object. -/
def Node.refs : Node → List ℕ
  | .struct fields => fields
  | .refSet members => members.reduceOption
  | .externref internal => [internal]
  | .host _ => []

/-- Where a `wasm_local_obj_ref_t` is: in an `Obj` or in the frame of a native. -/
inductive Holder where
  | obj (a : ℕ)
  | stack
  deriving DecidableEq

/-- What a native has begun: an `Obj` that has no reference yet, or an array that is converted. -/
inductive Phase where
  | idle
  | building (a : ℕ)
  | converting (arrStruct : ℕ)

/-- The objects of an instance. -/
structure ObjHeap where
  nodes : Memory ℕ Node
  /-- the objects of global strings, which are never collected -/
  globals : List ℕ
  /-- what the guest has in globals, tables and active frames -/
  roots : List ℕ
  /-- the local references of the `exec_env`, latest first -/
  locals : List (Holder × ℕ)
  phase : Phase
  /-- the members stored in the memory of a container; the key of a pair `i` has the number `2 * i`,
      its value the next one -/
  contents : Block → ℕ → Option JsonbValue
  /-- what natives and finalizers have freed -/
  freed : List Block
  /-- the portals that were closed by a statement -/
  closed : List Block
  nextNode : ℕ
  nextBlock : Block

namespace ObjHeap

def empty : ObjHeap := ⟨.empty, [], [], [], .idle, fun _ _ => none, [], [], 0, 0⟩

/-- An `Obj` without a reference is no object of the collector yet. -/
def gcRoots (s : ObjHeap) : List ℕ :=
  s.globals ++ s.roots ++ s.locals.map Prod.snd ++
    match s.phase with
    | .building a => [a]
    | _ => []

/-- The collector reaches `p`. -/
def Reaches (s : ObjHeap) (p : ℕ) : Prop := s.nodes.Reaches Node.refs s.gcRoots p

/-! ## Natives -/

/-- `rst_obj_new`; the body and the flags are filled in before anything else happens. -/
def rstObjNew (s : ObjHeap) (o : Obj) : ObjHeap :=
  { s with
    nodes := s.nodes.store s.nextNode (.host o)
    locals := match o.ref with
      | some t => (.obj s.nextNode, t) :: s.locals
      | none => s.locals
    phase := .building s.nextNode
    nextNode := s.nextNode + 1
    nextBlock := s.nextBlock + 2 }

/-- `rst_externref_of_obj`, of the `Obj` that a native has begun. -/
def rstExternrefOfObj (s : ObjHeap) : ObjHeap :=
  match s.phase with
  | .building a =>
    { s with
      nodes := s.nodes.store s.nextNode (.externref a)
      roots := s.nextNode :: s.roots
      phase := .idle
      nextNode := s.nextNode + 1 }
  | _ => s

/-- `wasm_externref_obj_get_obj`, and the number of the `Obj`. -/
def getObj (s : ObjHeap) (refobj : ℕ) : Option (ℕ × Obj) :=
  match s.nodes.get? refobj with
  | some (.externref a) =>
    match s.nodes.get? a with
    | some (.host o) => some (a, o)
    | _ => none
  | _ => none

/-- `wasm_externref_obj_get_datum`. -/
def getDatum (s : ObjHeap) (refobj : ℕ) (oid : Oid) : Option (ℕ × Block) :=
  match s.getObj refobj with
  | some (a, o) =>
    match o.body with
    | .datum oid' datum => if oid' = oid then some (a, datum) else none
    | _ => none
  | none => none

end ObjHeap

/-- A native that makes an `Obj`.  Whether a text has to be copied first, and whether a cursor has
    more rows, is up to the database. -/
inductive Maker where
  /-- `cstring_into_varatt_obj`, and other natives with the datum embedded -/
  | newDatum (oid : Oid)
  /-- `rst_externref_of_owned_datum` -/
  | ownedDatum (oid : Oid)
  | jsonIn (refobj : ℕ)
  | jsonOut (refobj : ℕ)
  | jsonbValueNewNull
  | jsonbValueNewBool (val : Bool)
  | jsonbValueNewNumeric
  | jsonbValueNewString (str : ℕ) (copied : Bool)
  | sbNew
  | sbReadText (ref : ℕ) (copied : Bool)
  | cursorOpen (idx : ℕ)
  | cursorFetch (cursor : ℕ) (rows : Bool)
  | tupleTableGet (tuptable : ℕ)
  /-- `pg_datum_to_wasm_obj`, for a column of a tuple -/
  | column (tuple : ℕ) (oid : Oid)
  | monotonicNow

/-- The references that a native is called with. -/
def Maker.args : Maker → List ℕ
  | .jsonIn refobj | .jsonOut refobj => [refobj]
  | .jsonbValueNewString str _ => [str]
  | .sbReadText ref _ => [ref]
  | .cursorFetch cursor _ => [cursor]
  | .tupleTableGet tuptable => [tuptable]
  | .column tuple _ => [tuple]
  | _ => []

/-- `jsonb_value_obj_new`. -/
def jsonbValueObjNew (mem : Block) (v : JsonbValue) (ref : Option ℕ) (ownsBodyMembers : Bool) :
    Obj := { mem, body := .jsonbValue mem v, ref, ownsBodyMembers }

namespace ObjHeap

/-- The `Obj` that a native makes.  Its allocation is the next one; if it needs another, that is the
    one after it. -/
def make (s : ObjHeap) : Maker → Option Obj
  | .newDatum oid => some { mem := s.nextBlock, body := .datum oid s.nextBlock }
  | .ownedDatum oid =>
    some { mem := s.nextBlock, body := .datum oid (s.nextBlock + 1), ownsBody := true }
  | .jsonIn refobj => (s.getDatum refobj textOid).map fun p =>
    { mem := s.nextBlock, body := .datum jsonOid p.2, ref := some p.1 }
  | .jsonOut refobj => (s.getDatum refobj jsonOid).map fun p =>
    { mem := s.nextBlock, body := .datum textOid p.2, ref := some p.1 }
  | .jsonbValueNewNull => some (jsonbValueObjNew s.nextBlock .null none false)
  | .jsonbValueNewBool val => some (jsonbValueObjNew s.nextBlock (.bool val) none false)
  | .jsonbValueNewNumeric =>
    some (jsonbValueObjNew s.nextBlock (.numeric (s.nextBlock + 1)) none false)
  | .jsonbValueNewString str copied => (s.getDatum str textOid).map fun p =>
    if copied then jsonbValueObjNew s.nextBlock (.string (s.nextBlock + 1)) none true
    else jsonbValueObjNew s.nextBlock (.string p.2) (some p.1) false
  | .sbNew => some
    { mem := s.nextBlock
      body := .stringInfo s.nextBlock (s.nextBlock + 1) false
      ownsBodyMembers := true }
  | .sbReadText ref copied => (s.getDatum ref textOid).map fun p =>
    { mem := s.nextBlock
      body := .stringInfo s.nextBlock (if copied then s.nextBlock + 1 else p.2) true
      ref := some ref
      ownsBodyMembers := copied }
  | .cursorOpen idx => some
    { mem := s.nextBlock, body := .portal (some (s.nextBlock + 1)) idx, ownsBody := true }
  | .cursorFetch cursor rows =>
    match s.getObj cursor with
    | some (_, { body := .portal (some _) idx, .. }) => some
      { mem := s.nextBlock
        body := .tupleTable (if rows then some (s.nextBlock + 1) else none) idx
        ownsBody := rows }
    | _ => none
  | .tupleTableGet tuptable =>
    match s.getObj tuptable with
    | some (_, { body := .tupleTable (some t) _, .. }) => some
      { mem := s.nextBlock, body := .heapTuple t, ref := some tuptable, ownsBody := true }
    | _ => none
  | .column tuple oid =>
    match s.getObj tuple with
    | some (_, { body := .heapTuple t, .. }) => some
      { mem := s.nextBlock, body := .datum oid t, ref := some tuple }
    | _ => none
  | .monotonicNow => some { mem := s.nextBlock, body := .clockMonotonic }

/-- `jsonb_value_new_array` and `jsonb_value_new_object`: an array for the references of the members,
    and the memory for their values. -/
def newContainer (s : ObjHeap) (slots : ℕ) (v : Block → JsonbValue) : ObjHeap :=
  { s with
    nodes := s.nodes.store s.nextNode (.refSet (List.replicate slots none))
    nextNode := s.nextNode + 1 : ObjHeap }.rstObjNew
    (jsonbValueObjNew s.nextBlock (v (s.nextBlock + 1)) (some s.nextNode) true)

/-- The slot `i` of a container is set, in the array and in its memory. -/
def setSlot (s : ObjHeap) (refSet : ℕ) (elems : Block) (i member : ℕ) (v : JsonbValue) :
    Option ObjHeap :=
  match s.nodes.get? refSet with
  | some (.refSet members) =>
    if i < members.length then
      some { s with
        nodes := s.nodes.store refSet (.refSet (members.set i (some member)))
        contents :=
          Function.update s.contents elems (Function.update (s.contents elems) i (some v)) }
    else none
  | _ => none

/-- `jsonb_value_array_set`, for an array and an index in range. -/
def jsonbValueArraySet (s : ObjHeap) (array idx member : ℕ) : Option ObjHeap :=
  match s.getObj array, s.getObj member with
  | some (_, { body := .jsonbValue _ (.array elems), ref := some refSet, .. }),
      some (_, { body := .jsonbValue _ v, .. }) => s.setSlot refSet elems idx member v
  | _, _ => none

/-- `jsonb_value_object_set`, for an object and an index in range. -/
def jsonbValueObjectSet (s : ObjHeap) (object idx key value : ℕ) : Option ObjHeap :=
  match s.getObj object, s.getObj key, s.getObj value with
  | some (_, { body := .jsonbValue _ (.object pairs), ref := some refSet, .. }),
      some (_, { body := .jsonbValue _ (.string k), .. }), some (_, { body := .jsonbValue _ v, .. }) =>
    (s.setSlot refSet pairs (2 * idx) key (.string k)).bind fun s =>
      s.setSlot refSet pairs (2 * idx + 1) value v
  | _, _, _ => none

/-- A write to a string builder that has to grow: `repalloc` moves the data. -/
def sbEnlarge (s : ObjHeap) (refobj : ℕ) : Option ObjHeap :=
  match s.getObj refobj with
  | some (a, o) =>
    match o.body with
    | .stringInfo sb data false => some { s with
        nodes := s.nodes.store a (.host { o with body := .stringInfo sb s.nextBlock false })
        freed := data :: s.freed
        nextBlock := s.nextBlock + 1 }
    | _ => none
  | none => none

/-- `env_cursor_close`. -/
def cursorClose (s : ObjHeap) (cursor : ℕ) : Option ObjHeap :=
  match s.getObj cursor with
  | some (a, o) =>
    match o.body with
    | .portal (some portal) idx => some { s with
        nodes := s.nodes.store a (.host { o with body := .portal none idx })
        freed := portal :: s.freed }
    | _ => none
  | none => none

/-- `rst_obj_new_static`, for a global string: its reference comes with it. -/
def newStatic (s : ObjHeap) (oid : Oid) : ObjHeap :=
  let s₁ := s.rstObjNew { mem := s.nextBlock, body := .datum oid s.nextBlock }
  { s₁ with
    nodes := s₁.nodes.store s₁.nextNode (.externref s.nextNode)
    globals := s₁.nextNode :: s₁.globals
    phase := .idle
    nextNode := s₁.nextNode + 1 }

/-- `wasm_runtime_remove_local_obj_ref`. -/
def removeLocalObjRef (me : Holder) (locals : List (Holder × ℕ)) : List (Holder × ℕ) :=
  locals.eraseP fun r => r.1 = me

/-- `obj_finalizer`. -/
def objFinalizer (s : ObjHeap) (a : ℕ) (o : Obj) : ObjHeap :=
  { s with
    locals := if o.ref.isSome then removeLocalObjRef (.obj a) s.locals else s.locals
    freed := o.freed ++ s.freed }

/-- The collector removes an object. -/
def collect (s : ObjHeap) (p : ℕ) : ObjHeap :=
  match s.nodes.get? p with
  | some (.host o) => { s.objFinalizer p o with nodes := s.nodes.free p }
  | _ => { s with nodes := s.nodes.free p }

/-- `pg_int4_array_to_wasm_i32_array`: first the struct, with a local reference on the stack, -/
def convert (s : ObjHeap) : ObjHeap :=
  { s with
    nodes := s.nodes.store s.nextNode (.struct [])
    locals := (.stack, s.nextNode) :: s.locals
    phase := .converting s.nextNode
    nextNode := s.nextNode + 1 }

/-- then the elements, -/
def convertElems (s : ObjHeap) (arrStruct : ℕ) : ObjHeap :=
  match s.nodes.get? arrStruct with
  | some (.struct _) =>
    { s with
      nodes := (s.nodes.store s.nextNode (.struct [])).store arrStruct (.struct [s.nextNode])
      nextNode := s.nextNode + 1 }
  | _ => s

/-- and last the local reference is popped. -/
def converted (s : ObjHeap) (arrStruct : ℕ) : ObjHeap :=
  { s with
    roots := arrStruct :: s.roots
    locals := s.locals.tail
    phase := .idle }

end ObjHeap

/-! ## Runs -/

/-- What happens to the objects: something in the guest, in a native, or a collection. -/
inductive ObjEvent where
  | guestNew (fields : List ℕ)
  | guestSet (p : ℕ) (fields : List ℕ)
  | guestRoots (roots : List ℕ)
  | make (m : Maker)
  | externrefOfObj
  | jsonbValueNewArray (length : ℕ)
  | jsonbValueNewObject (length : ℕ)
  | jsonbValueArraySet (array idx member : ℕ)
  | jsonbValueObjectSet (object idx key value : ℕ)
  | sbWrite (refobj : ℕ)
  | cursorClose (cursor : ℕ)
  /-- a statement, which may close cursors, as `CLOSE ALL` does -/
  | executeStatement (closes : List Block)
  | newStatic (oid : Oid)
  | convert
  | convertElems
  | converted
  | collect (p : ℕ)

/-- A portal that a guest holds as a cursor. -/
def ObjHeap.HoldsPortal (s : ObjHeap) (portal : Block) : Prop :=
  ∃ a o idx, s.nodes.get? a = some (.host o) ∧ o.body = .portal (some portal) idx

/-- The guest works with what it can reach; a native is called with references that the guest has;
    the collector removes nothing that it reaches. -/
def ObjEvent.Enabled (s : ObjHeap) : ObjEvent → Prop
  | .guestNew fields => s.phase = .idle ∧ ∀ q ∈ fields, s.Reaches q
  | .guestSet p fields => s.phase = .idle ∧ s.Reaches p ∧
      (∃ old, s.nodes.get? p = some (.struct old)) ∧ ∀ q ∈ fields, s.Reaches q
  | .guestRoots roots => s.phase = .idle ∧ ∀ q ∈ roots, s.Reaches q
  | .make m => s.phase = .idle ∧ ∀ q ∈ m.args, s.Reaches q
  | .externrefOfObj => ∃ a, s.phase = .building a
  | .jsonbValueNewArray _ | .jsonbValueNewObject _ => s.phase = .idle
  | .jsonbValueArraySet array _ member => s.phase = .idle ∧ s.Reaches array ∧ s.Reaches member
  | .jsonbValueObjectSet object _ key value =>
    s.phase = .idle ∧ s.Reaches object ∧ s.Reaches key ∧ s.Reaches value
  | .sbWrite refobj => s.phase = .idle ∧ s.Reaches refobj
  | .cursorClose cursor => s.phase = .idle ∧ s.Reaches cursor
  | .executeStatement closes => s.phase = .idle ∧ closes.Nodup ∧
      ∀ portal ∈ closes, portal ∉ s.closed ∧ s.HoldsPortal portal
  | .newStatic _ | .convert => s.phase = .idle
  | .convertElems | .converted => ∃ p, s.phase = .converting p
  | .collect p => s.nodes.Live p ∧ ¬ s.Reaches p

/-- The state after an event.  A native that raises an error leaves the objects as they are. -/
def ObjHeap.step (s : ObjHeap) : ObjEvent → ObjHeap
  | .guestNew fields =>
    { s with
      nodes := s.nodes.store s.nextNode (.struct fields)
      roots := s.nextNode :: s.roots
      nextNode := s.nextNode + 1 }
  | .guestSet p fields => { s with nodes := s.nodes.store p (.struct fields) }
  | .guestRoots roots => { s with roots }
  | .make m =>
    match s.make m with
    | some o => s.rstObjNew o
    | none => s
  | .externrefOfObj => s.rstExternrefOfObj
  | .jsonbValueNewArray length => s.newContainer length .array
  | .jsonbValueNewObject length => s.newContainer (length * 2) .object
  | .jsonbValueArraySet array idx member => (s.jsonbValueArraySet array idx member).getD s
  | .jsonbValueObjectSet object idx key value =>
    (s.jsonbValueObjectSet object idx key value).getD s
  | .sbWrite refobj => (s.sbEnlarge refobj).getD s
  | .cursorClose cursor => (s.cursorClose cursor).getD s
  | .executeStatement closes => { s with closed := closes ++ s.closed }
  | .newStatic oid => s.newStatic oid
  | .convert => s.convert
  | .convertElems =>
    match s.phase with
    | .converting p => s.convertElems p
    | _ => s
  | .converted =>
    match s.phase with
    | .converting p => s.converted p
    | _ => s
  | .collect p => s.collect p

def ObjStep (s : ObjHeap) (e : ObjEvent) (s' : ObjHeap) : Prop := e.Enabled s ∧ s' = s.step e

end Rustica
