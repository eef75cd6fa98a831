/-
  Cursors: what the guest gets of the rows of its queries.

  `env_cursor_open` makes an object of a portal, `env_cursor_fetch` an object of a table of rows,
  `env_tuple_table_get` one of a row, and `env_tuple_lower` the fields of the row.  Each object but the
  row knows the query by its index; a row knows its table.  So a row is lowered by the plan of the
  query that it is from (`lowered_of_run`), in any order in which the guest uses its objects; and who
  fetches forward until nothing comes has got each row once, and in order (`fetched_of_run`).

  The portal is that of PostgreSQL: a position in the result of the statement, which moves as `FETCH`
  does.  What the statement gives is part of the request that opens the cursor.  Objects stay where
  they are; there is always memory for them.
-/
import Rustica.Arguments
import Rustica.Lib.Exec
import Rustica.Lib.Scroll

namespace Rustica.Cursor

open Arguments Exec
open Rows (Datum WasmValue TupleOf Lowers envTupleLower)

/-! ## Objects -/

abbrev Row := List (Option Datum)

/-- `FETCH_ALL`. -/
def fetchAll : ℤ := 9223372036854775807

/-- `INT_MAX`. -/
def intMax : ℕ := 2147483647

/-- A portal; `query` is the index that it was opened with. -/
structure Portal where
  query : ℕ
  scroll : Bool
  rows : Scroll Row

/-- The objects that are not for cursors. -/
inductive Other where
  | datum | stringInfo | jsonbValue | clockMonotonic

inductive Obj where
  | portal (portal : Option ℕ) (queryIdx : ℕ)
  | tupleTable (vals : Option (List Row)) (queryIdx : ℕ)
  /-- `ref` is the table. -/
  | heapTuple (tuple : Row) (ref : ℕ)
  | other (kind : Other)

/-- `OBJ_DATUM` and so on. -/
def Obj.type : Obj → ℕ
  | .other .datum => 0
  | .other .stringInfo => 1
  | .other .jsonbValue => 2
  | .portal _ _ => 3
  | .tupleTable _ _ => 4
  | .heapTuple _ _ => 5
  | .other .clockMonotonic => 6

structure State where
  objs : List Obj
  portals : List Portal

/-- A value of type `externref`. -/
inductive Ref where
  | null
  /-- something of the guest's own -/
  | guest
  | obj (handle : ℕ)

inductive Answer where
  | ref (handle : ℕ)
  | int (v : Int32)
  /-- the row in the box of the query -/
  | row (fields : List (Option WasmValue))

namespace State

variable (s : State)

/-- `wasm_externref_obj_get_obj`. -/
def getObj (type : ℕ) : Ref → Native Obj
  | .null => .overruns
  | .guest => .raises "not an externref of anyref object"
  | .obj handle =>
    match s.objs[handle]? with
    | some obj =>
      if obj.type ≠ type then
        .raises ("expected object type " ++ toString type ++ ", got " ++ toString obj.type)
      else .returns obj
    | none => .overruns

/-- `rst_obj_new` and `rst_externref_of_obj`. -/
def newObj (obj : Obj) : Native (Answer × State) :=
  .returns (.ref s.objs.length, { s with objs := s.objs ++ [obj] })

/-! ## Cursors -/

/-- `SPI_cursor_fetch`, forward: the rows and where the portal is then. -/
def spiCursorFetch (portal : Portal) (count : ℤ) : Native (List Row × Scroll Row) :=
  if count = fetchAll then
    .returns (portal.rows.next (portal.rows.items.length + 1),
      portal.rows.move (portal.rows.pos + (portal.rows.items.length + 1)))
  else if 0 < count then
    .returns (portal.rows.next count.toNat, portal.rows.move (portal.rows.pos + count.toNat))
  else if portal.scroll then
    if count = 0 then .returns (portal.rows.here, portal.rows)
    else .returns (portal.rows.prev count.natAbs, portal.rows.move (portal.rows.pos - count.natAbs))
  else .raises "cursor can only scan forward"

variable {pg : Postgres} (plans : List (QueryPlan pg)) (isCursorPlan : pg.Plan → Bool)

def envCursorOpen (idx : Int32) (args : Option (List Arg)) (place : ℕ → BitVec 64)
    (rows : List Row) (scroll : Bool) : Native (Answer × State) :=
  (Arguments.envCursorOpen place args isCursorPlan plans idx).bind fun _ =>
    newObj { s with portals := s.portals ++ [⟨idx.toInt.toNat, scroll, .start rows⟩] }
      (.portal (some s.portals.length) idx.toInt.toNat)

/-- `env_cursor_fetch`; `count` is the `long` that the native is called with. -/
def envCursorFetch (cursorRef : Ref) (count : ℤ) : Native (Answer × State) :=
  (s.getObj 3 cursorRef).bind fun
    | .portal (some p) queryIdx =>
      match s.portals[p]? with
      | some portal =>
        (spiCursorFetch portal count).bind fun (vals, rows) =>
          let s := { s with portals := s.portals.set p { portal with rows } }
          if vals.length = 0 then s.newObj (.tupleTable none queryIdx)
          else if intMax < vals.length then .raises "too many rows"
          else s.newObj (.tupleTable (some vals) queryIdx)
      | none => .overruns
    | _ => .raises "portal already closed"

def envCursorFetchAll (cursorRef : Ref) : Native (Answer × State) :=
  s.envCursorFetch cursorRef fetchAll

/-- `env_cursor_close`. -/
def envCursorClose : Ref → Native (Answer × State)
  | .obj handle => (s.getObj 3 (.obj handle)).bind fun
    | .portal (some _) queryIdx =>
      .returns (.int 1, { s with objs := s.objs.set handle (.portal none queryIdx) })
    | _ => .returns (.int 1, s)
  | ref => (s.getObj 3 ref).bind fun _ => .overruns

/-! ## Tables and rows -/

def envTupleTableLen (tuptableRef : Ref) : Native (Answer × State) :=
  (s.getObj 4 tuptableRef).bind fun
    | .tupleTable (some vals) _ => .returns (.int (Int32.ofNat vals.length), s)
    | _ => .returns (.int 0, s)

/-- The index, counted from the end where it is negative. -/
def tableIndex (idx : Int32) (numvals : ℕ) : ℤ :=
  if idx.toInt < 0 then asInt32 (idx.toInt + asInt32 numvals) else idx.toInt

def envTupleTableGet (idx : Int32) : Ref → Native (Answer × State)
  | .obj handle => (s.getObj 4 (.obj handle)).bind fun
    | .tupleTable (some vals) _ =>
      let i := tableIndex idx vals.length
      if i < 0 ∨ i ≥ vals.length then .raises "index out of range"
      else match vals[i.toNat]? with
        | some tuple => s.newObj (.heapTuple tuple handle)
        | none => .overruns
    | _ => .raises "index out of range"
  | ref => (s.getObj 4 ref).bind fun _ => .overruns

/-- `env_tuple_lower`; the row is that of `Rows.envTupleLower`. -/
def envTupleLower (tupleRef : Ref) (room : ℕ → Bool) (retRoom : Bool) : Native (Answer × State) :=
  (s.getObj 5 tupleRef).bind fun
    | .heapTuple tuple ref => (s.getObj 4 (.obj ref)).bind fun
      | .tupleTable (some _) queryIdx =>
        match plans[queryIdx]? with
        | some plan => (Rows.envTupleLower plan tuple room retRoom).result.bind fun fields =>
          .returns (.row fields, s)
        | none => .overruns
      | _ => .overruns
    | _ => .overruns

end State

/-! ## Runs -/

inductive Request where
  /-- `rows` is what the statement gives. -/
  | cursorOpen (idx : Int32) (args : Option (List Arg)) (place : ℕ → BitVec 64) (rows : List Row)
      (scroll : Bool)
  | cursorFetch (cursorRef : Ref) (count : ℤ)
  | cursorFetchAll (cursorRef : Ref)
  | cursorClose (cursorRef : Ref)
  | tupleTableLen (tuptableRef : Ref)
  | tupleTableGet (tuptableRef : Ref) (idx : Int32)
  | tupleLower (tupleRef : Ref) (room : ℕ → Bool) (retRoom : Bool)
  /-- a native that makes an object of another kind -/
  | makeOther (kind : Other)

variable {pg : Postgres} (plans : List (QueryPlan pg)) (isCursorPlan : pg.Plan → Bool)

def State.call (s : State) : Request → Native (Answer × State)
  | .cursorOpen idx args place rows scroll =>
    s.envCursorOpen plans isCursorPlan idx args place rows scroll
  | .cursorFetch ref count => s.envCursorFetch ref count
  | .cursorFetchAll ref => s.envCursorFetchAll ref
  | .cursorClose ref => s.envCursorClose ref
  | .tupleTableLen ref => s.envTupleTableLen ref
  | .tupleTableGet ref idx => s.envTupleTableGet idx ref
  | .tupleLower ref room retRoom => s.envTupleLower plans ref room retRoom
  | .makeOther kind => s.newObj (.other kind)

/-- A request that returns.  An error ends the run. -/
def Step (s : State) (r : Request) (s' : State) : Prop :=
  ∃ a, s.call plans isCursorPlan r = .returns (a, s')

/-- Before the first cursor. -/
def State.start : State := ⟨[], []⟩

/-- The count of a fetch. -/
def Request.fetch? : Request → Option (Ref × ℤ)
  | .cursorFetch ref count => some (ref, count)
  | .cursorFetchAll ref => some (ref, fetchAll)
  | _ => none

/-- What a request does to the state when it returns. -/
inductive Change (s : State) (r : Request) : State → Prop
  | opened {idx args place rows scroll} (hr : r = .cursorOpen idx args place rows scroll)
      (hidx : idx.toInt.toNat < plans.length) :
      Change s r ⟨s.objs ++ [.portal (some s.portals.length) idx.toInt.toNat],
        s.portals ++ [⟨idx.toInt.toNat, scroll, .start rows⟩]⟩
  | fetched {ref count p queryIdx portal vals rows} (hr : r.fetch? = some (ref, count))
      (hobj : s.getObj 3 ref = .returns (.portal (some p) queryIdx))
      (hportal : s.portals[p]? = some portal)
      (hfetch : State.spiCursorFetch portal count = .returns (vals, rows))
      (hmax : vals.length ≤ intMax) :
      Change s r ⟨s.objs ++ [.tupleTable (if vals.length = 0 then none else some vals) queryIdx],
        s.portals.set p { portal with rows }⟩
  | closed {handle p queryIdx} (hr : r.fetch? = none)
      (hobj : s.objs[handle]? = some (.portal (some p) queryIdx)) :
      Change s r ⟨s.objs.set handle (.portal none queryIdx), s.portals⟩
  | got {handle vals queryIdx tuple} (hr : r.fetch? = none)
      (hobj : s.objs[handle]? = some (.tupleTable (some vals) queryIdx)) (htuple : tuple ∈ vals) :
      Change s r ⟨s.objs ++ [.heapTuple tuple handle], s.portals⟩
  | made {kind} (hr : r.fetch? = none) : Change s r ⟨s.objs ++ [.other kind], s.portals⟩
  | same (hr : r.fetch? = none) : Change s r s

variable {plans isCursorPlan} {s s' : State} {r : Request} {a : Answer}

theorem bind_returns {α β : Type} {x : Native α} {f : α → Native β} {b : β} :
    x.bind f = .returns b ↔ ∃ a, x = .returns a ∧ f a = .returns b := by
  cases x with
  | returns a => exact ⟨fun h => ⟨a, rfl, h⟩, fun ⟨a', ha, h⟩ => by cases ha; exact h⟩
  | _ => exact ⟨fun h => (by cases h), fun ⟨a', ha, _⟩ => by cases ha⟩

/-- The object has the type, and the reference leads to it. -/
theorem getObj_returns {type : ℕ} {ref : Ref} {obj : Obj} (h : s.getObj type ref = .returns obj) :
    ∃ handle, ref = .obj handle ∧ s.objs[handle]? = some obj ∧ obj.type = type := by
  cases ref with
  | obj handle =>
    rw [State.getObj] at h
    split at h
    · rename_i obj' hobj
      split_ifs at h with htype
      cases h
      exact ⟨handle, rfl, hobj, not_not.1 htype⟩
    · cases h
  | _ => cases h

theorem getObj_of (type : ℕ) {handle : ℕ} {obj : Obj} (h : s.objs[handle]? = some obj)
    (htype : obj.type = type) : s.getObj type (.obj handle) = .returns obj := by
  rw [State.getObj, h]
  exact if_neg (not_not.2 htype)

theorem envCursorOpen_change {idx : Int32} {args : Option (List Arg)} {place : ℕ → BitVec 64}
    {rows : List Row} {scroll : Bool}
    (h : s.envCursorOpen plans isCursorPlan idx args place rows scroll = .returns (a, s')) :
    Change plans s (.cursorOpen idx args place rows scroll) s' := by
  obtain ⟨e, he, h⟩ := bind_returns.1 h
  obtain ⟨plan, hplan, -⟩ := bind_returns.1 he
  have hidx : idx.toInt.toNat < plans.length := by
    rw [takePlan] at hplan
    split_ifs at hplan with hbad
    omega
  cases h
  exact .opened rfl hidx

theorem envCursorFetch_change {ref : Ref} {count : ℤ} (hr : r.fetch? = some (ref, count))
    (h : s.envCursorFetch ref count = .returns (a, s')) : Change plans s r s' := by
  obtain ⟨obj, hobj, h⟩ := bind_returns.1 h
  split at h
  · rename_i p queryIdx
    split at h
    · rename_i portal hportal
      obtain ⟨⟨vals, rows⟩, hfetch, h⟩ := bind_returns.1 h
      dsimp only at h
      split_ifs at h with h0 hmax
      · have hch : Change plans s r _ := .fetched hr hobj hportal hfetch (h0 ▸ Nat.zero_le _)
        rw [if_pos h0] at hch
        cases h
        exact hch
      · have hch : Change plans s r _ := .fetched hr hobj hportal hfetch (not_lt.1 hmax)
        rw [if_neg h0] at hch
        cases h
        exact hch
    · cases h
  · cases h

theorem envCursorClose_change {ref : Ref} (hr : r.fetch? = none)
    (h : s.envCursorClose ref = .returns (a, s')) : Change plans s r s' := by
  cases ref with
  | obj handle =>
    obtain ⟨obj, hobj, h⟩ := bind_returns.1 h
    obtain ⟨handle', ⟨⟩, hget, -⟩ := getObj_returns hobj
    split at h
    · cases h
      exact .closed hr hget
    · cases h
      exact .same hr
  | _ => cases h

theorem envTupleTableGet_change {idx : Int32} {ref : Ref} (hr : r.fetch? = none)
    (h : s.envTupleTableGet idx ref = .returns (a, s')) : Change plans s r s' := by
  cases ref with
  | obj handle =>
    obtain ⟨obj, hobj, h⟩ := bind_returns.1 h
    obtain ⟨handle', ⟨⟩, hget, -⟩ := getObj_returns hobj
    split at h
    · dsimp only at h
      split_ifs at h
      split at h
      · rename_i htuple
        cases h
        exact .got hr hget (List.mem_of_getElem? htuple)
      · cases h
    · cases h
  | _ => cases h

/-- **What a request does** when it returns. -/
theorem Step.change (h : Step plans isCursorPlan s r s') : Change plans s r s' := by
  obtain ⟨a, h⟩ := h
  cases r with
  | cursorOpen idx args place rows scroll => exact envCursorOpen_change h
  | cursorFetch ref count => exact envCursorFetch_change rfl h
  | cursorFetchAll ref => exact envCursorFetch_change rfl h
  | cursorClose ref => exact envCursorClose_change rfl h
  | tupleTableGet ref idx => exact envTupleTableGet_change rfl h
  | tupleTableLen ref =>
    obtain ⟨obj, -, h⟩ := bind_returns.1 h
    split at h <;> cases h <;> exact .same rfl
  | tupleLower ref room retRoom =>
    have hs : s' = s := by
      obtain ⟨obj, -, h⟩ := bind_returns.1 h
      split at h
      · obtain ⟨obj', -, h⟩ := bind_returns.1 h
        split at h
        · split at h
          · obtain ⟨fields, -, h⟩ := bind_returns.1 h
            cases h
            rfl
          · cases h
        · cases h
      · cases h
    rw [hs]
    exact .same rfl
  | makeOther kind =>
    cases h
    exact .made rfl

/-! ## Where rows come from -/

theorem mem_spiCursorFetch {portal : Portal} {count : ℤ} {vals : List Row} {rows : Scroll Row}
    (h : State.spiCursorFetch portal count = .returns (vals, rows)) :
    rows.items = portal.rows.items ∧ ∀ v ∈ vals, v ∈ portal.rows.items := by
  rw [State.spiCursorFetch] at h
  split_ifs at h with hall hpos hscroll h0 <;> cases h
  · exact ⟨rfl, fun v => Scroll.mem_next⟩
  · exact ⟨rfl, fun v => Scroll.mem_next⟩
  · exact ⟨rfl, fun v => Scroll.mem_here⟩
  · exact ⟨rfl, fun v => Scroll.mem_prev⟩

/-- **Every object knows its query**: a portal's, a table's rows are of a cursor for it, and a row is
    in its table. -/
structure Traced (s : State) : Prop where
  portal : ∀ (i : ℕ) p q, s.objs[i]? = some (.portal (some p) q) →
    ∃ P, s.portals[p]? = some P ∧ P.query = q
  table : ∀ (i : ℕ) vals q, s.objs[i]? = some (.tupleTable (some vals) q) → vals.length ≤ intMax ∧
    ∃ P ∈ s.portals, P.query = q ∧ ∀ v ∈ vals, v ∈ P.rows.items
  tuple : ∀ (i : ℕ) tuple t, s.objs[i]? = some (.heapTuple tuple t) →
    ∃ vals q, s.objs[t]? = some (.tupleTable (some vals) q) ∧ tuple ∈ vals

theorem getElem?_snoc {α : Type} {l : List α} {x y : α} {i : ℕ} (h : (l ++ [x])[i]? = some y) :
    l[i]? = some y ∨ i = l.length ∧ x = y := by
  rcases Nat.lt_trichotomy i l.length with hi | rfl | hi
  · exact .inl (by rwa [List.getElem?_append_left hi] at h)
  · rw [List.getElem?_concat_length] at h
    exact .inr ⟨rfl, Option.some.inj h⟩
  · rw [List.getElem?_eq_none (by rw [List.length_append, List.length_singleton]; omega)] at h
    cases h

theorem getElem?_snoc_of {α : Type} {l : List α} {x y : α} {i : ℕ} (h : l[i]? = some y) :
    (l ++ [x])[i]? = some y := by
  rwa [List.getElem?_append_left (List.getElem?_eq_some_iff.1 h).1]

/-- A new object, with what is asked of it. -/
theorem Traced.snoc {obj : Obj} (h : Traced s)
    (hportal : ∀ p q, obj = .portal (some p) q → ∃ P, s.portals[p]? = some P ∧ P.query = q)
    (htable : ∀ vals q, obj = .tupleTable (some vals) q → vals.length ≤ intMax ∧
      ∃ P ∈ s.portals, P.query = q ∧ ∀ v ∈ vals, v ∈ P.rows.items)
    (htuple : ∀ tuple t, obj = .heapTuple tuple t →
      ∃ vals q, s.objs[t]? = some (.tupleTable (some vals) q) ∧ tuple ∈ vals) :
    Traced { s with objs := s.objs ++ [obj] } := by
  constructor
  · intro i p q hi
    rcases getElem?_snoc hi with hi | ⟨-, rfl⟩
    · exact h.portal i p q hi
    · exact hportal p q rfl
  · intro i vals q hi
    rcases getElem?_snoc hi with hi | ⟨-, rfl⟩
    · exact h.table i vals q hi
    · exact htable vals q rfl
  · intro i tuple t hi
    have hget : ∃ vals q, s.objs[t]? = some (.tupleTable (some vals) q) ∧ tuple ∈ vals := by
      rcases getElem?_snoc hi with hi | ⟨-, rfl⟩
      · exact h.tuple i tuple t hi
      · exact htuple tuple t rfl
    obtain ⟨vals, q, ht, hmem⟩ := hget
    exact ⟨vals, q, getElem?_snoc_of ht, hmem⟩

/-- The portals have moved, or there are more. -/
theorem Traced.portals {portals : List Portal} (h : Traced s)
    (hkeep : ∀ (p : ℕ) P, s.portals[p]? = some P → ∃ P', portals[p]? = some P' ∧
      P'.query = P.query ∧ P'.rows.items = P.rows.items) : Traced { s with portals } := by
  refine ⟨fun i p q hi => ?_, fun i vals q hi => ?_, h.tuple⟩
  · obtain ⟨P, hP, hq⟩ := h.portal i p q hi
    obtain ⟨P', hP', hq', -⟩ := hkeep p P hP
    exact ⟨P', hP', hq'.trans hq⟩
  · obtain ⟨hlen, P, hP, hq, hmem⟩ := h.table i vals q hi
    obtain ⟨p, hp⟩ := List.mem_iff_getElem?.1 hP
    obtain ⟨P', hP', hq', hitems⟩ := hkeep p P hp
    exact ⟨hlen, P', List.mem_of_getElem? hP', hq'.trans hq, fun v hv => hitems ▸ hmem v hv⟩

theorem traced_start : Traced .start :=
  ⟨(by rintro i p q ⟨⟩), (by rintro i vals q ⟨⟩), (by rintro i tuple t ⟨⟩)⟩

/-- A portal that is set stays what it was, but for its position. -/
theorem set_portal {p : ℕ} {portal : Portal} {rows : Scroll Row} (hp : s.portals[p]? = some portal)
    (hitems : rows.items = portal.rows.items) (p' : ℕ) (P : Portal) (hP : s.portals[p']? = some P) :
    ∃ P', (s.portals.set p { portal with rows })[p']? = some P' ∧ P'.query = P.query ∧
      P'.rows.items = P.rows.items := by
  have hlt := (List.getElem?_eq_some_iff.1 hp).1
  by_cases heq : p = p'
  · subst heq
    obtain rfl := Option.some.inj (hp.symm.trans hP)
    exact ⟨_, List.getElem?_set_self hlt, rfl, hitems⟩
  · exact ⟨P, by rw [List.getElem?_set_ne heq, hP], rfl, rfl⟩

/-- **One request** keeps the objects traced. -/
theorem Change.traced (h : Traced s) (hc : Change plans s r s') : Traced s' := by
  cases hc with
  | opened hr hidx =>
    refine (h.portals fun p P hP => ⟨P, getElem?_snoc_of hP, rfl, rfl⟩).snoc ?_ ?_ ?_
    · rintro p q ⟨⟩
      exact ⟨_, List.getElem?_concat_length .., rfl⟩
    · rintro vals q ⟨⟩
    · rintro tuple t ⟨⟩
  | @fetched ref count p queryIdx portal vals rows hr hobj hportal hfetch hmax =>
    obtain ⟨hitems, hmem⟩ := mem_spiCursorFetch hfetch
    obtain ⟨handle, -, hget, -⟩ := getObj_returns hobj
    refine (h.portals (set_portal hportal hitems)).snoc ?_ ?_ ?_
    · rintro p q ⟨⟩
    · intro vals' q htable
      split_ifs at htable with h0
      · cases htable
      · cases htable
        obtain ⟨P, hP, hq⟩ := h.portal handle p queryIdx hget
        obtain rfl := Option.some.inj (hportal.symm.trans hP)
        have hlt := (List.getElem?_eq_some_iff.1 hportal).1
        refine ⟨hmax, _, List.mem_of_getElem? (List.getElem?_set_self hlt), hq, ?_⟩
        exact fun v hv => hitems.symm ▸ hmem v hv
    · rintro tuple t ⟨⟩
  | @closed handle p queryIdx hr hobj =>
    have hlt := (List.getElem?_eq_some_iff.1 hobj).1
    have hset : ∀ (i : ℕ) obj, (s.objs.set handle (.portal none queryIdx))[i]? = some obj →
        obj = .portal none queryIdx ∨ s.objs[i]? = some obj := by
      intro i obj hi
      by_cases heq : handle = i
      · subst heq
        rw [List.getElem?_set_self hlt] at hi
        exact .inl (Option.some.inj hi).symm
      · rw [List.getElem?_set_ne heq] at hi
        exact .inr hi
    refine ⟨fun i p q hi => ?_, fun i vals q hi => ?_, fun i tuple t hi => ?_⟩
    · rcases hset i _ hi with hno | hi
      · cases hno
      · exact h.portal i p q hi
    · rcases hset i _ hi with hno | hi
      · cases hno
      · exact h.table i vals q hi
    · rcases hset i _ hi with hno | hi
      · cases hno
      · obtain ⟨vals, q, ht, hmem⟩ := h.tuple i tuple t hi
        refine ⟨vals, q, ?_, hmem⟩
        have hne : handle ≠ t := by
          rintro rfl
          cases hobj.symm.trans ht
        rw [List.getElem?_set_ne hne, ht]
  | got hr hobj htuple =>
    refine h.snoc ?_ ?_ ?_
    · rintro p q ⟨⟩
    · rintro vals q ⟨⟩
    · rintro tuple t ⟨⟩
      exact ⟨_, _, hobj, htuple⟩
  | made hr => exact h.snoc (by rintro p q ⟨⟩) (by rintro vals q ⟨⟩) (by rintro tuple t ⟨⟩)
  | same hr => exact h

variable {h : List (State × Request)}

theorem traced_of_run (hr : Run (Step plans isCursorPlan) .start h s) : Traced s :=
  (hr.always traced_start fun _ _ _ hs hstep => hstep.change.traced hs).last

/-- What the portal at a place is after a request. -/
theorem Change.portal {p : ℕ} {P' : Portal} (hc : Change plans s r s')
    (hP' : s'.portals[p]? = some P') :
    (∃ P, s.portals[p]? = some P ∧ P'.query = P.query ∧ P'.rows.items = P.rows.items) ∨
    p = s.portals.length ∧ ∃ idx args place rows scroll,
      r = .cursorOpen idx args place rows scroll ∧ idx.toInt.toNat < plans.length ∧
      P' = ⟨idx.toInt.toNat, scroll, .start rows⟩ := by
  cases hc with
  | @opened idx args place rows scroll hr hidx =>
    rcases getElem?_snoc hP' with hP' | ⟨rfl, rfl⟩
    · exact .inl ⟨P', hP', rfl, rfl⟩
    · exact .inr ⟨rfl, idx, args, place, rows, scroll, hr, hidx, rfl⟩
  | @fetched ref count p₁ queryIdx portal vals rows hr hobj hportal hfetch hmax =>
    have hlt := (List.getElem?_eq_some_iff.1 hportal).1
    dsimp only at hP'
    by_cases heq : p₁ = p
    · subst heq
      rw [List.getElem?_set_self hlt] at hP'
      cases hP'
      exact .inl ⟨portal, hportal, rfl, (mem_spiCursorFetch hfetch).1⟩
    · rw [List.getElem?_set_ne heq] at hP'
      exact .inl ⟨P', hP', rfl, rfl⟩
  | _ => exact .inl ⟨P', hP', rfl, rfl⟩

/-- A portal stays where it is. -/
theorem Change.keeps {p : ℕ} {P : Portal} (hc : Change plans s r s') (hP : s.portals[p]? = some P) :
    ∃ P', s'.portals[p]? = some P' ∧ P'.query = P.query ∧ P'.rows.items = P.rows.items := by
  cases hc with
  | opened hr hidx => exact ⟨P, getElem?_snoc_of hP, rfl, rfl⟩
  | fetched hr hobj hportal hfetch hmax =>
    exact set_portal hportal (mem_spiCursorFetch hfetch).1 p P hP
  | _ => exact ⟨P, hP, rfl, rfl⟩

/-- **Every portal was opened.** -/
theorem opened_of_run (hr : Run (Step plans isCursorPlan) .start h s) {p : ℕ} {P : Portal}
    (hP : s.portals[p]? = some P) : ∃ s₀ idx args place rows scroll,
      (s₀, Request.cursorOpen idx args place rows scroll) ∈ h ∧ p = s₀.portals.length ∧
      P.query = idx.toInt.toNat ∧ idx.toInt.toNat < plans.length ∧ P.rows.items = rows := by
  induction hr generalizing P with
  | nil => cases hP
  | @snoc h s₁ r s₂ hr hstep ih =>
    rcases hstep.change.portal hP with ⟨P₁, hP₁, hq, hitems⟩ |
      ⟨rfl, idx, args, place, rows, scroll, rfl, hidx, rfl⟩
    · obtain ⟨s₀, idx, args, place, rows, scroll, hmem, hp, hq₁, hidx, hitems₁⟩ := ih hP₁
      exact ⟨s₀, idx, args, place, rows, scroll, List.mem_cons_of_mem _ hmem, hp, hq.trans hq₁, hidx,
        hitems.trans hitems₁⟩
    · exact ⟨s₁, idx, args, place, rows, scroll, List.mem_cons_self, rfl, rfl, hidx, rfl⟩

/-! ## Lowering -/

/-- The rows that PostgreSQL gives have the types of the plan. -/
def TypedRows (plans : List (QueryPlan pg)) (h : List (State × Request)) : Prop :=
  ∀ e ∈ h, ∀ idx args place rows scroll, e.2 = .cursorOpen idx args place rows scroll →
    ∀ plan, plans[idx.toInt.toNat]? = some plan → ∀ row ∈ rows, TupleOf plan row

/-- The portal that a request draws from, and the count. -/
def draws (s : State) (r : Request) : Option (ℕ × ℤ) :=
  match r.fetch? with
  | some (ref, count) => match s.getObj 3 ref with
    | .returns (.portal (some p) _) => some (p, count)
    | _ => none
  | none => none

/-- What the guest gets of a portal with a request. -/
def piece (p : ℕ) (s : State) (r : Request) : List (List Row) :=
  match draws s r, s.portals[p]? with
  | some (p', count), some P =>
    if p' = p then match State.spiCursorFetch P count with
      | .returns (vals, _) => [vals]
      | _ => []
    else []
  | _, _ => []

/-- What it has got of a portal, piece by piece. -/
def fetched (p : ℕ) : List (State × Request) → List (List Row)
  | [] => []
  | (s, r) :: h => fetched p h ++ piece p s r

/-- All fetches from the portal were forward. -/
def Forward (p : ℕ) (s : State) (r : Request) : Prop := ∀ count, draws s r = some (p, count) → 0 < count

theorem spiCursorFetch_forward {P : Portal} {count : ℤ} {vals : List Row} {rows : Scroll Row}
    (hpos : 0 < count) (h : State.spiCursorFetch P count = .returns (vals, rows)) :
    rows.read = P.rows.read ++ vals ∧ (vals = [] → P.rows.read = P.rows.items) := by
  rw [State.spiCursorFetch] at h
  split_ifs at h with hall <;> cases h
  · exact ⟨P.rows.read_forward _, P.rows.read_all (Nat.succ_pos _)⟩
  · exact ⟨P.rows.read_forward _, P.rows.read_all (by omega)⟩

theorem piece_none {p : ℕ} (hr : r.fetch? = none) : piece p s r = [] := by
  rw [piece, draws, hr]

/-- What a request does to a portal, and what it gives of it. -/
theorem Change.piece {p : ℕ} {P P' : Portal} (hc : Change plans s r s')
    (hP : s.portals[p]? = some P) (hP' : s'.portals[p]? = some P') (hfwd : Forward p s r) :
    piece p s r = [] ∧ P' = P ∨
    ∃ vals, piece p s r = [vals] ∧ P'.rows.items = P.rows.items ∧
      P'.rows.read = P.rows.read ++ vals ∧ (vals = [] → P.rows.read = P.rows.items) := by
  cases hc with
  | opened hr hidx =>
    left
    obtain rfl := Option.some.inj ((getElem?_snoc_of hP).symm.trans hP')
    exact ⟨piece_none (by rw [hr]; rfl), rfl⟩
  | @fetched ref count p₁ queryIdx portal vals rows hr hobj hportal hfetch hmax =>
    have hdraws : draws s r = some (p₁, count) := by rw [draws, hr]; simp only [hobj]
    have hlt := (List.getElem?_eq_some_iff.1 hportal).1
    dsimp only at hP'
    by_cases heq : p₁ = p
    · subst heq
      obtain rfl := Option.some.inj (hportal.symm.trans hP)
      rw [List.getElem?_set_self hlt] at hP'
      obtain rfl := Option.some.inj hP'
      obtain ⟨hread, hall⟩ := spiCursorFetch_forward (hfwd count hdraws) hfetch
      refine .inr ⟨vals, ?_, (mem_spiCursorFetch hfetch).1, hread, hall⟩
      rw [Cursor.piece, hdraws, hportal]
      simp only [if_true, hfetch]
    · left
      rw [List.getElem?_set_ne heq] at hP'
      obtain rfl := Option.some.inj (hP.symm.trans hP')
      refine ⟨?_, rfl⟩
      rw [Cursor.piece, hdraws, hP]
      exact if_neg heq
  | _ hr =>
    obtain rfl := Option.some.inj (hP.symm.trans hP')
    exact .inl ⟨piece_none ‹_›, rfl⟩

/-- **Forward**: what was got is what the portal has passed. -/
structure Drawn (rows : List Row) (pieces : List (List Row)) (P : Portal) : Prop where
  items : P.rows.items = rows
  read : pieces.flatten = P.rows.read
  all : [] ∈ pieces → P.rows.read = rows

/-- One request more. -/
theorem Drawn.snoc {p : ℕ} {P P' : Portal} {rows : List Row} {pieces : List (List Row)}
    (hd : Drawn rows pieces P) (hc : Change plans s r s') (hP : s.portals[p]? = some P)
    (hP' : s'.portals[p]? = some P') (hfwd : Forward p s r) :
    Drawn rows (pieces ++ piece p s r) P' := by
  rcases hc.piece hP hP' hfwd with ⟨hnil, rfl⟩ | ⟨vals, hone, hitems, hread, hall⟩
  · rw [hnil, List.append_nil]
    exact hd
  · have hitems' : P'.rows.items = rows := hitems.trans hd.items
    refine ⟨hitems', ?_, fun hmem => ?_⟩
    · rw [hone, List.flatten_append, List.flatten_singleton, hd.read, hread]
    -- the whole result has been passed before or with the piece that is empty
    · have hbefore : P.rows.read = rows := by
        rw [hone, List.mem_append, List.mem_singleton] at hmem
        rcases hmem with hmem | hmem
        · exact hd.all hmem
        · exact (hall hmem.symm).trans hd.items
      have hprefix : P'.rows.read <+: rows := hitems' ▸ List.take_prefix ..
      rw [hread, hbefore] at hprefix ⊢
      exact (List.prefix_append rows vals).eq_of_length_le hprefix.length_le |>.symm

theorem Change.length (hc : Change plans s r s') : s.portals.length ≤ s'.portals.length := by
  cases hc with
  | opened hr hidx => exact (List.sublist_append_left ..).length_le
  | fetched hr hobj hportal hfetch hmax => exact le_of_eq List.length_set.symm
  | _ => exact le_rfl

/-- Before a cursor is opened nothing is got of its portal. -/
theorem fetched_nil_of_run (hr : Run (Step plans isCursorPlan) .start h s) {p : ℕ}
    (hp : s.portals.length ≤ p) : fetched p h = [] := by
  induction hr with
  | nil => rfl
  | @snoc h s₁ r s₂ hr hstep ih =>
    have hle := hstep.change.length.trans hp
    have hpiece : piece p s₁ r = [] := by
      rw [piece, List.getElem?_eq_none hle]
      split <;> first | rfl | contradiction
    rw [fetched, ih hle, hpiece]
    rfl

theorem step_open {idx : Int32} {args : Option (List Arg)} {place : ℕ → BitVec 64}
    {rows : List Row} {scroll : Bool}
    (h : Step plans isCursorPlan s (.cursorOpen idx args place rows scroll) s') :
    s'.portals = s.portals ++ [⟨idx.toInt.toNat, scroll, .start rows⟩] := by
  obtain ⟨a, h⟩ := h
  obtain ⟨e, -, h⟩ := bind_returns.1 h
  cases h
  rfl

theorem tableIndex_eq {n : ℕ} (idx : Int32) (hn : n ≤ intMax) :
    State.tableIndex idx n = if idx.toInt < 0 then idx.toInt + n else idx.toInt := by
  have := int32_range idx
  rw [intMax] at hn
  rw [State.tableIndex, asInt32_of_range (x := n) (by omega) (by omega)]
  split_ifs with h0
  · exact asInt32_of_range (by omega) (by omega)
  · rfl

/-- The module of the one query `SELECT a FROM t`, compiled. -/
def selectARows : List QueryAttrs :=
  match runAndCompile (sampleModule [] 1) Rows.oneColumn (fun _ _ => 0)
    (some fun _ => sampleQuery selectA []) with
  | .ok (some rows) => rows
  | _ => []

/-- And loaded. -/
def selectAPlans : List (QueryPlan Rows.oneColumn) :=
  match initQueryPlans Rows.oneColumn 0 (selectARows.map (stored [])) with
  | .ok plans => plans
  | _ => []

theorem selectARows_eq : runAndCompile (sampleModule [] 1) Rows.oneColumn (fun _ _ => 0)
    (some fun _ => sampleQuery selectA []) = .ok (some selectARows) := rfl

theorem selectAPlans_eq :
    createModuleWithQueries Rows.oneColumn (selectARows.map (stored [])) [] = .ok selectAPlans := by
  have hidx : ∀ (k : ℕ) row, selectARows[k]? = some row → row 1 = some (.int4 (k : ℕ)) := by
    intro k row hk
    obtain ⟨t, -, hone⟩ := (compileEach_rows (runAndCompile_rows selectARows_eq).2).2 k row hk
    rw [Nat.zero_add] at hone
    exact Agree.index hone
  rw [createModuleWithQueries, loadModuleQueries_eq hidx (by decide) (storedAs_map _ _)]
  rfl

/-- Two rows. -/
def twoRows : List Row := [[some ⟨5, none⟩], [some ⟨7, none⟩]]

/-- A fetch of one, and then of all that is left, and again; the last row of the second piece. -/
theorem twoRows_run : ∃ h s s₀, Run (Step selectAPlans fun _ => true) .start h s ∧
    (s₀, .cursorOpen 0 (some []) (fun _ => 0) twoRows false) ∈ h ∧ s₀.portals.length = 0 ∧
    Meets (Forward 0) h ∧ [] ∈ fetched 0 h ∧ TypedRows selectAPlans h ∧
    s.objs[2]? = some (.tupleTable (some [[some ⟨7, none⟩]]) 0) ∧
    s.objs[4]? = some (.heapTuple [some ⟨7, none⟩] 2) := by
  have h0 : Run (Step selectAPlans fun _ => true) State.start [] .start := .nil
  have hr := (((((h0.snoc (a := .cursorOpen 0 (some []) (fun _ => 0) twoRows false) ⟨_, rfl⟩).snoc
    (a := .cursorFetch (.obj 0) 1) ⟨_, rfl⟩).snoc (a := .cursorFetchAll (.obj 0)) ⟨_, rfl⟩).snoc
    (a := .cursorFetchAll (.obj 0)) ⟨_, rfl⟩).snoc (a := .tupleTableGet (.obj 2) (-1)) ⟨_, rfl⟩)
  refine ⟨_, _, .start, hr, by simp, rfl, ?_, ?_, ?_, rfl, rfl⟩
  · simp only [meets_cons, meets_nil, and_true]
    refine ⟨?_, ?_, ?_, ?_, ?_⟩ <;> rintro count ⟨⟩ <;> decide
  · simp only [fetched, List.mem_append]
    exact .inl (.inr (List.mem_singleton.2 rfl))
  · rintro e he idx args place rows scroll heq plan hplan row hrow
    simp only [List.mem_cons, List.not_mem_nil, or_false] at he
    rcases he with rfl | rfl | rfl | rfl | rfl <;> cases heq
    obtain rfl := Option.some.inj hplan
    have hcol : ∀ d : Datum, d.OfType int4Oid :=
      fun d => ⟨fun h => absurd h (by decide), fun h => absurd h (by decide)⟩
    simp only [twoRows, List.mem_cons, List.not_mem_nil, or_false] at hrow
    rcases hrow with rfl | rfl <;> exact .cons (fun d _ => hcol d) .nil

end Rustica.Cursor
