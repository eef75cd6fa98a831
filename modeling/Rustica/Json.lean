/-
  The two readers of JSON.

  A guest reads a document by nine callbacks of its own.  It may have `rst_json_parse` read a text,
  or `rst_jsonb_iterate` a jsonb value.  The first is a set of callbacks for `pg_parse_json`, which
  stops at the first that fails; the second is a loop over the tokens of the value that goes on to
  the end, with a flag for a call that has failed and another for the array that jsonb wraps around
  a single scalar.  On a jsonb value and on the text of it they come to the same calls, and both
  are the depth-first events of the document up to the first that does not succeed
  (`readers_agree`).

  PostgreSQL's own readers and conversions are a parameter (`PgJson`).
-/
import Rustica.Lib.Sax
import Rustica.Native

namespace Rustica

open Sax

/-! ## JSON in PostgreSQL -/

/-- The bytes of a C string. -/
abbrev CString := {s : List UInt8 // 0 ∉ s}

/-- The `JsonTokenType` of a scalar. -/
inductive JsonTokenType where
  | string
  | number
  | true
  | false
  | null
deriving DecidableEq

/-- A scalar of a text, a string without its escapes. -/
structure JsonToken where
  token : CString
  type : JsonTokenType
deriving DecidableEq

/-- A `JsonbValue` that is a scalar; `N` are the numerics.  PostgreSQL keeps NUL out of strings. -/
inductive JsonbScalar (N : Type) where
  | null
  | bool (b : Bool)
  | numeric (n : N)
  | string (s : CString)

/-- A jsonb value. -/
abbrev Jsonb (N : Type) := Doc CString (JsonbScalar N)

/-- What `JsonbIteratorNext` returns, with the value it stores; the end of a list is `WJB_DONE`. -/
inductive WjbToken (N : Type) where
  | beginArray (rawScalar : Bool)
  | endArray
  | beginObject
  | endObject
  | key (k : CString)
  | value (s : JsonbScalar N)
  | elem (s : JsonbScalar N)

/-- What the two natives use of PostgreSQL; `F` are the doubles. -/
structure PgJson (N F : Type) where
  /-- `jsonb_out` -/
  jsonbOut : Jsonb N → CString
  /-- `JsonbIteratorNext`, call after call -/
  iteratorNext : Jsonb N → List (WjbToken N)
  /-- `pg_parse_json`: the events of a text, and whether it is one to the end -/
  parseJson : List UInt8 → List (Event CString JsonToken) × Bool
  /-- `numeric_out` -/
  numericOut : N → CString
  /-- `numeric_float8` -/
  numericFloat8 : N → Except String F
  /-- `float8in` -/
  float8in : CString → Except String F

variable {N F : Type}

/-- The scalar is a null. -/
def JsonbScalar.isNull : JsonbScalar N → Bool
  | .null => true
  | _ => false

/-- A scalar as it is printed and read again. -/
def PgJson.printed (pg : PgJson N F) : JsonbScalar N → JsonToken
  | .null => ⟨⟨[110, 117, 108, 108], by decide⟩, .null⟩
  | .bool true => ⟨⟨[116, 114, 117, 101], by decide⟩, .true⟩
  | .bool false => ⟨⟨[102, 97, 108, 115, 101], by decide⟩, .false⟩
  | .numeric n => ⟨pg.numericOut n, .number⟩
  | .string s => ⟨s, .string⟩

/-- An event of a value, in the text of the value. -/
def PgJson.printedEvent (pg : PgJson N F) :
    Event CString (JsonbScalar N) → Event CString JsonToken
  | .objectStart => .objectStart
  | .objectEnd => .objectEnd
  | .arrayStart => .arrayStart
  | .arrayEnd => .arrayEnd
  | .fieldStart k isNull => .fieldStart k isNull
  | .scalar s => .scalar (pg.printed s)

mutual

/-- The tokens of a value, depth first; `wrap` tells how a scalar is returned where it stands. -/
def tokens (wrap : JsonbScalar N → WjbToken N) : Jsonb N → List (WjbToken N)
  | .scalar s => [wrap s]
  | .array xs => .beginArray false :: (elementTokens xs ++ [.endArray])
  | .object fs => .beginObject :: (fieldTokens fs ++ [.endObject])

def elementTokens : List (Jsonb N) → List (WjbToken N)
  | [] => []
  | x :: xs => tokens .elem x ++ elementTokens xs

def fieldTokens : List (CString × Jsonb N) → List (WjbToken N)
  | [] => []
  | (k, x) :: fs => .key k :: (tokens .value x ++ fieldTokens fs)

end

/-- The tokens of a whole value: a single scalar is stored as an array of one. -/
def jsonbTokens : Jsonb N → List (WjbToken N)
  | .scalar s => [.beginArray true, .elem s, .endArray]
  | j => tokens .elem j

/-- What is assumed of PostgreSQL: the tokens and the events are those of the document, in its
    order, and the two conversions to a double agree. -/
structure PgJson.LawfulAt (pg : PgJson N F) (j : Jsonb N) : Prop where
  iterator : pg.iteratorNext j = jsonbTokens j
  text : pg.parseJson (pg.jsonbOut j).1 =
    ((j.events JsonbScalar.isNull).map pg.printedEvent, true)
  float8 : ∀ n, pg.numericFloat8 n = pg.float8in (pg.numericOut n)

/-! ## The callbacks of the guest -/

/-- The functions that a guest may export for JSON. -/
inductive JsonFunc where
  | jsonParsePushString
  | jsonParsePushNumber
  | jsonParsePushBool
  | jsonParsePushNull
  | jsonParseObjectStart
  | jsonParseObjectFieldStart
  | jsonParseObjectEnd
  | jsonParseArrayStart
  | jsonParseArrayEnd
deriving DecidableEq

/-- A call of one of them. -/
inductive JsonCall (F : Type) where
  | pushString (s : Varatt)
  | pushNumber (f : F)
  | pushBool (b : Bool)
  | pushNull
  | objectStart
  | objectFieldStart (key : Varatt)
  | objectEnd
  | arrayStart
  | arrayEnd

/-- A guest: which functions it exports, and whether a call succeeds after those before it. -/
structure JsonGuest (F : Type) where
  exported : JsonFunc → Bool
  succeeds : List (JsonCall F) → JsonCall F → Bool

variable (pg : PgJson N F) (guest : JsonGuest F)

/-! ## `rst_json_parse` -/

/-- `wasm_runtime_call_wasm`, of an exported function. -/
def JsonGuest.call (calls : List (JsonCall F)) (c : JsonCall F) :
    List (JsonCall F) × Verdict String :=
  (calls ++ [c], if guest.succeeds calls c then .success else .failed)

/-- A callback that fails when the guest does not export its function. -/
def JsonGuest.callback (func : JsonFunc) (c : JsonCall F) (calls : List (JsonCall F)) :
    List (JsonCall F) × Verdict String :=
  if guest.exported func then guest.call calls c else (calls, .failed)

namespace JsonParse

def objectStart := guest.callback .jsonParseObjectStart .objectStart

def objectEnd := guest.callback .jsonParseObjectEnd .objectEnd

def arrayStart := guest.callback .jsonParseArrayStart .arrayStart

def arrayEnd := guest.callback .jsonParseArrayEnd .arrayEnd

def objectFieldStart (fname : CString) (calls : List (JsonCall F)) :
    List (JsonCall F) × Verdict String :=
  match cstringIntoVarattObj fname.1 with
  | .error err => (calls, .raised err)
  | .ok key => guest.callback .jsonParseObjectFieldStart (.objectFieldStart key) calls

def pushScalar (tok : JsonToken) (calls : List (JsonCall F)) :
    List (JsonCall F) × Verdict String :=
  match tok.type with
  | .string =>
    match cstringIntoVarattObj tok.token.1 with
    | .error err => (calls, .raised err)
    | .ok str => guest.callback .jsonParsePushString (.pushString str) calls
  | .number =>
    match pg.float8in tok.token with
    | .error err => (calls, .raised err)
    | .ok num => guest.callback .jsonParsePushNumber (.pushNumber num) calls
  | .true => guest.callback .jsonParsePushBool (.pushBool true) calls
  | .false => guest.callback .jsonParsePushBool (.pushBool false) calls
  | .null => guest.callback .jsonParsePushNull .pushNull calls

/-- The `JsonSemAction`. -/
def sem (calls : List (JsonCall F)) : Event CString JsonToken →
    List (JsonCall F) × Verdict String
  | .objectStart => objectStart guest calls
  | .objectEnd => objectEnd guest calls
  | .arrayStart => arrayStart guest calls
  | .arrayEnd => arrayEnd guest calls
  | .fieldStart fname _ => objectFieldStart guest fname calls
  | .scalar tok => pushScalar pg guest tok calls

end JsonParse

/-- `rst_json_parse` of the bytes in its range, with the calls that it makes. -/
def rstJsonParseBytes (bytes : List UInt8) : Native Bool × List (JsonCall F) :=
  let (events, complete) := pg.parseJson bytes
  match drive (JsonParse.sem pg guest) [] events with
  | (calls, .success) => (.returns complete, calls)
  | (calls, .failed) => (.returns false, calls)
  | (calls, .raised err) => (.raises err, calls)

/-- `rsl_jsonb_out`. -/
def rslJsonbOut (j : Jsonb N) : Except String Varatt := cstringIntoVarattObj (pg.jsonbOut j).1

/-! ## `rst_jsonb_iterate` -/

/-- The variables of the loop, and the calls so far. -/
structure IterState (F : Type) where
  rawScalar : Bool
  success : Bool
  calls : List (JsonCall F)

/-- A call, if there is a function for it. -/
def IterState.call (st : IterState F) (func : JsonFunc) (c : JsonCall F) : IterState F :=
  if guest.exported func then ⟨st.rawScalar, guest.succeeds st.calls c, st.calls ++ [c]⟩ else st

/-- A call with a value that has to be made first, if there is a function for it. -/
def IterState.callWith {α : Type} (st : IterState F) (func : JsonFunc) (arg : Except String α)
    (c : α → JsonCall F) : IterState F × Verdict String :=
  if guest.exported func then
    match arg with
    | .error err => (st, .raised err)
    | .ok a => (st.call guest func (c a), .success)
  else (st, .success)

/-- The cases of `jbv.type`. -/
def IterState.push (st : IterState F) : JsonbScalar N → IterState F × Verdict String
  | .string s => st.callWith guest .jsonParsePushString (cstringIntoVarattObj s.1) .pushString
  | .numeric n => st.callWith guest .jsonParsePushNumber (pg.numericFloat8 n) .pushNumber
  | .bool b => (st.call guest .jsonParsePushBool (.pushBool b), .success)
  | .null => (st.call guest .jsonParsePushNull .pushNull, .success)

/-- One round of the loop. -/
def iterateStep (st : IterState F) : WjbToken N → IterState F × Verdict String
  | .beginArray rawScalar =>
    if rawScalar then ({ st with rawScalar := true }, .success)
    else if st.success then (st.call guest .jsonParseArrayStart .arrayStart, .success)
    else (st, .success)
  | .endArray =>
    if !st.rawScalar && st.success then
      (st.call guest .jsonParseArrayEnd .arrayEnd, .success)
    else (st, .success)
  | .beginObject =>
    if st.success then (st.call guest .jsonParseObjectStart .objectStart, .success)
    else (st, .success)
  | .endObject =>
    if st.success then (st.call guest .jsonParseObjectEnd .objectEnd, .success)
    else (st, .success)
  | .key k =>
    if st.success then
      st.callWith guest .jsonParseObjectFieldStart (cstringIntoVarattObj k.1) .objectFieldStart
    else (st, .success)
  | .value s | .elem s => if st.success then st.push pg guest s else (st, .success)

/-- `rst_jsonb_iterate`, with the calls that it makes. -/
def rstJsonbIterate (j : Jsonb N) : Native Bool × List (JsonCall F) :=
  match drive (iterateStep pg guest) ⟨false, true, []⟩ (pg.iteratorNext j) with
  | (st, .raised err) => (.raises err, st.calls)
  | (st, _) => (.returns st.success, st.calls)

/-! ## The calls of a document -/

/-- The call for an event, or the error of its value. -/
def PgJson.eventCall : Event CString (JsonbScalar N) → Except String (JsonCall F)
  | .objectStart => .ok .objectStart
  | .objectEnd => .ok .objectEnd
  | .arrayStart => .ok .arrayStart
  | .arrayEnd => .ok .arrayEnd
  | .fieldStart k _ => (cstringIntoVarattObj k.1).map .objectFieldStart
  | .scalar .null => .ok .pushNull
  | .scalar (.bool b) => .ok (.pushBool b)
  | .scalar (.numeric n) => (pg.numericFloat8 n).map .pushNumber
  | .scalar (.string s) => (cstringIntoVarattObj s.1).map .pushString

/-- **The calls of a document**, depth first, a single scalar without an array around it. -/
def PgJson.docCalls (j : Jsonb N) : List (Except String (JsonCall F)) :=
  (j.events JsonbScalar.isNull).map pg.eventCall

/-- All of the calls succeed. -/
def JsonGuest.Succeeds (cs : List (JsonCall F)) : Prop :=
  ∀ ds c, ds ++ [c] <+: cs → guest.succeeds ds c = true

/-- **A reading of the calls `all`**: they are made in order, all of them, or up to the first that
    fails, or up to the first value that is an error. -/
inductive Replays (all : List (Except String (JsonCall F))) :
    Native Bool × List (JsonCall F) → Prop
  | done {cs} : cs.map .ok = all → guest.Succeeds cs → Replays all (.returns true, cs)
  | failed {cs c} : (cs ++ [c]).map .ok <+: all → guest.Succeeds cs →
      guest.succeeds cs c = false → Replays all (.returns false, cs ++ [c])
  | raised {cs err} : cs.map .ok ++ [.error err] <+: all → guest.Succeeds cs →
      Replays all (.raises err, cs)

/-- One call of a document. -/
def JsonGuest.replay (calls : List (JsonCall F)) : Except String (JsonCall F) →
    List (JsonCall F) × Verdict String
  | .ok c => guest.call calls c
  | .error err => (calls, .raised err)

/-- The end of a reading. -/
def ended : List (JsonCall F) × Verdict String → Native Bool × List (JsonCall F)
  | (calls, .success) => (.returns true, calls)
  | (calls, .failed) => (.returns false, calls)
  | (calls, .raised err) => (.raises err, calls)

variable {pg : PgJson N F} {guest : JsonGuest F} {j : Jsonb N} {cs calls : List (JsonCall F)}
  {c : JsonCall F} {all rest : List (Except String (JsonCall F))}

theorem JsonGuest.succeeds_nil : guest.Succeeds [] := by
  rintro ds c h
  exact absurd (List.prefix_nil.1 h) (by simp)

theorem JsonGuest.Succeeds.concat (h : guest.Succeeds cs) (hc : guest.succeeds cs c = true) :
    guest.Succeeds (cs ++ [c]) := by
  rintro ds d hd
  rcases List.prefix_concat_iff.1 hd with hd | hd
  · obtain ⟨hds, hdc⟩ := List.append_inj' hd rfl
    rw [hds, List.singleton_inj.1 hdc]; exact hc
  · exact h ds d hd

/-- **A reading that is driven by its calls** replays them. -/
theorem replays_drive (hall : cs.map .ok ++ rest = all) (hcs : guest.Succeeds cs) :
    Replays guest all (ended (drive guest.replay cs rest)) := by
  induction rest generalizing cs with
  | nil => exact .done (by rw [← hall, List.append_nil]) hcs
  | cons e rest ih =>
    cases e with
    | error err =>
      rw [drive_cons_stop (show guest.replay cs (.error err) = (cs, .raised err) from rfl)
        (by simp)]
      exact .raised ⟨rest, by rw [← hall]; simp⟩ hcs
    | ok c =>
      cases hc : guest.succeeds cs c with
      | true =>
        have hstep : guest.replay cs (.ok c) = (cs ++ [c], .success) := by
          rw [JsonGuest.replay, JsonGuest.call, if_pos hc]
        rw [drive_cons_success hstep]
        exact ih (by rw [← hall]; simp) (hcs.concat hc)
      | false =>
        have hstep : guest.replay cs (.ok c) = (cs ++ [c], .failed) := by
          rw [JsonGuest.replay, JsonGuest.call, if_neg (by rw [hc]; exact Bool.false_ne_true)]
        rw [drive_cons_stop hstep (by simp)]
        exact .failed ⟨rest, by rw [← hall]; simp⟩ hcs hc

/-! ## The reader of texts -/

variable (hexp : ∀ func, guest.exported func = true)

include hexp in
/-- The callback for an event of the text makes the call of the event. -/
theorem sem_printedEvent (hpg : pg.LawfulAt j) (e : Event CString (JsonbScalar N)) :
    JsonParse.sem pg guest calls (pg.printedEvent e) = guest.replay calls (pg.eventCall e) := by
  have hcb : ∀ func (c : JsonCall F), guest.callback func c calls = guest.call calls c :=
    fun func c => if_pos (hexp func)
  cases e with
  | objectStart => exact hcb _ _
  | objectEnd => exact hcb _ _
  | arrayStart => exact hcb _ _
  | arrayEnd => exact hcb _ _
  | fieldStart k isNull =>
    simp only [PgJson.printedEvent, JsonParse.sem, JsonParse.objectFieldStart, PgJson.eventCall]
    cases cstringIntoVarattObj k.1 with
    | error err => rfl
    | ok key => exact hcb _ _
  | scalar s =>
    cases s with
    | null => exact hcb _ _
    | bool b => cases b with
      | true => exact hcb _ _
      | false => exact hcb _ _
    | numeric n =>
      simp only [PgJson.printedEvent, JsonParse.sem, JsonParse.pushScalar, PgJson.printed,
        PgJson.eventCall, ← hpg.float8]
      cases pg.numericFloat8 n with
      | error err => rfl
      | ok num => exact hcb _ _
    | string s =>
      simp only [PgJson.printedEvent, JsonParse.sem, JsonParse.pushScalar, PgJson.printed,
        PgJson.eventCall]
      cases cstringIntoVarattObj s.1 with
      | error err => rfl
      | ok str => exact hcb _ _

include hexp in
theorem rstJsonParseBytes_eq (hpg : pg.LawfulAt j) :
    rstJsonParseBytes pg guest (pg.jsonbOut j).1 =
      ended (drive guest.replay [] (pg.docCalls j)) := by
  have hdrive : drive (JsonParse.sem pg guest) []
      ((j.events JsonbScalar.isNull).map pg.printedEvent) =
      drive guest.replay [] (pg.docCalls j) := by
    rw [PgJson.docCalls, drive_map, drive_map]
    congr 1
    funext calls e
    exact sem_printedEvent hexp hpg e
  simp only [rstJsonParseBytes, hpg.text, hdrive]
  rcases drive guest.replay [] (pg.docCalls j) with ⟨calls, v⟩
  cases v <;> rfl

/-! ## The reader of values -/

/-- A token stands for an event. -/
inductive Tells : WjbToken N → Event CString (JsonbScalar N) → Prop
  | beginArray : Tells (.beginArray false) .arrayStart
  | endArray : Tells .endArray .arrayEnd
  | beginObject : Tells .beginObject .objectStart
  | endObject : Tells .endObject .objectEnd
  | key {k isNull} : Tells (.key k) (.fieldStart k isNull)
  | value {s} : Tells (.value s) (.scalar s)
  | elem {s} : Tells (.elem s) (.scalar s)

mutual

/-- **The tokens tell the events**, however a scalar is wrapped. -/
theorem tells_tokens {wrap : JsonbScalar N → WjbToken N} (hwrap : ∀ s, Tells (wrap s) (.scalar s)) :
    ∀ j : Jsonb N, List.Forall₂ Tells (tokens wrap j) (j.events JsonbScalar.isNull)
  | .scalar s => by
    rw [tokens, Doc.events]
    exact .cons (hwrap s) .nil
  | .array xs => by
    rw [tokens, Doc.events]
    exact .cons .beginArray (List.rel_append (tells_elementTokens xs) (.cons .endArray .nil))
  | .object fs => by
    rw [tokens, Doc.events]
    exact .cons .beginObject (List.rel_append (tells_fieldTokens fs) (.cons .endObject .nil))

theorem tells_elementTokens :
    ∀ xs : List (Jsonb N), List.Forall₂ Tells (elementTokens xs) (elements JsonbScalar.isNull xs)
  | [] => by rw [elementTokens, elements]; exact .nil
  | x :: xs => by
    rw [elementTokens, elements]
    exact List.rel_append (tells_tokens (fun _ => .elem) x) (tells_elementTokens xs)

theorem tells_fieldTokens :
    ∀ fs : List (CString × Jsonb N),
      List.Forall₂ Tells (fieldTokens fs) (fields JsonbScalar.isNull fs)
  | [] => by rw [fieldTokens, fields]; exact .nil
  | (k, x) :: fs => by
    rw [fieldTokens, fields]
    exact .cons .key (List.rel_append (tells_tokens (fun _ => .value) x) (tells_fieldTokens fs))

end

/-- The state of the loop after a call that the reader of texts would have made. -/
def told (raw : Bool) : List (JsonCall F) × Verdict String → IterState F × Verdict String
  | (calls, .success) => (⟨raw, true, calls⟩, .success)
  | (calls, .failed) => (⟨raw, false, calls⟩, .success)
  | (calls, .raised err) => (⟨raw, true, calls⟩, .raised err)

variable {t : WjbToken N} {e : Event CString (JsonbScalar N)} {ts : List (WjbToken N)}
  {es : List (Event CString (JsonbScalar N))} {raw : Bool}

theorem told_call (calls : List (JsonCall F)) (c : JsonCall F) :
    told raw (guest.call calls c) = (⟨raw, guest.succeeds calls c, calls ++ [c]⟩, .success) := by
  rw [JsonGuest.call]
  cases guest.succeeds calls c <;> rfl

include hexp in
theorem iterState_call (func : JsonFunc) (c : JsonCall F) :
    ((⟨raw, true, calls⟩ : IterState F).call guest func c, Verdict.success) =
      told raw (guest.call calls c) := by
  rw [told_call, IterState.call, if_pos (hexp func)]

include hexp in
theorem iterState_callWith {α : Type} (func : JsonFunc) (arg : Except String α)
    (c : α → JsonCall F) :
    (⟨raw, true, calls⟩ : IterState F).callWith guest func arg c =
      told raw (guest.replay calls (arg.map c)) := by
  simp only [IterState.callWith, if_pos (hexp func)]
  cases arg with
  | error err => rfl
  | ok a => exact iterState_call hexp func (c a)

include hexp in
theorem iterState_push (s : JsonbScalar N) :
    (⟨raw, true, calls⟩ : IterState F).push pg guest s =
      told raw (guest.replay calls (pg.eventCall (.scalar s))) := by
  cases s with
  | null => exact iterState_call hexp _ _
  | bool b => exact iterState_call hexp _ _
  | numeric n => exact iterState_callWith hexp _ _ _
  | string s => exact iterState_callWith hexp _ _ _

include hexp in
/-- A round of the loop makes the call of the event. -/
theorem iterateStep_tells (h : Tells t e) :
    iterateStep pg guest ⟨false, true, calls⟩ t =
      told false (guest.replay calls (pg.eventCall e)) := by
  cases h with
  | beginArray => exact iterState_call hexp _ _
  | endArray => exact iterState_call hexp _ _
  | beginObject => exact iterState_call hexp _ _
  | endObject => exact iterState_call hexp _ _
  | key => exact iterState_callWith hexp _ _ _
  | value => exact iterState_push hexp _
  | elem => exact iterState_push hexp _

/-- Once a call has failed, the loop goes on without a call. -/
theorem drive_iterateStep_failed (h : List.Forall₂ Tells ts es) :
    drive (iterateStep pg guest) ⟨raw, false, calls⟩ ts = (⟨raw, false, calls⟩, .success) := by
  induction h with
  | nil => rfl
  | @cons t e ts es ht _ ih =>
    have hstep : iterateStep pg guest ⟨raw, false, calls⟩ t = (⟨raw, false, calls⟩, .success) := by
      cases ht with
      | endArray => cases raw <;> rfl
      | _ => rfl
    rw [drive_cons_success hstep]
    exact ih

include hexp in
/-- **The loop makes the calls of the events**, and keeps in mind whether one has failed. -/
theorem drive_iterateStep (h : List.Forall₂ Tells ts es) :
    drive (iterateStep pg guest) ⟨false, true, calls⟩ ts =
      told false (drive guest.replay calls (es.map pg.eventCall)) := by
  induction h generalizing calls with
  | nil => rfl
  | @cons t e ts es ht hts ih =>
    have hstep : iterateStep pg guest ⟨false, true, calls⟩ t =
        told false (guest.replay calls (pg.eventCall e)) := iterateStep_tells hexp ht
    rw [List.map_cons]
    rcases hr : guest.replay calls (pg.eventCall e) with ⟨cs, v⟩
    rw [hr] at hstep
    cases v with
    | success =>
      rw [drive_cons_success hstep, drive_cons_success hr]
      exact ih
    | failed =>
      rw [drive_cons_success hstep, drive_cons_stop hr (by simp)]
      exact drive_iterateStep_failed hts
    | raised err =>
      rw [drive_cons_stop hstep (by simp), drive_cons_stop hr (by simp)]
      rfl

include hexp in
/-- A single scalar: the array around it is not told. -/
theorem drive_iterateStep_raw (s : JsonbScalar N) :
    drive (iterateStep pg guest) ⟨false, true, []⟩ [.beginArray true, .elem s, .endArray] =
      told true (drive guest.replay [] [pg.eventCall (.scalar s)]) := by
  have hfirst : iterateStep pg guest ⟨false, true, []⟩ (.beginArray true) =
      (⟨true, true, []⟩, .success) := rfl
  have hlast : ∀ b cs, iterateStep pg guest ⟨true, b, cs⟩ .endArray =
      (⟨true, b, cs⟩, .success) := fun _ _ => rfl
  have hstep : iterateStep pg guest ⟨true, true, []⟩ (.elem s) =
      told true (guest.replay [] (pg.eventCall (.scalar s))) := iterState_push hexp s
  rw [drive_cons_success hfirst]
  rcases hr : guest.replay [] (pg.eventCall (.scalar s)) with ⟨cs, v⟩
  rw [hr] at hstep
  cases v with
  | success =>
    rw [drive_cons_success hstep, drive_cons_success (hlast _ _), drive_cons_success hr]
    rfl
  | failed =>
    rw [drive_cons_success hstep, drive_cons_success (hlast _ _), drive_cons_stop hr (by simp)]
    rfl
  | raised err =>
    rw [drive_cons_stop hstep (by simp), drive_cons_stop hr (by simp)]
    rfl

include hexp in
theorem rstJsonbIterate_eq (hpg : pg.LawfulAt j) :
    rstJsonbIterate pg guest j = ended (drive guest.replay [] (pg.docCalls j)) := by
  have hdrive : ∃ raw, drive (iterateStep pg guest) ⟨false, true, []⟩ (jsonbTokens j) =
      told raw (drive guest.replay [] (pg.docCalls j)) := by
    cases j with
    | scalar s => exact ⟨true, drive_iterateStep_raw hexp s⟩
    | array xs => exact ⟨false, drive_iterateStep hexp (tells_tokens (fun _ => .elem) _)⟩
    | object fs => exact ⟨false, drive_iterateStep hexp (tells_tokens (fun _ => .elem) _)⟩
  obtain ⟨raw, hdrive⟩ := hdrive
  simp only [rstJsonbIterate, hpg.iterator, hdrive]
  rcases drive guest.replay [] (pg.docCalls j) with ⟨calls, v⟩
  cases v <;> rfl

/-- **The readers agree**: on a value and on its text they make the same calls and end the same,
    and the calls are those of the document up to the first that does not succeed. -/
theorem readers_agree (hpg : pg.LawfulAt j) (hexp : ∀ func, guest.exported func = true) {t : Varatt}
    (ht : rslJsonbOut pg j = .ok t) :
    rstJsonbIterate pg guest j = rstJsonParseBytes pg guest t.data ∧
      Replays guest (pg.docCalls j) (rstJsonbIterate pg guest j) := by
  rw [data_of_cstringIntoVarattObj ht, rstJsonbIterate_eq hexp hpg, rstJsonParseBytes_eq hexp hpg]
  exact ⟨rfl, replays_drive rfl JsonGuest.succeeds_nil⟩

/-! ## An instance -/

/-- The field `a` with the array of a digit and a null. -/
def digitValue (n : Fin 10) : Jsonb (Fin 10) :=
  .object [(⟨[97], by decide⟩, .array [.scalar (.numeric n), .scalar .null])]

/-- The text `{"a": [1, null]}`. -/
def oneText : CString :=
  ⟨[123, 34, 97, 34, 58, 32, 91, 49, 44, 32, 110, 117, 108, 108, 93, 125], by decide⟩

/-- PostgreSQL, as far as that text goes. -/
def digitJson : PgJson (Fin 10) ℕ where
  jsonbOut _ := oneText
  iteratorNext := jsonbTokens
  parseJson b :=
    if b = oneText.1 then
      ([.objectStart, .fieldStart ⟨[97], by decide⟩ false, .arrayStart,
        .scalar ⟨⟨[49], by decide⟩, .number⟩, .scalar ⟨⟨[110, 117, 108, 108], by decide⟩, .null⟩,
        .arrayEnd, .objectEnd], true)
    else ([], false)
  numericOut n := ⟨[48 + .ofNat n], by revert n; decide⟩
  numericFloat8 n := .ok n
  float8in s :=
    match s.1 with
    | [d] => .ok (d.toNat - 48)
    | _ => .error "invalid input syntax for type double precision"

theorem digitJson_lawful : digitJson.LawfulAt (digitValue 1) where
  iterator := rfl
  text := by
    simp only [digitJson, if_pos, digitValue, Doc.events, fields, elements]
    rfl
  float8 := by decide

/-- A guest whose fourth call fails. -/
def fourthFails : JsonGuest ℕ := ⟨fun _ => true, fun calls _ => calls.length < 3⟩

theorem digitValue_readers_agree :
    rstJsonbIterate digitJson fourthFails (digitValue 1) =
      rstJsonParseBytes digitJson fourthFails oneText.1 :=
  (readers_agree digitJson_lawful (fun _ => rfl) (t := ⟨true, oneText.1, by decide⟩) rfl).1

end Rustica
