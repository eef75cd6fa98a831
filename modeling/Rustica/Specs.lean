/-
  The language of test specifications, and nulls in it.

  A specification has packages and files, a range its first index and the end, in any order; each of
  these may be null, which is to be as good as not there.  `next` says what the events of such a
  document lead to.  The driver follows it (`follows_next`) up to the first null and to the end of the
  files, where it stops.  So a null changes what is called, unless the reading has stopped before or
  would call nothing more (`nulls_ignored_iff`).
-/
import Rustica.Moontest
import Mathlib.Data.List.ReduceOption

namespace Rustica.Spec

open Sax

/-! ## Specifications -/

/-- The names of the fields of a range. -/
def boundField (isEnd : Bool) : CString := if isEnd then endField else startField

/-- The names of the fields at the top. -/
def topField (isFiles : Bool) : CString := if isFiles then fileAndIndexField else packageField

section
variable (pg : PgTest)

/-- A field of a range: one of its numbers, as it is written, or a null in its place. -/
inductive RangeMember where
  | bound (isEnd : Bool) (token : CString) (n : ℤ) (token_eq : pg.strtoint32 token = .ok n)
  | null (isEnd : Bool) (token : CString)

variable {pg}

def RangeMember.field : RangeMember pg → CString × Doc CString JsonToken
  | .bound isEnd token _ _ => (boundField isEnd, .scalar ⟨token, .number⟩)
  | .null isEnd token => (boundField isEnd, .scalar ⟨token, .null⟩)

/-- The numbers that are set, after a field. -/
def RangeMember.set (b : Option ℤ × Option ℤ) : RangeMember pg → Option ℤ × Option ℤ
  | .bound false _ n _ => (some n, b.2)
  | .bound true _ n _ => (b.1, some n)
  | .null _ _ => b

def bounds (members : List (RangeMember pg)) : Option ℤ × Option ℤ :=
  members.foldl RangeMember.set (none, none)

variable (pg)

/-- A range with both of its numbers. -/
structure RangeEntry where
  members : List (RangeMember pg)
  first : ℤ
  last : ℤ
  bounds_eq : bounds members = (some first, some last)

/-- A file and its ranges. -/
structure FileEntry where
  filename : CString
  ranges : List (RangeEntry pg)

/-- A field of a specification. -/
inductive TopMember where
  | package (name : CString)
  | files (fs : List (FileEntry pg))
  | null (isFiles : Bool) (token : CString)

variable {pg}

def RangeEntry.doc (r : RangeEntry pg) : Doc CString JsonToken :=
  .object (r.members.map RangeMember.field)

def FileEntry.doc (f : FileEntry pg) : Doc CString JsonToken :=
  .array [.scalar ⟨f.filename, .string⟩, .array (f.ranges.map RangeEntry.doc)]

def TopMember.field : TopMember pg → CString × Doc CString JsonToken
  | .package name => (topField false, .scalar ⟨name, .string⟩)
  | .files fs => (topField true, .array (fs.map FileEntry.doc))
  | .null isFiles token => (topField isFiles, .scalar ⟨token, .null⟩)

/-- A specification. -/
def doc (members : List (TopMember pg)) : Doc CString JsonToken :=
  .object (members.map TopMember.field)

end

/-! ## What the events of a specification lead to -/

/-- A place in a specification; in a file with its name, and in a range with the numbers so far. -/
inductive Place where
  | start
  | top
  | package
  | filesArray
  | files
  | fileName
  | rangesArray (f : CString)
  | ranges (f : CString)
  | range (f : CString) (b : Option ℤ × Option ℤ)
  | bound (f : CString) (b : Option ℤ × Option ℤ) (isEnd : Bool)
  | fileEnd
  | finished

/-- The end of a range.  The name of a file with tests has to fit in a text. -/
def endRange (f : CString) : Option ℤ × Option ℤ → Reply Place TestCall
  | (some first, some last) =>
    if first < last ∧ varattMax - varhdrsz < f.1.length then .reported
    else .goes (.ranges f) (executes f.1 first (last - first).toNat)
  | _ => .reported

/-- The value of a field of a range. -/
def setBound (pg : PgTest) (f : CString) (b : Option ℤ × Option ℤ) (isEnd : Bool)
    (tok : JsonToken) : Reply Place TestCall :=
  if tok.type ≠ .number then .reported
  else
    match pg.strtoint32 tok.token with
    | .error _ => .reported
    | .ok n => .goes (.range f (if isEnd then (b.1, some n) else (some n, b.2))) []

variable (pg : PgTest) (guest : TestGuest)

/-- The events of specifications.  At a null, which has been announced with the name of its field, the
    field is over. -/
def next : Place → Event CString JsonToken → Reply Place TestCall
  | .start, .objectStart => .goes .top []
  | .top, .fieldStart name isNull =>
    if name = packageField then .goes (if isNull then .top else .package) []
    else if name = fileAndIndexField then .goes (if isNull then .top else .filesArray) []
    else .reported
  | .top, .scalar tok => if tok.type = .null then .gap .top else .misplaced
  | .top, .objectEnd => .goes .finished (if guest.finishExported then [.finish] else [])
  | .package, .scalar tok => if tok.type = .string then .goes .top [] else .reported
  | .filesArray, .arrayStart => .goes .files []
  | .files, .arrayStart => .goes .fileName []
  | .files, .arrayEnd => .gap .top
  | .fileName, .scalar tok =>
    if tok.type = .string then .goes (.rangesArray tok.token) [] else .reported
  | .rangesArray f, .arrayStart => .goes (.ranges f) []
  | .ranges f, .objectStart => .goes (.range f (none, none)) []
  | .ranges _, .arrayEnd => .goes .fileEnd []
  | .range f b, .fieldStart name isNull =>
    if name = startField then .goes (if isNull then .range f b else .bound f b false) []
    else if name = endField then .goes (if isNull then .range f b else .bound f b true) []
    else .reported
  | .range f b, .scalar tok => if tok.type = .null then .gap (.range f b) else .misplaced
  | .range f b, .objectEnd => endRange f b
  | .bound f b isEnd, .scalar tok => setBound pg f b isEnd tok
  | .fileEnd, .arrayEnd => .goes .files []
  | _, _ => .misplaced

/-! ## The driver follows them -/

/-- The state holds the numbers that are set. -/
structure Bounds (b : Option ℤ × Option ℤ) (st : TestState) : Prop where
  startSet : st.rangeStartSet = b.1.isSome
  endSet : st.rangeEndSet = b.2.isSome
  start : ∀ n ∈ b.1, st.rangeStart = n
  last : ∀ n ∈ b.2, st.rangeEnd = n

def Place.expect : Place → Expect
  | .start => .eTop
  | .top => .eTopField
  | .package => .ePackageName
  | .filesArray => .eFileArray
  | .files => .eFileTuple
  | .fileName => .eFileName
  | .rangesArray _ => .eRangeArray
  | .ranges _ => .eRangeObject
  | .range _ _ => .eRangeField
  | .bound _ _ isEnd => if isEnd then .eRangeEnd else .eRangeStart
  | .fileEnd => .eFileEnd
  | .finished => .eEnd

/-- What the state holds at a place. -/
def Place.Holds (st : TestState) : Place → Prop
  | .rangesArray f | .ranges f => st.filename = some f
  | .range f b | .bound f b _ => st.filename = some f ∧ Bounds b st
  | _ => True

/-- The state at a place. -/
structure At (p : Place) (st : TestState) : Prop where
  expect : st.expect = p.expect
  holds : p.Holds st

variable {pg guest} {st : TestState} {p : Place} {f : CString} {b : Option ℤ × Option ℤ}

/-- The callback for an event does what the event leads to. -/
def Agrees (pg : PgTest) (guest : TestGuest) (st : TestState) (p : Place)
    (e : Event CString JsonToken) : Prop :=
  (next pg guest p e).Done At TestState.calls st (testSem pg guest st e)

theorem Bounds.goOn (h : Bounds b st) (x : Expect) : Bounds b { st with expect := x } :=
  ⟨h.startSet, h.endSet, h.start, h.last⟩

theorem calls_nil (st : TestState) : st.calls = st.calls ++ [] := (List.append_nil _).symm

theorem agrees_arrayStart (h : At p st) : Agrees pg guest st p .arrayStart := by
  have he := h.expect
  simp only [Agrees, testSem, jsonArrayStartCb, he]
  cases p with
  | filesArray => exact ⟨_, rfl, ⟨rfl, trivial⟩, calls_nil st⟩
  | files => exact ⟨_, rfl, ⟨rfl, trivial⟩, calls_nil st⟩
  | rangesArray f => exact ⟨_, rfl, ⟨rfl, h.holds⟩, calls_nil st⟩
  | bound f b isEnd =>
    cases isEnd with
    | false => rfl
    | true => rfl
  | _ => rfl

theorem agrees_arrayEnd (h : At p st) : Agrees pg guest st p .arrayEnd := by
  have he := h.expect
  simp only [Agrees, testSem, jsonArrayEndCb, he]
  cases p with
  | ranges f => exact ⟨_, rfl, ⟨rfl, trivial⟩, calls_nil st⟩
  | fileEnd => exact ⟨_, rfl, ⟨rfl, trivial⟩, calls_nil st⟩
  | bound f b isEnd =>
    cases isEnd with
    | false => rfl
    | true => rfl
  | _ => rfl

theorem agrees_objectStart (h : At p st) : Agrees pg guest st p .objectStart := by
  have he := h.expect
  simp only [Agrees, testSem, jsonObjectStartCb, he]
  cases p with
  | start => exact ⟨_, rfl, ⟨rfl, trivial⟩, calls_nil st⟩
  | ranges f =>
    exact ⟨_, rfl, ⟨rfl, h.holds, ⟨rfl, rfl, by simp, by simp⟩⟩, calls_nil st⟩
  | bound f b isEnd =>
    cases isEnd with
    | false => rfl
    | true => rfl
  | _ => rfl

/-- At a field, null or not. -/
theorem agrees_fieldStart (h : At p st) (name : CString) (isNull : Bool) :
    Agrees pg guest st p (.fieldStart name isNull) := by
  have he := h.expect
  simp only [Agrees, testSem, jsonObjectFieldStartCb, he]
  cases p with
  | top =>
    simp only [next, Place.expect]
    by_cases hp : name = packageField
    · rw [if_pos hp, if_pos hp]
      cases isNull with
      | true => exact ⟨_, rfl, h, calls_nil st⟩
      | false => exact ⟨_, rfl, ⟨rfl, trivial⟩, calls_nil st⟩
    rw [if_neg hp, if_neg hp]
    by_cases hf : name = fileAndIndexField
    · rw [if_pos hf, if_pos hf]
      cases isNull with
      | true => exact ⟨_, rfl, h, calls_nil st⟩
      | false => exact ⟨_, rfl, ⟨rfl, trivial⟩, calls_nil st⟩
    · rw [if_neg hf, if_neg hf]
      exact ⟨_, rfl⟩
  | range f b =>
    simp only [next, Place.expect]
    by_cases hs : name = startField
    · rw [if_pos hs, if_pos hs]
      cases isNull with
      | true => exact ⟨_, rfl, h, calls_nil st⟩
      | false => exact ⟨_, rfl, ⟨rfl, h.holds.1, h.holds.2.goOn _⟩, calls_nil st⟩
    rw [if_neg hs, if_neg hs]
    by_cases hf : name = endField
    · rw [if_pos hf, if_pos hf]
      cases isNull with
      | true => exact ⟨_, rfl, h, calls_nil st⟩
      | false => exact ⟨_, rfl, ⟨rfl, h.holds.1, h.holds.2.goOn _⟩, calls_nil st⟩
    · rw [if_neg hf, if_neg hf]
      exact ⟨_, rfl⟩
  | bound f b isEnd =>
    cases isEnd with
    | false => rfl
    | true => rfl
  | _ => rfl

/-- A number for a field of a range. -/
theorem agrees_bound {isEnd : Bool} (h : At (.bound f b isEnd) st) (tok : JsonToken) :
    Agrees pg guest st (.bound f b isEnd) (.scalar tok) := by
  have he := h.expect
  obtain ⟨hf, hb⟩ := h.holds
  simp only [Agrees, testSem, jsonScalarCb, he, next, setBound]
  cases isEnd with
  | false =>
    simp only [Place.expect, Bool.false_eq_true, if_false]
    by_cases ht : tok.type ≠ .number
    · rw [if_pos ht, if_pos ht]
      exact ⟨_, rfl⟩
    rw [if_neg ht, if_neg ht]
    cases hn : pg.strtoint32 tok.token with
    | error err => exact ⟨_, rfl⟩
    | ok n =>
      refine ⟨_, rfl, ⟨rfl, hf, ⟨rfl, hb.endSet, ?_, hb.last⟩⟩, calls_nil st⟩
      rintro m ⟨⟩
      rfl
  | true =>
    simp only [Place.expect, if_true]
    by_cases ht : tok.type ≠ .number
    · rw [if_pos ht, if_pos ht]
      exact ⟨_, rfl⟩
    rw [if_neg ht, if_neg ht]
    cases hn : pg.strtoint32 tok.token with
    | error err => exact ⟨_, rfl⟩
    | ok n =>
      refine ⟨_, rfl, ⟨rfl, hf, ⟨hb.startSet, rfl, hb.start, ?_⟩⟩, calls_nil st⟩
      rintro m ⟨⟩
      rfl

theorem agrees_scalar (h : At p st) (tok : JsonToken) : Agrees pg guest st p (.scalar tok) := by
  have he := h.expect
  cases p with
  | top =>
    simp only [Agrees, testSem, jsonScalarCb, he, next, Place.expect]
    split_ifs
    · rfl
    · rfl
  | range f b =>
    simp only [Agrees, testSem, jsonScalarCb, he, next, Place.expect]
    split_ifs
    · rfl
    · rfl
  | package =>
    simp only [Agrees, testSem, jsonScalarCb, he, next, Place.expect]
    by_cases ht : tok.type = .string
    · rw [if_pos ht, if_neg (not_not.2 ht)]
      exact ⟨_, rfl, ⟨rfl, trivial⟩, calls_nil st⟩
    · rw [if_neg ht, if_pos ht]
      exact ⟨_, rfl⟩
  | fileName =>
    simp only [Agrees, testSem, jsonScalarCb, he, next, Place.expect]
    by_cases ht : tok.type = .string
    · rw [if_pos ht, if_neg (not_not.2 ht)]
      exact ⟨_, rfl, ⟨rfl, rfl⟩, calls_nil st⟩
    · rw [if_neg ht, if_pos ht]
      exact ⟨_, rfl⟩
  | bound f b isEnd => exact agrees_bound h tok
  | _ =>
    simp only [Agrees, testSem, jsonScalarCb, he, Place.expect]
    rfl

/-- The tests of a range are executed, if the name of their file fits in a text. -/
theorem runRange_eq (pg : PgTest) (guest : TestGuest) {first last : ℤ} (hf : st.filename = some f)
    (hb : Bounds (some first, some last) st) :
    if first < last ∧ varattMax - varhdrsz < f.1.length then
      ∃ err, st.runRange pg guest = .error err
    else ∃ st₁, st.runRange pg guest = .ok st₁ ∧ st₁.filename = some f ∧
      st₁.calls = st.calls ++ executes f.1 first (last - first).toNat := by
  have h1 : st.rangeStart = first := hb.start first rfl
  have h2 : st.rangeEnd = last := hb.last last rfl
  rw [TestState.runRange, h1, h2, hf]
  simp only [Option.map_some, Option.getD_some]
  by_cases hlt : first < last
  · rw [if_pos hlt]
    by_cases hbig : varattMax - varhdrsz < f.1.length
    · rw [if_pos ⟨hlt, hbig⟩, cstringIntoVarattObj, dif_pos hbig]
      exact ⟨_, rfl⟩
    · rw [if_neg (fun h => hbig h.2)]
      obtain ⟨t, ht, hdata⟩ := cstringIntoVarattObj_rule (not_lt.1 hbig)
      obtain ⟨hcalls, -, hfile⟩ := executeFrom_eq pg guest st t.data first (last - first).toNat
      rw [ht]
      exact ⟨_, rfl, hfile.trans hf, by rw [hcalls, hdata]⟩
  · rw [if_neg hlt, if_neg (fun h => hlt h.1)]
    refine ⟨st, rfl, hf, ?_⟩
    rw [Int.toNat_of_nonpos (by omega), executes, List.append_nil]

/-- The end of a range. -/
theorem agrees_endRange (h : At (.range f b) st) :
    Agrees pg guest st (.range f b) .objectEnd := by
  have he := h.expect
  obtain ⟨hf, hb⟩ := h.holds
  have hstart := hb.startSet
  have hend := hb.endSet
  simp only [Agrees, testSem, jsonObjectEndCb, he, next, Place.expect]
  rcases b with ⟨_ | first, _ | last⟩
  · rw [hstart]
    exact ⟨_, rfl⟩
  · rw [hstart]
    exact ⟨_, rfl⟩
  · rw [hstart, hend]
    exact ⟨_, rfl⟩
  · rw [hstart, hend, endRange]
    have hrun := runRange_eq pg guest hf hb
    by_cases hbig : first < last ∧ varattMax - varhdrsz < f.1.length
    · rw [if_pos hbig] at hrun ⊢
      obtain ⟨err, hrun⟩ := hrun
      rw [hrun]
      exact ⟨err, rfl⟩
    · rw [if_neg hbig] at hrun ⊢
      obtain ⟨st₁, hrun, hfile, hcalls⟩ := hrun
      rw [hrun]
      exact ⟨_, rfl, ⟨rfl, hfile⟩, hcalls⟩

theorem agrees_objectEnd (h : At p st) : Agrees pg guest st p .objectEnd := by
  cases p with
  | range f b => exact agrees_endRange h
  | top =>
    simp only [Agrees, testSem, jsonObjectEndCb, h.expect]
    exact ⟨_, rfl, ⟨rfl, trivial⟩, rfl⟩
  | bound f b isEnd =>
    simp only [Agrees, testSem, jsonObjectEndCb, h.expect]
    cases isEnd with
    | false => rfl
    | true => rfl
  | _ =>
    simp only [Agrees, testSem, jsonObjectEndCb, h.expect]
    rfl

/-- **The driver follows the language**, except at nulls and at the end of the files. -/
theorem follows_next (pg : PgTest) (guest : TestGuest) :
    Follows (next pg guest) At TestState.calls (testSem pg guest) := by
  intro p st e h
  cases e with
  | objectStart => exact agrees_objectStart h
  | objectEnd => exact agrees_objectEnd h
  | arrayStart => exact agrees_arrayStart h
  | arrayEnd => exact agrees_arrayEnd h
  | fieldStart name isNull => exact agrees_fieldStart h name isNull
  | scalar tok => exact agrees_scalar h tok

/-! ## The trace of a specification -/

def RangeMember.trace : RangeMember pg → List (Option TestCall)
  | .bound .. => []
  | .null .. => [none]

/-- The tests of a range. -/
def RangeEntry.tests (f : CString) (r : RangeEntry pg) : List (Option TestCall) :=
  if r.first < r.last ∧ varattMax - varhdrsz < f.1.length then [none]
  else (executes f.1 r.first (r.last - r.first).toNat).map some

def RangeEntry.trace (f : CString) (r : RangeEntry pg) : List (Option TestCall) :=
  r.members.flatMap RangeMember.trace ++ r.tests f

def FileEntry.trace (f : FileEntry pg) : List (Option TestCall) :=
  f.ranges.flatMap (RangeEntry.trace f.filename)

def TopMember.trace : TopMember pg → List (Option TestCall)
  | .package _ => []
  | .files fs => fs.flatMap FileEntry.trace ++ [none]
  | .null _ _ => [none]

def ending (guest : TestGuest) : List (Option TestCall) :=
  if guest.finishExported then [some .finish] else []

/-- The calls of a specification, and `none` where the driver stops. -/
def docTrace (guest : TestGuest) (members : List (TopMember pg)) : List (Option TestCall) :=
  members.flatMap TopMember.trace ++ ending guest

variable {es : List (Event CString JsonToken)}

theorem boundField_inj : startField ≠ endField := by decide

theorem topField_inj : fileAndIndexField ≠ packageField := by decide

theorem next_boundField (f : CString) (b : Option ℤ × Option ℤ) (isEnd isNull : Bool) :
    next pg guest (.range f b) (.fieldStart (boundField isEnd) isNull) =
      .goes (if isNull then .range f b else .bound f b isEnd) [] := by
  cases isEnd with
  | false => rw [next, boundField, if_neg Bool.false_ne_true, if_pos rfl]
  | true => rw [next, boundField, if_pos rfl, if_neg boundField_inj.symm, if_pos rfl]

theorem trace_goes {p' : Place} {e : Event CString JsonToken} (h : next pg guest p e = .goes p' []) :
    trace (next pg guest) p (e :: es) = trace (next pg guest) p' es := by
  rw [trace, h]
  rfl

theorem trace_gap {p' : Place} {e : Event CString JsonToken} (h : next pg guest p e = .gap p') :
    trace (next pg guest) p (e :: es) = none :: trace (next pg guest) p' es := by
  rw [trace, h]

/-- A field of a range. -/
theorem trace_rangeMember (f : CString) (b : Option ℤ × Option ℤ) (m : RangeMember pg)
    (es : List (Event CString JsonToken)) :
    trace (next pg guest) (.range f b) (fields JsonToken.isNull [m.field] ++ es) =
      m.trace ++ trace (next pg guest) (.range f (m.set b)) es := by
  cases m with
  | bound isEnd token n hn =>
    have hset : next pg guest (.bound f b isEnd) (.scalar ⟨token, .number⟩) =
        .goes (.range f (RangeMember.set b (.bound isEnd token n hn))) [] := by
      rw [next, setBound, if_neg (by simp), hn]
      cases isEnd with
      | false => rfl
      | true => rfl
    exact (trace_goes (next_boundField f b isEnd false)).trans (trace_goes hset)
  | null isEnd token =>
    exact (trace_goes (next_boundField f b isEnd true)).trans (trace_gap rfl)

/-- The fields of a range. -/
theorem trace_rangeMembers (f : CString) (b : Option ℤ × Option ℤ) (ms : List (RangeMember pg))
    (es : List (Event CString JsonToken)) :
    trace (next pg guest) (.range f b) (fields JsonToken.isNull (ms.map RangeMember.field) ++ es) =
      ms.flatMap RangeMember.trace ++
        trace (next pg guest) (.range f (ms.foldl RangeMember.set b)) es := by
  induction ms generalizing b with
  | nil => rfl
  | cons m ms ih =>
    rw [List.map_cons, ← List.singleton_append, fields_append, List.append_assoc, trace_rangeMember,
      ih, List.flatMap_cons, List.append_assoc, List.foldl_cons]

/-- **A range.** -/
theorem trace_range (f : CString) (r : RangeEntry pg) (es : List (Event CString JsonToken)) :
    upto (trace (next pg guest) (.ranges f) (r.doc.events JsonToken.isNull ++ es)) =
      upto (r.trace f ++ trace (next pg guest) (.ranges f) es) := by
  have hstart : next pg guest (.ranges f) .objectStart = .goes (.range f (none, none)) [] := rfl
  rw [RangeEntry.doc, Doc.events, List.cons_append, trace_goes hstart, List.append_assoc,
    trace_rangeMembers, RangeEntry.trace, List.append_assoc]
  refine upto_append_congr _ ?_
  have hbounds : r.members.foldl RangeMember.set (none, none) = (some r.first, some r.last) :=
    r.bounds_eq
  rw [List.singleton_append, trace, next, hbounds, endRange, RangeEntry.tests]
  by_cases hbig : r.first < r.last ∧ varattMax - varhdrsz < f.1.length
  · rw [if_pos hbig, if_pos hbig]
    rfl
  · rw [if_neg hbig, if_neg hbig]

theorem trace_ranges (f : CString) (rs : List (RangeEntry pg))
    (es : List (Event CString JsonToken)) :
    upto (trace (next pg guest) (.ranges f)
        (elements JsonToken.isNull (rs.map RangeEntry.doc) ++ es)) =
      upto (rs.flatMap (RangeEntry.trace f) ++ trace (next pg guest) (.ranges f) es) := by
  induction rs with
  | nil => rfl
  | cons r rs ih =>
    rw [List.map_cons, elements, List.append_assoc, trace_range, List.flatMap_cons,
      List.append_assoc]
    exact upto_append_congr _ ih

/-- **A file.** -/
theorem trace_file (f : FileEntry pg) (es : List (Event CString JsonToken)) :
    upto (trace (next pg guest) .files (f.doc.events JsonToken.isNull ++ es)) =
      upto (f.trace ++ trace (next pg guest) .files es) := by
  have hstart : next pg guest .files .arrayStart = .goes .fileName [] := rfl
  have hname : next pg guest .fileName (.scalar ⟨f.filename, .string⟩) =
      .goes (.rangesArray f.filename) [] := rfl
  have hranges : next pg guest (.rangesArray f.filename) .arrayStart =
      .goes (.ranges f.filename) [] := rfl
  have hend : next pg guest (.ranges f.filename) .arrayEnd = .goes .fileEnd [] := rfl
  have hfile : next pg guest .fileEnd .arrayEnd = .goes .files [] := rfl
  simp only [FileEntry.doc, Doc.events, elements, List.cons_append, List.append_nil,
    List.nil_append, List.append_assoc]
  rw [trace_goes hstart, trace_goes hname, trace_goes hranges, trace_ranges, trace_goes hend,
    trace_goes hfile]
  rfl

theorem trace_files (fs : List (FileEntry pg)) (es : List (Event CString JsonToken)) :
    upto (trace (next pg guest) .files
        (elements JsonToken.isNull (fs.map FileEntry.doc) ++ es)) =
      upto (fs.flatMap FileEntry.trace ++ trace (next pg guest) .files es) := by
  induction fs with
  | nil => rfl
  | cons f fs ih =>
    rw [List.map_cons, elements, List.append_assoc, trace_file, List.flatMap_cons,
      List.append_assoc]
    exact upto_append_congr _ ih

theorem next_topField (isFiles isNull : Bool) :
    next pg guest .top (.fieldStart (topField isFiles) isNull) =
      .goes (if isNull then .top else if isFiles then .filesArray else .package) [] := by
  cases isFiles with
  | false => rw [next, topField, if_neg Bool.false_ne_true, if_pos rfl]; rfl
  | true => rw [next, topField, if_pos rfl, if_neg topField_inj, if_pos rfl]; rfl

/-- **A field of a specification.** -/
theorem trace_topMember (m : TopMember pg) (es : List (Event CString JsonToken)) :
    upto (trace (next pg guest) .top (fields JsonToken.isNull [m.field] ++ es)) =
      upto (m.trace ++ trace (next pg guest) .top es) := by
  cases m with
  | package name =>
    have hname : next pg guest .package (.scalar ⟨name, .string⟩) = .goes .top [] := rfl
    exact congrArg upto ((trace_goes (next_topField false false)).trans (trace_goes hname))
  | null isFiles token =>
    exact congrArg upto ((trace_goes (next_topField isFiles true)).trans (trace_gap rfl))
  | files fs =>
    have hstart : next pg guest .filesArray .arrayStart = .goes .files [] := rfl
    have hend : next pg guest .files .arrayEnd = .gap .top := rfl
    simp only [TopMember.field, fields, Doc.isNull, Doc.events, List.cons_append, List.append_nil,
      List.append_assoc]
    rw [trace_goes (next_topField true false)]
    simp only [Bool.false_eq_true, if_false, if_true]
    rw [trace_goes hstart, trace_files, List.nil_append, trace_gap hend, TopMember.trace,
      List.append_assoc, List.singleton_append]

theorem trace_topMembers (ms : List (TopMember pg)) (es : List (Event CString JsonToken)) :
    upto (trace (next pg guest) .top
        (fields JsonToken.isNull (ms.map TopMember.field) ++ es)) =
      upto (ms.flatMap TopMember.trace ++ trace (next pg guest) .top es) := by
  induction ms with
  | nil => rfl
  | cons m ms ih =>
    rw [List.map_cons, ← List.singleton_append, fields_append, List.append_assoc, trace_topMember,
      List.flatMap_cons, List.append_assoc]
    exact upto_append_congr _ ih

/-- **The trace of a specification** is that of its events. -/
theorem trace_doc (guest : TestGuest) (ms : List (TopMember pg)) :
    upto (trace (next pg guest) .start ((doc ms).events JsonToken.isNull)) =
      upto (docTrace guest ms) := by
  have hstart : next pg guest .start .objectStart = .goes .top [] := rfl
  rw [doc, Doc.events, trace_goes hstart, trace_topMembers, docTrace]
  refine upto_append_congr _ ?_
  rw [trace, next, ending]
  cases guest.finishExported with
  | false => rfl
  | true => rfl

/-- **What the driver calls** for a specification. -/
theorem calls_doc (pg : PgTest) (guest : TestGuest) (ms : List (TopMember pg))
    (hexp : guest.executeExported = true) :
    (moontestRun pg guest (doc ms)).2.calls = upto (docTrace guest ms) := by
  have hat : At .start initialTestState := ⟨rfl, trivial⟩
  have hcalls : (drive (testSem pg guest) initialTestState
      ((doc ms).events JsonToken.isNull)).1.calls = upto (docTrace guest ms) := by
    rw [(follows_next pg guest).calls_eq hat, trace_doc]
    rfl
  rw [moontestRun, hexp]
  rcases hd : drive (testSem pg guest) initialTestState ((doc ms).events JsonToken.isNull) with
    ⟨st, v⟩
  rw [hd] at hcalls
  cases v with
  | success => exact hcalls
  | failed => exact hcalls
  | raised err => exact hcalls

/-! ## A null more -/

/-- Where a null may be inserted: between the fields at the top, or between those of a range. -/
inductive Spot (pg : PgTest) where
  | top (before after : List (TopMember pg))
  | range (topBefore : List (TopMember pg)) (filesBefore : List (FileEntry pg))
      (filename : CString) (rangesBefore : List (RangeEntry pg)) (r : RangeEntry pg) (k : ℕ)
      (rangesAfter : List (RangeEntry pg)) (filesAfter : List (FileEntry pg))
      (topAfter : List (TopMember pg))

/-- A null sets no number. -/
theorem bounds_insertNull (ms ms' : List (RangeMember pg)) (isEnd : Bool) (token : CString) :
    bounds (ms ++ .null isEnd token :: ms') = bounds (ms ++ ms') := by
  simp [bounds, RangeMember.set]

/-- The range with a null after its first `k` fields. -/
def RangeEntry.insertNull (r : RangeEntry pg) (k : ℕ) (isEnd : Bool) (token : CString) :
    RangeEntry pg where
  members := r.members.take k ++ .null isEnd token :: r.members.drop k
  first := r.first
  last := r.last
  bounds_eq := by rw [bounds_insertNull, List.take_append_drop, r.bounds_eq]

namespace Spot

/-- The specification. -/
def spec : Spot pg → List (TopMember pg)
  | top before after => before ++ after
  | range topBefore filesBefore filename rangesBefore r _ rangesAfter filesAfter topAfter =>
    topBefore ++
      .files (filesBefore ++ ⟨filename, rangesBefore ++ r :: rangesAfter⟩ :: filesAfter) :: topAfter

/-- The specification with a null: `"package"` or `"file_and_index"` at the top, `"start"` or `"end"`
    in a range. -/
def withNull (second : Bool) (token : CString) : Spot pg → List (TopMember pg)
  | top before after => before ++ .null second token :: after
  | range topBefore filesBefore filename rangesBefore r k rangesAfter filesAfter topAfter =>
    topBefore ++
      .files (filesBefore ++
        ⟨filename, rangesBefore ++ r.insertNull k second token :: rangesAfter⟩ :: filesAfter) ::
      topAfter

/-- The trace up to there. -/
def before : Spot pg → List (Option TestCall)
  | top before _ => before.flatMap TopMember.trace
  | range topBefore filesBefore filename rangesBefore r k _ _ _ =>
    topBefore.flatMap TopMember.trace ++ filesBefore.flatMap FileEntry.trace ++
      rangesBefore.flatMap (RangeEntry.trace filename) ++
      (r.members.take k).flatMap RangeMember.trace

/-- The trace from there on. -/
def after (guest : TestGuest) : Spot pg → List (Option TestCall)
  | top _ after => after.flatMap TopMember.trace ++ ending guest
  | range _ _ filename _ r k rangesAfter filesAfter topAfter =>
    (r.members.drop k).flatMap RangeMember.trace ++ r.tests filename ++
      rangesAfter.flatMap (RangeEntry.trace filename) ++ filesAfter.flatMap FileEntry.trace ++
      none :: topAfter.flatMap TopMember.trace ++ ending guest

theorem trace_spec (guest : TestGuest) (s : Spot pg) :
    docTrace guest s.spec = s.before ++ s.after guest := by
  cases s with
  | top before after => simp [docTrace, spec, Spot.before, Spot.after]
  | range topBefore filesBefore filename rangesBefore r k rangesAfter filesAfter topAfter =>
    have hmembers : r.members.flatMap RangeMember.trace =
        (r.members.take k).flatMap RangeMember.trace ++
          (r.members.drop k).flatMap RangeMember.trace := by
      rw [← List.flatMap_append, List.take_append_drop]
    simp [docTrace, spec, Spot.before, Spot.after, TopMember.trace, FileEntry.trace,
      RangeEntry.trace, hmembers]

theorem trace_withNull (guest : TestGuest) (s : Spot pg) (second : Bool) (token : CString) :
    docTrace guest (s.withNull second token) = s.before ++ none :: s.after guest := by
  cases s with
  | top before after => simp [docTrace, withNull, Spot.before, Spot.after, TopMember.trace]
  | range topBefore filesBefore filename rangesBefore r k rangesAfter filesAfter topAfter =>
    simp [docTrace, withNull, Spot.before, Spot.after, TopMember.trace, FileEntry.trace,
      RangeEntry.trace, RangeEntry.insertNull, RangeMember.trace, RangeEntry.tests]

/-- All calls that a specification asks for are the same with a null. -/
theorem reduceOption_withNull (guest : TestGuest) (s : Spot pg) (second : Bool) (token : CString) :
    (docTrace guest (s.withNull second token)).reduceOption =
      (docTrace guest s.spec).reduceOption := by
  rw [trace_withNull, trace_spec, List.reduceOption_append, List.reduceOption_append,
    List.reduceOption_cons_of_none]

end Spot

/-- **Nulls.**  A null field changes nothing of what is called exactly if there is no function to
    call, if the driver has stopped before it, at another null or at the end of the files, or if
    nothing is called between it and the next stop. -/
theorem nulls_ignored_iff (pg : PgTest) (guest : TestGuest) (s : Spot pg) (second : Bool)
    (token : CString) :
    (moontestRun pg guest (doc (s.withNull second token))).2.calls =
        (moontestRun pg guest (doc s.spec)).2.calls ↔
      guest.executeExported = false ∨ none ∈ s.before ∨ upto (s.after guest) = [] := by
  cases hexp : guest.executeExported with
  | false =>
    refine iff_of_true ?_ (.inl rfl)
    rw [moontestRun, moontestRun, hexp]
    rfl
  | true =>
    rw [calls_doc pg guest _ hexp, calls_doc pg guest _ hexp, Spot.trace_spec, Spot.trace_withNull,
      upto_insert_iff]
    simp

theorem zero_notMem_zeroDigit : (0 : UInt8) ∉ [48] := by decide

theorem zero_notMem_oneDigit : (0 : UInt8) ∉ [49] := by decide

theorem strtoint32_zeroDigit : digitTest.strtoint32 ⟨[48], zero_notMem_zeroDigit⟩ = .ok 0 := rfl

theorem strtoint32_oneDigit : digitTest.strtoint32 ⟨[49], zero_notMem_oneDigit⟩ = .ok 1 := rfl

/-- One test of a file. -/
def oneRange : RangeEntry digitTest where
  members := [.bound false ⟨[48], zero_notMem_zeroDigit⟩ 0 strtoint32_zeroDigit,
    .bound true ⟨[49], zero_notMem_oneDigit⟩ 1 strtoint32_oneDigit]
  first := 0
  last := 1
  bounds_eq := rfl

theorem zero_notMem_null : (0 : UInt8) ∉ [110, 117, 108, 108] := by decide

def nullToken : CString := ⟨[110, 117, 108, 108], zero_notMem_null⟩

/-- Before the files of a specification with one test. -/
def beforeFiles : Spot digitTest := .top [] [.files [⟨⟨[102], by decide⟩, [oneRange]⟩]]

/-- **A package that is null** keeps the test from being executed. -/
theorem nullPackage_stops :
    (moontestRun digitTest passingGuest (doc (beforeFiles.withNull false nullToken))).2.calls ≠
      (moontestRun digitTest passingGuest (doc beforeFiles.spec)).2.calls := by
  have hnull : (moontestRun digitTest passingGuest
      (doc (beforeFiles.withNull false nullToken))).2.calls = [] := rfl
  have hspec : (moontestRun digitTest passingGuest (doc beforeFiles.spec)).2.calls =
      [.execute [102] 0] := rfl
  rw [hnull, hspec]
  exact List.cons_ne_nil _ _ |>.symm

end Rustica.Spec
