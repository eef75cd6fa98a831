/-
  The driver of MoonBit tests.

  `moontest_run` reads a specification, a package and the ranges of test indices for each file, by
  callbacks that keep one state, `Expect`, for all levels of nesting.  Every test in the ranges is
  executed in order, whatever the tests do (`moontest_executes`).  But the callback for the end of
  an array has no case for the array of files: the reading stops there, so that the end of the
  specification is never seen and the driver never told to finish (`moontest_never_finishes`).
-/
import Rustica.Json

namespace Rustica

open Sax

/-! ## The driver -/

/-- What is expected next. -/
inductive Expect where
  | eTop
  | eTopField
  | ePackageName
  | eFileArray
  | eFileTuple
  | eFileName
  | eRangeArray
  | eRangeObject
  | eRangeField
  | eRangeStart
  | eRangeEnd
  | eFileEnd
  | eEnd
deriving DecidableEq

/-- A call of the guest: `moonbit_test_driver_internal_execute`, with the payload of its text, or
    `moonbit_test_driver_finish`. -/
inductive TestCall where
  | execute (filename : List UInt8) (index : ℤ)
  | finish
deriving DecidableEq

/-- A guest: which functions it exports, and what a call comes to after those before it: nothing, or
    the text of an exception and of the call stack. -/
structure TestGuest where
  executeExported : Bool
  finishExported : Bool
  exception : List TestCall → TestCall → Option (List UInt8)

/-- What the driver uses of PostgreSQL. -/
structure PgTest where
  /-- `escape_json` -/
  escapeJson : List UInt8 → List UInt8
  /-- `pg_strtoint32` -/
  strtoint32 : CString → Except String ℤ

/-- The result of a test that has failed, as it is printed. -/
structure TestResult where
  package : List UInt8
  filename : List UInt8
  index : ℤ
  message : List UInt8

/-- The `JsonParseState`, the calls of the guest so far and the results printed. -/
structure TestState where
  expect : Expect
  package : List UInt8
  filename : Option CString
  currentRangeIndex : ℤ
  rangeStart : ℤ
  rangeEnd : ℤ
  rangeStartSet : Bool
  rangeEndSet : Bool
  calls : List TestCall
  results : List TestResult

/-- The state as it is set up, with the package `"<unknown package>"`. -/
def initialTestState : TestState where
  expect := .eTop
  package := "\"<unknown package>\"".toUTF8.data.toList
  filename := none
  currentRangeIndex := 0
  rangeStart := 0
  rangeEnd := 0
  rangeStartSet := false
  rangeEndSet := false
  calls := []
  results := []

variable (pg : PgTest) (guest : TestGuest)

/-- One test.  Its failure is printed, and the exception is cleared. -/
def TestState.execute (st : TestState) (filename : List UInt8) (i : ℤ) : TestState :=
  { st with
    calls := st.calls ++ [.execute filename i]
    results := st.results ++
      match guest.exception st.calls (.execute filename i) with
      | none => []
      | some msg => [⟨st.package, pg.escapeJson filename, i, pg.escapeJson msg⟩] }

/-- The tests from `i` on, `n` of them. -/
def TestState.executeFrom (filename : List UInt8) (st : TestState) (i : ℤ) : ℕ → TestState
  | 0 => st
  | n + 1 => executeFrom filename (st.execute pg guest filename i) (i + 1) n

/-- The loop over a range; the text of the file name is made for the first test. -/
def TestState.runRange (st : TestState) : Except String TestState :=
  if st.rangeStart < st.rangeEnd then
    match cstringIntoVarattObj ((st.filename.map Subtype.val).getD []) with
    | .error err => .error err
    | .ok filename =>
      .ok (st.executeFrom pg guest filename.data st.rangeStart
        (st.rangeEnd - st.rangeStart).toNat)
  else .ok st

/-- A C string as a text, for messages. -/
def CString.text (s : CString) : String := (String.fromUTF8? ⟨s.1.toArray⟩).getD ""

/-- `"package"`. -/
def packageField : CString := ⟨[112, 97, 99, 107, 97, 103, 101], by decide⟩

/-- `"file_and_index"`. -/
def fileAndIndexField : CString :=
  ⟨[102, 105, 108, 101, 95, 97, 110, 100, 95, 105, 110, 100, 101, 120], by decide⟩

/-- `"start"`. -/
def startField : CString := ⟨[115, 116, 97, 114, 116], by decide⟩

/-- `"end"`. -/
def endField : CString := ⟨[101, 110, 100], by decide⟩

def jsonObjectStartCb (st : TestState) : TestState × Verdict String :=
  match st.expect with
  | .eTop => ({ st with expect := .eTopField }, .success)
  | .eRangeObject =>
    ({ st with expect := .eRangeField, rangeStartSet := false, rangeEndSet := false }, .success)
  | _ => (st, .failed)

def jsonObjectEndCb (st : TestState) : TestState × Verdict String :=
  match st.expect with
  | .eRangeField =>
    if !st.rangeStartSet || !st.rangeEndSet then
      (st, .raised "Range object missing 'start' or 'end' field")
    else
      match st.runRange pg guest with
      | .error err => (st, .raised err)
      | .ok st =>
        ({ st with currentRangeIndex := st.currentRangeIndex + 1, expect := .eRangeObject },
          .success)
  | .eTopField =>
    ({ st with
        expect := .eEnd
        calls := st.calls ++ if guest.finishExported then [.finish] else [] }, .success)
  | _ => (st, .failed)

def jsonArrayStartCb (st : TestState) : TestState × Verdict String :=
  match st.expect with
  | .eFileArray => ({ st with expect := .eFileTuple }, .success)
  | .eFileTuple => ({ st with expect := .eFileName }, .success)
  | .eRangeArray => ({ st with expect := .eRangeObject, currentRangeIndex := 0 }, .success)
  | _ => (st, .failed)

def jsonArrayEndCb (st : TestState) : TestState × Verdict String :=
  match st.expect with
  | .eRangeObject => ({ st with expect := .eFileEnd }, .success)
  | .eFileEnd => ({ st with filename := none, expect := .eFileTuple }, .success)
  | _ => (st, .failed)

def jsonObjectFieldStartCb (st : TestState) (fname : CString) (isnull : Bool) :
    TestState × Verdict String :=
  match st.expect with
  | .eTopField =>
    if fname = packageField then
      (if isnull then st else { st with expect := .ePackageName }, .success)
    else if fname = fileAndIndexField then
      (if isnull then st else { st with expect := .eFileArray }, .success)
    else (st, .raised ("Unexpected field '" ++ fname.text ++ "' in top-level object"))
  | .eRangeField =>
    if fname = startField then
      (if isnull then st else { st with expect := .eRangeStart }, .success)
    else if fname = endField then
      (if isnull then st else { st with expect := .eRangeEnd }, .success)
    else (st, .raised ("Unexpected field '" ++ fname.text ++ "' in range object"))
  | _ => (st, .failed)

def jsonScalarCb (st : TestState) (tok : JsonToken) : TestState × Verdict String :=
  match st.expect with
  | .ePackageName =>
    if tok.type ≠ .string then (st, .raised "Expected string for 'package' field")
    else ({ st with package := pg.escapeJson tok.token.1, expect := .eTopField }, .success)
  | .eFileName =>
    if tok.type ≠ .string then
      (st, .raised "Expected string for filename in file_and_index entry")
    else ({ st with filename := some tok.token, expect := .eRangeArray }, .success)
  | .eRangeStart =>
    if tok.type ≠ .number then (st, .raised "Expected number for 'start' in range object")
    else
      match pg.strtoint32 tok.token with
      | .error err => (st, .raised err)
      | .ok n => ({ st with rangeStart := n, rangeStartSet := true, expect := .eRangeField },
          .success)
  | .eRangeEnd =>
    if tok.type ≠ .number then (st, .raised "Expected number for 'end' in range object")
    else
      match pg.strtoint32 tok.token with
      | .error err => (st, .raised err)
      | .ok n => ({ st with rangeEnd := n, rangeEndSet := true, expect := .eRangeField },
          .success)
  | _ => (st, .failed)

/-- The `JsonSemAction`. -/
def testSem (st : TestState) : Event CString JsonToken → TestState × Verdict String
  | .objectStart => jsonObjectStartCb st
  | .objectEnd => jsonObjectEndCb pg guest st
  | .arrayStart => jsonArrayStartCb st
  | .arrayEnd => jsonArrayEndCb st
  | .fieldStart fname isnull => jsonObjectFieldStartCb st fname isnull
  | .scalar tok => jsonScalarCb pg st tok

/-- The token is a null. -/
def JsonToken.isNull (tok : JsonToken) : Bool := tok.type = .null

/-- `moontest_run`: what the parser returns is not looked at. -/
def moontestRun (spec : Doc CString JsonToken) : Native Unit × TestState :=
  if !guest.executeExported then
    (.raises "Function 'moonbit_test_driver_internal_execute' not found in module",
      initialTestState)
  else
    match drive (testSem pg guest) initialTestState (spec.events JsonToken.isNull) with
    | (st, .raised err) => (.raises err, st)
    | (st, _) => (.returns (), st)

/-! ## Specifications -/

/-- A range of tests: its numbers as they are written, in either order. -/
structure RangeSpec where
  startToken : CString
  endToken : CString
  first : ℤ
  last : ℤ
  startFirst : Bool
  start_eq : pg.strtoint32 startToken = .ok first
  end_eq : pg.strtoint32 endToken = .ok last

/-- A file and its ranges. -/
structure FileSpec where
  filename : CString
  ranges : List (RangeSpec pg)

/-- A specification: a package and files, in either order. -/
structure TestSpec where
  package : CString
  files : List (FileSpec pg)
  packageFirst : Bool

variable {pg}

/-- An object of two fields, in either order. -/
def twoFields (inOrder : Bool) (f g : CString × Doc CString JsonToken) : Doc CString JsonToken :=
  .object (if inOrder then [f, g] else [g, f])

def RangeSpec.doc (r : RangeSpec pg) : Doc CString JsonToken :=
  twoFields r.startFirst (startField, .scalar ⟨r.startToken, .number⟩)
    (endField, .scalar ⟨r.endToken, .number⟩)

def FileSpec.doc (f : FileSpec pg) : Doc CString JsonToken :=
  .array [.scalar ⟨f.filename, .string⟩, .array (f.ranges.map RangeSpec.doc)]

def TestSpec.doc (spec : TestSpec pg) : Doc CString JsonToken :=
  twoFields spec.packageFirst (packageField, .scalar ⟨spec.package, .string⟩)
    (fileAndIndexField, .array (spec.files.map FileSpec.doc))

/-- The calls for `n` tests from `i` on. -/
def executes (filename : List UInt8) (i : ℤ) : ℕ → List TestCall
  | 0 => []
  | n + 1 => .execute filename i :: executes filename (i + 1) n

def RangeSpec.executes (filename : CString) (r : RangeSpec pg) : List TestCall :=
  Rustica.executes filename.1 r.first (r.last - r.first).toNat

def FileSpec.executes (f : FileSpec pg) : List TestCall :=
  f.ranges.flatMap (RangeSpec.executes f.filename)

/-- **The tests of a specification**: file by file, range by range, index by index. -/
def TestSpec.executes (spec : TestSpec pg) : List TestCall := spec.files.flatMap FileSpec.executes

/-- **A complete run**: the tests and then the end, as far as it is exported. -/
def Complete (guest : TestGuest) (spec : TestSpec pg) (st : TestState) : Prop :=
  st.calls = spec.executes ++ (if guest.finishExported then [.finish] else []) ∧
    st.expect = .eEnd

variable {guest : TestGuest} {st st' : TestState} {e : Event CString JsonToken}

/-! ## No way out of the files -/

/-- The reading is within the field of the files. -/
def Expect.Inside : Expect → Prop
  | .eTop | .eTopField | .ePackageName | .eEnd => False
  | _ => True

/-- **Within the files there is no way out**: no callback leads back to the fields at the top. -/
theorem inside_testSem (h : st.expect.Inside) : (testSem pg guest st e).1.expect.Inside := by
  cases e with
  | objectStart =>
    simp only [testSem, jsonObjectStartCb]
    split <;> first | exact trivial | exact h | simp_all [Expect.Inside]
  | objectEnd =>
    simp only [testSem, jsonObjectEndCb]
    split
    · split
      · exact h
      · split
        · exact h
        · exact trivial
    · simp_all [Expect.Inside]
    · exact h
  | arrayStart =>
    simp only [testSem, jsonArrayStartCb]
    split <;> first | exact trivial | exact h
  | arrayEnd =>
    simp only [testSem, jsonArrayEndCb]
    split <;> first | exact trivial | exact h
  | fieldStart fname isnull =>
    simp only [testSem, jsonObjectFieldStartCb]
    split
    · simp_all [Expect.Inside]
    · split_ifs <;> first | exact h | exact trivial
    · exact h
  | scalar tok =>
    simp only [testSem, jsonScalarCb]
    split
    · simp_all [Expect.Inside]
    · split_ifs <;> first | exact h | exact trivial
    · split_ifs
      · exact h
      · split <;> first | exact h | exact trivial
    · split_ifs
      · exact h
      · split <;> first | exact h | exact trivial
    · exact h

/-- The start of the object, and of a field in it. -/
theorem drive_top (es : List (Event CString JsonToken)) :
    drive (testSem pg guest) initialTestState (.objectStart :: es) =
      drive (testSem pg guest) { initialTestState with expect := .eTopField } es :=
  drive_cons_success rfl

theorem drive_package (h : st.expect = .eTopField) (name : CString)
    (es : List (Event CString JsonToken)) :
    drive (testSem pg guest) st
        (.fieldStart packageField false :: .scalar ⟨name, .string⟩ :: es) =
      drive (testSem pg guest)
        { st with package := pg.escapeJson name.1, expect := .eTopField } es := by
  have hfield : testSem pg guest st (.fieldStart packageField false) =
      ({ st with expect := .ePackageName }, .success) := by
    simp only [testSem, jsonObjectFieldStartCb, h]; rfl
  exact (drive_cons_success hfield).trans (drive_cons_success rfl)

theorem drive_fileAndIndex (h : st.expect = .eTopField) (es : List (Event CString JsonToken)) :
    drive (testSem pg guest) st (.fieldStart fileAndIndexField false :: es) =
      drive (testSem pg guest) { st with expect := .eFileArray } es := by
  have hfield : testSem pg guest st (.fieldStart fileAndIndexField false) =
      ({ st with expect := .eFileArray }, .success) := by
    simp only [testSem, jsonObjectFieldStartCb, h]; rfl
  exact drive_cons_success hfield

/-- Where the files begin, with or without the package before them. -/
theorem drive_spec (guest : TestGuest) (spec : TestSpec pg) : ∃ st es,
    st.expect = .eFileArray ∧ st.calls = [] ∧
    drive (testSem pg guest) initialTestState (spec.doc.events JsonToken.isNull) =
      drive (testSem pg guest) st
        (Doc.events JsonToken.isNull (.array (spec.files.map FileSpec.doc)) ++ es) := by
  cases hp : spec.packageFirst with
  | true =>
    refine ⟨{ initialTestState with
      package := pg.escapeJson spec.package.1, expect := .eFileArray }, [.objectEnd], rfl, rfl, ?_⟩
    simp only [TestSpec.doc, twoFields, hp, if_pos, Doc.events, fields, List.cons_append,
      List.append_nil]
    rw [drive_top]
    exact (drive_package rfl _ _).trans (drive_fileAndIndex rfl _)
  | false =>
    refine ⟨{ initialTestState with expect := .eFileArray },
      fields JsonToken.isNull [(packageField, .scalar ⟨spec.package, .string⟩)] ++ [.objectEnd],
      rfl, rfl, ?_⟩
    simp only [TestSpec.doc, twoFields, hp, Bool.false_eq_true, if_false, Doc.events, fields,
      List.append_assoc, List.cons_append]
    rw [drive_top]
    exact drive_fileAndIndex rfl _

/-- **The driver never comes to the end** of a specification, whatever the guest is. -/
theorem moontest_never_finishes (pg : PgTest) (guest : TestGuest) (spec : TestSpec pg) :
    ¬ Complete guest spec (moontestRun pg guest spec.doc).2 := by
  rintro ⟨-, hend⟩
  rw [moontestRun] at hend
  split_ifs at hend with hexp
  · exact absurd hend (by decide)
  · obtain ⟨st, es, hst, -, hdrive⟩ := drive_spec guest spec
    have hin : (drive (testSem pg guest) st (Doc.events JsonToken.isNull
        (.array (spec.files.map FileSpec.doc)) ++ es)).1.expect.Inside :=
      drive_invariant (I := fun st : TestState => st.expect.Inside) (fun _ _ h => inside_testSem h)
        (by rw [hst]; trivial)
    rw [hdrive] at hend
    rcases hr : drive (testSem pg guest) st (Doc.events JsonToken.isNull
        (.array (spec.files.map FileSpec.doc)) ++ es) with ⟨st', v⟩
    rw [hr] at hend hin
    have hexpect : st'.expect = .eEnd := by cases v <;> exact hend
    rw [hexpect] at hin
    exact hin

/-- PostgreSQL, as far as numbers of one digit go. -/
def digitTest : PgTest where
  escapeJson s := [34] ++ s ++ [34]
  strtoint32 s :=
    match s.1 with
    | [d] => .ok (d.toNat - 48)
    | _ => .error "invalid input syntax for type integer"

/-- The package `p` and no files. -/
def noFiles : TestSpec digitTest := ⟨⟨[112], by decide⟩, [], true⟩

/-- A guest with both functions, whose tests all succeed. -/
def passingGuest : TestGuest := ⟨true, true, fun _ _ => none⟩

/-- Without a file there is nothing to execute, but the end is missed all the same. -/
theorem noFiles_incomplete :
    ¬ Complete passingGuest noFiles (moontestRun digitTest passingGuest noFiles.doc).2 := by
  rintro ⟨-, hend⟩
  have hrun : (moontestRun digitTest passingGuest noFiles.doc).2.expect = .eFileTuple := rfl
  rw [hrun] at hend
  exact absurd hend (by decide)

/-! ## All tests are executed -/

theorem executeFrom_eq (pg : PgTest) (guest : TestGuest) (st : TestState) (filename : List UInt8)
    (i : ℤ) (n : ℕ) :
    (st.executeFrom pg guest filename i n).calls = st.calls ++ executes filename i n ∧
    (st.executeFrom pg guest filename i n).expect = st.expect ∧
    (st.executeFrom pg guest filename i n).filename = st.filename := by
  induction n generalizing st i with
  | zero => exact ⟨(List.append_nil _).symm, rfl, rfl⟩
  | succ n ih =>
    rw [TestState.executeFrom]
    obtain ⟨hcalls, hexpect, hfile⟩ := ih (st.execute pg guest filename i) (i + 1)
    refine ⟨?_, hexpect, hfile⟩
    rw [hcalls, executes, TestState.execute, List.append_assoc]; rfl

/-- The reading of `es` goes from `st` to `st'`, and makes the calls `cs`. -/
structure Executes (pg : PgTest) (guest : TestGuest) (st : TestState)
    (es : List (Event CString JsonToken)) (st' : TestState) (cs : List TestCall) : Prop where
  drive : Sax.drive (testSem pg guest) st es = (st', .success)
  calls : st'.calls = st.calls ++ cs

variable {es es' : List (Event CString JsonToken)} {st₁ : TestState} {cs cs' : List TestCall}

theorem Executes.nil : Executes pg guest st [] st [] := ⟨rfl, (List.append_nil _).symm⟩

theorem Executes.append (h : Executes pg guest st es st₁ cs)
    (h' : Executes pg guest st₁ es' st' cs') :
    Executes pg guest st (es ++ es') st' (cs ++ cs') :=
  ⟨(drive_append_success h.drive).trans h'.drive, by rw [h'.calls, h.calls, List.append_assoc]⟩

theorem Executes.step (h : testSem pg guest st e = (st₁, .success)) (hc : st₁.calls = st.calls)
    (h' : Executes pg guest st₁ es st' cs) : Executes pg guest st (e :: es) st' cs :=
  ⟨(drive_cons_success h).trans h'.drive, by rw [h'.calls, hc]⟩

variable {f : CString}

theorem executes_start (r : RangeSpec pg) (h : st.expect = .eRangeField) :
    Executes pg guest st [.fieldStart startField false, .scalar ⟨r.startToken, .number⟩]
      { st with rangeStart := r.first, rangeStartSet := true, expect := .eRangeField } [] := by
  have hfield : testSem pg guest st (.fieldStart startField false) =
      ({ st with expect := .eRangeStart }, .success) := by
    simp only [testSem, jsonObjectFieldStartCb, h]; rfl
  have hscalar : testSem pg guest { st with expect := .eRangeStart }
      (.scalar ⟨r.startToken, .number⟩) =
      ({ st with rangeStart := r.first, rangeStartSet := true, expect := .eRangeField },
        .success) := by
    simp only [testSem, jsonScalarCb, r.start_eq]; rfl
  exact .step hfield rfl (.step hscalar rfl .nil)

theorem executes_end (r : RangeSpec pg) (h : st.expect = .eRangeField) :
    Executes pg guest st [.fieldStart endField false, .scalar ⟨r.endToken, .number⟩]
      { st with rangeEnd := r.last, rangeEndSet := true, expect := .eRangeField } [] := by
  have hfield : testSem pg guest st (.fieldStart endField false) =
      ({ st with expect := .eRangeEnd }, .success) := by
    simp only [testSem, jsonObjectFieldStartCb, h]; rfl
  have hscalar : testSem pg guest { st with expect := .eRangeEnd }
      (.scalar ⟨r.endToken, .number⟩) =
      ({ st with rangeEnd := r.last, rangeEndSet := true, expect := .eRangeField },
        .success) := by
    simp only [testSem, jsonScalarCb, r.end_eq]; rfl
  exact .step hfield rfl (.step hscalar rfl .nil)

/-- The two fields of a range, in either order. -/
theorem executes_fields (r : RangeSpec pg) (h : st.expect = .eRangeField) :
    Executes pg guest st
      (fields JsonToken.isNull (if r.startFirst then
        [(startField, .scalar ⟨r.startToken, .number⟩), (endField, .scalar ⟨r.endToken, .number⟩)]
        else [(endField, .scalar ⟨r.endToken, .number⟩),
          (startField, .scalar ⟨r.startToken, .number⟩)]))
      { st with
        rangeStart := r.first, rangeStartSet := true
        rangeEnd := r.last, rangeEndSet := true, expect := .eRangeField } [] := by
  cases r.startFirst with
  | true => exact (executes_start r h).append (executes_end r rfl)
  | false => exact (executes_end r h).append (executes_start r rfl)

/-- The end of a range, with both fields set: the tests in it, whatever comes of them. -/
theorem executes_objectEnd (guest : TestGuest) (st : TestState) (r : RangeSpec pg)
    (hst : st.expect = .eRangeField)
    (hset : st.rangeStartSet = true ∧ st.rangeEndSet = true)
    (hrange : st.rangeStart = r.first ∧ st.rangeEnd = r.last)
    (hf : st.filename = some f) (hfits : f.1.length ≤ varattMax - varhdrsz) :
    ∃ st', Executes pg guest st [.objectEnd] st' (r.executes f) ∧
      st'.expect = .eRangeObject ∧ st'.filename = some f := by
  obtain ⟨t, ht, hdata⟩ := cstringIntoVarattObj_rule hfits
  have hrun : ∃ st₁, st.runRange pg guest = .ok st₁ ∧ st₁.calls = st.calls ++ r.executes f ∧
      st₁.filename = some f := by
    rw [TestState.runRange, hf, hrange.1, hrange.2]
    simp only [Option.map_some, Option.getD_some, ht]
    split_ifs with hlt
    · obtain ⟨hcalls, -, hfile⟩ := executeFrom_eq pg guest st t.data r.first
        (r.last - r.first).toNat
      exact ⟨_, rfl, by rw [hcalls, hdata]; rfl, hfile.trans hf⟩
    · refine ⟨st, rfl, ?_, hf⟩
      rw [RangeSpec.executes, Int.toNat_of_nonpos (by omega), executes, List.append_nil]
  obtain ⟨st₁, hrun, hcalls, hfile⟩ := hrun
  refine ⟨{ st₁ with currentRangeIndex := st₁.currentRangeIndex + 1, expect := .eRangeObject },
    ⟨drive_cons_success ?_, hcalls⟩, rfl, hfile⟩
  simp only [testSem, jsonObjectEndCb, hst, hset.1, hset.2, hrun]
  rfl

/-- **A range.** -/
theorem executes_range (guest : TestGuest) (st : TestState) (r : RangeSpec pg)
    (hst : st.expect = .eRangeObject)
    (hf : st.filename = some f) (hfits : f.1.length ≤ varattMax - varhdrsz) :
    ∃ st', Executes pg guest st (r.doc.events JsonToken.isNull) st' (r.executes f) ∧
      st'.expect = .eRangeObject ∧ st'.filename = some f := by
  have hstart : testSem pg guest st .objectStart =
      ({ st with expect := .eRangeField, rangeStartSet := false, rangeEndSet := false },
        .success) := by
    simp only [testSem, jsonObjectStartCb, hst]
  obtain ⟨st', hend, hexpect, hfile⟩ := executes_objectEnd guest
    { st with
      rangeStart := r.first, rangeStartSet := true
      rangeEnd := r.last, rangeEndSet := true, expect := .eRangeField }
    r rfl ⟨rfl, rfl⟩ ⟨rfl, rfl⟩ hf hfits
  refine ⟨st', ?_, hexpect, hfile⟩
  rw [RangeSpec.doc, twoFields, Doc.events]
  exact .step hstart rfl ((executes_fields r rfl).append hend)

theorem executes_ranges (guest : TestGuest) (st : TestState) (rs : List (RangeSpec pg))
    (hst : st.expect = .eRangeObject)
    (hf : st.filename = some f) (hfits : f.1.length ≤ varattMax - varhdrsz) :
    ∃ st', Executes pg guest st (elements JsonToken.isNull (rs.map RangeSpec.doc)) st'
        (rs.flatMap (RangeSpec.executes f)) ∧
      st'.expect = .eRangeObject ∧ st'.filename = some f := by
  induction rs generalizing st with
  | nil => exact ⟨st, .nil, hst, hf⟩
  | cons r rs ih =>
    obtain ⟨st₁, h₁, hst₁, hf₁⟩ := executes_range guest st r hst hf hfits
    obtain ⟨st', h', hst', hf'⟩ := ih st₁ hst₁ hf₁
    exact ⟨st', h₁.append h', hst', hf'⟩

/-- **A file.** -/
theorem executes_file (guest : TestGuest) (st : TestState) (file : FileSpec pg)
    (hst : st.expect = .eFileTuple)
    (hfits : file.filename.1.length ≤ varattMax - varhdrsz) :
    ∃ st', Executes pg guest st (file.doc.events JsonToken.isNull) st' file.executes ∧
      st'.expect = .eFileTuple := by
  have hstart : testSem pg guest st .arrayStart =
      ({ st with expect := .eFileName }, .success) := by
    simp only [testSem, jsonArrayStartCb, hst]
  obtain ⟨st₁, h₁, hst₁, hf₁⟩ := executes_ranges guest
    { st with
      filename := some file.filename, expect := .eRangeObject, currentRangeIndex := 0 }
    file.ranges rfl rfl hfits
  have hend : testSem pg guest st₁ .arrayEnd = ({ st₁ with expect := .eFileEnd }, .success) := by
    simp only [testSem, jsonArrayEndCb, hst₁]
  refine ⟨{ st₁ with expect := .eFileTuple, filename := none }, ?_, rfl⟩
  rw [FileSpec.doc, Doc.events]
  simp only [elements, Doc.events, List.cons_append, List.append_nil, List.append_assoc]
  refine .step hstart rfl (.step rfl rfl (.step rfl rfl ?_))
  have hclose : Executes pg guest st₁ [.arrayEnd, .arrayEnd]
      { st₁ with expect := .eFileTuple, filename := none } [] :=
    .step hend rfl (.step rfl rfl .nil)
  have hlast := h₁.append hclose
  rw [List.append_nil] at hlast
  exact hlast

theorem executes_files (guest : TestGuest) (st : TestState) (files : List (FileSpec pg))
    (hst : st.expect = .eFileTuple)
    (hfits : ∀ file ∈ files, file.filename.1.length ≤ varattMax - varhdrsz) :
    ∃ st', Executes pg guest st (elements JsonToken.isNull (files.map FileSpec.doc)) st'
        (files.flatMap FileSpec.executes) ∧ st'.expect = .eFileTuple := by
  induction files generalizing st with
  | nil => exact ⟨st, .nil, hst⟩
  | cons file files ih =>
    obtain ⟨st₁, h₁, hst₁⟩ := executes_file guest st file hst
      (hfits file List.mem_cons_self)
    obtain ⟨st', h', hst'⟩ := ih st₁ hst₁ fun g hg => hfits g (List.mem_cons_of_mem _ hg)
    exact ⟨st', h₁.append h', hst'⟩

/-- **All tests are executed**, each once and in order, and the reading stops at the end of the
    array of files. -/
theorem moontest_executes (guest : TestGuest) (spec : TestSpec pg)
    (hexp : guest.executeExported = true)
    (hfits : ∀ file ∈ spec.files, file.filename.1.length ≤ varattMax - varhdrsz) :
    ∃ st, moontestRun pg guest spec.doc = (.returns (), st) ∧ st.calls = spec.executes ∧
      st.expect = .eFileTuple := by
  obtain ⟨st, es, hst, hcalls, hdrive⟩ := drive_spec guest spec
  have hstart : testSem pg guest st .arrayStart =
      ({ st with expect := .eFileTuple }, .success) := by
    simp only [testSem, jsonArrayStartCb, hst]
  obtain ⟨st', hfiles, hst'⟩ := executes_files guest
    { st with expect := .eFileTuple } spec.files rfl hfits
  have hend : testSem pg guest st' .arrayEnd = (st', .failed) := by
    simp only [testSem, jsonArrayEndCb, hst']
  have hstop : drive (testSem pg guest) st (Doc.events JsonToken.isNull
      (.array (spec.files.map FileSpec.doc)) ++ es) = (st', .failed) := by
    rw [Doc.events, List.cons_append, drive_cons_success hstart, List.append_assoc,
      drive_append_success hfiles.drive]
    exact drive_cons_stop hend (by simp)
  refine ⟨st', ?_, ?_, hst'⟩
  · rw [moontestRun, hexp, hdrive, hstop]; rfl
  · rw [hfiles.calls, hcalls]; rfl

end Rustica
